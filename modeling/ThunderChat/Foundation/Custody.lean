import Mathlib.Tactic.TypeStar

/-!
Things handed from one place to another.

`At p c` says that the place `p` has the thing `c`. A step of a system moves one thing,
creates one or destroys one. `Inv` says that a thing is at one place at most and that
what is gone is nowhere; each kind of step keeps it.
-/

namespace ThunderChat.Custody

variable {P C : Type*}

/-- A thing is at one place at most, what is gone is nowhere, and only what has been
created is anywhere or gone. -/
structure Inv (At : P → C → Prop) (Gone Born : C → Prop) : Prop where
  exclusive : ∀ {p q : P} {c : C}, At p c → At q c → p = q
  live : ∀ {p : P} {c : C}, At p c → ¬ Gone c
  born : ∀ {p : P} {c : C}, At p c → Born c
  born_of_gone : ∀ {c : C}, Gone c → Born c

variable {At At' : P → C → Prop} {Gone Gone' Born Born' : C → Prop} {p q : P} {c : C}

/-- Nothing is moved, or a thing is lost. -/
theorem Inv.stay (h : Inv At Gone Born) (hstay : ∀ r d, At' r d → At r d) :
    Inv At' Gone Born where
  exclusive hp hq := h.exclusive (hstay _ _ hp) (hstay _ _ hq)
  live hp := h.live (hstay _ _ hp)
  born hp := h.born (hstay _ _ hp)
  born_of_gone := h.born_of_gone

/-- A thing is created that is nowhere. -/
theorem Inv.grow (h : Inv At Gone Born) (hborn : ∀ d, Born d → Born' d) : Inv At Gone Born' where
  exclusive := h.exclusive
  live := h.live
  born hp := hborn _ (h.born hp)
  born_of_gone hd := hborn _ (h.born_of_gone hd)

/-- A thing is moved: it has left its place, and only the new place got it. -/
theorem Inv.move (h : Inv At Gone Born) (hfrom : At p c)
    (hmove : ∀ r d, At' r d → At r d ∧ (r = p → d ≠ c) ∨ r = q ∧ d = c) :
    Inv At' Gone Born where
  exclusive := by
    intro r r' d hr hr'
    rcases hmove r d hr with ⟨hat, hleft⟩ | ⟨hq, hd⟩ <;>
      rcases hmove r' d hr' with ⟨hat', hleft'⟩ | ⟨hq', hd'⟩
    · exact h.exclusive hat hat'
    · exact absurd hd' (hleft (h.exclusive (hd' ▸ hat) hfrom))
    · exact absurd hd (hleft' (h.exclusive (hd ▸ hat') hfrom))
    · rw [hq, hq']
  live := by
    intro r d hr
    rcases hmove r d hr with ⟨hat, -⟩ | ⟨-, rfl⟩
    · exact h.live hat
    · exact h.live hfrom
  born := by
    intro r d hr
    rcases hmove r d hr with ⟨hat, -⟩ | ⟨-, rfl⟩
    · exact h.born hat
    · exact h.born hfrom
  born_of_gone := h.born_of_gone

/-- A thing is created at a place. -/
theorem Inv.create (h : Inv At Gone Born) (hnew : ¬ Born c)
    (hborn : ∀ d, Born d ∨ d = c → Born' d)
    (hcreate : ∀ r d, At' r d → At r d ∨ r = q ∧ d = c) : Inv At' Gone Born' where
  exclusive := by
    intro r r' d hr hr'
    rcases hcreate r d hr with hat | ⟨hq, hd⟩ <;> rcases hcreate r' d hr' with hat' | ⟨hq', hd'⟩
    · exact h.exclusive hat hat'
    · exact absurd (hd' ▸ h.born hat) hnew
    · exact absurd (hd ▸ h.born hat') hnew
    · rw [hq, hq']
  live := by
    intro r d hr
    rcases hcreate r d hr with hat | ⟨-, rfl⟩
    · exact h.live hat
    · exact fun hgone => hnew (h.born_of_gone hgone)
  born := by
    intro r d hr
    rcases hcreate r d hr with hat | ⟨-, rfl⟩
    · exact hborn d (.inl (h.born hat))
    · exact hborn d (.inr rfl)
  born_of_gone hgone := hborn _ (.inl (h.born_of_gone hgone))

/-- A thing is destroyed: it has left its place. -/
theorem Inv.destroy (h : Inv At Gone Born) (hfrom : At p c)
    (hleft : ∀ r d, At' r d → At r d ∧ (r = p → d ≠ c))
    (hgone : ∀ d, Gone' d → Gone d ∨ d = c) : Inv At' Gone' Born where
  exclusive hp hq := h.exclusive (hleft _ _ hp).1 (hleft _ _ hq).1
  live := by
    intro r d hr hd
    obtain ⟨hat, hne⟩ := hleft r d hr
    rcases hgone d hd with hd | rfl
    · exact h.live hat hd
    · exact hne (h.exclusive hat hfrom) rfl
  born hp := h.born (hleft _ _ hp).1
  born_of_gone hd := by
    rcases hgone _ hd with hd | rfl
    · exact h.born_of_gone hd
    · exact h.born hfrom

end ThunderChat.Custody

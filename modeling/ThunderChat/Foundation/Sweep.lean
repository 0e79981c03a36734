import Mathlib.Data.List.Basic
import Mathlib.Data.List.Infix

/-!
Erasing elements of a linked list while an iterator walks over it.

The list is split by the iterator: `front` are the elements in front of it, and the
elements from the iterator on are what the recursion goes over. `erase` leaves the iterator
on the element behind the erased one. A loop that advances the iterator after an `erase`,
too, passes over that element without looking at it, and leaves the list when there is none.

* `sweep_of_isolated`, `isolated_of_sweep`: such a loop keeps just the elements that are not
  dead when each dead one is directly followed by one that is not, and only then.
-/

namespace ThunderChat.Sweep

variable {α : Type*} (dead : α → Bool)

/-- The loop: what is left and what was erased, or nothing where the iterator is advanced
past the end. -/
def sweep (front erased : List α) : List α → Option (List α × List α)
  | [] => some (front, erased)
  | a :: rest =>
      if dead a then
        match rest with
        | [] => none
        | next :: rest => sweep (front ++ [next]) (erased ++ [a]) rest
      else sweep (front ++ [a]) erased rest

/-- Each dead element is directly followed by one that is not dead. -/
def Isolated (l : List α) : Prop :=
  ∀ a rest, a :: rest <:+ l → dead a → ∃ next ∈ rest.head?, dead next = false

variable {dead} {a next : α} {front erased rest kept gone : List α}

theorem isolated_nil : Isolated dead [] := by
  intro a rest h
  exact absurd (List.suffix_nil.mp h) (List.cons_ne_nil _ _)

theorem isolated_cons : Isolated dead (a :: rest) ↔
    (dead a → ∃ next ∈ rest.head?, dead next = false) ∧ Isolated dead rest := by
  constructor
  · intro h
    exact ⟨h a rest List.suffix_rfl, fun b tail hb => h b tail (hb.trans (List.suffix_cons a rest))⟩
  · rintro ⟨hfirst, hrest⟩ b tail hb
    rcases List.suffix_cons_iff.mp hb with heq | htail
    · obtain ⟨rfl, rfl⟩ := List.cons.inj heq
      exact hfirst
    · exact hrest b tail htail

/-- What the iterator has passed stays. -/
theorem prefix_of_sweep (h : sweep dead front erased rest = some (kept, gone)) :
    front <+: kept := by
  fun_induction sweep dead front erased rest with
  | case1 front erased =>
      cases h
      exact List.prefix_rfl
  | case2 => cases h
  | case3 front erased a _ next rest ih => exact (List.prefix_append _ _).trans (ih h)
  | case4 front erased a rest _ ih => exact (List.prefix_append _ _).trans (ih h)

theorem sweep_of_isolated (h : Isolated dead rest) :
    sweep dead front erased rest
      = some (front ++ rest.filter (fun a => !dead a), erased ++ rest.filter dead) := by
  fun_induction sweep dead front erased rest with
  | case1 => simp
  | case2 front erased a hdead =>
      obtain ⟨next, hnext, -⟩ := (isolated_cons.mp h).1 hdead
      cases hnext
  | case3 front erased a hdead next rest ih =>
      obtain ⟨hfirst, hrest⟩ := isolated_cons.mp h
      obtain ⟨b, hb, halive⟩ := hfirst hdead
      obtain rfl : next = b := Option.some.inj hb
      rw [ih (isolated_cons.mp hrest).2]
      simp [hdead, halive]
  | case4 front erased a rest halive ih =>
      rw [ih (isolated_cons.mp h).2]
      simp [halive]

/-- Whatever is kept behind the iterator's first position is not dead only if every dead
element is isolated: one that follows a dead one is passed over. -/
theorem isolated_of_sweep
    (h : sweep dead front erased rest = some (front ++ rest.filter (fun a => !dead a), gone)) :
    Isolated dead rest := by
  fun_induction sweep dead front erased rest with
  | case1 => exact isolated_nil
  | case2 => cases h
  | case3 front erased a hdead next rest ih =>
      have hpassed : front ++ [next] <+: front ++ (a :: next :: rest).filter (fun a => !dead a) :=
        prefix_of_sweep h
      have hmem := ((List.prefix_append_right_inj front).mp hpassed).subset List.mem_cons_self
      have halive : dead next = false := by simpa using (List.mem_filter.mp hmem).2
      have hkept : front ++ (a :: next :: rest).filter (fun a => !dead a)
          = front ++ [next] ++ rest.filter fun a => !dead a := by
        simp [hdead, halive]
      rw [hkept] at h
      refine isolated_cons.mpr ⟨fun _ => ⟨next, rfl, halive⟩, isolated_cons.mpr ⟨?_, ih h⟩⟩
      intro hnext
      rw [halive] at hnext
      cases hnext
  | case4 front erased a rest halive ih =>
      have hkept : front ++ (a :: rest).filter (fun a => !dead a)
          = front ++ [a] ++ rest.filter fun a => !dead a := by
        simp [halive]
      rw [hkept] at h
      exact isolated_cons.mpr ⟨fun hdead => absurd hdead halive, ih h⟩

end ThunderChat.Sweep

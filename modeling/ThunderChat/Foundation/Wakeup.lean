import Mathlib.Data.Fintype.Card

/-!
Waiting on a condition variable, one signal for each unit that becomes available.

A thread waits for a unit, has been signalled and is on its way back to the mutex, or is
elsewhere. `Covered` says that no wake-up is lost: as long as some thread waits that has not
been signalled, there are no more units than signalled threads. Each step that a thread, the
kernel or a newcomer can make keeps it.
-/

namespace ThunderChat.Wakeup

/-- A thread as its condition variable sees it. -/
inductive Phase where
  | elsewhere | waiting | signalled
  deriving DecidableEq, Repr

variable {T : Type*} [Fintype T]

/-- The threads that have been signalled and have not got the mutex back. -/
def signalled (phase : T → Phase) : Finset T := Finset.univ.filter fun t => phase t = .signalled

/-- While a thread waits that has not been signalled, the available units are those that
signalled threads are on their way to. -/
def Covered (available : Nat) (phase : T → Phase) : Prop :=
  (∃ t, phase t = .waiting) → available ≤ (signalled phase).card

/-- What one signal may do: it moves some of the waiting threads, and at least one if there
is one. -/
structure Moves (phase : T → Phase) (moved : Finset T) : Prop where
  waiting : ∀ t ∈ moved, phase t = .waiting
  some_moved : (∃ t, phase t = .waiting) → moved.Nonempty

instance (phase : T → Phase) (moved : Finset T) : Decidable (Moves phase moved) :=
  decidable_of_iff ((∀ t ∈ moved, phase t = .waiting) ∧
      ((∃ t, phase t = .waiting) → moved.Nonempty))
    ⟨fun h => ⟨h.1, h.2⟩, fun h => ⟨h.1, h.2⟩⟩

variable {available less : Nat} {phase phase' : T → Phase} {t : T} {moved : Finset T}

@[simp] theorem mem_signalled : t ∈ signalled phase ↔ phase t = .signalled := by
  simp [signalled]

theorem Covered.mono (h : Covered available phase) (hle : less ≤ available) : Covered less phase :=
  fun hwaits => hle.trans (h hwaits)

/-- Threads that wait or have been signalled stay, and no other waits now. -/
theorem Covered.congr (h : Covered available phase)
    (hwaiting : ∀ i, phase' i = .waiting → phase i = .waiting)
    (hsignalled : ∀ i, phase i = .signalled → phase' i = .signalled) :
    Covered available phase' := by
  rintro ⟨i, hi⟩
  have hle := h ⟨i, hwaiting i hi⟩
  have hsubset : signalled phase ⊆ signalled phase' := fun j hj =>
    mem_signalled.mpr (hsignalled j (mem_signalled.mp hj))
  exact hle.trans (Finset.card_le_card hsubset)

/-- A signalled thread gets the mutex and takes a unit. -/
theorem Covered.take [DecidableEq T] (h : Covered available phase)
    (hwaiting : ∀ i, phase' i = .waiting → phase i = .waiting)
    (hsignalled : ∀ i, i ≠ t → phase i = .signalled → phase' i = .signalled) :
    Covered (available - 1) phase' := by
  rintro ⟨i, hi⟩
  have hle := h ⟨i, hwaiting i hi⟩
  have hsub : (signalled phase).erase t ⊆ signalled phase' := by
    intro j hj
    obtain ⟨hne, hj⟩ := Finset.mem_erase.mp hj
    exact mem_signalled.mpr (hsignalled j hne (mem_signalled.mp hj))
  have hcard := Finset.card_le_card hsub
  have herase := Finset.pred_card_le_card_erase (s := signalled phase) (a := t)
  omega

/-- One more unit becomes available, and its signal moves a waiting thread. -/
theorem Covered.signal [DecidableEq T] (h : Covered available phase) (hmoves : Moves phase moved)
    (hmoved : ∀ i ∈ moved, phase' i = .signalled) (hrest : ∀ i ∉ moved, phase' i = phase i) :
    Covered (available + 1) phase' := by
  rintro ⟨i, hi⟩
  have hnot : i ∉ moved := by
    intro hmem
    rw [hmoved i hmem] at hi
    cases hi
  rw [hrest i hnot] at hi
  have hle := h ⟨i, hi⟩
  have hne := hmoves.some_moved ⟨i, hi⟩
  have hdisjoint : Disjoint (signalled phase) moved := by
    refine Finset.disjoint_left.mpr fun j hj hmem => ?_
    have hj := mem_signalled.mp hj
    rw [hmoves.waiting j hmem] at hj
    cases hj
  have hsub : (signalled phase) ∪ moved ⊆ signalled phase' := by
    intro j hj
    rw [mem_signalled]
    by_cases hmem : j ∈ moved
    · exact hmoved j hmem
    · rw [hrest j hmem]
      exact mem_signalled.mp ((Finset.mem_union.mp hj).resolve_right hmem)
  have hcard := Finset.card_le_card hsub
  rw [Finset.card_union_of_disjoint hdisjoint] at hcard
  have hpos := Finset.card_pos.mpr hne
  omega

end ThunderChat.Wakeup

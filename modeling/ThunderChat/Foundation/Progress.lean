import Mathlib.Order.WellFounded
import ThunderChat.Foundation.Transition

/-!
Why a system of threads does not stop half-way.

Threads that hand items on through queues can stop in two ways: each waits for another, or
they go on for ever. `drained_of_blocked` excludes the first where the queues have an order
and the server of a queue is only ever held up by queues below. `inevitable_of_decreasing`
excludes the second by a measure, and puts both together: whatever the threads do, what is
to be reached is reached. `not_inevitable_of_avoids` is for the systems where it is not.
-/

namespace ThunderChat

namespace Progress

/-- What a thread that cannot go on waits for. -/
inductive Wait (Q : Type*) where
  | item (q : Q)
  | room (q : Q)

/-- **No circle of waits.** A thread waits for an item only if the queue is empty, and for
room only if it is not. If the server of each queue waits for an item of it, or for room in
one below, all queues are empty, so that nobody waits for room. -/
theorem drained_of_blocked {T Q : Type*} [Preorder Q] [WellFoundedLT Q]
    {Waits : T → Wait Q → Prop} {Empty : Q → Prop} (hitem : ∀ t q, Waits t (.item q) → Empty q)
    (hroom : ∀ t q, Waits t (.room q) → ¬ Empty q) {server : Q → T}
    (hserver : ∀ q, Waits (server q) (.item q) ∨ ∃ q' < q, Waits (server q) (.room q')) :
    (∀ q, Empty q) ∧ ∀ t q, ¬ Waits t (.room q) := by
  have hempty : ∀ q, Empty q := by
    intro q
    induction q using WellFoundedLT.induction with
    | ind q ih =>
        rcases hserver q with hwaits | ⟨q', hlt, hwaits⟩
        · exact hitem _ _ hwaits
        · exact absurd (ih q' hlt) (hroom _ _ hwaits)
  exact ⟨hempty, fun t q hwaits => hroom t q hwaits (hempty q)⟩

end Progress

namespace Transition

variable {σ ι : Type*} (step : σ → ι → Option σ) (own : ι → Prop)

/-- None of the system's own steps is possible. -/
def Stuck (s : σ) : Prop := ∀ label s', own label → step s label ≠ some s'

/-- Whichever of its own steps the system takes, and in whatever order, it gets to a state
that meets the condition: it neither gets stuck before nor goes on for ever. -/
inductive Inevitable (Goal : σ → Prop) : σ → Prop where
  | now {s : σ} : Goal s → Inevitable Goal s
  | later {s : σ} : ¬ Stuck step own s →
      (∀ label s', own label → step s label = some s' → Inevitable Goal s') → Inevitable Goal s

variable {step own} {Goal Goal' Inv : σ → Prop} {s : σ}

theorem Inevitable.mono (h : Inevitable step own Goal s) (hgoal : ∀ s, Goal s → Goal' s) :
    Inevitable step own Goal' s := by
  induction h with
  | now hs => exact .now (hgoal _ hs)
  | later hmoves _ ih => exact .later hmoves ih

/-- A measure that every own step makes smaller, and a condition that holds where none is
possible. -/
theorem inevitable_of_decreasing {W : Type*} [Preorder W] [WellFoundedLT W] {μ : σ → W}
    (preserved : ∀ {s s' : σ} {label : ι}, Inv s → step s label = some s' → Inv s')
    (decreases : ∀ {s s' : σ} {label : ι}, Inv s → own label → step s label = some s' →
      μ s' < μ s)
    (stuck : ∀ {s : σ}, Inv s → Stuck step own s → Goal s) (hs : Inv s) :
    Inevitable step own (fun s => Inv s ∧ Goal s) s := by
  induction hμ : μ s using WellFoundedLT.induction generalizing s with
  | ind w ih =>
      by_cases hstuck : Stuck step own s
      · exact .now ⟨hs, stuck hs hstuck⟩
      · refine .later hstuck fun label s' hown hstep => ?_
        exact ih (μ s') (hμ ▸ decreases hs hown hstep) (preserved hs hstep) rfl

/-- A schedule that keeps away from the condition for ever, or gets stuck before it. -/
theorem not_inevitable_of_avoids {A : σ → Prop} (avoids : ∀ {s : σ}, A s → ¬ Goal s)
    (continues : ∀ {s s' : σ} {label : ι}, A s → own label → step s label = some s' →
      ∃ label' s'', own label' ∧ step s label' = some s'' ∧ A s'') (hs : A s) :
    ¬ Inevitable step own Goal s := by
  intro h
  induction h with
  | now hgoal => exact avoids hs hgoal
  | @later s hmoves _ ih =>
      have hmove : ∃ label s', own label ∧ step s label = some s' := by
        by_contra hnone
        exact hmoves fun label s' hown hstep => hnone ⟨label, s', hown, hstep⟩
      obtain ⟨label, s', hown, hstep⟩ := hmove
      obtain ⟨label', s'', hown', hstep', hs'⟩ := continues hs hown hstep
      exact ih label' s'' hown' hstep' hs'

end Transition

end ThunderChat

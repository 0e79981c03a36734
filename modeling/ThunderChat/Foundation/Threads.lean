import Mathlib.Algebra.BigOperators.Group.Finset.Piecewise
import Mathlib.Algebra.BigOperators.Pi

/-!
The state of one thread of many changes.

Threads have a type of their own, their states are a function on it, and a step replaces
one value. `sum_update` is what such a step does to a sum over all threads, and
`Apart.update` says when no two threads hold the same thing afterwards.
-/

namespace ThunderChat.Threads

open scoped BigOperators

variable {ι β N : Type*} [DecidableEq ι] {states : ι → β} {t : ι} {x : β}

/-- A sum over all threads gets the new state's term for the old one's. -/
theorem sum_update [Fintype ι] [AddCommMonoid N] (f : β → N) :
    ∑ i, f (Function.update states t x i) + f (states t) = ∑ i, f (states i) + f x := by
  have hupdate : (fun i => f (Function.update states t x i))
      = Function.update (fun i => f (states i)) t (f x) := by
    funext i
    exact Function.apply_update (fun _ => f) states t x i
  rw [hupdate, Finset.sum_update_of_mem (Finset.mem_univ t),
    Finset.sum_eq_add_sum_sdiff_singleton_of_mem (Finset.mem_univ t) fun i => f (states i),
    add_comm (f x), add_assoc, add_comm (f x), ← add_assoc,
    add_comm (∑ i ∈ Finset.univ \ {t}, f (states i))]

/-- What is known of all things held, from the new state and the other threads. -/
theorem forall_holds_update {γ : Type*} {holds : β → Option γ} {P : γ → Prop}
    (hx : ∀ y, holds x = some y → P y)
    (hrest : ∀ i, i ≠ t → ∀ y, holds (states i) = some y → P y) :
    ∀ i y, holds (Function.update states t x i) = some y → P y := by
  intro i y hi
  by_cases hit : i = t
  · rw [hit, Function.update_self] at hi
    exact hx y hi
  · rw [Function.update_of_ne hit] at hi
    exact hrest i hit y hi

/-- Each thing is held by one thread at most. -/
def Apart {γ : Type*} (holds : β → Option γ) (states : ι → β) : Prop :=
  ∀ i j x, holds (states i) = some x → holds (states j) = some x → i = j

/-- It stays so when a thread goes to a state in which it holds what no other does. -/
theorem Apart.update {γ : Type*} {holds : β → Option γ} (h : Apart holds states)
    (hnew : ∀ y, holds x = some y → ∀ i, i ≠ t → holds (states i) ≠ some y) :
    Apart holds (Function.update states t x) := by
  intro i j y hi hj
  by_cases hit : i = t <;> by_cases hjt : j = t
  · rw [hit, hjt]
  · rw [hit, Function.update_self] at hi
    rw [Function.update_of_ne hjt] at hj
    exact absurd hj (hnew y hi j hjt)
  · rw [Function.update_of_ne hit] at hi
    rw [hjt, Function.update_self] at hj
    exact absurd hi (hnew y hj i hit)
  · rw [Function.update_of_ne hit] at hi
    rw [Function.update_of_ne hjt] at hj
    exact h i j y hi hj

/-- In particular when it holds what it has held, or nothing. -/
theorem Apart.update_of_keeps {γ : Type*} {holds : β → Option γ} (h : Apart holds states)
    (hkeeps : ∀ y, holds x = some y → holds (states t) = some y) :
    Apart holds (Function.update states t x) :=
  h.update fun y hy i hit hi => hit (h i t y hi (hkeeps y hy))

end ThunderChat.Threads

import Mathlib.Data.List.Basic

/-!
Bounded first-in-first-out queues, as histories of operations.

`Serves` says what contents a queue has after a history of operations: a push needs
a free place and appends, a pop hands out the front. `Serves.pushed_eq` is the FIFO
law: what has been pushed is what has been popped followed by what is still there,
so nothing is lost, duplicated or reordered.
-/

namespace ThunderChat.BoundedFifo

variable {α : Type*} {cap : Nat}

/-- A completed operation of a queue. -/
inductive Op (α : Type*) where
  | push (x : α)
  | pop (x : α)

/-- The elements pushed, in this order. -/
def pushed (history : List (Op α)) : List α :=
  history.filterMap fun op => match op with
    | .push x => some x
    | .pop _ => none

/-- The elements popped, in this order. -/
def popped (history : List (Op α)) : List α :=
  history.filterMap fun op => match op with
    | .push _ => none
    | .pop x => some x

/-- The contents of a queue of this capacity after a history, oldest first. -/
inductive Serves (cap : Nat) : List (Op α) → List α → Prop where
  | empty : Serves cap [] []
  | push {history : List (Op α)} {xs : List α} (x : α) : Serves cap history xs →
      xs.length < cap → Serves cap (history ++ [.push x]) (xs ++ [x])
  | pop {history : List (Op α)} {x : α} {xs : List α} : Serves cap history (x :: xs) →
      Serves cap (history ++ [.pop x]) xs

variable {history : List (Op α)} {xs : List α}

@[simp] theorem pushed_push (x : α) : pushed (history ++ [.push x]) = pushed history ++ [x] := by
  simp [pushed]

@[simp] theorem pushed_pop (x : α) : pushed (history ++ [.pop x]) = pushed history := by
  simp [pushed]

@[simp] theorem popped_push (x : α) : popped (history ++ [.push x]) = popped history := by
  simp [popped]

@[simp] theorem popped_pop (x : α) : popped (history ++ [.pop x]) = popped history ++ [x] := by
  simp [popped]

/-- **The FIFO law.** What has been pushed is what has been popped, and then the
contents. -/
theorem Serves.pushed_eq (h : Serves cap history xs) : pushed history = popped history ++ xs := by
  induction h with
  | empty => rfl
  | push x _ _ ih => rw [pushed_push, popped_push, ih, List.append_assoc]
  | pop _ ih => rw [pushed_pop, popped_pop, ih, List.append_assoc, List.singleton_append]

/-- What has been popped is a prefix of what has been pushed. -/
theorem Serves.popped_prefix (h : Serves cap history xs) : popped history <+: pushed history :=
  ⟨xs, h.pushed_eq.symm⟩

end ThunderChat.BoundedFifo

import Mathlib.Data.List.Nodup

/-!
A loop over a linked list that changes meanwhile.

The iterator points to an element or to the end. An element that is inserted at the back is
come to as well, unless the iterator is at the end. One that is erased is not come to any
more; the iterator stays valid if it points to another one, and if not the loop must not go
on, which is for the user of this module to say.

* `mem_ahead_insert`, `mem_ahead_erase`: what such changes do to what is ahead.
-/

namespace ThunderChat

/-- The elements from the one the iterator points to on, and whether the loop has come to
that one. -/
structure Traversal (α : Type*) where
  left : List α
  come : Bool

namespace Traversal

variable {α : Type*}

/-- `begin`. -/
def begin (l : List α) : Traversal α := ⟨l, false⟩

/-- The elements the loop has still to come to. -/
def ahead (t : Traversal α) : List α := if t.come then t.left.tail else t.left

/-- An element is inserted at the back. -/
def insert (x : α) (t : Traversal α) : Traversal α :=
  match t.left with
  | [] => t
  | y :: rest => ⟨y :: (rest ++ [x]), t.come⟩

/-- An element is erased. -/
def erase [DecidableEq α] (x : α) (t : Traversal α) : Traversal α :=
  match t.left with
  | [] => t
  | y :: rest => ⟨y :: rest.filter (· ≠ x), t.come⟩

/-- The loop comes to the element. -/
def visit (t : Traversal α) : Traversal α := { t with come := true }

/-- The iterator goes on. -/
def advance (t : Traversal α) : Traversal α := ⟨t.left.tail, false⟩

variable {t : Traversal α} {x y : α} {rest : List α}

theorem insert_of_nil (h : t.left = []) : t.insert x = t := by
  rw [insert, h]

theorem insert_of_cons (h : t.left = y :: rest) : t.insert x = ⟨y :: (rest ++ [x]), t.come⟩ := by
  rw [insert, h]

theorem erase_of_nil [DecidableEq α] (h : t.left = []) : t.erase x = t := by
  rw [erase, h]

theorem erase_of_cons [DecidableEq α] (h : t.left = y :: rest) :
    t.erase x = ⟨y :: rest.filter (· ≠ x), t.come⟩ := by
  rw [erase, h]

/-! ### What is ahead -/

theorem ahead_of_nil (h : t.left = []) : t.ahead = [] := by
  rw [ahead, h]
  cases t.come <;> rfl

theorem ahead_of_cons (h : t.left = y :: rest) : t.ahead = if t.come then rest else y :: rest := by
  rw [ahead, h, List.tail_cons]

theorem ahead_subset : t.ahead ⊆ t.left := by
  rw [ahead]
  split
  · exact (List.tail_sublist t.left).subset
  · exact List.Subset.refl _

theorem ahead_visit (h : t.left = y :: rest) : t.visit.ahead = rest :=
  ahead_of_cons (t := t.visit) h

theorem ahead_advance (h : t.come = true) : t.advance.ahead = t.ahead := by
  rw [ahead, ahead, h]
  rfl

theorem mem_ahead_insert : y ∈ (t.insert x).ahead ↔ y ∈ t.ahead ∨ t.left ≠ [] ∧ y = x := by
  cases hleft : t.left with
  | nil => simp [insert_of_nil hleft]
  | cons z rest =>
      rw [insert_of_cons hleft, ahead_of_cons rfl, ahead_of_cons hleft]
      cases t.come <;> simp [or_assoc]

theorem mem_ahead_erase [DecidableEq α] (h : y ≠ x) : y ∈ (t.erase x).ahead ↔ y ∈ t.ahead := by
  cases hleft : t.left with
  | nil => rw [erase_of_nil hleft]
  | cons z rest =>
      rw [erase_of_cons hleft, ahead_of_cons rfl, ahead_of_cons hleft]
      cases t.come <;> simp [h]

/-! ### No element twice -/

theorem mem_left_insert (h : y ∈ (t.insert x).left) : y ∈ t.left ∨ y = x := by
  cases hleft : t.left with
  | nil =>
      rw [insert_of_nil hleft, hleft] at h
      cases h
  | cons z rest =>
      rw [insert_of_cons hleft] at h
      simpa [or_assoc] using h

theorem left_erase_sublist [DecidableEq α] : (t.erase x).left.Sublist t.left := by
  cases hleft : t.left with
  | nil => rw [erase_of_nil hleft, hleft]
  | cons z rest =>
      rw [erase_of_cons hleft]
      exact List.Sublist.cons_cons z List.filter_sublist

theorem nodup_insert (h : t.left.Nodup) (hx : x ∉ t.left) : (t.insert x).left.Nodup := by
  cases hleft : t.left with
  | nil => rwa [insert_of_nil hleft]
  | cons z rest =>
      rw [hleft] at h hx
      rw [insert_of_cons hleft]
      exact List.Nodup.append h (List.nodup_singleton x) (List.disjoint_singleton.mpr hx)

end Traversal

end ThunderChat

import Mathlib.Data.List.Basic
import Mathlib.Data.List.Range
import Mathlib.Data.Nat.ModEq
import Mathlib.Logic.Function.Basic

/-!
Cells of a circular memory.

A memory is a total function on cell numbers. `slice` reads consecutive cells,
`window` reads cells whose numbers wrap at a capacity, `blit` overwrites
consecutive cells and `wrapBlit` overwrites with at most one wrap. The last
section is the FIFO law of a ring: writing behind a window appends to it
(`window_wrapBlit`, `window_update` for one cell), and a window splits where a
reader stops (`window_append`, `window_succ` for one cell).
-/

namespace ThunderChat.RingIndex

variable {α : Type}

/-- The `n` cells from `start` on, without wrapping. -/
def slice (mem : Nat → α) (start n : Nat) : List α :=
  (List.range n).map fun i => mem (start + i)

/-- The `n` cells from `start` on, cell numbers taken modulo `cap`. -/
def window (mem : Nat → α) (cap start n : Nat) : List α :=
  (List.range n).map fun i => mem ((start + i) % cap)

/-- Overwrite the cells from `start` on with `xs`, without wrapping. -/
def blit (mem : Nat → α) (start : Nat) (xs : List α) : Nat → α :=
  fun i => if start ≤ i then (xs[i - start]?).getD (mem i) else mem i

/-- Overwrite the cells from `start` on with `xs`, going on at cell `0` when the
capacity is reached. -/
def wrapBlit (mem : Nat → α) (cap start : Nat) (xs : List α) : Nat → α :=
  if start + xs.length ≤ cap then blit mem start xs
  else blit (blit mem start (xs.take (cap - start))) 0 (xs.drop (cap - start))

variable {mem mem' : Nat → α} {cap start n m : Nat} {xs : List α}

@[simp] theorem length_slice : (slice mem start n).length = n := by simp [slice]

@[simp] theorem length_window : (window mem cap start n).length = n := by simp [window]

theorem getElem?_slice (i : Nat) :
    (slice mem start n)[i]? = if i < n then some (mem (start + i)) else none := by
  unfold slice
  split <;> simp_all

/-- One wrap at most: the cell number of an offset below the capacity. -/
theorem wrap_index {i : Nat} (hs : start < cap) (hi : i ≤ cap) :
    (start + i) % cap = if start + i < cap then start + i else start + i - cap := by
  split
  · next h => exact Nat.mod_eq_of_lt h
  · next h =>
      rw [Nat.mod_eq_sub_mod (by omega), Nat.mod_eq_of_lt (by omega)]

/-! ### Reading -/

theorem slice_congr (h : ∀ i < n, mem (start + i) = mem' (start + i)) :
    slice mem start n = slice mem' start n :=
  List.map_congr_left fun i hi => h i (List.mem_range.mp hi)

theorem window_congr (h : ∀ i < n, mem ((start + i) % cap) = mem' ((start + i) % cap)) :
    window mem cap start n = window mem' cap start n :=
  List.map_congr_left fun i hi => h i (List.mem_range.mp hi)

/-- Two slices side by side. -/
theorem slice_append : slice mem start (n + m) = slice mem start n ++ slice mem (start + n) m := by
  simp [slice, List.range_add, Function.comp_def, Nat.add_assoc]

/-- A window splits where a reader stops. -/
theorem window_append :
    window mem cap start (n + m) =
      window mem cap start n ++ window mem cap ((start + n) % cap) m := by
  simp [window, List.range_add, Function.comp_def, Nat.add_assoc]

/-- A window that does not cross the right edge is a slice. -/
theorem window_eq_slice (h : start + n ≤ cap) : window mem cap start n = slice mem start n :=
  List.map_congr_left fun i hi => by
    rw [Nat.mod_eq_of_lt (by have := List.mem_range.mp hi; omega)]

/-- A window that crosses the right edge is the two slices beside it. -/
theorem window_eq_split (hs : start < cap) (hn : n ≤ cap) (h : cap ≤ start + n) :
    window mem cap start n = slice mem start (cap - start) ++ slice mem 0 (n - (cap - start)) := by
  obtain ⟨m, rfl⟩ : ∃ m, n = (cap - start) + m := ⟨n - (cap - start), by omega⟩
  rw [window_append, window_eq_slice (by omega), Nat.add_sub_cancel' hs.le, Nat.mod_self,
    window_eq_slice (by omega), Nat.add_sub_cancel_left]

/-! ### Writing -/

theorem blit_of_lt {i : Nat} (h : i < start) : blit mem start xs i = mem i := by
  simp [blit, Nat.not_le.mpr h]

theorem blit_of_ge {i : Nat} (h : start + xs.length ≤ i) : blit mem start xs i = mem i := by
  have : xs.length ≤ i - start := by omega
  simp [blit, List.getElem?_eq_none this]

/-- What was written is what is read back. -/
theorem slice_blit (hn : xs.length = n) : slice (blit mem start xs) start n = xs := by
  subst hn
  apply List.ext_getElem?
  intro i
  rw [getElem?_slice]
  split
  · next h => simp [blit, h]
  · next h => rw [List.getElem?_eq_none (by omega)]

/-- Cells beside the written ones keep their contents. -/
theorem slice_blit_of_disjoint {s : Nat} (h : s + n ≤ start ∨ start + xs.length ≤ s) :
    slice (blit mem start xs) s n = slice mem s n :=
  slice_congr fun i hi => by
    rcases h with h | h
    · exact blit_of_lt (by omega)
    · exact blit_of_ge (by omega)

/-- `wrapBlit` reads back through the window it was written to. -/
theorem window_wrapBlit_self (hs : start < cap) (hx : xs.length ≤ cap) :
    window (wrapBlit mem cap start xs) cap start xs.length = xs := by
  unfold wrapBlit
  split
  · next h => rw [window_eq_slice h, slice_blit rfl]
  · next h =>
      have htake : (xs.take (cap - start)).length = cap - start := by
        rw [List.length_take]; omega
      have hdrop : (xs.drop (cap - start)).length = xs.length - (cap - start) := List.length_drop
      rw [window_eq_split hs hx (by omega), slice_blit_of_disjoint (by rw [hdrop]; omega),
        slice_blit htake, slice_blit hdrop, List.take_append_drop]

/-- A cell that lies in front of the written ones, going round, is unchanged. -/
theorem wrapBlit_of_before {head used i : Nat} (hh : head < cap)
    (hstart : start = (head + used) % cap) (fits : used + xs.length ≤ cap) (hi : i < used) :
    wrapBlit mem cap start xs ((head + i) % cap) = mem ((head + i) % cap) := by
  rw [wrap_index hh (by omega : used ≤ cap)] at hstart
  rw [wrap_index hh (by omega : i ≤ cap)]
  unfold wrapBlit
  split
  · next h =>
      split
      · next hlt =>
          by_cases hstart' : head + used < cap
          · exact blit_of_lt (by rw [if_pos hstart'] at hstart; omega)
          · exact blit_of_ge (by rw [if_neg hstart'] at hstart; omega)
      · next hge =>
          exact blit_of_lt (by rw [if_neg (by omega)] at hstart; omega)
  · next h =>
      -- The write wraps, so the window in front of it does not.
      have hlin : head + used < cap := by
        by_contra hwrap
        rw [if_neg hwrap] at hstart
        omega
      rw [if_pos hlin] at hstart
      rw [if_pos (by omega)]
      rw [blit_of_ge (by rw [List.length_drop]; omega), blit_of_lt (by omega)]

/-- **The FIFO law of a ring.** Writing `xs` behind a window appends `xs` to it. -/
theorem window_wrapBlit {head used : Nat} (hh : head < cap) (fits : used + xs.length ≤ cap) :
    window (wrapBlit mem cap ((head + used) % cap) xs) cap head (used + xs.length)
      = window mem cap head used ++ xs := by
  rw [window_append]
  congr 1
  · exact window_congr fun i hi => wrapBlit_of_before hh rfl fits hi
  · exact window_wrapBlit_self (Nat.mod_lt _ (by omega)) (by omega)

/-- Writing one cell behind a window appends that cell. -/
theorem window_update {head used : Nat} (hh : head < cap) (free : used < cap) (x : α) :
    window (Function.update mem ((head + used) % cap) x) cap head (used + 1)
      = window mem cap head used ++ [x] := by
  have hin : (head + used) % cap + [x].length ≤ cap := Nat.mod_lt _ (Nat.zero_lt_of_lt hh)
  have hblit : wrapBlit mem cap ((head + used) % cap) [x]
      = Function.update mem ((head + used) % cap) x := by
    rw [wrapBlit, if_pos hin]
    funext i
    rcases Nat.lt_trichotomy i ((head + used) % cap) with hlt | rfl | hgt
    · rw [blit_of_lt hlt, Function.update_of_ne (Nat.ne_of_lt hlt)]
    · simp [blit]
    · have hbehind : (head + used) % cap + [x].length ≤ i := hgt
      rw [blit_of_ge hbehind, Function.update_of_ne (Nat.ne_of_gt hgt)]
  rw [← hblit]
  exact window_wrapBlit hh free

/-- The first cell of a window, and the window behind it. -/
theorem window_succ (hs : start < cap) :
    window mem cap start (n + 1) = mem start :: window mem cap ((start + 1) % cap) n := by
  rw [Nat.add_comm n 1, window_append]
  simp [window, Nat.mod_eq_of_lt hs]

end ThunderChat.RingIndex

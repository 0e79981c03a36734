import Mathlib.Data.Nat.Digits.Defs
import ThunderChat.Properties.Basic

/-!
What the servers make of the value of a property: a number, or the text in an array.

`atoi` has no defined result for a number that is no `int` (`none`). `strncpy` fills an array
up with zeros, or leaves it without one; reading on behind its end is not defined either.

* `atoi_decimal`: a number is read as it is written.
* `readArray_strncpy`: what comes out of an array.
-/

namespace ThunderChat.Properties

/-! ### Numbers -/

/-- `isdigit`. -/
def isDigit (c : UInt8) : Bool := 48 ≤ c && c ≤ 57

/-- What digits mean. -/
def digitsValue (s : Bytes) : Nat := s.foldl (fun n c => 10 * n + (c.toNat - 48)) 0

/-- The number at the beginning of a text, with its sign. -/
def signedValue (s : Bytes) : Int :=
  match s with
  | [] => 0
  | c :: rest =>
      if c = 45 then -(digitsValue (rest.takeWhile isDigit) : Int)
      else if c = 43 then digitsValue (rest.takeWhile isDigit)
      else digitsValue (s.takeWhile isDigit)

/-- `atoi`, of a C string. -/
def atoi (s : Bytes) : Option Int :=
  let value := signedValue (s.dropWhile isSpace)
  if -2 ^ 31 ≤ value ∧ value < 2 ^ 31 then some value else none

/-- A number as it is written. -/
def decimal (n : Nat) : Bytes :=
  if n = 0 then [48] else (Nat.digits 10 n).reverse.map fun d => UInt8.ofNat (48 + d)

theorem isDigit_digit {d : Nat} (h : d < 10) : isDigit (UInt8.ofNat (48 + d)) = true := by
  revert d
  decide

theorem toNat_digit {d : Nat} (h : d < 10) : (UInt8.ofNat (48 + d)).toNat - 48 = d := by
  revert d
  decide

theorem isDigit_of_mem_decimal {n : Nat} {c : UInt8} (h : c ∈ decimal n) : isDigit c = true := by
  rw [decimal] at h
  split at h
  · rw [List.mem_singleton.mp h]
    rfl
  · obtain ⟨d, hd, rfl⟩ := List.mem_map.mp h
    exact isDigit_digit (Nat.digits_lt_base (by decide) (List.mem_reverse.mp hd))

theorem digitsValue_map {l : List Nat} (h : ∀ d ∈ l, d < 10) :
    digitsValue (l.reverse.map fun d => UInt8.ofNat (48 + d)) = Nat.ofDigits 10 l := by
  rw [digitsValue, List.foldl_map, List.foldl_reverse]
  induction l with
  | nil => rfl
  | cons d l ih =>
      obtain ⟨hd, hl⟩ := List.forall_mem_cons.mp h
      rw [List.foldr_cons, ih hl, toNat_digit hd, Nat.ofDigits_cons]
      exact Nat.add_comm _ _

theorem digitsValue_decimal (n : Nat) : digitsValue (decimal n) = n := by
  rw [decimal]
  split
  · next h =>
      rw [h]
      rfl
  · rw [digitsValue_map fun d hd => Nat.digits_lt_base (by decide) hd, Nat.ofDigits_digits]

theorem decimal_ne_nil (n : Nat) : decimal n ≠ [] := by
  rw [decimal]
  split
  · exact List.cons_ne_nil _ _
  · next h => simpa [Nat.digits_eq_nil_iff_eq_zero] using h

/-- A digit is neither a space nor a sign. -/
theorem of_isDigit {c : UInt8} (h : isDigit c = true) : isSpace c = false ∧ c ≠ 45 ∧ c ≠ 43 := by
  refine ⟨Bool.eq_false_iff.mpr fun hspace => ?_, ?_, ?_⟩
  · rw [isDigit, Bool.and_eq_true, decide_eq_true_eq] at h
    rw [isSpace, Bool.or_eq_true, Bool.and_eq_true, decide_eq_true_eq, decide_eq_true_eq,
      decide_eq_true_eq] at hspace
    rcases hspace with rfl | ⟨-, hhigh⟩
    · exact absurd h.1 (by decide)
    · exact absurd (UInt8.le_trans h.1 hhigh) (by decide)
  · rintro rfl
    cases h
  · rintro rfl
    cases h

/-- **A number is read as it is written**, if it is an `int`. -/
theorem atoi_decimal {n : Nat} (h : n < 2 ^ 31) : atoi (decimal n) = some (n : Int) := by
  have hdigits : (decimal n).takeWhile isDigit = decimal n :=
    List.takeWhile_eq_self_iff.mpr fun c hc => isDigit_of_mem_decimal hc
  obtain ⟨c, rest, hcons⟩ := List.exists_cons_of_ne_nil (decimal_ne_nil n)
  have hc : isDigit c = true := isDigit_of_mem_decimal (hcons ▸ List.mem_cons_self)
  obtain ⟨hspace, hminus, hplus⟩ := of_isDigit hc
  have hvalue : signedValue ((decimal n).dropWhile isSpace) = n := by
    rw [hcons, List.dropWhile_cons_of_neg (by simp [hspace])]
    simp only [signedValue, hminus, hplus, if_false]
    rw [← hcons, hdigits, digitsValue_decimal]
  rw [atoi, hvalue]
  exact if_pos (by omega)

/-! ### Arrays -/

/-- `strncpy` into an array of `n` bytes. -/
def strncpy (n : Nat) (s : Bytes) : Bytes := s.take n ++ List.replicate (n - s.length) 0

/-- An array read as a C string. -/
def readArray (a : Bytes) : Option Bytes := if 0 ∈ a then some (cString a) else none

/-- The array holds the text and the zero behind it, or cannot be read. -/
theorem readArray_strncpy {n : Nat} {s : Bytes} (h : 0 ∉ s) :
    readArray (strncpy n s) = if s.length < n then some s else none := by
  by_cases hlt : s.length < n
  · have hzeros : ∃ k, List.replicate (n - s.length) (0 : UInt8) = 0 :: List.replicate k 0 :=
      ⟨n - s.length - 1, by rw [← List.replicate_succ]; congr 1; omega⟩
    obtain ⟨k, hk⟩ := hzeros
    rw [if_pos hlt, strncpy, List.take_of_length_le (Nat.le_of_lt hlt), hk, readArray,
      if_pos List.mem_append_cons_self]
    refine congrArg some ?_
    rw [cString, List.takeWhile_append_of_pos]
    · simp
    · intro c hc
      exact decide_eq_true fun heq => h (heq ▸ hc)
  · have hzero : 0 ∉ strncpy n s := by
      rw [strncpy, Nat.sub_eq_zero_of_le (Nat.not_lt.mp hlt), List.replicate_zero,
        List.append_nil]
      exact fun hmem => h (List.mem_of_mem_take hmem)
    rw [readArray, if_neg hzero, if_neg hlt]

end ThunderChat.Properties

import Mathlib
import ThunderChat.Foundation.Lines

/-!
`Properties`: a file of `key=value` lines and the map read from it.

A text is a list of bytes. `Load` takes one line after the other with `getline` into a
buffer of `MAX_LINE_SIZE` bytes; a line that does not fit sets the stream's failure state,
and the loop ends there. A line is a C string from then on. `AddMap` copies key and value
into two arrays with `strncpy`; a copy that is not terminated is read beyond its array by
the `strlen` behind it, and what happens then is not defined (`none`). Nor is a `strcpy` of
`LTrim` whose source and target overlap.

`std::map` is the ordered map of the standard library: `insert` keeps an entry that is
there, `operator[]` overwrites it.
-/

namespace ThunderChat

/-- `MAX_LINE_SIZE`. -/
def MAX_LINE_SIZE : Nat := 1024

/-- `MAX_KEY_SIZE`. -/
def MAX_KEY_SIZE : Nat := 512

/-- `MAX_VALUE_SIZE`. -/
def MAX_VALUE_SIZE : Nat := 512

namespace Properties

/-- A text, a key or a value. -/
abbrev Bytes := List UInt8

/-- `myMap`. -/
abbrev PropertyMap := Std.ExtTreeMap Bytes Bytes compare

/-- The bytes the code looks for: `'\n'`, `'='` and `'#'`. -/
def NEWLINE : UInt8 := 10

@[inherit_doc NEWLINE] def EQUALS : UInt8 := 61

@[inherit_doc NEWLINE] def HASH : UInt8 := 35

/-- `isspace`, in the C locale. A byte from 128 on, which is a negative `char`, is no space. -/
def isSpace (c : UInt8) : Bool := c = 32 || (9 ≤ c && c ≤ 13)

/-- `CNPUtil::LTrim`. Its `strcpy` moves the rest, with the zero behind it, to the front of
the same array. Where the rest reaches back into the spaces that it is moved over, the
two overlap, and the result is not defined. A text without spaces in front is copied onto
itself, which is taken to leave it as it is. -/
def lTrim (s : Bytes) : Option Bytes :=
  let spaces := s.takeWhile isSpace
  let rest := s.dropWhile isSpace
  if spaces = [] ∨ rest.length < spaces.length then some rest else none

/-- The loop of `RTrim`: the position it is at, and how long the text is up to the last
character so far that is no space. -/
def scan (s : Bytes) : Nat × Nat :=
  s.foldl (fun (pos, kept) c => (pos + 1, if isSpace c then kept else pos + 1)) (0, 0)

/-- `CNPUtil::RTrim` puts the end there. -/
def rTrim (s : Bytes) : Bytes := s.take (scan s).2

/-- Both. -/
def trim (s : Bytes) : Option Bytes := (lTrim s).map rTrim

/-- The C string at the beginning of a buffer. -/
def cString (s : Bytes) : Bytes := s.takeWhile (· ≠ 0)

/-- `Properties::AddMap`, for a C string. -/
def addMap (m : PropertyMap) (line : Bytes) : Option PropertyMap :=
  let name := line.takeWhile (· ≠ EQUALS)
  match line.dropWhile (· ≠ EQUALS) with
  | [] => some m
  | _ :: value =>
      if MAX_KEY_SIZE ≤ name.length then none
      else if name = [] then some m
      else if MAX_VALUE_SIZE ≤ value.length then none
      else if value = [] then some m
      else do
        let name ← trim name
        let value ← trim value
        some (m.insert name value)

/-- The body of the loop in `Properties::Load`. -/
def readLine (m : PropertyMap) (line : Bytes) : Option PropertyMap :=
  match line with
  | [] => some m
  | c :: _ => if c = NEWLINE ∨ c = HASH ∨ c = 0 then some m else addMap m (cString line)

/-- The lines that `getline` delivers: up to the first one that does not fit. -/
def getLines (text : Bytes) : List Bytes :=
  (Lines.lines NEWLINE text).takeWhile fun line => line.length < MAX_LINE_SIZE

/-- The loop in `Properties::Load`. -/
def readText (m : PropertyMap) (text : Bytes) : Option PropertyMap :=
  (getLines text).foldlM readLine m

end Properties

open Properties

/-- The members of `Properties`. -/
structure Properties where
  fileName : String
  map : PropertyMap

/-- The files. -/
abbrev Disk := String → Option Bytes

namespace Properties

/-- A new `Properties`. -/
def new : Properties := ⟨"", ∅⟩

/-- `Properties::Load`, with its return value. The map is not cleared. -/
def load (p : Properties) (disk : Disk) (fileName : String) : Option (Int × Properties) :=
  match disk fileName with
  | none => some (-1, { p with fileName })
  | some text => (readText p.map text).map fun map => (0, ⟨fileName, map⟩)

/-- `Properties::SetProperty`. -/
def setProperty (p : Properties) (key value : Bytes) : Properties :=
  { p with map := p.map.insertIfNew key value }

/-- What `Flush` writes for one entry, at most as much as `snprintf` puts into its buffer. -/
def entryLine (e : Bytes × Bytes) : Bytes :=
  (cString e.1 ++ EQUALS :: (cString e.2 ++ [NEWLINE])).take (MAX_LINE_SIZE - 1)

/-- What `Flush` writes. -/
def text (p : Properties) : Bytes := p.map.toList.flatMap entryLine

/-- `Properties::Flush`. The file is opened for reading and writing: it has to be there, and
what is written goes over the beginning of what is in it. -/
def flush (p : Properties) (disk : Disk) : Disk :=
  match disk p.fileName with
  | none => disk
  | some old => Function.update disk p.fileName (some (p.text ++ old.drop p.text.length))

/-- `Properties::GetProperty`. -/
def getProperty (p : Properties) (key : Bytes) : Bytes := p.map[key]?.getD []

/-! ### Trimming -/

variable {s : Bytes}

/-- A text without the spaces at both ends. -/
def strip (s : Bytes) : Bytes := (s.dropWhile isSpace).rdropWhile isSpace

/-- What `LTrim` moves overlaps with where it moves it: there are spaces in front, and no
more of them than there are other characters behind. -/
def Overlaps (s : Bytes) : Prop :=
  s.takeWhile isSpace ≠ [] ∧ (s.takeWhile isSpace).length ≤ (s.dropWhile isSpace).length

instance (s : Bytes) : Decidable (Overlaps s) := by unfold Overlaps; infer_instance

theorem scan_append_singleton (s : Bytes) (c : UInt8) : scan (s ++ [c]) =
    ((scan s).1 + 1, if isSpace c then (scan s).2 else (scan s).1 + 1) := by
  rw [scan, List.foldl_append]
  rfl

theorem scan_fst (s : Bytes) : (scan s).1 = s.length := by
  induction s using List.reverseRecOn with
  | nil => rfl
  | append_singleton s c ih => rw [scan_append_singleton, ih, List.length_append]; rfl

theorem scan_snd_le (s : Bytes) : (scan s).2 ≤ s.length := by
  induction s using List.reverseRecOn with
  | nil => exact Nat.le_refl 0
  | append_singleton s c ih =>
      rw [scan_append_singleton, scan_fst, List.length_append, List.length_singleton]
      split
      · exact Nat.le_succ_of_le ih
      · exact Nat.le_refl _

/-- Where `RTrim` puts the end is where the spaces at the end begin. -/
theorem rTrim_eq (s : Bytes) : rTrim s = s.rdropWhile isSpace := by
  rw [rTrim]
  induction s using List.reverseRecOn with
  | nil => rfl
  | append_singleton s c ih =>
      rw [List.rdropWhile_concat, scan_append_singleton, scan_fst]
      split
      · rw [List.take_append_of_le_length (scan_snd_le s)]
        exact ih
      · refine List.take_of_length_le ?_
        rw [List.length_append, List.length_singleton]

/-- Both trims leave what is between the spaces, unless the move overlaps. -/
theorem trim_eq (s : Bytes) : trim s = if Overlaps s then none else some (strip s) := by
  have hmoves : (s.takeWhile isSpace = [] ∨
      (s.dropWhile isSpace).length < (s.takeWhile isSpace).length) ↔ ¬ Overlaps s := by
    rw [Overlaps, not_and_or, not_not, not_le]
  rw [trim, lTrim]
  by_cases h : Overlaps s
  · rw [if_neg (fun hmove => hmoves.mp hmove h), if_pos h]
    rfl
  · rw [if_pos (hmoves.mpr h), if_neg h, Option.map_some, rTrim_eq, strip]

theorem strip_subset : strip s ⊆ s :=
  fun _ h => (List.dropWhile_suffix isSpace).subset ((List.rdropWhile_prefix isSpace _).subset h)

theorem length_strip_le : (strip s).length ≤ s.length :=
  ((List.rdropWhile_prefix isSpace _).length_le).trans ((List.dropWhile_suffix isSpace).length_le)

/-- What is stripped stays so. -/
theorem strip_strip : strip (strip s) = strip s := by
  have hfront : (strip s).dropWhile isSpace = strip s := by
    have hbegin : strip s <+: s.dropWhile isSpace := List.rdropWhile_prefix isSpace _
    rw [List.dropWhile_eq_self_iff]
    intro hpos
    rw [hbegin.getElem hpos]
    exact List.dropWhile_get_zero_not isSpace s (hpos.trans_le hbegin.length_le)
  rw [strip, hfront]
  exact List.rdropWhile_idempotent isSpace _

/-- It begins with no space, so that nothing is moved. -/
theorem not_overlaps_of_strip (h : strip s = s) : ¬ Overlaps s := by
  rintro ⟨hspaces, -⟩
  have hle : s.length ≤ (s.dropWhile isSpace).length := by
    rw [← h]
    exact (List.rdropWhile_prefix isSpace _).length_le.trans (by rw [h])
  have hsum := congrArg List.length (List.takeWhile_append_dropWhile (p := isSpace) (l := s))
  rw [List.length_append] at hsum
  exact hspaces (List.length_eq_zero_iff.mp (by omega))

/-! ### C strings -/

theorem cString_eq_self (h : ∀ c ∈ s, c ≠ 0) : cString s = s := by
  rw [cString, List.takeWhile_eq_self_iff]
  intro c hc
  simpa using h c hc

theorem mem_cString {c : UInt8} (h : c ∈ cString s) : c ∈ s ∧ c ≠ 0 := by
  refine ⟨(List.takeWhile_sublist _).subset h, ?_⟩
  simpa using List.mem_takeWhile_imp h

end Properties

end ThunderChat

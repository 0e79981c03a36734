import ThunderChat.Properties.Grammar

/-!
`Properties::Load`, by what a file means.

`Defines` says which lines of a file define a key, in terms of the line as it stands in the
file: what is in front of its first `'='` and what is behind it. For every key the last line
that defines it counts (`Implements`).

* `load_implements_iff`: `Load` does that exactly for the files in which no key and no value
  is moved over itself.
-/

namespace ThunderChat.Properties

open Lines

variable {line file k v : Bytes} {front back : List Bytes}

/-- What is in front of the first `'='` of a line. -/
def keyPart (line : Bytes) : Bytes := line.takeWhile (· ≠ EQUALS)

/-- What is behind it. -/
def valuePart (line : Bytes) : Bytes := (line.dropWhile (· ≠ EQUALS)).tail

/-- A line is an entry: it does not begin with `'#'`, and it has an `'='` with something in
front of it and something behind it. -/
def Entry (line : Bytes) : Prop :=
  line.head? ≠ some HASH ∧ EQUALS ∈ line ∧ keyPart line ≠ [] ∧ valuePart line ≠ []

instance (line : Bytes) : Decidable (Entry line) := by unfold Entry; infer_instance

/-- An entry defines what is in front of its `'='`, stripped. -/
def Defines (k line : Bytes) : Prop := Entry line ∧ strip (keyPart line) = k

instance (k line : Bytes) : Decidable (Defines k line) := by unfold Defines; infer_instance

/-- **The grammar of a properties file.** For a key `GetProperty` returns the stripped value of
the last line that defines it, and nothing if no line does. -/
def Implements (file : Bytes) (p : Properties) : Prop :=
  ∀ k ≠ [],
    (∀ front line back, lines NEWLINE file = front ++ line :: back → Defines k line →
      (∀ later ∈ back, ¬ Defines k later) → p.getProperty k = strip (valuePart line)) ∧
    ((∀ line ∈ lines NEWLINE file, ¬ Defines k line) → p.getProperty k = [])

/-! ### One line -/

theorem rawKey_eq (hnul : 0 ∉ line) : rawKey line = keyPart line := by
  rw [rawKey, cString_eq_self fun c hc heq => hnul (heq ▸ hc), keyPart]

theorem rawValue_eq (hnul : 0 ∉ line) : rawValue line = valuePart line := by
  rw [rawValue, cString_eq_self fun c hc heq => hnul (heq ▸ hc), valuePart]

theorem equals_mem_of_valuePart (h : valuePart line ≠ []) : EQUALS ∈ line := by
  by_contra hnone
  have hnil : line.dropWhile (· ≠ EQUALS) = [] :=
    List.dropWhile_eq_nil_iff.mpr fun c hc => decide_eq_true fun heq => hnone (heq ▸ hc)
  rw [valuePart, hnil] at h
  exact h rfl

/-- A line without NUL has an entry exactly if it is one. -/
theorem entryOf_eq (hnul : 0 ∉ line) : entryOf line =
    if Entry line then some (strip (keyPart line), strip (valuePart line)) else none := by
  rw [entryOf, rawKey_eq hnul, rawValue_eq hnul]
  by_cases hentry : Entry line
  · rw [if_pos hentry, if_neg]
    obtain ⟨hhash, -, hkey, hvalue⟩ := hentry
    rintro (h | h | h)
    · exact hhash h
    · exact hkey h
    · exact hvalue h
  · rw [if_neg hentry, if_pos]
    by_contra hskip
    rw [not_or, not_or] at hskip
    obtain ⟨hhash, hkey, hvalue⟩ := hskip
    exact hentry ⟨hhash, equals_mem_of_valuePart hvalue, hkey, hvalue⟩

theorem entryOf_eq_some (hnul : 0 ∉ line) :
    entryOf line = some (k, v) ↔ Defines k line ∧ strip (valuePart line) = v := by
  rw [entryOf_eq hnul, Option.ite_none_right_eq_some, Option.some_inj, Prod.mk.injEq, Defines,
    and_assoc]

theorem apart_iff (hnul : 0 ∉ line) : Apart line ↔
    (Entry line → ¬ Overlaps (keyPart line) ∧ ¬ Overlaps (valuePart line)) := by
  rw [Apart, entryOf_eq hnul, rawKey_eq hnul, rawValue_eq hnul, ite_eq_right_iff]
  by_cases hentry : Entry line <;> simp [hentry]

/-! ### A whole file -/

theorem zero_notMem_of_mem_lines (hnul : 0 ∉ file) : ∀ line ∈ lines NEWLINE file, 0 ∉ line :=
  fun _ hline hmem => hnul (subset_of_mem_lines hline hmem)

theorem lastValue_eq_none (h : ∀ line ∈ back, 0 ∉ line ∧ ¬ Defines k line) :
    lastValue back k = none := by
  cases hlast : lastValue back k with
  | none => rfl
  | some v =>
      obtain ⟨line, hline, hentry⟩ := exists_of_lastValue hlast
      obtain ⟨hnul, hnot⟩ := h line hline
      exact absurd ((entryOf_eq_some hnul).mp hentry).1 hnot

/-- The last line that defines a key has the last entry for it. -/
theorem lastValue_of_defines (hnul : 0 ∉ line) (h : Defines k line)
    (hback : ∀ line ∈ back, 0 ∉ line ∧ ¬ Defines k line) :
    lastValue (front ++ line :: back) k = some (strip (valuePart line)) := by
  have hentry : entryOf line = some (k, strip (valuePart line)) :=
    (entryOf_eq_some hnul).mpr ⟨h, rfl⟩
  rw [lastValue_append, lastValue_cons, lastValue_eq_none hback, hentry, Option.none_or,
    Option.toList_some, List.lookup_cons_self]
  rfl

/-- What has been read is what the lines define. -/
theorem implements_of_load {disk : Disk} {name : String} {p : Properties}
    (hdisk : disk name = some file) (hfile : IsPropertiesFile file) (hnul : 0 ∉ file)
    (h : new.load disk name = some (0, p)) : Implements file p := by
  obtain ⟨map, hread, rfl⟩ := exists_readText_of_load hdisk h
  have hmap : ∀ k : Bytes, map[k]? = lastValue (lines NEWLINE file) k := by
    intro k
    rw [getElem?_of_readText hread, hfile.getLines_eq]
  have hplain := zero_notMem_of_mem_lines hnul
  refine fun k _ => ⟨fun front line back hlines h hback => ?_, fun hnone => ?_⟩
  · rw [hlines, List.forall_mem_append, List.forall_mem_cons] at hplain
    have hlast : map[k]? = some (strip (valuePart line)) := by
      rw [hmap, hlines]
      exact lastValue_of_defines hplain.2.1 h fun later hlater =>
        ⟨hplain.2.2 later hlater, hback later hlater⟩
    rw [getProperty, hlast]
    rfl
  · have hlast : map[k]? = none := by
      rw [hmap]
      exact lastValue_eq_none fun line hline => ⟨hplain line hline, hnone line hline⟩
    rw [getProperty, hlast]
    rfl

/-- **When `Load` implements its grammar**: exactly if no entry of the file has a key or a value
that `LTrim` moves over itself. -/
theorem load_implements_iff (disk : Disk) (name : String) (hdisk : disk name = some file)
    (hfile : IsPropertiesFile file) (hnul : 0 ∉ file) :
    (∃ p, new.load disk name = some (0, p) ∧ Implements file p) ↔
      ∀ line ∈ lines NEWLINE file, Entry line →
        ¬ Overlaps (keyPart line) ∧ ¬ Overlaps (valuePart line) := by
  have hapart : (∀ line ∈ lines NEWLINE file, Apart line) ↔ ∀ line ∈ lines NEWLINE file,
      Entry line → ¬ Overlaps (keyPart line) ∧ ¬ Overlaps (valuePart line) :=
    forall₂_congr fun line hline => apart_iff (zero_notMem_of_mem_lines hnul line hline)
  rw [← hapart, ← hfile.exists_readText_iff]
  constructor
  · rintro ⟨p, hload, -⟩
    obtain ⟨map, hread, -⟩ := exists_readText_of_load hdisk hload
    exact ⟨map, hread⟩
  · rintro ⟨map, hread⟩
    have hload : new.load disk name = some (0, ⟨name, map⟩) := load_eq_of_readText hdisk hread
    exact ⟨_, hload, implements_of_load hdisk hfile hnul hload⟩

/-- `"a =  \n#a= 2\na=3"`, with spaces behind a key and in a comment, an empty value and no
last line break. -/
def repeatedKey : Bytes := [97, 32, 61, 32, 32, 10, 35, 97, 61, 32, 50, 10, 97, 61, 51]

theorem repeated_key_loaded : ∃ p,
    new.load (fun _ => some repeatedKey) "repeated.properties" = some (0, p) ∧
      Implements repeatedKey p := by
  have hfile : IsPropertiesFile repeatedKey ∧ 0 ∉ repeatedKey := by decide +kernel
  refine (load_implements_iff (fun _ => some repeatedKey) "repeated.properties" rfl hfile.1
    hfile.2).mpr ?_
  decide +kernel

/-- `"SERVER_PORT= 8080\n"`: the value goes one to the front, over itself. -/
def movedValue : Bytes :=
  [83, 69, 82, 86, 69, 82, 95, 80, 79, 82, 84, 61, 32, 56, 48, 56, 48, 10]

theorem moved_value_undefined : (IsPropertiesFile movedValue ∧ 0 ∉ movedValue) ∧
    ¬ ∃ p, new.load (fun _ => some movedValue) "chat.properties" = some (0, p) ∧
      Implements movedValue p := by
  refine ⟨by decide +kernel, ?_⟩
  rintro ⟨p, hload, -⟩
  have hnone : new.load (fun _ => some movedValue) "chat.properties" = none := rfl
  rw [hnone] at hload
  cases hload

end ThunderChat.Properties

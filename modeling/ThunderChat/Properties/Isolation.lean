import ThunderChat.Properties.Grammar

/-!
What one bad line of a properties file does to the others.

Two files that differ in one line are read one after the other. A line that is too long for
the buffer ends the loop of `Load`, and the lines behind it are lost; a key or a value that
is too long for its array is read beyond it, and one with spaces in front may be moved over
itself: then nothing is defined any more.

* `sameValues_iff`: when the other keys have the same values.
* `bad_line_isolated_iff`: when also everything is defined.
-/

namespace ThunderChat.Properties

open Lines

variable {fileA fileB file line a b k v : Bytes} {lines front back : List Bytes} {disk : Disk}
  {nameA nameB name : String} {p : Properties}

/-- A line fits into the buffer of `Load`. -/
def Short (line : Bytes) : Prop := line.length < MAX_LINE_SIZE

instance (line : Bytes) : Decidable (Short line) := by unfold Short; infer_instance

/-- The lines that `Load` comes to. -/
def reached (lines : List Bytes) : List Bytes := lines.takeWhile fun line => Short line

/-- A line defines a key. -/
def Sets (k line : Bytes) : Prop := ∃ v, entryOf line = some (k, v)

/-- Both files are read, without a copy that is read beyond its array or moved over itself,
and give the same values for all keys that neither of the two lines defines. -/
def Isolated (disk : Disk) (nameA nameB : String) (a b : Bytes) : Prop :=
  ∃ p q, new.load disk nameA = some (0, p) ∧ new.load disk nameB = some (0, q) ∧
    ∀ k, ¬ Sets k a → ¬ Sets k b → p.getProperty k = q.getProperty k

/-- The value that the lines give a key. -/
def valueIn (lines : List Bytes) (k : Bytes) : Bytes := (lastValue (reached lines) k).getD []

/-- Behind the two lines `Load` goes on in both files or in neither, or has come to neither of
them, or finds nothing that it has not found in front of them. -/
def Passes (front : List Bytes) (a b : Bytes) (back : List Bytes) : Prop :=
  (∃ line ∈ front, ¬ Short line) ∨ (Short a ↔ Short b) ∨
    ∀ k v, ¬ Sets k a → ¬ Sets k b → lastValue (reached back) k = some v →
      (lastValue front k).getD [] = v

/-- All lines that `Load` comes to in either file fit into the arrays and are moved without an
overlap, and it passes both lines. -/
structure Harmless (front : List Bytes) (a b : Bytes) (back : List Bytes) : Prop where
  addableA : ∀ line ∈ reached (front ++ a :: back), Addable line
  addableB : ∀ line ∈ reached (front ++ b :: back), Addable line
  passes : Passes front a b back

/-! ### One file -/

/-- A file is read exactly when what is made of its lines is defined. -/
theorem exists_load_iff (hdisk : disk name = some file) :
    (∃ p, new.load disk name = some (0, p)) ↔
      ∀ line ∈ reached (Lines.lines NEWLINE file), Addable line := by
  constructor
  · rintro ⟨p, hload⟩
    obtain ⟨map, hread, -⟩ := exists_readText_of_load hdisk hload
    exact (readText_eq_some.mp hread).1
  · intro hadd
    obtain ⟨map, hread⟩ := exists_readText ∅ hadd
    exact ⟨⟨name, map⟩, load_eq_of_readText hdisk hread⟩

/-- What it gives is what its lines give. -/
theorem getProperty_of_load (hdisk : disk name = some file)
    (h : new.load disk name = some (0, p)) (k : Bytes) :
    p.getProperty k = valueIn (Lines.lines NEWLINE file) k := by
  obtain ⟨map, hread, rfl⟩ := exists_readText_of_load hdisk h
  rw [getProperty, getElem?_of_readText hread]
  rfl

/-! ### The lines of two files -/

theorem reached_cons (h : Short line) : reached (line :: lines) = line :: reached lines :=
  List.takeWhile_cons_of_pos (decide_eq_true h)

theorem reached_cons_of_long (h : ¬ Short line) : reached (line :: lines) = [] :=
  List.takeWhile_cons_of_neg fun hshort => h (of_decide_eq_true hshort)

theorem reached_of_long (h : ∃ line ∈ front, ¬ Short line) :
    reached (front ++ lines) = reached front := by
  induction front with
  | nil =>
      obtain ⟨line, hline, -⟩ := h
      cases hline
  | cons first front ih =>
      by_cases hfirst : Short first
      · have hfront : ∃ line ∈ front, ¬ Short line := by
          obtain ⟨line, hline, hlong⟩ := h
          rcases List.mem_cons.mp hline with rfl | hline
          · exact absurd hfirst hlong
          · exact ⟨line, hline, hlong⟩
        rw [List.cons_append, reached_cons hfirst, reached_cons hfirst, ih hfront]
      · rw [List.cons_append, reached_cons_of_long hfirst, reached_cons_of_long hfirst]

theorem reached_of_short (h : ∀ line ∈ front, Short line) :
    reached (front ++ lines) = front ++ reached lines :=
  List.takeWhile_append_of_pos fun line hline => decide_eq_true (h line hline)

/-- A line that defines another key. -/
theorem lastValue_of_not_sets (h : ¬ Sets k line) :
    lastValue (front ++ line :: lines) k = (lastValue lines k).or (lastValue front k) := by
  have hnone : (entryOf line).toList.lookup k = none := by
    cases hentry : entryOf line with
    | none => rfl
    | some e =>
        obtain ⟨key, v⟩ := e
        have hne : k ≠ key := fun heq => h ⟨v, heq ▸ hentry⟩
        rw [Option.toList_some, List.lookup_cons, beq_eq_false_iff_ne.mpr hne]
        rfl
  rw [lastValue_append, lastValue_cons, hnone, Option.or_none]

/-- `Load` passes a line that fits and goes on behind it. -/
theorem valueIn_of_short (hfront : ∀ line ∈ front, Short line) (ha : Short a) (hk : ¬ Sets k a) :
    valueIn (front ++ a :: back) k =
      ((lastValue (reached back) k).or (lastValue front k)).getD [] := by
  rw [valueIn, reached_of_short hfront, reached_cons ha, lastValue_of_not_sets hk]

/-- A line that does not fit ends the loop. -/
theorem valueIn_of_long (hfront : ∀ line ∈ front, Short line) (ha : ¬ Short a) :
    valueIn (front ++ a :: back) k = (lastValue front k).getD [] := by
  rw [valueIn, reached_of_short hfront, reached_cons_of_long ha, List.append_nil]

/-- One line fits and the other does not: what is behind them counts in one file only. -/
theorem valueIn_eq_iff (hfront : ∀ line ∈ front, Short line) (ha : Short a) (hb : ¬ Short b)
    (hk : ¬ Sets k a) : valueIn (front ++ a :: back) k = valueIn (front ++ b :: back) k ↔
      ∀ v, lastValue (reached back) k = some v → (lastValue front k).getD [] = v := by
  rw [valueIn_of_short hfront ha hk, valueIn_of_long hfront hb]
  cases lastValue (reached back) k with
  | none => simp
  | some v =>
      rw [Option.some_or, Option.getD_some]
      constructor
      · rintro rfl v hv
        exact Option.some.inj hv
      · intro h
        exact (h v rfl).symm

/-- The keys that neither line defines have the same values exactly when both lines are
passed. -/
theorem sameValues_iff : (∀ k, ¬ Sets k a → ¬ Sets k b →
      valueIn (front ++ a :: back) k = valueIn (front ++ b :: back) k) ↔
    Passes front a b back := by
  by_cases hlong : ∃ line ∈ front, ¬ Short line
  · have hsame : ∀ k, valueIn (front ++ a :: back) k = valueIn (front ++ b :: back) k := by
      intro k
      rw [valueIn, valueIn, reached_of_long hlong, reached_of_long hlong]
    exact ⟨fun _ => .inl hlong, fun _ k _ _ => hsame k⟩
  · have hfront : ∀ line ∈ front, Short line := by
      intro line hline
      by_contra hline'
      exact hlong ⟨line, hline, hline'⟩
    rw [Passes, or_iff_right hlong]
    by_cases ha : Short a <;> by_cases hb : Short b
    · refine ⟨fun _ => .inl (iff_of_true ha hb), fun _ k hka hkb => ?_⟩
      rw [valueIn_of_short hfront ha hka, valueIn_of_short hfront hb hkb]
    · rw [or_iff_right fun hiff => hb (hiff.mp ha)]
      constructor
      · intro hsame k v hka hkb
        exact (valueIn_eq_iff hfront ha hb hka).mp (hsame k hka hkb) v
      · intro hback k hka hkb
        exact (valueIn_eq_iff hfront ha hb hka).mpr fun v => hback k v hka hkb
    · rw [or_iff_right fun hiff => ha (hiff.mpr hb)]
      constructor
      · intro hsame k v hka hkb
        exact (valueIn_eq_iff hfront hb ha hkb).mp (hsame k hka hkb).symm v
      · intro hback k hka hkb
        exact ((valueIn_eq_iff hfront hb ha hkb).mpr fun v => hback k v hka hkb).symm
    · refine ⟨fun _ => .inl (iff_of_false ha hb), fun _ k _ _ => ?_⟩
      rw [valueIn_of_long hfront ha, valueIn_of_long hfront hb]

/-- **What a bad line damages, exactly.** Two files that differ in one line are both read and
give the same values for all other keys if and only if what is copied of their lines fits into
the arrays and is moved without an overlap, and `Load` passes both lines or finds nothing new
behind them. -/
theorem bad_line_isolated_iff (hdiskA : disk nameA = some fileA) (hdiskB : disk nameB = some fileB)
    (hlinesA : Lines.lines NEWLINE fileA = front ++ a :: back)
    (hlinesB : Lines.lines NEWLINE fileB = front ++ b :: back) :
    Isolated disk nameA nameB a b ↔ Harmless front a b back := by
  constructor
  · rintro ⟨p, q, hloadA, hloadB, hsame⟩
    refine ⟨hlinesA ▸ (exists_load_iff hdiskA).mp ⟨p, hloadA⟩,
      hlinesB ▸ (exists_load_iff hdiskB).mp ⟨q, hloadB⟩, sameValues_iff.mp fun k ha hb => ?_⟩
    rw [← hlinesA, ← hlinesB, ← getProperty_of_load hdiskA hloadA,
      ← getProperty_of_load hdiskB hloadB]
    exact hsame k ha hb
  · rintro ⟨haddA, haddB, hpasses⟩
    obtain ⟨p, hloadA⟩ := (exists_load_iff hdiskA).mpr (hlinesA ▸ haddA)
    obtain ⟨q, hloadB⟩ := (exists_load_iff hdiskB).mpr (hlinesB ▸ haddB)
    refine ⟨p, q, hloadA, hloadB, fun k ha hb => ?_⟩
    rw [getProperty_of_load hdiskA hloadA, getProperty_of_load hdiskB hloadB, hlinesA, hlinesB]
    exact sameValues_iff.mpr hpasses k ha hb

/-- `"a=1\nb=2\n"` and `"c=3\nb=2\n"`. -/
theorem other_key_isolated : Isolated
    (fun name => if name = "old.properties" then some [97, 61, 49, 10, 98, 61, 50, 10]
      else some [99, 61, 51, 10, 98, 61, 50, 10])
    "old.properties" "new.properties" [97, 61, 49] [99, 61, 51] := by
  have hlinesA : Lines.lines NEWLINE [97, 61, 49, 10, 98, 61, 50, 10] =
      [] ++ [97, 61, 49] :: [[98, 61, 50]] := rfl
  have hlinesB : Lines.lines NEWLINE [99, 61, 51, 10, 98, 61, 50, 10] =
      [] ++ [99, 61, 51] :: [[98, 61, 50]] := rfl
  refine (bad_line_isolated_iff rfl rfl hlinesA hlinesB).mpr ⟨?_, ?_, .inr (.inl ?_)⟩
  all_goals decide +kernel

/-- 1024 bytes without `'='`. -/
def longLine : Bytes := List.replicate MAX_LINE_SIZE 120

/-- Behind that line and a line break, `"b=2\n"` is lost. -/
theorem long_line_not_isolated :
    Lines.lines NEWLINE (longLine ++ [10, 98, 61, 50, 10]) = [longLine, [98, 61, 50]] ∧
      Lines.lines NEWLINE [120, 10, 98, 61, 50, 10] = [[120], [98, 61, 50]] ∧
      ¬ Isolated
        (fun name => if name = "long.properties" then some (longLine ++ [10, 98, 61, 50, 10])
          else some [120, 10, 98, 61, 50, 10])
        "long.properties" "short.properties" longLine [120] := by
  have hnewline : NEWLINE ∉ longLine := fun h => absurd (List.eq_of_mem_replicate h) (by decide)
  have hlinesA : Lines.lines NEWLINE (longLine ++ [10, 98, 61, 50, 10]) =
      [longLine, [98, 61, 50]] := lines_append_terminated hnewline
  refine ⟨hlinesA, rfl, ?_⟩
  rintro ⟨p, q, hloadA, hloadB, hsame⟩
  have hlong : ¬ Short longLine := by
    rw [Short, longLine, List.length_replicate]
    exact lt_irrefl _
  have hsetsA : ¬ Sets [98] longLine := by
    have hentry : entryOf longLine = none := by decide +kernel
    rintro ⟨v, h⟩
    exact Option.some_ne_none _ (h.symm.trans hentry)
  have hsetsB : ¬ Sets [98] [120] := by
    rintro ⟨v, h⟩
    cases h
  have hA : p.getProperty [98] = [] := by
    rw [getProperty_of_load rfl hloadA, hlinesA, valueIn, reached_cons_of_long hlong]
    rfl
  have hB : q.getProperty [98] = valueIn (Lines.lines NEWLINE [120, 10, 98, 61, 50, 10]) [98] :=
    getProperty_of_load (if_neg (by decide)) hloadB [98]
  have heq := hsame [98] hsetsA hsetsB
  rw [hA, hB] at heq
  cases heq

end ThunderChat.Properties

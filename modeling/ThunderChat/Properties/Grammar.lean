import ThunderChat.Properties.Basic

/-!
What a properties file says.

A line has an entry when it is no comment and has something on both sides of its first
`'='`; of several lines for one key the last one counts. `Load` reads that, as long as no
line has a key or a value that its array does not hold, or one with spaces in front that
`LTrim` moves over themselves.

* `readLine_eq`: one line.
* `readText_eq_some`: a whole text, into any map.
-/

namespace ThunderChat.Properties

variable {line text file : Bytes} {lines : List Bytes} {e : Bytes × Bytes}
  {m r : PropertyMap} {disk : Disk} {name : String}

/-- What is in front of the first `'='` of a line. -/
def rawKey (line : Bytes) : Bytes := (cString line).takeWhile (· ≠ EQUALS)

/-- What is behind it. -/
def rawValue (line : Bytes) : Bytes := ((cString line).dropWhile (· ≠ EQUALS)).tail

/-- The entry of a line. -/
def entryOf (line : Bytes) : Option (Bytes × Bytes) :=
  if line.head? = some HASH ∨ rawKey line = [] ∨ rawValue line = [] then none
  else some (strip (rawKey line), strip (rawValue line))

/-- The value of a key in the last line that has an entry for it. -/
def lastValue (lines : List Bytes) (k : Bytes) : Option Bytes :=
  (lines.filterMap entryOf).reverse.lookup k

/-- What `AddMap` copies of a line, if it is called for it, is terminated where it is
read. -/
def FitsArrays (line : Bytes) : Prop :=
  line.head? = some HASH ∨ EQUALS ∉ cString line ∨
    (rawKey line).length < MAX_KEY_SIZE ∧
      (rawKey line = [] ∨ (rawValue line).length < MAX_VALUE_SIZE)

instance (line : Bytes) : Decidable (FitsArrays line) := by unfold FitsArrays; infer_instance

/-- `LTrim` moves the key and the value of a line, if it is called for it, without an
overlap. -/
def Apart (line : Bytes) : Prop :=
  entryOf line = none ∨ ¬ Overlaps (rawKey line) ∧ ¬ Overlaps (rawValue line)

instance (line : Bytes) : Decidable (Apart line) := by unfold Apart; infer_instance

/-- What `AddMap` makes of a line is defined. -/
def Addable (line : Bytes) : Prop := FitsArrays line ∧ Apart line

instance (line : Bytes) : Decidable (Addable line) := by unfold Addable; infer_instance

/-! ### One line -/

theorem equals_not_mem_iff :
    EQUALS ∉ cString line ↔ (cString line).dropWhile (· ≠ EQUALS) = [] := by
  rw [List.dropWhile_eq_nil_iff]
  simp only [decide_eq_true_eq]
  exact ⟨fun h c hc heq => h (heq ▸ hc), fun h hc => h _ hc rfl⟩

/-- The entry of a line put into a map. -/
def set (m : PropertyMap) : Option (Bytes × Bytes) → PropertyMap
  | none => m
  | some e => m.insert e.1 e.2

theorem addable_of_none (hfits : FitsArrays line) (h : entryOf line = none) : Addable line :=
  ⟨hfits, .inl h⟩

/-- `AddMap` with a key and a value that are there and fit. -/
theorem trim_entry (hentry : entryOf line = some (strip (rawKey line), strip (rawValue line)))
    (hfits : FitsArrays line) :
    (do
      let name ← trim (rawKey line)
      let value ← trim (rawValue line)
      some (m.insert name value)) = if Addable line then some (set m (entryOf line)) else none := by
  have hapart : Addable line ↔ ¬ Overlaps (rawKey line) ∧ ¬ Overlaps (rawValue line) := by
    rw [Addable, Apart, hentry]
    exact ⟨fun h => h.2.resolve_left (Option.some_ne_none _), fun h => ⟨hfits, .inr h⟩⟩
  rw [trim_eq, trim_eq, hentry]
  by_cases hkey : Overlaps (rawKey line)
  · rw [if_pos hkey, if_neg fun hadd => (hapart.mp hadd).1 hkey]
    rfl
  · by_cases hvalue : Overlaps (rawValue line)
    · rw [if_neg hkey, if_pos hvalue, if_neg fun hadd => (hapart.mp hadd).2 hvalue]
      rfl
    · rw [if_neg hkey, if_neg hvalue, if_pos (hapart.mpr ⟨hkey, hvalue⟩)]
      rfl

/-- `AddMap` sets the entry of the line it is called for. -/
theorem addMap_cString (h : line.head? ≠ some HASH) :
    addMap m (cString line) = if Addable line then some (set m (entryOf line)) else none := by
  unfold addMap
  split
  · next hdrop =>
      have hfits : FitsArrays line := .inr (.inl (equals_not_mem_iff.mpr hdrop))
      have hentry : entryOf line = none := if_pos (.inr (.inr (by rw [rawValue, hdrop]; rfl)))
      rw [if_pos (addable_of_none hfits hentry), hentry]
      rfl
  · next c value hdrop =>
      have hvalue : rawValue line = value := by rw [rawValue, hdrop]; rfl
      have hequals : ¬ EQUALS ∉ cString line := by
        rw [equals_not_mem_iff, hdrop]
        exact List.cons_ne_nil _ _
      have hfits : FitsArrays line ↔ (rawKey line).length < MAX_KEY_SIZE ∧
          (rawKey line = [] ∨ (rawValue line).length < MAX_VALUE_SIZE) := by
        simp only [FitsArrays, h, hequals, false_or]
      dsimp only
      rw [← rawKey, ← hvalue]
      by_cases hkey : MAX_KEY_SIZE ≤ (rawKey line).length
      · rw [if_pos hkey, if_neg fun hadd => Nat.not_lt.mpr hkey (hfits.mp hadd.1).1]
      · rw [if_neg hkey]
        have hkey : (rawKey line).length < MAX_KEY_SIZE := Nat.not_le.mp hkey
        by_cases hkeyNil : rawKey line = []
        · have hentry : entryOf line = none := if_pos (.inr (.inl hkeyNil))
          rw [if_pos hkeyNil, if_pos (addable_of_none (hfits.mpr ⟨hkey, .inl hkeyNil⟩) hentry),
            hentry]
          rfl
        · rw [if_neg hkeyNil]
          by_cases hlong : MAX_VALUE_SIZE ≤ (rawValue line).length
          · rw [if_pos hlong, if_neg fun hadd =>
              ((hfits.mp hadd.1).2.resolve_left hkeyNil).not_ge hlong]
          · have hfits : FitsArrays line := hfits.mpr ⟨hkey, .inr (Nat.not_le.mp hlong)⟩
            rw [if_neg hlong]
            by_cases hvalueNil : rawValue line = []
            · have hentry : entryOf line = none := if_pos (.inr (.inr hvalueNil))
              rw [if_pos hvalueNil, if_pos (addable_of_none hfits hentry), hentry]
              rfl
            · have hentry : ¬ (line.head? = some HASH ∨ rawKey line = [] ∨ rawValue line = []) := by
                simp only [h, hkeyNil, hvalueNil, or_self, not_false_eq_true]
              rw [if_neg hvalueNil]
              exact trim_entry (if_neg hentry) hfits

/-- A line that the loop passes over has no entry, and nothing of it is copied. -/
theorem entryOf_skipped (h : line.head? = some HASH ∨ line.head? = some 0) :
    Addable line ∧ entryOf line = none := by
  have hnone : entryOf line = none ∧ FitsArrays line := by
    rcases h with hhash | hzero
    · exact ⟨if_pos (.inl hhash), .inl hhash⟩
    · cases line with
      | nil => cases hzero
      | cons c rest =>
          have hnil : cString (c :: rest) = [] := by
            rw [Option.some.inj hzero]
            rfl
          have hkey : rawKey (c :: rest) = [] := by
            rw [rawKey, hnil]
            rfl
          refine ⟨if_pos (.inr (.inl hkey)), .inr (.inl ?_)⟩
          rw [hnil]
          exact List.not_mem_nil
  exact ⟨addable_of_none hnone.2 hnone.1, hnone.1⟩

/-- The loop in `Load` sets the entry of each line. -/
theorem readLine_eq (h : NEWLINE ∉ line) :
    readLine m line = if Addable line then some (set m (entryOf line)) else none := by
  cases line with
  | nil => rfl
  | cons c rest =>
      rw [readLine]
      split
      · next hskip =>
          have hskipped : Addable (c :: rest) ∧ entryOf (c :: rest) = none := by
            refine entryOf_skipped ?_
            rcases hskip with rfl | rfl | rfl
            · exact absurd List.mem_cons_self h
            · exact .inl rfl
            · exact .inr rfl
          rw [if_pos hskipped.1, hskipped.2]
          rfl
      · next hread =>
          refine addMap_cString fun hhash => hread ?_
          exact .inr (.inl (Option.some.inj hhash))

/-! ### The lines of a text -/

theorem getElem?_set (m : PropertyMap) (e : Option (Bytes × Bytes)) (k : Bytes) :
    (set m e)[k]? = (e.toList.lookup k).or m[k]? := by
  cases e with
  | none => rfl
  | some e =>
      rw [set, Std.ExtTreeMap.getElem?_insert, Option.toList_some, List.lookup_singleton]
      simp only [Std.compare_eq_iff_eq, beq_iff_eq, eq_comm (a := k)]
      split <;> rfl

theorem lastValue_cons (line : Bytes) (lines : List Bytes) (k : Bytes) :
    lastValue (line :: lines) k = (lastValue lines k).or ((entryOf line).toList.lookup k) := by
  cases h : entryOf line with
  | none => simp [lastValue, h]
  | some e => simp [lastValue, h, List.lookup_append]

theorem lastValue_append (front back : List Bytes) (k : Bytes) :
    lastValue (front ++ back) k = (lastValue back k).or (lastValue front k) := by
  rw [lastValue, List.filterMap_append, List.reverse_append, List.lookup_append]
  rfl

/-- The loop in `Load`, over any lines. -/
theorem foldlM_readLine_eq_some (h : ∀ line ∈ lines, NEWLINE ∉ line) :
    lines.foldlM readLine m = some r ↔
      (∀ line ∈ lines, Addable line) ∧ ∀ k : Bytes, r[k]? = (lastValue lines k).or m[k]? := by
  induction lines generalizing m with
  | nil =>
      have heq : some m = some r ↔ ∀ k : Bytes, r[k]? = m[k]? :=
        ⟨fun h _ => Option.some.inj h ▸ rfl,
          fun h => congrArg some (Std.ExtTreeMap.ext_getElem? fun k => (h k).symm)⟩
      simpa [lastValue] using heq
  | cons line lines ih =>
      rw [List.forall_mem_cons] at h ⊢
      rw [List.foldlM_cons, readLine_eq h.1]
      by_cases hadd : Addable line
      · rw [if_pos hadd, Option.bind_eq_bind, Option.bind_some, ih h.2]
        simp only [hadd, true_and, getElem?_set, lastValue_cons, Option.or_assoc]
      · simp [hadd]

theorem mem_getLines (h : line ∈ getLines text) : line ∈ Lines.lines NEWLINE text :=
  (List.takeWhile_sublist _).subset h

/-- What `Load` makes of a text. -/
theorem readText_eq_some : readText m text = some r ↔
    (∀ line ∈ getLines text, Addable line) ∧
      ∀ k : Bytes, r[k]? = (lastValue (getLines text) k).or m[k]? :=
  foldlM_readLine_eq_some fun _ hline => Lines.not_mem_of_mem_lines (mem_getLines hline)

/-- In an empty map it makes what the lines say. -/
theorem getElem?_of_readText (h : readText ∅ text = some r) (k : Bytes) :
    r[k]? = lastValue (getLines text) k := by
  rw [(readText_eq_some.mp h).2, Std.ExtTreeMap.getElem?_empty, Option.or_none]

theorem exists_foldlM_readLine (m : PropertyMap) (h : ∀ line ∈ lines, NEWLINE ∉ line)
    (hadd : ∀ line ∈ lines, Addable line) : ∃ r, lines.foldlM readLine m = some r := by
  induction lines generalizing m with
  | nil => exact ⟨m, rfl⟩
  | cons line lines ih =>
      rw [List.forall_mem_cons] at h hadd
      rw [List.foldlM_cons, readLine_eq h.1, if_pos hadd.1]
      exact ih _ h.2 hadd.2

/-- A text whose lines are all defined is read. -/
theorem exists_readText (m : PropertyMap) (h : ∀ line ∈ getLines text, Addable line) :
    ∃ r, readText m text = some r :=
  exists_foldlM_readLine m (fun _ hline => Lines.not_mem_of_mem_lines (mem_getLines hline)) h

theorem exists_of_lastValue {k v : Bytes} (h : lastValue lines k = some v) :
    ∃ line ∈ lines, entryOf line = some (k, v) := by
  obtain ⟨front, back, hsplit, -⟩ := List.lookup_eq_some_iff.mp h
  have hmem : (k, v) ∈ (lines.filterMap entryOf).reverse := by
    rw [hsplit]
    exact List.mem_append_right _ List.mem_cons_self
  exact List.mem_filterMap.mp (List.mem_reverse.mp hmem)

/-! ### Properties files -/

theorem getLines_eq (h : ∀ line ∈ Lines.lines NEWLINE text, line.length < MAX_LINE_SIZE) :
    getLines text = Lines.lines NEWLINE text :=
  List.takeWhile_eq_self_iff.mpr fun line hline => by simpa using h line hline

/-- A properties file: comments, lines without `'='`, and lines with a key and a value that
fit. -/
def IsPropertiesFile (file : Bytes) : Prop :=
  ∀ line ∈ Lines.lines NEWLINE file, line.length < MAX_LINE_SIZE ∧
    (line.head? = some HASH ∨ EQUALS ∉ cString line ∨
      (rawKey line).length < MAX_KEY_SIZE ∧ (rawValue line).length < MAX_VALUE_SIZE)

theorem IsPropertiesFile.fitsArrays (h : IsPropertiesFile file) :
    ∀ line ∈ Lines.lines NEWLINE file, FitsArrays line := by
  intro line hline
  rcases (h line hline).2 with hcomment | hnone | ⟨hkey, hvalue⟩
  · exact .inl hcomment
  · exact .inr (.inl hnone)
  · exact .inr (.inr ⟨hkey, .inr hvalue⟩)

theorem IsPropertiesFile.getLines_eq (h : IsPropertiesFile file) :
    getLines file = Lines.lines NEWLINE file :=
  Properties.getLines_eq fun line hline => (h line hline).1

instance (file : Bytes) : Decidable (IsPropertiesFile file) := by
  unfold IsPropertiesFile
  infer_instance

/-- It is read exactly if no move overlaps. -/
theorem IsPropertiesFile.exists_readText_iff (h : IsPropertiesFile file) :
    (∃ r, readText ∅ file = some r) ↔ ∀ line ∈ Lines.lines NEWLINE file, Apart line := by
  constructor
  · rintro ⟨r, hread⟩ line hline
    exact ((readText_eq_some.mp hread).1 line (h.getLines_eq.symm ▸ hline)).2
  · intro hapart
    refine exists_readText ∅ fun line hline => ?_
    rw [h.getLines_eq] at hline
    exact ⟨h.fitsArrays line hline, hapart line hline⟩

theorem load_eq_of_readText (hdisk : disk name = some file) (hread : readText ∅ file = some r) :
    new.load disk name = some (0, ⟨name, r⟩) := by
  rw [load, hdisk]
  simp only [new, hread, Option.map_some]

/-- What has been loaded has been read. -/
theorem exists_readText_of_load {p : Properties} (hdisk : disk name = some file)
    (h : new.load disk name = some (0, p)) : ∃ r, readText ∅ file = some r ∧ p = ⟨name, r⟩ := by
  rw [load, hdisk] at h
  obtain ⟨r, hread, heq⟩ := Option.map_eq_some_iff.mp h
  cases heq
  exact ⟨r, hread, rfl⟩

/-! ### Entries -/

/-- What a map can hold that has been read from a file: the key is a C string without
line break or `'='`, the value one without line break, both trimmed and within their
arrays. -/
@[mk_iff]
structure Storable (e : Bytes × Bytes) : Prop where
  key_trimmed : strip e.1 = e.1
  value_trimmed : strip e.2 = e.2
  key_lt : e.1.length < MAX_KEY_SIZE
  value_lt : e.2.length < MAX_VALUE_SIZE
  key_plain : ∀ c ∈ e.1, c ≠ NEWLINE ∧ c ≠ 0 ∧ c ≠ EQUALS
  value_plain : ∀ c ∈ e.2, c ≠ NEWLINE ∧ c ≠ 0

instance (e : Bytes × Bytes) : Decidable (Storable e) := decidable_of_iff _ (storable_iff e).symm

/-- What a line can say: neither is empty, and it is no comment. -/
def Readable (e : Bytes × Bytes) : Prop := e.1 ≠ [] ∧ e.2 ≠ [] ∧ e.1.head? ≠ some HASH

instance (e : Bytes × Bytes) : Decidable (Readable e) := by unfold Readable; infer_instance

/-- The line of an entry. -/
def lineOf (e : Bytes × Bytes) : Bytes := e.1 ++ EQUALS :: e.2

theorem Storable.newline_not_mem (h : Storable e) : NEWLINE ∉ lineOf e := by
  intro hmem
  rcases List.mem_append.mp hmem with hmem | hmem
  · exact (h.key_plain _ hmem).1 rfl
  · rcases List.mem_cons.mp hmem with hequals | hmem
    · exact absurd hequals (by decide)
    · exact (h.value_plain _ hmem).1 rfl

theorem Storable.cString_lineOf (h : Storable e) : cString (lineOf e) = lineOf e := by
  refine cString_eq_self fun c hc => ?_
  rcases List.mem_append.mp hc with hc | hc
  · exact (h.key_plain c hc).2.1
  · rcases List.mem_cons.mp hc with rfl | hc
    · decide
    · exact (h.value_plain c hc).2

theorem Storable.rawKey_lineOf (h : Storable e) : rawKey (lineOf e) = e.1 := by
  rw [rawKey, h.cString_lineOf, lineOf, List.takeWhile_append_of_pos]
  · simp
  · intro c hc
    simpa using (h.key_plain c hc).2.2

theorem Storable.rawValue_lineOf (h : Storable e) : rawValue (lineOf e) = e.2 := by
  rw [rawValue, h.cString_lineOf, lineOf, List.dropWhile_append_of_pos]
  · simp
  · intro c hc
    simpa using (h.key_plain c hc).2.2

theorem Storable.addable_lineOf (h : Storable e) : Addable (lineOf e) := by
  rw [Addable, FitsArrays, Apart, h.rawKey_lineOf, h.rawValue_lineOf]
  exact ⟨.inr (.inr ⟨h.key_lt, .inr h.value_lt⟩),
    .inr ⟨not_overlaps_of_strip h.key_trimmed, not_overlaps_of_strip h.value_trimmed⟩⟩

theorem Storable.entryOf_lineOf (h : Storable e) :
    entryOf (lineOf e) = if Readable e then some e else none := by
  have hhead : (lineOf e).head? = some HASH ↔ e.1.head? = some HASH := by
    rw [lineOf]
    cases e.1 with
    | nil => simp [HASH, EQUALS]
    | cons c key => rfl
  have hread : ¬ Readable e ↔ (lineOf e).head? = some HASH ∨ e.1 = [] ∨ e.2 = [] := by
    rw [hhead, Readable]
    tauto
  rw [entryOf, h.rawKey_lineOf, h.rawValue_lineOf, h.key_trimmed, h.value_trimmed]
  by_cases hreadable : Readable e
  · rw [if_neg fun hskip => hread.mpr hskip hreadable, if_pos hreadable]
  · rw [if_pos (hread.mp hreadable), if_neg hreadable]

/-- The entry of a line that `Load` reads is storable. -/
theorem storable_of_entryOf (hline : NEWLINE ∉ line) (hfits : FitsArrays line)
    (h : entryOf line = some e) : Storable e := by
  have hplain : ∀ c ∈ cString line, c ≠ NEWLINE ∧ c ≠ 0 := by
    intro c hc
    obtain ⟨hmem, hzero⟩ := mem_cString hc
    exact ⟨fun heq => hline (heq ▸ hmem), hzero⟩
  have hkey : ∀ c ∈ rawKey line, c ≠ NEWLINE ∧ c ≠ 0 ∧ c ≠ EQUALS := by
    intro c hc
    obtain ⟨hnewline, hzero⟩ := hplain c ((List.takeWhile_sublist _).subset hc)
    exact ⟨hnewline, hzero, by simpa using List.mem_takeWhile_imp hc⟩
  have hvalue : ∀ c ∈ rawValue line, c ≠ NEWLINE ∧ c ≠ 0 := fun c hc =>
    hplain c ((List.dropWhile_sublist _).subset ((List.tail_sublist _).subset hc))
  rw [entryOf] at h
  split at h
  · cases h
  · next hentry =>
      cases h
      rw [not_or, not_or] at hentry
      obtain ⟨hhash, hkeyNil, hvalueNil⟩ := hentry
      have hlengths : (rawKey line).length < MAX_KEY_SIZE ∧
          (rawValue line).length < MAX_VALUE_SIZE := by
        rcases hfits with hcomment | hnone | ⟨hkeyFits, hempty | hvalueFits⟩
        · exact absurd hcomment hhash
        · refine absurd ?_ hvalueNil
          rw [rawValue, equals_not_mem_iff.mp hnone]
          rfl
        · exact absurd hempty hkeyNil
        · exact ⟨hkeyFits, hvalueFits⟩
      exact ⟨strip_strip, strip_strip, length_strip_le.trans_lt hlengths.1,
        length_strip_le.trans_lt hlengths.2, fun c hc => hkey c (strip_subset hc),
        fun c hc => hvalue c (strip_subset hc)⟩

/-- Every entry is storable. -/
def AllStorable (m : PropertyMap) : Prop := ∀ k v : Bytes, m[k]? = some v → Storable (k, v)

theorem allStorable_empty : AllStorable ∅ := by
  intro k v h
  simp at h

theorem AllStorable.insertIfNew (h : AllStorable m) (he : Storable e) :
    AllStorable (m.insertIfNew e.1 e.2) := by
  intro k v hk
  rw [Std.ExtTreeMap.getElem?_insertIfNew] at hk
  simp only [Std.compare_eq_iff_eq] at hk
  split at hk
  · next hkey =>
      cases hk
      exact hkey.1 ▸ he
  · exact h k v hk

/-- What `Load` reads is storable. -/
theorem AllStorable.readText (h : AllStorable m) (hread : readText m text = some r) :
    AllStorable r := by
  obtain ⟨hadd, hvalues⟩ := readText_eq_some.mp hread
  intro k v hk
  rw [hvalues, Option.or_eq_some_iff] at hk
  rcases hk with hlast | ⟨-, hold⟩
  · obtain ⟨line, hline, hentry⟩ := exists_of_lastValue hlast
    exact storable_of_entryOf (Lines.not_mem_of_mem_lines (mem_getLines hline))
      (hadd line hline).1 hentry
  · exact h k v hold

end ThunderChat.Properties

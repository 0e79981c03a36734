import ThunderChat.Properties.Grammar

/-!
`Properties::Flush` and `Properties::Load`, one after the other.

`Flush` writes over the beginning of the old file and does not cut it off behind what it
has written, so that the rest of the old file stays in it. `snprintf` has room for an entry
and its line break only when key and value are not both as long as they can be; otherwise
the line goes on with what is behind it.

* `lines_text`: the lines of the new file, where no line goes on like that.
* `getLines_broken`: where one does, `Load` stops in front of it.
* `flush_load_iff`: when the file gives the map back that was written to it. Both loads have
  to be defined for that.
-/

namespace ThunderChat.Properties

open Lines

variable {rest file : Bytes} {e : Bytes × Bytes} {es sets : List (Bytes × Bytes)}
  {m : PropertyMap} {disk : Disk} {name : String}

/-- `snprintf` has no room for the line break of this entry. -/
def Full (e : Bytes × Bytes) : Prop := MAX_LINE_SIZE - 2 ≤ e.1.length + e.2.length

instance (e : Bytes × Bytes) : Decidable (Full e) := by unfold Full; infer_instance

/-- A full entry is the last one, and nothing or a line break is behind it. -/
def Unbroken (rest : Bytes) : List (Bytes × Bytes) → Prop
  | [] => True
  | e :: es => (Full e → es = [] ∧ (rest = [] ∨ rest.head? = some NEWLINE)) ∧ Unbroken rest es

theorem unbroken_of_not_full (h : ∀ e ∈ es, ¬ Full e) : Unbroken rest es := by
  induction es with
  | nil => trivial
  | cons e es ih =>
      rw [List.forall_mem_cons] at h
      exact ⟨fun hfull => absurd hfull h.1, ih h.2⟩

/-- The length of what `Flush` writes. -/
def textLength (m : PropertyMap) : Nat :=
  (m.toList.map fun e => min (MAX_LINE_SIZE - 1) (e.1.length + e.2.length + 2)).sum

/-! ### What is written -/

theorem length_lineOf (e : Bytes × Bytes) :
    (lineOf e).length = e.1.length + e.2.length + 1 := by
  rw [lineOf, List.length_append, List.length_cons]
  rfl

theorem lineOf_ne_nil (e : Bytes × Bytes) : lineOf e ≠ [] :=
  List.append_ne_nil_of_right_ne_nil _ (List.cons_ne_nil _ _)

/-- A storable entry is full only up to its line break. -/
theorem Storable.length_lineOf_lt (h : Storable e) : (lineOf e).length < MAX_LINE_SIZE := by
  have hkey := h.key_lt
  have hvalue := h.value_lt
  rw [length_lineOf]
  unfold MAX_KEY_SIZE at hkey
  unfold MAX_VALUE_SIZE at hvalue
  unfold MAX_LINE_SIZE
  omega

theorem Storable.entryLine_eq_take (h : Storable e) :
    entryLine e = (lineOf e ++ [NEWLINE]).take (MAX_LINE_SIZE - 1) := by
  rw [entryLine, cString_eq_self fun c hc => (h.key_plain c hc).2.1,
    cString_eq_self fun c hc => (h.value_plain c hc).2, lineOf, List.append_assoc]
  rfl

theorem Storable.entryLine_eq (h : Storable e) :
    entryLine e = if Full e then lineOf e else lineOf e ++ [NEWLINE] := by
  have hlt := h.length_lineOf_lt
  have hlength := length_lineOf e
  rw [h.entryLine_eq_take]
  split
  · next hfull =>
      unfold Full at hfull
      have hall : (lineOf e).length = MAX_LINE_SIZE - 1 := by omega
      rw [← hall, List.take_left]
  · next hfull =>
      unfold Full at hfull
      refine List.take_of_length_le ?_
      rw [List.length_append, List.length_singleton]
      omega

theorem Storable.length_entryLine (h : Storable e) :
    (entryLine e).length = min (MAX_LINE_SIZE - 1) (e.1.length + e.2.length + 2) := by
  rw [h.entryLine_eq_take, List.length_take, List.length_append, length_lineOf,
    List.length_singleton]

theorem AllStorable.of_mem_toList (h : AllStorable m) (he : e ∈ m.toList) : Storable e :=
  h e.1 e.2 (Std.ExtTreeMap.mem_toList_iff_getElem?_eq_some.mp he)

theorem AllStorable.length_text (h : AllStorable m) :
    (m.toList.flatMap entryLine).length = textLength m := by
  rw [List.length_flatMap, textLength]
  exact congrArg List.sum (List.map_congr_left fun e he => (h.of_mem_toList he).length_entryLine)

/-! ### The lines of the new file -/

/-- What follows a full entry has the same lines behind its own, but for an empty one. -/
theorem lines_full (h : Storable e) (hend : rest = [] ∨ rest.head? = some NEWLINE) :
    ∃ tail, lines NEWLINE (lineOf e ++ rest) = lineOf e :: tail ∧
      (lines NEWLINE rest = tail ∨ lines NEWLINE rest = [] :: tail) := by
  cases rest with
  | nil =>
      refine ⟨[], ?_, .inl rfl⟩
      rw [lines_append h.newline_not_mem (lineOf_ne_nil e)]
      rfl
  | cons c rest =>
      have hc : c = NEWLINE := by simpa using hend
      subst hc
      exact ⟨lines NEWLINE rest, lines_append_terminated h.newline_not_mem, .inr lines_newline⟩

/-- The lines of the new file, where no line goes on. -/
theorem lines_text (hes : ∀ e ∈ es, Storable e) (hunbroken : Unbroken rest es) :
    ∃ tail, lines NEWLINE (es.flatMap entryLine ++ rest) = es.map lineOf ++ tail ∧
      (lines NEWLINE rest = tail ∨ lines NEWLINE rest = [] :: tail) := by
  induction es with
  | nil => exact ⟨lines NEWLINE rest, rfl, .inl rfl⟩
  | cons e es ih =>
      obtain ⟨he, hes⟩ := List.forall_mem_cons.mp hes
      obtain ⟨hlast, hunbroken⟩ := hunbroken
      rw [List.flatMap_cons, he.entryLine_eq, List.append_assoc]
      split
      · next hfull =>
          obtain ⟨rfl, hend⟩ := hlast hfull
          exact lines_full he hend
      · obtain ⟨tail, hlines, htail⟩ := ih hes hunbroken
        refine ⟨tail, ?_, htail⟩
        rw [List.append_assoc, List.singleton_append, lines_append_terminated he.newline_not_mem,
          hlines]
        rfl

/-- A full line that goes on does not fit into the buffer of `Load`. -/
theorem getLines_full {c : UInt8} (h : Storable e) (hfull : Full e) (hc : c ≠ NEWLINE) :
    getLines (lineOf e ++ c :: rest) = [] := by
  obtain ⟨line, more, hlines⟩ : ∃ line more, lines NEWLINE (c :: rest) = (c :: line) :: more := by
    rw [lines_cons hc]
    split
    · exact ⟨[], [], rfl⟩
    · exact ⟨_, _, rfl⟩
  have hlong : ¬ (lineOf e ++ c :: line).length < MAX_LINE_SIZE := by
    unfold Full at hfull
    rw [List.length_append, length_lineOf, List.length_cons]
    omega
  rw [getLines, lines_append h.newline_not_mem (lineOf_ne_nil e), hlines]
  exact List.takeWhile_cons_of_neg (by simpa using hlong)

/-- What is behind a full entry that is not the last, or not before a line break. -/
theorem exists_cons_text (hes : ∀ e ∈ es, Storable e)
    (h : ¬ (es = [] ∧ (rest = [] ∨ rest.head? = some NEWLINE))) :
    ∃ c tail, es.flatMap entryLine ++ rest = c :: tail ∧ c ≠ NEWLINE := by
  cases es with
  | nil =>
      cases rest with
      | nil => exact absurd ⟨rfl, .inl rfl⟩ h
      | cons c rest => exact ⟨c, rest, rfl, fun hc => h ⟨rfl, .inr (congrArg some hc)⟩⟩
  | cons e es =>
      have he := hes e List.mem_cons_self
      obtain ⟨c, tail, hline⟩ := List.exists_cons_of_ne_nil (lineOf_ne_nil e)
      have hc : c ≠ NEWLINE := fun hc => he.newline_not_mem (hline ▸ hc ▸ List.mem_cons_self)
      rw [List.flatMap_cons, he.entryLine_eq]
      split <;> exact ⟨c, _, by simp [hline]; rfl, hc⟩

/-- Where a line goes on, `Load` stops in front of it. -/
theorem getLines_broken (hes : ∀ e ∈ es, Storable e) (hbroken : ¬ Unbroken rest es) :
    ∃ front e back, es = front ++ e :: back ∧
      getLines (es.flatMap entryLine ++ rest) = front.map lineOf := by
  induction es with
  | nil => exact absurd trivial hbroken
  | cons e es ih =>
      obtain ⟨he, hes⟩ := List.forall_mem_cons.mp hes
      by_cases hfull : Full e
      · have hgoes : ¬ (es = [] ∧ (rest = [] ∨ rest.head? = some NEWLINE)) := by
          rintro ⟨rfl, hend⟩
          exact hbroken ⟨fun _ => ⟨rfl, hend⟩, trivial⟩
        obtain ⟨c, tail, htext, hc⟩ := exists_cons_text hes hgoes
        refine ⟨[], e, es, rfl, ?_⟩
        rw [List.flatMap_cons, he.entryLine_eq, if_pos hfull, List.append_assoc, htext]
        exact getLines_full he hfull hc
      · have hbroken : ¬ Unbroken rest es :=
          fun h => hbroken ⟨fun hfull' => absurd hfull' hfull, h⟩
        obtain ⟨front, e', back, rfl, hlines⟩ := ih hes hbroken
        refine ⟨e :: front, e', back, rfl, ?_⟩
        rw [List.flatMap_cons, he.entryLine_eq, if_neg hfull, List.append_assoc, List.append_assoc,
          List.singleton_append, getLines, lines_append_terminated he.newline_not_mem,
          List.takeWhile_cons_of_pos (by simpa using he.length_lineOf_lt), ← getLines, hlines]
        rfl

/-! ### What the new file says -/

theorem exists_of_lastValue_entries {k v : Bytes} (hes : ∀ e ∈ es, Storable e)
    (h : lastValue (es.map lineOf) k = some v) : (k, v) ∈ es ∧ Readable (k, v) := by
  obtain ⟨line, hline, hentry⟩ := exists_of_lastValue h
  obtain ⟨e, he, rfl⟩ := List.mem_map.mp hline
  rw [(hes e he).entryOf_lineOf] at hentry
  split at hentry
  · next hread =>
      cases hentry
      exact ⟨he, hread⟩
  · cases hentry

/-- The lines of the entries say the entries that a line can say. -/
theorem lastValue_entries (hm : AllStorable m) {k v : Bytes} :
    lastValue (m.toList.map lineOf) k = some v ↔ m[k]? = some v ∧ Readable (k, v) := by
  have hsound {v : Bytes} (h : lastValue (m.toList.map lineOf) k = some v) :
      m[k]? = some v ∧ Readable (k, v) := by
    obtain ⟨hmem, hread⟩ := exists_of_lastValue_entries (fun _ => hm.of_mem_toList) h
    exact ⟨Std.ExtTreeMap.mem_toList_iff_getElem?_eq_some.mp hmem, hread⟩
  refine ⟨hsound, fun ⟨hk, hread⟩ => ?_⟩
  have hmem : (k, v) ∈ m.toList := Std.ExtTreeMap.mem_toList_iff_getElem?_eq_some.mpr hk
  have hentry : (k, v) ∈ (m.toList.map lineOf).filterMap entryOf := by
    refine List.mem_filterMap.mpr ⟨lineOf (k, v), List.mem_map_of_mem hmem, ?_⟩
    rw [(hm k v hk).entryOf_lineOf, if_pos hread]
  have hsome : (lastValue (m.toList.map lineOf) k).isSome :=
    List.lookup_isSome_iff.mpr ⟨(k, v), List.mem_reverse.mpr hentry, beq_self_eq_true k⟩
  obtain ⟨v', hv'⟩ := Option.isSome_iff_exists.mp hsome
  rw [hv', ← (hsound hv').1, hk]

/-- The new file gives the map back: no line goes on into what is behind it, and what the
rest of the old file says is an entry of the map, and says those entries that their own
lines do not say. -/
structure Restores (m : PropertyMap) (rest : Bytes) : Prop where
  unbroken : Unbroken rest m.toList
  fits : ∀ line ∈ lines NEWLINE rest, Addable line
  agrees : ∀ k v, lastValue (lines NEWLINE rest) k = some v → m[k]? = some v
  fills : ∀ k v : Bytes, m[k]? = some v → ¬ Readable (k, v) →
    lastValue (lines NEWLINE rest) k = some v

/-- A map of short entries that say something is given back when nothing of the old file is
left. -/
theorem restores_of_length_le (hlong : file.length ≤ textLength m)
    (h : ∀ e ∈ m.toList, ¬ Full e ∧ Readable e) : Restores m (file.drop (textLength m)) := by
  rw [List.drop_of_length_le hlong]
  refine ⟨unbroken_of_not_full fun e he => (h e he).1, fun _ hline => (List.not_mem_nil hline).elim,
    fun k v hlast => ?_, fun k v hk hread => ?_⟩
  · cases hlast
  · exact absurd (h (k, v) (Std.ExtTreeMap.mem_toList_iff_getElem?_eq_some.mpr hk)).2 hread

/-- Where no line goes on, `Load` gets the lines of the entries and those of the rest. -/
theorem readText_unbroken (hm : AllStorable m)
    (hrest : ∀ line ∈ lines NEWLINE rest, line.length < MAX_LINE_SIZE)
    (hunbroken : Unbroken rest m.toList) :
    readText ∅ (m.toList.flatMap entryLine ++ rest) = some m ↔
      (∀ line ∈ lines NEWLINE rest, Addable line) ∧
        ∀ k : Bytes, m[k]? =
          (lastValue (lines NEWLINE rest) k).or (lastValue (m.toList.map lineOf) k) := by
  obtain ⟨tail, hlines, htail⟩ := lines_text (fun _ => hm.of_mem_toList) hunbroken
  have hentries : ∀ line ∈ m.toList.map lineOf, line.length < MAX_LINE_SIZE ∧ Addable line := by
    rw [List.forall_mem_map]
    intro e he
    have hstorable := hm.of_mem_toList he
    exact ⟨hstorable.length_lineOf_lt, hstorable.addable_lineOf⟩
  have hempty : Addable [] :=
    addable_of_none (.inr (.inl List.not_mem_nil)) (if_pos (.inr (.inl rfl)))
  -- the empty line in front of the tail makes no difference
  have hsame : (∀ line ∈ tail, line.length < MAX_LINE_SIZE) ∧
      ((∀ line ∈ lines NEWLINE rest, Addable line) ↔ ∀ line ∈ tail, Addable line) ∧
      ∀ k, lastValue (lines NEWLINE rest) k = lastValue tail k := by
    rcases htail with heq | heq <;> rw [heq] at hrest ⊢
    · exact ⟨hrest, Iff.rfl, fun _ => rfl⟩
    · rw [List.forall_mem_cons] at hrest ⊢
      refine ⟨hrest.2, and_iff_right hempty, fun k => ?_⟩
      rw [lastValue_cons]
      exact Option.or_none
  obtain ⟨hshort, hadd, hvalues⟩ := hsame
  have hget : getLines (m.toList.flatMap entryLine ++ rest) = m.toList.map lineOf ++ tail := by
    rw [getLines_eq, hlines]
    rw [hlines, List.forall_mem_append]
    exact ⟨fun line hline => (hentries line hline).1, hshort⟩
  rw [readText_eq_some, hget, List.forall_mem_append, hadd]
  refine and_congr ⟨And.right, fun h => ⟨fun line hline => (hentries line hline).2, h⟩⟩ ?_
  simp only [lastValue_append, hvalues, Std.ExtTreeMap.getElem?_empty, Option.or_none]

/-- Where one does, something of the map is missing. -/
theorem readText_broken (hm : AllStorable m) (hbroken : ¬ Unbroken rest m.toList) :
    readText ∅ (m.toList.flatMap entryLine ++ rest) ≠ some m := by
  obtain ⟨front, e, back, hsplit, hlines⟩ :=
    getLines_broken (fun _ => hm.of_mem_toList) hbroken
  intro hread
  have he : e ∈ m.toList := hsplit ▸ List.mem_append_right _ List.mem_cons_self
  have hlast := getElem?_of_readText hread e.1
  rw [hlines, Std.ExtTreeMap.mem_toList_iff_getElem?_eq_some.mp he] at hlast
  have hfront : ∀ e ∈ front, Storable e :=
    fun e' he' => hm.of_mem_toList (hsplit ▸ List.mem_append_left _ he')
  obtain ⟨hmem, -⟩ := exists_of_lastValue_entries hfront hlast.symm
  have hdistinct := m.distinct_keys_toList
  rw [hsplit, List.pairwise_append] at hdistinct
  exact hdistinct.2.2 e hmem e List.mem_cons_self Std.compare_self

/-- What is read back is the map exactly where the rest of the old file lets it. -/
theorem readText_text_iff (hm : AllStorable m)
    (hrest : ∀ line ∈ lines NEWLINE rest, line.length < MAX_LINE_SIZE) :
    readText ∅ (m.toList.flatMap entryLine ++ rest) = some m ↔ Restores m rest := by
  by_cases hunbroken : Unbroken rest m.toList
  · rw [readText_unbroken hm hrest hunbroken]
    constructor
    · rintro ⟨hadd, hvalues⟩
      refine ⟨hunbroken, hadd, fun k v hlast => ?_, fun k v hk hread => ?_⟩
      · rw [hvalues, hlast]
        rfl
      · rw [hvalues, Option.or_eq_some_iff] at hk
        rcases hk with hlast | ⟨-, hentry⟩
        · exact hlast
        · exact absurd ((lastValue_entries hm).mp hentry).2 hread
    · rintro ⟨-, hadd, hagrees, hfills⟩
      refine ⟨hadd, fun k => ?_⟩
      cases hlast : lastValue (lines NEWLINE rest) k with
      | some v => exact hagrees k v hlast
      | none =>
          refine Option.ext fun v => ?_
          rw [Option.none_or, lastValue_entries hm]
          refine ⟨fun hk => ⟨hk, ?_⟩, And.left⟩
          by_contra hread
          rw [hfills k v hk hread] at hlast
          cases hlast
  · exact ⟨fun h => absurd h (readText_broken hm hunbroken), fun h => absurd h.unbroken hunbroken⟩

/-! ### Flush and Load -/

/-- Some calls of `SetProperty`. -/
def setProperties (p : Properties) (sets : List (Bytes × Bytes)) : Properties :=
  sets.foldl (fun p e => p.setProperty e.1 e.2) p

@[simp] theorem setProperties_fileName (p : Properties) (sets : List (Bytes × Bytes)) :
    (p.setProperties sets).fileName = p.fileName := by
  induction sets generalizing p with
  | nil => rfl
  | cons e sets ih => exact ih (p.setProperty e.1 e.2)

theorem AllStorable.setProperties {p : Properties} (h : AllStorable p.map)
    (hsets : ∀ e ∈ sets, Storable e) : AllStorable (p.setProperties sets).map := by
  induction sets generalizing p with
  | nil => exact h
  | cons e sets ih =>
      rw [List.forall_mem_cons] at hsets
      exact ih (p := p.setProperty e.1 e.2) (h.insertIfNew hsets.1) hsets.2

/-- What `Load` reads after `Flush` is the map exactly where the rest of the old file lets
it. -/
theorem load_flush_iff {p : Properties} (disk : Disk) (hp : AllStorable p.map)
    (hfile : IsPropertiesFile file) (hdisk : disk p.fileName = some file) :
    (∃ r, new.load (p.flush disk) p.fileName = some (0, r) ∧ r.map = p.map) ↔
      Restores p.map (file.drop (textLength p.map)) := by
  have hrest : ∀ line ∈ lines NEWLINE (file.drop (textLength p.map)),
      line.length < MAX_LINE_SIZE := by
    intro line hline
    obtain ⟨whole, hwhole, hsuffix⟩ := suffix_of_mem_lines_drop hline
    exact hsuffix.length_le.trans_lt (hfile whole hwhole).1
  have hflush : p.flush disk p.fileName =
      some (p.map.toList.flatMap entryLine ++ file.drop (textLength p.map)) := by
    rw [flush, hdisk, ← hp.length_text]
    exact Function.update_self ..
  rw [← readText_text_iff hp hrest]
  constructor
  · rintro ⟨r, hload, hmap⟩
    obtain ⟨map, hread, rfl⟩ := exists_readText_of_load hflush hload
    exact hmap ▸ hread
  · intro hread
    exact ⟨⟨p.fileName, p.map⟩, load_eq_of_readText hflush hread, rfl⟩

/-- A store read from a file and added to comes back from `Flush` and `Load` exactly where no
line of the file has a key or value that is moved over itself, and where the rest of the file
behind the new text lets it. -/
theorem flush_load_iff (disk : Disk) (name : String) (hfile : IsPropertiesFile file)
    (hdisk : disk name = some file) (hsets : ∀ e ∈ sets, Storable e ∧ Readable e) :
    (∃ p r, new.load disk name = some (0, p) ∧
        new.load ((p.setProperties sets).flush disk) name = some (0, r) ∧
        r.map = (p.setProperties sets).map) ↔
      (∀ line ∈ lines NEWLINE file, Apart line) ∧ ∀ p, new.load disk name = some (0, p) →
        Restores (p.setProperties sets).map
          (file.drop (textLength (p.setProperties sets).map)) := by
  have hback {map : PropertyMap} (hread : readText ∅ file = some map) :
      (∃ r, new.load (((⟨name, map⟩ : Properties).setProperties sets).flush disk) name =
          some (0, r) ∧ r.map = ((⟨name, map⟩ : Properties).setProperties sets).map) ↔
        Restores ((⟨name, map⟩ : Properties).setProperties sets).map
          (file.drop (textLength ((⟨name, map⟩ : Properties).setProperties sets).map)) := by
    have hstorable : AllStorable ((⟨name, map⟩ : Properties).setProperties sets).map :=
      AllStorable.setProperties (allStorable_empty.readText hread) fun e he => (hsets e he).1
    have hname : ((⟨name, map⟩ : Properties).setProperties sets).fileName = name :=
      setProperties_fileName _ _
    have hiff := load_flush_iff disk hstorable hfile (by rw [hname, hdisk])
    rwa [hname] at hiff
  constructor
  · rintro ⟨p, r, hload, hreload⟩
    obtain ⟨map, hread, rfl⟩ := exists_readText_of_load hdisk hload
    refine ⟨hfile.exists_readText_iff.mp ⟨map, hread⟩, fun q hq => ?_⟩
    obtain rfl : q = ⟨name, map⟩ := by
      rw [hload] at hq
      cases hq
      rfl
    exact (hback hread).mp ⟨r, hreload⟩
  · rintro ⟨hapart, hrestores⟩
    obtain ⟨map, hread⟩ := hfile.exists_readText_iff.mpr hapart
    have hload : new.load disk name = some (0, ⟨name, map⟩) := load_eq_of_readText hdisk hread
    obtain ⟨r, hreload⟩ := (hback hread).mpr (hrestores _ hload)
    exact ⟨⟨name, map⟩, r, hload, hreload⟩

/-- `"a=1\n"`, and `b` set to `"2"`. -/
theorem grown_restored : ∃ p r,
    new.load (fun _ => some [97, 61, 49, 10]) "chat.properties" = some (0, p) ∧
      new.load ((p.setProperties [([98], [50])]).flush fun _ => some [97, 61, 49, 10])
        "chat.properties" = some (0, r) ∧
      r.map = (p.setProperties [([98], [50])]).map := by
  have hfile : IsPropertiesFile [97, 61, 49, 10] := by decide +kernel
  have hsets : ∀ e ∈ [(([98], [50]) : Bytes × Bytes)], Storable e ∧ Readable e := by
    decide +kernel
  refine (flush_load_iff (fun _ => some [97, 61, 49, 10]) "chat.properties" hfile rfl hsets).mpr
    ⟨by decide +kernel, fun p hload => ?_⟩
  have hp : p = ⟨"chat.properties", (∅ : PropertyMap).insert [97] [49]⟩ := by
    cases hload
    rfl
  rw [hp]
  exact restores_of_length_le (by decide +kernel) (by decide +kernel)

/-- `"#abcd=2\n"`, and `a` set to `"1"`: the comment is cut in two, and what is left of it
is an entry. -/
theorem comment_left_over : IsPropertiesFile [35, 97, 98, 99, 100, 61, 50, 10] ∧
    (Storable ([97], [49]) ∧ Readable ([97], [49])) ∧
    ∃ p, new.load (fun _ => some [35, 97, 98, 99, 100, 61, 50, 10]) "chat.properties"
        = some (0, p) ∧
      ¬ ∃ r, new.load ((p.setProperties [([97], [49])]).flush
          fun _ => some [35, 97, 98, 99, 100, 61, 50, 10]) "chat.properties" = some (0, r) ∧
        r.map = (p.setProperties [([97], [49])]).map := by
  have hfile : IsPropertiesFile [35, 97, 98, 99, 100, 61, 50, 10] := by decide +kernel
  have hset : Storable ([97], [49]) ∧ Readable ([97], [49]) := by decide +kernel
  refine ⟨hfile, hset, ⟨"chat.properties", ∅⟩, rfl, fun h => ?_⟩
  have hstored : AllStorable ((∅ : PropertyMap).insertIfNew [97] [49]) :=
    allStorable_empty.insertIfNew hset.1
  have hrestores := (load_flush_iff (fun _ => some [35, 97, 98, 99, 100, 61, 50, 10])
    hstored hfile rfl).mp h
  have hleft := hrestores.agrees [100] [50] rfl
  cases hleft

end ThunderChat.Properties

import Mathlib.Data.List.Infix

/-!
Occurrences of a pattern in a list, and what they cut it into.

`First` is the leftmost occurrence. `occurrences` counts the occurrences one meets going from
left to right and on behind each one, so that those counted do not overlap. `Cuts` says what
pieces a list is in when it is cut out at these: joined with the pattern they are the list
again (`Cuts.intercalate_eq`), none of them contains the pattern (`Cuts.not_infix_of_mem`), and
there is one more of them than occurrences (`Cuts.length_eq`).
-/

namespace ThunderChat.Occurrences

variable {α : Type*} {pattern text : List α} {p : Nat} {pieces : List (List α)}

/-- The pattern begins at `p`, and nowhere in front of `p`. -/
structure First (pattern text : List α) (p : Nat) : Prop where
  here : pattern <+: text.drop p
  before : ∀ q < p, ¬ pattern <+: text.drop q

/-- The pieces of a text, cut at the leftmost occurrences. -/
inductive Cuts (pattern : List α) : List α → List (List α) → Prop where
  | last {text : List α} : ¬ pattern <:+: text → Cuts pattern text [text]
  | cut {text : List α} {p : Nat} {pieces : List (List α)} : First pattern text p →
      Cuts pattern (text.drop (p + pattern.length)) pieces →
      Cuts pattern text (text.take p :: pieces)

/-- The occurrences met from left to right, when `skip` symbols are passed over first. -/
def occurrencesFrom [DecidableEq α] (pattern : List α) : Nat → List α → Nat
  | _, [] => 0
  | skip + 1, _ :: rest => occurrencesFrom pattern skip rest
  | 0, c :: rest =>
      if pattern <+: c :: rest then occurrencesFrom pattern (pattern.length - 1) rest + 1
      else occurrencesFrom pattern 0 rest

/-- The number of leftmost occurrences that do not overlap. -/
def occurrences [DecidableEq α] (pattern text : List α) : Nat := occurrencesFrom pattern 0 text

/-! ### The leftmost occurrence -/

theorem infix_iff_exists_drop : pattern <:+: text ↔ ∃ p, pattern <+: text.drop p := by
  rw [List.infix_iff_prefix_suffix]
  constructor
  · rintro ⟨t, hprefix, hsuffix⟩
    exact ⟨text.length - t.length, List.suffix_iff_eq_drop.mp hsuffix ▸ hprefix⟩
  · rintro ⟨p, hprefix⟩
    exact ⟨text.drop p, hprefix, List.drop_suffix p text⟩

/-- Nothing in front of the leftmost occurrence contains the pattern. -/
theorem First.not_infix_take (h : First pattern text p) (hne : pattern ≠ []) :
    ¬ pattern <:+: text.take p := by
  rw [infix_iff_exists_drop]
  rintro ⟨q, hq⟩
  rw [List.drop_take, List.prefix_take_iff] at hq
  have hpos := List.length_pos_iff.mpr hne
  exact h.before q (by omega) hq.1

theorem First.eq_append (h : First pattern text p) :
    text = text.take p ++ (pattern ++ text.drop (p + pattern.length)) := by
  conv_lhs => rw [← List.take_append_drop p text]
  rw [← List.drop_drop, List.prefix_iff_eq_append.mp h.here]

/-! ### The pieces -/

theorem Cuts.ne_nil (h : Cuts pattern text pieces) : pieces ≠ [] := by
  cases h <;> exact List.cons_ne_nil _ _

/-- The pieces, joined with the pattern, are the text. -/
theorem Cuts.intercalate_eq (h : Cuts pattern text pieces) :
    pattern.intercalate pieces = text := by
  induction h with
  | last _ => exact List.intercalate_singleton
  | cut hfirst hrest ih =>
      rw [List.intercalate_cons_of_ne_nil hrest.ne_nil, ih, List.append_assoc]
      exact hfirst.eq_append.symm

/-- No piece contains the pattern. -/
theorem Cuts.not_infix_of_mem (h : Cuts pattern text pieces) (hne : pattern ≠ []) :
    ∀ piece ∈ pieces, ¬ pattern <:+: piece := by
  induction h with
  | last hnone =>
      intro piece hpiece
      rwa [List.mem_singleton.mp hpiece]
  | cut hfirst _ ih => exact List.forall_mem_cons.mpr ⟨hfirst.not_infix_take hne, ih⟩

/-! ### Their number -/

variable [DecidableEq α]

theorem occurrencesFrom_eq (skip : Nat) (text : List α) :
    occurrencesFrom pattern skip text = occurrences pattern (text.drop skip) := by
  induction text generalizing skip with
  | nil => cases skip <;> rfl
  | cons c rest ih =>
      cases skip with
      | zero => rfl
      | succ skip => exact ih skip

theorem occurrences_cons_of_not {c : α} {rest : List α} (h : ¬ pattern <+: c :: rest) :
    occurrences pattern (c :: rest) = occurrences pattern rest := if_neg h

theorem occurrences_of_prefix (h : pattern <+: text) (hne : pattern ≠ []) :
    occurrences pattern text = occurrences pattern (text.drop pattern.length) + 1 := by
  cases text with
  | nil => exact absurd (List.prefix_nil.mp h) hne
  | cons c rest =>
      have hlength : pattern.length = pattern.length - 1 + 1 :=
        (Nat.sub_add_cancel (List.length_pos_iff.mpr hne)).symm
      rw [hlength, List.drop_succ_cons, ← occurrencesFrom_eq]
      exact if_pos h

theorem occurrences_eq_zero (h : ¬ pattern <:+: text) : occurrences pattern text = 0 := by
  induction text with
  | nil => rfl
  | cons c rest ih =>
      rw [List.infix_cons_iff, not_or] at h
      rw [occurrences_cons_of_not h.1, ih h.2]

/-- Behind the leftmost occurrence there is one less. -/
theorem First.occurrences_eq (h : First pattern text p) (hne : pattern ≠ []) :
    occurrences pattern text = occurrences pattern (text.drop (p + pattern.length)) + 1 := by
  induction p generalizing text with
  | zero =>
      rw [Nat.zero_add]
      exact occurrences_of_prefix h.here hne
  | succ p ih =>
      cases text with
      | nil => exact absurd (List.prefix_nil.mp h.here) hne
      | cons c rest =>
          have hrest : First pattern rest p :=
            ⟨h.here, fun q hq => h.before (q + 1) (Nat.succ_lt_succ hq)⟩
          rw [occurrences_cons_of_not (h.before 0 (Nat.succ_pos p)), ih hrest,
            Nat.succ_add, List.drop_succ_cons]

/-- There is one more piece than occurrences. -/
theorem Cuts.length_eq (h : Cuts pattern text pieces) (hne : pattern ≠ []) :
    pieces.length = occurrences pattern text + 1 := by
  induction h with
  | last hnone => rw [occurrences_eq_zero hnone, List.length_singleton]
  | cut hfirst _ ih => rw [List.length_cons, ih, hfirst.occurrences_eq hne]

end ThunderChat.Occurrences

import Mathlib.Data.List.Basic
import Mathlib.Data.List.Infix

/-!
The lines of a text.

Lines are separated by one symbol; the last line need not be terminated, and an empty text
has none. `lines_append` and `lines_append_terminated` are what putting a text behind
another does to the lines, `suffix_of_mem_lines_drop` is what cutting its beginning off
does.
-/

namespace ThunderChat.Lines

variable {α : Type*} [DecidableEq α] {newline c : α} {l rest text : List α}

/-- The lines of a text, without their terminators. -/
def lines (newline : α) : List α → List (List α)
  | [] => []
  | c :: rest =>
      if c = newline then [] :: lines newline rest
      else
        match lines newline rest with
        | [] => [[c]]
        | line :: more => (c :: line) :: more

theorem lines_newline : lines newline (newline :: rest) = [] :: lines newline rest := if_pos rfl

theorem lines_cons (h : c ≠ newline) : lines newline (c :: rest) =
    match lines newline rest with
    | [] => [[c]]
    | line :: more => (c :: line) :: more := if_neg h

/-- No line contains a terminator. -/
theorem not_mem_of_mem_lines (h : l ∈ lines newline text) : newline ∉ l := by
  induction text generalizing l with
  | nil => cases h
  | cons c rest ih =>
      by_cases hc : c = newline
      · subst hc
        rw [lines_newline] at h
        rcases List.mem_cons.mp h with rfl | hrest
        · exact List.not_mem_nil
        · exact ih hrest
      · rw [lines_cons hc] at h
        split at h
        · rw [List.mem_singleton.mp h, List.mem_singleton]
          exact Ne.symm hc
        · next line more hlines =>
            rcases List.mem_cons.mp h with rfl | hmore
            · rw [List.mem_cons, not_or]
              exact ⟨Ne.symm hc, ih (hlines ▸ List.mem_cons_self)⟩
            · exact ih (hlines ▸ List.mem_cons_of_mem _ hmore)

/-- A line has only symbols of the text. -/
theorem subset_of_mem_lines (h : l ∈ lines newline text) : l ⊆ text := by
  induction text generalizing l with
  | nil => cases h
  | cons c rest ih =>
      by_cases hc : c = newline
      · rw [hc, lines_newline] at h
        rcases List.mem_cons.mp h with rfl | hrest
        · exact List.nil_subset _
        · exact List.Subset.trans (ih hrest) (List.subset_cons_self _ _)
      · rw [lines_cons hc] at h
        split at h
        · rw [List.mem_singleton.mp h]
          exact List.cons_subset_cons c (List.nil_subset rest)
        · next line more hlines =>
            rcases List.mem_cons.mp h with rfl | hmore
            · exact List.cons_subset_cons c (ih (hlines ▸ List.mem_cons_self))
            · exact List.Subset.trans (ih (hlines ▸ List.mem_cons_of_mem _ hmore))
                (List.subset_cons_self _ _)

/-- A terminated line in front of a text. -/
theorem lines_append_terminated (h : newline ∉ l) :
    lines newline (l ++ newline :: rest) = l :: lines newline rest := by
  induction l with
  | nil => exact lines_newline
  | cons c l ih =>
      rw [List.mem_cons, not_or] at h
      rw [List.cons_append, lines_cons (Ne.symm h.1), ih h.2]

/-- A line that is not terminated goes on with the first line of what follows. -/
theorem lines_append (h : newline ∉ l) (hne : l ≠ []) : lines newline (l ++ rest) =
    match lines newline rest with
    | [] => [l]
    | line :: more => (l ++ line) :: more := by
  induction l with
  | nil => exact absurd rfl hne
  | cons c l ih =>
      rw [List.mem_cons, not_or] at h
      rw [List.cons_append, lines_cons (Ne.symm h.1)]
      by_cases hl : l = []
      · subst hl
        rfl
      · rw [ih h.2 hl]
        cases lines newline rest <;> rfl

/-- A line of what is left of a text behind its first symbols is the end of a line of it. -/
theorem suffix_of_mem_lines_drop {n : Nat} (h : l ∈ lines newline (text.drop n)) :
    ∃ line ∈ lines newline text, l <:+ line := by
  induction n generalizing text with
  | zero => exact ⟨l, h, List.suffix_rfl⟩
  | succ n ih =>
      cases text with
      | nil => cases h
      | cons c rest =>
          have hrest : l ∈ lines newline (rest.drop n) := h
          obtain ⟨line, hline, hsuffix⟩ := ih hrest
          by_cases hc : c = newline
          · rw [hc, lines_newline]
            exact ⟨line, List.mem_cons_of_mem _ hline, hsuffix⟩
          · rw [lines_cons hc]
            split
            · next hnil => exact absurd hline (hnil ▸ List.not_mem_nil)
            · next first more hlines =>
                rw [hlines] at hline
                rcases List.mem_cons.mp hline with rfl | hmore
                · exact ⟨_, List.mem_cons_self, hsuffix.trans (List.suffix_cons c _)⟩
                · exact ⟨line, List.mem_cons_of_mem _ hmore, hsuffix⟩

end ThunderChat.Lines

import ThunderChat.Foundation.Loop
import ThunderChat.Foundation.Occurrences
import ThunderChat.Server.Negotiation

/-!
`split`, which makes the manager addresses out of one string.

The loop searches on behind each delimiter it finds. Its state is the position it searches
from, and the pieces so far.

* `exits_from`: what the loop does from any position on.
* `split_correct`: the pieces of a string.
* `not_splits_nil`: with an empty delimiter the loop never ends.
* `length_sockets_of_splits`: so many sockets `ConnectToMgr` keeps.
-/

namespace ThunderChat.Split

open Occurrences

/-- A `std::string`. -/
abbrev Str := List UInt8

/-- `std::string::find`, from a position on; `none` is `npos`. -/
def find (s delimiter : Str) (pos : Nat) : Option Nat :=
  (List.range' pos (s.length + 1 - pos)).find? fun p => delimiter.isPrefixOf (s.drop p)

/-- `std::string::substr`, from a position that is not behind the end. -/
def substr (s : Str) (pos len : Nat) : Str := (s.drop pos).take len

/-- The variables of `split`. -/
structure State where
  posStart : Nat
  res : List Str

/-- The loop of `split`. -/
def body (s delimiter : Str) (st : State) : Loop.Next State :=
  match find s delimiter st.posStart with
  | none => .exit st
  | some posEnd =>
      .again ⟨posEnd + delimiter.length, st.res ++ [substr s st.posStart (posEnd - st.posStart)]⟩

/-- `split` returns these pieces: the loop ends, and `substr` does not throw behind it. -/
def Splits (s delimiter : Str) (pieces : List Str) : Prop :=
  ∃ st, Loop.Exits (body s delimiter) ⟨0, []⟩ st ∧ st.posStart ≤ s.length ∧
    pieces = st.res ++ [s.drop st.posStart]

variable {s delimiter : Str} {pos p : Nat} {res pieces pieces' : List Str}

/-- What is found is the leftmost occurrence in the rest. -/
theorem first_of_find (h : find s delimiter pos = some p) :
    pos ≤ p ∧ p + delimiter.length ≤ s.length ∧ First delimiter (s.drop pos) (p - pos) := by
  obtain ⟨hhere, hmem, hbefore⟩ := List.find?_range'_eq_some.mp h
  rw [List.isPrefixOf_iff_prefix] at hhere
  obtain ⟨hle, hlt⟩ := List.mem_range'_1.mp hmem
  have hlength := hhere.length_le
  rw [List.length_drop] at hlength
  refine ⟨hle, by omega, ?_, fun q hq => ?_⟩
  · rwa [List.drop_drop, Nat.add_sub_cancel' hle]
  · have hnot := hbefore (pos + q) (Nat.le_add_right pos q) (by omega)
    rw [List.drop_drop, ← List.isPrefixOf_iff_prefix, Bool.not_eq_true]
    simpa using hnot

theorem not_infix_of_find (hne : delimiter ≠ []) (h : find s delimiter pos = none) :
    ¬ delimiter <:+: s.drop pos := by
  rw [infix_iff_exists_drop]
  rintro ⟨q, hq⟩
  rw [List.drop_drop] at hq
  have hpositive := List.length_pos_iff.mpr hne
  have hlength := hq.length_le
  rw [List.length_drop] at hlength
  have hnone := List.find?_range'_eq_none.mp h (pos + q) (Nat.le_add_right pos q) (by omega)
  rw [List.isPrefixOf_iff_prefix.mpr hq] at hnone
  cases hnone

/-- From any position on, the loop ends, and what it adds to the pieces are those of the
rest. -/
theorem exits_from (hne : delimiter ≠ []) (hpos : pos ≤ s.length) (res : List Str) :
    ∃ st pieces, Loop.Exits (body s delimiter) ⟨pos, res⟩ st ∧ st.posStart ≤ s.length ∧
      st.res ++ [s.drop st.posStart] = res ++ pieces ∧ Cuts delimiter (s.drop pos) pieces := by
  induction hn : s.length - pos using Nat.strong_induction_on generalizing pos res with
  | _ n ih =>
      cases hfind : find s delimiter pos with
      | none =>
          have hexit : body s delimiter ⟨pos, res⟩ = .exit ⟨pos, res⟩ := by
            simp only [body, hfind]
          exact ⟨⟨pos, res⟩, [s.drop pos], Loop.exits_of_exit hexit, hpos, rfl,
            .last (not_infix_of_find hne hfind)⟩
      | some p =>
          obtain ⟨hle, hinside, hfirst⟩ := first_of_find hfind
          have hpositive := List.length_pos_iff.mpr hne
          have hagain : body s delimiter ⟨pos, res⟩ =
              .again ⟨p + delimiter.length, res ++ [substr s pos (p - pos)]⟩ := by
            simp only [body, hfind]
          obtain ⟨st, pieces, hexits, hend, hres, hcuts⟩ :=
            ih (s.length - (p + delimiter.length)) (by omega) hinside
              (res ++ [substr s pos (p - pos)]) rfl
          refine ⟨st, substr s pos (p - pos) :: pieces, Loop.exits_of_again hagain hexits, hend,
            ?_, .cut hfirst ?_⟩
          · rw [hres, List.append_assoc, List.singleton_append]
          · have hbehind : pos + (p - pos + delimiter.length) = p + delimiter.length := by omega
            rwa [List.drop_drop, hbehind]

/-- `split` returns, and cuts the string at the leftmost occurrences. -/
theorem exists_splits (s : Str) (hne : delimiter ≠ []) :
    ∃ pieces, Splits s delimiter pieces ∧ Cuts delimiter s pieces := by
  obtain ⟨st, pieces, hexits, hle, hres, hcuts⟩ := exits_from hne (Nat.zero_le s.length) []
  exact ⟨pieces, ⟨st, hexits, hle, hres.symm⟩, hcuts⟩

/-- `split` returns one list of pieces at most. -/
theorem Splits.unique (h : Splits s delimiter pieces) (h' : Splits s delimiter pieces') :
    pieces = pieces' := by
  obtain ⟨st, hexits, -, rfl⟩ := h
  obtain ⟨st', hexits', -, rfl⟩ := h'
  rw [Loop.exits_unique hexits hexits']

/-- At a single byte `split` cuts into what has been joined with it. -/
theorem splits_intercalate_iff {c : UInt8} (hplain : ∀ piece ∈ pieces, c ∉ piece)
    (hne : pieces ≠ []) : Splits ([c].intercalate pieces) [c] pieces' ↔ pieces' = pieces := by
  obtain ⟨cut, hsplits, hcuts⟩ := exists_splits ([c].intercalate pieces) (List.cons_ne_nil c [])
  have hcut : cut = pieces := by
    have hplain' : ∀ piece ∈ cut, c ∉ piece := fun piece hpiece hmem =>
      hcuts.not_infix_of_mem (List.cons_ne_nil c []) piece hpiece
        ((List.singleton_infix_iff c piece).mpr hmem)
    rw [← List.splitOn_intercalate c hplain' hcuts.ne_nil, hcuts.intercalate_eq,
      List.splitOn_intercalate c hplain hne]
  rw [hcut] at hsplits
  exact ⟨fun h => h.unique hsplits, fun h => h ▸ hsplits⟩

/-- **The pieces of a string.** `split` returns, and the pieces it returns are the string
again when they are joined with the delimiter; none of them contains it, and there is one
more of them than leftmost occurrences that do not overlap. -/
theorem split_correct (s : Str) (hne : delimiter ≠ []) :
    ∃ pieces, (∀ pieces', Splits s delimiter pieces' ↔ pieces' = pieces) ∧
      delimiter.intercalate pieces = s ∧ (∀ piece ∈ pieces, ¬ delimiter <:+: piece) ∧
      pieces.length = occurrences delimiter s + 1 := by
  obtain ⟨pieces, hsplits, hcuts⟩ := exists_splits s hne
  refine ⟨pieces, fun pieces' => ⟨fun h => h.unique hsplits, fun h => h ▸ hsplits⟩, ?_⟩
  exact ⟨hcuts.intercalate_eq, hcuts.not_infix_of_mem hne, hcuts.length_eq hne⟩

/-- `"aaabaa"`, cut at `"aa"`. -/
theorem overlapping_split : ∃ pieces,
    (∀ pieces', Splits [97, 97, 97, 98, 97, 97] [97, 97] pieces' ↔ pieces' = pieces) ∧
      List.intercalate [97, 97] pieces = [97, 97, 97, 98, 97, 97] ∧
      (∀ piece ∈ pieces, ¬ [97, 97] <:+: piece) ∧
      pieces.length = occurrences [97, 97] [97, 97, 97, 98, 97, 97] + 1 :=
  split_correct _ (List.cons_ne_nil _ _)

/-- With an empty delimiter the loop finds it again where it is. -/
theorem not_splits_nil (s : Str) : ¬ Splits s [] pieces := by
  rintro ⟨st, ⟨fuel, hrun⟩, -, -⟩
  have hfind : find s [] 0 = some 0 :=
    List.find?_range'_eq_some.mpr ⟨List.isPrefixOf_iff_prefix.mpr List.nil_prefix,
      List.mem_range'_1.mpr ⟨Nat.le_refl 0, by omega⟩, fun q _ hq => absurd hq (Nat.not_lt_zero q)⟩
  have hagain (res : List Str) : ∃ res', body s [] ⟨0, res⟩ = .again ⟨0, res'⟩ := by
    simp only [body, hfind]
    exact ⟨_, rfl⟩
  have hnone (fuel : Nat) (res : List Str) : Loop.run (body s []) fuel ⟨0, res⟩ = none := by
    induction fuel generalizing res with
    | zero => rfl
    | succ fuel ih =>
        obtain ⟨res', hbody⟩ := hagain res
        rw [Loop.run_succ_of_again hbody, ih]
  rw [hnone] at hrun
  cases hrun

/-! ### The managers -/

/-- What `ConnectToMgr` splits at. -/
def COMMA : Str := [44]

variable {pid : Nat} {links : ManagerLinks Str} {n : Negotiation Str}

theorem sockets_negotiationWithManager :
    (links.negotiationWithManager pid n).1.chatManagerSockets = links.chatManagerSockets := by
  unfold ManagerLinks.negotiationWithManager
  cases n.contact <;> rfl

/-- `ConnectToMgr` keeps one socket, or `NULL`, for each negotiation. -/
theorem length_sockets_connectToMgr (ns : List (Negotiation Str)) :
    (links.connectToMgr pid ns).chatManagerSockets.length =
      links.chatManagerSockets.length + ns.length := by
  induction ns generalizing links with
  | nil => rfl
  | cons n rest ih =>
      rw [ManagerLinks.connectToMgr, ih]
      dsimp only
      rw [sockets_negotiationWithManager, List.length_append, List.length_singleton,
        List.length_cons]
      omega

/-- One for each address, when it negotiates with the pieces of the configured string. -/
theorem length_sockets_of_splits {addresses : Str} (h : Splits addresses COMMA pieces)
    {ns : List (Negotiation Str)} (hns : ns.map Negotiation.manager = pieces) :
    (ManagerLinks.start.connectToMgr pid ns).chatManagerSockets.length =
      occurrences COMMA addresses + 1 := by
  have hne : COMMA ≠ [] := List.cons_ne_nil _ _
  obtain ⟨pieces', hsplits, hcuts⟩ := exists_splits addresses hne
  have hlength : ns.length = pieces.length := by rw [← hns, List.length_map]
  rw [length_sockets_connectToMgr, hlength, h.unique hsplits, hcuts.length_eq hne]
  exact Nat.zero_add _

end ThunderChat.Split

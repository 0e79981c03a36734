import ThunderChat.Foundation.Threads
import Mathlib.Data.List.Basic
import Mathlib.Data.List.Nodup

/-!
A shared list that threads add members to and take members out of.

To close a member is to take it out of the list and more, in several steps of one
thread. `closes` says which member a thread in a given state is about to take out, and
`Known` which members threads may get hold of. If every member is closed once at most,
the one that is taken out is there, and only once: the list gets shorter by one
(`Inv.remove`).
-/

namespace ThunderChat.Roster

variable {C β ι : Type*} [DecidableEq ι] [DecidableEq C]

/-- What is known of the list while threads add members, close them and take them out.
`closed` are the members that threads have begun to close. -/
structure Inv (closes : β → Option C) (list closed : List C) (Known : C → Prop)
    (states : ι → β) : Prop where
  nodup : list.Nodup
  known : ∀ c, Known c → c ∉ closed → c ∈ list
  closing : ∀ i c, closes (states i) = some c → c ∈ list ∧ c ∈ closed
  apart : Threads.Apart closes states

variable {closes : β → Option C} {list closed : List C} {Known Known' : C → Prop}
  {states : ι → β} {t : ι} {x : β} {c : C}

omit [DecidableEq C] in
/-- A thread goes on, with the member it is closing or with none. -/
theorem Inv.put (h : Inv closes list closed Known states) (hknown : ∀ d, Known' d → Known d)
    (hkeeps : ∀ d, closes x = some d → closes (states t) = some d) :
    Inv closes list closed Known' (Function.update states t x) where
  nodup := h.nodup
  known d hd := h.known d (hknown d hd)
  closing := by
    refine Threads.forall_holds_update ?_ ?_
    · exact fun d hd => h.closing t d (hkeeps d hd)
    · exact fun i _ => h.closing i
  apart := h.apart.update_of_keeps hkeeps

omit [DecidableEq C] in
/-- A thread adds a new member. -/
theorem Inv.add (h : Inv closes list closed Known states) (hnew : c ∉ list)
    (hknown : ∀ d, Known' d → Known d ∨ d = c) (hx : closes x = none) :
    Inv closes (list ++ [c]) closed Known' (Function.update states t x) where
  nodup := by
    rw [← List.concat_eq_append]
    exact h.nodup.concat hnew
  known d hd hopen := by
    rcases hknown d hd with hd | rfl
    · exact List.mem_append_left _ (h.known d hd hopen)
    · exact List.mem_append_right _ (List.mem_singleton_self d)
  closing := by
    refine Threads.forall_holds_update ?_ ?_
    · intro d hd
      rw [hx] at hd
      cases hd
    · intro i _ d hd
      obtain ⟨hmem, hclosed⟩ := h.closing i d hd
      exact ⟨List.mem_append_left _ hmem, hclosed⟩
  apart := h.apart.update_of_keeps fun d hd => by rw [hx] at hd; cases hd

omit [DecidableEq C] in
/-- A thread begins to close a member that no thread has begun to close. -/
theorem Inv.close (h : Inv closes list closed Known states) (hc : Known c) (honce : c ∉ closed)
    (hknown : ∀ d, Known' d → Known d) (hx : closes x = some c) :
    Inv closes list (c :: closed) Known' (Function.update states t x) where
  nodup := h.nodup
  known d hd hopen :=
    h.known d (hknown d hd) fun hclosed => hopen (List.mem_cons_of_mem _ hclosed)
  closing := by
    refine Threads.forall_holds_update ?_ ?_
    · intro d hd
      cases hx.symm.trans hd
      exact ⟨h.known c hc honce, List.mem_cons_self⟩
    · intro i _ d hd
      obtain ⟨hmem, hclosed⟩ := h.closing i d hd
      exact ⟨hmem, List.mem_cons_of_mem _ hclosed⟩
  apart := by
    refine h.apart.update fun d hd i _ hi => ?_
    cases hx.symm.trans hd
    exact honce (h.closing i c hi).2

/-- A thread takes the member it is closing out of the list: it was there. -/
theorem Inv.remove (h : Inv closes list closed Known states) (hc : closes (states t) = some c)
    (hknown : ∀ d, Known' d → Known d) (hx : closes x = none) :
    (list.filter (· != c)).length + 1 = list.length ∧
      Inv closes (list.filter (· != c)) closed Known' (Function.update states t x) := by
  obtain ⟨hmem, hclosed⟩ := h.closing t c hc
  refine ⟨?_, h.nodup.filter _, ?_, ?_, ?_⟩
  · rw [← List.Nodup.erase_eq_filter h.nodup, List.length_erase_add_one hmem]
  · intro d hd hopen
    refine List.mem_filter.mpr ⟨h.known d (hknown d hd) hopen, bne_iff_ne.mpr ?_⟩
    rintro rfl
    exact hopen hclosed
  · refine Threads.forall_holds_update ?_ ?_
    · intro d hd
      rw [hx] at hd
      cases hd
    · intro i hi d hd
      obtain ⟨hmem', hclosed'⟩ := h.closing i d hd
      refine ⟨List.mem_filter.mpr ⟨hmem', bne_iff_ne.mpr ?_⟩, hclosed'⟩
      rintro rfl
      exact hi (h.apart i t d hd hc)
  · exact h.apart.update_of_keeps fun d hd => by rw [hx] at hd; cases hd

end ThunderChat.Roster

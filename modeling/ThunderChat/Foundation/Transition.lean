import Mathlib.Tactic.TypeStar

/-!
Transition systems and the states their runs reach.

A step of a system is chosen by a label and may be impossible. `Reaches` are the
states of the runs all of whose steps meet a condition on the state before the
step and its label; `Reaches.invariant` is the induction over such runs.
-/

namespace ThunderChat.Transition

variable {σ ι : Type*} (step : σ → ι → Option σ) (meets : σ → ι → Prop)

/-- The states reached from `start` by steps that meet the condition. -/
inductive Reaches (start : σ) : σ → Prop where
  | refl : Reaches start start
  | tail {s s' : σ} (label : ι) : Reaches start s → meets s label → step s label = some s' →
      Reaches start s'

/-- Take the steps with these labels. -/
def run : σ → List ι → Option σ
  | s, [] => some s
  | s, label :: rest => (step s label).bind fun s' => run s' rest

variable {step meets} {start s : σ}

/-- What steps lead to that meet the condition in every state. -/
theorem Reaches.trans_run (h : Reaches step meets start s) {s' : σ} (labels : List ι)
    (hmeets : ∀ label ∈ labels, ∀ s, meets s label) (hrun : run step s labels = some s') :
    Reaches step meets start s' := by
  induction labels generalizing s with
  | nil =>
      cases hrun
      exact h
  | cons label rest ih =>
      obtain ⟨next, hstep, hrest⟩ := Option.bind_eq_some_iff.mp hrun
      have hnext := h.tail label (hmeets label List.mem_cons_self s) hstep
      exact ih hnext (fun l hl => hmeets l (List.mem_cons_of_mem _ hl)) hrest

theorem reaches_of_run (labels : List ι) (hmeets : ∀ label ∈ labels, ∀ s, meets s label)
    (hrun : run step start labels = some s) : Reaches step meets start s :=
  .trans_run .refl labels hmeets hrun

/-- What holds at the start and is preserved by every step that meets the condition
holds in every state reached. -/
theorem Reaches.invariant {Inv : σ → Prop} (h : Reaches step meets start s) (init : Inv start)
    (preserved : ∀ {s s' : σ} {label : ι}, Inv s → meets s label → step s label = some s' →
      Inv s') : Inv s := by
  induction h with
  | refl => exact init
  | tail _ _ hmeets hstep ih => exact preserved ih hmeets hstep

end ThunderChat.Transition

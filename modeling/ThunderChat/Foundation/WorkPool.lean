import Mathlib.Data.Multiset.Bind
import Mathlib.Logic.Hydra
import Mathlib.Logic.Relation
import Mathlib.Tactic.Abel

/-!
Pools of work items.

Processing an item replaces it by other items and produces outputs. Items wait in a
pool and are processed in any order. When every item's successors have a lower
rank, `Ranked`, every run ends, and the outputs do not depend on the order: they are
the `yields` of the items at the start.

* `step_wf`: there is no infinite run.
* `Run.total_eq`: what has been produced and what is still to come never changes, so
  at any time the former is part of it (`Run.done_le`).
* `run_total`: every state can be run to its end.
-/

namespace ThunderChat.WorkPool

variable {ι ο : Type*} (process : ι → Multiset ι × Multiset ο)

/-- The items waiting and the outputs so far. -/
structure Pool (ι ο : Type*) where
  waiting : Multiset ι
  done : Multiset ο

/-- Any waiting item is processed. -/
inductive Step : Pool ι ο → Pool ι ο → Prop where
  | work (a : ι) (rest : Multiset ι) (done : Multiset ο) :
      Step ⟨a ::ₘ rest, done⟩ ⟨(process a).1 + rest, (process a).2 + done⟩

/-- Any number of items have been processed. -/
def Run : Pool ι ο → Pool ι ο → Prop := Relation.ReflTransGen (Step process)

/-- The successors of an item have a lower rank. -/
def Ranked (rank : ι → Nat) : Prop := ∀ a, ∀ b ∈ (process a).1, rank b < rank a

/-- The outputs of an item and of its successors, `n` generations deep. -/
def yield : Nat → ι → Multiset ο
  | 0, _ => 0
  | n + 1, a => (process a).2 + (process a).1.bind (yield n)

/-- All outputs an item leads to. -/
def yields (rank : ι → Nat) (a : ι) : Multiset ο := yield process (rank a + 1) a

/-- The outputs so far and those the waiting items lead to. -/
def Pool.total (rank : ι → Nat) (p : Pool ι ο) : Multiset ο :=
  p.done + p.waiting.bind (yields process rank)

variable {process} {rank : ι → Nat}

/-- More generations than the rank add nothing. -/
theorem yield_stable (ranked : Ranked process rank) {n m : Nat} {a : ι} (hn : rank a < n)
    (hm : rank a < m) : yield process n a = yield process m a := by
  induction n generalizing m a with
  | zero => omega
  | succ n ih =>
      cases m with
      | zero => omega
      | succ m =>
          rw [yield, yield]
          congr 1
          apply Multiset.bind_congr
          intro b hb
          have hlt := ranked a b hb
          exact ih (by omega) (by omega)

/-- What an item leads to: its own outputs and those of its successors. -/
theorem yields_eq (ranked : Ranked process rank) (a : ι) :
    yields process rank a = (process a).2 + (process a).1.bind (yields process rank) := by
  rw [yields, yield]
  congr 1
  apply Multiset.bind_congr
  intro b hb
  exact yield_stable ranked (ranked a b hb) (Nat.lt_succ_self _)

/-- An additive measure of what an item leads to, from that of its successors. -/
theorem map_yields {N : Type*} [AddCommMonoid N] (ranked : Ranked process rank)
    (f : Multiset ο →+ N) (a : ι) : f (yields process rank a)
      = f (process a).2 + ((process a).1.map fun b => f (yields process rank b)).sum := by
  have hsum : f ((process a).1.bind (yields process rank))
      = ((process a).1.map fun b => f (yields process rank b)).sum := by
    rw [Multiset.bind, Multiset.join, map_multiset_sum, Multiset.map_map]
    rfl
  rw [yields_eq ranked, map_add, hsum]

/-- A step changes nothing about the total. -/
theorem Step.total_eq (ranked : Ranked process rank) {p q : Pool ι ο} (h : Step process p q) :
    q.total process rank = p.total process rank := by
  cases h with
  | work a rest done =>
      simp only [Pool.total, Multiset.add_bind, Multiset.cons_bind]
      rw [yields_eq ranked a]
      abel

/-- Nor does a run. -/
theorem Run.total_eq (ranked : Ranked process rank) {p q : Pool ι ο} (h : Run process p q) :
    q.total process rank = p.total process rank := by
  induction h with
  | refl => rfl
  | tail _ hstep ih => exact (hstep.total_eq ranked).trans ih

/-- What a run has produced is part of what its start leads to. -/
theorem Run.done_le (ranked : Ranked process rank) {p q : Pool ι ο} (h : Run process p q) :
    q.done ≤ p.total process rank := by
  rw [← h.total_eq ranked]
  exact Multiset.le_add_right _ _

/-- Every run ends: a step replaces an item by finitely many of lower rank. -/
theorem step_wf (ranked : Ranked process rank) :
    WellFounded fun q p : Pool ι ο => Step process p q := by
  have hlower : WellFounded fun b a : ι => rank b < rank a := InvImage.wf rank Nat.lt_wfRel.wf
  have hcut : WellFounded (Relation.CutExpand fun b a : ι => rank b < rank a) := hlower.cutExpand
  refine Subrelation.wf ?_ (InvImage.wf Pool.waiting hcut)
  rintro q p ⟨a, rest, done⟩
  refine ⟨(process a).1, a, fun b hb => ranked a b hb, ?_⟩
  show (process a).1 + rest + {a} = a ::ₘ rest + (process a).1
  rw [← Multiset.singleton_add]
  abel

/-- Every state can be run to its end, with the total as the outputs. -/
theorem run_total (ranked : Ranked process rank) (p : Pool ι ο) :
    Run process p ⟨0, p.total process rank⟩ := by
  induction p using (step_wf ranked).induction with
  | _ p ih =>
      obtain ⟨waiting, done⟩ := p
      induction waiting using Multiset.induction with
      | empty =>
          have hdone : (Pool.total process rank ⟨0, done⟩ : Multiset ο) = done := by
            simp [Pool.total]
          rw [hdone]
          exact .refl
      | cons a rest _ =>
          have hstep : Step process ⟨a ::ₘ rest, done⟩ _ := .work a rest done
          rw [← hstep.total_eq ranked]
          exact .head hstep (ih _ hstep)

end ThunderChat.WorkPool

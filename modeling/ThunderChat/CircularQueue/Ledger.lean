import Mathlib.Algebra.Order.Group.Multiset
import Mathlib.Algebra.Order.Monoid.Prod
import Mathlib.Data.Prod.Lex
import ThunderChat.CircularQueue.Network

/-!
What the threads of a network hold, and what is in its queues.

`total` adds up a value of each task and of each pointer in the queues. A step changes it by
what one task does with one pointer, so two kinds of laws over whole runs follow from the
program: a value that each act uses up bounds the runs, and a value that nothing changes is
an inventory.

* `inevitable_drained`: whatever the threads do, all queues are empty in the end.
* `conserved_of_reached`: what the threads have made is where they have put it.
-/

namespace ThunderChat.CircularQueue.Network

open Transition Threads
open scoped BigOperators

variable {T Q α σ ι W : Type} [DecidableEq T] [Fintype T] [DecidableEq Q] [Fintype Q]
  {P : Program Q α σ ι} {s s' : State T Q α σ} {data : Q → Nat → α} {label : Label T ι}
  {t : T} {q : Q} {call : Call α} {p : α} {held : σ → W} {carried : α → W}

/-! ### Totals -/

section Total

variable [AddCommMonoid W]

/-- The values of the pointers in a queue. -/
def carriedBy (carried : α → W) (queue : Waiting.State α T) : W :=
  (queue.queue.contents.map carried).sum

/-- The values of all tasks and of all pointers in the queues. -/
def total (held : σ → W) (carried : α → W) (s : State T Q α σ) : W :=
  ∑ t, held (s.tasks t) + ∑ q, carriedBy carried (s.queues q)

omit [DecidableEq Q] in
theorem total_goOn {task : σ} :
    total held carried (s.goOn t task) + held (s.tasks t) = total held carried s + held task := by
  have hsum : ∑ i, held ((s.goOn t task).tasks i) + held (s.tasks t)
      = ∑ i, held (s.tasks i) + held task := sum_update held
  rw [total, total, add_right_comm, hsum, add_right_comm]
  rfl

omit [DecidableEq T] in
theorem total_put {queue : Waiting.State α T} :
    total held carried (s.put q queue) + carriedBy carried (s.queues q)
      = total held carried s + carriedBy carried queue := by
  have hsum : ∑ i, carriedBy carried ((s.put q queue).queues i) + carriedBy carried (s.queues q)
      = ∑ i, carriedBy carried (s.queues i) + carriedBy carried queue :=
    sum_update (carriedBy carried)
  rw [total, total, add_assoc, hsum, ← add_assoc]
  rfl

theorem total_move {thread : Waiting.Thread α} :
    total held carried (s.move q t thread) = total held carried s := by
  simp only [total, carriedBy, queue_move]
  rfl

variable [IsCancelAdd W]

/-- A task puts a pointer into a queue. -/
theorem total_push (hinv : Inv P data s) {queue : Waiting.State α T} (task : σ)
    (hsome : Waiting.available (s.queues q).queue (Waiting.cond (.enQueue p)) ≠ 0)
    (hqueue : queue.queue = Waiting.work (s.queues q).queue (.enQueue p)) :
    total held carried ((s.put q queue).goOn t task) + held (s.tasks t)
      = total held carried s + (held task + carried p) := by
  have hcarried : carriedBy carried queue = carriedBy carried (s.queues q) + carried p := by
    simp [carriedBy, hqueue, contents_push hinv hsome]
  have hput : total held carried (s.put q queue) = total held carried s + carried p := by
    have hsum : total held carried (s.put q queue) + carriedBy carried (s.queues q)
        = total held carried s + carriedBy carried queue := total_put
    rw [hcarried, add_comm (carriedBy carried _), ← add_assoc] at hsum
    exact add_right_cancel hsum
  calc total held carried ((s.put q queue).goOn t task) + held (s.tasks t)
      = total held carried (s.put q queue) + held task := total_goOn
    _ = total held carried s + (held task + carried p) := by
        rw [hput, add_assoc, add_comm (carried p)]

/-- A task takes a pointer out of a queue. -/
theorem total_pop (hinv : Inv P data s) {queue : Waiting.State α T} (task : σ)
    (hsome : Waiting.available (s.queues q).queue (Waiting.cond (.deQueue : Call α)) ≠ 0)
    (hqueue : queue.queue = Waiting.work (s.queues q).queue .deQueue) :
    total held carried ((s.put q queue).goOn t task)
        + (held (s.tasks t) + carried (s.queues q).queue.front)
      = total held carried s + held task := by
  have hcarried : carriedBy carried (s.queues q)
      = carried (s.queues q).queue.front + carriedBy carried queue := by
    rw [carriedBy, contents_pop hinv hsome, List.map_cons, List.sum_cons, carriedBy, hqueue]
  have hput : total held carried (s.put q queue) + carried (s.queues q).queue.front
      = total held carried s := by
    have hsum : total held carried (s.put q queue) + carriedBy carried (s.queues q)
        = total held carried s + carriedBy carried queue := total_put
    rw [hcarried, ← add_assoc] at hsum
    exact add_right_cancel hsum
  have hgoOn : total held carried ((s.put q queue).goOn t task) + held (s.tasks t)
      = total held carried (s.put q queue) + held task := total_goOn
  calc total held carried ((s.put q queue).goOn t task)
        + (held (s.tasks t) + carried (s.queues q).queue.front)
      = total held carried (s.put q queue) + held task + carried (s.queues q).queue.front := by
        rw [← add_assoc, hgoOn]
    _ = total held carried s + held task := by rw [add_right_comm, hput]

end Total

/-! ### Runs are finite -/

/-- Each act uses up some of the weight of its task, and so does each pointer that is put
into a queue or taken out, its own weight included. -/
structure Program.Spends [AddCommMonoid W] [LT W] (P : Program Q α σ ι) (inner : ι → Prop)
    (carries : Q → α → Prop) (ok : T → σ → Prop) (weight : σ → W) (carried : α → W) : Prop where
  act {t : T} {x y : σ} {i : ι} : ok t x → P.next x = none → inner i → P.act x i = some y →
    weight y < weight x
  push {t : T} {x : σ} {q : Q} {p : α} : ok t x → P.next x = some (q, .enQueue p) →
    weight (P.returns x p) + carried p < weight x
  pop {t : T} {x : σ} {q : Q} {p : α} : ok t x → P.next x = some (q, .deQueue) →
    carries q p → weight (P.returns x p) < weight x + carried p

/-- How far a thread is from waiting. -/
def rankOf : Waiting.Thread α → Nat
  | .outside => 2
  | .locking _ | .woken _ _ => 1
  | .waiting _ => 0

/-- The ranks of all threads in all queues. -/
def rank (s : State T Q α σ) : Nat := ∑ q, ∑ t, rankOf ((s.queues q).threads t)

theorem rankOf_of_comes {thread : Waiting.Thread α} (h : Waiting.Comes call thread) :
    rankOf thread = 1 := by
  cases h <;> rfl

theorem rank_move_lt {thread : Waiting.Thread α}
    (h : rankOf thread < rankOf ((s.queues q).threads t)) : rank (s.move q t thread) < rank s := by
  have hqueues : rank (s.move q t thread) + ∑ i, rankOf ((s.queues q).threads i)
      = rank s + ∑ i, rankOf (Function.update (s.queues q).threads t thread i) :=
    sum_update fun queue : Waiting.State α T => ∑ i, rankOf (queue.threads i)
  have hthreads : ∑ i, rankOf (Function.update (s.queues q).threads t thread i)
        + rankOf ((s.queues q).threads t)
      = ∑ i, rankOf ((s.queues q).threads i) + rankOf thread := sum_update rankOf
  omega

variable {inner : ι → Prop} {carries : Q → α → Prop} {ok : T → σ → Prop} {tasks : T → σ}

/-- The weight of the tasks and pointers gets less, or it stays and a thread comes closer
to waiting. -/
theorem decreases_of_step [AddCommMonoid W] [PartialOrder W] [IsOrderedCancelAddMonoid W]
    {weight : σ → W} (hspends : P.Spends inner carries ok weight carried) (hinv : Inv P data s)
    (hkept : Kept carries ok s) (hown : Own inner label) (h : step P s label = some s') :
    toLex (total weight carried s', rank s') < toLex (total weight carried s, rank s) := by
  rw [Prod.Lex.toLex_lt_toLex]
  cases steps_of_step hinv h with
  | calls _ ht =>
      refine .inr ⟨total_move, rank_move_lt ?_⟩
      rw [ht]
      exact Nat.lt_succ_self 1
  | waits _ ht =>
      refine .inr ⟨total_move, rank_move_lt ?_⟩
      rw [rankOf_of_comes ht]
      exact Nat.zero_lt_one
  | wakes _ _ => exact hown.elim
  | @returns t moved q call queue hnext hsome hqueue ht hrest =>
      refine .inl ?_
      have hok := hkept.ok t
      cases call with
      | enQueue p =>
          have hsum : total weight carried _ + weight (s.tasks t) = _ :=
            total_push hinv (P.returns (s.tasks t) p) hsome hqueue
          refine lt_of_add_lt_add_right (hsum.trans_lt ?_)
          exact add_lt_add_right (hspends.push hok hnext) _
      | deQueue =>
          have hfront := hkept.carries q (s.queues q).queue.front (by
            rw [contents_pop hinv hsome]
            exact List.mem_cons_self)
          have hsum : total weight carried _ + (weight (s.tasks t) + _) = _ :=
            total_pop hinv (P.returns (s.tasks t) (s.queues q).queue.front) hsome hqueue
          refine lt_of_add_lt_add_right (hsum.trans_lt ?_)
          exact add_lt_add_right (hspends.pop hok hnext hfront) _
  | @acts t i task hnext hact =>
      refine .inl ?_
      have hsum : total weight carried (s.goOn t task) + weight (s.tasks t)
          = total weight carried s + weight task := total_goOn
      refine lt_of_add_lt_add_right (hsum.trans_lt ?_)
      exact add_lt_add_right (hspends.act (hkept.ok t) hnext hown hact) _

section Runs

variable (P) in
/-- The states that are reached while anything may happen. -/
def Reached (data : Q → Nat → α) (tasks : T → σ) : State T Q α σ → Prop :=
  Reaches (step P) (fun _ _ => True) (start data tasks)

omit [Fintype Q] in
theorem kept_of_reached (hkeeps : P.Keeps carries ok) (htasks : ∀ t, ok t (tasks t))
    (h : Reached P data tasks s) : Inv P data s ∧ Kept carries ok s := by
  induction h with
  | refl => exact ⟨inv_start, fun q p hp => (by cases hp), htasks⟩
  | tail label _ _ hstep ih => exact ⟨ih.1.step hstep, ih.2.step hkeeps ih.1 hstep⟩

/-- **Neither deadlock nor livelock.** From every state that is reached, whichever steps
the threads take, and in whatever order, they come to a state in which all queues are empty
and every thread waits for a pointer or for something from outside. -/
theorem inevitable_drained [Preorder Q] [WellFoundedLT Q] [AddCommMonoid W] [PartialOrder W]
    [IsOrderedCancelAddMonoid W] [WellFoundedLT W] {weight : σ → W} {server : Q → T}
    (hkeeps : P.Keeps carries ok) (hserved : P.Served inner ok server)
    (hspends : P.Spends inner carries ok weight carried) (htasks : ∀ t, ok t (tasks t))
    (h : Reached P data tasks s) :
    Inevitable (step P) (Own inner) (fun s => Reached P data tasks s ∧ Drained P inner s) s := by
  refine inevitable_of_decreasing (μ := fun s => toLex (total weight carried s, rank s))
    (fun hs hstep => hs.tail _ trivial hstep) ?_ ?_ h
  · intro s s' label hs hown hstep
    obtain ⟨hinv, hkept⟩ := kept_of_reached hkeeps htasks hs
    exact decreases_of_step hspends hinv hkept hown hstep
  · intro s hs hstuck
    obtain ⟨hinv, hkept⟩ := kept_of_reached hkeeps htasks hs
    exact drained_of_stuck hserved hinv hkept.ok hstuck

end Runs

/-! ### Nothing is lost -/

/-- What a task makes it holds, until it puts it into a queue. -/
structure Program.Conserves [AddCommMonoid W] (P : Program Q α σ ι) (carries : Q → α → Prop)
    (ok : T → σ → Prop) (made held : σ → W) (carried : α → W) : Prop where
  act {t : T} {x y : σ} {i : ι} : ok t x → P.next x = none → P.act x i = some y →
    made y + held x = made x + held y
  push {t : T} {x : σ} {q : Q} {p : α} : ok t x → P.next x = some (q, .enQueue p) →
    made (P.returns x p) = made x ∧ held (P.returns x p) + carried p = held x
  pop {t : T} {x : σ} {q : Q} {p : α} : ok t x → P.next x = some (q, .deQueue) →
    carries q p → made (P.returns x p) = made x ∧ held (P.returns x p) = held x + carried p

variable [AddCommMonoid W] {made : σ → W}

omit [Fintype Q] [DecidableEq Q] in
theorem sum_made_goOn {task : σ} (htask : made task = made (s.tasks t)) :
    ∑ i, made ((s.goOn t task).tasks i) = ∑ i, made (s.tasks i) := by
  refine Finset.sum_congr rfl fun i _ => ?_
  simp only [State.goOn]
  by_cases hi : i = t
  · rw [hi, Function.update_self, htask]
  · rw [Function.update_of_ne hi]

variable [IsCancelAdd W]

theorem conserved_of_step (hconserves : P.Conserves carries ok made held carried)
    (hinv : Inv P data s) (hkept : Kept carries ok s)
    (heq : ∑ t, made (s.tasks t) = total held carried s) (h : step P s label = some s') :
    ∑ t, made (s'.tasks t) = total held carried s' := by
  cases steps_of_step hinv h with
  | calls _ _ | waits _ _ | wakes _ _ =>
      rw [total_move]
      exact heq
  | @returns t moved q call queue hnext hsome hqueue ht hrest =>
      have hok := hkept.ok t
      cases call with
      | enQueue p =>
          obtain ⟨hmade, hheld⟩ := hconserves.push hok hnext
          have hsum : total held carried _ + held (s.tasks t) = _ :=
            total_push hinv (P.returns (s.tasks t) p) hsome hqueue
          rw [hheld] at hsum
          exact (sum_made_goOn hmade).trans (heq.trans (add_right_cancel hsum).symm)
      | deQueue =>
          have hfront := hkept.carries q (s.queues q).queue.front (by
            rw [contents_pop hinv hsome]
            exact List.mem_cons_self)
          obtain ⟨hmade, hheld⟩ := hconserves.pop hok hnext hfront
          have hsum : total held carried _ + (held (s.tasks t) + _) = _ :=
            total_pop hinv (P.returns (s.tasks t) (s.queues q).queue.front) hsome hqueue
          rw [hheld] at hsum
          exact (sum_made_goOn hmade).trans (heq.trans (add_right_cancel hsum).symm)
  | @acts t i task hnext hact =>
      have hlocal := hconserves.act (hkept.ok t) hnext hact
      have hmade : ∑ j, made ((s.goOn t task).tasks j) + made (s.tasks t)
          = ∑ j, made (s.tasks j) + made task := sum_update made
      have hheld : total held carried (s.goOn t task) + held (s.tasks t)
          = total held carried s + held task := total_goOn
      refine add_right_cancel (b := made (s.tasks t) + held (s.tasks t)) ?_
      calc ∑ j, made ((s.goOn t task).tasks j) + (made (s.tasks t) + held (s.tasks t))
          = ∑ j, made (s.tasks j) + (made task + held (s.tasks t)) := by
            rw [← add_assoc, hmade, add_assoc]
        _ = total held carried s + held task + made (s.tasks t) := by
            rw [hlocal, heq, add_comm (made _), ← add_assoc]
        _ = total held carried (s.goOn t task) + (made (s.tasks t) + held (s.tasks t)) := by
            rw [← hheld, add_assoc, add_comm (held _)]

/-- **Nothing is lost or made twice.** In every state that is reached, what the tasks have
made is what they hold and what is in the queues. -/
theorem conserved_of_reached (hkeeps : P.Keeps carries ok)
    (hconserves : P.Conserves carries ok made held carried) (htasks : ∀ t, ok t (tasks t))
    (hstart : ∀ t, made (tasks t) = held (tasks t)) (h : Reached P data tasks s) :
    ∑ t, made (s.tasks t) = total held carried s := by
  induction h with
  | refl =>
      simp only [start, total, hstart]
      exact (add_zero _).symm.trans (congrArg _ (Finset.sum_const_zero).symm)
  | tail label hbefore _ hstep ih =>
      obtain ⟨hinv, hkept⟩ := kept_of_reached hkeeps htasks hbefore
      exact conserved_of_step hconserves hinv hkept ih hstep

end ThunderChat.CircularQueue.Network

import ThunderChat.CircularQueue.Waiting
import ThunderChat.Foundation.Progress
import ThunderChat.Foundation.Threads

/-!
Threads that hand pointers on through several `CircularQueue`s.

A thread is its task: what the task calls next, how it goes on with the pointer, and what
it does between the calls. Each queue is one of `CircularQueue/Waiting.lean`, with its lock,
its two conditions and its signals; a wake-up without a signal may happen at any time.

* `Steps`: what a step can do. A call, a wait and a wake-up leave the tasks and the
  contents; a return goes on with one pointer, an act with none.
* `Inv.step`: the queues are bounded FIFO queues, and a thread is in the function that its
  task has called.
* `Kept.step`: what the queues carry.
* `drained_of_stuck`: no deadlock, if each queue has a server that is held up by queues
  below only.
-/

namespace ThunderChat.CircularQueue

open Transition Wakeup Progress Threads

variable {T Q α σ ι : Type}

namespace Waiting

/-- The function a thread is in. -/
def callOf : Thread α → Option (Call α)
  | .outside => none
  | .locking call => some call
  | .waiting call => some call
  | .woken call _ => some call

/-- What a call does behind its loop. -/
def work (q : CircularQueue α) : Call α → CircularQueue α
  | .enQueue p => q.enQueue p
  | .deQueue => q.deQueue

/-- The pointer that is given, or returned. -/
def pointer (q : CircularQueue α) : Call α → α
  | .enQueue p => p
  | .deQueue => q.front

/-- What comes of getting the lock. -/
inductive Locks (s : State α T) [DecidableEq T] (t : T) (call : Call α) : State α T → Prop where
  | waits (hnone : available s.queue (cond call) = 0) :
      Locks s t call { s with threads := Function.update s.threads t (.waiting call) }
  | works {s' : State α T} (hsome : available s.queue (cond call) ≠ 0)
      (hqueue : s'.queue = work s.queue call) (ht : s'.threads t = .outside)
      (hrest : ∀ i, i ≠ t → callOf (s'.threads i) = callOf (s.threads i)) : Locks s t call s'

variable {s s' : State α T} {t : T} {call : Call α} {moved : Finset T}

theorem callOf_wakeUp {thread : Thread α} : callOf (wakeUp thread) = callOf thread := by
  cases thread <;> rfl

theorem Comes.callOf {thread : Thread α} (h : Comes call thread) : callOf thread = some call := by
  cases h <;> rfl

section Steps

variable [DecidableEq T] [Fintype T]

theorem works_of_signal {c : Cond} {history : List (BoundedFifo.Op α)}
    (hsome : available s.queue (cond call) ≠ 0)
    (h : signal ⟨work s.queue call, Function.update s.threads t .outside, history⟩ c moved
      = some s') : Locks s t call s' := by
  rw [signal] at h
  split at h
  · next hmoves =>
      cases h
      refine .works hsome rfl ?_ fun i hi => ?_
      · have hphase : t ∉ moved := by
          intro ht
          have hwaiting := hmoves.waiting t ht
          simp only [Function.update_self] at hwaiting
          cases hwaiting
        simp only [hphase, if_false, Function.update_self]
      · simp only [Function.update_of_ne hi]
        split
        · exact callOf_wakeUp
        · rfl
  · cases h

theorem locks_of_critical (hrange : s.queue.InRange) (h : critical s t moved call = some s') :
    Locks s t call s' := by
  cases call with
  | enQueue p =>
      rw [critical] at h
      split at h
      · next hfull =>
          cases h
          exact .waits (by simp [available, cond, hfull])
      · next hfull =>
          refine works_of_signal ?_ h
          have hlt : s.queue.numFull < QSIZE := Nat.lt_of_le_of_ne hrange.numFull hfull
          exact Nat.sub_ne_zero_of_lt hlt
  | deQueue =>
      rw [critical] at h
      split at h
      · next hempty =>
          cases h
          exact .waits (by simp [available, cond, hempty])
      · next hempty => exact works_of_signal hempty h

theorem locks_of_step (hrange : s.queue.InRange) (h : step s (.lock t moved) = some s') :
    ∃ call, Comes call (s.threads t) ∧ Locks s t call s' := by
  rw [step] at h
  split at h
  · next call hthread => exact ⟨call, hthread ▸ .locking, locks_of_critical hrange h⟩
  · next call bySignal hthread =>
      exact ⟨call, hthread ▸ .woken bySignal, locks_of_critical hrange h⟩
  · cases h

/-- A thread that competes for the lock can get it. -/
theorem exists_lock (hcomes : Comes call (s.threads t)) :
    ∃ moved s', step s (.lock t moved) = some s' := by
  have hsignal : ∀ (s : State α T) (c : Cond), ∃ moved s', signal s c moved = some s' := by
    intro s c
    refine ⟨Finset.univ.filter fun i => phase c (s.threads i) = .waiting, _, if_pos ⟨?_, ?_⟩⟩
    · exact fun i hi => (Finset.mem_filter.mp hi).2
    · rintro ⟨i, hi⟩
      exact ⟨i, Finset.mem_filter.mpr ⟨Finset.mem_univ i, hi⟩⟩
  have hcritical : ∃ moved s', critical s t moved call = some s' := by
    cases call with
    | enQueue p =>
        simp only [critical]
        split
        · exact ⟨∅, _, rfl⟩
        · exact hsignal _ _
    | deQueue =>
        simp only [critical]
        split
        · exact ⟨∅, _, rfl⟩
        · exact hsignal _ _
  obtain ⟨moved, s', hlock⟩ := hcritical
  refine ⟨moved, s', ?_⟩
  rw [step]
  generalize hthread : s.threads t = thread at hcomes
  cases hcomes with
  | locking => exact hlock
  | woken bySignal => exact hlock

omit [DecidableEq T] in
/-- Nobody competes for the lock: what is waited for is not there. -/
theorem available_of_waiting (h : NoLostWakeup s) (hnone : ∀ i call, ¬ Comes call (s.threads i))
    (ht : s.threads t = .waiting call) : available s.queue (cond call) = 0 := by
  have hcovered := h (cond call) ⟨t, (congrArg (phase (cond call)) ht).trans (if_pos rfl)⟩
  have hsignalled : signalled (fun i => phase (cond call) (s.threads i)) = ∅ := by
    refine Finset.eq_empty_of_forall_notMem fun i hi => ?_
    have hi := mem_signalled.mp hi
    generalize hthread : s.threads i = thread at hi
    cases thread with
    | outside | locking _ => cases hi
    | waiting _ =>
        rw [phase] at hi
        split at hi <;> cases hi
    | woken call' bySignal => exact hnone i call' (hthread ▸ .woken bySignal)
  rw [hsignalled, Finset.card_empty] at hcovered
  exact Nat.le_zero.mp hcovered

variable {data : Nat → α}

theorem inRange_of_reaches (h : Reaches step (fun _ _ => True) (start data) s) :
    s.queue.InRange := by
  have hinv : CircularQueue.Inv (view s) :=
    (reaches_view h).invariant (inv_start data) fun hinv _ hstep => hinv.step hstep
  exact hinv.inRange

theorem noLostWakeup_of_reaches (h : Reaches step (fun _ _ => True) (start data) s) :
    NoLostWakeup s :=
  h.invariant (noLostWakeup_start data) fun hinv _ hstep => hinv.step hstep

end Steps

end Waiting

namespace Network

/-- What threads do with the queues: the function a task calls next, how it goes on with
the pointer that is given or returned, and what it does where it calls none. -/
structure Program (Q α σ ι : Type) where
  next : σ → Option (Q × Call α)
  returns : σ → α → σ
  act : σ → ι → Option σ

/-- The queues and the tasks of the threads. -/
structure State (T Q α σ : Type) where
  queues : Q → Waiting.State α T
  tasks : T → σ

/-- A thread calls the function that is next, gets the lock of its queue, wakes up without
a signal, or does something else. -/
inductive Label (T ι : Type) where
  | call (t : T)
  | lock (t : T) (moved : Finset T)
  | wake (t : T)
  | act (t : T) (i : ι)

/-- No thread has called anything yet. -/
def start (data : Q → Nat → α) (tasks : T → σ) : State T Q α σ :=
  ⟨fun q => Waiting.start (data q), tasks⟩

section Steps

variable [DecidableEq T] [DecidableEq Q]

/-- A queue changes. -/
def State.put (s : State T Q α σ) (q : Q) (queue : Waiting.State α T) : State T Q α σ :=
  { s with queues := Function.update s.queues q queue }

/-- A thread comes to another point of the function it is in. -/
def State.move (s : State T Q α σ) (q : Q) (t : T) (thread : Waiting.Thread α) :
    State T Q α σ :=
  s.put q { s.queues q with threads := Function.update (s.queues q).threads t thread }

/-- A thread goes on to another task. -/
def State.goOn (s : State T Q α σ) (t : T) (task : σ) : State T Q α σ :=
  { s with tasks := Function.update s.tasks t task }

variable [Fintype T] (P : Program Q α σ ι)

/-- The thread goes on if its function has returned. -/
def locked (s : State T Q α σ) (t : T) (q : Q) (call : Call α) (queue : Waiting.State α T) :
    State T Q α σ :=
  match queue.threads t with
  | .outside =>
      (s.put q queue).goOn t (P.returns (s.tasks t) (Waiting.pointer (s.queues q).queue call))
  | _ => s.put q queue

/-- What a label does. -/
def step (s : State T Q α σ) : Label T ι → Option (State T Q α σ)
  | .call t =>
      match P.next (s.tasks t) with
      | some (q, call) =>
          (Waiting.step (s.queues q) (.call t call)).map (s.put q)
      | none => none
  | .lock t moved =>
      match P.next (s.tasks t) with
      | some (q, call) =>
          (Waiting.step (s.queues q) (.lock t moved)).map (locked P s t q call)
      | none => none
  | .wake t =>
      match P.next (s.tasks t) with
      | some (q, _) =>
          (Waiting.step (s.queues q) (.wake t)).map (s.put q)
      | none => none
  | .act t i =>
      match P.next (s.tasks t) with
      | some _ => none
      | none => (P.act (s.tasks t) i).map (s.goOn t)

/-- The system's own steps: all but wake-ups without a signal, and of the acts those that
need nothing from outside. -/
def Own (inner : ι → Prop) : Label T ι → Prop
  | .call _ | .lock _ _ => True
  | .wake _ => False
  | .act _ i => inner i

end Steps

/-! ### Steps -/

variable [DecidableEq T] [Fintype T] [DecidableEq Q] {P : Program Q α σ ι}
  {s s' : State T Q α σ} {data : Q → Nat → α} {tasks : T → σ}

/-- The queues are bounded FIFO queues, and a thread is in the function that its task has
called. -/
structure Inv (P : Program Q α σ ι) (data : Q → Nat → α) (s : State T Q α σ) : Prop where
  queues : ∀ q, Reaches Waiting.step (fun _ _ => True) (Waiting.start (data q)) (s.queues q)
  calls : ∀ q t call, Waiting.callOf ((s.queues q).threads t) = some call →
    P.next (s.tasks t) = some (q, call)

/-- What a step that is possible does: a queue's members stay, a function returns, or a
thread acts outside. -/
inductive Steps (P : Program Q α σ ι) (s : State T Q α σ) : Label T ι → State T Q α σ → Prop
  where
  | calls {t : T} {q : Q} {call : Call α} (hnext : P.next (s.tasks t) = some (q, call))
      (ht : (s.queues q).threads t = .outside) :
      Steps P s (.call t) (s.move q t (.locking call))
  | waits {t : T} {moved : Finset T} {q : Q} {call : Call α}
      (hnext : P.next (s.tasks t) = some (q, call))
      (ht : Waiting.Comes call ((s.queues q).threads t)) :
      Steps P s (.lock t moved) (s.move q t (.waiting call))
  | returns {t : T} {moved : Finset T} {q : Q} {call : Call α} {queue : Waiting.State α T}
      (hnext : P.next (s.tasks t) = some (q, call))
      (hsome : Waiting.available (s.queues q).queue (Waiting.cond call) ≠ 0)
      (hqueue : queue.queue = Waiting.work (s.queues q).queue call)
      (ht : queue.threads t = .outside)
      (hrest : ∀ i, i ≠ t →
        Waiting.callOf (queue.threads i) = Waiting.callOf ((s.queues q).threads i)) :
      Steps P s (.lock t moved) ((s.put q queue).goOn t
        (P.returns (s.tasks t) (Waiting.pointer (s.queues q).queue call)))
  | wakes {t : T} {q : Q} {call : Call α} (hnext : P.next (s.tasks t) = some (q, call))
      (ht : (s.queues q).threads t = .waiting call) :
      Steps P s (.wake t) (s.move q t (.woken call false))
  | acts {t : T} {i : ι} {task : σ} (hnext : P.next (s.tasks t) = none)
      (hact : P.act (s.tasks t) i = some task) : Steps P s (.act t i) (s.goOn t task)

variable {label : Label T ι} {t : T} {q : Q} {call : Call α}

theorem steps_of_lock (hinv : Inv P data s) {moved : Finset T} {queue : Waiting.State α T}
    (hnext : P.next (s.tasks t) = some (q, call))
    (h : Waiting.step (s.queues q) (.lock t moved) = some queue) :
    Steps P s (.lock t moved) (locked P s t q call queue) := by
  have hrange := Waiting.inRange_of_reaches (hinv.queues q)
  obtain ⟨call', hcomes, hlocks⟩ := Waiting.locks_of_step hrange h
  have hcalled := hnext.symm.trans (hinv.calls q t call' hcomes.callOf)
  cases hcalled
  cases hlocks with
  | waits hnone =>
      have hlocked : locked P s t q call { s.queues q with
            threads := Function.update (s.queues q).threads t (.waiting call) }
          = s.move q t (.waiting call) := by
        simp only [locked, Function.update_self]
        rfl
      rw [hlocked]
      exact .waits hnext hcomes
  | works hsome hqueue ht hrest =>
      simp only [locked, ht]
      exact .returns hnext hsome hqueue ht hrest

theorem steps_of_step (hinv : Inv P data s) (h : step P s label = some s') :
    Steps P s label s' := by
  cases label with
  | call t =>
      rw [step] at h
      split at h
      · next q call hnext =>
          obtain ⟨queue, hqueue, rfl⟩ := Option.map_eq_some_iff.mp h
          rw [Waiting.step] at hqueue
          split at hqueue
          · next hout =>
              cases hqueue
              exact .calls hnext hout
          · cases hqueue
      · cases h
  | lock t moved =>
      rw [step] at h
      split at h
      · next q call hnext =>
          obtain ⟨queue, hqueue, rfl⟩ := Option.map_eq_some_iff.mp h
          exact steps_of_lock hinv hnext hqueue
      · cases h
  | wake t =>
      rw [step] at h
      split at h
      · next q call hnext =>
          obtain ⟨queue, hqueue, rfl⟩ := Option.map_eq_some_iff.mp h
          rw [Waiting.step] at hqueue
          split at hqueue
          · next call' hwaiting =>
              cases hqueue
              have hcalled := hinv.calls q t call' (congrArg Waiting.callOf hwaiting)
              cases hnext.symm.trans hcalled
              exact .wakes hnext hwaiting
          · cases hqueue
      · cases h
  | act t i =>
      rw [step] at h
      split at h
      · cases h
      · next hnext =>
          obtain ⟨task, hact, rfl⟩ := Option.map_eq_some_iff.mp h
          exact .acts hnext hact

/-! ### The invariant -/

/-- The queues change by steps of their own. -/
theorem queues_of_step (hinv : ∀ q, Reaches Waiting.step (fun _ _ => True)
    (Waiting.start (data q)) (s.queues q)) (h : step P s label = some s') (q : Q) :
    Reaches Waiting.step (fun _ _ => True) (Waiting.start (data q)) (s'.queues q) := by
  have hput : ∀ {q' : Q} {queue : Waiting.State α T} {queueLabel : Waiting.Label α T},
      Waiting.step (s.queues q') queueLabel = some queue →
      Reaches Waiting.step (fun _ _ => True) (Waiting.start (data q))
        (Function.update s.queues q' queue q) := by
    intro q' queue queueLabel hqueue
    by_cases hq : q = q'
    · subst hq
      rw [Function.update_self]
      exact (hinv q).tail queueLabel trivial hqueue
    · rw [Function.update_of_ne hq]
      exact hinv q
  cases label with
  | call t | wake t =>
      rw [step] at h
      split at h
      · obtain ⟨queue, hqueue, rfl⟩ := Option.map_eq_some_iff.mp h
        exact hput hqueue
      · cases h
  | lock t moved =>
      rw [step] at h
      split at h
      · obtain ⟨queue, hqueue, rfl⟩ := Option.map_eq_some_iff.mp h
        rw [locked]
        split <;> exact hput hqueue
      · cases h
  | act t i =>
      rw [step] at h
      split at h
      · cases h
      · obtain ⟨task, hact, rfl⟩ := Option.map_eq_some_iff.mp h
        exact hinv q

/-- A thread stays in the function its task has called. -/
theorem calls_of_move (hinv : Inv P data s) (hnext : P.next (s.tasks t) = some (q, call))
    {thread : Waiting.Thread α} (hthread : Waiting.callOf thread = some call) (q' : Q) (i : T)
    (called : Call α)
    (h : Waiting.callOf (((s.move q t thread).queues q').threads i) = some called) :
    P.next ((s.move q t thread).tasks i) = some (q', called) := by
  simp only [State.move, State.put] at h ⊢
  by_cases hq : q' = q
  · subst hq
    rw [Function.update_self] at h
    by_cases hi : i = t
    · subst hi
      simp only [Function.update_self, hthread] at h
      cases h
      exact hnext
    · simp only [Function.update_of_ne hi] at h
      exact hinv.calls q' i called h
  · rw [Function.update_of_ne hq] at h
    exact hinv.calls q' i called h

theorem Inv.step (hinv : Inv P data s) (h : step P s label = some s') : Inv P data s' := by
  refine ⟨queues_of_step hinv.queues h, ?_⟩
  cases steps_of_step hinv h with
  | calls hnext _ => exact calls_of_move hinv hnext rfl
  | waits hnext _ => exact calls_of_move hinv hnext rfl
  | wakes hnext _ => exact calls_of_move hinv hnext rfl
  | @returns t moved q call queue hnext hsome hqueue ht hrest =>
      intro q' i called hcalled
      simp only [State.goOn, State.put] at hcalled ⊢
      by_cases hi : i = t
      · -- The thread is in no function now: it has been in this one only.
        subst hi
        by_cases hq : q' = q
        · subst hq
          rw [Function.update_self, ht] at hcalled
          cases hcalled
        · rw [Function.update_of_ne hq] at hcalled
          cases hnext.symm.trans (hinv.calls q' i called hcalled)
          exact absurd rfl hq
      · rw [Function.update_of_ne hi]
        by_cases hq : q' = q
        · subst hq
          rw [Function.update_self, hrest i hi] at hcalled
          exact hinv.calls q' i called hcalled
        · rw [Function.update_of_ne hq] at hcalled
          exact hinv.calls q' i called hcalled
  | @acts t i task hnext hact =>
      intro q' j called hcalled
      have hcalls := hinv.calls q' j called hcalled
      have hj : j ≠ t := by
        intro hj
        rw [hj, hnext] at hcalls
        cases hcalls
      simp only [State.goOn, Function.update_of_ne hj]
      exact hcalls

omit [DecidableEq Q] in
theorem inv_start : Inv P data (start data tasks) :=
  ⟨fun _ => .refl, fun _ _ _ h => by cases h⟩

/-! ### What the queues carry -/

/-- A program that keeps a condition on the pointers of each queue and one on the tasks of
each thread. -/
structure Program.Keeps (P : Program Q α σ ι) (carries : Q → α → Prop) (ok : T → σ → Prop) :
    Prop where
  act {t : T} {x y : σ} {i : ι} : ok t x → P.next x = none → P.act x i = some y → ok t y
  push {t : T} {x : σ} {q : Q} {p : α} : ok t x → P.next x = some (q, .enQueue p) →
    carries q p ∧ ok t (P.returns x p)
  pop {t : T} {x : σ} {q : Q} {p : α} : ok t x → P.next x = some (q, .deQueue) →
    carries q p → ok t (P.returns x p)

/-- Both conditions hold. -/
structure Kept (carries : Q → α → Prop) (ok : T → σ → Prop) (s : State T Q α σ) : Prop where
  carries : ∀ q, ∀ p ∈ (s.queues q).queue.contents, carries q p
  ok : ∀ t, ok t (s.tasks t)

variable {carries : Q → α → Prop} {ok : T → σ → Prop} {p : α}

omit [Fintype T] in
theorem queue_move {thread : Waiting.Thread α} (q' : Q) :
    ((s.move q t thread).queues q').queue = (s.queues q').queue := by
  simp only [State.move, State.put]
  by_cases hq : q' = q
  · subst hq
    rw [Function.update_self]
  · rw [Function.update_of_ne hq]

omit [DecidableEq Q] in
theorem contents_push (hinv : Inv P data s)
    (hsome : Waiting.available (s.queues q).queue (Waiting.cond (.enQueue p)) ≠ 0) :
    (Waiting.work (s.queues q).queue (.enQueue p)).contents
      = (s.queues q).queue.contents ++ [p] := by
  refine contents_enQueue (Waiting.inRange_of_reaches (hinv.queues q)) fun hfull => hsome ?_
  simp [Waiting.available, Waiting.cond, hfull]

omit [DecidableEq Q] in
theorem contents_pop (hinv : Inv P data s)
    (hsome : Waiting.available (s.queues q).queue (Waiting.cond (.deQueue : Call α)) ≠ 0) :
    (s.queues q).queue.contents
      = (s.queues q).queue.front :: (Waiting.work (s.queues q).queue .deQueue).contents :=
  contents_deQueue (Waiting.inRange_of_reaches (hinv.queues q)) hsome

omit [Fintype T] [DecidableEq Q] in
theorem Kept.goOn (h : Kept carries ok s) {task : σ} (htask : ok t task) :
    Kept carries ok (s.goOn t task) := by
  refine ⟨h.carries, fun i => ?_⟩
  simp only [State.goOn]
  by_cases hi : i = t
  · subst hi
    rw [Function.update_self]
    exact htask
  · rw [Function.update_of_ne hi]
    exact h.ok i

omit [DecidableEq T] [Fintype T] in
theorem Kept.put (h : Kept carries ok s) {queue : Waiting.State α T}
    (hqueue : ∀ p ∈ queue.queue.contents, carries q p) : Kept carries ok (s.put q queue) := by
  refine ⟨fun q' => ?_, h.ok⟩
  simp only [State.put]
  by_cases hq : q' = q
  · subst hq
    rw [Function.update_self]
    exact hqueue
  · rw [Function.update_of_ne hq]
    exact h.carries q'

theorem Kept.step (hkeeps : P.Keeps carries ok) (hinv : Inv P data s) (hkept : Kept carries ok s)
    (h : step P s label = some s') : Kept carries ok s' := by
  cases steps_of_step hinv h with
  | calls _ _ | waits _ _ | wakes _ _ =>
      refine ⟨fun q' => ?_, hkept.ok⟩
      rw [queue_move]
      exact hkept.carries q'
  | @returns t moved q call queue hnext hsome hqueue ht hrest =>
      have hok := hkept.ok t
      cases call with
      | enQueue p =>
          obtain ⟨hp, htask⟩ := hkeeps.push hok hnext
          refine (hkept.put ?_).goOn htask
          rw [hqueue, contents_push hinv hsome]
          intro p' hp'
          rcases List.mem_append.mp hp' with hold | hnew
          · exact hkept.carries q p' hold
          · rw [List.mem_singleton.mp hnew]
            exact hp
      | deQueue =>
          have hcontents := contents_pop hinv hsome
          have hcarries := hkept.carries q
          rw [hcontents] at hcarries
          obtain ⟨hp, hleft⟩ := List.forall_mem_cons.mp hcarries
          rw [← hqueue] at hleft
          exact (hkept.put hleft).goOn (hkeeps.pop hok hnext hp)
  | acts hnext hact => exact hkept.goOn (hkeeps.act (hkept.ok _) hnext hact)

/-! ### No deadlock -/

/-- All queues are empty, and each thread waits for a pointer or for something from
outside. -/
structure Drained (P : Program Q α σ ι) (inner : ι → Prop) (s : State T Q α σ) : Prop where
  empty : ∀ q, (s.queues q).queue.contents = []
  rest : ∀ t, (∃ q, P.next (s.tasks t) = some (q, .deQueue) ∧
      (s.queues q).threads t = .waiting .deQueue) ∨
    P.next (s.tasks t) = none ∧ ∀ i, inner i → P.act (s.tasks t) i = none

/-- Each queue has a server: it takes a pointer out, or puts one into a queue below, or it
has something else to do. -/
def Program.Served [LT Q] (P : Program Q α σ ι) (inner : ι → Prop) (ok : T → σ → Prop)
    (server : Q → T) : Prop :=
  ∀ q x, ok (server q) x →
    P.next x = some (q, .deQueue) ∨ (∃ q' < q, ∃ p, P.next x = some (q', .enQueue p)) ∨
      P.next x = none ∧ ∃ i y, inner i ∧ P.act x i = some y

variable {inner : ι → Prop}

/-- A thread that cannot go on waits in the function it has called. -/
theorem waiting_of_stuck (hinv : Inv P data s) (hstuck : Stuck (step P) (Own inner) s)
    (hnext : P.next (s.tasks t) = some (q, call)) :
    (s.queues q).threads t = .waiting call := by
  have hlock : ∀ {called}, ¬ Waiting.Comes called ((s.queues q).threads t) := by
    intro called hcomes
    obtain ⟨moved, queue, hqueue⟩ := Waiting.exists_lock hcomes
    refine hstuck (.lock t moved) (locked P s t q call queue) trivial ?_
    rw [step, hnext]
    exact congrArg (Option.map _) hqueue
  generalize hthread : (s.queues q).threads t = thread at hlock
  cases thread with
  | outside =>
      refine absurd ?_ (hstuck (.call t) (s.move q t (.locking call)) trivial)
      rw [step, hnext]
      simp only [Waiting.step, hthread]
      rfl
  | locking call' => exact absurd .locking hlock
  | woken call' bySignal => exact absurd (.woken bySignal) hlock
  | waiting call' =>
      have hcalled := hinv.calls q t call' (congrArg Waiting.callOf hthread)
      cases hnext.symm.trans hcalled
      rfl

theorem available_of_stuck (hinv : Inv P data s) (hstuck : Stuck (step P) (Own inner) s)
    (ht : (s.queues q).threads t = .waiting call) :
    Waiting.available (s.queues q).queue (Waiting.cond call) = 0 := by
  refine Waiting.available_of_waiting (Waiting.noLostWakeup_of_reaches (hinv.queues q)) ?_ ht
  intro i call' hcomes
  have hwaiting := waiting_of_stuck hinv hstuck (hinv.calls q i call' hcomes.callOf)
  rw [hwaiting] at hcomes
  cases hcomes

/-- **No deadlock.** If no step is possible, all pointers have been taken out of the queues
and the threads wait for more. -/
theorem drained_of_stuck [Preorder Q] [WellFoundedLT Q] {server : Q → T}
    (hserved : P.Served inner ok server) (hinv : Inv P data s) (hok : ∀ t, ok t (s.tasks t))
    (hstuck : Stuck (step P) (Own inner) s) : Drained P inner s := by
  have hrests : ∀ t i y, inner i → P.next (s.tasks t) = none → P.act (s.tasks t) i ≠ some y := by
    intro t i y hi hnone hact
    refine hstuck (.act t i) (s.goOn t y) hi ?_
    rw [step, hnone]
    simp only [hact, Option.map_some]
  -- The circle that `drained_of_blocked` excludes.
  let Waits : T → Wait Q → Prop := fun t wait =>
    match wait with
    | .item q => (s.queues q).threads t = .waiting .deQueue
    | .room q => ∃ p, (s.queues q).threads t = .waiting (.enQueue p)
  have hitem : ∀ t q, Waits t (.item q) → (s.queues q).queue.numFull = 0 :=
    fun t q hwaits => available_of_stuck hinv hstuck hwaits
  have hroom : ∀ t q, Waits t (.room q) → ¬ (s.queues q).queue.numFull = 0 := by
    rintro t q ⟨p, hwaits⟩ hzero
    have hfull := available_of_stuck hinv hstuck hwaits
    rw [Waiting.cond, Waiting.available, hzero] at hfull
    exact absurd hfull (Nat.ne_of_gt QSIZE_pos)
  have hserver : ∀ q, Waits (server q) (.item q) ∨ ∃ q' < q, Waits (server q) (.room q') := by
    intro q
    rcases hserved q _ (hok (server q)) with hnext | ⟨q', hlt, p, hnext⟩ | ⟨hnone, i, y, hi, hact⟩
    · exact .inl (waiting_of_stuck hinv hstuck hnext)
    · exact .inr ⟨q', hlt, p, waiting_of_stuck hinv hstuck hnext⟩
    · exact absurd hact (hrests _ i y hi hnone)
  obtain ⟨hempty, hnoroom⟩ := drained_of_blocked hitem hroom hserver
  refine ⟨fun q => ?_, fun t => ?_⟩
  · rw [contents, hempty q]
    rfl
  · cases hnext : P.next (s.tasks t) with
    | none => exact .inr ⟨rfl, fun i hi => Option.eq_none_iff_forall_ne_some.mpr fun y =>
        hrests t i y hi hnext⟩
    | some called =>
        obtain ⟨q, call⟩ := called
        have hwaiting := waiting_of_stuck hinv hstuck hnext
        cases call with
        | deQueue => exact .inl ⟨q, rfl, hwaiting⟩
        | enQueue p => exact absurd ⟨p, hwaiting⟩ (hnoroom t q)

end Network

end ThunderChat.CircularQueue

import ThunderChat.CircularQueue
import ThunderChat.Foundation.Wakeup

/-!
The wake-ups of `CircularQueue`.

Here a sleeping thread waits on `notfull` or on `notempty`, and a thread that has been woken
remembers whether by a signal. `pthread_cond_signal` moves some of the threads that wait on
its condition, at least one if there is one; a thread may also wake up without a signal. A
woken thread competes for `buf_lock` with all others, and tests its loop condition again.

* `no_lost_wakeup`: while a thread waits that has not been signalled, what it waits for is
  no more than what signalled threads are on their way to.
* `run_view`: each step is a step of the queue of `CircularQueue.lean`, or a step and
  wake-ups, so that the FIFO law holds here, too (`serves_of_reaches`).
-/

namespace ThunderChat.CircularQueue.Waiting

open Transition Wakeup

/-- The conditions of the class. -/
inductive Cond where
  | notfull | notempty
  deriving DecidableEq, Repr

/-- There are two of them. -/
theorem cond_unique {c d e : Cond} (hd : d ≠ e) (hc : c ≠ e) : d = c := by
  cases c <;> cases d <;> cases e <;> first | rfl | contradiction

variable {α T : Type}

/-- The condition a call waits on. -/
def cond : Call α → Cond
  | .enQueue _ => .notfull
  | .deQueue => .notempty

/-- Where a thread is: in none of the queue's functions, before it gets the lock for the
first time, in `pthread_cond_wait`, or woken and before it gets the lock again. -/
inductive Thread (α : Type) where
  | outside
  | locking (call : Call α)
  | waiting (call : Call α)
  | woken (call : Call α) (bySignal : Bool)

/-- The queue and its threads, with the pointers given to `EnQueue` and returned by
`DeQueue` so far. -/
structure State (α T : Type) where
  queue : CircularQueue α
  threads : T → Thread α
  history : List (BoundedFifo.Op α)

/-- A thread calls a function, gets the lock (if it comes to its signal, these threads are
moved), or wakes up without a signal. -/
inductive Label (α T : Type) where
  | call (t : T) (call : Call α)
  | lock (t : T) (moved : Finset T)
  | wake (t : T)

/-- No thread has called anything yet. -/
def start (data : Nat → α) : State α T := ⟨fresh data, fun _ => .outside, []⟩

/-- A thread as one of the conditions sees it. -/
def phase (c : Cond) : Thread α → Phase
  | .waiting call => if cond call = c then .waiting else .elsewhere
  | .woken call true => if cond call = c then .signalled else .elsewhere
  | _ => .elsewhere

@[simp] theorem phase_outside {c : Cond} : phase c (.outside : Thread α) = .elsewhere := rfl

/-- What a signal makes of a waiting thread. -/
def wakeUp : Thread α → Thread α
  | .waiting call => .woken call true
  | thread => thread

section Steps

variable [DecidableEq T] [Fintype T]

/-- `pthread_cond_signal`, and the unlock. -/
def signal (s : State α T) (c : Cond) (moved : Finset T) : Option (State α T) :=
  if Moves (fun i => phase c (s.threads i)) moved then
    some { s with threads := fun i => if i ∈ moved then wakeUp (s.threads i) else s.threads i }
  else none

/-- A thread gets the lock: the loop condition is tested, and the thread waits or does its
work, signals and returns. -/
def critical (s : State α T) (t : T) (moved : Finset T) : Call α → Option (State α T)
  | .enQueue p =>
      if s.queue.numFull = QSIZE then
        some { s with threads := Function.update s.threads t (.waiting (.enQueue p)) }
      else
        signal
          { queue := s.queue.enQueue p
            threads := Function.update s.threads t .outside
            history := s.history ++ [.push p] }
          .notempty moved
  | .deQueue =>
      if s.queue.numFull = 0 then
        some { s with threads := Function.update s.threads t (.waiting .deQueue) }
      else
        signal
          { queue := s.queue.deQueue
            threads := Function.update s.threads t .outside
            history := s.history ++ [.pop s.queue.front] }
          .notfull moved

/-- One step of one thread. -/
def step (s : State α T) : Label α T → Option (State α T)
  | .call t call =>
      match s.threads t with
      | .outside => some { s with threads := Function.update s.threads t (.locking call) }
      | _ => none
  | .lock t moved =>
      match s.threads t with
      | .locking call => critical s t moved call
      | .woken call _ => critical s t moved call
      | _ => none
  | .wake t =>
      match s.threads t with
      | .waiting call => some { s with threads := Function.update s.threads t (.woken call false) }
      | _ => none

end Steps

/-! ### No wake-up is lost -/

/-- The units a condition is about: pointers in the queue, or free slots. -/
def available (q : CircularQueue α) : Cond → Nat
  | .notempty => q.numFull
  | .notfull => QSIZE - q.numFull

/-- Both conditions are covered. -/
def NoLostWakeup [Fintype T] (s : State α T) : Prop :=
  ∀ c, Covered (available s.queue c) fun i => phase c (s.threads i)

/-- The thread has to get the lock next. -/
inductive Comes (call : Call α) : Thread α → Prop where
  | locking : Comes call (.locking call)
  | woken (bySignal : Bool) : Comes call (.woken call bySignal)

variable {s s' : State α T} {t : T} {call : Call α} {c d : Cond} {thread : Thread α}

/-- The other condition does not know the thread. -/
theorem Comes.elsewhere (h : Comes call thread) (hd : d ≠ cond call) :
    phase d thread = .elsewhere := by
  cases h with
  | locking => rfl
  | woken bySignal =>
      cases bySignal with
      | false => rfl
      | true => exact if_neg hd.symm

/-- A thread that a condition sees waiting waits in a call of its own. -/
theorem exists_call_of_waiting (h : phase c thread = .waiting) :
    ∃ call, thread = .waiting call ∧ cond call = c := by
  cases thread with
  | waiting call =>
      refine ⟨call, rfl, ?_⟩
      by_contra hne
      rw [phase, if_neg hne] at h
      cases h
  | outside | locking => cases h
  | woken call bySignal =>
      cases bySignal with
      | false => cases h
      | true =>
          rw [phase] at h
          split at h <;> cases h

/-- A signal moves a thread on its own condition only. -/
theorem phase_wakeUp (h : phase c thread = .waiting) :
    phase d (wakeUp thread) = if d = c then .signalled else phase d thread := by
  obtain ⟨call, rfl, rfl⟩ := exists_call_of_waiting h
  rw [wakeUp, phase, phase]
  by_cases hd : cond call = d
  · subst hd
    simp
  · simp [hd, Ne.symm hd]

/-! ### Steps -/

variable [DecidableEq T] [Fintype T] {moved : Finset T}

/-- What one step can do: a call, a wake-up without a signal, a wait for what is not there,
or the work and its signal. -/
inductive Steps (s : State α T) : State α T → Prop where
  | calls (t : T) (call : Call α) : s.threads t = .outside →
      Steps s { s with threads := Function.update s.threads t (.locking call) }
  | wakes (t : T) (call : Call α) : s.threads t = .waiting call →
      Steps s { s with threads := Function.update s.threads t (.woken call false) }
  | waits (t : T) (call : Call α) : Comes call (s.threads t) → available s.queue (cond call) = 0 →
      Steps s { s with threads := Function.update s.threads t (.waiting call) }
  | works (t : T) (call : Call α) (c : Cond) (moved : Finset T) (queue : CircularQueue α)
      (history : List (BoundedFifo.Op α)) (s' : State α T) : Comes call (s.threads t) →
      c ≠ cond call → available queue (cond call) ≤ available s.queue (cond call) - 1 →
      available queue c ≤ available s.queue c + 1 →
      signal ⟨queue, Function.update s.threads t .outside, history⟩ c moved = some s' → Steps s s'

theorem steps_of_critical (hcomes : Comes call (s.threads t))
    (h : critical s t moved call = some s') : Steps s s' := by
  cases call with
  | enQueue p =>
      rw [critical] at h
      split at h
      · next hfull =>
          cases h
          exact .waits t (.enQueue p) hcomes (by simp [available, cond, hfull])
      · refine .works t (.enQueue p) .notempty moved _ _ s' hcomes (fun h => by cases h) ?_ ?_ h
        · simp only [available, cond, CircularQueue.enQueue]
          omega
        · simp only [available, CircularQueue.enQueue, le_refl]
  | deQueue =>
      rw [critical] at h
      split at h
      · next hempty =>
          cases h
          exact .waits t .deQueue hcomes (by simp [available, cond, hempty])
      · refine .works t .deQueue .notfull moved _ _ s' hcomes (fun h => by cases h) ?_ ?_ h
        · simp only [available, cond, CircularQueue.deQueue, le_refl]
        · simp only [available, CircularQueue.deQueue]
          omega

theorem steps_of_step {label : Label α T} (h : step s label = some s') : Steps s s' := by
  cases label with
  | call t call =>
      rw [step] at h
      split at h
      · next houtside =>
          cases h
          exact .calls t call houtside
      · cases h
  | lock t moved =>
      rw [step] at h
      split at h
      · next call hthread => exact steps_of_critical (hthread ▸ .locking) h
      · next call bySignal hthread => exact steps_of_critical (hthread ▸ .woken bySignal) h
      · cases h
  | wake t =>
      rw [step] at h
      split at h
      · next call hthread =>
          cases h
          exact .wakes t call hthread
      · cases h

/-! ### The invariant -/

/-- The threads after a signal, as the conditions see them. -/
theorem phase_signal (h : signal s c moved = some s') :
    Moves (fun i => phase c (s.threads i)) moved ∧ s'.queue = s.queue ∧ ∀ i d,
      phase d (s'.threads i) = if i ∈ moved ∧ d = c then .signalled else phase d (s.threads i) := by
  rw [signal] at h
  split at h
  · next hmoves =>
      cases h
      refine ⟨hmoves, rfl, fun i d => ?_⟩
      by_cases hi : i ∈ moved
      · simp only [hi, if_true, true_and]
        exact phase_wakeUp (hmoves.waiting i hi)
      · simp [hi]
  · cases h

omit [Fintype T] in
theorem phase_update {new : Thread α} (i : T) :
    phase d (Function.update s.threads t new i)
      = if i = t then phase d new else phase d (s.threads i) := by
  rw [Function.update_apply]
  split <;> rfl

/-- A thread that does its work takes one unit and signals another. -/
theorem NoLostWakeup.works (h : NoLostWakeup s) (hcomes : Comes call (s.threads t))
    (hc : c ≠ cond call) {queue : CircularQueue α} {history : List (BoundedFifo.Op α)}
    (htaken : available queue (cond call) ≤ available s.queue (cond call) - 1)
    (hgiven : available queue c ≤ available s.queue c + 1)
    (hsignal : signal ⟨queue, Function.update s.threads t .outside, history⟩ c moved = some s') :
    NoLostWakeup s' := by
  obtain ⟨hmoves, hqueue, hphase⟩ := phase_signal hsignal
  intro d
  rw [hqueue]
  by_cases hd : d = cond call
  · -- The unit taken is the one the thread waited for, or a newcomer's.
    have hstays : ∀ i, phase d (s'.threads i)
        = if i = t then .elsewhere else phase d (s.threads i) := by
      intro i
      rw [hphase, if_neg fun hi => hc (hi.2.symm.trans hd)]
      exact phase_update i
    subst hd
    refine ((h (cond call)).take (t := t) (fun i hi => ?_) fun i hit hi => ?_).mono htaken
    · rw [hstays] at hi
      split at hi
      · cases hi
      · exact hi
    · rw [hstays, if_neg hit, hi]
  · -- The other condition's signal: the thread itself is unknown to it.
    obtain rfl : d = c := cond_unique hd hc
    have hsame : (fun i => phase d (Function.update s.threads t .outside i))
        = fun i => phase d (s.threads i) := by
      funext i
      rw [phase_update]
      split
      · next hit => rw [hit, hcomes.elsewhere hd, phase_outside]
      · rfl
    have hcovered : Covered (available s.queue d)
        fun i => phase d (Function.update s.threads t .outside i) := hsame ▸ h d
    refine (hcovered.signal hmoves (fun i hi => ?_) fun i hi => ?_).mono hgiven
    · rw [hphase, if_pos ⟨hi, rfl⟩]
    · rw [hphase, if_neg fun hmem => hi hmem.1]

/-- A thread that changes its state outside the lock does not lose a signal. -/
theorem NoLostWakeup.update (h : NoLostWakeup s) {new : Thread α}
    (hnew : ∀ d, phase d new = .elsewhere) (hold : ∀ d, phase d (s.threads t) ≠ .signalled) :
    NoLostWakeup { s with threads := Function.update s.threads t new } := by
  intro d
  refine (h d).congr (fun i hi => ?_) fun i hi => ?_
  · rw [phase_update] at hi
    split at hi
    · rw [hnew] at hi
      cases hi
    · exact hi
  · rw [phase_update]
    split
    · next hit =>
        subst hit
        exact absurd hi (hold d)
    · exact hi

/-- A thread waits for what is not there. -/
theorem NoLostWakeup.waits (h : NoLostWakeup s) (hcomes : Comes call (s.threads t))
    (hnone : available s.queue (cond call) = 0) :
    NoLostWakeup { s with threads := Function.update s.threads t (.waiting call) } := by
  intro d
  by_cases hd : d = cond call
  · subst hd
    intro _
    simp only [hnone, Nat.zero_le]
  · refine (h d).congr (fun i hi => ?_) fun i hi => ?_
    · rw [phase_update] at hi
      split at hi
      · rw [phase, if_neg (Ne.symm hd)] at hi
        cases hi
      · exact hi
    · rw [phase_update]
      split
      · next hit =>
          rw [hit, hcomes.elsewhere hd] at hi
          cases hi
      · exact hi

theorem NoLostWakeup.step {label : Label α T} (h : NoLostWakeup s)
    (hstep : step s label = some s') : NoLostWakeup s' := by
  cases steps_of_step hstep with
  | calls t call houtside =>
      refine h.update (fun _ => rfl) fun d hd => ?_
      rw [houtside] at hd
      cases hd
  | wakes t call hwaiting =>
      refine h.update (fun _ => rfl) fun d hd => ?_
      rw [hwaiting, phase] at hd
      split at hd <;> cases hd
  | waits t call hcomes hnone => exact h.waits hcomes hnone
  | works t call c moved queue history s' hcomes hc htaken hgiven hsignal =>
      exact h.works hcomes hc htaken hgiven hsignal

omit [DecidableEq T] in
theorem noLostWakeup_start (data : Nat → α) : NoLostWakeup (start data : State α T) := by
  rintro c ⟨t, ht⟩
  cases ht

/-- **No wake-up is lost.** For any threads and any interleaving of calls, critical
sections, signals and wake-ups without a signal: while a consumer waits that has not been
signalled, there are no more pointers than signalled consumers on their way to the lock,
and while a producer does, no more free slots than signalled producers. -/
theorem no_lost_wakeup {data : Nat → α}
    (h : Reaches step (fun _ _ => True) (start data) s) :
    ((∃ t, s.threads t = .waiting .deQueue) →
      s.queue.numFull ≤ (signalled fun t => phase .notempty (s.threads t)).card) ∧
    ((∃ t p, s.threads t = .waiting (.enQueue p)) →
      QSIZE - s.queue.numFull ≤ (signalled fun t => phase .notfull (s.threads t)).card) := by
  have hinv : NoLostWakeup s := h.invariant (noLostWakeup_start data) fun hinv _ hstep =>
    hinv.step hstep
  constructor
  · rintro ⟨t, ht⟩
    exact hinv .notempty ⟨t, congrArg (phase .notempty) ht⟩
  · rintro ⟨t, p, ht⟩
    exact hinv .notfull ⟨t, congrArg (phase .notfull) ht⟩

/-- Two consumers wait on the empty queue, and the producer's signal wakes one of them. -/
theorem one_of_two_woken :
    ∃ s : State Nat (Fin 3), s.threads 1 = .waiting .deQueue ∧
      s.queue.numFull ≤ (signalled fun t => phase .notempty (s.threads t)).card := by
  have hreaches : Reaches step (fun _ _ => True) (start fun _ => 0 : State Nat (Fin 3)) _ :=
    reaches_of_run [.call 0 .deQueue, .lock 0 ∅, .call 1 .deQueue, .lock 1 ∅,
      .call 2 (.enQueue 98), .lock 2 {0}] (fun _ _ _ => trivial) rfl
  exact ⟨_, rfl, (no_lost_wakeup hreaches).1 ⟨1, rfl⟩⟩

/-! ### The queue without signals -/

/-- A thread of the queue that does not know who has been signalled. -/
def unsignalled : Thread α → CircularQueue.Thread α
  | .outside => .outside
  | .locking call => .locking call
  | .waiting call => .asleep call
  | .woken call _ => .locking call

/-- The state of that queue. -/
def view (s : State α T) : CircularQueue.State α T :=
  ⟨s.queue, fun t => unsignalled (s.threads t), s.history⟩

omit [Fintype T] in
theorem view_update {queue : CircularQueue α} {threads : T → Thread α} {new : Thread α}
    {history : List (BoundedFifo.Op α)} :
    view ⟨queue, Function.update threads t new, history⟩ =
      ⟨queue, Function.update (fun i => unsignalled (threads i)) t (unsignalled new),
        history⟩ := by
  rw [view, CircularQueue.State.mk.injEq]
  refine ⟨rfl, ?_, rfl⟩
  funext i
  exact Function.apply_update (fun _ => unsignalled) threads t new i

omit [Fintype T] in
/-- Threads that a signal moves wake up there one after the other. -/
theorem run_wake {threads : T → Thread α} {queue : CircularQueue α}
    {history : List (BoundedFifo.Op α)} (l : List T) (hnodup : l.Nodup)
    (hwaiting : ∀ i ∈ l, phase c (threads i) = .waiting) :
    run CircularQueue.step (view ⟨queue, threads, history⟩) (l.map .wake)
      = some (view ⟨queue, fun i => if i ∈ l then wakeUp (threads i) else threads i, history⟩) := by
  induction l generalizing threads with
  | nil => simp [run]
  | cons t l ih =>
      obtain ⟨hnot, hrest⟩ := List.nodup_cons.mp hnodup
      obtain ⟨ht, hl⟩ := List.forall_mem_cons.mp hwaiting
      obtain ⟨call, hcall, -⟩ := exists_call_of_waiting ht
      have hview : unsignalled (threads t) = .asleep call := congrArg unsignalled hcall
      have hstep : CircularQueue.step (view ⟨queue, threads, history⟩) (.wake t)
          = some (view ⟨queue, Function.update threads t (.woken call true), history⟩) := by
        rw [view_update]
        simp only [CircularQueue.step, view, hview]
        rfl
      have hothers : ∀ i ∈ l, phase c (Function.update threads t (.woken call true) i)
          = .waiting := by
        intro i hi
        have hit : i ≠ t := fun heq => hnot (heq ▸ hi)
        rw [Function.update_of_ne hit]
        exact hl i hi
      rw [List.map_cons, run, hstep, Option.bind_some, ih hrest hothers]
      congr 3
      funext i
      by_cases hit : i = t
      · subst hit
        simp [hnot, hcall, wakeUp]
      · simp [hit, Function.update_of_ne]

/-- A signal is a number of wake-ups. -/
theorem run_signal (h : signal s c moved = some s') :
    run CircularQueue.step (view s) (moved.toList.map .wake) = some (view s') := by
  rw [signal] at h
  split at h
  · next hmoves =>
      cases h
      have hrun : run CircularQueue.step (view ⟨s.queue, s.threads, s.history⟩) _ = _ :=
        run_wake moved.toList moved.nodup_toList fun i hi =>
          hmoves.waiting i (Finset.mem_toList.mp hi)
      simpa only [Finset.mem_toList] using hrun
  · cases h

/-- What a thread does with the lock is one step there, and the wake-ups of its signal. -/
theorem run_critical (hthread : unsignalled (s.threads t) = .locking call)
    (h : critical s t moved call = some s') :
    ∃ labels, run CircularQueue.step (view s) labels = some (view s') := by
  have hstep : CircularQueue.step (view s) (.lock t)
      = some (CircularQueue.critical (view s) t call) := by
    simp only [CircularQueue.step, view, hthread]
  cases call with
  | enQueue p =>
      rw [critical] at h
      rw [CircularQueue.critical] at hstep
      split at h
      · next hfull =>
          cases h
          refine ⟨[.lock t], ?_⟩
          have hview : (view s).queue.numFull = QSIZE := hfull
          rw [run, hstep, if_pos hview, view_update]
          rfl
      · next hfull =>
          refine ⟨.lock t :: moved.toList.map .wake, ?_⟩
          have hview : (view s).queue.numFull ≠ QSIZE := hfull
          rw [run, hstep, if_neg hview, Option.bind_some, ← run_signal h, view_update]
          rfl
  | deQueue =>
      rw [critical] at h
      rw [CircularQueue.critical] at hstep
      split at h
      · next hempty =>
          cases h
          refine ⟨[.lock t], ?_⟩
          have hview : (view s).queue.numFull = 0 := hempty
          rw [run, hstep, if_pos hview, view_update]
          rfl
      · next hempty =>
          refine ⟨.lock t :: moved.toList.map .wake, ?_⟩
          have hview : (view s).queue.numFull ≠ 0 := hempty
          rw [run, hstep, if_neg hview, Option.bind_some, ← run_signal h, view_update]
          rfl

/-- Each step is a step there, or a step and wake-ups. -/
theorem run_view {label : Label α T} (h : step s label = some s') :
    ∃ labels, run CircularQueue.step (view s) labels = some (view s') := by
  cases label with
  | call t call =>
      rw [step] at h
      split at h
      · next houtside =>
          cases h
          refine ⟨[.call t call], ?_⟩
          have hview : unsignalled (s.threads t) = .outside := congrArg unsignalled houtside
          rw [view_update]
          simp only [run, CircularQueue.step, view, hview]
          rfl
      · cases h
  | lock t moved =>
      rw [step] at h
      split at h
      · next call hthread => exact run_critical (congrArg unsignalled hthread) h
      · next call bySignal hthread => exact run_critical (congrArg unsignalled hthread) h
      · cases h
  | wake t =>
      rw [step] at h
      split at h
      · next call hthread =>
          cases h
          refine ⟨[.wake t], ?_⟩
          have hview : unsignalled (s.threads t) = .asleep call := congrArg unsignalled hthread
          rw [view_update]
          simp only [run, CircularQueue.step, view, hview]
          rfl
      · cases h

/-- So what is reached is reached there. -/
theorem reaches_view {data : Nat → α} (h : Reaches step (fun _ _ => True) (start data) s) :
    Reaches CircularQueue.step (fun _ _ => True) (CircularQueue.start data) (view s) := by
  induction h with
  | refl => exact .refl
  | tail label _ _ hstep ih =>
      obtain ⟨labels, hrun⟩ := run_view hstep
      exact ih.trans_run labels (fun _ _ _ => trivial) hrun

/-- With its signals, too, the queue is a bounded FIFO queue. -/
theorem serves_of_reaches {data : Nat → α}
    (h : Reaches step (fun _ _ => True) (start data) s) :
    BoundedFifo.Serves QSIZE s.history s.queue.contents := by
  have hinv : CircularQueue.Inv (view s) :=
    (reaches_view h).invariant (inv_start data) fun hinv _ hstep => hinv.step hstep
  exact hinv.serves

end ThunderChat.CircularQueue.Waiting

import ThunderChat.Foundation.BoundedFifo
import ThunderChat.Foundation.RingIndex
import ThunderChat.Foundation.Transition

/-!
The pointer queue of `CircularQueue.cpp`, shared by any number of threads.

The members of the class are one state, and the array is a total memory of which
the code uses the cells below `QSIZE`. `buf_lock` is held from the return of
`pthread_mutex_lock` or `pthread_cond_wait` up to the next `pthread_cond_wait` or
the unlock, so what a thread does in between is one step: it tests its loop
condition and either goes to sleep or does its work. A thread in
`pthread_cond_wait` may wake up at any time, whether it has been signalled or not.

* `contents_enQueue`, `contents_deQueue`: the two operations on the queue a state
  stands for.
* `Inv.step`: every step of every thread is a step of the bounded FIFO queue, or
  leaves it alone.
* `fifo_of_reaches`: in every state reached, what has come out is a prefix of
  what has gone in, and the members are in range.
-/

namespace ThunderChat

open BoundedFifo RingIndex Transition

/-- `QSIZE`. -/
def QSIZE : Nat := 1024

/-- The members `start_idx`, `num_full` and `data` of `CircularQueue`. -/
structure CircularQueue (α : Type) where
  startIdx : Nat
  numFull : Nat
  data : Nat → α

namespace CircularQueue

variable {α T : Type}

/-- The constructor. The array is left uninitialised, so its contents are a
parameter. -/
def fresh (data : Nat → α) : CircularQueue α := ⟨0, 0, data⟩

/-- The work of `EnQueue` behind its loop. -/
def enQueue (q : CircularQueue α) (p : α) : CircularQueue α :=
  { q with
    data := Function.update q.data ((q.startIdx + q.numFull) % QSIZE) p
    numFull := q.numFull + 1 }

/-- The pointer `DeQueue` returns. -/
def front (q : CircularQueue α) : α := q.data q.startIdx

/-- The work of `DeQueue` behind its loop. -/
def deQueue (q : CircularQueue α) : CircularQueue α :=
  { q with
    startIdx := (q.startIdx + 1) % QSIZE
    numFull := q.numFull - 1 }

/-! ### The queue a state stands for -/

/-- The pointers in the queue, oldest first. -/
def contents (q : CircularQueue α) : List α := window q.data QSIZE q.startIdx q.numFull

/-- The members are in range. -/
structure InRange (q : CircularQueue α) : Prop where
  startIdx : q.startIdx < QSIZE
  numFull : q.numFull ≤ QSIZE

variable {q : CircularQueue α} {p : α}

theorem QSIZE_pos : 0 < QSIZE := Nat.succ_pos 1023

theorem inRange_fresh (data : Nat → α) : (fresh data).InRange := ⟨QSIZE_pos, Nat.zero_le _⟩

@[simp] theorem contents_fresh (data : Nat → α) : (fresh data).contents = [] := rfl

theorem InRange.enQueue (h : q.InRange) (hfull : q.numFull ≠ QSIZE) : (q.enQueue p).InRange :=
  ⟨h.startIdx, Nat.lt_of_le_of_ne h.numFull hfull⟩

theorem InRange.deQueue (h : q.InRange) : q.deQueue.InRange :=
  ⟨Nat.mod_lt _ QSIZE_pos, (Nat.sub_le _ _).trans h.numFull⟩

/-- The slot behind the last pointer is free: writing it appends. -/
theorem contents_enQueue (h : q.InRange) (hfull : q.numFull ≠ QSIZE) :
    (q.enQueue p).contents = q.contents ++ [p] :=
  window_update h.startIdx (Nat.lt_of_le_of_ne h.numFull hfull) p

theorem length_contents_lt (h : q.InRange) (hfull : q.numFull ≠ QSIZE) :
    q.contents.length < QSIZE := by
  rw [contents, length_window]
  exact Nat.lt_of_le_of_ne h.numFull hfull

/-- What `DeQueue` returns is the oldest pointer, and it is taken out. -/
theorem contents_deQueue (h : q.InRange) (hempty : q.numFull ≠ 0) :
    q.contents = q.front :: q.deQueue.contents := by
  obtain ⟨n, hn⟩ := Nat.exists_eq_succ_of_ne_zero hempty
  have hwindow : window q.data QSIZE q.startIdx (n + 1)
      = q.data q.startIdx :: window q.data QSIZE ((q.startIdx + 1) % QSIZE) n :=
    window_succ h.startIdx
  simp only [contents, front, CircularQueue.deQueue, hn]
  exact hwindow

/-! ### The threads -/

/-- A call of `EnQueue` with its pointer, or of `DeQueue`. -/
inductive Call (α : Type) where
  | enQueue (p : α)
  | deQueue

/-- Where a thread is: in none of the queue's functions, before it gets the lock, or
asleep on `notfull` (`EnQueue`) or `notempty` (`DeQueue`). -/
inductive Thread (α : Type) where
  | outside
  | locking (call : Call α)
  | asleep (call : Call α)

/-- The queue and its threads, with the pointers given to `EnQueue` and returned by
`DeQueue` so far, in the order of the critical sections. -/
structure State (α T : Type) where
  queue : CircularQueue α
  threads : T → Thread α
  history : List (Op α)

/-- A thread calls a function, gets the lock, or wakes up. -/
inductive Label (α T : Type) where
  | call (t : T) (call : Call α)
  | lock (t : T)
  | wake (t : T)

/-- No thread has called anything yet. -/
def start (data : Nat → α) : State α T := ⟨fresh data, fun _ => .outside, []⟩

/-- A thread gets the lock: the loop condition is tested, and the thread sleeps or
does its work and returns. -/
def critical [DecidableEq T] (s : State α T) (t : T) : Call α → State α T
  | .enQueue p =>
      if s.queue.numFull = QSIZE then
        { s with threads := Function.update s.threads t (.asleep (.enQueue p)) }
      else
        { s with
          queue := s.queue.enQueue p
          threads := Function.update s.threads t .outside
          history := s.history ++ [.push p] }
  | .deQueue =>
      if s.queue.numFull = 0 then
        { s with threads := Function.update s.threads t (.asleep .deQueue) }
      else
        { s with
          queue := s.queue.deQueue
          threads := Function.update s.threads t .outside
          history := s.history ++ [.pop s.queue.front] }

/-- One step of one thread. -/
def step [DecidableEq T] (s : State α T) : Label α T → Option (State α T)
  | .call t call =>
      match s.threads t with
      | .outside => some { s with threads := Function.update s.threads t (.locking call) }
      | _ => none
  | .lock t =>
      match s.threads t with
      | .locking call => some (critical s t call)
      | _ => none
  | .wake t =>
      match s.threads t with
      | .asleep call => some { s with threads := Function.update s.threads t (.locking call) }
      | _ => none

/-! ### The refinement -/

/-- The members are in range, and the queue stands for the contents of a bounded FIFO
queue with this history. -/
structure Inv (s : State α T) : Prop where
  inRange : s.queue.InRange
  serves : Serves QSIZE s.history s.queue.contents

theorem inv_start (data : Nat → α) : Inv (start data : State α T) :=
  ⟨inRange_fresh data, .empty⟩

variable [DecidableEq T] {s s' : State α T} {t : T}

/-- What happens between the lock and the unlock is a push, a pop or nothing. -/
theorem Inv.critical (h : Inv s) (call : Call α) : Inv (critical s t call) := by
  cases call with
  | enQueue p =>
      simp only [CircularQueue.critical]
      split
      · exact ⟨h.inRange, h.serves⟩
      · next hfull =>
          refine ⟨h.inRange.enQueue hfull, ?_⟩
          rw [contents_enQueue h.inRange hfull]
          exact h.serves.push p (length_contents_lt h.inRange hfull)
  | deQueue =>
      simp only [CircularQueue.critical]
      split
      · exact ⟨h.inRange, h.serves⟩
      · next hempty =>
          refine ⟨h.inRange.deQueue, .pop ?_⟩
          rw [← contents_deQueue h.inRange hempty]
          exact h.serves

/-- Every step of every thread keeps the invariant: calls and wake-ups do not touch
the queue. -/
theorem Inv.step {label : Label α T} (h : Inv s) (hstep : step s label = some s') : Inv s' := by
  cases label with
  | call t call =>
      simp only [CircularQueue.step] at hstep
      split at hstep <;> cases hstep
      exact ⟨h.inRange, h.serves⟩
  | lock t =>
      simp only [CircularQueue.step] at hstep
      split at hstep <;> cases hstep
      exact h.critical _
  | wake t =>
      simp only [CircularQueue.step] at hstep
      split at hstep <;> cases hstep
      exact ⟨h.inRange, h.serves⟩

/-- **The queue is a bounded FIFO queue.** For any threads and any interleaving of
their critical sections, waits and wake-ups, the queue stands for a bounded FIFO
queue with the same history: what `DeQueue` has returned is a prefix of what
`EnQueue` has been given. The members are in range. -/
theorem fifo_of_reaches {data : Nat → α}
    (h : Reaches step (fun _ _ => True) (start data) s) :
    Serves QSIZE s.history s.queue.contents ∧ popped s.history <+: pushed s.history ∧
      s.queue.startIdx < QSIZE ∧ s.queue.numFull ≤ QSIZE := by
  have hinv : Inv s := h.invariant (inv_start data) fun hinv _ hstep => hinv.step hstep
  exact ⟨hinv.serves, hinv.serves.popped_prefix, hinv.inRange.startIdx, hinv.inRange.numFull⟩

/-- A consumer goes to sleep on the empty queue, is woken after a producer, and takes
the pointer. -/
theorem fifo_after_sleep :
    ∃ s : State Nat Bool,
      run step (start fun _ => 0) [.call true .deQueue, .lock true, .call false (.enQueue 7),
        .lock false, .wake true, .lock true] = some s ∧
      popped s.history <+: pushed s.history ∧ popped s.history = [7] := by
  have hreaches : Reaches step (fun _ _ => True) (start fun _ => 0 : State Nat Bool) _ :=
    reaches_of_run [.call true .deQueue, .lock true, .call false (.enQueue 7), .lock false,
      .wake true, .lock true] (fun _ _ _ => trivial) rfl
  exact ⟨_, rfl, (fifo_of_reaches hreaches).2.1, rfl⟩

end CircularQueue

end ThunderChat

import Mathlib.Algebra.Order.Group.Nat
import Mathlib.Data.Fintype.Option
import Mathlib.Data.Fintype.Sum
import Mathlib.Data.Multiset.OrderedMonoid
import ThunderChat.CircularQueue.Ledger

/-!
The threads of `ChatServer` from an event to the broadcast.

The main loop puts the client of an event into `m_pReceiveQueue`, a receiver takes it, reads
its socket and puts the messages into `m_pBroadcastQueue`, and a broadcaster writes each of
them and deletes it. Both queues hold `void` pointers, of 1024 at most: a producer waits on a
full one. What a pass reads and what a poll reports is not known here, and may be anything;
but the loop over the packets is taken to end, which `Thread.Receiver` is about.

* `accounted_of_reached`: a pointer from the one queue is a client, from the other a message,
  so both casts are right; and each message that has been read, and each client that has
  been polled, is at one place.
* `inevitable_quiet_iff`: exactly with a receiver and a broadcaster the queues never block
  each other, and what has been polled is worked off, whatever the schedule.
-/

namespace ThunderChat.Pipeline

open CircularQueue CircularQueue.Network Transition
open scoped BigOperators

/-- `m_pReceiveQueue` and `m_pBroadcastQueue`. -/
inductive Queue where
  | receive | broadcast
  deriving DecidableEq, Repr

instance : Fintype Queue where
  elems := {.receive, .broadcast}
  complete q := by cases q <;> simp

/-- How far a queue is from the sockets that are written to. -/
def Queue.stage : Queue → Nat
  | .receive => 1
  | .broadcast => 0

instance : Preorder Queue := Preorder.lift Queue.stage

/-- The threads of `Run`. -/
inductive Thread (R B : Type) where
  | main
  | receiver (r : R)
  | broadcaster (b : B)
  deriving DecidableEq

/-- There is one main thread besides the others. -/
def Thread.ofOption {R B : Type} : Option (R ⊕ B) → Thread R B
  | none => .main
  | some (.inl r) => .receiver r
  | some (.inr b) => .broadcaster b

theorem Thread.surjective_ofOption {R B : Type} :
    Function.Surjective (Thread.ofOption : Option (R ⊕ B) → Thread R B)
  | .main => ⟨none, rfl⟩
  | .receiver r => ⟨some (.inl r), rfl⟩
  | .broadcaster b => ⟨some (.inr b), rfl⟩

instance {R B : Type} [DecidableEq R] [DecidableEq B] [Fintype R] [Fintype B] :
    Fintype (Thread R B) :=
  .ofSurjective Thread.ofOption Thread.surjective_ofOption

/-- What the `void` pointers of the queues point to. -/
inductive Pointer (C M : Type) where
  | client (c : C)
  | message (m : M)

/-- An event of `Polling`: a client to be read, or one that the main loop is done with by
itself (it accepts a connection or closes a client). -/
inductive Event (C : Type) where
  | readable (c : C)
  | other

/-- Where a receiver is: before `GetReceiveQueue`, with the pointer, or in the loop over the
packets of the client, with the messages of those that are left. -/
inductive Receiving (C M : Type) where
  | idle
  | got (p : Pointer C M)
  | serving (c : C) (left : List M)

/-- Where a broadcaster is: before `GetBroadcastQueue`, or with the pointer. -/
inductive Broadcasting (C M : Type) where
  | idle
  | got (p : Pointer C M)

/-- What a thread is at, and what it has done: the clients the main loop has been given to
queue, the messages a receiver has read and the clients it is done with, and the messages a
broadcaster has written and deleted. -/
inductive Task (C M : Type) where
  | main (polled : List C) (events : List (Event C))
  | receiver (read : List M) (served : List C) (doing : Receiving C M)
  | broadcaster (written : List M) (doing : Broadcasting C M)

/-- What the threads do outside the queues. -/
inductive Act (C M : Type) where
  /-- `Polling` returns events. -/
  | poll (events : List (Event C))
  /-- The main loop is done with an event that it does not queue. -/
  | handle
  /-- `FillFromSocket`, and what the loop over the packets, once it has ended, makes of it. -/
  | fill (messages : List M)
  /-- `CloseClient`. -/
  | close
  /-- `AddEPoll`. -/
  | rearm
  /-- `MessageBroadcast`, and `delete`. -/
  | write

variable {C M R B : Type}

/-- The client of an event that is to be queued. -/
def Event.client? : Event C → Option C
  | .readable c => some c
  | .other => none

/-- The loops of `ChatServer::Run`, `ThreadReceiver::Run` and `ThreadBroadcaster::Run`. -/
def program : Program Queue (Pointer C M) (Task C M) (Act C M) where
  next
    | .main _ (.readable c :: _) => some (.receive, .enQueue (.client c))
    | .receiver _ _ .idle => some (.receive, .deQueue)
    | .receiver _ _ (.serving _ (m :: _)) => some (.broadcast, .enQueue (.message m))
    | .broadcaster _ .idle => some (.broadcast, .deQueue)
    | _ => none
  returns
    | .main polled (_ :: events), _ => .main polled events
    | .receiver read served .idle, p => .receiver read served (.got p)
    | .receiver read served (.serving c (_ :: left)), _ =>
        .receiver read served (.serving c left)
    | .broadcaster written .idle, p => .broadcaster written (.got p)
    | task, _ => task
  act
    | .main polled [], .poll events =>
        some (.main (polled ++ events.filterMap Event.client?) events)
    | .main polled (.other :: events), .handle => some (.main polled events)
    | .receiver read served (.got (.client c)), .fill messages =>
        some (.receiver (read ++ messages) served (.serving c messages))
    | .receiver read served (.got (.client c)), .close =>
        some (.receiver read (served ++ [c]) .idle)
    | .receiver read served (.serving c []), .rearm =>
        some (.receiver read (served ++ [c]) .idle)
    | .broadcaster written (.got (.message m)), .write =>
        some (.broadcaster (written ++ [m]) .idle)
    | _, _ => none

/-- All but `Polling` needs nothing from outside. -/
def Inner : Act C M → Prop
  | .poll _ => False
  | _ => True

/-- The tasks when the threads have been spawned. -/
def spawned : Thread R B → Task C M
  | .main => .main [] []
  | .receiver _ => .receiver [] [] .idle
  | .broadcaster _ => .broadcaster [] .idle

/-! ### The pointers -/

/-- What a queue carries. -/
def Carries : Queue → Pointer C M → Prop
  | .receive, p => ∃ c, p = .client c
  | .broadcast, p => ∃ m, p = .message m

/-- A thread is at a task of its own, with the right kind of pointer. -/
def Ok : Thread R B → Task C M → Prop
  | .main, .main _ _ => True
  | .receiver _, .receiver _ _ (.got p) => ∃ c, p = .client c
  | .receiver _, .receiver _ _ _ => True
  | .broadcaster _, .broadcaster _ (.got p) => ∃ m, p = .message m
  | .broadcaster _, .broadcaster _ .idle => True
  | _, _ => False

/-- What a call of a task is, and how the task goes on. -/
inductive Calls : Task C M → Queue → Call (Pointer C M) → Prop where
  | putReceiveQueue {polled : List C} {c : C} {events : List (Event C)} :
      Calls (.main polled (.readable c :: events)) .receive (.enQueue (.client c))
  | getReceiveQueue {read : List M} {served : List C} :
      Calls (.receiver read served .idle) .receive .deQueue
  | putBroadcastQueue {read : List M} {served : List C} {c : C} {m : M} {left : List M} :
      Calls (.receiver read served (.serving c (m :: left))) .broadcast (.enQueue (.message m))
  | getBroadcastQueue {written : List M} : Calls (.broadcaster written .idle) .broadcast .deQueue

theorem calls_of_next {x : Task C M} {q : Queue} {call : Call (Pointer C M)}
    (h : program.next x = some (q, call)) : Calls x q call := by
  simp only [program] at h
  split at h
  · cases h
    exact .putReceiveQueue
  · cases h
    exact .getReceiveQueue
  · cases h
    exact .putBroadcastQueue
  · cases h
    exact .getBroadcastQueue
  · cases h

/-- What a task does outside the queues. -/
inductive Acts : Task C M → Act C M → Task C M → Prop where
  | poll {polled : List C} {events : List (Event C)} :
      Acts (.main polled []) (.poll events)
        (.main (polled ++ events.filterMap Event.client?) events)
  | handle {polled : List C} {events : List (Event C)} :
      Acts (.main polled (.other :: events)) .handle (.main polled events)
  | fill {read : List M} {served : List C} {c : C} {messages : List M} :
      Acts (.receiver read served (.got (.client c))) (.fill messages)
        (.receiver (read ++ messages) served (.serving c messages))
  | close {read : List M} {served : List C} {c : C} :
      Acts (.receiver read served (.got (.client c))) .close
        (.receiver read (served ++ [c]) .idle)
  | rearm {read : List M} {served : List C} {c : C} :
      Acts (.receiver read served (.serving c [])) .rearm (.receiver read (served ++ [c]) .idle)
  | write {written : List M} {m : M} :
      Acts (.broadcaster written (.got (.message m))) .write
        (.broadcaster (written ++ [m]) .idle)

theorem acts_of_act {x y : Task C M} {i : Act C M} (h : program.act x i = some y) :
    Acts x i y := by
  simp only [program] at h
  split at h
  · cases h
    exact .poll
  · cases h
    exact .handle
  · cases h
    exact .fill
  · cases h
    exact .close
  · cases h
    exact .rearm
  · cases h
    exact .write
  · cases h

theorem keeps : Program.Keeps (program (C := C) (M := M)) Carries (Ok (R := R) (B := B)) where
  act {t x y i} hok _ hact := by
    cases acts_of_act hact <;> cases t <;> first | exact trivial | exact hok.elim
  push {t x q p} hok hnext := by
    cases calls_of_next hnext with
    | putReceiveQueue => exact ⟨⟨_, rfl⟩, by cases t <;> first | exact trivial | exact hok.elim⟩
    | putBroadcastQueue =>
        exact ⟨⟨_, rfl⟩, by cases t <;> first | exact trivial | exact hok.elim⟩
  pop {t x q p} hok hnext hcarries := by
    cases calls_of_next hnext with
    | getReceiveQueue => cases t <;> first | exact hcarries | exact hok.elim
    | getBroadcastQueue => cases t <;> first | exact hcarries | exact hok.elim

theorem ok_spawned (t : Thread R B) : Ok t (spawned t : Task C M) := by
  cases t <;> exact trivial

/-- Each queue is emptied by threads that only the sockets, or the queue behind it, hold
up. -/
theorem served (r : R) (b : B) :
    Program.Served (program (C := C) (M := M)) Inner (Ok (R := R) (B := B))
      fun | .receive => .receiver r | .broadcast => .broadcaster b := by
  intro q x hok
  cases q with
  | receive =>
      match x, hok with
      | .receiver _ _ .idle, _ => exact .inl rfl
      | .receiver _ _ (.got _), ⟨c, rfl⟩ => exact .inr (.inr ⟨rfl, .close, _, trivial, rfl⟩)
      | .receiver _ _ (.serving _ []), _ => exact .inr (.inr ⟨rfl, .rearm, _, trivial, rfl⟩)
      | .receiver _ _ (.serving _ (_ :: _)), _ =>
          exact .inr (.inl ⟨.broadcast, Nat.zero_lt_one, _, rfl⟩)
  | broadcast =>
      match x, hok with
      | .broadcaster _ .idle, _ => exact .inl rfl
      | .broadcaster _ (.got _), ⟨m, rfl⟩ => exact .inr (.inr ⟨rfl, .write, _, trivial, rfl⟩)

/-! ### The weights -/

/-- What is still to be done for the clients of a task, and then for its messages. -/
def weight : Task C M → Nat ×ₗ Nat
  | .main _ events => toLex (4 * events.length, 0)
  | .receiver _ _ .idle => toLex (0, 0)
  | .receiver _ _ (.got _) => toLex (2, 0)
  | .receiver _ _ (.serving _ left) => toLex (1, 3 * left.length)
  | .broadcaster _ .idle => toLex (0, 0)
  | .broadcaster _ (.got _) => toLex (0, 1)

/-- What is still to be done for a pointer in a queue. -/
def carriedWeight : Pointer C M → Nat ×ₗ Nat
  | .client _ => toLex (3, 0)
  | .message _ => toLex (0, 2)

theorem spends : Program.Spends (program (C := C) (M := M)) Inner Carries (Ok (R := R) (B := B))
    weight carriedWeight where
  act {t x y i} _ _ hinner hact := by
    cases acts_of_act hact with
    | poll => exact hinner.elim
    | handle | fill | close | rearm | write =>
        simp [weight, Prod.Lex.toLex_lt_toLex]
  push {t x q p} _ hnext := by
    cases calls_of_next hnext <;>
      simp [program, weight, carriedWeight, ← toLex_add, Prod.Lex.toLex_lt_toLex, mul_add]
  pop {t x q p} _ hnext hcarries := by
    cases calls_of_next hnext <;> obtain ⟨_, rfl⟩ := hcarries <;>
      simp [program, weight, carriedWeight, ← toLex_add, Prod.Lex.toLex_lt_toLex]

/-! ### The inventory -/

/-- The clients the main loop has been given to queue. -/
def Task.polled : Task C M → Multiset C
  | .main polled _ => polled
  | _ => 0

/-- The clients a receiver is done with. -/
def Task.served : Task C M → Multiset C
  | .receiver _ served _ => served
  | _ => 0

/-- The messages a receiver has read. -/
def Task.read : Task C M → Multiset M
  | .receiver read _ _ => read
  | _ => 0

/-- The messages a broadcaster has written and deleted. -/
def Task.written : Task C M → Multiset M
  | .broadcaster written _ => written
  | _ => 0

/-- The client of a pointer. -/
def Pointer.clients : Pointer C M → Multiset C
  | .client c => {c}
  | .message _ => 0

/-- The message of a pointer. -/
def Pointer.messages : Pointer C M → Multiset M
  | .client _ => 0
  | .message m => {m}

/-- The clients a task still has, or is done with. -/
def Task.clients : Task C M → Multiset C
  | .main _ events => events.filterMap Event.client?
  | .receiver _ served .idle => served
  | .receiver _ served (.got p) => served + p.clients
  | .receiver _ served (.serving c _) => served + {c}
  | .broadcaster _ _ => 0

/-- The messages a task still has, or is done with. -/
def Task.messages : Task C M → Multiset M
  | .main _ _ => 0
  | .receiver _ _ (.serving _ left) => left
  | .receiver _ _ _ => 0
  | .broadcaster written .idle => written
  | .broadcaster written (.got p) => written + p.messages

theorem coe_concat {β : Type} (l : List β) (x : β) : ((l ++ [x] : List β) : Multiset β) = l + {x} :=
  (Multiset.coe_add l [x]).symm

theorem coe_cons {β : Type} (x : β) (l : List β) : ((x :: l : List β) : Multiset β) = l + {x} := by
  rw [← Multiset.cons_coe, ← Multiset.singleton_add, add_comm]

theorem conserves_messages : Program.Conserves (program (C := C) (M := M)) Carries
    (Ok (R := R) (B := B)) Task.read Task.messages Pointer.messages where
  act {t x y i} _ _ hact := by
    cases acts_of_act hact <;> simp [Task.read, Task.messages, Pointer.messages, coe_concat]
  push {t x q p} _ hnext := by
    cases calls_of_next hnext <;>
      simp [program, Task.read, Task.messages, Pointer.messages, coe_cons]
  pop {t x q p} _ hnext hcarries := by
    cases calls_of_next hnext <;> obtain ⟨_, rfl⟩ := hcarries <;>
      simp [program, Task.read, Task.messages, Pointer.messages]

theorem conserves_clients : Program.Conserves (program (C := C) (M := M)) Carries
    (Ok (R := R) (B := B)) Task.polled Task.clients Pointer.clients where
  act {t x y i} _ _ hact := by
    cases acts_of_act hact <;> simp [Task.polled, Task.clients, Pointer.clients, Event.client?,
      coe_concat, List.filterMap_cons]
  push {t x q p} _ hnext := by
    cases calls_of_next hnext <;>
      simp [program, Task.polled, Task.clients, Pointer.clients, Event.client?, coe_cons]
  pop {t x q p} _ hnext hcarries := by
    cases calls_of_next hnext <;> obtain ⟨_, rfl⟩ := hcarries <;>
      simp [program, Task.polled, Task.clients, Pointer.clients]

section Runs

variable [DecidableEq R] [DecidableEq B] [Fintype R] [Fintype B] {data : Queue → Nat → Pointer C M}
  {s : State (Thread R B) Queue (Pointer C M) (Task C M)}

theorem ok_of_reached (h : Reached program data spawned s) (t : Thread R B) :
    Ok t (s.tasks t) :=
  (kept_of_reached keeps ok_spawned h).2.ok t

/-- A client that has been polled is still with the main loop, in the queue or with one
receiver, or done with. -/
theorem clients_of_reached (h : Reached program data spawned s) :
    ∑ t, (s.tasks t).polled = ∑ t, (s.tasks t).clients +
      ∑ q, carriedBy Pointer.clients (s.queues q) := by
  refine conserved_of_reached keeps conserves_clients ok_spawned (fun t => ?_) h
  cases t <;> rfl

/-- A message that has been read is still with its receiver, in the queue or with one
broadcaster, or written. -/
theorem messages_of_reached (h : Reached program data spawned s) :
    ∑ t, (s.tasks t).read = ∑ t, (s.tasks t).messages +
      ∑ q, carriedBy Pointer.messages (s.queues q) := by
  refine conserved_of_reached keeps conserves_messages ok_spawned (fun t => ?_) h
  cases t <;> rfl

/-- **Everything is at one place.** In every state that is reached, what has been taken out
of a queue has been cast to what it is, and no client that has been polled and no message
that has been read has been lost or is at two places. -/
theorem accounted_of_reached (h : Reached program data spawned s) :
    (∀ t, Ok t (s.tasks t)) ∧
    ∑ t, (s.tasks t).polled = ∑ t, (s.tasks t).clients +
      ∑ q, carriedBy Pointer.clients (s.queues q) ∧
    ∑ t, (s.tasks t).read = ∑ t, (s.tasks t).messages +
      ∑ q, carriedBy Pointer.messages (s.queues q) :=
  ⟨ok_of_reached h, clients_of_reached h, messages_of_reached h⟩

/-- A receiver waits for a client, reads two messages of it and queues them, and the first one
is written. -/
def oneClient : List (Network.Label (Thread (Fin 1) (Fin 1)) (Act Nat Nat)) :=
  [.call (.receiver 0), .lock (.receiver 0) ∅, .act .main (.poll [.readable 7]), .call .main,
    .lock .main {.receiver 0}, .lock (.receiver 0) ∅, .act (.receiver 0) (.fill [5, 6]),
    .call (.receiver 0), .lock (.receiver 0) ∅, .call (.broadcaster 0), .lock (.broadcaster 0) ∅,
    .act (.broadcaster 0) .write, .call (.receiver 0), .lock (.receiver 0) ∅]

theorem accounted_of_oneClient :
    ∃ s : State (Thread (Fin 1) (Fin 1)) Queue (Pointer Nat Nat) (Task Nat Nat),
      run (Network.step program) (start (fun _ _ => .client 0) spawned) oneClient = some s ∧
      s.tasks .main = .main [7] [] ∧
      s.tasks (.receiver 0) = .receiver [5, 6] [] (.serving 7 []) ∧
      s.tasks (.broadcaster 0) = .broadcaster [5] .idle ∧
      ∑ t, (s.tasks t).polled = ∑ t, (s.tasks t).clients +
        ∑ q, carriedBy Pointer.clients (s.queues q) ∧
      ∑ t, (s.tasks t).read = ∑ t, (s.tasks t).messages +
        ∑ q, carriedBy Pointer.messages (s.queues q) := by
  have hreached : Reached program (fun _ _ => .client 0) spawned
      (_ : State (Thread (Fin 1) (Fin 1)) Queue (Pointer Nat Nat) (Task Nat Nat)) :=
    reaches_of_run oneClient (fun _ _ _ => trivial) rfl
  obtain ⟨-, hclients, hmessages⟩ := accounted_of_reached hreached
  exact ⟨_, rfl, rfl, rfl, rfl, hclients, hmessages⟩

/-- What has been polled has been worked off: the main loop has no event left, receivers and
broadcasters wait for the empty queues, and what has been polled is done with and what has
been read is written. -/
structure Quiet (s : State (Thread R B) Queue (Pointer C M) (Task C M)) : Prop where
  queues : ∀ q, (s.queues q).queue.contents = []
  main : ∃ polled, s.tasks .main = .main polled []
  receivers : ∀ r, ∃ read served, s.tasks (.receiver r) = .receiver read served .idle ∧
    (s.queues .receive).threads (.receiver r) = .waiting .deQueue
  broadcasters : ∀ b, ∃ written, s.tasks (.broadcaster b) = .broadcaster written .idle ∧
    (s.queues .broadcast).threads (.broadcaster b) = .waiting .deQueue
  served : ∑ t, (s.tasks t).served = ∑ t, (s.tasks t).polled
  written : ∑ t, (s.tasks t).written = ∑ t, (s.tasks t).read

omit [DecidableEq R] [DecidableEq B] [Fintype R] [Fintype B] in
theorem receiver_of_drained (hok : ∀ t, Ok t (s.tasks t)) (h : Drained program Inner s) (r : R) :
    ∃ read served, s.tasks (.receiver r) = .receiver read served .idle ∧
      (s.queues .receive).threads (.receiver r) = .waiting .deQueue := by
  have htask := hok (.receiver r)
  have hrest := h.rest (.receiver r)
  generalize s.tasks (.receiver r) = x at htask hrest
  match x, htask with
  | .receiver read served .idle, _ =>
      rcases hrest with ⟨q, hnext, hwaiting⟩ | ⟨hnone, -⟩
      · cases calls_of_next hnext
        exact ⟨read, served, rfl, hwaiting⟩
      · cases hnone
  | .receiver read served (.got _), ⟨c, rfl⟩ =>
      rcases hrest with ⟨q, hnext, -⟩ | ⟨-, hacts⟩
      · cases hnext
      · cases hacts .close trivial
  | .receiver read served (.serving c []), _ =>
      rcases hrest with ⟨q, hnext, -⟩ | ⟨-, hacts⟩
      · cases hnext
      · cases hacts .rearm trivial
  | .receiver read served (.serving c (m :: left)), _ =>
      rcases hrest with ⟨q, hnext, -⟩ | ⟨hnone, -⟩
      · cases hnext
      · cases hnone

omit [DecidableEq R] [DecidableEq B] [Fintype R] [Fintype B] in
theorem broadcaster_of_drained (hok : ∀ t, Ok t (s.tasks t)) (h : Drained program Inner s)
    (b : B) : ∃ written, s.tasks (.broadcaster b) = .broadcaster written .idle ∧
      (s.queues .broadcast).threads (.broadcaster b) = .waiting .deQueue := by
  have htask := hok (.broadcaster b)
  have hrest := h.rest (.broadcaster b)
  generalize s.tasks (.broadcaster b) = x at htask hrest
  match x, htask with
  | .broadcaster written .idle, _ =>
      rcases hrest with ⟨q, hnext, hwaiting⟩ | ⟨hnone, -⟩
      · cases calls_of_next hnext
        exact ⟨written, rfl, hwaiting⟩
      · cases hnone
  | .broadcaster written (.got _), ⟨m, rfl⟩ =>
      rcases hrest with ⟨q, hnext, -⟩ | ⟨-, hacts⟩
      · cases hnext
      · cases hacts .write trivial

omit [DecidableEq R] [DecidableEq B] [Fintype R] [Fintype B] in
theorem main_of_drained (hok : ∀ t, Ok t (s.tasks t)) (h : Drained program Inner s) :
    ∃ polled, s.tasks .main = .main polled [] := by
  have htask := hok .main
  have hrest := h.rest .main
  generalize s.tasks .main = x at htask hrest
  match x, htask with
  | .main polled [], _ => exact ⟨polled, rfl⟩
  | .main polled (.readable c :: events), _ =>
      rcases hrest with ⟨q, hnext, -⟩ | ⟨hnone, -⟩
      · cases hnext
      · cases hnone
  | .main polled (.other :: events), _ =>
      rcases hrest with ⟨q, hnext, -⟩ | ⟨-, hacts⟩
      · cases hnext
      · cases hacts .handle trivial

theorem quiet_of_drained (hreached : Reached program data spawned s)
    (h : Drained program Inner s) : Quiet s := by
  have hok := ok_of_reached hreached
  have hclients := clients_of_reached hreached
  have hmessages := messages_of_reached hreached
  have hmain := main_of_drained hok h
  have hreceivers := receiver_of_drained hok h
  have hbroadcasters := broadcaster_of_drained hok h
  have hempty : ∀ {β : Type} (f : Pointer C M → Multiset β),
      ∑ q, carriedBy f (s.queues q) = 0 := by
    intro β f
    refine Finset.sum_eq_zero fun q _ => ?_
    rw [carriedBy, h.empty q]
    rfl
  have hdone : ∀ t, (s.tasks t).clients = (s.tasks t).served ∧
      (s.tasks t).messages = (s.tasks t).written := by
    intro t
    cases t with
    | main =>
        obtain ⟨polled, htask⟩ := hmain
        rw [htask]
        exact ⟨rfl, rfl⟩
    | receiver r =>
        obtain ⟨read, served, htask, -⟩ := hreceivers r
        rw [htask]
        exact ⟨rfl, rfl⟩
    | broadcaster b =>
        obtain ⟨written, htask, -⟩ := hbroadcasters b
        rw [htask]
        exact ⟨rfl, rfl⟩
  rw [hempty, add_zero] at hclients hmessages
  refine ⟨h.empty, hmain, hreceivers, hbroadcasters, ?_, ?_⟩
  · rw [hclients]
    exact Finset.sum_congr rfl fun t _ => (hdone t).1.symm
  · rw [hmessages]
    exact Finset.sum_congr rfl fun t _ => (hdone t).2.symm

/-- What has been polled is worked off. With at least one receiver and one broadcaster,
the two queues never block each other: from every state that is reached, whichever steps
the threads take and whatever the receivers read, the server comes to rest with every
message written. -/
theorem inevitable_quiet [Nonempty R] [Nonempty B] (h : Reached program data spawned s) :
    Inevitable (step program) (Own Inner) Quiet s := by
  obtain ⟨r⟩ := ‹Nonempty R›
  obtain ⟨b⟩ := ‹Nonempty B›
  have hdrained := inevitable_drained keeps (served r b) spends ok_spawned h
  exact hdrained.mono fun s ⟨hreached, hdrained⟩ => quiet_of_drained hreached hdrained

/-! ### Without receivers or broadcasters -/

/-- A receiver that is done with no client yet, and with none in its packet loop. -/
def Task.Unserved : Task C M → Prop
  | .receiver _ served .idle => served = []
  | .receiver _ served (.got _) => served = []
  | _ => False

/-- A client has been polled, and a message of it has been read or will be. -/
structure Owing (s : State (Thread R B) Queue (Pointer C M) (Task C M)) : Prop where
  polled : (s.tasks .main).polled ≠ 0
  read : (∃ r, (s.tasks (.receiver r)).read ≠ 0) ∨ ∀ r, (s.tasks (.receiver r)).Unserved

omit [Fintype R] [Fintype B] in
/-- A thread goes on and takes nothing back. -/
theorem Owing.goOn (h : Owing s) {t : Thread R B} {task : Task C M}
    (hpolled : (s.tasks t).polled = task.polled) (hread : (s.tasks t).read = task.read)
    (hunserved : (s.tasks t).Unserved → task.Unserved) : Owing (s.goOn t task) := by
  refine ⟨?_, ?_⟩
  · simp only [State.goOn]
    by_cases ht : Thread.main = t
    · subst ht
      rw [Function.update_self, ← hpolled]
      exact h.polled
    · rw [Function.update_of_ne ht]
      exact h.polled
  · refine h.read.imp ?_ ?_
    · rintro ⟨r, hr⟩
      refine ⟨r, ?_⟩
      simp only [State.goOn]
      by_cases ht : Thread.receiver r = t
      · subst ht
        rw [Function.update_self, ← hread]
        exact hr
      · rwa [Function.update_of_ne ht]
    · intro hall r
      simp only [State.goOn]
      by_cases ht : Thread.receiver r = t
      · subst ht
        rw [Function.update_self]
        exact hunserved (hall r)
      · rw [Function.update_of_ne ht]
        exact hall r

omit [Fintype R] [Fintype B] in
/-- A receiver reads a message. -/
theorem Owing.fill (h : Owing s) {r : R} {task : Task C M} (hread : task.read ≠ 0) :
    Owing (s.goOn (.receiver r) task) := by
  refine ⟨?_, .inl ⟨r, ?_⟩⟩
  · simp only [State.goOn]
    exact h.polled
  · simp only [State.goOn, Function.update_self]
    exact hread

/-- A client is done with by a receiver, and a message written by a broadcaster. -/
theorem exists_of_quiet (h : Owing s) (hquiet : Quiet s) : Nonempty R ∧ Nonempty B := by
  obtain ⟨polled, hmain⟩ := hquiet.main
  have hserved : ∑ t, (s.tasks t).served ≠ 0 := by
    rw [hquiet.served]
    exact fun hzero => h.polled (Finset.sum_eq_zero_iff.mp hzero .main (Finset.mem_univ _))
  obtain ⟨t, -, ht⟩ := Finset.exists_ne_zero_of_sum_ne_zero hserved
  cases t with
  | main =>
      rw [hmain] at ht
      exact absurd rfl ht
  | broadcaster b =>
      obtain ⟨written, hb, -⟩ := hquiet.broadcasters b
      rw [hb] at ht
      exact absurd rfl ht
  | receiver r =>
      refine ⟨⟨r⟩, ?_⟩
      obtain ⟨read, served, hr, -⟩ := hquiet.receivers r
      rw [hr] at ht
      have hread : ∃ r, (s.tasks (.receiver r)).read ≠ 0 := by
        refine h.read.resolve_right fun hall => ?_
        have hunserved := hall r
        rw [hr] at hunserved
        have hnil : served = [] := hunserved
        subst hnil
        exact ht rfl
      have hwritten : ∑ t, (s.tasks t).written ≠ 0 := by
        obtain ⟨r', hr'⟩ := hread
        rw [hquiet.written]
        exact fun hzero =>
          hr' (Finset.sum_eq_zero_iff.mp hzero (.receiver r') (Finset.mem_univ _))
      obtain ⟨t', -, ht'⟩ := Finset.exists_ne_zero_of_sum_ne_zero hwritten
      cases t' with
      | main =>
          rw [hmain] at ht'
          exact absurd rfl ht'
      | receiver r' =>
          obtain ⟨read', served', hr', -⟩ := hquiet.receivers r'
          rw [hr'] at ht'
          exact absurd rfl ht'
      | broadcaster b => exact ⟨b⟩

theorem returns_eq {x : Task C M} {q : Queue} {call : Call (Pointer C M)} (h : Calls x q call)
    (p : Pointer C M) : x.polled = (program.returns x p).polled ∧
      x.read = (program.returns x p).read ∧ (x.Unserved → (program.returns x p).Unserved) := by
  cases h with
  | putReceiveQueue | getBroadcastQueue | putBroadcastQueue => exact ⟨rfl, rfl, False.elim⟩
  | getReceiveQueue => exact ⟨rfl, rfl, id⟩

/-- A receiver that has a client may read a message of it. -/
theorem Owing.exists_fill [Nonempty M] (h : Owing s) {t : Thread R B} (hok : Ok t (s.tasks t))
    {read : List M} {served : List C} {c : C}
    (ht : s.tasks t = .receiver read served (.got (.client c))) :
    ∃ i s', Inner i ∧ Network.step program s (.act t i) = some s' ∧ Owing s' := by
  obtain ⟨m⟩ := ‹Nonempty M›
  refine ⟨.fill [m], s.goOn t (.receiver (read ++ [m]) served (.serving c [m])), trivial, ?_, ?_⟩
  · rw [Network.step, ht]
    rfl
  · rw [ht] at hok
    cases t with
    | receiver r => exact h.fill (by simp [Task.read])
    | main | broadcaster b => exact hok.elim

/-- The threads can go on owing: where a receiver could be done with a client without a
message, it reads one instead. -/
theorem owing_continues [Nonempty M] (hreached : Reached program data spawned s) (h : Owing s)
    {label : Network.Label (Thread R B) (Act C M)} (hown : Own Inner label)
    {s' : State (Thread R B) Queue (Pointer C M) (Task C M)}
    (hstep : step program s label = some s') :
    ∃ label' s'', Own Inner label' ∧ step program s label' = some s'' ∧ Owing s'' := by
  obtain ⟨hinv, hkept⟩ := kept_of_reached keeps ok_spawned hreached
  cases steps_of_step hinv hstep with
  | calls _ _ | waits _ _ => exact ⟨_, _, hown, hstep, h.polled, h.read⟩
  | wakes _ _ => exact hown.elim
  | @returns t moved q call queue hnext hsome hqueue ht hrest =>
      have hput : Owing (s.put q queue) := ⟨h.polled, h.read⟩
      obtain ⟨hpolled, hread, hunserved⟩ :=
        returns_eq (calls_of_next hnext) (Waiting.pointer (s.queues q).queue call)
      exact ⟨_, _, hown, hstep, hput.goOn hpolled hread hunserved⟩
  | @acts t i task hnext hact =>
      have hok := hkept.ok t
      have hacts := acts_of_act hact
      generalize hx : s.tasks t = x at hacts
      cases hacts with
      | poll => exact hown.elim
      | handle | write =>
          refine ⟨_, _, hown, hstep, h.goOn ?_ ?_ ?_⟩
          · rw [hx]; rfl
          · rw [hx]; rfl
          · rw [hx]; exact id
      | fill | close =>
          obtain ⟨i', s'', hinner, hfill, howing⟩ := h.exists_fill hok hx
          exact ⟨.act t i', s'', hinner, hfill, howing⟩
      | rearm =>
          refine ⟨_, _, hown, hstep, h.goOn ?_ ?_ ?_⟩
          · rw [hx]; rfl
          · rw [hx]; rfl
          · rw [hx]; exact False.elim

/-- Without receivers or without broadcasters not everything is worked off. -/
theorem not_inevitable_of_owing [Nonempty M] (hreached : Reached program data spawned s)
    (h : Owing s) (hnone : ¬ (Nonempty R ∧ Nonempty B)) :
    ¬ Inevitable (step program) (Own Inner) Quiet s := by
  refine not_inevitable_of_avoids (A := fun s => Reached program data spawned s ∧ Owing s)
    (fun hs hquiet => hnone (exists_of_quiet hs.2 hquiet)) ?_ ⟨hreached, h⟩
  intro s s' label hs hown hstep
  obtain ⟨label', s'', hown', hstep', howing⟩ := owing_continues hs.1 hs.2 hown hstep
  exact ⟨label', s'', hown', hstep', hs.1.tail label' trivial hstep', howing⟩

/-- Everything that is ever polled is worked off, whatever the schedule and whatever the
receivers read, exactly if there are a receiver and a broadcaster. -/
theorem inevitable_quiet_iff [Nonempty C] [Nonempty M] (data : Queue → Nat → Pointer C M) :
    (∀ s : State (Thread R B) Queue (Pointer C M) (Task C M), Reached program data spawned s →
      Inevitable (step program) (Own Inner) Quiet s) ↔ Nonempty R ∧ Nonempty B := by
  constructor
  · intro hall
    by_contra hnone
    obtain ⟨c⟩ := ‹Nonempty C›
    have hreached : Reached program data spawned
        ((start data spawned).goOn .main (.main [c] [.readable c]) :
          State (Thread R B) Queue (Pointer C M) (Task C M)) :=
      reaches_of_run [.act .main (.poll [.readable c])] (fun _ _ _ => trivial) rfl
    refine not_inevitable_of_owing hreached ⟨?_, .inr fun r => ?_⟩ hnone (hall _ hreached)
    · simp [State.goOn, Task.polled]
    · exact (rfl : ([] : List C) = [])
  · rintro ⟨hr, hb⟩ s hreached
    exact inevitable_quiet hreached

end Runs

end ThunderChat.Pipeline

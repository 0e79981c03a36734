import ThunderChat.CircularQueue
import ThunderChat.Foundation.Handover
import ThunderChat.Server.Connections

/-!
The clients of `ChatServer` between its threads, in the epoll builds.

A client is armed in epoll, or reported and not handled yet, or in `m_pReceiveQueue`, or
a thread works on it. The main loop takes the events of a batch one by one: it closes
the client, or takes it from epoll and enqueues it. A receiver dequeues it, fills it,
executes its commands, and closes it or arms it again. With `EPOLLONESHOT` the report
itself disarms the client, otherwise `DelClient` does before it is enqueued.

The accounts of `Connections` are part of the state, and what a thread does there is
said by its task.

* `owned`: a client is at one of these places at most, and no thread ever works on one
  that has been deleted.
-/

namespace ThunderChat.Ownership

open Transition
open Connections (Client Thread Task)

/-- An event epoll reports: `EPOLLERR` or `EPOLLHUP`, and `EPOLLIN`. -/
structure Event where
  client : Client
  error : Bool
  input : Bool
  deriving DecidableEq, Repr

/-- The accounts, the sockets `RegisterManager` has still to accept, the clients armed in
epoll, the rest of the batch, the event whose client the main loop has not yet taken
from epoll, the receive queue, and the receivers. -/
structure State (R : Type) where
  books : Connections.State R
  toRegister : Nat
  armed : List Client
  batch : List Event
  handled : Option Event
  receiveQueue : List Client
  stages : R → Stage

/-- One step of a thread. -/
inductive Label (R : Type) where
  | test
  | acceptUser
  | registerManager
  | list (t : Thread R)
  | addClient (t : Thread R) (succeeds : Bool)
  | poll (events : List Event)
  | next
  | closeEvent
  | delClient
  | skipEvent
  | putReceiveQueue
  | getReceiveQueue (r : R)
  | fillFromSocket (r : R) (fill : Fill)
  | executeCommand (r : R)
  | rearm (r : R) (succeeds : Bool)
  | unhook (t : Thread R)
  | unlist (t : Thread R)
  | uncount (t : Thread R)

variable {R : Type} [DecidableEq R]

/-- No client has been accepted; `managers` sockets wait in `m_lstChatManagerSocket`. -/
def start (managers : Nat) : State R :=
  ⟨Connections.start, managers, [], [], none, [], fun _ => .fetched⟩

/-- The thread goes on to another task. -/
def State.put (s : State R) (t : Thread R) (task : Task) : State R :=
  { s with books := s.books.put t task }

/-- The receiver goes on to another stage. -/
def State.stage (s : State R) (r : R) (stage : Stage) : State R :=
  { s with stages := Function.update s.stages r stage }

/-- What a label does. Epoll reports a client at most once in a batch, and only while it
is armed. -/
def step (oneshot : Bool) (maxUser : Int) (s : State R) : Label R → Option (State R)
  | .test => (Connections.step maxUser s.books .test).map ({ s with books := · })
  | .acceptUser => (Connections.step maxUser s.books .acceptUser).map ({ s with books := · })
  | .registerManager =>
      if s.toRegister = 0 then none
      else (Connections.step maxUser s.books .acceptManager).map
        ({ s with books := ·, toRegister := s.toRegister - 1 })
  | .list t => (Connections.step maxUser s.books (.list t)).map ({ s with books := · })
  | .addClient t succeeds =>
      match s.books.tasks t with
      | .listed c =>
          (Connections.step maxUser s.books (.offer t succeeds)).map
            ({ s with books := ·, armed := if succeeds then c :: s.armed else s.armed })
      | _ => none
  | .poll events =>
      match s.books.tasks .main with
      | .idle =>
          if s.toRegister = 0 ∧ s.batch = [] ∧ (events.map Event.client).Nodup ∧
              ∀ e ∈ events, e.client ∈ s.armed then
            some { s with
              batch := events
              armed := if oneshot then s.armed.filter (· ∉ events.map Event.client)
                else s.armed }
          else none
      | _ => none
  | .next =>
      match s.books.tasks .main, s.batch with
      | .idle, e :: rest =>
          some { s.put .main (.holding e.client) with batch := rest, handled := some e }
      | _, _ => none
  | .closeEvent =>
      match s.books.tasks .main, s.handled with
      | .holding c, some e =>
          if e.error then some { s with books := s.books.enterClose .main c } else none
      | _, _ => none
  | .delClient =>
      match s.books.tasks .main, s.handled with
      | .holding c, some e =>
          if e.error = false ∧ e.input then
            some { s with
              handled := none
              armed := if oneshot then s.armed else s.armed.filter (· != c) }
          else none
      | _, _ => none
  | .skipEvent =>
      match s.books.tasks .main, s.handled with
      | .holding _, some e =>
          if e.error = false ∧ e.input = false then
            some { s.put .main .idle with handled := none }
          else none
      | _, _ => none
  | .putReceiveQueue =>
      match s.books.tasks .main, s.handled with
      | .holding c, none =>
          -- `EnQueue` waits while the queue is full.
          if s.receiveQueue.length < QSIZE then
            some { s.put .main .idle with receiveQueue := s.receiveQueue ++ [c] }
          else none
      | _, _ => none
  | .getReceiveQueue r =>
      match s.books.tasks (.receiver r), s.receiveQueue with
      | .idle, c :: rest =>
          some { (s.put (.receiver r) (.holding c)).stage r .fetched with
            receiveQueue := rest }
      | _, _ => none
  | .fillFromSocket r fill =>
      match s.books.tasks (.receiver r), s.stages r, fill with
      | .holding c, .fetched, .userClose =>
          some { s with books := s.books.enterClose (.receiver r) c }
      | .holding _, .fetched, .nothing => some (s.stage r .empty)
      | .holding _, .fetched, .received => some (s.stage r .filled)
      | _, _, _ => none
  | .executeCommand r =>
      match s.books.tasks (.receiver r), s.stages r with
      | .holding _, .filled => some s
      | _, _ => none
  | .rearm r succeeds =>
      match s.books.tasks (.receiver r), s.stages r with
      | .holding _, .fetched => none
      | .holding c, _ =>
          -- `AddEPoll` and `UpdateEPoll` ignore a failure.
          some { s.put (.receiver r) .idle with
            armed := if succeeds then c :: s.armed else s.armed }
      | _, _ => none
  | .unhook t =>
      match s.books.tasks t with
      | .closing c =>
          some { s.put t (.unhooked c) with
            armed := s.armed.filter (· != c)
            handled := if t = .main then none else s.handled }
      | _ => none
  | .unlist t => (Connections.step maxUser s.books (.unlist t)).map ({ s with books := · })
  | .uncount t => (Connections.step maxUser s.books (.uncount t)).map ({ s with books := · })

/-- The client the step works on. -/
def Label.client (s : State R) : Label R → Option Client
  | .test | .acceptUser | .registerManager | .poll _ => none
  | .list t | .addClient t _ | .unhook t | .unlist t | .uncount t => (s.books.tasks t).client
  | .next => s.batch.head?.map Event.client
  | .closeEvent | .delClient | .skipEvent | .putReceiveQueue => (s.books.tasks .main).client
  | .getReceiveQueue _ => s.receiveQueue.head?
  | .fillFromSocket r _ | .executeCommand r | .rearm r _ => (s.books.tasks (.receiver r)).client

/-- The client the step calls `CloseClient` for. -/
def Label.closes (s : State R) : Label R → Option Client
  | .addClient t false => (s.books.tasks t).client
  | .closeEvent => (s.books.tasks .main).client
  | .fillFromSocket r .userClose => (s.books.tasks (.receiver r)).client
  | _ => none

/-! ### Where the clients are -/

/-- Who has which client. -/
def State.holding (s : State R) : Handover.Holding (Thread R) Client :=
  ⟨fun t => (s.books.tasks t).client, s.armed, s.batch.map Event.client,
    s.handled.map Event.client, s.receiveQueue⟩

/-- The client is with the thread, armed or reported, or queued. -/
def State.At (s : State R) : Handover.Place (Thread R) → Client → Prop := s.holding.At .main

/-- The client has been deleted. -/
def State.Deleted (s : State R) (c : Client) : Prop := c ∈ s.books.deleted

/-- The main loop may be at a client that it has not yet taken from epoll. -/
def handles : Task → Bool
  | .holding _ | .closing _ => true
  | _ => false

/-- Every client is at one place at most. The main loop handles an event until it has
taken the client from epoll. -/
structure Inv (oneshot : Bool) (s : State R) : Prop where
  handover : Handover.Inv .main oneshot s.holding s.Deleted s.books.Born
  handled : ∀ e, s.handled = some e → handles (s.books.tasks .main) = true

/-! ### What each step preserves -/

variable {s s' : State R} {t i : Thread R} {c d : Client} {old task : Task} {e : Event}
  {oneshot : Bool} {books : Connections.State R}

omit [DecidableEq R] in
theorem inv_start (managers : Nat) : Inv oneshot (start managers : State R) where
  handover := Handover.inv_start fun _ hdeleted => by cases hdeleted
  handled := nofun

/-- What the threads work on after one has gone on. -/
theorem State.client_put (s : State R) (t : Thread R) (task : Task) :
    (fun i => (Function.update s.books.tasks t task i).client)
      = Function.update s.holding.work t task.client :=
  Function.comp_update Task.client s.books.tasks t task

theorem client_update (htasks : books.tasks = Function.update s.books.tasks t task) :
    (fun i => (books.tasks i).client) = Function.update s.holding.work t task.client := by
  rw [htasks]
  exact s.client_put t task

omit [DecidableEq R] in
/-- The main loop handles no event while it accepts, and once it has taken the client
from epoll. -/
theorem Inv.handled_eq_none (h : Inv oneshot s) (htask : s.books.tasks t = task)
    (hfree : t = .main → handles task = false) : t = .main → s.handled = none := by
  rintro rfl
  cases hhandled : s.handled with
  | none => rfl
  | some e =>
      have hhandles := h.handled e hhandled
      rw [htask, hfree rfl] at hhandles
      cases hhandles

omit [DecidableEq R] in
/-- A thread that works on a client, but not on a reported one, holds it. -/
theorem State.holds (htask : s.books.tasks t = task) (hclient : task.client = some c)
    (hmain : t = .main → s.handled = none) : s.holding.Holds .main t c := by
  refine ⟨?_, fun ht => congrArg (Option.map Event.client) (hmain ht)⟩
  show (s.books.tasks t).client = some c
  rw [htask, hclient]

omit [DecidableEq R] in
/-- The client a step works on has not been deleted. -/
theorem Inv.client_live (h : Inv oneshot s) {label : Label R} (hclient : label.client s = some c) :
    ¬ s.Deleted c := by
  cases label with
  | test | acceptUser | registerManager | poll events => cases hclient
  | next =>
      obtain ⟨e, he, rfl⟩ := Option.map_eq_some_iff.mp hclient
      have hmem : e.client ∈ s.holding.batch := List.mem_map_of_mem (List.mem_of_mem_head? he)
      exact h.handover.custody.live (p := .watched) (.inr (List.mem_append_right _ hmem))
  | getReceiveQueue r =>
      exact h.handover.custody.live (p := .queued) (List.mem_of_mem_head? hclient)
  | _ => exact h.handover.live_of_work hclient

/-- A thread that goes on leaves the main loop with the event it handles. -/
theorem Inv.handled_put (h : Inv oneshot s) (hmain : t = .main → s.handled = none)
    (htasks : books.tasks = Function.update s.books.tasks t task) (hhandled : s.handled = some e) :
    handles (books.tasks .main) = true := by
  have ht : Thread.main ≠ t := by
    rintro rfl
    cases hhandled.symm.trans (hmain rfl)
  rw [htasks, Function.update_of_ne ht]
  exact h.handled e hhandled

/-- A thread goes on with the client it has, or without one. -/
theorem Inv.goesOn (h : Inv oneshot s) (htask : s.books.tasks t = old)
    (hmain : t = .main → s.handled = none)
    (htasks : books.tasks = Function.update s.books.tasks t task)
    (hdeleted : books.deleted = s.books.deleted) (hborn : books.Born = s.books.Born)
    (hclient : ∀ d, task.client = some d → old.client = some d) :
    Inv oneshot { s with books := books } where
  handover := by
    show Handover.Inv Thread.main oneshot _ (· ∈ books.deleted) books.Born
    rw [hdeleted, hborn]
    exact h.handover.goesOn (client_update htasks)
      (fun d hd => State.holds htask (hclient d hd) hmain)
      fun ht => congrArg (Option.map Event.client) (hmain ht)
  handled _ he := h.handled_put hmain htasks he

/-- A client is created. -/
theorem Inv.accept (h : Inv oneshot s) (toRegister : Nat) (hmain : t = .main → s.handled = none)
    (htasks : books.tasks = Function.update s.books.tasks t (.counted c))
    (hdeleted : books.deleted = s.books.deleted) (hnew : ¬ s.books.Born c)
    (hborn : ∀ d, s.books.Born d ∨ d = c → books.Born d) :
    Inv oneshot { s with books := books, toRegister := toRegister } where
  handover := by
    show Handover.Inv Thread.main oneshot _ (· ∈ books.deleted) books.Born
    rw [hdeleted]
    exact h.handover.create (client_update htasks) hnew hborn
      fun ht => congrArg (Option.map Event.client) (hmain ht)
  handled _ he := h.handled_put hmain htasks he

/-- A thread gives its client to epoll. -/
theorem Inv.arm (h : Inv oneshot s) (htask : s.books.tasks t = old) (hold : old.client = some c)
    (hmain : t = .main → s.handled = none)
    (htasks : books.tasks = Function.update s.books.tasks t .idle)
    (hdeleted : books.deleted = s.books.deleted) (hborn : books.Born = s.books.Born) :
    Inv oneshot { s with books := books, armed := c :: s.armed } where
  handover := by
    show Handover.Inv Thread.main oneshot _ (· ∈ books.deleted) books.Born
    rw [hdeleted, hborn]
    exact h.handover.arm (State.holds htask hold hmain) (client_update htasks)
  handled _ he := h.handled_put hmain htasks he

omit [DecidableEq R] in
/-- Epoll reports armed clients. -/
theorem Inv.poll (h : Inv oneshot s) {events : List Event} (hmain : s.handled = none)
    (hnodup : (events.map Event.client).Nodup) (harmed : ∀ e ∈ events, e.client ∈ s.armed)
    {armed : List Client} (hsub : armed ⊆ s.armed)
    (hdisarmed : oneshot = true → ∀ c ∈ events.map Event.client, c ∉ armed) :
    Inv oneshot { s with batch := events, armed := armed } where
  handover := by
    refine h.handover.report (congrArg (Option.map Event.client) hmain) hnodup ?_ hsub hdisarmed
    intro c hc
    obtain ⟨e, he, rfl⟩ := List.mem_map.mp hc
    exact harmed e he
  handled := h.handled

/-- The main loop goes on to the next event. -/
theorem Inv.next (h : Inv oneshot s) {rest : List Event} (hmain : s.handled = none)
    (hbatch : s.batch = e :: rest) :
    Inv oneshot { s.put .main (.holding e.client) with batch := rest, handled := some e } where
  handover := h.handover.next (congrArg (Option.map Event.client) hmain)
    (congrArg (List.map Event.client) hbatch) (s.client_put .main (.holding e.client))
  handled _ _ := by
    show handles (Function.update s.books.tasks .main (.holding e.client) .main) = true
    rw [Function.update_self]
    rfl

/-- The main loop closes the client of an event. -/
theorem Inv.closeEvent (h : Inv oneshot s) (hmain : s.books.tasks .main = .holding c) :
    Inv oneshot { s with books := s.books.enterClose .main c } where
  handover := by
    have hsame : State.holding { s with books := s.books.enterClose .main c } = s.holding := by
      have hwork : s.holding.work .main = (Task.closing c).client := by
        show (s.books.tasks .main).client = _
        rw [hmain]
        rfl
      have hput := s.client_put .main (.closing c)
      rw [← hwork, Function.update_eq_self] at hput
      rw [State.holding]
      exact congrArg (Handover.Holding.mk · _ _ _ _) hput
    rw [hsame]
    exact h.handover
  handled _ _ := by
    show handles (Function.update s.books.tasks .main (.closing c) .main) = true
    rw [Function.update_self]
    rfl

omit [DecidableEq R] in
/-- The main loop has taken the client of an event from epoll. -/
theorem Inv.delClient (h : Inv oneshot s) (hclient : (s.books.tasks .main).client = some c)
    (hhandled : s.handled = some e) {armed : List Client} (hsub : armed ⊆ s.armed)
    (hgone : c ∉ armed) : Inv oneshot { s with handled := none, armed := armed } where
  handover := by
    have hevent : s.holding.handled = some e.client :=
      congrArg (Option.map Event.client) hhandled
    cases hclient.symm.trans (h.handover.handled _ hevent)
    exact h.handover.withdraw hevent hsub hgone
  handled := nofun

/-- The main loop has nothing to do for an event. -/
theorem Inv.skipEvent (h : Inv oneshot s) :
    Inv oneshot { s.put .main .idle with handled := none } where
  handover := h.handover.skip (s.client_put .main .idle)
  handled := nofun

/-- The main loop puts its client on the queue. -/
theorem Inv.putReceiveQueue (h : Inv oneshot s) (hmain : s.books.tasks .main = .holding c)
    (hhandled : s.handled = none) :
    Inv oneshot { s.put .main .idle with receiveQueue := s.receiveQueue ++ [c] } where
  handover := h.handover.enqueue (State.holds hmain rfl fun _ => hhandled)
    (s.client_put .main .idle)
  handled e he := by cases hhandled.symm.trans he

/-- A receiver takes the front of the queue. -/
theorem Inv.getReceiveQueue (h : Inv oneshot s) {r : R} {rest : List Client}
    (hqueue : s.receiveQueue = c :: rest) :
    Inv oneshot { (s.put (.receiver r) (.holding c)).stage r .fetched with
      receiveQueue := rest } where
  handover := h.handover.dequeue (t := .receiver r) hqueue nofun
    (s.client_put (.receiver r) (.holding c))
  handled _ he := h.handled_put (t := .receiver r) nofun rfl he

/-- In `CloseClient`, a thread has taken its client from epoll. -/
theorem Inv.unhook (h : Inv oneshot s) (htask : s.books.tasks t = .closing c) :
    Inv oneshot { s.put t (.unhooked c) with
      armed := s.armed.filter (· != c)
      handled := if t = .main then none else s.handled } := by
  have hsub : s.armed.filter (· != c) ⊆ s.armed := List.filter_subset_self _
  have hdisarmed : Inv oneshot { s with armed := s.armed.filter (· != c) } :=
    ⟨h.handover.disarm hsub, h.handled⟩
  by_cases ht : t = .main
  · -- It is the client of the event the main loop handles, if it handles one.
    subst ht
    have hwithdrawn : Inv oneshot { s with handled := none, armed := s.armed.filter (· != c) } := by
      cases hhandled : s.handled with
      | none => exact hhandled ▸ hdisarmed
      | some e =>
          have hgone : c ∉ s.armed.filter (· != c) := by simp
          exact h.delClient (by rw [htask]; rfl) hhandled hsub hgone
    exact hwithdrawn.goesOn htask (fun _ => rfl) rfl rfl rfl fun _ hd => hd
  · rw [if_neg ht]
    exact hdisarmed.goesOn htask (fun hmain => absurd hmain ht) rfl rfl rfl fun _ hd => hd

/-- In `CloseClient`, a thread has deleted its client. -/
theorem Inv.unlist (h : Inv oneshot s) (htask : s.books.tasks t = .unhooked c)
    (htasks : books.tasks = Function.update s.books.tasks t (.unlisted c))
    (hdeleted : books.deleted = c :: s.books.deleted) (hborn : books.Born = s.books.Born) :
    Inv oneshot { s with books := books } where
  handover := by
    have hholds := State.holds htask rfl (h.handled_eq_none htask fun _ => rfl)
    show Handover.Inv Thread.main oneshot _ (· ∈ books.deleted) books.Born
    rw [hborn]
    refine h.handover.destroy hholds (client_update htasks) ?_
    intro d hd
    rw [hdeleted] at hd
    exact (List.mem_cons.mp hd).symm
  handled _ he := h.handled_put (h.handled_eq_none htask fun _ => rfl) htasks he

/-- **Every step hands a client from one place to another**, or creates or deletes one. -/
theorem Inv.step {maxUser : Int} {label : Label R} (h : Inv oneshot s)
    (hstep : step oneshot maxUser s label = some s') : Inv oneshot s' := by
  cases label with
  | test =>
      obtain ⟨books, hbooks, rfl⟩ := Option.map_eq_some_iff.mp hstep
      cases Connections.steps_of_step hbooks with
      | full _ _ => exact h
      | test htask _ =>
          have hmain := h.handled_eq_none htask fun _ => rfl
          exact h.goesOn htask hmain rfl rfl rfl fun _ hd => by cases hd
  | acceptUser =>
      obtain ⟨books, hbooks, rfl⟩ := Option.map_eq_some_iff.mp hstep
      cases Connections.steps_of_step hbooks with
      | acceptUser htask =>
          have hmain := h.handled_eq_none htask fun ht => by cases ht
          refine h.accept s.toRegister hmain rfl rfl (Nat.lt_irrefl s.books.users) ?_
          rintro (n | k) (hd | hd)
          · exact Nat.lt_succ_of_lt hd
          · cases hd
            exact Nat.lt_succ_self _
          · exact hd
          · cases hd
  | registerManager =>
      simp only [Ownership.step] at hstep
      split at hstep
      · cases hstep
      · obtain ⟨books, hbooks, rfl⟩ := Option.map_eq_some_iff.mp hstep
        cases Connections.steps_of_step hbooks with
        | acceptManager htask =>
            have hmain := h.handled_eq_none htask fun _ => rfl
            refine h.accept (s.toRegister - 1) hmain rfl rfl (Nat.lt_irrefl _) ?_
            rintro (n | k) (hd | hd)
            · exact hd
            · cases hd
            · exact Nat.lt_succ_of_lt hd
            · cases hd
              exact Nat.lt_succ_self _
  | list t =>
      obtain ⟨books, hbooks, rfl⟩ := Option.map_eq_some_iff.mp hstep
      cases Connections.steps_of_step hbooks with
      | list htask =>
          exact h.goesOn htask (h.handled_eq_none htask fun _ => rfl) rfl rfl rfl fun _ hd => hd
  | addClient t succeeds =>
      simp only [Ownership.step] at hstep
      split at hstep
      · next hlisted =>
          have hmain := h.handled_eq_none hlisted fun _ => rfl
          obtain ⟨books, hbooks, rfl⟩ := Option.map_eq_some_iff.mp hstep
          cases Connections.steps_of_step hbooks with
          | offer htask =>
              cases hlisted.symm.trans htask
              exact h.arm htask rfl hmain rfl rfl rfl
          | reject htask => exact h.goesOn htask hmain rfl rfl rfl fun _ hd => hd
      · cases hstep
  | poll events =>
      simp only [Ownership.step] at hstep
      split at hstep
      · next htask =>
          split at hstep <;> cases hstep
          next hguard =>
            obtain ⟨-, -, hnodup, harmed⟩ := hguard
            refine h.poll (h.handled_eq_none htask (fun _ => rfl) rfl) hnodup harmed ?_ ?_
            · cases oneshot with
              | true => exact List.filter_subset_self _
              | false => exact List.Subset.refl _
            · rintro rfl d hd hmem
              exact absurd hd (of_decide_eq_true (List.mem_filter.mp hmem).2)
      · cases hstep
  | next =>
      simp only [Ownership.step] at hstep
      split at hstep <;> cases hstep
      next htask hbatch => exact h.next (h.handled_eq_none htask (fun _ => rfl) rfl) hbatch
  | closeEvent =>
      simp only [Ownership.step] at hstep
      split at hstep
      · next htask hhandled =>
          split at hstep <;> cases hstep
          exact h.closeEvent htask
      · cases hstep
  | delClient =>
      simp only [Ownership.step] at hstep
      split at hstep
      · next c e htask hhandled =>
          split at hstep <;> cases hstep
          have hclient : (s.books.tasks .main).client = some c := by
            rw [htask]
            rfl
          have hreported : c ∈ s.holding.reported := by
            have hevent : s.holding.handled = some e.client :=
              congrArg (Option.map Event.client) hhandled
            cases hclient.symm.trans (h.handover.handled _ hevent)
            rw [Handover.Holding.reported, hevent]
            exact List.mem_cons_self
          cases oneshot with
          | true =>
              exact h.delClient hclient hhandled (List.Subset.refl _)
                (h.handover.disarmed rfl c hreported)
          | false => exact h.delClient hclient hhandled (List.filter_subset_self _) (by simp)
      · cases hstep
  | skipEvent =>
      simp only [Ownership.step] at hstep
      split at hstep
      · split at hstep <;> cases hstep
        exact h.skipEvent
      · cases hstep
  | putReceiveQueue =>
      simp only [Ownership.step] at hstep
      split at hstep
      · next htask hhandled =>
          split at hstep <;> cases hstep
          exact h.putReceiveQueue htask hhandled
      · cases hstep
  | getReceiveQueue r =>
      simp only [Ownership.step] at hstep
      split at hstep <;> cases hstep
      next htask hqueue => exact h.getReceiveQueue hqueue
  | fillFromSocket r fill =>
      simp only [Ownership.step] at hstep
      split at hstep <;> cases hstep
      · next htask _ =>
          have hmain := h.handled_eq_none htask fun ht => by cases ht
          exact h.goesOn htask hmain rfl rfl rfl fun _ hd => hd
      · exact ⟨h.handover, h.handled⟩
      · exact ⟨h.handover, h.handled⟩
  | executeCommand r =>
      simp only [Ownership.step] at hstep
      split at hstep <;> cases hstep
      exact h
  | rearm r succeeds =>
      simp only [Ownership.step] at hstep
      split at hstep <;> cases hstep
      next c htask _ =>
        have hmain := h.handled_eq_none htask fun ht => by cases ht
        cases succeeds with
        | true => exact h.arm htask rfl hmain rfl rfl rfl
        | false => exact h.goesOn htask hmain rfl rfl rfl fun _ hd => by cases hd
  | unhook t =>
      simp only [Ownership.step] at hstep
      split at hstep <;> cases hstep
      next htask => exact h.unhook htask
  | unlist t =>
      obtain ⟨books, hbooks, rfl⟩ := Option.map_eq_some_iff.mp hstep
      cases Connections.steps_of_step hbooks with
      | unlist htask => exact h.unlist htask rfl rfl rfl
  | uncount t =>
      obtain ⟨books, hbooks, rfl⟩ := Option.map_eq_some_iff.mp hstep
      cases Connections.steps_of_step hbooks with
      | uncount htask =>
          have hmain := h.handled_eq_none htask fun _ => rfl
          exact h.goesOn htask hmain rfl rfl rfl fun _ hd => by cases hd

/-! ### Every run -/

theorem inv_of_reaches {managers : Nat} {maxUser : Int}
    (h : Reaches (step oneshot maxUser) (fun _ _ => True) (start managers) s) :
    Inv oneshot s := by
  induction h with
  | refl => exact inv_start managers
  | tail label _ _ hstep ih => exact ih.step hstep

/-- **Client ownership.** In every run of the acceptor, the main loop and the receivers,
with and without `EPOLLONESHOT`: a client is with one thread that accepts, enqueues,
executes or closes it, or armed or reported by epoll, or in the receive queue, and there
once; and no step works on a client that has been deleted. -/
theorem owned {managers : Nat} {maxUser : Int}
    (h : Reaches (step oneshot maxUser) (fun _ _ => True) (start managers) s) :
    (∀ c p q, s.At p c → s.At q c → p = q) ∧ s.receiveQueue.Nodup ∧
      ∀ (label : Label R) c, label.client s = some c → ¬ s.Deleted c := by
  have hinv := inv_of_reaches h
  refine ⟨fun c p q hp hq => hinv.handover.custody.exclusive hp hq,
    hinv.handover.queueNodup, ?_⟩
  exact fun label c hclient => hinv.client_live hclient

/-- A user is accepted, reported, received and closed, and epoll reports nothing more. -/
theorem owned_after_close :
    ∃ s : State Unit,
      run (step false 3) (start 0) [.test, .acceptUser, .list .acceptor,
        .addClient .acceptor true, .poll [⟨.user 0, false, true⟩], .next, .delClient,
        .putReceiveQueue, .getReceiveQueue (), .fillFromSocket () .userClose,
        .unhook (.receiver ()), .unlist (.receiver ())] = some s ∧
      s.Deleted (.user 0) ∧ s.receiveQueue.Nodup ∧
      ∀ (label : Label Unit) c, label.client s = some c → ¬ s.Deleted c := by
  have hreaches : Reaches (step false 3) (fun _ _ => True) (start 0 : State Unit) _ :=
    reaches_of_run [.test, .acceptUser, .list .acceptor, .addClient .acceptor true,
      .poll [⟨.user 0, false, true⟩], .next, .delClient, .putReceiveQueue, .getReceiveQueue (),
      .fillFromSocket () .userClose, .unhook (.receiver ()), .unlist (.receiver ())]
      (fun _ _ _ => trivial) rfl
  exact ⟨_, rfl, List.mem_cons_self, (owned hreaches).2⟩

end ThunderChat.Ownership

import ThunderChat.CircularQueue
import ThunderChat.Client.Basic
import ThunderChat.Foundation.Handover
import ThunderChat.Server.ManagerConnections

/-!
The clients of `ChatManager` between the event loop and the workers.

The loop takes the reported events one by one. In the epoll builds it closes the client
of an event with an error, or else passes a readable one to the workers. In the kqueue
build the two tests are independent: with an error it closes the client, and then, if
the event is also readable, passes the deleted client on.

* `safe_of_reaches`: no step works on a client that `CloseClient` has deleted, in every
  run in which no kqueue event has both.
* `deleted_client_queued`: such an event puts a deleted client on `m_pWorkQueue`.

A step works on the client of its event, or on the one its worker has. The walk over the
other listed clients in `MessageBroadcast` is not followed here, but in `ManagerRelay`.
-/

namespace ThunderChat.ManagerOwnership

open Transition
open ManagerConnections (Thread Task)

/-- With epoll, with and without `EPOLLONESHOT`, or with the kqueue (`_FREEBSD`), whose
events are one-shot. -/
inductive Build where
  | epoll (oneshot : Bool)
  | kqueue
  deriving DecidableEq, Repr

/-- A report disarms the client. -/
def Build.oneshot : Build → Bool
  | .epoll oneshot => oneshot
  | .kqueue => true

/-- A reported event: an error (`EPOLLERR`, `EPOLLHUP`, `EV_ERROR`), and the read filter
(`EPOLLIN`, `EVFILT_READ`). -/
structure Event where
  client : Nat
  error : Bool
  input : Bool
  deriving DecidableEq, Repr

/-- The accounts, the clients armed at the `IOMP`, the rest of the batch, the event whose
client the loop has not yet taken from the `IOMP`, the event the kqueue loop goes on with
after `CloseClient`, the work queue, and the workers. -/
structure State (W : Type) where
  books : ManagerConnections.State W
  armed : List Nat
  batch : List Event
  handled : Option Event
  resumes : Option Event
  workQueue : List Nat
  stages : W → Stage

/-- One step of a thread. -/
inductive Label (W : Type) where
  | test
  | addClient (succeeds : Bool)
  | list
  | count
  | poll (events : List Event)
  | next
  | closeEvent
  | readEvent
  | skipEvent
  | resume
  | putWorkQueue
  | getWorkQueue (w : W)
  | fillFromSocket (w : W) (fill : Fill)
  | executeCommand (w : W)
  | rearm (w : W) (succeeds : Bool)
  | unhook (t : Thread W)
  | unlist (t : Thread W)
  | destroy (t : Thread W)
  | uncount (t : Thread W)

variable {W : Type} [DecidableEq W]

/-- No client has been accepted. -/
def start : State W := ⟨ManagerConnections.start, [], [], none, none, [], fun _ => .fetched⟩

/-- The thread goes on to another task. -/
def State.put (s : State W) (t : Thread W) (task : Task) : State W :=
  { s with books := s.books.put t task }

/-- The worker goes on to another stage. -/
def State.stage (s : State W) (w : W) (stage : Stage) : State W :=
  { s with stages := Function.update s.stages w stage }

/-- What a label does. The `IOMP` reports a client at most once in a batch, and only while
it is armed; a client that could not be registered is one that is never reported. -/
def step (build : Build) (maxUser : Int) (s : State W) : Label W → Option (State W)
  | .test =>
      if s.resumes = none then
        (ManagerConnections.step maxUser s.books .test).map ({ s with books := · })
      else none
  | .addClient succeeds =>
      (ManagerConnections.step maxUser s.books (.offer succeeds)).map ({ s with books := · })
  | .list => (ManagerConnections.step maxUser s.books .list).map ({ s with books := · })
  | .count =>
      match s.books.tasks .loop with
      | .listed c =>
          -- Armed since `AddClient`; the loop polls again after this.
          (ManagerConnections.step maxUser s.books .count).map
            ({ s with books := ·, armed := c :: s.armed })
      | _ => none
  | .poll events =>
      match s.books.tasks .loop, s.resumes with
      | .idle, none =>
          if s.batch = [] ∧ (events.map Event.client).Nodup ∧
              ∀ e ∈ events, e.client ∈ s.armed then
            some { s with
              batch := events
              armed := if build.oneshot then s.armed.filter (· ∉ events.map Event.client)
                else s.armed }
          else none
      | _, _ => none
  | .next =>
      match s.books.tasks .loop, s.resumes, s.batch with
      | .idle, none, e :: rest =>
          some { s.put .loop (.holding e.client) with batch := rest, handled := some e }
      | _, _, _ => none
  | .closeEvent =>
      match s.books.tasks .loop, s.handled with
      | .holding c, some e =>
          if e.error then
            some { s with
              books := s.books.enterClose .loop c
              resumes := if build = .kqueue then some e else none }
          else none
      | _, _ => none
  | .readEvent =>
      match s.books.tasks .loop, s.handled with
      | .holding c, some e =>
          if e.error = false ∧ e.input then
            some { s with
              handled := none
              armed := if build.oneshot then s.armed else s.armed.filter (· != c) }
          else none
      | _, _ => none
  | .skipEvent =>
      match s.books.tasks .loop, s.handled with
      | .holding _, some e =>
          if e.error = false ∧ e.input = false then
            some { s.put .loop .idle with handled := none }
          else none
      | _, _ => none
  | .resume =>
      match s.books.tasks .loop, s.resumes with
      | .idle, some e =>
          -- The kqueue loop has no `else` here: it reads the client it has closed.
          if e.input then some { s.put .loop (.holding e.client) with resumes := none }
          else some { s with resumes := none }
      | _, _ => none
  | .putWorkQueue =>
      match s.books.tasks .loop, s.handled with
      | .holding c, none =>
          if s.workQueue.length < QSIZE then
            some { s.put .loop .idle with workQueue := s.workQueue ++ [c] }
          else none
      | _, _ => none
  | .getWorkQueue w =>
      match s.books.tasks (.worker w), s.workQueue with
      | .idle, c :: rest =>
          some { (s.put (.worker w) (.holding c)).stage w .fetched with workQueue := rest }
      | _, _ => none
  | .fillFromSocket w fill =>
      match s.books.tasks (.worker w), s.stages w, fill with
      | .holding c, .fetched, .userClose =>
          some { s with books := s.books.enterClose (.worker w) c }
      | .holding _, .fetched, .nothing => some (s.stage w .empty)
      | .holding _, .fetched, .received => some (s.stage w .filled)
      | _, _, _ => none
  | .executeCommand w =>
      match s.books.tasks (.worker w), s.stages w with
      | .holding _, .filled => some s
      | _, _ => none
  | .rearm w succeeds =>
      match s.books.tasks (.worker w), s.stages w with
      | .holding _, .fetched => none
      | .holding c, _ =>
          some { s.put (.worker w) .idle with
            armed := if succeeds then c :: s.armed else s.armed }
      | _, _ => none
  | .unhook t =>
      match s.books.tasks t with
      | .closing c =>
          some { s.put t (.unhooked c) with
            armed := s.armed.filter (· != c)
            handled := if t = .loop then none else s.handled }
      | _ => none
  | .unlist t => (ManagerConnections.step maxUser s.books (.unlist t)).map ({ s with books := · })
  | .destroy t =>
      (ManagerConnections.step maxUser s.books (.destroy t)).map ({ s with books := · })
  | .uncount t =>
      (ManagerConnections.step maxUser s.books (.uncount t)).map ({ s with books := · })

/-- The client the step works on. -/
def Label.client (s : State W) : Label W → Option Nat
  | .test | .poll _ => none
  | .addClient _ | .list | .count | .closeEvent | .readEvent | .skipEvent | .putWorkQueue =>
      (s.books.tasks .loop).client
  | .next => s.batch.head?.map Event.client
  | .resume => (s.resumes.filter Event.input).map Event.client
  | .getWorkQueue _ => s.workQueue.head?
  | .fillFromSocket w _ | .executeCommand w | .rearm w _ => (s.books.tasks (.worker w)).client
  | .unhook t | .unlist t | .destroy t | .uncount t => (s.books.tasks t).client

/-- No event of the kqueue has both an error and the read filter. -/
def Separate (build : Build) : Label W → Prop
  | .poll events => build = .kqueue → ∀ e ∈ events, e.error = true → e.input = false
  | _ => True

/-! ### Where the clients are -/

/-- Who has which client. -/
def State.holding (s : State W) : Handover.Holding (Thread W) Nat :=
  ⟨fun t => (s.books.tasks t).client, s.armed, s.batch.map Event.client,
    s.handled.map Event.client, s.workQueue⟩

/-- `CloseClient` has deleted the client. -/
def State.Deleted (s : State W) (c : Nat) : Prop := c ∈ s.books.deleted

/-- The client has been created. -/
def State.Born (s : State W) (c : Nat) : Prop := c < s.books.created

/-- The loop may be at a client that it has not yet taken from the `IOMP`. -/
def handles : Task → Bool
  | .holding _ | .closing _ => true
  | _ => false

/-- Every client is at one place at most. The loop handles an event until it has taken
the client from the `IOMP`, and it goes on with no readable one after `CloseClient`. -/
structure Inv (build : Build) (s : State W) : Prop where
  handover : Handover.Inv .loop build.oneshot s.holding s.Deleted s.Born
  handled : ∀ e, s.handled = some e → handles (s.books.tasks .loop) = true
  separate : build = .kqueue → ∀ e ∈ s.handled.toList ++ s.batch, e.error = true → e.input = false
  resumes : ∀ e, s.resumes = some e → e.input = false

/-! ### What each step preserves -/

variable {s s' : State W} {t : Thread W} {c : Nat} {old task : Task} {e : Event}
  {build : Build} {books : ManagerConnections.State W} {maxUser : Int}

omit [DecidableEq W] in
theorem inv_start : Inv build (start : State W) where
  handover := Handover.inv_start fun _ hdeleted => by cases hdeleted
  handled := nofun
  separate _ := nofun
  resumes := nofun

/-- What the threads work on after one has gone on. -/
theorem State.client_put (s : State W) (t : Thread W) (task : Task) :
    (fun i => (Function.update s.books.tasks t task i).client)
      = Function.update s.holding.work t task.client :=
  Function.comp_update Task.client s.books.tasks t task

theorem client_update (htasks : books.tasks = Function.update s.books.tasks t task) :
    (fun i => (books.tasks i).client) = Function.update s.holding.work t task.client := by
  rw [htasks]
  exact s.client_put t task

omit [DecidableEq W] in
/-- The loop handles no event while it accepts, and once it has taken the client from the
`IOMP`. -/
theorem Inv.handled_eq_none (h : Inv build s) (htask : s.books.tasks t = task)
    (hfree : t = .loop → handles task = false) : t = .loop → s.handled = none := by
  rintro rfl
  cases hhandled : s.handled with
  | none => rfl
  | some e =>
      have hhandles := h.handled e hhandled
      rw [htask, hfree rfl] at hhandles
      cases hhandles

omit [DecidableEq W] in
/-- A thread that works on a client, but not on a reported one, holds it. -/
theorem State.holds (htask : s.books.tasks t = task) (hclient : task.client = some c)
    (hloop : t = .loop → s.handled = none) : s.holding.Holds .loop t c := by
  refine ⟨?_, fun ht => congrArg (Option.map Event.client) (hloop ht)⟩
  show (s.books.tasks t).client = some c
  rw [htask, hclient]

omit [DecidableEq W] in
/-- The client a step works on has not been deleted. -/
theorem Inv.client_live (h : Inv build s) {label : Label W} (hclient : label.client s = some c) :
    ¬ s.Deleted c := by
  cases label with
  | test | poll events => cases hclient
  | next =>
      obtain ⟨e, he, rfl⟩ := Option.map_eq_some_iff.mp hclient
      have hmem : e.client ∈ s.holding.batch := List.mem_map_of_mem (List.mem_of_mem_head? he)
      exact h.handover.custody.live (p := .watched) (.inr (List.mem_append_right _ hmem))
  | resume =>
      obtain ⟨e, he, -⟩ := Option.map_eq_some_iff.mp hclient
      obtain ⟨hresumes, hinput⟩ := Option.filter_eq_some_iff.mp he
      rw [h.resumes e hresumes] at hinput
      cases hinput
  | getWorkQueue w =>
      exact h.handover.custody.live (p := .queued) (List.mem_of_mem_head? hclient)
  | _ => exact h.handover.live_of_work hclient

/-- A thread that goes on leaves the loop with the event it handles. -/
theorem Inv.handled_put (h : Inv build s) (hloop : t = .loop → s.handled = none)
    (htasks : books.tasks = Function.update s.books.tasks t task) (hhandled : s.handled = some e) :
    handles (books.tasks .loop) = true := by
  have ht : Thread.loop ≠ t := by
    rintro rfl
    cases hhandled.symm.trans (hloop rfl)
  rw [htasks, Function.update_of_ne ht]
  exact h.handled e hhandled

/-- A thread goes on with the client it has, or without one. -/
theorem Inv.goesOn (h : Inv build s) (htask : s.books.tasks t = old)
    (hloop : t = .loop → s.handled = none)
    (htasks : books.tasks = Function.update s.books.tasks t task)
    (hdeleted : books.deleted = s.books.deleted) (hcreated : s.books.created ≤ books.created)
    (hclient : ∀ d, task.client = some d → old.client = some d) :
    Inv build { s with books := books } where
  handover := by
    show Handover.Inv Thread.loop build.oneshot _ (· ∈ books.deleted) _
    rw [hdeleted]
    have hgone := h.handover.goesOn (client_update htasks)
      (fun d hd => State.holds htask (hclient d hd) hloop)
      fun ht => congrArg (Option.map Event.client) (hloop ht)
    exact hgone.grow fun d hd => lt_of_lt_of_le hd hcreated
  handled _ he := h.handled_put hloop htasks he
  separate := h.separate
  resumes := h.resumes

/-- The loop creates a client and gives it to the `IOMP`. -/
theorem Inv.accept (h : Inv build s) (hloop : s.handled = none)
    (htasks : books.tasks = Function.update s.books.tasks .loop (.offered s.books.created))
    (hdeleted : books.deleted = s.books.deleted) (hcreated : books.created = s.books.created + 1) :
    Inv build { s with books := books } where
  handover := by
    show Handover.Inv Thread.loop build.oneshot _ (· ∈ books.deleted) (· < books.created)
    rw [hdeleted, hcreated]
    refine h.handover.create (client_update htasks) (Nat.lt_irrefl s.books.created) ?_
      fun _ => congrArg (Option.map Event.client) hloop
    rintro d (hd | rfl)
    · exact Nat.lt_succ_of_lt hd
    · exact Nat.lt_succ_self _
  handled _ he := h.handled_put (fun _ => hloop) htasks he
  separate := h.separate
  resumes := h.resumes

/-- A thread leaves its client to the `IOMP`. -/
theorem Inv.arm (h : Inv build s) (htask : s.books.tasks t = old) (hold : old.client = some c)
    (hloop : t = .loop → s.handled = none)
    (htasks : books.tasks = Function.update s.books.tasks t .idle)
    (hdeleted : books.deleted = s.books.deleted) (hcreated : books.created = s.books.created) :
    Inv build { s with books := books, armed := c :: s.armed } where
  handover := by
    show Handover.Inv Thread.loop build.oneshot _ (· ∈ books.deleted) (· < books.created)
    rw [hdeleted, hcreated]
    exact h.handover.arm (State.holds htask hold hloop) (client_update htasks)
  handled _ he := h.handled_put hloop htasks he
  separate := h.separate
  resumes := h.resumes

omit [DecidableEq W] in
/-- The `IOMP` reports armed clients. -/
theorem Inv.poll (h : Inv build s) {events : List Event} (hloop : s.handled = none)
    (hnodup : (events.map Event.client).Nodup) (harmed : ∀ e ∈ events, e.client ∈ s.armed)
    {armed : List Nat} (hsub : armed ⊆ s.armed)
    (hdisarmed : build.oneshot = true → ∀ c ∈ events.map Event.client, c ∉ armed)
    (hseparate : build = .kqueue → ∀ e ∈ events, e.error = true → e.input = false) :
    Inv build { s with batch := events, armed := armed } where
  handover := by
    refine h.handover.report (congrArg (Option.map Event.client) hloop) hnodup ?_ hsub hdisarmed
    intro c hc
    obtain ⟨e, he, rfl⟩ := List.mem_map.mp hc
    exact harmed e he
  handled := h.handled
  separate hkqueue e he := by
    rcases List.mem_append.mp he with he | he
    · exact h.separate hkqueue e (List.mem_append_left _ he)
    · exact hseparate hkqueue e he
  resumes := h.resumes

/-- The loop goes on to the next event. -/
theorem Inv.next (h : Inv build s) {rest : List Event} (hloop : s.handled = none)
    (hbatch : s.batch = e :: rest) :
    Inv build { s.put .loop (.holding e.client) with batch := rest, handled := some e } where
  handover := h.handover.next (congrArg (Option.map Event.client) hloop)
    (congrArg (List.map Event.client) hbatch) (s.client_put .loop (.holding e.client))
  handled _ _ := by
    show handles (Function.update s.books.tasks .loop (.holding e.client) .loop) = true
    rw [Function.update_self]
    rfl
  separate hkqueue e' he' := by
    refine h.separate hkqueue e' (List.mem_append_right _ ?_)
    rw [hbatch]
    exact he'
  resumes := h.resumes

/-- The loop closes the client of an event. -/
theorem Inv.closeEvent (h : Inv build s) (hloop : s.books.tasks .loop = .holding c)
    (hhandled : s.handled = some e) (herror : e.error = true) :
    Inv build { s with
      books := s.books.enterClose .loop c
      resumes := if build = .kqueue then some e else none } where
  handover := by
    have hwork : s.holding.work .loop = (Task.closing c).client := by
      show (s.books.tasks .loop).client = _
      rw [hloop]
      rfl
    have hput := s.client_put .loop (.closing c)
    rw [← hwork, Function.update_eq_self] at hput
    have hsame : State.holding { s with
        books := s.books.enterClose .loop c
        resumes := if build = .kqueue then some e else none } = s.holding :=
      congrArg (Handover.Holding.mk · _ _ _ _) hput
    rw [hsame]
    exact h.handover
  handled _ _ := by
    show handles (Function.update s.books.tasks .loop (.closing c) .loop) = true
    rw [Function.update_self]
    rfl
  separate := h.separate
  resumes := by
    intro e' he'
    by_cases hkqueue : build = .kqueue
    · rw [if_pos hkqueue] at he'
      cases he'
      refine h.separate hkqueue e (List.mem_append_left _ ?_) herror
      rw [hhandled]
      exact List.mem_singleton_self e
    · rw [if_neg hkqueue] at he'
      cases he'

omit [DecidableEq W] in
/-- The loop has taken the client of an event from the `IOMP`. -/
theorem Inv.withdraw (h : Inv build s) (hclient : (s.books.tasks .loop).client = some c)
    (hhandled : s.handled = some e) {armed : List Nat} (hsub : armed ⊆ s.armed)
    (hgone : c ∉ armed) : Inv build { s with handled := none, armed := armed } where
  handover := by
    have hevent : s.holding.handled = some e.client :=
      congrArg (Option.map Event.client) hhandled
    cases hclient.symm.trans (h.handover.handled _ hevent)
    exact h.handover.withdraw hevent hsub hgone
  handled := nofun
  separate hkqueue e' he' := h.separate hkqueue e' (List.mem_append_right _ he')
  resumes := h.resumes

/-- The loop has nothing to do for an event. -/
theorem Inv.skipEvent (h : Inv build s) :
    Inv build { s.put .loop .idle with handled := none } where
  handover := h.handover.skip (s.client_put .loop .idle)
  handled := nofun
  separate hkqueue e' he' := h.separate hkqueue e' (List.mem_append_right _ he')
  resumes := h.resumes

/-- The loop puts its client on the queue. -/
theorem Inv.putWorkQueue (h : Inv build s) (hloop : s.books.tasks .loop = .holding c)
    (hhandled : s.handled = none) :
    Inv build { s.put .loop .idle with workQueue := s.workQueue ++ [c] } where
  handover := h.handover.enqueue (State.holds hloop rfl fun _ => hhandled)
    (s.client_put .loop .idle)
  handled e he := by cases hhandled.symm.trans he
  separate := h.separate
  resumes := h.resumes

/-- A worker takes the front of the queue. -/
theorem Inv.getWorkQueue (h : Inv build s) {w : W} {rest : List Nat}
    (hqueue : s.workQueue = c :: rest) :
    Inv build { (s.put (.worker w) (.holding c)).stage w .fetched with workQueue := rest } where
  handover := h.handover.dequeue (t := .worker w) hqueue nofun
    (s.client_put (.worker w) (.holding c))
  handled _ he := h.handled_put (t := .worker w) nofun rfl he
  separate := h.separate
  resumes := h.resumes

/-- In `CloseClient`, a thread has taken its client from the `IOMP`. -/
theorem Inv.unhook (h : Inv build s) (htask : s.books.tasks t = .closing c) :
    Inv build { s.put t (.unhooked c) with
      armed := s.armed.filter (· != c)
      handled := if t = .loop then none else s.handled } := by
  have hsub : s.armed.filter (· != c) ⊆ s.armed := List.filter_subset_self _
  have hdisarmed : Inv build { s with armed := s.armed.filter (· != c) } :=
    ⟨h.handover.disarm hsub, h.handled, h.separate, h.resumes⟩
  by_cases ht : t = .loop
  · subst ht
    have hwithdrawn : Inv build { s with handled := none, armed := s.armed.filter (· != c) } := by
      cases hhandled : s.handled with
      | none => exact hhandled ▸ hdisarmed
      | some e =>
          have hgone : c ∉ s.armed.filter (· != c) := by simp
          exact h.withdraw (by rw [htask]; rfl) hhandled hsub hgone
    exact hwithdrawn.goesOn htask (fun _ => rfl) rfl rfl (Nat.le_refl _) fun _ hd => hd
  · rw [if_neg ht]
    exact hdisarmed.goesOn htask (fun hloop => absurd hloop ht) rfl rfl (Nat.le_refl _)
      fun _ hd => hd

/-- In `CloseClient`, a thread has deleted its client. -/
theorem Inv.destroy (h : Inv build s) (htask : s.books.tasks t = .unlisted c)
    (htasks : books.tasks = Function.update s.books.tasks t (.destroyed c))
    (hdeleted : books.deleted = c :: s.books.deleted) (hcreated : books.created = s.books.created) :
    Inv build { s with books := books } where
  handover := by
    have hholds := State.holds htask rfl (h.handled_eq_none htask fun _ => rfl)
    show Handover.Inv Thread.loop build.oneshot _ (· ∈ books.deleted) (· < books.created)
    rw [hcreated]
    refine h.handover.destroy hholds (client_update htasks) ?_
    intro d hd
    rw [hdeleted] at hd
    exact (List.mem_cons.mp hd).symm
  handled _ he := h.handled_put (h.handled_eq_none htask fun _ => rfl) htasks he
  separate := h.separate
  resumes := h.resumes

/-- **Every step hands a client from one place to another**, or creates or deletes one. -/
theorem Inv.step {label : Label W} (h : Inv build s) (hseparate : Separate build label)
    (hstep : step build maxUser s label = some s') : Inv build s' := by
  cases label with
  | test =>
      simp only [ManagerOwnership.step] at hstep
      split at hstep
      · obtain ⟨books, hbook, rfl⟩ := Option.map_eq_some_iff.mp hstep
        cases ManagerConnections.steps_of_step hbook with
        | full _ _ => exact h
        | test htask _ =>
            have hloop := h.handled_eq_none htask fun _ => rfl
            exact h.goesOn htask hloop rfl rfl (Nat.le_refl _) fun _ hd => by cases hd
      · cases hstep
  | addClient succeeds =>
      obtain ⟨books, hbook, rfl⟩ := Option.map_eq_some_iff.mp hstep
      cases ManagerConnections.steps_of_step hbook with
      | offer htask => exact h.accept (h.handled_eq_none htask (fun _ => rfl) rfl) rfl rfl rfl
      | reject htask =>
          have hloop := h.handled_eq_none htask fun _ => rfl
          exact h.goesOn htask hloop rfl rfl (Nat.le_succ _) fun _ hd => by cases hd
  | list =>
      obtain ⟨books, hbook, rfl⟩ := Option.map_eq_some_iff.mp hstep
      cases ManagerConnections.steps_of_step hbook with
      | list htask =>
          have hloop := h.handled_eq_none htask fun _ => rfl
          exact h.goesOn htask hloop rfl rfl (Nat.le_refl _) fun _ hd => hd
  | count =>
      simp only [ManagerOwnership.step] at hstep
      split at hstep
      · next hlisted =>
          have hloop := h.handled_eq_none hlisted fun _ => rfl
          obtain ⟨books, hbook, rfl⟩ := Option.map_eq_some_iff.mp hstep
          cases ManagerConnections.steps_of_step hbook with
          | count htask =>
              cases hlisted.symm.trans htask
              exact h.arm htask rfl hloop rfl rfl rfl
      · cases hstep
  | poll events =>
      simp only [ManagerOwnership.step] at hstep
      split at hstep
      · next htask _ =>
          split at hstep <;> cases hstep
          next hguard =>
            obtain ⟨-, hnodup, harmed⟩ := hguard
            have hloop := h.handled_eq_none htask fun _ => rfl
            refine h.poll (hloop rfl) hnodup harmed ?_ ?_ hseparate
            · split
              · exact List.filter_subset_self _
              · exact List.Subset.refl _
            · intro honeshot d hd hmem
              rw [if_pos honeshot] at hmem
              exact absurd hd (of_decide_eq_true (List.mem_filter.mp hmem).2)
      · cases hstep
  | next =>
      simp only [ManagerOwnership.step] at hstep
      split at hstep <;> cases hstep
      next htask _ hbatch => exact h.next (h.handled_eq_none htask (fun _ => rfl) rfl) hbatch
  | closeEvent =>
      simp only [ManagerOwnership.step] at hstep
      split at hstep
      · next htask hhandled =>
          split at hstep <;> cases hstep
          next herror => exact h.closeEvent htask hhandled herror
      · cases hstep
  | readEvent =>
      simp only [ManagerOwnership.step] at hstep
      split at hstep
      · next c e htask hhandled =>
          split at hstep <;> cases hstep
          have hclient : (s.books.tasks .loop).client = some c := by
            rw [htask]
            rfl
          have hreported : c ∈ s.holding.reported := by
            have hevent : s.holding.handled = some e.client :=
              congrArg (Option.map Event.client) hhandled
            cases hclient.symm.trans (h.handover.handled _ hevent)
            rw [Handover.Holding.reported, hevent]
            exact List.mem_cons_self
          by_cases honeshot : build.oneshot = true
          · rw [if_pos honeshot]
            exact h.withdraw hclient hhandled (List.Subset.refl _)
              (h.handover.disarmed honeshot c hreported)
          · rw [if_neg honeshot]
            exact h.withdraw hclient hhandled (List.filter_subset_self _) (by simp)
      · cases hstep
  | skipEvent =>
      simp only [ManagerOwnership.step] at hstep
      split at hstep
      · split at hstep <;> cases hstep
        exact h.skipEvent
      · cases hstep
  | resume =>
      simp only [ManagerOwnership.step] at hstep
      split at hstep
      · next e _ hresumes =>
          rw [if_neg (by rw [h.resumes e hresumes]; exact Bool.false_ne_true)] at hstep
          cases hstep
          exact ⟨h.handover, h.handled, h.separate, fun _ hd => by cases hd⟩
      · cases hstep
  | putWorkQueue =>
      simp only [ManagerOwnership.step] at hstep
      split at hstep
      · next htask hhandled =>
          split at hstep <;> cases hstep
          exact h.putWorkQueue htask hhandled
      · cases hstep
  | getWorkQueue w =>
      simp only [ManagerOwnership.step] at hstep
      split at hstep <;> cases hstep
      next hqueue => exact h.getWorkQueue hqueue
  | fillFromSocket w fill =>
      simp only [ManagerOwnership.step] at hstep
      split at hstep <;> cases hstep
      · next htask _ =>
          have hloop := h.handled_eq_none htask fun ht => by cases ht
          exact h.goesOn htask hloop rfl rfl (Nat.le_refl _) fun _ hd => hd
      · exact ⟨h.handover, h.handled, h.separate, h.resumes⟩
      · exact ⟨h.handover, h.handled, h.separate, h.resumes⟩
  | executeCommand w =>
      simp only [ManagerOwnership.step] at hstep
      split at hstep <;> cases hstep
      exact h
  | rearm w succeeds =>
      simp only [ManagerOwnership.step] at hstep
      split at hstep <;> cases hstep
      next htask _ =>
        have hloop := h.handled_eq_none htask fun ht => by cases ht
        cases succeeds with
        | true => exact h.arm htask rfl hloop rfl rfl rfl
        | false => exact h.goesOn htask hloop rfl rfl (Nat.le_refl _) fun _ hd => by cases hd
  | unhook t =>
      simp only [ManagerOwnership.step] at hstep
      split at hstep <;> cases hstep
      next htask => exact h.unhook htask
  | unlist t =>
      obtain ⟨books, hbook, rfl⟩ := Option.map_eq_some_iff.mp hstep
      cases ManagerConnections.steps_of_step hbook with
      | unlist htask =>
          have hloop := h.handled_eq_none htask fun _ => rfl
          exact h.goesOn htask hloop rfl rfl (Nat.le_refl _) fun _ hd => hd
  | destroy t =>
      obtain ⟨books, hbook, rfl⟩ := Option.map_eq_some_iff.mp hstep
      cases ManagerConnections.steps_of_step hbook with
      | destroy htask => exact h.destroy htask rfl rfl rfl
  | uncount t =>
      obtain ⟨books, hbook, rfl⟩ := Option.map_eq_some_iff.mp hstep
      cases ManagerConnections.steps_of_step hbook with
      | uncount htask =>
          have hloop := h.handled_eq_none htask fun _ => rfl
          exact h.goesOn htask hloop rfl rfl (Nat.le_refl _) fun _ hd => by cases hd

/-! ### Every run -/

theorem inv_of_reaches
    (h : Reaches (step build maxUser) (fun _ label => Separate build label) (start : State W) s) :
    Inv build s := by
  induction h with
  | refl => exact inv_start
  | tail label _ hseparate hstep ih => exact ih.step hseparate hstep

/-- No step takes a place that the loop has not found free. -/
theorem withinLimit_of_step {label : Label W}
    (h : ManagerConnections.WithinLimit maxUser s.books)
    (hstep : step build maxUser s label = some s') :
    ManagerConnections.WithinLimit maxUser s'.books := by
  -- Everywhere else the thread goes on to a task without a place.
  have hput : ∀ {t : Thread W} {task : Task}, task.seat = 0 →
      ManagerConnections.WithinLimit maxUser (s.books.put t task) := fun hseat =>
    h.mono (ManagerConnections.seat_update_le rfl (hseat ▸ Nat.zero_le _)) (Int.le_refl _)
  cases label with
  | addClient _ | list | unlist _ | destroy _ | uncount _ =>
      obtain ⟨books, hbook, rfl⟩ := Option.map_eq_some_iff.mp hstep
      exact h.step hbook
  | test | count =>
      simp only [ManagerOwnership.step] at hstep
      split at hstep
      · obtain ⟨books, hbook, rfl⟩ := Option.map_eq_some_iff.mp hstep
        exact h.step hbook
      · cases hstep
  | closeEvent =>
      simp only [ManagerOwnership.step] at hstep
      split at hstep
      · next c _ _ _ =>
          split at hstep <;> cases hstep
          exact hput (t := .loop) (rfl : (Task.closing c).seat = 0)
      · cases hstep
  | skipEvent | putWorkQueue =>
      simp only [ManagerOwnership.step] at hstep
      split at hstep
      · split at hstep <;> cases hstep
        exact hput rfl
      · cases hstep
  | poll _ | readEvent =>
      simp only [ManagerOwnership.step] at hstep
      split at hstep
      · split at hstep <;> cases hstep
        exact h
      · cases hstep
  | resume =>
      simp only [ManagerOwnership.step] at hstep
      split at hstep
      · split at hstep <;> cases hstep
        · exact hput rfl
        · exact h
      · cases hstep
  | next | getWorkQueue _ | rearm _ _ | unhook _ =>
      simp only [ManagerOwnership.step] at hstep
      split at hstep <;> cases hstep
      exact hput rfl
  | executeCommand _ =>
      simp only [ManagerOwnership.step] at hstep
      split at hstep <;> cases hstep
      exact h
  | fillFromSocket w _ =>
      simp only [ManagerOwnership.step] at hstep
      split at hstep <;> cases hstep
      · next c _ _ => exact hput (t := .worker w) (rfl : (Task.closing c).seat = 0)
      · exact h
      · exact h

/-- The manager's connections are within the limit in every run, even in one that closes a
client twice. -/
theorem connCount_le_of_reaches {meets : State W → Label W → Prop}
    (h : Reaches (step build maxUser) meets (start : State W) s) :
    s.books.connCount ≤ max maxUser 0 := by
  have hlimit : ManagerConnections.WithinLimit maxUser s.books := by
    induction h with
    | refl => simp [ManagerConnections.WithinLimit, start, ManagerConnections.start, Task.seat]
    | tail label _ _ hstep ih => exact withinLimit_of_step ih hstep
  rw [ManagerConnections.WithinLimit] at hlimit
  omega

/-- **Nothing is done with a deleted client**, in the epoll builds and in the kqueue
build, in every run in which no kqueue event has both an error and the read filter: a
client that `CloseClient` has deleted is not dereferenced by the event loop, put on the
work queue, taken from it, filled, executed, armed or closed. What a worker that executes a
packet does with the other listed clients is not among the steps. -/
theorem safe_of_reaches
    (h : Reaches (step build maxUser) (fun _ label => Separate build label) (start : State W) s) :
    ∀ (label : Label W) c, label.client s = some c → ¬ s.Deleted c :=
  fun _ _ hclient => (inv_of_reaches h).client_live hclient

/-- A server whose connection the kqueue reports with an error. -/
theorem safe_after_error :
    ∃ s : State Unit,
      run (step .kqueue 71) start [.test, .addClient true, .list, .count,
        .poll [⟨0, true, false⟩], .next, .closeEvent, .unhook .loop, .unlist .loop,
        .destroy .loop, .uncount .loop] = some s ∧
      s.Deleted 0 ∧ ∀ (label : Label Unit) c, label.client s = some c → ¬ s.Deleted c := by
  have hreaches : Reaches (step .kqueue 71) (fun _ label => Separate .kqueue label)
      (start : State Unit) _ :=
    reaches_of_run [.test, .addClient true, .list, .count, .poll [⟨0, true, false⟩], .next,
      .closeEvent, .unhook .loop, .unlist .loop, .destroy .loop, .uncount .loop]
      (by simp [Separate]) rfl
  exact ⟨_, rfl, List.mem_cons_self, safe_of_reaches hreaches⟩

/-- The kqueue reports a client with `EV_ERROR` and the read filter: the loop deletes it
and puts it on the work queue. -/
theorem deleted_client_queued :
    ¬ ∀ (build : Build) (s : State Unit),
      Reaches (step build 71) (fun _ _ => True) (start : State Unit) s →
      ∀ (label : Label Unit) c, label.client s = some c → ¬ s.Deleted c := by
  intro hclaim
  have hreaches : Reaches (step .kqueue 71) (fun _ _ => True) (start : State Unit) _ :=
    reaches_of_run [.test, .addClient true, .list, .count, .poll [⟨0, true, true⟩], .next,
      .closeEvent, .unhook .loop, .unlist .loop, .destroy .loop, .uncount .loop, .resume]
      (fun _ _ _ => trivial) rfl
  exact hclaim .kqueue _ hreaches .putWorkQueue 0 rfl List.mem_cons_self

end ThunderChat.ManagerOwnership

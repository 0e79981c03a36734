import ThunderChat.CircularQueue
import ThunderChat.Foundation.Threads
import ThunderChat.Foundation.Transition
import ThunderChat.Server.ChatServer

/-!
The broadcasters of `ChatServer`, and the connections that come and go meanwhile.

A receiver queues a message with the descriptor of its sender, whose client is in the list
(`Ownership.listed_of_holding`). A broadcaster takes it, copies the descriptors of the
other users under the lock, and then writes the message to one after the other, in as many
`write`s as it takes. Connections are closed and accepted at any time, and a new one may
get the number of one that has been closed. A user's socket does not block: where it takes
no more, `write` fails, `Write` gives this target up, and nobody hears of it.

Connections are numbered in the order they are accepted. `messages` are all that have been
queued, in this order; a `CircularQueue` is a bounded FIFO queue, so it holds those from
`taken` on. What has been written to whom is recorded.

* `Inv.step`: what every step preserves, whatever the kernel does with the numbers.
* `inv_of_reaches`: a user that is connected when a message is queued and until it is
  written gets all of it, or one of its `write`s has failed.
-/

namespace ThunderChat.Broadcast

open Transition

/-- A connection, by its number in the order of `accept`. -/
structure Connection where
  number : Nat
  type : ClientType
  deriving DecidableEq, Repr

/-- A client in `m_lstClient`. -/
structure Entry where
  conn : Connection
  fd : Nat
  deriving DecidableEq, Repr

/-- A queued message, the connection it came from, and the users in the list at that time
other than this one. -/
structure Envelope where
  id : Nat
  sender : Connection
  audience : List Entry
  message : BroadcastMessage

/-- Where a broadcaster is. -/
inductive Task where
  | idle
  /-- It has a message and writes it to the managers, if it is to. -/
  | dequeued (m : Envelope)
  /-- It has taken its snapshot when `mark` connections had been accepted. The first of
  the targets is being written to, and `left` is what `Write` has still to write. -/
  | sending (m : Envelope) (mark : Nat) (targets : List Nat) (left : List UInt8)

/-- The message the broadcaster is at. -/
def Task.envelope : Task → Option Envelope
  | .idle => none
  | .dequeued m => some m
  | .sending m _ _ _ => some m

/-- The open descriptors, the list, the queue, the broadcasters, and what has been written
of which message to which connection, or could not be. `introduced` are the connections
that have been put on the list. -/
structure State (B : Type) where
  fds : Nat → Option Connection
  accepted : Nat
  introduced : List Connection
  lstClient : List Entry
  messages : List Envelope
  taken : Nat
  tasks : B → Task
  sent : Nat → Connection → List UInt8
  failed : List (Nat × Connection)

/-- A step of the acceptor, of `CloseClient`, of a receiver or of a broadcaster. -/
inductive Label (B : Type) where
  | accept (fd : Nat) (type : ClientType)
  | list (e : Entry)
  | unlist (e : Entry)
  | close (fd : Nat)
  | enqueue (e : Entry) (message : BroadcastMessage)
  | dequeue (b : B)
  | snapshot (b : B)
  | write (b : B) (n : Nat)
  | fail (b : B)
  | next (b : B)
  | finish (b : B)

variable {B : Type}

/-- No connection has been accepted. -/
def start : State B := ⟨fun _ => none, 0, [], [], [], 0, fun _ => .idle, fun _ _ => [], []⟩

/-- `GetBroadcastTargets`. -/
def State.getBroadcastTargets (s : State B) (message : BroadcastMessage) : List Nat :=
  (s.lstClient.filter fun e => e.conn.type = .user && e.fd != message.socketFd).map Entry.fd

/-- The users in the list other than the connection. -/
def State.others (s : State B) (sender : Connection) : List Entry :=
  s.lstClient.filter fun e => e.conn.type = .user && e.conn != sender

variable [DecidableEq B]

/-- The broadcaster goes on to another task. -/
def State.put (s : State B) (b : B) (task : Task) : State B :=
  { s with tasks := Function.update s.tasks b task }

/-- What a label does. -/
def step (s : State B) : Label B → Option (State B)
  | .accept fd type =>
      match s.fds fd with
      | none =>
          some { s with
            fds := Function.update s.fds fd (some ⟨s.accepted, type⟩)
            accepted := s.accepted + 1 }
      | some _ => none
  | .list e =>
      if s.fds e.fd = some e.conn ∧ e.conn ∉ s.introduced then
        some { s with
          introduced := e.conn :: s.introduced
          lstClient := s.lstClient ++ [e] }
      else none
  | .unlist e =>
      if e ∈ s.lstClient then some { s with lstClient := s.lstClient.filter (· != e) } else none
  | .close fd =>
      -- A client that has been taken out of the list, or a socket that never got there.
      if ∀ e ∈ s.lstClient, e.fd ≠ fd then
        some { s with fds := Function.update s.fds fd none }
      else none
  | .enqueue e message =>
      -- A receiver has the sender's client, which is in the list.
      if e ∈ s.lstClient ∧ message.socketFd = e.fd ∧ s.messages.length < s.taken + QSIZE then
        some { s with
          messages := s.messages ++ [⟨s.messages.length, e.conn, s.others e.conn, message⟩] }
      else none
  | .dequeue b =>
      match s.tasks b, s.messages[s.taken]? with
      | .idle, some m => some { s.put b (.dequeued m) with taken := s.taken + 1 }
      | _, _ => none
  | .snapshot b =>
      match s.tasks b with
      | .dequeued m =>
          some (s.put b (.sending m s.accepted (s.getBroadcastTargets m.message) m.message.bytes))
      | _ => none
  | .write b n =>
      match s.tasks b with
      | .sending m mark (fd :: rest) left =>
          if left ≠ [] ∧ n ≤ left.length then
            some { s.put b (.sending m mark (fd :: rest) (left.drop n)) with
              sent := fun i c =>
                if i = m.id ∧ s.fds fd = some c then s.sent i c ++ left.take n else s.sent i c }
          else none
      | _ => none
  | .fail b =>
      match s.tasks b with
      | .sending m mark (fd :: rest) left =>
          if left ≠ [] then
            some { s.put b (.sending m mark rest m.message.bytes) with
              failed := match s.fds fd with
                | some c => (m.id, c) :: s.failed
                | none => s.failed }
          else none
      | _ => none
  | .next b =>
      match s.tasks b with
      | .sending m mark (_ :: rest) [] => some (s.put b (.sending m mark rest m.message.bytes))
      | _ => none
  | .finish b =>
      match s.tasks b with
      | .sending _ _ [] _ => some (s.put b .idle)
      | _ => none

/-- What a step that is possible has found and does. -/
inductive Steps (s : State B) : Label B → State B → Prop where
  | accept {fd : Nat} {type : ClientType} (hfd : s.fds fd = none) :
      Steps s (.accept fd type) { s with
        fds := Function.update s.fds fd (some ⟨s.accepted, type⟩)
        accepted := s.accepted + 1 }
  | list {e : Entry} (hfd : s.fds e.fd = some e.conn) (hnew : e.conn ∉ s.introduced) :
      Steps s (.list e) { s with
        introduced := e.conn :: s.introduced
        lstClient := s.lstClient ++ [e] }
  | unlist {e : Entry} (he : e ∈ s.lstClient) :
      Steps s (.unlist e) { s with lstClient := s.lstClient.filter (· != e) }
  | close {fd : Nat} (hfd : ∀ e ∈ s.lstClient, e.fd ≠ fd) :
      Steps s (.close fd) { s with fds := Function.update s.fds fd none }
  | enqueue {e : Entry} {message : BroadcastMessage} (he : e ∈ s.lstClient)
      (hfd : message.socketFd = e.fd) (hroom : s.messages.length < s.taken + QSIZE) :
      Steps s (.enqueue e message) { s with
        messages := s.messages ++ [⟨s.messages.length, e.conn, s.others e.conn, message⟩] }
  | dequeue {b : B} {m : Envelope} (hb : s.tasks b = .idle)
      (hm : s.messages[s.taken]? = some m) :
      Steps s (.dequeue b) { s.put b (.dequeued m) with taken := s.taken + 1 }
  | snapshot {b : B} {m : Envelope} (hb : s.tasks b = .dequeued m) :
      Steps s (.snapshot b)
        (s.put b (.sending m s.accepted (s.getBroadcastTargets m.message) m.message.bytes))
  | write {b : B} {n : Nat} {m : Envelope} {mark fd : Nat} {rest : List Nat}
      {left : List UInt8} (hb : s.tasks b = .sending m mark (fd :: rest) left)
      (hleft : left ≠ []) (hn : n ≤ left.length) :
      Steps s (.write b n) { s.put b (.sending m mark (fd :: rest) (left.drop n)) with
        sent := fun i c =>
          if i = m.id ∧ s.fds fd = some c then s.sent i c ++ left.take n else s.sent i c }
  | fail {b : B} {m : Envelope} {mark fd : Nat} {rest : List Nat} {left : List UInt8}
      (hb : s.tasks b = .sending m mark (fd :: rest) left) (hleft : left ≠ []) :
      Steps s (.fail b) { s.put b (.sending m mark rest m.message.bytes) with
        failed := match s.fds fd with
          | some c => (m.id, c) :: s.failed
          | none => s.failed }
  | next {b : B} {m : Envelope} {mark fd : Nat} {rest : List Nat}
      (hb : s.tasks b = .sending m mark (fd :: rest) []) :
      Steps s (.next b) (s.put b (.sending m mark rest m.message.bytes))
  | finish {b : B} {m : Envelope} {mark : Nat} {left : List UInt8}
      (hb : s.tasks b = .sending m mark [] left) : Steps s (.finish b) (s.put b .idle)

theorem steps_of_step {s s' : State B} {label : Label B} (h : step s label = some s') :
    Steps s label s' := by
  cases label with
  | accept fd type =>
      rw [step] at h
      split at h
      · next hfd =>
          cases h
          exact .accept hfd
      · cases h
  | list e =>
      rw [step] at h
      split at h
      · next hnew =>
          cases h
          exact .list hnew.1 hnew.2
      · cases h
  | unlist e =>
      rw [step] at h
      split at h
      · next he =>
          cases h
          exact .unlist he
      · cases h
  | close fd =>
      rw [step] at h
      split at h
      · next hfd =>
          cases h
          exact .close hfd
      · cases h
  | enqueue e message =>
      rw [step] at h
      split at h
      · next hmem =>
          cases h
          exact .enqueue hmem.1 hmem.2.1 hmem.2.2
      · cases h
  | dequeue b =>
      rw [step] at h
      split at h
      · next m hb hm =>
          cases h
          exact .dequeue hb hm
      · cases h
  | snapshot b =>
      rw [step] at h
      split at h
      · next m hb =>
          cases h
          exact .snapshot hb
      · cases h
  | write b n =>
      rw [step] at h
      split at h
      · next m mark fd rest left hb =>
          split at h
          · next hleft =>
              cases h
              exact .write hb hleft.1 hleft.2
          · cases h
      · cases h
  | fail b =>
      rw [step] at h
      split at h
      · next m mark fd rest left hb =>
          split at h
          · next hleft =>
              cases h
              exact .fail hb hleft
          · cases h
      · cases h
  | next b =>
      rw [step] at h
      split at h
      · next m mark fd rest hb =>
          cases h
          exact .next hb
      · cases h
  | finish b =>
      rw [step] at h
      split at h
      · next m mark left hb =>
          cases h
          exact .finish hb
      · cases h

omit [DecidableEq B] in
/-- The targets are those of `ChatServer.getBroadcastTargets`. -/
theorem getBroadcastTargets_eq {s : State B} {server : ChatServer} {message : BroadcastMessage}
    (h : server.clients = s.lstClient.map fun e => ⟨e.fd, e.conn.type⟩) :
    s.getBroadcastTargets message = server.getBroadcastTargets message := by
  rw [ChatServer.getBroadcastTargets, h, List.filter_map, List.map_map]
  rfl

/-! ### What is known of the messages -/

/-- All of the message has been written to the user. -/
def State.Written (s : State B) (m : Envelope) (e : Entry) : Prop :=
  s.sent m.id e.conn = m.message.bytes

/-- The broadcaster is through with the user: it has written the message, or has given up. -/
def State.Settled (s : State B) (m : Envelope) (e : Entry) : Prop :=
  s.Written m e ∨ (m.id, e.conn) ∈ s.failed

/-- A broadcaster has taken the message, and none is at it any more. -/
def State.Finished (s : State B) (m : Envelope) : Prop :=
  m.id < s.taken ∧ ∀ b, (s.tasks b).envelope ≠ some m

/-- The user has been connected since the message was queued. -/
def State.Stays (s : State B) (m : Envelope) (e : Entry) : Prop :=
  e ∈ s.lstClient ∧ e ∈ m.audience

/-- What is known while a message is written: a user that stays is among the targets or is
settled, the first one has got as much as has been written. -/
structure Progress (s : State B) (m : Envelope) (targets : List Nat) (left : List UInt8) :
    Prop where
  nodup : targets.Nodup
  reached : ∀ e, s.Stays m e → e.fd ∈ targets ∨ s.Settled m e
  current : ∀ e fd rest, s.Stays m e → targets = fd :: rest → e.fd = fd →
    s.sent m.id e.conn ++ left = m.message.bytes
  pending : ∀ e fd rest, s.Stays m e → targets = fd :: rest → e.fd ∈ rest →
    s.sent m.id e.conn = []

/-- What is known of a broadcaster. -/
def State.Working (s : State B) : Task → Prop
  | .idle => True
  | .dequeued m => ∀ c, s.sent m.id c = []
  | .sending m _ targets left => Progress s m targets left

/-- What is known in every state. -/
structure Inv (s : State B) : Prop where
  fds_lt : ∀ fd c, s.fds fd = some c → c.number < s.accepted
  fds_inj : ∀ fd fd' c, s.fds fd = some c → s.fds fd' = some c → fd = fd'
  listed : ∀ e ∈ s.lstClient, s.fds e.fd = some e.conn ∧ e.conn ∈ s.introduced
  nodup : (s.lstClient.map Entry.fd).Nodup
  ids : ∀ (i : Nat) (m : Envelope), s.messages[i]? = some m → m.id = i
  audience : ∀ m ∈ s.messages, ∀ e ∈ m.audience,
    e.conn.type = .user ∧ e.fd ≠ m.message.socketFd ∧ e.conn ∈ s.introduced
  taken_le : s.taken ≤ s.messages.length
  held : ∀ b (m : Envelope), (s.tasks b).envelope = some m → m ∈ s.messages ∧ m.id < s.taken
  apart : Threads.Apart Task.envelope s.tasks
  fresh : ∀ i c, s.taken ≤ i → s.sent i c = []
  working : ∀ b, s.Working (s.tasks b)
  finished : ∀ m ∈ s.messages, s.Finished m → ∀ e, s.Stays m e → s.Settled m e

omit [DecidableEq B] in
theorem inv_start : Inv (start : State B) where
  fds_lt := nofun
  fds_inj := nofun
  listed := nofun
  nodup := .nil
  ids := nofun
  audience := nofun
  taken_le := Nat.le_refl 0
  held := nofun
  apart := nofun
  fresh := fun _ _ _ => rfl
  working := fun _ => trivial
  finished := nofun

section Facts

variable {s s' : State B} {m m' : Envelope} {e : Entry} {b : B} {targets : List Nat}
  {left : List UInt8}

omit [DecidableEq B] in
/-- A message is known by its number. -/
theorem Inv.eq_of_id (h : Inv s) (hm : m ∈ s.messages) (hm' : m' ∈ s.messages)
    (hid : m.id = m'.id) : m = m' := by
  obtain ⟨i, hi⟩ := List.mem_iff_getElem?.mp hm
  obtain ⟨j, hj⟩ := List.mem_iff_getElem?.mp hm'
  have hij : i = j := by rw [← h.ids i m hi, ← h.ids j m' hj, hid]
  subst hij
  exact Option.some.inj (hi.symm.trans hj)

omit [DecidableEq B] in
/-- Another broadcaster's message has another number. -/
theorem Inv.id_ne (h : Inv s) {b' : B} (hb : (s.tasks b).envelope = some m)
    (hb' : (s.tasks b').envelope = some m') (hne : b' ≠ b) : m'.id ≠ m.id := by
  intro hid
  have hmm := h.eq_of_id (h.held b' m' hb').1 (h.held b m hb).1 hid
  exact hne (h.apart b' b m' hb' (hmm ▸ hb))

omit [DecidableEq B] in
/-- So has one that is finished. -/
theorem Inv.id_ne_of_finished (h : Inv s) (hb : (s.tasks b).envelope = some m)
    (hm' : m' ∈ s.messages) (hfin : s.Finished m') : m'.id ≠ m.id := by
  intro hid
  have hmm := h.eq_of_id hm' (h.held b m hb).1 hid
  exact hfin.2 b (hmm ▸ hb)

omit [DecidableEq B] in
theorem Inv.progress (h : Inv s) {mark : Nat} (hb : s.tasks b = .sending m mark targets left) :
    Progress s m targets left := by
  have hworking := h.working b
  rwa [hb] at hworking

omit [DecidableEq B] in
/-- The descriptor of a user that stays is its own. -/
theorem Inv.fds_of_stays (h : Inv s) (he : s.Stays m e) : s.fds e.fd = some e.conn :=
  (h.listed e he.1).1

omit [DecidableEq B] in
/-- `Write` to a descriptor reaches a user that stays if it is that user's. -/
theorem Inv.conn_iff (h : Inv s) (he : s.Stays m e) (fd : Nat) :
    s.fds fd = some e.conn ↔ e.fd = fd := by
  constructor
  · intro hfd
    exact h.fds_inj e.fd fd e.conn (h.fds_of_stays he) hfd
  · rintro rfl
    exact h.fds_of_stays he

omit [DecidableEq B] in
/-- What is known of a broadcaster depends on its message alone. -/
theorem State.Working.mono {task : Task} (h : s.Working task)
    (hstays : ∀ m e, task.envelope = some m → s'.Stays m e → s.Stays m e)
    (hsent : ∀ m, task.envelope = some m → s'.sent m.id = s.sent m.id)
    (hfailed : s.failed ⊆ s'.failed) : s'.Working task := by
  cases task with
  | idle => trivial
  | dequeued m =>
      intro c
      rw [hsent m rfl]
      exact h c
  | sending m mark targets left =>
      have hprogress : Progress s m targets left := h
      refine ⟨hprogress.nodup, ?_, ?_, ?_⟩
      · intro e he
        rcases hprogress.reached e (hstays m e rfl he) with hmem | hsentall | hfail
        · exact .inl hmem
        · exact .inr (.inl ((congrFun (hsent m rfl) e.conn).trans hsentall))
        · exact .inr (.inr (hfailed hfail))
      · intro e fd rest he htargets hfd
        rw [hsent m rfl]
        exact hprogress.current e fd rest (hstays m e rfl he) htargets hfd
      · intro e fd rest he htargets hfd
        rw [hsent m rfl]
        exact hprogress.pending e fd rest (hstays m e rfl he) htargets hfd

omit [DecidableEq B] in
/-- The broadcaster is through with the first target. -/
theorem Progress.advance {fd : Nat} {rest : List Nat}
    (h : Progress s m (fd :: rest) left)
    (hstays : ∀ e, s'.Stays m e → s.Stays m e)
    (hsent : s'.sent m.id = s.sent m.id) (hfailed : s.failed ⊆ s'.failed)
    (hfirst : ∀ e, s'.Stays m e → e.fd = fd → s'.Settled m e) :
    Progress s' m rest m.message.bytes where
  nodup := h.nodup.of_cons
  reached := by
    intro e he
    rcases h.reached e (hstays e he) with hmem | hsentall | hfail
    · rcases List.mem_cons.mp hmem with hfd | hrest
      · exact .inr (hfirst e he hfd)
      · exact .inl hrest
    · exact .inr (.inl ((congrFun hsent e.conn).trans hsentall))
    · exact .inr (.inr (hfailed hfail))
  current := by
    intro e fd' rest' he hrest hfd
    rw [hsent, h.pending e fd rest (hstays e he) rfl (by simp [hrest, hfd]), List.nil_append]
  pending := by
    intro e fd' rest' he hrest hfd
    rw [hsent]
    exact h.pending e fd rest (hstays e he) rfl (by simp [hrest, hfd])

/-- A broadcaster goes on with its message, or ends it. Nothing is written of another. -/
theorem Inv.goesOn (h : Inv s) (hb : (s.tasks b).envelope = some m) {task : Task}
    {sent : Nat → Connection → List UInt8} {failed : List (Nat × Connection)}
    (hkeeps : ∀ m', task.envelope = some m' → m' = m)
    (hsent : ∀ i, i ≠ m.id → sent i = s.sent i) (hfailed : s.failed ⊆ failed)
    (hworking : State.Working { s.put b task with sent := sent, failed := failed } task)
    (hdone : task.envelope = none → ∀ e, s.Stays m e →
      State.Settled { s.put b task with sent := sent, failed := failed } m e) :
    Inv { s.put b task with sent := sent, failed := failed } where
  fds_lt := h.fds_lt
  fds_inj := h.fds_inj
  listed := h.listed
  nodup := h.nodup
  ids := h.ids
  audience := h.audience
  taken_le := h.taken_le
  held := by
    apply Threads.forall_holds_update
    · intro m' hm'
      rw [hkeeps m' hm']
      exact h.held b m hb
    · intro b' _ m' hm'
      exact h.held b' m' hm'
  apart := h.apart.update_of_keeps fun m' hm' => hkeeps m' hm' ▸ hb
  fresh := by
    intro i c hi
    have hlt := (h.held b m hb).2
    have hne : i ≠ m.id := fun him => absurd hlt (Nat.not_lt.mpr (him ▸ hi))
    exact (congrFun (hsent i hne) c).trans (h.fresh i c hi)
  working := by
    refine (Function.forall_update_iff s.tasks fun _ => State.Working _).mpr ⟨hworking, ?_⟩
    intro b' hbb
    refine (h.working b').mono (fun _ _ _ he => he) ?_ hfailed
    intro m' hm'
    exact hsent m'.id (h.id_ne hb hm' hbb)
  finished := by
    rintro m' hm' ⟨hlt, hnone⟩ e he
    obtain ⟨hself, hothers⟩ :=
      (Function.forall_update_iff s.tasks fun _ task => task.envelope ≠ some m').mp hnone
    by_cases hmm : m' = m
    · subst hmm
      cases htask : task.envelope with
      | none => exact hdone htask e he
      | some m'' => exact absurd (hkeeps m'' htask ▸ htask) hself
    · have hfin : s.Finished m' := by
        refine ⟨hlt, fun b' hb' => ?_⟩
        by_cases hbb : b' = b
        · subst hbb
          exact hmm (Option.some.inj (hb'.symm.trans hb))
        · exact hothers b' hbb hb'
      rcases h.finished m' hm' hfin e he with hall | hfail
      · exact .inl ((congrFun (hsent m'.id (h.id_ne_of_finished hb hm' hfin)) e.conn).trans hall)
      · exact .inr (hfailed hfail)

omit [DecidableEq B] in
/-- The descriptors and the list change, and no broadcaster. A user that stays has been in
the list before. -/
theorem Inv.relist (h : Inv s) {fds : Nat → Option Connection} {accepted : Nat}
    {introduced : List Connection} {lstClient : List Entry}
    (hfds_lt : ∀ fd c, fds fd = some c → c.number < accepted)
    (hfds_inj : ∀ fd fd' c, fds fd = some c → fds fd' = some c → fd = fd')
    (hlisted : ∀ e ∈ lstClient, fds e.fd = some e.conn ∧ e.conn ∈ introduced)
    (hnodup : (lstClient.map Entry.fd).Nodup)
    (hintroduced : s.introduced ⊆ introduced)
    (hstays : ∀ m ∈ s.messages, ∀ e ∈ lstClient, e ∈ m.audience → e ∈ s.lstClient) :
    Inv { s with
      fds := fds, accepted := accepted, introduced := introduced, lstClient := lstClient } where
  fds_lt := hfds_lt
  fds_inj := hfds_inj
  listed := hlisted
  nodup := hnodup
  ids := h.ids
  audience := by
    intro m hm e he
    obtain ⟨htype, hfd, hmem⟩ := h.audience m hm e he
    exact ⟨htype, hfd, hintroduced hmem⟩
  taken_le := h.taken_le
  held := h.held
  apart := h.apart
  fresh := h.fresh
  working := by
    intro b
    refine (h.working b).mono ?_ (fun _ _ => rfl) (List.Subset.refl _)
    rintro m e hm ⟨he, haudience⟩
    exact ⟨hstays m (h.held b m hm).1 e he haudience, haudience⟩
  finished := by
    rintro m hm hfin e ⟨he, haudience⟩
    exact h.finished m hm hfin e ⟨hstays m hm e he haudience, haudience⟩

omit [DecidableEq B] in
theorem Inv.accept (h : Inv s) {fd : Nat} (hfd : s.fds fd = none) (type : ClientType) :
    Inv { s with
      fds := Function.update s.fds fd (some ⟨s.accepted, type⟩)
      accepted := s.accepted + 1 } := by
  apply h.relist
  · intro fd' c hc
    by_cases hff : fd' = fd
    · rw [hff, Function.update_self] at hc
      cases hc
      exact Nat.lt_succ_self _
    · rw [Function.update_of_ne hff] at hc
      exact Nat.lt_succ_of_lt (h.fds_lt fd' c hc)
  · -- The new connection's number is that of no other.
    have hnew : ∀ fd' c, s.fds fd' = some c → c ≠ ⟨s.accepted, type⟩ := by
      rintro fd' c hc rfl
      exact absurd (h.fds_lt fd' _ hc) (Nat.lt_irrefl _)
    intro fd₁ fd₂ c h₁ h₂
    by_cases hf₁ : fd₁ = fd <;> by_cases hf₂ : fd₂ = fd
    · rw [hf₁, hf₂]
    · rw [hf₁, Function.update_self] at h₁
      rw [Function.update_of_ne hf₂] at h₂
      exact absurd (Option.some.inj h₁).symm (hnew fd₂ c h₂)
    · rw [Function.update_of_ne hf₁] at h₁
      rw [hf₂, Function.update_self] at h₂
      exact absurd (Option.some.inj h₂).symm (hnew fd₁ c h₁)
    · rw [Function.update_of_ne hf₁] at h₁
      rw [Function.update_of_ne hf₂] at h₂
      exact h.fds_inj fd₁ fd₂ c h₁ h₂
  · intro e he
    have hopen := (h.listed e he).1
    have hne : e.fd ≠ fd := by
      intro hef
      rw [hef, hfd] at hopen
      cases hopen
    refine ⟨?_, (h.listed e he).2⟩
    rw [Function.update_of_ne hne]
    exact hopen
  · exact h.nodup
  · exact List.Subset.refl _
  · exact fun _ _ _ he _ => he

omit [DecidableEq B] in
/-- A connection that has just been put on the list is in no message's audience. -/
theorem Inv.list (h : Inv s) (hfd : s.fds e.fd = some e.conn) (hnew : e.conn ∉ s.introduced) :
    Inv { s with introduced := e.conn :: s.introduced, lstClient := s.lstClient ++ [e] } := by
  apply h.relist h.fds_lt h.fds_inj
  · intro e' he'
    rcases List.mem_append.mp he' with hold | hsingle
    · exact ⟨(h.listed e' hold).1, List.mem_cons_of_mem _ (h.listed e' hold).2⟩
    · rw [List.mem_singleton.mp hsingle]
      exact ⟨hfd, List.mem_cons_self⟩
  · rw [List.map_append, List.map_singleton, List.nodup_append]
    refine ⟨h.nodup, List.nodup_singleton _, ?_⟩
    intro fd hmem fd' hmem' hff
    obtain ⟨e', he', rfl⟩ := List.mem_map.mp hmem
    rw [List.mem_singleton.mp hmem'] at hff
    obtain ⟨hopen, hintroduced⟩ := h.listed e' he'
    rw [hff, hfd] at hopen
    exact hnew (Option.some.inj hopen ▸ hintroduced)
  · exact List.subset_cons_self _ _
  · intro m hm e' he' haudience
    rcases List.mem_append.mp he' with hold | hsingle
    · exact hold
    · rw [List.mem_singleton.mp hsingle] at haudience
      exact absurd (h.audience m hm e haudience).2.2 hnew

omit [DecidableEq B] in
theorem Inv.unlist (h : Inv s) (e : Entry) :
    Inv { s with lstClient := s.lstClient.filter (· != e) } := by
  apply h.relist h.fds_lt h.fds_inj
  · intro e' he'
    exact h.listed e' (List.mem_of_mem_filter he')
  · exact h.nodup.sublist (List.filter_sublist.map _)
  · exact List.Subset.refl _
  · intro m hm e' he' _
    exact List.mem_of_mem_filter he'

/-- What is open after a `close` has been open before. -/
theorem open_of_closed {fds : Nat → Option Connection} {fd fd' : Nat} {c : Connection}
    (h : Function.update fds fd none fd' = some c) : fds fd' = some c := by
  by_cases hff : fd' = fd
  · rw [hff, Function.update_self] at h
    cases h
  · rwa [Function.update_of_ne hff] at h

omit [DecidableEq B] in
theorem Inv.close (h : Inv s) {fd : Nat} (hfd : ∀ e ∈ s.lstClient, e.fd ≠ fd) :
    Inv { s with fds := Function.update s.fds fd none } := by
  apply h.relist
  · intro fd' c hc
    exact h.fds_lt fd' c (open_of_closed hc)
  · intro fd₁ fd₂ c h₁ h₂
    exact h.fds_inj fd₁ fd₂ c (open_of_closed h₁) (open_of_closed h₂)
  · intro e he
    rw [Function.update_of_ne (hfd e he)]
    exact h.listed e he
  · exact h.nodup
  · exact List.Subset.refl _
  · exact fun _ _ _ he _ => he

omit [DecidableEq B] in
/-- The audience of a new message are users on other descriptors than its sender's. -/
theorem Inv.enqueue (h : Inv s) (he : e ∈ s.lstClient) {message : BroadcastMessage}
    (hfd : message.socketFd = e.fd) :
    Inv { s with
      messages := s.messages ++ [⟨s.messages.length, e.conn, s.others e.conn, message⟩] } where
  fds_lt := h.fds_lt
  fds_inj := h.fds_inj
  listed := h.listed
  nodup := h.nodup
  ids := by
    intro i m hi
    obtain ⟨hlen, -⟩ := List.getElem?_eq_some_iff.mp hi
    rw [List.length_append, List.length_singleton] at hlen
    rcases Nat.lt_succ_iff_lt_or_eq.mp hlen with hlt | rfl
    · rw [List.getElem?_append_left hlt] at hi
      exact h.ids i m hi
    · rw [List.getElem?_concat_length] at hi
      cases hi
      rfl
  audience := by
    intro m hm e' he'
    rcases List.mem_append.mp hm with hold | hnew
    · exact h.audience m hold e' he'
    · rw [List.mem_singleton.mp hnew] at he' ⊢
      obtain ⟨hmem, hother⟩ := List.mem_filter.mp he'
      obtain ⟨htype, hne⟩ : e'.conn.type = .user ∧ e'.conn ≠ e.conn := by simpa using hother
      refine ⟨htype, ?_, (h.listed e' hmem).2⟩
      intro hff
      have hopen := (h.listed e' hmem).1
      rw [hff, hfd, (h.listed e he).1] at hopen
      exact hne (Option.some.inj hopen).symm
  taken_le := by
    rw [List.length_append]
    exact Nat.le_add_right_of_le h.taken_le
  held := by
    intro b m hm
    obtain ⟨hmem, hlt⟩ := h.held b m hm
    exact ⟨List.mem_append_left _ hmem, hlt⟩
  apart := h.apart
  fresh := h.fresh
  working := fun b => (h.working b).mono (fun _ _ _ he => he) (fun _ _ => rfl) (List.Subset.refl _)
  finished := by
    intro m hm hfin e' he'
    rcases List.mem_append.mp hm with hold | hnew
    · exact h.finished m hold hfin e' he'
    · rw [List.mem_singleton.mp hnew] at hfin
      exact absurd hfin.1 (Nat.not_lt.mpr h.taken_le)

/-- A broadcaster without a message takes the next one. -/
theorem Inv.dequeue (h : Inv s) (hb : s.tasks b = .idle) (hm : s.messages[s.taken]? = some m) :
    Inv { s.put b (.dequeued m) with taken := s.taken + 1 } := by
  have hid : m.id = s.taken := h.ids s.taken m hm
  have hnone : (s.tasks b).envelope = none := by rw [hb, Task.envelope]
  exact {
    fds_lt := h.fds_lt
    fds_inj := h.fds_inj
    listed := h.listed
    nodup := h.nodup
    ids := h.ids
    audience := h.audience
    taken_le := (List.getElem?_eq_some_iff.mp hm).1
    held := by
      apply Threads.forall_holds_update
      · intro m' hm'
        cases hm'
        exact ⟨List.mem_of_getElem? hm, hid ▸ Nat.lt_succ_self _⟩
      · intro b' _ m' hm'
        obtain ⟨hmem, hlt⟩ := h.held b' m' hm'
        exact ⟨hmem, Nat.lt_succ_of_lt hlt⟩
    apart := by
      apply h.apart.update
      intro m' hm' b' _ hb'
      cases hm'
      exact absurd (h.held b' m hb').2 (hid ▸ Nat.lt_irrefl _)
    fresh := fun i c hi => h.fresh i c (Nat.le_of_succ_le hi)
    working := by
      refine (Function.forall_update_iff s.tasks fun _ => State.Working _).mpr ⟨?_, ?_⟩
      · exact fun c => h.fresh m.id c hid.ge
      · intro b' _
        exact (h.working b').mono (fun _ _ _ he => he) (fun _ _ => rfl) (List.Subset.refl _)
    finished := by
      rintro m' hm' ⟨hlt, hheld⟩ e he
      obtain ⟨hself, hothers⟩ :=
        (Function.forall_update_iff s.tasks fun _ task => task.envelope ≠ some m').mp hheld
      have hother : ∀ b', (s.tasks b').envelope ≠ some m' := by
        intro b' hb'
        by_cases hbb : b' = b
        · rw [hbb, hnone] at hb'
          cases hb'
        · exact hothers b' hbb hb'
      rcases Nat.lt_succ_iff_lt_or_eq.mp hlt with hold | hnew
      · exact h.finished m' hm' ⟨hold, hother⟩ e he
      · have hmm : m' = m := h.eq_of_id hm' (List.mem_of_getElem? hm) (hnew.trans hid.symm)
        rw [hmm] at hself
        exact absurd rfl hself }

/-- The targets are all users that stay. -/
theorem Inv.snapshot (h : Inv s) (hb : s.tasks b = .dequeued m) :
    Inv (s.put b (.sending m s.accepted (s.getBroadcastTargets m.message) m.message.bytes)) := by
  have hm : (s.tasks b).envelope = some m := by rw [hb, Task.envelope]
  have hunsent : ∀ c, s.sent m.id c = [] := by
    have hworking := h.working b
    rwa [hb] at hworking
  apply h.goesOn hm
  · rintro m' ⟨⟩
    rfl
  · exact fun _ _ => rfl
  · exact List.Subset.refl _
  · refine ⟨h.nodup.sublist (List.filter_sublist.map _), ?_, ?_, ?_⟩
    · intro e he
      obtain ⟨htype, hfd, -⟩ := h.audience m (h.held b m hm).1 e he.2
      refine .inl (List.mem_map.mpr ⟨e, List.mem_filter.mpr ⟨he.1, ?_⟩, rfl⟩)
      simp [htype, hfd]
    · intro e fd rest _ _ _
      exact (congrArg (· ++ m.message.bytes) (hunsent e.conn)).trans (List.nil_append _)
    · intro e fd rest _ _ _
      exact hunsent e.conn
  · exact nofun

/-- `write` takes some of what is left, to the connection that has the number now. -/
theorem Inv.write (h : Inv s) {mark fd : Nat} {rest : List Nat}
    (hb : s.tasks b = .sending m mark (fd :: rest) left) (n : Nat) :
    Inv { s.put b (.sending m mark (fd :: rest) (left.drop n)) with
      sent := fun i c =>
        if i = m.id ∧ s.fds fd = some c then s.sent i c ++ left.take n else s.sent i c } := by
  have hm : (s.tasks b).envelope = some m := by rw [hb, Task.envelope]
  have hprogress : Progress s m (fd :: rest) left := h.progress hb
  apply h.goesOn hm
  · rintro m' ⟨⟩
    rfl
  · intro i hi
    funext c
    exact if_neg fun hc => hi hc.1
  · exact List.Subset.refl _
  · -- Of the users that stay, only the one with this number gets more.
    have hother : ∀ e, s.Stays m e → e.fd ≠ fd →
        (if m.id = m.id ∧ s.fds fd = some e.conn then s.sent m.id e.conn ++ left.take n
          else s.sent m.id e.conn) = s.sent m.id e.conn := by
      intro e he hne
      exact if_neg fun hc => hne ((h.conn_iff he fd).mp hc.2)
    refine ⟨hprogress.nodup, ?_, ?_, ?_⟩
    · intro e he
      by_cases hfd : e.fd = fd
      · exact .inl (hfd ▸ List.mem_cons_self)
      · rcases hprogress.reached e he with hmem | hall | hfail
        · exact .inl hmem
        · exact .inr (.inl ((hother e he hfd).trans hall))
        · exact .inr (.inr hfail)
    · rintro e fd' rest' he ⟨⟩ hfd
      have hnow : s.fds fd = some e.conn := (h.conn_iff he fd).mpr hfd
      show (if _ ∧ _ then _ else _) ++ _ = _
      rw [if_pos ⟨rfl, hnow⟩, List.append_assoc, List.take_append_drop]
      exact hprogress.current e fd rest he rfl hfd
    · rintro e fd' rest' he ⟨⟩ hrest
      have hne : e.fd ≠ fd := fun hfd => (List.nodup_cons.mp hprogress.nodup).1 (hfd ▸ hrest)
      exact (hother e he hne).trans (hprogress.pending e fd rest he rfl hrest)
  · exact nofun

/-- `write` has failed, and `Write` gives this target up. -/
theorem Inv.fail (h : Inv s) {mark fd : Nat} {rest : List Nat}
    (hb : s.tasks b = .sending m mark (fd :: rest) left) :
    Inv { s.put b (.sending m mark rest m.message.bytes) with
      failed := match s.fds fd with
        | some c => (m.id, c) :: s.failed
        | none => s.failed } := by
  have hm : (s.tasks b).envelope = some m := by rw [hb, Task.envelope]
  have hprogress : Progress s m (fd :: rest) left := h.progress hb
  have hgrows : s.failed ⊆ match s.fds fd with
      | some c => (m.id, c) :: s.failed
      | none => s.failed := by
    cases s.fds fd with
    | none => exact List.Subset.refl _
    | some c => exact List.subset_cons_self _ _
  apply h.goesOn hm
  · rintro m' ⟨⟩
    rfl
  · exact fun _ _ => rfl
  · exact hgrows
  · refine hprogress.advance (fun _ he => he) rfl hgrows fun e he hfd => .inr ?_
    show (m.id, e.conn) ∈ match s.fds fd with
      | some c => (m.id, c) :: s.failed
      | none => s.failed
    rw [(h.conn_iff he fd).mpr hfd]
    exact List.mem_cons_self
  · exact nofun

/-- `Write` has returned, and the next target is turned to. -/
theorem Inv.next (h : Inv s) {mark fd : Nat} {rest : List Nat}
    (hb : s.tasks b = .sending m mark (fd :: rest) []) :
    Inv (s.put b (.sending m mark rest m.message.bytes)) := by
  have hm : (s.tasks b).envelope = some m := by rw [hb, Task.envelope]
  have hprogress : Progress s m (fd :: rest) [] := h.progress hb
  apply h.goesOn hm
  · rintro m' ⟨⟩
    rfl
  · exact fun _ _ => rfl
  · exact List.Subset.refl _
  · refine hprogress.advance (fun _ he => he) rfl (List.Subset.refl _) fun e he hfd => .inl ?_
    have hall := hprogress.current e fd rest he rfl hfd
    rwa [List.append_nil] at hall
  · exact nofun

/-- No target is left: who stays is settled. -/
theorem Inv.finish (h : Inv s) {mark : Nat} (hb : s.tasks b = .sending m mark [] left) :
    Inv (s.put b .idle) := by
  have hm : (s.tasks b).envelope = some m := by rw [hb, Task.envelope]
  have hprogress : Progress s m [] left := h.progress hb
  apply h.goesOn hm
  · exact nofun
  · exact fun _ _ => rfl
  · exact List.Subset.refl _
  · trivial
  · intro _ e he
    rcases hprogress.reached e he with hnil | hsettled
    · cases hnil
    · exact hsettled

theorem Inv.step {label : Label B} (h : Inv s) (hstep : step s label = some s') : Inv s' := by
  cases steps_of_step hstep with
  | accept hfd => exact h.accept hfd _
  | list hfd hnew => exact h.list hfd hnew
  | unlist _ => exact h.unlist _
  | close hfd => exact h.close hfd
  | enqueue he hfd _ => exact h.enqueue he hfd
  | dequeue hb hm => exact h.dequeue hb hm
  | snapshot hb => exact h.snapshot hb
  | write hb _ _ => exact h.write hb _
  | fail hb _ => exact h.fail hb
  | next hb => exact h.next hb
  | finish hb => exact h.finish hb

end Facts

variable {s : State B} {meets : State B → Label B → Prop}

theorem inv_of_reaches (h : Reaches step meets start s) : Inv s :=
  h.invariant inv_start fun hinv _ hstep => hinv.step hstep

end ThunderChat.Broadcast

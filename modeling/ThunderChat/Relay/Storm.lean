import ThunderChat.Foundation.WorkPool
import ThunderChat.Server.ChatManager
import ThunderChat.Server.ChatServer
import Mathlib.Algebra.Order.Group.Multiset

/-!
Why the relay does not storm.

Servers and managers are connected in any way, with any ids: a server's frames may
come back to it, two servers may share an id, a manager may know a server under
another's. What breaks the cycles is not the comparison of ids but the client type.
Bytes that arrive on a manager's socket become a `RELAYED_MESSAGE`, which
`MessageBroadcast` does not send to managers again.

What is in flight waits in a `WorkPool`: bytes that have arrived at a server, messages
in its broadcast queue and frames on their way to a manager. Every write is an output,
tagged with the server and socket whose frame has caused it where a manager makes it.

* `ranked`: each processing step leads to items of lower rank.
* `yields_of_manager`: bytes from a manager lead to writes to users and nothing else.
* `quiet_after_text`: what one text leads to, in every run.
-/

namespace ThunderChat.Storm

variable {S M : Type}

/-- Chat servers `S`, managers `M` and their connections. `up` is the manager and its
connection at the other end of a server's socket, `down` the server and its socket at
the other end of a manager's. Servers know their managers' sockets as clients of type
`CLIENT_CHAT_MANAGER`, from `RegisterManager`. -/
structure Topology (S M : Type) where
  server : S → ChatServer
  manager : M → ChatManager
  up : S → Nat → Option (M × ClientChatServer)
  down : M → Nat → Option (S × Nat)
  registered : ∀ X, ∀ fd ∈ (server X).chatManagerSockets,
    ⟨fd, .chatManager⟩ ∈ (server X).clients
  down_socket : ∀ m fd X fd', down m fd = some (X, fd') → fd' ∈ (server X).chatManagerSockets

/-- What waits to be processed: bytes in the ring of a server's client, a message in its
broadcast queue, a frame on its way to the manager behind a socket. -/
inductive Item (S : Type) where
  | arrived (X : S) (fd : Nat) (bytes : List UInt8)
  | queued (X : S) (message : BroadcastMessage)
  | rising (X : S) (w : SocketWrite)

/-- A write of a server, or of a manager for the frame of a server's socket. -/
inductive Sent (S M : Type) where
  | byServer (X : S) (w : SocketWrite)
  | byManager (m : M) (cause : S × Nat) (w : SocketWrite)

namespace Topology

variable (N : Topology S M)

/-- The type of the client on a server's socket. -/
def typeOf (X : S) (fd : Nat) : ClientType :=
  (((N.server X).clients.find? fun c => c.fd = fd).map ChatClient.type).getD .nothing

/-- The socket is in the server's list of managers. -/
def toManager (X : S) (w : SocketWrite) : Bool := w.fd ∈ (N.server X).chatManagerSockets

/-- What a manager's write becomes at the other end of its connection. -/
def routeDown (m : M) (w : SocketWrite) : Option (Item S) :=
  (N.down m w.fd).map fun (X, fd) => .arrived X fd w.bytes

/-- Processing an item: what it leads to and the writes it makes. A frame is one packet,
which its reader executes once. -/
def process : Item S → Multiset (Item S) × Multiset (Sent S M)
  | .arrived X fd bytes =>
      let command := ChatUser.executeCommand (N.typeOf X fd) fd (received bytes)
      ((command.queued.toList.map (Item.queued X) : List (Item S)), 0)
  | .queued X message =>
      let writes := (N.server X).messageBroadcast message
      (((writes.filter (N.toManager X)).map (Item.rising X) : List (Item S)),
        (writes.map (Sent.byServer X) : List (Sent S M)))
  | .rising X w =>
      match N.up X w.fd with
      | none => (0, 0)
      | some (m, c) =>
          let writes := ((N.manager m).executeCommand c (received w.bytes)).writes
          ((writes.filterMap (N.routeDown m) : List (Item S)),
            (writes.map (Sent.byManager m (X, w.fd)) : List (Sent S M)))

/-- How many processing steps can follow one another behind an item. -/
def rank : Item S → Nat
  | .arrived X fd _ => if N.typeOf X fd = .chatManager then 1 else 4
  | .queued _ message => if message.messageType = .relayedMessage then 0 else 3
  | .rising _ _ => 2

variable {N} {X : S} {fd : Nat} {message : BroadcastMessage}

/-- A client's socket has the client's type. -/
theorem typeOf_of_mem {c : ChatClient} (h : c ∈ (N.server X).clients) :
    N.typeOf X c.fd = c.type := by
  have hfind : (N.server X).clients.find? (fun d => d.fd = c.fd) = some c := by
    obtain ⟨d, hd⟩ : ∃ d, (N.server X).clients.find? (fun d => d.fd = c.fd) = some d := by
      rw [← Option.isSome_iff_exists, List.find?_isSome]
      exact ⟨c, h, by simp⟩
    have hfd : d.fd = c.fd := by simpa using List.find?_some hd
    rw [hd, List.inj_on_of_nodup_map (N.server X).fds_nodup (List.mem_of_find?_eq_some hd) h hfd]
  rw [typeOf, hfind]
  rfl

/-- What is on a manager's socket came from a manager. -/
theorem typeOf_manager (h : fd ∈ (N.server X).chatManagerSockets) :
    N.typeOf X fd = .chatManager :=
  typeOf_of_mem (N.registered X fd h)

/-- A write to a user goes to no manager. -/
theorem toManager_userWrites {w : SocketWrite} (h : w ∈ (N.server X).userWrites message) :
    N.toManager X w = false := by
  obtain ⟨fd, hfd, rfl⟩ := List.mem_map.mp h
  obtain ⟨c, hc, rfl⟩ := List.mem_map.mp hfd
  obtain ⟨hmem, hkept⟩ := List.mem_filter.mp hc
  rw [Bool.and_eq_true, decide_eq_true_eq] at hkept
  rw [toManager, decide_eq_false_iff_not]
  intro hsocket
  have htype := typeOf_of_mem hmem
  rw [typeOf_manager hsocket, hkept.1] at htype
  cases htype

/-- The writes of a message to managers: none if it came from one, else one frame on each
socket of the list. -/
theorem filter_messageBroadcast : ((N.server X).messageBroadcast message).filter (N.toManager X)
    = if message.messageType = .relayedMessage then []
      else (N.server X).messageBroadcastToManagers message := by
  have husers : ((N.server X).userWrites message).filter (N.toManager X) = [] := by
    rw [List.filter_eq_nil_iff]
    intro w hw
    rw [toManager_userWrites hw]
    exact Bool.false_ne_true
  have hmanagers : ((N.server X).messageBroadcastToManagers message).filter (N.toManager X)
      = (N.server X).messageBroadcastToManagers message := by
    rw [List.filter_eq_self]
    intro w hw
    obtain ⟨fd, hfd, rfl⟩ := List.mem_map.mp hw
    exact decide_eq_true hfd
  rw [ChatServer.messageBroadcast, List.filter_append, husers, List.append_nil]
  by_cases htype : message.messageType = .relayedMessage
  · simp [htype]
  · simp [htype, hmanagers]

/-- Every processing step leads to items of lower rank. -/
theorem ranked (N : Topology S M) : WorkPool.Ranked N.process N.rank := by
  intro a b hb
  cases a with
  | arrived X fd bytes =>
      obtain ⟨message, hmessage, rfl⟩ := List.mem_map.mp (Multiset.mem_coe.mp hb)
      by_cases htype : N.typeOf X fd = .chatManager
      · rw [htype, Option.mem_toList] at hmessage
        have hrelayed := ChatUser.messageType_of_relay hmessage
        simp [rank, htype, hrelayed]
      · simp only [rank, if_neg htype]
        split <;> decide
  | queued X message =>
      obtain ⟨w, hw, rfl⟩ := List.mem_map.mp (Multiset.mem_coe.mp hb)
      rw [filter_messageBroadcast] at hw
      by_cases htype : message.messageType = .relayedMessage
      · rw [if_pos htype] at hw
        cases hw
      · simp [rank, htype]
  | rising X w =>
      simp only [process] at hb
      split at hb
      · cases hb
      · next m c _ =>
          obtain ⟨w', _, hroute⟩ := List.mem_filterMap.mp (Multiset.mem_coe.mp hb)
          obtain ⟨⟨Y, fd⟩, hdown, rfl⟩ := Option.map_eq_some_iff.mp hroute
          simp [rank, typeOf_manager (N.down_socket m _ Y fd hdown)]

/-! ### What each item leads to -/

/-- How many of the outputs an item leads to are of a kind. -/
def weight (N : Topology S M) (kind : Sent S M → Bool) (a : Item S) : Nat :=
  (WorkPool.yields N.process N.rank a).countP fun out => kind out = true

variable {kind : Sent S M → Bool}

theorem weight_eq (a : Item S) : N.weight kind a
    = (N.process a).2.countP (fun out => kind out = true)
      + ((N.process a).1.map (N.weight kind)).sum :=
  WorkPool.map_yields N.ranked (Multiset.countPAddMonoidHom fun out => kind out = true) a

/-- The kind is one of frames between servers and managers. -/
def Relaying (N : Topology S M) (kind : Sent S M → Bool) : Prop :=
  ∀ X w, kind (.byServer X w) = true → N.toManager X w = true

/-- A message from a manager leads to writes to users only. -/
theorem weight_relayed (hkind : N.Relaying kind) (h : message.messageType = .relayedMessage) :
    N.weight kind (.queued X message) = 0 := by
  have hnone : ((N.server X).messageBroadcast message).countP
      (fun w => kind (.byServer X w) = true) = 0 := by
    rw [List.countP_eq_zero]
    intro w hw hsent
    have hmem := List.mem_filter.mpr ⟨hw, hkind X w (by simpa using hsent)⟩
    rw [filter_messageBroadcast, if_pos h] at hmem
    cases hmem
  rw [weight_eq]
  simp only [process, filter_messageBroadcast, if_pos h]
  simpa [Function.comp_def] using hnone

/-- So do bytes from a manager, whatever they are. -/
theorem weight_of_manager {bytes : List UInt8} (hkind : N.Relaying kind)
    (h : N.typeOf X fd = .chatManager) : N.weight kind (.arrived X fd bytes) = 0 := by
  rw [weight_eq]
  simp only [process, h]
  cases hqueued : (ChatUser.executeCommand .chatManager fd (received bytes)).queued with
  | none => rfl
  | some message => simpa using weight_relayed hkind (ChatUser.messageType_of_relay hqueued)

/-- A frame to a manager leads to the manager's writes and to writes to users. -/
theorem weight_rising {w : SocketWrite} (hkind : N.Relaying kind) :
    N.weight kind (.rising X w)
      = (N.process (.rising X w)).2.countP fun out => kind out = true := by
  rw [weight_eq]
  simp only [process]
  split
  · rfl
  · next m c _ =>
      have hzero : ∀ b ∈ ((N.manager m).executeCommand c (received w.bytes)).writes.filterMap
          (N.routeDown m), N.weight kind b = 0 := by
        intro b hb
        obtain ⟨w', _, hroute⟩ := List.mem_filterMap.mp hb
        obtain ⟨⟨Y, fd⟩, hdown, rfl⟩ := Option.map_eq_some_iff.mp hroute
        exact weight_of_manager hkind (typeOf_manager (N.down_socket m _ Y fd hdown))
      have hsum := List.sum_eq_zero (l := (((N.manager m).executeCommand c
        (received w.bytes)).writes.filterMap (N.routeDown m)).map (N.weight kind)) <| by
          intro n hn
          obtain ⟨b, hb, rfl⟩ := List.mem_map.mp hn
          exact hzero b hb
      simpa using hsum

/-- A message leads to at most one frame on each socket of the list, and to what these
frames lead to. -/
theorem weight_queued_le : N.weight kind (.queued X message)
    ≤ ((N.server X).messageBroadcast message).countP (fun w => kind (.byServer X w) = true)
      + (((N.server X).messageBroadcastToManagers message).map fun w =>
          N.weight kind (.rising X w)).sum := by
  rw [weight_eq]
  simp only [process, filter_messageBroadcast]
  by_cases htype : message.messageType = .relayedMessage
  · simp [htype, Function.comp_def]
  · simp [htype, Function.comp_def]

/-- Bytes that arrive lead to at most one message and what this leads to. -/
theorem weight_arrived_le {bytes : List UInt8} {bound : Nat}
    (h : ∀ message, N.weight kind (.queued X message) ≤ bound) :
    N.weight kind (.arrived X fd bytes) ≤ bound := by
  rw [weight_eq]
  simp only [process]
  cases (ChatUser.executeCommand (N.typeOf X fd) fd (received bytes)).queued with
  | none => exact Nat.zero_le bound
  | some message => simpa using h message

/-- What a run from one item has written, of a kind. -/
theorem count_done_le {a : Item S} {p : WorkPool.Pool (Item S) (Sent S M)}
    (h : WorkPool.Run N.process ⟨{a}, 0⟩ p) :
    p.done.countP (fun out => kind out = true) ≤ N.weight kind a := by
  have hle := h.done_le N.ranked
  simp only [WorkPool.Pool.total, Multiset.singleton_bind, zero_add] at hle
  exact Multiset.countP_le_of_le _ hle

end Topology

/-! ### One text -/

/-- The output is a frame of a server to a manager. -/
def Sent.isFrame (N : Topology S M) : Sent S M → Bool
  | .byServer X w => N.toManager X w
  | .byManager .. => false

variable [DecidableEq S] [DecidableEq M]

/-- The output is a frame of the server `X` on a socket of its list of managers. -/
def Sent.isUp (N : Topology S M) (X : S) (entry : Nat) : Sent S M → Bool
  | .byServer Y w => decide (Y = X ∧ w.fd = entry) && N.toManager Y w
  | .byManager .. => false

/-- The output is a frame of the manager `m` on a connection, caused by the frame on a
server's socket. -/
def Sent.isDown (m : M) (cause : S × Nat) (fd : Nat) : Sent S M → Bool
  | .byServer .. => false
  | .byManager m' cause' w => decide (m' = m ∧ cause' = cause ∧ w.fd = fd)

namespace Topology

variable {N : Topology S M} {A X : S} {entry fd : Nat} {message : BroadcastMessage}

omit [DecidableEq S] [DecidableEq M] in
/-- The frames of a message on one socket of the list. -/
theorem count_managers : ((N.server A).messageBroadcastToManagers message).countP
    (fun w => w.fd = entry) = (N.server A).chatManagerSockets.count entry := by
  rw [ChatServer.messageBroadcastToManagers, List.countP_map, List.count]
  rfl

omit [DecidableEq M] in
/-- A server's message leads to at most one frame for each entry of its own list. -/
theorem weight_isUp_le : N.weight (Sent.isUp N X entry) (.queued A message)
    ≤ if X = A then (N.server A).chatManagerSockets.count entry else 0 := by
  have hrelaying : N.Relaying (Sent.isUp N X entry) := by
    intro Y w hup
    rw [Sent.isUp, Bool.and_eq_true] at hup
    exact hup.2
  have hrising : ∀ w, N.weight (Sent.isUp N X entry) (.rising A w) = 0 := by
    intro w
    rw [weight_rising hrelaying]
    simp only [process]
    split
    · rfl
    · simp [Sent.isUp]
  have hframes : ((N.server A).messageBroadcast message).countP
      (fun w => Sent.isUp N X entry (.byServer A w) = true)
      ≤ if X = A then (N.server A).chatManagerSockets.count entry else 0 := by
    by_cases hX : X = A
    · subst hX
      rw [if_pos rfl]
      calc ((N.server X).messageBroadcast message).countP
            (fun w => Sent.isUp N X entry (.byServer X w) = true)
          ≤ (((N.server X).messageBroadcast message).filter (N.toManager X)).countP
              (fun w => w.fd = entry) := by
            rw [List.countP_filter]
            refine List.countP_mono_left fun w _ hup => ?_
            simpa [Sent.isUp] using hup
        _ ≤ (N.server X).chatManagerSockets.count entry := by
            rw [filter_messageBroadcast]
            split
            · exact Nat.zero_le _
            · exact Nat.le_of_eq count_managers
    · rw [if_neg hX, Nat.le_zero, List.countP_eq_zero]
      intro w _ hup
      simp [Sent.isUp, Ne.symm hX] at hup
  refine weight_queued_le.trans ?_
  simpa [hrising] using hframes

/-- A frame leads to at most one frame on each connection of the manager. -/
theorem weight_isDown_rising_le {m : M} {w : SocketWrite} :
    N.weight (Sent.isDown m (X, entry) fd) (.rising A w)
      ≤ if decide (w.fd = entry) && decide (X = A) then 1 else 0 := by
  rw [weight_rising (by intro Y w h; cases h)]
  simp only [process]
  split
  · exact Nat.zero_le _
  · next m' c _ =>
      have hone := (N.manager m').count_executeCommand_le c (received w.bytes) fd
      have hcount : ((((N.manager m').executeCommand c (received w.bytes)).writes.map
            (Sent.byManager m' (A, w.fd)) : List (Sent S M)) : Multiset (Sent S M)).countP
            (fun out => Sent.isDown m (X, entry) fd out = true)
          = ((N.manager m').executeCommand c (received w.bytes)).writes.countP
            (fun w' => Sent.isDown m (X, entry) fd (.byManager m' (A, w.fd) w') = true) := by
        rw [Multiset.coe_countP, List.countP_map]
        rfl
      rw [hcount]
      split
      · refine (List.countP_mono_left fun w' _ hdown => ?_).trans hone
        simp only [Sent.isDown, decide_eq_true_eq] at hdown ⊢
        exact hdown.2.2
      · next hcause =>
          rw [Nat.le_zero, List.countP_eq_zero]
          intro w' _ hdown
          simp only [Sent.isDown, decide_eq_true_eq, Prod.mk.injEq] at hdown
          simp [hdown.2.1] at hcause

/-- A sum of terms that are at most one, and zero but for some elements. -/
theorem sum_map_le_countP {α : Type} {l : List α} {f : α → Nat} {p : α → Bool}
    (h : ∀ a, f a ≤ if p a then 1 else 0) : (l.map f).sum ≤ l.countP p := by
  induction l with
  | nil => exact Nat.le_refl 0
  | cons a rest ih =>
      rw [List.map_cons, List.sum_cons, List.countP_cons, Nat.add_comm]
      exact Nat.add_le_add ih (h a)

/-- A server's message leads, for each entry of its own list, to at most one frame on
each connection of a manager. -/
theorem weight_isDown_le {m : M} : N.weight (Sent.isDown m (X, entry) fd) (.queued A message)
    ≤ if X = A then (N.server A).chatManagerSockets.count entry else 0 := by
  refine weight_queued_le.trans ?_
  have hservers : ((N.server A).messageBroadcast message).countP
      (fun w => Sent.isDown m (X, entry) fd (.byServer A w) = true) = 0 := by
    simp [Sent.isDown]
  rw [hservers, Nat.zero_add]
  refine (sum_map_le_countP fun w => weight_isDown_rising_le).trans ?_
  by_cases hX : X = A
  · subst hX
    simp only [decide_true, Bool.and_true, if_true]
    exact Nat.le_of_eq count_managers
  · simp [hX]

omit [DecidableEq S] [DecidableEq M] in
/-- Bytes from a manager lead to writes to users and nothing else. -/
theorem toUser_of_manager {bytes : List UInt8} {p : WorkPool.Pool (Item S) (Sent S M)}
    (h : fd ∈ (N.server X).chatManagerSockets)
    (hrun : WorkPool.Run N.process ⟨{.arrived X fd bytes}, 0⟩ p) :
    ∀ Y w, .byServer Y w ∈ p.done → N.toManager Y w = false := by
  intro Y w hmem
  have hrelaying : N.Relaying (Sent.isFrame N) := fun _ _ hframe => hframe
  have hzero : p.done.countP (fun out => Sent.isFrame N out = true) ≤ 0 :=
    (count_done_le hrun).trans (Nat.le_of_eq (weight_of_manager hrelaying (typeOf_manager h)))
  rw [Nat.le_zero, Multiset.countP_eq_zero] at hzero
  simpa [Sent.isFrame] using hzero _ hmem

end Topology

/-- **No broadcast storm.** Whatever the connections and the ids, and in whatever order
what is in flight is processed:

* text from a user causes at most one frame for each entry of its server's list of
  managers and none of another server, and each of these frames at most one frame on
  each connection of a manager;
* bytes from a manager cause no frame to a manager;
* every run ends, and always with the same writes. -/
theorem quiet (N : Topology S M) :
    (∀ A fd bytes p, WorkPool.Run N.process ⟨{.arrived A fd bytes}, 0⟩ p → ∀ X entry,
      p.done.countP (fun out => Sent.isUp N X entry out = true)
        ≤ (if X = A then (N.server A).chatManagerSockets.count entry else 0) ∧
      ∀ m fd', p.done.countP (fun out => Sent.isDown m (X, entry) fd' out = true)
        ≤ (if X = A then (N.server A).chatManagerSockets.count entry else 0)) ∧
    (∀ X, ∀ fd ∈ (N.server X).chatManagerSockets, ∀ bytes p,
      WorkPool.Run N.process ⟨{.arrived X fd bytes}, 0⟩ p →
      ∀ Y w, .byServer Y w ∈ p.done → N.toManager Y w = false) ∧
    (∀ p, Acc (fun q p => WorkPool.Step N.process p q) p) ∧
    ∀ p, ∃ outs, ∀ q, WorkPool.Run N.process p q → WorkPool.Run N.process q ⟨0, outs⟩ := by
  refine ⟨?_, ?_, (WorkPool.step_wf N.ranked).apply, ?_⟩
  · intro A fd bytes p hrun X entry
    refine ⟨?_, fun m fd' => ?_⟩
    · exact (Topology.count_done_le hrun).trans
        (Topology.weight_arrived_le fun _ => Topology.weight_isUp_le)
    · exact (Topology.count_done_le hrun).trans
        (Topology.weight_arrived_le fun _ => Topology.weight_isDown_le)
  · intro X fd hfd bytes p hrun
    exact Topology.toUser_of_manager hfd hrun
  · intro p
    refine ⟨p.total N.process N.rank, fun q hrun => ?_⟩
    rw [← hrun.total_eq N.ranked]
    exact WorkPool.run_total N.ranked q

/-- A server whose manager knows it under another id, so that its frames come back. -/
def echo : Topology Unit Unit where
  server _ :=
    { uniqId := 41
      clients := [⟨13, .chatManager⟩, ⟨15, .user⟩]
      chatManagerSockets := [13]
      uniqId_lt := by decide
      fds_nodup := by decide }
  manager _ :=
    { chatServers := [⟨7, .chatServer, 42, by decide⟩]
      dsMaxUser := 1000
      fds_nodup := by decide }
  up _ fd := if fd = 13 then some ((), ⟨7, .chatServer, 42, by decide⟩) else none
  down _ fd := if fd = 7 then some ((), 13) else none
  registered X fd h := by
    rw [List.mem_singleton.mp h]
    exact List.mem_cons_self
  down_socket m fd X fd' h := by
    split at h
    · cases h
      exact List.mem_cons_self
    · cases h

/-- A text of its user: one frame up and one frame back. -/
theorem quiet_echo : ∃ outs,
    WorkPool.Run echo.process ⟨{.arrived () 15 [33]}, 0⟩ ⟨0, outs⟩ ∧
      outs.countP (fun out => Sent.isUp echo () 13 out = true) ≤ 1 ∧
      outs.countP (fun out => Sent.isDown () ((), 13) 7 out = true) ≤ 1 := by
  have hrun := WorkPool.run_total echo.ranked ⟨{.arrived () 15 [33]}, 0⟩
  obtain ⟨hup, hdown⟩ := (quiet echo).1 () 15 [33] _ hrun () 13
  exact ⟨_, hrun, hup, hdown () 7⟩

end ThunderChat.Storm

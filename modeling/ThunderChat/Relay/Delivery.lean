import ThunderChat.Foundation.WorkPool
import ThunderChat.Server.ChatManager
import ThunderChat.Server.ChatServer
import Mathlib.Algebra.BigOperators.Fin
import Mathlib.Algebra.Order.Group.Multiset
import Mathlib.Tactic.FinCases
import Mathlib.Data.List.FinRange

/-!
A text on its way through all servers and managers.

Every chat server has one connection for each entry of the configured list of
managers. A text is broadcast to the server's own users and to all its managers, each
manager forwards it to the connections of the other servers, and these deliver it to
their users. Frames and messages wait in a `WorkPool` and are processed one by one in
any order; on every link the order of the frames is one of these.

Nothing in the code recognises a text that has come over another manager before, so
every pair of connections to the same manager, one of the sender's server and one of
the receiver's, is a way of its own.

* `delivers`: every run ends; the sender's server has then delivered the text once to
  each user but the sender, and every other server once for each way.
* `ways_of_nodup`: with different managers there are as many ways as managers.
-/

namespace ThunderChat.Delivery

open scoped BigOperators

variable {S M : Type}

/-- Chat servers `S` that are connected to every manager of one configured list and
registered there with their own ids. `link` and `peer` are the connections seen from
their two ends. -/
structure Network (S M : Type) where
  managers : List M
  server : S → ChatServer
  manager : M → ChatManager
  /-- A server's socket for an entry of the list, and the manager's for the same
  connection. -/
  serverFd : S → Fin managers.length → Nat
  managerFd : S → Fin managers.length → Nat
  link : S → Nat → Option (Fin managers.length)
  peer : M → Nat → Option (S × Fin managers.length)
  link_iff : ∀ X fd k, link X fd = some k ↔ serverFd X k = fd
  peer_iff : ∀ m fd X k, peer m fd = some (X, k) ↔ managers.get k = m ∧ managerFd X k = fd
  sockets : ∀ X, (server X).chatManagerSockets = List.ofFn (serverFd X)
  registered : ∀ X k, ⟨serverFd X k, .chatManager⟩ ∈ (server X).clients
  connected : ∀ m c, c ∈ (manager m).chatServers ↔ ∃ X k, managers.get k = m ∧
    c = ⟨managerFd X k, .chatServer, (server X).uniqId, (server X).uniqId_lt⟩
  ids_lt : ∀ X, (server X).uniqId < 2 ^ 31
  ids_injective : Function.Injective fun X => (server X).uniqId

namespace Network

/-- The manager of an entry. -/
def host (N : Network S M) (k : Fin N.managers.length) : M := N.managers.get k

/-- The manager's end of a server's connection. -/
def connection (N : Network S M) (X : S) (k : Fin N.managers.length) : ClientChatServer :=
  ⟨N.managerFd X k, .chatServer, (N.server X).uniqId, (N.server X).uniqId_lt⟩

end Network

/-- What waits to be processed: text in a user's ring, a message in the broadcast
queue, a frame to a manager, a frame to a server. -/
inductive Item (S : Type) (n : Nat) where
  | typed (X : S) (fd : Nat) (bytes : List UInt8)
  | queued (X : S) (message : BroadcastMessage)
  | up (X : S) (k : Fin n) (frame : List UInt8)
  | down (X : S) (k : Fin n) (frame : List UInt8)

namespace Network

variable (N : Network S M)

/-- The item of a write to a manager's socket. -/
def routeUp (X : S) (w : SocketWrite) : Option (Item S N.managers.length) :=
  (N.link X w.fd).map fun k => .up X k w.bytes

/-- The item of a write to a server's connection. -/
def routeDown (m : M) (w : SocketWrite) : Option (Item S N.managers.length) :=
  (N.peer m w.fd).map fun (X, k) => .down X k w.bytes

/-- Processing an item: new items, and the writes to users. A broadcast does not
change the manager. -/
def process : Item S N.managers.length →
    Multiset (Item S N.managers.length) × Multiset (S × SocketWrite)
  | .typed X fd bytes =>
      let command := ChatUser.executeCommand .user fd (received bytes)
      ((command.queued.toList.map (Item.queued X) : List (Item S N.managers.length)), 0)
  | .queued X message =>
      let writes := (N.server X).messageBroadcast message
      (writes.filterMap (N.routeUp X),
        (writes.filter fun w => (N.link X w.fd).isNone).map fun w => (X, w))
  | .up X k frame =>
      let command := (N.manager (N.host k)).executeCommand (N.connection X k) (received frame)
      (command.writes.filterMap (N.routeDown (N.host k)), 0)
  | .down X k frame =>
      let command := ChatUser.executeCommand .chatManager (N.serverFd X k) (received frame)
      ((command.queued.toList.map (Item.queued X) : List (Item S N.managers.length)), 0)

/-- How many processing steps can follow one another behind an item. -/
def rank : Item S N.managers.length → Nat
  | .typed .. => 4
  | .queued _ message => if message.messageType = .relayedMessage then 0 else 3
  | .up .. => 2
  | .down .. => 1

variable {N} {X Y : S} {message : BroadcastMessage}

/-- A user's socket is no manager's. -/
theorem user_fd_ne {c : ChatClient} (hc : c ∈ (N.server X).clients) (huser : c.type = .user)
    (k : Fin N.managers.length) : c.fd ≠ N.serverFd X k := by
  intro hfd
  have heq := List.inj_on_of_nodup_map (N.server X).fds_nodup hc (N.registered X k) hfd
  subst heq
  cases huser

theorem link_userWrites {w : SocketWrite} (h : w ∈ (N.server X).userWrites message) :
    N.link X w.fd = none := by
  obtain ⟨fd, hfd, rfl⟩ := List.mem_map.mp h
  obtain ⟨c, hc, rfl⟩ := List.mem_map.mp hfd
  obtain ⟨hmem, htype⟩ := List.mem_filter.mp hc
  have huser : c.type = .user := by
    rw [Bool.and_eq_true, decide_eq_true_eq] at htype
    exact htype.1
  rw [Option.eq_none_iff_forall_ne_some]
  intro k hk
  exact user_fd_ne hmem huser k ((N.link_iff X c.fd k).mp hk).symm

/-- The frames of a message to the managers: one on each connection. -/
theorem routeUp_managers : ((N.server X).messageBroadcastToManagers message).filterMap (N.routeUp X)
    = (List.finRange N.managers.length).map fun k =>
      .up X k ((N.server X).broadcastPacket message).frame := by
  rw [ChatServer.messageBroadcastToManagers, N.sockets, List.ofFn_eq_map, List.map_map,
    List.filterMap_map, ← List.filterMap_eq_map]
  apply List.filterMap_congr
  intro k _
  simp [routeUp, (N.link_iff X (N.serverFd X k) k).mpr rfl]

/-- The frames a message is sent to the managers in. -/
def copies (N : Network S M) (X : S) (message : BroadcastMessage) :
    List (Item S N.managers.length) :=
  if message.messageType = .relayedMessage then [] else
    (List.finRange N.managers.length).map fun k =>
      .up X k ((N.server X).broadcastPacket message).frame

/-- The writes of a message to the users of a server. -/
def userDeliveries (N : Network S M) (X : S) (message : BroadcastMessage) :
    List (S × SocketWrite) :=
  ((N.server X).userWrites message).map fun w => (X, w)

/-- A message goes to the managers unless it came from one, and to the users. -/
theorem process_queued : N.process (.queued X message)
    = (↑(N.copies X message), ↑(N.userDeliveries X message)) := by
  have hup : ((N.server X).userWrites message).filterMap (N.routeUp X) = [] := by
    rw [List.filterMap_eq_nil_iff]
    intro w hw
    rw [routeUp, link_userWrites hw, Option.map_none]
  have hkept : ((N.server X).userWrites message).filter (fun w => (N.link X w.fd).isNone)
      = (N.server X).userWrites message := by
    rw [List.filter_eq_self]
    intro w hw
    rw [link_userWrites hw]
    rfl
  have hnone : ((N.server X).messageBroadcastToManagers message).filter
      (fun w => (N.link X w.fd).isNone) = [] := by
    rw [List.filter_eq_nil_iff]
    intro w hw
    obtain ⟨fd, hfd, rfl⟩ := List.mem_map.mp hw
    rw [N.sockets, List.mem_ofFn] at hfd
    obtain ⟨k, rfl⟩ := hfd
    simp [(N.link_iff X (N.serverFd X k) k).mpr rfl]
  simp only [process, ChatServer.messageBroadcast, copies, userDeliveries]
  by_cases htype : message.messageType = .relayedMessage
  · simp [htype, hup, hkept]
  · simp [htype, hup, hkept, hnone, routeUp_managers]

/-- Every processing step leads to items of lower rank. -/
theorem ranked (N : Network S M) : WorkPool.Ranked N.process N.rank := by
  intro a b hb
  cases a with
  | typed X fd bytes =>
      obtain ⟨message, _, rfl⟩ := List.mem_map.mp (Multiset.mem_coe.mp hb)
      simp only [rank]
      split <;> decide
  | queued X message =>
      rw [process_queued] at hb
      have hmem : b ∈ N.copies X message := Multiset.mem_coe.mp hb
      rw [copies] at hmem
      split at hmem
      · cases hmem
      · next htype =>
          obtain ⟨k, _, rfl⟩ := List.mem_map.mp hmem
          simp [rank, htype]
  | up X k frame =>
      obtain ⟨w, _, hroute⟩ := List.mem_filterMap.mp (Multiset.mem_coe.mp hb)
      obtain ⟨⟨Y, j⟩, _, rfl⟩ := Option.map_eq_some_iff.mp hroute
      simp [rank]
  | down X k frame =>
      obtain ⟨message, hmessage, rfl⟩ := List.mem_map.mp (Multiset.mem_coe.mp hb)
      have htype := ChatUser.messageType_of_relay (Option.mem_toList.mp hmessage)
      simp [rank, htype]

/-! ### The way of one text -/

variable {A : S} {text : Text}

/-- A typed text becomes a message. -/
theorem process_typed {fd : Nat} :
    N.process (.typed A fd text.bytes) = ({.queued A (text.message fd)}, 0) := by
  have hqueued : (ChatUser.executeCommand .user fd (received text.bytes)).queued
      = some (text.message fd) :=
    ChatUser.queued_of_text (SafeRing.putFresh text.bytes text.le_bufsize)
  simp only [process, hqueued]
  rfl

/-- The packet of a text at another server becomes a relayed message. -/
theorem process_down {uniqId : Nat} {k : Fin N.managers.length} :
    N.process (.down X k (text.packet uniqId).encode)
      = ({.queued X (ChatUser.relayedMessage (N.serverFd X k) (text.packet uniqId).body.length
          (text.packet uniqId).toTPacket)}, 0) := by
  simp only [process, ChatUser.queued_of_received (p := text.packet uniqId) rfl]
  rfl

/-- The connections an entry's manager forwards a packet of `A` to. -/
def targets (N : Network S M) (A : S) (k : Fin N.managers.length) :
    List (S × Fin N.managers.length) :=
  (((N.manager (N.host k)).chatServers.filter fun c => !c.isOrigin (N.server A).uniqId).map
    ClientChatServer.fd).filterMap (N.peer (N.host k))

/-- The managers take a server's own connections for the origin of its packets. -/
theorem isOrigin_connection {X : S} {j : Fin N.managers.length} :
    (N.connection X j).isOrigin (N.server A).uniqId = true ↔ X = A := by
  rw [ClientChatServer.isOrigin_of_lt (N.ids_lt X) (N.ids_lt A), decide_eq_true_eq]
  exact N.ids_injective.eq_iff

/-- Every connection of another server to the same manager is a target. -/
theorem mem_targets {k j : Fin N.managers.length} :
    (Y, j) ∈ N.targets A k ↔ N.host j = N.host k ∧ Y ≠ A := by
  rw [targets, List.mem_filterMap]
  constructor
  · rintro ⟨fd, hfd, hpeer⟩
    obtain ⟨c, hc, rfl⟩ := List.mem_map.mp hfd
    obtain ⟨hmem, hnot⟩ := List.mem_filter.mp hc
    obtain ⟨X, i, hhost, rfl⟩ := (N.connected _ c).mp hmem
    have hown : N.peer (N.host k) (N.managerFd X i) = some (X, i) :=
      (N.peer_iff _ _ _ _).mpr ⟨hhost, rfl⟩
    cases hown.symm.trans hpeer
    refine ⟨hhost, fun heq => ?_⟩
    have horigin : (N.connection Y j).isOrigin (N.server A).uniqId = true :=
      isOrigin_connection.mpr heq
    rw [connection] at horigin
    rw [horigin] at hnot
    cases hnot
  · rintro ⟨hhost, hne⟩
    refine ⟨N.managerFd Y j, List.mem_map.mpr ⟨N.connection Y j, ?_, rfl⟩,
      (N.peer_iff _ _ _ _).mpr ⟨hhost, rfl⟩⟩
    refine List.mem_filter.mpr ⟨(N.connected _ _).mpr ⟨Y, j, hhost, rfl⟩, ?_⟩
    rw [Bool.not_eq_true', Bool.eq_false_iff, Ne, isOrigin_connection]
    exact hne

theorem nodup_targets {k : Fin N.managers.length} : (N.targets A k).Nodup := by
  apply List.Nodup.filterMap
  · intro fd fd' target htarget htarget'
    obtain ⟨X, i⟩ := target
    exact ((N.peer_iff _ _ _ _).mp htarget).2.symm.trans ((N.peer_iff _ _ _ _).mp htarget').2
  · exact (N.manager (N.host k)).fds_nodup.sublist (List.filter_sublist.map _)

/-- The manager of an entry forwards a packet to the targets. -/
theorem process_up {k : Fin N.managers.length} :
    N.process (.up A k (text.packet (N.server A).uniqId).encode)
      = (↑((N.targets A k).map fun target =>
          Item.down target.1 target.2 (text.packet (N.server A).uniqId).encode), 0) := by
  have hid : (text.packet (N.server A).uniqId).toTPacket.uniqId = (N.server A).uniqId :=
    text.packet_uniqId (N.server A).uniqId_lt
  simp only [process, ChatManager.writes_of_received (p := text.packet (N.server A).uniqId) rfl]
  rw [ChatManager.messageBroadcast, hid, Packet.toTPacket_frame, List.filterMap_map, targets,
    List.filterMap_map, List.map_filterMap]
  rfl

end Network

/-! ### How often a user is reached -/

section Count

variable [DecidableEq S] {N : Network S M} {A X Z : S} {text : Text}

/-- How many of the writes go to the socket `fd` of the server `Z`. -/
def hits (Z : S) (fd : Nat) (outs : Multiset (S × SocketWrite)) : Nat :=
  outs.countP fun out => out.1 = Z ∧ out.2.fd = fd

namespace Network

/-- The pairs of entries with the same manager. -/
def ways [DecidableEq M] (N : Network S M) : Nat :=
  ∑ k, (Finset.univ.filter fun j => N.host j = N.host k).card

/-- How often an item leads to a write to the socket `fd` of `Z`. -/
def weight (N : Network S M) (Z : S) (fd : Nat) (a : Item S N.managers.length) : Nat :=
  hits Z fd (WorkPool.yields N.process N.rank a)

theorem weight_eq {fd : Nat} (a : Item S N.managers.length) : N.weight Z fd a
    = hits Z fd (N.process a).2 + ((N.process a).1.map (N.weight Z fd)).sum :=
  WorkPool.map_yields N.ranked
    (Multiset.countPAddMonoidHom fun out : S × SocketWrite => out.1 = Z ∧ out.2.fd = fd) a

/-- An item that is replaced by one other and writes nothing counts as that one. -/
theorem weight_of_single {fd : Nat} {a b : Item S N.managers.length}
    (h : N.process a = ({b}, 0)) : N.weight Z fd a = N.weight Z fd b := by
  rw [weight_eq, h, Multiset.map_singleton, Multiset.sum_singleton]
  exact Nat.zero_add _

/-- Of the targets of a packet, those of one other server are its connections to the
manager. -/
theorem filter_targets [DecidableEq M] {k : Fin N.managers.length} (hA : A ≠ Z) :
    (N.targets A k).toFinset.filter (fun target => target.1 = Z)
      = (Finset.univ.filter fun j => N.host j = N.host k).map
        ⟨fun j => (Z, j), fun _ _ h => congrArg Prod.snd h⟩ := by
  ext ⟨Y, j⟩
  simp only [Finset.mem_filter, List.mem_toFinset, mem_targets, Finset.mem_map,
    Finset.mem_univ, true_and]
  constructor
  · rintro ⟨⟨hhost, _⟩, rfl⟩
    exact ⟨j, hhost, rfl⟩
  · rintro ⟨i, hhost, hpair⟩
    cases hpair
    exact ⟨⟨hhost, Ne.symm hA⟩, rfl⟩

/-- How many targets of a packet belong to one server. -/
theorem sum_targets [DecidableEq M] {k : Fin N.managers.length} :
    ((N.targets A k).map fun target => if target.1 = Z then 1 else 0).sum
      = if A = Z then 0 else (Finset.univ.filter fun j => N.host j = N.host k).card := by
  have hcard : ((N.targets A k).map fun target => if target.1 = Z then 1 else 0).sum
      = ((N.targets A k).toFinset.filter fun target => target.1 = Z).card := by
    rw [Finset.card_filter, List.sum_toFinset _ nodup_targets]
  rw [hcard]
  split
  · next hA =>
      subst hA
      rw [Finset.card_eq_zero, Finset.filter_eq_empty_iff]
      rintro ⟨Y, j⟩ hmem heq
      exact (mem_targets.mp (List.mem_toFinset.mp hmem)).2 heq
  · next hA => rw [filter_targets hA, Finset.card_map]

variable {c : ChatClient} (hc : c ∈ (N.server Z).clients) (huser : c.type = .user)
include hc huser

/-- A message reaches a user of its server once, unless it came from that socket. -/
theorem hits_userDeliveries {message : BroadcastMessage} :
    hits Z c.fd (N.userDeliveries X message : Multiset (S × SocketWrite))
      = if X = Z ∧ c.fd ≠ message.socketFd then 1 else 0 := by
  rw [hits, userDeliveries, Multiset.coe_countP, List.countP_map]
  by_cases hX : X = Z
  · subst hX
    have hcount : (writesTo c.fd ((N.server X).userWrites message)).length
        = if X = X ∧ c.fd ≠ message.socketFd then 1 else 0 := by
      rw [ChatServer.writesTo_userWrites hc]
      by_cases hfd : c.fd = message.socketFd <;> simp [huser, hfd]
    rw [← hcount, writesTo, List.length_map, ← List.countP_eq_length_filter]
    congr 1
    funext w
    simp
  · rw [if_neg (fun h => hX h.1), List.countP_eq_zero]
    intro w _
    simp [hX]

/-- A relayed message reaches the users of its server once. -/
theorem weight_relayed {k : Fin N.managers.length} {length : Nat} {packet : TPacket} :
    N.weight Z c.fd (.queued X (ChatUser.relayedMessage (N.serverFd X k) length packet))
      = if X = Z then 1 else 0 := by
  have hcopies : N.copies X (ChatUser.relayedMessage (N.serverFd X k) length packet) = [] := by
    rw [copies, if_pos (by simp only [ChatUser.relayedMessage])]
  have hsocket : (ChatUser.relayedMessage (N.serverFd X k) length packet).socketFd
      = N.serverFd X k := by
    simp only [ChatUser.relayedMessage]
  rw [weight_eq, process_queued, hcopies]
  show hits Z c.fd ↑(N.userDeliveries X _) + 0 = _
  rw [hits_userDeliveries hc huser, hsocket, Nat.add_zero]
  by_cases hX : X = Z
  · subst hX
    rw [if_pos ⟨rfl, user_fd_ne hc huser k⟩, if_pos rfl]
  · rw [if_neg fun h => hX h.1, if_neg hX]

/-- A frame from a manager reaches the users of its server once. -/
theorem weight_down {uniqId : Nat} {k : Fin N.managers.length} :
    N.weight Z c.fd (.down X k (text.packet uniqId).encode) = if X = Z then 1 else 0 := by
  rw [weight_of_single process_down, weight_relayed hc huser]

/-- A frame to a manager reaches the users of every other server once for each of
that server's connections to the manager. -/
theorem weight_up [DecidableEq M] {k : Fin N.managers.length} :
    N.weight Z c.fd (.up A k (text.packet (N.server A).uniqId).encode)
      = if A = Z then 0 else (Finset.univ.filter fun j => N.host j = N.host k).card := by
  have hdown : (N.targets A k).map (N.weight Z c.fd ∘ fun target =>
      Item.down target.1 target.2 (text.packet (N.server A).uniqId).encode)
      = (N.targets A k).map fun target => if target.1 = Z then 1 else 0 := by
    apply List.map_congr_left
    intro target _
    rw [Function.comp_apply, weight_down hc huser]
  rw [weight_eq, process_up, ← sum_targets, ← hdown, Multiset.map_coe, Multiset.sum_coe,
    List.map_map]
  exact Nat.zero_add _

/-- A typed text reaches the other users of its server once, and the users of every
other server once for each way. -/
theorem weight_typed [DecidableEq M] {fd : Nat} : N.weight Z c.fd (.typed A fd text.bytes)
    = if A = Z then (if c.fd = fd then 0 else 1) else N.ways := by
  have hcopies : N.copies A (text.message fd) = (List.finRange N.managers.length).map fun k =>
      .up A k (text.packet (N.server A).uniqId).encode := by
    rw [copies, if_neg (by simp [Text.message]), ChatServer.frame_of_text]
  have hways : ((List.finRange N.managers.length).map fun k =>
      N.weight Z c.fd (.up A k (text.packet (N.server A).uniqId).encode)).sum
      = if A = Z then 0 else N.ways := by
    simp only [weight_up hc huser]
    split
    · simp
    · rw [ways, ← List.ofFn_eq_map, Fin.sum_ofFn]
  rw [weight_of_single process_typed, weight_eq, process_queued, hcopies, Multiset.map_coe,
    Multiset.sum_coe, List.map_map, Function.comp_def, hways, hits_userDeliveries hc huser,
    text.message_socketFd]
  by_cases hA : A = Z <;> by_cases hfd : c.fd = fd <;> simp [hA, hfd]

end Network

omit [DecidableEq S] in
/-- With different managers every entry is one way. -/
theorem Network.ways_of_nodup [DecidableEq M] (h : N.managers.Nodup) :
    N.ways = N.managers.length := by
  have hinjective : Function.Injective N.host := List.nodup_iff_injective_get.mp h
  have hone : ∀ k, (Finset.univ.filter fun j => N.host j = N.host k).card = 1 := by
    intro k
    rw [Finset.card_eq_one]
    refine ⟨k, ?_⟩
    ext j
    simp [hinjective.eq_iff]
  simp [ways, hone]

/-- One text of a user. -/
structure Utterance (N : Network S M) where
  server : S
  sender : ChatClient
  text : Text
  mem : sender ∈ (N.server server).clients
  isUser : sender.type = .user

/-- The text is in its sender's ring, and nothing else is on its way. -/
def Utterance.start (u : Utterance N) :
    WorkPool.Pool (Item S N.managers.length) (S × SocketWrite) :=
  ⟨{.typed u.server u.sender.fd u.text.bytes}, 0⟩

omit [DecidableEq S] in
theorem Utterance.total_start (u : Utterance N) : u.start.total N.process N.rank
    = WorkPool.yields N.process N.rank (.typed u.server u.sender.fd u.text.bytes) := by
  simp [start, WorkPool.Pool.total]

omit [DecidableEq S] in
/-- Clients of one server are told apart by their sockets. -/
theorem Utterance.fd_eq_iff (u : Utterance N) {c : ChatClient}
    (hc : c ∈ (N.server u.server).clients) : c.fd = u.sender.fd ↔ c = u.sender :=
  ⟨fun h => List.inj_on_of_nodup_map (N.server u.server).fds_nodup hc u.mem h, fun h => h ▸ rfl⟩

/-- **How often a text is delivered.** Whatever the order of processing, every run ends,
every state reached can be run to the end, and the writes at the end are always the
same: the text once to every user of the sender's server but the sender, and once for
each way to every user of every other server. -/
theorem delivers [DecidableEq M] (N : Network S M) (u : Utterance N) : ∃ outs,
    (∀ p, WorkPool.Run N.process u.start p → WorkPool.Run N.process p ⟨0, outs⟩) ∧
    (∀ outs', WorkPool.Run N.process u.start ⟨0, outs'⟩ → outs' = outs) ∧
    Acc (fun q p => WorkPool.Step N.process p q) u.start ∧
    (∀ Z, ∀ c ∈ (N.server Z).clients, c.type = .user → hits Z c.fd outs
      = if Z = u.server then (if c = u.sender then 0 else 1) else N.ways) ∧
    (N.managers.Nodup → N.ways = N.managers.length) := by
  refine ⟨u.start.total N.process N.rank, ?_, ?_, ?_, ?_, Network.ways_of_nodup⟩
  · intro p hrun
    rw [← hrun.total_eq N.ranked]
    exact WorkPool.run_total N.ranked p
  · intro outs' hrun
    rw [← hrun.total_eq N.ranked]
    simp [WorkPool.Pool.total]
  · exact (WorkPool.step_wf N.ranked).apply _
  · intro Z c hc huser
    rw [u.total_start]
    have hweight : N.weight Z c.fd (.typed u.server u.sender.fd u.text.bytes)
        = if u.server = Z then (if c.fd = u.sender.fd then 0 else 1) else N.ways :=
      Network.weight_typed hc huser
    rw [← Network.weight, hweight]
    by_cases hZ : u.server = Z
    · subst hZ
      simp [u.fd_eq_iff hc]
    · rw [if_neg hZ, if_neg (Ne.symm hZ)]

end Count

/-! ### Two managers -/

/-- Every run delivers the text once to each user but the sender. -/
def ExactlyOnce [DecidableEq S] (N : Network S M) (u : Utterance N) : Prop :=
  ∀ outs, WorkPool.Run N.process u.start ⟨0, outs⟩ → ∀ Z, ∀ c ∈ (N.server Z).clients,
    c.type = .user → hits Z c.fd outs = if Z = u.server ∧ c = u.sender then 0 else 1

/-- Two servers with two users each, and two managers. -/
def twoManagers : Network Bool Bool where
  managers := [false, true]
  server X :=
    { uniqId := if X then 12 else 11
      clients := [⟨3, .chatManager⟩, ⟨4, .chatManager⟩, ⟨5, .user⟩, ⟨6, .user⟩]
      chatManagerSockets := [3, 4]
      uniqId_lt := by split <;> decide
      fds_nodup := by decide }
  manager _ :=
    { chatServers := [⟨7, .chatServer, 11, by decide⟩, ⟨8, .chatServer, 12, by decide⟩]
      dsMaxUser := 1000
      fds_nodup := by decide }
  serverFd _ k := 3 + k
  managerFd X _ := if X then 8 else 7
  link _ fd := if fd = 3 then some 0 else if fd = 4 then some 1 else none
  peer m fd :=
    let k := if m then 1 else 0
    if fd = 7 then some (false, k) else if fd = 8 then some (true, k) else none
  link_iff X fd k := by
    fin_cases k <;> grind
  peer_iff m fd X k := by
    fin_cases k <;> cases m <;> cases X <;> grind
  sockets X := rfl
  registered X k := by fin_cases k <;> simp
  connected m c := by
    constructor
    · intro hc
      rcases List.mem_cons.mp hc with rfl | hc
      · exact ⟨false, if m then 1 else 0, by cases m <;> rfl, rfl⟩
      · rw [List.mem_singleton.mp hc]
        exact ⟨true, if m then 1 else 0, by cases m <;> rfl, rfl⟩
    · rintro ⟨X, k, _, rfl⟩
      cases X <;> simp
  ids_lt X := by cases X <;> decide
  ids_injective X Y h := by
    cases X <;> cases Y <;> simp at h ⊢

/-- The user on socket 5 of the first server says "hi!". -/
def saysHi : Utterance twoManagers where
  server := false
  sender := ⟨5, .user⟩
  text := ⟨[104, 105, 33], by decide, by decide⟩
  mem := by decide
  isUser := rfl

/-- The users of the other server read it twice. -/
theorem twoManagers_duplicate : ¬ ExactlyOnce twoManagers saysHi := by
  intro once
  have hmem : (⟨5, .user⟩ : ChatClient) ∈ (twoManagers.server true).clients := by decide
  have htwice : hits true 5 (saysHi.start.total twoManagers.process twoManagers.rank) = 2 := by
    have hweight : twoManagers.weight true 5 (.typed false 5 saysHi.text.bytes)
        = twoManagers.ways := Network.weight_typed hmem rfl
    rw [saysHi.total_start]
    exact hweight.trans (Network.ways_of_nodup (by decide))
  have hone := once _ (WorkPool.run_total twoManagers.ranked saysHi.start) true ⟨5, .user⟩ hmem rfl
  rw [htwice] at hone
  exact absurd hone (by decide)

end ThunderChat.Delivery

import ThunderChat.Client.ClientChatServer

/-!
`ChatManager`: the command switch of its connections and `MessageBroadcast`.

`MessageBroadcast` forwards a packet verbatim to every connection that it does not
take for the packet's origin. The comparison takes the registered 64-bit id
through the `int` that `GetUniqId` returns.

* `writesTo_messageBroadcast`: a connection gets the packet once or not at all,
  as the comparison decides.
* `messageBroadcast_exact_iff`: over all 64-bit ids, the packets for which the
  comparison leaves out the origin and nothing else.
-/

namespace ThunderChat

/-- The manager's list `m_lstChatServer`, each connection on a socket of its own,
and the user count `SetDS` reports. -/
structure ChatManager where
  chatServers : List ClientChatServer
  dsMaxUser : Nat
  fds_nodup : (chatServers.map ClientChatServer.fd).Nodup

namespace ChatManager

/-- `ChatManager::MessageBroadcast`. -/
def messageBroadcast (m : ChatManager) (packet : TPacket) : List SocketWrite :=
  (m.chatServers.filter fun c => !c.isOrigin packet.uniqId).map fun c => ⟨c.fd, packet.frame⟩

/-- The list after the connection on `c`'s socket has become `c`. -/
def update (m : ChatManager) (c : ClientChatServer) : ChatManager where
  chatServers := m.chatServers.map fun d => if d.fd = c.fd then c else d
  dsMaxUser := m.dsMaxUser
  fds_nodup := by
    have hfds : (m.chatServers.map fun d => if d.fd = c.fd then c else d).map ClientChatServer.fd
        = m.chatServers.map ClientChatServer.fd := by
      rw [List.map_map]
      apply List.map_congr_left
      intro d _
      by_cases h : d.fd = c.fd <;> simp [h]
    rw [hfds]
    exact m.fds_nodup

/-- What the command switch does: the list and the writes, and the accesses to the
packet. -/
structure Dispatch where
  manager : ChatManager
  writes : List SocketWrite
  accesses : List Access

/-- The read of `uniqId` in a command body. -/
def uniqIdAccess : Access := ⟨.tPacket, PDUHEADERSIZE, UNIQIDSIZE⟩

/-- The switch of `ClientChatServer::ExecuteCommand` for a packet from `c`. -/
def dispatch (m : ChatManager) (c : ClientChatServer) (packet : TPacket) : Dispatch :=
  if packet.header.command = cmd_CHAT_BROADCAST then
    let writes := m.messageBroadcast packet
    ⟨m, writes, m.chatServers.map (fun _ => uniqIdAccess)
      ++ writes.map fun _ => ⟨.tPacket, 0, PDUHEADERSIZE + packet.header.length⟩⟩
  else if packet.header.command = cmd_HELLO_DS_DSM then
    let hello := c.workChatServerHello m.dsMaxUser packet
    ⟨m.update hello.1, [hello.2], [uniqIdAccess]⟩
  else if packet.header.command = cmd_HEARTBEAT_DC_DSM then
    ⟨m, [c.workDSMPing], []⟩
  else ⟨m, [], []⟩

/-- The outcome of `ClientChatServer::ExecuteCommand` with its switch. -/
structure ManagerCommand (β : Type) where
  ret : Int
  buff : β
  manager : ChatManager
  writes : List SocketWrite
  accesses : List Access

/-- `ClientChatServer::ExecuteCommand` on the connection `c`. -/
def executeCommand {β : Type} [PacketBuffer β] (m : ChatManager) (c : ClientChatServer) (b : β) :
    ManagerCommand β :=
  let command := ClientChatServer.executeCommand b
  match command.packet with
  | none => ⟨command.ret, command.buff, m, [], command.accesses⟩
  | some packet =>
      let dispatched := m.dispatch c packet
      ⟨command.ret, command.buff, dispatched.manager, dispatched.writes,
        command.accesses ++ dispatched.accesses⟩

section Command

variable {β : Type} [PacketBuffer β] [LawfulPacketBuffer β] {c : ClientChatServer} {b : β}

open PacketBuffer

/-- An incomplete packet does nothing. -/
theorem executeCommand_of_lt {m : ChatManager}
    (h : usedSize b < peekedLength b + PDUHEADERSIZE) :
    m.executeCommand c b = ⟨-1, (getHeader b).2, m, [], []⟩ := by
  simp only [executeCommand, ClientChatServer.executeCommand_of_lt h]

/-- A complete packet is taken and goes through the switch. -/
theorem executeCommand_of_le {m : ChatManager}
    (h : peekedLength b + PDUHEADERSIZE ≤ usedSize b) :
    m.executeCommand c b =
      let dispatched := m.dispatch c (TPacket.filled (extractPacket b).data)
      ⟨0, (extractPacket b).buff, dispatched.manager, dispatched.writes,
        [⟨.tPacket, 0, peekedLength b + PDUHEADERSIZE⟩, ⟨.tPacket, 0, 2⟩]
          ++ dispatched.accesses⟩ := by
  simp only [executeCommand, ClientChatServer.executeCommand_of_le h]

end Command

/-- Every connection has executed `WorkChatServerHello` on its hello packet. -/
def registerAll (m : ChatManager) (hello : ClientChatServer → TPacket) : ChatManager where
  chatServers := m.chatServers.map fun c => (c.workChatServerHello m.dsMaxUser (hello c)).1
  dsMaxUser := m.dsMaxUser
  fds_nodup := by
    rw [List.map_map]
    exact m.fds_nodup

/-! ### Who gets a broadcast packet -/

variable {m : ChatManager} {packet : TPacket}

/-- A listed connection gets the packet once, or not at all when the comparison
takes it for the origin. -/
theorem writesTo_messageBroadcast {c : ClientChatServer} (h : c ∈ m.chatServers) :
    writesTo c.fd (m.messageBroadcast packet)
      = if c.isOrigin packet.uniqId then [] else [packet.frame] := by
  rw [messageBroadcast, writesTo_fanout m.fds_nodup h]
  cases c.isOrigin packet.uniqId <;> rfl

/-- The same for connections that have registered: the comparison is decided by the
ids of the hello packet and of the broadcast. -/
theorem writesTo_registerAll {hello : ClientChatServer → TPacket} {c : ClientChatServer}
    (h : c ∈ m.chatServers) : writesTo c.fd ((m.registerAll hello).messageBroadcast packet)
      = if Conversion.Survives 32 64 packet.uniqId ∧
          (hello c).uniqId ≡ packet.uniqId [MOD 2 ^ 32] then [] else [packet.frame] := by
  have hregistered : (c.workChatServerHello m.dsMaxUser (hello c)).1
      ∈ (m.registerAll hello).chatServers := List.mem_map.mpr ⟨c, h, rfl⟩
  generalize hd : (c.workChatServerHello m.dsMaxUser (hello c)).1 = d at hregistered
  have hfd : d.fd = c.fd := by rw [← hd]; rfl
  have huniqId : d.uniqId = (hello c).uniqId := by rw [← hd]; rfl
  rw [← hfd, writesTo_messageBroadcast hregistered]
  simp only [ClientChatServer.isOrigin_iff packet.uniqId_lt, huniqId]

/-- Every broadcast write carries the packet's frame. -/
theorem bytes_of_mem_messageBroadcast {w : SocketWrite} (h : w ∈ m.messageBroadcast packet) :
    w.bytes = packet.frame := by
  obtain ⟨c, _, rfl⟩ := List.mem_map.mp h
  rfl

/-- The writes of a broadcast to one socket: at most one. -/
theorem count_messageBroadcast_le (m : ChatManager) (packet : TPacket) (fd : Nat) :
    (m.messageBroadcast packet).countP (fun w => w.fd = fd) ≤ 1 := by
  have hsub : (m.messageBroadcast packet).map SocketWrite.fd
      |>.Sublist (m.chatServers.map ClientChatServer.fd) := by
    rw [messageBroadcast, List.map_map]
    exact List.filter_sublist.map ClientChatServer.fd
  have hcount : (m.messageBroadcast packet).countP (fun w => w.fd = fd)
      = ((m.messageBroadcast packet).map SocketWrite.fd).count fd := by
    rw [List.count, List.countP_map]
    rfl
  rw [hcount]
  exact List.nodup_iff_count.mp (m.fds_nodup.sublist hsub) fd

/-- Whatever a packet is, it causes at most one write to each socket. -/
theorem count_executeCommand_le {β : Type} [PacketBuffer β] (m : ChatManager)
    (c : ClientChatServer) (b : β) (fd : Nat) :
    (m.executeCommand c b).writes.countP (fun w => w.fd = fd) ≤ 1 := by
  simp only [executeCommand]
  split
  · exact Nat.zero_le 1
  · next packet _ =>
      simp only [dispatch]
      split
      · exact m.count_messageBroadcast_le packet fd
      · split
        · exact List.countP_le_length
        · split
          · exact List.countP_le_length
          · exact Nat.zero_le 1

/-- A broadcast packet at the front of a connection's ring is what is forwarded. -/
theorem writes_of_frame {p : Packet} {c : ClientChatServer} {frame rest : List UInt8}
    (hcommand : p.command = cmd_CHAT_BROADCAST) (hframe : frame = p.encode)
    (ring : SafeRing (frame ++ rest)) :
    (m.executeCommand c ring.buff).writes = m.messageBroadcast p.toTPacket := by
  subst hframe
  obtain ⟨_, hwhole, hdata⟩ := ring.extractPacket_frame p.isFrame_encode
  have hbroadcast : p.toTPacket.header.command = cmd_CHAT_BROADCAST := by
    rw [p.toTPacket_header]
    exact hcommand
  rw [executeCommand_of_le hwhole, hdata]
  show (m.dispatch c p.toTPacket).writes = _
  rw [dispatch, if_pos hbroadcast]

/-- The same for a packet that has just been received. -/
theorem writes_of_received {p : Packet} {c : ClientChatServer}
    (hcommand : p.command = cmd_CHAT_BROADCAST) :
    (m.executeCommand c (received p.encode)).writes = m.messageBroadcast p.toTPacket := by
  have h : (m.executeCommand c (received (p.encode ++ []))).writes
      = m.messageBroadcast p.toTPacket :=
    writes_of_frame hcommand rfl (SafeRing.putFresh _ p.length_encode_append_nil_le)
  rwa [List.append_nil] at h

/-- `packet` is written exactly once to every connection registered with another
id than the packet's, and never to one registered with the packet's. -/
def LeavesOutOrigin (m : ChatManager) (hello : ClientChatServer → TPacket) (packet : TPacket) :
    Prop :=
  ∀ c ∈ m.chatServers, writesTo c.fd ((m.registerAll hello).messageBroadcast packet)
    = if (hello c).uniqId = packet.uniqId then [] else [packet.frame]

/-- A connection is treated as it should be when the comparison is true exactly for
the packet's own id. -/
theorem leavesOutOrigin_iff_forall {hello : ClientChatServer → TPacket} :
    LeavesOutOrigin m hello packet ↔ ∀ c ∈ m.chatServers,
      (Conversion.Survives 32 64 packet.uniqId ∧
        (hello c).uniqId ≡ packet.uniqId [MOD 2 ^ 32] ↔ (hello c).uniqId = packet.uniqId) := by
  apply forall₂_congr
  intro c hc
  rw [writesTo_registerAll hc]
  by_cases hleft : Conversion.Survives 32 64 packet.uniqId ∧
      (hello c).uniqId ≡ packet.uniqId [MOD 2 ^ 32] <;>
    by_cases hid : (hello c).uniqId = packet.uniqId <;> simp [hleft, hid]

/-- **Which packets leave out exactly their origin.** With `u` the id of the packet:
if `u` survives the conversion to `int`, no registered id other than `u` may have
the same low 32 bits; if it does not, `u` must not be registered. -/
theorem leavesOutOrigin_iff (m : ChatManager) (hello : ClientChatServer → TPacket)
    (packet : TPacket) : LeavesOutOrigin m hello packet ↔
      if Conversion.Survives 32 64 packet.uniqId then
        ∀ c ∈ m.chatServers, (hello c).uniqId ≡ packet.uniqId [MOD 2 ^ 32] →
          (hello c).uniqId = packet.uniqId
      else ∀ c ∈ m.chatServers, (hello c).uniqId ≠ packet.uniqId := by
  rw [leavesOutOrigin_iff_forall]
  split
  · next survives =>
      apply forall₂_congr
      intro c _
      constructor
      · intro h hmod
        exact h.mp ⟨survives, hmod⟩
      · intro h
        refine ⟨fun hleft => h hleft.2, fun hid => ⟨survives, ?_⟩⟩
        rw [hid]
  · next cut =>
      apply forall₂_congr
      intro c _
      simp [cut]

/-- A manager with one connection. -/
def oneServer : ChatManager where
  chatServers := [⟨5, .user, 0, by decide⟩]
  dsMaxUser := 1000
  fds_nodup := by decide

/-- The text "hi" of the server with id `2 ^ 31`. -/
def greeting : Packet := .chatBroadcast (2 ^ 31) [104, 105] (by decide)

/-- The server with id `2 ^ 31` gets its own packets back. -/
theorem echoes_to_origin : ¬ LeavesOutOrigin oneServer
    (fun _ => (Packet.hello (2 ^ 31)).toTPacket) greeting.toTPacket := by
  intro exact
  have hhello : (Packet.hello (2 ^ 31)).toTPacket.uniqId = 2 ^ 31 :=
    Packet.hello_uniqId (by decide)
  have hid : greeting.toTPacket.uniqId = 2 ^ 31 := Packet.chatBroadcast_uniqId (by decide)
  have hwrites := exact ⟨5, .user, 0, by decide⟩ List.mem_cons_self
  rw [writesTo_registerAll List.mem_cons_self, hhello, hid, if_pos rfl, if_neg (by decide)]
    at hwrites
  cases hwrites

end ChatManager

end ThunderChat

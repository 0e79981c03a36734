import ThunderChat.Client.ChatUser

/-!
`ChatServer`: the broadcast of a message to the managers and to the users.

A message that did not come from a manager goes to every manager socket, as a
`cmd_CHAT_BROADCAST` packet with the server's id; every message goes to the users
of this server other than its sender. `broadcastPacket_eq` says when the packet is
the one meant: its 16-bit length and the 4096 bytes of a `T_PACKET` must hold it.
-/

namespace ThunderChat

/-- A `Client` in `m_lstClient`. -/
structure ChatClient where
  fd : Nat
  type : ClientType
  deriving DecidableEq, Repr

/-- The members of `ChatServer` that broadcasting reads. Every client has its own
socket; the managers' sockets are clients too, of type `CLIENT_CHAT_MANAGER`. -/
structure ChatServer where
  uniqId : Nat
  clients : List ChatClient
  chatManagerSockets : List Nat
  uniqId_lt : uniqId < 2 ^ 64
  fds_nodup : (clients.map ChatClient.fd).Nodup

namespace ChatServer

/-- The packet `MessageBroadcastToManagers` builds in a zeroed `T_PACKET`. The
length goes into 16 bits. -/
def broadcastPacket (s : ChatServer) (message : BroadcastMessage) : TPacket :=
  let header : PacketHeader :=
    ⟨cmd_CHAT_BROADCAST, toUInt64 message.messageSize + UNIQIDSIZE⟩
  TPacket.filled (header.encode ++ leBytes UNIQIDSIZE s.uniqId ++ message.bytes)

/-- `ChatServer::MessageBroadcastToManagers`. -/
def messageBroadcastToManagers (s : ChatServer) (message : BroadcastMessage) :
    List SocketWrite :=
  s.chatManagerSockets.map fun fd => ⟨fd, (s.broadcastPacket message).frame⟩

/-- `ChatServer::GetBroadcastTargets`. -/
def getBroadcastTargets (s : ChatServer) (message : BroadcastMessage) : List Nat :=
  (s.clients.filter fun c => c.type = .user && c.fd != message.socketFd).map ChatClient.fd

/-- The writes of `ChatServer::MessageBroadcast` to the targets. -/
def userWrites (s : ChatServer) (message : BroadcastMessage) : List SocketWrite :=
  (s.getBroadcastTargets message).map fun fd => ⟨fd, message.bytes⟩

/-- `ChatServer::MessageBroadcast`. -/
def messageBroadcast (s : ChatServer) (message : BroadcastMessage) : List SocketWrite :=
  (if message.messageType ≠ .relayedMessage then s.messageBroadcastToManagers message else [])
    ++ s.userWrites message

variable {s : ChatServer} {message : BroadcastMessage}

/-- Every user write carries the message. -/
theorem bytes_of_mem_userWrites {w : SocketWrite} (h : w ∈ s.userWrites message) :
    w.bytes = message.bytes := by
  obtain ⟨fd, _, rfl⟩ := List.mem_map.mp h
  rfl

/-- A client of the server gets the message once if it is a user on another socket
than the message's, and not at all otherwise. -/
theorem writesTo_userWrites {c : ChatClient} (h : c ∈ s.clients) :
    writesTo c.fd (s.userWrites message)
      = if c.type = .user ∧ c.fd ≠ message.socketFd then [message.bytes] else [] := by
  have hwrites : s.userWrites message
      = (s.clients.filter fun c => c.type = .user && c.fd != message.socketFd).map
        fun c => ⟨c.fd, message.bytes⟩ := by
    rw [userWrites, getBroadcastTargets, List.map_map]
    rfl
  rw [hwrites, writesTo_fanout s.fds_nodup h]
  simp

/-- The header of the packet, its fields cut to 16 bits. -/
theorem broadcastPacket_header : (s.broadcastPacket message).header
    = ⟨cmd_CHAT_BROADCAST % 65536, (toUInt64 message.messageSize + UNIQIDSIZE) % 65536⟩ := by
  rw [broadcastPacket, TPacket.header_filled _ (by simp), List.append_assoc,
    PacketHeader.decode_encode_append]

/-- What goes to the managers is a complete frame, whatever the 16 bits of the length
make of the size. -/
theorem isFrame_broadcastPacket
    (hsize : toUInt64 message.messageSize = message.message.length) :
    IsFrame (s.broadcastPacket message).frame := by
  have hbytes : message.bytes.length = message.message.length := by
    rw [BroadcastMessage.bytes, hsize, List.take_length]
  apply TPacket.isFrame_frame
  have hlen : PDUHEADERSIZE + (UNIQIDSIZE + message.message.length)
      ≤ (s.broadcastPacket message).bytes.length := by
    simp only [broadcastPacket, TPacket.filled, List.length_append, PacketHeader.length_encode,
      length_leBytes, hbytes]
    omega
  have hmod := Nat.mod_le (message.message.length + UNIQIDSIZE) 65536
  rw [broadcastPacket_header, hsize]
  dsimp only
  omega

/-- The packet of a message whose size is the number of its bytes, as long as they
fit behind the id. -/
theorem broadcastPacket_eq (hsize : toUInt64 message.messageSize = message.message.length)
    (hfits : UNIQIDSIZE + message.message.length ≤ PDUBODYSIZE) :
    s.broadcastPacket message
      = (Packet.chatBroadcast s.uniqId message.message hfits).toTPacket := by
  have hbytes : message.bytes = message.message := by
    rw [BroadcastMessage.bytes, hsize, List.take_length]
  have hheader : (Packet.chatBroadcast s.uniqId message.message hfits).header
      = ⟨cmd_CHAT_BROADCAST, message.message.length + UNIQIDSIZE⟩ := by
    simp [Packet.header, Packet.chatBroadcast, Nat.add_comm]
  rw [broadcastPacket, Packet.toTPacket, Packet.encode, hheader, hsize, hbytes, List.append_assoc]
  rfl

/-- What goes to the managers of a text is its packet. -/
theorem frame_of_text (text : Text) (fd : Nat) :
    (s.broadcastPacket (text.message fd)).frame = (text.packet s.uniqId).encode := by
  rw [broadcastPacket_eq text.toUInt64_length text.fits, Packet.toTPacket_frame]
  rfl

end ChatServer

end ThunderChat

import ThunderChat.Server.ChatManager
import ThunderChat.Server.ChatServer

/-!
A text on its two ways: to the users of its own server, and over a manager to the
users of another one.

The way over the manager is the composition of the sender's
`MessageBroadcastToManagers`, the manager's `MessageBroadcast`, and the receiving
server's `ChatUser::ExecuteCommand` and `MessageBroadcast`. All rings on the way
hold the bytes their link has delivered, behind them whatever else has arrived, and
are read inside their arrays.

`BroadcastMessage::SetMessage` ends the copy of the relayed text with a zero byte in
the place of the last one; the local copy is made by `GetPacket` and is not touched.

* `relayed_bytes`: what a relayed copy brings to the users.
* `agree_iff`: the texts, of up to `MAX_MESSAGE_SIZE` bytes, for which both ways bring
  the same bytes.
-/

namespace ThunderChat.Agreement

/-- A text the sender's server has queued for broadcast. -/
structure Sent (text : Text) where
  server : ChatServer
  user : Nat
  ring : SafeRing text.bytes
  message : BroadcastMessage
  queued : (ChatUser.executeCommand .user user ring.buff).queued = some message

/-- A copy of it on its way: the write to a manager's socket, a write of the manager
to another server, and the message that server has queued. -/
structure Relayed {text : Text} (sent : Sent text) where
  up : SocketWrite
  up_mem : up ∈ sent.server.messageBroadcastToManagers sent.message
  manager : ChatManager
  origin : ClientChatServer
  managerRest : List UInt8
  managerRing : SafeRing (up.bytes ++ managerRest)
  down : SocketWrite
  down_mem : down ∈ (manager.executeCommand origin managerRing.buff).writes
  server : ChatServer
  upstream : Nat
  serverRest : List UInt8
  serverRing : SafeRing (down.bytes ++ serverRest)
  message : BroadcastMessage
  queued : (ChatUser.executeCommand .chatManager upstream serverRing.buff).queued = some message

/-- Every write to a user of the sender's server and every write to a user of
another server carry the same bytes. -/
def Agree (text : Text) : Prop :=
  ∀ (sent : Sent text) (relayed : Relayed sent),
    ∀ near ∈ sent.server.userWrites sent.message,
      ∀ far ∈ relayed.server.messageBroadcast relayed.message, near.bytes = far.bytes

variable {text : Text}

/-- The packet the sender's server makes of the text. -/
def Sent.packet (sent : Sent text) : Packet := text.packet sent.server.uniqId

theorem Sent.message_eq (sent : Sent text) : sent.message = text.message sent.user := by
  have h : (ChatUser.executeCommand .user sent.user sent.ring.buff).queued
      = some (text.message sent.user) := ChatUser.queued_of_text sent.ring
  rw [sent.queued] at h
  exact Option.some.inj h

/-- The local copy is the text. -/
theorem Sent.bytes_eq (sent : Sent text) : sent.message.bytes = text.bytes := by
  rw [sent.message_eq, text.message_bytes]

/-- Every manager is sent the packet. -/
theorem Sent.frame_eq (sent : Sent text) :
    (sent.server.broadcastPacket sent.message).frame = sent.packet.encode := by
  rw [sent.message_eq, ChatServer.frame_of_text, Sent.packet]

theorem Relayed.up_bytes {sent : Sent text} (relayed : Relayed sent) :
    relayed.up.bytes = sent.packet.encode := by
  obtain ⟨fd, _, hup⟩ := List.mem_map.mp relayed.up_mem
  rw [← hup, sent.frame_eq]

/-- The manager forwards it as it is. -/
theorem Relayed.down_bytes {sent : Sent text} (relayed : Relayed sent) :
    relayed.down.bytes = sent.packet.encode := by
  have hdown := relayed.down_mem
  rw [ChatManager.writes_of_frame rfl relayed.up_bytes relayed.managerRing] at hdown
  rw [ChatManager.bytes_of_mem_messageBroadcast hdown, Packet.toTPacket_frame]

/-- The other server queues it as a relayed message. -/
theorem Relayed.message_eq {sent : Sent text} (relayed : Relayed sent) :
    relayed.message = ChatUser.relayedMessage relayed.upstream sent.packet.body.length
      sent.packet.toTPacket := by
  have h : (ChatUser.executeCommand .chatManager relayed.upstream relayed.serverRing.buff).queued
      = some (ChatUser.relayedMessage relayed.upstream sent.packet.body.length
        sent.packet.toTPacket) :=
    ChatUser.queued_of_frame rfl relayed.down_bytes relayed.serverRing
  rw [relayed.queued] at h
  exact Option.some.inj h

/-- What a relayed copy brings: the text with the last byte set to zero. -/
theorem Relayed.bytes_eq {sent : Sent text} (relayed : Relayed sent) :
    relayed.message.bytes = text.bytes.set (text.bytes.length - 1) 0 := by
  rw [relayed.message_eq]
  exact (ChatUser.bytes_relayedMessage rfl text.pos).2

/-- It is not sent to managers again. -/
theorem Relayed.messageType_eq {sent : Sent text} (relayed : Relayed sent) :
    relayed.message.messageType = .relayedMessage := by
  rw [relayed.message_eq]
  rfl

/-! ### A text can take both ways -/

/-- A server with two users on the sockets 5 and 6 and a manager on 3. -/
def twoUsers : ChatServer where
  uniqId := 1
  clients := [⟨3, .chatManager⟩, ⟨5, .user⟩, ⟨6, .user⟩]
  chatManagerSockets := [3]
  uniqId_lt := by decide
  fds_nodup := by decide

/-- A server with one user on the socket 9. -/
def oneUser : ChatServer where
  uniqId := 2
  clients := [⟨4, .chatManager⟩, ⟨9, .user⟩]
  chatManagerSockets := [4]
  uniqId_lt := by decide
  fds_nodup := by decide

/-- The manager of both. -/
def between : ChatManager where
  chatServers := [⟨7, .chatServer, 1, by decide⟩, ⟨8, .chatServer, 2, by decide⟩]
  dsMaxUser := 1000
  fds_nodup := by decide

/-- The user on socket 5 sends the text. -/
def sentByFive (text : Text) : Sent text where
  server := twoUsers
  user := 5
  ring := SafeRing.putFresh text.bytes text.le_bufsize
  message := _
  queued := ChatUser.queued_of_text _

/-- The manager sends it to the other server. -/
theorem between_writes (text : Text) : (⟨8, (sentByFive text).packet.encode⟩ : SocketWrite)
    ∈ between.messageBroadcast (sentByFive text).packet.toTPacket := by
  have hid : (sentByFive text).packet.toTPacket.uniqId = 1 :=
    text.packet_uniqId (sentByFive text).server.uniqId_lt
  refine List.mem_map.mpr ⟨⟨8, .chatServer, 2, by decide⟩, ?_, ?_⟩
  · refine List.mem_filter.mpr ⟨by simp [between], ?_⟩
    rw [hid, ClientChatServer.isOrigin_of_lt (by decide) (by decide)]
    rfl
  · rw [Packet.toTPacket_frame]

/-- The other server receives it over that manager. -/
def relayedToNine (text : Text) : Relayed (sentByFive text) where
  up := ⟨3, (sentByFive text).packet.encode⟩
  up_mem := by
    rw [← (sentByFive text).frame_eq]
    exact List.mem_singleton_self _
  manager := between
  origin := ⟨7, .chatServer, 1, by decide⟩
  managerRest := []
  managerRing := SafeRing.putFresh _ (sentByFive text).packet.length_encode_append_nil_le
  down := ⟨8, (sentByFive text).packet.encode⟩
  down_mem := by
    rw [ChatManager.writes_of_frame rfl rfl]
    exact between_writes text
  server := oneUser
  upstream := 4
  serverRest := []
  serverRing := SafeRing.putFresh _ (sentByFive text).packet.length_encode_append_nil_le
  message := _
  queued := ChatUser.queued_of_frame rfl rfl _

/-- The other user of the sender's server is written the text. -/
theorem near_write (text : Text) : (⟨6, (sentByFive text).message.bytes⟩ : SocketWrite)
    ∈ (sentByFive text).server.userWrites (sentByFive text).message := by
  refine List.mem_map.mpr ⟨6, ?_, rfl⟩
  rw [(sentByFive text).message_eq]
  simp [ChatServer.getBroadcastTargets, sentByFive, twoUsers]

/-- The user of the other server is written the relayed copy. -/
theorem far_write (text : Text) : (⟨9, (relayedToNine text).message.bytes⟩ : SocketWrite)
    ∈ (relayedToNine text).server.messageBroadcast (relayedToNine text).message := by
  refine List.mem_append_right _ (List.mem_map.mpr ⟨9, ?_, rfl⟩)
  simp [ChatServer.getBroadcastTargets, relayedToNine, oneUser, ChatUser.relayedMessage]

/-! ### Which texts agree -/

/-- Setting the last byte to zero changes a text unless it is zero already. -/
theorem set_last_eq_iff {bytes : List UInt8} (h : 1 ≤ bytes.length) :
    bytes = bytes.set (bytes.length - 1) 0 ↔ bytes.getLast? = some 0 := by
  have hlt : bytes.length - 1 < bytes.length := by omega
  rw [List.getLast?_eq_getElem?]
  constructor
  · intro heq
    rw [heq, List.length_set, List.getElem?_set_self hlt]
  · intro hlast
    apply List.ext_getElem?
    intro i
    rw [List.getElem?_set]
    split
    · next hi =>
        subst hi
        simpa [hlt] using hlast
    · rfl

/-- **When both ways agree.** The users of every server are written the same bytes
if and only if the last byte of the text is zero. -/
theorem agree_iff (text : Text) : Agree text ↔ text.bytes.getLast? = some 0 := by
  rw [← set_last_eq_iff text.pos]
  constructor
  · intro agree
    have hagree := agree (sentByFive text) (relayedToNine text)
      _ (near_write text) _ (far_write text)
    rwa [(sentByFive text).bytes_eq, (relayedToNine text).bytes_eq] at hagree
  · intro heq sent relayed near hnear far hfar
    rw [ChatServer.messageBroadcast, if_neg (by simp [relayed.messageType_eq])] at hfar
    rw [ChatServer.bytes_of_mem_userWrites hnear, ChatServer.bytes_of_mem_userWrites hfar,
      sent.bytes_eq, relayed.bytes_eq, ← heq]

/-- The text "hi". -/
def hi : Text := ⟨[104, 105], by decide, by decide⟩

/-- It reaches the other server as "h" and a zero byte. -/
theorem hi_disagrees : ¬ Agree hi := by
  intro agree
  have hagree := agree (sentByFive hi) (relayedToNine hi) _ (near_write hi) _ (far_write hi)
  rw [(sentByFive hi).bytes_eq, (relayedToNine hi).bytes_eq] at hagree
  exact absurd hagree (by decide)

end ThunderChat.Agreement

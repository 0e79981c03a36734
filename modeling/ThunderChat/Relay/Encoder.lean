import ThunderChat.Server.ChatServer

/-!
The bounds of the relay encoder.

`ChatServer::MessageBroadcastToManagers` copies the message behind the server's id into a
zeroed `T_PACKET` and writes as much of it as the header announces. Nothing compares the
size of the message with the 4096 bytes of the packet or with the 16 bits of the length; a
text is as long as what its user had in the ring.

* `encodesExactly_iff`: the texts whose frame is exact are those of up to 4084 bytes.
-/

namespace ThunderChat

open PacketBuffer

namespace ChatServer

/-- The `memcpy` of the message into the packet. -/
def relayCopy (message : BroadcastMessage) : Access :=
  ⟨.tPacket, PDUHEADERSIZE + UNIQIDSIZE, toUInt64 message.messageSize⟩

/-- What each `Write` reads of the packet. -/
def relayWrite (s : ChatServer) (message : BroadcastMessage) : Access :=
  ⟨.tPacket, 0, PDUHEADERSIZE + (s.broadcastPacket message).header.length⟩

/-- What the frame of a message has to be. -/
structure EncodesExactly (s : ChatServer) (message : BroadcastMessage) : Prop where
  length : ((s.broadcastPacket message).header.length : Int) = 8 + message.messageSize
  copied : (relayCopy message).InBounds
  written : (s.relayWrite message).InBounds
  decoded : ChatUser.relayedSize (s.broadcastPacket message).header.length = message.messageSize

/-- The message bytes a packet has room for. -/
def MAX_RELAYED_SIZE : Nat := MAXPDUSIZE - PDUHEADERSIZE - UNIQIDSIZE

variable {s : ChatServer} {message : BroadcastMessage} {size : Nat}

theorem relayCopy_inBounds_iff (hsize : message.messageSize = size) (hlt : size < 2 ^ 64) :
    (relayCopy message).InBounds ↔ size ≤ MAX_RELAYED_SIZE := by
  simp only [relayCopy, hsize, toUInt64_natCast hlt, Access.InBounds, FilledObject.size,
    MAX_RELAYED_SIZE, MAXPDUSIZE, PDUHEADERSIZE, UNIQIDSIZE]
  omega

/-- A message that fits has a length of its own, not one modulo `2 ^ 16`. -/
theorem length_of_le (hsize : message.messageSize = size) (hle : size ≤ MAX_RELAYED_SIZE) :
    (s.broadcastPacket message).header.length = size + UNIQIDSIZE := by
  simp only [MAX_RELAYED_SIZE, MAXPDUSIZE, PDUHEADERSIZE, UNIQIDSIZE] at hle
  rw [broadcastPacket_header, hsize, toUInt64_natCast (by omega)]
  exact Nat.mod_eq_of_lt (by simp only [UNIQIDSIZE]; omega)

/-- A message of a size that is not negative is encoded exactly when the copy fits. -/
theorem encodesExactly_of_size (s : ChatServer) (hsize : message.messageSize = size)
    (hlt : size < 2 ^ 64) : s.EncodesExactly message ↔ size ≤ MAX_RELAYED_SIZE := by
  constructor
  · intro exact_
    exact (relayCopy_inBounds_iff hsize hlt).mp exact_.copied
  · intro hle
    have hlength := length_of_le (s := s) hsize hle
    have hcopied := (relayCopy_inBounds_iff hsize hlt).mpr hle
    simp only [MAX_RELAYED_SIZE, MAXPDUSIZE, PDUHEADERSIZE, UNIQIDSIZE] at hle hlength
    constructor
    case length =>
      rw [hlength, hsize]
      omega
    case copied => exact hcopied
    case written =>
      simp only [relayWrite, hlength, Access.InBounds, FilledObject.size, MAXPDUSIZE, PDUHEADERSIZE]
      omega
    case decoded =>
      rw [hlength, ChatUser.relayedSize_eq (by omega), hsize]
      omega

/-- **Which texts are relayed exactly.** A message queued by the text branch is encoded
within the packet, with its own length, if and only if it has at most 4084 bytes. -/
theorem encodesExactly_iff (s : ChatServer) {b : CircularBuff} (inv : b.Inv)
    (hcap : b.bufferSize = CIR_BUFSIZE) {type : ClientType} (htype : type ≠ .chatManager)
    {fd : Nat} (hqueued : (ChatUser.executeCommand type fd b).queued = some message) :
    s.EncodesExactly message ↔ message.messageSize ≤ 4084 := by
  have hcommand : ChatUser.executeCommand type fd b = ChatUser.executeText fd b := if_neg htype
  rw [hcommand, ChatUser.executeText_eq, Option.some.injEq] at hqueued
  have hsize : message.messageSize = b.getUsedSize := by
    rw [← hqueued]
    rfl
  have hle : b.getUsedSize ≤ CIR_BUFSIZE := hcap ▸ inv.used_le
  have hlt : b.getUsedSize < 2 ^ 64 := lt_of_le_of_lt hle (by decide)
  rw [encodesExactly_of_size s hsize hlt, hsize]
  exact Int.ofNat_le.symm

/-- The capacity of a ring that has received something. -/
theorem received_bufferSize (bytes : List UInt8) : (received bytes).bufferSize = CIR_BUFSIZE := by
  rw [received, CircularBuff.put]
  split <;> rfl

/-- A server with two managers. -/
def twoManagers : ChatServer where
  uniqId := 91
  clients := []
  chatManagerSockets := [92, 93]
  uniqId_lt := by norm_num
  fds_nodup := List.nodup_nil

theorem smallText_encoded : twoManagers.EncodesExactly ⟨.clientChatMessage, 94, 2, [79, 75]⟩ := by
  have hle : [79, 75].length ≤ CIR_BUFSIZE := by decide
  have hqueued : (ChatUser.executeCommand .user 94 (received [79, 75])).queued = _ :=
    ChatUser.queued_of_text (SafeRing.putFresh [79, 75] hle)
  exact (encodesExactly_iff _ (CircularBuff.fresh_inv _).put (received_bufferSize _)
    (by decide) hqueued).mpr (by decide)

/-- A user's burst of one byte more than the packet has room for. -/
theorem burst_not_encoded {text : List UInt8} (hlen : text.length = 4085) :
    (ChatUser.executeCommand .user 94 (received text)).queued
        = some ⟨.clientChatMessage, 94, text.length, text⟩ ∧
      ¬ twoManagers.EncodesExactly ⟨.clientChatMessage, 94, text.length, text⟩ := by
  have hle : text.length ≤ CIR_BUFSIZE := by
    rw [hlen]
    decide
  refine ⟨ChatUser.queued_of_text (SafeRing.putFresh text hle), fun encodes => ?_⟩
  have hcopied := (relayCopy_inBounds_iff rfl (by rw [hlen]; decide)).mp encodes.copied
  rw [hlen] at hcopied
  exact absurd hcopied (by decide)

theorem longText_overflows : ∃ message,
    (ChatUser.executeCommand .user 94 (received (List.replicate 4085 97))).queued = some message ∧
      ¬ twoManagers.EncodesExactly message :=
  ⟨_, burst_not_encoded List.length_replicate⟩

end ChatServer

end ThunderChat

import ThunderChat.Client.Basic

/-!
`ChatUser::ExecuteCommand`.

Two branches: bytes from a chat manager are one packet, whose broadcast body
becomes a relayed message; bytes from a user are plain text, all of what is
buffered becoming one message. The result records, besides the return value and
the ring, the message handed to the broadcast queue and the accesses to the two
objects the function fills.

`header.length - sizeof(uint64_t)` is unsigned 64-bit arithmetic put into an `int`,
and `memcpy` takes that `int` as a `size_t`.
-/

namespace ThunderChat

/-! ### ExecuteCommand -/

/-- The outcome of `ChatUser::ExecuteCommand`. -/
structure UserCommand (β : Type) where
  ret : Int
  buff : β
  queued : Option BroadcastMessage
  accesses : List Access

namespace ChatUser

/-- `messageSize` of a packet whose peeked header has this length. -/
def relayedSize (length : Nat) : Int := toInt ((length + 2 ^ 64 - UNIQIDSIZE) % 2 ^ 64)

/-- The message made of a `cmd_CHAT_BROADCAST` packet. -/
def relayedMessage (fd length : Nat) (tPacket : TPacket) : BroadcastMessage where
  messageType := .relayedMessage
  socketFd := fd
  messageSize := relayedSize length
  message := BroadcastMessage.setMessage tPacket.message (relayedSize length)

@[simp] theorem relayedMessage_messageSize {fd length : Nat} {t : TPacket} :
    (relayedMessage fd length t).messageSize = relayedSize length := by
  simp only [relayedMessage]

@[simp] theorem relayedMessage_message {fd length : Nat} {t : TPacket} :
    (relayedMessage fd length t).message
      = BroadcastMessage.setMessage t.message (relayedSize length) := by
  simp only [relayedMessage]

/-- The accesses `SetMessage` makes with a packet's message: the copy out of the
packet, the copy into the buffer and the terminating write. -/
def relayedAccesses (length : Nat) : List Access :=
  [⟨.tPacket, PDUHEADERSIZE + UNIQIDSIZE, toUInt64 (relayedSize length)⟩,
    ⟨.message, 0, toUInt64 (relayedSize length)⟩,
    ⟨.message, relayedSize length - 1, 1⟩]

variable {β : Type} [PacketBuffer β]

open PacketBuffer

/-- The `CLIENT_CHAT_MANAGER` branch. -/
def executeRelay (fd : Nat) (b : β) : UserCommand β :=
  let length := peekedLength b
  let got := extractPacket b
  if got.ret < 0 then
    ⟨-1, got.buff, none, []⟩
  else
    let tPacket := TPacket.filled got.data
    let extracted : List Access := [⟨.tPacket, 0, got.data.length⟩, ⟨.tPacket, 0, 2⟩]
    if tPacket.header.command = cmd_CHAT_BROADCAST then
      ⟨0, got.buff, some (relayedMessage fd length tPacket), extracted ++ relayedAccesses length⟩
    else
      ⟨0, got.buff, none, extracted⟩

/-- The plain text branch: everything buffered becomes one message. -/
def executeText (fd : Nat) (b : β) : UserCommand β :=
  let got := get b (usedSize b)
  if got.ret < 0 then
    ⟨-1, got.buff, none, []⟩
  else
    ⟨0, got.buff, some ⟨.clientChatMessage, fd, usedSize b, got.data⟩,
      [⟨.message, 0, got.data.length⟩]⟩

/-- `ChatUser::ExecuteCommand`. -/
def executeCommand (type : ClientType) (fd : Nat) (b : β) : UserCommand β :=
  if type = .chatManager then executeRelay fd b else executeText fd b

/-! ### What each branch can do -/

/-- What comes from a manager is queued as a relayed message. -/
theorem messageType_of_relay {fd : Nat} {b : β} {message : BroadcastMessage}
    (h : (executeCommand .chatManager fd b).queued = some message) :
    message.messageType = .relayedMessage := by
  simp only [executeCommand, if_true, executeRelay] at h
  split at h
  · cases h
  · split at h
    · rw [← Option.some.inj h]
      simp only [relayedMessage]
    · cases h

/-- For the 16-bit lengths a header can hold, the size is the length less 8. -/
theorem relayedSize_eq {length : Nat} (h : length < 65536) : relayedSize length = length - 8 := by
  unfold relayedSize toInt Conversion.narrow UNIQIDSIZE
  rw [Int.bmod_def]
  split <;> omega

section Lawful

variable [LawfulPacketBuffer β] {fd : Nat} {b : β}

open LawfulPacketBuffer

/-- An incomplete packet is refused. -/
theorem executeRelay_of_lt (h : usedSize b < peekedLength b + PDUHEADERSIZE) :
    executeRelay fd b = ⟨-1, (getHeader b).2, none, []⟩ := by
  simp [executeRelay, extractPacket_of_lt h, RECV_NOT_ENOUGH]

/-- A complete packet is taken; a broadcast becomes a relayed message. -/
theorem executeRelay_of_le (h : peekedLength b + PDUHEADERSIZE ≤ usedSize b) :
    executeRelay fd b =
      let tPacket := TPacket.filled (extractPacket b).data
      let extracted : List Access :=
        [⟨.tPacket, 0, peekedLength b + PDUHEADERSIZE⟩, ⟨.tPacket, 0, 2⟩]
      if tPacket.header.command = cmd_CHAT_BROADCAST then
        ⟨0, (extractPacket b).buff, some (relayedMessage fd (peekedLength b) tPacket),
          extracted ++ relayedAccesses (peekedLength b)⟩
      else ⟨0, (extractPacket b).buff, none, extracted⟩ := by
  dsimp only [executeRelay]
  rw [extractPacket_ret h, length_extractPacket h, if_neg (by omega)]

/-- The text branch never fails: it asks for exactly what is buffered. -/
theorem executeText_eq :
    executeText fd b = ⟨0, (get b (usedSize b)).buff,
      some ⟨.clientChatMessage, fd, usedSize b, (get b (usedSize b)).data⟩,
      [⟨.message, 0, usedSize b⟩]⟩ := by
  dsimp only [executeText]
  rw [get_ret b (usedSize b) le_rfl, length_get_data b (usedSize b) le_rfl, if_neg (by omega)]

end Lawful

/-- The text of a user becomes a message of all its bytes. -/
theorem queued_of_text {fd : Nat} {text : List UInt8} (ring : SafeRing text) :
    (executeCommand .user fd ring.buff).queued
      = some ⟨.clientChatMessage, fd, text.length, text⟩ := by
  obtain ⟨hused, hdata⟩ := ring.get_all
  have hcommand : executeCommand .user fd ring.buff = executeText fd ring.buff := if_neg (by decide)
  rw [hcommand, executeText_eq, hdata, hused]

/-- A broadcast packet at the front of the ring becomes a relayed message. -/
theorem queued_of_frame {fd : Nat} {p : Packet} {frame rest : List UInt8}
    (hcommand : p.command = cmd_CHAT_BROADCAST) (hframe : frame = p.encode)
    (ring : SafeRing (frame ++ rest)) :
    (executeCommand .chatManager fd ring.buff).queued
      = some (relayedMessage fd p.body.length p.toTPacket) := by
  subst hframe
  obtain ⟨hpeek, hwhole, hdata⟩ := ring.extractPacket_frame p.isFrame_encode
  have hheader : PacketHeader.decode p.encode = p.header := by
    simpa using p.decode_encode_append []
  have hbroadcast : (TPacket.filled p.encode).header.command = cmd_CHAT_BROADCAST := by
    show p.toTPacket.header.command = _
    rw [p.toTPacket_header]
    exact hcommand
  have hrelay : executeCommand .chatManager fd ring.buff = executeRelay fd ring.buff := if_pos rfl
  rw [hrelay, executeRelay_of_le hwhole, hdata, hpeek, hheader]
  simp only [hbroadcast, if_true]
  rfl

/-- The same for a packet that has just been received. -/
theorem queued_of_received {fd : Nat} {p : Packet} (hcommand : p.command = cmd_CHAT_BROADCAST) :
    (executeCommand .chatManager fd (received p.encode)).queued
      = some (relayedMessage fd p.body.length p.toTPacket) := by
  have h : (executeCommand .chatManager fd (received (p.encode ++ []))).queued
      = some (relayedMessage fd p.body.length p.toTPacket) :=
    queued_of_frame hcommand rfl (SafeRing.putFresh _ p.length_encode_append_nil_le)
  rwa [List.append_nil] at h

/-- Its size and bytes: the message of the packet with the last byte set to zero. -/
theorem bytes_relayedMessage {fd uniqId : Nat} {p : Packet} {message : List UInt8}
    (hbody : p.body = leBytes UNIQIDSIZE uniqId ++ message) (hpos : 1 ≤ message.length) :
    (relayedMessage fd p.body.length p.toTPacket).messageSize = message.length ∧
      (relayedMessage fd p.body.length p.toTPacket).bytes
        = message.set (message.length - 1) 0 := by
  have hlen : p.body.length = 8 + message.length := by
    rw [hbody, List.length_append, length_leBytes]
    rfl
  have hsize : relayedSize p.body.length = message.length := by
    rw [relayedSize_eq p.body_lt, hlen]
    omega
  have hcopy : toUInt64 (message.length : Int) = message.length := by
    have hlt := p.body_lt
    exact toUInt64_natCast (by omega)
  have hindex : ((message.length : Int) - 1).toNat = message.length - 1 := by omega
  rw [BroadcastMessage.bytes, relayedMessage_messageSize, relayedMessage_message, hsize,
    BroadcastMessage.setMessage, hcopy, hindex, Packet.toTPacket_message hbody]
  refine ⟨rfl, List.take_of_length_le ?_⟩
  rw [List.length_set]

end ChatUser

end ThunderChat

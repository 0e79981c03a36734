import ThunderChat.Client.ChatUser
import ThunderChat.Server.ChatManager

/-!
The bounds of the objects packet extraction fills.

The length in a header comes from the peer, and nothing checks it: the
extraction copies `header.length + PDUHEADERSIZE` bytes into a `T_PACKET` of
`MAXPDUSIZE`, and `ChatUser` makes a message of `header.length - 8` bytes of it.

* `packetInBounds_iff`: the rings whose packet stays inside the `T_PACKET`, in both
  extractions and in the manager's forwarding.
* `messageInBounds_iff`: the rings whose message stays inside its buffer.
-/

namespace ThunderChat

open PacketBuffer LawfulPacketBuffer

variable {b : CircularBuff}

/-! ### The packet object -/

/-- The extractions and the manager's forwarding stay inside the `T_PACKET`, for
every list of connections at the manager. -/
def PacketInBounds (b : CircularBuff) : Prop :=
  (∀ (m : ChatManager) (c : ClientChatServer), ∀ a ∈ (m.executeCommand c b).accesses,
    a.InBounds) ∧
  ∀ fd, ∀ a ∈ (ChatUser.executeCommand .chatManager fd b).accesses,
    a.object = .tPacket → a.InBounds

/-- The copy of a packet of this length stays inside. -/
theorem copy_inBounds_iff {length : Nat} :
    Access.InBounds ⟨.tPacket, 0, length + PDUHEADERSIZE⟩ ↔ length ≤ PDUBODYSIZE := by
  simp only [Access.InBounds, FilledObject.size, PDUHEADERSIZE, PDUBODYSIZE, MAXPDUSIZE]
  omega

/-- The read of the command word does. -/
theorem command_inBounds : Access.InBounds ⟨.tPacket, 0, 2⟩ := by decide

/-- A connection registered with another id than a packet's. -/
def otherServer (uniqId : Nat) : ChatManager where
  chatServers := [⟨5, .chatServer, (uniqId + 1) % 2 ^ 64, Nat.mod_lt _ (Nat.two_pow_pos 64)⟩]
  dsMaxUser := 0
  fds_nodup := by simp

/-- It is sent the packet. -/
theorem otherServer_writes (packet : TPacket) :
    (otherServer packet.uniqId).messageBroadcast packet = [⟨5, packet.frame⟩] := by
  have hid := packet.uniqId_lt
  have hother : ∀ c ∈ (otherServer packet.uniqId).chatServers,
      c.isOrigin packet.uniqId = false := by
    intro c hc
    rw [List.mem_singleton.mp hc, Bool.eq_false_iff, Ne, ClientChatServer.isOrigin_iff hid,
      Nat.ModEq]
    dsimp only
    omega
  have hfilter : (otherServer packet.uniqId).chatServers.filter
      (fun c => !c.isOrigin packet.uniqId) = (otherServer packet.uniqId).chatServers := by
    rw [List.filter_eq_self]
    intro c hc
    rw [hother c hc]
    rfl
  rw [ChatManager.messageBroadcast, hfilter]
  rfl

/-- The switch stays inside for every list of connections exactly when a packet it
forwards fits into the object. -/
theorem dispatch_inBounds_iff {packet : TPacket} :
    (∀ (m : ChatManager) (c : ClientChatServer), ∀ a ∈ (m.dispatch c packet).accesses,
      a.InBounds) ↔
      (packet.header.command = cmd_CHAT_BROADCAST → packet.header.length ≤ PDUBODYSIZE) := by
  have huniqId : ChatManager.uniqIdAccess.InBounds := by decide
  constructor
  · intro h hcommand
    have hforward := h (otherServer packet.uniqId) ⟨5, .chatServer, 0, by decide⟩
      ⟨.tPacket, 0, PDUHEADERSIZE + packet.header.length⟩
    rw [Nat.add_comm, copy_inBounds_iff] at hforward
    apply hforward
    simp [ChatManager.dispatch, hcommand, otherServer_writes, Nat.add_comm]
  · intro h m c a ha
    unfold ChatManager.dispatch at ha
    split at ha
    · next hcommand =>
        rcases List.mem_append.mp ha with hid | hforward
        · obtain ⟨_, _, rfl⟩ := List.mem_map.mp hid
          exact huniqId
        · obtain ⟨_, _, rfl⟩ := List.mem_map.mp hforward
          rw [Nat.add_comm, copy_inBounds_iff]
          exact h hcommand
    · split at ha
      · rw [List.mem_singleton.mp ha]
        exact huniqId
      · split at ha <;> cases ha

/-- The manager's part: the copy and the forwarding. -/
theorem manager_inBounds_iff : (∀ (m : ChatManager) (c : ClientChatServer),
    ∀ a ∈ (m.executeCommand c b).accesses, a.InBounds) ↔
      b.getUsedSize < peekedLength b + PDUHEADERSIZE ∨ peekedLength b ≤ PDUBODYSIZE ∧
        (b.packetHeader.command = cmd_CHAT_BROADCAST → b.packetHeader.length ≤ PDUBODYSIZE) := by
  by_cases whole : peekedLength b + PDUHEADERSIZE ≤ usedSize b
  · have hnot : ¬ b.getUsedSize < peekedLength b + PDUHEADERSIZE := Nat.not_lt.mpr whole
    simp only [ChatManager.executeCommand_of_le whole, List.forall_mem_append,
      List.forall_mem_cons, copy_inBounds_iff, command_inBounds, hnot, false_or,
      ← header_extractPacket_eq whole, ← dispatch_inBounds_iff]
    constructor
    · intro h
      exact ⟨(h (otherServer 0) ⟨5, .chatServer, 0, by decide⟩).1.1, fun m c => (h m c).2⟩
    · rintro ⟨hcopy, hswitch⟩ m c
      exact ⟨⟨hcopy, trivial, by simp⟩, hswitch m c⟩
  · have hlt := Nat.not_le.mp whole
    simp only [ChatManager.executeCommand_of_lt hlt]
    exact iff_of_true (by simp) (.inl hlt)

/-- What `toUInt64` makes of the size of a message, for lengths a header can hold. -/
theorem toUInt64_relayedSize {length : Nat} (h : length < 65536) :
    toUInt64 (ChatUser.relayedSize length)
      = if 8 ≤ length then length - 8 else 2 ^ 64 - 8 + length := by
  rw [ChatUser.relayedSize_eq h, toUInt64, Conversion.widen]
  split <;> omega

/-- The user's copy out of the packet stays inside exactly when the length leaves
room for the id. -/
theorem relayedAccesses_packet_iff {length : Nat} (h : length ≤ PDUBODYSIZE) :
    (∀ a ∈ ChatUser.relayedAccesses length, a.object = .tPacket → a.InBounds)
      ↔ UNIQIDSIZE ≤ length := by
  simp only [PDUBODYSIZE, MAXPDUSIZE, PDUHEADERSIZE] at h
  have hsize := @toUInt64_relayedSize length (by omega)
  have hcopy : (∀ a ∈ ChatUser.relayedAccesses length, a.object = .tPacket → a.InBounds)
      ↔ Access.InBounds ⟨.tPacket, PDUHEADERSIZE + UNIQIDSIZE,
        toUInt64 (ChatUser.relayedSize length)⟩ := by
    simp [ChatUser.relayedAccesses]
  rw [hcopy, hsize]
  simp only [Access.InBounds, FilledObject.size, PDUHEADERSIZE, UNIQIDSIZE, MAXPDUSIZE]
  split <;> omega

/-- The user's part: the copy and the message bytes. -/
theorem user_inBounds_iff : (∀ fd, ∀ a ∈ (ChatUser.executeCommand .chatManager fd b).accesses,
    a.object = .tPacket → a.InBounds) ↔
      b.getUsedSize < peekedLength b + PDUHEADERSIZE ∨ peekedLength b ≤ PDUBODYSIZE ∧
        (b.packetHeader.command = cmd_CHAT_BROADCAST → UNIQIDSIZE ≤ peekedLength b) := by
  simp only [ChatUser.executeCommand, if_true]
  by_cases whole : peekedLength b + PDUHEADERSIZE ≤ usedSize b
  · have hnot : ¬ b.getUsedSize < peekedLength b + PDUHEADERSIZE := Nat.not_lt.mpr whole
    simp only [ChatUser.executeRelay_of_le whole, header_extractPacket_eq whole, hnot, false_or]
    by_cases hcommand : b.packetHeader.command = cmd_CHAT_BROADCAST
    · simp only [hcommand, if_true, List.forall_mem_append, List.forall_mem_cons,
        copy_inBounds_iff, command_inBounds, true_implies]
      constructor
      · intro h
        exact ⟨(h 0).1.1, (relayedAccesses_packet_iff (h 0).1.1).mp (h 0).2⟩
      · rintro ⟨hcopy, hid⟩ fd
        exact ⟨⟨hcopy, trivial, by simp⟩, (relayedAccesses_packet_iff hcopy).mpr hid⟩
    · simp only [hcommand, if_false, List.forall_mem_cons, copy_inBounds_iff, command_inBounds,
        true_implies, false_implies, and_true]
      exact ⟨fun h => (h 0).1, fun h _ => ⟨h, trivial, by simp⟩⟩
  · have hlt := Nat.not_le.mp whole
    simp only [ChatUser.executeRelay_of_lt hlt]
    exact iff_of_true (by simp) (.inl hlt)

/-- **Which packets stay inside their object.** The ring does not hold the whole
packet yet, or the announced length fits into `data`, and a broadcast has room for
its id and forwards no more than the object. -/
theorem packetInBounds_iff (b : CircularBuff) : PacketInBounds b ↔
    b.getUsedSize < peekedLength b + PDUHEADERSIZE ∨ peekedLength b ≤ PDUBODYSIZE ∧
      (b.packetHeader.command = cmd_CHAT_BROADCAST →
        UNIQIDSIZE ≤ peekedLength b ∧ b.packetHeader.length ≤ PDUBODYSIZE) := by
  rw [PacketInBounds, manager_inBounds_iff, user_inBounds_iff, ← or_and_left]
  apply or_congr_right
  constructor
  · rintro ⟨⟨hcopy, hforward⟩, _, hid⟩
    exact ⟨hcopy, fun hcommand => ⟨hid hcommand, hforward hcommand⟩⟩
  · rintro ⟨hcopy, hbroadcast⟩
    exact ⟨⟨hcopy, fun hcommand => (hbroadcast hcommand).2⟩, hcopy,
      fun hcommand => (hbroadcast hcommand).1⟩

/-- A broadcast packet one byte longer than a `T_PACKET`. -/
def oversized : List UInt8 :=
  PacketHeader.encode ⟨cmd_CHAT_BROADCAST, PDUBODYSIZE + 1⟩ ++ List.replicate (PDUBODYSIZE + 1) 0

/-- A fresh ring that has received it. -/
def oversizedRing : CircularBuff := ((CircularBuff.fresh fun _ => 0).put oversized).2

/-- It is copied over the end of the object. -/
theorem oversized_overflows : ¬ PacketInBounds oversizedRing := by
  have hlen : oversized.length = PDUBODYSIZE + 5 := by
    rw [oversized, List.length_append, PacketHeader.length_encode, List.length_replicate]
    rfl
  have hfits : oversized.length ≤ CIR_BUFSIZE := by rw [hlen]; decide
  have hshows : Shows oversizedRing ⟨oversized, 0, fun _ _ => 0⟩ := shows_put_fresh _ hfits rfl
  have hused : oversizedRing.getUsedSize = PDUBODYSIZE + 5 := by
    rw [← hlen]
    exact hshows.length_content.symm
  have hsafe : oversizedRing.GetSafe PDUHEADERSIZE := getSafe_put_fresh _ hfits (by decide)
  have hpeek : peekedLength oversizedRing = PDUBODYSIZE + 1 := by
    rw [hshows.peekedLength_eq (by rw [hused]; decide) hsafe]
    show (PacketHeader.decode oversized).length = _
    rw [oversized, PacketHeader.decode_encode_append]
    decide
  rintro ⟨hmanager, _⟩
  rcases manager_inBounds_iff.mp hmanager with hincomplete | ⟨hcopy, _⟩
  · rw [hused, hpeek] at hincomplete
    exact absurd hincomplete (by decide)
  · rw [hpeek] at hcopy
    exact absurd hcopy (by decide)

/-! ### The message buffer -/

/-- A message that is queued has a size the buffer can hold, and every byte written
into its buffer lies in it. -/
def MessageInBounds (type : ClientType) (fd : Nat) (b : CircularBuff) : Prop :=
  (∀ message, (ChatUser.executeCommand type fd b).queued = some message →
    1 ≤ message.messageSize ∧ message.messageSize ≤ MAX_MESSAGE_SIZE) ∧
  ∀ a ∈ (ChatUser.executeCommand type fd b).accesses, a.object = .message → a.InBounds

/-- A text message takes everything that is buffered. -/
theorem text_inBounds_iff {type : ClientType} {fd : Nat} (htype : type ≠ .chatManager) :
    MessageInBounds type fd b ↔ 1 ≤ b.getUsedSize ∧ b.getUsedSize ≤ MAX_MESSAGE_SIZE := by
  have hcommand : ChatUser.executeCommand type fd b = ChatUser.executeText fd b := if_neg htype
  rw [MessageInBounds, hcommand, ChatUser.executeText_eq]
  have hsize : usedSize b = b.getUsedSize := rfl
  simp only [Option.some.injEq, forall_eq', List.forall_mem_singleton, true_implies, hsize,
    Access.InBounds, FilledObject.size]
  constructor
  · rintro ⟨⟨hpos, hle⟩, _⟩
    exact ⟨by exact_mod_cast hpos, by exact_mod_cast hle⟩
  · rintro ⟨hpos, hle⟩
    refine ⟨⟨by exact_mod_cast hpos, by exact_mod_cast hle⟩, .inr ⟨le_rfl, ?_⟩⟩
    rw [zero_add]
    exact_mod_cast hle

/-- The writes of a relayed message stay in the buffer when its size fits. -/
theorem relayedAccesses_message {length : Nat} (hid : UNIQIDSIZE < length)
    (hfits : length ≤ UNIQIDSIZE + MAX_MESSAGE_SIZE) :
    ∀ a ∈ ChatUser.relayedAccesses length, a.object = .message → a.InBounds := by
  unfold UNIQIDSIZE MAX_MESSAGE_SIZE at *
  have hlt : length < 65536 := by omega
  have hsize : toUInt64 (length - 8 : Int) = length - 8 := by
    rw [← ChatUser.relayedSize_eq hlt, toUInt64_relayedSize hlt, if_pos (by omega)]
  simp only [ChatUser.relayedAccesses, List.forall_mem_cons, List.not_mem_nil, reduceCtorEq,
    false_implies, implies_true, and_true, true_implies, true_and, Access.InBounds,
    FilledObject.size, ChatUser.relayedSize_eq hlt, hsize, MAX_MESSAGE_SIZE]
  omega

/-- A relayed message is what the peeked length leaves behind the id. -/
theorem relay_inBounds_iff {fd : Nat} : MessageInBounds .chatManager fd b ↔
    b.getUsedSize < peekedLength b + PDUHEADERSIZE ∨
      (b.packetHeader.command = cmd_CHAT_BROADCAST →
        UNIQIDSIZE < peekedLength b ∧ peekedLength b ≤ UNIQIDSIZE + MAX_MESSAGE_SIZE) := by
  have hcommand : ChatUser.executeCommand .chatManager fd b = ChatUser.executeRelay fd b :=
    if_pos rfl
  rw [MessageInBounds, hcommand]
  by_cases whole : peekedLength b + PDUHEADERSIZE ≤ usedSize b
  · have hnot : ¬ b.getUsedSize < peekedLength b + PDUHEADERSIZE := Nat.not_lt.mpr whole
    simp only [ChatUser.executeRelay_of_le whole, header_extractPacket_eq whole, hnot, false_or]
    by_cases hbroadcast : b.packetHeader.command = cmd_CHAT_BROADCAST
    · have hsize := ChatUser.relayedSize_eq (peekedLength_lt (b := b))
      simp only [hbroadcast, if_true, Option.some.injEq, forall_eq', ChatUser.relayedMessage,
        true_implies, List.forall_mem_append]
      constructor
      · rintro ⟨⟨hpos, hle⟩, _⟩
        rw [hsize] at hpos hle
        unfold UNIQIDSIZE MAX_MESSAGE_SIZE at *
        omega
      · rintro ⟨hid, hfits⟩
        refine ⟨?_, by simp, relayedAccesses_message hid hfits⟩
        rw [hsize]
        unfold UNIQIDSIZE MAX_MESSAGE_SIZE at *
        omega
    · simp [hbroadcast]
  · have hlt := Nat.not_le.mp whole
    simp only [ChatUser.executeRelay_of_lt hlt]
    exact iff_of_true (by simp) (.inl hlt)

/-- **Which messages fit their buffer.** From a manager: there is no whole packet,
or a broadcast announces at least one and at most `MAX_MESSAGE_SIZE` bytes behind
the id. From a user: at least one byte and no more than the buffer holds. -/
theorem messageInBounds_iff (type : ClientType) (fd : Nat) (b : CircularBuff) :
    MessageInBounds type fd b ↔
      if type = .chatManager then
        b.getUsedSize < peekedLength b + PDUHEADERSIZE ∨
          (b.packetHeader.command = cmd_CHAT_BROADCAST →
            UNIQIDSIZE < peekedLength b ∧ peekedLength b ≤ UNIQIDSIZE + MAX_MESSAGE_SIZE)
      else 1 ≤ b.getUsedSize ∧ b.getUsedSize ≤ MAX_MESSAGE_SIZE := by
  split
  · next htype =>
      subst htype
      exact relay_inBounds_iff
  · next htype => exact text_inBounds_iff htype

/-- A user's burst of one byte more than a message buffer holds. -/
def burst : CircularBuff :=
  ((CircularBuff.fresh fun _ => 0).put (List.replicate (MAX_MESSAGE_SIZE + 1) 97)).2

/-- It overflows the message buffer. -/
theorem burst_overflows : ¬ MessageInBounds .user 5 burst := by
  have hlen : (List.replicate (MAX_MESSAGE_SIZE + 1) (97 : UInt8)).length = 1025 :=
    List.length_replicate
  have hused : burst.getUsedSize = 1025 := by
    rw [burst, CircularBuff.put_of_fits (by rw [hlen]; decide), CircularBuff.getUsedSize,
      CircularBuff.store_useBufferSize, hlen]
    rfl
  rw [text_inBounds_iff (by decide), hused]
  decide

end ThunderChat

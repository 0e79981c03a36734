import ThunderChat.Wire.PacketBuffer
import ThunderChat.Foundation.Conversion

/-!
What the connections of both servers share.

A connection fills two objects from its ring: a local `T_PACKET` and the buffer of
a `BroadcastMessage`. Every access to one of them is recorded as an `Access`, with
the size the code computes, converted the way C++ converts it. A copy that leaves
its object goes on in the model; whether it can is what the access bounds say.

What a server sends is recorded as the `SocketWrite`s it asks its sockets for.
-/

namespace ThunderChat

/-- `MAX_MESSAGE_SIZE`. -/
def MAX_MESSAGE_SIZE : Nat := 1024

/-- `ENUM_CLIENT_TYPE`. -/
inductive ClientType where
  | nothing | user | server | chatManager | chatServer
  deriving DecidableEq, Repr

/-- `ENUM_MESSAGE_TYPE`. -/
inductive MessageType where
  | clientChatMessage | relayedMessage
  deriving DecidableEq, Repr

/-- What `FillFromSocket` returns: `USER_CLOSE`, another number that is not positive, or
the number of bytes received. -/
inductive Fill where
  | userClose | nothing | received
  deriving DecidableEq, Repr

/-- Where a `ThreadReceiver` or a `ThreadWorker` is with the client it has dequeued. -/
inductive Stage where
  | fetched | empty | filled
  deriving DecidableEq, Repr

/-- An unsigned 64-bit value stored into an `int`. -/
def toInt (n : Nat) : Int := Conversion.narrow 32 n

/-- An `int` taken as an unsigned 64-bit value: a `size_t` or a `uint64_t`. -/
def toUInt64 (i : Int) : Nat := Conversion.widen 64 i

theorem toUInt64_natCast {n : Nat} (h : n < 2 ^ 64) : toUInt64 n = n := by
  have hlt : (n : Int) < 2 ^ 64 := by exact_mod_cast h
  rw [toUInt64, Conversion.widen, Int.emod_eq_of_lt (Int.natCast_nonneg n) hlt, Int.toNat_natCast]

/-- `BroadcastMessage`; `message` is the written part of the message buffer. -/
structure BroadcastMessage where
  messageType : MessageType
  socketFd : Nat
  messageSize : Int
  message : List UInt8
  deriving DecidableEq, Repr

/-- The buffer `BroadcastMessage::SetMessage(char*, int)` leaves: the copied bytes
with the last one set to zero. -/
def BroadcastMessage.setMessage (source : List UInt8) (size : Int) : List UInt8 :=
  (source.take (toUInt64 size)).set (size - 1).toNat 0

/-- The bytes a write of the message puts on a socket. -/
def BroadcastMessage.bytes (message : BroadcastMessage) : List UInt8 :=
  message.message.take (toUInt64 message.messageSize)

/-- A text that fits a message buffer. -/
structure Text where
  bytes : List UInt8
  pos : 1 ≤ bytes.length
  le : bytes.length ≤ MAX_MESSAGE_SIZE

namespace Text

/-- The message it is queued as, sent on the socket `fd`. -/
def message (text : Text) (fd : Nat) : BroadcastMessage :=
  ⟨.clientChatMessage, fd, text.bytes.length, text.bytes⟩

/-- Its packet fits into a `T_PACKET`. -/
theorem fits (text : Text) : UNIQIDSIZE + text.bytes.length ≤ PDUBODYSIZE :=
  le_trans (Nat.add_le_add_left text.le _) (by decide)

/-- The packet the server with this id makes of it. -/
def packet (text : Text) (uniqId : Nat) : Packet := .chatBroadcast uniqId text.bytes text.fits

theorem packet_uniqId (text : Text) {uniqId : Nat} (h : uniqId < 2 ^ 64) :
    (text.packet uniqId).toTPacket.uniqId = uniqId :=
  Packet.toTPacket_uniqId rfl h

@[simp] theorem message_socketFd (text : Text) (fd : Nat) : (text.message fd).socketFd = fd := rfl

theorem le_bufsize (text : Text) : text.bytes.length ≤ CIR_BUFSIZE :=
  le_trans text.le (by decide)

theorem toUInt64_length (text : Text) :
    toUInt64 (text.bytes.length : Int) = text.bytes.length :=
  toUInt64_natCast (lt_of_le_of_lt text.le (by decide))

/-- A write of the message puts the text on the socket. -/
theorem message_bytes (text : Text) (fd : Nat) : (text.message fd).bytes = text.bytes := by
  rw [BroadcastMessage.bytes, message, text.toUInt64_length, List.take_length]

end Text

/-! ### Accesses to the filled objects -/

/-- The objects packet extraction writes into. -/
inductive FilledObject where
  | tPacket | message
  deriving DecidableEq, Repr

/-- Their sizes: `sizeof(T_PACKET)` and the allocation in `BroadcastMessage`. -/
def FilledObject.size : FilledObject → Nat
  | .tPacket => MAXPDUSIZE
  | .message => MAX_MESSAGE_SIZE

/-- `len` bytes accessed from `offset` on in an object. -/
structure Access where
  object : FilledObject
  offset : Int
  len : Nat
  deriving DecidableEq, Repr

/-- Every byte accessed lies in the object. -/
def Access.InBounds (a : Access) : Prop :=
  a.len = 0 ∨ 0 ≤ a.offset ∧ a.offset + a.len ≤ a.object.size

instance (a : Access) : Decidable a.InBounds := by unfold Access.InBounds; infer_instance

/-- Bounds of an access are bounds of each byte it touches. -/
theorem Access.inBounds_iff (a : Access) :
    a.InBounds ↔ ∀ i : Int, a.offset ≤ i → i < a.offset + a.len → 0 ≤ i ∧ i < a.object.size := by
  unfold Access.InBounds
  constructor
  · intro h i hlo hhi
    omega
  · intro h
    by_cases hlen : a.len = 0
    · exact .inl hlen
    · have first := h a.offset (by omega) (by omega)
      have last := h (a.offset + a.len - 1) (by omega) (by omega)
      omega

/-! ### Writes -/

/-- `bytes` written to the socket `fd`. -/
structure SocketWrite where
  fd : Nat
  bytes : List UInt8
  deriving DecidableEq, Repr

/-- The bytes of each write to one socket. -/
def writesTo (fd : Nat) (writes : List SocketWrite) : List (List UInt8) :=
  (writes.filter fun w => w.fd = fd).map SocketWrite.bytes

section Fanout

variable {α : Type} {fdOf : α → Nat} {targets : List α} {keep : α → Bool} {bytes : List UInt8}

/-- A socket that is not among the targets gets nothing. -/
theorem writesTo_fanout_of_not_mem {fd : Nat} (h : fd ∉ targets.map fdOf) :
    writesTo fd ((targets.filter keep).map fun t => ⟨fdOf t, bytes⟩) = [] := by
  rw [writesTo, List.map_eq_nil_iff, List.filter_eq_nil_iff]
  intro w hw
  obtain ⟨t, ht, rfl⟩ := List.mem_map.mp hw
  have hne : fdOf t ≠ fd := by
    rintro rfl
    exact h (List.mem_map_of_mem (List.mem_of_mem_filter ht))
  simpa using hne

/-- Writing the same bytes to all targets that are kept reaches each of them once. -/
theorem writesTo_fanout (nodup : (targets.map fdOf).Nodup) {a : α} (ha : a ∈ targets) :
    writesTo (fdOf a) ((targets.filter keep).map fun t => ⟨fdOf t, bytes⟩)
      = if keep a then [bytes] else [] := by
  induction targets with
  | nil => cases ha
  | cons t rest ih =>
      rw [List.map_cons, List.nodup_cons] at nodup
      rcases List.mem_cons.mp ha with rfl | hrest
      · have hnone : writesTo (fdOf a) ((rest.filter keep).map fun t => ⟨fdOf t, bytes⟩) = [] :=
          writesTo_fanout_of_not_mem nodup.1
        by_cases hkeep : keep a
        · simpa [writesTo, hkeep] using hnone
        · simpa [hkeep] using hnone
      · have hne : fdOf t ≠ fdOf a := by
          intro heq
          exact nodup.1 (heq ▸ List.mem_map_of_mem hrest)
        rw [← ih nodup.2 hrest]
        by_cases hkeep : keep t <;> simp [writesTo, hkeep, hne]

end Fanout

end ThunderChat

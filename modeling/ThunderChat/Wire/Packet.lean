import ThunderChat.CircularBuff.Basic
import ThunderChat.Foundation.LittleEndian

/-!
The packet layout of `Packet.h`.

`TPacket` is the memory of a `T_PACKET` object, from its first byte on; a copy
that runs past the object makes the list longer than `MAXPDUSIZE`. The members
are read where the packed layout puts them: `command` at 0, `length` at 2, `data`
at 4, and in `data` the `uniqId` of the three command bodies at 0 and the chat
`message` at 8. Integers are in the byte order of the builds (x86-64, arm64).

`Packet` is a packet as a sender means it: a command and a body that fits into
`data`.
-/

namespace ThunderChat

/-- `MAXPDUSIZE`, which is `sizeof(T_PACKET)`. -/
def MAXPDUSIZE : Nat := 4096

/-- `PDUBODYSIZE`. -/
def PDUBODYSIZE : Nat := MAXPDUSIZE - PDUHEADERSIZE

/-- `sizeof(uint64_t)`. -/
def UNIQIDSIZE : Nat := 8

def cmd_HELLO_DS_DSM : Nat := 1802
def cmd_HELLO_DSM_DS : Nat := 1803
def cmd_HEARTBEAT_DC_DSM : Nat := 1610
def cmd_HEARTBEAT_DSM_DC : Nat := 1611
def cmd_CHAT_BROADCAST : Nat := 1620

/-- `PACKET_HEADER`: two unsigned 16-bit numbers. -/
structure PacketHeader where
  command : Nat
  length : Nat
  deriving DecidableEq, Repr

namespace PacketHeader

/-- The four bytes of a header. -/
def encode (h : PacketHeader) : List UInt8 := leBytes 2 h.command ++ leBytes 2 h.length

/-- The header at the start of a memory. -/
def decode (bytes : List UInt8) : PacketHeader where
  command := leNat (bytes.take 2)
  length := leNat ((bytes.drop 2).take 2)

@[simp] theorem length_encode (h : PacketHeader) : h.encode.length = PDUHEADERSIZE := by
  simp [encode, PDUHEADERSIZE]

/-- Reading a header back cuts its members to 16 bits. -/
theorem decode_encode_append (h : PacketHeader) (rest : List UInt8) :
    decode (h.encode ++ rest) = ⟨h.command % 65536, h.length % 65536⟩ := by
  simp [decode, encode, leNat_leBytes]

theorem decode_length_lt (bytes : List UInt8) : (decode bytes).length < 65536 := by
  have h := leNat_lt ((bytes.drop 2).take 2)
  have hlen : ((bytes.drop 2).take 2).length ≤ 2 := List.length_take_le _ _
  have hpow : 256 ^ ((bytes.drop 2).take 2).length ≤ 256 ^ 2 :=
    Nat.pow_le_pow_right (Nat.succ_pos _) hlen
  exact lt_of_lt_of_le h hpow

/-- Only the first four bytes matter. -/
theorem decode_take (bytes : List UInt8) : decode (bytes.take PDUHEADERSIZE) = decode bytes := by
  simp [decode, PDUHEADERSIZE, List.take_take, List.drop_take]

theorem decode_take_of_le {n : Nat} (h : PDUHEADERSIZE ≤ n) (bytes : List UInt8) :
    decode (bytes.take n) = decode bytes := by
  rw [← decode_take, List.take_take, Nat.min_eq_left h, decode_take]

/-- Bytes behind the header do not change it. -/
theorem decode_append {bytes : List UInt8} (h : PDUHEADERSIZE ≤ bytes.length)
    (rest : List UInt8) : decode (bytes ++ rest) = decode bytes := by
  rw [← decode_take, ← decode_take bytes, List.take_append_of_le_length h]

end PacketHeader

/-- A complete frame: a header and exactly as many bytes behind it as it says. -/
def IsFrame (f : List UInt8) : Prop :=
  PDUHEADERSIZE ≤ f.length ∧ f.length = (PacketHeader.decode f).length + PDUHEADERSIZE

instance (f : List UInt8) : Decidable (IsFrame f) := by unfold IsFrame; infer_instance

/-- The memory of a `T_PACKET`. -/
structure TPacket where
  bytes : List UInt8
  deriving DecidableEq, Repr

namespace TPacket

/-- A packet object after `memset` and a copy of `bytes` to its start. -/
def filled (bytes : List UInt8) : TPacket :=
  ⟨bytes ++ List.replicate (MAXPDUSIZE - bytes.length) 0⟩

def header (t : TPacket) : PacketHeader := PacketHeader.decode t.bytes

def data (t : TPacket) : List UInt8 := t.bytes.drop PDUHEADERSIZE

/-- `uniqId` of the command body in `data`. -/
def uniqId (t : TPacket) : Nat := leNat (t.data.take UNIQIDSIZE)

/-- `message` of the `Tcmd_CHAT_BROADCAST` in `data`, to the end of the object. -/
def message (t : TPacket) : List UInt8 := t.data.drop UNIQIDSIZE

/-- The first `PDUHEADERSIZE + header.length` bytes: what is put on the wire. -/
def frame (t : TPacket) : List UInt8 := t.bytes.take (PDUHEADERSIZE + t.header.length)

theorem uniqId_lt (t : TPacket) : t.uniqId < 2 ^ 64 := by
  have h := leNat_lt (t.data.take UNIQIDSIZE)
  have hlen : (t.data.take UNIQIDSIZE).length ≤ 8 := List.length_take_le _ _
  have hpow : 256 ^ (t.data.take UNIQIDSIZE).length ≤ 256 ^ 8 :=
    Nat.pow_le_pow_right (Nat.succ_pos 255) hlen
  calc t.uniqId < 256 ^ (t.data.take UNIQIDSIZE).length := h
    _ ≤ 256 ^ 8 := hpow
    _ = 2 ^ 64 := by norm_num

/-- A header in front of the copied bytes is the header of the object. -/
theorem header_filled (bytes : List UInt8) (h : PDUHEADERSIZE ≤ bytes.length) :
    (filled bytes).header = PacketHeader.decode bytes :=
  PacketHeader.decode_append h _

/-- An object that is large enough is sent as a complete frame. -/
theorem isFrame_frame {t : TPacket} (h : PDUHEADERSIZE + t.header.length ≤ t.bytes.length) :
    IsFrame t.frame := by
  have hlen : t.frame.length = PDUHEADERSIZE + t.header.length := List.length_take_of_le h
  have hheader : PacketHeader.decode t.frame = t.header :=
    PacketHeader.decode_take_of_le (Nat.le_add_right _ _) _
  refine ⟨?_, ?_⟩
  · rw [hlen]
    exact Nat.le_add_right _ _
  · rw [hlen, hheader, Nat.add_comm]

end TPacket

/-- A packet as a sender means it. -/
structure Packet where
  command : Nat
  body : List UInt8
  command_lt : command < 65536
  body_le : body.length ≤ PDUBODYSIZE

namespace Packet

def header (p : Packet) : PacketHeader := ⟨p.command, p.body.length⟩

/-- The bytes of a packet on the wire. -/
def encode (p : Packet) : List UInt8 := p.header.encode ++ p.body

/-- The `T_PACKET` object that holds a packet. -/
def toTPacket (p : Packet) : TPacket := TPacket.filled p.encode

@[simp] theorem length_encode (p : Packet) : p.encode.length = PDUHEADERSIZE + p.body.length := by
  simp [encode]

theorem body_lt (p : Packet) : p.body.length < 65536 :=
  lt_of_le_of_lt p.body_le (by decide)

/-- A packet fits into a ring. -/
theorem length_encode_append_nil_le (p : Packet) : (p.encode ++ []).length ≤ CIR_BUFSIZE := by
  rw [List.append_nil, length_encode]
  exact le_trans (Nat.add_le_add_left p.body_le _) (by decide)

theorem decode_encode_append (p : Packet) (rest : List UInt8) :
    PacketHeader.decode (p.encode ++ rest) = p.header := by
  rw [encode, List.append_assoc, PacketHeader.decode_encode_append]
  simp [header, Nat.mod_eq_of_lt p.command_lt, Nat.mod_eq_of_lt p.body_lt]

theorem isFrame_encode (p : Packet) : IsFrame p.encode := by
  have h := p.decode_encode_append []
  rw [List.append_nil] at h
  refine ⟨by simp, ?_⟩
  rw [h, length_encode, header]
  exact Nat.add_comm _ _

/-- The object that holds a packet has its header and its body. -/
theorem toTPacket_header (p : Packet) : p.toTPacket.header = p.header := by
  rw [toTPacket, TPacket.header_filled _ (by simp)]
  simpa using p.decode_encode_append []

theorem toTPacket_body (p : Packet) : p.toTPacket.data.take p.body.length = p.body := by
  simp [toTPacket, TPacket.filled, TPacket.data, encode, PDUHEADERSIZE]

/-- What is put on the wire of it is the packet. -/
theorem toTPacket_frame (p : Packet) : p.toTPacket.frame = p.encode := by
  have hlen : PDUHEADERSIZE + p.header.length = p.encode.length := by simp [header]
  rw [TPacket.frame, toTPacket_header, hlen, toTPacket, TPacket.filled, List.take_left]

section Body

variable {p : Packet} {uniqId : Nat} {rest : List UInt8}
  (h : p.body = leBytes UNIQIDSIZE uniqId ++ rest)
include h

theorem toTPacket_data : p.toTPacket.data = leBytes UNIQIDSIZE uniqId
    ++ (rest ++ List.replicate (MAXPDUSIZE - p.encode.length) 0) := by
  rw [toTPacket, TPacket.filled, TPacket.data, encode, h, List.append_assoc, List.append_assoc,
    ← p.header.length_encode, List.drop_left]

/-- The id at the front of a command body. -/
theorem toTPacket_uniqId (hlt : uniqId < 2 ^ 64) : p.toTPacket.uniqId = uniqId := by
  have hlen : (leBytes UNIQIDSIZE uniqId).length = UNIQIDSIZE := length_leBytes _ _
  rw [TPacket.uniqId, toTPacket_data h, List.take_left' hlen, leNat_leBytes]
  exact Nat.mod_eq_of_lt hlt

/-- The message behind it. -/
theorem toTPacket_message : p.toTPacket.message.take rest.length = rest := by
  have hlen : (leBytes UNIQIDSIZE uniqId).length = UNIQIDSIZE := length_leBytes _ _
  rw [TPacket.message, toTPacket_data h, List.drop_left' hlen, List.take_left]

end Body

/-- The `cmd_HELLO_DS_DSM` packet of a chat server. -/
def hello (uniqId : Nat) : Packet where
  command := cmd_HELLO_DS_DSM
  body := leBytes UNIQIDSIZE uniqId
  command_lt := by decide
  body_le := by rw [length_leBytes]; decide

/-- The `cmd_CHAT_BROADCAST` packet of a text. -/
def chatBroadcast (uniqId : Nat) (message : List UInt8)
    (h : UNIQIDSIZE + message.length ≤ PDUBODYSIZE) : Packet where
  command := cmd_CHAT_BROADCAST
  body := leBytes UNIQIDSIZE uniqId ++ message
  command_lt := by decide
  body_le := by rwa [List.length_append, length_leBytes]

theorem chatBroadcast_uniqId {uniqId : Nat} {message : List UInt8}
    {h : UNIQIDSIZE + message.length ≤ PDUBODYSIZE} (hlt : uniqId < 2 ^ 64) :
    (chatBroadcast uniqId message h).toTPacket.uniqId = uniqId :=
  toTPacket_uniqId rfl hlt

theorem hello_uniqId {uniqId : Nat} (h : uniqId < 2 ^ 64) :
    (hello uniqId).toTPacket.uniqId = uniqId :=
  toTPacket_uniqId (List.append_nil _).symm h

end Packet

end ThunderChat

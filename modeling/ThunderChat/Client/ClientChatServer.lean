import ThunderChat.Client.Basic

/-!
`ClientChatServer`: a chat server's connection at the manager.

`executeCommand` extracts one packet and hands it to the command switch; the
switch is `ChatManager`'s part and leaves this ring alone, so the outcome names
the packet that reached the switch. The handlers that concern one connection are
defined here: the registration by `cmd_HELLO_DS_DSM`, the heartbeat, and the
comparison of the registered id with a packet's.

`GetUniqId` returns the 64-bit `m_uniqId` as an `int`, which the comparison takes
back as an unsigned 64-bit value (`isOrigin_iff`).
-/

namespace ThunderChat

open PacketBuffer LawfulPacketBuffer

/-- The outcome of `ClientChatServer::ExecuteCommand` up to its switch. -/
structure ServerCommand (β : Type) where
  ret : Int
  buff : β
  packet : Option TPacket
  accesses : List Access

/-- A `ClientChatServer` without its ring. -/
structure ClientChatServer where
  fd : Nat
  type : ClientType
  uniqId : Nat
  uniqId_lt : uniqId < 2 ^ 64
  deriving DecidableEq

namespace ClientChatServer

section Extraction

variable {β : Type} [PacketBuffer β]

/-- `ClientChatServer::ExecuteCommand`. -/
def executeCommand (b : β) : ServerCommand β :=
  let got := extractPacket b
  if got.ret < 0 then ⟨-1, got.buff, none, []⟩
  else ⟨0, got.buff, some (TPacket.filled got.data),
    [⟨.tPacket, 0, got.data.length⟩, ⟨.tPacket, 0, 2⟩]⟩

variable [LawfulPacketBuffer β] {b : β}

/-- An incomplete packet is refused. -/
theorem executeCommand_of_lt (h : usedSize b < peekedLength b + PDUHEADERSIZE) :
    executeCommand b = ⟨-1, (getHeader b).2, none, []⟩ := by
  simp [executeCommand, extractPacket_of_lt h, RECV_NOT_ENOUGH]

/-- A complete packet reaches the switch. -/
theorem executeCommand_of_le (h : peekedLength b + PDUHEADERSIZE ≤ usedSize b) :
    executeCommand b
      = ⟨0, (extractPacket b).buff, some (TPacket.filled (extractPacket b).data),
        [⟨.tPacket, 0, peekedLength b + PDUHEADERSIZE⟩, ⟨.tPacket, 0, 2⟩]⟩ := by
  dsimp only [executeCommand]
  rw [extractPacket_ret h, length_extractPacket h, if_neg (by omega)]

end Extraction

/-! ### The handlers of one connection -/

/-- `GetUniqId`. -/
def getUniqId (c : ClientChatServer) : Int := toInt c.uniqId

/-- A packet's id is compared equal to the connection's. -/
def isOrigin (c : ClientChatServer) (uniqId : Nat) : Bool := toUInt64 c.getUniqId == uniqId

/-- The `cmd_HELLO_DSM_DS` answer; `dHelloTime` stays zero. -/
def helloAck (maxUser uniqId : Nat) : List UInt8 :=
  PacketHeader.encode ⟨cmd_HELLO_DSM_DS, 20⟩ ++ leBytes UNIQIDSIZE uniqId ++ leBytes 4 maxUser
    ++ List.replicate 8 0

/-- `WorkChatServerHello`: the connection takes the packet's id and answers. -/
def workChatServerHello (c : ClientChatServer) (maxUser : Nat) (packet : TPacket) :
    ClientChatServer × SocketWrite :=
  ({ c with type := .chatServer, uniqId := packet.uniqId, uniqId_lt := packet.uniqId_lt },
    ⟨c.fd, helloAck maxUser packet.uniqId⟩)

/-- `WorkDSMPing`. -/
def workDSMPing (c : ClientChatServer) : SocketWrite :=
  ⟨c.fd, PacketHeader.encode ⟨cmd_HEARTBEAT_DSM_DC, 0⟩⟩

/-- The comparison sees the low 32 bits of the registered id, and only matches ids
that an `int` can stand for. -/
theorem isOrigin_iff {c : ClientChatServer} {uniqId : Nat} (h : uniqId < 2 ^ 64) :
    c.isOrigin uniqId = true
      ↔ Conversion.Survives 32 64 uniqId ∧ c.uniqId ≡ uniqId [MOD 2 ^ 32] := by
  rw [isOrigin, beq_iff_eq, toUInt64, getUniqId, toInt,
    Conversion.widen_narrow_eq_iff (by decide) (by decide) h]

/-- For ids below `2 ^ 31` the comparison is equality. -/
theorem isOrigin_of_lt {c : ClientChatServer} {uniqId : Nat} (hc : c.uniqId < 2 ^ 31)
    (h : uniqId < 2 ^ 31) : c.isOrigin uniqId = decide (c.uniqId = uniqId) := by
  rw [Bool.eq_iff_iff, isOrigin_iff (by omega), decide_eq_true_eq, Nat.ModEq]
  constructor
  · rintro ⟨_, hmod⟩
    omega
  · rintro rfl
    exact ⟨.inl h, rfl⟩

end ClientChatServer

end ThunderChat

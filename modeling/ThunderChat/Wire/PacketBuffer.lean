import ThunderChat.CircularBuff.Fifo
import ThunderChat.Wire.Packet

/-!
The part of the ring that packet extraction uses.

`ChatUser::ExecuteCommand` and `ClientChatServer::ExecuteCommand` see their ring
through `GetUsedSize`, `GetHeader` and `Get`. `PacketBuffer` is that interface, so
both functions are defined once and run on two rings: `CircularBuff`, the ring of
the source, and `ByteQueue`, an exact FIFO whose header peek returns arbitrary
bytes beyond the bytes held. `ByteQueue` is the abstract ring; a `CircularBuff`
whose accesses stay in its array shows the same content (`get_simulates`,
`getHeader_simulates`).
-/

namespace ThunderChat

/-- What packet extraction needs of a ring. `getHeader` may change the ring's
state, as the abstract ring counts its peeks. -/
class PacketBuffer (β : Type) where
  usedSize : β → Nat
  getHeader : β → List UInt8 × β
  get : β → Nat → GetOutcome β

open PacketBuffer in
/-- The byte counts every ring keeps. -/
class LawfulPacketBuffer (β : Type) [PacketBuffer β] : Prop where
  usedSize_getHeader : ∀ b : β, usedSize (getHeader b).2 = usedSize b
  get_of_lt : ∀ (b : β) (len : Nat), usedSize b < len → get b len = ⟨RECV_NOT_ENOUGH, [], b⟩
  get_ret : ∀ (b : β) (len : Nat), len ≤ usedSize b → (get b len).ret = len
  length_get_data : ∀ (b : β) (len : Nat), len ≤ usedSize b → (get b len).data.length = len
  usedSize_get : ∀ (b : β) (len : Nat), len ≤ usedSize b →
    usedSize (get b len).buff = usedSize b - len

namespace PacketBuffer

variable {β : Type} [PacketBuffer β]

/-- The length field of the peeked header. -/
def peekedLength (b : β) : Nat := (PacketHeader.decode (getHeader b).1).length

/-- The extraction both `ExecuteCommand`s make: `Get` into a local `T_PACKET` as
many bytes as the peeked header announces. -/
def extractPacket (b : β) : GetOutcome β := get (getHeader b).2 (peekedLength b + PDUHEADERSIZE)

theorem peekedLength_lt {b : β} : peekedLength b < 65536 := PacketHeader.decode_length_lt _

section Lawful

variable [LawfulPacketBuffer β] {b : β}

open LawfulPacketBuffer

/-- An incomplete packet is refused; only the peek has happened. -/
theorem extractPacket_of_lt (h : usedSize b < peekedLength b + PDUHEADERSIZE) :
    extractPacket b = ⟨RECV_NOT_ENOUGH, [], (getHeader b).2⟩ :=
  get_of_lt _ _ (by rwa [usedSize_getHeader])

variable (h : peekedLength b + PDUHEADERSIZE ≤ usedSize b)
include h

theorem extractPacket_ret : (extractPacket b).ret = (peekedLength b + PDUHEADERSIZE : Nat) :=
  get_ret _ _ (by rwa [usedSize_getHeader])

theorem length_extractPacket : (extractPacket b).data.length = peekedLength b + PDUHEADERSIZE :=
  length_get_data _ _ (by rwa [usedSize_getHeader])

theorem usedSize_extractPacket :
    usedSize (extractPacket b).buff = usedSize b - (peekedLength b + PDUHEADERSIZE) := by
  rw [extractPacket, usedSize_get _ _ (by rwa [usedSize_getHeader]), usedSize_getHeader]

/-- The header of the extracted packet lies in the copied bytes. -/
theorem header_extractPacket :
    (TPacket.filled (extractPacket b).data).header = PacketHeader.decode (extractPacket b).data :=
  TPacket.header_filled _ (by rw [length_extractPacket h]; omega)

end Lawful

end PacketBuffer

instance : PacketBuffer CircularBuff where
  usedSize := CircularBuff.getUsedSize
  getHeader b := (b.getHeader, b)
  get := CircularBuff.get

instance : LawfulPacketBuffer CircularBuff where
  usedSize_getHeader _ := rfl
  get_of_lt _ _ := CircularBuff.get_of_lt
  get_ret b len h := by simp only [PacketBuffer.get, CircularBuff.get_of_le h]
  length_get_data b len h := by
    simp only [PacketBuffer.get, CircularBuff.get_of_le h, CircularBuff.length_gather_readSpans]
  usedSize_get b len h := by
    simp only [PacketBuffer.get, PacketBuffer.usedSize, CircularBuff.get_of_le h,
      CircularBuff.getUsedSize_drop]

/-! ### The exact FIFO -/

/-- A byte FIFO. `stale k i` is what the `k`-th header peek shows at position `i`
when fewer than `i + 1` bytes are held. -/
structure ByteQueue where
  content : List UInt8
  peeks : Nat
  stale : Nat → Nat → UInt8

namespace ByteQueue

/-- The header peek: the oldest bytes, then stale ones. -/
def getHeader (q : ByteQueue) : List UInt8 × ByteQueue :=
  ((List.range PDUHEADERSIZE).map fun i => (q.content[i]?).getD (q.stale q.peeks i),
    { q with peeks := q.peeks + 1 })

def get (q : ByteQueue) (len : Nat) : GetOutcome ByteQueue :=
  if q.content.length < len then ⟨RECV_NOT_ENOUGH, [], q⟩
  else ⟨len, q.content.take len, { q with content := q.content.drop len }⟩

/-- `Put` on the FIFO, with the capacity of the ring. -/
def put (q : ByteQueue) (bytes : List UInt8) : Int × ByteQueue :=
  if CIR_BUFSIZE < q.content.length + bytes.length then (-1, q)
  else (bytes.length, { q with content := q.content ++ bytes })

instance : PacketBuffer ByteQueue where
  usedSize q := q.content.length
  getHeader := getHeader
  get := get

theorem get_of_le {q : ByteQueue} {len : Nat} (h : len ≤ q.content.length) :
    q.get len = ⟨len, q.content.take len, { q with content := q.content.drop len }⟩ :=
  if_neg (Nat.not_lt.mpr h)

instance : LawfulPacketBuffer ByteQueue where
  usedSize_getHeader _ := rfl
  get_of_lt _ _ h := if_pos h
  get_ret q len h := by simp only [PacketBuffer.get, get_of_le h]
  length_get_data q len h := by
    simp only [PacketBuffer.get, get_of_le h, List.length_take]
    exact Nat.min_eq_left h
  usedSize_get q len h := by
    simp only [PacketBuffer.get, PacketBuffer.usedSize, get_of_le h, List.length_drop]

/-- With four bytes held the peek is the first four. -/
theorem getHeader_eq_take {q : ByteQueue} (h : PDUHEADERSIZE ≤ q.content.length) :
    q.getHeader.1 = q.content.take PDUHEADERSIZE := by
  apply List.ext_getElem?
  intro i
  by_cases hi : i < PDUHEADERSIZE
  · have hlt : i < q.content.length := by omega
    simp [getHeader, hi, hlt]
  · have hmap : (getHeader q).1.length ≤ i := by simp [getHeader]; omega
    rw [List.getElem?_eq_none hmap, List.getElem?_eq_none (by simp; omega)]

open PacketBuffer

/-- With four bytes held the peeked length is that of the oldest bytes. -/
theorem peekedLength_eq {q : ByteQueue} (h : PDUHEADERSIZE ≤ q.content.length) :
    peekedLength q = (PacketHeader.decode q.content).length := by
  show (PacketHeader.decode q.getHeader.1).length = _
  rw [getHeader_eq_take h, PacketHeader.decode_take]

/-- Extracting a complete packet splits the content behind it. -/
theorem extractPacket_eq {q : ByteQueue}
    (h : peekedLength q + PDUHEADERSIZE ≤ q.content.length) :
    extractPacket q = ⟨(peekedLength q + PDUHEADERSIZE : Nat),
      q.content.take (peekedLength q + PDUHEADERSIZE),
      { q with
        content := q.content.drop (peekedLength q + PDUHEADERSIZE)
        peeks := q.peeks + 1 }⟩ :=
  get_of_le (q := { q with peeks := q.peeks + 1 }) h

/-- What a complete packet is extracted as is a frame. -/
theorem isFrame_take {q : ByteQueue} (h : peekedLength q + PDUHEADERSIZE ≤ q.content.length) :
    IsFrame (q.content.take (peekedLength q + PDUHEADERSIZE)) := by
  have hheld : PDUHEADERSIZE ≤ q.content.length := le_trans (Nat.le_add_left _ _) h
  rw [IsFrame, List.length_take_of_le h, PacketHeader.decode_take_of_le (Nat.le_add_left _ _),
    ← peekedLength_eq hheld]
  exact ⟨Nat.le_add_left _ _, rfl⟩

/-- A frame at the front of the content is what is extracted. -/
theorem extractPacket_frame {q : ByteQueue} {f rest : List UInt8} (hf : IsFrame f)
    (h : q.content = f ++ rest) :
    peekedLength q = (PacketHeader.decode f).length ∧
      extractPacket q = ⟨f.length, f, { q with content := rest, peeks := q.peeks + 1 }⟩ := by
  have hlen : q.content.length = f.length + rest.length := by rw [h, List.length_append]
  have hpeek : peekedLength q = (PacketHeader.decode f).length := by
    rw [peekedLength_eq (by have := hf.1; omega), h, PacketHeader.decode_append hf.1]
  refine ⟨hpeek, ?_⟩
  rw [extractPacket_eq (by rw [hpeek, ← hf.2]; omega), hpeek, ← hf.2, h]
  simp

end ByteQueue

/-! ### The ring of the source simulates the FIFO -/

/-- A ring shows the content of a FIFO. -/
def Shows (b : CircularBuff) (q : ByteQueue) : Prop := b.Inv ∧ b.content = q.content

theorem Shows.usedSize {b : CircularBuff} {q : ByteQueue} (h : Shows b q) :
    PacketBuffer.usedSize b = PacketBuffer.usedSize q := by
  show b.getUsedSize = q.content.length
  rw [← h.2, CircularBuff.length_content]

theorem Shows.length_content {b : CircularBuff} {q : ByteQueue} (h : Shows b q) :
    q.content.length = b.getUsedSize :=
  h.usedSize.symm

/-- A safe `Get` has the FIFO's outcome and again shows the FIFO. -/
theorem get_simulates {b : CircularBuff} {q : ByteQueue} {len : Nat} (h : Shows b q)
    (safe : b.GetSafe len) :
    (b.get len).ret = (q.get len).ret ∧ (b.get len).data = (q.get len).data ∧
      Shows (b.get len).buff (q.get len).buff := by
  have hused : b.getUsedSize = q.content.length := h.usedSize
  by_cases hlen : len ≤ b.getUsedSize
  · have hcontent := CircularBuff.content_get h.1 hlen safe
    have hdata : (b.get len).data.length = len :=
      LawfulPacketBuffer.length_get_data b len hlen
    rw [ByteQueue.get_of_le (hused ▸ hlen), ← h.2, hcontent]
    refine ⟨by rw [CircularBuff.get_of_le hlen], ?_, h.1.get, ?_⟩
    · simp [hdata]
    · simp [hdata]
  · have hlt : q.content.length < len := by omega
    rw [CircularBuff.get_of_lt (Nat.not_le.mp hlen), ByteQueue.get, if_pos hlt]
    exact ⟨rfl, rfl, h⟩

/-- A peek with at least four bytes held that does not cross the right edge is
the FIFO's peek. -/
theorem getHeader_simulates {b : CircularBuff} {q : ByteQueue} (h : Shows b q)
    (held : PDUHEADERSIZE ≤ b.getUsedSize) (safe : b.GetSafe PDUHEADERSIZE) :
    b.getHeader = q.getHeader.1 := by
  have hused : b.getUsedSize = q.content.length := h.usedSize
  have hcontent := CircularBuff.content_get h.1 held safe
  have hdata : (b.get PDUHEADERSIZE).data.length = PDUHEADERSIZE :=
    LawfulPacketBuffer.length_get_data b PDUHEADERSIZE held
  rw [ByteQueue.getHeader_eq_take (hused ▸ held), ← h.2, hcontent,
    List.take_append_of_le_length (Nat.le_of_eq hdata.symm),
    List.take_of_length_le (Nat.le_of_eq hdata), CircularBuff.get_of_le held]
  rfl

/-- What has been put into a fresh ring is what it shows. -/
theorem shows_put_fresh (mem : Nat → UInt8) {bytes : List UInt8}
    (h : bytes.length ≤ CIR_BUFSIZE) {q : ByteQueue} (hq : q.content = bytes) :
    Shows ((CircularBuff.fresh mem).put bytes).2 q := by
  have fits : bytes.length ≤ (CircularBuff.fresh mem).getFreeSize := h
  refine ⟨(CircularBuff.fresh_inv mem).put, ?_⟩
  rw [CircularBuff.put_of_fits fits,
    CircularBuff.content_store (CircularBuff.fresh_inv mem) fits, hq]
  rfl

/-- Every read of it that fits into the array is safe. -/
theorem getSafe_put_fresh (mem : Nat → UInt8) {bytes : List UInt8} {len : Nat}
    (h : bytes.length ≤ CIR_BUFSIZE) (hlen : len ≤ CIR_BUFSIZE) :
    ((CircularBuff.fresh mem).put bytes).2.GetSafe len := by
  have fits : bytes.length ≤ (CircularBuff.fresh mem).getFreeSize := h
  intro _
  refine .inl ?_
  rw [CircularBuff.put_of_fits fits]
  show 0 + len ≤ CIR_BUFSIZE
  omega

section PacketHeader

variable {b : CircularBuff} {q : ByteQueue}

open PacketBuffer

/-- The header of the packet at the front of the ring, where the read of the whole
packet finds it. -/
def CircularBuff.packetHeader (b : CircularBuff) : PacketHeader :=
  PacketHeader.decode (gather b.bufferHeader (b.readSpans (peekedLength b + PDUHEADERSIZE)))

/-- It is the header of the extracted packet. -/
theorem header_extractPacket_eq (whole : peekedLength b + PDUHEADERSIZE ≤ usedSize b) :
    (TPacket.filled (extractPacket b).data).header = b.packetHeader := by
  have hget : extractPacket b = ⟨_, _, _⟩ := CircularBuff.get_of_le whole
  rw [header_extractPacket whole, hget]
  rfl

/-- On a ring that shows a FIFO, a safe peek is the header of the oldest bytes. -/
theorem Shows.peekedLength_eq (h : Shows b q) (held : PDUHEADERSIZE ≤ b.getUsedSize)
    (safe : b.GetSafe PDUHEADERSIZE) :
    peekedLength b = (PacketHeader.decode q.content).length := by
  have hpeek : b.getHeader = q.getHeader.1 := getHeader_simulates h held safe
  show (PacketHeader.decode b.getHeader).length = _
  rw [hpeek, ByteQueue.getHeader_eq_take (h.length_content ▸ held), PacketHeader.decode_take]

end PacketHeader

/-- A fresh ring into which the bytes have been put. -/
def received (bytes : List UInt8) : CircularBuff := ((CircularBuff.fresh fun _ => 0).put bytes).2

/-- A ring that holds `content` and whose reads stay inside the array. -/
structure SafeRing (content : List UInt8) where
  buff : CircularBuff
  inv : buff.Inv
  content_eq : buff.content = content
  safe : ∀ len, buff.GetSafe len

namespace SafeRing

open PacketBuffer

/-- A fresh ring that has received the bytes. -/
def putFresh (content : List UInt8) (h : content.length ≤ CIR_BUFSIZE) : SafeRing content where
  buff := received content
  inv := (CircularBuff.fresh_inv _).put
  content_eq := (shows_put_fresh _ h (q := ⟨content, 0, fun _ _ => 0⟩) rfl).2
  safe len hlen := by
    have hshows := shows_put_fresh (fun _ => 0) h (q := ⟨content, 0, fun _ _ => 0⟩) rfl
    have hused := hshows.length_content
    exact getSafe_put_fresh _ h (le_trans (hused ▸ hlen) h) hlen

theorem shows {content : List UInt8} (r : SafeRing content) (stale : Nat → Nat → UInt8) :
    Shows r.buff ⟨content, 0, stale⟩ := ⟨r.inv, r.content_eq⟩

/-- Reading everything delivers the content. -/
theorem get_all {content : List UInt8} (r : SafeRing content) :
    usedSize r.buff = content.length ∧ (get r.buff (usedSize r.buff)).data = content := by
  have hshows := r.shows fun _ _ => 0
  have hused : usedSize r.buff = content.length := hshows.usedSize
  refine ⟨hused, ?_⟩
  show (r.buff.get (usedSize r.buff)).data = content
  rw [(get_simulates hshows (r.safe _)).2.1, hused, ByteQueue.get_of_le le_rfl]
  exact List.take_length

/-- The frame at the front is the packet that is extracted. -/
theorem extractPacket_frame {f rest : List UInt8} (hf : IsFrame f) (r : SafeRing (f ++ rest)) :
    peekedLength r.buff = (PacketHeader.decode f).length ∧
      peekedLength r.buff + PDUHEADERSIZE ≤ usedSize r.buff ∧
      (extractPacket r.buff).data = f := by
  have hshows := r.shows fun _ _ => 0
  have hused : usedSize r.buff = f.length + rest.length := by
    rw [hshows.usedSize]
    exact List.length_append
  have hpeek : peekedLength r.buff = (PacketHeader.decode f).length := by
    have held : PDUHEADERSIZE ≤ usedSize r.buff := le_trans hf.1 (by omega)
    rw [hshows.peekedLength_eq held (r.safe _)]
    exact congrArg PacketHeader.length (PacketHeader.decode_append hf.1 rest)
  have hlen : peekedLength r.buff + PDUHEADERSIZE = f.length := by rw [hpeek, ← hf.2]
  refine ⟨hpeek, by omega, ?_⟩
  have hle : f.length ≤ (f ++ rest).length := by
    rw [List.length_append]
    exact Nat.le_add_right _ _
  show (r.buff.get (peekedLength r.buff + PDUHEADERSIZE)).data = f
  rw [(get_simulates hshows (r.safe _)).2.1, hlen, ByteQueue.get_of_le hle]
  exact List.take_left

end SafeRing

end ThunderChat

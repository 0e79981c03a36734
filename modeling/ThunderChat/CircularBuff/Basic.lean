import ThunderChat.Foundation.RingIndex

/-!
The byte ring of `CircularBuff.cpp`.

`CircularBuff` is the class's private state. The array is modeled as a total
memory relative to `m_pchBufferHeader`: cells `0 .. m_iBufferSize - 1` are the
ring, a cell number at or beyond `m_iBufferSize` lies outside it and holds
whatever the heap holds there. Each `memcpy` is a `Span` of cells, and both the
bytes moved and the cells touched are read off the same list of spans, so a
statement about cells is a statement about the copies the code makes.

The `int` members and arguments are `Nat`: every call passes a length that is
not negative, and all of them stay far below `2 ^ 31`. `GetHeader` and `Get` test
the same condition, once with the constant header size and once with the
requested length; both are `readSpans`.
-/

namespace ThunderChat

open RingIndex

/-- `CIR_BUFSIZE`. -/
def CIR_BUFSIZE : Nat := 1024000

/-- `RECV_NOT_ENOUGH`. -/
def RECV_NOT_ENOUGH : Int := -2

/-- `PDUHEADERSIZE`, the size of a `PACKET_HEADER`. -/
def PDUHEADERSIZE : Nat := 4

/-- The private members of `CircularBuff`. -/
structure CircularBuff where
  head : Nat
  tail : Nat
  bufferSize : Nat
  useBufferSize : Nat
  bufferHeader : Nat → UInt8

/-- The cells one `memcpy` reads or writes. -/
structure Span where
  start : Nat
  len : Nat
  deriving DecidableEq, Repr

/-- The cell numbers of a span. -/
def Span.cells (s : Span) : List Nat := slice id s.start s.len

/-- The bytes copied out of a memory by successive `memcpy`s. -/
def gather (mem : Nat → UInt8) (spans : List Span) : List UInt8 :=
  spans.flatMap fun s => slice mem s.start s.len

/-- The memory after successive `memcpy`s have filled the spans from `bytes`. -/
def scatter (mem : Nat → UInt8) : List Span → List UInt8 → Nat → UInt8
  | [], _ => mem
  | s :: rest, bytes => scatter (blit mem s.start (bytes.take s.len)) rest (bytes.drop s.len)

/-- The outcome of `CircularBuff::Get`: the return value, the bytes copied to the
caller and the ring afterwards. -/
structure GetOutcome (β : Type) where
  ret : Int
  data : List UInt8
  buff : β

namespace CircularBuff

/-- A freshly constructed ring. `new char[]` leaves the array uninitialised, so
its contents are a parameter. -/
def fresh (mem : Nat → UInt8) : CircularBuff :=
  { head := 0, tail := 0, bufferSize := CIR_BUFSIZE, useBufferSize := 0, bufferHeader := mem }

def getTotalSize (b : CircularBuff) : Nat := b.bufferSize

def getUsedSize (b : CircularBuff) : Nat := b.useBufferSize

def getFreeSize (b : CircularBuff) : Nat := b.bufferSize - b.useBufferSize

/-- The copies that read `len` bytes at the head. The wrap is recognised by
comparing `m_iHead` with `m_iTail + len`. -/
def readSpans (b : CircularBuff) (len : Nat) : List Span :=
  if b.head ≤ b.tail + len then
    [⟨b.head, len⟩]
  else
    let rightLen := b.bufferSize - b.head
    if len ≤ rightLen then [⟨b.head, len⟩]
    else [⟨b.head, rightLen⟩, ⟨0, len - rightLen⟩]

/-- `CircularBuff::GetHeader`: four bytes at the head, whatever is buffered. -/
def getHeader (b : CircularBuff) : List UInt8 :=
  gather b.bufferHeader (b.readSpans PDUHEADERSIZE)

/-- The copies of `CircularBuff::Put` into the ring. -/
def putSpans (b : CircularBuff) (len : Nat) : List Span :=
  if b.head ≤ b.tail + len then
    if b.head = 0 then [⟨b.tail, len⟩]
    else
      let free := b.bufferSize - b.tail
      if len ≤ free then [⟨b.tail, len⟩] else [⟨b.tail, free⟩, ⟨0, len - free⟩]
  else [⟨b.tail, len⟩]

/-- Advance an index by `len`, subtracting the capacity once at the right edge. -/
def advance (bufferSize index len : Nat) : Nat :=
  if bufferSize ≤ index + len then index + len - bufferSize else index + len

/-- The ring after `bytes` have been copied in behind its tail. -/
def store (b : CircularBuff) (bytes : List UInt8) : CircularBuff :=
  { b with
    bufferHeader := scatter b.bufferHeader (b.putSpans bytes.length) bytes
    tail := advance b.bufferSize b.tail bytes.length
    useBufferSize := b.useBufferSize + bytes.length }

/-- `CircularBuff::Put(const char*, int)`. -/
def put (b : CircularBuff) (bytes : List UInt8) : Int × CircularBuff :=
  if b.getFreeSize < bytes.length then (-1, b) else (bytes.length, b.store bytes)

/-- The ring after `len` bytes have been taken from it. -/
def drop (b : CircularBuff) (len : Nat) : CircularBuff :=
  { b with
    head := advance b.bufferSize b.head len
    useBufferSize := b.useBufferSize - len }

/-- `CircularBuff::Get`. -/
def get (b : CircularBuff) (len : Nat) : GetOutcome CircularBuff :=
  if b.getUsedSize < len then ⟨RECV_NOT_ENOUGH, [], b⟩
  else ⟨len, gather b.bufferHeader (b.readSpans len), b.drop len⟩

/-- The cells `CircularBuff::Get` reads. -/
def getReads (b : CircularBuff) (len : Nat) : List Nat :=
  if b.getUsedSize < len then [] else (b.readSpans len).flatMap Span.cells

/-- The unread bytes, oldest first. -/
def content (b : CircularBuff) : List UInt8 :=
  window b.bufferHeader b.bufferSize b.head b.useBufferSize

/-- The ring invariant. `wrap` is `tail = head + used` modulo the capacity,
without the modulus. -/
structure Inv (b : CircularBuff) : Prop where
  head_lt : b.head < b.bufferSize
  tail_lt : b.tail < b.bufferSize
  used_le : b.useBufferSize ≤ b.bufferSize
  wrap : b.head + b.useBufferSize = b.tail ∨ b.head + b.useBufferSize = b.tail + b.bufferSize

/-! ### Fields -/

variable {b : CircularBuff} {bytes : List UInt8} {len : Nat}

@[simp] theorem mem_cells {s : Span} {i : Nat} :
    i ∈ s.cells ↔ s.start ≤ i ∧ i < s.start + s.len := by
  simp only [Span.cells, slice, List.mem_map, List.mem_range, id]
  constructor
  · rintro ⟨k, hk, rfl⟩
    omega
  · rintro ⟨hlo, hhi⟩
    exact ⟨i - s.start, by omega, by omega⟩

@[simp] theorem length_content : b.content.length = b.getUsedSize := by
  simp [content, getUsedSize]

@[simp] theorem store_head : (b.store bytes).head = b.head := rfl

@[simp] theorem store_tail :
    (b.store bytes).tail = advance b.bufferSize b.tail bytes.length := rfl

@[simp] theorem store_bufferSize : (b.store bytes).bufferSize = b.bufferSize := rfl

@[simp] theorem store_useBufferSize :
    (b.store bytes).useBufferSize = b.useBufferSize + bytes.length := rfl

@[simp] theorem drop_head : (b.drop len).head = advance b.bufferSize b.head len := rfl

@[simp] theorem drop_tail : (b.drop len).tail = b.tail := rfl

@[simp] theorem drop_bufferSize : (b.drop len).bufferSize = b.bufferSize := rfl

@[simp] theorem drop_useBufferSize : (b.drop len).useBufferSize = b.useBufferSize - len := rfl

@[simp] theorem getUsedSize_drop : (b.drop len).getUsedSize = b.getUsedSize - len := rfl

@[simp] theorem drop_bufferHeader : (b.drop len).bufferHeader = b.bufferHeader := rfl

/-- Whichever branch is taken, the spans of a read add up to its length. -/
theorem length_gather_readSpans : (gather b.bufferHeader (b.readSpans len)).length = len := by
  unfold readSpans gather
  split
  · simp
  · dsimp only
    split
    · simp
    · simp only [List.flatMap_cons, List.flatMap_nil, List.append_nil, List.length_append,
        length_slice]
      omega

/-! ### The two ways each operation can go -/

theorem put_of_not_fits (h : b.getFreeSize < bytes.length) : b.put bytes = (-1, b) := if_pos h

theorem put_of_fits (h : bytes.length ≤ b.getFreeSize) :
    b.put bytes = ((bytes.length : Int), b.store bytes) :=
  if_neg (by omega)

theorem get_of_lt (h : b.getUsedSize < len) : b.get len = ⟨RECV_NOT_ENOUGH, [], b⟩ := if_pos h

theorem get_of_le (h : len ≤ b.getUsedSize) :
    b.get len = ⟨len, gather b.bufferHeader (b.readSpans len), b.drop len⟩ :=
  if_neg (by omega)

/-! ### The invariant -/

theorem fresh_inv (mem : Nat → UInt8) : (fresh mem).Inv where
  head_lt := by simp [fresh, CIR_BUFSIZE]
  tail_lt := by simp [fresh, CIR_BUFSIZE]
  used_le := by simp [fresh]
  wrap := by simp [fresh]

theorem Inv.tail_eq (inv : b.Inv) : b.tail = (b.head + b.useBufferSize) % b.bufferSize := by
  have := inv.tail_lt
  rw [wrap_index inv.head_lt inv.used_le]
  rcases inv.wrap with h | h
  · rw [if_pos (by omega), h]
  · rw [if_neg (by omega), h, Nat.add_sub_cancel]

/-- `advance` is addition modulo the capacity. -/
theorem advance_eq_mod {size i : Nat} (hi : i < size) (hl : len ≤ size) :
    advance size i len = (i + len) % size := by
  rw [wrap_index hi hl, advance]
  split <;> split <;> omega

theorem Inv.store (inv : b.Inv) (h : bytes.length ≤ b.getFreeSize) : (b.store bytes).Inv := by
  have := inv.head_lt
  have := inv.tail_lt
  have := inv.used_le
  have hwrap := inv.wrap
  simp only [getFreeSize] at h
  constructor <;>
    simp only [store_head, store_tail, store_bufferSize, store_useBufferSize, advance] <;>
    (try split) <;> omega

theorem Inv.put (inv : b.Inv) : (b.put bytes).2.Inv := by
  by_cases h : bytes.length ≤ b.getFreeSize
  · rw [put_of_fits h]
    exact inv.store h
  · rw [put_of_not_fits (by omega)]
    exact inv

theorem Inv.drop (inv : b.Inv) (h : len ≤ b.getUsedSize) : (b.drop len).Inv := by
  have := inv.head_lt
  have := inv.tail_lt
  have := inv.used_le
  have hwrap := inv.wrap
  simp only [getUsedSize] at h
  constructor <;> simp only [drop_head, drop_tail, drop_bufferSize, drop_useBufferSize, advance] <;>
    (try split) <;> omega

theorem Inv.get (inv : b.Inv) : (b.get len).buff.Inv := by
  by_cases h : len ≤ b.getUsedSize
  · rw [get_of_le h]
    exact inv.drop h
  · rw [get_of_lt (by omega)]
    exact inv

end CircularBuff

end ThunderChat

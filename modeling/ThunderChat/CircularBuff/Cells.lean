import ThunderChat.CircularBuff.Fifo

/-!
The cells that `Put` writes and `GetHeader` reads.

* `put_appends`: a `Put` that fits appends its bytes, writes cells of the array only and
  none of them holds an unread byte; a `Put` that does not fit changes nothing.
* `peeksHeader_iff`: `GetHeader` repeats the wrap test of `Get` with the size of a header,
  also where fewer bytes are buffered, so it runs over the right edge where `Get` does.
-/

namespace ThunderChat.CircularBuff

open RingIndex

variable {b : CircularBuff} {bytes : List UInt8} {len : Nat}

/-- The cells of the unread bytes, oldest first. -/
def unread (b : CircularBuff) : List Nat := window id b.bufferSize b.head b.useBufferSize

/-- The cells `CircularBuff::Put` writes. -/
def putWrites (b : CircularBuff) (len : Nat) : List Nat :=
  if b.getFreeSize < len then [] else (b.putSpans len).flatMap Span.cells

/-- The cells `CircularBuff::GetHeader` reads. -/
def headerReads (b : CircularBuff) : List Nat := (b.readSpans PDUHEADERSIZE).flatMap Span.cells

theorem mem_unread {i : Nat} :
    i ∈ b.unread ↔ ∃ k < b.useBufferSize, (b.head + k) % b.bufferSize = i := by
  simp [unread, window]

/-! ### Put -/

/-- What `Put` of bytes that fit has to do. -/
structure Appends (b : CircularBuff) (bytes : List UInt8) : Prop where
  ret : (b.put bytes).1 = bytes.length
  content : (b.put bytes).2.content = b.content ++ bytes
  apart : ∀ i ∈ b.unread, i ∉ b.putWrites bytes.length
  kept : ∀ i ∈ b.unread, (b.put bytes).2.bufferHeader i = b.bufferHeader i
  inside : ∀ i ∈ b.putWrites bytes.length, i < b.bufferSize
  inv : (b.put bytes).2.Inv

/-- The copies fill the free cells behind the tail, going round the right edge. -/
theorem mem_putSpans (inv : b.Inv) (h : len ≤ b.getFreeSize) {i : Nat} :
    i ∈ (b.putSpans len).flatMap Span.cells ↔
      i < b.bufferSize ∧ (b.tail ≤ i ∧ i < b.tail + len ∨ i + b.bufferSize < b.tail + len) := by
  have hh := inv.head_lt
  have ht := inv.tail_lt
  have hu := inv.used_le
  have hwrap := inv.wrap
  simp only [getFreeSize] at h
  have straight : b.tail + len ≤ b.bufferSize → (i ∈ [Span.mk b.tail len].flatMap Span.cells ↔
      i < b.bufferSize ∧ (b.tail ≤ i ∧ i < b.tail + len ∨ i + b.bufferSize < b.tail + len)) := by
    intro fits
    simp only [List.flatMap_cons, List.flatMap_nil, List.append_nil, mem_cells]
    omega
  unfold putSpans
  split
  · split
    · exact straight (by omega)
    · dsimp only
      split
      · exact straight (by omega)
      · simp only [List.flatMap_cons, List.flatMap_nil, List.append_nil, List.mem_append, mem_cells]
        omega
  · exact straight (by omega)

/-- The written cells are free ones. -/
theorem not_mem_putSpans_of_unread (inv : b.Inv) (h : len ≤ b.getFreeSize) {i : Nat}
    (hi : i ∈ b.unread) : i ∉ (b.putSpans len).flatMap Span.cells := by
  have hh := inv.head_lt
  have ht := inv.tail_lt
  have hu := inv.used_le
  have hwrap := inv.wrap
  rw [mem_putSpans inv h]
  obtain ⟨k, hk, rfl⟩ := mem_unread.mp hi
  rw [wrap_index hh (Nat.le_of_lt (Nat.lt_of_lt_of_le hk hu))]
  simp only [getFreeSize] at h
  split <;> omega

/-- A `Put` that fits appends. -/
theorem appends_of_fits (inv : b.Inv) (h : bytes.length ≤ b.getFreeSize) : b.Appends bytes := by
  have hput := put_of_fits h
  have hwrites : b.putWrites bytes.length = (b.putSpans bytes.length).flatMap Span.cells :=
    if_neg (Nat.not_lt.mpr h)
  constructor
  case ret => rw [hput]
  case content => rw [hput, content_store inv h]
  case apart =>
    intro i hi
    rw [hwrites]
    exact not_mem_putSpans_of_unread inv h hi
  case kept =>
    intro i hi
    obtain ⟨k, hk, rfl⟩ := mem_unread.mp hi
    rw [hput]
    simp only [store, scatter_putSpans inv h]
    refine wrapBlit_of_before inv.head_lt inv.tail_eq ?_ hk
    have hu := inv.used_le
    simp only [getFreeSize] at h
    omega
  case inside =>
    intro i hi
    rw [hwrites, mem_putSpans inv h] at hi
    exact hi.1
  case inv => exact inv.put

/-- **`Put` appends or refuses.** -/
theorem put_appends (inv : b.Inv) (bytes : List UInt8) :
    (bytes.length ≤ b.getFreeSize → b.Appends bytes) ∧
      (b.getFreeSize < bytes.length → b.put bytes = (-1, b)) :=
  ⟨appends_of_fits inv, put_of_not_fits⟩

/-- A wrapped ring of four cells that becomes exactly full. -/
def wrappedRing : CircularBuff :=
  { head := 3, tail := 1, bufferSize := 4, useBufferSize := 2, bufferHeader := fun _ => 0 }

theorem wrappedRing_inv : wrappedRing.Inv := by
  constructor <;> decide

theorem wrappedRing_put : wrappedRing.Inv ∧
    ((wrappedRing.put [7, 8]).2.content = [0, 0, 7, 8] ∧
      wrappedRing.put [7, 8, 9] = (-1, wrappedRing)) := by
  have h := put_appends wrappedRing_inv
  exact ⟨wrappedRing_inv, ((h [7, 8]).1 (by decide)).content, (h [7, 8, 9]).2 (by decide)⟩

/-! ### GetHeader -/

/-- What a peek at the header has to do: it reads cells of the array only, and the header
it delivers is that of the next packet, once the header has arrived. -/
structure PeeksHeader (b : CircularBuff) : Prop where
  inside : ∀ i ∈ b.headerReads, i < b.bufferSize
  oldest : PDUHEADERSIZE ≤ b.getUsedSize → b.getHeader = b.content.take PDUHEADERSIZE

/-- The four cells from the head on end in front of the right edge, or the ring is
recognised as wrapped. -/
def HeaderInside (b : CircularBuff) : Prop :=
  b.head + PDUHEADERSIZE ≤ b.bufferSize ∨ b.tail + PDUHEADERSIZE < b.head

/-- A peek that is not split reads the cell behind the last one. -/
theorem bufferSize_mem_headerReads (inv : b.Inv) (h : ¬ b.HeaderInside) :
    b.bufferSize ∈ b.headerReads := by
  unfold HeaderInside at h
  push Not at h
  exact bufferSize_mem_readSpans inv h.1 h.2

/-- The content starts with what the next `Get` has to return. -/
theorem take_content (h : len ≤ b.getUsedSize) :
    b.content.take len = window b.bufferHeader b.bufferSize b.head len := by
  simp only [getUsedSize] at h
  obtain ⟨rest, hrest⟩ : ∃ rest, b.useBufferSize = len + rest := ⟨b.useBufferSize - len, by omega⟩
  rw [content, hrest, window_append, List.take_left' length_window]

/-- **The header peek, exactly.** -/
theorem peeksHeader_iff (inv : b.Inv) : b.PeeksHeader ↔ b.HeaderInside := by
  constructor
  · intro peeks
    by_contra h
    exact Nat.lt_irrefl _ (peeks.inside _ (bufferSize_mem_headerReads inv h))
  · intro h
    refine ⟨readSpans_lt inv h, fun hused => ?_⟩
    have hlen : PDUHEADERSIZE ≤ b.bufferSize := Nat.le_trans hused inv.used_le
    rw [take_content hused]
    exact gather_readSpans inv hlen h

/-- A header that goes on at the left edge is peeked where the ring is recognised as
wrapped. -/
theorem splitHeader_peeks :
    ∃ b : CircularBuff, b.Inv ∧ b.getUsedSize = PDUHEADERSIZE ∧ b.PeeksHeader := by
  have inv : Inv ⟨8, 3, 9, 4, fun _ => 0⟩ := by constructor <;> decide
  exact ⟨_, inv, rfl, (peeksHeader_iff inv).mpr (.inr (by decide))⟩

/-- All cells but the last two have been used and are free again, and the first byte of a
packet comes to the first of the two. -/
def edgeCalls (block : List UInt8) : List Call := [.put block, .get 1023998, .put [1]]

/-- The peek then reads two cells beyond the array. -/
theorem edge_not_headerInside (mem : Nat → UInt8) {block : List UInt8}
    (h : block.length = 1023998) :
    ((fresh mem).after (edgeCalls block)).getUsedSize = 1 ∧
      ¬ ((fresh mem).after (edgeCalls block)).HeaderInside := by
  unfold edgeCalls
  rw [after_passed h (by simp [CIR_BUFSIZE]) (by simp [CIR_BUFSIZE])]
  constructor
  · simp [getUsedSize, fresh, h]
  · simp [HeaderInside, PDUHEADERSIZE, advance, fresh, CIR_BUFSIZE, h]

theorem edge_not_peeks :
    ((fresh fun _ => 0).after (edgeCalls (List.replicate 1023998 0))).getUsedSize = 1 ∧
      ¬ ((fresh fun _ => 0).after (edgeCalls (List.replicate 1023998 0))).PeeksHeader := by
  obtain ⟨hused, hnot⟩ := edge_not_headerInside (fun _ => 0)
    (List.length_replicate (n := 1023998) (a := 0))
  refine ⟨hused, fun peeks => ?_⟩
  exact Nat.lt_irrefl _ (peeks.inside _ (bufferSize_mem_headerReads (fresh_inv _).after hnot))

end ThunderChat.CircularBuff

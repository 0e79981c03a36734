import ThunderChat.CircularBuff.Socket

/-!
The `_USE_ONESHOT` build of `CircularBuff::Put(Socket*)`.

It reads what was announced straight into the ring, with two calls of `Socket::Read` where
the right edge splits it. `Socket::Read` goes on after short reads. The branches are
selected by `m_iHead <= m_iTail`, those of `Put` by `m_iHead <= m_iTail + length`.

* `oneshotSpans_eq`: what fits goes to the same cells in both.
* `variants_agree`: when the socket delivers what it announced, both builds end in the same
  ring.
-/

namespace ThunderChat

/-- `EINTR`. -/
def EINTR : Nat := 4

namespace Socket

/-- The bytes one `read` brings, at least one. -/
structure Segment where
  data : List UInt8
  pos : 0 < data.length

/-- What is left of a segment after a shorter `read`. -/
def Segment.drop (s : Segment) (n : Nat) (h : n < s.data.length) : Segment :=
  ⟨s.data.drop n, by rw [List.length_drop]; omega⟩

/-- The outcome of `Socket::Read`: the return value, the bytes written to the caller's
memory and what the next `read`s return. -/
structure ReadOutcome where
  ret : Int
  data : List UInt8
  rest : List (ReadResult Segment)

/-- `Socket::Read` of another `remain` bytes, when `got` have been read. What a `read` has
not asked for stays in the socket; when all is read, `read` fails with `EAGAIN`. -/
def read (got : List UInt8) (remain : Nat) : List (ReadResult Segment) → ReadOutcome
  | [] => if remain = 0 then ⟨got.length, got, []⟩ else ⟨-1, got, []⟩
  | .bytes segment :: rest =>
      if remain = 0 then ⟨got.length, got, .bytes segment :: rest⟩
      else if h : remain < segment.data.length then
        ⟨(got.length + remain : Nat), got ++ segment.data.take remain,
          .bytes (segment.drop remain h) :: rest⟩
      else read (got ++ segment.data) (remain - segment.data.length) rest
  | .eof :: rest => ⟨got.length, got, .eof :: rest⟩
  | .error e :: rest =>
      if remain = 0 then ⟨got.length, got, .error e :: rest⟩
      else if e = EINTR then read got remain rest
      else ⟨-1, got, rest⟩

/-- The bytes of segments. -/
def bytesOf (segments : List Segment) : List UInt8 := segments.flatMap Segment.data

/-- A socket that delivers these segments and nothing more. -/
def delivering (segments : List Segment) : List (ReadResult Segment) := segments.map .bytes

variable {got : List UInt8} {remain : Nat} {segments : List Segment} {segment : Segment}

@[simp] theorem bytesOf_cons :
    bytesOf (segment :: segments) = segment.data ++ bytesOf segments := List.flatMap_cons

@[simp] theorem delivering_cons :
    delivering (segment :: segments) = .bytes segment :: delivering segments := rfl

/-- A read of bytes that are there returns all of them, however they are cut. -/
theorem read_delivering (h : remain ≤ (bytesOf segments).length) :
    ∃ rest, read got remain (delivering segments)
        = ⟨(got.length + remain : Nat), got ++ (bytesOf segments).take remain, delivering rest⟩ ∧
      bytesOf rest = (bytesOf segments).drop remain := by
  induction segments generalizing got remain with
  | nil =>
      have hzero : remain = 0 := Nat.le_zero.mp h
      subst hzero
      exact ⟨[], by simp [delivering, read], by simp⟩
  | cons segment segments ih =>
      rw [bytesOf_cons, List.length_append] at h
      rw [delivering_cons, read]
      split
      · next hzero =>
          subst hzero
          exact ⟨segment :: segments, by simp, by simp⟩
      · split
        · next hlt =>
            refine ⟨segment.drop remain hlt :: segments, ?_, ?_⟩
            · rw [bytesOf_cons, List.take_append_of_le_length (Nat.le_of_lt hlt)]
              rfl
            · rw [bytesOf_cons, bytesOf_cons, List.drop_append_of_le_length (Nat.le_of_lt hlt)]
              rfl
        · next hge =>
            have hseg : segment.data.length ≤ remain := Nat.not_lt.mp hge
            have hle : remain - segment.data.length ≤ (bytesOf segments).length := by omega
            have hlen : (got ++ segment.data).length + (remain - segment.data.length)
                = got.length + remain := by
              rw [List.length_append]
              omega
            obtain ⟨rest, hread, hrest⟩ := @ih (got ++ segment.data) _ hle
            refine ⟨rest, ?_, ?_⟩
            · rw [hread, hlen, bytesOf_cons, List.take_append, List.take_of_length_le hseg,
                List.append_assoc]
            · rw [hrest, bytesOf_cons, List.drop_append, List.drop_of_length_le hseg,
                List.nil_append]

end Socket

namespace CircularBuff

open RingIndex Socket

/-- The targets of the reads into the ring. -/
def oneshotSpans (b : CircularBuff) (len : Nat) : List Span :=
  if b.head ≤ b.tail then
    if b.head = 0 then [⟨b.tail, len⟩]
    else
      let free := b.bufferSize - b.tail
      if len ≤ free then [⟨b.tail, len⟩] else [⟨b.tail, free⟩, ⟨0, len - free⟩]
  else [⟨b.tail, len⟩]

/-- Read into the targets, one `Socket::Read` after the other. A read that brings nothing
closes the connection; what was written stays written. -/
def readInto (b : CircularBuff) (readLen : Nat) :
    List Span → List (ReadResult Segment) → Int × CircularBuff
  | [], _ =>
      (readLen, { b with
        tail := advance b.bufferSize b.tail readLen
        useBufferSize := b.useBufferSize + readLen })
  | s :: spans, socket =>
      let outcome := Socket.read [] s.len socket
      let filled := { b with bufferHeader := blit b.bufferHeader s.start outcome.data }
      if outcome.ret ≤ 0 then (USER_CLOSE, filled)
      else readInto filled (readLen + outcome.ret.toNat) spans outcome.rest

/-- `CircularBuff::Put(Socket*)`, built with `_USE_ONESHOT`. -/
def putSocketOneshot (b : CircularBuff) (available : Int) (socket : List (ReadResult Segment)) :
    Int × CircularBuff :=
  if available ≤ 0 then (USER_CLOSE, b)
  else if (b.getFreeSize : Int) < available then (USER_CLOSE, b)
  else readInto b 0 (b.oneshotSpans available.toNat) socket

variable {b : CircularBuff} {len readLen : Nat} {segments : List Segment} {spans : List Span}

/-- What fits is read to the cells to which `Put` copies it. -/
theorem oneshotSpans_eq (inv : b.Inv) (h : len ≤ b.getFreeSize) :
    b.oneshotSpans len = b.putSpans len := by
  have hh := inv.head_lt
  have ht := inv.tail_lt
  have hwrap := inv.wrap
  simp only [getFreeSize] at h
  unfold oneshotSpans putSpans
  split
  · next hle => rw [if_pos (Nat.le_trans hle (Nat.le_add_right _ _))]
  · next hwrapped =>
      -- The ring is wrapped, and what is free lies between the tail and the head.
      split
      · rw [if_neg (by omega)]
        exact (if_pos (by omega)).symm
      · rfl

/-- The targets of a `Put` are as long as what is put, and none of them is empty. -/
theorem putSpans_lens (inv : b.Inv) (hpos : 0 < len) :
    ((b.putSpans len).map Span.len).sum = len ∧ ∀ s ∈ b.putSpans len, 0 < s.len := by
  have ht := inv.tail_lt
  unfold putSpans
  split
  · split
    · simpa
    · dsimp only
      split
      · simpa
      · simp
        omega
  · simpa

/-- Reading bytes that are there is copying them. -/
theorem readInto_delivering (hpos : ∀ s ∈ spans, 0 < s.len)
    (hsum : (spans.map Span.len).sum = (Socket.bytesOf segments).length) :
    readInto b readLen spans (delivering segments)
      = (((readLen + (Socket.bytesOf segments).length : Nat) : Int), { b with
          bufferHeader := scatter b.bufferHeader spans (Socket.bytesOf segments)
          tail := advance b.bufferSize b.tail (readLen + (Socket.bytesOf segments).length)
          useBufferSize := b.useBufferSize + (readLen + (Socket.bytesOf segments).length) }) := by
  induction spans generalizing b readLen segments with
  | nil =>
      have hlen : (Socket.bytesOf segments).length = 0 := hsum.symm
      rw [readInto, hlen]
      rfl
  | cons s spans ih =>
      rw [List.map_cons, List.sum_cons] at hsum
      obtain ⟨hs, hspans⟩ := List.forall_mem_cons.mp hpos
      obtain ⟨rest, hread, hrest⟩ := @read_delivering [] s.len segments (by omega)
      have hsumrest : (spans.map Span.len).sum = (Socket.bytesOf rest).length := by
        rw [hrest, List.length_drop]
        omega
      have hlen : readLen + s.len + (Socket.bytesOf rest).length
          = readLen + (Socket.bytesOf segments).length := by omega
      have hret : ¬ (((([] : List UInt8).length + s.len : Nat) : Int) ≤ 0) := by
        simp only [List.length_nil]
        omega
      rw [readInto, hread]
      simp only [if_neg hret]
      rw [ih hspans hsumrest]
      simp only [List.length_nil, Nat.zero_add, List.nil_append, Int.toNat_natCast, hlen]
      rw [hrest]
      rfl

/-- **Both builds agree** on what the socket announced and delivers, however it is cut. The
constructor makes every ring as large as the staging array. -/
theorem variants_agree (inv : b.Inv) (hcap : b.bufferSize ≤ BUF_IN_SIZE) (bytes : List UInt8)
    (hpos : 0 < bytes.length) (hfits : bytes.length ≤ b.getFreeSize) (errno : Nat)
    {segments : List Segment} (hsegments : Socket.bytesOf segments = bytes)
    {chunks : List Chunk} (hchunks : CircularBuff.bytesOf chunks = bytes) :
    b.putSocketOneshot bytes.length (delivering segments) = ((bytes.length : Int), b.store bytes) ∧
      b.putSocket errno bytes.length (arriving chunks) = ((bytes.length : Int), b.store bytes) := by
  have hreads : b.Reads bytes.length := ⟨Int.natCast_pos.mpr hpos, Int.ofNat_le.mpr hfits⟩
  constructor
  · subst hsegments
    obtain ⟨hsum, hlens⟩ := putSpans_lens inv hpos
    rw [putSocketOneshot, if_neg (not_le.mpr hreads.1), if_neg (not_lt.mpr hreads.2),
      Int.toNat_natCast, oneshotSpans_eq inv hfits, readInto_delivering hlens hsum, Nat.zero_add]
    rfl
  · subst hchunks
    exact putSocket_arriving hcap hreads errno

/-- A wrapped ring, two bytes, read in one piece and byte by byte. -/
theorem wrappedRing_agrees :
    wrappedRing.putSocketOneshot 2 (delivering [⟨[10], by decide⟩, ⟨[11], by decide⟩])
        = (2, wrappedRing.store [10, 11]) ∧
      wrappedRing.putSocket 0 2 (arriving [twoBytes]) = (2, wrappedRing.store [10, 11]) :=
  variants_agree wrappedRing_inv (by decide) [10, 11] (by decide) (by decide) 0 rfl rfl

end CircularBuff

end ThunderChat

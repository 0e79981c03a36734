import ThunderChat.CircularBuff.Fifo

/-!
`CircularBuff::Resize`.

The unread bytes are copied to the front of a new array, which is `CIR_BUFSIZE` larger and
is not initialised, so that what it holds is a parameter. How much is copied is read off
head and tail alone: where they are equal the ring is taken for empty.

* `content_resize`, `content_resize_of_full`: what the ring holds afterwards.
* `resize_preserves_iff`: a ring that can be reached keeps its bytes, and goes on as before,
  exactly when it is not full.
-/

namespace ThunderChat.CircularBuff

open RingIndex

variable {b b' : CircularBuff} {mem new : Nat → UInt8} {calls : List Call} {c : Call}

/-- `CircularBuff::Resize`; `new` is what the new array holds. -/
def resize (b : CircularBuff) (new : Nat → UInt8) : CircularBuff :=
  let newBuffer :=
    if b.head ≤ b.tail then
      blit new 0 (slice b.bufferHeader b.head (b.tail - b.head))
    else
      let rightLen := b.bufferSize - b.head
      let right := blit new 0 (slice b.bufferHeader b.head rightLen)
      if 0 < b.tail then blit right rightLen (slice b.bufferHeader 0 b.tail) else right
  { head := 0
    tail := b.useBufferSize
    bufferSize := b.bufferSize + CIR_BUFSIZE
    useBufferSize := b.useBufferSize
    bufferHeader := newBuffer }

@[simp] theorem resize_head : (b.resize new).head = 0 := rfl

@[simp] theorem resize_tail : (b.resize new).tail = b.useBufferSize := rfl

@[simp] theorem resize_bufferSize : (b.resize new).bufferSize = b.bufferSize + CIR_BUFSIZE := rfl

@[simp] theorem resize_useBufferSize : (b.resize new).useBufferSize = b.useBufferSize := rfl

/-! ### What later calls take -/

/-- The unread bytes that a call takes off the front. -/
def takenBy (b : CircularBuff) : Call → List UInt8
  | .put _ => []
  | .get len => if b.getUsedSize < len then [] else b.content.take len

/-- The unread bytes taken off the front over a run, in order. -/
def taken (b : CircularBuff) : List Call → List UInt8
  | [] => []
  | c :: rest => b.takenBy c ++ taken (b.step c) rest

/-- A call appends what it accepts, and takes from the front. -/
theorem step_continues (inv : b.Inv) :
    b.content ++ b.acceptedBy c = b.takenBy c ++ (b.step c).content := by
  cases c with
  | put bytes =>
      by_cases h : bytes.length ≤ b.getFreeSize
      · simp [acceptedBy, takenBy, step, put_of_fits h, content_store inv h]
      · simp [acceptedBy, takenBy, step, put_of_not_fits (Nat.not_le.mp h)]
  | get len =>
      by_cases h : len ≤ b.getUsedSize
      · have hcontent := content_eq_window_append inv h
        have htake : b.content.take len = window b.bufferHeader b.bufferSize b.head len := by
          rw [hcontent]
          exact List.take_left' length_window
        rw [acceptedBy, takenBy, if_neg (Nat.not_lt.mpr h), htake, step, get_of_le h,
          List.append_nil, ← hcontent]
      · have hget := get_of_lt (Nat.not_le.mp h)
        simp [acceptedBy, takenBy, step, hget, Nat.not_le.mp h]

/-- So does every run of calls. -/
theorem run_continues (inv : b.Inv) :
    b.content ++ b.accepted calls = b.taken calls ++ (b.after calls).content := by
  induction calls generalizing b with
  | nil => simp [accepted, taken, after]
  | cons c rest ih =>
      rw [accepted, taken, ← List.append_assoc, step_continues inv, List.append_assoc,
        ih inv.step, List.append_assoc]
      rfl

/-- Safe calls deliver what they take. -/
theorem delivered_eq_taken (inv : b.Inv) (safe : b.GetsSafe calls) :
    b.delivered calls = b.taken calls := by
  have hdelivered := run_account inv safe
  rw [run_continues inv] at hdelivered
  exact (List.append_cancel_right hdelivered).symm

/-! ### What Resize keeps -/

/-- The ring `b'` has the bytes of `b` and more room, and goes on with the same sequence of
bytes, whatever is called then. -/
structure Preserves (b b' : CircularBuff) : Prop where
  content : b'.content = b.content
  used : b'.getUsedSize = b.getUsedSize
  grown : b'.getTotalSize = b.getTotalSize + CIR_BUFSIZE
  inv : b'.Inv
  continues : ∀ calls, b.content ++ b'.accepted calls = b'.taken calls ++ (b'.after calls).content
  delivers : ∀ calls, b'.GetsSafe calls → b'.delivered calls = b'.taken calls

theorem resize_inv (inv : b.Inv) : (b.resize new).Inv := by
  have hused := inv.used_le
  have hgrown : 0 < CIR_BUFSIZE := Nat.succ_pos _
  constructor <;> simp only [resize_head, resize_tail, resize_bufferSize, resize_useBufferSize]
  · omega
  · omega
  · omega
  · exact .inl (Nat.zero_add _)

/-- The unread bytes of a ring that is not full are not wrapped, and then lie between head
and tail, or are wrapped, and then lie behind the head and in front of the tail. -/
theorem content_of_room (inv : b.Inv) (hroom : b.useBufferSize < b.bufferSize) : b.content =
    if b.head ≤ b.tail then slice b.bufferHeader b.head (b.tail - b.head)
    else slice b.bufferHeader b.head (b.bufferSize - b.head) ++ slice b.bufferHeader 0 b.tail := by
  have hhead := inv.head_lt
  have htail := inv.tail_lt
  have hwrap := inv.wrap
  rw [content]
  split
  · next hle =>
      have hused : b.useBufferSize = b.tail - b.head := by omega
      rw [hused, window_eq_slice (by omega)]
  · next hgt =>
      have hused : b.useBufferSize - (b.bufferSize - b.head) = b.tail := by omega
      rw [window_eq_split hhead inv.used_le (by omega), hused]

/-- The unread bytes lie at the front of the new array. -/
theorem content_resize_eq (inv : b.Inv) :
    (b.resize new).content = slice (b.resize new).bufferHeader 0 b.useBufferSize :=
  window_eq_slice (Nat.le_trans (Nat.zero_add _).le (Nat.le_add_right_of_le inv.used_le))

/-- A ring that is not full keeps its bytes. -/
theorem content_resize (inv : b.Inv) (hroom : b.useBufferSize < b.bufferSize) :
    (b.resize new).content = b.content := by
  have hhead := inv.head_lt
  have htail := inv.tail_lt
  have hwrap := inv.wrap
  rw [content_resize_eq inv, content_of_room inv hroom]
  simp only [resize]
  split
  · next hle =>
      rw [slice_blit]
      rw [length_slice]
      omega
  · next hgt =>
      have hused : b.useBufferSize = b.bufferSize - b.head + b.tail := by omega
      have hright : (slice b.bufferHeader b.head (b.bufferSize - b.head)).length =
          b.bufferSize - b.head := length_slice
      rw [hused, slice_append, Nat.zero_add]
      split
      · rw [slice_blit_of_disjoint (.inl (Nat.zero_add _).le), slice_blit hright,
          slice_blit length_slice]
      · next htailNot =>
          have hzero : b.tail = 0 := Nat.eq_zero_of_not_pos htailNot
          rw [slice_blit hright, hzero]
          rfl

/-- A full ring holds what the new array held. -/
theorem content_resize_of_full (inv : b.Inv) (hfull : b.useBufferSize = b.bufferSize) :
    (b.resize new).content = slice new 0 b.useBufferSize := by
  have hhead := inv.head_lt
  have htail := inv.tail_lt
  have hwrap := inv.wrap
  have hnothing : b.tail - b.head = 0 := by omega
  rw [content_resize_eq inv]
  simp only [resize]
  rw [if_pos (by omega), hnothing]
  exact slice_blit_of_disjoint (.inr (Nat.le_refl 0))

theorem preserves_of_content (inv : b.Inv) (h : (b.resize new).content = b.content) :
    b.Preserves (b.resize new) where
  content := h
  used := rfl
  grown := by rw [getTotalSize, getTotalSize, resize_bufferSize]
  inv := resize_inv inv
  continues calls := h ▸ run_continues (resize_inv inv)
  delivers _ safe := delivered_eq_taken (resize_inv inv) safe

/-- A ring keeps its bytes, whatever the new array held, exactly when it is not full. -/
theorem preserves_iff (inv : b.Inv) :
    (∀ new, b.Preserves (b.resize new)) ↔ b.getUsedSize < b.getTotalSize := by
  constructor
  · intro h
    by_contra hfull
    have hused : b.useBufferSize = b.bufferSize := Nat.le_antisymm inv.used_le (not_lt.mp hfull)
    have hfirst (x : UInt8) : b.content[0]? = some x := by
      rw [← (h fun _ => x).content, content_resize_of_full inv hused, getElem?_slice, if_pos]
      exact hused ▸ Nat.zero_lt_of_lt inv.head_lt
    have hboth := (hfirst 0).symm.trans (hfirst 1)
    cases hboth
  · intro hroom new
    refine preserves_of_content inv ?_
    exact content_resize inv hroom

/-- **Resize, exactly.** A ring that has been put to and taken from keeps its bytes, whatever
the new array held, if and only if it is not full. -/
theorem resize_preserves_iff (mem : Nat → UInt8) (calls : List Call) :
    (∀ new, ((fresh mem).after calls).Preserves (((fresh mem).after calls).resize new)) ↔
      ((fresh mem).after calls).getUsedSize < ((fresh mem).after calls).getTotalSize :=
  preserves_iff (fresh_inv mem).after

/-- A fresh ring, filled by one block, is full. -/
theorem filled_not_preserved {mem : Nat → UInt8} {block : List UInt8}
    (h : block.length = CIR_BUFSIZE) : ¬ ∀ new, ((fresh mem).after [.put block]).Preserves
      (((fresh mem).after [.put block]).resize new) := by
  have hput : (fresh mem).put block = ((block.length : Int), (fresh mem).store block) :=
    put_of_fits (by simp [getFreeSize, fresh, h])
  rw [preserves_iff (fresh_inv mem).after]
  simp only [after, List.foldl_cons, List.foldl_nil, step, hput]
  simp [getUsedSize, getTotalSize, fresh, h]

theorem full_not_preserved : ¬ ∀ new,
    ((fresh fun _ => 0).after [.put (List.replicate 1024000 1)]).Preserves
      (((fresh fun _ => 0).after [.put (List.replicate 1024000 1)]).resize new) :=
  filled_not_preserved List.length_replicate

end ThunderChat.CircularBuff

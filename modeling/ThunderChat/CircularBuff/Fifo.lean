import ThunderChat.CircularBuff.Basic

/-!
`CircularBuff` as a byte FIFO.

The abstract state of a ring is its `content`. `Put` appends to it
(`content_store`), in every branch. `Get` removes a prefix of it exactly as long
as its copy stays inside the array: the branch `m_iHead <= m_iTail + len` copies
straight from the head, also when the ring is wrapped and nearly full, and then
runs over the right edge. `GetSafe` is the condition that rules this out.

* `isFifo_iff_getSafe`: a run of calls on a fresh ring is a FIFO run exactly
  when every `Get` of it is made in a `GetSafe` state.
* `overrun_not_fifo`: a run whose last `Get` reads past the array.
-/

namespace ThunderChat.CircularBuff

open RingIndex

variable {b : CircularBuff} {bytes : List UInt8} {len : Nat}

/-! ### Put appends -/

/-- All branches of `Put` write the cells behind the tail, wrapping once at the
right edge. -/
theorem scatter_putSpans (inv : b.Inv) (h : bytes.length ≤ b.getFreeSize) :
    scatter b.bufferHeader (b.putSpans bytes.length) bytes
      = wrapBlit b.bufferHeader b.bufferSize b.tail bytes := by
  have hh := inv.head_lt
  have ht := inv.tail_lt
  have hu := inv.used_le
  have hwrap := inv.wrap
  simp only [getFreeSize] at h
  -- A straight copy is made only where the bytes fit in front of the right edge.
  have straight : b.tail + bytes.length ≤ b.bufferSize →
      scatter b.bufferHeader [⟨b.tail, bytes.length⟩] bytes
        = wrapBlit b.bufferHeader b.bufferSize b.tail bytes := fun fits => by
    simp [scatter, wrapBlit, fits]
  unfold putSpans
  split
  · split
    · exact straight (by omega)
    · dsimp only
      split
      · exact straight (by omega)
      · next hfree =>
          have hdrop : (bytes.drop (b.bufferSize - b.tail)).length
              = bytes.length - (b.bufferSize - b.tail) := List.length_drop
          simp only [scatter, wrapBlit]
          rw [if_neg (by omega), ← hdrop, List.take_length]
  · exact straight (by omega)

/-- `Put` appends its bytes to the content. -/
theorem content_store (inv : b.Inv) (h : bytes.length ≤ b.getFreeSize) :
    (b.store bytes).content = b.content ++ bytes := by
  have hu := inv.used_le
  have fits : b.useBufferSize + bytes.length ≤ b.bufferSize := by
    simp only [getFreeSize] at h
    omega
  show window (scatter b.bufferHeader (b.putSpans bytes.length) bytes) b.bufferSize b.head
    (b.useBufferSize + bytes.length) = _
  rw [scatter_putSpans inv h, inv.tail_eq]
  exact window_wrapBlit inv.head_lt fits

/-! ### Get removes a prefix, where its copy stays in the array -/

/-- `Get` of `len` bytes does not copy across the right edge: the request ends in
front of it, or the copy is split. Requests that `Get` refuses are safe. -/
def GetSafe (b : CircularBuff) (len : Nat) : Prop :=
  len ≤ b.getUsedSize → b.head + len ≤ b.bufferSize ∨ b.tail + len < b.head

instance (b : CircularBuff) (len : Nat) : Decidable (b.GetSafe len) := by
  unfold GetSafe; infer_instance

/-- A read whose copy stays in the array delivers the bytes at the head. -/
theorem gather_readSpans (inv : b.Inv) (hlen : len ≤ b.bufferSize)
    (safe : b.head + len ≤ b.bufferSize ∨ b.tail + len < b.head) :
    gather b.bufferHeader (b.readSpans len) = window b.bufferHeader b.bufferSize b.head len := by
  have hh := inv.head_lt
  unfold readSpans gather
  split
  · rw [window_eq_slice (by omega)]
    simp
  · dsimp only
    split
    · rw [window_eq_slice (by omega)]
      simp
    · rw [window_eq_split hh hlen (by omega)]
      simp

/-- Taking bytes leaves the rest of the content. -/
theorem content_eq_window_append (inv : b.Inv) (h : len ≤ b.getUsedSize) :
    b.content = window b.bufferHeader b.bufferSize b.head len ++ (b.drop len).content := by
  have hu := inv.used_le
  simp only [getUsedSize] at h
  obtain ⟨rest, hrest⟩ : ∃ rest, b.useBufferSize = len + rest := ⟨b.useBufferSize - len, by omega⟩
  unfold content
  rw [drop_head, drop_useBufferSize, drop_bufferSize, drop_bufferHeader,
    advance_eq_mod inv.head_lt (by omega), hrest, window_append, Nat.add_sub_cancel_left]

/-- A safe `Get` delivers the oldest bytes and leaves the others. -/
theorem content_get (inv : b.Inv) (h : len ≤ b.getUsedSize) (safe : b.GetSafe len) :
    b.content = (b.get len).data ++ (b.get len).buff.content := by
  have hu := inv.used_le
  rw [get_of_le h, gather_readSpans inv (by simp only [getUsedSize] at h; omega) (safe h)]
  exact content_eq_window_append inv h

/-- Such a read reads cells of the array only. -/
theorem readSpans_lt (inv : b.Inv)
    (safe : b.head + len ≤ b.bufferSize ∨ b.tail + len < b.head) :
    ∀ i ∈ (b.readSpans len).flatMap Span.cells, i < b.bufferSize := by
  intro i hi
  have hh := inv.head_lt
  simp only [readSpans, List.mem_flatMap] at hi
  obtain ⟨s, hs, hi⟩ := hi
  rw [mem_cells] at hi
  split at hs
  · simp only [List.mem_singleton] at hs
    subst hs
    simp only at hi
    omega
  · split at hs
    · simp only [List.mem_singleton] at hs
      subst hs
      simp only at hi
      omega
    · simp only [List.mem_cons, List.not_mem_nil, or_false] at hs
      rcases hs with rfl | rfl <;> simp only at hi <;> omega

/-- A safe `Get` reads cells of the array only. -/
theorem getReads_lt (inv : b.Inv) (safe : b.GetSafe len) :
    ∀ i ∈ b.getReads len, i < b.bufferSize := by
  unfold getReads
  split
  · intro i hi
    cases hi
  · next hle => exact readSpans_lt inv (safe (Nat.not_lt.mp hle))

/-- A read that crosses the right edge without being split reads the cell behind the last
one. -/
theorem bufferSize_mem_readSpans (inv : b.Inv) (edge : b.bufferSize < b.head + len)
    (straight : b.head ≤ b.tail + len) :
    b.bufferSize ∈ (b.readSpans len).flatMap Span.cells := by
  have hh := inv.head_lt
  have hspans : b.readSpans len = [⟨b.head, len⟩] := if_pos straight
  simp only [hspans, List.flatMap_cons, List.flatMap_nil, List.append_nil, mem_cells]
  omega

/-- An unsafe `Get` does that. -/
theorem bufferSize_mem_getReads (inv : b.Inv) (unsafe_ : ¬ b.GetSafe len) :
    b.bufferSize ∈ b.getReads len := by
  unfold GetSafe at unsafe_
  push Not at unsafe_
  obtain ⟨hle, hedge, hstraight⟩ := unsafe_
  rw [getReads, if_neg (Nat.not_lt.mpr hle)]
  exact bufferSize_mem_readSpans inv hedge hstraight

/-! ### Runs of calls -/

/-- A call made on the ring. -/
inductive Call where
  | put (bytes : List UInt8)
  | get (len : Nat)
  deriving DecidableEq, Repr

/-- The ring after a call. -/
def step (b : CircularBuff) : Call → CircularBuff
  | .put bytes => (b.put bytes).2
  | .get len => (b.get len).buff

/-- The ring after a run of calls. -/
def after (b : CircularBuff) (calls : List Call) : CircularBuff := calls.foldl step b

/-- The bytes a call puts in: those of a `Put` that is not refused. -/
def acceptedBy (b : CircularBuff) : Call → List UInt8
  | .put bytes => if (b.put bytes).1 < 0 then [] else bytes
  | .get _ => []

/-- The bytes a call delivers: those of a `Get` that is not refused. -/
def deliveredBy (b : CircularBuff) : Call → List UInt8
  | .put _ => []
  | .get len => if (b.get len).ret < 0 then [] else (b.get len).data

/-- The bytes accepted over a run, in order. -/
def accepted (b : CircularBuff) : List Call → List UInt8
  | [] => []
  | c :: rest => b.acceptedBy c ++ accepted (b.step c) rest

/-- The bytes delivered over a run, in order. -/
def delivered (b : CircularBuff) : List Call → List UInt8
  | [] => []
  | c :: rest => b.deliveredBy c ++ delivered (b.step c) rest

/-- A run of calls is a FIFO run: what was delivered is always a prefix of what
was accepted, a `Get` succeeds exactly when enough bytes are held and otherwise
changes nothing, and it reads cells of the array only. -/
structure IsFifo (b : CircularBuff) (calls : List Call) : Prop where
  order : ∀ pre, pre <+: calls → b.delivered pre <+: b.accepted pre
  success : ∀ pre len, pre ++ [.get len] <+: calls →
    (((b.after pre).get len).ret = len ↔ len ≤ (b.after pre).getUsedSize)
  refusal : ∀ pre len, pre ++ [.get len] <+: calls → (b.after pre).getUsedSize < len →
    ((b.after pre).get len).ret = RECV_NOT_ENOUGH ∧ ((b.after pre).get len).buff = b.after pre
  inside : ∀ pre len, pre ++ [.get len] <+: calls →
    ∀ i ∈ (b.after pre).getReads len, i < (b.after pre).bufferSize

/-- Every `Get` of a run is made in a state in which its copy stays in the array. -/
def GetsSafe (b : CircularBuff) (calls : List Call) : Prop :=
  ∀ pre len, pre ++ [.get len] <+: calls → (b.after pre).GetSafe len

variable {calls : List Call} {c : Call}

theorem after_append_singleton : b.after (calls ++ [c]) = (b.after calls).step c := by
  simp [after]

theorem accepted_append_singleton :
    b.accepted (calls ++ [c]) = b.accepted calls ++ (b.after calls).acceptedBy c := by
  induction calls generalizing b with
  | nil => simp [accepted, after]
  | cons d rest ih => simp [accepted, ih, after]

theorem delivered_append_singleton :
    b.delivered (calls ++ [c]) = b.delivered calls ++ (b.after calls).deliveredBy c := by
  induction calls generalizing b with
  | nil => simp [delivered, after]
  | cons d rest ih => simp [delivered, ih, after]

theorem Inv.step (inv : b.Inv) : (b.step c).Inv := by
  cases c with
  | put bytes => exact inv.put
  | get len => exact inv.get

theorem Inv.after (inv : b.Inv) : (b.after calls).Inv := by
  induction calls generalizing b with
  | nil => exact inv
  | cons d rest ih => exact ih inv.step

/-- One call keeps the account: accepted bytes are the delivered ones followed by
the content. -/
theorem step_account {i o : List UInt8} (inv : b.Inv) (account : i = o ++ b.content)
    (safe : ∀ len, c = .get len → b.GetSafe len) :
    i ++ b.acceptedBy c = o ++ b.deliveredBy c ++ (b.step c).content := by
  subst account
  cases c with
  | put bytes =>
      by_cases h : bytes.length ≤ b.getFreeSize
      · simp [acceptedBy, deliveredBy, CircularBuff.step, put_of_fits h, content_store inv h]
      · simp [acceptedBy, deliveredBy, CircularBuff.step, put_of_not_fits (Nat.not_le.mp h)]
  | get len =>
      by_cases h : len ≤ b.getUsedSize
      · have hcontent := content_get inv h (safe len rfl)
        have hret : ¬ (b.get len).ret < 0 := by rw [get_of_le h]; simp
        rw [acceptedBy, deliveredBy, if_neg hret, CircularBuff.step, List.append_nil,
          List.append_assoc, ← hcontent]
      · have hget := get_of_lt (Nat.not_le.mp h)
        simp [acceptedBy, deliveredBy, CircularBuff.step, hget, RECV_NOT_ENOUGH]

/-- The account holds after every run of safe calls. The induction takes the
calls from the last one backwards. -/
theorem run_account (inv : b.Inv) (safe : b.GetsSafe calls) :
    b.content ++ b.accepted calls = b.delivered calls ++ (b.after calls).content := by
  induction calls using List.reverseRecOn with
  | nil => simp [accepted, delivered, after]
  | append_singleton calls c ih =>
      have earlier : b.GetsSafe calls := fun pre len h =>
        safe pre len (h.trans (List.prefix_append calls [c]))
      rw [accepted_append_singleton, delivered_append_singleton, after_append_singleton,
        ← List.append_assoc]
      refine step_account inv.after (ih earlier) ?_
      rintro len rfl
      exact safe calls len List.prefix_rfl

theorem get_ret_eq_iff : (b.get len).ret = len ↔ len ≤ b.getUsedSize := by
  by_cases h : len ≤ b.getUsedSize
  · simp [get_of_le h, h]
  · rw [get_of_lt (Nat.not_le.mp h)]
    simp only [RECV_NOT_ENOUGH, h, iff_false]
    omega

/-- An unsafe `Get` already reads outside the array, so a FIFO run has none. -/
theorem IsFifo.getsSafe (inv : b.Inv) (fifo : b.IsFifo calls) : b.GetsSafe calls := by
  intro pre len hpre
  by_contra unsafe_
  exact absurd (fifo.inside pre len hpre _ (bufferSize_mem_getReads inv.after unsafe_))
    (Nat.lt_irrefl _)

/-- **The byte FIFO, exactly.** A run of `Put` and `Get` on a fresh ring is a
FIFO run if and only if every `Get` of it that finds enough bytes either ends in
front of the right edge or is recognised as wrapped. -/
theorem isFifo_iff_getSafe (mem : Nat → UInt8) (calls : List Call) :
    (fresh mem).IsFifo calls ↔ (fresh mem).GetsSafe calls := by
  have inv := fresh_inv mem
  constructor
  · exact IsFifo.getsSafe inv
  · intro safe
    refine ⟨fun pre hpre => ?_, fun pre len _ => get_ret_eq_iff, fun pre len _ hlt => ?_,
      fun pre len hpre => getReads_lt inv.after (safe pre len hpre)⟩
    · have earlier : (fresh mem).GetsSafe pre := fun p len h => safe p len (h.trans hpre)
      have hempty : (fresh mem).content = [] := rfl
      have account := run_account inv earlier
      rw [hempty, List.nil_append] at account
      rw [account]
      exact List.prefix_append _ _
    · rw [get_of_lt hlt]
      exact ⟨rfl, rfl⟩

/-- Fill a fresh ring up to its last five cells, empty it, fill it again as far,
and ask for ten bytes: the ring is wrapped and nearly full. -/
def overrunCalls (block : List UInt8) : List Call :=
  [.put block, .get block.length, .put block, .get 10]

/-- A block has passed through a fresh ring, and a second one has been put. -/
theorem after_passed {mem : Nat → UInt8} {first second : List UInt8} (hlen : first.length = len)
    (hfirst : len ≤ CIR_BUFSIZE) (hsecond : second.length ≤ CIR_BUFSIZE) :
    (fresh mem).after [.put first, .get len, .put second]
      = (((fresh mem).store first).drop len).store second := by
  have hput : (fresh mem).put first = ((first.length : Int), (fresh mem).store first) :=
    put_of_fits (by simpa [getFreeSize, fresh, hlen] using hfirst)
  have hget : ((fresh mem).store first).get len = ⟨len, _, ((fresh mem).store first).drop len⟩ :=
    get_of_le (by simp [getUsedSize, fresh, hlen])
  have hagain : (((fresh mem).store first).drop len).put second
      = ((second.length : Int), (((fresh mem).store first).drop len).store second) :=
    put_of_fits (by simpa [getFreeSize, fresh, hlen] using hsecond)
  simp only [after, List.foldl_cons, List.foldl_nil, step, hput, hget, hagain]

/-- The last `Get` of `overrunCalls` copies straight across the right edge. -/
theorem overrun_not_safe {mem : Nat → UInt8} {block : List UInt8} (h : block.length = 1023995) :
    ¬ (fresh mem).GetsSafe (overrunCalls block) := by
  intro safe
  have hblock : block.length ≤ CIR_BUFSIZE := by simp [h, CIR_BUFSIZE]
  have hsafe := safe [.put block, .get block.length, .put block] 10 List.prefix_rfl
  rw [after_passed rfl hblock hblock] at hsafe
  simp [GetSafe, getUsedSize, advance, fresh, CIR_BUFSIZE, h] at hsafe

/-- The run of `overrunCalls` with a block of zeros is not a FIFO run. -/
theorem overrun_not_fifo :
    ¬ (fresh fun _ => 0).IsFifo (overrunCalls (List.replicate 1023995 0)) := by
  exact fun fifo => overrun_not_safe List.length_replicate (fifo.getsSafe (fresh_inv _))

end ThunderChat.CircularBuff

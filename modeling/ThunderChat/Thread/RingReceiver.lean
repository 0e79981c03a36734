import ThunderChat.Thread.Passes
import ThunderChat.Thread.Receiver

/-!
The packet loop of `ThreadReceiver::Run` for a user, on the ring of the source.

What a user types is not framed: a pass makes one message of whatever its fill has brought.
So the ring is empty between two passes, but its head wanders, and a text may lie across the
right edge.

* `typed_of_run`: over any number of passes the queued messages are the fills, each once and
  in order, and the accesses stay in bounds exactly if each fill fits into a message.
-/

namespace ThunderChat.ThreadReceiver

open PacketBuffer LawfulPacketBuffer CircularBuff Passes

/-- The packet loop's state on the ring of the source: the messages put into the broadcast
queue, and the accesses to the objects they are read into. -/
structure RingReading where
  buff : CircularBuff
  queued : List BroadcastMessage
  accesses : List Access

/-- One round of the packet loop, with what it queues. -/
def ringBody (type : ClientType) (fd : Nat) (s : RingReading) : Loop.Next RingReading :=
  if 0 < isValidPacket s.buff then
    let command := ChatUser.executeCommand type fd s.buff
    .again ⟨command.buff, s.queued ++ command.queued.toList, s.accesses ++ command.accesses⟩
  else .exit s

/-- `ThreadReceiver::Run` for one client. -/
abbrev RingRun (type : ClientType) (fd : Nat) :
    CircularBuff → List (List Chunk) → List RingReading → Prop :=
  Passes.Run (ringBody type fd) (⟨·, [], []⟩) RingReading.buff

/-- The message made of a text of any length. -/
def typed (fd : Nat) (bytes : List UInt8) : BroadcastMessage :=
  ⟨.clientChatMessage, fd, bytes.length, bytes⟩

variable {b : CircularBuff} {fd : Nat}

/-- A ring that is empty, with its head anywhere. -/
structure Drained (b : CircularBuff) : Prop where
  inv : b.Inv
  bufferSize : b.bufferSize = CIR_BUFSIZE
  used : b.getUsedSize = 0

/-- The ring behind one pass. -/
def passed (b : CircularBuff) (bytes : List UInt8) : CircularBuff :=
  ((b.store bytes).get bytes.length).buff

/-- The whole text is read out of the ring, also across its right edge. -/
theorem get_stored {bytes : List UInt8} (h : Drained b) (hsmall : 2 * bytes.length < CIR_BUFSIZE) :
    ((b.store bytes).get bytes.length).data = bytes ∧ Drained (passed b bytes) := by
  have hused : b.useBufferSize = 0 := h.used
  have hfits : bytes.length ≤ b.getFreeSize := by
    simp only [getFreeSize, h.bufferSize, hused]
    omega
  have hstored : (b.store bytes).Inv := h.inv.store hfits
  have hcontent : (b.store bytes).content = bytes := by
    rw [content_store h.inv hfits, List.length_eq_zero_iff.mp (length_content.trans h.used),
      List.nil_append]
  have hlen : (b.store bytes).getUsedSize = bytes.length := by rw [← length_content, hcontent]
  have hcap : (b.store bytes).bufferSize = CIR_BUFSIZE := h.bufferSize
  have hsafe : (b.store bytes).GetSafe bytes.length := by
    refine getSafe_of_room hstored ?_
    rw [← getUsedSize, hlen, hcap]
    omega
  have hget := content_get hstored (Nat.le_of_eq hlen.symm) hsafe
  have hdata : ((b.store bytes).get bytes.length).data.length = bytes.length :=
    length_get_data _ _ (Nat.le_of_eq hlen.symm)
  rw [hcontent] at hget
  obtain ⟨hbytes, hrest⟩ := List.append_inj (hget.symm.trans (List.append_nil bytes).symm) hdata
  refine ⟨hbytes, hstored.get, ?_, ?_⟩
  · rw [passed, get_of_le (Nat.le_of_eq hlen.symm), drop_bufferSize, hcap]
  · rw [passed, ← length_content, hrest, List.length_nil]

/-- What is queued of a text. -/
def readingOf (fd : Nat) (b : CircularBuff) (bytes : List UInt8) : RingReading :=
  ⟨passed b bytes, [typed fd bytes], [⟨.message, 0, bytes.length⟩]⟩

/-- A pass makes one message of its fill, and the loop ends behind it. -/
theorem exits_stored {bytes : List UInt8} (h : Drained b) (hne : bytes ≠ [])
    (hsmall : 2 * bytes.length < CIR_BUFSIZE) :
    Loop.Exits (ringBody .user fd) ⟨b.store bytes, [], []⟩ (readingOf fd b bytes) := by
  obtain ⟨hdata, hdrained⟩ := get_stored h hsmall
  have hused : usedSize (b.store bytes) = bytes.length := by
    have hzero : b.useBufferSize = 0 := h.used
    show b.useBufferSize + bytes.length = bytes.length
    rw [hzero, Nat.zero_add]
  have hpos : 0 < isValidPacket (b.store bytes) := by
    rw [isValidPacket, hused]
    exact List.length_pos_iff.mpr hne
  have hcommand : ChatUser.executeCommand .user fd (b.store bytes)
      = ⟨0, passed b bytes, some (typed fd bytes), [⟨.message, 0, bytes.length⟩]⟩ := by
    rw [ChatUser.executeCommand, if_neg (by decide), ChatUser.executeText_eq, hused]
    show (⟨0, passed b bytes, some ⟨_, _, _, ((b.store bytes).get bytes.length).data⟩, _⟩ :
      UserCommand CircularBuff) = _
    rw [hdata]
    rfl
  refine Loop.exits_of_again ?_ (Loop.exits_of_exit ?_) (t := readingOf fd b bytes)
  · simp only [ringBody, hpos, if_true, hcommand]
    rfl
  · have hempty : ¬ 0 < isValidPacket (passed b bytes) := by
      rw [isValidPacket]
      exact Nat.not_lt.mpr (Nat.le_of_eq hdrained.used)
    simp only [ringBody, readingOf, hempty, if_false]

/-- **What a user types.** The ring is empty, with its head anywhere and anything in its
cells. Over any number of passes, whose fills come in any `read`s and leave half of the ring
free, there is one run: it queues the fills as messages, each once and in order, and leaves
the ring empty. Its accesses stay in bounds exactly if no fill is longer than a message. -/
theorem typed_of_run (fd : Nat) (fills : List (List Chunk)) (h : Drained b)
    (hne : ∀ f ∈ fills, f ≠ [])
    (hsmall : ∀ f ∈ fills, 2 * (bytesOf f).length < CIR_BUFSIZE) : ∃ loops,
    (∀ loops', RingRun .user fd b fills loops' ↔ loops' = loops) ∧
      loops.flatMap RingReading.queued = fills.map (fun f => typed fd (bytesOf f)) ∧
      (∀ s ∈ loops, Drained s.buff) ∧
      ((∀ s ∈ loops, ∀ a ∈ s.accesses, a.InBounds) ↔
        ∀ f ∈ fills, (bytesOf f).length ≤ MAX_MESSAGE_SIZE) := by
  induction fills generalizing b with
  | nil => exact ⟨[], fun _ => run_nil_iff, rfl, by simp, by simp⟩
  | cons chunks fills ih =>
      obtain ⟨hchunks, hne⟩ := List.forall_mem_cons.mp hne
      obtain ⟨hlt, hsmall⟩ := List.forall_mem_cons.mp hsmall
      have hbytes := bytesOf_ne_nil hchunks
      have hdrained := (get_stored h hlt).2
      have hfits : (bytesOf chunks).length ≤ b.getFreeSize := by
        have hused : b.useBufferSize = 0 := h.used
        simp only [getFreeSize, h.bufferSize, hused]
        omega
      obtain ⟨loops, hrun, hqueued, hall, hbounds⟩ := ih hdrained hne hsmall
      refine ⟨readingOf fd b (bytesOf chunks) :: loops, ?_, ?_, ?_, ?_⟩
      · exact run_cons_iff (fun r => filled_iff (Nat.le_of_eq h.bufferSize) hchunks hfits)
          (exits_stored h hbytes hlt) hrun
      · rw [List.flatMap_cons, hqueued, List.map_cons]
        rfl
      · exact List.forall_mem_cons.mpr ⟨hdrained, hall⟩
      · have hfirst : (∀ a ∈ (readingOf fd b (bytesOf chunks)).accesses, a.InBounds) ↔
            (bytesOf chunks).length ≤ MAX_MESSAGE_SIZE := by
          have hpos := List.length_pos_iff.mpr hbytes
          simp only [readingOf, List.forall_mem_singleton, Access.InBounds, FilledObject.size]
          omega
        rw [List.forall_mem_cons, List.forall_mem_cons, hbounds, hfirst]

/-- `"hi"` across the right edge of the ring, and `"ho"` in two `read`s behind it. -/
theorem typed_of_two :
    let b : CircularBuff := ⟨1023999, 1023999, CIR_BUFSIZE, 0, fun _ => 7⟩
    ∃ loops, (∀ loops', RingRun .user 83 b [[⟨[104, 105], by decide, by decide⟩],
        [⟨[104], by decide, by decide⟩, ⟨[111], by decide, by decide⟩]] loops' ↔ loops' = loops) ∧
      loops.flatMap RingReading.queued = [typed 83 [104, 105], typed 83 [104, 111]] := by
  intro b
  have hdrained : Drained b := ⟨⟨by decide, by decide, by decide, by decide⟩, rfl, rfl⟩
  obtain ⟨loops, hrun, hqueued, -⟩ :=
    typed_of_run 83 [[⟨[104, 105], by decide, by decide⟩],
      [⟨[104], by decide, by decide⟩, ⟨[111], by decide, by decide⟩]] hdrained (by simp) (by decide)
  exact ⟨loops, hrun, hqueued⟩

end ThunderChat.ThreadReceiver

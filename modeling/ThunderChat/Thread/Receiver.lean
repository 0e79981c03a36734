import ThunderChat.Client.ChatUser
import ThunderChat.Foundation.Loop

/-!
The packet loop of `ThreadReceiver::Run`.

After a successful `FillFromSocket` a receiver calls `ExecuteCommand` while
`IsValidPacket` is positive. The `_USE_LT` build leaves the loop when
`ExecuteCommand` fails (`bodyLT`); the other builds only log its result (`body`).
`ExecuteCommand` fails without consuming a byte when a manager's packet is still
incomplete, so the two loops differ exactly there:

* `bodyLT_progresses`: the `_USE_LT` loop always makes progress or leaves.
* `progresses_iff`: the other loop does so for a manager's connection exactly
  when the bytes held are whole packets, and always for a user's.
* `wholePackets_iff_frames`: on an exact FIFO these are the concatenations of
  complete frames.
-/

namespace ThunderChat

open PacketBuffer LawfulPacketBuffer

variable {β : Type} [PacketBuffer β]

/-- `Client::IsValidPacket`: the number of bytes held. -/
def isValidPacket (b : β) : Nat := usedSize b

namespace ThreadReceiver

/-- One round of the packet loop in the builds without `_USE_LT`. -/
def body (type : ClientType) (fd : Nat) (b : β) : Loop.Next β :=
  if 0 < isValidPacket b then .again (ChatUser.executeCommand type fd b).buff else .exit b

/-- One round of the packet loop in the `_USE_LT` build. -/
def bodyLT (type : ClientType) (fd : Nat) (b : β) : Loop.Next β :=
  if 0 < isValidPacket b then
    let command := ChatUser.executeCommand type fd b
    if command.ret < 0 then .exit command.buff else .again command.buff
  else .exit b

/-- A loop performs finitely many rounds, each of which leaves it or takes bytes
from the ring. -/
def Progresses (loop : β → Loop.Next β) (b : β) : Prop :=
  Loop.Halts loop b ∧ Loop.Decreasing loop usedSize b

/-- The bytes held are whole packets: none is left, or the packet announced by
the peeked header is held completely and whole packets remain behind it. -/
inductive WholePackets : β → Prop where
  | drained {b : β} : usedSize b = 0 → WholePackets b
  | packet {b : β} : peekedLength b + PDUHEADERSIZE ≤ usedSize b →
      WholePackets (extractPacket b).buff → WholePackets b

variable {type : ClientType} {fd : Nat} {b c : β}

theorem body_of_pos (h : 0 < usedSize b) :
    body type fd b = .again (ChatUser.executeCommand type fd b).buff := if_pos h

theorem body_of_zero (h : usedSize b = 0) : body type fd b = .exit b :=
  if_neg (by simp [isValidPacket, h])

variable [LawfulPacketBuffer β]

/-- The ring after the relay branch has taken a complete packet. -/
theorem executeRelay_buff (h : peekedLength b + PDUHEADERSIZE ≤ usedSize b) :
    (ChatUser.executeRelay fd b).buff = (extractPacket b).buff := by
  rw [ChatUser.executeRelay_of_le h]
  dsimp only
  split <;> rfl

/-- A command that does not fail takes bytes from a ring that holds some. -/
theorem usedSize_executeCommand_lt (hpos : 0 < usedSize b)
    (hret : ¬ (ChatUser.executeCommand type fd b).ret < 0) :
    usedSize (ChatUser.executeCommand type fd b).buff < usedSize b := by
  unfold ChatUser.executeCommand at hret ⊢
  split
  · next htype =>
      rw [if_pos htype] at hret
      by_cases h : peekedLength b + PDUHEADERSIZE ≤ usedSize b
      · rw [executeRelay_buff h, usedSize_extractPacket h]
        simp only [PDUHEADERSIZE]
        omega
      · rw [ChatUser.executeRelay_of_lt (Nat.not_le.mp h)] at hret
        simp at hret
  · rw [ChatUser.executeText_eq]
    dsimp only
    rw [usedSize_get b _ le_rfl]
    omega

/-- The `_USE_LT` loop leaves on a failed command, so it always progresses. -/
theorem bodyLT_progresses (type : ClientType) (fd : Nat) (b : β) :
    Progresses (bodyLT type fd) b := by
  have decreasing : Loop.Decreasing (bodyLT type fd) usedSize b := by
    intro t u _ hround
    by_cases hpos : 0 < usedSize t
    · by_cases hret : (ChatUser.executeCommand type fd t).ret < 0
      · simp [Loop.Round, bodyLT, isValidPacket, hpos, hret] at hround
      · have hu : (ChatUser.executeCommand type fd t).buff = u := by
          simpa [Loop.Round, bodyLT, isValidPacket, hpos, hret] using hround
        exact hu ▸ usedSize_executeCommand_lt hpos hret
    · simp [Loop.Round, bodyLT, isValidPacket, hpos] at hround
  exact ⟨Loop.halts_of_decreasing decreasing, decreasing⟩

/-- On a user's connection the first round empties the ring. -/
theorem body_user_decreasing (htype : type ≠ .chatManager) :
    Loop.Decreasing (body type fd) usedSize b := by
  intro t u _ hround
  by_cases hpos : 0 < usedSize t
  · rw [Loop.Round, body_of_pos hpos] at hround
    cases hround
    refine usedSize_executeCommand_lt hpos ?_
    simp [ChatUser.executeCommand, htype, ChatUser.executeText_eq]
  · rw [Loop.Round, body_of_zero (by omega)] at hround
    cases hround

/-- Whole packets stay whole packets, and a round on them takes one. -/
theorem WholePackets.round (whole : WholePackets b) (hround : body .chatManager fd b = .again c) :
    WholePackets c ∧ usedSize c < usedSize b := by
  cases whole with
  | drained h =>
      rw [body_of_zero h] at hround
      cases hround
  | packet h rest =>
      rw [body_of_pos (by simp only [PDUHEADERSIZE] at h; omega)] at hround
      cases hround
      simp only [ChatUser.executeCommand, if_true, executeRelay_buff h, usedSize_extractPacket h]
      exact ⟨rest, by simp only [PDUHEADERSIZE] at h ⊢; omega⟩

/-- Every ring the loop reaches holds whole packets. -/
theorem WholePackets.rounds (whole : WholePackets b)
    (hrounds : Loop.Rounds (body .chatManager fd) b c) : WholePackets c := by
  induction hrounds with
  | refl => exact whole
  | tail _ hround ih => exact (ih.round hround).1

theorem WholePackets.decreasing (whole : WholePackets b) :
    Loop.Decreasing (body .chatManager fd) usedSize b :=
  fun _ _ hrounds hround => ((whole.rounds hrounds).round hround).2

/-- A decreasing loop never meets an incomplete packet: the failed command would
give the ring back with as many bytes as before. -/
theorem wholePackets_of_decreasing
    (decreasing : Loop.Decreasing (body .chatManager fd) usedSize b) : WholePackets b := by
  induction hn : usedSize b using Nat.strong_induction_on generalizing b with
  | _ n ih =>
      by_cases hzero : usedSize b = 0
      · exact .drained hzero
      · have hround : Loop.Round (body .chatManager fd) b (ChatUser.executeRelay fd b).buff := by
          rw [Loop.Round, body_of_pos (by omega), ChatUser.executeCommand, if_pos rfl]
        have less := decreasing b _ .refl hround
        by_cases h : peekedLength b + PDUHEADERSIZE ≤ usedSize b
        · rw [executeRelay_buff h] at hround less
          exact .packet h (ih _ (hn ▸ less) (decreasing.of_round hround) rfl)
        · rw [ChatUser.executeRelay_of_lt (Nat.not_le.mp h), usedSize_getHeader] at less
          exact absurd less (Nat.lt_irrefl _)

/-- **When the receiver's loop ends.** In the builds without `_USE_LT` the packet
loop on a ring performs finitely many rounds, each taking bytes or leaving, if and
only if the connection is not a manager's or the ring holds whole packets. -/
theorem progresses_iff (type : ClientType) (fd : Nat) (b : CircularBuff) :
    Progresses (body type fd) b ↔ (type = .chatManager → WholePackets b) := by
  constructor
  · rintro ⟨_, decreasing⟩ rfl
    exact wholePackets_of_decreasing decreasing
  · intro whole
    have decreasing : Loop.Decreasing (body type fd) usedSize b := by
      by_cases htype : type = .chatManager
      · subst htype
        exact (whole rfl).decreasing
      · exact body_user_decreasing htype
    exact ⟨Loop.halts_of_decreasing decreasing, decreasing⟩

/-- One byte of a manager's packet has arrived. -/
def firstByte : CircularBuff := ((CircularBuff.fresh fun _ => 0).put [84]).2

/-- The receiver spins on the first byte of a packet. -/
theorem firstByte_spins : ¬ Progresses (body .chatManager 5) firstByte := by
  rintro ⟨halts, _⟩
  refine Loop.not_halts_of_again_self ?_ halts
  have hused : usedSize firstByte = 1 := rfl
  rw [body_of_pos (by omega), ChatUser.executeCommand, if_pos rfl,
    ChatUser.executeRelay_of_lt (by rw [hused, PDUHEADERSIZE]; omega)]
  rfl

/-! ### Whole packets are concatenated frames -/

/-- On an exact FIFO, whole packets are complete frames. -/
theorem WholePackets.exists_frames {q : ByteQueue} (whole : WholePackets q) :
    ∃ frames : List (List UInt8), (∀ f ∈ frames, IsFrame f) ∧ q.content = frames.flatten := by
  induction whole with
  | @drained q h => exact ⟨[], by simp, List.length_eq_zero_iff.mp h⟩
  | @packet q h _ ih =>
      obtain ⟨frames, hframes, hcontent⟩ := ih
      rw [ByteQueue.extractPacket_eq h] at hcontent
      refine ⟨q.content.take (peekedLength q + PDUHEADERSIZE) :: frames, ?_, ?_⟩
      · intro f hf
        rcases List.mem_cons.mp hf with rfl | hrest
        · exact ByteQueue.isFrame_take h
        · exact hframes f hrest
      · rw [List.flatten_cons, ← hcontent, List.take_append_drop]

/-- Complete frames are whole packets. -/
theorem wholePackets_of_frames {q : ByteQueue} {frames : List (List UInt8)}
    (hframes : ∀ f ∈ frames, IsFrame f) (hcontent : q.content = frames.flatten) :
    WholePackets q := by
  induction frames generalizing q with
  | nil => exact .drained (by simp [usedSize, hcontent])
  | cons f rest ih =>
      have hf := hframes f List.mem_cons_self
      rw [List.flatten_cons] at hcontent
      obtain ⟨hpeek, hextract⟩ := ByteQueue.extractPacket_frame hf hcontent
      have hlen : usedSize q = f.length + rest.flatten.length := by
        rw [← List.length_append, ← hcontent]
        rfl
      refine .packet (by rw [hpeek, ← hf.2, hlen]; exact Nat.le_add_right _ _) ?_
      rw [hextract]
      exact ih (fun g hg => hframes g (List.mem_cons_of_mem f hg)) rfl

/-- The contents the receiver's loop ends on: concatenations of frames. -/
theorem wholePackets_iff_frames (q : ByteQueue) :
    WholePackets q ↔ ∃ frames : List (List UInt8),
      (∀ f ∈ frames, IsFrame f) ∧ q.content = frames.flatten := by
  constructor
  · exact WholePackets.exists_frames
  · rintro ⟨frames, hframes, hcontent⟩
    exact wholePackets_of_frames hframes hcontent

end ThreadReceiver

end ThunderChat

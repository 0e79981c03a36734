import ThunderChat.CircularBuff.Socket
import ThunderChat.Client.ClientChatServer
import ThunderChat.Foundation.Framing
import ThunderChat.Thread.Receiver

/-!
The packet loop of `ThreadWorker::Run` on a segmented packet stream.

A chat server's packets reach the manager as one byte stream, cut into fills at
arbitrary places. The ring is the exact FIFO `ByteQueue`; header positions beyond
the bytes held show arbitrary stale bytes, so with fewer than four bytes held the
peeked length is garbage. It does no harm: `Get` then asks for at least four
bytes and is refused.

* `serve_exits`: one loop dispatches the packets that are complete and keeps the
  bytes of the incomplete one.
* `framing`: over all fills, each packet is dispatched once, in order, in the
  loop that follows the arrival of its last byte.
-/

namespace ThunderChat

open PacketBuffer LawfulPacketBuffer Framing

/-- `Client::FillFromSocket` on the exact FIFO: bytes that do not fit, or none,
close the connection. -/
def ByteQueue.fillFromSocket (q : ByteQueue) (arrived : List UInt8) : Int × ByteQueue :=
  if arrived = [] ∨ (q.put arrived).1 < 0 then (USER_CLOSE, q) else q.put arrived

theorem ByteQueue.fillFromSocket_of_fits {q : ByteQueue} {arrived : List UInt8}
    (hne : arrived ≠ []) (hfits : q.content.length + arrived.length ≤ CIR_BUFSIZE) :
    q.fillFromSocket arrived
      = ((arrived.length : Int), { q with content := q.content ++ arrived }) := by
  have hput : q.put arrived =
      ((arrived.length : Int), { q with content := q.content ++ arrived }) :=
    if_neg (by omega)
  rw [fillFromSocket, hput, if_neg]
  simp [hne]

/-- A fill that is read out just as it was announced does to the ring of the source what
`fillFromSocket` does to the FIFO the ring shows. -/
theorem putSocket_simulates {b : CircularBuff} {q : ByteQueue} (h : Shows b q)
    (hcap : b.bufferSize = CIR_BUFSIZE) (errno : Nat) (chunks : List CircularBuff.Chunk) :
    let arrived := CircularBuff.bytesOf chunks
    let put := b.putSocket errno arrived.length (CircularBuff.arriving chunks)
    put.1 = (q.fillFromSocket arrived).1 ∧ Shows put.2 (q.fillFromSocket arrived).2 := by
  intro arrived put
  have hused := h.length_content
  have hle := h.1.used_le
  simp only [CircularBuff.getUsedSize] at hused
  by_cases hreads : b.Reads arrived.length
  · have hne : arrived ≠ [] := List.ne_nil_of_length_pos (Int.natCast_pos.mp hreads.1)
    have hfits : arrived.length ≤ b.getFreeSize := Int.ofNat_le.mp hreads.2
    have hput : put = ((arrived.length : Int), b.store arrived) :=
      CircularBuff.putSocket_arriving (Nat.le_of_eq hcap) hreads errno
    have hroom : q.content.length + arrived.length ≤ CIR_BUFSIZE := by
      simp only [CircularBuff.getFreeSize] at hfits
      omega
    rw [hput, ByteQueue.fillFromSocket_of_fits hne hroom]
    exact ⟨rfl, h.1.store hfits, by rw [CircularBuff.content_store h.1 hfits, h.2]⟩
  · have hput : put = (USER_CLOSE, b) := CircularBuff.putSocket_of_not_reads hreads
    have hclosed : q.fillFromSocket arrived = (USER_CLOSE, q) := by
      refine if_pos ?_
      by_cases hnil : arrived = []
      · exact .inl hnil
      · have hpos : 0 < arrived.length := List.length_pos_iff.mpr hnil
        have hover : CIR_BUFSIZE < q.content.length + arrived.length := by
          simp only [CircularBuff.Reads, CircularBuff.getFreeSize, not_and] at hreads
          omega
        right
        rw [ByteQueue.put, if_pos hover]
        exact Int.negSucc_lt_zero 0
    rw [hput, hclosed]
    exact ⟨rfl, h⟩

namespace ThreadWorker

/-- The packet loop's state: the ring, and the packets dispatched so far. -/
structure Serving (β : Type) where
  buff : β
  dispatched : List TPacket

/-- One round of the packet loop. -/
def body {β : Type} [PacketBuffer β] (s : Serving β) : Loop.Next (Serving β) :=
  if 0 < isValidPacket s.buff then
    let command := ClientChatServer.executeCommand s.buff
    let next : Serving β := ⟨command.buff, s.dispatched ++ command.packet.toList⟩
    if command.ret < 0 then .exit next else .again next
  else .exit s

/-- `ThreadWorker::Run` for one client: each fill is followed by a packet loop
that comes to its end. The list holds the state at the end of each loop. -/
inductive Run : ByteQueue → List (List UInt8) → List (Serving ByteQueue) → Prop where
  | done {q : ByteQueue} : Run q [] []
  | fill {q : ByteQueue} {arrived : List UInt8} {fills : List (List UInt8)}
      {s : Serving ByteQueue} {loops : List (Serving ByteQueue)} :
      0 < (q.fillFromSocket arrived).1 →
      Loop.Exits body ⟨(q.fillFromSocket arrived).2, []⟩ s → Run s.buff fills loops →
      Run q (arrived :: fills) (s :: loops)

/-- The loops have no choice. -/
theorem Run.unique {q : ByteQueue} {fills : List (List UInt8)}
    {loops loops' : List (Serving ByteQueue)} (h : Run q fills loops) (h' : Run q fills loops') : loops' = loops := by
  induction h generalizing loops' with
  | done =>
      cases h'
      rfl
  | fill _ hexits _ ih =>
      cases h' with
      | fill _ hexits' rest' =>
          cases Loop.exits_unique hexits hexits'
          rw [ih rest']

/-- A way of cutting the byte stream of `packets` into fills: every fill brings
bytes, and they fit into the ring behind those of the incomplete packet. -/
structure Cut (packets : List Packet) where
  fills : List (List UInt8)
  ordered : fills.flatten <+: stream Packet.encode packets
  nonempty : ∀ f ∈ fills, f ≠ []
  fits : ∀ pre f, pre ++ [f] <+: fills →
    (pending Packet.encode packets pre.flatten.length).length + f.length ≤ CIR_BUFSIZE

/-- What a fill finds: the bytes of the fills before it are the stream's first
ones, and its own follow them. -/
theorem Cut.arrives {packets : List Packet} (cut : Cut packets) {pre : List (List UInt8)}
    {f : List UInt8} (h : pre ++ [f] <+: cut.fills) :
    pre.flatten.length + f.length ≤ (stream Packet.encode packets).length ∧
      (stream Packet.encode packets).take (pre.flatten.length + f.length)
        = (stream Packet.encode packets).take pre.flatten.length ++ f := by
  obtain ⟨post, hpost⟩ := h
  obtain ⟨rest, hrest⟩ := cut.ordered
  have hstream : stream Packet.encode packets = pre.flatten ++ (f ++ (post.flatten ++ rest)) := by
    rw [← hrest, ← hpost]
    simp
  refine ⟨?_, ?_⟩
  · rw [hstream]
    simp
  · rw [hstream, List.take_left, List.take_length_add_append, List.take_left]

/-- The packets dispatched once the first `n` bytes of the stream have arrived. -/
def dispatchedAfter (packets : List Packet) (n : Nat) : List TPacket :=
  (completed Packet.encode packets n).map Packet.toTPacket

theorem dispatchedAfter_zero (packets : List Packet) : dispatchedAfter packets 0 = [] := by
  cases packets with
  | nil => rfl
  | cons p rest =>
      rw [dispatchedAfter, completed_cons_of_lt, List.map_nil]
      simp [PDUHEADERSIZE]

/-- An empty ring. -/
def emptyQueue (stale : Nat → Nat → UInt8) : ByteQueue := ⟨[], 0, stale⟩

variable {q : ByteQueue} {out : List TPacket}

/-- A round on a complete packet dispatches it. -/
theorem body_packet {p : Packet} {rest : List UInt8} (h : q.content = p.encode ++ rest) :
    body ⟨q, out⟩
      = .again ⟨{ q with content := rest, peeks := q.peeks + 1 }, out ++ [p.toTPacket]⟩ := by
  obtain ⟨hpeek, hextract⟩ := ByteQueue.extractPacket_frame p.isFrame_encode h
  have hused : usedSize q = p.encode.length + rest.length := by
    rw [← List.length_append, ← h]
    rfl
  have hlen : peekedLength q + PDUHEADERSIZE ≤ usedSize q := by
    rw [hpeek, hused, ← p.isFrame_encode.2]
    omega
  have hpos : 0 < isValidPacket q := by
    simp only [isValidPacket, PDUHEADERSIZE] at hlen ⊢
    omega
  simp only [body, hpos, if_true, ClientChatServer.executeCommand_of_le hlen, hextract]
  simp [Packet.toTPacket]

/-- A loop on an incomplete packet leaves without dispatching anything, whatever
the peek shows beyond the bytes held. -/
theorem exits_incomplete {p : Packet} {tail : List UInt8} (h : q.content ++ tail = p.encode)
    (htail : tail ≠ []) : ∃ peeks, Loop.Exits body ⟨q, out⟩ ⟨{ q with peeks }, out⟩ := by
  by_cases hzero : usedSize q = 0
  · refine ⟨q.peeks, Loop.exits_of_exit ?_⟩
    simp [body, isValidPacket, hzero]
  · have htailpos : 0 < tail.length := List.length_pos_iff.mpr htail
    have hlen : q.content.length + tail.length = p.encode.length := by
      rw [← List.length_append, h]
    -- With a whole header held the peek is the packet's; with less, any length is too long.
    have hlt : usedSize q < peekedLength q + PDUHEADERSIZE := by
      show q.content.length < _
      by_cases hheader : PDUHEADERSIZE ≤ q.content.length
      · have hpeek : peekedLength q = (PacketHeader.decode p.encode).length := by
          rw [ByteQueue.peekedLength_eq hheader, ← h, PacketHeader.decode_append hheader]
        rw [hpeek, ← p.isFrame_encode.2]
        omega
      · omega
    refine ⟨q.peeks + 1, Loop.exits_of_exit ?_⟩
    have hpos : 0 < isValidPacket q := Nat.pos_of_ne_zero hzero
    simp only [body, hpos, if_true, ClientChatServer.executeCommand_of_lt hlt]
    simp [getHeader, ByteQueue.getHeader]

/-- One packet loop. With the first `n` bytes of a packet stream in the ring,
the loop ends, has dispatched the packets that are complete, and leaves the bytes
of the incomplete one. -/
theorem serve_exits (packets : List Packet) {n : Nat}
    (hn : n ≤ (stream Packet.encode packets).length)
    (hq : q.content = (stream Packet.encode packets).take n) :
    ∃ s, Loop.Exits body ⟨q, out⟩ s ∧ s.buff.stale = q.stale ∧
      s.dispatched = out ++ (completed Packet.encode packets n).map Packet.toTPacket ∧
      s.buff.content = pending Packet.encode packets n := by
  induction packets generalizing q out n with
  | nil =>
      refine ⟨⟨q, out⟩, Loop.exits_of_exit ?_, rfl, by simp, ?_⟩
      · have : usedSize q = 0 := by simp [usedSize, hq]
        simp [body, isValidPacket, this]
      · simp [hq, pending]
  | cons p rest ih =>
      by_cases h : p.encode.length ≤ n
      · have hcontent : q.content
            = p.encode ++ (stream Packet.encode rest).take (n - p.encode.length) := by
          rw [hq, stream_cons, List.take_append, List.take_of_length_le h]
        rw [stream_cons, List.length_append] at hn
        obtain ⟨s, hexits, hstale, hdispatched, hs⟩ :=
          @ih { q with
                content := (stream Packet.encode rest).take (n - p.encode.length)
                peeks := q.peeks + 1 } (out ++ [p.toTPacket]) (n - p.encode.length) (by omega) rfl
        refine ⟨s, Loop.exits_of_again (body_packet hcontent) hexits, hstale, ?_, ?_⟩
        · rw [hdispatched, completed_cons_of_le h, List.map_cons, List.append_assoc]
          rfl
        · rw [hs, pending_cons_of_le h]
      · have hlt := Nat.not_le.mp h
        have hcontent : q.content = p.encode.take n := by
          rw [hq, stream_cons, List.take_append_of_le_length (Nat.le_of_lt hlt)]
        have hframe : q.content ++ p.encode.drop n = p.encode := by
          rw [hcontent, List.take_append_drop]
        obtain ⟨peeks, hexits⟩ := exits_incomplete hframe (by simpa using hlt)
        refine ⟨_, hexits, rfl, by simp [completed_cons_of_lt hlt], ?_⟩
        rw [pending_cons_of_lt hlt]
        exact hcontent

/-- The next fill: the ring takes it, and one loop serves what is complete then. -/
theorem serve_fill {packets : List Packet} {arrived : List UInt8} {n : Nat} (hne : arrived ≠ [])
    (hfits : (pending Packet.encode packets n).length + arrived.length ≤ CIR_BUFSIZE)
    (hn : n + arrived.length ≤ (stream Packet.encode packets).length)
    (harrived : (stream Packet.encode packets).take (n + arrived.length)
      = (stream Packet.encode packets).take n ++ arrived)
    (hq : q.content = pending Packet.encode packets n) : ∃ s,
    0 < (q.fillFromSocket arrived).1 ∧ Loop.Exits body ⟨(q.fillFromSocket arrived).2, []⟩ s ∧
      dispatchedAfter packets (n + arrived.length) = dispatchedAfter packets n ++ s.dispatched ∧
      s.buff.content = pending Packet.encode packets (n + arrived.length) := by
  obtain ⟨todo, r, hr, hheld, hdone, hpending⟩ :=
    pending_append Packet.encode packets hn harrived
  have hfill := ByteQueue.fillFromSocket_of_fits hne (hq ▸ hfits)
  obtain ⟨s, hexits, _, hdispatched, hs⟩ :=
    @serve_exits (q.fillFromSocket arrived).2 [] todo r hr (by rw [hfill, ← hheld, hq])
  refine ⟨s, ?_, hexits, ?_, hs.trans hpending.symm⟩
  · have hpos : 0 < arrived.length := List.length_pos_iff.mpr hne
    rw [hfill]
    simpa using hpos
  · rw [dispatchedAfter, hdone, List.map_append, hdispatched, List.nil_append, dispatchedAfter]

/-- The loops behind the remaining fills `post`, when the bytes of the fills `pre`
have arrived and the ring holds those of the incomplete packet. -/
theorem run_remaining {packets : List Packet} (cut : Cut packets) {pre post : List (List UInt8)}
    (hcut : cut.fills = pre ++ post)
    (hq : q.content = pending Packet.encode packets pre.flatten.length) : ∃ loops,
    Run q post loops ∧ loops.length = post.length ∧ ∀ k s, loops[k]? = some s →
      dispatchedAfter packets pre.flatten.length ++ (loops.take (k + 1)).flatMap Serving.dispatched
        = dispatchedAfter packets (pre ++ post.take (k + 1)).flatten.length ∧
      s.buff.content = pending Packet.encode packets (pre ++ post.take (k + 1)).flatten.length := by
  induction post generalizing pre q with
  | nil => exact ⟨[], .done, rfl, by simp⟩
  | cons f post ih =>
      have hprefix : pre ++ [f] <+: cut.fills := ⟨post, by simp [hcut]⟩
      have hflat : (pre ++ [f]).flatten = pre.flatten ++ f := by simp
      obtain ⟨hn, harrived⟩ := cut.arrives hprefix
      have hnext : (pre ++ [f]).flatten.length = pre.flatten.length + f.length := by simp
      obtain ⟨s, hpos, hexits, hdispatched, hs⟩ :=
        serve_fill (cut.nonempty f (by simp [hcut])) (cut.fits pre f hprefix) hn harrived hq
      rw [← hnext] at hdispatched hs
      have hrest : cut.fills = (pre ++ [f]) ++ post := by simp [hcut]
      obtain ⟨loops, hrun, hlen, hloops⟩ := ih hrest hs
      refine ⟨s :: loops, .fill hpos hexits hrun, by simp [hlen], ?_⟩
      intro k t hk
      cases k with
      | zero =>
          cases hk
          simpa using And.intro hdispatched.symm hs
      | succ k =>
          obtain ⟨hall, ht⟩ := hloops k t hk
          rw [hdispatched, List.append_assoc] at hall
          simpa using And.intro hall ht

/-- **Framing does not depend on segmentation.** However the byte stream of a
packet sequence is cut into fills, every packet loop ends, and there is one run.
After its `k`-th loop the packets dispatched so far are exactly those whose last byte
has arrived, each once and in order, and the ring holds exactly the bytes of the
incomplete packet. -/
theorem framing (packets : List Packet) (cut : Cut packets) (stale : Nat → Nat → UInt8) :
    (∃ loops, (∀ loops', Run (emptyQueue stale) cut.fills loops' ↔ loops' = loops) ∧
      loops.length = cut.fills.length ∧
      ∀ k s, loops[k]? = some s →
        (loops.take (k + 1)).flatMap Serving.dispatched
          = dispatchedAfter packets (cut.fills.take (k + 1)).flatten.length ∧
        s.buff.content
          = pending Packet.encode packets (cut.fills.take (k + 1)).flatten.length) ∧
    ∀ p ∈ packets, p.toTPacket.header = p.header ∧
      p.toTPacket.data.take p.toTPacket.header.length = p.body := by
  refine ⟨?_, fun p _ => ⟨p.toTPacket_header, ?_⟩⟩
  · have hempty : (emptyQueue stale).content = pending Packet.encode packets 0 := by
      simp [emptyQueue, pending]
    obtain ⟨loops, hrun, hlen, hloops⟩ := run_remaining cut (List.nil_append _).symm hempty
    refine ⟨loops, fun loops' => ⟨hrun.unique, ?_⟩, hlen, fun k s hk => ?_⟩
    · rintro rfl
      exact hrun
    · simpa [dispatchedAfter_zero] using hloops k s hk
  · rw [p.toTPacket_header]
    exact p.toTPacket_body

end ThreadWorker

end ThunderChat

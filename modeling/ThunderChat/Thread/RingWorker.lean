import ThunderChat.Thread.Passes
import ThunderChat.Thread.Worker

/-!
The packet loop of `ThreadWorker::Run` on the ring of the source.

`Worker.lean` takes the ring for an exact FIFO. The ring of the source is one as long as no
`Get` crosses its right edge without noticing, and its header peek may show anything when
fewer than four bytes are held. Here the loop runs on that ring, filled by the `Put` of the
source from `read`s of any size, wherever its head has got to.

* `body_along`: with at most `MAXPDUSIZE` bytes free behind the content, both loops take the
  same rounds on a packet stream.
* `ring_framing`: the dispatched packets do not depend on how the stream is cut.
-/

namespace ThunderChat.ThreadWorker

open PacketBuffer LawfulPacketBuffer Framing CircularBuff

/-- `ThreadWorker::Run` for one client. -/
abbrev RingRun : CircularBuff → List (List Chunk) → List (Serving CircularBuff) → Prop :=
  Passes.Run body (⟨·, []⟩) Serving.buff

/-- The ring shows the FIFO, has room for a packet behind its content, and holds the front of
a packet stream. -/
structure Abreast (s : Serving CircularBuff) (t : Serving ByteQueue) : Prop where
  shows : Shows s.buff t.buff
  dispatched : s.dispatched = t.dispatched
  bufferSize : s.buff.bufferSize = CIR_BUFSIZE
  room : t.buff.content.length + MAXPDUSIZE < CIR_BUFSIZE
  framed : ∃ packets : List Packet, t.buff.content <+: stream Packet.encode packets

variable {s : Serving CircularBuff} {t : Serving ByteQueue} {b : CircularBuff}

theorem length_encode_le (p : Packet) : p.encode.length ≤ MAXPDUSIZE := by
  rw [p.length_encode]
  exact Nat.add_le_of_le_sub' (by decide) p.body_le

/-- A peek that shows the header once four bytes are held finds an incomplete packet
incomplete, whatever it shows before. -/
theorem lt_of_incomplete {p : Packet} {held tail : List UInt8} {peeked : Nat}
    (h : held ++ tail = p.encode) (htail : tail ≠ [])
    (hpeek : PDUHEADERSIZE ≤ held.length → peeked = (PacketHeader.decode held).length) :
    held.length < peeked + PDUHEADERSIZE := by
  have hpos : 0 < tail.length := List.length_pos_iff.mpr htail
  have hlen : held.length + tail.length = p.encode.length := by rw [← List.length_append, h]
  by_cases hheader : PDUHEADERSIZE ≤ held.length
  · have hdecode : PacketHeader.decode p.encode = PacketHeader.decode held := by
      rw [← h, PacketHeader.decode_append hheader]
    rw [hpeek hheader, ← hdecode, ← p.isFrame_encode.2]
    omega
  · omega

namespace Abreast

theorem inv (h : Abreast s t) : s.buff.Inv := h.shows.1

theorem getSafe (h : Abreast s t) {len : Nat} (hlen : len ≤ MAXPDUSIZE) : s.buff.GetSafe len := by
  have hused : s.buff.useBufferSize = t.buff.content.length := h.shows.length_content.symm
  have hroom := h.room
  refine Passes.getSafe_of_room h.inv ?_
  rw [h.bufferSize, hused]
  omega

theorem peekedLength_eq (h : Abreast s t) (held : PDUHEADERSIZE ≤ t.buff.content.length) :
    peekedLength s.buff = (PacketHeader.decode t.buff.content).length :=
  h.shows.peekedLength_eq (h.shows.length_content ▸ held) (h.getSafe (by decide))

/-- A round on an incomplete packet leaves the ring as it is. -/
theorem body_incomplete (h : Abreast s t) (hne : t.buff.content ≠ []) {p : Packet}
    {tail : List UInt8} (hframe : t.buff.content ++ tail = p.encode) (htail : tail ≠ []) :
    Loop.Along Abreast (body s) (body t) := by
  have hpos : 0 < t.buff.content.length := List.length_pos_iff.mpr hne
  have hused : usedSize s.buff = t.buff.content.length := h.shows.usedSize
  have hring : usedSize s.buff < peekedLength s.buff + PDUHEADERSIZE := by
    rw [hused]
    exact lt_of_incomplete hframe htail h.peekedLength_eq
  have hqueue : usedSize t.buff < peekedLength t.buff + PDUHEADERSIZE :=
    lt_of_incomplete hframe htail ByteQueue.peekedLength_eq
  have hsource : body s = .exit s := by
    have hvalid : 0 < isValidPacket s.buff := hpos.trans_eq hused.symm
    simp only [body, hvalid, if_true, ClientChatServer.executeCommand_of_lt hring]
    simp [PacketBuffer.getHeader]
  have hbody : body t = .exit ⟨(getHeader t.buff).2, t.dispatched⟩ := by
    have hvalid : 0 < isValidPacket t.buff := hpos
    simp only [body, hvalid, if_true, ClientChatServer.executeCommand_of_lt hqueue]
    simp
  rw [hsource, hbody]
  exact .exit ⟨h.shows, h.dispatched, h.bufferSize, h.room, h.framed⟩

/-- A round on a complete packet takes it out of both. -/
theorem body_packet (h : Abreast s t) {p : Packet} {packets : List Packet} {rest : List UInt8}
    (hcontent : t.buff.content = p.encode ++ rest)
    (hrest : rest <+: stream Packet.encode packets) :
    Loop.Along Abreast (body s) (body t) := by
  have hlen : t.buff.content.length = p.encode.length + rest.length := by
    rw [hcontent, List.length_append]
  have hused : usedSize s.buff = t.buff.content.length := h.shows.usedSize
  have hframe := p.isFrame_encode
  have hpeek : peekedLength s.buff + PDUHEADERSIZE = p.encode.length := by
    have held : PDUHEADERSIZE ≤ t.buff.content.length := by
      rw [hlen]
      exact hframe.1.trans (Nat.le_add_right _ _)
    rw [h.peekedLength_eq held, hcontent, PacketHeader.decode_append hframe.1, ← hframe.2]
  have hwhole : peekedLength s.buff + PDUHEADERSIZE ≤ usedSize s.buff := by omega
  -- The ring's `Get` is safe, and is the FIFO's.
  obtain ⟨-, hdata, hshows⟩ := get_simulates h.shows (h.getSafe (length_encode_le p))
  have hget : t.buff.get p.encode.length
      = ⟨p.encode.length, p.encode, { t.buff with content := rest }⟩ := by
    rw [ByteQueue.get_of_le (by omega), hcontent, List.take_left, List.drop_left]
  rw [hget] at hdata hshows
  have hextract : extractPacket s.buff = s.buff.get p.encode.length := by
    rw [extractPacket, hpeek]
    rfl
  have hvalid : 0 < isValidPacket s.buff := by
    simp only [isValidPacket, PDUHEADERSIZE] at hpeek hwhole ⊢
    omega
  have hsource : body s = .again
      ⟨(s.buff.get p.encode.length).buff, s.dispatched ++ [p.toTPacket]⟩ := by
    simp only [body, hvalid, if_true, ClientChatServer.executeCommand_of_le hwhole, hextract,
      hdata]
    simp [Packet.toTPacket]
  have hbody : body t = .again
      ⟨{ t.buff with content := rest, peeks := t.buff.peeks + 1 },
        t.dispatched ++ [p.toTPacket]⟩ := ThreadWorker.body_packet hcontent
  have hle : rest.length ≤ t.buff.content.length := by omega
  rw [hsource, hbody]
  refine .again ⟨hshows, by rw [h.dispatched], ?_, ?_, packets, hrest⟩
  · show (s.buff.get p.encode.length).buff.bufferSize = CIR_BUFSIZE
    rw [CircularBuff.get_of_le (hpeek ▸ hwhole), drop_bufferSize, h.bufferSize]
  · exact (Nat.add_le_add_right hle _).trans_lt h.room

end Abreast

/-- Both loops take the same rounds on a packet stream. -/
theorem body_along (s : Serving CircularBuff) (t : Serving ByteQueue) (h : Abreast s t) :
    Loop.Along Abreast (body s) (body t) := by
  by_cases hnil : t.buff.content = []
  · have hused : usedSize s.buff = 0 := by
      rw [h.shows.usedSize]
      exact List.length_eq_zero_iff.mpr hnil
    have hzero : usedSize t.buff = 0 := List.length_eq_zero_iff.mpr hnil
    rw [body, body, isValidPacket, isValidPacket, hused, hzero]
    exact .exit h
  · obtain ⟨packets, htail⟩ := h.framed
    cases packets with
    | nil => exact absurd (List.prefix_nil.mp htail) hnil
    | cons p packets =>
        rw [stream_cons] at htail
        rcases List.prefix_or_prefix_of_prefix htail (List.prefix_append p.encode _) with
          ⟨tail, hframe⟩ | ⟨rest, hframe⟩
        · by_cases hdone : tail = []
          · rw [hdone, List.append_nil] at hframe
            have hcontent : t.buff.content = p.encode ++ [] := by rw [hframe, List.append_nil]
            exact h.body_packet hcontent (List.nil_prefix : [] <+: stream Packet.encode packets)
          · exact h.body_incomplete hnil hframe hdone
        · rw [← hframe, List.prefix_append_right_inj] at htail
          exact h.body_packet hframe.symm htail

/-! ### Whole runs -/

/-- What is left of an incomplete packet is shorter than a packet. -/
theorem length_pending_le (packets : List Packet) (n : Nat) :
    (pending Packet.encode packets n).length ≤ MAXPDUSIZE := by
  induction packets generalizing n with
  | nil => simp [pending]
  | cons p packets ih =>
      by_cases h : p.encode.length ≤ n
      · rw [pending_cons_of_le h]
        exact ih _
      · rw [pending_cons_of_lt (Nat.not_le.mp h)]
        exact (List.length_take_le' n _).trans (length_encode_le p)

/-- A way of cutting the stream of `packets` into fills, each of which leaves room for two
packets in an empty ring. -/
structure RingCut (packets : List Packet) where
  fills : List (List Chunk)
  ordered : (fills.flatMap bytesOf) <+: stream Packet.encode packets
  nonempty : ∀ f ∈ fills, f ≠ []
  small : ∀ f ∈ fills, (bytesOf f).length + 2 * MAXPDUSIZE < CIR_BUFSIZE

namespace RingCut

variable {packets : List Packet} (cut : RingCut packets)

/-- As fills of a FIFO. -/
def toCut : Cut packets where
  fills := cut.fills.map bytesOf
  ordered := cut.ordered
  nonempty f hf := by
    obtain ⟨chunks, hchunks, rfl⟩ := List.mem_map.mp hf
    exact bytesOf_ne_nil (cut.nonempty chunks hchunks)
  fits pre f hpre := by
    have hmem : f ∈ cut.fills.map bytesOf := hpre.subset (by simp)
    obtain ⟨chunks, hchunks, rfl⟩ := List.mem_map.mp hmem
    have hsmall := cut.small chunks hchunks
    have hpending := length_pending_le packets pre.flatten.length
    omega

end RingCut

/-- One fill and one loop: the ring keeps abreast of the FIFO. -/
theorem serve_ringFill {packets : List Packet} {q : ByteQueue} {chunks : List Chunk} {n : Nat}
    (hshows : Shows b q) (hcap : b.bufferSize = CIR_BUFSIZE) (hne : chunks ≠ [])
    (hsmall : (bytesOf chunks).length + 2 * MAXPDUSIZE < CIR_BUFSIZE)
    (hn : n + (bytesOf chunks).length ≤ (stream Packet.encode packets).length)
    (harrived : (stream Packet.encode packets).take (n + (bytesOf chunks).length)
      = (stream Packet.encode packets).take n ++ bytesOf chunks)
    (hq : q.content = pending Packet.encode packets n) : ∃ s t,
    Abreast s t ∧ (∀ r, Passes.Filled b chunks r ↔ r = b.store (bytesOf chunks)) ∧
      Loop.Exits body ⟨b.store (bytesOf chunks), []⟩ s ∧
      dispatchedAfter packets (n + (bytesOf chunks).length)
        = dispatchedAfter packets n ++ s.dispatched ∧
      t.buff.content = pending Packet.encode packets (n + (bytesOf chunks).length) := by
  have hpending := length_pending_le packets n
  have hroom : (pending Packet.encode packets n).length + (bytesOf chunks).length
      ≤ CIR_BUFSIZE := by omega
  have hbytes := bytesOf_ne_nil hne
  obtain ⟨t, -, hexits, hdispatched, ht⟩ := serve_fill hbytes hroom hn harrived hq
  have hfits : (bytesOf chunks).length ≤ b.getFreeSize := by
    have hused := hshows.length_content
    simp only [getUsedSize] at hused
    rw [hq] at hused
    simp only [getFreeSize, hcap]
    omega
  have hfilled (r : CircularBuff) : Passes.Filled b chunks r ↔ r = b.store (bytesOf chunks) :=
    Passes.filled_iff (Nat.le_of_eq hcap) hne hfits
  have hfill : q.fillFromSocket (bytesOf chunks)
      = (((bytesOf chunks).length : Int), { q with content := q.content ++ bytesOf chunks }) :=
    ByteQueue.fillFromSocket_of_fits hbytes (hq ▸ hroom)
  -- The loop starts abreast: the ring shows what the FIFO holds, the front of a stream.
  obtain ⟨todo, r, -, hheld, -, -⟩ := pending_append Packet.encode packets hn harrived
  have habreast : Abreast ⟨b.store (bytesOf chunks), []⟩
      ⟨(q.fillFromSocket (bytesOf chunks)).2, []⟩ := by
    rw [hfill]
    refine ⟨⟨hshows.1.store hfits, ?_⟩, rfl, hcap, ?_, todo, ?_⟩
    · rw [content_store hshows.1 hfits, hshows.2]
    · simp only [List.length_append, hq]
      omega
    · rw [hq, hheld]
      exact List.take_prefix _ _
  obtain ⟨s, hs, hring⟩ : ∃ s, Abreast s t ∧
      Loop.Exits body ⟨b.store (bytesOf chunks), []⟩ s :=
    hexits.simulates (fun t s h => (body_along s t h).swap) habreast
  exact ⟨s, t, hs, hfilled, hring, by rw [hdispatched, hs.dispatched], ht⟩

/-- The loops behind the remaining fills `post`, when the bytes of the fills `pre` have
arrived and the ring holds those of the incomplete packet. -/
theorem ringRun_remaining {packets : List Packet} (cut : RingCut packets)
    {pre post : List (List Chunk)} (hcut : cut.fills = pre ++ post) {q : ByteQueue}
    (hshows : Shows b q) (hcap : b.bufferSize = CIR_BUFSIZE)
    (hq : q.content = pending Packet.encode packets (pre.flatMap bytesOf).length) : ∃ loops,
    (∀ loops', RingRun b post loops' ↔ loops' = loops) ∧ loops.length = post.length ∧
      ∀ k s, loops[k]? = some s →
        dispatchedAfter packets (pre.flatMap bytesOf).length
            ++ (loops.take (k + 1)).flatMap Serving.dispatched
          = dispatchedAfter packets ((pre ++ post.take (k + 1)).flatMap bytesOf).length ∧
        s.buff.content
          = pending Packet.encode packets ((pre ++ post.take (k + 1)).flatMap bytesOf).length := by
  induction post generalizing pre b q with
  | nil =>
      exact ⟨[], fun _ => Passes.run_nil_iff, rfl, by simp⟩
  | cons chunks post ih =>
      have hmem : chunks ∈ cut.fills := by simp [hcut]
      have hnext : ((pre ++ [chunks]).flatMap bytesOf).length
          = (pre.flatMap bytesOf).length + (bytesOf chunks).length := by simp
      have hprefix : pre.map bytesOf ++ [bytesOf chunks] <+: cut.toCut.fills :=
        ⟨post.map bytesOf, by simp [RingCut.toCut, hcut]⟩
      obtain ⟨hn, harrived⟩ := cut.toCut.arrives hprefix
      rw [← List.flatMap_def] at hn harrived
      obtain ⟨s, t, hs, hfilled, hexits, hdispatched, ht⟩ :=
        serve_ringFill hshows hcap (cut.nonempty chunks hmem) (cut.small chunks hmem) hn harrived hq
      rw [← hnext] at hdispatched ht
      have hrest : cut.fills = (pre ++ [chunks]) ++ post := by simp [hcut]
      obtain ⟨loops, hrun, hlen, hloops⟩ := ih hrest hs.shows hs.bufferSize ht
      refine ⟨s :: loops, Passes.run_cons_iff hfilled hexits hrun, by simp [hlen],
        fun k s' hk => ?_⟩
      cases k with
      | zero =>
          cases hk
          have hcontent : s.buff.content = t.buff.content := hs.shows.2
          simpa using And.intro hdispatched.symm (hcontent.trans ht)
      | succ k =>
          obtain ⟨hall, hcontent⟩ := hloops k s' hk
          rw [hdispatched, List.append_assoc] at hall
          simpa using And.intro hall hcontent

/-- **Framing on the ring of the source.** The ring is empty, with its head anywhere and
anything in its cells. However the byte stream of a packet sequence is cut into fills, and
these into `read`s, as long as each fill leaves room for two packets: every packet loop ends,
there is one run, and after its `k`-th loop the packets dispatched so far are exactly those
whose last byte has arrived, each once and in order. -/
theorem ring_framing (packets : List Packet) (cut : RingCut packets) (inv : b.Inv)
    (hcap : b.bufferSize = CIR_BUFSIZE) (hempty : b.getUsedSize = 0) : ∃ loops,
    (∀ loops', RingRun b cut.fills loops' ↔ loops' = loops) ∧
      loops.length = cut.fills.length ∧
      ∀ k s, loops[k]? = some s →
        (loops.take (k + 1)).flatMap Serving.dispatched
          = dispatchedAfter packets ((cut.fills.take (k + 1)).flatMap bytesOf).length ∧
        s.buff.content
          = pending Packet.encode packets
            ((cut.fills.take (k + 1)).flatMap bytesOf).length := by
  have hcontent : b.content = [] := List.length_eq_zero_iff.mp (length_content.trans hempty)
  have hshows : Shows b (emptyQueue fun _ _ => 0) := ⟨inv, hcontent⟩
  have hq : (emptyQueue fun _ _ => 0).content
      = pending Packet.encode packets (([] : List (List Chunk)).flatMap bytesOf).length := by
    simp [emptyQueue, pending]
  obtain ⟨loops, hrun, hlen, hloops⟩ :=
    ringRun_remaining cut (List.nil_append _).symm hshows hcap hq
  refine ⟨loops, hrun, hlen, fun k s hk => ?_⟩
  simpa [dispatchedAfter_zero] using hloops k s hk

/-- A packet without a body comes in two pieces. -/
def twoPieces : RingCut [⟨cmd_HEARTBEAT_DC_DSM, [], by decide, by decide⟩] where
  fills := [[⟨[74, 6, 0], by decide, by decide⟩], [⟨[0], by decide, by decide⟩]]
  ordered := by decide
  nonempty := by decide
  small := by decide

/-- Its ring starts next to the right edge. -/
theorem ring_framing_twoPieces :
    let b : CircularBuff := ⟨1023998, 1023998, CIR_BUFSIZE, 0, fun _ => 7⟩
    ∃ loops, (∀ loops', RingRun b twoPieces.fills loops' ↔ loops' = loops) ∧
      loops.length = 2 := by
  intro b
  have inv : b.Inv := ⟨by decide, by decide, by decide, by decide⟩
  obtain ⟨loops, hrun, hlen, -⟩ := ring_framing _ twoPieces inv rfl rfl
  exact ⟨loops, hrun, hlen⟩

end ThunderChat.ThreadWorker

import ThunderChat.Server.ChatManager
import ThunderChat.Server.Negotiation

/-!
The handshake of `NegotiationWithManager`, from both ends.

The manager lists a connection when it accepts it and executes packets from then on:
the hello of the new chat server at some time, packets of the others before and after.
What it writes to the new connection is a stream of bytes, each of the answer or
relayed. `Socket::Recv` waits for the stream and calls `recv` once, which hands over a
chunk of at most the size asked for. The chunk is copied into a zeroed `T_PACKET`;
neither its length nor its command is looked at.

* `stream_before`: packets that are not relayed to the connection leave its stream
  alone.
* `correct_iff`: the handshake does what it is for exactly if the answer comes first
  and in one piece.
* `relayed_before_answer`: a broadcast that overtakes the answer is taken for it.
-/

namespace ThunderChat

/-- `iMaxUser` of the `Tcmd_HELLO_DSM_DS` in `data`. -/
def TPacket.maxUser (t : TPacket) : Nat := leNat ((t.data.drop UNIQIDSIZE).take 4)

/-- A chat server's new connection, and the manager when it has been listed there. -/
structure Handshake where
  manager : ChatManager
  connection : ClientChatServer
  listed : connection ∈ manager.chatServers
  uniqId : Nat

namespace Handshake

/-- The manager executes the hello packet of the new connection, or a packet of
another one. -/
inductive Action (h : Handshake) where
  | hello
  | other (c : ClientChatServer) (packet : TPacket) (ne : c.fd ≠ h.connection.fd)

/-- What a byte on the connection belongs to. -/
inductive Origin where
  | answer
  | relayed
  deriving DecidableEq, Repr

variable {h : Handshake}

def Action.perform (m : ChatManager) : h.Action → ChatManager.Dispatch
  | .hello => m.dispatch h.connection (Packet.hello h.uniqId).toTPacket
  | .other c packet _ => m.dispatch c packet

def Action.origin : h.Action → Origin
  | .hello => .answer
  | .other .. => .relayed

/-- The bytes written to the connection, action by action. -/
def stream (m : ChatManager) : List h.Action → List (Origin × UInt8)
  | [] => []
  | a :: rest =>
      let done := a.perform m
      (writesTo h.connection.fd done.writes).flatten.map (a.origin, ·)
        ++ stream done.manager rest

/-- What `recv` hands over: at most as much as there is, and as was asked for. -/
structure Chunk (h : Handshake) (actions : List h.Action) where
  count : Nat
  available : count ≤ (stream h.manager actions).length
  asked : count ≤ PDUHEADERSIZE + 20

/-- How the system calls of `NegotiationWithManager` end. When `recv` returns a chunk the
manager has performed some actions. -/
inductive Course (h : Handshake) where
  | connectFailed | helloSendFailed | helloRecvFailed
  | received (fd : Nat) (actions : List h.Action) (chunk : h.Chunk actions)

/-- The bytes `recv` has taken from the stream. -/
def Course.consumed : h.Course → List (Origin × UInt8)
  | .received _ actions chunk => (stream h.manager actions).take chunk.count
  | _ => []

/-- What the negotiation makes of them. -/
def Course.contact : h.Course → Contact
  | .connectFailed => .connectFailed
  | .helloSendFailed => .helloSendFailed
  | .helloRecvFailed => .helloRecvFailed
  | .received fd actions chunk =>
      let bytes := ((stream h.manager actions).take chunk.count).map Prod.snd
      .answered fd (TPacket.filled bytes).maxUser

/-- The bytes of the manager's answer. -/
def answer (h : Handshake) : List UInt8 :=
  ClientChatServer.helloAck h.manager.dsMaxUser (Packet.hello h.uniqId).toTPacket.uniqId

/-- When a socket is returned, the limit is that of the answer, and the bytes of the
answer, no others, have been taken from the stream. -/
def Correct (course : h.Course) : Prop :=
  ∀ (pid time : Nat) (links : ManagerLinks ChatManager) (fd : Nat),
    let negotiated := links.negotiationWithManager pid ⟨h.manager, time, course.contact⟩
    negotiated.2 = some fd →
      negotiated.1.maxUser = (TPacket.filled h.answer).maxUser ∧
        course.consumed = h.answer.map (Origin.answer, ·)

/-! ### The stream -/

/-- The packet is relayed to the new connection. -/
def Action.Relays : h.Action → Prop
  | .hello => False
  | .other _ packet _ =>
      packet.header.command = cmd_CHAT_BROADCAST ∧ h.connection.isOrigin packet.uniqId = false

/-- Nothing is relayed to the connection before the hello is answered. -/
def AnswerFirst (actions : List h.Action) : Prop :=
  ∃ before after, actions = before ++ .hello :: after ∧ ∀ a ∈ before, ¬ a.Relays

@[simp] theorem length_answer : h.answer.length = PDUHEADERSIZE + 20 := by
  simp [answer, ClientChatServer.helloAck, PDUHEADERSIZE, UNIQIDSIZE]

variable {m : ChatManager} {a : h.Action}

/-- The manager still has the connection as it was listed, and its limit. -/
structure Listed (h : Handshake) (m : ChatManager) : Prop where
  mem : h.connection ∈ m.chatServers
  dsMaxUser : m.dsMaxUser = h.manager.dsMaxUser

/-- A packet from another connection does not change the new one. -/
theorem Listed.other {c : ClientChatServer} {packet : TPacket} (listed : h.Listed m)
    (ne : c.fd ≠ h.connection.fd) : h.Listed (m.dispatch c packet).manager := by
  have hupdate : ∀ c' : ClientChatServer, c'.fd = c.fd → h.Listed (m.update c') := by
    intro c' hfd
    refine ⟨List.mem_map.mpr ⟨h.connection, listed.mem, ?_⟩, listed.dsMaxUser⟩
    rw [if_neg (by rw [hfd]; exact Ne.symm ne)]
  unfold ChatManager.dispatch
  split
  · exact listed
  · split
    · exact hupdate _ rfl
    · split
      · exact listed
      · exact listed

/-- The answer is what a hello puts on the stream. -/
theorem writes_hello (listed : h.Listed m) :
    (writesTo h.connection.fd ((Action.hello : h.Action).perform m).writes).flatten
      = h.answer := by
  have hcommand : (Packet.hello h.uniqId).toTPacket.header.command = cmd_HELLO_DS_DSM := by
    rw [Packet.toTPacket_header]
    rfl
  simp [Action.perform, ChatManager.dispatch, hcommand, cmd_HELLO_DS_DSM, cmd_CHAT_BROADCAST,
    ClientChatServer.workChatServerHello, writesTo, answer, listed.dsMaxUser]

section Other

variable {c : ClientChatServer} {packet : TPacket} {ne : c.fd ≠ h.connection.fd}

/-- A packet that is relayed puts its frame on the stream. -/
theorem writes_of_relays (listed : h.Listed m) (hrelays : (Action.other c packet ne).Relays) :
    writesTo h.connection.fd ((Action.other c packet ne).perform m).writes = [packet.frame] := by
  obtain ⟨hbroadcast, horigin⟩ := hrelays
  simp only [Action.perform, ChatManager.dispatch, hbroadcast, if_true]
  rw [ChatManager.writesTo_messageBroadcast listed.mem, horigin]
  rfl

/-- Another connection's packet that is not leaves the stream alone. -/
theorem writes_of_not_relays (listed : h.Listed m)
    (hrelays : ¬ (Action.other c packet ne).Relays) :
    writesTo h.connection.fd ((Action.other c packet ne).perform m).writes = [] := by
  simp only [Action.perform, ChatManager.dispatch]
  split
  · next hbroadcast =>
      have horigin : h.connection.isOrigin packet.uniqId = true := by
        by_contra hfalse
        exact hrelays ⟨hbroadcast, Bool.eq_false_of_not_eq_true hfalse⟩
      rw [ChatManager.writesTo_messageBroadcast listed.mem, horigin]
      rfl
  · split
    · simp [writesTo, ClientChatServer.workChatServerHello, ne]
    · split
      · simp [writesTo, ClientChatServer.workDSMPing, ne]
      · rfl

end Other

/-- A broadcast has bytes. -/
theorem frame_ne_nil {packet : TPacket} (hcommand : packet.header.command = cmd_CHAT_BROADCAST) :
    packet.frame ≠ [] := by
  intro hnil
  rw [TPacket.frame, List.take_eq_nil_iff] at hnil
  rcases hnil with hzero | hempty
  · simp [PDUHEADERSIZE] at hzero
  · rw [TPacket.header, hempty] at hcommand
    cases hcommand

theorem not_answerFirst_nil : ¬ h.AnswerFirst [] := by
  rintro ⟨before, after, heq, _⟩
  exact absurd heq.symm (List.append_ne_nil_of_right_ne_nil _ (List.cons_ne_nil _ _))

theorem answerFirst_hello (rest : List h.Action) : h.AnswerFirst (.hello :: rest) :=
  ⟨[], rest, rfl, fun _ ha => absurd ha List.not_mem_nil⟩

theorem answerFirst_other {c : ClientChatServer} {packet : TPacket} {ne : c.fd ≠ h.connection.fd}
    {rest : List h.Action} : h.AnswerFirst (.other c packet ne :: rest)
      ↔ ¬ (Action.other c packet ne).Relays ∧ h.AnswerFirst rest := by
  constructor
  · rintro ⟨before, after, heq, hbefore⟩
    cases before with
    | nil => cases heq
    | cons first before =>
        cases heq
        exact ⟨hbefore _ List.mem_cons_self, before, after, rfl,
          fun a ha => hbefore a (List.mem_cons_of_mem _ ha)⟩
  · rintro ⟨hfirst, before, after, rfl, hbefore⟩
    refine ⟨_ :: before, after, rfl, ?_⟩
    intro a ha
    rcases List.mem_cons.mp ha with rfl | ha
    · exact hfirst
    · exact hbefore a ha

/-- The stream begins with the answer exactly if nothing is relayed before it. -/
theorem answer_prefix_iff (listed : h.Listed m) {actions : List h.Action} :
    h.answer.map (Origin.answer, ·) <+: stream m actions ↔ h.AnswerFirst actions := by
  induction actions generalizing m with
  | nil =>
      refine ⟨fun hprefix => ?_, fun hfirst => absurd hfirst not_answerFirst_nil⟩
      have hlength := hprefix.length_le
      rw [List.length_map, length_answer] at hlength
      cases hlength
  | cons a rest ih =>
      cases a with
      | hello =>
          refine ⟨fun _ => answerFirst_hello rest, fun _ => ?_⟩
          rw [stream, writes_hello listed]
          exact List.prefix_append _ _
      | other c packet ne =>
          by_cases hrelays : (Action.other c packet ne).Relays
          · -- A relayed byte is at the front.
            obtain ⟨b, bytes, hframe⟩ := List.exists_cons_of_ne_nil (frame_ne_nil hrelays.1)
            obtain ⟨b', bytes', hanswer⟩ : ∃ b' bytes', h.answer = b' :: bytes' :=
              List.exists_cons_of_length_pos (by rw [length_answer]; exact Nat.succ_pos _)
            rw [answerFirst_other, stream, writes_of_relays listed hrelays, hanswer,
              List.flatten_singleton, hframe]
            refine ⟨fun hprefix => ?_, fun hfirst => absurd hrelays hfirst.1⟩
            have hhead := (List.cons_prefix_cons.mp hprefix).1
            cases hhead
          · have hrest : stream m (.other c packet ne :: rest)
                = stream (m.dispatch c packet).manager rest := by
              rw [stream, writes_of_not_relays listed hrelays]
              rfl
            rw [answerFirst_other, hrest, ih (listed.other ne)]
            exact ⟨fun hfirst => ⟨hrelays, hfirst⟩, And.right⟩

/-! ### The outcome -/

theorem listed_start : h.Listed h.manager := ⟨h.listed, rfl⟩

/-- Nothing is claimed of a negotiation that returns no socket. -/
theorem correct_of_not_connects {course : h.Course}
    (hfailed : Negotiation.connects ⟨h.manager, 0, course.contact⟩ = false) :
    h.Correct course := by
  intro pid time links fd negotiated hfd
  cases course with
  | received => cases hfailed
  | connectFailed => cases hfd
  | helloSendFailed => cases hfd
  | helloRecvFailed => cases hfd

/-- A chunk is copied into the packet the limit is read from. -/
theorem correct_received_iff {fd : Nat} {actions : List h.Action} {chunk : h.Chunk actions} :
    h.Correct (.received fd actions chunk)
      ↔ (stream h.manager actions).take chunk.count = h.answer.map (Origin.answer, ·) := by
  constructor
  · intro hcorrect
    exact (hcorrect 0 0 ManagerLinks.start fd rfl).2
  · intro hconsumed pid time links fd' negotiated _
    refine ⟨?_, hconsumed⟩
    have hbytes : ((stream h.manager actions).take chunk.count).map Prod.snd = h.answer := by
      rw [hconsumed, List.map_map]
      exact List.map_id _
    show (TPacket.filled (((stream h.manager actions).take chunk.count).map Prod.snd)).maxUser = _
    rw [hbytes]

/-- The chunk is the answer exactly if it is as long and the answer comes first. -/
theorem take_eq_answer_iff {actions : List h.Action} {chunk : h.Chunk actions} :
    (stream h.manager actions).take chunk.count = h.answer.map (Origin.answer, ·)
      ↔ chunk.count = PDUHEADERSIZE + 20 ∧ h.AnswerFirst actions := by
  rw [← answer_prefix_iff listed_start]
  constructor
  · intro htake
    have hlength := congrArg List.length htake
    rw [List.length_take_of_le chunk.available, List.length_map, length_answer] at hlength
    rw [← htake]
    exact ⟨hlength, List.take_prefix _ _⟩
  · rintro ⟨hcount, hprefix⟩
    rw [hcount, ← h.length_answer, ← List.length_map (f := (Origin.answer, ·))]
    exact (List.prefix_iff_eq_take.mp hprefix).symm

/-- **When the handshake is right.** With a socket returned, the limit is the answer's and
just the answer has been consumed, exactly if nothing was relayed to the new connection
before the answer and `recv` has handed over the size asked for. -/
theorem correct_iff (h : Handshake) (course : h.Course) : h.Correct course
    ↔ ∀ fd actions chunk, course = .received fd actions chunk →
        chunk.count = PDUHEADERSIZE + 20 ∧ h.AnswerFirst actions := by
  cases course with
  | received fd actions chunk =>
      rw [correct_received_iff, take_eq_answer_iff]
      constructor
      · intro hright fd' actions' chunk' heq
        cases heq
        exact hright
      · intro hright
        exact hright fd actions chunk rfl
  | connectFailed => exact iff_of_true (correct_of_not_connects rfl) nofun
  | helloSendFailed => exact iff_of_true (correct_of_not_connects rfl) nofun
  | helloRecvFailed => exact iff_of_true (correct_of_not_connects rfl) nofun

/-- The id before a registration. -/
theorem initial_uniqId_lt : 0 < 2 ^ 64 := Nat.two_pow_pos 64

/-- A manager with one server, and a new one that has not said hello. -/
def newcomer : Handshake where
  manager :=
    { chatServers := [⟨8, .chatServer, 51, by decide⟩, ⟨9, .nothing, 0, initial_uniqId_lt⟩]
      dsMaxUser := 1000
      fds_nodup := by decide }
  connection := ⟨9, .nothing, 0, initial_uniqId_lt⟩
  listed := by decide
  uniqId := 52

/-- The first server's text overtakes the answer to the second. -/
theorem relayed_before_answer : ¬ ∀ (h : Handshake) (course : h.Course), h.Correct course := by
  intro hcorrect
  have hrelayed : (Packet.chatBroadcast 51 [121, 111] (by decide)).toTPacket.uniqId = 51 :=
    Packet.chatBroadcast_uniqId (by decide)
  let text : newcomer.Action :=
    .other ⟨8, .chatServer, 51, by decide⟩
      (Packet.chatBroadcast 51 [121, 111] (by decide)).toTPacket (by decide)
  have hright := hcorrect newcomer (.received 3 [text, .hello]
    ⟨min (stream newcomer.manager [text, .hello]).length (PDUHEADERSIZE + 20),
      Nat.min_le_left _ _, Nat.min_le_right _ _⟩)
  rw [correct_received_iff, take_eq_answer_iff, answerFirst_other] at hright
  refine hright.2.1 ⟨?_, ?_⟩
  · rw [Packet.toTPacket_header]
    rfl
  · rw [hrelayed]
    decide

end Handshake

end ThunderChat

import ThunderChat.Foundation.Transition
import ThunderChat.Server.ChatServer
import Mathlib.Logic.Function.Basic

/-!
The byte streams on a chat server's manager connections.

Any number of `ThreadBroadcaster`s take messages and call
`MessageBroadcastToManagers`, which calls `Socket::Write` for one manager socket
after the other. `Socket::Write` calls `write()` until the frame is out: a short
count goes on with the rest, `EINTR` tries again, any other error returns -1, which
the caller ignores. There is no lock, so the steps of the model are the single
`write()` calls, in any order of the threads and with any results.

A stream is `Framed` while it is a prefix of whole frames of messages that have
been handed in, behind the server's hello frame. A short count followed by an error
leaves half a frame behind, and two threads may write into each other's frames.

* `framed_of_clean`: while no `write()` puts bytes on a connection in the middle of
  another thread's frame and none fails in the middle of its own, every stream
  stays framed.
-/

namespace ThunderChat.ManagerLink

/-- A text in the broadcast queue: it has been taken out of a user's ring. -/
structure UserText where
  fd : Nat
  bytes : List UInt8
  le : bytes.length ≤ CIR_BUFSIZE

/-- The message a text is queued as. -/
def UserText.toMessage (text : UserText) : BroadcastMessage :=
  ⟨.clientChatMessage, text.fd, text.bytes.length, text.bytes⟩

/-- The bytes `MessageBroadcastToManagers` hands to `Socket::Write` for a text. -/
def frameOf (server : ChatServer) (text : UserText) : List UInt8 :=
  (server.broadcastPacket text.toMessage).frame

/-- The bytes a manager connection begins with, from `NegotiationWithManager`. -/
def helloFrame (server : ChatServer) : List UInt8 := (Packet.hello server.uniqId).encode

/-- A `ThreadBroadcaster`: waiting for a message, or in `Socket::Write` with
`written` bytes of the frame behind it and other sockets still to serve. -/
inductive Broadcaster where
  | waiting
  | writing (frame : List UInt8) (written : Nat) (fd : Nat) (sockets : List Nat)

/-- `Socket::Write` is entered for the next socket; a broken one (`m_iFd <= 0`) is
left at once. -/
def Broadcaster.next (frame : List UInt8) : List Nat → Broadcaster
  | [] => .waiting
  | fd :: sockets => if fd = 0 then next frame sockets else .writing frame 0 fd sockets

/-- The result of one `write()`. -/
inductive WriteResult where
  | wrote (count : Nat)
  | eintr
  | error

/-- All threads, the bytes on every connection, and the frames handed in so far. -/
structure State (T : Type) where
  threads : T → Broadcaster
  streams : Nat → List UInt8
  handedIn : List (List UInt8)

/-- A thread takes a text, or its next `write()` returns. -/
inductive Label (T : Type) where
  | begin (t : T) (text : UserText)
  | write (t : T) (result : WriteResult)

variable {T : Type}

/-- All threads wait, and the hello frames are out. -/
def start (server : ChatServer) : State T where
  threads _ := .waiting
  streams fd := if fd ∈ server.chatManagerSockets then helloFrame server else []
  handedIn := []

/-- One step: a text is taken, or one `write()` call returns. -/
def step [DecidableEq T] (server : ChatServer) (s : State T) : Label T → Option (State T)
  | .begin t text =>
      match s.threads t with
      | .waiting => some { s with
          threads := Function.update s.threads t
            (.next (frameOf server text) server.chatManagerSockets)
          handedIn := frameOf server text :: s.handedIn }
      | .writing .. => none
  | .write t result =>
      match s.threads t with
      | .waiting => none
      | .writing frame written fd sockets =>
          match result with
          | .wrote count =>
              if frame.length < written + count then none
              else some { s with
                streams := Function.update s.streams fd
                  (s.streams fd ++ (frame.drop written).take count)
                threads := Function.update s.threads t
                  (if written + count = frame.length then .next frame sockets
                    else .writing frame (written + count) fd sockets) }
          | .eintr => some s
          | .error => some { s with
              threads := Function.update s.threads t (.next frame sockets) }

/-- The thread has put some bytes of its frame on the connection and not all. -/
def MidFrame (s : State T) (t : T) (fd : Nat) : Prop :=
  ∃ frame written sockets, s.threads t = .writing frame written fd sockets ∧ 0 < written

/-- The step does no harm: bytes are put on a connection only while no other thread
is in the middle of a frame there, and no `write()` fails in the middle of one. -/
def Clean (s : State T) : Label T → Prop
  | .begin _ _ => True
  | .write t (.wrote count) => ∀ frame written fd sockets,
      s.threads t = .writing frame written fd sockets → 0 < count →
      ∀ t', t' ≠ t → ¬ MidFrame s t' fd
  | .write _ .eintr => True
  | .write t .error => ∀ fd, ¬ MidFrame s t fd

/-- A frame the server sends: the hello frame or one that has been handed in. -/
def Sent (server : ChatServer) (s : State T) (f : List UInt8) : Prop :=
  IsFrame f ∧ (f = helloFrame server ∨ f ∈ s.handedIn)

/-- A prefix of whole frames. -/
def Framed (server : ChatServer) (s : State T) (stream : List UInt8) : Prop :=
  ∃ frames : List (List UInt8), (∀ f ∈ frames, Sent server s f) ∧ stream <+: frames.flatten

/-! ### What one step does -/

variable {server : ChatServer} {s s' : State T} {t : T} {fd : Nat}

/-- The size of a queued text is the number of its bytes. -/
theorem isFrame_frameOf (server : ChatServer) (text : UserText) :
    IsFrame (frameOf server text) := by
  have hle := text.le
  have hlt : text.bytes.length < 2 ^ 64 := lt_of_le_of_lt hle (by decide)
  exact ChatServer.isFrame_broadcastPacket (toUInt64_natCast hlt)

/-- A thread enters `Socket::Write` with nothing written. -/
theorem Broadcaster.next_eq_writing {frame frame' : List UInt8} {written : Nat}
    {sockets sockets' : List Nat} (h : next frame sockets = .writing frame' written fd sockets') :
    frame' = frame ∧ written = 0 := by
  induction sockets with
  | nil => cases h
  | cons first rest ih =>
      rw [next] at h
      split at h
      · exact ih h
      · cases h
        exact ⟨rfl, rfl⟩

/-- A thread in `Socket::Write` can only be in the middle of the frame it writes. -/
theorem midFrame_iff {frame : List UInt8} {written fd' : Nat} {sockets : List Nat}
    (h : s.threads t = .writing frame written fd' sockets) :
    MidFrame s t fd ↔ fd' = fd ∧ 0 < written := by
  constructor
  · rintro ⟨frame', written', sockets', hthread, hpos⟩
    rw [h] at hthread
    cases hthread
    exact ⟨rfl, hpos⟩
  · rintro ⟨rfl, hpos⟩
    exact ⟨frame, written, sockets, h, hpos⟩

/-- A thread that enters a socket, or none, is not in the middle of a frame. -/
theorem not_midFrame_of_next {frame : List UInt8} {sockets : List Nat}
    (h : s.threads t = .next frame sockets) : ¬ MidFrame s t fd := by
  rintro ⟨frame', written, sockets', hthread, hpos⟩
  rw [h] at hthread
  rw [(Broadcaster.next_eq_writing hthread).2] at hpos
  exact Nat.lt_irrefl 0 hpos

/-- Frames stay frames the server sends while more are handed in. -/
theorem Sent.mono {f : List UInt8} (h : Sent server s f)
    (hhanded : ∀ f ∈ s.handedIn, f ∈ s'.handedIn) : Sent server s' f := by
  obtain ⟨hframe, hhello | hmem⟩ := h
  · exact ⟨hframe, .inl hhello⟩
  · exact ⟨hframe, .inr (hhanded f hmem)⟩

/-- The bytes on one connection: whole frames, or whole frames and the part of the
next one that a single thread has written. -/
inductive OnLine (server : ChatServer) (s : State T) (fd : Nat) : Prop where
  | whole (frames : List (List UInt8)) : (∀ f ∈ frames, Sent server s f) →
      s.streams fd = frames.flatten → (∀ t, ¬ MidFrame s t fd) → OnLine server s fd
  | part (frames : List (List UInt8)) (t : T) (frame : List UInt8) (written : Nat)
      (sockets : List Nat) : (∀ f ∈ frames, Sent server s f) →
      s.threads t = .writing frame written fd sockets → 0 < written →
      s.streams fd = frames.flatten ++ frame.take written →
      (∀ t', t' ≠ t → ¬ MidFrame s t' fd) → OnLine server s fd

/-- The invariant: frames come from texts, and every connection is in order. -/
structure Inv (server : ChatServer) (s : State T) : Prop where
  isFrame : ∀ f ∈ s.handedIn, IsFrame f
  writing : ∀ t frame written fd sockets, s.threads t = .writing frame written fd sockets →
    frame ∈ s.handedIn ∧ written < frame.length
  onLine : ∀ fd, OnLine server s fd

/-- A step that does not touch a connection keeps it in order: its bytes are the same,
and the threads that move are not in the middle of a frame there. -/
theorem OnLine.unmoved (h : OnLine server s fd) (hstream : s'.streams fd = s.streams fd)
    (hhanded : ∀ f ∈ s.handedIn, f ∈ s'.handedIn)
    (hthreads : ∀ t, s'.threads t = s.threads t ∨ ¬ MidFrame s t fd ∧ ¬ MidFrame s' t fd) :
    OnLine server s' fd := by
  have hmid : ∀ t, ¬ MidFrame s t fd → ¬ MidFrame s' t fd := by
    intro t hnot
    rcases hthreads t with hsame | ⟨_, hnot'⟩
    · rintro ⟨frame, written, sockets, hthread, hpos⟩
      exact hnot ⟨frame, written, sockets, hsame ▸ hthread, hpos⟩
    · exact hnot'
  cases h with
  | whole frames hframes hbytes hnone =>
      exact .whole frames (fun f hf => (hframes f hf).mono hhanded) (hstream.trans hbytes)
        fun t => hmid t (hnone t)
  | part frames t frame written sockets hframes hthread hpos hbytes hothers =>
      have hsame : s'.threads t = s.threads t := by
        rcases hthreads t with hsame | ⟨hnot, _⟩
        · exact hsame
        · exact absurd ((midFrame_iff hthread).mpr ⟨rfl, hpos⟩) hnot
      exact .part frames t frame written sockets (fun f hf => (hframes f hf).mono hhanded)
        (hsame.trans hthread) hpos (hstream.trans hbytes) fun t' ht' => hmid t' (hothers t' ht')

/-- With the frame of a thread behind them, the frames are still ones the server
sends. -/
theorem Inv.sent_append (inv : Inv server s) {frames : List (List UInt8)} {frame : List UInt8}
    (hframes : ∀ f ∈ frames, Sent server s f) (hmem : frame ∈ s.handedIn) :
    ∀ f ∈ frames ++ [frame], Sent server s f := by
  intro f hf
  rcases List.mem_append.mp hf with hold | hnew
  · exact hframes f hold
  · rw [List.mem_singleton.mp hnew]
    exact ⟨inv.isFrame frame hmem, .inr hmem⟩

/-- A connection in order is framed. -/
theorem Inv.framed (inv : Inv server s) (fd : Nat) : Framed server s (s.streams fd) := by
  cases inv.onLine fd with
  | whole frames hframes hbytes _ =>
      exact ⟨frames, hframes, hbytes ▸ List.prefix_rfl⟩
  | part frames t frame written sockets hframes hthread _ hbytes _ =>
      have hmem := (inv.writing t frame written fd sockets hthread).1
      refine ⟨frames ++ [frame], inv.sent_append hframes hmem, ?_⟩
      rw [hbytes, List.flatten_append, List.flatten_singleton, List.prefix_append_right_inj]
      exact List.take_prefix written frame

/-- Where a thread goes on with its frame alone, the bytes so far are whole frames and
its own part. -/
theorem OnLine.resumes {frame : List UInt8} {written : Nat} {sockets : List Nat}
    (h : OnLine server s fd) (hthread : s.threads t = .writing frame written fd sockets)
    (halone : ∀ t', t' ≠ t → ¬ MidFrame s t' fd) : ∃ frames : List (List UInt8),
    (∀ f ∈ frames, Sent server s f) ∧ s.streams fd = frames.flatten ++ frame.take written := by
  cases h with
  | whole frames hframes hbytes hnone =>
      have hzero : written = 0 := by
        by_contra hne
        exact hnone t ((midFrame_iff hthread).mpr ⟨rfl, Nat.pos_of_ne_zero hne⟩)
      exact ⟨frames, hframes, by rw [hbytes, hzero, List.take_zero, List.append_nil]⟩
  | part frames t₀ frame₀ written₀ sockets₀ hframes hthread₀ hpos hbytes _ =>
      have heq : t₀ = t := by
        by_contra hne
        exact halone t₀ hne ((midFrame_iff hthread₀).mpr ⟨rfl, hpos⟩)
      subst heq
      rw [hthread] at hthread₀
      cases hthread₀
      exact ⟨frames, hframes, hbytes⟩

/-- A frame is taken up where a socket is entered. -/
theorem writing_next {frame : List UInt8} {sockets : List Nat} (hframe : IsFrame frame)
    {frame' : List UInt8} {written : Nat} {sockets' : List Nat}
    (h : Broadcaster.next frame sockets = .writing frame' written fd sockets') :
    frame' = frame ∧ written < frame'.length := by
  obtain ⟨rfl, rfl⟩ := Broadcaster.next_eq_writing h
  exact ⟨rfl, lt_of_lt_of_le (by decide) hframe.1⟩

section Moved

variable {frame : List UInt8} {sockets : List Nat} (inv : Inv server s)
  (hothers : ∀ t', t' ≠ t → s'.threads t' = s.threads t')
include inv hothers

/-- When one thread moves, the frames of the others stay. -/
theorem Inv.writing_moved (hhanded : ∀ f ∈ s.handedIn, f ∈ s'.handedIn)
    (hself : ∀ frame written fd sockets, s'.threads t = .writing frame written fd sockets →
      frame ∈ s'.handedIn ∧ written < frame.length) :
    ∀ t frame written fd sockets, s'.threads t = .writing frame written fd sockets →
      frame ∈ s'.handedIn ∧ written < frame.length := by
  intro t' frame written fd sockets hthread
  by_cases ht : t' = t
  · subst ht
    exact hself frame written fd sockets hthread
  · rw [hothers t' ht] at hthread
    obtain ⟨hmem, hlt⟩ := inv.writing t' frame written fd sockets hthread
    exact ⟨hhanded frame hmem, hlt⟩

/-- A thread with no frame begun enters the next socket, possibly with a new frame. -/
theorem Inv.moves (hself : s'.threads t = .next frame sockets) (hstreams : s'.streams = s.streams)
    (hhanded : ∀ f ∈ s.handedIn, f ∈ s'.handedIn) (hframes : ∀ f ∈ s'.handedIn, IsFrame f)
    (hmem : frame ∈ s'.handedIn) (hnot : ∀ fd, ¬ MidFrame s t fd) : Inv server s' := by
  refine ⟨hframes, inv.writing_moved hothers hhanded ?_, ?_⟩
  · intro frame' written fd sockets' hthread
    obtain ⟨rfl, hlt⟩ := writing_next (hframes frame hmem) (hself ▸ hthread)
    exact ⟨hmem, hlt⟩
  · intro fd
    apply (inv.onLine fd).unmoved (congrFun hstreams fd) hhanded
    intro t'
    by_cases ht : t' = t
    · subst ht
      exact .inr ⟨hnot fd, not_midFrame_of_next hself⟩
    · exact .inl (hothers t' ht)

/-- On its connection, bytes of a thread that is alone there complete its frame or
continue it. -/
theorem Inv.wrote_here {written count : Nat}
    (hthread : s.threads t = .writing frame written fd sockets)
    (halone : ∀ t', t' ≠ t → ¬ MidFrame s t' fd) (hpos : 0 < count)
    (hself : s'.threads t = if written + count = frame.length then .next frame sockets
      else .writing frame (written + count) fd sockets)
    (hstream : s'.streams fd = s.streams fd ++ (frame.drop written).take count)
    (hhanded : ∀ f ∈ s.handedIn, f ∈ s'.handedIn) : OnLine server s' fd := by
  obtain ⟨frames, hframes, hbytes⟩ := (inv.onLine fd).resumes hthread halone
  have hmem := (inv.writing t frame written fd sockets hthread).1
  have hnow : s'.streams fd = frames.flatten ++ frame.take (written + count) := by
    rw [hstream, hbytes, List.append_assoc, ← List.take_add]
  have halone' : ∀ t', t' ≠ t → ¬ MidFrame s' t' fd := by
    rintro t' ht ⟨frame', written', sockets', hthread', hpos'⟩
    exact halone t' ht ⟨frame', written', sockets', hothers t' ht ▸ hthread', hpos'⟩
  by_cases hdone : written + count = frame.length
  · rw [if_pos hdone] at hself
    refine .whole (frames ++ [frame])
      (fun f hf => (inv.sent_append hframes hmem f hf).mono hhanded) ?_ ?_
    · rw [hnow, hdone, List.take_length, List.flatten_append, List.flatten_singleton]
    · intro t'
      by_cases ht : t' = t
      · subst ht
        exact not_midFrame_of_next hself
      · exact halone' t' ht
  · rw [if_neg hdone] at hself
    have hpos' : 0 < written + count := Nat.add_pos_right written hpos
    exact .part frames t frame (written + count) sockets
      (fun f hf => (hframes f hf).mono hhanded) hself hpos' hnow halone'

/-- On every other connection nothing happens. -/
theorem Inv.wrote_elsewhere {written count fd' : Nat}
    (hthread : s.threads t = .writing frame written fd sockets) (hfd : fd' ≠ fd)
    (hself : s'.threads t = if written + count = frame.length then .next frame sockets
      else .writing frame (written + count) fd sockets)
    (hstream : s'.streams fd' = s.streams fd')
    (hhanded : ∀ f ∈ s.handedIn, f ∈ s'.handedIn) : OnLine server s' fd' := by
  apply (inv.onLine fd').unmoved hstream hhanded
  intro t'
  by_cases ht : t' = t
  · subst ht
    refine .inr ⟨fun hmid => hfd ((midFrame_iff hthread).mp hmid).1.symm, ?_⟩
    split at hself
    · exact not_midFrame_of_next hself
    · exact fun hmid => hfd ((midFrame_iff hself).mp hmid).1.symm
  · exact .inl (hothers t' ht)

/-- A `write()` of a thread that is alone on its connection, or of nothing, goes on
with its frame. -/
theorem Inv.wrote {written count : Nat}
    (hthread : s.threads t = .writing frame written fd sockets)
    (hle : written + count ≤ frame.length)
    (halone : 0 < count → ∀ t', t' ≠ t → ¬ MidFrame s t' fd)
    (hself : s'.threads t = if written + count = frame.length then .next frame sockets
      else .writing frame (written + count) fd sockets)
    (hstream : s'.streams fd = s.streams fd ++ (frame.drop written).take count)
    (hstreams : ∀ fd', fd' ≠ fd → s'.streams fd' = s.streams fd')
    (hhanded : s'.handedIn = s.handedIn) : Inv server s' := by
  obtain ⟨hmem, hlt⟩ := inv.writing t frame written fd sockets hthread
  have hkept : ∀ f ∈ s.handedIn, f ∈ s'.handedIn := fun f hf => hhanded ▸ hf
  refine ⟨hhanded ▸ inv.isFrame, inv.writing_moved hothers hkept ?_, ?_⟩
  · intro frame' written' fd' sockets' hthread'
    rw [hself] at hthread'
    split at hthread'
    · obtain ⟨rfl, hlt'⟩ := writing_next (inv.isFrame frame hmem) hthread'
      exact ⟨hkept _ hmem, hlt'⟩
    · next hmore =>
        cases hthread'
        exact ⟨hkept _ hmem, Nat.lt_of_le_of_ne hle hmore⟩
  · intro fd'
    by_cases hfd : fd' = fd
    · subst hfd
      rcases Nat.eq_zero_or_pos count with rfl | hpos
      · -- Nothing was written, and the thread is where it was.
        rw [List.take_zero, List.append_nil] at hstream
        apply (inv.onLine fd').unmoved hstream hkept
        intro t'
        by_cases ht : t' = t
        · rw [Nat.add_zero, if_neg (Nat.ne_of_lt hlt), ← hthread] at hself
          exact .inl (ht ▸ hself)
        · exact .inl (hothers t' ht)
      · exact inv.wrote_here hothers hthread (halone hpos) hpos hself hstream hkept
    · exact inv.wrote_elsewhere hothers hthread hfd hself (hstreams fd' hfd) hkept

end Moved

theorem inv_start (server : ChatServer) : Inv server (start server : State T) where
  isFrame := by simp [start]
  writing := by simp [start]
  onLine fd := by
    have hnone : ∀ t, ¬ MidFrame (start server : State T) t fd := by
      rintro t ⟨_, _, _, hthread, _⟩
      cases hthread
    by_cases hfd : fd ∈ server.chatManagerSockets
    · refine .whole [helloFrame server] ?_ (by simp [start, hfd]) hnone
      intro f hf
      rw [List.mem_singleton.mp hf]
      exact ⟨Packet.isFrame_encode _, .inl rfl⟩
    · exact .whole [] (by simp) (by simp [start, hfd]) hnone

section Run

variable [DecidableEq T]

/-- A step that does no harm keeps the invariant. -/
theorem Inv.step {label : Label T} (inv : Inv server s) (clean : Clean s label)
    (hstep : step server s label = some s') : Inv server s' := by
  cases label with
  | begin t text =>
      simp only [ManagerLink.step] at hstep
      split at hstep
      · next hthread =>
          cases hstep
          refine inv.moves (fun t' ht => Function.update_of_ne ht ..) (Function.update_self ..) rfl
            (fun f hf => List.mem_cons_of_mem _ hf) ?_ List.mem_cons_self ?_
          · intro f hf
            rcases List.mem_cons.mp hf with rfl | hold
            · exact isFrame_frameOf server text
            · exact inv.isFrame f hold
          · rintro fd ⟨_, _, _, hthread', _⟩
            rw [hthread] at hthread'
            cases hthread'
      · cases hstep
  | write t result =>
      simp only [ManagerLink.step] at hstep
      split at hstep
      · cases hstep
      · next frame written fd sockets hthread =>
          cases result with
          | wrote count =>
              simp only at hstep
              split at hstep
              · cases hstep
              · next hfits =>
                  cases hstep
                  exact inv.wrote (fun t' ht => Function.update_of_ne ht ..) hthread
                    (Nat.not_lt.mp hfits) (clean frame written fd sockets hthread)
                    (Function.update_self ..) (Function.update_self ..)
                    (fun fd' hfd => Function.update_of_ne hfd ..) rfl
          | eintr =>
              cases hstep
              exact inv
          | error =>
              cases hstep
              exact inv.moves (fun t' ht => Function.update_of_ne ht ..) (Function.update_self ..)
                rfl (fun f hf => hf) inv.isFrame
                (inv.writing t frame written fd sockets hthread).1 clean

/-- **Runs that keep the streams framed.** Whatever the threads do and whatever the
`write()` calls return, as long as no call puts bytes on a connection while another
thread is in the middle of a frame there, and no call fails in the middle of one,
every connection carries a prefix of whole frames. -/
theorem framed_of_clean (server : ChatServer)
    (reached : Transition.Reaches (ManagerLink.step server) Clean (start server) s) (fd : Nat) :
    Framed server s (s.streams fd) := by
  have inv : Inv server s := reached.invariant (inv_start server) Inv.step
  exact inv.framed fd

end Run

/-- A server with one manager, on the socket 3. -/
def oneManager : ChatServer where
  uniqId := 21
  clients := [⟨3, .chatManager⟩, ⟨5, .user⟩]
  chatManagerSockets := [3]
  uniqId_lt := by decide
  fds_nodup := by decide

/-- The text "hi" of the user on socket 5. -/
def hi : UserText := ⟨5, [104, 105], by decide⟩

/-- Its frame. -/
theorem frameOf_hi : frameOf oneManager hi = [84, 6, 10, 0, 21, 0, 0, 0, 0, 0, 0, 0, 104, 105] := by
  rw [frameOf, ChatServer.broadcastPacket_eq rfl (by decide), Packet.toTPacket_frame]
  rfl

/-- A single thread is never in another one's way. -/
theorem clean_wrote_unit {s : State Unit} {count : Nat} : Clean s (.write () (.wrote count)) := by
  intro _ _ _ _ _ _ t' ht'
  exact absurd (Subsingleton.elim t' ()) ht'

/-- A thread sends "hi" with one short count and one interruption. -/
theorem framed_hi : ∃ s : State Unit,
    s.streams 3 = helloFrame oneManager ++ frameOf oneManager hi ∧
      Framed oneManager s (s.streams 3) := by
  refine ⟨_, ?_, framed_of_clean oneManager
    (.tail (.write () (.wrote 9))
      (.tail (.write () .eintr)
        (.tail (.write () (.wrote 5))
          (.tail (.begin () hi) .refl trivial rfl) clean_wrote_unit rfl) trivial rfl)
      clean_wrote_unit rfl) 3⟩
  rw [frameOf_hi]
  rfl

/-- Behind the hello frame and the first byte of a frame comes a whole frame: no
frames of this server begin so. -/
theorem not_framed_of_split {frames : List (List UInt8)}
    (hframes : ∀ f ∈ frames, f = helloFrame oneManager ∨ f = frameOf oneManager hi) :
    ¬ helloFrame oneManager ++ 84 :: frameOf oneManager hi <+: frames.flatten := by
  have hhello : helloFrame oneManager = [10, 7, 8, 0, 21, 0, 0, 0, 0, 0, 0, 0] := rfl
  rw [hhello, frameOf_hi] at hframes ⊢
  intro hprefix
  -- The first frame can only be the hello frame, and no frame begins with two bytes 84.
  cases frames with
  | nil => simp at hprefix
  | cons first rest =>
      rcases hframes first List.mem_cons_self with rfl | rfl
      · cases rest with
        | nil => simp at hprefix
        | cons second rest =>
            rcases hframes second (by simp) with rfl | rfl <;> simp at hprefix
      · simp at hprefix

/-- A short count of one byte and an error, then the whole second frame: the manager
sees a header that begins one byte too early. -/
theorem short_write_breaks : ∃ s : State Unit,
    Transition.run (step oneManager) (start oneManager)
      [.begin () hi, .write () (.wrote 1), .write () .error,
        .begin () hi, .write () (.wrote 14)] = some s ∧ ¬ Framed oneManager s (s.streams 3) := by
  refine ⟨_, rfl, ?_⟩
  rintro ⟨frames, hframes, hprefix⟩
  apply not_framed_of_split ?_ hprefix
  intro f hf
  rcases (hframes f hf).2 with hhello | hmem
  · exact .inl hhello
  · rcases List.mem_cons.mp hmem with hlast | hfirst
    · exact .inr hlast
    · exact .inr (List.mem_singleton.mp hfirst)

end ThunderChat.ManagerLink

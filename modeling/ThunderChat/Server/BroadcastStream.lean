import ThunderChat.Server.BroadcastOrder

/-!
What a user reads from its socket.

`sent` in `Broadcast.lean` says how much of which message has been written to whom. Here the
bytes written to a connection are recorded in the order of the `write`s, whatever the number
of broadcasters; with a single one they are the messages in the order of the queue.

* `echoless_of_reaches`: no user is written its own messages.
* `wire_of_reaches`: with a single broadcaster, the bytes on a socket are those of the first
  message, then those of the second, and so on.
* `stream_of_reaches`: so a user reads, from the time it is listed on, what the others say:
  each message once, whole and in the order of the queue.
-/

namespace ThunderChat.Broadcast

open Transition

variable {B : Type} {s s' : State B} {e : Entry}

/-! ### No echo -/

/-- No user in the list has been, or is to be, written a message of its own. -/
structure Echoless (s : State B) : Prop where
  introduced : ∀ m ∈ s.messages, m.sender ∈ s.introduced
  socketFd : ∀ m ∈ s.messages, ∀ e ∈ s.lstClient, e.conn = m.sender → e.fd = m.message.socketFd
  unsent : ∀ m ∈ s.messages, ∀ e ∈ s.lstClient, e.conn = m.sender → s.sent m.id e.conn = []
  targets : ∀ b m mark targets left, s.tasks b = .sending m mark targets left →
    m.message.socketFd ∉ targets

theorem echoless_start : Echoless (start : State B) := by
  refine ⟨?_, ?_, ?_, ?_⟩
  · intro m hm
    cases hm
  · intro m hm
    cases hm
  · intro m hm
    cases hm
  · intro b m mark targets left hb
    cases hb

/-- Two entries of one connection have one descriptor. -/
theorem Inv.fd_eq (h : Inv s) {e' : Entry} (he : e ∈ s.lstClient) (he' : e' ∈ s.lstClient)
    (hconn : e.conn = e'.conn) : e.fd = e'.fd :=
  h.fds_inj e.fd e'.fd e'.conn (hconn ▸ (h.listed e he).1) (h.listed e' he').1

variable [DecidableEq B]

/-- A broadcaster goes on with other targets. -/
theorem Echoless.targets_put (h : Echoless s) {b : B} {task : Task}
    (htask : ∀ m mark targets left, task = .sending m mark targets left →
      m.message.socketFd ∉ targets) :
    ∀ b' m mark targets left, Function.update s.tasks b task b' = .sending m mark targets left →
      m.message.socketFd ∉ targets := by
  intro b' m mark targets left hb'
  by_cases hbb : b' = b
  · rw [hbb, Function.update_self] at hb'
    exact htask m mark targets left hb'
  · rw [Function.update_of_ne hbb] at hb'
    exact h.targets b' m mark targets left hb'

omit [DecidableEq B] in
/-- Its sender's own number is none of the targets of a message. -/
theorem socketFd_notMem_targets (m : Envelope) :
    m.message.socketFd ∉ s.getBroadcastTargets m.message := by
  intro hmem
  obtain ⟨e, he, hfd⟩ := List.mem_map.mp hmem
  have hne := (List.mem_filter.mp he).2
  simp [hfd] at hne

theorem Echoless.step {label : Label B} (hinv : Inv s) (h : Echoless s)
    (hstep : step s label = some s') : Echoless s' := by
  cases steps_of_step hstep with
  | accept _ | close _ => exact ⟨h.introduced, h.socketFd, h.unsent, h.targets⟩
  | @list new hfd hnew =>
      -- The new client's connection has sent nothing yet.
      have hold : ∀ m ∈ s.messages, ∀ e ∈ s.lstClient ++ [new], e.conn = m.sender →
          e ∈ s.lstClient := by
        intro m hm e he hconn
        rcases List.mem_append.mp he with hmem | hmem
        · exact hmem
        · rw [List.mem_singleton.mp hmem] at hconn
          exact absurd (hconn ▸ h.introduced m hm) hnew
      refine ⟨fun m hm => List.mem_cons_of_mem _ (h.introduced m hm), ?_, ?_, h.targets⟩
      · exact fun m hm e he hconn => h.socketFd m hm e (hold m hm e he hconn) hconn
      · exact fun m hm e he hconn => h.unsent m hm e (hold m hm e he hconn) hconn
  | unlist _ =>
      refine ⟨h.introduced, fun m hm e he => h.socketFd m hm e (List.mem_of_mem_filter he),
        fun m hm e he => h.unsent m hm e (List.mem_of_mem_filter he), h.targets⟩
  | @enqueue sender message he hfd _ =>
      refine ⟨?_, ?_, ?_, h.targets⟩
      · refine List.forall_mem_append.mpr ⟨h.introduced, List.forall_mem_singleton.mpr ?_⟩
        exact (hinv.listed sender he).2
      · refine List.forall_mem_append.mpr ⟨h.socketFd, List.forall_mem_singleton.mpr ?_⟩
        intro e he' hconn
        exact (hinv.fd_eq he' he hconn).trans hfd.symm
      · refine List.forall_mem_append.mpr ⟨h.unsent, List.forall_mem_singleton.mpr ?_⟩
        intro e _ _
        exact hinv.fresh _ _ hinv.taken_le
  | dequeue _ _ =>
      exact ⟨h.introduced, h.socketFd, h.unsent,
        h.targets_put fun m mark targets left heq => by cases heq⟩
  | finish _ =>
      exact ⟨h.introduced, h.socketFd, h.unsent,
        h.targets_put fun m mark targets left heq => by cases heq⟩
  | @snapshot b m hb =>
      refine ⟨h.introduced, h.socketFd, h.unsent, h.targets_put ?_⟩
      intro m' mark targets left heq
      cases heq
      exact socketFd_notMem_targets m
  | @write b n m mark fd rest left hb hleft hn =>
      have htargets := h.targets b m mark (fd :: rest) left hb
      refine ⟨h.introduced, h.socketFd, ?_, h.targets_put ?_⟩
      · intro m' hm' e he hconn
        -- A `write` to the sender's own number would have it among the targets.
        refine (if_neg ?_).trans (h.unsent m' hm' e he hconn)
        rintro ⟨hid, hnow⟩
        have hm := (hinv.held b m (by rw [hb, Task.envelope])).1
        have hmm : m' = m := hinv.eq_of_id hm' hm hid
        have hfd : e.fd = fd := hinv.fds_inj e.fd fd e.conn (hinv.listed e he).1 hnow
        refine htargets ?_
        rw [← hmm, ← h.socketFd m' hm' e he hconn, hfd]
        exact List.mem_cons_self
      · intro m' mark' targets' left' heq
        cases heq
        exact htargets
  | @fail b m mark fd rest left hb _ =>
      refine ⟨h.introduced, h.socketFd, h.unsent, h.targets_put ?_⟩
      intro m' mark' targets' left' heq
      cases heq
      exact fun hmem => h.targets b _ _ _ _ hb (List.mem_cons_of_mem _ hmem)
  | @next b m mark fd rest hb =>
      refine ⟨h.introduced, h.socketFd, h.unsent, h.targets_put ?_⟩
      intro m' mark' targets' left' heq
      cases heq
      exact fun hmem => h.targets b _ _ _ _ hb (List.mem_cons_of_mem _ hmem)

theorem echoless_of_reaches {meets : State B → Label B → Prop}
    (h : Reaches Broadcast.step meets (start : State B) s) : Echoless s := by
  induction h with
  | refl => exact echoless_start
  | tail label hreaches _ hstep ih => exact ih.step (inv_of_reaches hreaches) hstep

/-- **No echo.** Whatever the threads and the kernel do with the descriptors, nothing of a
message has been written to the connection that has sent it, as long as it is listed. -/
theorem unsent_to_sender (h : Reaches Broadcast.step (fun _ _ => True) (start : State B) s)
    {m : Envelope} (hm : m ∈ s.messages) (he : e ∈ s.lstClient) (hsender : e.conn = m.sender) :
    s.sent m.id e.conn = [] :=
  (echoless_of_reaches h).unsent m hm e he hsender

/-- A user leaves when it has become a target, and the next one, who sends a text too, gets
its number. -/
def numberReused : List (Label Unit) :=
  [.accept 83 .user, .list ⟨⟨0, .user⟩, 83⟩, .accept 84 .user, .list ⟨⟨1, .user⟩, 84⟩,
    .enqueue ⟨⟨0, .user⟩, 83⟩ (letter.message 83), .dequeue (), .snapshot (),
    .unlist ⟨⟨1, .user⟩, 84⟩, .close 84, .accept 84 .user, .list ⟨⟨2, .user⟩, 84⟩,
    .enqueue ⟨⟨2, .user⟩, 84⟩ (letter.message 84), .write () 1, .next (), .finish (),
    .dequeue (), .snapshot (), .write () 1]

/-- It is written the text that was not meant for it, but not its own. -/
theorem unsent_to_sender_reused :
    ∃ s : State Unit, run Broadcast.step start numberReused = some s ∧
      s.sent 0 ⟨2, .user⟩ = letter.bytes ∧ s.sent 1 ⟨0, .user⟩ = letter.bytes ∧
      s.sent 1 ⟨2, .user⟩ = [] := by
  have hreaches : Reaches Broadcast.step (fun _ _ => True) (start : State Unit) _ :=
    reaches_of_run numberReused (fun _ _ _ => trivial) rfl
  exact ⟨_, rfl, by decide, by decide,
    unsent_to_sender (e := ⟨⟨2, .user⟩, 84⟩) hreaches (.tail _ (.head _)) (.tail _ (.head _)) rfl⟩

/-! ### The bytes on a socket -/

/-- The server, the bytes written to each connection so far, and how many messages had been
queued when a connection was listed. -/
structure Wired (B : Type) where
  state : State B
  wire : Connection → List UInt8
  joined : Connection → Nat

/-- What a step writes to a connection. -/
def writtenTo (s : State B) (label : Label B) (c : Connection) : List UInt8 :=
  match label with
  | .write b n =>
      match s.tasks b with
      | .sending _ _ (fd :: _) left => if s.fds fd = some c then left.take n else []
      | _ => []
  | _ => []

/-- When a step lists a connection. -/
def joinedBy (w : Wired B) : Label B → Connection → Nat
  | .list e => Function.update w.joined e.conn w.state.messages.length
  | _ => w.joined

/-- A step, and what it adds to the record. -/
def wiredStep (w : Wired B) (label : Label B) : Option (Wired B) :=
  (Broadcast.step w.state label).map fun state =>
    ⟨state, fun c => w.wire c ++ writtenTo w.state label c, joinedBy w label⟩

/-- Nothing has been written. -/
def wiredStart : Wired B := ⟨start, fun _ => [], fun _ => 0⟩

variable {w w' : Wired B} {label : Label B} {c : Connection}

theorem reaches_of_wired (h : Reaches wiredStep (fun _ _ => True) wiredStart w) :
    Reaches Broadcast.step (fun _ _ => True) start w.state := by
  induction h with
  | refl => exact .refl
  | tail label _ _ hstep ih =>
      obtain ⟨state, hstate, rfl⟩ := Option.map_eq_some_iff.mp hstep
      exact ih.tail label trivial hstate

/-- With a single broadcaster, what it is at is the message taken last. -/
theorem latest_of_reaches [Subsingleton B]
    (h : Reaches Broadcast.step (fun _ _ => True) (start : State B) s) :
    ∀ b m, (s.tasks b).envelope = some m → m.id + 1 = s.taken := by
  induction h with
  | refl =>
      intro b m hb
      cases hb
  | @tail s _ label hreaches _ hstep ih =>
      have hinv := inv_of_reaches hreaches
      rcases taken_of_step hinv hstep with ⟨b, next, -, hnext, rfl⟩ | ⟨htaken, -, htasks⟩
      · intro b' m hb'
        obtain rfl := Subsingleton.elim b' b
        have hm : (Function.update s.tasks b' (.dequeued next) b').envelope = some m := hb'
        rw [Function.update_self] at hm
        cases hm
        exact congrArg (· + 1) (hinv.ids _ _ hnext)
      · intro b m hb
        rw [htaken]
        exact ih b m (htasks b m hb)

theorem wire_of_step [Subsingleton B]
    (h : Reaches Broadcast.step (fun _ _ => True) (start : State B) s)
    (hstep : Broadcast.step s label = some s') (c : Connection) :
    (List.range s'.taken).flatMap (fun i => s'.sent i c)
      = (List.range s.taken).flatMap (fun i => s.sent i c) ++ writtenTo s label c := by
  cases steps_of_step hstep with
  | accept _ | list _ _ | unlist _ | close _ | enqueue _ _ _ | snapshot _ | fail _ _ | next _
  | finish _ => exact (List.append_nil _).symm
  | dequeue _ _ =>
      have hfresh : s.sent s.taken c = [] := (inv_of_reaches h).fresh s.taken c (Nat.le_refl _)
      show (List.range (s.taken + 1)).flatMap (fun i => s.sent i c) = _ ++ []
      rw [List.range_succ, List.flatMap_append, List.flatMap_singleton, hfresh]
  | @write b n m mark fd rest left hb hleft hn =>
      -- The broadcaster is at the last message taken, so the bytes go to the end.
      have hlast : m.id + 1 = s.taken := latest_of_reaches h b m (by rw [hb, Task.envelope])
      have hearlier : ∀ i ∈ List.range m.id, (if i = m.id ∧ s.fds fd = some c then
          s.sent i c ++ left.take n else s.sent i c) = s.sent i c := fun i hi =>
        if_neg fun heq => Nat.ne_of_lt (List.mem_range.mp hi) heq.1
      have hwritten : writtenTo s (.write b n) c
          = if s.fds fd = some c then left.take n else [] := by rw [writtenTo, hb]
      show (List.range s.taken).flatMap (fun i => if i = m.id ∧ s.fds fd = some c then
          s.sent i c ++ left.take n else s.sent i c) = _
      rw [← hlast, List.range_succ, List.flatMap_append, List.flatMap_append,
        List.flatMap_congr hearlier, List.flatMap_singleton, List.flatMap_singleton, hwritten]
      by_cases hnow : s.fds fd = some c
      · simp [hnow]
      · simp [hnow]

/-- **The order on a socket.** With a single broadcaster, what has been written to a
connection is what has been written of the first message, then of the second, and so on. -/
theorem wire_of_reaches [Subsingleton B]
    (h : Reaches wiredStep (fun _ _ => True) (wiredStart : Wired B) w) (c : Connection) :
    w.wire c = (List.range w.state.taken).flatMap fun i => w.state.sent i c := by
  induction h with
  | refl => rfl
  | tail label hreaches _ hstep ih =>
      obtain ⟨state, hstate, rfl⟩ := Option.map_eq_some_iff.mp hstep
      rw [wire_of_step (reaches_of_wired hreaches) hstate c, ← ih]

/-! ### From the time a user is listed on -/

/-- A user in the list is in the audience of each message that has been queued since it was
listed, its own apart. -/
theorem audience_of_reaches (h : Reaches wiredStep (fun _ _ => True) (wiredStart : Wired B) w) :
    ∀ e ∈ w.state.lstClient, e.conn.type = .user → ∀ m ∈ w.state.messages,
      w.joined e.conn ≤ m.id → m.sender ≠ e.conn → e ∈ m.audience := by
  induction h with
  | refl =>
      intro e he
      cases he
  | @tail w _ label hreaches _ hstep ih =>
      obtain ⟨state, hstate, rfl⟩ := Option.map_eq_some_iff.mp hstep
      have hinv := inv_of_reaches (reaches_of_wired hreaches)
      cases steps_of_step hstate with
      | accept _ | close _ | dequeue _ _ | snapshot _ | write _ _ _ | fail _ _ | next _
      | finish _ => exact ih
      | unlist _ => exact fun e he => ih e (List.mem_of_mem_filter he)
      | @list new hfd hnew =>
          intro e he huser m hm hjoined hsender
          rcases List.mem_append.mp he with hold | hmem
          · have hne : e.conn ≠ new.conn := by
              intro heq
              exact hnew (heq ▸ (hinv.listed e hold).2)
            have hsame : Function.update w.joined new.conn w.state.messages.length e.conn
                = w.joined e.conn := Function.update_of_ne hne _ _
            exact ih e hold huser m hm (hsame ▸ hjoined) hsender
          · -- Nothing has been queued since the new client was listed.
            rw [List.mem_singleton.mp hmem] at hjoined
            have hjoin : Function.update w.joined new.conn w.state.messages.length new.conn
                ≤ m.id := hjoined
            rw [Function.update_self] at hjoin
            obtain ⟨i, hi⟩ := List.mem_iff_getElem?.mp hm
            rw [hinv.ids i m hi] at hjoin
            exact absurd (List.getElem?_eq_some_iff.mp hi).1 (Nat.not_lt.mpr hjoin)
      | @enqueue sender message he hfd _ =>
          intro e he' huser
          refine List.forall_mem_append.mpr ⟨ih e he' huser, List.forall_mem_singleton.mpr ?_⟩
          intro _ hsender
          refine List.mem_filter.mpr ⟨he', ?_⟩
          simpa [huser] using Ne.symm hsender

omit [DecidableEq B] in
/-- What has been written of a message to a user that stays is a prefix of it, and all of it
if no broadcaster is at it any more. -/
theorem prefix_sent (hinv : Inv s) {m : Envelope} (hm : m ∈ s.messages) (htaken : m.id < s.taken)
    (he : s.Stays m e) (hok : (m.id, e.conn) ∉ s.failed) :
    s.sent m.id e.conn <+: m.message.bytes ∧
      ((∀ b, (s.tasks b).envelope ≠ some m) → s.sent m.id e.conn = m.message.bytes) := by
  have hall : s.Settled m e → s.sent m.id e.conn = m.message.bytes := fun h => h.resolve_right hok
  by_cases hfin : ∀ b, (s.tasks b).envelope ≠ some m
  · have hsent := hall (hinv.finished m hm ⟨htaken, hfin⟩ e he)
    exact ⟨hsent ▸ List.prefix_rfl, fun _ => hsent⟩
  · refine ⟨?_, fun h => absurd h hfin⟩
    push Not at hfin
    obtain ⟨b, hb⟩ := hfin
    have hworking := hinv.working b
    generalize s.tasks b = task at hb hworking
    cases task with
    | idle => cases hb
    | dequeued m' =>
        cases hb
        rw [hworking e.conn]
        exact List.nil_prefix
    | sending m' mark targets left =>
        cases hb
        have hprogress : Progress s m targets left := hworking
        rcases hprogress.reached e he with hmem | hsettled
        · cases targets with
          | nil => cases hmem
          | cons fd rest =>
              rcases List.mem_cons.mp hmem with hfd | hrest
              · exact ⟨left, hprogress.current e fd rest he rfl hfd⟩
              · rw [hprogress.pending e fd rest he rfl hrest]
                exact List.nil_prefix
        · exact hall hsettled ▸ List.prefix_rfl

/-- Messages of which all but the last are whole. -/
theorem prefix_flatMap {α β : Type} {f g : α → List β} {l : List α}
    (hf : ∀ x ∈ l, f x <+: g x)
    (hwhole : ∀ front x back, l = front ++ x :: back → back ≠ [] → f x = g x) :
    l.flatMap f <+: l.flatMap g := by
  induction l with
  | nil => exact List.prefix_rfl
  | cons x rest ih =>
      obtain ⟨hx, hrest⟩ := List.forall_mem_cons.mp hf
      rw [List.flatMap_cons, List.flatMap_cons]
      by_cases hlast : rest = []
      · subst hlast
        simpa using hx
      · rw [hwhole [] x rest rfl hlast, List.prefix_append_right_inj]
        refine ih hrest fun front y back heq => ?_
        exact hwhole (x :: front) y back (by rw [heq, List.cons_append])

/-- What a user hears: the messages queued since it was listed, its own apart. -/
def Wired.heard (w : Wired B) (e : Entry) : List Envelope :=
  (w.state.messages.drop (w.joined e.conn)).filter fun m => m.sender ≠ e.conn

/-- What a user is to hear of a message. -/
def heardOf (e : Entry) (m : Envelope) : List UInt8 :=
  if m.sender = e.conn then [] else m.message.bytes

omit [DecidableEq B] in
theorem flatMap_heardOf (l : List Envelope) :
    (l.filter fun m => m.sender ≠ e.conn).flatMap (fun m => m.message.bytes)
      = l.flatMap (heardOf e) := by
  induction l with
  | nil => rfl
  | cons m l ih =>
      by_cases hown : m.sender = e.conn
      · simp [heardOf, hown, ← ih]
      · simp [heardOf, hown, ← ih]

omit [DecidableEq B] in
/-- The messages taken have the numbers below `taken`. -/
theorem range_taken (hinv : Inv s) :
    List.range s.taken = (s.messages.take s.taken).map Envelope.id := by
  refine List.ext_getElem ?_ fun i hi hi' => ?_
  · rw [List.length_range, List.length_map, List.length_take_of_le hinv.taken_le]
  · rw [List.length_map, List.length_take] at hi'
    have hget : s.messages[i]? = some s.messages[i] := List.getElem?_eq_getElem _
    rw [List.getElem_range, List.getElem_map, List.getElem_take, hinv.ids i _ hget]

/-- What is known of a message taken since the user was listed. -/
theorem sent_heardOf (h : Reaches wiredStep (fun _ _ => True) (wiredStart : Wired B) w)
    (he : e ∈ w.state.lstClient) (huser : e.conn.type = .user)
    (hok : ∀ i, (i, e.conn) ∉ w.state.failed) {m : Envelope} (hm : m ∈ w.state.messages)
    (htaken : m.id < w.state.taken) (hjoined : w.joined e.conn ≤ m.id) :
    w.state.sent m.id e.conn <+: heardOf e m ∧
      ((∀ b, (w.state.tasks b).envelope ≠ some m) →
        w.state.sent m.id e.conn = heardOf e m) := by
  have hreaches := reaches_of_wired h
  by_cases hown : m.sender = e.conn
  · have hnone := (echoless_of_reaches hreaches).unsent m hm e he hown.symm
    rw [hnone, heardOf, if_pos hown]
    exact ⟨List.prefix_rfl, fun _ => rfl⟩
  · have haudience := audience_of_reaches h e he huser m hm hjoined hown
    rw [heardOf, if_neg hown]
    exact prefix_sent (inv_of_reaches hreaches) hm htaken ⟨he, haudience⟩ (hok m.id)

/-- **What a user reads.** With a single broadcaster: behind what was queued before it was
listed, a user that is connected, and to which no `write` has failed, has been written the
messages of the others, each once and in the order of the queue, up to some byte; and to the
last byte when the queue is empty and the broadcaster idle. -/
theorem stream_of_reaches [Subsingleton B]
    (h : Reaches wiredStep (fun _ _ => True) (wiredStart : Wired B) w)
    (he : e ∈ w.state.lstClient) (huser : e.conn.type = .user)
    (hok : ∀ i, (i, e.conn) ∉ w.state.failed) : ∃ got,
    w.wire e.conn = ((w.state.messages.take w.state.taken).take (w.joined e.conn)).flatMap
        (fun m => w.state.sent m.id e.conn) ++ got ∧
      got <+: (w.heard e).flatMap (fun m => m.message.bytes) ∧
      (w.state.taken = w.state.messages.length → (∀ b, w.state.tasks b = .idle) →
        got = (w.heard e).flatMap fun m => m.message.bytes) := by
  have hreaches := reaches_of_wired h
  have hinv := inv_of_reaches hreaches
  obtain ⟨taken, hl⟩ : ∃ l, l = w.state.messages.take w.state.taken := ⟨_, rfl⟩
  have hget : ∀ i m, taken[i]? = some m → m.id = i ∧ m ∈ w.state.messages ∧
      m.id < w.state.taken := by
    intro i m hi
    rw [hl, List.getElem?_take] at hi
    split at hi
    · next hlt =>
        have hid := hinv.ids i m hi
        exact ⟨hid, List.mem_of_getElem? hi, hid ▸ hlt⟩
    · cases hi
  have hlen : taken.length = w.state.taken := hl ▸ List.length_take_of_le hinv.taken_le
  have hlate : ∀ i m, (taken.drop (w.joined e.conn))[i]? = some m →
      m.id = w.joined e.conn + i ∧ m ∈ w.state.messages ∧ m.id < w.state.taken := by
    intro i m hi
    rw [List.getElem?_drop] at hi
    exact hget _ m hi
  have hsent : ∀ m ∈ taken.drop (w.joined e.conn), w.state.sent m.id e.conn <+: heardOf e m ∧
      ((∀ b, (w.state.tasks b).envelope ≠ some m) →
        w.state.sent m.id e.conn = heardOf e m) := by
    intro m hm
    obtain ⟨i, hi⟩ := List.mem_iff_getElem?.mp hm
    obtain ⟨hid, hmem, hlt⟩ := hlate i m hi
    exact sent_heardOf h he huser hok hmem hlt (hid ▸ Nat.le_add_right _ _)
  refine ⟨(taken.drop (w.joined e.conn)).flatMap fun m => w.state.sent m.id e.conn, ?_, ?_, ?_⟩
  · rw [← hl, ← List.flatMap_append, List.take_append_drop, wire_of_reaches h, range_taken hinv,
      ← hl, List.flatMap_map]
  · rw [Wired.heard, flatMap_heardOf]
    refine List.IsPrefix.trans (prefix_flatMap (fun m hm => (hsent m hm).1) ?_) ?_
    · -- Only the last message taken may still be at the broadcaster.
      intro front m back heq hback
      have hm : m ∈ taken.drop (w.joined e.conn) := heq ▸ List.mem_append_cons_self
      have hindex : (taken.drop (w.joined e.conn))[front.length]? = some m := by simp [heq]
      have hid := (hlate _ m hindex).1
      have hcount := congrArg List.length heq
      rw [List.length_drop, List.length_append, List.length_cons, hlen] at hcount
      have hpos := List.length_pos_iff.mpr hback
      refine (hsent m hm).2 fun b hb => ?_
      have hlast := latest_of_reaches hreaches b m hb
      omega
    · obtain ⟨rest, hrest⟩ : taken.drop (w.joined e.conn)
          <+: w.state.messages.drop (w.joined e.conn) := by
        rw [hl, List.drop_take]
        exact List.take_prefix _ _
      rw [← hrest, List.flatMap_append]
      exact List.prefix_append _ _
  · intro hall hidle
    rw [Wired.heard, flatMap_heardOf, hl, hall, List.take_length]
    rw [hall, List.take_length] at hl
    refine List.flatMap_congr fun m hm => ?_
    refine (hsent m (hl ▸ hm)).2 fun b hb => ?_
    rw [hidle b] at hb
    cases hb

/-- A user has got the text of another one, to the last byte. -/
theorem stream_after_one :
    ∃ w : Wired Unit,
      run wiredStep wiredStart [.accept 83 .user, .list ⟨⟨0, .user⟩, 83⟩, .accept 84 .user,
        .list ⟨⟨1, .user⟩, 84⟩, .enqueue ⟨⟨0, .user⟩, 83⟩ (letter.message 83), .dequeue (),
        .snapshot (), .write () 1, .next (), .finish ()] = some w ∧
      w.wire ⟨1, .user⟩ = letter.bytes := by
  have hreaches : Reaches wiredStep (fun _ _ => True) (wiredStart : Wired Unit) _ :=
    reaches_of_run [.accept 83 .user, .list ⟨⟨0, .user⟩, 83⟩, .accept 84 .user,
      .list ⟨⟨1, .user⟩, 84⟩, .enqueue ⟨⟨0, .user⟩, 83⟩ (letter.message 83), .dequeue (),
      .snapshot (), .write () 1, .next (), .finish ()] (fun _ _ _ => trivial) rfl
  obtain ⟨got, hwire, -, hall⟩ := stream_of_reaches (e := ⟨⟨1, .user⟩, 84⟩) hreaches
    (.tail _ (.head _)) rfl fun _ => List.not_mem_nil
  refine ⟨_, rfl, hwire.trans ?_⟩
  rw [hall rfl fun _ => rfl]
  rfl

end ThunderChat.Broadcast

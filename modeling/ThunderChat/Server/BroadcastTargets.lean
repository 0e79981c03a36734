import ThunderChat.Server.Broadcast

/-!
Who the targets of a broadcast are by the time they are written to.

`GetBroadcastTargets` returns descriptors, and they are written to after the lock has been
released. A user that is connected all the time is found under its descriptor, but by then
the descriptor of a user that has left may be that of a new connection. And a user whose
socket takes no more at that moment is passed over, with what is left of the message.

* `meant_of_reaches`: as long as no number that a broadcaster has still to write to is given
  away, and no `write` to a user that stays fails, the users that stay get every message, and
  no connection gets any of a message that was accepted after its snapshot.
* `not_meant_of_write`, `not_meant_of_fail`: otherwise such a connection gets it with the next
  `write`, and such a user does not.
-/

namespace ThunderChat.Broadcast

open Transition

/-- The descriptors the broadcaster has still to write to. -/
def Task.unwritten : Task → List Nat
  | .sending _ _ (_ :: rest) [] => rest
  | .sending _ _ targets _ => targets
  | _ => []

/-- The number of a new connection is none that is still to be written to, and no `write` to a
user that stays fails. -/
def Undisturbed {B : Type} (s : State B) : Label B → Prop
  | .accept fd _ => ∀ b, fd ∉ (s.tasks b).unwritten
  | .fail b => ∀ m mark fd rest left, s.tasks b = .sending m mark (fd :: rest) left →
      ∀ e, s.Stays m e → e.fd ≠ fd
  | _ => True

/-- The targets of broadcasts are connections: who stays is still among the targets of a
message, or has got all of it, and nobody has got any of it that came after the snapshot. -/
structure Meant {B : Type} (s : State B) : Prop where
  pending : ∀ b m mark targets left, s.tasks b = .sending m mark targets left →
    ∀ e, s.Stays m e → e.fd ∈ targets ∨ s.Written m e
  finished : ∀ m ∈ s.messages, s.Finished m → ∀ e, s.Stays m e → s.Written m e
  older : ∀ b m mark targets left, s.tasks b = .sending m mark targets left →
    ∀ c, s.sent m.id c ≠ [] → c.number < mark

/-- What is known of a broadcaster: the connections it writes to, and those it has written
to, are older than its snapshot. -/
def State.Older {B : Type} (s : State B) : Task → Prop
  | .sending m mark targets left =>
      (∀ fd ∈ (Task.sending m mark targets left).unwritten, ∀ c, s.fds fd = some c →
        c.number < mark) ∧
      ∀ c, s.sent m.id c ≠ [] → c.number < mark
  | _ => True

variable {B : Type} {s s' : State B} {m : Envelope} {mark fd : Nat} {targets rest : List Nat}
  {left : List UInt8}

theorem unwritten_cons (h : left ≠ []) :
    (Task.sending m mark (fd :: rest) left).unwritten = fd :: rest := by
  cases left with
  | nil => exact absurd rfl h
  | cons x left => rfl

theorem unwritten_subset :
    (Task.sending m mark targets left).unwritten ⊆ targets := by
  cases targets with
  | nil =>
      cases left with
      | nil => exact List.Subset.refl _
      | cons x left => exact List.Subset.refl _
  | cons fd rest =>
      cases left with
      | nil => exact List.subset_cons_self _ _
      | cons x left => exact List.Subset.refl _

theorem subset_unwritten :
    rest ⊆ (Task.sending m mark (fd :: rest) left).unwritten := by
  cases left with
  | nil => exact List.Subset.refl _
  | cons x left => exact List.subset_cons_self _ _

/-- Nothing is written of a broadcaster's message, and no number it has still to write to
is given away. -/
theorem State.Older.mono {task : Task} (h : s.Older task)
    (hfds : ∀ fd ∈ task.unwritten, ∀ c, s'.fds fd = some c → s.fds fd = some c)
    (hsent : ∀ m, task.envelope = some m → s'.sent m.id = s.sent m.id) : s'.Older task := by
  cases task with
  | idle => trivial
  | dequeued m => trivial
  | sending m mark targets left =>
      obtain ⟨hunwritten, hwritten⟩ := h
      constructor
      · intro fd hfd c hc
        exact hunwritten fd hfd c (hfds fd hfd c hc)
      · intro c hc
        rw [hsent m rfl] at hc
        exact hwritten c hc

variable [DecidableEq B] {b : B}

/-- A broadcaster goes on. Nothing is written of another's message. -/
theorem older_put (h : ∀ b, s.Older (s.tasks b)) {task : Task}
    {sent : Nat → Connection → List UInt8} {taken : Nat} {failed : List (Nat × Connection)}
    (hsent : ∀ b' m', b' ≠ b → (s.tasks b').envelope = some m' → sent m'.id = s.sent m'.id)
    (hnew : State.Older { s.put b task with sent := sent, taken := taken, failed := failed }
      task) :
    ∀ b', State.Older { s.put b task with sent := sent, taken := taken, failed := failed }
      (Function.update s.tasks b task b') := by
  refine (Function.forall_update_iff s.tasks fun _ => State.Older _).mpr ⟨hnew, ?_⟩
  intro b' hbb
  exact (h b').mono (fun _ _ _ hc => hc) fun m' hm' => hsent b' m' hbb hm'

/-- The snapshot is taken of open connections. -/
theorem older_snapshot (hinv : Inv s) (h : ∀ b, s.Older (s.tasks b))
    (hb : s.tasks b = .dequeued m) :
    ∀ b', State.Older
      (s.put b (.sending m s.accepted (s.getBroadcastTargets m.message) m.message.bytes))
      (Function.update s.tasks b
        (.sending m s.accepted (s.getBroadcastTargets m.message) m.message.bytes) b') := by
  apply older_put h (fun _ _ _ _ => rfl)
  constructor
  · intro fd _ c hc
    exact hinv.fds_lt fd c hc
  · intro c hc
    have hunsent := hinv.working b
    rw [hb] at hunsent
    exact absurd (hunsent c) hc

/-- `write` goes to a connection that is older than the snapshot. -/
theorem older_write (hinv : Inv s) (h : ∀ b, s.Older (s.tasks b))
    (hb : s.tasks b = .sending m mark (fd :: rest) left) (hleft : left ≠ []) (n : Nat) :
    ∀ b', State.Older { s.put b (.sending m mark (fd :: rest) (left.drop n)) with
        sent := fun i c =>
          if i = m.id ∧ s.fds fd = some c then s.sent i c ++ left.take n else s.sent i c }
      (Function.update s.tasks b (.sending m mark (fd :: rest) (left.drop n)) b') := by
  have hm : (s.tasks b).envelope = some m := by rw [hb, Task.envelope]
  have hold := h b
  rw [hb] at hold
  obtain ⟨hunwritten, hwritten⟩ := hold
  rw [unwritten_cons hleft] at hunwritten
  apply older_put h
  · intro b' m' hbb hm'
    funext c
    exact if_neg fun hc => hinv.id_ne hm hm' hbb hc.1
  · constructor
    · intro fd' hfd' c hc
      exact hunwritten fd' (unwritten_subset hfd') c hc
    · intro c hc
      by_cases hnow : s.fds fd = some c
      · exact hunwritten fd List.mem_cons_self c hnow
      · exact hwritten c fun hnil => hc ((if_neg fun h => hnow h.2).trans hnil)

/-- The first target is done with. -/
theorem older_advance (h : ∀ b, s.Older (s.tasks b))
    (hb : s.tasks b = .sending m mark (fd :: rest) left) (failed : List (Nat × Connection)) :
    ∀ b', State.Older { s.put b (.sending m mark rest m.message.bytes) with failed := failed }
      (Function.update s.tasks b (.sending m mark rest m.message.bytes) b') := by
  have hold := h b
  rw [hb] at hold
  obtain ⟨hunwritten, hwritten⟩ := hold
  apply older_put h (fun _ _ _ _ => rfl)
  refine ⟨?_, hwritten⟩
  intro fd' hfd' c hc
  exact hunwritten fd' (subset_unwritten (unwritten_subset hfd')) c hc

theorem older_of_step {label : Label B} (hinv : Inv s) (h : ∀ b, s.Older (s.tasks b))
    (hmeets : Undisturbed s label) (hstep : step s label = some s') :
    ∀ b, s'.Older (s'.tasks b) := by
  cases steps_of_step hstep with
  | @accept fd _ _ =>
      refine fun b => (h b).mono ?_ (fun _ _ => rfl)
      intro fd' hfd' c hc
      have hne : fd' ≠ fd := fun hff => hmeets b (hff ▸ hfd')
      exact (Function.update_of_ne hne _ _).symm.trans hc
  | list _ _ | unlist _ | enqueue _ _ _ =>
      exact fun b => (h b).mono (fun _ _ _ hc => hc) (fun _ _ => rfl)
  | close _ => exact fun b => (h b).mono (fun _ _ _ hc => open_of_closed hc) (fun _ _ => rfl)
  | snapshot hb => exact older_snapshot hinv h hb
  | write hb hleft _ => exact older_write hinv h hb hleft _
  | fail hb _ => exact older_advance h hb _
  | next hb => exact older_advance h hb s.failed
  | dequeue _ _ | finish _ => exact older_put h (fun _ _ _ _ => rfl) trivial

theorem older_of_reaches (h : Reaches step Undisturbed start s) : ∀ b : B, s.Older (s.tasks b) := by
  induction h with
  | refl => exact fun _ => trivial
  | tail label hreaches hmeets hstep ih =>
      exact older_of_step (inv_of_reaches hreaches) ih hmeets hstep

/-! ### The users that stay -/

/-- No `write` to a user that stays has failed. -/
structure Unfailed {B : Type} (s : State B) : Prop where
  taken : ∀ p ∈ s.failed, p.1 < s.taken
  stays : ∀ m ∈ s.messages, ∀ e, s.Stays m e → (m.id, e.conn) ∉ s.failed

omit [DecidableEq B] in
/-- A user that is on the list now has stayed if it is in a message's audience. -/
theorem stays_of_list (hinv : Inv s) {e : Entry} (hnew : e.conn ∉ s.introduced)
    (hm : m ∈ s.messages) {e' : Entry} (he' : e' ∈ s.lstClient ++ [e]) (haudience : e' ∈ m.audience) :
    s.Stays m e' := by
  rcases List.mem_append.mp he' with hold | hsingle
  · exact ⟨hold, haudience⟩
  · rw [List.mem_singleton.mp hsingle] at haudience
    exact absurd (hinv.audience m hm e haudience).2.2 hnew

/-- A `write` fails to a descriptor that is no user's that stays. -/
theorem Unfailed.fail (hinv : Inv s) (h : Unfailed s)
    (hb : s.tasks b = .sending m mark (fd :: rest) left) (hfd : ∀ e, s.Stays m e → e.fd ≠ fd) :
    Unfailed { s.put b (.sending m mark rest m.message.bytes) with
      failed := match s.fds fd with
        | some c => (m.id, c) :: s.failed
        | none => s.failed } := by
  have hheld := hinv.held b m (by rw [hb, Task.envelope])
  cases hopen : s.fds fd with
  | none => exact ⟨h.taken, h.stays⟩
  | some c =>
      refine ⟨List.forall_mem_cons.mpr ⟨hheld.2, h.taken⟩, fun m' hm' e he hmem => ?_⟩
      rcases List.mem_cons.mp hmem with heq | hold
      · obtain ⟨hid, rfl⟩ := Prod.mk.inj heq
        obtain rfl := hinv.eq_of_id hm' hheld.1 hid
        exact hfd e he ((hinv.conn_iff he fd).mp hopen)
      · exact h.stays m' hm' e he hold

theorem Unfailed.step {label : Label B} (hinv : Inv s) (h : Unfailed s)
    (hmeets : Undisturbed s label) (hstep : step s label = some s') : Unfailed s' := by
  cases steps_of_step hstep with
  | accept _ | close _ | snapshot _ | write _ _ _ | next _ | finish _ => exact ⟨h.taken, h.stays⟩
  | list _ hnew =>
      refine ⟨h.taken, fun m hm e he => ?_⟩
      exact h.stays m hm e (stays_of_list hinv hnew hm he.1 he.2)
  | unlist _ =>
      refine ⟨h.taken, fun m hm e he => ?_⟩
      exact h.stays m hm e ⟨List.mem_of_mem_filter he.1, he.2⟩
  | enqueue _ _ _ =>
      refine ⟨h.taken, List.forall_mem_append.mpr ⟨h.stays, ?_⟩⟩
      refine List.forall_mem_singleton.mpr fun e _ hmem => ?_
      -- What has failed is of messages that have been taken.
      exact absurd (h.taken _ hmem) (Nat.not_lt.mpr hinv.taken_le)
  | dequeue _ _ => exact ⟨fun p hp => Nat.lt_succ_of_lt (h.taken p hp), h.stays⟩
  | fail hb _ => exact h.fail hinv hb (hmeets _ _ _ _ _ hb)

theorem unfailed_of_reaches (h : Reaches step Undisturbed (start : State B) s) : Unfailed s := by
  induction h with
  | refl => exact ⟨nofun, nofun⟩
  | tail label hreaches hmeets hstep ih => exact ih.step (inv_of_reaches hreaches) hmeets hstep

/-- Where the number of the first target is that of a connection that came after the snapshot,
the next bytes go to it. -/
theorem not_meant_of_write {n : Nat} {c : Connection}
    (hb : s.tasks b = .sending m mark (fd :: rest) left) (hc : s.fds fd = some c)
    (hlater : mark ≤ c.number) (hn : 0 < n) (hstep : step s (.write b n) = some s') :
    ¬ Meant s' := by
  intro hmeant
  cases steps_of_step hstep with
  | write hb' hleft _ =>
      obtain ⟨rfl, rfl, hcons, rfl⟩ := Task.sending.inj (hb.symm.trans hb')
      obtain ⟨rfl, rfl⟩ := List.cons.inj hcons
      refine Nat.not_lt.mpr hlater (hmeant.older b m mark _ _ (Function.update_self ..) c ?_)
      have hbytes : left.take n ≠ [] := by
        rw [Ne, List.take_eq_nil_iff, not_or]
        exact ⟨hn.ne', hleft⟩
      show (if _ ∧ _ then _ else _) ≠ _
      rw [if_pos ⟨rfl, hc⟩]
      exact List.append_ne_nil_of_right_ne_nil _ hbytes

/-- Where a `write` to a user that stays has failed, it is no target any more and has not got
all of the message. -/
theorem not_meant_of_fail (hinv : Inv s) (hb : s.tasks b = .sending m mark (fd :: rest) left)
    (hstep : step s (.fail b) = some s') {e : Entry} (he : s.Stays m e) (hfd : e.fd = fd) :
    ¬ Meant s' := by
  intro hmeant
  have hprogress : Progress s m (fd :: rest) left := hinv.progress hb
  have hcurrent := hprogress.current e fd rest he rfl hfd
  cases steps_of_step hstep with
  | fail hb' hleft =>
      obtain ⟨rfl, rfl, hcons, rfl⟩ := Task.sending.inj (hb.symm.trans hb')
      obtain ⟨rfl, rfl⟩ := List.cons.inj hcons
      rcases hmeant.pending b m mark rest _ (Function.update_self ..) e he with hmem | hwritten
      · exact (List.nodup_cons.mp hprogress.nodup).1 (hfd ▸ hmem)
      · have hall : s.sent m.id e.conn = m.message.bytes := hwritten
        rw [hall] at hcurrent
        exact hleft (List.append_right_eq_self.mp hcurrent)

/-- **Broadcast targets are connections** in every run in which no connection is accepted
under a number that a broadcaster has still to write to, and no `write` to a user that stays
fails. -/
theorem meant_of_reaches (h : Reaches step Undisturbed (start : State B) s) : Meant s where
  pending := by
    intro b m mark targets left hb e he
    have hinv := inv_of_reaches h
    have hm := (hinv.held b m (by rw [hb, Task.envelope])).1
    refine ((hinv.progress hb).reached e he).imp_right fun hsettled => ?_
    exact hsettled.resolve_right ((unfailed_of_reaches h).stays m hm e he)
  finished := by
    intro m hm hfin e he
    refine ((inv_of_reaches h).finished m hm hfin e he).resolve_right ?_
    exact (unfailed_of_reaches h).stays m hm e he
  older := by
    intro b m mark targets left hb c hc
    have holder := older_of_reaches h b
    rw [hb] at holder
    exact holder.2 c hc

/-- A text of two bytes. -/
def twoBytes : Text := ⟨[65, 66], by simp, by decide⟩

/-- The message reaches the second user in two `write`s, while another one comes under a number
of its own; the third one has left when it is written to. -/
theorem meant_after_accept :
    ∃ s : State Unit,
      run step start [.accept 81 .user, .accept 82 .user, .accept 84 .user,
        .list ⟨⟨0, .user⟩, 81⟩, .list ⟨⟨1, .user⟩, 82⟩, .list ⟨⟨2, .user⟩, 84⟩,
        .enqueue ⟨⟨0, .user⟩, 81⟩ (twoBytes.message 81), .dequeue (), .snapshot (), .write () 1,
        .accept 83 .user, .list ⟨⟨3, .user⟩, 83⟩, .write () 1, .next (),
        .unlist ⟨⟨2, .user⟩, 84⟩, .close 84, .fail ()] = some s ∧
      Meant s := by
  have haccepted : Reaches step Undisturbed (start : State Unit) _ :=
    .tail (.accept 84 .user) (.tail (.accept 82 .user) (.tail (.accept 81 .user) .refl
      (fun _ => List.not_mem_nil) rfl) (fun _ => List.not_mem_nil) rfl)
      (fun _ => List.not_mem_nil) rfl
  have hsending : Reaches step Undisturbed (start : State Unit) _ :=
    haccepted.trans_run [.list ⟨⟨0, .user⟩, 81⟩, .list ⟨⟨1, .user⟩, 82⟩, .list ⟨⟨2, .user⟩, 84⟩,
      .enqueue ⟨⟨0, .user⟩, 81⟩ (twoBytes.message 81), .dequeue (), .snapshot (), .write () 1]
      (by simp [Undisturbed]) rfl
  have hleft : Reaches step Undisturbed (start : State Unit) _ :=
    .trans_run (.tail (.accept 83 .user) hsending (by rintro ⟨⟩; decide) rfl)
      [.list ⟨⟨3, .user⟩, 83⟩, .write () 1, .next (), .unlist ⟨⟨2, .user⟩, 84⟩, .close 84]
      (by simp [Undisturbed]) rfl
  -- No user in the list has the number 84 any more.
  have hreaches : Reaches step Undisturbed (start : State Unit) _ :=
    .tail (.fail ()) hleft (by rintro m mark fd rest left ⟨⟩ e ⟨he, -⟩; revert e; decide) rfl
  exact ⟨_, rfl, meant_of_reaches hreaches⟩

/-- The other user leaves after the snapshot, and the next connection gets its number and
the message. -/
theorem written_to_later_connection :
    ¬ ∀ s : State Unit, Reaches step (fun _ _ => True) start s → Meant s := by
  intro hclaim
  have hreaches : Reaches step (fun _ _ => True) (start : State Unit) _ :=
    reaches_of_run [.accept 81 .user, .list ⟨⟨0, .user⟩, 81⟩, .accept 82 .user,
      .list ⟨⟨1, .user⟩, 82⟩, .enqueue ⟨⟨0, .user⟩, 81⟩ (twoBytes.message 81), .dequeue (),
      .snapshot (), .unlist ⟨⟨1, .user⟩, 82⟩, .close 82, .accept 82 .user,
      .write () 2] (fun _ _ _ => trivial) rfl
  have holder := (hclaim _ hreaches).older () _ _ _ _ rfl ⟨2, .user⟩ (by decide)
  exact absurd holder (by decide)

end ThunderChat.Broadcast

import ThunderChat.Server.Broadcast

/-!
The order in which the messages of one sender reach a recipient.

The queue is first in, first out, but a message that has been taken is written by its
broadcaster, and nothing orders two broadcasters. As long as none takes a message while
another is still at one of the same sender, each message is finished before the next of
this sender is begun.

* `before_of_reaches`: a user that stays then gets all of a message before any of a later
  one.
* `overtaken`: of two broadcasters, the one with the later message may be first.
-/

namespace ThunderChat.Broadcast

open Transition

/-- No broadcaster takes a message of this sender while another is at one. -/
def Serial {B : Type} (sender : Connection) (s : State B) : Label B → Prop
  | .dequeue b =>
      ∀ m, s.messages[s.taken]? = some m → m.sender = sender →
        ∀ b' m', b' ≠ b → (s.tasks b').envelope = some m' → m'.sender ≠ sender
  | _ => True

/-- The messages of this sender are finished before the next one is taken. -/
def Ordered {B : Type} (sender : Connection) (s : State B) : Prop :=
  ∀ m ∈ s.messages, m.sender = sender → ∀ m' ∈ s.messages, m'.sender = sender →
    m.id < m'.id → m'.id < s.taken → s.Finished m

variable {B : Type} [DecidableEq B] {s s' : State B} {label : Label B} {sender : Connection}

omit [DecidableEq B] in
/-- A single broadcaster takes no message while it is at one. -/
theorem serial_of_subsingleton [Subsingleton B] : Serial sender s label := by
  cases label with
  | dequeue b => exact fun _ _ _ b' _ hbb _ => absurd (Subsingleton.elim b' b) hbb
  | _ => trivial

/-- What a broadcaster is at, when another goes on with what it has been at. -/
theorem envelope_of_put {b b' : B} {task : Task} {m : Envelope}
    (hkeeps : ∀ m, task.envelope = some m → (s.tasks b).envelope = some m)
    (h : (Function.update s.tasks b task b').envelope = some m) :
    (s.tasks b').envelope = some m := by
  by_cases hbb : b' = b
  · rw [hbb, Function.update_self] at h
    rw [hbb]
    exact hkeeps m h
  · rwa [Function.update_of_ne hbb] at h

/-- A step takes the next message, or leaves the taken ones and their broadcasters. -/
theorem taken_of_step (hinv : Inv s) (hstep : step s label = some s') :
    (∃ b m, label = .dequeue b ∧ s.messages[s.taken]? = some m ∧
      s' = { s.put b (.dequeued m) with taken := s.taken + 1 }) ∨
    s'.taken = s.taken ∧
      (∀ m ∈ s'.messages, m.id < s.taken → m ∈ s.messages) ∧
      ∀ b m, (s'.tasks b).envelope = some m → (s.tasks b).envelope = some m := by
  cases steps_of_step hstep with
  | accept _ | list _ _ | unlist _ | close _ =>
      exact .inr ⟨rfl, fun _ hm _ => hm, fun _ _ hb => hb⟩
  | enqueue _ _ _ =>
      refine .inr ⟨rfl, ?_, fun _ _ hb => hb⟩
      intro m hm hlt
      rcases List.mem_append.mp hm with hold | hnew
      · exact hold
      · rw [List.mem_singleton.mp hnew] at hlt
        exact absurd hlt (Nat.not_lt.mpr hinv.taken_le)
  | dequeue _ hm => exact .inl ⟨_, _, rfl, hm, rfl⟩
  | snapshot hb | write hb _ _ | fail hb _ | next hb =>
      refine .inr ⟨rfl, fun _ hm _ => hm, fun b' m' => envelope_of_put ?_⟩
      rw [hb]
      exact fun _ h => h
  | finish _ =>
      refine .inr ⟨rfl, fun _ hm _ => hm, fun b' m' => envelope_of_put ?_⟩
      exact fun _ h => by cases h

/-- A message that only the broadcaster of the next one could be at is finished. -/
theorem finished_of_dequeue {b : B} {m m' : Envelope} (hinv : Inv s)
    (hm : s.messages[s.taken]? = some m) (hlt : m'.id < s.taken)
    (hothers : ∀ b', b' ≠ b → (s.tasks b').envelope ≠ some m') :
    State.Finished { s.put b (.dequeued m) with taken := s.taken + 1 } m' := by
  refine ⟨Nat.lt_succ_of_lt hlt, ?_⟩
  intro b' hb'
  by_cases hbb : b' = b
  · rw [hbb] at hb'
    have hmm : (Function.update s.tasks b (.dequeued m) b).envelope = some m' := hb'
    rw [Function.update_self] at hmm
    cases hmm
    exact absurd hlt (hinv.ids _ _ hm ▸ Nat.lt_irrefl _)
  · apply hothers b' hbb
    have hmm : (Function.update s.tasks b (.dequeued m) b').envelope = some m' := hb'
    rwa [Function.update_of_ne hbb] at hmm

theorem Ordered.step (hinv : Inv s) (h : Ordered sender s) (hmeets : Serial sender s label)
    (hstep : step s label = some s') : Ordered sender s' := by
  intro m hm hsender m' hm' hsender' hlt htaken
  rcases taken_of_step hinv hstep with ⟨b, next, rfl, hnext, rfl⟩ | ⟨heq, hmem, htasks⟩
  · have hid : next.id = s.taken := hinv.ids s.taken next hnext
    rcases Nat.lt_succ_iff_lt_or_eq.mp htaken with hold | hnew
    · have hfin := h m hm hsender m' hm' hsender' hlt hold
      exact finished_of_dequeue hinv hnext hfin.1 fun b' _ => hfin.2 b'
    · -- The later message is the one taken now.
      have hmm : m' = next :=
        hinv.eq_of_id hm' (List.mem_of_getElem? hnext) (hnew.trans hid.symm)
      apply finished_of_dequeue hinv hnext (hnew ▸ hlt)
      intro b' hbb hb'
      exact hmeets next hnext (hmm ▸ hsender') b' m hbb hb' hsender
  · rw [heq] at htaken
    have hlt' := hlt.trans htaken
    have hfin := h m (hmem m hm hlt') hsender m' (hmem m' hm' htaken) hsender' hlt htaken
    refine ⟨heq ▸ hfin.1, ?_⟩
    intro b hb
    exact hfin.2 b (htasks b m hb)

theorem ordered_of_reaches
    (h : Reaches step (fun s label => Subsingleton B ∨ Serial sender s label)
      (start : State B) s) :
    Ordered sender s := by
  induction h with
  | refl => exact fun _ hm => absurd hm List.not_mem_nil
  | tail label hreaches hmeets hstep ih =>
      refine ih.step (inv_of_reaches hreaches) ?_ hstep
      rcases hmeets with hsingle | hserial
      · exact serial_of_subsingleton
      · exact hserial

/-- **The messages of one sender arrive in order** in every run in which no broadcaster
takes a message of this sender while another is at one, as with a single broadcaster: when
anything of the later one has been written to a user connected since the earlier one was
queued, all of the earlier one has, unless one of its `write`s to this user has failed. -/
theorem before_of_reaches
    (h : Reaches step (fun s label => Subsingleton B ∨ Serial sender s label)
      (start : State B) s) :
    ∀ m ∈ s.messages, m.sender = sender → ∀ m' ∈ s.messages, m'.sender = sender →
      m.id < m'.id → ∀ e, s.Stays m e → s.sent m'.id e.conn ≠ [] →
      s.sent m.id e.conn = m.message.bytes ∨ (m.id, e.conn) ∈ s.failed := by
  intro m hm hsender m' hm' hsender' hlt e he hsent
  have hinv := inv_of_reaches h
  have htaken : m'.id < s.taken := by
    by_contra hge
    exact hsent (hinv.fresh m'.id e.conn (Nat.not_lt.mp hge))
  have hfin := ordered_of_reaches h m hm hsender m' hm' hsender' hlt htaken
  exact hinv.finished m hm hfin e he

/-- A text of one byte. -/
def letter : Text := ⟨[67], by simp, by decide⟩

/-- The only broadcaster writes two messages of a user to the other one. -/
theorem before_after_two :
    ∃ s : State Unit,
      run step start [.accept 83 .user, .list ⟨⟨0, .user⟩, 83⟩, .accept 84 .user,
        .list ⟨⟨1, .user⟩, 84⟩, .enqueue ⟨⟨0, .user⟩, 83⟩ (letter.message 83),
        .enqueue ⟨⟨0, .user⟩, 83⟩ (letter.message 83), .dequeue (), .snapshot (), .write () 1,
        .next (), .finish (), .dequeue (), .snapshot (), .write () 1] = some s ∧
      s.sent 1 ⟨1, .user⟩ ≠ [] ∧
      (s.sent 0 ⟨1, .user⟩ = letter.bytes ∨ (0, ⟨1, .user⟩) ∈ s.failed) := by
  have hreaches : Reaches step (fun s label => Subsingleton Unit ∨ Serial ⟨0, .user⟩ s label)
      (start : State Unit) _ :=
    reaches_of_run [.accept 83 .user, .list ⟨⟨0, .user⟩, 83⟩, .accept 84 .user,
      .list ⟨⟨1, .user⟩, 84⟩, .enqueue ⟨⟨0, .user⟩, 83⟩ (letter.message 83),
      .enqueue ⟨⟨0, .user⟩, 83⟩ (letter.message 83), .dequeue (), .snapshot (), .write () 1,
      .next (), .finish (), .dequeue (), .snapshot (), .write () 1]
      (fun _ _ _ => .inl inferInstance) rfl
  refine ⟨_, rfl, by decide, ?_⟩
  exact before_of_reaches hreaches _ (.head _) rfl _ (.tail _ (.head _)) rfl Nat.zero_lt_one
    ⟨⟨1, .user⟩, 84⟩ ⟨.tail _ (.head _), .head _⟩ (by decide)

/-- Of two broadcasters that have each taken a message of the same user, the one with the
later message writes first. -/
theorem overtaken :
    ¬ ∀ s : State Bool, Reaches step (fun _ _ => True) start s →
        ∀ m ∈ s.messages, ∀ m' ∈ s.messages, m.sender = m'.sender → m.id < m'.id →
          ∀ e, s.Stays m e → s.sent m'.id e.conn ≠ [] →
          s.sent m.id e.conn = m.message.bytes := by
  intro hclaim
  have hreaches : Reaches step (fun _ _ => True) (start : State Bool) _ :=
    reaches_of_run [.accept 83 .user, .list ⟨⟨0, .user⟩, 83⟩, .accept 84 .user,
      .list ⟨⟨1, .user⟩, 84⟩, .enqueue ⟨⟨0, .user⟩, 83⟩ (letter.message 83),
      .enqueue ⟨⟨0, .user⟩, 83⟩ (letter.message 83), .dequeue false, .dequeue true,
      .snapshot true, .write true 1] (fun _ _ _ => trivial) rfl
  have hfirst := hclaim _ hreaches _ (.head _) _ (.tail _ (.head _)) rfl Nat.zero_lt_one
    ⟨⟨1, .user⟩, 84⟩ ⟨.tail _ (.head _), .head _⟩ (by decide)
  exact absurd hfirst (by decide)

end ThunderChat.Broadcast

import ThunderChat.Foundation.Custody
import Mathlib.Data.List.Nodup
import Mathlib.Logic.Function.Basic

/-!
Things handed between an event loop and its workers.

A thing is armed at a notifier, which reports it in batches. The loop takes the reported
things one by one, takes each from the notifier, and passes it to the workers through a
queue; a worker arms it again or destroys it. `Holding` says where the things are.
`Inv` says that nobody else has what one of them has, and each way to hand a thing over
keeps it. With a one-shot notifier a report also disarms the thing.
-/

namespace ThunderChat.Handover

variable {T C : Type*}

/-- What each thread works on, what is armed, the rest of the batch, the reported thing
that the loop works on and has not yet taken from the notifier, and the queue. -/
structure Holding (T C : Type*) where
  work : T → Option C
  armed : List C
  batch : List C
  handled : Option C
  queue : List C

/-- Where a thing may be: with a thread, at the notifier or reported by it, or in the
queue. -/
inductive Place (T : Type*) where
  | hand (t : T)
  | watched
  | queued

/-- The reported things that have not been taken from the notifier. -/
def Holding.reported (h : Holding T C) : List C := h.handled.toList ++ h.batch

/-- The thread works on the thing. The loop does so once it has taken it from the
notifier. -/
def Holding.Holds (loop : T) (h : Holding T C) (t : T) (c : C) : Prop :=
  h.work t = some c ∧ (t = loop → h.handled = none)

/-- The thing is at the place. -/
def Holding.At (loop : T) (h : Holding T C) : Place T → C → Prop
  | .hand t, c => h.Holds loop t c
  | .watched, c => c ∈ h.armed ∨ c ∈ h.reported
  | .queued, c => c ∈ h.queue

/-- Every thing is at one place at most, and once. -/
structure Inv (loop : T) (oneshot : Bool) (h : Holding T C) (Gone Born : C → Prop) : Prop where
  custody : Custody.Inv (h.At loop) Gone Born
  queueNodup : h.queue.Nodup
  reportedNodup : h.reported.Nodup
  handled : ∀ c, h.handled = some c → h.work loop = some c
  disarmed : oneshot = true → ∀ c ∈ h.reported, c ∉ h.armed

variable {loop t i : T} {oneshot : Bool} {h h' : Holding T C} {Gone Gone' Born Born' : C → Prop}
  {c d : C} {x : Option C} {work : T → Option C} {armed : List C}

/-- Nothing is anywhere at the start. -/
theorem inv_start (hgone : ∀ c, ¬ Gone c) :
    Inv loop oneshot ⟨fun _ => none, [], [], none, []⟩ Gone Born where
  custody :=
    { exclusive := by
        rintro (t | _ | _) q c hat _
        · cases hat.1
        · rcases hat with hat | hat <;> cases hat
        · cases hat
      live := fun _ hd => hgone _ hd
      born := by
        rintro (t | _ | _) c hat
        · cases hat.1
        · rcases hat with hat | hat <;> cases hat
        · cases hat
      born_of_gone := fun hd => absurd hd (hgone _) }
  queueNodup := List.nodup_nil
  reportedNodup := List.nodup_nil
  handled := nofun
  disarmed := nofun

/-- A thing is created that nobody gets. -/
theorem Inv.grow (hinv : Inv loop oneshot h Gone Born) (hborn : ∀ d, Born d → Born' d) :
    Inv loop oneshot h Gone Born' :=
  ⟨hinv.custody.grow hborn, hinv.queueNodup, hinv.reportedNodup, hinv.handled, hinv.disarmed⟩

/-! ### Where the threads' things are -/

/-- Where a thing is that a thread works on. -/
theorem Inv.at_of_work (hinv : Inv loop oneshot h Gone Born) (hwork : h.work t = some c) :
    h.At loop (.hand t) c ∨ t = loop ∧ h.At loop .watched c := by
  by_cases hloop : t = loop
  · subst hloop
    cases hhandled : h.handled with
    | none => exact .inl ⟨hwork, fun _ => hhandled⟩
    | some d =>
        cases hwork.symm.trans (hinv.handled d hhandled)
        refine .inr ⟨rfl, .inr ?_⟩
        rw [Holding.reported, hhandled]
        exact List.mem_cons_self
  · exact .inl ⟨hwork, fun ht => absurd ht hloop⟩

/-- So it is not gone. -/
theorem Inv.live_of_work (hinv : Inv loop oneshot h Gone Born) (hwork : h.work t = some c) :
    ¬ Gone c := by
  rcases hinv.at_of_work hwork with hat | ⟨-, hat⟩
  · exact hinv.custody.live hat
  · exact hinv.custody.live hat

/-- No two threads work on one thing. -/
theorem Inv.eq_of_work (hinv : Inv loop oneshot h Gone Born) (ht : h.work t = some c)
    (hi : h.work i = some c) : t = i := by
  rcases hinv.at_of_work ht with hat | ⟨rfl, hat⟩ <;>
    rcases hinv.at_of_work hi with hat' | ⟨rfl, hat'⟩
  · cases hinv.custody.exclusive hat hat'
    rfl
  · cases hinv.custody.exclusive hat hat'
  · cases hinv.custody.exclusive hat hat'
  · rfl

variable [DecidableEq T]

/-- Who works on a thing after a thread has gone on: that thread, or another one that has
done so before. -/
theorem Holding.hand_of_update (hhand : h'.At loop (.hand i) d)
    (hwork : h'.work = Function.update h.work t x) (hhandled : t ≠ loop → h'.handled = h.handled) :
    i = t ∧ x = some d ∨ i ≠ t ∧ h.At loop (.hand i) d := by
  obtain ⟨hclient, hloop⟩ := hhand
  rw [hwork] at hclient
  by_cases hit : i = t
  · rw [hit, Function.update_self] at hclient
    exact .inl ⟨hit, hclient⟩
  · rw [Function.update_of_ne hit] at hclient
    refine .inr ⟨hit, hclient, ?_⟩
    rintro rfl
    exact hhandled (Ne.symm hit) ▸ hloop rfl

/-- A thread that goes on leaves the loop with the thing it handles. -/
theorem Inv.handled_update (hinv : Inv loop oneshot h Gone Born)
    (hwork : work = Function.update h.work t x) (hloop : t = loop → h.handled = none)
    (hhandled : h.handled = some c) : work loop = some c := by
  have ht : loop ≠ t := by
    rintro rfl
    have hnone := hloop rfl
    rw [hhandled] at hnone
    cases hnone
  rw [hwork, Function.update_of_ne ht]
  exact hinv.handled c hhandled

/-! ### Handing over -/

/-- A thread goes on with what it has, or without. -/
theorem Inv.goesOn (hinv : Inv loop oneshot h Gone Born)
    (hwork : work = Function.update h.work t x) (hx : ∀ d, x = some d → h.Holds loop t d)
    (hloop : t = loop → h.handled = none) : Inv loop oneshot { h with work := work } Gone Born where
  custody := by
    refine hinv.custody.stay ?_
    rintro (i | _ | _) d hd
    · rcases Holding.hand_of_update (h := h) hd hwork (fun _ => rfl) with ⟨rfl, hd⟩ | ⟨-, hd⟩
      · exact hx d hd
      · exact hd
    · exact hd
    · exact hd
  queueNodup := hinv.queueNodup
  reportedNodup := hinv.reportedNodup
  handled _ hc := hinv.handled_update hwork hloop hc
  disarmed := hinv.disarmed

/-- A thread creates a thing. -/
theorem Inv.create (hinv : Inv loop oneshot h Gone Born)
    (hwork : work = Function.update h.work t (some c)) (hnew : ¬ Born c)
    (hborn : ∀ d, Born d ∨ d = c → Born' d) (hloop : t = loop → h.handled = none) :
    Inv loop oneshot { h with work := work } Gone Born' where
  custody := by
    refine hinv.custody.create (q := .hand t) hnew hborn ?_
    rintro (i | _ | _) d hd
    · rcases Holding.hand_of_update (h := h) hd hwork (fun _ => rfl) with ⟨rfl, hd⟩ | ⟨-, hd⟩
      · cases hd
        exact .inr ⟨rfl, rfl⟩
      · exact .inl hd
    · exact .inl hd
    · exact .inl hd
  queueNodup := hinv.queueNodup
  reportedNodup := hinv.reportedNodup
  handled _ hc := hinv.handled_update hwork hloop hc
  disarmed := hinv.disarmed

/-- A thread arms what it has. -/
theorem Inv.arm (hinv : Inv loop oneshot h Gone Born) (hholds : h.Holds loop t c)
    (hwork : work = Function.update h.work t none) :
    Inv loop oneshot { h with work := work, armed := c :: h.armed } Gone Born where
  custody := by
    refine hinv.custody.move (p := .hand t) (q := .watched) hholds ?_
    rintro (i | _ | _) d hd
    · rcases Holding.hand_of_update (h := h) hd hwork (fun _ => rfl) with ⟨rfl, hd⟩ | ⟨hit, hd⟩
      · cases hd
      · refine .inl ⟨hd, ?_⟩
        rintro heq
        cases heq
        exact absurd rfl hit
    · rcases hd with hd | hd
      · rcases List.mem_cons.mp hd with rfl | hd
        · exact .inr ⟨rfl, rfl⟩
        · exact .inl ⟨.inl hd, nofun⟩
      · exact .inl ⟨.inr hd, nofun⟩
    · exact .inl ⟨hd, nofun⟩
  queueNodup := hinv.queueNodup
  reportedNodup := hinv.reportedNodup
  handled _ hc := hinv.handled_update hwork hholds.2 hc
  disarmed honeshot d hd harmed := by
    rcases List.mem_cons.mp harmed with rfl | harmed
    · cases hinv.custody.exclusive (p := .hand t) (q := .watched) hholds (.inr hd)
    · exact hinv.disarmed honeshot d hd harmed

omit [DecidableEq T] in
/-- The notifier reports armed things while the loop handles none. -/
theorem Inv.report (hinv : Inv loop oneshot h Gone Born) {batch : List C}
    (hhandled : h.handled = none) (hnodup : batch.Nodup) (hbatch : batch ⊆ h.armed)
    (hsub : armed ⊆ h.armed) (hdisarmed : oneshot = true → ∀ c ∈ batch, c ∉ armed) :
    Inv loop oneshot { h with batch := batch, armed := armed } Gone Born := by
  have hreported : Holding.reported { h with batch := batch, armed := armed } = batch := by
    rw [Holding.reported, hhandled]
    rfl
  refine ⟨hinv.custody.stay ?_, hinv.queueNodup, ?_, hinv.handled, ?_⟩
  · rintro (i | _ | _) d hd
    · exact hd
    · rcases hd with hd | hd
      · exact .inl (hsub hd)
      · rw [hreported] at hd
        exact .inl (hbatch hd)
    · exact hd
  · rw [hreported]
    exact hnodup
  · rw [hreported]
    exact hdisarmed

/-- The loop goes on to the next reported thing. -/
theorem Inv.next (hinv : Inv loop oneshot h Gone Born) {rest : List C}
    (hhandled : h.handled = none) (hbatch : h.batch = c :: rest)
    (hwork : work = Function.update h.work loop (some c)) :
    Inv loop oneshot { h with work := work, batch := rest, handled := some c } Gone Born := by
  have hreported : Holding.reported { h with work := work, batch := rest, handled := some c }
      = h.reported := by
    rw [Holding.reported, Holding.reported, hhandled, hbatch]
    rfl
  refine ⟨hinv.custody.stay ?_, hinv.queueNodup, hreported ▸ hinv.reportedNodup, ?_,
    hreported ▸ hinv.disarmed⟩
  · rintro (i | _ | _) d hd
    · rcases Holding.hand_of_update (h := h) hd hwork (fun hne => absurd rfl hne)
        with ⟨rfl, -⟩ | ⟨-, hd'⟩
      · cases hd.2 rfl
      · exact hd'
    · rcases hd with hd | hd
      · exact .inl hd
      · exact .inr (hreported ▸ hd)
    · exact hd
  · rintro d ⟨⟩
    show work loop = some c
    rw [hwork, Function.update_self]

omit [DecidableEq T] in
/-- Things are not armed any more. -/
theorem Inv.disarm (hinv : Inv loop oneshot h Gone Born) (hsub : armed ⊆ h.armed) :
    Inv loop oneshot { h with armed := armed } Gone Born := by
  refine ⟨hinv.custody.stay ?_, hinv.queueNodup, hinv.reportedNodup, hinv.handled,
    fun honeshot d hd harmed => hinv.disarmed honeshot d hd (hsub harmed)⟩
  rintro (i | _ | _) d hd
  · exact hd
  · exact hd.imp_left fun hd => hsub hd
  · exact hd

omit [DecidableEq T] in
/-- The loop has taken the thing it handles from the notifier. -/
theorem Inv.withdraw (hinv : Inv loop oneshot h Gone Born) (hhandled : h.handled = some c)
    (hsub : armed ⊆ h.armed) (hgone : c ∉ armed) :
    Inv loop oneshot { h with handled := none, armed := armed } Gone Born := by
  have hreported : h.reported = c :: h.batch := by
    rw [Holding.reported, hhandled]
    rfl
  have hnodup := hinv.reportedNodup
  rw [hreported] at hnodup
  refine ⟨hinv.custody.move (p := .watched) (q := .hand loop) (c := c) ?_ ?_,
    hinv.queueNodup, hnodup.of_cons, nofun, ?_⟩
  · exact .inr (hreported ▸ List.mem_cons_self)
  · rintro (i | _ | _) d hd
    · by_cases hi : i = loop
      · subst hi
        cases (hinv.handled c hhandled).symm.trans hd.1
        exact .inr ⟨rfl, rfl⟩
      · exact .inl ⟨⟨hd.1, fun ht => absurd ht hi⟩, nofun⟩
    · rcases hd with hd | hd
      · refine .inl ⟨.inl (hsub hd), fun _ => ?_⟩
        rintro rfl
        exact hgone hd
      · refine .inl ⟨.inr (hreported ▸ List.mem_cons_of_mem _ hd), fun _ => ?_⟩
        rintro rfl
        exact (List.nodup_cons.mp hnodup).1 hd
    · exact .inl ⟨hd, nofun⟩
  · intro honeshot d hd harmed
    exact hinv.disarmed honeshot d (hreported ▸ List.mem_cons_of_mem _ hd) (hsub harmed)

/-- The loop leaves a reported thing as it is. -/
theorem Inv.skip (hinv : Inv loop oneshot h Gone Born)
    (hwork : work = Function.update h.work loop none) :
    Inv loop oneshot { h with work := work, handled := none } Gone Born := by
  have hsub : h.batch ⊆ h.reported := List.subset_append_right _ _
  refine ⟨hinv.custody.stay ?_, hinv.queueNodup, ?_, nofun,
    fun honeshot d hd => hinv.disarmed honeshot d (hsub hd)⟩
  · rintro (i | _ | _) d hd
    · rcases Holding.hand_of_update (h := h) hd hwork (fun hne => absurd rfl hne)
        with ⟨rfl, hd'⟩ | ⟨-, hd'⟩
      · cases hd'
      · exact hd'
    · rcases hd with hd | hd
      · exact .inl hd
      · exact .inr (hsub hd)
    · exact hd
  · exact hinv.reportedNodup.sublist (List.sublist_append_right _ _)

/-- The loop puts what it has on the queue. -/
theorem Inv.enqueue (hinv : Inv loop oneshot h Gone Born) (hholds : h.Holds loop loop c)
    (hwork : work = Function.update h.work loop none) :
    Inv loop oneshot { h with work := work, queue := h.queue ++ [c] } Gone Born := by
  have hnew : c ∉ h.queue := by
    intro hmem
    cases hinv.custody.exclusive (p := .hand loop) (q := .queued) hholds hmem
  refine ⟨hinv.custody.move (p := .hand loop) (q := .queued) hholds ?_, ?_, hinv.reportedNodup,
    ?_, hinv.disarmed⟩
  · rintro (i | _ | _) d hd
    · rcases Holding.hand_of_update (h := h) hd hwork (fun _ => rfl) with ⟨rfl, hd'⟩ | ⟨hit, hd'⟩
      · cases hd'
      · refine .inl ⟨hd', ?_⟩
        rintro heq
        cases heq
        exact absurd rfl hit
    · exact .inl ⟨hd, nofun⟩
    · rcases List.mem_append.mp hd with hd | hd
      · exact .inl ⟨hd, nofun⟩
      · exact .inr ⟨rfl, List.mem_singleton.mp hd⟩
  · rw [← List.concat_eq_append]
    exact hinv.queueNodup.concat hnew
  · intro d hd
    have hnone := hholds.2 rfl
    rw [hd] at hnone
    cases hnone

/-- A worker takes the front of the queue. -/
theorem Inv.dequeue (hinv : Inv loop oneshot h Gone Born) {rest : List C}
    (hqueue : h.queue = c :: rest) (ht : t ≠ loop)
    (hwork : work = Function.update h.work t (some c)) :
    Inv loop oneshot { h with work := work, queue := rest } Gone Born := by
  have hnodup := hinv.queueNodup
  rw [hqueue] at hnodup
  have hqueued : ∀ d ∈ c :: rest, d ∈ h.queue := fun d hd => hqueue ▸ hd
  refine ⟨hinv.custody.move (p := .queued) (q := .hand t) (c := c) ?_ ?_,
    hnodup.of_cons, hinv.reportedNodup, ?_, hinv.disarmed⟩
  · exact hqueued c List.mem_cons_self
  · rintro (i | _ | _) d hd
    · rcases Holding.hand_of_update (h := h) hd hwork (fun _ => rfl) with ⟨rfl, hd'⟩ | ⟨-, hd'⟩
      · cases hd'
        exact .inr ⟨rfl, rfl⟩
      · exact .inl ⟨hd', nofun⟩
    · exact .inl ⟨hd, nofun⟩
    · refine .inl ⟨hqueued d (List.mem_cons_of_mem _ hd), fun _ => ?_⟩
      rintro rfl
      exact (List.nodup_cons.mp hnodup).1 hd
  · exact fun d hd => hinv.handled_update hwork (fun hloop => absurd hloop ht) hd

/-- A thread has destroyed what it had. -/
theorem Inv.destroy (hinv : Inv loop oneshot h Gone Born) (hholds : h.Holds loop t c)
    (hwork : work = Function.update h.work t none) (hgone : ∀ d, Gone' d → Gone d ∨ d = c) :
    Inv loop oneshot { h with work := work } Gone' Born where
  custody := by
    refine hinv.custody.destroy (p := .hand t) (c := c) hholds ?_ hgone
    rintro (i | _ | _) d hd
    · rcases Holding.hand_of_update (h := h) hd hwork (fun _ => rfl) with ⟨rfl, hd⟩ | ⟨hit, hd⟩
      · cases hd
      · refine ⟨hd, ?_⟩
        rintro heq
        cases heq
        exact absurd rfl hit
    · exact ⟨hd, nofun⟩
    · exact ⟨hd, nofun⟩
  queueNodup := hinv.queueNodup
  reportedNodup := hinv.reportedNodup
  handled _ hd := hinv.handled_update hwork hholds.2 hd
  disarmed := hinv.disarmed

end ThunderChat.Handover

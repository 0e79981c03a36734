import ThunderChat.Server.Ownership

/-!
The accounts of `ChatServer` in the epoll builds.

`Connections` lets every thread get hold of any client that has been given to the `IOMP`
and close it, and counts right as long as no client is closed twice. The hand-over of
`Ownership` is one way to do so.

* `books_reach`: every run of the hand-over is one of `Connections` that closes no client
  twice.
* `account_of_reaches`: so its count is right, and its users are within the limit.
* `listed_of_holding`: and the client a receiver works on is in the list.
-/

namespace ThunderChat.Ownership

open Transition
open Connections (Client Thread Task Closing)
open scoped BigOperators

variable {R : Type} [DecidableEq R] {s s' : State R} {t : Thread R} {c : Client}
  {oneshot : Bool} {maxUser : Int} {label : Label R}

/-- Only clients that a step calls `CloseClient` for are closed. -/
theorem closed_of_step (hstep : step oneshot maxUser s label = some s')
    (hclosed : c ∈ s'.books.closed) : c ∈ s.books.closed ∨ label.closes s = some c := by
  cases label with
  | test | acceptUser | list t | unlist t | uncount t =>
      obtain ⟨books, hbook, rfl⟩ := Option.map_eq_some_iff.mp hstep
      exact (Connections.closed_of_step hbook hclosed).imp_right fun hcloses => by cases hcloses
  | registerManager =>
      simp only [Ownership.step] at hstep
      split at hstep
      · cases hstep
      · obtain ⟨books, hbook, rfl⟩ := Option.map_eq_some_iff.mp hstep
        exact (Connections.closed_of_step hbook hclosed).imp_right fun hcloses => by cases hcloses
  | addClient t succeeds =>
      simp only [Ownership.step] at hstep
      split at hstep
      · obtain ⟨books, hbook, rfl⟩ := Option.map_eq_some_iff.mp hstep
        refine (Connections.closed_of_step hbook hclosed).imp_right ?_
        cases succeeds with
        | true => exact fun hcloses => by cases hcloses
        | false => exact fun hcloses => hcloses
      · cases hstep
  | closeEvent =>
      simp only [Ownership.step] at hstep
      split at hstep
      · next htask _ =>
          split at hstep <;> cases hstep
          rcases List.mem_cons.mp hclosed with rfl | hclosed
          · refine .inr ?_
            rw [Label.closes, htask]
            rfl
          · exact .inl hclosed
      · cases hstep
  | fillFromSocket r fill =>
      simp only [Ownership.step] at hstep
      split at hstep <;> cases hstep
      · next htask _ =>
          rcases List.mem_cons.mp hclosed with rfl | hclosed
          · refine .inr ?_
            rw [Label.closes, htask]
            rfl
          · exact .inl hclosed
      · exact .inl hclosed
      · exact .inl hclosed
  | poll events | delClient | skipEvent | putReceiveQueue =>
      simp only [Ownership.step] at hstep
      split at hstep
      · split at hstep <;> cases hstep
        exact .inl hclosed
      · cases hstep
  | next | getReceiveQueue r | executeCommand r | rearm r succeeds | unhook t =>
      simp only [Ownership.step] at hstep
      split at hstep <;> cases hstep
      exact .inl hclosed

/-- Clients are watched and queued after they have been given to the `IOMP`. -/
def Offered (s : State R) : Prop := ∀ c, s.At .watched c ∨ s.At .queued c → c ∈ s.books.offered

omit [DecidableEq R] in
/-- A client that a thread works on and is not closing has never been closed. -/
theorem Inv.not_closed (h : Inv oneshot s) (hclosing : Closing s.books)
    (hclient : (s.books.tasks t).client = some c) (hopen : (s.books.tasks t).closes = none) :
    c ∉ s.books.closed := by
  intro hclosed
  rcases hclosing.closed c hclosed with hdeleted | ⟨i, hi⟩
  · exact h.handover.live_of_work hclient hdeleted
  · have hsame : (s.books.tasks i).client = some c := by
      cases htask : s.books.tasks i with
      | closing d =>
          rw [htask] at hi
          exact hi
      | unhooked d =>
          rw [htask] at hi
          exact hi
      | _ =>
          rw [htask] at hi
          cases hi
    rw [h.handover.eq_of_work hclient hsame, hi] at hopen
    cases hopen

omit [DecidableEq R] in
/-- Nothing new is watched or queued. -/
theorem Offered.mono (h : Offered s) (hoffered : s.books.offered ⊆ s'.books.offered)
    (hwatched : ∀ c, s'.At .watched c → s.At .watched c)
    (hqueued : ∀ c, s'.At .queued c → s.At .queued c ∨ c ∈ s.books.offered) : Offered s' := by
  rintro c (hc | hc)
  · exact hoffered (h c (.inl (hwatched c hc)))
  · rcases hqueued c hc with hc | hc
    · exact hoffered (h c (.inr hc))
    · exact hoffered hc

omit [DecidableEq R] in
/-- The accounts change, and nothing is watched or queued. -/
theorem Offered.books (h : Offered s) {books : Connections.State R} {toRegister : Nat}
    (hoffered : s.books.offered ⊆ books.offered) :
    Offered { s with books := books, toRegister := toRegister } :=
  h.mono hoffered (fun _ hc => hc) fun _ hc => .inl hc

omit [DecidableEq R] in
/-- So no client is closed twice. -/
theorem Inv.once (h : Inv oneshot s) (hclosing : Closing s.books) {l : Connections.Label R} :
    Connections.Once s.books l := by
  have hopen : ∀ i d, s.books.tasks i = .listed d ∨ s.books.tasks i = .holding d →
      d ∉ s.books.closed := by
    rintro i d (hd | hd)
    · exact h.not_closed hclosing (t := i) (by rw [hd]; rfl) (by rw [hd]; rfl)
    · exact h.not_closed hclosing (t := i) (by rw [hd]; rfl) (by rw [hd]; rfl)
  cases l with
  | offer i succeeds =>
      cases succeeds with
      | true => trivial
      | false => exact fun d hd => hopen i d (.inl hd)
  | close i => exact fun d hd => hopen i d (.inr hd)
  | _ => trivial

variable [Fintype R]

omit [DecidableEq R] in
/-- What is known of a thread's client says that the `IOMP` has been given it. -/
theorem offered_of_holding (h : Connections.Inv s.books) (htask : s.books.tasks t = .holding c) :
    c ∈ s.books.offered := by
  have hfits := h.fits t
  rw [htask] at hfits
  exact hfits

/-- What a step does to the accounts is a step of `Connections` that closes no client
again, or nothing; and clients are watched and queued that the `IOMP` has been given. -/
theorem books_step (h : Inv oneshot s) (hoffered : Offered s)
    (hbooks : Reaches (Connections.step maxUser) Connections.Once Connections.start s.books)
    (hstep : step oneshot maxUser s label = some s') :
    Reaches (Connections.step maxUser) Connections.Once Connections.start s'.books ∧
      Offered s' := by
  have hconn : Connections.Inv s.books := (Connections.inv_of_reaches hbooks).1
  have hclosing : Closing s.books := Connections.closing_of_reaches hbooks
  have hnext : ∀ {l : Connections.Label R} {books : Connections.State R},
      Connections.Steps maxUser s.books l books →
      Reaches (Connections.step maxUser) Connections.Once Connections.start books :=
    fun hsteps => hbooks.tail _ (h.once hclosing) (Connections.step_of_steps hsteps)
  cases label with
  | test | acceptUser | list t | unlist t | uncount t =>
      obtain ⟨books, hbook, rfl⟩ := Option.map_eq_some_iff.mp hstep
      exact ⟨hbooks.tail _ (h.once hclosing) hbook,
        hoffered.books (Connections.offered_subset hbook)⟩
  | registerManager =>
      simp only [Ownership.step] at hstep
      split at hstep
      · cases hstep
      · obtain ⟨books, hbook, rfl⟩ := Option.map_eq_some_iff.mp hstep
        exact ⟨hbooks.tail _ (h.once hclosing) hbook,
          hoffered.books (Connections.offered_subset hbook)⟩
  | addClient t succeeds =>
      simp only [Ownership.step] at hstep
      split at hstep
      · next c hlisted =>
          obtain ⟨books, hbook, rfl⟩ := Option.map_eq_some_iff.mp hstep
          have hsub := Connections.offered_subset hbook
          refine ⟨hbooks.tail _ (h.once hclosing) hbook, ?_⟩
          cases Connections.steps_of_step hbook with
          | offer htask =>
              cases hlisted.symm.trans htask
              rintro d ((hd | hd) | hd)
              · rcases List.mem_cons.mp hd with rfl | hd
                · exact List.mem_cons_self
                · exact hsub (hoffered d (.inl (.inl hd)))
              · exact hsub (hoffered d (.inl (.inr hd)))
              · exact hsub (hoffered d (.inr hd))
          | reject _ => exact hoffered.books hsub
      · cases hstep
  | poll events =>
      simp only [Ownership.step] at hstep
      split at hstep
      · next htask =>
          split at hstep <;> cases hstep
          next hguard =>
            obtain ⟨-, -, -, harmed⟩ := hguard
            have hhandled : s.handled = none := h.handled_eq_none htask (fun _ => rfl) rfl
            refine ⟨hbooks, hoffered.mono (List.Subset.refl _) ?_ fun _ hc => .inl hc⟩
            rintro d (hd | hd)
            · cases oneshot with
              | true => exact .inl (List.mem_of_mem_filter hd)
              | false => exact .inl hd
            · rcases List.mem_append.mp hd with hd | hd
              · simp [State.holding, hhandled] at hd
              · obtain ⟨e, he, rfl⟩ := List.mem_map.mp hd
                exact .inl (harmed e he)
      · cases hstep
  | next =>
      simp only [Ownership.step] at hstep
      split at hstep <;> cases hstep
      next e rest htask hbatch =>
        have hhandled : s.handled = none := h.handled_eq_none htask (fun _ => rfl) rfl
        have hreported : s.holding.reported = e.client :: rest.map Event.client := by
          simp [Handover.Holding.reported, State.holding, hhandled, hbatch]
        have htaken : e.client ∈ s.books.offered :=
          hoffered _ (.inl (.inr (hreported ▸ List.mem_cons_self)))
        refine ⟨hnext (.take htask htaken),
          hoffered.mono (List.Subset.refl _) ?_ fun _ hc => .inl hc⟩
        rintro d (hd | hd)
        · exact .inl hd
        · exact .inr (hreported ▸ hd)
  | closeEvent =>
      simp only [Ownership.step] at hstep
      split at hstep
      · next htask _ =>
          split at hstep <;> cases hstep
          exact ⟨hnext (.close htask), hoffered.books (List.Subset.refl _)⟩
      · cases hstep
  | delClient =>
      simp only [Ownership.step] at hstep
      split at hstep
      · split at hstep <;> cases hstep
        refine ⟨hbooks, hoffered.mono (List.Subset.refl _) ?_ fun _ hc => .inl hc⟩
        rintro d (hd | hd)
        · cases oneshot with
          | true => exact .inl hd
          | false => exact .inl (List.mem_of_mem_filter hd)
        · exact .inr (List.mem_append_right _ hd)
      · cases hstep
  | skipEvent =>
      simp only [Ownership.step] at hstep
      split at hstep
      · next htask _ =>
          split at hstep <;> cases hstep
          refine ⟨hnext (.release htask),
            hoffered.mono (List.Subset.refl _) ?_ fun _ hc => .inl hc⟩
          rintro d (hd | hd)
          · exact .inl hd
          · exact .inr (List.mem_append_right _ hd)
      · cases hstep
  | putReceiveQueue =>
      simp only [Ownership.step] at hstep
      split at hstep
      · next c htask _ =>
          split at hstep <;> cases hstep
          refine ⟨hnext (.release htask),
            hoffered.mono (List.Subset.refl _) (fun _ hc => hc) ?_⟩
          intro d hd
          rcases List.mem_append.mp hd with hd | hd
          · exact .inl hd
          · rw [List.mem_singleton.mp hd]
            exact .inr (offered_of_holding hconn htask)
      · cases hstep
  | getReceiveQueue r =>
      simp only [Ownership.step] at hstep
      split at hstep <;> cases hstep
      next c rest htask hqueue =>
        have hqueued : ∀ d ∈ c :: rest, s.At .queued d := by
          intro d hd
          rw [← hqueue] at hd
          exact hd
        have htaken : c ∈ s.books.offered := hoffered c (.inr (hqueued c List.mem_cons_self))
        exact ⟨hnext (.take htask htaken), hoffered.mono (List.Subset.refl _) (fun _ hc => hc)
          fun d hd => .inl (hqueued d (List.mem_cons_of_mem _ hd))⟩
  | fillFromSocket r fill =>
      simp only [Ownership.step] at hstep
      split at hstep <;> cases hstep
      · next htask _ => exact ⟨hnext (.close htask), hoffered.books (List.Subset.refl _)⟩
      · exact ⟨hbooks, hoffered⟩
      · exact ⟨hbooks, hoffered⟩
  | executeCommand r =>
      simp only [Ownership.step] at hstep
      split at hstep <;> cases hstep
      exact ⟨hbooks, hoffered⟩
  | rearm r succeeds =>
      simp only [Ownership.step] at hstep
      split at hstep <;> cases hstep
      next c htask _ =>
        refine ⟨hnext (.release htask), ?_⟩
        rintro d ((hd | hd) | hd) <;> show d ∈ s.books.offered
        · cases succeeds with
          | true =>
              rcases List.mem_cons.mp hd with rfl | hd
              · exact offered_of_holding hconn htask
              · exact hoffered d (.inl (.inl hd))
          | false => exact hoffered d (.inl (.inl hd))
        · exact hoffered d (.inl (.inr hd))
        · exact hoffered d (.inr hd)
  | unhook t =>
      simp only [Ownership.step] at hstep
      split at hstep <;> cases hstep
      next htask =>
        refine ⟨hnext (.unhook htask),
          hoffered.mono (List.Subset.refl _) ?_ fun _ hc => .inl hc⟩
        rintro d (hd | hd)
        · exact .inl (List.mem_of_mem_filter hd)
        · rcases List.mem_append.mp hd with hd | hd
          · by_cases ht : t = .main
            · simp [State.holding, if_pos ht] at hd
            · simp only [State.holding, if_neg ht] at hd
              exact .inr (List.mem_append_left _ hd)
          · exact .inr (List.mem_append_right _ hd)

/-! ### Every run -/

/-- **The hand-over closes no client twice**: its accounts are those of a run of
`Connections` that does not either. -/
theorem books_reach {managers : Nat}
    (h : Reaches (step oneshot maxUser) (fun _ _ => True) (start managers) s) :
    Reaches (Connections.step maxUser) Connections.Once Connections.start s.books := by
  have hboth : Reaches (Connections.step maxUser) Connections.Once Connections.start s.books ∧
      Offered s := by
    induction h with
    | refl =>
        refine ⟨.refl, ?_⟩
        rintro c ((hc | hc) | hc) <;> cases hc
    | tail label hreaches _ hbook ih =>
        exact books_step (inv_of_reaches hreaches) ih.2 ih.1 hbook
  exact hboth.1

/-- The connection count of the epoll builds, with no assumption on closing. -/
theorem account_of_reaches {managers : Nat}
    (h : Reaches (step oneshot maxUser) (fun _ _ => True) (start managers) s) :
    s.books.connCount = s.books.lstClient.length + ∑ t, (s.books.tasks t).pending ∧
      s.books.listedUsers ≤ maxUser.toNat := by
  obtain ⟨hinv, hlimit⟩ := Connections.inv_of_reaches (books_reach h)
  exact ⟨hinv.account, le_trans (Nat.le_add_right _ _) hlimit⟩

/-- A client that a thread has got hold of is in the list until the thread closes it. -/
theorem listed_of_holding {managers : Nat}
    (h : Reaches (step oneshot maxUser) (fun _ _ => True) (start managers) s)
    (htask : s.books.tasks t = .holding c) : c ∈ s.books.lstClient := by
  have hbooks := books_reach h
  have hinv := (Connections.inv_of_reaches hbooks).1
  have hopen : c ∉ s.books.closed :=
    (inv_of_reaches h).not_closed (Connections.closing_of_reaches hbooks) (t := t)
      (by rw [htask]; rfl) (by rw [htask]; rfl)
  exact hinv.roster.known c (.inl (offered_of_holding hinv htask)) hopen

end ThunderChat.Ownership

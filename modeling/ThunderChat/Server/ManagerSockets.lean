import ThunderChat.Server.ClosedOnce
import ThunderChat.Server.Negotiation

/-!
The managers' sockets of `ChatServer`.

`ConnectToMgr` pushes what each negotiation returns, also `NULL`, on
`m_lstChatManagerSocket`. `RegisterManager` makes a client of each entry, and the
broadcasters write through the entries without a lock. The client owns the socket: its
destructor deletes it, and the entry stays in the list.

* `usable_of_reaches`: the entries taken are sockets that have not been deleted, in every
  run in which all managers have been connected and no manager's client is closed.
* `null_taken_and_deleted_taken`: each of the two is needed.
-/

namespace ThunderChat.ManagerSockets

open Transition
open Connections (Client Thread Task)

/-- The threads of `Ownership`, the list, and the entry each broadcaster takes next if it
is in `MessageBroadcastToManagers`. The `k`-th entry is the socket of the manager client
`k`. -/
structure State (R B : Type) where
  own : Ownership.State R
  chatManagerSockets : List (Option Nat)
  cursors : B → Option Nat

/-- A step of the acceptor, the main thread or a receiver, or a broadcaster enters
`MessageBroadcastToManagers`, takes an entry and writes, or has written to all. -/
inductive Label (R B : Type) where
  | own (label : Ownership.Label R)
  | enter (b : B)
  | take (b : B)
  | leave (b : B)

variable {R B M : Type} [DecidableEq R] [DecidableEq B]

/-- After `ConnectToMgr`. -/
def start (pid : Nat) (negotiations : List (Negotiation M)) : State R B :=
  let sockets := (ManagerLinks.start.connectToMgr pid negotiations).chatManagerSockets
  ⟨Ownership.start sockets.length, sockets, fun _ => none⟩

/-- The broadcaster goes on to another entry. -/
def State.move (s : State R B) (b : B) (cursor : Option Nat) : State R B :=
  { s with cursors := Function.update s.cursors b cursor }

/-- What a label does. The process ends where a thread uses a `NULL` socket. -/
def step (oneshot : Bool) (maxUser : Int) (s : State R B) : Label R B → Option (State R B)
  | .own .registerManager =>
      match s.chatManagerSockets[s.own.books.managers]? with
      | some (some _) =>
          (Ownership.step oneshot maxUser s.own .registerManager).map ({ s with own := · })
      | _ => none
  | .own label => (Ownership.step oneshot maxUser s.own label).map ({ s with own := · })
  | .enter b =>
      match s.cursors b with
      | none => some (s.move b (some 0))
      | some _ => none
  | .take b =>
      match s.cursors b with
      | some i =>
          match s.chatManagerSockets[i]? with
          | some (some _) => some (s.move b (some (i + 1)))
          | _ => none
      | none => none
  | .leave b =>
      match s.cursors b with
      | some i => if s.chatManagerSockets.length ≤ i then some (s.move b none) else none
      | none => none

/-- The entry the step takes from the list, and its index. -/
def Label.takes (s : State R B) : Label R B → Option (Nat × Option Nat)
  | .own .registerManager =>
      if s.own.toRegister = 0 then none
      else s.chatManagerSockets[s.own.books.managers]?.map (s.own.books.managers, ·)
  | .take b => (s.cursors b).bind fun i => s.chatManagerSockets[i]?.map (i, ·)
  | _ => none

/-- The step does not call `CloseClient` for a manager's client. -/
def Keeps (s : State R B) : Label R B → Prop
  | .own label => ∀ k, label.closes s.own ≠ some (.manager k)
  | _ => True

/-! ### What each step preserves -/

variable {s s' : State R B} {oneshot : Bool} {maxUser : Int} {label : Label R B}

/-- A step is one of `Ownership`, or one of a broadcaster. The list stays. -/
theorem step_cases (hstep : step oneshot maxUser s label = some s') :
    ((∃ l, label = .own l ∧ Ownership.step oneshot maxUser s.own l = some s'.own) ∨
      s'.own = s.own) ∧ s'.chatManagerSockets = s.chatManagerSockets := by
  cases label with
  | own l =>
      have hown : ∃ own, Ownership.step oneshot maxUser s.own l = some own ∧
          { s with own := own } = s' := by
        cases l with
        | registerManager =>
            simp only [ManagerSockets.step] at hstep
            split at hstep
            · exact Option.map_eq_some_iff.mp hstep
            · cases hstep
        | _ => exact Option.map_eq_some_iff.mp hstep
      obtain ⟨own, hown, rfl⟩ := hown
      exact ⟨.inl ⟨l, rfl, hown⟩, rfl⟩
  | enter b =>
      simp only [ManagerSockets.step] at hstep
      split at hstep <;> cases hstep
      exact ⟨.inr rfl, rfl⟩
  | take b =>
      simp only [ManagerSockets.step] at hstep
      split at hstep
      · split at hstep <;> cases hstep
        exact ⟨.inr rfl, rfl⟩
      · cases hstep
  | leave b =>
      simp only [ManagerSockets.step] at hstep
      split at hstep
      · split at hstep <;> cases hstep
        exact ⟨.inr rfl, rfl⟩
      · cases hstep

omit [DecidableEq R] [DecidableEq B] in
/-- An entry that is taken is in the list. -/
theorem mem_of_takes {i : Nat} {socket : Option Nat} (h : label.takes s = some (i, socket)) :
    socket ∈ s.chatManagerSockets := by
  have hget : s.chatManagerSockets[i]? = some socket := by
    cases label with
    | own l =>
        cases l with
        | registerManager =>
            simp only [Label.takes] at h
            split at h
            · cases h
            · obtain ⟨entry, hentry, heq⟩ := Option.map_eq_some_iff.mp h
              cases heq
              exact hentry
        | _ => cases h
    | take b =>
        obtain ⟨cursor, -, h⟩ := Option.bind_eq_some_iff.mp h
        obtain ⟨entry, hentry, heq⟩ := Option.map_eq_some_iff.mp h
        cases heq
        exact hentry
    | _ => cases h
  exact List.mem_of_getElem? hget

/-! ### Every run -/

variable {pid : Nat} {negotiations : List (Negotiation M)}

/-- The other threads' part of a run. -/
theorem own_reaches {meets : State R B → Label R B → Prop}
    (h : Reaches (step oneshot maxUser) meets (start pid negotiations) s) :
    Reaches (Ownership.step oneshot maxUser) (fun _ _ => True)
      (Ownership.start
        (ManagerLinks.start.connectToMgr pid negotiations).chatManagerSockets.length) s.own := by
  induction h with
  | refl => exact .refl
  | tail label _ _ hstep ih =>
      rcases (step_cases hstep).1 with ⟨l, rfl, hown⟩ | hown
      · exact ih.tail l trivial hown
      · rw [hown]
        exact ih

/-- The list is the one `ConnectToMgr` has made. -/
theorem chatManagerSockets_of_reaches {meets : State R B → Label R B → Prop}
    (h : Reaches (step oneshot maxUser) meets (start pid negotiations) s) :
    s.chatManagerSockets
      = (ManagerLinks.start.connectToMgr pid negotiations).chatManagerSockets := by
  induction h with
  | refl => rfl
  | tail label _ _ hstep ih => exact (step_cases hstep).2.trans ih

/-- No manager's client has been closed. -/
theorem not_closed_of_reaches
    (h : Reaches (step oneshot maxUser) Keeps (start pid negotiations) s) (k : Nat) :
    .manager k ∉ s.own.books.closed := by
  induction h with
  | refl => exact List.not_mem_nil
  | tail label _ hkeeps hstep ih =>
      intro hclosed
      rcases (step_cases hstep).1 with ⟨l, rfl, hown⟩ | hown
      · rcases Ownership.closed_of_step hown hclosed with hclosed | hcloses
        · exact ih hclosed
        · exact hkeeps k hcloses
      · rw [hown] at hclosed
        exact ih hclosed

variable [Fintype R]

/-- **The managers' sockets are usable** in every run in which every manager has been
connected and no step calls `CloseClient` for a manager's client: an entry that
`MessageBroadcastToManagers` or `RegisterManager` takes is a socket, and the client that
owns it has not been deleted. -/
theorem usable_of_reaches (hconnects : ∀ n ∈ negotiations, n.connects)
    (h : Reaches (step oneshot maxUser) Keeps (start pid negotiations) s) :
    ∀ (label : Label R B) i socket, label.takes s = some (i, socket) →
      socket.isSome ∧ ¬ s.own.Deleted (.manager i) := by
  intro label i socket htakes
  have hlist := chatManagerSockets_of_reaches h
  have hmem : socket ∈ s.chatManagerSockets := mem_of_takes htakes
  rw [hlist] at hmem
  refine ⟨ManagerLinks.isSome_of_connects hconnects (fun _ h => by cases h) socket hmem, ?_⟩
  intro hdeleted
  have hclosing := Connections.closing_of_reaches (Ownership.books_reach (own_reaches h))
  exact not_closed_of_reaches h i (hclosing.deleted _ hdeleted)

/-- One manager, connected. -/
def connected : List (Negotiation Unit) := [⟨(), 0, .answered 61 62⟩]

/-- The manager is registered, and a broadcaster takes its socket. -/
theorem usable_after_register :
    ∃ s : State Unit Unit,
      run (step true 62) (start 63 connected) [.own .registerManager, .own (.list .main),
        .own (.addClient .main true), .enter ()] = some s ∧
      (Label.take ()).takes s = some (0, some 61) ∧
      ((some 61 : Option Nat).isSome ∧ ¬ s.own.Deleted (.manager 0)) := by
  have hreaches : Reaches (step true 62) Keeps (start 63 connected : State Unit Unit) _ :=
    reaches_of_run [.own .registerManager, .own (.list .main), .own (.addClient .main true),
      .enter ()] (by simp [Keeps, Ownership.Label.closes]) rfl
  refine ⟨_, rfl, rfl, ?_⟩
  refine usable_of_reaches ?_ hreaches (.take ()) 0 (some 61) rfl
  intro n hn
  rw [List.mem_singleton.mp hn]
  rfl

/-- A manager that cannot be connected leaves a `NULL` socket for `RegisterManager`. And
when epoll reports an error on a manager's socket, the main loop deletes it, and the next
broadcaster writes through it. -/
theorem null_taken_and_deleted_taken :
    ¬ (∀ (negotiations : List (Negotiation Unit)) (s : State Unit Unit),
        Reaches (step true 62) (fun _ _ => True) (start 63 negotiations) s →
        ∀ (label : Label Unit Unit) i socket, label.takes s = some (i, socket) →
          socket.isSome) ∧
    ¬ ∀ (negotiations : List (Negotiation Unit)) (s : State Unit Unit),
        Reaches (step true 62) (fun _ _ => True) (start 63 negotiations) s →
        ∀ (label : Label Unit Unit) i socket, label.takes s = some (i, socket) →
          ¬ s.own.Deleted (.manager i) := by
  constructor
  · intro hclaim
    have hnull := hclaim [⟨(), 0, .connectFailed⟩] _ .refl (.own .registerManager) 0 none rfl
    cases hnull
  · intro hclaim
    have hreaches : Reaches (step true 62) (fun _ _ => True)
        (start 63 connected : State Unit Unit) _ :=
      reaches_of_run [.own .registerManager, .own (.list .main), .own (.addClient .main true),
        .own (.poll [⟨.manager 0, true, false⟩]), .own .next, .own .closeEvent,
        .own (.unhook .main), .own (.unlist .main), .enter ()] (fun _ _ _ => trivial) rfl
    exact hclaim connected _ hreaches (.take ()) 0 (some 61) rfl List.mem_cons_self

end ThunderChat.ManagerSockets

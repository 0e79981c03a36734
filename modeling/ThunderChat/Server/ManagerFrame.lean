import ThunderChat.Server.ManagerOwnership

/-!
What a step of the loop or of a worker of `ChatManager` leaves alone.

A step concerns one thread. Only the loop makes and lists clients, only `CloseClient` takes
them off the list (`lstChatServer_of_step`), and a worker that executes the packets of a client
keeps it until it arms it again (`stays_of_step`).
-/

namespace ThunderChat.ManagerOwnership

open Transition
open ManagerConnections (Thread Task)

variable {W : Type} [DecidableEq W] {s s' : State W} {t : Thread W} {task : Task}
  {build : Build} {maxUser : Int} {label : Label W} {c : Nat}

/-- The thread that takes the step. -/
def Label.thread : Label W → Thread W
  | .test | .addClient _ | .list | .count | .poll _ | .next | .closeEvent | .readEvent
  | .skipEvent | .resume | .putWorkQueue => .loop
  | .getWorkQueue w | .fillFromSocket w _ | .executeCommand w | .rearm w _ => .worker w
  | .unhook t | .unlist t | .destroy t | .uncount t => t

/-- The other threads stay where they are, and only a new client is given to the `IOMP`. -/
structure Effect (s s' : State W) (t : Thread W) : Prop where
  tasks : ∀ i, i ≠ t → s'.books.tasks i = s.books.tasks i
  stages : ∀ w, .worker w ≠ t → s'.stages w = s.stages w
  created : s.books.created ≤ s'.books.created
  offered : ∀ c, s'.books.tasks .loop = .offered c →
    s.books.tasks .loop = .offered c ∨ s.books.created = c ∧ c < s'.books.created

omit [DecidableEq W] in
theorem effect_of_eq (hbooks : s'.books = s.books)
    (hstages : ∀ w, .worker w ≠ t → s'.stages w = s.stages w) : Effect s s' t where
  tasks i _ := by rw [hbooks]
  stages := hstages
  created := Nat.le_of_eq (congrArg _ hbooks.symm)
  offered c hc := .inl (by rwa [hbooks] at hc)

theorem effect_of_put (htasks : s'.books.tasks = Function.update s.books.tasks t task)
    (hcreated : s.books.created ≤ s'.books.created)
    (hoffered : ∀ c, task = .offered c → s.books.created = c ∧ c < s'.books.created)
    (hstages : ∀ w, .worker w ≠ t → s'.stages w = s.stages w) : Effect s s' t where
  tasks i hi := by rw [htasks, Function.update_of_ne hi]
  stages := hstages
  created := hcreated
  offered c hc := by
    rw [htasks] at hc
    by_cases ht : t = .loop
    · rw [ht, Function.update_self] at hc
      exact .inr (hoffered c hc)
    · rw [Function.update_of_ne (Ne.symm ht)] at hc
      exact .inl hc

/-- What a step does elsewhere. -/
theorem effect_of_step (hstep : step build maxUser s label = some s') :
    Effect s s' label.thread := by
  have hsame : ∀ w, .worker w ≠ label.thread → s.stages w = s.stages w := fun _ _ => rfl
  cases label with
  | test =>
      simp only [ManagerOwnership.step] at hstep
      split at hstep
      · obtain ⟨books, hbook, rfl⟩ := Option.map_eq_some_iff.mp hstep
        cases ManagerConnections.steps_of_step hbook with
        | full _ _ => exact effect_of_eq rfl hsame
        | test _ _ => exact effect_of_put rfl (Nat.le_refl _) (by simp) hsame
      · cases hstep
  | addClient succeeds =>
      obtain ⟨books, hbook, rfl⟩ := Option.map_eq_some_iff.mp hstep
      cases ManagerConnections.steps_of_step hbook with
      | offer _ =>
          refine effect_of_put rfl (Nat.le_succ _) (fun c hc => ?_) hsame
          cases hc
          exact ⟨rfl, Nat.lt_succ_self _⟩
      | reject _ => exact effect_of_put rfl (Nat.le_succ _) (by simp) hsame
  | count =>
      simp only [ManagerOwnership.step] at hstep
      split at hstep
      · obtain ⟨books, hbook, rfl⟩ := Option.map_eq_some_iff.mp hstep
        cases ManagerConnections.steps_of_step hbook with
        | count _ => exact effect_of_put rfl (Nat.le_refl _) (by simp) hsame
      · cases hstep
  | list | unlist _ | destroy _ | uncount _ =>
      obtain ⟨books, hbook, rfl⟩ := Option.map_eq_some_iff.mp hstep
      cases ManagerConnections.steps_of_step hbook
      exact effect_of_put rfl (Nat.le_refl _) (by simp) hsame
  | poll _ | readEvent =>
      simp only [ManagerOwnership.step] at hstep
      split at hstep
      · split at hstep <;> cases hstep
        exact effect_of_eq rfl hsame
      · cases hstep
  | closeEvent | skipEvent | putWorkQueue =>
      simp only [ManagerOwnership.step] at hstep
      split at hstep
      · split at hstep <;> cases hstep
        exact effect_of_put rfl (Nat.le_refl _) (by simp) hsame
      · cases hstep
  | resume =>
      simp only [ManagerOwnership.step] at hstep
      split at hstep
      · split at hstep <;> cases hstep
        · exact effect_of_put rfl (Nat.le_refl _) (by simp) hsame
        · exact effect_of_eq rfl hsame
      · cases hstep
  | next | unhook _ | rearm _ _ =>
      simp only [ManagerOwnership.step] at hstep
      split at hstep <;> cases hstep
      exact effect_of_put rfl (Nat.le_refl _) (by simp) hsame
  | executeCommand _ =>
      simp only [ManagerOwnership.step] at hstep
      split at hstep <;> cases hstep
      exact effect_of_eq rfl hsame
  | getWorkQueue w =>
      simp only [ManagerOwnership.step] at hstep
      split at hstep <;> cases hstep
      refine effect_of_put rfl (Nat.le_refl _) (by simp) fun i hi => ?_
      exact Function.update_of_ne (fun hiw => hi (congrArg _ hiw)) _ _
  | fillFromSocket w fill =>
      have hstages : ∀ stage i, .worker i ≠ Thread.worker w →
          Function.update s.stages w stage i = s.stages i := fun stage i hi =>
        Function.update_of_ne (fun hiw => hi (congrArg _ hiw)) _ _
      simp only [ManagerOwnership.step] at hstep
      split at hstep <;> cases hstep
      · exact effect_of_put rfl (Nat.le_refl _) (by simp) hsame
      · exact effect_of_eq rfl (hstages _)
      · exact effect_of_eq rfl (hstages _)

/-- Only the loop lists clients, and only `CloseClient` takes them off the list. -/
theorem lstChatServer_of_step (hstep : step build maxUser s label = some s')
    (hlist : label ≠ .list) (hunlist : ∀ t, label ≠ .unlist t) :
    s'.books.lstChatServer = s.books.lstChatServer := by
  cases label with
  | list => exact absurd rfl hlist
  | unlist t => exact absurd rfl (hunlist t)
  | test | count =>
      simp only [ManagerOwnership.step] at hstep
      split at hstep
      · obtain ⟨books, hbook, rfl⟩ := Option.map_eq_some_iff.mp hstep
        cases ManagerConnections.steps_of_step hbook <;> rfl
      · cases hstep
  | addClient _ | destroy _ | uncount _ =>
      obtain ⟨books, hbook, rfl⟩ := Option.map_eq_some_iff.mp hstep
      cases ManagerConnections.steps_of_step hbook <;> rfl
  | poll _ | readEvent | closeEvent | skipEvent | putWorkQueue | resume =>
      simp only [ManagerOwnership.step] at hstep
      split at hstep
      · split at hstep <;> cases hstep <;> rfl
      · cases hstep
  | next | unhook _ | rearm _ _ | executeCommand _ | getWorkQueue _ | fillFromSocket _ _ =>
      simp only [ManagerOwnership.step] at hstep
      split at hstep <;> cases hstep <;> rfl

theorem list_of_step (hstep : step build maxUser s .list = some s')
    (htask : s.books.tasks .loop = .offered c) :
    s'.books.lstChatServer = s.books.lstChatServer ++ [c] ∧ s'.books.tasks .loop = .listed c := by
  obtain ⟨books, hbook, rfl⟩ := Option.map_eq_some_iff.mp hstep
  cases ManagerConnections.steps_of_step hbook with
  | list htask' =>
      cases htask.symm.trans htask'
      refine ⟨rfl, ?_⟩
      show Function.update s.books.tasks .loop (.listed c) .loop = .listed c
      rw [Function.update_self]

theorem unlist_of_step (hstep : step build maxUser s (.unlist t) = some s')
    (htask : s.books.tasks t = .unhooked c) :
    s'.books.lstChatServer = s.books.lstChatServer.filter (· != c) := by
  obtain ⟨books, hbook, rfl⟩ := Option.map_eq_some_iff.mp hstep
  cases ManagerConnections.steps_of_step hbook with
  | unlist htask' =>
      cases htask.symm.trans htask'
      rfl

theorem received_of_step {w : W}
    (hstep : step build maxUser s (.fillFromSocket w .received) = some s') :
    s'.books = s.books ∧ s'.stages w = .filled := by
  simp only [ManagerOwnership.step] at hstep
  split at hstep
  · contradiction
  · contradiction
  · cases hstep
    exact ⟨rfl, Function.update_self ..⟩
  · cases hstep

/-- A worker with the packets of a client executes them until it arms the client. -/
theorem stays_of_step {w : W} (hstep : step build maxUser s label = some s')
    (htask : s.books.tasks (.worker w) = .holding c) (hstage : s.stages w = .filled)
    (hrearm : ∀ succeeds, label ≠ .rearm w succeeds) :
    s'.books.tasks (.worker w) = .holding c ∧ s'.stages w = .filled := by
  have heffect := effect_of_step hstep
  by_cases hw : .worker w = label.thread
  · cases label with
    | test | addClient _ | list | count | poll _ | next | closeEvent | readEvent | skipEvent
    | resume | putWorkQueue => cases hw
    | rearm _ succeeds =>
        cases hw
        exact absurd rfl (hrearm succeeds)
    | executeCommand _ =>
        simp only [ManagerOwnership.step] at hstep
        split at hstep <;> cases hstep
        exact ⟨htask, hstage⟩
    | getWorkQueue _ | fillFromSocket _ _ =>
        cases hw
        simp [ManagerOwnership.step, htask, hstage] at hstep
    | unhook _ | unlist _ | destroy _ | uncount _ =>
        cases hw
        simp [ManagerOwnership.step, ManagerConnections.step, htask] at hstep
  · exact ⟨(heffect.tasks _ hw).trans htask, (heffect.stages w hw).trans hstage⟩

end ThunderChat.ManagerOwnership

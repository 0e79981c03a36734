import ThunderChat.Foundation.Transition
import Mathlib.Data.List.Basic

/-!
The manager's watch over its chat server processes.

`SpawnProcess` forks `DN_CNT` children, and `ChatManager::Run` calls
`WatchChildProcess` once in each round of its loop. Children exit, are killed, are
stopped and go on at any time. `waitpid` reports one child that has terminated, which
reaps it, or that has been stopped since it was last reported (`WUNTRACED`), and for
either report `WatchChildProcess` forks another child. What `fork` and the callers
of `SpawnProcess` and `WatchChildProcess` make of a failure is nothing: the return
values are ignored.

* `balance_step`: by how much each step changes the number of children, reaped ones
  that are being replaced included.
* `live_eq_of_reaches`: while no stop is reported and no fork fails, the number of
  children is the configured one.
* `stop_adds_a_child`: one reported stop, and there is a child too many.
-/

namespace ThunderChat.Supervision

open Transition

/-- A child as the kernel keeps it. A stop is reported once, a terminated child is
kept until it is reaped. -/
inductive Child where
  | running
  | stopped (reported : Bool)
  | terminated
  deriving DecidableEq, Repr

/-- What may happen to a child: it exits or is killed, is stopped, or is continued. -/
inductive Change where
  | terminate
  | stop
  | resume
  deriving DecidableEq, Repr

/-- The child afterwards, where the change is possible. -/
def Child.change : Child → Change → Option Child
  | .terminated, _ => none
  | _, .terminate => some .terminated
  | .running, .stop => some (.stopped false)
  | .stopped _, .resume => some .running
  | .stopped _, .stop => none
  | .running, .resume => none

/-- `waitpid` has something to report about the child. -/
def Child.reportable : Child → Bool
  | .terminated => true
  | .stopped reported => !reported
  | .running => false

/-- Where the manager is: in the loop of `SpawnProcess` with children left to fork, in
the loop of `Run`, or in `SpawnChildProcess` because `waitpid` has returned a child. -/
inductive Phase where
  | spawning (left : Nat)
  | looping
  | respawning
  deriving DecidableEq, Repr

/-- The manager and its children. -/
structure State where
  children : List Child
  phase : Phase
  deriving DecidableEq, Repr

/-- A child changes, `fork` returns, the loop of `SpawnProcess` ends, or `waitpid`
returns a child or nothing. -/
inductive Label where
  | change (i : Nat) (what : Change)
  | fork (succeeds : Bool)
  | spawned
  | waitpid (reported : Option Nat)

/-- `SpawnProcess` is called with `DN_CNT`. -/
def start (dnCnt : Nat) : State := ⟨[], .spawning dnCnt⟩

/-- One step of the manager or of a child. -/
def step (s : State) : Label → Option State
  | .change i what =>
      ((s.children[i]?).bind fun child => child.change what).map fun child =>
        { s with children := s.children.set i child }
  | .fork succeeds =>
      let children := if succeeds then s.children ++ [.running] else s.children
      match s.phase with
      -- A failed fork leaves the loop of `SpawnProcess`, and `DoFork` goes on.
      | .spawning (left + 1) => some ⟨children, if succeeds then .spawning left else .looping⟩
      | .respawning => some ⟨children, .looping⟩
      | _ => none
  | .spawned =>
      match s.phase with
      | .spawning 0 => some { s with phase := .looping }
      | _ => none
  | .waitpid (some i) =>
      match s.phase, s.children[i]? with
      | .looping, some .terminated => some ⟨s.children.eraseIdx i, .respawning⟩
      | .looping, some (.stopped false) =>
          some ⟨s.children.set i (.stopped true), .respawning⟩
      | _, _ => none
  | .waitpid none =>
      if s.phase = .looping ∧ ∀ child ∈ s.children, child.reportable = false then some s
      else none

/-- The children that have terminated and are not reaped. -/
def terminated (s : State) : Nat := s.children.countP (· = .terminated)

/-- The children that have not terminated. -/
def live (s : State) : Nat := s.children.countP (· ≠ .terminated)

/-! ### What one step does -/

/-- The children the manager is about to fork. -/
def Phase.toFork : Phase → Nat
  | .spawning left => left
  | .looping => 0
  | .respawning => 1

/-- The children there are and those about to be forked. -/
def balance (s : State) : Nat := s.children.length + s.phase.toFork

/-- The children a step adds to the balance: a stopped one is replaced. -/
def gained (s : State) : Label → Nat
  | .waitpid (some i) => if s.children[i]? = some (.stopped false) then 1 else 0
  | _ => 0

/-- The children a step takes from the balance: those a failed fork leaves out. -/
def lost (s : State) : Label → Nat
  | .fork false => s.phase.toFork
  | _ => 0

variable {s s' : State} {label : Label} {dnCnt : Nat}

theorem balance_start : balance (start dnCnt) = dnCnt := Nat.zero_add dnCnt

theorem live_add_terminated : live s + terminated s = s.children.length := by
  have h := List.length_eq_countP_add_countP (fun child : Child => decide (child ≠ .terminated))
    (l := s.children)
  simpa [live, terminated] using h.symm

/-- The account of one step. -/
theorem balance_step (hstep : step s label = some s') :
    balance s' + lost s label = balance s + gained s label := by
  cases label with
  | change i what =>
      simp only [step, Option.map_eq_some_iff] at hstep
      obtain ⟨child, -, rfl⟩ := hstep
      simp [balance, lost, gained]
  | fork succeeds =>
      simp only [step] at hstep
      cases succeeds with
      | true =>
          split at hstep <;> cases hstep
          · next left hphase => simp [balance, lost, gained, hphase, Phase.toFork]; omega
          · next hphase => simp [balance, lost, gained, hphase, Phase.toFork]
      | false =>
          split at hstep <;> cases hstep
          · next left hphase => simp [balance, lost, gained, hphase, Phase.toFork]
          · next hphase => simp [balance, lost, gained, hphase, Phase.toFork]
  | spawned =>
      simp only [step] at hstep
      split at hstep <;> cases hstep
      next hphase => simp [balance, lost, gained, hphase, Phase.toFork]
  | waitpid reported =>
      cases reported with
      | none =>
          simp only [step, Option.ite_none_right_eq_some, Option.some.injEq] at hstep
          obtain ⟨-, rfl⟩ := hstep
          simp [lost, gained]
      | some i =>
          simp only [step] at hstep
          split at hstep <;> cases hstep
          · next hphase hchild =>
              obtain ⟨hlt, -⟩ := List.getElem?_eq_some_iff.mp hchild
              have hlength := List.length_eraseIdx_add_one hlt
              simp only [balance, lost, gained, hphase, hchild, Phase.toFork]
              exact hlength
          · next hphase hchild => simp [balance, lost, gained, hphase, hchild, Phase.toFork]

/-! ### Every run -/

/-- The step reports no stop, and no fork fails in it. -/
def Undisturbed (s : State) : Label → Prop
  | .waitpid (some i) => s.children[i]? ≠ some (.stopped false)
  | .fork succeeds => succeeds = true
  | _ => True

theorem gained_eq_zero (h : Undisturbed s label) : gained s label = 0 := by
  cases label with
  | waitpid reported =>
      cases reported with
      | none => rfl
      | some i => exact if_neg h
  | _ => rfl

theorem lost_eq_zero (h : Undisturbed s label) : lost s label = 0 := by
  cases label with
  | fork succeeds =>
      cases h
      rfl
  | _ => rfl

/-- An undisturbed run keeps the balance. -/
theorem balance_of_reaches (h : Reaches step Undisturbed (start dnCnt) s) :
    balance s = dnCnt := by
  induction h with
  | refl => exact balance_start
  | tail label _ hmeets hstep ih =>
      have haccount := balance_step hstep
      rw [gained_eq_zero hmeets, lost_eq_zero hmeets, ih] at haccount
      exact haccount

/-- **Supervision keeps the number of workers** in every run in which `waitpid` reports
no stop and no `fork` fails: in the manager's loop, whenever every terminated child has
been reaped, `DN_CNT` children have not terminated. -/
theorem live_eq_of_reaches (h : Reaches step Undisturbed (start dnCnt) s)
    (hphase : s.phase = .looping) (hreaped : terminated s = 0) : live s = dnCnt := by
  have hbalance := balance_of_reaches h
  rw [balance, hphase, ← live_add_terminated, hreaped] at hbalance
  exact hbalance

/-- A child is killed, reaped and replaced. -/
theorem live_after_kill :
    ∃ s, run step (start 2) [.fork true, .fork true, .spawned, .change 0 .terminate,
        .waitpid (some 0), .fork true] = some s ∧ live s = 2 := by
  have hspawned : Reaches step Undisturbed (start 2) _ :=
    reaches_of_run [.fork true, .fork true, .spawned, .change 0 .terminate]
      (by simp [Undisturbed]) rfl
  have hreaches : Reaches step Undisturbed (start 2) _ :=
    .tail (.fork true) (.tail (.waitpid (some 0)) hspawned (by simp [Undisturbed]) rfl)
      (by simp [Undisturbed]) rfl
  exact ⟨_, rfl, live_eq_of_reaches hreaches rfl rfl⟩

/-- A child is stopped, and `WatchChildProcess` starts another one beside it. -/
theorem stop_adds_a_child :
    ¬ ∀ (dnCnt : Nat) (s : State), Reaches step (fun _ _ => True) (start dnCnt) s →
      s.phase = .looping → terminated s = 0 → live s = dnCnt := by
  intro hclaim
  have hrun : Reaches step (fun _ _ => True) (start 1)
      ⟨[.stopped true, .running], .looping⟩ :=
    reaches_of_run [.fork true, .spawned, .change 0 .stop, .waitpid (some 0), .fork true]
      (fun _ _ _ => trivial) rfl
  have hlive := hclaim 1 _ hrun rfl rfl
  cases hlive

end ThunderChat.Supervision

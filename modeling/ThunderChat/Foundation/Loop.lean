import Mathlib.Logic.Relation
import Mathlib.Order.WellFounded

/-!
Loops of an imperative program as iterated bodies.

A body maps a loop state either to the state it leaves the loop with or to the
state of the next round. `run` executes it with fuel; `Exits` forgets the fuel
and `Halts` the final state. Nothing here is specific to one program.

* `exits_unique`: a loop leaves with at most one state.
* `halts_of_decreasing`: a measure that every reachable round decreases bounds
  the rounds.
* `not_halts_of_again_self`: a body that reproduces its state never leaves.
* `Exits.simulates`: a loop that goes along with another one leaves with it.
-/

namespace ThunderChat.Loop

/-- What one execution of a loop body does. -/
inductive Next (σ : Type) where
  | exit (s : σ)
  | again (s : σ)
  deriving DecidableEq, Repr

variable {σ : Type}

/-- Run a loop for at most `fuel` rounds; `none` means the fuel ran out. -/
def run (body : σ → Next σ) : Nat → σ → Option σ
  | 0, _ => none
  | fuel + 1, s =>
      match body s with
      | .exit r => some r
      | .again t => run body fuel t

/-- The loop entered in `s` leaves with `r`. -/
def Exits (body : σ → Next σ) (s r : σ) : Prop := ∃ fuel, run body fuel s = some r

/-- The loop entered in `s` performs finitely many rounds. -/
def Halts (body : σ → Next σ) (s : σ) : Prop := ∃ r, Exits body s r

/-- One round of the loop. -/
def Round (body : σ → Next σ) (s t : σ) : Prop := body s = .again t

/-- Finitely many rounds of the loop. -/
def Rounds (body : σ → Next σ) : σ → σ → Prop := Relation.ReflTransGen (Round body)

/-- Every round of the loop entered in `s` makes the measure smaller. -/
def Decreasing (body : σ → Next σ) (μ : σ → Nat) (s : σ) : Prop :=
  ∀ t u, Rounds body s t → Round body t u → μ u < μ t

variable {body : σ → Next σ} {s t r : σ}

/-! ### Fuel -/

theorem run_succ_of_exit {fuel : Nat} (h : body s = .exit r) : run body (fuel + 1) s = some r := by
  simp [run, h]

theorem run_succ_of_again {fuel : Nat} (h : body s = .again t) :
    run body (fuel + 1) s = run body fuel t := by
  simp [run, h]

/-- More fuel does not change a result. -/
theorem run_mono {fuel more : Nat} (h : run body fuel s = some r) (le : fuel ≤ more) :
    run body more s = some r := by
  induction fuel generalizing s more with
  | zero => cases h
  | succ fuel ih =>
      obtain ⟨more, rfl⟩ : ∃ k, more = k + 1 := ⟨more - 1, by omega⟩
      cases hb : body s with
      | exit r' =>
          rw [run_succ_of_exit hb] at h ⊢
          exact h
      | again t =>
          rw [run_succ_of_again hb] at h ⊢
          exact ih h (Nat.le_of_succ_le_succ le)

theorem exits_of_exit (h : body s = .exit r) : Exits body s r :=
  ⟨1, run_succ_of_exit h⟩

theorem exits_of_again (h : body s = .again t) (rest : Exits body t r) : Exits body s r := by
  obtain ⟨fuel, hrun⟩ := rest
  exact ⟨fuel + 1, (run_succ_of_again h).trans hrun⟩

/-- A loop leaves with at most one state. -/
theorem exits_unique {r' : σ} (h : Exits body s r) (h' : Exits body s r') : r = r' := by
  obtain ⟨n, hn⟩ := h
  obtain ⟨m, hm⟩ := h'
  have left := run_mono hn (le_max_left n m)
  have right := run_mono hm (le_max_right n m)
  exact Option.some.inj (left.symm.trans right)

theorem halts_of_again (h : body s = .again t) (rest : Halts body t) : Halts body s :=
  rest.imp fun _ => exits_of_again h

/-! ### Rules -/

theorem Decreasing.of_round {μ : σ → Nat} (h : Decreasing body μ s) (hb : Round body s t) :
    Decreasing body μ t :=
  fun u v hu hv => h u v (.head hb hu) hv

/-- A measure that every round decreases bounds the number of rounds. -/
theorem halts_of_decreasing {μ : σ → Nat} (h : Decreasing body μ s) : Halts body s := by
  induction hn : μ s using Nat.strong_induction_on generalizing s with
  | _ n ih =>
      cases hb : body s with
      | exit r => exact ⟨r, exits_of_exit hb⟩
      | again t =>
          have smaller : μ t < n := hn ▸ h s t .refl hb
          exact halts_of_again hb (ih (μ t) smaller (h.of_round hb) rfl)

/-- A body that hands its own state to the next round never leaves the loop. -/
theorem not_halts_of_again_self (h : body s = .again s) : ¬ Halts body s := by
  rintro ⟨r, fuel, hrun⟩
  induction fuel with
  | zero => simp [run] at hrun
  | succ fuel ih => exact ih ((run_succ_of_again h).symm.trans hrun)

/-! ### Two loops -/

/-- Two bodies do the same: both leave or both go on, in related states. -/
inductive Along {τ : Type} (R : σ → τ → Prop) : Next σ → Next τ → Prop where
  | exit {s : σ} {t : τ} : R s t → Along R (.exit s) (.exit t)
  | again {s : σ} {t : τ} : R s t → Along R (.again s) (.again t)

theorem Along.swap {τ : Type} {R : σ → τ → Prop} {next : Next σ} {next' : Next τ}
    (h : Along R next next') : Along (fun t s => R s t) next' next := by
  cases h with
  | exit hR => exact .exit hR
  | again hR => exact .again hR

/-- A loop that goes along with another one, round by round, leaves with it. -/
theorem Exits.simulates {τ : Type} {body' : τ → Next τ} {R : σ → τ → Prop}
    (hround : ∀ s t, R s t → Along R (body s) (body' t)) (h : Exits body s r) {t : τ}
    (hst : R s t) : ∃ r', R r r' ∧ Exits body' t r' := by
  obtain ⟨fuel, hrun⟩ := h
  induction fuel generalizing s t with
  | zero => cases hrun
  | succ fuel ih =>
      have hboth := hround s t hst
      rw [run] at hrun
      generalize body s = next at hboth hrun
      generalize hnext : body' t = next' at hboth
      cases hboth with
      | exit hR =>
          cases hrun
          exact ⟨_, hR, exits_of_exit hnext⟩
      | again hR =>
          obtain ⟨r', hr, hexits⟩ := ih hR hrun
          exact ⟨r', hr, exits_of_again hnext hexits⟩

end ThunderChat.Loop

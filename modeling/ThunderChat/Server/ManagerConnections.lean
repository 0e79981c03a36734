import ThunderChat.Foundation.Roster
import ThunderChat.Foundation.Transition
import Mathlib.Data.Fintype.Sum
import Mathlib.Tactic.DeriveFintype

/-!
The connection count of `ChatManager`.

The event loop accepts: it tests the count, gives the new client to the `IOMP`, lists it
and counts it, and only then polls again. `CloseClient`, which the loop and the workers
call, takes a client from the `IOMP` and, under the lock, from the list, deletes it and
counts down. Each read or update of the count is one step, as in `Connections`.

* `Inv.step`: what the steps preserve as long as no client is closed twice.
* `inv_of_reaches`: the count never exceeds the limit, and in between it is the length
  of the list.
-/

namespace ThunderChat.ManagerConnections

open Transition
open scoped BigOperators

/-- The event loop and the `ThreadWorker`s. -/
inductive Thread (W : Type) where
  | loop
  | worker (w : W)
  deriving DecidableEq, Repr, Fintype

/-- Where a thread is. A client is the number of its `ClientChatServer`, in the order of
the constructor calls. -/
inductive Task where
  | idle
  /-- The loop has accepted a socket and found the count below the limit. -/
  | tested
  /-- The loop has given the client to the `IOMP`. -/
  | offered (c : Nat)
  /-- The loop has listed the client. -/
  | listed (c : Nat)
  /-- The thread has got hold of a client. -/
  | holding (c : Nat)
  /-- In `CloseClient`. -/
  | closing (c : Nat)
  /-- In `CloseClient`, out of the `IOMP`. -/
  | unhooked (c : Nat)
  /-- In `CloseClient`, out of the list. -/
  | unlisted (c : Nat)
  /-- In `CloseClient`, deleted. -/
  | destroyed (c : Nat)
  deriving DecidableEq, Repr

/-- The client the thread works on: no other thread should. -/
def Task.client : Task → Option Nat
  | .offered c | .listed c | .holding c | .closing c | .unhooked c | .unlisted c => some c
  | .idle | .tested | .destroyed _ => none

/-- The count, the list and the threads. `watched` are the clients the loop may be told
of, `closed` those that `CloseClient` has been called for, `deleted` those it has
deleted. -/
structure State (W : Type) where
  connCount : Int
  lstChatServer : List Nat
  tasks : Thread W → Task
  created : Nat
  watched : List Nat
  closed : List Nat
  deleted : List Nat

/-- One step of a thread. -/
inductive Label (W : Type) where
  | test
  | offer (succeeds : Bool)
  | list
  | count
  | take (t : Thread W) (c : Nat)
  | release (t : Thread W)
  | close (t : Thread W)
  | unhook (t : Thread W)
  | unlist (t : Thread W)
  | destroy (t : Thread W)
  | uncount (t : Thread W)

variable {W : Type} [DecidableEq W]

/-- No client has been accepted. -/
def start : State W := ⟨0, [], fun _ => .idle, 0, [], [], []⟩

/-- The thread goes on to another task. -/
def State.put (s : State W) (t : Thread W) (task : Task) : State W :=
  { s with tasks := Function.update s.tasks t task }

/-- The thread enters `CloseClient`. -/
def State.enterClose (s : State W) (t : Thread W) (c : Nat) : State W :=
  { s.put t (.closing c) with closed := c :: s.closed }

/-- What a label does. -/
def step (maxUser : Int) (s : State W) : Label W → Option (State W)
  | .test =>
      match s.tasks .loop with
      | .idle => if s.connCount ≥ maxUser then some s else some (s.put .loop .tested)
      | _ => none
  | .offer succeeds =>
      match s.tasks .loop with
      | .tested =>
          -- A client that cannot be watched is deleted at once.
          some { s.put .loop (if succeeds then .offered s.created else .idle) with
            created := s.created + 1 }
      | _ => none
  | .list =>
      match s.tasks .loop with
      | .offered c =>
          some { s.put .loop (.listed c) with lstChatServer := s.lstChatServer ++ [c] }
      | _ => none
  | .count =>
      match s.tasks .loop with
      | .listed c =>
          some { s.put .loop .idle with
            connCount := s.connCount + 1
            watched := c :: s.watched }
      | _ => none
  | .take t c =>
      match s.tasks t with
      | .idle => if c ∈ s.watched then some (s.put t (.holding c)) else none
      | _ => none
  | .release t =>
      match s.tasks t with
      | .holding _ => some (s.put t .idle)
      | _ => none
  | .close t =>
      match s.tasks t with
      | .holding c => some (s.enterClose t c)
      | _ => none
  | .unhook t =>
      match s.tasks t with
      | .closing c => some (s.put t (.unhooked c))
      | _ => none
  | .unlist t =>
      match s.tasks t with
      | .unhooked c =>
          some { s.put t (.unlisted c) with
            lstChatServer := s.lstChatServer.filter (· != c) }
      | _ => none
  | .destroy t =>
      match s.tasks t with
      | .unlisted c => some { s.put t (.destroyed c) with deleted := c :: s.deleted }
      | _ => none
  | .uncount t =>
      match s.tasks t with
      | .destroyed _ => some { s.put t .idle with connCount := s.connCount - 1 }
      | _ => none

/-- What a step that is possible has found and does. -/
inductive Steps (maxUser : Int) (s : State W) : Label W → State W → Prop where
  | full (htask : s.tasks .loop = .idle) (hfull : maxUser ≤ s.connCount) :
      Steps maxUser s .test s
  | test (htask : s.tasks .loop = .idle) (hfree : s.connCount < maxUser) :
      Steps maxUser s .test (s.put .loop .tested)
  | offer (htask : s.tasks .loop = .tested) :
      Steps maxUser s (.offer true)
        { s.put .loop (.offered s.created) with created := s.created + 1 }
  | reject (htask : s.tasks .loop = .tested) :
      Steps maxUser s (.offer false) { s.put .loop .idle with created := s.created + 1 }
  | list {c : Nat} (htask : s.tasks .loop = .offered c) :
      Steps maxUser s .list
        { s.put .loop (.listed c) with lstChatServer := s.lstChatServer ++ [c] }
  | count {c : Nat} (htask : s.tasks .loop = .listed c) :
      Steps maxUser s .count { s.put .loop .idle with
        connCount := s.connCount + 1
        watched := c :: s.watched }
  | take {t : Thread W} {c : Nat} (htask : s.tasks t = .idle) (hwatched : c ∈ s.watched) :
      Steps maxUser s (.take t c) (s.put t (.holding c))
  | release {t : Thread W} {c : Nat} (htask : s.tasks t = .holding c) :
      Steps maxUser s (.release t) (s.put t .idle)
  | close {t : Thread W} {c : Nat} (htask : s.tasks t = .holding c) :
      Steps maxUser s (.close t) (s.enterClose t c)
  | unhook {t : Thread W} {c : Nat} (htask : s.tasks t = .closing c) :
      Steps maxUser s (.unhook t) (s.put t (.unhooked c))
  | unlist {t : Thread W} {c : Nat} (htask : s.tasks t = .unhooked c) :
      Steps maxUser s (.unlist t)
        { s.put t (.unlisted c) with lstChatServer := s.lstChatServer.filter (· != c) }
  | destroy {t : Thread W} {c : Nat} (htask : s.tasks t = .unlisted c) :
      Steps maxUser s (.destroy t) { s.put t (.destroyed c) with deleted := c :: s.deleted }
  | uncount {t : Thread W} {c : Nat} (htask : s.tasks t = .destroyed c) :
      Steps maxUser s (.uncount t) { s.put t .idle with connCount := s.connCount - 1 }

theorem steps_of_step {maxUser : Int} {s s' : State W} {label : Label W}
    (h : step maxUser s label = some s') : Steps maxUser s label s' := by
  cases label with
  | test =>
      simp only [ManagerConnections.step] at h
      split at h
      · next htask =>
          split at h <;> cases h
          · next hfull => exact .full htask hfull
          · next hfree => exact .test htask (Int.not_le.mp hfree)
      · cases h
  | offer succeeds =>
      simp only [ManagerConnections.step] at h
      split at h <;> cases h
      next htask =>
        cases succeeds with
        | true => exact .offer htask
        | false => exact .reject htask
  | list =>
      simp only [ManagerConnections.step] at h
      split at h <;> cases h
      next htask => exact .list htask
  | count =>
      simp only [ManagerConnections.step] at h
      split at h <;> cases h
      next htask => exact .count htask
  | take t c =>
      simp only [ManagerConnections.step] at h
      split at h
      · next htask =>
          split at h <;> cases h
          next hwatched => exact .take htask hwatched
      · cases h
  | release t =>
      simp only [ManagerConnections.step] at h
      split at h <;> cases h
      next htask => exact .release htask
  | close t =>
      simp only [ManagerConnections.step] at h
      split at h <;> cases h
      next htask => exact .close htask
  | unhook t =>
      simp only [ManagerConnections.step] at h
      split at h <;> cases h
      next htask => exact .unhook htask
  | unlist t =>
      simp only [ManagerConnections.step] at h
      split at h <;> cases h
      next htask => exact .unlist htask
  | destroy t =>
      simp only [ManagerConnections.step] at h
      split at h <;> cases h
      next htask => exact .destroy htask
  | uncount t =>
      simp only [ManagerConnections.step] at h
      split at h <;> cases h
      next htask => exact .uncount htask

/-- `CloseClient` is called for a client for the first time, if the step calls it. -/
def Once (s : State W) : Label W → Prop
  | .close t => ∀ c, s.tasks t = .holding c → c ∉ s.closed
  | _ => True

/-! ### The account -/

/-- A listed client that is not counted yet. -/
def Task.uncounted : Task → Nat
  | .listed _ => 1
  | _ => 0

/-- A counted client that is not in the list any more. -/
def Task.pending : Task → Nat
  | .unlisted _ => 1
  | .destroyed _ => 1
  | _ => 0

/-- The client that the thread is in `CloseClient` with and has not yet taken out of the
list. -/
def Task.closes : Task → Option Nat
  | .closing c => some c
  | .unhooked c => some c
  | _ => none

/-- The thread is in `CloseClient`. -/
def Task.InClose : Task → Prop
  | .closing _ => True
  | .unhooked _ => True
  | .unlisted _ => True
  | .destroyed _ => True
  | _ => False

/-- The loop may be told of the client, or has just listed it. -/
def State.Known (s : State W) (c : Nat) : Prop :=
  c ∈ s.watched ∨ ∃ t, s.tasks t = .listed c

/-- What is known of a thread's client. -/
def State.Fits (s : State W) (t : Thread W) : Task → Prop
  | .offered c => (c ∉ s.lstChatServer ∧ c < s.created) ∧ t = .loop
  | .listed _ => t = .loop
  | .holding c => c ∈ s.watched
  | _ => True

/-- The clients of the list and of the threads. -/
structure Inv [Fintype W] (s : State W) : Prop where
  account : s.connCount + ∑ t, (s.tasks t).uncounted
    = s.lstChatServer.length + ∑ t, (s.tasks t).pending
  roster : Roster.Inv Task.closes s.lstChatServer s.closed s.Known s.tasks
  created : ∀ c ∈ s.lstChatServer, c < s.created
  fits : ∀ t, s.Fits t (s.tasks t)

/-! ### What each step preserves -/

variable {s s' : State W} {t : Thread W} {c : Nat} {old task : Task}

/-- What a thread goes on to says what it has listed. -/
theorem State.known_of_update (s : State W) (t : Thread W) (task : Task)
    (h : c ∈ s.watched ∨ ∃ i, Function.update s.tasks t task i = .listed c) :
    s.Known c ∨ task = .listed c := by
  rcases h with hwatched | ⟨i, hi⟩
  · exact .inl (.inl hwatched)
  · by_cases hit : i = t
    · rw [hit, Function.update_self] at hi
      exact .inr hi
    · rw [Function.update_of_ne hit] at hi
      exact .inl (.inr ⟨i, hi⟩)

/-- A thread that lists nothing makes nothing known. -/
theorem State.known_of_put (s : State W) (t : Thread W) (task : Task)
    (hlisted : ∀ c, task ≠ .listed c) (h : (s.put t task).Known c) : s.Known c :=
  (s.known_of_update t task h).resolve_right (hlisted c)

omit [DecidableEq W] in
/-- What is known of a thread's client stays known while other threads change the list. -/
theorem State.Fits.mono (h : s.Fits t task)
    (hoffered : ∀ c, task = .offered c → c ∉ s.lstChatServer → c ∉ s'.lstChatServer)
    (hcreated : s.created ≤ s'.created) (hwatched : s.watched ⊆ s'.watched) :
    s'.Fits t task := by
  cases task with
  | offered c => exact ⟨⟨hoffered c rfl h.1.1, lt_of_lt_of_le h.1.2 hcreated⟩, h.2⟩
  | listed c => exact h
  | holding c => exact hwatched h
  | _ => trivial

variable [Fintype W]

omit [DecidableEq W] in
theorem inv_start : Inv (start : State W) where
  account := by simp [start, Task.uncounted, Task.pending]
  roster :=
    { nodup := List.nodup_nil
      known := by
        rintro c (hwatched | ⟨t, ht⟩) _
        · cases hwatched
        · cases ht
      closing := nofun
      apart := nofun }
  created := nofun
  fits _ := trivial

/-- The account after a thread has gone on and the count and the list have changed. -/
theorem Inv.account_put (h : Inv s) (htask : s.tasks t = old) {count : Int} {list : List Nat}
    (hcount : count + task.uncounted + s.lstChatServer.length + old.pending
      = s.connCount + old.uncounted + list.length + task.pending) :
    count + ∑ i, (Function.update s.tasks t task i).uncounted
      = list.length + ∑ i, (Function.update s.tasks t task i).pending := by
  have huncounted : ∑ i, (Function.update s.tasks t task i).uncounted + (s.tasks t).uncounted
      = ∑ i, (s.tasks i).uncounted + task.uncounted := Threads.sum_update Task.uncounted
  have hpending : ∑ i, (Function.update s.tasks t task i).pending + (s.tasks t).pending
      = ∑ i, (s.tasks i).pending + task.pending := Threads.sum_update Task.pending
  have haccount := h.account
  rw [htask] at huncounted hpending
  omega

/-- A thread goes on with what it has, or gets hold of a client, and the count changes
with what it has to count. -/
theorem Inv.put (h : Inv s) (htask : s.tasks t = old) {count : Int} {created : Nat}
    (hcount : count + task.uncounted + old.pending = s.connCount + old.uncounted + task.pending)
    (hcreated : s.created ≤ created) (hfits : State.Fits { s with created := created } t task)
    (hlisted : ∀ c, task ≠ .listed c) (hcloses : ∀ c, task.closes = some c → old.closes = some c) :
    Inv { s.put t task with connCount := count, created := created } where
  account := by
    have hsame : count + task.uncounted + s.lstChatServer.length + old.pending
        = s.connCount + old.uncounted + s.lstChatServer.length + task.pending := by omega
    exact h.account_put htask hsame
  roster := h.roster.put
    (fun _ hd => s.known_of_put t task hlisted hd) (fun d hd => htask ▸ hcloses d hd)
  created d hd := lt_of_lt_of_le (h.created d hd) hcreated
  fits := (Function.forall_update_iff s.tasks _).mpr
    ⟨hfits, fun i _ => (h.fits i).mono (fun _ _ hd => hd) hcreated (List.Subset.refl _)⟩

/-- The client the loop has given to the `IOMP` is listed. -/
theorem Inv.list (h : Inv s) (htask : s.tasks .loop = .offered c) :
    Inv { s.put .loop (.listed c) with lstChatServer := s.lstChatServer ++ [c] } where
  account := by
    have hlisted : s.connCount + (Task.listed c).uncounted + s.lstChatServer.length
          + (Task.offered c).pending
        = s.connCount + (Task.offered c).uncounted + (s.lstChatServer ++ [c]).length
          + (Task.listed c).pending := by
      simp only [Task.uncounted, Task.pending, List.length_append, List.length_singleton]
      omega
    exact h.account_put htask hlisted
  roster := by
    have hfits := h.fits .loop
    rw [htask] at hfits
    refine h.roster.add hfits.1.1 (fun d hd => (s.known_of_update .loop _ hd).imp_right ?_) rfl
    intro heq
    cases heq
    rfl
  created d hd := by
    have hfits := h.fits .loop
    rw [htask] at hfits
    rcases List.mem_append.mp hd with hd | hd
    · exact h.created d hd
    · exact List.mem_singleton.mp hd ▸ hfits.1.2
  fits := by
    refine (Function.forall_update_iff s.tasks _).mpr ⟨rfl, fun i hi => ?_⟩
    have hfits := h.fits i
    refine hfits.mono ?_ (Nat.le_refl _) (List.Subset.refl _)
    intro d hd
    rw [hd] at hfits
    exact absurd hfits.2 hi

/-- The client the loop has listed is counted, and the loop may poll again. -/
theorem Inv.count (h : Inv s) (htask : s.tasks .loop = .listed c) :
    Inv { s.put .loop .idle with connCount := s.connCount + 1, watched := c :: s.watched } where
  account := by
    have hcounted : s.connCount + 1 + Task.idle.uncounted + s.lstChatServer.length
          + (Task.listed c).pending
        = s.connCount + (Task.listed c).uncounted + s.lstChatServer.length
          + Task.idle.pending := by
      simp only [Task.uncounted, Task.pending]
      omega
    exact h.account_put htask hcounted
  roster := by
    refine h.roster.put ?_ nofun
    rintro d (hd | hd)
    · rcases List.mem_cons.mp hd with rfl | hd
      · exact .inr ⟨.loop, htask⟩
      · exact .inl hd
    · exact s.known_of_put .loop .idle nofun (.inr hd)
  created := h.created
  fits := (Function.forall_update_iff s.tasks _).mpr ⟨trivial, fun i _ => (h.fits i).mono
    (fun _ _ hd => hd) (Nat.le_refl _) (List.subset_cons_self _ _)⟩

/-- `CloseClient` is called for a client for the first time. -/
theorem Inv.close (h : Inv s) (htask : s.tasks t = .holding c) (honce : c ∉ s.closed) :
    Inv (s.enterClose t c) where
  account := h.account_put htask rfl
  roster := by
    have hfits := h.fits t
    rw [htask] at hfits
    exact h.roster.close (.inl hfits) honce
      (fun _ hd => s.known_of_put t (.closing c) nofun hd) rfl
  created := h.created
  fits := (Function.forall_update_iff s.tasks _).mpr ⟨trivial, fun i _ => (h.fits i).mono
    (fun _ _ hd => hd) (Nat.le_refl _) (List.Subset.refl _)⟩

/-- A client that is being closed is taken out of the list. -/
theorem Inv.unlist (h : Inv s) (htask : s.tasks t = .unhooked c) :
    Inv { s.put t (.unlisted c) with lstChatServer := s.lstChatServer.filter (· != c) } := by
  have hcloses : (s.tasks t).closes = some c := by
    rw [htask]
    rfl
  have hknown : ∀ d, (s.put t (.unlisted c)).Known d → s.Known d :=
    fun _ hd => s.known_of_put t (.unlisted c) nofun hd
  have hdone : (Task.unlisted c).closes = none := rfl
  obtain ⟨hlength, hroster⟩ := h.roster.remove hcloses hknown hdone
  refine ⟨?_, hroster, fun d hd => h.created d (List.mem_of_mem_filter hd), ?_⟩
  · have hunlisted : s.connCount + (Task.unlisted c).uncounted + s.lstChatServer.length
          + (Task.unhooked c).pending
        = s.connCount + (Task.unhooked c).uncounted
          + (s.lstChatServer.filter (· != c)).length + (Task.unlisted c).pending := by
      simp only [Task.uncounted, Task.pending]
      omega
    exact h.account_put htask hunlisted
  · refine (Function.forall_update_iff s.tasks _).mpr ⟨trivial, fun i _ => ?_⟩
    refine (h.fits i).mono ?_ (Nat.le_refl _) (List.Subset.refl _)
    exact fun d _ hnot hmem => hnot (List.mem_of_mem_filter hmem)

/-- The loop goes on with what it has. -/
theorem Inv.goesOn (h : Inv s) (htask : s.tasks t = old)
    (huncounted : task.uncounted = old.uncounted) (hpending : task.pending = old.pending)
    (hfits : s.Fits t task) (hlisted : ∀ c, task ≠ .listed c)
    (hcloses : ∀ c, task.closes = some c → old.closes = some c) : Inv (s.put t task) :=
  h.put htask (by rw [huncounted, hpending]) (Nat.le_refl _) hfits hlisted hcloses

/-- **Every step keeps the account**, as long as no client is closed twice. -/
theorem Inv.step {maxUser : Int} {label : Label W} (h : Inv s) (honce : Once s label)
    (hstep : step maxUser s label = some s') : Inv s' := by
  cases steps_of_step hstep with
  | full _ _ => exact h
  | test htask _ => exact h.goesOn htask rfl rfl trivial nofun nofun
  | offer htask =>
      refine h.put htask rfl (Nat.le_succ _) ⟨⟨?_, Nat.lt_succ_self _⟩, rfl⟩ nofun nofun
      exact fun hmem => Nat.lt_irrefl _ (h.created _ hmem)
  | reject htask => exact h.put htask rfl (Nat.le_succ _) trivial nofun nofun
  | list htask => exact h.list htask
  | count htask => exact h.count htask
  | take htask hwatched => exact h.goesOn htask rfl rfl hwatched nofun nofun
  | release htask => exact h.goesOn htask rfl rfl trivial nofun nofun
  | close htask => exact h.close htask (honce _ htask)
  | unhook htask => exact h.goesOn htask rfl rfl trivial nofun fun d hd => hd
  | unlist htask => exact h.unlist htask
  | @destroy t c htask =>
      have hgone : Inv (s.put t (.destroyed c)) := h.goesOn htask rfl rfl trivial nofun nofun
      exact ⟨hgone.account, hgone.roster, hgone.created, hgone.fits⟩
  | @uncount _ c htask =>
      have hcount : s.connCount - 1 + Task.idle.uncounted + (Task.destroyed c).pending
          = s.connCount + (Task.destroyed c).uncounted + Task.idle.pending := by
        simp only [Task.uncounted, Task.pending]
        omega
      exact h.put htask hcount (Nat.le_refl _) trivial nofun nofun

/-! ### The limit -/

/-- The loop has found a free place and not yet counted the client. -/
def Task.seat : Task → Nat
  | .tested => 1
  | .offered _ => 1
  | .listed _ => 1
  | _ => 0

/-- The count, with the client the loop is accepting, is within the limit. A negative
limit admits nobody. -/
def WithinLimit (maxUser : Int) (s : State W) : Prop :=
  s.connCount + (s.tasks .loop).seat ≤ max maxUser 0

variable {maxUser : Int} {label : Label W}

omit [Fintype W] in
/-- A thread that takes no place leaves the loop with the place it has. -/
theorem seat_update_le (htask : s.tasks t = old) (hseat : task.seat ≤ old.seat) :
    (Function.update s.tasks t task .loop).seat ≤ (s.tasks .loop).seat := by
  by_cases ht : t = .loop
  · subst ht
    rwa [Function.update_self, htask]
  · rw [Function.update_of_ne (Ne.symm ht)]

omit [DecidableEq W] [Fintype W] in
/-- So the limit is kept while nothing is counted. -/
theorem WithinLimit.mono (h : WithinLimit maxUser s)
    (hseat : (s'.tasks .loop).seat ≤ (s.tasks .loop).seat) (hcount : s'.connCount ≤ s.connCount) :
    WithinLimit maxUser s' := by
  rw [WithinLimit] at h ⊢
  omega

omit [Fintype W] in
/-- Every step keeps the limit: only the loop counts clients, and it has tested the
count. -/
theorem WithinLimit.step (h : WithinLimit maxUser s)
    (hstep : step maxUser s label = some s') : WithinLimit maxUser s' := by
  cases steps_of_step hstep with
  | full _ _ => exact h
  | test _ hfree =>
      have hseat : (Function.update s.tasks .loop .tested .loop).seat = 1 := by
        rw [Function.update_self, Task.seat]
      show s.connCount + (Function.update s.tasks .loop .tested .loop).seat ≤ max maxUser 0
      rw [hseat]
      omega
  | offer htask => exact h.mono (seat_update_le htask (Nat.le_refl 1)) (Int.le_refl _)
  | reject htask => exact h.mono (seat_update_le htask (Nat.zero_le 1)) (Int.le_refl _)
  | list htask => exact h.mono (seat_update_le htask (Nat.le_refl 1)) (Int.le_refl _)
  | @count c htask =>
      have hseat : (Function.update s.tasks .loop .idle .loop).seat = 0 := by
        rw [Function.update_self]
        rfl
      have hlisted : (Task.listed c).seat = 1 := rfl
      show s.connCount + 1 + (Function.update s.tasks .loop .idle .loop).seat ≤ max maxUser 0
      rw [WithinLimit, htask, hlisted] at h
      rw [hseat]
      omega
  | uncount htask =>
      exact h.mono (seat_update_le htask (Nat.le_refl 0)) (Int.sub_le_self _ Int.one_nonneg)
  | take htask _ | release htask | close htask | unhook htask | unlist htask | destroy htask =>
      exact h.mono (seat_update_le htask (Nat.le_refl 0)) (Int.le_refl _)

/-! ### Every run -/

/-- The account and the limit, in every run that closes no client twice. -/
theorem inv_of_reaches (h : Reaches (step maxUser) Once (start : State W) s) :
    Inv s ∧ WithinLimit maxUser s := by
  induction h with
  | refl => exact ⟨inv_start, by simp [WithinLimit, start, Task.seat]⟩
  | tail label _ honce hstep ih => exact ⟨ih.1.step honce hstep, ih.2.step hstep⟩

omit [DecidableEq W] in
/-- Between two iterations of the loop and with no thread in `CloseClient`, the count is
the length of the list. -/
theorem Inv.connCount_eq (h : Inv s) (hloop : s.tasks .loop = .idle)
    (hclose : ∀ t, ¬ (s.tasks t).InClose) : s.connCount = s.lstChatServer.length := by
  have huncounted : ∑ t, (s.tasks t).uncounted = 0 := by
    refine Finset.sum_eq_zero fun t _ => ?_
    have hfits := h.fits t
    cases htask : s.tasks t with
    | listed c =>
        rw [htask] at hfits
        rw [hfits, hloop] at htask
        cases htask
    | _ => rfl
  have hpending : ∑ t, (s.tasks t).pending = 0 := by
    refine Finset.sum_eq_zero fun t _ => ?_
    have hopen := hclose t
    cases htask : s.tasks t with
    | unlisted c =>
        rw [htask] at hopen
        exact absurd trivial hopen
    | destroyed c =>
        rw [htask] at hopen
        exact absurd trivial hopen
    | _ => rfl
  have haccount := h.account
  rw [huncounted, hpending] at haccount
  simpa using haccount

end ThunderChat.ManagerConnections

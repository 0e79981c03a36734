import ThunderChat.Client.Basic
import ThunderChat.Foundation.Roster
import ThunderChat.Foundation.Transition
import Mathlib.Data.Fintype.Sum
import Mathlib.Tactic.DeriveFintype

/-!
The connection count of `ChatServer`.

`AcceptClient` counts a client, lists it and gives it to the `IOMP`; if that fails, it
calls `CloseClient`, which takes the client from the `IOMP`, then, under the lock, from
the list, deletes it and counts down. The acceptor thread tests the count in a step of
its own before it accepts a user; the main thread accepts the managers' sockets without
a test. Every thread may get hold of a client that has been given to the `IOMP` and
close it.

Each read or update of the count and of the list is one step of the model, in any order
of the threads. The count is a plain `int` that no lock guards: that `++` and `--` of two
threads do not overlap is assumed.

* `Inv.step`: what the steps preserve as long as no client is closed twice.
* `inv_of_reaches`: the count is the length of the list and what is in between, and
  there are never more users than the limit.
-/

namespace ThunderChat.Connections

open Transition
open scoped BigOperators

/-- A `ChatUser`: the `n`-th user that has been accepted, or the client of the `k`-th
socket of `m_lstChatManagerSocket`. -/
inductive Client where
  | user (n : Nat)
  | manager (k : Nat)
  deriving DecidableEq, Repr

/-- `GetType`. -/
def Client.type : Client → ClientType
  | .user _ => .user
  | .manager _ => .chatManager

/-- The threads that accept and close clients. -/
inductive Thread (R : Type) where
  | acceptor
  | main
  | receiver (r : R)
  deriving DecidableEq, Repr, Fintype

/-- Where a thread is. -/
inductive Task where
  | idle
  /-- The acceptor has found the count below the limit. -/
  | tested
  /-- In `AcceptClient`, counted. -/
  | counted (c : Client)
  /-- In `AcceptClient`, listed. -/
  | listed (c : Client)
  /-- The thread has got hold of a client. -/
  | holding (c : Client)
  /-- In `CloseClient`. -/
  | closing (c : Client)
  /-- In `CloseClient`, out of the `IOMP`. -/
  | unhooked (c : Client)
  /-- In `CloseClient`, out of the list and deleted. -/
  | unlisted (c : Client)
  deriving DecidableEq, Repr

/-- The client the thread works on: no other thread should. -/
def Task.client : Task → Option Client
  | .counted c | .listed c | .holding c | .closing c | .unhooked c => some c
  | .idle | .tested | .unlisted _ => none

/-- The count, the list and the threads. `offered` are the clients the `IOMP` has been
given, `closed` those that `CloseClient` has been called for, `deleted` those it has
deleted. -/
structure State (R : Type) where
  connCount : Int
  lstClient : List Client
  tasks : Thread R → Task
  users : Nat
  managers : Nat
  offered : List Client
  closed : List Client
  deleted : List Client

/-- One step of a thread. -/
inductive Label (R : Type) where
  | test
  | acceptUser
  | acceptManager
  | list (t : Thread R)
  | offer (t : Thread R) (succeeds : Bool)
  | take (t : Thread R) (c : Client)
  | release (t : Thread R)
  | close (t : Thread R)
  | unhook (t : Thread R)
  | unlist (t : Thread R)
  | uncount (t : Thread R)

variable {R : Type} [DecidableEq R]

/-- No client has been accepted. -/
def start : State R := ⟨0, [], fun _ => .idle, 0, 0, [], [], []⟩

/-- The thread goes on to another task. -/
def State.put (s : State R) (t : Thread R) (task : Task) : State R :=
  { s with tasks := Function.update s.tasks t task }

/-- The thread enters `CloseClient`. -/
def State.enterClose (s : State R) (t : Thread R) (c : Client) : State R :=
  { s.put t (.closing c) with closed := c :: s.closed }

/-- What a label does. -/
def step (maxUser : Int) (s : State R) : Label R → Option (State R)
  | .test =>
      match s.tasks .acceptor with
      | .idle => if s.connCount ≥ maxUser then some s else some (s.put .acceptor .tested)
      | _ => none
  | .acceptUser =>
      match s.tasks .acceptor with
      | .tested =>
          some { s.put .acceptor (.counted (.user s.users)) with
            connCount := s.connCount + 1
            users := s.users + 1 }
      | _ => none
  | .acceptManager =>
      match s.tasks .main with
      | .idle =>
          some { s.put .main (.counted (.manager s.managers)) with
            connCount := s.connCount + 1
            managers := s.managers + 1 }
      | _ => none
  | .list t =>
      match s.tasks t with
      | .counted c => some { s.put t (.listed c) with lstClient := s.lstClient ++ [c] }
      | _ => none
  | .offer t succeeds =>
      match s.tasks t with
      | .listed c =>
          if succeeds then some { s.put t .idle with offered := c :: s.offered }
          else some (s.enterClose t c)
      | _ => none
  | .take t c =>
      match s.tasks t with
      | .idle => if c ∈ s.offered then some (s.put t (.holding c)) else none
      | _ => none
  | .release t =>
      match s.tasks t with
      | .holding _ => some (s.put t .idle)
      | _ => none
  | .close t =>
      match s.tasks t with
      | .holding c => some (s.enterClose t c)
      | _ => none
  | .unhook t =>
      match s.tasks t with
      | .closing c => some (s.put t (.unhooked c))
      | _ => none
  | .unlist t =>
      match s.tasks t with
      | .unhooked c =>
          some { s.put t (.unlisted c) with
            lstClient := s.lstClient.filter (· != c)
            deleted := c :: s.deleted }
      | _ => none
  | .uncount t =>
      match s.tasks t with
      | .unlisted _ => some { s.put t .idle with connCount := s.connCount - 1 }
      | _ => none

/-- What a step that is possible has found and does. -/
inductive Steps (maxUser : Int) (s : State R) : Label R → State R → Prop where
  | full (htask : s.tasks .acceptor = .idle) (hfull : maxUser ≤ s.connCount) :
      Steps maxUser s .test s
  | test (htask : s.tasks .acceptor = .idle) (hfree : s.connCount < maxUser) :
      Steps maxUser s .test (s.put .acceptor .tested)
  | acceptUser (htask : s.tasks .acceptor = .tested) :
      Steps maxUser s .acceptUser { s.put .acceptor (.counted (.user s.users)) with
        connCount := s.connCount + 1
        users := s.users + 1 }
  | acceptManager (htask : s.tasks .main = .idle) :
      Steps maxUser s .acceptManager { s.put .main (.counted (.manager s.managers)) with
        connCount := s.connCount + 1
        managers := s.managers + 1 }
  | list {t : Thread R} {c : Client} (htask : s.tasks t = .counted c) :
      Steps maxUser s (.list t)
        { s.put t (.listed c) with lstClient := s.lstClient ++ [c] }
  | offer {t : Thread R} {c : Client} (htask : s.tasks t = .listed c) :
      Steps maxUser s (.offer t true) { s.put t .idle with offered := c :: s.offered }
  | reject {t : Thread R} {c : Client} (htask : s.tasks t = .listed c) :
      Steps maxUser s (.offer t false) (s.enterClose t c)
  | take {t : Thread R} {c : Client} (htask : s.tasks t = .idle) (hoffered : c ∈ s.offered) :
      Steps maxUser s (.take t c) (s.put t (.holding c))
  | release {t : Thread R} {c : Client} (htask : s.tasks t = .holding c) :
      Steps maxUser s (.release t) (s.put t .idle)
  | close {t : Thread R} {c : Client} (htask : s.tasks t = .holding c) :
      Steps maxUser s (.close t) (s.enterClose t c)
  | unhook {t : Thread R} {c : Client} (htask : s.tasks t = .closing c) :
      Steps maxUser s (.unhook t) (s.put t (.unhooked c))
  | unlist {t : Thread R} {c : Client} (htask : s.tasks t = .unhooked c) :
      Steps maxUser s (.unlist t) { s.put t (.unlisted c) with
        lstClient := s.lstClient.filter (· != c)
        deleted := c :: s.deleted }
  | uncount {t : Thread R} {c : Client} (htask : s.tasks t = .unlisted c) :
      Steps maxUser s (.uncount t) { s.put t .idle with connCount := s.connCount - 1 }

theorem steps_of_step {maxUser : Int} {s s' : State R} {label : Label R}
    (h : step maxUser s label = some s') : Steps maxUser s label s' := by
  cases label with
  | test =>
      simp only [Connections.step] at h
      split at h
      · next htask =>
          split at h <;> cases h
          · next hfull => exact .full htask hfull
          · next hfree => exact .test htask (Int.not_le.mp hfree)
      · cases h
  | acceptUser =>
      simp only [Connections.step] at h
      split at h <;> cases h
      next htask => exact .acceptUser htask
  | acceptManager =>
      simp only [Connections.step] at h
      split at h <;> cases h
      next htask => exact .acceptManager htask
  | list t =>
      simp only [Connections.step] at h
      split at h <;> cases h
      next htask => exact .list htask
  | offer t succeeds =>
      simp only [Connections.step] at h
      split at h
      · next htask =>
          cases succeeds with
          | true =>
              cases h
              exact .offer htask
          | false =>
              cases h
              exact .reject htask
      · cases h
  | take t c =>
      simp only [Connections.step] at h
      split at h
      · next htask =>
          split at h <;> cases h
          next hoffered => exact .take htask hoffered
      · cases h
  | release t =>
      simp only [Connections.step] at h
      split at h <;> cases h
      next htask => exact .release htask
  | close t =>
      simp only [Connections.step] at h
      split at h <;> cases h
      next htask => exact .close htask
  | unhook t =>
      simp only [Connections.step] at h
      split at h <;> cases h
      next htask => exact .unhook htask
  | unlist t =>
      simp only [Connections.step] at h
      split at h <;> cases h
      next htask => exact .unlist htask
  | uncount t =>
      simp only [Connections.step] at h
      split at h <;> cases h
      next htask => exact .uncount htask

theorem step_of_steps {maxUser : Int} {s s' : State R} {label : Label R}
    (h : Steps maxUser s label s') : step maxUser s label = some s' := by
  cases h with
  | full htask hfull => simp only [step, htask, if_pos hfull]
  | test htask hfree => simp only [step, htask, if_neg (Int.not_le.mpr hfree)]
  | take htask hoffered => simp only [step, htask, if_pos hoffered]
  | acceptUser htask | acceptManager htask | list htask | offer htask | reject htask
  | release htask | close htask | unhook htask | unlist htask | uncount htask =>
      simp [step, htask]

/-- The client the step calls `CloseClient` for. -/
def Label.closes (s : State R) : Label R → Option Client
  | .offer t false | .close t => (s.tasks t).client
  | _ => none

/-- `CloseClient` is called for a client for the first time, if the step calls it. -/
def Once (s : State R) : Label R → Prop
  | .offer t false => ∀ c, s.tasks t = .listed c → c ∉ s.closed
  | .close t => ∀ c, s.tasks t = .holding c → c ∉ s.closed
  | _ => True

/-! ### The account -/

/-- What a thread has counted that is not in the list: a client it is accepting. -/
def Task.accepts : Task → Nat
  | .counted _ => 1
  | _ => 0

/-- What a thread has counted that is not in the list: a client it has taken out. -/
def Task.uncounts : Task → Nat
  | .unlisted _ => 1
  | _ => 0

/-- Both. -/
def Task.pending (task : Task) : Nat := task.accepts + task.uncounts

/-- The client that the thread is in `CloseClient` with and has not yet taken out of the
list. -/
def Task.closes : Task → Option Client
  | .closing c => some c
  | .unhooked c => some c
  | _ => none

/-- The client has been created. -/
def State.Born (s : State R) : Client → Prop
  | .user n => n < s.users
  | .manager k => k < s.managers

/-- The `IOMP` has been given the client, or the thread that has listed it may close it. -/
def State.Known (s : State R) (c : Client) : Prop :=
  c ∈ s.offered ∨ ∃ t, s.tasks t = .listed c

/-- What is known of a thread's client. -/
def State.Fits (s : State R) (t : Thread R) : Task → Prop
  | .counted c => (c ∉ s.lstClient ∧ s.Born c) ∧
      (c.type = .user ∧ t = .acceptor ∨ c.type = .chatManager ∧ t = .main)
  | .holding c => c ∈ s.offered
  | _ => True

/-- The clients of the list and of the threads. -/
structure Inv [Fintype R] (s : State R) : Prop where
  account : s.connCount = s.lstClient.length + ∑ t, (s.tasks t).pending
  roster : Roster.Inv Task.closes s.lstClient s.closed s.Known s.tasks
  born : ∀ c ∈ s.lstClient, s.Born c
  fits : ∀ t, s.Fits t (s.tasks t)

/-! ### What each step preserves -/

variable {s s' : State R} {t : Thread R} {c : Client} {old task : Task}

/-- What a thread goes on to says what it has listed. -/
theorem State.known_of_update (s : State R) (t : Thread R) (task : Task)
    (h : c ∈ s.offered ∨ ∃ i, Function.update s.tasks t task i = .listed c) :
    s.Known c ∨ task = .listed c := by
  rcases h with hoffered | ⟨i, hi⟩
  · exact .inl (.inl hoffered)
  · by_cases hit : i = t
    · rw [hit, Function.update_self] at hi
      exact .inr hi
    · rw [Function.update_of_ne hit] at hi
      exact .inl (.inr ⟨i, hi⟩)

/-- A thread that lists nothing makes nothing known. -/
theorem State.known_of_put (s : State R) (t : Thread R) (task : Task)
    (hlisted : ∀ c, task ≠ .listed c) (h : (s.put t task).Known c) : s.Known c :=
  (s.known_of_update t task h).resolve_right (hlisted c)

omit [DecidableEq R] in
/-- What is known of a thread's client stays known while other threads change the list. -/
theorem State.Fits.mono (h : s.Fits t task)
    (hcounted : ∀ c, task = .counted c → c ∉ s.lstClient → c ∉ s'.lstClient)
    (hborn : ∀ c, s.Born c → s'.Born c) (hoffered : s.offered ⊆ s'.offered) :
    s'.Fits t task := by
  cases task with
  | counted c => exact ⟨⟨hcounted c rfl h.1.1, hborn c h.1.2⟩, h.2⟩
  | holding c => exact hoffered h
  | _ => trivial

variable [Fintype R]

omit [DecidableEq R] in
theorem inv_start : Inv (start : State R) where
  account := by simp [start, Task.pending, Task.accepts, Task.uncounts]
  roster :=
    { nodup := List.nodup_nil
      known := by
        rintro c (hoffered | ⟨t, ht⟩) _
        · cases hoffered
        · cases ht
      closing := nofun
      apart := nofun }
  born := nofun
  fits _ := trivial

/-- The account after a thread has gone on and the count and the list have changed. -/
theorem Inv.account_put (h : Inv s) (htask : s.tasks t = old) {count : Int}
    {list : List Client} (hcount : count + s.lstClient.length + old.pending
      = s.connCount + list.length + task.pending) :
    count = list.length + ∑ i, (Function.update s.tasks t task i).pending := by
  have hsum : ∑ i, (Function.update s.tasks t task i).pending + (s.tasks t).pending
      = ∑ i, (s.tasks i).pending + task.pending := Threads.sum_update Task.pending
  have haccount := h.account
  rw [htask] at hsum
  omega

/-- The account after a thread has gone on. -/
theorem Inv.account_same (h : Inv s) (htask : s.tasks t = old)
    (hpending : old.pending = task.pending) :
    s.connCount = s.lstClient.length + ∑ i, (Function.update s.tasks t task i).pending :=
  h.account_put htask (by rw [hpending])

/-- A thread goes on with what it has, or gets hold of a client, and the count changes
with what it has counted. -/
theorem Inv.put (h : Inv s) (htask : s.tasks t = old) {count : Int}
    (hcount : count + old.pending = s.connCount + task.pending) (hfits : s.Fits t task)
    (hlisted : ∀ c, task ≠ .listed c)
    (hcloses : ∀ c, task.closes = some c → old.closes = some c) :
    Inv { s.put t task with connCount := count } where
  account := by
    have hsame : count + s.lstClient.length + old.pending
        = s.connCount + s.lstClient.length + task.pending := by omega
    exact h.account_put htask hsame
  roster := h.roster.put
    (fun _ hd => s.known_of_put t task hlisted hd) (fun d hd => htask ▸ hcloses d hd)
  born := h.born
  fits := (Function.forall_update_iff s.tasks s.Fits).mpr ⟨hfits, fun i _ => h.fits i⟩

/-- A client is created and counted. -/
theorem Inv.accept (h : Inv s) (users managers : Nat) (htask : s.tasks t = old)
    (hold : old.pending = 0) (hnew : ¬ s.Born c)
    (hrole : c.type = .user ∧ t = .acceptor ∨ c.type = .chatManager ∧ t = .main)
    (hborn : ∀ d : Client, s.Born d ∨ d = c →
      State.Born { s with users := users, managers := managers } d) :
    Inv { s.put t (.counted c) with
      connCount := s.connCount + 1, users := users, managers := managers } where
  account := by
    have hcounted : s.connCount + 1 + s.lstClient.length + old.pending
        = s.connCount + s.lstClient.length + (Task.counted c).pending := by
      rw [hold]
      simp only [Task.pending, Task.accepts, Task.uncounts]
      omega
    exact h.account_put htask hcounted
  roster := h.roster.put (fun _ hd => s.known_of_put t (.counted c) nofun hd) nofun
  born d hd := hborn d (.inl (h.born d hd))
  fits := by
    refine (Function.forall_update_iff s.tasks _).mpr ⟨?_, fun i _ => (h.fits i).mono
      (fun _ _ hd => hd) (fun d hd => hborn d (.inl hd)) (List.Subset.refl _)⟩
    exact ⟨⟨fun hc => hnew (h.born c hc), hborn c (.inr rfl)⟩, hrole⟩

omit [DecidableEq R] in
/-- The acceptor and the main thread accept different clients. -/
theorem Inv.counted_ne {i : Thread R} {d : Client} (h : Inv s) (hit : i ≠ t)
    (ht : s.tasks t = .counted c) (hi : s.tasks i = .counted d) : d ≠ c := by
  have hc := h.fits t
  have hd := h.fits i
  rw [ht] at hc
  rw [hi] at hd
  rintro rfl
  rcases hc.2 with ⟨htype, ht⟩ | ⟨htype, ht⟩ <;> rcases hd.2 with ⟨htype', hi⟩ | ⟨htype', hi⟩
  · exact hit (hi.trans ht.symm)
  · rw [htype] at htype'
    cases htype'
  · rw [htype] at htype'
    cases htype'
  · exact hit (hi.trans ht.symm)

/-- The client a thread has counted is listed. -/
theorem Inv.list (h : Inv s) (htask : s.tasks t = .counted c) :
    Inv { s.put t (.listed c) with lstClient := s.lstClient ++ [c] } where
  account := by
    have hlisted : s.connCount + s.lstClient.length + (Task.counted c).pending
        = s.connCount + (s.lstClient ++ [c]).length + (Task.listed c).pending := by
      simp [Task.pending, Task.accepts, Task.uncounts, Int.add_assoc]
    exact h.account_put htask hlisted
  roster := by
    have hfits := h.fits t
    rw [htask] at hfits
    refine h.roster.add hfits.1.1 (fun d hd => (s.known_of_update t _ hd).imp_right ?_) rfl
    intro heq
    cases heq
    rfl
  born d hd := by
    have hfits := h.fits t
    rw [htask] at hfits
    rcases List.mem_append.mp hd with hd | hd
    · exact h.born d hd
    · exact List.mem_singleton.mp hd ▸ hfits.1.2
  fits := by
    refine (Function.forall_update_iff s.tasks _).mpr ⟨trivial, fun i hi => ?_⟩
    refine (h.fits i).mono ?_ (fun _ hd => hd) (List.Subset.refl _)
    intro d hd hnot hmem
    rcases List.mem_append.mp hmem with hmem | hmem
    · exact hnot hmem
    · exact h.counted_ne hi htask hd (List.mem_singleton.mp hmem)

/-- A client is given to the `IOMP`. -/
theorem Inv.offer (h : Inv s) (htask : s.tasks t = .listed c) :
    Inv { s.put t .idle with offered := c :: s.offered } where
  account := h.account_same htask rfl
  roster := by
    refine h.roster.put ?_ nofun
    rintro d (hd | hd)
    · rcases List.mem_cons.mp hd with rfl | hd
      · exact .inr ⟨t, htask⟩
      · exact .inl hd
    · exact s.known_of_put t .idle nofun (.inr hd)
  born := h.born
  fits := (Function.forall_update_iff s.tasks _).mpr ⟨trivial, fun i _ => (h.fits i).mono
    (fun _ _ hd => hd) (fun _ hd => hd) (List.subset_cons_self _ _)⟩

/-- `CloseClient` is called for a client for the first time. -/
theorem Inv.enterClose (h : Inv s) (htask : s.tasks t = old) (hold : old.pending = 0)
    (hknown : s.Known c) (honce : c ∉ s.closed) : Inv (s.enterClose t c) where
  account := h.account_same htask hold
  roster := h.roster.close hknown honce (fun _ hd => s.known_of_put t (.closing c) nofun hd) rfl
  born := h.born
  fits := (Function.forall_update_iff s.tasks _).mpr ⟨trivial, fun i _ => (h.fits i).mono
    (fun _ _ hd => hd) (fun _ hd => hd) (List.Subset.refl _)⟩

/-- A client that is being closed is taken out of the list. -/
theorem Inv.unlist (h : Inv s) (htask : s.tasks t = .unhooked c) :
    Inv { s.put t (.unlisted c) with
      lstClient := s.lstClient.filter (· != c), deleted := c :: s.deleted } := by
  have hcloses : (s.tasks t).closes = some c := by
    rw [htask]
    rfl
  have hknown : ∀ d, (s.put t (.unlisted c)).Known d → s.Known d :=
    fun _ hd => s.known_of_put t (.unlisted c) nofun hd
  have hdone : (Task.unlisted c).closes = none := rfl
  obtain ⟨hlength, hroster⟩ := h.roster.remove hcloses hknown hdone
  refine ⟨?_, hroster, fun d hd => h.born d (List.mem_of_mem_filter hd), ?_⟩
  · have hunlisted : s.connCount + s.lstClient.length + (Task.unhooked c).pending
        = s.connCount + (s.lstClient.filter (· != c)).length + (Task.unlisted c).pending := by
      simp only [Task.pending, Task.accepts, Task.uncounts]
      omega
    exact h.account_put htask hunlisted
  · refine (Function.forall_update_iff s.tasks _).mpr ⟨trivial, fun i _ => ?_⟩
    refine (h.fits i).mono ?_ (fun _ hd => hd) (List.Subset.refl _)
    exact fun d _ hnot hmem => hnot (List.mem_of_mem_filter hmem)

/-- **Every step keeps the account**, as long as no client is closed twice. -/
theorem Inv.step {maxUser : Int} {label : Label R} (h : Inv s) (honce : Once s label)
    (hstep : step maxUser s label = some s') : Inv s' := by
  cases steps_of_step hstep with
  | full _ _ => exact h
  | test htask _ => exact h.put htask rfl trivial nofun nofun
  | acceptUser htask =>
      refine h.accept (s.users + 1) s.managers htask rfl (Nat.lt_irrefl _) (.inl ⟨rfl, rfl⟩) ?_
      rintro (n | k) (hd | hd)
      · exact Nat.lt_succ_of_lt hd
      · cases hd
        exact Nat.lt_succ_self _
      · exact hd
      · cases hd
  | acceptManager htask =>
      refine h.accept s.users (s.managers + 1) htask rfl (Nat.lt_irrefl _) (.inr ⟨rfl, rfl⟩) ?_
      rintro (n | k) (hd | hd)
      · exact hd
      · cases hd
      · exact Nat.lt_succ_of_lt hd
      · cases hd
        exact Nat.lt_succ_self _
  | list htask => exact h.list htask
  | offer htask => exact h.offer htask
  | reject htask => exact h.enterClose htask rfl (.inr ⟨_, htask⟩) (honce _ htask)
  | take htask hoffered => exact h.put htask rfl hoffered nofun nofun
  | release htask => exact h.put htask rfl trivial nofun nofun
  | @close t _ htask =>
      have hfits := h.fits t
      rw [htask] at hfits
      exact h.enterClose htask rfl (.inl hfits) (honce _ htask)
  | unhook htask => exact h.put htask rfl trivial nofun fun d hd => hd
  | unlist htask => exact h.unlist htask
  | @uncount _ c htask =>
      have hcount : s.connCount - 1 + (Task.unlisted c).pending
          = s.connCount + Task.idle.pending := by
        simp [Task.pending, Task.accepts, Task.uncounts]
      exact h.put htask hcount trivial nofun nofun

/-! ### The limit -/

/-- The users in the list. -/
def State.listedUsers (s : State R) : Nat := s.lstClient.countP fun c => c.type = .user

/-- The acceptor has found a free place and not yet listed the user. -/
def Task.seat : Task → Nat
  | .tested => 1
  | .counted _ => 1
  | _ => 0

/-- The users, with the one the acceptor is accepting, are within the limit. -/
def WithinLimit (maxUser : Int) (s : State R) : Prop :=
  s.listedUsers + (s.tasks .acceptor).seat ≤ maxUser.toNat

variable {maxUser : Int} {label : Label R}

omit [Fintype R] in
/-- A thread that takes no place leaves the acceptor with the place it has. -/
theorem seat_update_le (htask : s.tasks t = old) (hseat : task.seat ≤ old.seat) :
    (Function.update s.tasks t task .acceptor).seat ≤ (s.tasks .acceptor).seat := by
  by_cases ht : t = .acceptor
  · subst ht
    rwa [Function.update_self, htask]
  · rw [Function.update_of_ne (Ne.symm ht)]

omit [Fintype R] in
/-- The main thread's task is not the acceptor's. -/
theorem update_main : Function.update s.tasks .main task .acceptor = s.tasks .acceptor :=
  Function.update_of_ne (by rintro ⟨⟩) task s.tasks

omit [DecidableEq R] [Fintype R] in
/-- So the limit is kept while no user is listed. -/
theorem WithinLimit.mono (h : WithinLimit maxUser s)
    (hseat : (s'.tasks .acceptor).seat ≤ (s.tasks .acceptor).seat)
    (hlist : s'.lstClient.Sublist s.lstClient) : WithinLimit maxUser s' :=
  (Nat.add_le_add hlist.countP_le hseat).trans h

omit [DecidableEq R] in
/-- The count is at least the number of users. -/
theorem Inv.listedUsers_le (h : Inv s) : (s.listedUsers : Int) ≤ s.connCount := by
  have hle : s.listedUsers ≤ s.lstClient.length := List.countP_le_length
  have haccount := h.account
  omega

/-- Every step keeps the limit: only the acceptor accepts users, and it has tested the
count, which is at least the number of users. -/
theorem WithinLimit.step (h : WithinLimit maxUser s) (hinv : Inv s)
    (hstep : step maxUser s label = some s') : WithinLimit maxUser s' := by
  cases steps_of_step hstep with
  | full _ _ => exact h
  | test _ hfree =>
      have husers := hinv.listedUsers_le
      have hseat : (Function.update s.tasks .acceptor .tested .acceptor).seat = 1 := by
        rw [Function.update_self, Task.seat]
      show s.listedUsers + (Function.update s.tasks .acceptor .tested .acceptor).seat
        ≤ maxUser.toNat
      rw [hseat]
      omega
  | acceptUser htask =>
      exact h.mono (seat_update_le htask (Nat.le_refl 1)) (List.Sublist.refl _)
  | acceptManager _ =>
      refine h.mono ?_ (List.Sublist.refl _)
      show (Function.update s.tasks .main (.counted (.manager s.managers)) .acceptor).seat ≤ _
      rw [update_main]
  | @list t c htask =>
      have hfits := hinv.fits t
      rw [htask] at hfits
      have hcount : (s.lstClient ++ [c]).countP (fun d => d.type = .user)
          = s.listedUsers + if c.type = .user then 1 else 0 := by
        rw [List.countP_append, List.countP_singleton]
        simp [State.listedUsers]
      show (s.lstClient ++ [c]).countP (fun d => d.type = .user)
        + (Function.update s.tasks t (.listed c) .acceptor).seat ≤ maxUser.toNat
      rw [hcount]
      rcases hfits.2 with ⟨htype, rfl⟩ | ⟨htype, rfl⟩
      · rw [if_pos htype, Function.update_self]
        rw [WithinLimit, htask] at h
        exact h
      · rw [if_neg (by rw [htype]; nofun), update_main]
        exact h
  | unlist htask => exact h.mono (seat_update_le htask (Nat.le_refl 0)) List.filter_sublist
  | offer htask | reject htask | take htask _ | release htask | close htask | unhook htask
  | uncount htask =>
      exact h.mono (seat_update_le htask (Nat.le_refl 0)) (List.Sublist.refl _)

/-! ### What has been closed -/

/-- Threads close what has been closed, and what has been closed has been deleted or is
being closed. -/
structure Closing (s : State R) : Prop where
  closes : ∀ t c, (s.tasks t).closes = some c → c ∈ s.closed
  deleted : ∀ c ∈ s.deleted, c ∈ s.closed
  closed : ∀ c ∈ s.closed, c ∈ s.deleted ∨ ∃ t, (s.tasks t).closes = some c

omit [DecidableEq R] [Fintype R] in
theorem closing_start : Closing (start : State R) where
  closes := nofun
  deleted := nofun
  closed := nofun

omit [Fintype R] in
/-- A thread goes on, in `CloseClient` or outside. -/
theorem Closing.put (h : Closing s) (htask : s.tasks t = old)
    (htasks : s'.tasks = Function.update s.tasks t task) (hcloses : task.closes = old.closes)
    (hclosed : s'.closed = s.closed) (hdeleted : s'.deleted = s.deleted) : Closing s' where
  closes := by
    rw [htasks, hclosed]
    refine Threads.forall_holds_update ?_ fun i _ => h.closes i
    intro c hc
    exact h.closes t c (by rw [htask, ← hcloses, hc])
  deleted := by
    rw [hclosed, hdeleted]
    exact h.deleted
  closed := by
    rw [hclosed, hdeleted, htasks]
    intro c hc
    refine (h.closed c hc).imp_right ?_
    rintro ⟨i, hi⟩
    refine ⟨i, ?_⟩
    by_cases hit : i = t
    · subst hit
      rw [Function.update_self, hcloses, ← htask, hi]
    · rw [Function.update_of_ne hit, hi]

omit [Fintype R] in
/-- A thread enters `CloseClient`. -/
theorem Closing.enterClose (h : Closing s) (htask : s.tasks t = old) (hopen : old.closes = none) :
    Closing (s.enterClose t c) where
  closes := by
    refine Threads.forall_holds_update ?_ fun i _ d hd => List.mem_cons_of_mem _ (h.closes i d hd)
    intro d hd
    cases hd
    exact List.mem_cons_self
  deleted d hd := List.mem_cons_of_mem _ (h.deleted d hd)
  closed d hd := by
    rcases List.mem_cons.mp hd with rfl | hd
    · exact .inr ((Function.exists_update_iff s.tasks fun _ task => task.closes = some d).mpr
        (.inl rfl))
    · refine (h.closed d hd).imp_right ?_
      rintro ⟨i, hi⟩
      have hit : i ≠ t := by
        rintro rfl
        rw [htask, hopen] at hi
        cases hi
      exact (Function.exists_update_iff s.tasks fun _ task => task.closes = some d).mpr
        (.inr ⟨i, hit, hi⟩)

omit [Fintype R] in
/-- A thread has deleted its client. -/
theorem Closing.unlist (h : Closing s) (htask : s.tasks t = .unhooked c) (list : List Client) :
    Closing { s.put t (.unlisted c) with lstClient := list, deleted := c :: s.deleted } where
  closes := Threads.forall_holds_update nofun fun i _ => h.closes i
  deleted d hd := by
    rcases List.mem_cons.mp hd with rfl | hd
    · exact h.closes t d (by rw [htask]; rfl)
    · exact h.deleted d hd
  closed d hd := by
    rcases h.closed d hd with hdeleted | ⟨i, hi⟩
    · exact .inl (List.mem_cons_of_mem _ hdeleted)
    · by_cases hit : i = t
      · subst hit
        rw [htask] at hi
        cases hi
        exact .inl List.mem_cons_self
      · exact .inr ((Function.exists_update_iff s.tasks fun _ task => task.closes = some d).mpr
          (.inr ⟨i, hit, hi⟩))

omit [Fintype R] in
/-- Every step keeps this, also one that closes a client again. -/
theorem Closing.step (h : Closing s) (hstep : step maxUser s label = some s') : Closing s' := by
  cases steps_of_step hstep with
  | full _ _ => exact h
  | test htask _ => exact h.put htask rfl rfl rfl rfl
  | take htask _ => exact h.put htask rfl rfl rfl rfl
  | reject htask => exact h.enterClose htask rfl
  | close htask => exact h.enterClose htask rfl
  | unlist htask => exact h.unlist htask _
  | acceptUser htask | acceptManager htask | list htask | offer htask | release htask
  | unhook htask | uncount htask => exact h.put htask rfl rfl rfl rfl

omit [Fintype R] in
/-- Only clients that a step calls `CloseClient` for are closed. -/
theorem closed_of_step (hstep : step maxUser s label = some s') (hclosed : c ∈ s'.closed) :
    c ∈ s.closed ∨ label.closes s = some c := by
  cases steps_of_step hstep with
  | reject htask =>
      rcases List.mem_cons.mp hclosed with rfl | hclosed
      · exact .inr (by rw [Label.closes, htask, Task.client])
      · exact .inl hclosed
  | close htask =>
      rcases List.mem_cons.mp hclosed with rfl | hclosed
      · exact .inr (by rw [Label.closes, htask, Task.client])
      · exact .inl hclosed
  | _ => exact .inl hclosed

omit [Fintype R] in
/-- No client is taken back from the `IOMP`. -/
theorem offered_subset (hstep : step maxUser s label = some s') : s.offered ⊆ s'.offered := by
  cases steps_of_step hstep with
  | offer _ => exact List.subset_cons_self _ _
  | _ => exact List.Subset.refl _

/-! ### Every run -/

omit [Fintype R] in
/-- What has been closed, in every run. -/
theorem closing_of_reaches {meets : State R → Label R → Prop}
    (h : Reaches (step maxUser) meets (start : State R) s) : Closing s := by
  induction h with
  | refl => exact closing_start
  | tail label _ _ hstep ih => exact ih.step hstep

/-- The account and the limit, in every run that closes no client twice. -/
theorem inv_of_reaches (h : Reaches (step maxUser) Once (start : State R) s) :
    Inv s ∧ WithinLimit maxUser s := by
  induction h with
  | refl => exact ⟨inv_start, Nat.zero_le _⟩
  | tail label _ honce hstep ih => exact ⟨ih.1.step honce hstep, ih.2.step ih.1 hstep⟩

end ThunderChat.Connections

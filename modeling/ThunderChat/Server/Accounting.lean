import ThunderChat.Server.Connections
import ThunderChat.Server.ManagerConnections

/-!
The connection counts of both servers together.

* `accounted`: what the counts are and that they keep their limits, in every run that
  closes no client twice. A negative limit admits nobody, as zero does.
* `negative_limit_exceeded`: such a limit is below every count.
-/

namespace ThunderChat.Accounting

open Transition
open scoped BigOperators

variable {R W : Type} [DecidableEq R] [DecidableEq W] [Fintype R] [Fintype W]

/-- **Connection accounting.** `ChatServer`'s count is the length of the list, the
accepts that have counted and not yet listed, and the closes that have unlisted and not
yet counted; so its users, with the one being accepted, are within `m_iMaxUser`.
`ChatManager`'s count is within `GetMaxUser()`, and at each iteration of the event loop
with no `CloseClient` in progress it is the length of the list. -/
theorem accounted {serverMax managerMax : Int} {s : Connections.State R}
    {m : ManagerConnections.State W}
    (hserver : Reaches (Connections.step serverMax) Connections.Once Connections.start s)
    (hmanager : Reaches (ManagerConnections.step managerMax) ManagerConnections.Once
      ManagerConnections.start m) :
    (s.connCount = s.lstClient.length + ∑ t, (s.tasks t).accepts + ∑ t, (s.tasks t).uncounts ∧
      (s.listedUsers + (s.tasks .acceptor).seat : Int) ≤ max serverMax 0) ∧
    m.connCount ≤ max managerMax 0 ∧
      (m.tasks .loop = .idle → (∀ t, ¬ (m.tasks t).InClose) →
        m.connCount = m.lstChatServer.length) := by
  obtain ⟨hs, hsLimit⟩ := Connections.inv_of_reaches hserver
  obtain ⟨hm, hmLimit⟩ := ManagerConnections.inv_of_reaches hmanager
  refine ⟨⟨?_, ?_⟩, ?_, hm.connCount_eq⟩
  · have hpending : ∑ t, (s.tasks t).pending
        = ∑ t, (s.tasks t).accepts + ∑ t, (s.tasks t).uncounts := Finset.sum_add_distrib
    rw [hs.account, hpending, Nat.cast_add, Int.add_assoc]
  · rw [Connections.WithinLimit] at hsLimit
    rw [← Int.toNat_eq_max]
    exact_mod_cast hsLimit
  · have hseat := Int.natCast_nonneg (m.tasks .loop).seat
    exact (Int.le_add_of_nonneg_right hseat).trans hmLimit

/-- A receiver has taken a server's only user off the list and has still to count; a
manager has accepted a server. -/
theorem accounted_after_close :
    ∃ s : Connections.State Unit, ∃ m : ManagerConnections.State Unit,
      run (Connections.step 1) Connections.start [.test, .acceptUser, .list .acceptor,
        .offer .acceptor true, .take (.receiver ()) (.user 0), .close (.receiver ()),
        .unhook (.receiver ()), .unlist (.receiver ())] = some s ∧
      run (ManagerConnections.step 1) ManagerConnections.start
        [.test, .offer true, .list, .count] = some m ∧
      s.connCount = 1 ∧ s.lstClient = [] ∧
      s.connCount = s.lstClient.length + ∑ t, (s.tasks t).accepts + ∑ t, (s.tasks t).uncounts ∧
      m.connCount = m.lstChatServer.length := by
  have hopen : Reaches (Connections.step 1) Connections.Once
      (Connections.start : Connections.State Unit) _ :=
    reaches_of_run [.test, .acceptUser, .list .acceptor, .offer .acceptor true,
      .take (.receiver ()) (.user 0)] (by simp [Connections.Once]) rfl
  have hserver : Reaches (Connections.step 1) Connections.Once
      (Connections.start : Connections.State Unit) _ :=
    .trans_run (.tail (.close (.receiver ())) hopen (by intro c _; exact List.not_mem_nil) rfl)
      [.unhook (.receiver ()), .unlist (.receiver ())] (by simp [Connections.Once]) rfl
  have hmanager : Reaches (ManagerConnections.step 1) ManagerConnections.Once
      (ManagerConnections.start : ManagerConnections.State Unit) _ :=
    reaches_of_run [.test, .offer true, .list, .count] (by simp [ManagerConnections.Once]) rfl
  have hcounts := accounted hserver hmanager
  refine ⟨_, _, rfl, rfl, rfl, rfl, hcounts.1.1, hcounts.2.2 rfl ?_⟩
  rintro (_ | _) hclose
  · cases hclose
  · cases hclose

/-- Before any connection the counts are zero, which is more than a limit of `-1`. -/
theorem negative_limit_exceeded :
    ¬ (∀ (maxUser : Int) (s : Connections.State Unit),
        Reaches (Connections.step maxUser) Connections.Once Connections.start s →
        (s.listedUsers : Int) ≤ maxUser) ∧
    ¬ ∀ (maxUser : Int) (m : ManagerConnections.State Unit),
        Reaches (ManagerConnections.step maxUser) ManagerConnections.Once
          ManagerConnections.start m → m.connCount ≤ maxUser := by
  constructor
  · intro hclaim
    have hlimit := hclaim (-1) _ .refl
    exact absurd hlimit (by decide)
  · intro hclaim
    have hlimit := hclaim (-1) _ .refl
    exact absurd hlimit (by decide)

end ThunderChat.Accounting

import ThunderChat.Foundation.Sweep
import ThunderChat.Server.ChatManager
import ThunderChat.Server.ChatServer
import Mathlib.Algebra.Order.Field.Rat

/-!
The health checks of both servers.

`ChatServer::HealthCheckUsers` and `ChatManager::HealthCheckUsers` walk over their client
list, erase the dead clients and count them off `m_iConnCount`. Both go on with `iter++`
after `iter = erase(iter)`, too. They differ in what a dead client is.

The access times are `double`s, seconds with a fraction; the difference of two of them that
are this close together has no rounding, so they are rational numbers here.
-/

namespace ThunderChat

open Sweep

/-- `TIME_ALIVE`, in seconds. -/
def TIME_ALIVE : ℚ := 300

/-- A `Client` of which a health check reads the state. -/
structure WatchedClient extends ChatClient where
  accessTime : ℚ
  closed : Bool
  deriving DecidableEq

/-- The client list of a server, with `m_iConnCount`. -/
structure ClientTable where
  clients : List WatchedClient
  connCount : Int
  deriving DecidableEq

/-- The clients that a health check takes off the event multiplexer and deletes, and the
table it leaves. -/
structure HealthCheck where
  table : ClientTable
  killed : List WatchedClient
  deriving DecidableEq

/-- The client has been idle for too long. -/
def WatchedClient.isIdle (now : ℚ) (c : WatchedClient) : Bool := TIME_ALIVE < now - c.accessTime

/-- The loop both servers have. Each client that is killed is counted off. -/
def healthCheck (dead : WatchedClient → Bool) (t : ClientTable) : Option HealthCheck :=
  (sweep dead [] [] t.clients).map fun (clients, killed) =>
    ⟨⟨clients, t.connCount - killed.length⟩, killed⟩

namespace ChatServer

/-- What `ChatServer::HealthCheckUsers` kills. -/
def isDead (now : ℚ) (c : WatchedClient) : Bool := c.isIdle now

/-- `ChatServer::HealthCheckUsers`. -/
def healthCheckUsers (now : ℚ) (t : ClientTable) : Option HealthCheck := healthCheck (isDead now) t

end ChatServer

namespace ChatManager

/-- What `ChatManager::HealthCheckUsers` kills. -/
def isDead (now : ℚ) (c : WatchedClient) : Bool :=
  c.type = .user && (c.isIdle now || c.closed)

/-- `ChatManager::HealthCheckUsers`. -/
def healthCheckUsers (now : ℚ) (t : ClientTable) : Option HealthCheck := healthCheck (isDead now) t

end ChatManager

/-- What a health check has to do: the iterator stays in the list, the dead clients are
gone, the others are left in their order, and the connections are as many fewer. -/
def RemovesDead (dead : WatchedClient → Bool) (t : ClientTable) (check : Option HealthCheck) :
    Prop :=
  ∃ h, check = some h ∧ h.table.clients = t.clients.filter (fun c => !dead c) ∧
    h.table.connCount = t.connCount - t.clients.countP dead

theorem healthCheck_removesDead_iff {dead : WatchedClient → Bool} {t : ClientTable} :
    RemovesDead dead t (healthCheck dead t) ↔ Isolated dead t.clients := by
  constructor
  · rintro ⟨h, hcheck, hclients, -⟩
    obtain ⟨⟨kept, gone⟩, hsweep, rfl⟩ := Option.map_eq_some_iff.mp hcheck
    obtain rfl : kept = t.clients.filter fun c => !dead c := hclients
    exact isolated_of_sweep hsweep
  · intro isolated
    refine ⟨_, by rw [healthCheck, sweep_of_isolated isolated]; rfl, rfl, ?_⟩
    rw [List.countP_eq_length_filter]
    rfl

/-- **When the health checks remove just the dead.** In both servers: when every dead client
in the list is directly followed by one that is not dead. -/
theorem healthCheckUsers_iff (now : ℚ) (t : ClientTable) :
    (RemovesDead (ChatServer.isDead now) t (ChatServer.healthCheckUsers now t) ↔
        Isolated (ChatServer.isDead now) t.clients) ∧
      (RemovesDead (ChatManager.isDead now) t (ChatManager.healthCheckUsers now t) ↔
        Isolated (ChatManager.isDead now) t.clients) :=
  ⟨healthCheck_removesDead_iff, healthCheck_removesDead_iff⟩

/-- A user that was last heard of at time `0`. -/
def silentUser (fd : Nat) : WatchedClient := ⟨⟨fd, .user⟩, 0, false⟩

/-- At `301` it is dead, for both servers. -/
theorem silentUser_isDead (fd : Nat) :
    ChatServer.isDead 301 (silentUser fd) ∧ ChatManager.isDead 301 (silentUser fd) := by
  have hidle : (silentUser fd).isIdle 301 = true := by
    rw [WatchedClient.isIdle, decide_eq_true_iff, TIME_ALIVE, silentUser]
    norm_num
  have htype : (silentUser fd).type = .user := rfl
  simp [ChatServer.isDead, ChatManager.isDead, hidle, htype]

/-- Two silent users are not both removed, and behind the last one the iterator leaves the
list. -/
theorem silent_users_stay :
    ¬ RemovesDead (ChatServer.isDead 301) ⟨[silentUser 95, silentUser 96], 2⟩
        (ChatServer.healthCheckUsers 301 ⟨[silentUser 95, silentUser 96], 2⟩) ∧
      ChatManager.healthCheckUsers 301 ⟨[silentUser 95], 1⟩ = none := by
  constructor
  · intro removes
    obtain ⟨hfirst, -⟩ := isolated_cons.mp (healthCheck_removesDead_iff.mp removes)
    obtain ⟨next, hnext, halive⟩ := hfirst (silentUser_isDead 95).1
    obtain rfl : silentUser 96 = next := Option.some.inj hnext
    rw [(silentUser_isDead 96).1] at halive
    cases halive
  · simp [ChatManager.healthCheckUsers, healthCheck, sweep, (silentUser_isDead 95).2]

end ThunderChat

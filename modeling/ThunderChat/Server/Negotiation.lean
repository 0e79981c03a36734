import ThunderChat.Client.Basic
import Mathlib.Data.List.Pairwise

/-!
`ChatServer::ConnectToMgr`: one `NegotiationWithManager` for each configured manager.

Every negotiation, also one that fails, sets the single `m_uniqId` of the server to
the time it reads plus the pid; one that succeeds has registered this value at its
manager. Afterwards the server has the id of its last negotiation
(`uniqId_connectToMgr`), and every manager the id of its own
(`registrations_connectToMgr`).
-/

namespace ThunderChat

/-- How the system calls of a negotiation end. The three errors close the socket. -/
inductive Contact where
  | connectFailed | helloSendFailed | helloRecvFailed
  | answered (fd maxUser : Nat)
  deriving DecidableEq, Repr

/-- One negotiation: the manager, the clock reading and the system calls. -/
structure Negotiation (M : Type) where
  manager : M
  time : Nat
  contact : Contact

/-- What `ConnectToMgr` sets in a `ChatServer`; `none` is a `NULL` socket. For every
other socket, `registrations` has the manager and the hello packet it got. -/
structure ManagerLinks (M : Type) where
  uniqId : Nat
  maxUser : Nat
  chatManagerSockets : List (Option Nat)
  registrations : List (M × Packet)

namespace ManagerLinks

variable {M : Type} {pid : Nat} {links : ManagerLinks M}

/-- The members as the constructors leave them. -/
def start : ManagerLinks M := ⟨0, 0, [], []⟩

/-- `GetUnixTime() + getpid()`, as an `unsigned long long`. -/
def newUniqId (time pid : Nat) : Nat := toUInt64 (time + pid : Nat)

/-- `ChatServer::NegotiationWithManager`: the members, and the socket returned. -/
def negotiationWithManager (pid : Nat) (links : ManagerLinks M) (n : Negotiation M) :
    ManagerLinks M × Option Nat :=
  let links := { links with uniqId := newUniqId n.time pid }
  match n.contact with
  | .connectFailed => (links, none)
  | .helloSendFailed => (links, none)
  | .helloRecvFailed => (links, none)
  | .answered fd maxUser =>
      ({ links with
          maxUser := maxUser
          registrations := links.registrations ++ [(n.manager, .hello links.uniqId)] }, some fd)

/-- `ChatServer::ConnectToMgr`, negotiation by negotiation. -/
def connectToMgr (pid : Nat) (links : ManagerLinks M) : List (Negotiation M) → ManagerLinks M
  | [] => links
  | n :: rest =>
      let (links, socket) := links.negotiationWithManager pid n
      connectToMgr pid
        { links with chatManagerSockets := links.chatManagerSockets ++ [socket] } rest

end ManagerLinks

/-- The negotiation ends with a socket. -/
def Negotiation.connects {M : Type} (n : Negotiation M) : Bool :=
  match n.contact with
  | .answered _ _ => true
  | _ => false

/-- The limit in the answer of a negotiation that ends with a socket. -/
def Negotiation.maxUser {M : Type} (n : Negotiation M) : Option Nat :=
  match n.contact with
  | .answered _ maxUser => some maxUser
  | _ => none

namespace ManagerLinks

variable {M : Type} {pid : Nat} {links : ManagerLinks M} {n : Negotiation M}

theorem newUniqId_eq {time pid : Nat} (h : time + pid < 2 ^ 63) :
    newUniqId time pid = time + pid :=
  toUInt64_natCast (by omega)

/-- Every negotiation sets the id. -/
theorem uniqId_negotiationWithManager :
    (links.negotiationWithManager pid n).1.uniqId = newUniqId n.time pid := by
  unfold negotiationWithManager
  cases n.contact <;> rfl

/-- A negotiation that ends with a socket has registered the id it set. -/
theorem registrations_negotiationWithManager :
    (links.negotiationWithManager pid n).1.registrations = links.registrations ++
      if n.connects then [(n.manager, .hello (newUniqId n.time pid))] else [] := by
  unfold negotiationWithManager Negotiation.connects
  cases n.contact <;> simp

/-- The id is the last negotiation's. -/
theorem uniqId_connectToMgr {ns : List (Negotiation M)} :
    (links.connectToMgr pid ns).uniqId
      = (ns.getLast?.map fun n => newUniqId n.time pid).getD links.uniqId := by
  induction ns generalizing links with
  | nil => rfl
  | cons n rest ih =>
      rw [connectToMgr, ih]
      dsimp only
      rw [uniqId_negotiationWithManager]
      cases rest with
      | nil => rfl
      | cons m rest => rw [List.getLast?_cons_cons, List.getLast?_cons, Option.map_some,
          Option.getD_some, Option.getD_some]

/-- The registrations are those of the negotiations that end with a socket. -/
theorem registrations_connectToMgr {ns : List (Negotiation M)} :
    (links.connectToMgr pid ns).registrations = links.registrations ++
      (ns.filter Negotiation.connects).map fun n => (n.manager, .hello (newUniqId n.time pid)) := by
  induction ns generalizing links with
  | nil => simp [connectToMgr]
  | cons n rest ih =>
      rw [connectToMgr, ih]
      dsimp only
      rw [registrations_negotiationWithManager, List.append_assoc, List.filter_cons]
      cases n.connects <;> simp

/-- The limit is that of the last negotiation that ends with a socket. -/
theorem maxUser_connectToMgr {ns : List (Negotiation M)} :
    (links.connectToMgr pid ns).maxUser
      = (ns.filterMap Negotiation.maxUser).getLast?.getD links.maxUser := by
  induction ns generalizing links with
  | nil => rfl
  | cons n rest ih =>
      rw [connectToMgr, ih]
      cases hcontact : n.contact with
      | answered fd maxUser =>
          have hn : n.maxUser = some maxUser := by rw [Negotiation.maxUser, hcontact]
          simp only [negotiationWithManager, hcontact]
          rw [List.filterMap_cons_some hn, List.getLast?_cons, Option.getD_some]
      | _ =>
          have hn : n.maxUser = none := by rw [Negotiation.maxUser, hcontact]
          simp only [negotiationWithManager, hcontact]
          rw [List.filterMap_cons_none hn]

/-- If every negotiation ends with a socket, there is no `NULL` among the sockets. -/
theorem isSome_of_connects {ns : List (Negotiation M)} (hconnects : ∀ n ∈ ns, n.connects)
    (hlinks : ∀ socket ∈ links.chatManagerSockets, socket.isSome) :
    ∀ socket ∈ (links.connectToMgr pid ns).chatManagerSockets, socket.isSome := by
  induction ns generalizing links with
  | nil => exact hlinks
  | cons n rest ih =>
      have hn := hconnects n List.mem_cons_self
      refine ih (fun m hm => hconnects m (List.mem_cons_of_mem n hm)) ?_
      intro socket hsocket
      unfold Negotiation.connects at hn
      cases hcontact : n.contact with
      | answered fd maxUser =>
          rw [hcontact] at hsocket
          rcases List.mem_append.mp hsocket with hold | hnew
          · exact hlinks socket hold
          · rw [List.mem_singleton.mp hnew]
            rfl
      | _ =>
          rw [hcontact] at hn
          cases hn

end ManagerLinks

/-- A chat server process and the negotiations of its `ConnectToMgr`. The clock does
not go back, and no sum overflows `time_t`. -/
structure Process (M : Type) where
  pid : Nat
  negotiations : List (Negotiation M)
  sum_lt : ∀ n ∈ negotiations, n.time + pid < 2 ^ 63
  sorted : (negotiations.map Negotiation.time).Pairwise (· ≤ ·)

namespace Process

variable {M : Type} {p : Process M} {r : Nat}

/-- The members after `ConnectToMgr`. -/
def links (p : Process M) : ManagerLinks M := ManagerLinks.start.connectToMgr p.pid p.negotiations

/-- The clock readings of the negotiations that end with a socket. -/
def readings (p : Process M) : List Nat :=
  (p.negotiations.filter Negotiation.connects).map Negotiation.time

/-- The clock when the first socket is connected. -/
def firstReading (p : Process M) : Option Nat := p.readings.head?

/-- The clock in the last negotiation, with or without a socket. -/
def lastReading (p : Process M) : Option Nat := p.negotiations.getLast?.map Negotiation.time

theorem uniqId_of_lastReading (h : p.lastReading = some r) : p.links.uniqId = r + p.pid := by
  obtain ⟨n, hlast, rfl⟩ := Option.map_eq_some_iff.mp h
  rw [links, ManagerLinks.uniqId_connectToMgr, hlast, Option.map_some, Option.getD_some,
    ManagerLinks.newUniqId_eq (p.sum_lt n (List.mem_of_getLast? hlast))]

/-- A process that has a socket has a last negotiation. -/
theorem exists_lastReading (h : r ∈ p.readings) : ∃ last, p.lastReading = some last := by
  obtain ⟨n, hn, _⟩ := List.mem_map.mp h
  have hne : p.negotiations ≠ [] := List.ne_nil_of_mem (List.mem_of_mem_filter hn)
  rw [lastReading, List.getLast?_eq_some_getLast hne]
  exact ⟨_, rfl⟩

theorem sum_lt_of_mem_readings (h : r ∈ p.readings) : r + p.pid < 2 ^ 63 := by
  obtain ⟨n, hn, rfl⟩ := List.mem_map.mp h
  exact p.sum_lt n (List.mem_of_mem_filter hn)

/-- The readings registered with the managers. -/
theorem mem_registrations {m : M} {packet : Packet} : (m, packet) ∈ p.links.registrations ↔
    ∃ n ∈ p.negotiations, n.connects ∧ n.manager = m ∧ packet = .hello (n.time + p.pid) := by
  rw [links, ManagerLinks.registrations_connectToMgr]
  show (m, packet) ∈ [] ++ _ ↔ _
  rw [List.nil_append, List.mem_map]
  constructor
  · rintro ⟨n, hn, heq⟩
    obtain ⟨hmem, hconnects⟩ := List.mem_filter.mp hn
    rw [ManagerLinks.newUniqId_eq (p.sum_lt n hmem)] at heq
    cases heq
    exact ⟨n, hmem, hconnects, rfl, rfl⟩
  · rintro ⟨n, hmem, hconnects, rfl, rfl⟩
    refine ⟨n, List.mem_filter.mpr ⟨hmem, hconnects⟩, ?_⟩
    rw [ManagerLinks.newUniqId_eq (p.sum_lt n hmem)]

theorem firstReading_le {first : Nat} (hfirst : p.firstReading = some first)
    (h : r ∈ p.readings) : first ≤ r := by
  have hsorted : p.readings.Pairwise (· ≤ ·) := p.sorted.sublist (List.filter_sublist.map _)
  rw [firstReading, List.head?_eq_some_head (List.ne_nil_of_mem h), Option.some_inj] at hfirst
  rw [← hfirst]
  exact hsorted.rel_head h

theorem le_lastReading {last : Nat} (hlast : p.lastReading = some last)
    (h : r ∈ p.readings) : r ≤ last := by
  have hmem : r ∈ p.negotiations.map Negotiation.time := (List.filter_sublist.map _).subset h
  rw [lastReading, ← List.getLast?_map, List.getLast?_eq_some_getLast (List.ne_nil_of_mem hmem),
    Option.some_inj] at hlast
  rw [← hlast]
  exact p.sorted.rel_getLast hmem

/-- If the clock has not moved between the first socket and the last negotiation, it
was the same in every negotiation that ended with a socket. -/
theorem firstReading_of_still (still : ∀ first ∈ p.firstReading, p.lastReading = some first)
    (h : r ∈ p.readings) : p.firstReading = some r := by
  have hfirst := List.head?_eq_some_head (List.ne_nil_of_mem h)
  have hlast := still _ hfirst
  rw [firstReading, hfirst, Nat.le_antisymm (firstReading_le hfirst h) (le_lastReading hlast h)]

end Process

end ThunderChat

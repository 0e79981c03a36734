import ThunderChat.Server.Handshake
import ThunderChat.Server.ManagerOwnership
import ThunderChat.Server.ManagerSockets
import ThunderChat.Server.ServerInfo

/-!
`ServerInfoDNMgr`, and the limits that a manager's properties file sets.

One limit is for the connections of the manager, the other for each chat server: it is told
in the answer to the hello, and a chat server has the one that it has been told last. Unlike
in `ServerInfoDN`, the numbers that the file does not set are not initialised.

* `limits_of_files`: where each handshake comes off, both limits are kept in every run of the
  managers and of the chat server. A run has one step for each update of a count.
-/

namespace ThunderChat

open Properties Transition

/-- The members of a `ServerInfoDNMgr` that are read. -/
structure ServerInfoDNMgr where
  mapServerPort : ServerSocketType → Option Int
  mapThreadCount : ThreadType → Option Int
  iMaxUser : Int
  iDSMaxUser : Int
  iDNPort : Int
  iDNCnt : Int
  pchIPAddr : Bytes
  pchLogFile : Bytes

namespace ServerInfoDNMgr

/-- The numbers as the constructor finds them. -/
structure Memory where
  iMaxUser : Int
  iDSMaxUser : Int
  iDNPort : Int
  iDNCnt : Int

/-- The constructor. The port it listens on is the one that a chat server connects to. -/
def ofProperties (memory : Memory) (p : Properties) : Option ServerInfoDNMgr := do
  let port ← p.number "SERVER_PORT_DNMGR"
  let dnPort ← p.number "SERVER_PORT_DN"
  let maxUser ← p.number "DM_MAX_USER"
  let dsMaxUser ← p.number "DS_MAX_USER"
  let dnCnt ← p.number "DN_CNT"
  let worker ← p.number "THREAD_WORKER"
  return {
    mapServerPort
      | .serverPort => port
      | _ => none
    mapThreadCount
      | .worker => worker
      | _ => none
    iMaxUser := maxUser.getD memory.iMaxUser
    iDSMaxUser := dsMaxUser.getD memory.iDSMaxUser
    iDNPort := dnPort.getD memory.iDNPort
    iDNCnt := dnCnt.getD memory.iDNCnt
    pchIPAddr := p.array "SERVER_IP" MAX_IP_LEN (List.replicate MAX_IP_LEN 0)
    pchLogFile := p.array "SERVER_LOGFILE" LOG_FILE_LEN (List.replicate LOG_FILE_LEN 0) }

end ServerInfoDNMgr

namespace ChatManager

/-- `ChatManager::GetMaxUser`, if the sum is an `int`. -/
def getMaxUser (info : ServerInfoDNMgr) : Option Int :=
  if -2 ^ 31 ≤ info.iMaxUser + info.iDNCnt ∧ info.iMaxUser + info.iDNCnt < 2 ^ 31 then
    some (info.iMaxUser + info.iDNCnt)
  else none

/-- What `SetDS` reports, as the `uint32_t` of the answer. -/
def setDS (info : ServerInfoDNMgr) : Nat := Conversion.widen 32 info.iDSMaxUser

end ChatManager

/-! ### A manager's file -/

namespace ServerInfoDNMgr

/-- The limits a `ChatManager.properties` is to set. -/
structure Limits where
  maxUser : Nat
  dsMaxUser : Nat
  dnCnt : Nat
  int : ∀ n ∈ [maxUser + dnCnt, dsMaxUser], n < 2 ^ 31

/-- What the lines say. -/
def Limits.entries (c : Limits) : List (String × Bytes) :=
  [("DM_MAX_USER", decimal c.maxUser), ("DS_MAX_USER", decimal c.dsMaxUser),
    ("DN_CNT", decimal c.dnCnt)]

/-- The keys of the other numbers. -/
def NUMBERS : List String := ["SERVER_PORT_DNMGR", "SERVER_PORT_DN", "THREAD_WORKER"]

/-- A manager is started with a file that sets its limits and has no line that is moved over
itself when it is trimmed. The other numbers in it can be read. -/
structure Startup where
  limits : Limits
  disk : Disk
  name : String
  file : Bytes
  memory : Memory
  onDisk : disk name = some file
  wellFormed : IsPropertiesFile file
  apart : ∀ line ∈ Lines.lines NEWLINE file, Apart line
  plain : 0 ∉ file
  entries : ∀ e ∈ limits.entries, setIn file (literal e.1) = some e.2
  numbers : ∀ key ∈ NUMBERS, ∀ value ∈ setIn file (literal key), (atoi (cString value)).isSome

/-- What it takes from the file. -/
def Startup.info (m : Startup) : Option ServerInfoDNMgr := do
  let loaded ← Properties.new.load m.disk m.name
  ofProperties m.memory loaded.2

theorem Startup.exists_info (m : Startup) : ∃ info, m.info = some info ∧
    ChatManager.getMaxUser info = some ((m.limits.maxUser + m.limits.dnCnt : Nat) : Int) ∧
    ChatManager.setDS info = m.limits.dsMaxUser := by
  obtain ⟨p, hload, hproperty⟩ := exists_load m.onDisk m.wellFormed m.apart m.plain
  have hentries : ∀ e ∈ m.limits.entries, p.getProperty (literal e.1) = e.2 := fun e he => by
    rw [hproperty, m.entries e he, Option.getD_some]
  have hnumbers : ∀ key ∈ NUMBERS, ∃ value, p.number key = some value := fun key hkey =>
    Option.isSome_iff_exists.mp (isSome_number (hproperty _) (m.numbers key hkey))
  simp only [Limits.entries, NUMBERS, List.forall_mem_cons] at hentries hnumbers
  obtain ⟨hmaxUser, hdsMaxUser, hdnCnt, -⟩ := hentries
  obtain ⟨⟨port, hport⟩, ⟨dnPort, hdnPort⟩, ⟨worker, hworker⟩, -⟩ := hnumbers
  have hint := m.limits.int
  simp only [List.forall_mem_cons] at hint
  obtain ⟨hsum, hds, -⟩ := hint
  have hinfo : ∃ info, ofProperties m.memory p = some info ∧
      info.iMaxUser = m.limits.maxUser ∧ info.iDSMaxUser = m.limits.dsMaxUser ∧
      info.iDNCnt = m.limits.dnCnt := by
    simp only [ofProperties, hport, hdnPort, number_of_decimal hmaxUser (by omega),
      number_of_decimal hdsMaxUser hds, number_of_decimal hdnCnt (by omega), hworker,
      Option.bind_eq_bind, Option.bind_some, Option.pure_def]
    exact ⟨_, rfl, rfl, rfl, rfl⟩
  obtain ⟨info, hinfo, hmax, hdsMax, hcnt⟩ := hinfo
  refine ⟨info, ?_, ?_, ?_⟩
  · rw [Startup.info, hload]
    exact hinfo
  · rw [ChatManager.getMaxUser, hmax, hcnt, if_pos ⟨by omega, by omega⟩, Nat.cast_add]
  · rw [ChatManager.setDS, hdsMax, Conversion.widen]
    omega

end ServerInfoDNMgr

/-! ### What a chat server is told -/

/-- The limit in an answer is the manager's. -/
theorem Handshake.maxUser_answer (h : Handshake) (hlt : h.manager.dsMaxUser < 2 ^ 32) :
    (TPacket.filled h.answer).maxUser = h.manager.dsMaxUser := by
  have hlimit : ((TPacket.filled h.answer).data.drop UNIQIDSIZE).take 4
      = leBytes 4 h.manager.dsMaxUser := by
    simp [TPacket.data, TPacket.filled, Handshake.answer, ClientChatServer.helloAck]
  rw [TPacket.maxUser, hlimit, leNat_leBytes]
  exact Nat.mod_eq_of_lt hlt

/-- A chat server introduces itself to a manager that has been started. -/
structure Introduction where
  startup : ServerInfoDNMgr.Startup
  handshake : Handshake
  time : Nat
  course : handshake.Course
  told : startup.info.map ChatManager.setDS = some handshake.manager.dsMaxUser

namespace Introduction

/-- The negotiation of the chat server. -/
def negotiation (i : Introduction) : Negotiation ChatManager :=
  ⟨i.handshake.manager, i.time, i.course.contact⟩

variable {i : Introduction}

theorem dsMaxUser_eq : i.handshake.manager.dsMaxUser = i.startup.limits.dsMaxUser := by
  obtain ⟨info, hinfo, -, hds⟩ := i.startup.exists_info
  have htold := i.told
  rw [hinfo, Option.map_some, hds, Option.some_inj] at htold
  exact htold.symm

/-- A handshake that comes off tells the limit of the file. -/
theorem maxUser_eq (hcorrect : i.handshake.Correct i.course) :
    i.negotiation.maxUser
      = if i.negotiation.connects then some i.startup.limits.dsMaxUser else none := by
  cases hcontact : i.course.contact with
  | answered fd maxUser =>
      have hright := hcorrect 0 0 ManagerLinks.start
      simp only [hcontact, ManagerLinks.negotiationWithManager] at hright
      have hlt : i.handshake.manager.dsMaxUser < 2 ^ 32 := by
        have hint := i.startup.limits.int _ (.tail _ (.head _))
        rw [dsMaxUser_eq]
        omega
      have hmax := (hright fd rfl).1
      rw [i.handshake.maxUser_answer hlt, dsMaxUser_eq] at hmax
      simp [Negotiation.maxUser, Negotiation.connects, negotiation, hcontact, hmax]
  | _ => simp [Negotiation.maxUser, Negotiation.connects, negotiation, hcontact]

/-- The limit of the last one that has ended with a socket. -/
def limit (managers : List Introduction) : Nat :=
  (managers.filter fun i => i.negotiation.connects).getLast?.elim 0 fun i =>
    i.startup.limits.dsMaxUser

variable {managers : List Introduction} {pid : Nat}

theorem toInt_limit : toInt (limit managers) = limit managers := by
  have hlt : limit managers < 2 ^ 31 := by
    rw [limit]
    cases (managers.filter fun i => i.negotiation.connects).getLast? with
    | none => exact Nat.two_pow_pos 31
    | some i => exact i.startup.limits.int _ (.tail _ (.head _))
  rw [toInt, Conversion.narrow, Int.bmod_def]
  omega

theorem maxUser_connectToMgr (hcorrect : ∀ i ∈ managers, i.handshake.Correct i.course) :
    (ManagerLinks.start.connectToMgr pid (managers.map negotiation)).maxUser = limit managers := by
  have hlimits : (managers.map negotiation).filterMap Negotiation.maxUser
      = (managers.filter fun i => i.negotiation.connects).map fun i =>
        i.startup.limits.dsMaxUser := by
    induction managers with
    | nil => rfl
    | cons i managers ih =>
        obtain ⟨hi, hmanagers⟩ := List.forall_mem_cons.mp hcorrect
        rw [List.map_cons, List.filterMap_cons, maxUser_eq hi, List.filter_cons, ih hmanagers]
        cases i.negotiation.connects <;> rfl
  rw [ManagerLinks.maxUser_connectToMgr, hlimits, List.getLast?_map, limit]
  cases (managers.filter fun i => i.negotiation.connects).getLast? <;> rfl

/-- **The limits of the files.** A chat server introduces itself to managers that have been
started from their files, and each handshake comes off. Then every manager has, in every run,
at most as many connections as its file allows it; and the chat server has, in every run, at
most as many users as the file of the last manager allows that it has got a socket to. An
update of `m_iConnCount` is one step of a run: two that overlap are not covered. -/
theorem limits_of_files {R B W : Type} [DecidableEq R] [DecidableEq B] [DecidableEq W]
    [Fintype R] (pid : Nat) (managers : List Introduction)
    (hcorrect : ∀ i ∈ managers, i.handshake.Correct i.course) :
    (∀ i ∈ managers, ∃ info maxUser, i.startup.info = some info ∧
      ChatManager.getMaxUser info = some maxUser ∧
      ∀ build (s : ManagerOwnership.State W),
        Reaches (ManagerOwnership.step build maxUser) (fun _ _ => True)
          ManagerOwnership.start s →
        s.books.connCount ≤ i.startup.limits.maxUser + i.startup.limits.dnCnt) ∧
    ∀ oneshot (s : ManagerSockets.State R B),
      Reaches (ManagerSockets.step oneshot
        (toInt (ManagerLinks.start.connectToMgr pid (managers.map negotiation)).maxUser))
        (fun _ _ => True) (ManagerSockets.start pid (managers.map negotiation)) s →
      s.own.books.listedUsers ≤ limit managers := by
  constructor
  · intro i _
    obtain ⟨info, hinfo, hmax, -⟩ := i.startup.exists_info
    refine ⟨info, _, hinfo, hmax, fun build s h => ?_⟩
    have hlimit := ManagerOwnership.connCount_le_of_reaches h
    omega
  · intro oneshot s h
    rw [maxUser_connectToMgr hcorrect] at h
    have hlimit := (Ownership.account_of_reaches (ManagerSockets.own_reaches h)).2
    rwa [toInt_limit, Int.toNat_natCast] at hlimit

/-- A manager that has been started with a small file answers the first hello. -/
def introduced : Introduction where
  startup :=
    { limits := ⟨3, 2, 1, by decide⟩
      disk := fun _ => some (literal "DM_MAX_USER=3\nDS_MAX_USER =2\nDN_CNT=1\n")
      name := "ChatManager.properties"
      file := literal "DM_MAX_USER=3\nDS_MAX_USER =2\nDN_CNT=1\n"
      memory := ⟨7, 7, 7, 7⟩
      onDisk := rfl
      wellFormed := by decide +kernel
      apart := by decide +kernel
      plain := by decide +kernel
      entries := by decide +kernel
      numbers := by decide +kernel }
  handshake :=
    { manager :=
        { chatServers := [⟨9, .nothing, 0, Handshake.initial_uniqId_lt⟩]
          dsMaxUser := 2
          fds_nodup := List.nodup_singleton 9 }
      connection := ⟨9, .nothing, 0, Handshake.initial_uniqId_lt⟩
      listed := .head _
      uniqId := 52 }
  time := 51
  course := .received 8 [.hello] ⟨PDUHEADERSIZE + 20, by decide +kernel, Nat.le_refl _⟩
  told := by decide +kernel

/-- The limit counts the manager, so there is room for one user. -/
theorem limits_of_introduced :
    ∃ s : ManagerSockets.State Unit Unit,
      run (ManagerSockets.step true 2) (ManagerSockets.start 1 [introduced.negotiation])
        [.own .registerManager, .own (.list .main), .own (.addClient .main true), .own .test,
          .own .acceptUser, .own (.list .acceptor)] = some s ∧
      s.own.books.listedUsers = 1 ∧ s.own.books.listedUsers ≤ limit [introduced] := by
  have hcorrect : ∀ i ∈ [introduced], i.handshake.Correct i.course := by
    refine List.forall_mem_singleton.mpr ?_
    exact Handshake.correct_received_iff.mpr (Handshake.take_eq_answer_iff.mpr
      ⟨rfl, Handshake.answerFirst_hello []⟩)
  obtain ⟨-, hserver⟩ := limits_of_files (R := Unit) (B := Unit) (W := Unit) 1 [introduced] hcorrect
  have hmax : toInt (ManagerLinks.start.connectToMgr 1 ([introduced].map negotiation)).maxUser
      = 2 := by
    rw [maxUser_connectToMgr hcorrect]
    decide +kernel
  rw [hmax] at hserver
  exact ⟨_, rfl, rfl, hserver true _ (reaches_of_run [.own .registerManager, .own (.list .main),
    .own (.addClient .main true), .own .test, .own .acceptUser, .own (.list .acceptor)]
    (fun _ _ _ => trivial) rfl)⟩

end Introduction

end ThunderChat

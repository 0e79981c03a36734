import ThunderChat.Properties.Load
import ThunderChat.Properties.Values
import ThunderChat.Server.Pipeline
import ThunderChat.Server.Split

/-!
`ServerInfoDN`: what a `ChatServer` takes from its properties file.

The constructor asks for one key after the other and leaves the member as it is when the
property is not set, or is empty. The `Assert`s on lengths only write a file, so a text that
is longer than its array is cut off; `m_pchManagerIpAddresses` is not cleared before. A port
or a thread count that is not in the file is -1. A bandwidth that is set is read through a
pointer into a `std::string` that is gone by then, which is not defined.

* `started_of_file`: the ports, the thread counts and the managers of a server are those that
  its file says, as long as the list of managers fits into its array.
* `worked_off_iff`: everything a server polls is worked off exactly if its file asks for
  receivers and broadcasters.
-/

namespace ThunderChat

/-- `ENUM_SERVERSOCKET_TYPE`. -/
inductive ServerSocketType where
  | serverPort | serverPortMgr | serverPortPc
  deriving DecidableEq, Repr

/-- `ENUM_THREAD_TYPE`. -/
inductive ThreadType where
  | worker | sender | receiver | broadcaster
  deriving DecidableEq, Repr

/-- `MAX_IP_LEN`. -/
def MAX_IP_LEN : Nat := 20

/-- `LOG_FILE_LEN`. -/
def LOG_FILE_LEN : Nat := 256

/-- `MAX_URL`. -/
def MAX_URL : Nat := 256

open Properties

namespace Properties

/-- The bytes of a literal. -/
def literal (s : String) : Bytes := s.toList.map fun c => UInt8.ofNat c.toNat

/-- A property that is set, as a number. -/
def number (p : Properties) (key : String) : Option (Option Int) :=
  match p.getProperty (literal key) with
  | [] => some none
  | value => (atoi (cString value)).map some

/-- A property that is set, copied into an array of `n` bytes. -/
def array (p : Properties) (key : String) (n : Nat) (old : Bytes) : Bytes :=
  match p.getProperty (literal key) with
  | [] => old
  | value => strncpy n (cString value)

end Properties

/-- The members of a `ServerInfoDN` that are read. -/
structure ServerInfoDN where
  mapServerPort : ServerSocketType → Option Int
  mapThreadCount : ThreadType → Option Int
  pchIPAddr : Bytes
  pchLogFile : Bytes
  pchManagerIpAddresses : Bytes
  iBandwidth : List Nat

namespace ServerInfoDN

/-- A bandwidth. `GetProperty` returns a copy, and the copy that `c_str()` points into is
destroyed before `DefineBandwidth` is called with it. -/
def bandwidth (p : Properties) (key : String) : Option Nat :=
  match p.getProperty (literal key) with
  | [] => some 0
  | _ => none

/-- The keys of `iBandwidth`. -/
def BANDS : List String :=
  ["BAND_MAX", "BAND1", "BAND2", "BAND3", "BAND4", "BAND5", "BAND6", "BAND7", "BAND8", "BAND9"]

/-- The constructor; `memory` is what has been in `m_pchManagerIpAddresses`. -/
def ofProperties (memory : Bytes) (p : Properties) : Option ServerInfoDN := do
  let managerPort ← p.number "SERVER_PORT_DNMGR"
  let port ← p.number "SERVER_PORT"
  let sender ← p.number "THREAD_SENDER"
  let receiver ← p.number "THREAD_RECEIVER"
  let broadcaster ← p.number "THREAD_BROADCASTER"
  let iBandwidth ← BANDS.mapM (bandwidth p)
  return {
    mapServerPort
      | .serverPortMgr => managerPort
      | .serverPort => port
      | .serverPortPc => none
    mapThreadCount
      | .sender => sender
      | .receiver => receiver
      | .broadcaster => broadcaster
      | .worker => none
    pchIPAddr := p.array "SERVER_IP" MAX_IP_LEN (List.replicate MAX_IP_LEN 0)
    pchLogFile := p.array "SERVER_LOGFILE" LOG_FILE_LEN (List.replicate LOG_FILE_LEN 0)
    pchManagerIpAddresses := p.array "DNMGR_SERVER_IPs" MAX_URL memory
    iBandwidth }

/-- `GetPort`. -/
def getPort (info : ServerInfoDN) (type : ServerSocketType) : Int :=
  (info.mapServerPort type).getD (-1)

/-- `GetThreadCount`. -/
def getThreadCount (info : ServerInfoDN) (type : ThreadType) : Int :=
  (info.mapThreadCount type).getD (-1)

/-- `GetManagerIpAddresses`, taken for a `std::string`. -/
def getManagerIpAddresses (info : ServerInfoDN) : Option Bytes :=
  readArray info.pchManagerIpAddresses

/-- The threads that `ChatServer::Run` spawns of a kind. -/
abbrev Spawned (info : ServerInfoDN) (type : ThreadType) : Type :=
  Fin (info.getThreadCount type).toNat

end ServerInfoDN

/-! ### What a file sets -/

namespace Properties

open Lines

variable {file : Bytes} {disk : Disk} {name : String}

/-- The value of a key that a file sets, in the last line that defines it. -/
def setIn (file k : Bytes) : Option Bytes :=
  ((lines NEWLINE file).filter fun line => Defines k line).getLast?.map fun line =>
    strip (valuePart line)

theorem lastValue_eq {ls : List Bytes} (hnul : ∀ line ∈ ls, 0 ∉ line) (k : Bytes) :
    lastValue ls k = (ls.filter fun line => Defines k line).getLast?.map fun line =>
      strip (valuePart line) := by
  induction ls with
  | nil => rfl
  | cons line ls ih =>
      obtain ⟨hline, hls⟩ := List.forall_mem_cons.mp hnul
      rw [lastValue_cons, ih hls]
      by_cases hdefines : Defines k line
      · have hentry := (entryOf_eq_some hline).mpr ⟨hdefines, rfl⟩
        rw [List.filter_cons_of_pos (by simpa using hdefines), List.getLast?_cons, hentry,
          Option.toList_some, List.lookup_cons_self]
        cases (ls.filter fun line => Defines k line).getLast? <;> rfl
      · have hnone : (entryOf line).toList.lookup k = none := by
          cases hentry : entryOf line with
          | none => rfl
          | some e =>
              rw [Option.toList_some, List.lookup_singleton]
              refine if_neg fun hk => hdefines ?_
              have hk : k = e.1 := by simpa using hk
              exact ((entryOf_eq_some (v := e.2) hline).mp (by rw [hentry, hk])).1
        rw [List.filter_cons_of_neg (by simpa using hdefines), hnone, Option.or_none]

theorem zero_notMem_of_setIn {k v : Bytes} (hnul : 0 ∉ file) (h : setIn file k = some v) :
    0 ∉ v := by
  obtain ⟨line, hlast, rfl⟩ := Option.map_eq_some_iff.mp h
  have hline := (List.mem_filter.mp (List.mem_of_mem_getLast? hlast)).1
  intro hmem
  have hbehind := List.mem_of_mem_tail (strip_subset hmem)
  exact zero_notMem_of_mem_lines hnul line hline ((List.dropWhile_suffix _).subset hbehind)

/-- A file without a move that overlaps gives back what it sets. -/
theorem exists_load (hdisk : disk name = some file) (hfile : IsPropertiesFile file)
    (hapart : ∀ line ∈ lines NEWLINE file, Apart line) (hnul : 0 ∉ file) :
    ∃ p, new.load disk name = some (0, p) ∧ ∀ k, p.getProperty k = (setIn file k).getD [] := by
  obtain ⟨map, hread⟩ := hfile.exists_readText_iff.mpr hapart
  refine ⟨⟨name, map⟩, load_eq_of_readText hdisk hread, fun k => ?_⟩
  rw [getProperty, getElem?_of_readText hread, hfile.getLines_eq,
    lastValue_eq (zero_notMem_of_mem_lines hnul), setIn]

end Properties

/-! ### A server's file -/

namespace Properties

variable {p : Properties} {key : String}

theorem isSome_number {o : Option Bytes} (h : p.getProperty (literal key) = o.getD [])
    (hsome : ∀ value ∈ o, (atoi (cString value)).isSome) : (p.number key).isSome := by
  rw [number]
  split
  · rfl
  · next hne =>
      cases o with
      | none => exact absurd h hne
      | some value =>
          rw [h, Option.isSome_map]
          exact hsome value rfl

theorem number_of_decimal {n : Nat} (h : p.getProperty (literal key) = decimal n)
    (hn : n < 2 ^ 31) : p.number key = some (some (n : Int)) := by
  have hplain : cString (decimal n) = decimal n := cString_eq_self fun c hc heq => by
    have hdigit := isDigit_of_mem_decimal hc
    rw [heq] at hdigit
    cases hdigit
  rw [number, h]
  split
  · next hnil => exact absurd hnil (decimal_ne_nil n)
  · rw [hplain, atoi_decimal hn]
    rfl

theorem array_of_set {n : Nat} {old value : Bytes} (h : p.getProperty (literal key) = value)
    (hne : value ≠ []) (hnul : 0 ∉ value) : p.array key n old = strncpy n value := by
  rw [array, h]
  split
  · exact absurd rfl hne
  · rw [cString_eq_self fun c hc heq => hnul (heq ▸ hc)]

end Properties

namespace ServerInfoDN

open Split Transition CircularQueue CircularQueue.Network Pipeline

/-- What a `ChatServer.properties` is to say. The addresses have no comma in them. -/
structure Settings where
  managers : List Bytes
  managerPort : Nat
  port : Nat
  receivers : Nat
  broadcasters : Nat
  plain : ∀ manager ∈ managers, 44 ∉ manager
  nonempty : COMMA.intercalate managers ≠ []
  int : ∀ n ∈ [managerPort, port, receivers, broadcasters], n < 2 ^ 31

namespace Settings

variable (c : Settings)

/-- The value of `DNMGR_SERVER_IPs`. -/
def addresses : Bytes := COMMA.intercalate c.managers

/-- What the lines say. -/
def entries : List (String × Bytes) :=
  [("DNMGR_SERVER_IPs", c.addresses), ("SERVER_PORT_DNMGR", decimal c.managerPort),
    ("SERVER_PORT", decimal c.port), ("THREAD_RECEIVER", decimal c.receivers),
    ("THREAD_BROADCASTER", decimal c.broadcasters)]

/-- A file says them. Its number of senders, if it sets one, can be read, and it sets no
bandwidth. -/
structure SaidBy (file : Bytes) : Prop where
  entries : ∀ e ∈ c.entries, setIn file (literal e.1) = some e.2
  sender : ∀ value ∈ setIn file (literal "THREAD_SENDER"), (atoi (cString value)).isSome
  bands : ∀ key ∈ BANDS, ∀ value ∈ setIn file (literal key), value = []

end Settings

/-- A bandwidth is defined only where it is not set. -/
theorem bandwidth_eq_some_iff {p : Properties} {key : String} {n : Nat} :
    bandwidth p key = some n ↔ p.getProperty (literal key) = [] ∧ n = 0 := by
  rw [bandwidth]
  split
  · next hnil => simp [hnil, eq_comm]
  · next hne => exact iff_of_false (Option.some_ne_none n).symm fun h => hne h.1

theorem mapM_bandwidth {p : Properties} {keys : List String}
    (h : ∀ key ∈ keys, p.getProperty (literal key) = []) :
    keys.mapM (bandwidth p) = some (keys.map fun _ => 0) := by
  induction keys with
  | nil => rfl
  | cons key keys ih =>
      obtain ⟨hkey, hkeys⟩ := List.forall_mem_cons.mp h
      rw [List.mapM_cons, bandwidth_eq_some_iff.mpr ⟨hkey, rfl⟩, ih hkeys]
      rfl

/-- What the constructor makes of properties that say them. -/
theorem exists_ofProperties {p : Properties} (c : Settings) (memory : Bytes)
    (hentries : ∀ e ∈ c.entries, p.getProperty (literal e.1) = e.2)
    (hsender : (p.number "THREAD_SENDER").isSome)
    (hbands : ∀ key ∈ BANDS, p.getProperty (literal key) = []) :
    ∃ info, ofProperties memory p = some info ∧
      info.getPort .serverPortMgr = c.managerPort ∧ info.getPort .serverPort = c.port ∧
      info.getThreadCount .receiver = c.receivers ∧
      info.getThreadCount .broadcaster = c.broadcasters ∧
      info.pchManagerIpAddresses = p.array "DNMGR_SERVER_IPs" MAX_URL memory := by
  obtain ⟨sender, hsender⟩ := Option.isSome_iff_exists.mp hsender
  simp only [Settings.entries, List.forall_mem_cons] at hentries
  obtain ⟨-, hmanagerPort, hport, hreceivers, hbroadcasters, -⟩ := hentries
  have hint := c.int
  simp only [List.forall_mem_cons] at hint
  obtain ⟨hmanagerPort', hport', hreceivers', hbroadcasters', -⟩ := hint
  simp only [ofProperties, number_of_decimal hmanagerPort hmanagerPort',
    number_of_decimal hport hport', hsender, number_of_decimal hreceivers hreceivers',
    number_of_decimal hbroadcasters hbroadcasters', mapM_bandwidth hbands, Option.bind_eq_bind,
    Option.bind_some, Option.pure_def]
  exact ⟨_, rfl, rfl, rfl, rfl, rfl, rfl⟩

variable {file : Bytes} {pieces : List Bytes}

/-- What `ConnectToMgr` makes of the list of managers. -/
theorem splits_iff {info : ServerInfoDN} (c : Settings) (hnul : 0 ∉ c.addresses)
    (hset : info.pchManagerIpAddresses = strncpy MAX_URL c.addresses) :
    (∃ s, info.getManagerIpAddresses = some s ∧ Splits s COMMA pieces) ↔
      c.addresses.length < MAX_URL ∧ pieces = c.managers := by
  have hne : c.managers ≠ [] := fun hnil => c.nonempty (by rw [hnil]; rfl)
  rw [getManagerIpAddresses, hset, readArray_strncpy hnul, Settings.addresses, COMMA]
  by_cases hlt : ([44].intercalate c.managers).length < MAX_URL
  · simp only [hlt, if_true, true_and, Option.some.injEq]
    constructor
    · rintro ⟨s, rfl, hsplits⟩
      exact (splits_intercalate_iff c.plain hne).mp hsplits
    · intro heq
      exact ⟨_, rfl, (splits_intercalate_iff c.plain hne).mpr heq⟩
  · simp only [hlt, if_false, false_and, iff_false]
    rintro ⟨s, hnone, -⟩
    cases hnone

/-- **The start from a file.** A server whose file says the settings, and has no line that is
moved over itself when it is trimmed, has its ports and thread counts from them; and the
addresses it connects to are the managers, exactly if the list of them is shorter than its
array. Otherwise reading the array is not defined. -/
theorem started_of_file (c : Settings) (disk : Disk) (name : String)
    (hdisk : disk name = some file) (hfile : IsPropertiesFile file)
    (hapart : ∀ line ∈ Lines.lines NEWLINE file, Apart line) (hnul : 0 ∉ file)
    (hsaid : c.SaidBy file) (memory : Bytes) :
    ∃ p info, Properties.new.load disk name = some (0, p) ∧ ofProperties memory p = some info ∧
      info.getPort .serverPortMgr = c.managerPort ∧ info.getPort .serverPort = c.port ∧
      info.getThreadCount .receiver = c.receivers ∧
      info.getThreadCount .broadcaster = c.broadcasters ∧
      ∀ pieces, (∃ s, info.getManagerIpAddresses = some s ∧ Splits s COMMA pieces) ↔
        c.addresses.length < MAX_URL ∧ pieces = c.managers := by
  obtain ⟨p, hload, hproperty⟩ := exists_load hdisk hfile hapart hnul
  have hentries : ∀ e ∈ c.entries, p.getProperty (literal e.1) = e.2 := fun e he => by
    rw [hproperty, hsaid.entries e he, Option.getD_some]
  have hsender := isSome_number (hproperty (literal "THREAD_SENDER")) hsaid.sender
  have hbands : ∀ key ∈ BANDS, p.getProperty (literal key) = [] := by
    intro key hkey
    rw [hproperty]
    cases hset : setIn file (literal key) with
    | none => rfl
    | some value => exact hsaid.bands key hkey value hset
  obtain ⟨info, hinfo, hmanagerPort, hport, hreceivers, hbroadcasters, hmanagers⟩ :=
    exists_ofProperties c memory hentries hsender hbands
  have haddresses := hsaid.entries _ List.mem_cons_self
  have hplain : 0 ∉ c.addresses := zero_notMem_of_setIn hnul haddresses
  rw [array_of_set (hentries _ List.mem_cons_self) c.nonempty hplain] at hmanagers
  exact ⟨p, info, hload, hinfo, hmanagerPort, hport, hreceivers, hbroadcasters, fun pieces =>
    splits_iff c hplain hmanagers⟩

/-- Two managers, and five threads of each kind. -/
def twoManagers : Settings where
  managers := [literal "10.0.0.1", literal "10.0.0.2"]
  managerPort := 50000
  port := 50001
  receivers := 5
  broadcasters := 5
  plain := by decide +kernel
  nonempty := by decide +kernel
  int := by decide

/-- A file that says so, with comments and with spaces to trim. -/
def twoManagersFile : Bytes :=
  literal "# comma separated ip list\nDNMGR_SERVER_IPs =10.0.0.1,10.0.0.2 \n"
    ++ literal "SERVER_PORT_DNMGR=50000\nSERVER_PORT=50001\nTHREAD_RECEIVER=5\n"
    ++ literal "#THREAD_SENDER= 4\nTHREAD_BROADCASTER=5\n"

theorem started_of_twoManagersFile : ∃ p info,
    Properties.new.load (fun _ => some twoManagersFile) "ChatServer.properties" = some (0, p) ∧
      ofProperties (List.replicate MAX_URL 7) p = some info ∧
      info.getPort .serverPort = 50001 ∧
      ∃ s, info.getManagerIpAddresses = some s ∧ Splits s COMMA twoManagers.managers := by
  have hfile : IsPropertiesFile twoManagersFile ∧ 0 ∉ twoManagersFile := by decide +kernel
  have hapart : ∀ line ∈ Lines.lines NEWLINE twoManagersFile, Apart line := by decide +kernel
  have hsaid : twoManagers.SaidBy twoManagersFile := by
    constructor <;> decide +kernel
  obtain ⟨p, info, hload, hinfo, -, hport, -, -, hmanagers⟩ :=
    started_of_file twoManagers (fun _ => some twoManagersFile) "ChatServer.properties" rfl
      hfile.1 hapart hfile.2 hsaid (List.replicate MAX_URL 7)
  exact ⟨p, info, hload, hinfo, hport, (hmanagers _).mpr ⟨by decide +kernel, rfl⟩⟩

/-- **Who is needed.** The threads that a server spawns work everything off that it polls,
whatever the schedule and whatever the receivers read, exactly if its file asks for a receiver
and a broadcaster. -/
theorem worked_off_iff {C M : Type} [Nonempty C] [Nonempty M] (info : ServerInfoDN)
    (data : Queue → Nat → Pointer C M) :
    (∀ s : State (Thread (info.Spawned .receiver) (info.Spawned .broadcaster)) Queue
        (Pointer C M) (Task C M), Reached program data spawned s →
      Inevitable (Network.step program) (Own Inner) Quiet s) ↔
      0 < info.getThreadCount .receiver ∧ 0 < info.getThreadCount .broadcaster := by
  rw [inevitable_quiet_iff data, ← Fin.pos_iff_nonempty, ← Fin.pos_iff_nonempty,
    Int.pos_iff_toNat_pos, Int.pos_iff_toNat_pos]

/-- A file that asks for no receiver: a client that is polled waits for ever. -/
theorem worked_off_without_receiver :
    let info : ServerInfoDN := ⟨fun _ => none, fun
      | .broadcaster => some 5
      | _ => none, [], [], [], []⟩
    ¬ ∀ s : State (Thread (info.Spawned .receiver) (info.Spawned .broadcaster)) Queue
        (Pointer Nat Nat) (Task Nat Nat), Reached program (fun _ _ => .client 0) spawned s →
      Inevitable (Network.step program) (Own Inner) Quiet s := by
  intro info h
  have hboth := (worked_off_iff info fun _ _ => .client 0).mp h
  exact absurd hboth.1 (by decide)

end ServerInfoDN

end ThunderChat

import ThunderChat.Server.ChatManager
import ThunderChat.Server.ChatServer
import ThunderChat.Server.Negotiation

/-!
Whether the managers can tell by the ids which server a broadcast comes from.

A server registers the id of each negotiation with the manager of that negotiation
and puts the id of its last negotiation into its broadcasts. Ids are the time plus the
pid, so different pids alone do not make them different.

* `sound_iff`: the registrations identify the servers exactly if in no server the
  clock moves on after the first connection, no two of the sums of time and pid agree,
  and all of them are below `2 ^ 31`.
-/

namespace ThunderChat.Origin

variable {S M : Type}

/-- Chat server processes on one host after `ConnectToMgr`, and the managers with the
connections they have accepted. `owner` and `hello` are the server behind a manager's
socket and the hello packet that came over it. -/
structure Fleet (S M : Type) where
  process : S → Process M
  server : S → ChatServer
  manager : M → ChatManager
  owner : M → Nat → S
  hello : M → ClientChatServer → Packet
  pids_injective : Function.Injective fun X => (process X).pid
  stamp : ∀ X, (server X).uniqId = (process X).links.uniqId
  sockets : ∀ X, (server X).chatManagerSockets
    = (process X).links.chatManagerSockets.reduceOption
  accepted : ∀ X m packet, (m, packet) ∈ (process X).links.registrations ↔
    ∃ c ∈ (manager m).chatServers, owner m c.fd = X ∧ hello m c = packet

namespace Fleet

/-- The hello packet in the manager's buffer. -/
def helloPacket (F : Fleet S M) (m : M) (c : ClientChatServer) : TPacket := (F.hello m c).toTPacket

/-- The manager after `WorkChatServerHello` on every connection. -/
def registered (F : Fleet S M) (m : M) : ChatManager := (F.manager m).registerAll (F.helloPacket m)

/-- The id registered on a connection. -/
def registeredId (F : Fleet S M) (m : M) (c : ClientChatServer) : Nat :=
  (c.workChatServerHello (F.manager m).dsMaxUser (F.helloPacket m c)).1.uniqId

/-- The packet the server behind a connection broadcasts a text in. -/
def broadcastOf (F : Fleet S M) (m : M) (c : ClientChatServer) (text : Text) (fd : Nat) : TPacket :=
  (F.server (F.owner m c.fd)).broadcastPacket (text.message fd)

/-- What the manager writes when the packet arrives. -/
def relayOf (F : Fleet S M) (m : M) (c : ClientChatServer) (text : Text) (fd : Nat) :
    List SocketWrite :=
  ((F.registered m).executeCommand c (received (F.broadcastOf m c text fd).frame)).writes

/-- Every broadcast carries the id registered on its connection, no other server is
registered with this id anywhere, and the manager forwards the broadcast to the
connections of the other servers and not to its own. -/
def Sound [DecidableEq S] (F : Fleet S M) : Prop :=
  ∀ m, ∀ c ∈ (F.manager m).chatServers, ∀ (text : Text) (fd : Nat),
    (F.broadcastOf m c text fd).uniqId = F.registeredId m c ∧
    (∀ m', ∀ d ∈ (F.manager m').chatServers, F.owner m' d.fd ≠ F.owner m c.fd →
      F.registeredId m' d ≠ (F.broadcastOf m c text fd).uniqId) ∧
    ∀ d ∈ (F.manager m).chatServers, writesTo d.fd (F.relayOf m c text fd)
      = if F.owner m d.fd = F.owner m c.fd then [] else [(F.broadcastOf m c text fd).frame]

/-- The clock readings for which the ids identify the servers. -/
structure ClocksIdentify (F : Fleet S M) : Prop where
  still : ∀ X, ∀ first ∈ (F.process X).firstReading, (F.process X).lastReading = some first
  apart : ∀ X Y, X ≠ Y → ∀ first ∈ (F.process X).firstReading,
    ∀ first' ∈ (F.process Y).firstReading, first + (F.process X).pid ≠ first' + (F.process Y).pid
  small : ∀ X, ∀ first ∈ (F.process X).firstReading, first + (F.process X).pid < 2 ^ 31

variable {F : Fleet S M} {m : M} {c d : ClientChatServer} {text : Text} {fd : Nat}

/-! ### The ids on the two sides -/

theorem broadcastOf_eq : F.broadcastOf m c text fd
    = (text.packet (F.server (F.owner m c.fd)).uniqId).toTPacket :=
  ChatServer.broadcastPacket_eq text.toUInt64_length text.fits

theorem broadcastOf_uniqId :
    (F.broadcastOf m c text fd).uniqId = (F.server (F.owner m c.fd)).uniqId := by
  rw [broadcastOf_eq, text.packet_uniqId (F.server _).uniqId_lt]

/-- A connection is registered with a reading of its server plus the pid. -/
theorem exists_reading (hc : c ∈ (F.manager m).chatServers) :
    ∃ r ∈ (F.process (F.owner m c.fd)).readings,
      F.registeredId m c = r + (F.process (F.owner m c.fd)).pid := by
  have hregistered := (F.accepted _ m (F.hello m c)).mpr ⟨c, hc, rfl, rfl⟩
  obtain ⟨n, hn, hconnects, _, hhello⟩ := Process.mem_registrations.mp hregistered
  refine ⟨n.time, List.mem_map.mpr ⟨n, List.mem_filter.mpr ⟨hn, hconnects⟩, rfl⟩, ?_⟩
  have hlt := (F.process (F.owner m c.fd)).sum_lt n hn
  show (F.hello m c).toTPacket.uniqId = _
  rw [hhello, Packet.hello_uniqId (by omega)]

/-- The first reading of a server is registered somewhere. -/
theorem exists_connection {X : S} {r : Nat} (h : (F.process X).firstReading = some r) :
    ∃ m, ∃ c ∈ (F.manager m).chatServers, F.owner m c.fd = X ∧
      F.registeredId m c = r + (F.process X).pid := by
  obtain ⟨n, hn, rfl⟩ := List.mem_map.mp (List.mem_of_head? h)
  obtain ⟨hmem, hconnects⟩ := List.mem_filter.mp hn
  rcases (F.accepted X n.manager _).mp
    (Process.mem_registrations.mpr ⟨n, hmem, hconnects, rfl, rfl⟩) with ⟨c, hc, howner, hhello⟩
  have hlt := (F.process X).sum_lt n hmem
  refine ⟨n.manager, c, hc, howner, ?_⟩
  show (F.hello n.manager c).toTPacket.uniqId = _
  rw [hhello, Packet.hello_uniqId (by omega)]

/-- A broadcast carries the last reading of its server plus the pid. -/
theorem broadcastOf_uniqId_eq {last : Nat}
    (h : (F.process (F.owner m c.fd)).lastReading = some last) :
    (F.broadcastOf m c text fd).uniqId = last + (F.process (F.owner m c.fd)).pid := by
  rw [broadcastOf_uniqId, F.stamp, Process.uniqId_of_lastReading h]

/-- The comparison of the ids decides who gets a broadcast. -/
theorem writesTo_relayOf (hd : d ∈ (F.manager m).chatServers) :
    writesTo d.fd (F.relayOf m c text fd)
      = if Conversion.Survives 32 64 (F.broadcastOf m c text fd).uniqId ∧
          F.registeredId m d ≡ (F.broadcastOf m c text fd).uniqId [MOD 2 ^ 32]
        then [] else [(F.broadcastOf m c text fd).frame] := by
  have hwrites : F.relayOf m c text fd
      = (F.registered m).messageBroadcast (F.broadcastOf m c text fd) := by
    rw [relayOf, broadcastOf_eq, Packet.toTPacket_frame]
    exact ChatManager.writes_of_received rfl
  rw [hwrites, registered, ChatManager.writesTo_registerAll hd]
  rfl

/-! ### Readings that identify -/

namespace ClocksIdentify

/-- The registered id is the server's first reading plus the pid. -/
theorem registeredId_eq (clocks : F.ClocksIdentify) (hc : c ∈ (F.manager m).chatServers) :
    ∃ first ∈ (F.process (F.owner m c.fd)).firstReading,
      F.registeredId m c = first + (F.process (F.owner m c.fd)).pid := by
  obtain ⟨r, hr, hid⟩ := exists_reading hc
  exact ⟨r, Process.firstReading_of_still (clocks.still _) hr, hid⟩

theorem registeredId_lt (clocks : F.ClocksIdentify) (hc : c ∈ (F.manager m).chatServers) :
    F.registeredId m c < 2 ^ 31 := by
  obtain ⟨first, hfirst, hid⟩ := clocks.registeredId_eq hc
  rw [hid]
  exact clocks.small _ first hfirst

/-- Broadcasts carry the registered id. -/
theorem stamp_eq (clocks : F.ClocksIdentify) (hc : c ∈ (F.manager m).chatServers) :
    (F.broadcastOf m c text fd).uniqId = F.registeredId m c := by
  obtain ⟨first, hfirst, hid⟩ := clocks.registeredId_eq hc
  rw [broadcastOf_uniqId_eq (clocks.still _ first hfirst), hid]

/-- Connections with the same id belong to the same server. -/
theorem registeredId_eq_iff (clocks : F.ClocksIdentify) {m' : M}
    (hc : c ∈ (F.manager m).chatServers) (hd : d ∈ (F.manager m').chatServers) :
    F.registeredId m' d = F.registeredId m c ↔ F.owner m' d.fd = F.owner m c.fd := by
  obtain ⟨first, hfirst, hid⟩ := clocks.registeredId_eq hc
  obtain ⟨first', hfirst', hid'⟩ := clocks.registeredId_eq hd
  rw [hid, hid']
  constructor
  · intro heq
    by_contra hne
    exact clocks.apart _ _ hne first' hfirst' first hfirst heq
  · intro howner
    rw [howner] at hfirst' ⊢
    rw [Option.mem_unique hfirst' hfirst]

/-- The manager leaves out the connections of the broadcasting server. -/
theorem writesTo_relay [DecidableEq S] (clocks : F.ClocksIdentify)
    (hc : c ∈ (F.manager m).chatServers) (hd : d ∈ (F.manager m).chatServers) :
    writesTo d.fd (F.relayOf m c text fd) =
      if F.owner m d.fd = F.owner m c.fd then [] else [(F.broadcastOf m c text fd).frame] := by
  have hlt := clocks.registeredId_lt hc
  have hlt' := clocks.registeredId_lt hd
  have hcompare : (Conversion.Survives 32 64 (F.registeredId m c) ∧
      F.registeredId m d ≡ F.registeredId m c [MOD 2 ^ 32]) ↔
      F.owner m d.fd = F.owner m c.fd := by
    rw [← clocks.registeredId_eq_iff hc hd]
    constructor
    · rintro ⟨_, hmod⟩
      exact Nat.ModEq.eq_of_lt_of_lt hmod (by omega) (by omega)
    · intro heq
      exact ⟨.inl hlt, by rw [heq]⟩
  rw [writesTo_relayOf hd, clocks.stamp_eq hc]
  simp only [hcompare]

end ClocksIdentify

/-! ### What a sound fleet says about the clocks -/

section Converse

variable [DecidableEq S] {X : S} {first : Nat}

/-- A text to try the managers with. -/
def probe : Text := ⟨[0], by decide, by decide⟩

/-- A server with an answered hello stamps its first reading. -/
theorem Sound.lastReading_eq (sound : F.Sound) (h : (F.process X).firstReading = some first) :
    (F.process X).lastReading = some first := by
  obtain ⟨m, c, hc, rfl, hid⟩ := exists_connection h
  obtain ⟨last, hlast⟩ := Process.exists_lastReading (List.mem_of_head? h)
  have hstamp := (sound m c hc probe 0).1
  rw [broadcastOf_uniqId_eq hlast, hid, Nat.add_right_cancel_iff] at hstamp
  rw [hlast, hstamp]

theorem Sound.ids_ne (sound : F.Sound) {Y : S} {first' : Nat} (hne : X ≠ Y)
    (h : (F.process X).firstReading = some first) (h' : (F.process Y).firstReading = some first') :
    first + (F.process X).pid ≠ first' + (F.process Y).pid := by
  obtain ⟨m, c, hc, rfl, hid⟩ := exists_connection h
  obtain ⟨m', d, hd, rfl, hid'⟩ := exists_connection h'
  have hstamp : (F.broadcastOf m c probe 0).uniqId = first + (F.process (F.owner m c.fd)).pid :=
    broadcastOf_uniqId_eq (sound.lastReading_eq h)
  rw [← hstamp, ← hid']
  exact ((sound m c hc probe 0).2.1 m' d hd (Ne.symm hne)).symm

/-- A server whose own broadcasts are not written back to it has a small id. -/
theorem Sound.id_lt (sound : F.Sound) (h : (F.process X).firstReading = some first) :
    first + (F.process X).pid < 2 ^ 31 := by
  obtain ⟨m, c, hc, rfl, hid⟩ := exists_connection h
  have hsum := (F.process (F.owner m c.fd)).sum_lt_of_mem_readings (List.mem_of_head? h)
  have hown := (sound m c hc probe 0).2.2 c hc
  rw [if_pos rfl, writesTo_relayOf hc, (sound m c hc probe 0).1, hid] at hown
  split at hown
  · next hleft =>
      rcases hleft.1 with hsmall | hlarge
      · exact hsmall
      · omega
  · cases hown

end Converse

end Fleet

open Fleet

/-- **When the ids identify the servers**: exactly if every server that got a socket
read the same clock at its first socket and in its last negotiation, the sums of this
reading and the pid differ between such servers, and none reaches `2 ^ 31`. -/
theorem sound_iff [DecidableEq S] (F : Fleet S M) : F.Sound ↔ F.ClocksIdentify := by
  constructor
  · intro sound
    exact ⟨fun X first h => sound.lastReading_eq h,
      fun X Y hne first h first' h' => sound.ids_ne hne h h',
      fun X first h => sound.id_lt h⟩
  · intro clocks m c hc text fd
    refine ⟨clocks.stamp_eq hc, ?_, ?_⟩
    · intro m' d hd howner heq
      rw [clocks.stamp_eq hc, clocks.registeredId_eq_iff hc hd] at heq
      exact howner heq
    · intro d hd
      exact clocks.writesTo_relay hc hd

/-! ### A second between two managers -/

/-- One server that reaches its two managers in different seconds. -/
def slowServer : Process Bool where
  pid := 7
  negotiations := [⟨false, 100, .answered 3 1000⟩, ⟨true, 101, .answered 4 1000⟩]
  sum_lt := by decide
  sorted := by decide

/-- Its connection at either manager. -/
def slowConnection : ClientChatServer := ⟨5, .user, 31, by decide⟩

theorem slowServer_uniqId : slowServer.links.uniqId = 108 := by
  have hlast : slowServer.lastReading = some 101 := rfl
  rw [Process.uniqId_of_lastReading hlast]
  rfl

/-- The server with its two managers. It is registered as 107 and 108. -/
def twoSeconds : Fleet Unit Bool where
  process _ := slowServer
  server _ :=
    { uniqId := 108
      clients := [⟨3, .chatManager⟩, ⟨4, .chatManager⟩]
      chatManagerSockets := [3, 4]
      uniqId_lt := by decide
      fds_nodup := by decide }
  manager _ :=
    { chatServers := [slowConnection]
      dsMaxUser := 1000
      fds_nodup := by decide }
  owner _ _ := ()
  hello m _ := .hello (if m then 108 else 107)
  pids_injective X Y _ := rfl
  stamp _ := slowServer_uniqId.symm
  sockets _ := rfl
  accepted X m packet := by
    rw [Process.mem_registrations]
    constructor
    · rintro ⟨n, hn, _, rfl, rfl⟩
      refine ⟨_, List.mem_cons_self, rfl, ?_⟩
      rcases List.mem_cons.mp hn with rfl | hn
      · rfl
      · rw [List.mem_singleton.mp hn]
        rfl
    · rintro ⟨_, _, _, rfl⟩
      cases m with
      | false => exact ⟨_, List.mem_cons_self, rfl, rfl, rfl⟩
      | true => exact ⟨_, List.mem_cons_of_mem _ List.mem_cons_self, rfl, rfl, rfl⟩

/-- Its broadcasts do not carry the id registered at the first manager. -/
theorem twoSeconds_unsound : ¬ twoSeconds.Sound := by
  intro sound
  have hmem : slowConnection ∈ (twoSeconds.manager false).chatServers := List.mem_cons_self
  have hstamp := (sound false slowConnection hmem probe 0).1
  have hid : twoSeconds.registeredId false slowConnection = 107 :=
    Packet.hello_uniqId (by decide)
  rw [hid, broadcastOf_uniqId] at hstamp
  cases hstamp

end ThunderChat.Origin

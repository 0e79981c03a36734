import ThunderChat.Foundation.Traversal
import ThunderChat.Server.ChatManager
import ThunderChat.Server.ManagerFrame

/-!
The relays of `ChatManager`, with any number of workers.

A worker executes the packets of the client that it has, one by one. For a broadcast it goes
through `m_lstChatServer` without the lock, while the loop lists new connections and the other
workers relay, register and close theirs. Only an iterator to a connection that is taken off
the list is of no use any more: the process is taken to end where a loop comes to such a
connection, or goes on from it. The answers to hellos and heartbeats are not followed here.

* `Inv`: what has come from one connection to another is what the one has sent since the other
  was listed, but for the packet that is pending.
* `pending_of_update`, `pending_of_move`: what is pending when relays go on.
-/

namespace ThunderChat.ManagerRelay

open Transition
open ManagerConnections (Task)
open ManagerOwnership (Build Separate)

/-- A worker in `MessageBroadcast`: the client whose packet it has, the packet, and the loop
over `m_lstChatServer`. -/
structure Relay where
  source : Nat
  packet : TPacket
  loop : Traversal Nat

/-- The loop goes on. -/
def Relay.move (r : Relay) (f : Traversal Nat → Traversal Nat) : Relay :=
  { r with loop := f r.loop }

/-- A loop has come to a connection: the packet, and the connection as it was. -/
structure Visit where
  source : Nat
  packet : TPacket
  server : ClientChatServer

/-- The packet has been written to the connection. -/
def Visit.relayed (v : Visit) : Bool := !v.server.isOrigin v.packet.uniqId

/-- The threads, the connections and the relays. For each client there are the packets
received from it so far, and how many of them have been executed; the loops that have come to
it; and how many broadcasts of each other one had been executed when it was listed. -/
structure State (W : Type) where
  own : ManagerOwnership.State W
  clients : Nat → ClientChatServer
  relays : W → Option Relay
  received : Nat → List TPacket
  executed : Nat → Nat
  visits : Nat → List Visit
  joined : Nat → Nat → Nat

/-- A step of the threads that does not touch packets; or a worker has got packets from its
client's socket, executes one, comes to a connection, goes on to the next, or is through with
the list. -/
inductive Label (W : Type) where
  | own (label : ManagerOwnership.Label W)
  | receive (w : W) (packets : List TPacket)
  | execute (w : W)
  | visit (w : W)
  | advance (w : W)
  | finish (w : W)

/-- The packet is a broadcast. -/
def isBroadcast (packet : TPacket) : Bool := packet.header.command == cmd_CHAT_BROADCAST

variable {W : Type} [DecidableEq W]

/-- The broadcasts that have been received from a client. -/
def State.sent (s : State W) (c : Nat) : List TPacket := (s.received c).filter isBroadcast

/-- Those that have been executed. -/
def State.broadcasts (s : State W) (c : Nat) : List TPacket :=
  ((s.received c).take (s.executed c)).filter isBroadcast

/-- The packets of a client with which a loop has come to a connection. -/
def State.heard (s : State W) (c d : Nat) : List TPacket :=
  ((s.visits d).filter fun v => v.source == c).map Visit.packet

/-- Those that have been written to it. -/
def State.relayed (s : State W) (c d : Nat) : List TPacket :=
  ((s.visits d).filter fun v => v.source == c && v.relayed).map Visit.packet

/-- No client has been accepted; `clients` are those there will be, as they are created. -/
def start (clients : Nat → ClientChatServer) : State W :=
  ⟨ManagerOwnership.start, clients, fun _ => none, fun _ => [], fun _ => 0, fun _ => [],
    fun _ _ => 0⟩

/-- The loop has listed a client. -/
def State.list (s : State W) (c : Nat) (own : ManagerOwnership.State W) : State W :=
  { s with
    own := own
    relays := fun w => (s.relays w).map fun r => r.move (.insert c)
    joined := Function.update s.joined c fun source => (s.broadcasts source).length }

/-- A thread has taken a client off the list. -/
def State.unlist (s : State W) (c : Nat) (own : ManagerOwnership.State W) : State W :=
  { s with
    own := own
    relays := fun w => (s.relays w).map fun r => r.move (.erase c) }

/-- A worker has got packets of a client. -/
def State.receive (s : State W) (c : Nat) (packets : List TPacket)
    (own : ManagerOwnership.State W) : State W :=
  { s with
    own := own
    received := Function.update s.received c (s.received c ++ packets) }

/-- The switch of `ClientChatServer::ExecuteCommand`. -/
def State.execute (s : State W) (dsMaxUser : Nat) (w : W) (c : Nat) (packet : TPacket) : State W :=
  let s := { s with executed := Function.update s.executed c (s.executed c + 1) }
  if packet.header.command = cmd_CHAT_BROADCAST then
    let relay : Relay := ⟨c, packet, .begin s.own.books.lstChatServer⟩
    { s with relays := Function.update s.relays w (some relay) }
  else if packet.header.command = cmd_HELLO_DS_DSM then
    let client := ((s.clients c).workChatServerHello dsMaxUser packet).1
    { s with clients := Function.update s.clients c client }
  else s

/-- A loop comes to a connection. -/
def State.visit (s : State W) (w : W) (r : Relay) (d : Nat) : State W :=
  { s with
    relays := Function.update s.relays w (some (r.move .visit))
    visits := Function.update s.visits d (s.visits d ++ [⟨r.source, r.packet, s.clients d⟩]) }

/-- What a label does. A loop comes to an element, and goes on from it, only while the element
is in the list. -/
def step (build : Build) (maxUser : Int) (dsMaxUser : Nat) (s : State W) :
    Label W → Option (State W)
  | .own .list =>
      match s.own.books.tasks .loop with
      | .offered c => (ManagerOwnership.step build maxUser s.own .list).map (s.list c)
      | _ => none
  | .own (.unlist t) =>
      match s.own.books.tasks t with
      | .unhooked c => (ManagerOwnership.step build maxUser s.own (.unlist t)).map (s.unlist c)
      | _ => none
  | .own (.rearm w succeeds) =>
      match s.own.books.tasks (.worker w), s.relays w with
      | .holding c, none =>
          if s.own.stages w = .filled ∧ s.executed c < (s.received c).length then none
          else (ManagerOwnership.step build maxUser s.own (.rearm w succeeds)).map
            ({ s with own := · })
      | _, _ => none
  | .own (.fillFromSocket _ .received) => none
  | .own (.executeCommand _) => none
  | .own label => (ManagerOwnership.step build maxUser s.own label).map ({ s with own := · })
  | .receive w packets =>
      match s.own.books.tasks (.worker w) with
      | .holding c =>
          (ManagerOwnership.step build maxUser s.own (.fillFromSocket w .received)).map
            (s.receive c packets)
      | _ => none
  | .execute w =>
      match s.own.books.tasks (.worker w), s.own.stages w, s.relays w with
      | .holding c, .filled, none =>
          (s.received c)[s.executed c]?.map (s.execute dsMaxUser w c)
      | _, _, _ => none
  | .visit w =>
      match s.relays w with
      | some r =>
          match r.loop.left with
          | d :: _ =>
              if r.loop.come = false ∧ d ∈ s.own.books.lstChatServer then some (s.visit w r d)
              else none
          | [] => none
      | none => none
  | .advance w =>
      match s.relays w with
      | some r =>
          match r.loop.left with
          | d :: _ =>
              if r.loop.come = true ∧ d ∈ s.own.books.lstChatServer then
                some { s with relays := Function.update s.relays w (some (r.move .advance)) }
              else none
          | [] => none
      | none => none
  | .finish w =>
      match s.relays w with
      | some r =>
          if r.loop.left = [] then some { s with relays := Function.update s.relays w none }
          else none
      | none => none

/-- What a step that is possible has found and does. -/
inductive Steps (build : Build) (maxUser : Int) (dsMaxUser : Nat) (s : State W) :
    Label W → State W → Prop where
  | own {label : ManagerOwnership.Label W} {own : ManagerOwnership.State W}
      (hlist : label ≠ .list) (hunlist : ∀ t, label ≠ .unlist t)
      (hrearm : ∀ w succeeds, label = .rearm w succeeds → s.relays w = none ∧
        ∀ c, s.own.books.tasks (.worker w) = .holding c → s.own.stages w = .filled →
          (s.received c).length ≤ s.executed c)
      (hstep : ManagerOwnership.step build maxUser s.own label = some own) :
      Steps build maxUser dsMaxUser s (.own label) { s with own := own }
  | list {c : Nat} {own : ManagerOwnership.State W}
      (htask : s.own.books.tasks .loop = .offered c)
      (hstep : ManagerOwnership.step build maxUser s.own .list = some own) :
      Steps build maxUser dsMaxUser s (.own .list) (s.list c own)
  | unlist {t : ManagerConnections.Thread W} {c : Nat} {own : ManagerOwnership.State W}
      (htask : s.own.books.tasks t = .unhooked c)
      (hstep : ManagerOwnership.step build maxUser s.own (.unlist t) = some own) :
      Steps build maxUser dsMaxUser s (.own (.unlist t)) (s.unlist c own)
  | receive {w : W} {c : Nat} {packets : List TPacket} {own : ManagerOwnership.State W}
      (htask : s.own.books.tasks (.worker w) = .holding c)
      (hstep : ManagerOwnership.step build maxUser s.own (.fillFromSocket w .received)
        = some own) :
      Steps build maxUser dsMaxUser s (.receive w packets) (s.receive c packets own)
  | execute {w : W} {c : Nat} {packet : TPacket}
      (htask : s.own.books.tasks (.worker w) = .holding c) (hstage : s.own.stages w = .filled)
      (hrelay : s.relays w = none) (hpacket : (s.received c)[s.executed c]? = some packet) :
      Steps build maxUser dsMaxUser s (.execute w) (s.execute dsMaxUser w c packet)
  | visit {w : W} {r : Relay} {d : Nat} {rest : List Nat} (hrelay : s.relays w = some r)
      (hleft : r.loop.left = d :: rest) (hcome : r.loop.come = false)
      (hlisted : d ∈ s.own.books.lstChatServer) :
      Steps build maxUser dsMaxUser s (.visit w) (s.visit w r d)
  | advance {w : W} {r : Relay} (hrelay : s.relays w = some r) (hcome : r.loop.come = true) :
      Steps build maxUser dsMaxUser s (.advance w)
        { s with relays := Function.update s.relays w (some (r.move .advance)) }
  | finish {w : W} {r : Relay} (hrelay : s.relays w = some r) (hleft : r.loop.left = []) :
      Steps build maxUser dsMaxUser s (.finish w)
        { s with relays := Function.update s.relays w none }

theorem steps_of_step {build : Build} {maxUser : Int} {dsMaxUser : Nat} {s s' : State W}
    {label : Label W} (h : step build maxUser dsMaxUser s label = some s') :
    Steps build maxUser dsMaxUser s label s' := by
  cases label with
  | own label =>
      cases label with
      | list =>
          simp only [ManagerRelay.step] at h
          split at h
          · next htask =>
              obtain ⟨own, hown, rfl⟩ := Option.map_eq_some_iff.mp h
              exact .list htask hown
          · cases h
      | unlist t =>
          simp only [ManagerRelay.step] at h
          split at h
          · next htask =>
              obtain ⟨own, hown, rfl⟩ := Option.map_eq_some_iff.mp h
              exact .unlist htask hown
          · cases h
      | rearm w succeeds =>
          simp only [ManagerRelay.step] at h
          split at h
          · next c htask hrelay =>
              split at h
              · cases h
              · next hdone =>
                  obtain ⟨own, hown, rfl⟩ := Option.map_eq_some_iff.mp h
                  refine .own nofun nofun (fun w' _ heq => ?_) hown
                  cases heq
                  refine ⟨hrelay, fun c' htask' hstage => ?_⟩
                  cases htask.symm.trans htask'
                  exact Nat.not_lt.mp fun hlt => hdone ⟨hstage, hlt⟩
          · cases h
      | fillFromSocket w fill =>
          cases fill with
          | received => cases h
          | _ =>
              obtain ⟨own, hown, rfl⟩ := Option.map_eq_some_iff.mp h
              exact .own nofun nofun nofun hown
      | executeCommand w => cases h
      | _ =>
          obtain ⟨own, hown, rfl⟩ := Option.map_eq_some_iff.mp h
          exact .own nofun nofun nofun hown
  | receive w packets =>
      simp only [ManagerRelay.step] at h
      split at h
      · next htask =>
          obtain ⟨own, hown, rfl⟩ := Option.map_eq_some_iff.mp h
          exact .receive htask hown
      · cases h
  | execute w =>
      simp only [ManagerRelay.step] at h
      split at h
      · next htask hstage hrelay =>
          obtain ⟨packet, hpacket, rfl⟩ := Option.map_eq_some_iff.mp h
          exact .execute htask hstage hrelay hpacket
      · cases h
  | visit w =>
      simp only [ManagerRelay.step] at h
      split at h
      · next hrelay =>
          split at h
          · next hleft =>
              split at h <;> cases h
              next hguard => exact .visit hrelay hleft hguard.1 hguard.2
          · cases h
      · cases h
  | advance w =>
      simp only [ManagerRelay.step] at h
      split at h
      · next hrelay =>
          split at h
          · split at h <;> cases h
            next hguard => exact .advance hrelay hguard.1
          · cases h
      · cases h
  | finish w =>
      simp only [ManagerRelay.step] at h
      split at h
      · next hrelay =>
          split at h <;> cases h
          next hleft => exact .finish hrelay hleft
      · cases h

/-! ### The relays of one connection to another -/

/-- A worker that is relaying the packet of a client has still to come to a connection. -/
def State.Pending (s : State W) (c d : Nat) (packet : TPacket) : Prop :=
  ∃ w r, s.relays w = some r ∧ r.source = c ∧ r.packet = packet ∧ d ∈ r.loop.ahead

/-- The loops have come to a connection with every broadcast that has been executed since it
was listed, but for the one that is pending. One may have been under way at that time. -/
structure Channel (s : State W) (c d k : Nat) : Prop where
  since : k = s.joined d c ∨ k + 1 = s.joined d c
  joined_le : s.joined d c ≤ (s.broadcasts c).length
  pending : ∀ packet, s.Pending c d packet → s.heard c d ++ [packet] = (s.broadcasts c).drop k
  heard : (∀ packet, ¬ s.Pending c d packet) → s.heard c d = (s.broadcasts c).drop k

/-- The client has been listed. -/
def State.Known (s : State W) (d : Nat) : Prop :=
  d ∈ s.own.books.lstChatServer ∨ (∃ w r, s.relays w = some r ∧ d ∈ r.loop.left) ∨
    s.visits d ≠ []

structure Inv (build : Build) (s : State W) : Prop where
  own : ManagerOwnership.Inv build s.own
  holds : ∀ w r, s.relays w = some r →
    s.own.books.tasks (.worker w) = .holding r.source ∧ s.own.stages w = .filled
  latest : ∀ w r, s.relays w = some r → (s.broadcasts r.source).getLast? = some r.packet
  nodup : ∀ w r, s.relays w = some r → r.loop.left.Nodup
  listed : s.own.books.lstChatServer.Nodup
  known : ∀ d, s.Known d → d < s.own.books.created ∧ s.own.books.tasks .loop ≠ .offered d
  offered : ∀ d, s.own.books.tasks .loop = .offered d → d < s.own.books.created
  executed_le : ∀ c, s.executed c ≤ (s.received c).length
  busy : ∀ c, s.executed c < (s.received c).length →
    ∃ w, s.own.books.tasks (.worker w) = .holding c ∧ s.own.stages w = .filled
  channel : ∀ d ∈ s.own.books.lstChatServer, ∀ c, ∃ k, Channel s c d k

variable {build : Build} {maxUser : Int} {dsMaxUser : Nat} {s s' : State W} {c d k : Nat}
  {w : W} {r : Relay} {own : ManagerOwnership.State W} {label : Label W}
  {clients : Nat → ClientChatServer}

omit [DecidableEq W] in
theorem inv_start : Inv build (start clients : State W) where
  own := ManagerOwnership.inv_start
  holds := nofun
  latest := nofun
  nodup := nofun
  listed := List.nodup_nil
  known d hknown := by
    rcases hknown with hd | ⟨w, r, hr, -⟩ | hd
    · cases hd
    · cases hr
    · exact absurd rfl hd
  offered := nofun
  executed_le _ := Nat.le_refl _
  busy _ hlt := absurd hlt (Nat.lt_irrefl _)
  channel := nofun

omit [DecidableEq W] in
/-- One worker at most has a client. -/
theorem Inv.eq_of_holding (h : Inv build s) {w' : W}
    (htask : s.own.books.tasks (.worker w) = .holding c)
    (htask' : s.own.books.tasks (.worker w') = .holding c) : w = w' := by
  have hw : s.own.holding.work (.worker w) = some c := congrArg Task.client htask
  have hw' : s.own.holding.work (.worker w') = some c := congrArg Task.client htask'
  cases h.own.handover.eq_of_work hw hw'
  rfl

omit [DecidableEq W] in
/-- So one at most relays for it. -/
theorem Inv.eq_of_source (h : Inv build s) {w' : W} {r' : Relay} (hr : s.relays w = some r)
    (hr' : s.relays w' = some r') (hsource : r.source = r'.source) : w = w' :=
  h.eq_of_holding (h.holds w r hr).1 (hsource ▸ (h.holds w' r' hr').1)

omit [DecidableEq W] in
/-- Nothing changes between two connections. -/
theorem Channel.congr (h : Channel s c d k) (hjoined : s'.joined d c = s.joined d c)
    (hbroadcasts : s'.broadcasts c = s.broadcasts c) (hheard : s'.heard c d = s.heard c d)
    (hpending : ∀ packet, s'.Pending c d packet ↔ s.Pending c d packet) : Channel s' c d k where
  since := hjoined ▸ h.since
  joined_le := by
    rw [hjoined, hbroadcasts]
    exact h.joined_le
  pending packet hpacket := by
    rw [hheard, hbroadcasts]
    exact h.pending packet ((hpending packet).mp hpacket)
  heard hnone := by
    rw [hheard, hbroadcasts]
    exact h.heard fun packet hpacket => hnone packet ((hpending packet).mpr hpacket)

/-! ### What is pending -/

/-- A worker's relay is replaced by another one of its client, or by none. -/
theorem pending_of_update {packet : TPacket} {o : Option Relay}
    (hrelays : s'.relays = Function.update s.relays w o)
    (hold : ∀ r, s.relays w = some r → r.source ≠ c) (hnew : ∀ r, o = some r → r.source ≠ c) :
    s'.Pending c d packet ↔ s.Pending c d packet := by
  have hiff : ∀ w' r, r.source = c → (s'.relays w' = some r ↔ s.relays w' = some r) := by
    intro w' r hsource
    rw [hrelays]
    by_cases hw : w' = w
    · subst hw
      rw [Function.update_self]
      exact ⟨fun ho => absurd hsource (hnew r ho), fun hr => absurd hsource (hold r hr)⟩
    · rw [Function.update_of_ne hw]
  constructor
  · rintro ⟨w', r, hr, hsource, hrest⟩
    exact ⟨w', r, (hiff w' r hsource).mp hr, hsource, hrest⟩
  · rintro ⟨w', r, hr, hsource, hrest⟩
    exact ⟨w', r, (hiff w' r hsource).mpr hr, hsource, hrest⟩

/-- What is pending from a client is with the one worker that relays for it. -/
theorem pending_of_update_self {packet : TPacket} {o : Option Relay}
    (hrelays : s'.relays = Function.update s.relays w o)
    (honly : ∀ w' r, s.relays w' = some r → r.source = c → w' = w) :
    s'.Pending c d packet ↔
      ∃ r, o = some r ∧ r.source = c ∧ r.packet = packet ∧ d ∈ r.loop.ahead := by
  constructor
  · rintro ⟨w', r, hr, hsource, hrest⟩
    rw [hrelays] at hr
    by_cases hw : w' = w
    · rw [hw, Function.update_self] at hr
      exact ⟨r, hr, hsource, hrest⟩
    · rw [Function.update_of_ne hw] at hr
      exact absurd (honly w' r hr hsource) hw
  · rintro ⟨r, ho, hrest⟩
    exact ⟨w, r, by rw [hrelays, Function.update_self, ho], hrest⟩

omit [DecidableEq W] in
/-- Every loop goes on in the same way. -/
theorem pending_of_move {packet : TPacket} {f : Traversal Nat → Traversal Nat}
    (hrelays : s'.relays = fun w => (s.relays w).map fun r => r.move f) :
    s'.Pending c d packet ↔
      ∃ w r, s.relays w = some r ∧ r.source = c ∧ r.packet = packet ∧ d ∈ (f r.loop).ahead := by
  constructor
  · rintro ⟨w, r, hr, hsource, hpacket, hahead⟩
    rw [hrelays] at hr
    obtain ⟨r, hold, rfl⟩ := Option.map_eq_some_iff.mp hr
    exact ⟨w, r, hold, hsource, hpacket, hahead⟩
  · rintro ⟨w, r, hr, hrest⟩
    exact ⟨w, r.move f, by rw [hrelays]; exact Option.map_eq_some_iff.mpr ⟨r, hr, rfl⟩, hrest⟩

end ThunderChat.ManagerRelay

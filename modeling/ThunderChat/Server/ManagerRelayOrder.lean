import ThunderChat.Server.ManagerRelay

/-!
What is relayed from one connection of `ChatManager` to another.

* `Inv.step`: what every step preserves, a client that is listed or taken off the list under a
  relay included.
* `relayed_of_reaches`: to a connection in the list are written, from each one, the broadcasts
  that it has sent since, each once and in order; all of them as soon as no worker is at it.
  Those are left out that have the connection's id as `GetUniqId` returns it, which from 2^31
  on is another one than it has registered.
-/

namespace ThunderChat.ManagerRelay

open Transition
open ManagerConnections (Task)
open ManagerOwnership (Build Separate)

variable {W : Type} [DecidableEq W] {build : Build} {maxUser : Int} {dsMaxUser : Nat}
  {s s' : State W} {c d k : Nat} {w : W} {r : Relay} {own : ManagerOwnership.State W}
  {label : Label W} {clients : Nat → ClientChatServer}

/-! ### What each step preserves -/

omit [DecidableEq W] in
/-- A client that has been listed is not listed again. -/
theorem Inv.known_of_effect {t : ManagerConnections.Thread W} (h : Inv build s)
    (heffect : ManagerOwnership.Effect s.own own t) (hknown : s.Known d) :
    d < own.books.created ∧ own.books.tasks .loop ≠ .offered d := by
  obtain ⟨hlt, hne⟩ := h.known d hknown
  refine ⟨Nat.lt_of_lt_of_le hlt heffect.created, fun hoffered => ?_⟩
  rcases heffect.offered d hoffered with hd | ⟨hd, -⟩
  · exact hne hd
  · exact Nat.ne_of_lt hlt hd.symm

omit [DecidableEq W] in
theorem Inv.offered_of_effect {t : ManagerConnections.Thread W} (h : Inv build s)
    (heffect : ManagerOwnership.Effect s.own own t)
    (hoffered : own.books.tasks .loop = .offered d) : d < own.books.created := by
  rcases heffect.offered d hoffered with hd | ⟨-, hd⟩
  · exact Nat.lt_of_lt_of_le (h.offered d hd) heffect.created
  · exact hd

/-- The workers that relay, or have packets to execute, stay where they are. -/
theorem Inv.workers (h : Inv build s) {l : ManagerOwnership.Label W}
    (hrearm : ∀ w succeeds, l = .rearm w succeeds → s.relays w = none ∧
      ∀ c, s.own.books.tasks (.worker w) = .holding c → s.own.stages w = .filled →
        (s.received c).length ≤ s.executed c)
    (hstep : ManagerOwnership.step build maxUser s.own l = some own) :
    (∀ w r, s.relays w = some r →
      own.books.tasks (.worker w) = .holding r.source ∧ own.stages w = .filled) ∧
    ∀ c, s.executed c < (s.received c).length →
      ∃ w, own.books.tasks (.worker w) = .holding c ∧ own.stages w = .filled := by
  constructor
  · intro w r hr
    obtain ⟨htask, hstage⟩ := h.holds w r hr
    refine ManagerOwnership.stays_of_step hstep htask hstage fun succeeds heq => ?_
    cases (hrearm w succeeds heq).1.symm.trans hr
  · intro c hlt
    obtain ⟨w, htask, hstage⟩ := h.busy c hlt
    refine ⟨w, ManagerOwnership.stays_of_step hstep htask hstage fun succeeds heq => ?_⟩
    exact absurd hlt (Nat.not_lt.mpr ((hrearm w succeeds heq).2 c htask hstage))

/-- A step that does not touch packets or the list. -/
theorem Inv.goesOn (h : Inv build s) {l : ManagerOwnership.Label W}
    (hown : ManagerOwnership.Inv build own)
    (hlist : l ≠ .list) (hunlist : ∀ t, l ≠ .unlist t)
    (hrearm : ∀ w succeeds, l = .rearm w succeeds → s.relays w = none ∧
      ∀ c, s.own.books.tasks (.worker w) = .holding c → s.own.stages w = .filled →
        (s.received c).length ≤ s.executed c)
    (hstep : ManagerOwnership.step build maxUser s.own l = some own) :
    Inv build { s with own := own } := by
  have hlst := ManagerOwnership.lstChatServer_of_step hstep hlist hunlist
  have heffect := ManagerOwnership.effect_of_step hstep
  obtain ⟨hholds, hbusy⟩ := h.workers hrearm hstep
  refine ⟨hown, hholds, h.latest, h.nodup, hlst ▸ h.listed, ?_,
    fun d => h.offered_of_effect heffect, h.executed_le, hbusy, ?_⟩
  · intro d hknown
    refine h.known_of_effect heffect ?_
    rcases hknown with hd | hd | hd
    · exact .inl (hlst ▸ hd)
    · exact .inr (.inl hd)
    · exact .inr (.inr hd)
  · intro d hd c
    obtain ⟨k, hk⟩ := h.channel d (hlst ▸ hd) c
    exact ⟨k, hk.congr rfl rfl rfl fun _ => Iff.rfl⟩

omit [DecidableEq W] in
/-- A client that has just been listed: a relay that is not through with the list comes to it
as well. -/
theorem Inv.channel_new (h : Inv build s) (hnew : ¬ s.Known d)
    (hbroadcasts : s'.broadcasts c = s.broadcasts c) (hvisits : s'.visits d = s.visits d)
    (hjoined : s'.joined d c = (s.broadcasts c).length)
    (hpending : ∀ packet, s'.Pending c d packet ↔ ∃ w r, s.relays w = some r ∧ r.source = c ∧
      r.packet = packet ∧ d ∈ (r.loop.insert d).ahead) : ∃ k, Channel s' c d k := by
  have hheard : s'.heard c d = [] := by
    have hnone : s.visits d = [] := by
      by_contra hne
      exact hnew (.inr (.inr hne))
    rw [State.heard, hvisits, hnone]
    rfl
  have hahead : ∀ w r, s.relays w = some r →
      (d ∈ (r.loop.insert d).ahead ↔ r.loop.left ≠ []) := by
    intro w r hr
    rw [Traversal.mem_ahead_insert, eq_self_iff_true, and_true]
    refine or_iff_right fun hd => hnew (.inr (.inl ⟨w, r, hr, Traversal.ahead_subset hd⟩))
  by_cases hbusy : ∃ w r, s.relays w = some r ∧ r.source = c ∧ r.loop.left ≠ []
  · obtain ⟨w, r, hr, rfl, hleft⟩ := hbusy
    obtain ⟨before, hbefore⟩ := List.getLast?_eq_some_iff.mp (h.latest w r hr)
    have hlast : (s'.broadcasts r.source).drop before.length = [r.packet] := by
      rw [hbroadcasts, hbefore, List.drop_left]
    refine ⟨before.length, ⟨.inr ?_, ?_, ?_, ?_⟩⟩
    · rw [hjoined, hbefore, List.length_append, List.length_singleton]
    · rw [hjoined, hbroadcasts]
    · intro packet hpacket
      obtain ⟨w', r', hr', hsource, rfl, -⟩ := (hpending packet).mp hpacket
      cases h.eq_of_source hr' hr hsource
      cases hr'.symm.trans hr
      rw [hheard, hlast, List.nil_append]
    · intro hnone
      exact absurd ((hpending _).mpr ⟨w, r, hr, rfl, rfl, (hahead w r hr).mpr hleft⟩)
        (hnone r.packet)
  · refine ⟨(s.broadcasts c).length, ⟨.inl hjoined.symm, ?_, ?_, ?_⟩⟩
    · rw [hjoined, hbroadcasts]
    · intro packet hpacket
      obtain ⟨w, r, hr, hsource, -, hd⟩ := (hpending packet).mp hpacket
      exact absurd ⟨w, r, hr, hsource, (hahead w r hr).mp hd⟩ hbusy
    · intro _
      rw [hheard, hbroadcasts, List.drop_length]

/-- The loop lists a client. A relay that is not through with the list comes to it as well. -/
theorem Inv.list (h : Inv build s) (hown : ManagerOwnership.Inv build own)
    (htask : s.own.books.tasks .loop = .offered c)
    (hstep : ManagerOwnership.step build maxUser s.own .list = some own) :
    Inv build (s.list c own) := by
  have heffect := ManagerOwnership.effect_of_step hstep
  obtain ⟨hlst, hloop⟩ := ManagerOwnership.list_of_step hstep htask
  have hnew : ¬ s.Known c := fun hknown => (h.known c hknown).2 htask
  have hleft : ∀ w r, s.relays w = some r → c ∉ r.loop.left := fun w r hr hc =>
    hnew (.inr (.inl ⟨w, r, hr, hc⟩))
  obtain ⟨hholds, hbusy⟩ := h.workers (fun _ _ hl => by cases hl) hstep
  have hpending : ∀ e d packet, (s.list c own).Pending e d packet ↔ ∃ w r, s.relays w = some r ∧
      r.source = e ∧ r.packet = packet ∧ d ∈ (r.loop.insert c).ahead := fun e d packet =>
    pending_of_move rfl
  refine ⟨hown, ?_, ?_, ?_, ?_, ?_, ?_, h.executed_le, hbusy, ?_⟩
  · intro w r' hr'
    obtain ⟨r, hr, rfl⟩ := Option.map_eq_some_iff.mp hr'
    exact hholds w r hr
  · intro w r' hr'
    obtain ⟨r, hr, rfl⟩ := Option.map_eq_some_iff.mp hr'
    exact h.latest w r hr
  · intro w r' hr'
    obtain ⟨r, hr, rfl⟩ := Option.map_eq_some_iff.mp hr'
    exact Traversal.nodup_insert (h.nodup w r hr) (hleft w r hr)
  · show own.books.lstChatServer.Nodup
    rw [hlst]
    exact List.Nodup.append h.listed (List.nodup_singleton c)
      (List.disjoint_singleton.mpr fun hc => hnew (.inl hc))
  · intro d hknown
    have hold : s.Known d ∨ d = c := by
      rcases hknown with hd | ⟨w, r', hr', hd⟩ | hd
      · have hd : d ∈ own.books.lstChatServer := hd
        rw [hlst] at hd
        rcases List.mem_append.mp hd with hd | hd
        · exact .inl (.inl hd)
        · exact .inr (List.mem_singleton.mp hd)
      · obtain ⟨r, hr, rfl⟩ := Option.map_eq_some_iff.mp hr'
        rcases Traversal.mem_left_insert hd with hd | hd
        · exact .inl (.inr (.inl ⟨w, r, hr, hd⟩))
        · exact .inr hd
      · exact .inl (.inr (.inr hd))
    rcases hold with hold | rfl
    · exact h.known_of_effect heffect hold
    · refine ⟨Nat.lt_of_lt_of_le (h.offered d htask) heffect.created, fun hoffered => ?_⟩
      cases hloop.symm.trans hoffered
  · intro d hoffered
    cases hloop.symm.trans hoffered
  · intro d hd e
    have hd : d ∈ own.books.lstChatServer := hd
    rw [hlst] at hd
    by_cases hdc : d = c
    · subst hdc
      refine h.channel_new hnew rfl rfl ?_ (hpending e d)
      show Function.update s.joined d _ d e = _
      rw [Function.update_self]
    · have hold : d ∈ s.own.books.lstChatServer := by simpa [hdc] using hd
      obtain ⟨k, hk⟩ := h.channel d hold e
      refine ⟨k, hk.congr ?_ rfl rfl fun packet => ?_⟩
      · exact congrFun (Function.update_of_ne hdc _ _) e
      · rw [hpending]
        simp only [Traversal.mem_ahead_insert, hdc, and_false, or_false]
        rfl

/-- A client is taken off the list. -/
theorem Inv.unlist {t : ManagerConnections.Thread W} (h : Inv build s)
    (hown : ManagerOwnership.Inv build own) (htask : s.own.books.tasks t = .unhooked c)
    (hstep : ManagerOwnership.step build maxUser s.own (.unlist t) = some own) :
    Inv build (s.unlist c own) := by
  have heffect := ManagerOwnership.effect_of_step hstep
  have hlst := ManagerOwnership.unlist_of_step hstep htask
  obtain ⟨hholds, hbusy⟩ := h.workers (fun _ _ hl => by cases hl) hstep
  refine ⟨hown, ?_, ?_, ?_, hlst ▸ h.listed.filter _, ?_, fun d => h.offered_of_effect heffect,
    h.executed_le, hbusy, ?_⟩
  · intro w r' hr'
    obtain ⟨r, hr, rfl⟩ := Option.map_eq_some_iff.mp hr'
    exact hholds w r hr
  · intro w r' hr'
    obtain ⟨r, hr, rfl⟩ := Option.map_eq_some_iff.mp hr'
    exact h.latest w r hr
  · intro w r' hr'
    obtain ⟨r, hr, rfl⟩ := Option.map_eq_some_iff.mp hr'
    exact (h.nodup w r hr).sublist Traversal.left_erase_sublist
  · intro d hknown
    refine h.known_of_effect heffect ?_
    rcases hknown with hd | ⟨w, r', hr', hd⟩ | hd
    · have hd : d ∈ own.books.lstChatServer := hd
      rw [hlst] at hd
      exact .inl (List.mem_of_mem_filter hd)
    · obtain ⟨r, hr, rfl⟩ := Option.map_eq_some_iff.mp hr'
      exact .inr (.inl ⟨w, r, hr, Traversal.left_erase_sublist.subset hd⟩)
    · exact .inr (.inr hd)
  · intro d hd e
    have hd : d ∈ own.books.lstChatServer := hd
    rw [hlst, List.mem_filter] at hd
    obtain ⟨k, hk⟩ := h.channel d hd.1 e
    refine ⟨k, hk.congr rfl rfl rfl fun packet => ?_⟩
    rw [pending_of_move (s := s) rfl]
    simp only [Traversal.mem_ahead_erase (show d ≠ c by simpa using hd.2)]
    rfl

omit [DecidableEq W] in
theorem received_receive (s : State W) (c : Nat) (packets : List TPacket)
    (own : ManagerOwnership.State W) (e : Nat) :
    (s.receive c packets own).received e = s.received e ++ if e = c then packets else [] := by
  show Function.update s.received c _ e = _
  by_cases hec : e = c
  · rw [hec, Function.update_self, if_pos rfl]
  · rw [Function.update_of_ne hec, if_neg hec, List.append_nil]

omit [DecidableEq W] in
/-- What has been executed has been received before. -/
theorem Inv.broadcasts_receive (h : Inv build s) (c : Nat) (packets : List TPacket)
    (own : ManagerOwnership.State W) (e : Nat) :
    (s.receive c packets own).broadcasts e = s.broadcasts e := by
  rw [State.broadcasts, received_receive]
  exact congrArg _ (List.take_append_of_le_length (h.executed_le e))

/-- A worker has got packets of its client. -/
theorem Inv.receive (h : Inv build s) {packets : List TPacket}
    (hown : ManagerOwnership.Inv build own)
    (htask : s.own.books.tasks (.worker w) = .holding c)
    (hstep : ManagerOwnership.step build maxUser s.own (.fillFromSocket w .received) = some own) :
    Inv build (s.receive c packets own) := by
  have heffect := ManagerOwnership.effect_of_step hstep
  obtain ⟨hholds, hbusy⟩ := h.workers (fun _ _ hl => by cases hl) hstep
  obtain ⟨hbooks, hstage⟩ := ManagerOwnership.received_of_step hstep
  refine ⟨hown, hholds, ?_, h.nodup, ?_, ?_, fun d => h.offered_of_effect heffect, ?_, ?_, ?_⟩
  · intro w' r hr
    rw [h.broadcasts_receive]
    exact h.latest w' r hr
  · show own.books.lstChatServer.Nodup
    exact hbooks ▸ h.listed
  · intro d hknown
    refine h.known_of_effect heffect ?_
    rcases hknown with hd | hd | hd
    · have hd : d ∈ own.books.lstChatServer := hd
      exact .inl (hbooks ▸ hd)
    · exact .inr (.inl hd)
    · exact .inr (.inr hd)
  · intro e
    rw [received_receive, List.length_append]
    exact Nat.le_trans (h.executed_le e) (Nat.le_add_right _ _)
  · intro e hlt
    by_cases hec : e = c
    · exact ⟨w, (congrFun (congrArg _ hbooks) _).trans (hec ▸ htask), hstage⟩
    · rw [received_receive, if_neg hec, List.append_nil] at hlt
      exact hbusy e hlt
  · intro d hd e
    have hd : d ∈ own.books.lstChatServer := hd
    obtain ⟨k, hk⟩ := h.channel d (hbooks ▸ hd) e
    exact ⟨k, hk.congr rfl (h.broadcasts_receive c packets own e) rfl fun _ => Iff.rfl⟩

omit [DecidableEq W] in
/-- What is pending from the client that a worker relays for. -/
theorem Inv.pending_iff (h : Inv build s) (hrelay : s.relays w = some r) {packet : TPacket} :
    s.Pending r.source d packet ↔ r.packet = packet ∧ d ∈ r.loop.ahead := by
  constructor
  · rintro ⟨w', r', hr', hsource, hrest⟩
    cases h.eq_of_source hr' hrelay hsource
    cases hr'.symm.trans hrelay
    exact hrest
  · intro hrest
    exact ⟨w, r, hrelay, rfl, hrest⟩

/-- A worker's relay goes on or ends, and a loop may come to a connection. -/
theorem Inv.move (h : Inv build s) {o : Option Relay} {visits : Nat → List Visit}
    (hrelay : s.relays w = some r)
    (hmove : ∀ r', o = some r' →
      r'.source = r.source ∧ r'.packet = r.packet ∧ r'.loop.left.Sublist r.loop.left)
    (hvisits : ∀ d, visits d ≠ [] → s.Known d)
    (hchannel : ∀ d ∈ s.own.books.lstChatServer, ∀ k, Channel s r.source d k →
      Channel { s with relays := Function.update s.relays w o, visits := visits } r.source d k)
    (hothers : ∀ c d, c ≠ r.source →
      State.heard { s with relays := Function.update s.relays w o, visits := visits } c d
        = s.heard c d) :
    Inv build { s with relays := Function.update s.relays w o, visits := visits } := by
  -- A relay afterwards is one from before that has gone on.
  have hold : ∀ w' r', Function.update s.relays w o w' = some r' → ∃ r₀, s.relays w' = some r₀ ∧
      r'.source = r₀.source ∧ r'.packet = r₀.packet ∧ r'.loop.left.Sublist r₀.loop.left := by
    intro w' r' hr'
    by_cases hw : w' = w
    · rw [hw, Function.update_self] at hr'
      exact ⟨r, hw ▸ hrelay, hmove r' hr'⟩
    · rw [Function.update_of_ne hw] at hr'
      exact ⟨r', hr', rfl, rfl, List.Sublist.refl _⟩
  refine ⟨h.own, ?_, ?_, ?_, h.listed, ?_, h.offered, h.executed_le, h.busy, ?_⟩
  · intro w' r' hr'
    obtain ⟨r₀, hr₀, hsource, -, -⟩ := hold w' r' hr'
    exact hsource ▸ h.holds w' r₀ hr₀
  · intro w' r' hr'
    obtain ⟨r₀, hr₀, hsource, hpacket, -⟩ := hold w' r' hr'
    rw [hsource, hpacket]
    exact h.latest w' r₀ hr₀
  · intro w' r' hr'
    obtain ⟨r₀, hr₀, -, -, hleft⟩ := hold w' r' hr'
    exact (h.nodup w' r₀ hr₀).sublist hleft
  · intro d hknown
    refine h.known d ?_
    rcases hknown with hd | ⟨w', r', hr', hd⟩ | hd
    · exact .inl hd
    · obtain ⟨r₀, hr₀, -, -, hleft⟩ := hold w' r' hr'
      exact .inr (.inl ⟨w', r₀, hr₀, hleft.subset hd⟩)
    · exact hvisits d hd
  · intro d hd e
    obtain ⟨k, hk⟩ := h.channel d hd e
    by_cases he : e = r.source
    · subst he
      exact ⟨k, hchannel d hd k hk⟩
    · refine ⟨k, hk.congr rfl rfl (hothers e d he) fun packet => ?_⟩
      refine pending_of_update (s := s) rfl (fun r' hr' => ?_) fun r' hr' => ?_
      · cases hr'.symm.trans hrelay
        exact Ne.symm he
      · rw [(hmove r' hr').1]
        exact Ne.symm he

/-- A worker's relay goes on behind a connection that it has come to, or ends. -/
theorem Inv.relay (h : Inv build s) {o : Option Relay} (hrelay : s.relays w = some r)
    (hmove : ∀ r', o = some r' →
      r'.source = r.source ∧ r'.packet = r.packet ∧ r'.loop.left.Sublist r.loop.left)
    (hahead : ∀ d, (∃ r', o = some r' ∧ d ∈ r'.loop.ahead) ↔ d ∈ r.loop.ahead) :
    Inv build { s with relays := Function.update s.relays w o } := by
  refine h.move hrelay hmove (fun d hd => .inr (.inr hd)) (fun d _ k hk => ?_) fun _ _ _ => rfl
  refine hk.congr rfl rfl rfl fun packet => ?_
  rw [pending_of_update_self (s := s) rfl fun w' r' hr' hs => h.eq_of_source hr' hrelay hs,
    h.pending_iff hrelay, ← hahead d]
  constructor
  · rintro ⟨r', ho, -, hpacket, hd⟩
    exact ⟨(hmove r' ho).2.1 ▸ hpacket, r', ho, hd⟩
  · rintro ⟨hpacket, r', ho, hd⟩
    exact ⟨r', ho, (hmove r' ho).1, (hmove r' ho).2.1.trans hpacket, hd⟩

theorem heard_visit (s : State W) (w : W) (r : Relay) (d e c : Nat) :
    (s.visit w r d).heard c e
      = s.heard c e ++ if e = d ∧ r.source = c then [r.packet] else [] := by
  have hvisits : (s.visit w r d).visits e
      = s.visits e ++ if e = d then [⟨r.source, r.packet, s.clients d⟩] else [] := by
    show Function.update s.visits d _ e = _
    by_cases hed : e = d
    · rw [hed, Function.update_self, if_pos rfl]
    · rw [Function.update_of_ne hed, if_neg hed, List.append_nil]
  rw [State.heard, hvisits, List.filter_append, List.map_append, State.heard]
  by_cases hed : e = d <;> by_cases hc : r.source = c <;> simp [hed, hc]

/-- A loop comes to a connection. -/
theorem Inv.visit (h : Inv build s) {rest : List Nat} (hrelay : s.relays w = some r)
    (hleft : r.loop.left = d :: rest) (hcome : r.loop.come = false)
    (hlisted : d ∈ s.own.books.lstChatServer) : Inv build (s.visit w r d) := by
  have hahead : r.loop.ahead = d :: rest := by
    rw [Traversal.ahead_of_cons hleft, hcome]
    rfl
  have hnotin : d ∉ rest := by
    have hnodup := h.nodup w r hrelay
    rw [hleft] at hnodup
    exact (List.nodup_cons.mp hnodup).1
  have hpending : ∀ e packet, (s.visit w r d).Pending r.source e packet ↔
      r.packet = packet ∧ e ∈ rest := by
    intro e packet
    rw [pending_of_update_self (s := s) rfl fun w' r' hr' hs => h.eq_of_source hr' hrelay hs]
    simp [Relay.move, Traversal.ahead_visit hleft]
  refine h.move hrelay ?_ ?_ ?_ ?_
  · intro r' hr'
    cases hr'
    exact ⟨rfl, rfl, List.Sublist.refl _⟩
  · intro e he
    by_cases hed : e = d
    · exact .inl (hed ▸ hlisted)
    · rw [Function.update_of_ne hed] at he
      exact .inr (.inr he)
  · intro e _ k hk
    by_cases hed : e = d
    · subst hed
      have hall := hk.pending r.packet ((h.pending_iff hrelay).mpr ⟨rfl, by simp [hahead]⟩)
      have hheard : (s.visit w r e).heard r.source e = s.heard r.source e ++ [r.packet] := by
        rw [heard_visit, if_pos ⟨rfl, rfl⟩]
      refine ⟨hk.since, hk.joined_le, ?_, ?_⟩
      · intro packet hpacket
        exact absurd ((hpending e packet).mp hpacket).2 hnotin
      · intro _
        exact hheard.trans hall
    · refine hk.congr rfl rfl ?_ fun packet => ?_
      · exact (heard_visit s w r d e r.source).trans (by simp [hed])
      · exact (hpending e packet).trans (by simp [h.pending_iff hrelay, hahead, hed])
  · intro c e hc
    exact (heard_visit s w r d e c).trans (by simp [Ne.symm hc])

/-! ### Executing a packet -/

section Execute

variable {packet : TPacket}

/-- The members that no branch of the switch changes. -/
theorem execute_same (s : State W) (dsMaxUser : Nat) (w : W) (c : Nat) (packet : TPacket) :
    let s' := s.execute dsMaxUser w c packet
    s'.own = s.own ∧ s'.received = s.received ∧ s'.visits = s.visits ∧ s'.joined = s.joined ∧
      s'.executed = Function.update s.executed c (s.executed c + 1) := by
  simp only [State.execute]
  split
  · exact ⟨rfl, rfl, rfl, rfl, rfl⟩
  · split <;> exact ⟨rfl, rfl, rfl, rfl, rfl⟩

/-- Only a broadcast is relayed. -/
theorem relays_execute (s : State W) (dsMaxUser : Nat) (w : W) (c : Nat) (packet : TPacket) :
    (s.execute dsMaxUser w c packet).relays
      = if isBroadcast packet then
          Function.update s.relays w (some ⟨c, packet, .begin s.own.books.lstChatServer⟩)
        else s.relays := by
  simp only [State.execute, isBroadcast, beq_iff_eq]
  split
  · rfl
  · split <;> rfl

theorem broadcasts_execute (hpacket : (s.received c)[s.executed c]? = some packet) (e : Nat) :
    (s.execute dsMaxUser w c packet).broadcasts e
      = s.broadcasts e ++ if e = c ∧ isBroadcast packet then [packet] else [] := by
  obtain ⟨-, hreceived, -, -, hexecuted⟩ := execute_same s dsMaxUser w c packet
  rw [State.broadcasts, hreceived, hexecuted]
  by_cases hec : e = c
  · subst hec
    rw [Function.update_self, List.take_add_one, hpacket, Option.toList_some,
      List.filter_append, List.filter_singleton, State.broadcasts]
    simp
  · rw [Function.update_of_ne hec, if_neg (fun h => hec h.1), List.append_nil, State.broadcasts]

omit [DecidableEq W] in
/-- A worker that relays nothing has its client for itself. -/
theorem Inv.source_ne (h : Inv build s) (htask : s.own.books.tasks (.worker w) = .holding c)
    (hrelay : s.relays w = none) {w' : W} (hr : s.relays w' = some r) : r.source ≠ c := by
  rintro rfl
  cases h.eq_of_holding htask (h.holds w' r hr).1
  cases hrelay.symm.trans hr

/-- A broadcast is on its way to every connection in the list. -/
theorem Inv.channel_execute (h : Inv build s)
    (htask : s.own.books.tasks (.worker w) = .holding c) (hrelay : s.relays w = none)
    (hpacket : (s.received c)[s.executed c]? = some packet)
    (hd : d ∈ s.own.books.lstChatServer) {e : Nat} (hk : Channel s e d k) :
    Channel (s.execute dsMaxUser w c packet) e d k := by
  obtain ⟨-, -, hvisits, hjoined, -⟩ := execute_same s dsMaxUser w c packet
  have hbroadcasts : (s.execute dsMaxUser w c packet).broadcasts e = _ :=
    broadcasts_execute hpacket e
  have hrelays := relays_execute s dsMaxUser w c packet
  have hheard : (s.execute dsMaxUser w c packet).heard e d = s.heard e d := by
    rw [State.heard, hvisits, State.heard]
  have hjoin := congrFun (congrFun hjoined d) e
  by_cases hnew : e = c ∧ isBroadcast packet
  · obtain ⟨rfl, hbroadcast⟩ := hnew
    rw [if_pos ⟨rfl, hbroadcast⟩] at hbroadcasts
    rw [if_pos hbroadcast] at hrelays
    have hdone := hk.heard fun p hp => by
      obtain ⟨w', r', hr', hsource, -⟩ := hp
      exact h.source_ne htask hrelay hr' hsource
    have hle : k ≤ (s.broadcasts e).length := by
      have hjoined_le := hk.joined_le
      rcases hk.since with hk | hk <;> omega
    have hpending : ∀ p, (s.execute dsMaxUser w e packet).Pending e d p ↔ packet = p := by
      intro p
      rw [pending_of_update_self hrelays fun w' r' hr' hs =>
        absurd hs (h.source_ne htask hrelay hr')]
      simp [Traversal.ahead, Traversal.begin, hd]
    refine ⟨hjoin ▸ hk.since, ?_, ?_, ?_⟩
    · rw [hjoin, hbroadcasts, List.length_append]
      exact Nat.le_trans hk.joined_le (Nat.le_add_right _ _)
    · intro p hp
      rw [hheard, hbroadcasts, List.drop_append_of_le_length hle, hdone, (hpending p).mp hp]
    · intro hnone
      exact absurd ((hpending packet).mpr rfl) (hnone packet)
  · rw [if_neg hnew, List.append_nil] at hbroadcasts
    refine hk.congr hjoin hbroadcasts hheard fun p => ?_
    by_cases hbroadcast : isBroadcast packet
    · rw [if_pos hbroadcast] at hrelays
      refine pending_of_update hrelays (fun r' hr' => ?_) fun r' hr' => ?_
      · cases hrelay.symm.trans hr'
      · cases hr'
        exact fun hce => hnew ⟨hce.symm, hbroadcast⟩
    · rw [if_neg hbroadcast] at hrelays
      rw [State.Pending, hrelays]
      rfl

/-- A worker executes a packet of its client. -/
theorem Inv.execute (h : Inv build s)
    (htask : s.own.books.tasks (.worker w) = .holding c) (hstage : s.own.stages w = .filled)
    (hrelay : s.relays w = none) (hpacket : (s.received c)[s.executed c]? = some packet) :
    Inv build (s.execute dsMaxUser w c packet) := by
  obtain ⟨hown, hreceived, hvisits, -, hexecuted⟩ := execute_same s dsMaxUser w c packet
  -- A relay afterwards is one from before, or the one of the packet.
  have hold : ∀ w' r', (s.execute dsMaxUser w c packet).relays w' = some r' →
      s.relays w' = some r' ∨
        w' = w ∧ isBroadcast packet ∧ r' = ⟨c, packet, .begin s.own.books.lstChatServer⟩ := by
    intro w' r' hr'
    rw [relays_execute] at hr'
    split at hr'
    · next hbroadcast =>
        by_cases hw : w' = w
        · rw [hw, Function.update_self] at hr'
          cases hr'
          exact .inr ⟨hw, hbroadcast, rfl⟩
        · rw [Function.update_of_ne hw] at hr'
          exact .inl hr'
    · exact .inl hr'
  have hlt : s.executed c < (s.received c).length := (List.getElem?_eq_some_iff.mp hpacket).1
  refine ⟨hown ▸ h.own, ?_, ?_, ?_, hown ▸ h.listed, ?_, hown ▸ h.offered, ?_, ?_, ?_⟩
  · intro w' r' hr'
    rw [hown]
    rcases hold w' r' hr' with hr' | ⟨rfl, -, rfl⟩
    · exact h.holds w' r' hr'
    · exact ⟨htask, hstage⟩
  · intro w' r' hr'
    rw [broadcasts_execute hpacket]
    rcases hold w' r' hr' with hr' | ⟨-, hbroadcast, rfl⟩
    · rw [if_neg fun hnew => h.source_ne htask hrelay hr' hnew.1, List.append_nil]
      exact h.latest w' r' hr'
    · rw [if_pos ⟨rfl, hbroadcast⟩]
      exact List.getLast?_concat ..
  · intro w' r' hr'
    rcases hold w' r' hr' with hr' | ⟨-, -, rfl⟩
    · exact h.nodup w' r' hr'
    · exact h.listed
  · intro d hknown
    rw [hown]
    refine h.known d ?_
    rcases hknown with hd | ⟨w', r', hr', hd⟩ | hd
    · exact .inl (hown ▸ hd)
    · rcases hold w' r' hr' with hr' | ⟨-, -, rfl⟩
      · exact .inr (.inl ⟨w', r', hr', hd⟩)
      · exact .inl hd
    · exact .inr (.inr (hvisits ▸ hd))
  · intro e
    rw [hexecuted, hreceived]
    by_cases hec : e = c
    · rw [hec, Function.update_self]
      exact hlt
    · rw [Function.update_of_ne hec]
      exact h.executed_le e
  · intro e hleft
    rw [hexecuted, hreceived] at hleft
    rw [hown]
    refine h.busy e ?_
    by_cases hec : e = c
    · exact hec ▸ hlt
    · rwa [Function.update_of_ne hec] at hleft
  · intro d hd e
    have hd : d ∈ s.own.books.lstChatServer := hown ▸ hd
    obtain ⟨k, hk⟩ := h.channel d hd e
    exact ⟨k, h.channel_execute htask hrelay hpacket hd hk⟩

end Execute

/-- The kqueue reports no event with both an error and the read filter. -/
def Meets (build : Build) : Label W → Prop
  | .own label => Separate build label
  | _ => True

theorem Inv.step (h : Inv build s) (hmeets : Meets build label)
    (hstep : step build maxUser dsMaxUser s label = some s') : Inv build s' := by
  cases steps_of_step hstep with
  | own hlist hunlist hrearm hown =>
      exact h.goesOn (h.own.step hmeets hown) hlist hunlist hrearm hown
  | list htask hown => exact h.list (h.own.step (by trivial) hown) htask hown
  | unlist htask hown => exact h.unlist (h.own.step (by trivial) hown) htask hown
  | receive htask hown => exact h.receive (h.own.step (by trivial) hown) htask hown
  | execute htask hstage hrelay hpacket => exact h.execute htask hstage hrelay hpacket
  | visit hrelay hleft hcome hlisted => exact h.visit hrelay hleft hcome hlisted
  | @advance w r hrelay hcome =>
      refine h.relay hrelay ?_ ?_
      · intro r' hr'
        cases hr'
        exact ⟨rfl, rfl, List.tail_sublist _⟩
      · intro d
        simp only [Option.some.injEq, exists_eq_left', Relay.move, Traversal.ahead_advance hcome]
  | @finish w r hrelay hleft =>
      refine h.relay hrelay nofun fun d => ?_
      simp [Traversal.ahead_of_nil hleft]

/-! ### Every run -/

theorem inv_of_reaches
    (h : Reaches (ManagerRelay.step build maxUser dsMaxUser) (fun _ label => Meets build label)
      (start clients : State W) s) : Inv build s := by
  induction h with
  | refl => exact inv_start
  | tail label _ hmeets hstep ih => exact ih.step hmeets hstep

omit [DecidableEq W] in
/-- The packets executed are the first of those received. -/
theorem broadcasts_prefix_sent (s : State W) (c : Nat) : s.broadcasts c <+: s.sent c :=
  (List.take_prefix (s.executed c) (s.received c)).filter isBroadcast

omit [DecidableEq W] in
/-- Of the packets that a loop has come to a connection with, those of another id have been
written to it. -/
theorem relayed_eq {u : Nat} (hid : ∀ v ∈ s.visits d, v.server.uniqId = u) (c : Nat) :
    s.relayed c d = (s.heard c d).filter fun packet => toUInt64 (toInt u) != packet.uniqId := by
  rw [State.relayed, State.heard, List.filter_map, List.filter_filter]
  refine congrArg (List.map Visit.packet) (List.filter_congr fun v hv => ?_)
  have hsame : v.relayed = (toUInt64 (toInt u) != v.packet.uniqId) := by
    rw [Visit.relayed, ClientChatServer.isOrigin, ClientChatServer.getUniqId, hid v hv]
    rfl
  rw [hsame, Function.comp_apply]
  exact Bool.and_comm _ _

/-- **The relay.** Whatever the loop and the workers do, and in any order, to a connection
that is in the list are written, from each one, the broadcasts received from it since: each
once and in order, and all of them when no worker is at it. A broadcast that was under way
when the connection was listed is one of them or is not. Left out are those with the id that
`GetUniqId` returns for the connection: it goes through an `int`, so that from 2^31 on it is
not the one that the connection has registered. -/
theorem relayed_of_reaches
    (h : Reaches (ManagerRelay.step build maxUser dsMaxUser) (fun _ label => Meets build label)
      (start clients : State W) s) (hd : d ∈ s.own.books.lstChatServer) {u : Nat}
    (hid : ∀ v ∈ s.visits d, v.server.uniqId = u) (c : Nat) :
    ∃ k, (k = s.joined d c ∨ k + 1 = s.joined d c) ∧
      s.relayed c d <+: (((s.sent c).drop k).filter fun packet =>
        toUInt64 (toInt u) != packet.uniqId) ∧
      ((∀ w, s.own.books.tasks (.worker w) ≠ .holding c) →
        s.relayed c d = ((s.sent c).drop k).filter fun packet =>
          toUInt64 (toInt u) != packet.uniqId) := by
  have hinv := inv_of_reaches h
  obtain ⟨k, hk⟩ := hinv.channel d hd c
  refine ⟨k, hk.since, ?_, fun hrest => ?_⟩
  · have hheard : s.heard c d <+: (s.broadcasts c).drop k := by
      by_cases hpending : ∃ packet, s.Pending c d packet
      · obtain ⟨packet, hpacket⟩ := hpending
        exact ⟨[packet], hk.pending packet hpacket⟩
      · rw [hk.heard fun packet hpacket => hpending ⟨packet, hpacket⟩]
    rw [relayed_eq hid]
    exact (hheard.trans ((broadcasts_prefix_sent s c).drop k)).filter _
  · have hnone : ∀ packet, ¬ s.Pending c d packet := by
      rintro packet ⟨w, r, hr, rfl, -⟩
      exact hrest w (hinv.holds w r hr).1
    have hall : (s.received c).length ≤ s.executed c := by
      by_contra hlt
      obtain ⟨w, htask, -⟩ := hinv.busy c (Nat.lt_of_not_le hlt)
      exact hrest w htask
    rw [relayed_eq hid, hk.heard hnone, State.broadcasts, List.take_of_length_le hall, State.sent]

/-- A server says something, and a worker relays it to the other one. -/
def text : TPacket := (Packet.chatBroadcast 51 [111, 107] (by decide)).toTPacket

/-- Two servers that have said hello. -/
def registered (n : Nat) : ClientChatServer := ⟨n, .chatServer, 51 + n % 2, by omega⟩

theorem relayed_of_text :
    ∃ s : State Unit,
      run (ManagerRelay.step (.epoll true) 3 2) (start registered)
        [.own .test, .own (.addClient true), .own .list, .own .count, .own .test,
          .own (.addClient true), .own .list, .own .count, .own (.poll [⟨0, false, true⟩]),
          .own .next, .own .readEvent, .own .putWorkQueue, .own (.getWorkQueue ()),
          .receive () [text], .execute (), .visit (), .advance (), .visit (), .advance (),
          .finish (), .own (.rearm () true)] = some s ∧
      s.sent 0 = [text] ∧ s.relayed 0 1 = [text] := by
  have hreaches : Reaches (ManagerRelay.step (.epoll true) 3 2)
      (fun _ label => Meets (.epoll true) label) (start registered : State Unit) _ :=
    reaches_of_run [.own .test, .own (.addClient true), .own .list, .own .count, .own .test,
      .own (.addClient true), .own .list, .own .count, .own (.poll [⟨0, false, true⟩]),
      .own .next, .own .readEvent, .own .putWorkQueue, .own (.getWorkQueue ()),
      .receive () [text], .execute (), .visit (), .advance (), .visit (), .advance (),
      .finish (), .own (.rearm () true)] (by simp [Meets, Separate]) rfl
  obtain ⟨k, hk, -, hall⟩ := relayed_of_reaches (d := 1) (u := 52) hreaches (by decide)
    (fun v hv => by rw [List.mem_singleton.mp hv]; rfl) 0
  have hzero : k = 0 := by
    rcases hk with hk | hk
    · exact hk
    · cases hk
  have hrelayed := hall fun _ htask => by cases htask
  rw [hzero] at hrelayed
  exact ⟨_, rfl, rfl, hrelayed.trans rfl⟩

end ThunderChat.ManagerRelay

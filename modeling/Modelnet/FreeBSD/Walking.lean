import Modelnet.PathWalk
import Modelnet.FreeBSD.NextHop

/-!
# Where packets are on their paths

Only the end of `emulate_nexthop` moves a packet along its path, by one hop at a time; everything
else that is done to a packet leaves its pointer and its count of hops alone (`Stays`). So a call of
`emulate_nexthop` that does not fault frees the packet or moves it over the hop that it has read,
and appends it to at most one slot of the calendar (`Moves`). Nothing is assumed of the packet.
-/

namespace Modelnet.FreeBSD

open Modelnet

structure SamePaths (t t' : PathTab) : Prop where
  pathArrs : t'.pathArrs = t.pathArrs
  pathtable : t'.pathtable = t.pathtable
  nodetable : t'.nodetable = t.nodetable

theorem SamePaths.refl (t : PathTab) : SamePaths t t := ⟨rfl, rfl, rfl⟩

theorem SamePaths.trans {t t' t'' : PathTab} (h : SamePaths t t') (h' : SamePaths t' t'') :
    SamePaths t t'' :=
  ⟨h'.pathArrs.trans h.pathArrs, h'.pathtable.trans h.pathtable, h'.nodetable.trans h.nodetable⟩

/-- Two structs at the same place of the same path, the second one with the same `state` or just
scheduled. -/
structure Packet.SamePlace (pkt pkt' : Packet) : Prop where
  path : pkt'.path = pkt.path
  hop : pkt'.info.hop = pkt.info.hop
  state : pkt'.state = pkt.state ∨ pkt'.state = qBwDelay

theorem Packet.SamePlace.refl (pkt : Packet) : pkt.SamePlace pkt := ⟨rfl, rfl, Or.inl rfl⟩

theorem Packet.SamePlace.trans {pkt pkt' pkt'' : Packet} (h : pkt.SamePlace pkt')
    (h' : pkt'.SamePlace pkt'') : pkt.SamePlace pkt'' := by
  refine ⟨h'.path.trans h.path, h'.hop.trans h.hop, ?_⟩
  rcases h'.state with heq | heq
  · rw [heq]
    exact h.state
  · exact Or.inr heq

/-- The second struct is one hop further than the first one, which is at `path`. -/
structure Packet.Ahead (pkt : Packet) (path : PathPtr) (pkt' : Packet) : Prop where
  path : pkt'.path = some ⟨path.arr, path.off + 1⟩
  hop : pkt'.info.hop = pkt.info.hop + 1
  state : pkt'.state = pkt.state ∨ pkt'.state = qBwDelay

/-- A struct that is there was there before, at the same place of its path. -/
def KeepsPlace (pkts pkts' : Addr → Option Packet) (q : Addr) : Prop :=
  ∀ pkt', pkts' q = some pkt' → ∃ pkt, pkts q = some pkt ∧ pkt.SamePlace pkt'

theorem KeepsPlace.refl (pkts : Addr → Option Packet) (q : Addr) : KeepsPlace pkts pkts q :=
  fun pkt hpkt => ⟨pkt, hpkt, .refl pkt⟩

theorem KeepsPlace.trans {pkts pkts' pkts'' : Addr → Option Packet} {q : Addr}
    (h : KeepsPlace pkts pkts' q) (h' : KeepsPlace pkts' pkts'' q) : KeepsPlace pkts pkts'' q := by
  intro pkt'' hpkt''
  obtain ⟨pkt', hpkt', hsame'⟩ := h' pkt'' hpkt''
  obtain ⟨pkt, hpkt, hsame⟩ := h pkt' hpkt'
  exact ⟨pkt, hpkt, hsame.trans hsame'⟩

theorem keepsPlace_update {pkts : Addr → Option Packet} {p : Addr} {pkt pkt' : Packet}
    (hpkt : pkts p = some pkt) (hsame : pkt.SamePlace pkt') (q : Addr) :
    KeepsPlace pkts (Function.update pkts p (some pkt')) q := by
  intro pkt₁ hpkt₁
  by_cases hq : q = p
  · subst hq
    rw [Function.update_self] at hpkt₁
    cases hpkt₁
    exact ⟨pkt, hpkt, hsame⟩
  · rw [Function.update_of_ne hq] at hpkt₁
    exact ⟨pkt₁, hpkt₁, .refl pkt₁⟩

namespace Core

/-- No struct has moved along its path, and none has come to the calendar. -/
structure Stays (c c' : Core) : Prop where
  calendar : c'.packetCalendar = c.packetCalendar
  tab : SamePaths c.tab c'.tab
  packets : ∀ q, KeepsPlace c.pkts c'.pkts q

variable {c c' c'' : Core} {env : Env} {p q : Addr} {pkt pkt' : Packet} {ownerIp : BitVec 32}

theorem Stays.refl (c : Core) : Stays c c := ⟨rfl, .refl _, fun q => .refl _ q⟩

theorem Stays.trans (h : Stays c c') (h' : Stays c' c'') : Stays c c'' :=
  ⟨h'.calendar.trans h.calendar, h.tab.trans h'.tab, fun q => (h.packets q).trans (h'.packets q)⟩

theorem Stays.read (h : Stays c c') (hpkt : c.pkts p = some pkt) (hpkt' : c'.pkts p = some pkt') :
    pkt.SamePlace pkt' := by
  obtain ⟨pkt₁, hpkt₁, hsame⟩ := h.packets p pkt' hpkt'
  cases hpkt.symm.trans hpkt₁
  exact hsame

/-! ## What leaves packets in their places -/

theorem stays_setPkt (hpkt : c.pkts p = some pkt) (hsame : pkt.SamePlace pkt') :
    Stays c (c.setPkt p pkt') :=
  ⟨rfl, .refl _, keepsPlace_update hpkt hsame⟩

theorem stays_freePkt (c : Core) (p : Addr) : Stays c (c.freePkt p) := by
  refine ⟨rfl, .refl _, fun q pkt hpkt => ?_⟩
  by_cases hq : q = p
  · subst hq
    rw [pkts_freePkt_self] at hpkt
    cases hpkt
  · rw [pkts_freePkt_of_ne c hq] at hpkt
    exact ⟨pkt, hpkt, .refl pkt⟩

theorem mnFreePkt_stays (c : Core) (p : Addr) :
    (c.mnFreePkt p).Yields (fun _ => True) fun c' => Stays c c' ∧ c'.pkts p = none := by
  unfold mnFreePkt
  split_ifs
  · exact trivial
  · exact (packet_yields trivial c p).bind fun pkt _ => ⟨stays_freePkt c p, pkts_freePkt_self c p⟩

theorem stays_uncache (hpkt : c.pkts p = some pkt) : Stays c (c.uncache p pkt) :=
  ⟨rfl, .refl _, keepsPlace_update hpkt ⟨rfl, rfl, Or.inl rfl⟩⟩

theorem mnUncachePkt_stays (c : Core) (p : Addr) :
    (c.mnUncachePkt p).Yields (fun _ => True) (Stays c) := by
  unfold mnUncachePkt
  by_cases hp : p ∉ c.mcPcache
  · rw [if_pos hp]
    exact trivial
  · rw [if_neg hp]
    refine (packet_yields trivial c p).bind fun pkt hpkt => ?_
    exact stays_uncache hpkt

theorem uncacheIf_stays (c : Core) (b : Prop) [Decidable b] (p : Addr) :
    (c.uncacheIf b p).Yields (fun _ => True) (Stays c) := by
  unfold uncacheIf
  split_ifs
  · exact mnUncachePkt_stays c p
  · exact Stays.refl c

theorem leaveHome_stays (hpkt : c.pkts p = some pkt) :
    (c.leaveHome p pkt).Yields (fun _ => True) (Stays c) := by
  unfold leaveHome
  cases ipAddrs pkt with
  | error f => exact trivial
  | ok a =>
    show Stays c (if c.pcache = true then _ else _)
    split_ifs
    · exact ⟨rfl, .refl _, keepsPlace_update hpkt ⟨rfl, rfl, Or.inl rfl⟩⟩
    · exact stays_setPkt hpkt ⟨rfl, rfl, Or.inl rfl⟩

theorem takeChain_stays (hpkt : c.pkts p = some pkt) :
    (c.takeChain p pkt).Yields (fun _ => True) (Stays c) := by
  unfold takeChain
  split_ifs
  · exact Stays.refl c
  · exact trivial
  · exact stays_setPkt hpkt ⟨rfl, rfl, Or.inl rfl⟩

theorem transmit_stays (c : Core) (env : Env) (p : Addr) (ownerIp : BitVec 32) :
    (c.transmit env p ownerIp).Yields (fun _ => True) fun r => Stays c r.1 := by
  unfold transmit
  refine (packet_yields trivial c p).bind fun pkt hpkt => ?_
  show (ite _ _ _ : Except Fault (Core × ℤ)).Yields _ _
  split_ifs
  · exact (Aggregates.remoteAggregate_yields trivial _ _ _ _).bind fun r _ =>
      ⟨rfl, .refl _, fun q => .refl _ q⟩
  · refine (takeChain_stays hpkt).bind fun c₁ h₁ => ?_
    exact (uncacheIf_stays c₁ _ p).bind fun c₂ h₂ => h₁.trans h₂
  · exact (uncacheIf_stays c _ p).bind fun c₁ h₁ => h₁

theorem remoteHop_stays (c : Core) (env : Env) (p : Addr) (ownerIp : BitVec 32) :
    (c.remoteHop env p ownerIp).Yields (fun _ => True) fun r => Stays c r.1 := by
  unfold remoteHop
  refine (packet_yields trivial c p).bind fun pkt hpkt => ?_
  show (ite _ _ _ : Except Fault (Core × ℤ)).Yields _ _
  split_ifs
  · exact Stays.refl c
  have hprepare : (c.prepare p pkt).Yields (fun _ => True) (Stays c) := by
    unfold prepare
    split_ifs
    · exact leaveHome_stays hpkt
    · exact Stays.refl c
  refine hprepare.bind fun c₁ h₁ => ?_
  refine (packet_yields trivial c₁ p).bind fun pkt₁ _ => ?_
  show (ite _ _ _ : Except Fault (Core × ℤ)).Yields _ _
  split_ifs
  · exact h₁
  · exact (transmit_stays c₁ env p ownerIp).imp fun r hr => h₁.trans hr

theorem forwardPacket_stays (c : Core) (env : Env) (p : Addr) :
    (c.forwardPacket env p).Yields (fun _ => True) fun r => Stays c r.1 := by
  unfold forwardPacket
  refine (packet_yields trivial c p).bind fun pkt hpkt => ?_
  dsimp only
  cases pkt.m with
  | none =>
    refine (remoteHop_stays c env p pkt.cachehost).bind fun r hr => ?_
    have hfate : (r.1.fateOf p pkt.cachehost r.2).Yields (fun _ => True) fun _ => True :=
      (packet_yields trivial r.1 p).bind fun _ _ => trivial
    exact hfate.bind fun _ _ => hr
  | some m =>
    show (ite _ _ _ : Except Fault (Core × Fate)).Yields _ _
    split_ifs
    · exact Stays.refl c
    · exact trivial
    · exact stays_setPkt hpkt ⟨rfl, rfl, Or.inl rfl⟩
    · exact stays_setPkt hpkt ⟨rfl, rfl, Or.inl rfl⟩

theorem dequeue_stays (hpkt : c.pkts p = some pkt) :
    (c.dequeue p pkt).Yields (fun _ => True) fun c' => Stays c c' ∧ (c'.pkts p).isSome := by
  refine (dequeue_yields trivial hpkt).imp ?_
  rintro c' ⟨fdbk, xtHop, -, rfl⟩
  refine ⟨⟨rfl, .refl _, keepsPlace_update hpkt ⟨rfl, rfl, Or.inl rfl⟩⟩, ?_⟩
  exact Option.isSome_of_eq_some (pkts_setPkt_self c p _)

/-! ## One call of `emulate_nexthop` -/

/-- The packet `p` is gone, or it has moved over the hop that it was in front of; the others have
stayed. It is on the calendar as before, or once more at the end of a slot. -/
structure Moves (c : Core) (p : Addr) (c' : Core) : Prop where
  calendar : c'.packetCalendar = c.packetCalendar ∨
    (∃ due, c'.packetCalendar = (c.calendarInsert p due).packetCalendar) ∧
      ∃ pkt path h, c.pkts p = some pkt ∧ pkt.path = some path ∧ c.tab.readPath path = some (some h)
  tab : SamePaths c.tab c'.tab
  others : ∀ q, q ≠ p → KeepsPlace c.pkts c'.pkts q
  moved : ∀ pkt', c'.pkts p = some pkt' → ∃ pkt path h, c.pkts p = some pkt ∧
    pkt.path = some path ∧ c.tab.readPath path = some (some h) ∧ pkt.Ahead path pkt'

/-- `emulate_hop` leaves the packet in its place, and may put it at the end of a slot. -/
theorem emulateHop_places (c : Core) (env : Env) (p : Addr) (h : HopPtr) :
    (c.emulateHop env p h).Yields (fun _ => True) fun r =>
      (r.1.packetCalendar = c.packetCalendar ∨
        ∃ due, r.1.packetCalendar = (c.calendarInsert p due).packetCalendar) ∧
      SamePaths c.tab r.1.tab ∧ ∀ q, KeepsPlace c.pkts r.1.pkts q := by
  unfold emulateHop
  refine (packet_yields trivial c p).bind fun pkt hpkt => ?_
  dsimp only
  split
  · exact trivial
  · split
    · exact trivial
    · exact ⟨Or.inl rfl, ⟨rfl, rfl, rfl⟩, fun q => .refl _ q⟩
    · exact ⟨Or.inr ⟨_, rfl⟩, ⟨rfl, rfl, rfl⟩,
        keepsPlace_update hpkt ⟨rfl, rfl, Or.inr rfl⟩⟩

/-- The end of `emulate_nexthop`: the packet is gone or one position further. -/
theorem finishNexthop_moves (c : Core) (p : Addr) (emulator : BitVec 32) (dropped : Bool) :
    (c.finishNexthop p emulator dropped).Yields (fun _ => True) fun c' =>
      c'.packetCalendar = c.packetCalendar ∧ SamePaths c.tab c'.tab ∧
      (∀ q, q ≠ p → KeepsPlace c.pkts c'.pkts q) ∧
      ∀ pkt', c'.pkts p = some pkt' → ∃ pkt, c.pkts p = some pkt ∧ pkt' = pkt.incr := by
  have hothers : ∀ (pkt : Packet) q, q ≠ p → KeepsPlace c.pkts (c.setPkt p pkt).pkts q := by
    intro pkt q hq pkt' hpkt'
    rw [pkts_setPkt_of_ne c pkt hq] at hpkt'
    exact ⟨pkt', hpkt', .refl pkt'⟩
  unfold finishNexthop
  refine (packet_yields trivial c p).bind fun pkt hpkt => ?_
  have hfree : ((c.setPkt p pkt.incr).mnFreePkt p).Yields (fun _ => True) fun c' =>
      c'.packetCalendar = c.packetCalendar ∧ SamePaths c.tab c'.tab ∧
      (∀ q, q ≠ p → KeepsPlace c.pkts c'.pkts q) ∧
      ∀ pkt', c'.pkts p = some pkt' → ∃ pkt, c.pkts p = some pkt ∧ pkt' = pkt.incr := by
    refine (mnFreePkt_stays _ p).imp ?_
    rintro c' ⟨hstays, hnone⟩
    refine ⟨hstays.calendar, hstays.tab, fun q hq => (hothers _ q hq).trans (hstays.packets q), ?_⟩
    intro pkt' hpkt'
    rw [hnone] at hpkt'
    cases hpkt'
  show (ite _ _ _ : Except Fault Core).Yields _ _
  split_ifs
  · exact hfree
  · exact hfree
  · refine ⟨rfl, .refl _, hothers _, fun pkt' hpkt' => ⟨pkt, hpkt, ?_⟩⟩
    exact (Option.some.inj ((pkts_setPkt_self c p _).symm.trans hpkt')).symm

/-- The end of the call, after the packet has stayed in its place in front of a hop. -/
theorem moves_of_finish {c₁ : Core} {path : PathPtr} {h : HopPtr} (hpkt : c.pkts p = some pkt)
    (hpath : pkt.path = some path) (hread : c.tab.readPath path = some (some h))
    (hcal : c₁.packetCalendar = c.packetCalendar ∨
      ∃ due, c₁.packetCalendar = (c.calendarInsert p due).packetCalendar)
    (htab : SamePaths c.tab c₁.tab) (hplaces : ∀ q, KeepsPlace c.pkts c₁.pkts q)
    (emulator : BitVec 32) (dropped : Bool) :
    (c₁.finishNexthop p emulator dropped).Yields (fun _ => True) (Moves c p) := by
  refine (finishNexthop_moves c₁ p emulator dropped).imp ?_
  rintro c' ⟨hcal', htab', hothers, hmoved⟩
  refine ⟨?_, htab.trans htab', fun q hq => (hplaces q).trans (hothers q hq), ?_⟩
  · rw [hcal']
    exact hcal.imp id fun hdue => ⟨hdue, pkt, path, h, hpkt, hpath, hread⟩
  · intro pkt' hpkt'
    obtain ⟨pkt₁, hpkt₁, rfl⟩ := hmoved pkt' hpkt'
    obtain ⟨pkt₂, hpkt₂, hsame⟩ := hplaces p pkt₁ hpkt₁
    cases hpkt.symm.trans hpkt₂
    refine ⟨pkt, path, h, hpkt, hpath, hread, ?_, congrArg (· + 1) hsame.hop, hsame.state⟩
    show pkt₁.path.map _ = _
    rw [hsame.path, hpath]
    rfl

theorem Stays.moves (h : Stays c c') (hnone : c'.pkts p = none) : Moves c p c' :=
  ⟨Or.inl h.calendar, h.tab, fun q _ => h.packets q, fun pkt hpkt => by
    rw [hnone] at hpkt
    cases hpkt⟩

theorem Moves.of_stays (h : Stays c c') (hmoves : Moves c' p c'') : Moves c p c'' := by
  have hread : ∀ {pkt path}, c'.pkts p = some pkt → pkt.path = some path →
      ∀ {h₁}, c'.tab.readPath path = some (some h₁) → ∃ pkt₀, c.pkts p = some pkt₀ ∧
        pkt₀.path = some path ∧ c.tab.readPath path = some (some h₁) ∧ pkt₀.SamePlace pkt := by
    intro pkt path hpkt hpath h₁ hread
    obtain ⟨pkt₀, hpkt₀, hsame⟩ := h.packets p pkt hpkt
    refine ⟨pkt₀, hpkt₀, hsame.path.symm.trans hpath, ?_, hsame⟩
    rw [← hread]
    unfold PathTab.readPath
    rw [h.tab.pathArrs]
  refine ⟨?_, h.tab.trans hmoves.tab, fun q hq => (h.packets q).trans (hmoves.others q hq), ?_⟩
  · rcases hmoves.calendar with hcal | ⟨⟨due, hdue⟩, pkt, path, h₁, hpkt, hpath, hcell⟩
    · exact Or.inl (hcal.trans h.calendar)
    · obtain ⟨pkt₀, hpkt₀, hpath₀, hcell₀, -⟩ := hread hpkt hpath hcell
      refine Or.inr ⟨⟨due, ?_⟩, pkt₀, path, h₁, hpkt₀, hpath₀, hcell₀⟩
      rw [hdue]
      unfold calendarInsert
      rw [h.calendar]
  · intro pkt' hpkt'
    obtain ⟨pkt, path, h₁, hpkt, hpath, hcell, hahead⟩ := hmoves.moved pkt' hpkt'
    obtain ⟨pkt₀, hpkt₀, hpath₀, hcell₀, hsame⟩ := hread hpkt hpath hcell
    refine ⟨pkt₀, path, h₁, hpkt₀, hpath₀, hcell₀, hahead.path,
      hahead.hop.trans (congrArg (· + 1) hsame.hop), ?_⟩
    rcases hahead.state with heq | heq
    · rw [heq]
      exact hsame.state
    · exact Or.inr heq

/-- From the test for the end of the path on, in front of the cell that has been read. -/
theorem crossHop_moves {path : PathPtr} {curhop : Option HopPtr} (hpkt : c.pkts p = some pkt)
    (hpath : pkt.path = some path) (hread : c.tab.readPath path = some curhop) :
    (c.crossHop env p curhop).Yields (fun _ => True) fun r => Moves c p r.1 := by
  unfold crossHop
  cases curhop with
  | none =>
    refine (forwardPacket_stays c env p).bind fun r hr => ?_
    refine (mnFreePkt_stays r.1 p).bind ?_
    rintro c' ⟨hstays, hnone⟩
    exact (hr.trans hstays).moves hnone
  | some h =>
    refine (hop_yields trivial c h).bind fun hop _ => ?_
    show (ite _ _ _ : Except Fault (Core × Fate)).Yields _ _
    split_ifs
    · refine (remoteHop_stays c env p hop.emulator).bind fun r hr => ?_
      have hfate : (r.1.fateOf p hop.emulator r.2).Yields (fun _ => True) fun _ => True :=
        (packet_yields trivial r.1 p).bind fun _ _ => trivial
      refine hfate.bind fun _ _ => ?_
      exact (moves_of_finish hpkt hpath hread (Or.inl hr.calendar) hr.tab hr.packets _ _).bind
        fun c' hc' => hc'
    · refine (emulateHop_places c env p h).bind ?_
      rintro ⟨c₁, out⟩ ⟨hcal, htab, hplaces⟩
      cases out with
      | dropped plr bw =>
        exact (moves_of_finish hpkt hpath hread hcal htab hplaces _ _).bind fun c' hc' => hc'
      | queued x due =>
        exact (moves_of_finish hpkt hpath hread hcal htab hplaces _ _).bind fun c' hc' => hc'

theorem readPath_eq_ok {path : Option PathPtr} {cell : Option HopPtr}
    (h : c.readPath path = .ok cell) :
    ∃ ptr, path = some ptr ∧ c.tab.readPath ptr = some cell := by
  unfold readPath at h
  cases hread : path.bind c.tab.readPath with
  | none =>
    rw [hread] at h
    cases h
  | some cell' =>
    rw [hread] at h
    cases h
    exact Option.bind_eq_some_iff.mp hread

/-- **One call** of `emulate_nexthop`. -/
theorem emulateNexthop_moves (c : Core) (env : Env) (p : Addr) :
    (c.emulateNexthop env p).Yields (fun _ => True) fun r => Moves c p r.1 := by
  unfold emulateNexthop
  refine (packet_yields trivial c p).bind fun pkt hpkt => ?_
  refine (readPath_yields trivial c pkt.path).bind fun curhop hcur => ?_
  obtain ⟨path, hpath, hread⟩ := readPath_eq_ok hcur
  show (ite _ _ _ : Except Fault (Core × Fate)).Yields _ _
  split_ifs with hhop
  · cases curhop with
    | none => exact trivial
    | some h =>
      refine (hop_yields trivial c h).bind fun hop _ => ?_
      show (ite _ _ _ : Except Fault (Core × Fate)).Yields _ _
      split_ifs
      · refine (mnFreePkt_stays c p).bind ?_
        rintro c' ⟨hstays, hnone⟩
        exact hstays.moves hnone
      · exact crossHop_moves hpkt hpath hread
  · refine (dequeue_stays hpkt).bind ?_
    rintro c₁ ⟨h₁, hsome⟩
    obtain ⟨pkt₁, hpkt₁⟩ := Option.isSome_iff_exists.mp hsome
    have hread₁ : c₁.tab.readPath path = some curhop := by
      rw [← hread]
      unfold PathTab.readPath
      rw [h₁.tab.pathArrs]
    exact (crossHop_moves hpkt₁ ((h₁.read hpkt hpkt₁).path.trans hpath) hread₁).imp
      fun r hr => hr.of_stays h₁

end Core

end Modelnet.FreeBSD

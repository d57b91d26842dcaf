import Modelnet.FreeBSD.Bookkeeping

/-!
# What one call of `emulate_nexthop` does

For a packet in hand, and as long as no packet is left half cached (`NextOk`), `emulate_nexthop`
ends in one of three ways: the packet is gone, it waits on the calendar, or it waits in the packet
cache while its record travels (`NextHop`). The tables, the pipes and the queues for aggregation may
have changed with it (`around`).
-/

namespace Modelnet.FreeBSD

open Modelnet

def Packet.setFdbk (pkt : Packet) (fdbk : BitVec 32) : Packet :=
  { pkt with info := { pkt.info with xcpSrcFdbk := fdbk } }

/-- Two records that `fill_in_feedback` cannot tell apart. -/
structure RemotePacket.SameXcp (a b : RemotePacket) : Prop where
  len : a.len = b.len
  cwnd : a.xcpCwnd = b.xcpCwnd
  fdbk : a.xcpSrcFdbk = b.xcpSrcFdbk
  rtt : a.xcpRtt = b.xcpRtt

theorem RemotePacket.SameXcp.refl (a : RemotePacket) : a.SameXcp a := ⟨rfl, rfl, rfl, rfl⟩

theorem RemotePacket.SameXcp.trans {a b c : RemotePacket} (h : a.SameXcp b) (h' : b.SameXcp c) :
    a.SameXcp c :=
  ⟨h.len.trans h'.len, h.cwnd.trans h'.cwnd, h.fdbk.trans h'.fdbk, h.rtt.trans h'.rtt⟩

/-- The entry would be full with one more digest. -/
def RemoteAggregate.Fills (ragg : RemoteAggregate) : Prop :=
  ¬ ({ ragg with bytesLeft := ragg.bytesLeft - remotePacketSize } : RemoteAggregate).hasRoom

namespace Aggregates

variable {E : Fault → Prop}

/-- The entry for an owner is sent with its next digest. -/
def Fills (a : Aggregates) (ownerIp : BitVec 32) : Prop :=
  ∃ a' i ragg, a.choose ownerIp = .ok (a', i) ∧ a'.pendingXc[i]? = some ragg ∧
    (ragg.hasRoom → ragg.Fills)

theorem addDigest_yields (hE : E .memory) (ragg : RemoteAggregate) (info : RemotePacket) (mbufOk : Bool) :
    (ragg.addDigest info mbufOk).Yields E fun ragg' =>
      ¬ ragg'.hasRoom → ragg.hasRoom → ragg.Fills := by
  have hcount : ∀ m, ¬ (ragg.count m).hasRoom → ragg.hasRoom → ragg.Fills := fun _ h _ => h
  unfold RemoteAggregate.addDigest
  split_ifs with hroom hzero hmbuf
  · exact hcount _
  · exact hE
  · split
    · exact hE
    · split_ifs
      · exact hcount _
      · exact hE
  · exact fun _ h => absurd h hroom

theorem remoteAggregateSend_yields (hE : E .memory) (a : Aggregates) (i : ℕ) :
    (a.remoteAggregateSend i).Yields E fun _ => True := by
  unfold remoteAggregateSend
  split
  · exact hE
  · split
    · exact hE
    · split_ifs
      · exact hE
      · exact trivial

theorem remoteAggregate_yields (hE : E .memory) (a : Aggregates) (info : RemotePacket) (ownerIp : BitVec 32)
    (mbufOk : Bool) :
    (a.remoteAggregate info ownerIp mbufOk).Yields E fun r =>
      r.2.isSome → a.Fills ownerIp := by
  have hchoose : (a.choose ownerIp).Yields E fun r => a.choose ownerIp = .ok r := by
    unfold choose
    split
    · rfl
    · split
      · exact hE
      · rfl
  unfold remoteAggregate
  refine hchoose.bind fun r hr => ?_
  obtain ⟨a₁, i⟩ := r
  dsimp only
  cases hragg : a₁.pendingXc[i]? with
  | none => exact hE
  | some ragg =>
    refine (addDigest_yields hE ragg info mbufOk).bind fun ragg' hfull => ?_
    split_ifs with hroom
    · exact fun h => nomatch h
    · exact (remoteAggregateSend_yields hE _ i).bind fun _ _ _ =>
        ⟨a₁, i, ragg, hr, hragg, hfull hroom⟩

theorem cleanLoop_yields (hE : E .memory) (n : ℕ) (a : Aggregates) :
    (cleanLoop n a).Yields E fun _ => True := by
  induction n generalizing a with
  | zero => exact trivial
  | succ n ih =>
    unfold cleanLoop
    split_ifs
    · exact trivial
    · exact (remoteAggregateSend_yields hE a 0).bind fun r _ => (ih r.1).bind fun _ _ => trivial

end Aggregates

namespace Core

/-- The core with other tables, pipes and queues. -/
def around (c : Core) (tab : PathTab) (xtHop : HopPtr → Option XcpPipe) (agg : Aggregates) : Core :=
  { c with tab := tab, xtHop := xtHop, agg := agg }

/-- What `remote_hop` needs of the kernel when a packet leaves its home. With the cache: an IP
source, and success of the send that the record sets off. Without it: an mbuf. -/
def LeaveOk (c : Core) (env : Env) (p : Addr) (ownerIp : BitVec 32) : Prop :=
  ∀ pkt a, c.pkts p = some pkt → pkt.cachehost = 0 → pkt.info.hop ≠ 0 → ipAddrs pkt = .ok a →
    (c.pcache = true → a.1 ≠ 0 ∧
      (c.aggregate = true → c.agg.Fills ownerIp → env.sendErr = 0)) ∧
    (c.pcache = false → a.1 ≠ 0 → env.mbufOk = true)

/-- The same for the hop that is next on the path of a packet. -/
def NextOk (c : Core) (env : Env) (p : Addr) : Prop :=
  ∀ pkt h hop, c.pkts p = some pkt → c.readPath pkt.path = .ok (some h) → c.tab.hops h = some hop →
    hop.emulator ≠ 0 → c.LeaveOk env p hop.emulator

/-- The same, or else the fault that the packet runs into is one of `E`. -/
def LeaveOr (E : Fault → Prop) (c : Core) (env : Env) (p : Addr) (ownerIp : BitVec 32) : Prop :=
  ∀ pkt a, c.pkts p = some pkt → pkt.cachehost = 0 → pkt.info.hop ≠ 0 → ipAddrs pkt = .ok a →
    (c.pcache = true → (a.1 = 0 → E (.freeCached p)) ∧
      (c.aggregate = true → c.agg.Fills ownerIp → env.sendErr ≠ 0 → E (.freeCached p))) ∧
    (c.pcache = false → a.1 ≠ 0 → env.mbufOk = false → E (.uncacheAbsent p))

/-- The same for the hop that is next on the path of a packet. -/
def NextOr (E : Fault → Prop) (c : Core) (env : Env) (p : Addr) : Prop :=
  ∀ pkt h hop, c.pkts p = some pkt → c.readPath pkt.path = .ok (some h) → c.tab.hops h = some hop →
    hop.emulator ≠ 0 → c.LeaveOr E env p hop.emulator

/-- A struct that is not in the cache, and without a handle when it is at home. -/
structure Loose (c : Core) (p : Addr) (pkt : Packet) : Prop where
  ne_zero : p ≠ 0
  uncached : p ∉ c.mcPcache
  id : pkt.cachehost = 0 → pkt.info.id = 0

variable {E : Fault → Prop} {c : Core} {env : Env} {p : Addr} {pkt : Packet} {ownerIp : BitVec 32}

theorem Inv.loose (h : c.Inv none) (hp : c.InHand p) (hpkt : c.pkts p = some pkt) :
    c.Loose p pkt := ⟨h.ne_zero hp.live, hp.uncached, h.id_eq_zero hp hpkt⟩

theorem NextOk.nextOr (h : c.NextOk env p) : c.NextOr Fault.Benign env p := by
  intro pkt h₁ hop hpkt hcur hhop hremote pkt' a hpkt' hhome hne haddrs
  obtain ⟨hcached, huncached⟩ := h pkt h₁ hop hpkt hcur hhop hremote pkt' a hpkt' hhome hne haddrs
  refine ⟨fun hpcache => ⟨fun hzero => absurd hzero (hcached hpcache).1,
    fun hagg hfills herr => absurd ((hcached hpcache).2 hagg hfills) herr⟩,
    fun hpcache hsrc hmbuf => ?_⟩
  rw [huncached hpcache hsrc] at hmbuf
  cases hmbuf

theorem nextOr_true (c : Core) (env : Env) (p : Addr) : c.NextOr (fun _ => True) env p := by
  rintro - - - - - - - - - - - - -
  exact ⟨fun _ => ⟨fun _ => trivial, fun _ _ _ => trivial⟩, fun _ _ _ => trivial⟩

/-- The outcomes of `remote_hop`: the packet is still in hand, or it has been cached, or it is about
to be freed although it is in the cache. -/
inductive RemoteHop (E : Fault → Prop) (c : Core) (p : Addr) (pkt : Packet) : Core × ℤ → Prop where
  | kept {pkt' : Packet} {a : Aggregates} {err : ℤ} (hhost : pkt'.cachehost = pkt.cachehost)
      (hid : pkt'.cachehost = 0 → pkt'.info.id = 0)
      (hinfo : pkt.cachehost ≠ 0 → pkt'.info = pkt.info) :
      RemoteHop E c p pkt ((c.setPkt p pkt').around c.tab c.xtHop a, err)
  | cached {pkt' : Packet} {a : Aggregates} (hfrom : pkt.cachehost = 0)
      (hhome : pkt'.cachehost = 0) (hsome : pkt.m.isSome) (hm : pkt'.m = pkt.m)
      (hpcache : c.pcache = true) (hpath : pkt'.path = pkt.path)
      (hxcp : pkt'.info.SameXcp pkt.info) :
      RemoteHop E c p pkt ((c.mcPcacheAdd p pkt').around c.tab c.xtHop a, 0)
  | stuck {c' : Core} {err : ℤ} (hmem : p ∈ c'.mcPcache) (herr : err ≠ 0)
      (hfault : E (.freeCached p)) : RemoteHop E c p pkt (c', err)

/-- Taken off the cache right after it was put there, a packet is as before. -/
theorem uncache_mcPcacheAdd (hp : p ∉ c.mcPcache) (pkt pkt' : Packet) (agg : Aggregates) :
    ((c.mcPcacheAdd p pkt).around c.tab c.xtHop agg).uncache p pkt' =
      (c.setPkt p { pkt' with info := { pkt'.info with id := 0 } }).around c.tab c.xtHop agg := by
  have herase : (c.mcPcache ++ [p]).erase p = c.mcPcache := by
    rw [List.erase_append_right _ hp, List.erase_cons_head, List.append_nil]
  unfold uncache around mcPcacheAdd setPkt
  dsimp only
  rw [herase, Function.update_idem, Int.add_sub_cancel]

theorem setPkt_self (h : c.pkts p = some pkt) : c.setPkt p pkt = c := by
  unfold setPkt
  rw [← h, Function.update_eq_self]

theorem packet_setPkt (c : Core) (p : Addr) (pkt : Packet) : (c.setPkt p pkt).packet p = .ok pkt :=
  packet_eq_ok.mpr (pkts_setPkt_self c p pkt)

theorem setPkt_setPkt (c : Core) (p : Addr) (pkt pkt' : Packet) :
    (c.setPkt p pkt).setPkt p pkt' = c.setPkt p pkt' := by
  unfold setPkt
  dsimp only
  rw [Function.update_idem]

/-- The record of a packet that is not cached is handed over. -/
theorem transmit_kept (hE : E .memory) (hp : p ∉ c.mcPcache) (hhome : pkt.cachehost = 0 →
      pkt.info.id = 0 ∧ c.pcache = false ∧ (env.mbufOk = false → E (.uncacheAbsent p))) :
    ((c.setPkt p pkt).transmit env p ownerIp).Yields E fun r =>
      ∃ pkt' agg, r.1 = (c.setPkt p pkt').around c.tab c.xtHop agg ∧
        pkt'.cachehost = pkt.cachehost ∧ pkt'.info = pkt.info := by
  unfold transmit
  rw [packet_setPkt]
  show (ite _ _ _ : Except Fault (Core × ℤ)).Yields _ _
  split_ifs with hagg hmbuf
  · exact (Aggregates.remoteAggregate_yields hE _ _ _ _).bind fun r _ =>
      ⟨pkt, r.1, rfl, rfl, rfl⟩
  · have hnone : ∀ c₁ : Core, c₁.pcache = c.pcache →
        c₁.uncacheIf (env.sendErr ≠ 0 ∧ pkt.cachehost = 0 ∧ c₁.pcache = true) p = .ok c₁ := by
      intro c₁ hc₁
      unfold uncacheIf
      rw [if_neg]
      rintro ⟨-, hhost, hpcache⟩
      rw [hc₁, (hhome hhost).2.1] at hpcache
      cases hpcache
    unfold takeChain
    split_ifs
    · show (uncacheIf _ _ p >>= _ : Except Fault (Core × ℤ)).Yields _ _
      rw [hnone (c.setPkt p pkt) rfl]
      exact ⟨pkt, c.agg, rfl, rfl, rfl⟩
    · exact hE
    · show (uncacheIf _ _ p >>= _ : Except Fault (Core × ℤ)).Yields _ _
      rw [setPkt_setPkt, hnone (c.setPkt p _) rfl]
      exact ⟨{ pkt with m := none }, c.agg, rfl, rfl, rfl⟩
  · unfold uncacheIf
    split_ifs with hhost
    · unfold mnUncachePkt
      rw [if_pos (show p ∉ (c.setPkt p pkt).mcPcache from hp)]
      exact (hhome hhost).2.2 (Bool.eq_false_of_not_eq_true hmbuf)
    · exact ⟨pkt, c.agg, rfl, rfl, rfl⟩

theorem packet_mcPcacheAdd (c : Core) (p : Addr) (pkt : Packet) :
    (c.mcPcacheAdd p pkt).packet p =
      .ok { pkt with info := { pkt.info with expire := c.now + c.mcExpire, id := p } } :=
  packet_eq_ok.mpr (Function.update_self _ _ _)

/-- The record of a packet that has just been cached is handed over, or the packet is taken off the
cache again. -/
theorem transmit_cached (hE : E .memory) (hp : p ∉ c.mcPcache) (hne : p ≠ 0)
    (hhome : pkt.cachehost = 0) (hsome : pkt.m.isSome) (hpcache : c.pcache = true)
    (hok : c.aggregate = true → c.agg.Fills ownerIp → env.sendErr ≠ 0 → E (.freeCached p)) :
    ((c.mcPcacheAdd p pkt).transmit env p ownerIp).Yields E (RemoteHop E c p pkt) := by
  have hmem : p ∈ (c.mcPcacheAdd p pkt).mcPcache :=
    List.mem_append_right _ (List.mem_singleton_self p)
  have huncache : (c.mcPcacheAdd p pkt).mnUncachePkt p =
      .ok (c.setPkt p { pkt with info := { pkt.info with expire := c.now + c.mcExpire, id := 0 } }) := by
    unfold mnUncachePkt
    rw [if_neg (not_not.mpr hmem), packet_mcPcacheAdd]
    exact congrArg Except.ok (uncache_mcPcacheAdd hp pkt _ c.agg)
  have hkept : ∀ err, RemoteHop E c p pkt (c.setPkt p
      { pkt with info := { pkt.info with expire := c.now + c.mcExpire, id := 0 } }, err) :=
    fun _ => .kept (a := c.agg) rfl (fun _ => rfl) fun hforeign => absurd hhome hforeign
  unfold transmit
  rw [packet_mcPcacheAdd]
  show (ite _ _ _ : Except Fault (Core × ℤ)).Yields _ _
  split_ifs with hagg hmbuf
  · refine (Aggregates.remoteAggregate_yields hE _ _ _ _).bind fun r hr => ?_
    by_cases herr : (if r.2.isSome then env.sendErr else 0) = 0
    · rw [herr]
      exact .cached (a := r.1) hhome hhome hsome rfl hpcache rfl (.refl _)
    · have hsent : r.2.isSome = true := by
        by_contra hsent
        exact herr (if_neg hsent)
      refine .stuck hmem herr (hok hagg.1 (hr hsent) ?_)
      rwa [if_pos hsent] at herr
  · unfold takeChain
    rw [if_pos hne]
    show (uncacheIf _ _ p >>= _ : Except Fault (Core × ℤ)).Yields _ _
    unfold uncacheIf
    split_ifs with herr
    · rw [huncache]
      exact hkept _
    · have hzero : env.sendErr = 0 := by
        by_contra h
        exact herr ⟨h, hhome, hpcache⟩
      rw [hzero]
      exact .cached (a := c.agg) hhome hhome hsome rfl hpcache rfl (.refl _)
  · unfold uncacheIf
    rw [if_pos hhome, huncache]
    exact hkept _

/-- The fields that `remote_hop` fills in at home do not matter for its outcomes. -/
theorem RemoteHop.of_home {pkt' : Packet} {r : Core × ℤ} (h : RemoteHop E c p pkt' r)
    (hhome : pkt.cachehost = 0) (hhost : pkt'.cachehost = pkt.cachehost) (hm : pkt'.m = pkt.m)
    (hpath : pkt'.path = pkt.path) (hxcp : pkt'.info.SameXcp pkt.info) : RemoteHop E c p pkt r := by
  cases h with
  | kept hhost' hid _ => exact .kept (hhost'.trans hhost) hid fun hforeign => absurd hhome hforeign
  | cached _ hhome' hsome hm' hpcache hpath' hxcp' =>
    exact .cached hhome hhome' (hm ▸ hsome) (hm'.trans hm) hpcache (hpath'.trans hpath)
      (hxcp'.trans hxcp)
  | stuck hmem herr hfault => exact .stuck hmem herr hfault

theorem remoteHop_yields (hE : E .memory) (hp : c.Loose p pkt) (hpkt : c.pkts p = some pkt)
    (hok : c.LeaveOr E env p ownerIp) :
    (c.remoteHop env p ownerIp).Yields E (RemoteHop E c p pkt) := by
  have hkept : ∀ err, RemoteHop E c p pkt (c, err) := by
    intro err
    have hself : RemoteHop E c p pkt ((c.setPkt p pkt).around c.tab c.xtHop c.agg, err) :=
      .kept rfl hp.id fun _ => rfl
    rwa [setPkt_self hpkt] at hself
  unfold remoteHop
  rw [packet_eq_ok.mpr hpkt]
  show (ite _ _ _ : Except Fault (Core × ℤ)).Yields _ _
  split_ifs with hhop
  · exact hkept _
  unfold prepare
  by_cases hhome : pkt.cachehost = 0
  · rw [if_pos hhome]
    unfold leaveHome
    cases haddrs : ipAddrs pkt with
    | error f =>
      have hf : f = .memory := by
        unfold ipAddrs at haddrs
        split at haddrs
        · cases haddrs
          rfl
        · split_ifs at haddrs
          cases haddrs
          rfl
      subst hf
      exact hE
    | ok a =>
      obtain ⟨hcached, huncached⟩ := hok pkt a hpkt hhome hhop haddrs
      have hsome : pkt.m.isSome := by
        cases hm : pkt.m with
        | some m => rfl
        | none =>
          unfold ipAddrs at haddrs
          rw [hm] at haddrs
          cases haddrs
      show ((if c.pcache = true then _ else _ : Core).packet p >>= _ :
        Except Fault (Core × ℤ)).Yields _ _
      by_cases hpcache : c.pcache = true
      · rw [if_pos hpcache, packet_mcPcacheAdd]
        show (ite _ _ _ : Except Fault (Core × ℤ)).Yields _ _
        split_ifs with hsrc
        · exact .stuck (List.mem_append_right _ (List.mem_singleton_self p)) (by decide)
            ((hcached hpcache).1 hsrc)
        · exact Except.Yields.imp
            (transmit_cached hE hp.uncached hp.ne_zero hhome hsome hpcache (hcached hpcache).2)
            fun r hr => hr.of_home hhome rfl rfl rfl ⟨rfl, rfl, rfl, rfl⟩
      · rw [if_neg hpcache, packet_setPkt]
        show (ite _ _ _ : Except Fault (Core × ℤ)).Yields _ _
        have hpcache : c.pcache = false := Bool.eq_false_of_not_eq_true hpcache
        split_ifs with hsrc
        · exact .kept (a := c.agg) rfl (fun _ => rfl) fun hforeign => absurd hhome hforeign
        · refine Except.Yields.imp
            (transmit_kept hE hp.uncached fun _ => ⟨rfl, hpcache, huncached hpcache hsrc⟩) ?_
          rintro ⟨c', err⟩ ⟨pkt', agg, rfl, hhost, hinfo⟩
          exact .kept hhost (fun _ => by rw [hinfo]) fun hforeign => absurd hhome hforeign
  · rw [if_neg hhome]
    show ((c.packet p) >>= _ : Except Fault (Core × ℤ)).Yields _ _
    rw [packet_eq_ok.mpr hpkt]
    show (ite _ _ _ : Except Fault (Core × ℤ)).Yields _ _
    split_ifs
    · exact hkept _
    · have hforeign : ((c.setPkt p pkt).transmit env p ownerIp).Yields E _ :=
        transmit_kept hE hp.uncached fun hhost => absurd hhost hhome
      rw [setPkt_self hpkt] at hforeign
      refine hforeign.imp ?_
      rintro ⟨c', err⟩ ⟨pkt', agg, rfl, hhost, hinfo⟩
      exact .kept hhost (fun hzero => absurd (hhost ▸ hzero) hhome) fun _ => hinfo

/-! ## The end of the call -/

theorem mnFreePkt_eq (hp : p ∉ c.mcPcache) (hpkt : c.pkts p = some pkt) :
    c.mnFreePkt p = .ok (c.freePkt p) := by
  unfold mnFreePkt
  rw [if_neg hp, packet_eq_ok.mpr hpkt]
  rfl

theorem freePkt_setPkt (c : Core) (p : Addr) (pkt : Packet) :
    (c.setPkt p pkt).freePkt p = c.freePkt p := by
  unfold freePkt setPkt
  dsimp only
  rw [Function.update_idem]

theorem fateOf_eq (hpkt : c.pkts p = some pkt) (ownerIp : BitVec 32) (err : ℤ) :
    c.fateOf p ownerIp err =
      .ok (if err = 0 then .left ownerIp pkt.cachehost pkt.info (p ∈ c.mcPcache) else .freed) := by
  unfold fateOf
  rw [packet_eq_ok.mpr hpkt]
  rfl

theorem fateOf_uncached (hp : p ∉ c.mcPcache) (hpkt : c.pkts p = some pkt) (ownerIp : BitVec 32)
    (err : ℤ) :
    c.fateOf p ownerIp err =
      .ok (if err = 0 then .left ownerIp pkt.cachehost pkt.info false else .freed) := by
  rw [fateOf_eq hpkt, decide_eq_false hp]

theorem finishNexthop_free (emulator : BitVec 32) (dropped : Bool) (hp : p ∉ c.mcPcache)
    (hpkt : c.pkts p = some pkt)
    (hfree : ¬ (pkt.cachehost = 0 ∧ pkt.info.id ≠ 0) ∧ emulator ≠ 0 ∨ dropped = true) :
    c.finishNexthop p emulator dropped = .ok (c.freePkt p) := by
  have hmn : (c.setPkt p pkt.incr).mnFreePkt p = .ok (c.freePkt p) := by
    rw [mnFreePkt_eq (c := c.setPkt p pkt.incr) hp (pkts_setPkt_self c p pkt.incr), freePkt_setPkt]
  unfold finishNexthop
  rw [packet_eq_ok.mpr hpkt]
  show (ite _ _ _ : Except Fault Core) = _
  rw [hmn]
  split_ifs with hemulator hdropped
  · rfl
  · rfl
  · exact absurd (hfree.resolve_left hemulator) hdropped

theorem finishNexthop_keep (emulator : BitVec 32) (hpkt : c.pkts p = some pkt)
    (hkeep : pkt.cachehost = 0 ∧ pkt.info.id ≠ 0 ∨ emulator = 0) :
    c.finishNexthop p emulator false = .ok (c.setPkt p pkt.incr) := by
  unfold finishNexthop
  rw [packet_eq_ok.mpr hpkt]
  show (ite _ _ _ : Except Fault Core) = _
  rw [if_neg, if_neg (by decide)]
  · rfl
  · rintro ⟨hnot, hemulator⟩
    exact hkeep.elim hnot hemulator

/-- What becomes of a packet that is gone, for its struct at the end of the previous hop. -/
inductive Leaves (c : Core) (pkt : Packet) : Fate → Prop where
  | freed : Leaves c pkt .freed
  | forwarded {m : List Byte} (hm : pkt.m = some m) :
      Leaves c pkt (.forwarded (if c.xcpInitialized then xcpSetXcpinfo m pkt.info else m))
  | left {toAddr : BitVec 32} {info : RemotePacket} (hinfo : pkt.cachehost ≠ 0 → info = pkt.info) :
      Leaves c pkt (.left toAddr pkt.cachehost info false)

/-- The outcomes of `emulate_nexthop` from the test for the end of the path on. -/
inductive NextHop (c : Core) (p : Addr) (pkt : Packet) : Core × Fate → Prop where
  | gone {tab : PathTab} {xtHop : HopPtr → Option XcpPipe} {agg : Aggregates} {fate : Fate}
      (hfate : c.Leaves pkt fate) : NextHop c p pkt ((c.freePkt p).around tab xtHop agg, fate)
  | waiting {tab : PathTab} {xtHop : HopPtr → Option XcpPipe} {agg : Aggregates} {due : ℤ} :
      NextHop c p pkt
        ((((c.setPkt p { pkt with state := qBwDelay }.incr).calendarInsert p due).around
          tab xtHop agg), .waiting due)
  | cached {tab : PathTab} {xtHop : HopPtr → Option XcpPipe} {agg : Aggregates} {pkt' : Packet}
      {toAddr : BitVec 32} {info : RemotePacket} (hfrom : pkt.cachehost = 0)
      (hhome : pkt'.cachehost = 0) (hm : pkt'.m = pkt.m) (hpcache : c.pcache = true) (hid : info.id = p)
      (hexpire : info.expire = c.now + c.mcExpire) (hxcp : info.SameXcp pkt.info)
      (hcopy : pkt'.info.SameXcp pkt.info) :
      NextHop c p pkt ((c.mcPcacheAdd p pkt').around tab xtHop agg, .left toAddr 0 info true)

/-- The two ways in which a packet is gone after `remote_hop`. -/
theorem Leaves.of_kept {pkt' : Packet} {err : ℤ} (hhost : pkt'.cachehost = pkt.cachehost)
    (hinfo : pkt.cachehost ≠ 0 → pkt'.info = pkt.info) (ownerIp : BitVec 32) :
    c.Leaves pkt (if err = 0 then .left ownerIp pkt'.cachehost pkt'.info false else .freed) := by
  rw [hhost]
  split_ifs
  · exact .left hinfo
  · exact .freed

theorem forwardPacket_yields (hE : E .memory) (hp : c.Loose p pkt) (hpkt : c.pkts p = some pkt) :
    (c.forwardPacket env p).Yields E fun r =>
      ∃ pkt' agg, r.1 = (c.setPkt p pkt').around c.tab c.xtHop agg ∧ c.Leaves pkt r.2 := by
  unfold forwardPacket
  refine (packet_yields hE c p).bind fun pkt' hpkt' => ?_
  cases hpkt.symm.trans hpkt'
  dsimp only
  cases hm : pkt.m with
  | none =>
    -- a struct without its bytes does not come to the point where it could be stuck in the cache
    have hok : c.LeaveOr (fun f => E f ∧ f ≠ .freeCached p) env p pkt.cachehost := by
      intro pkt' a hpkt' _ _ haddrs
      cases hpkt.symm.trans hpkt'
      unfold ipAddrs at haddrs
      rw [hm] at haddrs
      cases haddrs
    have hremote := remoteHop_yields (E := fun f => E f ∧ f ≠ .freeCached p)
      ⟨hE, by rintro ⟨⟩⟩ hp hpkt hok
    refine (hremote.imp_error fun f hf => hf.1).bind fun r hr => ?_
    cases hr with
    | cached _ _ hsome =>
      rw [hm] at hsome
      cases hsome
    | stuck _ _ hfault => exact absurd rfl hfault.2
    | @kept pkt' agg err hhost hid hinfo =>
      have hfate := fateOf_uncached (c := (c.setPkt p pkt').around c.tab c.xtHop agg) hp.uncached
        (pkts_setPkt_self c p pkt') pkt.cachehost err
      dsimp only
      rw [hfate]
      exact ⟨pkt', agg, rfl, Leaves.of_kept hhost hinfo pkt.cachehost⟩
  | some m =>
    show (ite _ _ _ : Except Fault (Core × Fate)).Yields _ _
    by_cases hmbuf : pkt.cachehost ≠ 0 ∧ ¬ env.mbufOk
    · rw [if_pos hmbuf]
      exact ⟨pkt, c.agg, (setPkt_self hpkt).symm, .freed⟩
    rw [if_neg hmbuf]
    by_cases hpullup : pkt.cachehost ≠ 0 ∧ ¬ env.pullupOk
    · rw [if_pos hpullup]
      exact hE
    · rw [if_neg hpullup]
      exact ⟨{ pkt with m := none }, c.agg, rfl, .forwarded hm⟩

theorem setPkt_mcPcacheAdd (c : Core) (p : Addr) (pkt : Packet) :
    (c.mcPcacheAdd p pkt).setPkt p
        { pkt with info := { pkt.info with expire := c.now + c.mcExpire, id := p } }.incr =
      c.mcPcacheAdd p pkt.incr := by
  unfold mcPcacheAdd setPkt
  dsimp only
  rw [Function.update_idem]
  rfl

theorem setPkt_calendarInsert (c : Core) (p : Addr) (pkt pkt' : Packet) (due : ℤ) (tab : PathTab)
    (xtHop : HopPtr → Option XcpPipe) (agg : Aggregates) :
    (((c.setPkt p pkt).calendarInsert p due).around tab xtHop agg).setPkt p pkt' =
      ((c.setPkt p pkt').calendarInsert p due).around tab xtHop agg := by
  unfold calendarInsert around setPkt
  dsimp only
  rw [Function.update_idem]

theorem readPath_yields (hE : E .memory) (c : Core) (path : Option PathPtr) :
    (c.readPath path).Yields E fun r => c.readPath path = .ok r := by
  unfold readPath
  split
  · exact hE
  · rfl

theorem lookupPath_yields (hE : E .memory) (c : Core)
    (src dst : BitVec 32) :
    (c.lookupPath src dst).Yields E fun r => c.lookupPath src dst = .ok r := by
  unfold lookupPath
  split
  · rfl
  · split
    · exact hE
    · rfl

theorem hop_yields (hE : E .memory) (c : Core) (h : HopPtr) :
    (c.hop h).Yields E fun hop => c.tab.hops h = some hop := by
  unfold hop
  cases c.tab.hops h with
  | none => exact hE
  | some hop => rfl

theorem emulateHop_yields (hE : E .memory) (hpkt : c.pkts p = some pkt) (h : HopPtr) :
    (c.emulateHop env p h).Yields E fun r =>
      (∃ tab plr bw, r = (c.around tab c.xtHop c.agg, .dropped plr bw)) ∨
      ∃ tab x due, r = (((c.setPkt p { pkt with state := qBwDelay }).calendarInsert p due).around
        tab c.xtHop c.agg, .queued x due) := by
  unfold emulateHop
  refine (packet_yields hE c p).bind fun pkt' hpkt' => ?_
  cases hpkt.symm.trans hpkt'
  dsimp only
  split
  · exact hE
  · split
    · exact hE
    · exact Or.inl ⟨_, _, _, rfl⟩
    · exact Or.inr ⟨_, _, _, rfl⟩

/-- A packet that is in the cache is not freed without a fault. -/
theorem finishNexthop_stuck {α : Type} (hE : E .memory) (hmem : p ∈ c.mcPcache)
    (hfault : E (.freeCached p)) (emulator : BitVec 32) {Q : α → Prop} (k : Core → Except Fault α) :
    (c.finishNexthop p emulator true >>= k).Yields E Q := by
  have hfree : ∀ pkt, (c.setPkt p pkt).mnFreePkt p = .error (.freeCached p) := fun _ => if_pos hmem
  refine Except.Yields.bind (P := fun _ => False) ?_ fun _ h => h.elim
  unfold finishNexthop
  refine (packet_yields hE c p).bind fun pkt _ => ?_
  dsimp only
  rw [hfree, if_pos rfl, ite_self]
  exact hfault

theorem crossHop_yields (hE : E .memory) (hp : c.Loose p pkt) (hpkt : c.pkts p = some pkt)
    {curhop : Option HopPtr}
    (hok : ∀ h hop, curhop = some h → c.tab.hops h = some hop → hop.emulator ≠ 0 →
      c.LeaveOr E env p hop.emulator) :
    (c.crossHop env p curhop).Yields E (NextHop c p pkt) := by
  have hgone : ∀ (pkt' : Packet) tab xtHop agg fate, c.Leaves pkt fate →
      NextHop c p pkt (((c.setPkt p pkt').around tab xtHop agg).freePkt p, fate) := by
    intro pkt' tab xtHop agg fate hfate
    rw [show ((c.setPkt p pkt').around tab xtHop agg).freePkt p =
      (c.freePkt p).around tab xtHop agg from
        congrArg (fun c => around c tab xtHop agg) (freePkt_setPkt c p pkt')]
    exact .gone hfate
  cases curhop with
  | none =>
    refine (forwardPacket_yields hE hp hpkt).bind fun r hr => ?_
    obtain ⟨c', fate⟩ := r
    obtain ⟨pkt', agg, rfl, hfate⟩ := hr
    have hfree := mnFreePkt_eq (c := (c.setPkt p pkt').around c.tab c.xtHop agg) hp.uncached
      (pkts_setPkt_self c p pkt')
    dsimp only
    rw [hfree]
    exact hgone pkt' c.tab c.xtHop agg fate hfate
  | some h₁ =>
    refine (hop_yields hE c h₁).bind fun hop hhop => ?_
    show (ite _ _ _ : Except Fault (Core × Fate)).Yields _ _
    split_ifs with hremote
    · refine (remoteHop_yields hE hp hpkt (hok h₁ hop rfl hhop hremote)).bind fun r hr => ?_
      cases hr with
      | @kept pkt' agg err hhost hid hinfo =>
        have hfate := fateOf_uncached (c := (c.setPkt p pkt').around c.tab c.xtHop agg) hp.uncached
          (pkts_setPkt_self c p pkt') hop.emulator err
        have hfinish := finishNexthop_free (c := (c.setPkt p pkt').around c.tab c.xtHop agg)
          hop.emulator (decide (err ≠ 0)) hp.uncached
          (pkts_setPkt_self c p pkt') (Or.inl ⟨fun hcached => hcached.2 (hid hcached.1), hremote⟩)
        dsimp only
        rw [hfate]
        show (finishNexthop _ p hop.emulator _ >>= _ : Except Fault (Core × Fate)).Yields _ _
        rw [hfinish]
        exact hgone pkt' c.tab c.xtHop agg _ (Leaves.of_kept hhost hinfo hop.emulator)
      | @cached pkt' agg hfrom hhome hsome hm hpcache hpath hxcp =>
        have hmem : p ∈ (c.mcPcacheAdd p pkt').mcPcache :=
          List.mem_append_right _ (List.mem_singleton_self p)
        have hpkt₁ := packet_eq_ok.mp (packet_mcPcacheAdd c p pkt')
        have hfate := fateOf_eq (c := (c.mcPcacheAdd p pkt').around c.tab c.xtHop agg) hpkt₁
          hop.emulator 0
        have hfinish := finishNexthop_keep (c := (c.mcPcacheAdd p pkt').around c.tab c.xtHop agg)
          hop.emulator hpkt₁ (Or.inl ⟨hhome, hp.ne_zero⟩)
        rw [if_pos rfl, show decide (p ∈ (around (c.mcPcacheAdd p pkt') c.tab c.xtHop
          agg).mcPcache) = true from decide_eq_true hmem] at hfate
        dsimp only at hfate
        rw [hhome] at hfate
        dsimp only
        rw [hfate]
        show (finishNexthop _ p hop.emulator false >>= _ : Except Fault (Core × Fate)).Yields _ _
        rw [hfinish, show setPkt (around (c.mcPcacheAdd p pkt') c.tab c.xtHop agg) p _ =
          (c.mcPcacheAdd p pkt'.incr).around c.tab c.xtHop agg from
            congrArg (fun c₁ => around c₁ c.tab c.xtHop agg) (setPkt_mcPcacheAdd c p pkt')]
        exact .cached hfrom hhome hm hpcache rfl rfl
          ⟨hxcp.len, hxcp.cwnd, hxcp.fdbk, hxcp.rtt⟩ ⟨hxcp.len, hxcp.cwnd, hxcp.fdbk, hxcp.rtt⟩
      | @stuck c' err hmem herr hfault =>
        dsimp only
        rw [decide_eq_true herr]
        have hfate : (c'.fateOf p hop.emulator err).Yields E fun _ => True :=
          (packet_yields hE c' p).bind fun _ _ => trivial
        exact hfate.bind fun fate _ => finishNexthop_stuck hE hmem hfault hop.emulator _
    · refine (emulateHop_yields hE hpkt h₁).bind fun r hr => ?_
      obtain ⟨tab, plr, bw, rfl⟩ | ⟨tab, x, due, rfl⟩ := hr
      · have hfinish := finishNexthop_free (c := c.around tab c.xtHop c.agg) 0 true
          hp.uncached hpkt (Or.inr rfl)
        dsimp only
        rw [hfinish]
        exact .gone .freed
      · have hfinish := finishNexthop_keep
          (c := ((c.setPkt p { pkt with state := qBwDelay }).calendarInsert p due).around tab
            c.xtHop c.agg) 0 (pkts_setPkt_self c p _) (Or.inr rfl)
        dsimp only
        rw [hfinish, setPkt_calendarInsert]
        exact .waiting

/-- The struct, the tables, the pipes and the queues in front of the step do not matter. -/
theorem NextHop.of_setPkt {pkt' : Packet} {tab : PathTab} {xtHop : HopPtr → Option XcpPipe}
    {agg : Aggregates} {r : Core × Fate}
    (h : NextHop ((c.setPkt p pkt').around tab xtHop agg) p pkt r) : NextHop c p pkt r := by
  cases h with
  | @gone tab₁ xtHop₁ agg₁ fate hfate =>
    have hcore : (freePkt ((c.setPkt p pkt').around tab xtHop agg) p).around tab₁ xtHop₁ agg₁ =
        (c.freePkt p).around tab₁ xtHop₁ agg₁ := by
      unfold freePkt around setPkt
      dsimp only
      rw [Function.update_idem]
    rw [hcore]
    refine .gone ?_
    cases hfate with
    | freed => exact .freed
    | forwarded hm => exact .forwarded hm
    | left hinfo => exact .left hinfo
  | @waiting tab₁ xtHop₁ agg₁ due =>
    have hcore : ∀ pkt₁, (calendarInsert (setPkt ((c.setPkt p pkt').around tab xtHop agg) p pkt₁)
        p due).around tab₁ xtHop₁ agg₁ =
          ((c.setPkt p pkt₁).calendarInsert p due).around tab₁ xtHop₁ agg₁ := by
      intro pkt₁
      unfold calendarInsert around setPkt
      dsimp only
      rw [Function.update_idem]
    rw [hcore]
    exact .waiting
  | @cached tab₁ xtHop₁ agg₁ pkt₁ toAddr info hfrom hhome hm hpcache hid hexpire hxcp hcopy =>
    have hcore : (mcPcacheAdd ((c.setPkt p pkt').around tab xtHop agg) p pkt₁).around
        tab₁ xtHop₁ agg₁ = (c.mcPcacheAdd p pkt₁).around tab₁ xtHop₁ agg₁ := by
      unfold mcPcacheAdd around setPkt
      dsimp only
      rw [Function.update_idem]
      rfl
    rw [hcore]
    exact .cached hfrom hhome hm hpcache hid hexpire hxcp hcopy

/-- The pipe of the hop that a packet leaves, with the depth of its queue, when the hop is one of
this core and has the XCP discipline. -/
def leaving (c : Core) (pkt : Packet) : Option (ℤ × XcpPipe) :=
  if pkt.info.hop ≠ 0 ∧ pkt.state &&& 1 ≠ 0 then
    match c.prevHop pkt.path with
    | .error _ => none
    | .ok h =>
      match c.hop h, c.xtHop h with
      | .ok prvhop, some pipe =>
        if prvhop.emulator = 0 then some (prvhop.bytedepth, pipe) else none
      | _, _ => none
  else none

/-- The feedback of a packet after the handler of the previous hop. -/
def Charges (c : Core) (pkt : Packet) (fdbk : BitVec 32) : Prop :=
  match c.leaving pkt with
  | none => fdbk = pkt.info.xcpSrcFdbk
  | some (bytedepth, pipe) =>
    ∃ pipe', pipe.xcpDequeue c.hz bytedepth pkt.info = some (pipe', (pkt.setFdbk fdbk).info)

/-- The handler of the previous hop changes the feedback only. -/
theorem dequeue_yields (hE : E .memory) (hpkt : c.pkts p = some pkt) :
    (c.dequeue p pkt).Yields E fun c' => ∃ fdbk xtHop, c.Charges pkt fdbk ∧
      c' = (c.setPkt p (pkt.setFdbk fdbk)).around c.tab xtHop c.agg := by
  have hsame : c.leaving pkt = none → ∃ fdbk xtHop, c.Charges pkt fdbk ∧
      c = (c.setPkt p (pkt.setFdbk fdbk)).around c.tab xtHop c.agg := by
    intro hnone
    refine ⟨pkt.info.xcpSrcFdbk, c.xtHop, ?_, (setPkt_self hpkt).symm⟩
    unfold Charges
    rw [hnone]
  have hprev : (c.prevHop pkt.path).Yields E fun h => c.prevHop pkt.path = .ok h := by
    cases hr : c.prevHop pkt.path with
    | ok h => rfl
    | error f =>
      have hmemory : (c.prevHop pkt.path).Yields E fun _ => True := by
        unfold prevHop
        split
        · exact hE
        · split_ifs
          · exact hE
          · refine (readPath_yields hE c _).bind fun prv _ => ?_
            cases prv with
            | none => exact hE
            | some h => exact trivial
      exact hmemory.of_error hr
  unfold dequeue
  split_ifs with hwaited
  · refine hprev.bind fun h hh => ?_
    refine (hop_yields hE c h).bind fun prvhop hprvhop => ?_
    have hhop : c.hop h = .ok prvhop := by
      unfold hop
      rw [hprvhop]
    cases hpipe : c.xtHop h with
    | none =>
      refine hsame ?_
      unfold leaving
      rw [if_pos hwaited, hh]
      dsimp only
      rw [hhop, hpipe]
    | some pipe =>
      have hleaving : c.leaving pkt =
          if prvhop.emulator = 0 then some (prvhop.bytedepth, pipe) else none := by
        unfold leaving
        rw [if_pos hwaited, hh]
        dsimp only
        rw [hhop, hpipe]
      dsimp only
      split_ifs with hlocal
      · split
        · exact hE
        · rename_i pipe' info' hdequeue
          have hinfo := XcpPipe.xcpDequeue_info hdequeue
          refine ⟨info'.xcpSrcFdbk, Function.update c.xtHop h (some pipe'), ?_, ?_⟩
          · unfold Charges
            rw [hleaving, if_pos hlocal]
            refine ⟨pipe', hdequeue.trans ?_⟩
            unfold Packet.setFdbk
            rw [← hinfo]
          · unfold Packet.setFdbk
            rw [← hinfo]
            rfl
      · exact hsame (hleaving.trans (if_neg hlocal))
  · exact hsame (if_neg hwaited)

/-- **One call of `emulate_nexthop`.** For a packet in hand it ends in one of the three ways. -/
theorem emulateNexthop_yields (hE : E .memory) (hp : c.Loose p pkt) (hpkt : c.pkts p = some pkt)
    (hok : c.NextOr E env p) :
    (c.emulateNexthop env p).Yields E fun r =>
      ∃ fdbk, c.Charges pkt fdbk ∧ NextHop c p (pkt.setFdbk fdbk) r := by
  unfold emulateNexthop
  rw [packet_eq_ok.mpr hpkt]
  refine (readPath_yields hE c pkt.path).bind fun curhop hcurhop => ?_
  have hleave : ∀ h hop, curhop = some h → c.tab.hops h = some hop → hop.emulator ≠ 0 →
      c.LeaveOr E env p hop.emulator := by
    rintro h hop rfl
    exact hok pkt h hop hpkt hcurhop
  show (ite _ _ _ : Except Fault (Core × Fate)).Yields _ _
  split_ifs with hfirst
  · have hcharges : c.Charges pkt pkt.info.xcpSrcFdbk := by
      unfold Charges leaving
      rw [if_neg fun h => h.1 hfirst]
    cases curhop with
    | none => exact hE
    | some h₁ =>
      refine (hop_yields hE c h₁).bind fun hop hhop => ?_
      show (ite _ _ _ : Except Fault (Core × Fate)).Yields _ _
      split_ifs with hremote
      · rw [mnFreePkt_eq hp.uncached hpkt]
        have hgone : NextHop c p pkt ((c.freePkt p).around c.tab c.xtHop c.agg, .freed) :=
          .gone .freed
        exact ⟨pkt.info.xcpSrcFdbk, hcharges, hgone⟩
      · exact (crossHop_yields hE hp hpkt hleave).imp fun r hr =>
          ⟨pkt.info.xcpSrcFdbk, hcharges, hr⟩
  · refine (dequeue_yields hE hpkt).bind fun c' hc' => ?_
    obtain ⟨fdbk, xtHop, hcharges, rfl⟩ := hc'
    have hloose : ((c.setPkt p (pkt.setFdbk fdbk)).around c.tab xtHop c.agg).Loose p
        (pkt.setFdbk fdbk) := ⟨hp.ne_zero, hp.uncached, hp.id⟩
    refine (crossHop_yields hE hloose (pkts_setPkt_self c p (pkt.setFdbk fdbk)) ?_).imp
      fun r hr => ⟨fdbk, hcharges, hr.of_setPkt⟩
    intro h₁ hop hcur hhop hremote pkt' a hpkt' hhome hhop' haddrs
    cases (pkts_setPkt_self c p (pkt.setFdbk fdbk)).symm.trans hpkt'
    exact hleave h₁ hop hcur hhop hremote pkt a hpkt hhome hhop' haddrs

/-- The invariant holds again when `emulate_nexthop` is through. -/
theorem NextHop.inv (h : c.Inv none) (hp : c.InHand p)
    (hid : pkt.cachehost = 0 → pkt.info.id = 0) {r : Core × Fate} (hr : NextHop c p pkt r) :
    r.1.Inv none := by
  cases hr with
  | gone => exact h.freePkt hp fun _ _ => by rintro ⟨⟩
  | waiting =>
    have hset : (c.setPkt p { pkt with state := qBwDelay }.incr).Inv none :=
      h.setPkt_inHand hp (fun _ _ hq => hq) (Or.inr hid)
    exact hset.calendarInsert (hp.setPkt p _) _
  | cached _ hhome => exact (h.mcPcacheAdd hp hhome).1

end Core

end Modelnet.FreeBSD

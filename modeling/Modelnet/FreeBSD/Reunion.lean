import Modelnet.FreeBSD.PacketCache
import Modelnet.Lib.Lease

/-!
# A record finds its packet

A packet that leaves its core stays in the packet cache under its own address, and its record
carries this address and the time at which it expires. `Tracked` adds to a core what it cannot see:
a number for each packet that a struct has ever been used for, and the departures whose records have
not come back. As long as no send fails, the ticks do not run back and the network neither forges
nor duplicates a record (`Honest`), the cache and the departures are leases: a record that has not
expired finds the packet that it left from.
-/

namespace Modelnet.FreeBSD

open Modelnet

/-- The ticket for a packet that has left with its record, for the number of the packet. -/
def Fate.departure (serial : ℕ) : Fate → List (Lease Addr ℕ)
  | .left _ _ info true => [⟨info.id, serial, info.expire.toNat⟩]
  | _ => []

/-- The struct that an event has begun to use for another packet. -/
def Act.fresh : Act → Option Addr
  | .started p _ => some p
  | .handed p cachehost info _ => if cachehost = 0 ∧ info.id ≠ 0 then none else some p
  | _ => none

/-- The ticket for a packet that has left in an event. -/
def Act.departure (serial : Addr → ℕ) : Act → List (Lease Addr ℕ)
  | .idle => []
  | .started p fate => fate.departure (serial p)
  | .handed p _ _ fate => fate.departure (serial p)
  | .crossed p fate => fate.departure (serial p)

/-- A struct stands for the packet `n` from now on. -/
def renumber (serial : Addr → ℕ) (n : ℕ) : Option Addr → Addr → ℕ
  | none => serial
  | some p => Function.update serial p n

/-- The ticket of a record that has come back is taken in. -/
def takeIn (away : List (Lease Addr ℕ)) : Option RemotePacket → List (Lease Addr ℕ)
  | none => away
  | some info => Leases.redeem away info.id info.expire.toNat

theorem takeIn_sublist (away : List (Lease Addr ℕ)) (back : Option RemotePacket) :
    (takeIn away back).Sublist away := by
  cases back with
  | none => exact List.Sublist.refl away
  | some info => exact Leases.redeem_sublist away info.id info.expire.toNat

/-- A record is one of those that are away. -/
def Away (away : List (Lease Addr ℕ)) (info : RemotePacket) : Prop :=
  ∃ a ∈ away, a.key = info.id ∧ a.expire = info.expire.toNat

/-- A packet of this core has a source. -/
def Packet.Addressed (pkt : Packet) : Prop :=
  pkt.cachehost = 0 → ∀ m, pkt.m = some m → be32At m 12 ≠ 0

namespace Cursor

/-- What is left of a datagram fits into one of `remote_aggregate`, or it is one uncached record. -/
def Fits (k : Cursor) : Prop :=
  ∀ bs, k.m = some bs → bs.length + k.once * remotePacketSize ≤ mnMtu - udpiphdrSize +
    remotePacketSize ∨ k.once ≤ 1 ∧ (RemotePacket.decode bs).id = 0

theorem Fits.not_tooMany {k : Cursor} (h : k.Fits) : k.test ≠ .ok .tooMany := by
  unfold test
  split
  · rintro ⟨⟩
  · rename_i bs hm
    split_ifs with hexit hmany
    · rintro ⟨⟩
    · rcases h bs hm with hfits | ⟨honce, -⟩
      · have hsizes : mnMtu - udpiphdrSize + remotePacketSize < 47 * remotePacketSize := by decide
        have hle : 47 * remotePacketSize ≤ k.once * remotePacketSize :=
          Nat.mul_le_mul_right remotePacketSize hmany
        omega
      · omega
    · rintro ⟨⟩

theorem Fits.take {k : Cursor} (h : k.Fits) {t : Cursor.Taken} (htake : k.take = .ok t) :
    t.cursor.Fits := by
  unfold Cursor.take at htake
  split at htake
  · cases htake
  · rename_i bs hm
    split_ifs at htake with hsize
    · dsimp only at htake
      split_ifs at htake with hid
      · cases htake
        rintro bs' ⟨⟩
        rcases h bs hm with hfits | ⟨-, hzero⟩
        · left
          dsimp only
          rw [List.length_drop, Nat.succ_mul]
          omega
        · exact absurd hzero hid
      · cases htake
        rintro bs' ⟨⟩

end Cursor

namespace Core

/-- When the packet at `p` expires. -/
def expireAt (c : Core) (p : Addr) : ℕ := (c.pkts p).elim 0 fun pkt => pkt.info.expire.toNat

/-- The time at which a packet expires that leaves now. -/
def deadline (c : Core) : BitVec 32 := c.now + c.mcExpire

/-- The packet cache, with the numbers of the packets. -/
def held (c : Core) (serial : Addr → ℕ) : List (Lease Addr ℕ) :=
  c.mcPcache.map fun p => ⟨p, serial p, c.expireAt p⟩

/-- The path of a record begins at this core. -/
def isHome (c : Core) (info : RemotePacket) : Bool :=
  match c.lookupPath (info.src &&& ~~~modelForcebit) info.dst with
  | .ok (some path) =>
    match c.readPath (some path) with
    | .ok (some h) => (c.tab.hops h).any fun hop => hop.emulator = 0
    | _ => false
  | _ => false

variable {c : Core} {env : Env} {p q : Addr} {pkt : Packet} {info : RemotePacket} {l : InputLoop}
  {t : Cursor.Taken} {serial : Addr → ℕ} {away : List (Lease Addr ℕ)} {n e : ℕ}

theorem isHome_iff : c.isHome info = true ↔ c.Home info := by
  constructor
  · intro h
    unfold isHome at h
    split at h
    · rename_i path hpath
      split at h
      · rename_i h₁ hh₁
        obtain ⟨hop, hhop, hlocal⟩ := (Option.any_eq_true _ _).mp h
        exact ⟨path, h₁, hop, hpath, hh₁, hhop, of_decide_eq_true hlocal⟩
      · cases h
    · cases h
  · rintro ⟨path, h₁, hop, hpath, hh₁, hhop, hlocal⟩
    unfold isHome
    rw [hpath]
    dsimp only
    rw [hh₁]
    dsimp only
    rw [hhop]
    exact decide_eq_true hlocal

instance : Decidable (c.Home info) := decidable_of_iff _ isHome_iff

/-- A core whose cache and departures are leases. -/
structure Leased (c : Core) (serial : Addr → ℕ) (away : List (Lease Addr ℕ)) : Prop where
  inv : c.Inv none
  pcache : c.pcache = true
  addressed : ∀ p pkt, c.pkts p = some pkt → pkt.Addressed
  keyed : ∀ a ∈ away, a.key ≠ 0
  leases : Leases.Valid c.now.toNat c.deadline.toNat ⟨c.held serial, away⟩

theorem held_key (c : Core) (serial : Addr → ℕ) :
    (c.held serial).map Lease.key = c.mcPcache := by
  unfold held
  rw [List.map_map]
  exact List.map_id _

theorem mem_held : (⟨p, n, e⟩ : Lease Addr ℕ) ∈ c.held serial ↔
    p ∈ c.mcPcache ∧ n = serial p ∧ e = c.expireAt p := by
  unfold held
  rw [List.mem_map]
  constructor
  · rintro ⟨q, hq, heq⟩
    cases heq
    exact ⟨hq, rfl, rfl⟩
  · rintro ⟨hp, rfl, rfl⟩
    exact ⟨p, hp, rfl⟩

theorem expireAt_eq (hpkt : c.pkts p = some pkt) : c.expireAt p = pkt.info.expire.toNat := by
  unfold expireAt
  rw [hpkt]
  rfl

theorem held_congr {c' : Core} {serial' : Addr → ℕ} (hcache : c'.mcPcache = c.mcPcache)
    (hpkts : ∀ p ∈ c.mcPcache, c'.pkts p = c.pkts p)
    (hserial : ∀ p ∈ c.mcPcache, serial' p = serial p) : c'.held serial' = c.held serial := by
  unfold held expireAt
  rw [hcache]
  refine List.map_congr_left fun p hp => ?_
  rw [hpkts p hp, hserial p hp]

/-! ## Leases over the calls -/

theorem Leased.lose (h : c.Leased serial away) {away' : List (Lease Addr ℕ)}
    (hsub : away'.Sublist away) : c.Leased serial away' :=
  ⟨h.inv, h.pcache, h.addressed, fun a ha => h.keyed a (hsub.subset ha), h.leases.lose hsub⟩

theorem Leased.around (h : c.Leased serial away) (tab : PathTab) (xtHop : HopPtr → Option XcpPipe)
    (agg : Aggregates) : (c.around tab xtHop agg).Leased serial away :=
  ⟨h.inv, h.pcache, h.addressed, h.keyed, h.leases⟩

/-- A write to a struct that is not in the cache, which may begin to stand for another packet. -/
theorem Leased.setPkt (h : c.Leased serial away) (pkt : Packet) (serial' : Addr → ℕ)
    (hp : p ∉ c.mcPcache)
    (hserial : ∀ q, q ≠ p → serial' q = serial q) (hinv : (c.setPkt p pkt).Inv none)
    (hpkt : pkt.Addressed) : (c.setPkt p pkt).Leased serial' away := by
  have hne : ∀ q ∈ c.mcPcache, q ≠ p := by
    rintro q hq rfl
    exact hp hq
  refine ⟨hinv, h.pcache, ?_, h.keyed, ?_⟩
  · intro q pkt' hq
    by_cases hqp : q = p
    · subst hqp
      cases (pkts_setPkt_self c q pkt).symm.trans hq
      exact hpkt
    · rw [pkts_setPkt_of_ne c pkt hqp] at hq
      exact h.addressed q pkt' hq
  · rw [show (c.setPkt p pkt).held serial' = c.held serial from held_congr rfl
      (fun q hq => pkts_setPkt_of_ne c pkt (hne q hq)) fun q hq => hserial q (hne q hq)]
    exact h.leases

theorem Leased.freePkt (h : c.Leased serial away) (hp : c.InHand p) :
    (c.freePkt p).Leased serial away := by
  refine ⟨h.inv.freePkt hp fun _ _ => by rintro ⟨⟩, h.pcache, ?_, h.keyed, ?_⟩
  · intro q pkt hq
    by_cases hqp : q = p
    · subst hqp
      rw [pkts_freePkt_self] at hq
      cases hq
    · rw [pkts_freePkt_of_ne c hqp] at hq
      exact h.addressed q pkt hq
  · rw [show (c.freePkt p).held serial = c.held serial from held_congr rfl
      (fun q hq => pkts_freePkt_of_ne c fun heq => hp.uncached (heq ▸ hq)) fun _ _ => rfl]
    exact h.leases

/-- A packet leaves: it is kept, and a ticket for it goes out. -/
theorem Leased.mcPcacheAdd (h : c.Leased serial away) (hp : c.InHand p) (hhome : pkt.cachehost = 0)
    (hpkt : pkt.Addressed) :
    (c.mcPcacheAdd p pkt).Leased serial (away ++ [⟨p, serial p, c.deadline.toNat⟩]) := by
  have hself : (c.mcPcacheAdd p pkt).pkts p =
      some { pkt with info := { pkt.info with expire := c.now + c.mcExpire, id := p } } :=
    Function.update_self _ _ _
  have hother : ∀ q, q ≠ p → (c.mcPcacheAdd p pkt).pkts q = c.pkts q :=
    fun q hq => Function.update_of_ne hq _ _
  have hheld : (c.mcPcacheAdd p pkt).held serial =
      c.held serial ++ [⟨p, serial p, c.deadline.toNat⟩] := by
    show (c.mcPcache ++ [p]).map _ = _
    rw [List.map_append]
    refine congrArg₂ _ (List.map_congr_left fun q hq => ?_) ?_
    · unfold expireAt
      rw [hother q fun heq => hp.uncached (heq ▸ hq)]
    · rw [List.map_singleton, expireAt_eq hself]
      rfl
  refine ⟨(h.inv.mcPcacheAdd hp hhome).1, h.pcache, ?_, ?_, ?_⟩
  · intro q pkt' hq
    by_cases hqp : q = p
    · subst hqp
      cases hself.symm.trans hq
      exact hpkt
    · rw [hother q hqp] at hq
      exact h.addressed q pkt' hq
  · intro a ha
    rcases List.mem_append.mp ha with ha | ha
    · exact h.keyed a ha
    · rw [List.mem_singleton.mp ha]
      exact h.inv.ne_zero hp.live
  · rw [hheld]
    refine h.leases.grant (l := ⟨p, serial p, c.deadline.toNat⟩) ?_ rfl
    show p ∉ (c.held serial).map Lease.key
    rw [held_key]
    exact hp.uncached

theorem Leaves.departure_eq_nil {fate : Fate} (h : c.Leaves pkt fate) (n : ℕ) :
    fate.departure n = [] := by
  cases h with
  | freed => rfl
  | forwarded => rfl
  | left => rfl

/-- `emulate_nexthop` keeps the leases, and gives out a ticket when a packet leaves. -/
theorem Leased.nextHop (h : c.Leased serial away) (pkt : Packet) (hp : c.InHand p)
    (hpkt : pkt.Addressed)
    (hid : pkt.cachehost = 0 → pkt.info.id = 0) {r : Core × Fate} (hr : NextHop c p pkt r) :
    r.1.Leased serial (away ++ r.2.departure (serial p)) := by
  cases hr with
  | gone hfate =>
    dsimp only
    rw [hfate.departure_eq_nil, List.append_nil]
    exact (h.freePkt hp).around _ _ _
  | waiting =>
    have hset := h.setPkt { pkt with state := qBwDelay }.incr serial hp.uncached
      (fun _ _ => rfl) (h.inv.setPkt_inHand hp (fun _ _ hq => hq) (Or.inr hid)) hpkt
    show Core.Leased _ serial (away ++ [])
    rw [List.append_nil]
    exact Leased.around ⟨hset.inv.calendarInsert (hp.setPkt p _) _, hset.pcache, hset.addressed,
      hset.keyed, hset.leases⟩ _ _ _
  | @cached tab xtHop agg pkt' toAddr info hfrom hhome hm hpcache hinfo hexpire hxcp hcopy =>
    have hpkt' : pkt'.Addressed := fun _ m h' => hpkt hfrom m (hm ▸ h')
    show Core.Leased _ serial (away ++ [⟨info.id, serial p, info.expire.toNat⟩])
    rw [hinfo, hexpire]
    exact (h.mcPcacheAdd hp hhome hpkt').around _ _ _

/-- A packet comes back: it is taken off the cache, and its ticket is taken in. -/
theorem Leased.reunite (h : c.Leased serial away) (path : Option PathPtr) {cached : Packet}
    (hcached : c.pkts info.id = some cached) (hexpire : c.now < info.expire)
    (hout : Away away info)
    (hinv : (c.reunite path info cached).Inv none) :
    (c.reunite path info cached).Leased serial
      (Leases.redeem away info.id info.expire.toNat) := by
  have hsub := Leases.redeem_sublist away info.id info.expire.toNat
  have hother : ∀ q, q ≠ info.id → (c.reunite path info cached).pkts q = c.pkts q := by
    intro q hq
    unfold Core.reunite uncache
    rw [pkts_setPkt_of_ne _ _ hq]
    exact pkts_setPkt_of_ne c _ hq
  have hheld : (c.reunite path info cached).held serial =
      (c.held serial).filter fun l => l.key ≠ info.id := by
    have herase : c.mcPcache.erase info.id = c.mcPcache.filter fun q => q ≠ info.id := by
      rw [h.inv.nodup.erase_eq_filter]
      exact List.filter_congr fun q _ => by simp [bne, beq_eq_decide]
    show (c.mcPcache.erase info.id).map _ = _
    unfold held
    rw [herase, List.filter_map]
    refine List.map_congr_left fun q hq => ?_
    have hne : q ≠ info.id := of_decide_eq_true (List.mem_filter.mp hq).2
    unfold expireAt
    rw [hother q hne]
  refine ⟨hinv, h.pcache, ?_, fun a ha => h.keyed a (hsub.subset ha), ?_⟩
  · intro q pkt hq
    by_cases hqp : q = info.id
    · subst hqp
      unfold Core.reunite at hq
      cases (pkts_setPkt_self _ _ _).symm.trans hq
      exact h.addressed info.id cached hcached
    · rw [hother q hqp] at hq
      exact h.addressed q pkt hq
  · rw [hheld]
    exact h.leases.redeem_release (BitVec.lt_def.mp hexpire) hout

theorem Leased.nextOk (h : c.Leased serial away) (hsend : env.sendErr = 0) (p : Addr) :
    c.NextOk env p := by
  rintro - h₁ hop - - - - pkt a hpkt hhome - haddrs
  refine ⟨fun _ => ⟨?_, fun _ _ => hsend⟩, fun hpcache => ?_⟩
  · unfold ipAddrs at haddrs
    split at haddrs
    · cases haddrs
    · rename_i m hm
      split_ifs at haddrs
      cases haddrs
      exact h.addressed p pkt hpkt hhome m hm
  · rw [h.pcache] at hpcache
    cases hpcache

theorem Leased.finds (h : c.Leased serial away) {a : Lease Addr ℕ} (ha : a ∈ away)
    (hexpire : c.now.toNat < a.expire) : ∃ cached, a.key ∈ c.mcPcache ∧
      c.pkts a.key = some cached ∧ cached.info.id = a.key ∧
      cached.info.expire.toNat = a.expire ∧ a.tag = serial a.key := by
  obtain ⟨hmem, htag, hsame⟩ := mem_held.mp (h.leases.kept a ha hexpire)
  obtain ⟨cached, hcached, -, hid⟩ := h.inv.cached a.key hmem
  exact ⟨cached, hmem, hcached, hid, (hsame.trans (expireAt_eq hcached)).symm, htag⟩

/-! ## A turn of `remote_input` -/

/-- The record that a turn takes from the chain, when it is one of this core. -/
def returned (c : Core) (l : InputLoop) : Option RemotePacket :=
  match l.cursor.test, l.cursor.take with
  | .ok .body, .ok t => if c.Home t.info then some t.info else none
  | _, _ => none

theorem returned_eq (htest : l.cursor.test = .ok .body) (htake : l.cursor.take = .ok t)
    (hhome : c.Home t.info) : c.returned l = some t.info := by
  unfold returned
  rw [htest, htake]
  exact if_pos hhome

theorem Admits.leased (h : c.Leased serial away) (hzero : p ≠ 0) (hp : c.pkts p = none) {c' : Core}
    {host : BitVec 32} (fate : Fate) {back : Option RemotePacket}
    (hadmits : Admits c p t (c', .handed q host))
    (hback : c.Home t.info → back = some t.info ∧ Away away t.info) :
    c'.Leased (renumber serial n (Act.handed q host t.info fate).fresh) (takeIn away back) := by
  obtain ⟨hinv, -⟩ := hadmits.inv h.inv hzero hp
  cases hadmits with
  | @arrived path _ hid hhome =>
    have hhost : host ≠ 0 := by
      intro hhost
      obtain ⟨a, ha, hkey, -⟩ := (hback (hhome hhost)).2
      exact h.keyed a ha (hkey.trans (hid hhost))
    have hfresh : (Act.handed p host t.info fate).fresh = some p := if_neg fun h => hhost h.1
    rw [hfresh]
    exact (h.lose (takeIn_sublist away back)).setPkt _ _ (h.inv.not_mem_of_free hp)
      (fun q hq => Function.update_of_ne hq _ _) hinv fun hzero => absurd hzero hhost
  | @reunited path cached hhome hcached hmem hexpire hsame =>
    obtain ⟨rfl, haway⟩ := hback hhome
    have hid : t.info.id ≠ 0 := by
      obtain ⟨a, ha, hkey, -⟩ := haway
      exact fun hzero => h.keyed a ha (hkey.trans hzero)
    have hold : (Act.handed t.info.id 0 t.info fate).fresh = none := if_pos ⟨rfl, hid⟩
    rw [hold]
    exact h.reunite _ hcached hexpire haway hinv

theorem Leased.turnOk (h : c.Leased serial away) (hfits : l.cursor.Fits) (hsend : env.sendErr = 0)
    (hback : ∀ info, c.returned l = some info → Away away info) : c.TurnOk l env := by
  refine ⟨fun htest => absurd htest hfits.not_tooMany, fun p t htest hmalloc htake => ?_⟩
  obtain ⟨hzero, hp⟩ := mallocPkt_eq_some hmalloc
  refine ⟨fun hreturns hpasses => ?_, fun c' q host hcheck => ?_⟩
  · obtain ⟨a, ha, hkey, hsame⟩ := hback t.info (returned_eq htest htake hreturns.2.2.2)
    have hexpire : c.now.toNat < a.expire := hsame ▸ BitVec.lt_def.mp hpasses.1
    obtain ⟨cached, hmem, -⟩ := h.finds ha hexpire
    exact hkey ▸ hmem
  · have hadmits := (checkRecord_yields hp (h.inv.not_mem_of_free hp) l.ipLen).of_ok hcheck
    exact (hadmits.leased (n := 0) h hzero hp .freed fun hhome =>
      ⟨rfl, hback t.info (returned_eq htest htake hhome)⟩).nextOk hsend q

theorem Turns.leased (h : c.Leased serial away)
    (hback : ∀ info, c.returned l = some info → Away away info) {r : Core × Turn}
    (hr : Turns c l env r) :
    (System.afterTurn r.1 r.2).1.core.Leased
      (renumber serial n (System.afterTurn r.1 r.2).2.fresh)
      (takeIn away (c.returned l) ++ (System.afterTurn r.1 r.2).2.departure
        (renumber serial n (System.afterTurn r.1 r.2).2.fresh)) := by
  cases hr with
  | done =>
    show c.Leased serial (takeIn away (c.returned l) ++ [])
    rw [List.append_nil]
    exact h.lose (takeIn_sublist away _)
  | @next p q t c' pkt fdbk host r htest hmalloc htake hadmits hpkt hnext =>
    obtain ⟨hzero, hp⟩ := mallocPkt_eq_some hmalloc
    obtain ⟨-, hhand, pkt', hpkt', hid⟩ := hadmits.inv h.inv hzero hp
    cases hpkt.symm.trans hpkt'
    have hleased := hadmits.leased (n := n) h hzero hp r.2 fun hhome =>
      have hreturned := returned_eq htest htake hhome
      ⟨hreturned, hback t.info hreturned⟩
    exact hleased.nextHop (pkt.setFdbk fdbk) hhand (hleased.addressed q pkt hpkt) hid hnext

theorem Turns.fits (hfits : l.cursor.Fits) {r : Core × Turn} (hr : Turns c l env r) :
    ∀ l', (System.afterTurn r.1 r.2).1.input = some l' → l'.cursor.Fits := by
  cases hr with
  | done =>
    rintro l' ⟨⟩
  | next _ _ htake =>
    rintro l' ⟨⟩
    exact hfits.take htake

/-- A packet that comes home is the one that the record denotes. -/
theorem Turns.reunited {r : Core × Turn} (hr : Turns c l env r) {fate : Fate}
    (hact : (System.afterTurn r.1 r.2).2 = .handed q 0 info fate) (hid : info.id ≠ 0) :
    q = info.id ∧ c.now < info.expire ∧ c.returned l = some info := by
  cases hr with
  | done => cases hact
  | next htest hmalloc htake hadmits hpkt hnext =>
    cases hact
    cases hadmits with
    | arrived harrived => exact absurd (harrived rfl) hid
    | reunited hhome hcached hmem hexpire hsame =>
      exact ⟨rfl, hexpire, returned_eq htest htake hhome⟩

/-! ## A packet of a local node -/

theorem startPath_addressed {m : List Byte} (hlen : ipSize ≤ m.length)
    (hsrc : be32At m 12 &&& modelMask = modelSubnet) {pkt : Packet}
    (h : c.startPath m = .ok (some pkt)) : pkt.Addressed := by
  obtain ⟨path, -, hpath⟩ := Except.bind_eq_ok_iff.mp h
  obtain ⟨path', -, rfl⟩ := Option.map_eq_some_iff.mp (Except.ok.inj hpath)
  rintro - m' ⟨⟩
  have hlen₁ : 12 ≤ m.length := Nat.le_trans (by decide) hlen
  have hlen₂ : ∀ x, 16 ≤ (setBe32 m 12 x).length := by
    intro x
    unfold setBe32
    rw [List.length_append, List.length_append, List.length_take, Nat.min_eq_left hlen₁]
    show 16 ≤ 12 + 4 + _
    omega
  rw [be32At_setBe32_of_le (by decide) (hlen₂ _), be32At_setBe32_self hlen₁]
  intro hzero
  rw [(BitVec.or_eq_zero_iff.mp hzero).1] at hsrc
  exact absurd hsrc (by decide)

theorem Leased.filterIpinput (h : c.Leased serial away) (hsend : env.sendErr = 0) {m : List Byte}
    (hlen : ipSize ≤ m.length) (hsrc : be32At m 12 &&& modelMask = modelSubnet) :
    (c.filterIpinput env m).Yields Fault.Benign fun r =>
      ∀ act, act = (match r.2.2 with | none => Act.idle | some (p, fate) => .started p fate) →
        r.1.Leased (renumber serial n act.fresh)
          (away ++ act.departure (renumber serial n act.fresh)) := by
  have hidle : c.Leased serial (away ++ []) := by
    rw [List.append_nil]
    exact h
  unfold Core.filterIpinput
  cases hmalloc : c.mallocPkt env with
  | none =>
    rintro act rfl
    exact hidle
  | some p =>
    obtain ⟨hzero, hp⟩ := mallocPkt_eq_some hmalloc
    have hstart : (c.startPath m).Yields Fault.Benign fun start => ∀ pkt, start = some pkt →
        pkt.info.id = 0 ∧ pkt.Addressed := by
      cases hr : c.startPath m with
      | error f => exact (startPath_yields c m).of_error hr
      | ok start =>
        rintro pkt rfl
        exact ⟨((startPath_yields c m).of_ok hr pkt rfl).2.1, startPath_addressed hlen hsrc hr⟩
    refine hstart.bind fun start hstart => ?_
    cases start with
    | none =>
      rintro act rfl
      exact hidle
    | some pkt =>
      obtain ⟨hid, hpkt⟩ := hstart pkt rfl
      obtain ⟨hinv, hhand⟩ := h.inv.setPkt_fresh hzero hp (Or.inr fun _ => hid)
      have hleased := h.setPkt pkt (renumber serial n (some p))
        (h.inv.not_mem_of_free hp) (fun q hq => Function.update_of_ne hq _ _) hinv hpkt
      refine (emulateNexthop_yields Fault.benign_memory (hinv.loose hhand (pkts_setPkt_self c p pkt))
        (pkts_setPkt_self c p pkt) (hleased.nextOk hsend p).nextOr).bind ?_
      rintro r ⟨fdbk, -, hnext⟩ act rfl
      exact hleased.nextHop (pkt.setFdbk fdbk) hhand hpkt (fun _ => hid) hnext

/-! ## `remote_flush` -/

/-- The packets in front of the cache that have expired are gone. -/
structure Flushed (serial : Addr → ℕ) (c c' : Core) : Prop where
  inv : c'.Inv none
  held : c'.held serial = (c.held serial).dropWhile fun l => l.expire ≤ c.now.toNat
  pkts : ∀ q, c'.pkts q = if q ∈ c.mcPcache ∧ q ∉ c'.mcPcache then none else c.pkts q
  ticks : c'.ticks = c.ticks
  mcExpire : c'.mcExpire = c.mcExpire
  pcache : c'.pcache = c.pcache

theorem Flushed.of_same (hinv : c.Inv none)
    (hheld : c.held serial = (c.held serial).dropWhile fun l => l.expire ≤ c.now.toNat) :
    c.Flushed serial c :=
  ⟨hinv, hheld, fun _ => (if_neg fun h => h.2 h.1).symm, rfl, rfl, rfl⟩

theorem Flushed.subset {c' : Core} (h : c.Flushed serial c') : ∀ q ∈ c'.mcPcache, q ∈ c.mcPcache := by
  intro q hq
  rw [← held_key c' serial, h.held] at hq
  rw [← held_key c serial]
  exact ((List.dropWhile_sublist _).map _).subset hq

theorem Flushed.cons {rest : List Addr} (hinv : c.Inv none) (hcache : c.mcPcache = p :: rest)
    (hexpired : c.expireAt p ≤ c.now.toNat) {c' : Core}
    (h : ((c.uncache p pkt).freePkt p).Flushed serial c') : c.Flushed serial c' := by
  have hrest : ((c.uncache p pkt).freePkt p).mcPcache = rest := by
    show c.mcPcache.erase p = rest
    rw [hcache, List.erase_cons_head]
  have hnotin : p ∉ rest := (List.nodup_cons.mp (hcache ▸ hinv.nodup : (p :: rest).Nodup)).1
  have hself : ((c.uncache p pkt).freePkt p).pkts p = none := pkts_freePkt_self _ p
  have hother : ∀ q, q ≠ p → ((c.uncache p pkt).freePkt p).pkts q = c.pkts q := by
    intro q hq
    rw [pkts_freePkt_of_ne _ hq]
    exact Function.update_of_ne hq _ _
  have hheld : c.held serial =
      ⟨p, serial p, c.expireAt p⟩ :: ((c.uncache p pkt).freePkt p).held serial := by
    unfold Core.held
    rw [hcache, hrest, List.map_cons]
    refine congrArg _ (List.map_congr_left fun q hq => ?_)
    unfold expireAt
    rw [hother q fun heq => hnotin (heq ▸ hq)]
  refine ⟨h.inv, ?_, fun q => ?_, h.ticks, h.mcExpire, h.pcache⟩
  · rw [hheld, List.dropWhile_cons, if_pos (decide_eq_true hexpired)]
    exact h.held
  · rw [h.pkts q, hcache, hrest]
    by_cases hq : q = p
    · subst hq
      have hgone : q ∉ c'.mcPcache := fun hmem => hnotin (hrest ▸ h.subset q hmem)
      rw [if_neg fun hmem => hnotin hmem.1, if_pos ⟨List.mem_cons_self, hgone⟩, hself]
    · rw [hother q hq]
      refine if_congr (and_congr_left fun _ => ?_) rfl rfl
      rw [List.mem_cons, or_iff_right hq]

theorem flushLoop_flushed (serial : Addr → ℕ) (hinv : c.Inv none) (hn : c.mcPcache.length ≤ n) :
    ∃ c', flushLoop n c = .ok c' ∧ c.Flushed serial c' := by
  induction n generalizing c with
  | zero =>
    have hnil : c.mcPcache = [] := List.length_eq_zero_iff.mp (Nat.le_zero.mp hn)
    refine ⟨c, rfl, .of_same hinv ?_⟩
    unfold held
    rw [hnil]
    rfl
  | succ n ih =>
    unfold flushLoop
    cases hcache : c.mcPcache with
    | nil =>
      refine ⟨c, rfl, .of_same hinv ?_⟩
      unfold held
      rw [hcache]
      rfl
    | cons p rest =>
      have hmem : p ∈ c.mcPcache := hcache ▸ List.mem_cons_self
      obtain ⟨pkt, hpkt, -⟩ := hinv.cached p hmem
      dsimp only
      rw [packet_eq_ok.mpr hpkt]
      show ∃ c', (ite _ _ _ : Except Fault Core) = .ok c' ∧ _
      by_cases hlt : c.now < pkt.info.expire
      · rw [if_pos hlt]
        refine ⟨c, rfl, .of_same hinv ?_⟩
        unfold held
        rw [hcache, List.map_cons, List.dropWhile_cons_of_neg]
        rw [decide_eq_true_iff, expireAt_eq hpkt]
        exact Nat.not_le.mpr (BitVec.lt_def.mp hlt)
      · have hexpired : c.expireAt p ≤ c.now.toNat := by
          rw [expireAt_eq hpkt]
          exact Nat.not_lt.mp fun h => hlt (BitVec.lt_def.mpr h)
        obtain ⟨hinv₁, hhand⟩ := hinv.uncache hmem hpkt
        obtain ⟨pkt₁, hpkt₁⟩ := Option.isSome_iff_exists.mp hhand.live
        have hlen : ((c.uncache p pkt).freePkt p).mcPcache.length ≤ n := by
          show (c.mcPcache.erase p).length ≤ n
          rw [List.length_erase_of_mem hmem]
          omega
        obtain ⟨c', hc', hflushed⟩ := ih (hinv₁.freePkt hhand fun _ _ => by rintro ⟨⟩) hlen
        rw [if_neg hlt, mnUncachePkt_eq hmem hpkt]
        refine ⟨c', ?_, hflushed.cons hinv hcache hexpired⟩
        show ((c.uncache p pkt).mnFreePkt p >>= flushLoop n) = .ok c'
        rw [mnFreePkt_eq hhand.uncached hpkt₁]
        exact hc'

/-- **`remote_flush`.** Exactly the cached packets that have expired are taken off the cache and
freed. -/
theorem Leased.remoteFlush (h : c.Leased serial away) : ∃ c', c.remoteFlush = .ok c' ∧
    c'.Leased serial away ∧ c'.mcPcache = c.mcPcache.filter (fun p => c.now.toNat < c.expireAt p) ∧
    ∀ p, c'.pkts p =
      if p ∈ c.mcPcache ∧ c.expireAt p ≤ c.now.toNat then none else c.pkts p := by
  obtain ⟨c', hc', hflushed⟩ := flushLoop_flushed serial h.inv (Nat.le_refl _)
  have hheld : c'.held serial = (c.held serial).filter fun l => c.now.toNat < l.expire :=
    hflushed.held.trans (h.leases.sorted.dropWhile_le _)
  have hcache : c'.mcPcache = c.mcPcache.filter fun p => c.now.toNat < c.expireAt p := by
    rw [← held_key c' serial, hheld]
    unfold held
    rw [List.filter_map, List.map_map]
    exact List.map_id _
  have hmem : ∀ q, q ∈ c.mcPcache → (q ∉ c'.mcPcache ↔ c.expireAt q ≤ c.now.toNat) := by
    intro q hq
    rw [hcache, List.mem_filter, decide_eq_true_iff, not_and, Nat.not_lt]
    exact ⟨fun h => h hq, fun h _ => h⟩
  refine ⟨c', ?_, ⟨hflushed.inv, hflushed.pcache.trans h.pcache, ?_, h.keyed, ?_⟩, hcache,
    fun q => ?_⟩
  · unfold Core.remoteFlush
    rw [if_pos h.pcache]
    exact hc'
  · intro q pkt hq
    rw [hflushed.pkts q] at hq
    split_ifs at hq
    exact h.addressed q pkt hq
  · have hnow : c'.now = c.now := congrArg (BitVec.ofNat 32) hflushed.ticks
    have hdeadline : c'.deadline = c.deadline := by
      unfold deadline
      rw [hnow, hflushed.mcExpire]
    rw [hnow, hdeadline, hflushed.held]
    exact h.leases.flush
  · rw [hflushed.pkts q]
    exact if_congr (and_congr_right fun hq => hmem q hq) rfl rfl

end Core

/-! ## Runs -/

/-- A core with what it cannot see: which packet each struct stands for, and the departures whose
records have not come back. -/
structure Tracked where
  sys : System
  serial : Addr → ℕ
  /-- the number of the next packet -/
  next : ℕ
  away : List (Lease Addr ℕ)

namespace Tracked

/-- The record of this core that an event takes in. -/
def returned (t : Tracked) : CoreEvent → Option RemotePacket
  | .turn _ => t.sys.input.bind t.sys.core.returned
  | _ => none

/-- What the core cannot see after an event. -/
def after (t : Tracked) (e : CoreEvent) (r : System × Act) : Tracked where
  sys := r.1
  serial := renumber t.serial t.next r.2.fresh
  next := t.next + 1
  away := takeIn t.away (t.returned e) ++ r.2.departure (renumber t.serial t.next r.2.fresh)

def step (t : Tracked) (e : CoreEvent) : Option Tracked := (t.sys.step e).toOption.map (t.after e)

/-- The core after `hardclock`. -/
def ticked (t : Tracked) : Core := { t.sys.core with ticks := t.sys.core.ticks + 1 }

/-- What the kernel, the user and the network keep to. The ticks do not run back, neither `ticks`
nor `ticks + mc_expire`; every send succeeds; `MN_PCACHE` stays on and `mc_expire` as it is. A
datagram is no longer than one of `remote_aggregate`, or it carries one packet with its record; a
record that comes back to this core is one of a departure, and each comes back once. -/
def Honest (t : Tracked) : CoreEvent → Prop
  | .hardclock => t.sys.core.now ≤ t.ticked.now ∧ t.sys.core.deadline ≤ t.ticked.deadline
  | .packet env _ => env.sendErr = 0
  | .datagram payload =>
    payload.length ≤ mnMtu - udpiphdrSize ∨ (RemotePacket.decode payload).id = 0
  | .turn env => env.sendErr = 0 ∧
    ∀ info, t.returned (.turn env) = some info → Away t.away info
  | .hopclockPacket env => env.sendErr = 0
  | .configure pcache _ mcExpire _ => pcache = true ∧ mcExpire = t.sys.core.mcExpire
  | _ => True

/-- A core after `modelnet_modevent`, with these variables of the `sysctl` node `mc`. -/
def start (hz ticks : ℕ) (tab : PathTab) (xtHop : HopPtr → Option XcpPipe) (xcpInitialized : Bool)
    (aggregate : Bool) (mcExpire mcTtl : BitVec 32) : Tracked where
  sys :=
    { System.load hz ticks tab xtHop xcpInitialized with
      core := { (System.load hz ticks tab xtHop xcpInitialized).core with
        aggregate := aggregate, mcExpire := mcExpire, mcTtl := mcTtl } }
  serial := fun _ => 0
  next := 1
  away := []

structure Inv (t : Tracked) : Prop where
  leased : t.sys.core.Leased t.serial t.away
  fits : ∀ l, t.sys.input = some l → l.cursor.Fits
  serial : ∀ p, t.serial p < t.next
  away : ∀ a ∈ t.away, a.tag < t.next

variable {t t' : Tracked} {e : CoreEvent}

theorem renumber_lt {serial : Addr → ℕ} {n : ℕ} (h : ∀ p, serial p < n) (fresh : Option Addr)
    (p : Addr) : renumber serial n fresh p < n + 1 := by
  cases fresh with
  | none => exact Nat.lt_succ_of_lt (h p)
  | some q =>
    show Function.update serial q n p < n + 1
    by_cases hp : p = q
    · rw [hp, Function.update_self]
      exact Nat.lt_succ_self n
    · rw [Function.update_of_ne hp]
      exact Nat.lt_succ_of_lt (h p)

theorem tag_departure_lt {serial : Addr → ℕ} {n : ℕ} (h : ∀ p, serial p < n) (act : Act) :
    ∀ a ∈ act.departure serial, a.tag < n := by
  have hfate : ∀ (p : Addr) (fate : Fate), ∀ a ∈ fate.departure (serial p), a.tag < n := by
    intro p fate a ha
    unfold Fate.departure at ha
    split at ha
    · rw [List.mem_singleton.mp ha]
      exact h p
    · exact absurd ha List.not_mem_nil
  cases act with
  | idle => exact fun a ha => absurd ha List.not_mem_nil
  | started p fate => exact hfate p fate
  | handed p _ _ fate => exact hfate p fate
  | crossed p fate => exact hfate p fate

theorem Inv.after (h : t.Inv) {r : System × Act}
    (hleased : r.1.core.Leased (t.after e r).serial (t.after e r).away)
    (hfits : ∀ l, r.1.input = some l → l.cursor.Fits) : (t.after e r).Inv := by
  have hserial := renumber_lt h.serial r.2.fresh
  refine ⟨hleased, hfits, hserial, fun a ha => ?_⟩
  rcases List.mem_append.mp ha with ha | ha
  · exact Nat.lt_succ_of_lt (h.away a ((takeIn_sublist t.away _).subset ha))
  · exact tag_departure_lt hserial r.2 a ha

theorem Inv.after_idle (h : t.Inv) (hreturned : t.returned e = none) {s : System}
    (hleased : s.core.Leased t.serial t.away) (hfits : ∀ l, s.input = some l → l.cursor.Fits) :
    (t.after e (s, .idle)).Inv := by
  refine h.after ?_ hfits
  unfold Tracked.after
  rw [hreturned]
  show s.core.Leased t.serial (t.away ++ [])
  rw [List.append_nil]
  exact hleased

theorem hopclockEnd_leased {c : Core} {serial : Addr → ℕ} {away : List (Lease Addr ℕ)}
    (h : c.Leased serial away) :
    (System.hopclockEnd c).Yields Fault.Benign fun c' => c'.Leased serial away := by
  have hclean : (System.cleanAggregates c).Yields Fault.Benign fun c' =>
      c'.Leased serial away := by
    unfold System.cleanAggregates Aggregates.remoteAggregateClean
    split_ifs
    · exact (Aggregates.cleanLoop_yields Fault.benign_memory _ _).bind fun r _ =>
        ⟨h.inv, h.pcache, h.addressed, h.keyed, h.leases⟩
    · exact h
  unfold System.hopclockEnd
  refine hclean.bind fun c' hc' => ?_
  split_ifs
  · obtain ⟨c'', hflush, hleased, -⟩ := hc'.remoteFlush
    rw [hflush]
    exact hleased
  · exact hc'

/-- **Step.** An event that all parties are honest in keeps the invariant. -/
theorem step_inv (h : t.Inv) (he : t.Honest e) :
    (t.sys.step e).Yields Fault.Benign fun r => (t.after e r).Inv := by
  obtain ⟨⟨c, input⟩, serial, next, away⟩ := t
  have hc : c.Leased serial away := h.leased
  cases e with
  | hardclock =>
    refine h.after_idle rfl ⟨hc.inv, hc.pcache, hc.addressed, hc.keyed, ?_⟩ h.fits
    exact hc.leases.tick (BitVec.le_def.mp he.1) (BitVec.le_def.mp he.2)
  | configure pcache aggregate mcExpire mcTtl =>
    obtain ⟨rfl, rfl⟩ := he
    exact h.after_idle rfl ⟨hc.inv, rfl, hc.addressed, hc.keyed, hc.leases⟩ h.fits
  | packet env m =>
    cases input with
    | some l => exact h.after_idle rfl hc h.fits
    | none =>
      unfold System.step
      dsimp only
      split_ifs with hlocal
      · refine (hc.filterIpinput (n := next) he hlocal.1 hlocal.2.1).bind fun r hr => ?_
        exact h.after (hr _ rfl) fun l hl => by cases hl
      · exact h.after_idle rfl hc h.fits
  | datagram payload =>
    cases input with
    | some l => exact h.after_idle rfl hc h.fits
    | none =>
      refine h.after_idle rfl hc ?_
      rintro l ⟨⟩ bs ⟨⟩
      rcases he with hlen | hid
      · left
        show payload.length + 1 * remotePacketSize ≤ _
        omega
      · exact Or.inr ⟨Nat.le_refl 1, hid⟩
  | turn env =>
    cases input with
    | none => exact h.after_idle rfl hc h.fits
    | some l =>
      have hfits := h.fits l rfl
      refine (Core.turn_yields hc.inv (hc.turnOk hfits he.1 he.2)).bind fun r hr => ?_
      exact h.after (hr.leased hc he.2) (hr.fits hfits)
  | hopclockPacket env =>
    cases input with
    | some l => exact h.after_idle rfl hc h.fits
    | none =>
      unfold System.step
      dsimp only
      cases hslot : System.slot ⟨c, none⟩ with
      | nil => exact h.after_idle rfl hc h.fits
      | cons p rest =>
        dsimp only
        split_ifs with htick
        · obtain ⟨hinv, hhand⟩ := hc.inv.calendarRemove hslot
          obtain ⟨pkt, hpkt⟩ := Option.isSome_iff_exists.mp hhand.live
          have hleased : (c.calendarRemove (calendarSlot c.calendarTick) rest).Leased serial away :=
            ⟨hinv, hc.pcache, hc.addressed, hc.keyed, hc.leases⟩
          have hid : pkt.cachehost = 0 → pkt.info.id = 0 := hinv.id_eq_zero hhand hpkt
          refine (Core.emulateNexthop_yields Fault.benign_memory (hinv.loose hhand hpkt) hpkt
            (hleased.nextOk he p).nextOr).bind ?_
          rintro r ⟨fdbk, -, hnext⟩
          exact h.after (hleased.nextHop (pkt.setFdbk fdbk) hhand
            (hc.addressed p pkt hpkt) hid hnext) fun l hl => by cases hl
        · exact h.after_idle rfl hc h.fits
  | hopclockSlot =>
    cases input with
    | some l => exact h.after_idle rfl hc h.fits
    | none =>
      unfold System.step
      dsimp only
      split_ifs
      · exact h.after_idle rfl ⟨hc.inv, hc.pcache, hc.addressed, hc.keyed, hc.leases⟩ h.fits
      · exact h.after_idle rfl hc h.fits
  | hopclockEnd =>
    cases input with
    | some l => exact h.after_idle rfl hc h.fits
    | none =>
      unfold System.step
      dsimp only
      split_ifs
      · refine (hopclockEnd_leased hc).bind fun c' hc' => ?_
        exact h.after_idle rfl hc' h.fits
      · exact h.after_idle rfl hc h.fits
  | teTimeout h₁ pipe =>
    cases input with
    | some l => exact h.after_idle rfl hc h.fits
    | none => exact h.after_idle rfl ⟨hc.inv, hc.pcache, hc.addressed, hc.keyed, hc.leases⟩ h.fits

theorem start_inv (hz ticks : ℕ) (tab : PathTab) (xtHop : HopPtr → Option XcpPipe)
    (xcpInitialized aggregate : Bool) (mcExpire mcTtl : BitVec 32) :
    (start hz ticks tab xtHop xcpInitialized aggregate mcExpire mcTtl).Inv where
  leased :=
    ⟨System.load_inv hz ticks tab xtHop xcpInitialized, rfl, (fun _ _ hp => by cases hp),
      fun _ ha => absurd ha List.not_mem_nil, Leases.valid_nil _ _⟩
  fits := by rintro l ⟨⟩
  serial := fun _ => Nat.zero_lt_one
  away := fun _ ha => absurd ha List.not_mem_nil

/-- A record that is away and has not expired: its packet is in the cache, with its handle and its
expiry and still with its number, and `mc_reunite` goes on with this packet. -/
def Finds (t : Tracked) (info : RemotePacket) : Prop :=
  ∃ cached, info.id ∈ t.sys.core.mcPcache ∧ t.sys.core.pkts info.id = some cached ∧
    cached.info.id = info.id ∧ cached.info.expire = info.expire ∧
    (∀ a ∈ t.away, a.key = info.id → a.expire = info.expire.toNat → a.tag = t.serial info.id) ∧
    ∀ p pkt, t.sys.core.pkts p = none → pkt.info = info → info.hop ≠ 0 →
      (t.sys.core.setPkt p pkt).mcReunite p =
        .ok (t.sys.core.reunite pkt.path info cached, 0, info.id)

/-- The cache is sorted, `remote_flush` takes off and frees exactly what has expired, and a record
that comes back before it expires finds the packet it left from. -/
structure Reunites (t : Tracked) : Prop where
  sorted : t.sys.core.mcPcache.Pairwise fun p q => t.sys.core.expireAt p ≤ t.sys.core.expireAt q
  flushes : ∃ c', t.sys.core.remoteFlush = .ok c' ∧
    c'.mcPcache = t.sys.core.mcPcache.filter
      (fun p => t.sys.core.now.toNat < t.sys.core.expireAt p) ∧
    ∀ p, c'.pkts p =
      if p ∈ t.sys.core.mcPcache ∧ t.sys.core.expireAt p ≤ t.sys.core.now.toNat then none
      else t.sys.core.pkts p
  /-- no later packet gets a number that is in use -/
  numbered : (∀ p, t.serial p < t.next) ∧ ∀ a ∈ t.away, a.tag < t.next
  finds : ∀ info, Away t.away info → t.sys.core.now < info.expire → t.Finds info
  /-- the core reunites no other packet -/
  reunited : ∀ e s q info fate, t.Honest e → t.sys.step e = .ok (s, .handed q 0 info fate) →
    info.id ≠ 0 → q = info.id ∧ Away t.away info ∧ t.sys.core.now < info.expire

theorem Inv.finds (h : t.Inv) {info : RemotePacket} (haway : Away t.away info)
    (hexpire : t.sys.core.now < info.expire) : t.Finds info := by
  obtain ⟨a, ha, hkey, hsame⟩ := haway
  have hlt := BitVec.lt_def.mp hexpire
  obtain ⟨cached, hmem, hcached, hid, hsame', -⟩ := h.leased.finds ha (hsame ▸ hlt)
  rw [hkey] at hmem hcached hid
  have hexp : cached.info.expire = info.expire := BitVec.eq_of_toNat_eq (hsame'.trans hsame)
  refine ⟨cached, hmem, hcached, hid, hexp, ?_, ?_⟩
  · intro b hb hbkey hbsame
    obtain ⟨-, -, -, -, -, htag⟩ := h.leased.finds hb (hbsame ▸ hlt)
    exact htag.trans (congrArg t.serial hbkey)
  · rintro p pkt hp rfl hhop
    exact Core.mcReunite_eq hp (h.leased.inv.not_mem_of_free hp) hexpire hhop hmem hcached hid hexp

theorem handed_turn {s s' : System} {q : Addr} {host : BitVec 32} {info : RemotePacket} {fate : Fate}
    (h : s.step e = .ok (s', .handed q host info fate)) :
    ∃ env l, e = .turn env ∧ s.input = some l := by
  obtain ⟨c, input⟩ := s
  cases e with
  | hardclock => cases h
  | configure pcache aggregate mcExpire mcTtl => cases h
  | turn env =>
    cases input with
    | none => cases h
    | some l => exact ⟨env, l, rfl, rfl⟩
  | packet env m =>
    cases input with
    | some l => cases h
    | none =>
      unfold System.step at h
      dsimp only at h
      split_ifs at h
      · obtain ⟨⟨c', err, _ | ⟨p, fate⟩⟩, -, hr⟩ := Except.bind_eq_ok_iff.mp h
        · cases hr
        · cases hr
      · cases h
  | datagram payload =>
    cases input with
    | some l => cases h
    | none => cases h
  | hopclockPacket env =>
    cases input with
    | some l => cases h
    | none =>
      unfold System.step at h
      dsimp only at h
      split at h
      · cases h
      · split_ifs at h
        · obtain ⟨r, -, hr⟩ := Except.bind_eq_ok_iff.mp h
          cases hr
        · cases h
  | hopclockSlot =>
    cases input with
    | some l => cases h
    | none =>
      unfold System.step at h
      dsimp only at h
      split_ifs at h
      · cases h
      · cases h
  | hopclockEnd =>
    cases input with
    | some l => cases h
    | none =>
      unfold System.step at h
      dsimp only at h
      split_ifs at h
      · obtain ⟨r, -, hr⟩ := Except.bind_eq_ok_iff.mp h
        cases hr
      · cases h
  | teTimeout h₁ pipe =>
    cases input with
    | some l => cases h
    | none => cases h

theorem Inv.reunited (h : t.Inv) (he : t.Honest e) {s : System} {q : Addr} {info : RemotePacket}
    {fate : Fate} (hstep : t.sys.step e = .ok (s, .handed q 0 info fate)) (hid : info.id ≠ 0) :
    q = info.id ∧ Away t.away info ∧ t.sys.core.now < info.expire := by
  obtain ⟨env, l, rfl, hinput⟩ := handed_turn hstep
  have hreturned : ∀ info, t.sys.core.returned l = some info → Away t.away info := by
    intro info hback
    refine he.2 info ?_
    unfold returned
    rw [hinput]
    exact hback
  unfold System.step at hstep
  rw [hinput] at hstep
  obtain ⟨r, hr, hafter⟩ := Except.bind_eq_ok_iff.mp hstep
  have hturns := (Core.turn_yields h.leased.inv
    (h.leased.turnOk (h.fits l hinput) he.1 hreturned)).of_ok hr
  obtain ⟨hq, hexpire, hback⟩ :=
    hturns.reunited (congrArg Prod.snd (Except.ok.inj hafter)) hid
  exact ⟨hq, hreturned info hback, hexpire⟩

theorem Inv.reunites (h : t.Inv) : t.Reunites where
  sorted := by
    have hsorted : (t.sys.core.held t.serial).Pairwise fun a b => a.expire ≤ b.expire :=
      h.leased.leases.sorted
    unfold Core.held at hsorted
    exact (List.pairwise_map (R := fun a b : Lease Addr ℕ => a.expire ≤ b.expire)).mp hsorted
  flushes := by
    obtain ⟨c', hflush, -, hcache, hpkts⟩ := h.leased.remoteFlush
    exact ⟨c', hflush, hcache, hpkts⟩
  numbered := ⟨h.serial, h.away⟩
  finds := fun _ haway hexpire => h.finds haway hexpire
  reunited := fun _ _ _ _ _ he hstep hid => h.reunited he hstep hid

/-- **A record finds its packet.** In every run in which all parties are honest. -/
theorem reunites_run {hz ticks : ℕ} {tab : PathTab} {xtHop : HopPtr → Option XcpPipe}
    {xcpInitialized aggregate : Bool} {mcExpire mcTtl : BitVec 32} {es : List CoreEvent}
    (hok : PartialRun.Guarded step Honest
      (start hz ticks tab xtHop xcpInitialized aggregate mcExpire mcTtl) es)
    (hrun : PartialRun.run step
      (start hz ticks tab xtHop xcpInitialized aggregate mcExpire mcTtl) es = some t) :
    t.Reunites := by
  have hinv : t.Inv := by
    refine PartialRun.run_invariant_guarded (I := Inv) ?_ hok hrun
      (start_inv hz ticks tab xtHop xcpInitialized aggregate mcExpire mcTtl)
    intro t e t' h he hstep
    obtain ⟨r, hr, rfl⟩ := Option.map_eq_some_iff.mp hstep
    exact (step_inv h he).of_ok (Except.toOption_eq_some_iff.mp hr)
  exact hinv.reunites

/-- The record of `System.ipPacket` behind the hop of the next core. -/
def recordBack : RemotePacket where
  id := 0x100
  expire := 1001
  len := 20
  waitTime := 0
  src := 0x0a000001
  dst := 0x0a000002
  hop := 2
  ttl := 39
  xcpCwnd := 0
  xcpSrcFdbk := 0
  xcpRflctFdbk := 0
  xcpRtt := 100

/-- A packet crosses a hop of this core, leaves for the next core and comes back. -/
def roundTrip : List CoreEvent :=
  [.packet (System.plainEnv 0x100) System.ipPacket, .hardclock,
    .hopclockPacket (System.plainEnv 0x200), .datagram recordBack.encode,
    .turn (System.plainEnv 0x200)]

theorem reunites_roundTrip :
    ∃ t, PartialRun.run step (start 1000 0 (System.twoNodes [0, 0xc0a80002]) (fun _ => none) false
      true 1000 40) roundTrip = some t ∧ t.Reunites := by
  have hsome : (PartialRun.run step (start 1000 0 (System.twoNodes [0, 0xc0a80002])
      (fun _ => none) false true 1000 40) roundTrip).isSome := rfl
  obtain ⟨t, ht⟩ := Option.isSome_iff_exists.mp hsome
  have hok : PartialRun.Guarded step Honest (start 1000 0 (System.twoNodes [0, 0xc0a80002])
      (fun _ => none) false true 1000 40) roundTrip := by
    refine ⟨rfl, fun s₁ hs₁ => ⟨?_, fun s₂ hs₂ => ⟨rfl, fun s₃ hs₃ => ⟨Or.inl (by decide),
      fun s₄ hs₄ => ⟨⟨rfl, ?_⟩, fun _ _ => trivial⟩⟩⟩⟩⟩
    · cases hs₁
      exact ⟨by decide, by decide⟩
    · cases hs₁
      cases hs₂
      cases hs₃
      cases hs₄
      intro info hinfo
      have hback : some recordBack = some info := hinfo
      cases hback
      exact ⟨_, List.Mem.head _, rfl, rfl⟩
  exact ⟨t, ht, reunites_run hok ht⟩

end Tracked

end Modelnet.FreeBSD

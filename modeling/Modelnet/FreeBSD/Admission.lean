import Modelnet.FreeBSD.NextHop

/-!
# The checks of `remote_input`

What the checks do with a record, seen from the core in front of its `malloc` (`Admits`): a record
that is rejected leaves nothing behind but its struct, a record without a packet in the cache of
this core goes on in its struct, and a packet that comes home goes on in its old one.
-/

namespace Modelnet.FreeBSD

open Modelnet

namespace Core

variable {c : Core} {p : Addr} {pkt : Packet} {info : RemotePacket} {t : Cursor.Taken}

/-- The record passes the tests of `mc_reunite`, from a struct at `p`. -/
def Passes (c : Core) (p : Addr) (info : RemotePacket) : Prop :=
  c.now < info.expire ∧ info.hop ≠ 0 ∧
    (info.id = p ∨ ∃ cached, c.pkts info.id = some cached ∧ cached.info.id = info.id ∧
      cached.info.expire = info.expire)

/-- A packet that has come home: it is off the cache again, at its new place on the path. -/
def reunite (c : Core) (path : Option PathPtr) (info : RemotePacket) (cached : Packet) : Core :=
  (c.uncache info.id cached).setPkt info.id
    { cached with path := path, info := { cached.info with hop := info.hop, id := 0 } }

/-- `free` puts the heap back to where it was before `malloc`. -/
theorem freePkt_setPkt_fresh (hp : c.pkts p = none) (pkt : Packet) :
    (c.setPkt p pkt).freePkt p = c := by
  unfold freePkt setPkt
  dsimp only
  rw [Function.update_idem, ← hp, Function.update_eq_self]

theorem reunite_fresh (hp : c.pkts p = none) (hne : info.id ≠ p) (path : Option PathPtr)
    (cached : Packet) :
    ((c.setPkt p pkt).reunite path info cached).freePkt p = c.reunite path info cached := by
  have hpkts : ∀ a b : Packet, Function.update (Function.update (Function.update (Function.update
      c.pkts p (some pkt)) info.id (some a)) info.id (some b)) p none =
        Function.update (Function.update c.pkts info.id (some a)) info.id (some b) := by
    intro a b
    funext q
    by_cases hq : q = p
    · subst hq
      rw [Function.update_self, Function.update_of_ne (Ne.symm hne),
        Function.update_of_ne (Ne.symm hne), hp]
    · rw [Function.update_of_ne hq, Function.update_idem, Function.update_idem]
      by_cases hid : q = info.id
      · rw [hid, Function.update_self, Function.update_self]
      · rw [Function.update_of_ne hid, Function.update_of_ne hid, Function.update_of_ne hq]
  unfold reunite uncache freePkt setPkt
  dsimp only
  rw [hpkts]

/-- `mc_reunite` from `MN_UNCACHE_PKT` on. -/
def mcReuniteTail (c : Core) (p : Addr) (pkt cached : Packet) : Except Fault (Core × ℤ × Addr) := do
  let c ← c.mnUncachePkt pkt.info.id
  let c := c.setPkt pkt.info.id { cached with
    path := pkt.path, info := { cached.info with hop := pkt.info.hop, id := 0 } }
  let c ← c.mnFreePkt p
  return (c, 0, pkt.info.id)

theorem mcReuniteTail_eq (hp : c.pkts p = none) (hmem : p ∉ c.mcPcache)
    (hcache : pkt.info.id ∈ c.mcPcache) {cached : Packet}
    (hcached : (c.setPkt p pkt).pkts pkt.info.id = some cached) :
    mcReuniteTail (c.setPkt p pkt) p pkt cached =
      .ok (c.reunite pkt.path pkt.info cached, 0, pkt.info.id) := by
  have hne : pkt.info.id ≠ p := fun heq => hmem (heq ▸ hcache)
  have hlive : ((c.setPkt p pkt).reunite pkt.path pkt.info cached).pkts p = some pkt := by
    unfold reunite uncache setPkt
    dsimp only
    rw [Function.update_of_ne hne.symm, Function.update_of_ne hne.symm, Function.update_self]
  have hfree : ((c.setPkt p pkt).reunite pkt.path pkt.info cached).mnFreePkt p =
      .ok (c.reunite pkt.path pkt.info cached) := by
    rw [mnFreePkt_eq (fun h => hmem (List.mem_of_mem_erase h)) hlive, reunite_fresh hp hne]
  unfold mcReuniteTail
  rw [mnUncachePkt_eq (c := c.setPkt p pkt) hcache hcached]
  show (((c.setPkt p pkt).reunite pkt.path pkt.info cached).mnFreePkt p >>= _ :
    Except Fault (Core × ℤ × Addr)) = _
  rw [hfree]
  rfl

/-- A record that finds its packet in the cache is reunited with it. -/
theorem mcReunite_eq (hp : c.pkts p = none) (hmem : p ∉ c.mcPcache) (hexpire : c.now < pkt.info.expire)
    (hhop : pkt.info.hop ≠ 0) (hcache : pkt.info.id ∈ c.mcPcache) {cached : Packet}
    (hcached : c.pkts pkt.info.id = some cached) (hid : cached.info.id = pkt.info.id)
    (hsame : cached.info.expire = pkt.info.expire) :
    (c.setPkt p pkt).mcReunite p =
      .ok (c.reunite pkt.path pkt.info cached, 0, pkt.info.id) := by
  have hne : pkt.info.id ≠ p := fun heq => hmem (heq ▸ hcache)
  have hcached' : (c.setPkt p pkt).pkts pkt.info.id = some cached := by
    rwa [pkts_setPkt_of_ne c pkt hne]
  unfold mcReunite
  rw [packet_setPkt]
  show (ite _ _ _ : Except Fault (Core × ℤ × Addr)) = _
  rw [if_neg (show ¬ pkt.info.expire ≤ (c.setPkt p pkt).now from BitVec.not_le.mpr hexpire),
    if_neg hhop, packet_eq_ok.mpr hcached']
  show (ite _ _ _ : Except Fault (Core × ℤ × Addr)) = _
  rw [if_neg (not_or.mpr ⟨not_not.mpr hid, not_not.mpr hsame⟩),
    if_neg (show ¬ (c.setPkt p pkt).mcPcache = [] from List.ne_nil_of_mem hcache)]
  exact mcReuniteTail_eq hp hmem hcache hcached'

/-- The tests of `mc_reunite` on the struct at `p`. A record that is stale, or has no hop behind it,
or is not that of the packet its handle names, is rejected. -/
theorem mcReunite_tests {E : Fault → Prop} {P : Core × ℤ × Addr → Prop} (hE : E .memory)
    (hrejected : P (c.setPkt p pkt, 1, p))
    (htail : ∀ cached, c.now < pkt.info.expire → pkt.info.hop ≠ 0 →
      (c.setPkt p pkt).pkts pkt.info.id = some cached → cached.info.id = pkt.info.id →
      cached.info.expire = pkt.info.expire →
      (mcReuniteTail (c.setPkt p pkt) p pkt cached).Yields E P) :
    ((c.setPkt p pkt).mcReunite p).Yields E P := by
  unfold mcReunite
  rw [packet_setPkt]
  show (ite _ _ _ : Except Fault (Core × ℤ × Addr)).Yields _ _
  by_cases hexpire : pkt.info.expire ≤ (c.setPkt p pkt).now
  · rw [if_pos hexpire]
    exact hrejected
  rw [if_neg hexpire]
  by_cases hhop : pkt.info.hop = 0
  · rw [if_pos hhop]
    exact hrejected
  rw [if_neg hhop]
  refine (packet_yields hE _ pkt.info.id).bind fun cached hcached => ?_
  by_cases hfishy : cached.info.id ≠ pkt.info.id ∨ cached.info.expire ≠ pkt.info.expire
  · rw [if_pos hfishy]
    exact hrejected
  rw [if_neg hfishy]
  obtain ⟨hid, hsame⟩ := not_or.mp hfishy
  by_cases hnil : (c.setPkt p pkt).mcPcache = []
  · rw [if_pos hnil]
    exact hE
  rw [if_neg hnil]
  exact htail cached (BitVec.not_le.mp hexpire) hhop hcached (not_not.mp hid) (not_not.mp hsame)

/-- `mc_reunite` on the struct at `p`, which `malloc` has just returned. -/
theorem mcReunite_yields (hp : c.pkts p = none) (hmem : p ∉ c.mcPcache) :
    ((c.setPkt p pkt).mcReunite p).Yields
      (fun f => f.Benign ∨ c.Passes p pkt.info ∧ pkt.info.id ∉ c.mcPcache) fun r =>
      r = (c.setPkt p pkt, 1, p) ∨
        ∃ cached, c.pkts pkt.info.id = some cached ∧ pkt.info.id ∈ c.mcPcache ∧
          c.now < pkt.info.expire ∧ cached.info.expire = pkt.info.expire ∧
          r = (c.reunite pkt.path pkt.info cached, 0, pkt.info.id) := by
  refine mcReunite_tests (Or.inl Fault.benign_memory) (Or.inl rfl) ?_
  intro cached hlt hhop hcached hid hsame
  have hheap : pkt.info.id ≠ p → c.pkts pkt.info.id = some cached := by
    intro hne
    rwa [pkts_setPkt_of_ne c pkt hne] at hcached
  by_cases hcache : pkt.info.id ∈ c.mcPcache
  · have hne : pkt.info.id ≠ p := fun heq => hmem (heq ▸ hcache)
    rw [mcReuniteTail_eq hp hmem hcache hcached]
    exact Or.inr ⟨cached, hheap hne, hcache, hlt, hsame, rfl⟩
  · refine Except.Yields.bind (P := fun _ => False) ?_ fun _ h => h.elim
    unfold mnUncachePkt
    rw [if_pos (show pkt.info.id ∉ (c.setPkt p pkt).mcPcache from hcache)]
    refine Or.inr ⟨⟨hlt, hhop, ?_⟩, hcache⟩
    by_cases hne : pkt.info.id = p
    · exact Or.inl hne
    · exact Or.inr ⟨cached, hheap hne, hid, hsame⟩

/-- The record belongs to a packet of this core. -/
def Home (c : Core) (info : RemotePacket) : Prop :=
  ∃ path h hop, c.lookupPath (info.src &&& ~~~modelForcebit) info.dst = .ok (some path) ∧
    c.readPath (some path) = .ok (some h) ∧ c.tab.hops h = some hop ∧ hop.emulator = 0

/-- The record reaches `mc_reunite`. -/
def Returns (c : Core) (ipLen : ℕ) (info : RemotePacket) : Prop :=
  info.id ≠ 0 ∧ ¬ (¬ c.aggregate ∧ ipLen ≠ remotePacketSize + udpiphdrSize) ∧
    ¬ info.ttl.sle 0 ∧ c.Home info

/-- What the checks make of a record with the struct `p`, from the core in front of its `malloc`. -/
inductive Admits (c : Core) (p : Addr) (t : Cursor.Taken) : Core × Verdict → Prop
  | rejected {pkt : Packet} {err : ℤ} : Admits c p t (c.setPkt p pkt, .rejected err)
  | arrived {path : PathPtr} {host : BitVec 32} (hid : host = 0 → t.info.id = 0)
      (hhome : host = 0 → c.Home t.info) :
      Admits c p t (c.arrive p t path host, .handed p host)
  | reunited {path : PathPtr} {cached : Packet} (hhome : c.Home t.info)
      (hcached : c.pkts t.info.id = some cached) (hmem : t.info.id ∈ c.mcPcache) (hexpire : c.now < t.info.expire)
      (hsame : cached.info.expire = t.info.expire) :
      Admits c p t (c.reunite (some { path with off := t.info.hop.toNat }) t.info cached,
        .handed t.info.id 0)

/-- The checks, on a struct that `malloc` has just returned. -/
theorem checkRecord_yields (hp : c.pkts p = none) (hmem : p ∉ c.mcPcache) (ipLen : ℕ) :
    ((c.setPkt p pkt).checkRecord ipLen p t).Yields
      (fun f => f.Benign ∨ c.Returns ipLen t.info ∧ c.Passes p t.info ∧ t.info.id ∉ c.mcPcache)
      (Admits c p t) := by
  unfold checkRecord
  by_cases hsize : t.info.id ≠ 0 ∧ ¬ (c.setPkt p pkt).aggregate ∧
      ipLen ≠ remotePacketSize + udpiphdrSize
  · rw [if_pos hsize]
    exact .rejected
  rw [if_neg hsize]
  by_cases httl : t.info.ttl.sle 0
  · rw [if_pos httl]
    exact .rejected
  rw [if_neg httl]
  refine (lookupPath_yields (Or.inl Fault.benign_memory) _ _ _).bind fun path hpath => ?_
  cases path with
  | none => exact .rejected
  | some path =>
    refine (readPath_yields (Or.inl Fault.benign_memory) _ _).bind fun curhop hcurhop => ?_
    cases curhop with
    | none => exact Or.inl Fault.benign_memory
    | some h =>
      refine (hop_yields (Or.inl Fault.benign_memory) _ h).bind fun hop hhop => ?_
      have harrive : (c.setPkt p pkt).arrive p t path hop.emulator =
          c.arrive p t path hop.emulator := setPkt_setPkt c p pkt _
      have hhome : hop.emulator = 0 → c.Home t.info :=
        fun hlocal => ⟨path, h, hop, hpath, hcurhop, hhop, hlocal⟩
      show (ite _ _ _ : Except Fault (Core × Verdict)).Yields _ _
      rw [harrive]
      by_cases hback : hop.emulator = 0 ∧ t.info.id ≠ 0
      · rw [if_pos hback]
        have hreturns : c.Returns ipLen t.info :=
          ⟨hback.2, fun h => hsize ⟨hback.2, h⟩, httl, hhome hback.1⟩
        refine Except.Yields.bind ((mcReunite_yields hp hmem).imp_error ?_) ?_
        · rintro f (hf | hf)
          · exact Or.inl hf
          · exact Or.inr ⟨hreturns, hf⟩
        · rintro r (rfl | ⟨cached, hcached, hcache, hexpire, hsame, rfl⟩)
          · exact .rejected
          · exact .reunited (hhome hback.1) hcached hcache hexpire hsame
      · rw [if_neg hback]
        exact .arrived (fun hhost => by_contra fun hid => hback ⟨hhost, hid⟩) hhome

end Core

end Modelnet.FreeBSD

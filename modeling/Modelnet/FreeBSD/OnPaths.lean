import Modelnet.WalkablePaths
import Modelnet.FreeBSD.Walking
import Modelnet.FreeBSD.PacketCache

/-!
# Packets on their paths

The pointer of a packet and its count of hops start together, at the first hop or at the hop that a
record names, and `emulate_nexthop` advances both (`Packet.InStep`). So whatever the tables have
been loaded with, every packet that a core keeps between two events is one that has crossed a hop of
its path and stands at a position of it (`OnPaths`): a record that names a position beyond the path
does not get through the call of `emulate_nexthop` that it sets off. `state` is that of a packet
just received or of one whose bandwidth and delay have been queued together.
-/

namespace Modelnet.FreeBSD

open Modelnet PathTab

/-! ## The tables -/

section Tables

variable {hz : ℕ} {t t' : PathTab}

theorem PathentryWrite.length_path_lt (w : PathentryWrite) : w.path.length < 2 ^ 31 := by
  unfold PathentryWrite.path
  rw [List.length_map, List.length_range]
  have hlt := w.pathlen.toInt_lt
  omega

/-- A write to one of the nodes leaves paths that can be walked. -/
theorem walkable_handle (h : t.Walkable) (hl : t.Ledger) (w : TableWrite) :
    (handle hz t w).tab.Walkable := by
  cases w with
  | nodetable w =>
    rw [handle]
    unfold sysctlNodetable
    dsimp only
    split_ifs
    · exact h
    · exact h
    · exact h.congr rfl rfl
    · exact h.congr rfl rfl
  | nodecount w =>
    rw [handle]
    unfold sysctlNodecount
    dsimp only
    split_ifs
    · exact h
    · exact h.resize _ _ _
    · exact h.resize _ _ _
    · exact h
  | hoptable w =>
    by_cases hloads : w.Loads
    · have hload : (t.alloc.load hz w.load).1.Walkable :=
        Walkable.load (t := t.alloc) (h.congr rfl rfl) hz w.load
      rw [handle, sysctlHophandle_of_loads hloads]
      dsimp only
      split_ifs
      · exact hload.kfree (not_installed_of_none
          (loadHoptable_pathtable hz t.alloc _ _ _ _ _))
      · exact hload
    · rw [handle, sysctlHophandle_of_not_loads hloads]
      exact h
  | pathentry w =>
    rw [handle]
    unfold sysctlPathentry
    cases hhop : t.hoptable with
    | none =>
      dsimp only
      split_ifs <;> exact h
    | some hoptab =>
      have hstored := h.stored hl hoptab w.srcNode.toInt w.dstNode.toInt w.length_path_lt w.pathOk
      unfold PathTab.stored at hstored
      dsimp only at hstored ⊢
      split_ifs at hstored ⊢
      all_goals first | exact h | exact hstored

/-- **Every table** that the handlers leave, with packets in between, has paths that can be
walked. -/
theorem walkable_of_run {es : List TableEvent}
    (hrun : PartialRun.run (tableStep hz) PathTab.empty es = some t) : t.Walkable := by
  refine (PartialRun.run_invariant (I := fun t => t.Walkable ∧
    ∃ es, PartialRun.run (tableStep hz) PathTab.empty es = some t) ?_ hrun
    ⟨walkable_empty, [], rfl⟩).1
  rintro t e t' ⟨h, es, hes⟩ hstep
  refine ⟨?_, es ++ [e], ?_⟩
  · cases e with
    | packet ptr c =>
      obtain ⟨hop, -, hstep⟩ := Option.bind_eq_some_iff.mp hstep
      obtain ⟨r, -, rfl⟩ := Option.map_eq_some_iff.mp hstep
      exact h.congr rfl rfl
    | hopmod hopidx r =>
      unfold tableStep at hstep
      dsimp only at hstep
      split_ifs at hstep
      · cases hstep
        exact h
      · obtain ⟨b, -, hstep⟩ := Option.bind_eq_some_iff.mp hstep
        obtain ⟨hop, -, rfl⟩ := Option.map_eq_some_iff.mp hstep
        exact h.congr rfl rfl
    | write w =>
      cases hstep
      exact walkable_handle h (ledger_of_run hes) w
  · rw [PartialRun.run_concat, hes]
    exact hstep

end Tables

/-! ## Packets -/

/-- The pointer of a packet is as many hops into the path as the packet has counted. -/
structure Packet.InStep (t : PathTab) (arr : ℕ) (pkt : Packet) : Prop where
  path : pkt.path = some ⟨arr, pkt.info.hop.toNat⟩
  array : (t.pathArrs arr).isSome
  state : pkt.state = 0 ∨ pkt.state = qBwDelay

/-- The packet has crossed a hop, and stands at a position of its path. -/
def Packet.Underway (t : PathTab) (pkt : Packet) : Prop :=
  ∃ arr, pkt.InStep t arr ∧ pkt.info.hop ≠ 0 ∧ pkt.info.hop.toNat ≤ t.pathlen arr

variable {t t' : PathTab} {arr : ℕ} {pkt pkt' : Packet}

theorem Packet.InStep.samePlace (h : pkt.InStep t arr) (htab : SamePaths t t')
    (hsame : pkt.SamePlace pkt') : pkt'.InStep t' arr := by
  refine ⟨?_, ?_, ?_⟩
  · rw [hsame.path, hsame.hop]
    exact h.path
  · rw [htab.pathArrs]
    exact h.array
  · rcases hsame.state with heq | heq
    · rw [heq]
      exact h.state
    · exact Or.inr heq

theorem Packet.Underway.samePlace (h : pkt.Underway t) (htab : SamePaths t t')
    (hsame : pkt.SamePlace pkt') : pkt'.Underway t' := by
  obtain ⟨arr, hin, hne, hle⟩ := h
  refine ⟨arr, hin.samePlace htab hsame, ?_, ?_⟩
  · rw [hsame.hop]
    exact hne
  · rw [hsame.hop, pathlen_congr htab.pathArrs]
    exact hle

theorem Packet.InStep.ahead (h : pkt.InStep t arr) (hwalk : t.Walkable) {path : PathPtr} {ptr : HopPtr}
    (hpath : pkt.path = some path) (hread : t.readPath path = some (some ptr))
    (hahead : pkt.Ahead path pkt') : pkt'.Underway t := by
  cases h.path.symm.trans hpath
  have hlt : pkt.info.hop.toNat < t.pathlen arr := hwalk.lt_of_readPath hread
  have hlen := hwalk.pathlen_lt arr
  -- the count does not wrap
  have hhop : pkt'.info.hop.toNat = pkt.info.hop.toNat + 1 := by
    rw [hahead.hop, BitVec.toNat_add]
    show (pkt.info.hop.toNat + 1) % 2 ^ 32 = _
    exact Nat.mod_eq_of_lt (by omega)
  refine ⟨arr, ⟨?_, h.array, ?_⟩, ?_, ?_⟩
  · rw [hhop]
    exact hahead.path
  · rcases hahead.state with heq | heq
    · rw [heq]
      exact h.state
    · exact Or.inr heq
  · intro hzero
    rw [hzero] at hhop
    exact absurd hhop (Nat.succ_ne_zero _).symm
  · omega

namespace Core

/-- Every packet but the one at `p` is underway. -/
structure OnPathsBut (p : Addr) (c : Core) : Prop where
  walkable : c.tab.Walkable
  underway : ∀ q pkt, q ≠ p → c.pkts q = some pkt → pkt.Underway c.tab

structure OnPaths (c : Core) : Prop where
  walkable : c.tab.Walkable
  underway : ∀ q pkt, c.pkts q = some pkt → pkt.Underway c.tab

/-- The packet at `p` may be anywhere, or before its first hop, but its pointer and its count
agree. -/
def InFront (p : Addr) (c : Core) : Prop :=
  ∀ pkt, c.pkts p = some pkt → ∃ arr, pkt.InStep c.tab arr

variable {c c' : Core} {env : Env} {p q : Addr} {path : PathPtr}

theorem OnPaths.congr (h : c.OnPaths) (htab : c'.tab = c.tab) (hpkts : c'.pkts = c.pkts) :
    c'.OnPaths := by
  refine ⟨htab ▸ h.walkable, fun q pkt hpkt => ?_⟩
  rw [htab]
  exact h.underway q pkt (hpkts ▸ hpkt)

theorem OnPaths.but (h : c.OnPaths) (p : Addr) : c.OnPathsBut p :=
  ⟨h.walkable, fun q pkt _ hpkt => h.underway q pkt hpkt⟩

theorem OnPaths.inFront (h : c.OnPaths) (p : Addr) : c.InFront p := fun pkt hpkt => by
  obtain ⟨arr, hin, -, -⟩ := h.underway p pkt hpkt
  exact ⟨arr, hin⟩

theorem OnPathsBut.onPaths (h : c.OnPathsBut p) (hnone : c.pkts p = none) : c.OnPaths := by
  refine ⟨h.walkable, fun q pkt hpkt => h.underway q pkt ?_ hpkt⟩
  rintro rfl
  rw [hnone] at hpkt
  cases hpkt

theorem OnPathsBut.setPkt (h : c.OnPathsBut p) (pkt : Packet) : (c.setPkt p pkt).OnPathsBut p := by
  refine ⟨h.walkable, fun q pkt' hq hpkt' => h.underway q pkt' hq ?_⟩
  rwa [pkts_setPkt_of_ne c pkt hq] at hpkt'

theorem OnPathsBut.keeps (h : c.OnPathsBut p) (htab : SamePaths c.tab c'.tab)
    (hkeeps : ∀ q, q ≠ p → KeepsPlace c.pkts c'.pkts q) : c'.OnPathsBut p := by
  refine ⟨h.walkable.congr htab.pathArrs htab.pathtable, fun q pkt' hq hpkt' => ?_⟩
  obtain ⟨pkt, hpkt, hsame⟩ := hkeeps q hq pkt' hpkt'
  exact (h.underway q pkt hq hpkt).samePlace htab hsame

theorem OnPathsBut.stays (h : c.OnPathsBut p) (hstays : Stays c c') : c'.OnPathsBut p :=
  h.keeps hstays.tab fun q _ => hstays.packets q

theorem OnPaths.stays (h : c.OnPaths) (hstays : Stays c c') : c'.OnPaths := by
  refine ⟨h.walkable.congr hstays.tab.pathArrs hstays.tab.pathtable, fun q pkt' hpkt' => ?_⟩
  obtain ⟨pkt, hpkt, hsame⟩ := hstays.packets q pkt' hpkt'
  exact (h.underway q pkt hpkt).samePlace hstays.tab hsame

/-- **One call** of `emulate_nexthop`: the packet is gone or underway. -/
theorem emulateNexthop_onPaths (h : c.OnPathsBut p) (hp : c.InFront p) (env : Env) :
    (c.emulateNexthop env p).Yields (fun _ => True) fun r => r.1.OnPaths := by
  refine (emulateNexthop_moves c env p).imp fun r hmoves => ?_
  have hbut : r.1.OnPathsBut p := h.keeps hmoves.tab hmoves.others
  refine ⟨hbut.walkable, fun q pkt' hpkt' => ?_⟩
  by_cases hq : q = p
  · subst hq
    obtain ⟨pkt, path, ptr, hpkt, hpath, hread, hahead⟩ := hmoves.moved pkt' hpkt'
    obtain ⟨arr, hin⟩ := hp pkt hpkt
    exact (hin.ahead h.walkable hpath hread hahead).samePlace hmoves.tab (.refl pkt')
  · exact hbut.underway q pkt' hq hpkt'

theorem mnFreePkt_onPaths (h : c.OnPathsBut p) :
    (c.mnFreePkt p).Yields (fun _ => True) OnPaths := by
  refine (mnFreePkt_stays c p).imp ?_
  rintro c' ⟨hstays, hnone⟩
  exact (h.stays hstays).onPaths hnone

/-! ## A packet of a local node -/

theorem lookupPath_eq_ok {src dst : BitVec 32} (h : c.lookupPath src dst = .ok (some path)) :
    c.tab.Installed path.arr ∧ path.off = 0 := by
  unfold lookupPath at h
  cases hlookup : c.tab.lookupPath src dst with
  | noPath =>
    rw [hlookup] at h
    cases h
  | cell row col =>
    rw [hlookup] at h
    dsimp only at h
    cases hread : c.tab.readCell row col with
    | none =>
      rw [hread] at h
      cases h
    | some cell =>
      rw [hread] at h
      obtain ⟨arr, rfl, rfl⟩ := Option.map_eq_some_iff.mp (Except.ok.inj h)
      exact ⟨⟨row, col, hread⟩, rfl⟩

/-- The addresses that `emulate_path` looks up. -/
def startSrc (m : List Byte) : BitVec 32 :=
  (be32At m 12 ||| (be32At m 16 &&& modelForcebit)) &&& ~~~modelForcebit

def startDst (m : List Byte) : BitVec 32 := be32At m 16 &&& ~~~modelForcebit

/-- A packet starts in front of the first hop of the path that was found. -/
theorem startPath_eq_ok {m : List Byte} (h : c.startPath m = .ok (some pkt)) :
    ∃ path, c.lookupPath (startSrc m) (startDst m) = .ok (some path) ∧ pkt.path = some path ∧
      pkt.info.hop = 0 ∧ pkt.state = 0 := by
  unfold startPath at h
  obtain ⟨path, hpath, h⟩ := Except.bind_eq_ok_iff.mp h
  obtain ⟨path, rfl, rfl⟩ := Option.map_eq_some_iff.mp (Except.ok.inj h)
  exact ⟨path, hpath, rfl, rfl, rfl⟩

theorem startPath_of_lookupPath {m : List Byte}
    (h : c.lookupPath (startSrc m) (startDst m) = .ok (some path)) :
    ∃ pkt, c.startPath m = .ok (some pkt) := by
  unfold startPath
  refine ⟨_, Except.bind_eq_ok_iff.mpr ⟨some path, h, rfl⟩⟩

theorem inFront_setPkt (h : pkt.InStep c.tab arr) : (c.setPkt p pkt).InFront p := by
  intro pkt' hpkt'
  rw [pkts_setPkt_self] at hpkt'
  cases hpkt'
  exact ⟨arr, h⟩

theorem inStep_of_start (hwalk : c.tab.Walkable) {src dst : BitVec 32}
    (hpath : c.lookupPath src dst = .ok (some path)) (hptr : pkt.path = some path)
    (hhop : pkt.info.hop = 0) (hstate : pkt.state = 0) : pkt.InStep c.tab path.arr := by
  obtain ⟨hinst, hoff⟩ := lookupPath_eq_ok hpath
  refine ⟨?_, hwalk.present _ hinst, Or.inl hstate⟩
  rw [hptr, hhop]
  obtain ⟨arr, off⟩ := path
  exact congrArg (fun off => some (PathPtr.mk arr off)) hoff

theorem filterIpinput_onPaths (h : c.OnPaths) (m : List Byte) :
    (c.filterIpinput env m).Yields (fun _ => True) fun r => r.1.OnPaths := by
  unfold filterIpinput
  cases c.mallocPkt env with
  | none => exact h
  | some p =>
    dsimp only
    cases hstart : c.startPath m with
    | error f => exact trivial
    | ok start =>
      cases start with
      | none => exact h
      | some pkt =>
        obtain ⟨path, hpath, hptr, hhop, hstate⟩ := startPath_eq_ok hstart
        have hin := inStep_of_start h.walkable hpath hptr hhop hstate
        have hfront : (c.setPkt p pkt).InFront p := inFront_setPkt hin
        exact (emulateNexthop_onPaths ((h.but p).setPkt pkt) hfront env).bind fun r hr => hr

/-! ## A record -/

/-- The record is not dropped before its path is looked up. -/
def Heeds (c : Core) (ipLen : ℕ) (info : RemotePacket) : Prop :=
  ¬ (info.id ≠ 0 ∧ ¬ c.aggregate ∧ ipLen ≠ remotePacketSize + udpiphdrSize) ∧ ¬ info.ttl.sle 0

/-- `mc_reunite` finds the cached packet of the record, which is not the struct `p` of the record
itself. -/
structure Reunites (c : Core) (p : Addr) (info : RemotePacket) (cached : Packet) : Prop where
  expire : c.now < info.expire
  hop : info.hop ≠ 0
  fresh : p ∉ c.mcPcache
  mem : info.id ∈ c.mcPcache
  live : c.pkts info.id = some cached
  id : cached.info.id = info.id
  same : cached.info.expire = info.expire

/-- The struct at `p` is gone, and the others have stayed. -/
structure Loses (c : Core) (p : Addr) (c' : Core) : Prop where
  tab : SamePaths c.tab c'.tab
  others : ∀ q, q ≠ p → KeepsPlace c.pkts c'.pkts q
  gone : c'.pkts p = none

/-- A record that names its own struct is freed before it can go on. -/
theorem mcReuniteTail_self (c : Core) (hself : pkt.info.id = p) (cached : Packet) :
    (mcReuniteTail (c.setPkt p pkt) p pkt cached).Yields (fun _ => True) fun r =>
      r.2 = (0, p) ∧ c.Loses p r.1 := by
  have hothers : ∀ (c : Core) (pkt : Packet) q, q ≠ p → KeepsPlace c.pkts (c.setPkt p pkt).pkts q := by
    intro c pkt q hq pkt' hpkt'
    rw [pkts_setPkt_of_ne c pkt hq] at hpkt'
    exact ⟨pkt', hpkt', .refl pkt'⟩
  unfold mcReuniteTail
  rw [hself]
  refine (mnUncachePkt_stays (c.setPkt p pkt) p).bind fun c₁ h₁ => ?_
  refine (mnFreePkt_stays (c₁.setPkt p _) p).bind ?_
  rintro c₂ ⟨h₂, hnone⟩
  refine ⟨rfl, h₁.tab.trans h₂.tab, fun q hq => ?_, hnone⟩
  exact (((hothers c pkt q hq).trans (h₁.packets q)).trans (hothers c₁ _ q hq)).trans (h₂.packets q)

theorem mcReuniteTail_stale (hmem : p ∈ c.mcPcache) (hne : pkt.info.id ≠ p) (cached : Packet) :
    (mcReuniteTail (c.setPkt p pkt) p pkt cached).Yields (fun _ => True) fun _ => False := by
  have huncache : ((c.setPkt p pkt).mnUncachePkt pkt.info.id).Yields (fun _ => True) fun c' =>
      p ∈ c'.mcPcache := by
    unfold mnUncachePkt
    by_cases hid : pkt.info.id ∉ (c.setPkt p pkt).mcPcache
    · rw [if_pos hid]
      exact trivial
    · rw [if_neg hid]
      exact (packet_yields trivial _ _).bind fun pkt' _ => (List.mem_erase_of_ne (Ne.symm hne)).mpr hmem
  unfold mcReuniteTail
  refine huncache.bind fun c₁ h₁ => ?_
  dsimp only
  unfold mnFreePkt
  rw [if_pos (show p ∈ (c₁.setPkt pkt.info.id _).mcPcache from h₁)]
  exact trivial

/-- The outcomes of `mc_reunite` on the struct at `p`, which `malloc` has just returned. -/
theorem mcReunite_cases (hp : c.pkts p = none) (pkt : Packet) :
    ((c.setPkt p pkt).mcReunite p).Yields (fun _ => True) fun r =>
      r = (c.setPkt p pkt, 1, p) ∨ (r.2 = (0, p) ∧ c.Loses p r.1) ∨
        ∃ cached, c.Reunites p pkt.info cached ∧
          r = (c.reunite pkt.path pkt.info cached, 0, pkt.info.id) := by
  refine mcReunite_tests trivial (Or.inl rfl) ?_
  intro cached hexpire hhop hcached hid hsame
  by_cases hself : pkt.info.id = p
  · exact (mcReuniteTail_self c hself cached).imp fun r hr => Or.inr (Or.inl hr)
  by_cases hfresh : p ∈ c.mcPcache
  · exact (mcReuniteTail_stale hfresh hself cached).imp fun r hr => hr.elim
  by_cases hmem : pkt.info.id ∈ c.mcPcache
  · have hlive : c.pkts pkt.info.id = some cached := by
      rwa [pkts_setPkt_of_ne c pkt hself] at hcached
    rw [mcReuniteTail_eq hp hfresh hmem hcached]
    exact Or.inr (Or.inr ⟨cached, ⟨hexpire, hhop, hfresh, hmem, hlive, hid, hsame⟩, rfl⟩)
  · refine Except.Yields.bind (P := fun _ => False) ?_ fun _ h => h.elim
    unfold mnUncachePkt
    rw [if_pos (show pkt.info.id ∉ (c.setPkt p pkt).mcPcache from hmem)]
    exact trivial

/-- The record goes on to `emulate_nexthop`: its path starts with a hop of the hop table, and when
that one says that the packet has come home with a handle, it is reunited. -/
def GoesOn (c : Core) (p : Addr) (info : RemotePacket) (path : PathPtr) : Prop :=
  ∃ h hop, c.readPath (some path) = .ok (some h) ∧ c.tab.hops h = some hop ∧
    (hop.emulator = 0 → info.id ≠ 0 → ∃ cached, c.Reunites p info cached)

/-- The packet that goes on, and the core then. -/
inductive Delivers (c : Core) (p : Addr) (t : Cursor.Taken) (path : PathPtr) : Core → Addr → Prop
  | arrived (host : BitVec 32) : Delivers c p t path (c.arrive p t path host) p
  | reunited {cached : Packet} (h : c.Reunites p t.info cached) :
      Delivers c p t path (c.reunite (some { path with off := t.info.hop.toNat }) t.info cached)
        t.info.id

/-- What the checks make of a record with the struct `p`. -/
inductive Checked (c : Core) (ipLen : ℕ) (p : Addr) (t : Cursor.Taken) : Core × Verdict → Prop
  | rejected (pkt : Packet) (err : ℤ) : Checked c ipLen p t (c.setPkt p pkt, .rejected err)
  | lost {c' : Core} (h : c.Loses p c') : Checked c ipLen p t (c', .handed p 0)
  | goesOn {path : PathPtr} {c' : Core} {q : Addr} (host : BitVec 32)
      (hheeds : c.Heeds ipLen t.info)
      (hpath : c.lookupPath (t.info.src &&& ~~~modelForcebit) t.info.dst = .ok (some path))
      (hgo : c.GoesOn p t.info path) (hdelivers : c.Delivers p t path c' q) :
      Checked c ipLen p t (c', .handed q host)

variable {ipLen : ℕ} {t : Cursor.Taken}

/-- **The checks**, on a struct that `malloc` has just returned. -/
theorem checkRecord_cases (hp : c.pkts p = none) (pkt : Packet) (ipLen : ℕ) (t : Cursor.Taken) :
    ((c.setPkt p pkt).checkRecord ipLen p t).Yields (fun _ => True) (Checked c ipLen p t) := by
  unfold checkRecord
  by_cases hsize : t.info.id ≠ 0 ∧ ¬ (c.setPkt p pkt).aggregate ∧
      ipLen ≠ remotePacketSize + udpiphdrSize
  · rw [if_pos hsize]
    exact .rejected _ _
  rw [if_neg hsize]
  by_cases httl : t.info.ttl.sle 0
  · rw [if_pos httl]
    exact .rejected _ _
  rw [if_neg httl]
  have hheeds : c.Heeds ipLen t.info := ⟨hsize, httl⟩
  refine (lookupPath_yields trivial _ _ _).bind fun path hpath => ?_
  cases path with
  | none => exact .rejected _ _
  | some path =>
    refine (readPath_yields trivial _ _).bind fun first hfirst => ?_
    cases first with
    | none => exact trivial
    | some h =>
      refine (hop_yields trivial _ h).bind fun hop hhop => ?_
      have harrive : (c.setPkt p pkt).arrive p t path hop.emulator =
          c.arrive p t path hop.emulator := setPkt_setPkt c p pkt _
      show (ite _ _ _ : Except Fault (Core × Verdict)).Yields _ _
      rw [harrive]
      by_cases hback : hop.emulator = 0 ∧ t.info.id ≠ 0
      · rw [if_pos hback]
        refine (mcReunite_cases hp _).bind ?_
        rintro ⟨c', err, q⟩ (heq | ⟨heq, hloses⟩ | ⟨cached, hreunites, heq⟩)
        · cases heq
          exact .rejected _ _
        · cases heq
          exact .lost hloses
        · cases heq
          exact .goesOn 0 hheeds hpath ⟨h, hop, hfirst, hhop, fun _ _ => ⟨cached, hreunites⟩⟩
            (.reunited hreunites)
      · rw [if_neg hback]
        exact .goesOn _ hheeds hpath
          ⟨h, hop, hfirst, hhop, fun hlocal hid => absurd ⟨hlocal, hid⟩ hback⟩ (.arrived _)

theorem checkRecord_of_goesOn (hp : c.pkts p = none) (pkt : Packet) (hheeds : c.Heeds ipLen t.info)
    (hpath : c.lookupPath (t.info.src &&& ~~~modelForcebit) t.info.dst = .ok (some path))
    (hgo : c.GoesOn p t.info path) :
    ∃ c' q host, (c.setPkt p pkt).checkRecord ipLen p t = .ok (c', .handed q host) ∧
      c.Delivers p t path c' q := by
  obtain ⟨h, hop, hfirst, hhop, hreunites⟩ := hgo
  have hhop' : (c.setPkt p pkt).hop h = .ok hop := by
    unfold Core.hop
    rw [show (c.setPkt p pkt).tab.hops h = some hop from hhop]
  have harrive : (c.setPkt p pkt).arrive p t path hop.emulator =
      c.arrive p t path hop.emulator := setPkt_setPkt c p pkt _
  have hcheck : (c.setPkt p pkt).checkRecord ipLen p t =
      if hop.emulator = 0 ∧ t.info.id ≠ 0 then do
        let r ← (c.arrive p t path hop.emulator).mcReunite p
        return (r.1, if r.2.1 ≠ 0 then .rejected r.2.1 else .handed r.2.2 0)
      else return (c.arrive p t path hop.emulator, .handed p hop.emulator) := by
    unfold checkRecord
    rw [if_neg (show ¬ (t.info.id ≠ 0 ∧ ¬ (c.setPkt p pkt).aggregate ∧ _) from hheeds.1),
      if_neg hheeds.2, show (c.setPkt p pkt).lookupPath _ _ = _ from hpath]
    show ((c.setPkt p pkt).readPath (some path) >>= _ : Except Fault (Core × Verdict)) = _
    rw [show (c.setPkt p pkt).readPath (some path) = _ from hfirst]
    show ((c.setPkt p pkt).hop h >>= _ : Except Fault (Core × Verdict)) = _
    rw [hhop', ← harrive]
    rfl
  rw [hcheck]
  by_cases hback : hop.emulator = 0 ∧ t.info.id ≠ 0
  · obtain ⟨cached, h⟩ := hreunites hback.1 hback.2
    refine ⟨_, _, 0, ?_, .reunited h⟩
    have hreunite : (c.arrive p t path hop.emulator).mcReunite p =
        .ok (c.reunite (some { path with off := t.info.hop.toNat }) t.info cached, 0, t.info.id) :=
      mcReunite_eq hp h.fresh h.expire h.hop h.mem h.live h.id h.same
    rw [if_pos hback, hreunite]
    rfl
  · refine ⟨_, _, hop.emulator, ?_, .arrived hop.emulator⟩
    rw [if_neg hback]
    rfl

/-- The packet that goes on is at the position that its record names. -/
theorem Delivers.inStep (h : c.OnPaths) {src dst : BitVec 32}
    (hpath : c.lookupPath src dst = .ok (some path)) (hdelivers : c.Delivers p t path c' q) :
    ∃ pkt, c'.pkts q = some pkt ∧ pkt.InStep c.tab path.arr ∧ pkt.info.hop = t.info.hop := by
  have harr := h.walkable.present _ (lookupPath_eq_ok hpath).1
  cases hdelivers with
  | arrived host => exact ⟨_, pkts_setPkt_self c _ _, ⟨rfl, harr, Or.inl rfl⟩, rfl⟩
  | @reunited cached hreunites =>
    obtain ⟨arr, hin, -, -⟩ := h.underway _ cached hreunites.live
    exact ⟨_, pkts_setPkt_self _ _ _, ⟨rfl, harr, hin.state⟩, rfl⟩

theorem Delivers.tab (hdelivers : c.Delivers p t path c' q) : c'.tab = c.tab := by
  cases hdelivers with
  | arrived host => rfl
  | reunited h => rfl

theorem Delivers.but (h : c.OnPaths) (hdelivers : c.Delivers p t path c' q) : c'.OnPathsBut q := by
  cases hdelivers with
  | arrived host => exact (h.but _).setPkt _
  | reunited hreunites =>
    exact ((h.stays (stays_uncache hreunites.live)).but t.info.id).setPkt _

theorem Loses.onPaths (h : c.OnPaths) (hloses : c.Loses p c') : c'.OnPaths := by
  have hbut : c'.OnPathsBut p := (h.but p).keeps hloses.tab hloses.others
  exact hbut.onPaths hloses.gone

theorem Checked.onPaths (h : c.OnPaths) {r : Core × Verdict} (hr : Checked c ipLen p t r) :
    match r.2 with
    | .rejected _ => r.1.OnPathsBut p
    | .handed q _ => r.1.OnPathsBut q ∧ r.1.InFront q := by
  cases hr with
  | rejected pkt err => exact (h.but p).setPkt pkt
  | lost hloses =>
    have hon := hloses.onPaths h
    exact ⟨hon.but p, hon.inFront p⟩
  | goesOn host hheeds hpath hgo hdelivers =>
    refine ⟨hdelivers.but h, fun pkt hpkt => ?_⟩
    obtain ⟨pkt', hpkt', hin, -⟩ := hdelivers.inStep h hpath
    cases hpkt.symm.trans hpkt'
    rw [hdelivers.tab]
    exact ⟨_, hin⟩

theorem inputError_onPaths (h : c.OnPaths) (pkt : Option Addr) :
    (c.inputError pkt).Yields (fun _ => True) OnPaths := by
  cases pkt with
  | none => exact h
  | some p => exact mnFreePkt_onPaths (h.but p)

/-- **A turn** of `remote_input`. -/
theorem turn_onPaths (h : c.OnPaths) (l : InputLoop) (env : Env) :
    (c.turn l env).Yields (fun _ => True) fun r => r.1.OnPaths := by
  unfold turn
  cases l.cursor.test with
  | error f => exact trivial
  | ok test =>
    cases test with
    | exit => exact h
    | tooMany => exact (inputError_onPaths h l.pkt).bind fun c' hc' => hc'
    | body =>
      show (c.inputBody l env).Yields _ _
      unfold inputBody
      cases hmalloc : c.mallocPkt env with
      | none => exact h
      | some p =>
        dsimp only
        cases l.cursor.take with
        | error f => exact trivial
        | ok t =>
          refine (checkRecord_cases (mallocPkt_eq_some hmalloc).2 _ l.ipLen t).bind ?_
          rintro ⟨c', verdict⟩ hchecked
          have hon := hchecked.onPaths h
          cases verdict with
          | rejected err => exact (mnFreePkt_onPaths hon).bind fun c'' hc'' => hc''
          | handed q host => exact (emulateNexthop_onPaths hon.1 hon.2 env).bind fun r hr => hr

/-! ## The other calls -/

theorem flushLoop_stays (n : ℕ) (c : Core) :
    (flushLoop n c).Yields (fun _ => True) (Stays c) := by
  induction n generalizing c with
  | zero => exact Stays.refl c
  | succ n ih =>
    unfold flushLoop
    cases c.mcPcache with
    | nil => exact Stays.refl c
    | cons p rest =>
      refine (packet_yields trivial c p).bind fun pkt _ => ?_
      show (ite _ _ _ : Except Fault Core).Yields _ _
      split_ifs
      · exact Stays.refl c
      · refine (mnUncachePkt_stays c p).bind fun c₁ h₁ => ?_
        refine (mnFreePkt_stays c₁ p).bind ?_
        rintro c₂ ⟨h₂, -⟩
        exact (ih c₂).imp fun c₃ h₃ => (h₁.trans h₂).trans h₃

theorem remoteFlush_stays (c : Core) : c.remoteFlush.Yields (fun _ => True) (Stays c) := by
  unfold remoteFlush
  split_ifs
  · exact flushLoop_stays _ c
  · exact Stays.refl c

end Core

/-! ## Runs -/

namespace System

theorem cleanAggregates_stays (c : Core) :
    (cleanAggregates c).Yields (fun _ => True) (Core.Stays c) := by
  unfold cleanAggregates Aggregates.remoteAggregateClean
  split_ifs
  · exact (Aggregates.cleanLoop_yields trivial _ _).bind fun r _ => ⟨rfl, .refl _, fun q => .refl _ q⟩
  · exact Core.Stays.refl c

theorem hopclockEnd_stays (c : Core) : (hopclockEnd c).Yields (fun _ => True) (Core.Stays c) := by
  unfold hopclockEnd
  refine (cleanAggregates_stays c).bind fun c' hc' => ?_
  split_ifs
  · exact (Core.remoteFlush_stays c').imp fun c'' hc'' => hc'.trans hc''
  · exact hc'

theorem step_onPaths {s : System} (h : s.core.OnPaths) (e : CoreEvent) :
    (s.step e).Yields (fun _ => True) fun r => r.1.core.OnPaths := by
  obtain ⟨c, input⟩ := s
  cases e with
  | hardclock => exact h.congr rfl rfl
  | configure pcache aggregate mcExpire mcTtl => exact h.congr rfl rfl
  | packet env m =>
    cases input with
    | some l => exact h
    | none =>
      unfold step
      dsimp only
      split_ifs
      · exact (Core.filterIpinput_onPaths h m).bind fun r hr => hr
      · exact h
  | datagram payload =>
    cases input with
    | some l => exact h
    | none => exact h
  | turn env =>
    cases input with
    | none => exact h
    | some l =>
      refine (Core.turn_onPaths h l env).bind ?_
      rintro ⟨c', turn⟩ hr
      cases turn with
      | done err => exact hr
      | next l p host info fate => exact hr
  | hopclockPacket env =>
    cases input with
    | some l => exact h
    | none =>
      unfold step
      dsimp only
      cases slot ⟨c, none⟩ with
      | nil => exact h
      | cons p rest =>
        dsimp only
        split_ifs
        · have hremoved : (c.calendarRemove (calendarSlot c.calendarTick) rest).OnPaths :=
            h.congr rfl rfl
          exact (Core.emulateNexthop_onPaths (hremoved.but p) (hremoved.inFront p) env).bind
            fun r hr => hr
        · exact h
  | hopclockSlot =>
    cases input with
    | some l => exact h
    | none =>
      unfold step
      dsimp only
      split_ifs
      · exact h.congr rfl rfl
      · exact h
  | hopclockEnd =>
    cases input with
    | some l => exact h
    | none =>
      unfold step
      dsimp only
      split_ifs
      · exact (hopclockEnd_stays c).bind fun c' hc' => h.stays hc'
      · exact h
  | teTimeout h₁ pipe =>
    cases input with
    | some l => exact h
    | none => exact h.congr rfl rfl

/-- **Every packet** of a core is underway, whatever its events are. -/
theorem onPaths_of_stepState {s s' : System} (h : s.core.OnPaths) {e : CoreEvent}
    (hstep : s.stepState e = some s') : s'.core.OnPaths := by
  obtain ⟨act, hstep⟩ := stepState_eq_some.mp hstep
  exact (step_onPaths h e).of_ok hstep

theorem onPaths_load {hz ticks : ℕ} {tab : PathTab} {xtHop : HopPtr → Option XcpPipe}
    {xcpInitialized : Bool} (h : tab.Walkable) :
    (load hz ticks tab xtHop xcpInitialized).core.OnPaths :=
  ⟨h, fun _ _ hpkt => nomatch hpkt⟩

end System

end Modelnet.FreeBSD

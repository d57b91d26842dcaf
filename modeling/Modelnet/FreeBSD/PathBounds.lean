import Modelnet.FreeBSD.PathAccesses
import Modelnet.FreeBSD.OnPaths

/-!
# Paths are not left

A path of `pathlen` hops has the positions 0 to `pathlen`, the last one a null. A packet that is
underway reads at its own position, at the hop before it, and through a hop that it has found. Two
things go wrong, both before the test for the end of the path. `emulate_nexthop` looks for the
emulator of the first hop, and `remote_input` does the same for every record, so that a path without
hops is read through its null. And a record may name any position; it is added to the pointer, and
what is found there is taken for a hop.

The tables do not change during a run; they are any that the handlers can leave. The counterpart of
`emulate_nexthop` in the Linux module tests for the end of the path first.
-/

namespace Modelnet.FreeBSD

open Modelnet PathTab Traced

/-- Reads of the positions of a path, of the one before the pointer when there is one, and through
hops only. -/
def PathAccess.Inside (t : PathTab) : PathAccess → Prop
  | .cell path => ∃ ptr, path = some ptr ∧ t.Within ptr
  | .before path => ∃ arr off, path = some ⟨arr, off + 1⟩ ∧ t.Within ⟨arr, off⟩
  | .hop curhop => curhop.isSome

namespace Core

variable {c c' : Core} {env : Env} {p q : Addr} {pkt : Packet} {path : PathPtr} {arr : ℕ}
  {t : PathTab}

/-! ## One call of `emulate_nexthop` -/

theorem crossHopT_safe (c : Core) (env : Env) (p : Addr) (curhop : Option HopPtr) :
    (c.crossHopT env p curhop).Safe (PathAccess.Inside t) := by
  cases curhop with
  | none => exact safe_lift _
  | some h => exact safe_observe_bind_iff.mpr ⟨rfl, safe_lift _⟩

theorem prevHopT_safe (hwalk : c.tab.Walkable) {off : ℕ} (hsome : (c.tab.pathArrs arr).isSome)
    (hlt : off < c.tab.pathlen arr) :
    (c.prevHopT (some ⟨arr, off + 1⟩)).Safe (PathAccess.Inside c.tab) := by
  have hin : c.tab.Within ⟨arr, off⟩ := ⟨hsome, hlt.le⟩
  unfold prevHopT
  refine safe_observe_bind_iff.mpr ⟨⟨arr, off, rfl, hin⟩, ?_⟩
  dsimp only
  rw [if_neg (Nat.succ_ne_zero off)]
  refine safe_lift_bind_iff.mpr fun prv hprv => safe_observe_bind_iff.mpr ?_
  obtain ⟨ptr, hread⟩ := (hwalk.readPath ⟨arr, off⟩ hsome).1 hlt
  obtain ⟨path, hpath, hread'⟩ := readPath_eq_ok hprv
  cases hpath
  cases hread.symm.trans hread'
  exact ⟨rfl, safe_pure _⟩

theorem dequeueT_safe (hwalk : c.tab.Walkable) (h : pkt.InStep c.tab arr)
    (hle : pkt.info.hop.toNat ≤ c.tab.pathlen arr) :
    (c.dequeueT p pkt).Safe (PathAccess.Inside c.tab) := by
  unfold dequeueT
  split_ifs with hq
  · have hpos : pkt.info.hop.toNat ≠ 0 := fun hzero => hq.1 (BitVec.eq_of_toNat_eq hzero)
    obtain ⟨off, hoff⟩ := Nat.exists_eq_succ_of_ne_zero hpos
    have hpath : pkt.path = some ⟨arr, off + 1⟩ := by rw [h.path, hoff]
    refine safe_bind_iff.mpr ⟨?_, fun ptr _ => safe_lift _⟩
    rw [hpath]
    exact prevHopT_safe hwalk h.array (by omega)
  · exact safe_pure _

/-- **One call** stays on the path of the packet exactly if the packet is at a position of it, and at
a hop when it has not crossed any. -/
theorem emulateNexthopT_safe_iff (hwalk : c.tab.Walkable) (hpkt : c.pkts p = some pkt)
    (h : pkt.InStep c.tab arr) (env : Env) :
    (c.emulateNexthopT env p).Safe (PathAccess.Inside c.tab) ↔
      pkt.info.hop.toNat ≤ c.tab.pathlen arr ∧ (pkt.info.hop = 0 → c.tab.pathlen arr ≠ 0) := by
  have hread := hwalk.readPath ⟨arr, pkt.info.hop.toNat⟩ h.array
  have hcell : (PathAccess.cell pkt.path).Inside c.tab ↔ pkt.info.hop.toNat ≤ c.tab.pathlen arr := by
    rw [h.path]
    constructor
    · rintro ⟨ptr, hptr, hin⟩
      cases hptr
      exact hin.2
    · exact fun hle => ⟨_, rfl, h.array, hle⟩
  unfold emulateNexthopT
  rw [safe_lift_bind_iff]
  simp only [packet_eq_ok.mpr hpkt, Except.ok.injEq, forall_eq']
  rw [safe_observe_bind_iff, hcell, safe_lift_bind_iff]
  refine and_congr_right fun hle => ?_
  have hcur : ∀ curhop, c.readPath pkt.path = .ok curhop →
      c.tab.readPath ⟨arr, pkt.info.hop.toNat⟩ = some curhop := by
    intro curhop hcurhop
    obtain ⟨path, hpath, hread⟩ := readPath_eq_ok hcurhop
    cases h.path.symm.trans hpath
    exact hread
  by_cases hhop : pkt.info.hop = 0
  · -- the first hop is read through
    simp only [if_pos hhop]
    have hzero : pkt.info.hop.toNat = 0 := by
      rw [hhop]
      rfl
    constructor
    · intro hsafe _ hlen
      have hnull := hread.2.1 (hzero.trans hlen.symm)
      have hok : c.readPath pkt.path = .ok none := by
        unfold readPath
        rw [h.path, Option.bind_some, hnull]
      exact Bool.false_ne_true (safe_observe_bind_iff.mp (hsafe none hok)).1
    · intro hlen curhop hcurhop
      obtain ⟨ptr, hptr⟩ := hread.1 (by
        rw [hzero]
        exact Nat.pos_of_ne_zero (hlen hhop))
      cases hptr.symm.trans (hcur curhop hcurhop)
      refine safe_observe_bind_iff.mpr ⟨rfl, safe_lift_bind_iff.mpr fun hop _ => ?_⟩
      split_ifs
      · exact safe_lift_bind_iff.mpr fun _ _ => safe_pure _
      · exact crossHopT_safe c env p (some ptr)
  · simp only [if_neg hhop]
    refine iff_of_true (fun curhop _ => ?_) fun hzero => absurd hzero hhop
    exact safe_bind_iff.mpr ⟨dequeueT_safe hwalk h hle, fun c' _ => crossHopT_safe c' env p curhop⟩

theorem emulateNexthopT_safe_of_none (hpkt : c.pkts p = none) :
    (c.emulateNexthopT env p).Safe (PathAccess.Inside t) := by
  refine safe_lift_bind_iff.mpr fun pkt hpkt' => ?_
  rw [packet_eq_ok.mp hpkt'] at hpkt
  cases hpkt

theorem emulateNexthopT_safe (h : c.OnPaths) (env : Env) (p : Addr) :
    (c.emulateNexthopT env p).Safe (PathAccess.Inside c.tab) := by
  cases hpkt : c.pkts p with
  | none => exact emulateNexthopT_safe_of_none hpkt
  | some pkt =>
    obtain ⟨arr, hin, hne, hle⟩ := h.underway p pkt hpkt
    exact (emulateNexthopT_safe_iff h.walkable hpkt hin env).mpr ⟨hle, fun hzero => absurd hzero hne⟩

/-! ## A packet of a local node -/

/-- The path of a packet of a local node has a hop, when there is a path and memory for a struct. -/
def Starts (c : Core) (env : Env) (m : List Byte) : Prop :=
  (c.mallocPkt env).isSome → ∀ path, c.lookupPath (startSrc m) (startDst m) = .ok (some path) →
    c.tab.pathlen path.arr ≠ 0

theorem filterIpinputT_safe_iff (h : c.OnPaths) (m : List Byte) :
    (c.filterIpinputT env m).Safe (PathAccess.Inside c.tab) ↔ c.Starts env m := by
  unfold filterIpinputT Starts
  cases hmalloc : c.mallocPkt env with
  | none => exact iff_of_true (safe_pure _) fun hsome => nomatch hsome
  | some p =>
    simp only [Option.isSome_some, forall_const]
    rw [safe_lift_bind_iff]
    -- the call for a packet whose path has been found
    have hcall : ∀ pkt path, c.lookupPath (startSrc m) (startDst m) = .ok (some path) →
        pkt.path = some path → pkt.info.hop = 0 → pkt.state = 0 →
        (((c.setPkt p pkt).emulateNexthopT env p).Safe (PathAccess.Inside c.tab) ↔
          c.tab.pathlen path.arr ≠ 0) := by
      intro pkt path hpath hptr hhop hstate
      have hin := inStep_of_start h.walkable hpath hptr hhop hstate
      refine (emulateNexthopT_safe_iff (c := c.setPkt p pkt) h.walkable
        (pkts_setPkt_self c p pkt) hin env).trans ?_
      rw [hhop]
      exact ⟨fun hsafe => hsafe.2 rfl, fun hlen => ⟨Nat.zero_le _, fun _ => hlen⟩⟩
    constructor
    · intro hsafe path hpath
      obtain ⟨pkt, hstart⟩ := startPath_of_lookupPath hpath
      obtain ⟨path', hpath', hptr, hhop, hstate⟩ := startPath_eq_ok hstart
      cases hpath.symm.trans hpath'
      exact (hcall pkt path hpath hptr hhop hstate).mp (safe_bind_iff.mp (hsafe _ hstart)).1
    · intro hlen start hstart
      cases start with
      | none => exact safe_pure _
      | some pkt =>
        obtain ⟨path, hpath, hptr, hhop, hstate⟩ := startPath_eq_ok hstart
        exact safe_bind_iff.mpr ⟨(hcall pkt path hpath hptr hhop hstate).mpr (hlen path hpath),
          fun _ _ => safe_pure _⟩

/-! ## A record -/

/-- The path of a record that is not dropped before has a hop, and the position that the record
names, if it goes on. -/
def Fits (c : Core) (ipLen : ℕ) (p : Addr) (info : RemotePacket) : Prop :=
  c.Heeds ipLen info → ∀ path,
    c.lookupPath (info.src &&& ~~~modelForcebit) info.dst = .ok (some path) →
      c.tab.pathlen path.arr ≠ 0 ∧
        (c.GoesOn p info path → info.hop.toNat ≤ c.tab.pathlen path.arr)

theorem checkRecordT_safe_iff (hwalk : c.tab.Walkable) (ipLen : ℕ) (p : Addr) (tk : Cursor.Taken) :
    (c.checkRecordT ipLen p tk).Safe (PathAccess.Inside c.tab) ↔
      (c.Heeds ipLen tk.info → ∀ path,
        c.lookupPath (tk.info.src &&& ~~~modelForcebit) tk.info.dst = .ok (some path) →
          c.tab.pathlen path.arr ≠ 0) := by
  unfold checkRecordT Heeds
  by_cases hsize : tk.info.id ≠ 0 ∧ ¬ c.aggregate ∧ ipLen ≠ remotePacketSize + udpiphdrSize
  · rw [if_pos hsize]
    exact iff_of_true (safe_pure _) fun hheeds => absurd hsize hheeds.1
  rw [if_neg hsize]
  by_cases httl : tk.info.ttl.sle 0
  · rw [if_pos httl]
    exact iff_of_true (safe_pure _) fun hheeds => absurd httl hheeds.2
  rw [if_neg httl, forall_prop_of_true ⟨hsize, httl⟩, safe_lift_bind_iff]
  constructor
  · intro hsafe path hpath hlen
    obtain ⟨hinst, hoff⟩ := lookupPath_eq_ok hpath
    have hread := (hwalk.readPath path (hwalk.present _ hinst)).2.1 (hoff.trans hlen.symm)
    have hok : c.readPath (some path) = .ok none := by
      unfold readPath
      rw [Option.bind_some, hread]
    have hrest := (safe_observe_bind_iff.mp (hsafe _ hpath)).2
    exact Bool.false_ne_true (safe_observe_bind_iff.mp (safe_lift_bind_iff.mp hrest none hok)).1
  · intro hlen path hpath
    cases path with
    | none => exact safe_pure _
    | some path =>
      obtain ⟨hinst, hoff⟩ := lookupPath_eq_ok hpath
      have hsome := hwalk.present _ hinst
      have hin : c.tab.Within path := ⟨hsome, by omega⟩
      refine safe_observe_bind_iff.mpr ⟨⟨path, rfl, hin⟩, safe_lift_bind_iff.mpr ?_⟩
      intro first hfirst
      obtain ⟨ptr, hread⟩ := (hwalk.readPath path hsome).1 (by
        rw [hoff]
        exact Nat.pos_of_ne_zero (hlen path hpath))
      obtain ⟨path', hpath', hread'⟩ := readPath_eq_ok hfirst
      cases hpath'
      cases hread.symm.trans hread'
      exact safe_observe_bind_iff.mpr ⟨rfl, safe_lift _⟩

/-- **A record**: what the checks read, and then `emulate_nexthop`. -/
theorem record_safe_iff {ipLen : ℕ} {tk : Cursor.Taken} (h : c.OnPaths) (hp : c.pkts p = none)
    (pkt : Packet) (env : Env) :
    (((c.setPkt p pkt).checkRecordT ipLen p tk).Safe (PathAccess.Inside c.tab) ∧
      ∀ c' q host, (c.setPkt p pkt).checkRecord ipLen p tk = .ok (c', .handed q host) →
        (c'.emulateNexthopT env q).Safe (PathAccess.Inside c.tab)) ↔
    c.Fits ipLen p tk.info := by
  have hcheck := checkRecordT_safe_iff (c := c.setPkt p pkt) h.walkable ipLen p tk
  -- the call for a record that goes on
  have hcall : ∀ {path c' q}, c.lookupPath (tk.info.src &&& ~~~modelForcebit) tk.info.dst =
      .ok (some path) → c.Delivers p tk path c' q →
      ((c'.emulateNexthopT env q).Safe (PathAccess.Inside c.tab) ↔
        tk.info.hop.toNat ≤ c.tab.pathlen path.arr ∧
          (tk.info.hop = 0 → c.tab.pathlen path.arr ≠ 0)) := by
    intro path c' q hpath hdelivers
    obtain ⟨pkt, hpkt, hin, hhop⟩ := hdelivers.inStep h hpath
    have hwalk : c'.tab.Walkable := hdelivers.tab ▸ h.walkable
    have hin' : pkt.InStep c'.tab path.arr := hdelivers.tab ▸ hin
    have hiff := emulateNexthopT_safe_iff hwalk hpkt hin' env
    rwa [hdelivers.tab, hhop] at hiff
  constructor
  · rintro ⟨hsafe, hnext⟩ hheeds path hpath
    refine ⟨hcheck.mp hsafe hheeds path hpath, fun hgo => ?_⟩
    obtain ⟨c', q, host, hok, hdelivers⟩ := checkRecord_of_goesOn hp pkt hheeds hpath hgo
    exact ((hcall hpath hdelivers).mp (hnext c' q host hok)).1
  · intro hfits
    refine ⟨hcheck.mpr fun hheeds path hpath => (hfits hheeds path hpath).1, ?_⟩
    intro c' q host hok
    have hchecked := (checkRecord_cases hp pkt ipLen tk).of_ok hok
    cases hchecked with
    | lost hloses => exact emulateNexthopT_safe_of_none hloses.gone
    | goesOn _ hheeds hpath hgo hdelivers =>
      obtain ⟨hlen, hle⟩ := hfits hheeds _ hpath
      exact (hcall hpath hdelivers).mpr ⟨hle hgo, fun _ => hlen⟩

/-- The records that a turn reads fit the tables. -/
def TurnFits (c : Core) (l : InputLoop) (env : Env) : Prop :=
  l.cursor.test = .ok .body → ∀ p t, c.mallocPkt env = some p → l.cursor.take = .ok t →
    c.Fits l.ipLen p t.info

/-- **A turn** of `remote_input`. -/
theorem turnT_safe_iff (h : c.OnPaths) (l : InputLoop) (env : Env) :
    (c.turnT l env).Safe (PathAccess.Inside c.tab) ↔ c.TurnFits l env := by
  unfold turnT TurnFits
  rw [safe_lift_bind_iff]
  cases htest : l.cursor.test with
  | error f => exact iff_of_true (fun _ htest => nomatch htest) fun htest => nomatch htest
  | ok test =>
    simp only [Except.ok.injEq, forall_eq']
    cases test with
    | exit => exact iff_of_true (safe_pure _) fun htest => nomatch htest
    | tooMany =>
      exact iff_of_true (safe_lift_bind_iff.mpr fun _ _ => safe_pure _) fun htest => nomatch htest
    | body =>
      rw [forall_prop_of_true rfl]
      unfold inputBodyT
      cases hmalloc : c.mallocPkt env with
      | none => exact iff_of_true (safe_pure _) fun _ _ hsome => nomatch hsome
      | some p =>
        have hp := (mallocPkt_eq_some hmalloc).2
        have hrecord : ∀ t : Cursor.Taken, _ ↔ c.Fits l.ipLen p t.info := fun t =>
          record_safe_iff h hp { freshPkt t.m 0 with info := t.info } env
        dsimp only
        rw [safe_lift_bind_iff]
        constructor
        · intro hsafe p' t hp' htake
          cases hp'
          obtain ⟨hcheck, hnext⟩ := safe_bind_iff.mp (hsafe t htake)
          refine (hrecord t).mp ⟨hcheck, fun c' q host hok => ?_⟩
          rw [← result_checkRecordT] at hok
          exact (safe_bind_iff.mp (hnext _ hok)).1
        · intro hfits t htake
          obtain ⟨hcheck, hnext⟩ := (hrecord t).mpr (hfits p t rfl htake)
          refine safe_bind_iff.mpr ⟨hcheck, ?_⟩
          rintro ⟨c', verdict⟩ hok
          rw [result_checkRecordT] at hok
          cases verdict with
          | rejected err => exact safe_lift_bind_iff.mpr fun _ _ => safe_pure _
          | handed q host => exact safe_bind_iff.mpr ⟨hnext c' q host hok, fun _ _ => safe_pure _⟩

end Core

/-! ## Runs -/

namespace System

/-- What an event reads along paths is inside of them. -/
def Walks (s : System) (e : CoreEvent) : Prop := (s.stepT e).Safe (PathAccess.Inside s.core.tab)

/-- Packets enter paths at a hop, and records at a position of their path. -/
def Enters (s : System) : CoreEvent → Prop
  | .packet env m => s.input = none → ipSize ≤ m.length ∧ be32At m 12 &&& modelMask = modelSubnet ∧
      be32At m 16 &&& modelMask = modelSubnet → s.core.Starts env m
  | .turn env => ∀ l, s.input = some l → s.core.TurnFits l env
  | _ => True

theorem walks_iff {s : System} (h : s.core.OnPaths) (e : CoreEvent) : s.Walks e ↔ s.Enters e := by
  obtain ⟨c, input⟩ := s
  unfold Walks
  cases e with
  | packet env m =>
    cases input with
    | some l => exact iff_of_true (safe_lift _) fun hnone => nomatch hnone
    | none =>
      unfold stepT Enters
      dsimp only
      split_ifs with hmodel
      · rw [safe_bind_iff, Core.filterIpinputT_safe_iff h m]
        exact ⟨fun hsafe _ _ => hsafe.1, fun hstarts => ⟨hstarts rfl hmodel, fun _ _ => safe_pure _⟩⟩
      · exact iff_of_true (safe_pure _) fun _ hm => absurd hm hmodel
  | turn env =>
    cases input with
    | none => exact iff_of_true (safe_lift _) fun _ hsome => nomatch hsome
    | some l =>
      unfold stepT Enters
      dsimp only
      rw [safe_bind_iff, Core.turnT_safe_iff h l env]
      constructor
      · rintro ⟨hfits, -⟩ l' hl'
        cases hl'
        exact hfits
      · exact fun hfits => ⟨hfits l rfl, fun _ _ => safe_pure _⟩
  | hopclockPacket env =>
    refine iff_of_true ?_ trivial
    cases input with
    | some l => exact safe_lift _
    | none =>
      unfold stepT
      dsimp only
      cases slot ⟨c, none⟩ with
      | nil => exact safe_pure _
      | cons p rest =>
        dsimp only
        split_ifs
        · have hremoved : (c.calendarRemove (calendarSlot c.calendarTick) rest).OnPaths :=
            ⟨h.walkable, h.underway⟩
          exact safe_bind_iff.mpr ⟨Core.emulateNexthopT_safe hremoved env p, fun _ _ => safe_pure _⟩
        · exact safe_pure _
  | _ => exact iff_of_true (safe_lift _) trivial

/-- **Paths are not left**, over any run from tables that the handlers have left, exactly if packets
enter paths that have a hop and records name positions of their paths. -/
theorem guarded_walks_iff {hz ticks : ℕ} {ws : List TableEvent} {tab : PathTab}
    (hrun : PartialRun.run (tableStep hz) PathTab.empty ws = some tab)
    (xtHop : HopPtr → Option XcpPipe) (xcpInitialized : Bool) (es : List CoreEvent) :
    PartialRun.Guarded stepState Walks (load hz ticks tab xtHop xcpInitialized) es ↔
      PartialRun.Guarded stepState Enters (load hz ticks tab xtHop xcpInitialized) es :=
  PartialRun.guarded_iff_of_invariant (I := fun s => s.core.OnPaths)
    (fun _ _ _ h _ hstep => onPaths_of_stepState h hstep) (fun _ e h => walks_iff h e)
    (onPaths_load (walkable_of_run hrun))

/-! ## One path -/

/-- A hop with this emulator, one node, and a path from it to itself of so many times the hop. -/
def onePath (emulator : BitVec 32) (pathlen : Int32) : List TableEvent :=
  [.write (.hoptable ⟨0, true, true, 1, true, fun _ => ⟨8000, 10, 0, 10, emulator, 0⟩, true,
      fun _ => true, fun _ => true, 0⟩),
    .write (.nodecount ⟨0, true, 1, true, fun _ => true⟩),
    .write (.pathentry ⟨0, true, true, 0, 0, 0, pathlen, true, fun _ => 0, true⟩)]

/-- A packet on a path with a hop. -/
theorem guarded_walks_onePath :
    ∃ tab, PartialRun.run (tableStep 1000) PathTab.empty (onePath 0 1) = some tab ∧
      PartialRun.Guarded stepState Walks (load 1000 0 tab (fun _ => none) false)
        [.packet (plainEnv 0x100) ipPacket] := by
  have hlen : (PartialRun.run (tableStep 1000) PathTab.empty (onePath 0 1)).map (fun tab =>
      ((load 1000 0 tab (fun _ => none) false).core.lookupPath (Core.startSrc ipPacket)
        (Core.startDst ipPacket)).toOption.map fun path => path.map fun path =>
          tab.pathlen path.arr) = some (some (some 1)) := by decide +kernel
  obtain ⟨tab, htab, hlen⟩ := Option.map_eq_some_iff.mp hlen
  refine ⟨tab, htab, (guarded_walks_iff htab _ _ _).mpr ⟨fun _ _ _ path hpath => ?_, ?_⟩⟩
  · rw [hpath] at hlen
    have hone : tab.pathlen path.arr = 1 := Option.some.inj (Option.some.inj hlen)
    exact ne_of_eq_of_ne hone Nat.one_ne_zero
  · exact fun _ _ => trivial

/-- A record, for a packet at another core, that is said to have crossed five hops. -/
def strayRecord : RemotePacket where
  id := 7
  expire := 0
  len := 20
  waitTime := 0
  src := 0x0a000001
  dst := 0x0a000002
  hop := 5
  ttl := 10
  xcpCwnd := 0
  xcpSrcFdbk := 0
  xcpRflctFdbk := 0
  xcpRtt := 0

/-- A packet on a path without hops is read through the null; and a record that has crossed more
hops than its path has is read beyond it. -/
theorem not_guarded_walks_onePath :
    (∃ tab, PartialRun.run (tableStep 1000) PathTab.empty (onePath 0 0) = some tab ∧
      ¬ PartialRun.Guarded stepState Walks (load 1000 0 tab (fun _ => none) false)
        [.packet (plainEnv 0x100) ipPacket]) ∧
    ∃ tab, PartialRun.run (tableStep 1000) PathTab.empty (onePath 0xc0a80002 1) = some tab ∧
      ¬ PartialRun.Guarded stepState Walks (load 1000 0 tab (fun _ => none) false)
        [.datagram strayRecord.encode, .turn (plainEnv 0x100)] := by
  have hnull : (PartialRun.run (tableStep 1000) PathTab.empty (onePath 0 0)).map (fun tab =>
      ((load 1000 0 tab (fun _ => none) false).stepT
        (.packet (plainEnv 0x100) ipPacket)).trace) =
      some [.cell (some ⟨5, 0⟩), .hop none] := by decide +kernel
  have hbeyond : (PartialRun.run (tableStep 1000) PathTab.empty (onePath 0xc0a80002 1)).map
      (fun tab => (PartialRun.run stepState (load 1000 0 tab (fun _ => none) false)
        [.datagram strayRecord.encode]).map fun s =>
          ((s.stepT (.turn (plainEnv 0x100))).trace, s.core.tab.pathlen 5)) =
      some (some ([.cell (some ⟨5, 0⟩), .hop (some ⟨1, 0⟩), .cell (some ⟨5, 5⟩)], 1)) := by
    decide +kernel
  constructor
  · obtain ⟨tab, htab, htrace⟩ := Option.map_eq_some_iff.mp hnull
    refine ⟨tab, htab, fun hguarded => ?_⟩
    have hwalks := hguarded.1
    unfold Walks Traced.Safe at hwalks
    rw [htrace] at hwalks
    exact Bool.false_ne_true (hwalks (.hop none) (by simp))
  · obtain ⟨tab, htab, htrace⟩ := Option.map_eq_some_iff.mp hbeyond
    obtain ⟨s, hs, htrace⟩ := Option.map_eq_some_iff.mp htrace
    obtain ⟨htrace, hlen⟩ := Prod.mk.inj htrace
    refine ⟨tab, htab, fun hguarded => ?_⟩
    have hlast : PartialRun.Guarded stepState Walks (load 1000 0 tab (fun _ => none) false)
        ([.datagram strayRecord.encode] ++ [.turn (plainEnv 0x100)]) := hguarded
    have hwalks : s.Walks (.turn (plainEnv 0x100)) := hlast.last hs
    unfold Walks Traced.Safe at hwalks
    rw [htrace] at hwalks
    obtain ⟨ptr, hptr, hin⟩ := hwalks (.cell (some ⟨5, 5⟩)) (by simp)
    cases hptr
    have hle := hin.2
    rw [hlen] at hle
    exact absurd hle (by decide)

end System

end Modelnet.FreeBSD

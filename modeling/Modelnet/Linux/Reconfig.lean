import Modelnet.PathArrays
import Modelnet.Linux.ClockSteps

/-!
# Writes to the tables while packets are in flight

The system of arrivals, turns of the clock and writes to the tables, in any order. A packet on the
calendar points into the tables; the handlers free and replace them without looking at the
calendar. No packet is left with a stale path when a hop table is loaded or the node count changed
with an empty calendar only, and a path replaced only when no packet is on it (`Quiet`).
-/

namespace Modelnet.Linux

open Modelnet

/-- What happens to the module and its tables. -/
inductive Activity where
  | input (skb : SkBuff) (kmallocOk : Bool) (okfn : Okfn)
  | clock (turn : Kernel.ClockTurn)
  | write (w : TableWrite)

namespace Kernel

def activity (hz : ℕ) (k : Kernel) : Activity → Option Kernel
  | .input skb kmallocOk okfn => k.step hz (.input skb kmallocOk okfn)
  | .clock turn => k.clockTurn hz turn
  | .write w => some { k with tab := (handle hz k.tab w).tab }

/-- The rest of the path at `path` lies in an installed array and names elements of the hop table;
so does what `emulate_nexthop` reads next. -/
structure Fresh (t : PathTab) (path : PathPtr) : Prop where
  installed : t.Installed path.arr
  rest : ∃ cells, t.pathArrs path.arr = some cells ∧ path.off < cells.length ∧
    ∀ h, some h ∈ cells.drop path.off → t.Element h
  next : ∃ curhop, t.readPath path = some curhop ∧ ∀ h, curhop = some h → t.Element h

/-- No packet on the calendar has a stale path. -/
def NoStalePath (k : Kernel) : Prop :=
  ∀ p ∈ k.calendar, ∃ pkt path, k.pkts p = some pkt ∧ pkt.path = some path ∧ Fresh k.tab path

/-- The write does not pull a path away from under a packet: the tables are replaced with an empty
calendar only, and what is stored is a path of hops between nodes, in a cell whose path no packet
is on. -/
def Quiet (k : Kernel) : Activity → Prop
  | .write (.hoptable w) => w.Loads → k.calendar = []
  | .write (.nodecount w) => w.Resizes k.tab → k.calendar = []
  | .write (.pathentry w) => w.Stores k.tab →
      k.tab.PathInBounds w.srcNode.toInt w.dstNode.toInt w.path ∧
        ∀ p ∈ k.calendar, ∀ pkt path, k.pkts p = some pkt → pkt.path = some path →
          k.tab.readCell w.srcNode.toInt w.dstNode.toInt ≠ some (some path.arr)
  | _ => True

theorem fresh_of_onPath {t : PathTab} {path : PathPtr} (h : t.OnPath path) : Fresh t path := by
  obtain ⟨hinst, hs, hpath, hoff⟩ := h
  have hlen : path.off < (hs.map some ++ [none]).length := by
    rw [List.length_append, List.length_map]
    exact Nat.lt_succ_of_le hoff
  have helem : ∀ h, some h ∈ hs.map some ++ [none] → t.Element h := by
    intro h hh
    rcases List.mem_append.mp hh with hh | hh
    · obtain ⟨h', hh', heq⟩ := List.mem_map.mp hh
      exact Option.some.inj heq ▸ hpath.element h' hh'
    · cases List.mem_singleton.mp hh
  have hnext : t.readPath path = some (hs.map some ++ [none])[path.off] := by
    unfold PathTab.readPath
    rw [hpath.cells, Option.bind_some]
    exact List.getElem?_eq_getElem hlen
  refine ⟨hinst, ⟨_, hpath.cells, hlen, fun h hh => helem h (List.mem_of_mem_drop hh)⟩,
    _, hnext, fun h hh => helem h ?_⟩
  rw [← hh]
  exact List.getElem_mem hlen

/-! ## The invariant -/

/-- The tables are intact, and every packet is on an installed path. -/
structure InStep (k : Kernel) : Prop where
  intact : k.tab.Intact
  packet : ∀ p pkt, k.pkts p = some pkt → ∃ path, pkt.path = some path ∧ k.tab.OnPath path

variable {hz : ℕ} {k k' : Kernel} {p : PktId} {pkt : Packet} {s : SkbId}

namespace InStep

theorem keeps (h : InStep k) (htab : k.tab.Keeps k'.tab) (hpkts : k'.pkts = k.pkts) :
    InStep k' := by
  refine ⟨htab.intact h.intact, fun p pkt hp => ?_⟩
  rw [hpkts] at hp
  obtain ⟨path, hpath, hon⟩ := h.packet p pkt hp
  exact ⟨path, hpath, htab.onPath hon⟩

theorem congr (h : InStep k) (htab : k'.tab = k.tab) (hpkts : k'.pkts = k.pkts) : InStep k' :=
  h.keeps (htab ▸ PathTab.Keeps.refl k.tab) hpkts

theorem setPkt (h : InStep k) (p : PktId) (pkt : Packet) {path : PathPtr}
    (hpath : pkt.path = some path) (hon : k.tab.OnPath path) : InStep (k.setPkt p pkt) := by
  refine ⟨h.intact, fun q pkt' hq => ?_⟩
  by_cases hqp : q = p
  · subst hqp
    have hself : (k.setPkt q pkt).pkts q = some pkt := Function.update_self _ _ _
    cases Option.some.inj (hself.symm.trans hq)
    exact ⟨path, hpath, hon⟩
  · exact h.packet q pkt' ((Function.update_of_ne hqp _ _).symm.trans hq)

theorem consume (h : InStep k) (p : PktId) (s : SkbId) (seen : List Obs) :
    InStep (k.consume p s seen) := by
  refine ⟨h.intact, fun q pkt hq => ?_⟩
  by_cases hqp : q = p
  · subst hqp
    have hself : (k.consume q s seen).pkts q = none := Function.update_self _ _ _
    cases hself.symm.trans hq
  · exact h.packet q pkt ((Function.update_of_ne hqp _ _).symm.trans hq)

theorem nextHop (h : InStep k) (hp : k.pkts p = some pkt) (hnext : NextHop hz k p pkt s k') :
    InStep k' := by
  have hcross : ∀ ptr hop, InStep (k.crossHop p ptr hop) := fun ptr hop =>
    h.keeps (PathTab.keeps_setHop k.tab ptr hop) rfl
  cases hnext with
  | forward => exact h.consume _ _ _
  | remote => exact h.consume _ _ _
  | dropped => exact (hcross _ _).consume _ _ _
  | @queued path ptr hop hop' x due hpath hread =>
    obtain ⟨path', hpath', hon⟩ := h.packet p pkt hp
    cases Option.some.inj (hpath.symm.trans hpath')
    have hon' := (PathTab.keeps_setHop k.tab ptr hop').onPath (hon.advance hread)
    exact ((hcross ptr hop').setPkt p (pkt.advance path) rfl hon').congr rfl rfl

theorem start (h : InStep k) {skb : SkBuff} (okfn : Okfn) {arr : ℕ} (hpath : k.pathOf skb arr) :
    InStep (k.start skb okfn arr) := by
  obtain ⟨row, col, -, hread⟩ := hpath
  have hon := h.intact.onPath ⟨row, col, hread⟩
  refine ⟨h.intact, fun q pkt hq => ?_⟩
  by_cases hqp : q = k.nextPkt
  · subst hqp
    cases Option.some.inj ((holding_start k skb okfn arr).read.symm.trans hq)
    exact ⟨⟨arr, 0⟩, rfl, hon⟩
  · have hq' : Function.update (Function.update k.pkts _ _) _ _ q = some pkt := hq
    rw [Function.update_of_ne hqp, Function.update_of_ne hqp] at hq'
    exact h.packet q pkt hq'

theorem input (hown : Owned k none) (h : InStep k) {skb : SkBuff} {okfn : Okfn}
    (hstep : InputStep hz k skb okfn k') : InStep k' := by
  have hp := hown.fresh k.nextPkt (Nat.le_refl _)
  cases hstep with
  | passed => exact h.congr rfl rfl
  | noPath =>
    refine h.congr rfl ?_
    show Function.update (Function.update k.pkts _ _) _ none = k.pkts
    rw [Function.update_idem, ← hp, Function.update_eq_self]
  | started hpath hnext =>
    exact ((h.start _ hpath).nextHop (holding_start k skb okfn _).read hnext).congr rfl rfl

/-- With an empty calendar any intact tables will do. -/
theorem of_calendar_nil (hown : Owned k none) (hnil : k.calendar = []) {t : PathTab}
    (hint : t.Intact) : InStep { k with tab := t } := by
  refine ⟨hint, fun p pkt hp => ?_⟩
  have hm := hown.mem_calendar hp
  rw [hnil] at hm
  cases hm

theorem keeps_procNodetable (t : PathTab) (w : NodetableWrite) :
    t.Keeps (procNodetable t w).tab := by
  unfold procNodetable
  split_ifs
  · exact PathTab.Keeps.refl t
  · cases w.copied with
    | none => exact PathTab.keeps_writeNodetable t _ _
    | some n => exact PathTab.keeps_writeNodetable t _ _
  · exact PathTab.Keeps.refl t

theorem keeps_of_rejected {t t' : PathTab} (h : t' = t ∨ t' = t.alloc) : t.Keeps t' := by
  rcases h with rfl | rfl
  · exact PathTab.Keeps.refl _
  · exact PathTab.keeps_alloc t

/-- **Quiet writes** leave the packets on their paths. -/
theorem write (hown : Owned k none) (h : InStep k) {w : TableWrite}
    (hquiet : Quiet k (.write w)) : InStep { k with tab := (handle hz k.tab w).tab } := by
  cases w with
  | nodetable w => exact h.keeps (keeps_procNodetable k.tab w) rfl
  | nodecount w =>
    by_cases hresize : w.Resizes k.tab
    · refine of_calendar_nil hown (hquiet hresize) ?_
      rw [handle, procNodecount_of_resizes hresize]
      exact h.intact.resize _ _ _
    · rw [handle, procNodecount_of_not_resizes hresize]
      exact h
  | hoptable w =>
    by_cases hloads : w.Loads
    · refine of_calendar_nil hown (hquiet hloads) ?_
      have hint := PathTab.intact_loadHoptable hz k.tab.alloc w.hopcount.toInt w.hops w.tableOk
        w.exittickOk w.slotlenOk
      have hnone := PathTab.loadHoptable_pathtable hz k.tab.alloc w.hopcount.toInt w.hops w.tableOk
        w.exittickOk w.slotlenOk
      rw [handle, procHophandle_of_loads hloads]
      dsimp only
      split_ifs
      · exact hint.kfree (PathTab.not_installed_of_none hnone)
      · exact hint
    · exact h.keeps (keeps_of_rejected (procHophandle_of_not_loads hloads).2) rfl
  | pathentry w =>
    by_cases hstores : w.Stores k.tab
    · obtain ⟨hoptab, hhop, heq⟩ := procPathentry_of_stores hstores
      obtain ⟨⟨-, -, hin⟩, hfree⟩ := hquiet hstores
      obtain ⟨hint, hon⟩ := h.intact.storePath hhop w.srcNode.toInt w.dstNode.toInt hin w.pathOk
      have htab : (handle hz k.tab (.pathentry w)).tab = _ := congrArg Handled.tab heq
      dsimp only at htab
      rw [apply_ite Handled.tab] at htab
      rw [htab]
      refine ⟨hint, fun p pkt hp => ?_⟩
      obtain ⟨path, hpath, hpos⟩ := h.packet p pkt hp
      exact ⟨path, hpath, hon path hpos (hfree p (hown.mem_calendar hp) pkt path hp hpath)⟩
    · exact h.keeps (keeps_of_rejected (procPathentry_of_not_stores hstores).2) rfl

end InStep

theorem inStep_load (jiffies : ℕ) (random : ℕ → ℕ) :
    InStep (load jiffies random PathTab.empty) :=
  ⟨PathTab.intact_empty, fun p pkt hp => by cases hp⟩

/-- Packets stay on their paths while the clock runs. -/
theorem inStep_rule (hz : ℕ) : ClockRule hz fun k => Owned k none ∧ InStep k where
  owned h := h.1
  drain {k p l pkt s k'} h hslot hp hnext _ := by
    have hdel : InStep (k.listDel k.curSlot p) := h.2.congr rfl rfl
    exact ⟨(h.1.listDel hslot).nextHop hp hnext, hdel.nextHop hp.read hnext⟩
  tick h hslot := ⟨h.1.tick hslot, h.2.congr rfl rfl⟩

/-- **Step lemma.** A quiet activity leaves every packet on an installed path. -/
theorem inStep_of_activity {a : Activity} (h : Owned k none ∧ InStep k) (hquiet : Quiet k a)
    (hstep : k.activity hz a = some k') : Owned k' none ∧ InStep k' := by
  obtain ⟨hown, hin⟩ := h
  cases a with
  | input skb kmallocOk okfn =>
    have hinput := inputStep_of_step hstep
    exact ⟨hown.input hinput, hin.input hown hinput⟩
  | clock turn => exact (inStep_rule hz).clockTurn ⟨hown, hin⟩ hstep
  | write w =>
    cases hstep
    exact ⟨hown.congr rfl rfl rfl (Nat.le_refl _) (Nat.le_refl _) id, hin.write hown hquiet⟩

/-- **No stale paths.** In every run of arrivals, turns of the clock and quiet writes, every packet
on the calendar has the rest of its path in an installed array and before it hops of the installed
hop table. -/
theorem noStalePath_of_quiet (hz jiffies : ℕ) (random : ℕ → ℕ) {as : List Activity} {k : Kernel}
    (hquiet : PartialRun.Guarded (activity hz) Quiet (load jiffies random PathTab.empty) as)
    (hrun : PartialRun.run (activity hz) (load jiffies random PathTab.empty) as = some k) :
    k.NoStalePath := by
  obtain ⟨hown, hin⟩ := PartialRun.run_invariant_guarded
    (fun k a k' hk hq hstep => inStep_of_activity hk hq hstep) hquiet hrun
    ⟨owned_load jiffies random PathTab.empty, inStep_load jiffies random⟩
  intro p hp
  obtain ⟨pkt, s, hp⟩ := hown.holding_of_mem hp
  obtain ⟨path, hpath, hon⟩ := hin.packet p pkt hp.read
  exact ⟨pkt, path, hp.read, hpath, fresh_of_onPath hon⟩

/-! ## A packet under a new hop table -/

def linkTable : Activity :=
  .write (.hoptable ⟨true, 0, 12, true, 1, true, fun _ => ⟨8000, 10, 0, 10, 0, 0⟩, true, true,
    fun _ => true, fun _ => true⟩)

/-- One node, a path over the link from the node to itself, and a packet for it. -/
def packetOnLink : List Activity :=
  [linkTable, .write (.nodecount ⟨true, some 1, true, fun _ => true⟩),
    .write (.pathentry ⟨true, 20, true, 0, 0, 1, true, fun _ => 0, true, true⟩),
    .input ⟨0x0a000000, 0x0a000001, 1500⟩ true 7]

/-- The packet is due at tick 12, with the path in place. -/
theorem noStalePath_packetOnLink :
    ∃ k, PartialRun.run (activity 1000) (load 0 (fun _ => 0) PathTab.empty) packetOnLink = some k ∧
      k.packetCalendar 12 = [0] ∧ k.NoStalePath := by
  have hcal : (PartialRun.run (activity 1000) (load 0 (fun _ => 0) PathTab.empty)
      packetOnLink).map (fun k => k.packetCalendar 12) = some [0] := by decide +kernel
  have hnil := calendar_load 0 (fun _ => 0) PathTab.empty
  have hquiet : PartialRun.Guarded (activity 1000) Quiet (load 0 (fun _ => 0) PathTab.empty)
      packetOnLink := by
    refine ⟨fun _ => hnil, fun k₁ h₁ => ⟨fun _ => ?_, fun k₂ h₂ => ⟨fun _ => ⟨?_, fun p hp => ?_⟩,
      fun k₃ _ => ⟨trivial, fun _ _ => trivial⟩⟩⟩⟩
    · cases h₁
      exact hnil
    · cases h₁
      cases h₂
      refine ⟨⟨by decide, by decide⟩, ⟨by decide, by decide⟩, fun h hh => ?_⟩
      obtain ⟨i, -, rfl⟩ := List.mem_map.mp hh
      exact (show 0 ≤ (0 : Int32).toInt ∧ (0 : Int32).toInt < 1 by decide)
    · cases h₁
      cases h₂
      have hm : p ∈ (load 0 (fun _ => 0) PathTab.empty).calendar := hp
      rw [hnil] at hm
      cases hm
  obtain ⟨k, hk, hslot⟩ := Option.map_eq_some_iff.mp hcal
  exact ⟨k, hk, hslot, noStalePath_of_quiet 1000 0 (fun _ => 0) hquiet hk⟩

/-- The hop table is loaded again while the packet is on the link: its path is gone. -/
theorem not_noStalePath_reload :
    ∃ k, PartialRun.run (activity 1000) (load 0 (fun _ => 0) PathTab.empty)
        (packetOnLink ++ [linkTable]) = some k ∧ ¬ k.NoStalePath := by
  have hstate : (PartialRun.run (activity 1000) (load 0 (fun _ => 0) PathTab.empty)
      (packetOnLink ++ [linkTable])).map
        (fun k => (k.calendarTick, k.packetCalendar 12, k.tab.pathtable.isNone)) =
      some (0, [0], true) := by decide +kernel
  obtain ⟨k, hk, hk'⟩ := Option.map_eq_some_iff.mp hstate
  obtain ⟨htick, hk'⟩ := Prod.mk.inj hk'
  obtain ⟨hslot, hnone⟩ := Prod.mk.inj hk'
  refine ⟨k, hk, fun hstale => ?_⟩
  have hmem : (0 : PktId) ∈ k.calendar := by
    refine List.mem_map.mpr ⟨(12, 0), TimingWheel.mem_agenda.mpr ⟨?_, ?_⟩, rfl⟩
    · rw [htick]
      decide
    · show 0 ∈ k.packetCalendar 12
      rw [hslot]
      exact List.mem_singleton.mpr rfl
  obtain ⟨pkt, path, -, -, hfresh⟩ := hstale 0 hmem
  exact PathTab.not_installed_of_none (Option.isNone_iff_eq_none.mp hnone) hfresh.installed

end Kernel

end Modelnet.Linux

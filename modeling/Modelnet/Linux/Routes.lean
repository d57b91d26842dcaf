import Modelnet.Linux.Clock
import Mathlib.Tactic.IntervalCases

/-!
# Packets on their routes

What traffic needs of the tables: an address pair that is looked up has a cell in the path table,
and the array behind a cell names hops of the hop table up to its null (`Routes`). Traffic changes
the queues of the hops only, so this lasts, every packet stays on its route, and every call of the
module completes.
-/

namespace Modelnet

/-- A local hop that can be crossed: `qsize` divides, and both arrays are there. -/
def Hop.Crossable (hop : Hop) : Prop :=
  hop.emulator = 0 → hop.qsize ≠ 0 ∧ hop.exittickAlloc = true ∧ hop.slotlenAlloc = true

def Hop.Parametric (P : Hop → Prop) : Prop := ∀ {hop hop' : Hop}, hop.SameParams hop' → P hop → P hop'

theorem Hop.parametric_crossable : Hop.Parametric Hop.Crossable := by
  intro hop hop' hsame h hemulator
  rw [hsame.qsize, hsame.exittickAlloc, hsame.slotlenAlloc]
  exact h (hsame.emulator ▸ hemulator)

theorem Linux.emulateHop_isSome (hz len curtick randomVal : ℕ) {hop : Hop} (h : hop.Crossable)
    (hemulator : hop.emulator = 0) :
    (Linux.emulateHop hz hop len curtick randomVal).isSome := by
  obtain ⟨hq, he, hs⟩ := h hemulator
  by_cases hdrop :
      (Linux.willDropPacketPlr hop randomVal || Linux.willDropPacketBw (drained hop curtick)) = true
  · obtain ⟨n, heq⟩ := Linux.emulateHop_dropped hz len curtick randomVal hq hdrop
    rw [heq]
    rfl
  · have hp := sameParams_drained hop curtick
    rw [Linux.emulateHop_accepted hz len hq hdrop,
      Hop.accept_eq _ _ _ _ ⟨hp.exittickAlloc.trans he, hp.slotlenAlloc.trans hs⟩]
    rfl

namespace PathTab

variable {P : Hop → Prop} {t : PathTab} {arr : ℕ} {hs : List HopPtr}

/-- The array `arr` holds the hops `hs`, all of them in the hop table, and a null. -/
structure IsRoute (P : Hop → Prop) (t : PathTab) (arr : ℕ) (hs : List HopPtr) : Prop where
  cells : t.pathArrs arr = some (hs.map some ++ [none])
  hop : ∀ h ∈ hs, ∃ hop, t.hops h = some hop ∧ P hop

/-- Every lookup finds a cell, and every cell a route or nothing. -/
structure Routes (P : Hop → Prop) (t : PathTab) : Prop where
  cell : ∀ src dst row col, t.lookupPath src dst = .cell row col → (t.readCell row col).isSome
  route : ∀ row col arr, t.readCell row col = some (some arr) → ∃ hs, t.IsRoute P arr hs

theorem IsRoute.readPath (h : t.IsRoute P arr hs) {off : ℕ} (hoff : off ≤ hs.length) :
    t.readPath ⟨arr, off⟩ = some hs[off]? := by
  unfold PathTab.readPath
  rw [h.cells, Option.bind_some]
  rcases hoff.lt_or_eq with hlt | rfl
  · rw [List.getElem?_append_left (by rw [List.length_map]; exact hlt), List.getElem?_map,
      List.getElem?_eq_getElem hlt]
    rfl
  · rw [List.getElem?_append_right (by rw [List.length_map]), List.length_map, Nat.sub_self,
      List.getElem?_eq_none (Nat.le_refl _)]
    rfl

theorem IsRoute.lt_of_readPath (h : t.IsRoute P arr hs) {off : ℕ} (hoff : off ≤ hs.length)
    {ptr : HopPtr} (hread : t.readPath ⟨arr, off⟩ = some (some ptr)) : hs[off]? = some ptr :=
  Option.some.inj ((h.readPath hoff).symm.trans hread)

theorem IsRoute.unique {hs' : List HopPtr} (h : t.IsRoute P arr hs) (h' : t.IsRoute P arr hs') :
    hs = hs' := by
  have heq := Option.some.inj (h.cells.symm.trans h'.cells)
  exact (List.map_injective_iff.mpr (Option.some_injective _)) (List.append_cancel_right heq)

theorem IsRoute.setHop (hP : Hop.Parametric P) (h : t.IsRoute P arr hs) {ptr : HopPtr}
    {hop hop' : Hop} (hhop : t.hops ptr = some hop) (hsame : hop.SameParams hop') :
    (t.setHop ptr hop').IsRoute P arr hs := by
  refine ⟨h.cells, fun q hq => ?_⟩
  obtain ⟨hop₁, h₁, hP₁⟩ := h.hop q hq
  by_cases hqp : q = ptr
  · subst hqp
    cases Option.some.inj (hhop.symm.trans h₁)
    exact ⟨hop', Function.update_self _ _ _, hP hsame hP₁⟩
  · exact ⟨hop₁, (Function.update_of_ne hqp _ _).trans h₁, hP₁⟩

theorem Routes.setHop (hP : Hop.Parametric P) (h : t.Routes P) {ptr : HopPtr} {hop hop' : Hop}
    (hhop : t.hops ptr = some hop) (hsame : hop.SameParams hop') : (t.setHop ptr hop').Routes P :=
  ⟨h.cell, fun row col arr hread =>
    (h.route row col arr hread).imp fun _ hr => hr.setHop hP hhop hsame⟩

/-! ## A small network -/

/-- A link of 1000 bytes per tick with a delay of 10 ticks, at 1000 ticks per second. -/
def link : Hop := Hop.install 1000 0
  { bandwidth := 8000, delay := 10, plr := 0, qsize := 10, emulator := 0, xtqType := 0 }

def oneLinkRows : PathRows where
  base := 1
  rows := [2, 3]
  dim := 2
  cell := fun row col => if row = 0 ∧ col = 1 then some 4 else none

/-- Two nodes joined by a link from the first to the second. -/
def oneLink : PathTab where
  nodetable n := if n < 2 then Int32.ofNat n else -1
  hopcount := 1
  hoptable := some 0
  nodecount := 2
  pathtable := some oneLinkRows
  hops ptr := if ptr = ⟨0, 0⟩ then some link else none
  pathArrs arr := if arr = 4 then some [some ⟨0, 0⟩, none] else none
  nextBlock := 5
  freed := []

theorem nodetable_oneLink (n : ℕ) :
    (oneLink.nodetable n).toInt = -1 ∨ 0 ≤ (oneLink.nodetable n).toInt ∧
      (oneLink.nodetable n).toInt < 2 := by
  unfold oneLink
  dsimp only
  split_ifs with hn
  · right
    interval_cases n <;> decide
  · left
    decide

theorem routes_oneLink (hP : P link) : oneLink.Routes P := by
  constructor
  case cell =>
    intro src dst row col h
    have hs := nodetable_oneLink (src &&& nodemask).toNat
    have hd := nodetable_oneLink (dst &&& nodemask).toNat
    unfold lookupPath at h
    dsimp only at h
    split_ifs at h with hno
    rw [not_or, not_or] at hno
    obtain ⟨rfl, rfl⟩ := Lookup.cell.inj h
    have hs' := hs.resolve_left hno.1
    have hd' := hd.resolve_left hno.2.1
    unfold readCell
    rw [show oneLink.pathtable = some oneLinkRows from rfl, Option.bind_some,
      if_pos ⟨hs'.1, hs'.2, hd'.1, hd'.2⟩]
    rfl
  case route =>
    intro row col arr h
    unfold readCell at h
    rw [show oneLink.pathtable = some oneLinkRows from rfl, Option.bind_some] at h
    split_ifs at h
    have harr := Option.some.inj h
    unfold oneLinkRows at harr
    dsimp only at harr
    split_ifs at harr
    cases harr
    refine ⟨[⟨0, 0⟩], rfl, fun ptr hptr => ⟨link, ?_, hP⟩⟩
    rw [List.mem_singleton.mp hptr]
    rfl

end PathTab

namespace Linux

namespace Kernel

variable {hz : ℕ} {k k' : Kernel} {p : PktId} {pkt : Packet} {s : SkbId} {P : Hop → Prop}

/-- The tables serve the traffic, and every packet is somewhere on its route. -/
structure OnRoute (P : Hop → Prop) (k : Kernel) : Prop where
  routes : k.tab.Routes P
  packet : ∀ p pkt, k.pkts p = some pkt →
    ∃ path hs, pkt.path = some path ∧ k.tab.IsRoute P path.arr hs ∧ path.off ≤ hs.length

theorem OnRoute.congr (h : OnRoute P k) (htab : k'.tab = k.tab) (hpkts : k'.pkts = k.pkts) :
    OnRoute P k' :=
  ⟨htab.symm ▸ h.routes, fun p pkt hp => htab.symm ▸ h.packet p pkt (hpkts ▸ hp)⟩

theorem OnRoute.consume (h : OnRoute P k) (p : PktId) (s : SkbId) (seen : List Obs) :
    OnRoute P (k.consume p s seen) := by
  refine ⟨h.routes, fun q pkt hq => ?_⟩
  by_cases hqp : q = p
  · subst hqp
    exact absurd ((Function.update_self _ _ _).symm.trans hq) (by simp)
  · exact h.packet q pkt ((Function.update_of_ne hqp _ _).symm.trans hq)

theorem OnRoute.crossHop (hP : Hop.Parametric P) (h : OnRoute P k) {ptr : HopPtr} {hop hop' : Hop}
    (hhop : k.tab.hops ptr = some hop) (hsame : hop.SameParams hop') :
    OnRoute P (k.crossHop p ptr hop') := by
  refine ⟨h.routes.setHop hP hhop hsame, fun q pkt hq => ?_⟩
  obtain ⟨path, hs, hpath, hr, hoff⟩ := h.packet q pkt hq
  exact ⟨path, hs, hpath, hr.setHop hP hhop hsame, hoff⟩

theorem OnRoute.setPkt (h : OnRoute P k) (pkt : Packet) (path : PathPtr) {hs : List HopPtr}
    (hpath : pkt.path = some path) (hr : k.tab.IsRoute P path.arr hs)
    (hoff : path.off ≤ hs.length) (p : PktId) : OnRoute P (k.setPkt p pkt) := by
  refine ⟨h.routes, fun q pkt' hq => ?_⟩
  by_cases hqp : q = p
  · subst hqp
    have hself : (k.setPkt q pkt).pkts q = some pkt := Function.update_self _ _ _
    cases Option.some.inj (hself.symm.trans hq)
    exact ⟨path, hs, hpath, hr, hoff⟩
  · exact h.packet q pkt' ((Function.update_of_ne hqp _ _).symm.trans hq)

/-- A call of `emulate_nexthop` moves its packet along its route. -/
theorem OnRoute.nextHop (hP : Hop.Parametric P) (h : OnRoute P k) (hp : k.pkts p = some pkt)
    (hnext : NextHop hz k p pkt s k') : OnRoute P k' := by
  cases hnext with
  | forward => exact h.consume _ _ _
  | remote => exact h.consume _ _ _
  | dropped hpath hread hhop _ hemulate =>
    exact (h.crossHop hP hhop (sameParams_emulateHop hemulate).1).consume _ _ _
  | @queued path ptr hop hop' x due hpath hread hhop _ hemulate =>
    have hsame := (sameParams_emulateHop hemulate).1
    obtain ⟨path', hs, hpath', hr, hoff⟩ := h.packet p pkt hp
    cases Option.some.inj (hpath.symm.trans hpath')
    have hlt := (List.getElem?_eq_some_iff.mp (hr.lt_of_readPath hoff hread)).1
    have hset := (h.crossHop (p := p) hP hhop hsame).setPkt (pkt.advance path)
      ⟨path.arr, path.off + 1⟩ rfl (hr.setHop hP hhop hsame) hlt p
    exact hset.congr rfl rfl

theorem OnRoute.start (h : OnRoute P k) {skb : SkBuff} (okfn : Okfn) {arr : ℕ}
    (hpath : k.pathOf skb arr) : OnRoute P (k.start skb okfn arr) := by
  obtain ⟨row, col, -, hread⟩ := hpath
  obtain ⟨hs, hr⟩ := h.routes.route row col arr hread
  refine ⟨h.routes, fun q pkt hq => ?_⟩
  by_cases hqp : q = k.nextPkt
  · subst hqp
    cases Option.some.inj ((holding_start k skb okfn arr).read.symm.trans hq)
    exact ⟨⟨arr, 0⟩, hs, rfl, hr, Nat.zero_le _⟩
  · have hq' : Function.update (Function.update k.pkts _ _) _ _ q = some pkt := hq
    rw [Function.update_of_ne hqp, Function.update_of_ne hqp] at hq'
    exact h.packet q pkt hq'

theorem OnRoute.input (hP : Hop.Parametric P) (hown : Owned k none) (h : OnRoute P k)
    {skb : SkBuff} {okfn : Okfn} (hstep : InputStep hz k skb okfn k') : OnRoute P k' := by
  have hp := hown.fresh k.nextPkt (Nat.le_refl _)
  cases hstep with
  | passed => exact h.congr rfl rfl
  | noPath =>
    refine h.congr rfl ?_
    show Function.update (Function.update k.pkts _ _) _ none = k.pkts
    rw [Function.update_idem, ← hp, Function.update_eq_self]
  | started hpath hnext =>
    exact ((h.start _ hpath).nextHop hP (holding_start k skb okfn _).read hnext).congr rfl rfl

theorem onRoute_rule (hz : ℕ) (hP : Hop.Parametric P) :
    RunRule hz fun k => Owned k none ∧ OnRoute P k where
  owned h := h.1
  drain h hslot hp hnext _ := by
    refine ⟨(h.1.listDel hslot).nextHop hp hnext, OnRoute.nextHop hP ?_ hp.read hnext⟩
    exact h.2.congr rfl rfl
  tick h hslot := ⟨h.1.tick hslot, h.2.congr rfl rfl⟩
  input h hstep := ⟨h.1.input hstep, h.2.input hP h.1 hstep⟩

/-! ## Every call completes -/

theorem emulateNexthop_isSome (hz : ℕ) (hC : ∀ hop, P hop → hop.Crossable) (h : OnRoute P k)
    (hp : Holding k p pkt s) (hhook : k.ipRcvFinishHook.isSome) :
    (k.emulateNexthop hz p).isSome := by
  obtain ⟨path, hs, hpath, hr, hoff⟩ := h.packet p pkt hp.read
  unfold emulateNexthop
  rw [hp.read, Option.bind_some, hpath, Option.bind_some, hr.readPath hoff, Option.bind_some]
  cases hptr : hs[path.off]? with
  | none =>
    dsimp only
    rw [forwardPacket_mnFreePkt_eq hp hhook]
    rfl
  | some ptr =>
    obtain ⟨hop, hhop, hPhop⟩ := hr.hop ptr (List.mem_of_getElem? hptr)
    dsimp only
    rw [hhop, Option.bind_some]
    by_cases hemulator : hop.emulator ≠ 0
    · rw [if_pos hemulator, Option.bind_some, finishNexthop_eq hp hpath hhop,
        if_pos (Or.inl hemulator)]
      rfl
    · rw [if_neg hemulator, emulateHop_eq hp hhop]
      rw [not_not] at hemulator
      obtain ⟨⟨hop', out⟩, hout⟩ := Option.isSome_iff_exists.mp (emulateHop_isSome hz pkt.info.len
        k.calendarTick (k.random 0) (hC hop hPhop) hemulator)
      have hhop' : (k.crossHop p ptr hop').tab.hops ptr = some hop' := Function.update_self _ _ _
      rw [hout, Option.map_some, Option.bind_some]
      cases out with
      | dropped plr bw =>
        have hp' : Holding (k.crossHop p ptr hop') p pkt s := hp.of_eq rfl rfl
        dsimp only
        rw [finishNexthop_eq hp' hpath hhop', if_pos (Or.inr rfl)]
        rfl
      | queued x due =>
        have hp' : Holding (((k.crossHop p ptr hop').setPkt p
            { pkt with state := qBwDelay }).listAddTail p due) p { pkt with state := qBwDelay } s :=
          ⟨Function.update_self _ _ _, hp.skb, hp.live, hp.id⟩
        dsimp only
        rw [finishNexthop_eq hp' hpath hhop']
        split_ifs <;> rfl

theorem completes_onRoute (hC : ∀ hop, P hop → hop.Crossable) :
    Completes hz fun k => Owned k none ∧ OnRoute P k := by
  intro k p l ⟨hown, hr⟩ hslot
  obtain ⟨pkt, s, hp⟩ := hown.holding_of_mem (p := p)
    (by rw [calendar_listDel hslot]; exact List.mem_cons_self)
  exact emulateNexthop_isSome hz hC (hr.congr rfl rfl) (hp.of_eq rfl rfl)
    (hown.hook p (by rw [hp.read]; rfl))

theorem enter_isSome (h : k.tab.Routes P) (skb : SkBuff) (kmallocOk : Bool) (okfn : Okfn) :
    ((k.receive skb).enter k.nextSkb kmallocOk okfn).isSome := by
  rw [enter_receive]
  split_ifs
  · cases hlookup : k.tab.lookupPath (skb.rewrite.saddr &&& ~~~modelForcebit)
        skb.rewrite.daddr with
    | noPath => rfl
    | cell row col =>
      dsimp only
      rw [Option.isSome_map]
      exact h.cell _ _ _ _ hlookup
  · rfl
  · rfl

theorem step_input_isSome (hz : ℕ) (hC : ∀ hop, P hop → hop.Crossable) (h : OnRoute P k)
    (skb : SkBuff) (kmallocOk : Bool) (okfn : Okfn) :
    (k.step hz (.input skb kmallocOk okfn)).isSome := by
  obtain ⟨r, henter⟩ := Option.isSome_iff_exists.mp (enter_isSome h.routes skb kmallocOk okfn)
  unfold step
  dsimp only
  rw [Option.isSome_map, filterIpinput_eq, henter, Option.bind_some]
  cases entered_of_enter henter with
  | passed => rfl
  | noPath => rfl
  | started hpath =>
    rw [Option.isSome_map]
    exact emulateNexthop_isSome hz hC (h.start okfn hpath) (holding_start k skb okfn _) rfl

theorem ClockRule.hopclock_isSome {I : Kernel → Prop} (hI : ClockRule hz I)
    (hC : ∀ hop, P hop → hop.Crossable) (hr : ∀ {k}, I k → OnRoute P k) (hk : I k) (jiffies : ℕ) :
    ∃ k', k.hopclock hz jiffies = some k' ∧ I k' ∧ k'.calendarTick = max k.calendarTick jiffies := by
  obtain ⟨h, hsome⟩ := hopclock_rule hI hk jiffies
  obtain ⟨k', hk'⟩ := Option.isSome_iff_exists.mp (hsome fun hk hslot =>
    completes_onRoute hC ⟨hI.owned hk, hr hk⟩ hslot)
  exact ⟨k', hk', h k' hk'⟩

/-- **Total runs.** With tables that serve the traffic, every run completes. -/
theorem RunRule.run_isSome {I : Kernel → Prop} (hI : RunRule hz I)
    (hC : ∀ hop, P hop → hop.Crossable) (hr : ∀ {k}, I k → OnRoute P k) (hk : I k)
    (es : List Event) : ∃ k', PartialRun.run (step hz) k es = some k' ∧ I k' := by
  refine PartialRun.run_isSome (fun k e hk => ?_) es hk
  cases e with
  | input skb kmallocOk okfn =>
    obtain ⟨k', h⟩ := Option.isSome_iff_exists.mp
      (step_input_isSome hz hC (hr hk) skb kmallocOk okfn)
    exact ⟨k', h, hI.input hk (inputStep_of_step h)⟩
  | hopclock jiffies =>
    obtain ⟨k', h, hk', -⟩ := hI.toClockRule.hopclock_isSome hC hr hk jiffies
    exact ⟨k', h, hk'⟩

end Kernel

end Linux

end Modelnet

import Modelnet.Linux.NextHop

/-!
# What one arrival does

A buffer handed to `filter_ipinput` is passed back because it is not for modelnet or no packet
struct can be allocated, passed back because there is no path for it, or starts on a path
(`Entered`); then `emulate_nexthop` takes over (`InputStep`).
-/

namespace Modelnet.Linux

open Modelnet

/-- The buffer with the addresses that `emulate_path` writes into its header. -/
def SkBuff.rewrite (skb : SkBuff) : SkBuff :=
  { skb with
    saddr := skb.saddr ||| (skb.daddr &&& modelForcebit)
    daddr := skb.daddr &&& ~~~modelForcebit }

namespace Kernel

/-- The arrival of a buffer for which a packet struct could be allocated, up to the lookup of its
path. -/
def arrival (k : Kernel) (skb : SkBuff) (okfn : Okfn) : Kernel :=
  { k with
    skbs := Function.update k.skbs k.nextSkb (some skb.rewrite)
    nextSkb := k.nextSkb + 1
    ipRcvFinishHook := some okfn
    pkts := Function.update k.pkts k.nextPkt (some
      { path := none, skb := some k.nextSkb, cachehost := 0, state := 0,
        info := { id := 0, len := skb.len, src := 0, dst := 0, hop := 0 } })
    nextPkt := k.nextPkt + 1
    log := k.log ++ [.input k.nextSkb, .kmalloc k.nextPkt] }

/-- The packet struct of an arriving buffer at the start of its path. -/
def startPkt (k : Kernel) (skb : SkBuff) (arr : ℕ) : Packet where
  path := some ⟨arr, 0⟩
  skb := some k.nextSkb
  cachehost := 0
  state := 0
  info := { id := 0, len := skb.len, src := skb.rewrite.saddr, dst := skb.rewrite.daddr, hop := 0 }

/-- The module when `emulate_nexthop` is called for an arriving buffer. -/
def start (k : Kernel) (skb : SkBuff) (okfn : Okfn) (arr : ℕ) : Kernel :=
  let k₁ := (k.arrival skb okfn).setPkt k.nextPkt (k.startPkt skb arr)
  { k₁ with log := k₁.log ++ [.path k.nextPkt arr] }

/-- The path that the tables give an arriving buffer. -/
def pathOf (k : Kernel) (skb : SkBuff) (arr : ℕ) : Prop :=
  ∃ row col, k.tab.lookupPath (skb.rewrite.saddr &&& ~~~modelForcebit) skb.rewrite.daddr =
    .cell row col ∧ k.tab.readCell row col = some (some arr)

/-- The outcomes of an arrival. -/
inductive InputStep (hz : ℕ) (k : Kernel) (skb : SkBuff) (okfn : Okfn) : Kernel → Prop where
  | passed {hook : Option Okfn} (hhook : hook = k.ipRcvFinishHook ∨ hook = some okfn) :
      InputStep hz k skb okfn
        (({ k.receive skb with ipRcvFinishHook := hook } : Kernel).giveVerdict k.nextSkb .accept)
  | noPath : InputStep hz k skb okfn
      (((k.arrival skb okfn).kfreePkt k.nextPkt).giveVerdict k.nextSkb .accept)
  | started {arr : ℕ} {k₁ : Kernel} (hpath : k.pathOf skb arr)
      (hnext : NextHop hz (k.start skb okfn arr) k.nextPkt (k.startPkt skb arr) k.nextSkb k₁) :
      InputStep hz k skb okfn (k₁.giveVerdict k.nextSkb .stolen)

/-! ## Up to the call of `emulate_nexthop` -/

/-- `emulate_path` up to the call of `emulate_nexthop`, with the error. -/
def startPath (k : Kernel) (p : PktId) : Option (Kernel × ℤ) :=
  (k.pkts p).bind fun pkt => pkt.skb.bind fun s => (k.skbs s).bind fun ip =>
    let saddr := ip.saddr ||| (ip.daddr &&& modelForcebit)
    let daddr := ip.daddr &&& ~~~modelForcebit
    let k := { k with
      skbs := Function.update k.skbs s (some { ip with saddr := saddr, daddr := daddr }) }
    match k.tab.lookupPath (saddr &&& ~~~modelForcebit) daddr with
    | .noPath => some (k, enoent)
    | .cell row col =>
      (k.tab.readCell row col).bind fun cell =>
        match cell with
        | none => some (k, enoent)
        | some arr =>
          let k := k.setPkt p { pkt with
            path := some ⟨arr, 0⟩
            info := { pkt.info with hop := 0, src := saddr, dst := daddr } }
          some ({ k with log := k.log ++ [.path p arr] }, 0)

/-- `filter_ipinput` up to the call of `emulate_nexthop`, with the packet of that call, or none when
the buffer is accepted. -/
def enter (k : Kernel) (s : SkbId) (kmallocOk : Bool) (okfn : Okfn) :
    Option (Kernel × Option PktId) :=
  (k.skbs s).bind fun iph =>
    if iph.saddr &&& modelMask = modelSubnet ∧ iph.daddr &&& modelMask = modelSubnet then
      let k := { k with ipRcvFinishHook := some okfn }
      if kmallocOk then
        let p := k.nextPkt
        ((k.allocPkt s iph.len).startPath p).bind fun r =>
          if r.2 ≠ 0 then
            (r.1.pkts p).bind fun pkt =>
              ((r.1.setPkt p { pkt with skb := none }).mnFreePkt p).map fun k => (k, none)
          else some (r.1, some p)
      else some (k, none)
    else some (k, none)

variable {hz : ℕ} {k k' : Kernel} {skb : SkBuff} {okfn : Okfn}

theorem emulatePath_eq (hz : ℕ) (k : Kernel) (p : PktId) :
    emulatePath hz k p = (k.startPath p).bind fun r =>
      if r.2 ≠ 0 then some r else (emulateNexthop hz r.1 p).map fun k => (k, 0) := by
  unfold emulatePath startPath
  rw [Option.bind_assoc]
  congr 1
  funext pkt
  rw [Option.bind_assoc]
  congr 1
  funext s
  rw [Option.bind_assoc]
  congr 1
  funext ip
  dsimp only
  cases k.tab.lookupPath ((ip.saddr ||| (ip.daddr &&& modelForcebit)) &&& ~~~modelForcebit)
      (ip.daddr &&& ~~~modelForcebit) with
  | noPath => rfl
  | cell row col =>
    dsimp only
    rw [Option.bind_assoc]
    congr 1
    funext cell
    cases cell <;> rfl

/-- `filter_ipinput` is its first part and `emulate_nexthop`. -/
theorem filterIpinput_eq (hz : ℕ) (k : Kernel) (s : SkbId) (kmallocOk : Bool) (okfn : Okfn) :
    filterIpinput hz k s kmallocOk okfn = (k.enter s kmallocOk okfn).bind fun r =>
      match r.2 with
      | none => some (r.1, .accept)
      | some p => (emulateNexthop hz r.1 p).map fun k => (k, .stolen) := by
  unfold filterIpinput enter
  rw [Option.bind_assoc]
  congr 1
  funext iph
  split_ifs with hmodel hok
  · dsimp only
    rw [emulatePath_eq, Option.bind_assoc, Option.bind_assoc]
    congr 1
    funext r
    by_cases herr : r.2 ≠ 0
    · rw [if_pos herr, if_pos herr, Option.bind_some, if_pos herr, Option.bind_assoc]
      congr 1
      funext pkt
      rw [Option.bind_map]
      exact Option.map_eq_bind
    · rw [if_neg herr, if_neg herr, Option.bind_some, Option.bind_map]
      exact Option.map_eq_bind.symm
  · rfl
  · rfl

/-- What has happened before `emulate_nexthop` is called. -/
inductive Entered (k : Kernel) (skb : SkBuff) (okfn : Okfn) : Kernel × Option PktId → Prop where
  | passed {hook : Option Okfn} (hhook : hook = k.ipRcvFinishHook ∨ hook = some okfn) :
      Entered k skb okfn ({ k.receive skb with ipRcvFinishHook := hook }, none)
  | noPath : Entered k skb okfn ((k.arrival skb okfn).kfreePkt k.nextPkt, none)
  | started {arr : ℕ} (hpath : k.pathOf skb arr) :
      Entered k skb okfn (k.start skb okfn arr, some k.nextPkt)

theorem holding_start (k : Kernel) (skb : SkBuff) (okfn : Okfn) (arr : ℕ) :
    Holding (k.start skb okfn arr) k.nextPkt (k.startPkt skb arr) k.nextSkb where
  read := Function.update_self _ _ _
  skb := rfl
  live := by
    show (Function.update k.skbs k.nextSkb (some skb.rewrite) k.nextSkb).isSome
    rw [Function.update_self]
    rfl
  id := rfl

/-- The state in which `filter_ipinput` calls `emulate_path`. -/
def allocated (k : Kernel) (skb : SkBuff) (okfn : Okfn) : Kernel :=
  ({ k.receive skb with ipRcvFinishHook := some okfn } : Kernel).allocPkt k.nextSkb skb.len

theorem arrival_eq (k : Kernel) (skb : SkBuff) (okfn : Okfn) :
    { k.allocated skb okfn with
      skbs := Function.update (k.allocated skb okfn).skbs k.nextSkb (some skb.rewrite) } =
      k.arrival skb okfn := by
  unfold allocated allocPkt receive arrival
  dsimp only
  rw [Function.update_idem, List.append_assoc]
  rfl

/-- `emulate_path` rewrites the header and looks the path up. -/
theorem startPath_allocated (k : Kernel) (skb : SkBuff) (okfn : Okfn) :
    (k.allocated skb okfn).startPath k.nextPkt =
      match k.tab.lookupPath (skb.rewrite.saddr &&& ~~~modelForcebit) skb.rewrite.daddr with
      | .noPath => some (k.arrival skb okfn, enoent)
      | .cell row col =>
        (k.tab.readCell row col).bind fun cell =>
          match cell with
          | none => some (k.arrival skb okfn, enoent)
          | some arr => some (k.start skb okfn arr, 0) := by
  have hpkt : (k.allocated skb okfn).pkts k.nextPkt = some
      { path := none, skb := some k.nextSkb, cachehost := 0, state := 0,
        info := { id := 0, len := skb.len, src := 0, dst := 0, hop := 0 } } :=
    Function.update_self _ _ _
  have hskb : (k.allocated skb okfn).skbs k.nextSkb = some skb := Function.update_self _ _ _
  unfold startPath
  rw [hpkt, Option.bind_some]
  dsimp only
  rw [Option.bind_some, hskb, Option.bind_some]
  have harrival := arrival_eq k skb okfn
  unfold SkBuff.rewrite at harrival
  rw [harrival]
  rfl

/-- The struct is freed after its buffer was taken out of it. -/
theorem setPkt_mnFreePkt (k : Kernel) (p : PktId) (pkt : Packet) :
    (k.setPkt p { pkt with skb := none }).mnFreePkt p = some (k.kfreePkt p) := by
  have hpkt : (k.setPkt p { pkt with skb := none }).pkts p = some { pkt with skb := none } :=
    Function.update_self _ _ _
  unfold mnFreePkt
  rw [hpkt, Option.bind_some]
  unfold kfreePkt setPkt
  dsimp only
  rw [Function.update_idem]

theorem enter_receive (k : Kernel) (skb : SkBuff) (kmallocOk : Bool) (okfn : Okfn) :
    (k.receive skb).enter k.nextSkb kmallocOk okfn =
      if skb.saddr &&& modelMask = modelSubnet ∧ skb.daddr &&& modelMask = modelSubnet then
        if kmallocOk then
          match k.tab.lookupPath (skb.rewrite.saddr &&& ~~~modelForcebit) skb.rewrite.daddr with
          | .noPath => some ((k.arrival skb okfn).kfreePkt k.nextPkt, none)
          | .cell row col =>
            (k.tab.readCell row col).map fun cell =>
              match cell with
              | none => ((k.arrival skb okfn).kfreePkt k.nextPkt, none)
              | some arr => (k.start skb okfn arr, some k.nextPkt)
        else some ({ k.receive skb with ipRcvFinishHook := some okfn }, none)
      else some (k.receive skb, none) := by
  have hskb : (k.receive skb).skbs k.nextSkb = some skb := Function.update_self _ _ _
  -- without a path the struct is freed
  have hfree : ((k.arrival skb okfn).pkts k.nextPkt).bind (fun pkt =>
      (((k.arrival skb okfn).setPkt k.nextPkt { pkt with skb := none }).mnFreePkt
        k.nextPkt).map fun k => (k, (none : Option PktId))) =
      some ((k.arrival skb okfn).kfreePkt k.nextPkt, none) := by
    rw [show (k.arrival skb okfn).pkts k.nextPkt = some _ from Function.update_self _ _ _,
      Option.bind_some, setPkt_mnFreePkt]
    rfl
  unfold enter
  rw [hskb, Option.bind_some]
  by_cases hmodel : skb.saddr &&& modelMask = modelSubnet ∧ skb.daddr &&& modelMask = modelSubnet
  · rw [if_pos hmodel, if_pos hmodel]
    cases kmallocOk with
    | false => rfl
    | true =>
      rw [if_pos rfl, if_pos rfl]
      show Option.bind ((k.allocated skb okfn).startPath k.nextPkt) _ = _
      rw [startPath_allocated]
      cases k.tab.lookupPath (skb.rewrite.saddr &&& ~~~modelForcebit) skb.rewrite.daddr with
      | noPath => exact hfree
      | cell row col =>
        dsimp only
        rw [Option.bind_assoc, Option.map_eq_bind]
        congr 1
        funext cell
        cases cell with
        | none => exact hfree
        | some arr => rfl
  · rw [if_neg hmodel, if_neg hmodel]

theorem entered_of_enter {kmallocOk : Bool} {r : Kernel × Option PktId}
    (h : (k.receive skb).enter k.nextSkb kmallocOk okfn = some r) : Entered k skb okfn r := by
  rw [enter_receive] at h
  split_ifs at h with hmodel hok
  · split at h
    · cases h
      exact .noPath
    · next row col hlookup =>
      obtain ⟨cell, hcell, rfl⟩ := Option.map_eq_some_iff.mp h
      cases cell with
      | none => exact .noPath
      | some arr => exact .started ⟨row, col, hlookup, hcell⟩
  · cases h
    exact .passed (Or.inr rfl)
  · cases h
    exact .passed (Or.inl rfl)

/-- **Outcomes.** An arrival that completes has one of the three outcomes. -/
theorem inputStep_of_step {kmallocOk : Bool}
    (h : k.step hz (.input skb kmallocOk okfn) = some k') : InputStep hz k skb okfn k' := by
  obtain ⟨⟨k₁, v⟩, hfilter, rfl⟩ := Option.map_eq_some_iff.mp h
  rw [filterIpinput_eq] at hfilter
  obtain ⟨r, henter, hfilter⟩ := Option.bind_eq_some_iff.mp hfilter
  cases entered_of_enter henter with
  | passed hhook =>
    cases hfilter
    exact .passed hhook
  | noPath =>
    cases hfilter
    exact .noPath
  | started hpath =>
    obtain ⟨k₂, hnext, heq⟩ := Option.map_eq_some_iff.mp hfilter
    cases heq
    exact .started hpath (nextHop_of_emulateNexthop (holding_start k skb okfn _) rfl hnext)

end Kernel

end Modelnet.Linux

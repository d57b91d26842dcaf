import Modelnet.Linux.Reconfig

/-!
# Buffers passed back to the stack

`filter_ipinput` accepts a buffer that is not for modelnet, one for which no packet struct can be
allocated, and one without a path. `emulate_path` moves the force bit from the destination to the
source before it looks the path up, and nothing moves it back. A buffer is passed back as it came
in unless it was sent to a forced destination to which there is no path (`ForcedAstray`).
-/

namespace Modelnet.Linux

open Modelnet

/-- The header is changed by `emulate_path` exactly if the destination is forced. -/
theorem SkBuff.rewrite_eq_iff (skb : SkBuff) :
    (skb.rewrite.saddr = skb.saddr ∧ skb.rewrite.daddr = skb.daddr) ↔
      skb.daddr &&& modelForcebit = 0 := by
  unfold SkBuff.rewrite
  dsimp only
  constructor
  · rintro ⟨-, hdaddr⟩
    calc skb.daddr &&& modelForcebit
        = skb.daddr &&& ~~~modelForcebit &&& modelForcebit := by rw [hdaddr]
      _ = 0 := by
        rw [BitVec.and_assoc, show ~~~modelForcebit &&& modelForcebit = 0#32 by decide]
        exact BitVec.and_zero
  · intro hforce
    have hzero : skb.daddr &&& modelForcebit = 0#32 := hforce
    refine ⟨by rw [hzero, BitVec.or_zero], ?_⟩
    calc skb.daddr &&& ~~~modelForcebit
        = (skb.daddr &&& ~~~modelForcebit) ||| (skb.daddr &&& modelForcebit) := by
          rw [hzero, BitVec.or_zero]
      _ = skb.daddr := by
        rw [← BitVec.and_or_distrib_left,
          show ~~~modelForcebit ||| modelForcebit = BitVec.allOnes 32 by decide]
        exact BitVec.and_allOnes

namespace Kernel

/-- The buffer has the addresses of `skb`, and no packet struct refers to it. -/
structure PassedBack (k : Kernel) (s : SkbId) (skb : SkBuff) : Prop where
  addresses : ∃ skb', k.skbs s = some skb' ∧ skb'.saddr = skb.saddr ∧ skb'.daddr = skb.daddr
  released : ∀ p pkt, k.pkts p = some pkt → pkt.skb ≠ some s

/-- If `filter_ipinput` accepts this buffer, it passes it back. -/
def AcceptsIntact (hz : ℕ) (k : Kernel) (skb : SkBuff) (kmallocOk : Bool) (okfn : Okfn) : Prop :=
  ∀ k', (k.receive skb).filterIpinput hz k.nextSkb kmallocOk okfn = some (k', .accept) →
    k'.PassedBack k.nextSkb skb

/-- `lookup_path` returns null for the buffer. -/
def Pathless (k : Kernel) (skb : SkBuff) : Prop :=
  match k.tab.lookupPath (skb.rewrite.saddr &&& ~~~modelForcebit) skb.rewrite.daddr with
  | .noPath => True
  | .cell row col => k.tab.readCell row col = some none

/-- The buffer is for modelnet, its destination is forced, its packet struct is allocated, and there
is no path for it. -/
def ForcedAstray (k : Kernel) (skb : SkBuff) (kmallocOk : Bool) : Prop :=
  (skb.saddr &&& modelMask = modelSubnet ∧ skb.daddr &&& modelMask = modelSubnet) ∧
    kmallocOk = true ∧ skb.daddr &&& modelForcebit ≠ 0 ∧ k.Pathless skb

variable {hz : ℕ} {k k' : Kernel} {skb : SkBuff} {kmallocOk : Bool} {okfn : Okfn}

/-! ## What is accepted -/

/-- A buffer without a path is accepted with its header rewritten and its struct freed. -/
theorem enter_of_pathless
    (hmodel : skb.saddr &&& modelMask = modelSubnet ∧ skb.daddr &&& modelMask = modelSubnet)
    (hpath : k.Pathless skb) :
    (k.receive skb).enter k.nextSkb true okfn =
      some ((k.arrival skb okfn).kfreePkt k.nextPkt, none) := by
  unfold Pathless at hpath
  rw [enter_receive, if_pos hmodel, if_pos rfl]
  cases hlookup : k.tab.lookupPath (skb.rewrite.saddr &&& ~~~modelForcebit) skb.rewrite.daddr with
  | noPath => rfl
  | cell row col =>
    rw [hlookup] at hpath
    have hcell : k.tab.readCell row col = some none := hpath
    dsimp only
    rw [hcell]
    rfl

theorem enter_of_not_pathless
    (hmodel : skb.saddr &&& modelMask = modelSubnet ∧ skb.daddr &&& modelMask = modelSubnet)
    (hpath : ¬ k.Pathless skb) {k₁ : Kernel} :
    (k.receive skb).enter k.nextSkb true okfn ≠ some (k₁, none) := by
  unfold Pathless at hpath
  rw [enter_receive, if_pos hmodel, if_pos rfl]
  cases hlookup : k.tab.lookupPath (skb.rewrite.saddr &&& ~~~modelForcebit) skb.rewrite.daddr with
  | noPath =>
    rw [hlookup] at hpath
    exact absurd trivial hpath
  | cell row col =>
    rw [hlookup] at hpath
    have hcell : k.tab.readCell row col ≠ some none := hpath
    dsimp only
    intro h
    obtain ⟨cell, hread, heq⟩ := Option.map_eq_some_iff.mp h
    cases cell with
    | none => exact hcell hread
    | some arr => cases heq

/-- A buffer that is accepted was not given to `emulate_nexthop`. -/
theorem filterIpinput_accept_iff {k₁ : Kernel} :
    (k.receive skb).filterIpinput hz k.nextSkb kmallocOk okfn = some (k₁, .accept) ↔
      (k.receive skb).enter k.nextSkb kmallocOk okfn = some (k₁, none) := by
  rw [filterIpinput_eq]
  constructor
  · intro h
    obtain ⟨⟨k₂, entered⟩, henter, h⟩ := Option.bind_eq_some_iff.mp h
    cases entered with
    | none =>
      cases h
      exact henter
    | some p =>
      obtain ⟨k₃, -, heq⟩ := Option.map_eq_some_iff.mp h
      cases heq
  · intro h
    rw [h]
    rfl

/-! ## What is passed back -/

/-- No struct refers to a buffer that has yet to come in. -/
theorem Owned.not_held_nextSkb (h : Owned k none) {p : PktId} {pkt : Packet}
    (hp : k.pkts p = some pkt) : pkt.skb ≠ some k.nextSkb := by
  obtain ⟨pkt', s, hh⟩ := h.holding p (by rw [hp]; rfl)
  cases Option.some.inj (hp.symm.trans hh.read)
  rw [hh.skb]
  intro hs
  have hlive := hh.live
  rw [Option.some.inj hs, h.freshSkb k.nextSkb (Nat.le_refl _)] at hlive
  cases hlive

theorem passedBack_receive (h : Owned k none) (skb : SkBuff) (hook : Option Okfn) :
    ({ k.receive skb with ipRcvFinishHook := hook } : Kernel).PassedBack k.nextSkb skb where
  addresses := ⟨skb, Function.update_self _ _ _, rfl, rfl⟩
  released _ _ hp := h.not_held_nextSkb hp

/-- Without a path the buffer is released, but its header stays rewritten. -/
theorem passedBack_noPath_iff (h : Owned k none) (skb : SkBuff) (okfn : Okfn) :
    ((k.arrival skb okfn).kfreePkt k.nextPkt).PassedBack k.nextSkb skb ↔
      skb.daddr &&& modelForcebit = 0 := by
  have hskb : ((k.arrival skb okfn).kfreePkt k.nextPkt).skbs k.nextSkb = some skb.rewrite :=
    Function.update_self _ _ _
  rw [← SkBuff.rewrite_eq_iff]
  constructor
  · rintro ⟨⟨skb', hread, haddr⟩, -⟩
    cases Option.some.inj (hskb.symm.trans hread)
    exact haddr
  · intro haddr
    refine ⟨⟨_, hskb, haddr⟩, fun p pkt hp => ?_⟩
    have hp' : Function.update (Function.update k.pkts k.nextPkt _) k.nextPkt none p = some pkt := hp
    rw [Function.update_idem] at hp'
    by_cases hnew : p = k.nextPkt
    · subst hnew
      rw [Function.update_self] at hp'
      cases hp'
    · rw [Function.update_of_ne hnew] at hp'
      exact h.not_held_nextSkb hp'

theorem acceptsIntact_iff_of_owned (h : Owned k none) (hz : ℕ) (skb : SkBuff) (kmallocOk : Bool)
    (okfn : Okfn) : k.AcceptsIntact hz skb kmallocOk okfn ↔ ¬ k.ForcedAstray skb kmallocOk := by
  unfold AcceptsIntact ForcedAstray
  simp only [filterIpinput_accept_iff]
  by_cases hmodel : skb.saddr &&& modelMask = modelSubnet ∧ skb.daddr &&& modelMask = modelSubnet
  · cases kmallocOk with
    | false =>
      refine iff_of_true (fun k' hk' => ?_) fun hastray => absurd hastray.2.1 Bool.false_ne_true
      rw [enter_receive, if_pos hmodel, if_neg Bool.false_ne_true] at hk'
      cases hk'
      exact passedBack_receive h skb (some okfn)
    | true =>
      by_cases hpath : k.Pathless skb
      · rw [enter_of_pathless hmodel hpath]
        constructor
        · rintro hback ⟨-, -, hforce, -⟩
          exact hforce ((passedBack_noPath_iff h skb okfn).mp (hback _ rfl))
        · intro hastray k' hk'
          cases hk'
          refine (passedBack_noPath_iff h skb okfn).mpr ?_
          by_contra hforce
          exact hastray ⟨hmodel, rfl, hforce, hpath⟩
      · exact iff_of_true (fun k' hk' => absurd hk' (enter_of_not_pathless hmodel hpath))
          fun hastray => hpath hastray.2.2.2
  · refine iff_of_true (fun k' hk' => ?_) fun hastray => hmodel hastray.1
    rw [enter_receive, if_neg hmodel] at hk'
    cases hk'
    exact passedBack_receive h skb k.ipRcvFinishHook

/-! ## Every run -/

theorem owned_of_activity {a : Activity} (h : Owned k none) (hstep : k.activity hz a = some k') :
    Owned k' none := by
  cases a with
  | input skb kmallocOk okfn => exact h.input (inputStep_of_step hstep)
  | clock turn => exact ((turns_rule hz k).clockTurn ⟨h, [], rfl⟩ hstep).1
  | write w =>
    cases hstep
    exact h.congr rfl rfl rfl (Nat.le_refl _) (Nat.le_refl _) id

/-- **Accepted buffers.** After every run of arrivals, turns of the clock and writes to the tables,
from any tables, `filter_ipinput` passes a buffer that it accepts back with its addresses, and no
struct refers to it, exactly if the buffer is not for a forced destination without a path. -/
theorem acceptsIntact_iff {hz jiffies : ℕ} {random : ℕ → ℕ} {tab : PathTab} {as : List Activity}
    (hrun : PartialRun.run (activity hz) (load jiffies random tab) as = some k) (skb : SkBuff)
    (kmallocOk : Bool) (okfn : Okfn) :
    k.AcceptsIntact hz skb kmallocOk okfn ↔ ¬ k.ForcedAstray skb kmallocOk :=
  acceptsIntact_iff_of_owned
    (PartialRun.run_invariant (fun _ _ _ hk hstep => owned_of_activity hk hstep) hrun
      (owned_load jiffies random tab)) hz skb kmallocOk okfn

/-- A buffer for `10.0.0.2`, to which there is no path, while another packet is on a link. -/
theorem acceptsIntact_packetOnLink :
    ∃ k, PartialRun.run (activity 1000) (load 0 (fun _ => 0) PathTab.empty) packetOnLink = some k ∧
      (k.AcceptsIntact 1000 ⟨0x0a000000, 0x0a000002, 60⟩ true 7 ↔
        ¬ k.ForcedAstray ⟨0x0a000000, 0x0a000002, 60⟩ true) := by
  have hsome : (PartialRun.run (activity 1000) (load 0 (fun _ => 0) PathTab.empty)
      packetOnLink).isSome := by decide +kernel
  obtain ⟨k, hk⟩ := Option.isSome_iff_exists.mp hsome
  exact ⟨k, hk, acceptsIntact_iff hk _ _ _⟩

/-- `10.0.0.2` sends to the forced address `10.128.0.1` before any path is loaded: the buffer goes
back to the stack as one from `10.128.0.2` to `10.0.0.1`. -/
theorem not_acceptsIntact_forced :
    ¬ (load 0 (fun _ => 0) PathTab.empty).AcceptsIntact 1000 ⟨0x0a000002, 0x0a800001, 60⟩ true 7 := by
  intro h
  obtain ⟨skb', hread, -, hdaddr⟩ := (h _ rfl).addresses
  have hrewritten : skb' = ⟨0x0a800002, 0x0a000001, 60⟩ := Option.some.inj (hread.symm.trans rfl)
  rw [hrewritten] at hdaddr
  exact absurd hdaddr (by decide)

end Kernel

end Modelnet.Linux

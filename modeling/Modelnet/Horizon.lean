import Modelnet.Backlog
import Modelnet.Calendar
import Modelnet.Linux.HopRun
import Modelnet.FreeBSD.HopRun
import Mathlib.Data.Finset.Lattice.Fold
import Mathlib.Order.Lattice.Nat

/-!
# The horizon of the calendar

A packet due `SCHEDLEN` ticks ahead or more is filed in a slot that is served too early. Neither
module bounds the backlog and the latency of a hop against `SCHEDLEN`. This file proves the bound
under which no packet of length at most `L` ever reaches the horizon: the largest backlog of the
hop plus its latency is below `SCHEDLEN`. For the Linux module the backlog is `qsize` times the
largest bandwidth delay of one packet; for the fast links of the FreeBSD module, which carry the
rest of a tick over to the next packet, it is the time of the bytes of a full queue.
-/

namespace Modelnet

open LinkQueue PartialRun

/-- What is claimed of a packet put on the calendar at `tick`: it is due within `SCHEDLEN` ticks,
its slot is not served before it is due, and it is not due in the past. -/
def OnTime (hop : Hop) (tick : ℕ) (out : Outcome) : Prop :=
  ∀ x due, out = .queued x due → due < tick + schedLen ∧
    (∀ t : ℤ, tick ≤ t → calendarSlot t = calendarSlot due → due ≤ t) ∧
    (hop.KBps ≠ 0 → 0 ≤ hop.delay → (tick : ℤ) ≤ due)

/-- The slot of a tick below the horizon is not served before that tick. -/
theorem not_served_early {tick : ℕ} {due : ℤ} (h : due < tick + schedLen) {t : ℤ}
    (ht : tick ≤ t) (hslot : calendarSlot t = calendarSlot due) : due ≤ t := by
  rcases lt_or_ge due (tick : ℤ) with hlt | hge
  · omega
  · exact TimingWheel.le_of_index_eq schedLen_pos ⟨hge, h⟩ ht hslot

/-! ## The argument for both modules -/

section

variable {bwDelay : Hop → ℕ → ℕ × Hop} {hop₀ hop : Hop} {L b W tick : ℕ} {w used : ℕ → ℕ}
  {Ok : ℕ → Prop} {q : LinkQueue} {c : Call} {r : Hop × Outcome}

/-- **Step lemma**, with a bandwidth limit: the meter goes on, and an exit tick is ahead by at
most the weight of a full queue. -/
theorem Crosses.metered (hbw : OnlyFragment bwDelay) (hm : Meter bwDelay hop₀ L b w used Ok)
    (hW : ∀ len ≤ L, w len ≤ W) (hp : hop₀.SameParams hop) (hK : hop₀.KBps ≠ 0)
    (h : hop.Metered L b w used Ok tick q) (ht : tick ≤ c.tick) (hlen : c.len ≤ L)
    (hr : Crosses bwDelay hop c r) :
    ∃ q', r.1.Metered L b w used Ok c.tick q' ∧ ∀ x due, r.2 = .queued x due →
      c.tick ≤ x ∧ x * b ≤ c.tick * b + hop₀.qsize.toNat * W := by
  have hK' : hop.KBps ≠ 0 := hp.KBps ▸ hK
  have hnow := h.mono ht
  have hd := hnow.updateBwq
  rw [← drained_of_limited hK'] at hd
  cases hr with
  | dropped h₁ n plr bw =>
    rcases h₁ with rfl | rfl
    · exact ⟨q, ⟨hnow.refines.frame _ _ _ _, hnow.fragment, hnow.len_le, hnow.paced⟩,
        fun x due hx => by cases hx⟩
    · exact ⟨_, ⟨hd.refines.frame _ _ _ _, hd.fragment, hd.len_le, hd.paced⟩,
        fun x due hx => by cases hx⟩
  | accepted hroom hacc =>
    have hp' := hp.trans (sameParams_drained hop c.tick)
    have hlt := hroom hK'
    rw [hd.refines.slotdepth, hp.qsize] at hlt
    obtain ⟨hop', x, heq, -, hmet, hx, hwt⟩ :=
      hd.accept hbw hm hp' (hp'.KBps ▸ hK) (by unfold Hop.ringSize; rw [hp'.qsize]; omega) hlen
    rw [heq] at hacc
    cases hacc
    refine ⟨_, hmet, fun y due hy => ?_⟩
    cases hy
    have hle := weight_le fun e he => hW e.2 (hmet.len_le e he)
    have hfull : (q.purge c.tick ++ [(x, c.len)]).length * W ≤ hop₀.qsize.toNat * W := by
      refine Nat.mul_le_mul_right W ?_
      rw [List.length_append, List.length_singleton]
      omega
    exact ⟨(le_tailExit_purge q c.tick).trans hx, by omega⟩

/-- The last exit tick stored is not ahead of the current tick. -/
def Hop.NotAhead (tick : ℕ) (hop : Hop) : Prop := hop.slotdepth ≠ 0 → hop.lastExit ≤ tick

/-- **Step lemma**, without a bandwidth limit. -/
theorem Crosses.notAhead (hK : hop.KBps = 0)
    (h : hop.NotAhead tick) (ht : tick ≤ c.tick) (hr : Crosses bwDelay hop c r) :
    r.1.NotAhead c.tick ∧ ∀ x due, r.2 = .queued x due → x ≤ c.tick := by
  have hnow : hop.NotAhead c.tick := fun hd => (h hd).trans ht
  cases hr with
  | dropped h₁ n plr bw =>
    rw [drained_of_unlimited hK, or_self] at h₁
    subst h₁
    exact ⟨hnow, fun x due hx => by cases hx⟩
  | accepted _ hacc =>
    rw [drained_of_unlimited hK] at hacc
    have htail : hop.tailExit c.tick ≤ c.tick := by
      unfold Hop.tailExit
      split_ifs with hd
      · exact hnow hd
      · exact Nat.le_refl _
    unfold Hop.accept at hacc
    split_ifs at hacc with ha
    cases hacc
    rw [Hop.charge_of_unlimited hK]
    refine ⟨fun _ => ?_, fun x due hx => ?_⟩
    · exact (Hop.lastExit_enqueue (hop.counted c.len) c.len _).trans_le htail
    · cases hx
      exact htail

/-- Every packet of length at most `L` that a run of crossings puts on the calendar is on time, as
long as the ticks of the calls never run back. -/
def AlwaysOnTime (emulate : Hop → Call → Option (Hop × Outcome)) (L : ℕ) (hop₀ : Hop) : Prop :=
  ∀ cs : List Call, (cs.map Call.tick).Pairwise (· ≤ ·) → (∀ c ∈ cs, c.len ≤ L) →
    Guarded (fun hop c => (emulate hop c).map Prod.fst)
      (fun hop c => ∀ hop' out, emulate hop c = some (hop', out) → OnTime hop c.tick out) hop₀ cs

variable {bw : Call → Hop → ℕ → ℕ × Hop} {emulate : Hop → Call → Option (Hop × Outcome)}

/-- Nothing is put on the calendar by a hop that cannot be crossed. -/
theorem alwaysOnTime_of_none (h : ∀ c, emulate hop₀ c = none) : AlwaysOnTime emulate L hop₀ := by
  intro cs _ _
  cases cs with
  | nil => trivial
  | cons c cs =>
    refine ⟨fun hop' out he => ?_, fun hop' he => ?_⟩
    · rw [h c] at he
      cases he
    · obtain ⟨r, hr, -⟩ := Option.map_eq_some_iff.mp he
      rw [h c] at hr
      cases hr

/-- An exit tick within `m` ticks is on time when `m` and the latency stay below the horizon. -/
theorem onTime_of_exit (hp : hop₀.SameParams hop) {m : ℕ} (hm : (m : ℤ) + hop₀.delay < schedLen)
    (hdue : ∀ x due, r.2 = .queued x due → due = x + hop.delay)
    (hx : ∀ x due, r.2 = .queued x due → x ≤ c.tick + m ∧ (hop₀.KBps ≠ 0 → c.tick ≤ x)) :
    OnTime hop c.tick r.2 := by
  intro x due hout
  obtain ⟨hle, hge⟩ := hx x due hout
  have heq := hdue x due hout
  rw [hp.delay] at heq
  have hlt : due < c.tick + schedLen := by omega
  refine ⟨hlt, fun t ht hslot => not_served_early hlt ht hslot, fun hK hd => ?_⟩
  rw [hp.delay] at hd
  have hge' := hge (hp.KBps ▸ hK)
  omega

/-- **Run lemma**, with a bandwidth limit. -/
theorem alwaysOnTime_of_limited (honly : ∀ c, OnlyFragment (bw c))
    (hcross : ∀ hop c r, emulate hop c = some r → Crosses (bw c) hop c r)
    (hm : ∀ c, Meter (bw c) hop₀ L b w used Ok) (hW : ∀ len ≤ L, w len ≤ W)
    (hK : hop₀.KBps ≠ 0) (h : hop₀.Refines []) (hf : hop₀.fragment = 0)
    (hsched : ((hop₀.qsize.toNat * W / b : ℕ) : ℤ) + hop₀.delay < schedLen) :
    AlwaysOnTime emulate L hop₀ := by
  intro cs hticks hlen
  refine guarded_of_clock Call.tick
    (fun t hop => hop₀.SameParams hop ∧ ∃ q, hop.Metered L b w used Ok t q)
    (P := fun c => c.len ≤ L) (t := 0) ?_ ?_
    (List.pairwise_cons.mpr ⟨fun _ _ => Nat.zero_le _, hticks⟩) hlen
  · rintro t hop c ⟨hp, q, hmet⟩ ht hc
    have hb : 0 < b := Nat.zero_lt_of_lt ((hm c).used_lt 0)
    refine ⟨fun hop' out he => ?_, fun hop' he => ?_⟩
    · have hr := hcross hop c _ he
      obtain ⟨q', -, hx⟩ := hr.metered (honly c) (hm c) hW hp hK hmet ht hc
      refine onTime_of_exit hp hsched (hr.sameParams (honly c)).2 fun x due hout => ?_
      obtain ⟨hge, hle⟩ := hx x due hout
      refine ⟨?_, fun _ => hge⟩
      have hdiv : x - c.tick ≤ hop₀.qsize.toNat * W / b := by
        rw [Nat.le_div_iff_mul_le hb, Nat.sub_mul]
        omega
      omega
    · obtain ⟨r, hr, rfl⟩ := Option.map_eq_some_iff.mp he
      replace hr := hcross hop c r hr
      obtain ⟨q', hmet', -⟩ := hr.metered (honly c) (hm c) hW hp hK hmet ht hc
      exact ⟨hp.trans (hr.sameParams (honly c)).1, q', hmet'⟩
  · refine ⟨Hop.SameParams.refl hop₀, [], .of_empty h ?_ 0⟩
    rw [hf]
    exact (hm ⟨0, 0, 0⟩).ok_zero

/-- **Run lemma**, without a bandwidth limit. -/
theorem alwaysOnTime_of_unlimited (honly : ∀ c, OnlyFragment (bw c))
    (hcross : ∀ hop c r, emulate hop c = some r → Crosses (bw c) hop c r)
    (hK : hop₀.KBps = 0) (h : hop₀.Refines []) (hsched : hop₀.delay < schedLen) :
    AlwaysOnTime emulate L hop₀ := by
  intro cs hticks _
  refine guarded_of_clock Call.tick (fun t hop => hop₀.SameParams hop ∧ hop.NotAhead t)
    (P := fun _ => True) (t := 0) ?_
    ⟨Hop.SameParams.refl hop₀, fun hd => absurd h.slotdepth hd⟩
    (List.pairwise_cons.mpr ⟨fun _ _ => Nat.zero_le _, hticks⟩) fun _ _ => trivial
  rintro t hop c ⟨hp, hna⟩ ht -
  refine ⟨fun hop' out he => ?_, fun hop' he => ?_⟩
  · have hr := hcross hop c _ he
    obtain ⟨-, hx⟩ := hr.notAhead (hp.KBps.trans hK) hna ht
    refine onTime_of_exit (m := 0) hp (by omega) (hr.sameParams (honly c)).2 fun x due hout => ?_
    exact ⟨hx x due hout, fun hK' => absurd hK hK'⟩
  · obtain ⟨r, hr, rfl⟩ := Option.map_eq_some_iff.mp he
    replace hr := hcross hop c r hr
    exact ⟨hp.trans (hr.sameParams (honly c)).1,
      (hr.notAhead (hp.KBps.trans hK) hna ht).1⟩

end

/-! ## The backlog of a hop -/

/-- The largest bandwidth delay of a packet of length at most `L` on a slow link. -/
def maxSlowDelay (hz : ℕ) (hop : Hop) (L : ℕ) : ℕ := (Finset.range (L + 1)).sup (slowDelay hz hop)

theorem slowDelay_le_max (hz : ℕ) {L len : ℕ} {hop₀ hop : Hop} (hp : hop₀.SameParams hop)
    (h : len ≤ L) : slowDelay hz hop len ≤ maxSlowDelay hz hop₀ L := by
  have heq : slowDelay hz hop len = slowDelay hz hop₀ len := by
    unfold slowDelay
    rw [hp.KBps]
  rw [heq]
  exact Finset.le_sup (f := slowDelay hz hop₀) (Finset.mem_range.mpr (Nat.lt_succ_of_le h))

theorem slowDelay_zero (hz : ℕ) (hop : Hop) : slowDelay hz hop 0 = 0 := by
  unfold slowDelay
  rw [Nat.zero_mul]
  exact Nat.zero_div _

namespace Linux

/-- The largest bandwidth delay of a packet of length at most `L`. -/
def maxBwDelay (hz : ℕ) (hop : Hop) (L : ℕ) : ℕ :=
  if 50 < hop.bytespertick then (L + hop.bytespertick - 1) / hop.bytespertick
  else maxSlowDelay hz hop L

/-- The largest backlog of packets of length at most `L`, in ticks. -/
def maxBacklog (hz : ℕ) (hop : Hop) (L : ℕ) : ℕ :=
  if hop.KBps ≠ 0 then hop.qsize.toNat * maxBwDelay hz hop L else 0

theorem ceilDiv_eq {b : ℕ} (hb : 0 < b) (n : ℕ) :
    (n + b - 1) / b = n / b + if 0 < n % b then 1 else 0 := by
  have hmod := Nat.div_add_mod n b
  have hlt := Nat.mod_lt n hb
  have hmul : b * (n / b + 1) = b * (n / b) + b := Nat.mul_succ b (n / b)
  have hmul' : b * (n / b + 1 + 1) = b * (n / b + 1) + b := Nat.mul_succ b (n / b + 1)
  split_ifs with h
  · exact Nat.div_eq_of_lt_le (by rw [Nat.mul_comm]; omega) (by rw [Nat.mul_comm]; omega)
  · rw [Nat.add_zero]
    exact Nat.div_eq_of_lt_le (by rw [Nat.mul_comm]; omega) (by rw [Nat.mul_comm]; omega)

/-- This module never leaves a fragment, and charges every packet on its own. -/
theorem meter_bwDelay (hz randomVal L : ℕ) (hop₀ : Hop) :
    Meter (bwDelay hz randomVal) hop₀ L 1 (fun _ => maxBwDelay hz hop₀ L) (fun _ => 0)
      (fun f => f = 0) where
  ok_zero := rfl
  used_zero := rfl
  used_lt _ := Nat.one_pos
  charge hop len hp hf hlen := by
    have htake : takeFragment hop len = (len, 0, hop) := by
      unfold takeFragment
      rw [hf, if_neg (Nat.not_lt_zero _), if_neg (not_not.mpr rfl)]
    have hslow := slowDelay_le_max hz hp hlen
    have hceil : (len + hop.bytespertick - 1) / hop.bytespertick ≤
        (L + hop.bytespertick - 1) / hop.bytespertick := Nat.div_le_div_right (by omega)
    unfold bwDelay maxBwDelay
    rw [htake, Nat.mul_one, Nat.add_zero, Nat.zero_add]
    dsimp only
    rw [← hp.bytespertick]
    by_cases hfast : len ≠ 0 ∧ 50 < hop.bytespertick
    · rw [if_pos hfast, if_pos hfast.2]
      refine ⟨hf, le_trans ?_ hceil⟩
      rw [ceilDiv_eq (Nat.zero_lt_of_lt hfast.2)]
      dsimp only
      split_ifs <;> omega
    · rw [if_neg hfast]
      refine ⟨hf, ?_⟩
      dsimp only
      split_ifs with hb
      · have hzero : len = 0 := by
          by_contra h0
          exact hfast ⟨h0, hb⟩
        rw [hzero, slowDelay_zero]
        exact Nat.zero_le _
      · exact hslow

/-- The crossing as a function of the call. -/
def emulateCall (hz : ℕ) (hop : Hop) (c : Call) : Option (Hop × Outcome) :=
  emulateHop hz hop c.len c.tick c.randomVal

theorem alwaysOnTime_of_maxBacklog {hz L : ℕ} {hop₀ : Hop} (h : hop₀.Refines [])
    (hf : hop₀.fragment = 0) (hsched : (maxBacklog hz hop₀ L : ℤ) + hop₀.delay < schedLen) :
    AlwaysOnTime (emulateCall hz) L hop₀ := by
  unfold maxBacklog at hsched
  by_cases hK : hop₀.KBps ≠ 0
  · rw [if_pos hK] at hsched
    refine alwaysOnTime_of_limited (fun c => onlyFragment_bwDelay hz c.randomVal)
      (fun _ _ _ he => crosses_emulateHop he) (fun c => meter_bwDelay hz c.randomVal L hop₀)
      (fun _ _ => Nat.le_refl _) hK h hf ?_
    rwa [Nat.div_one]
  · rw [if_neg hK] at hsched
    exact alwaysOnTime_of_unlimited (fun c => onlyFragment_bwDelay hz c.randomVal)
      (fun _ _ _ he => crosses_emulateHop he) (not_not.mp hK) h (by omega)

/-! ### The backlog is reached -/

/-- Some length of at most `L` takes the largest delay, when the delay is rounded up. -/
theorem exists_maxBwDelay (hz L : ℕ) (hop₀ : Hop) :
    ∃ len ≤ L, ∀ hop, hop₀.SameParams hop → hop.fragment = 0 →
      (bwDelay hz 0 hop len).1 = maxBwDelay hz hop₀ L := by
  have htake : ∀ (hop : Hop) (len : ℕ), hop.fragment = 0 → takeFragment hop len = (len, 0, hop) := by
    intro hop len hf
    unfold takeFragment
    rw [hf, if_neg (Nat.not_lt_zero _), if_neg (not_not.mpr rfl)]
  unfold maxBwDelay
  by_cases hfast : 50 < hop₀.bytespertick
  · refine ⟨L, Nat.le_refl L, fun hop hp hf => ?_⟩
    unfold bwDelay
    rw [htake hop L hf, if_pos hfast, hp.bytespertick, Nat.zero_mod]
    dsimp only
    by_cases hL : L ≠ 0
    · rw [if_pos ⟨hL, hfast⟩]
      dsimp only
      rw [ceilDiv_eq (Nat.zero_lt_of_lt hfast)]
      split_ifs <;> rfl
    · rw [not_not] at hL
      subst hL
      rw [if_neg fun h => h.1 rfl, Nat.zero_add, Nat.div_eq_of_lt (by omega)]
      exact slowDelay_zero hz hop
  · obtain ⟨len, hmem, hmax⟩ := Finset.exists_mem_eq_sup (Finset.range (L + 1))
      ⟨0, Finset.mem_range.mpr (Nat.succ_pos L)⟩ (slowDelay hz hop₀)
    refine ⟨len, Nat.le_of_lt_succ (Finset.mem_range.mp hmem), fun hop hp hf => ?_⟩
    unfold bwDelay
    rw [htake hop len hf, if_neg hfast, maxSlowDelay, hmax]
    dsimp only
    rw [if_neg fun h => hfast (hp.bytespertick ▸ h.2)]
    show slowDelay hz hop len = slowDelay hz hop₀ len
    unfold slowDelay
    rw [hp.KBps]

/-- The hop after `k` packets that arrived together and took `D` ticks each. -/
structure Burst (hop₀ : Hop) (tick D k : ℕ) (hop : Hop) (q : LinkQueue) : Prop where
  sameParams : hop₀.SameParams hop
  fragment : hop.fragment = 0
  refines : hop.Refines q
  length : q.length = k
  tailExit : q.tailExit tick = tick + k * D
  le_exit : ∀ e ∈ q, tick ≤ e.1

theorem purge_eq_self {tick : ℕ} {q : LinkQueue} (h : ∀ e ∈ q, tick ≤ e.1) :
    q.purge tick = q := List.filter_eq_self.mpr fun e he => decide_eq_true (h e he)

theorem Burst.step {hz len tick D k : ℕ} {hop₀ hop : Hop} {q : LinkQueue} (hK : hop₀.KBps ≠ 0)
    (hplr : hop₀.plr ≤ 0) (hD : ∀ hop, hop₀.SameParams hop → hop.fragment = 0 →
      (bwDelay hz 0 hop len).1 = D) (hk : k < hop₀.qsize.toNat)
    (h : Burst hop₀ tick D k hop q) :
    ∃ hop' q', emulateHop hz hop len tick 0 = some (hop',
        .queued (tick + (k + 1) * D) ((tick + (k + 1) * D : ℕ) + hop₀.delay)) ∧
      Burst hop₀ tick D (k + 1) hop' q' := by
  have hK' : hop.KBps ≠ 0 := h.sameParams.KBps ▸ hK
  have hqsize := h.sameParams.qsize
  have hd := h.refines.updateBwq tick
  rw [purge_eq_self h.le_exit] at hd
  have hp := h.sameParams.trans (sameParams_updateBwq hop tick)
  have hdrop : ¬ (willDropPacketPlr hop 0 || willDropPacketBw (drained hop tick)) = true := by
    rw [Bool.or_eq_true]
    rintro (hlost | hfull)
    · unfold willDropPacketPlr at hlost
      rw [decide_eq_true_iff, h.sameParams.plr] at hlost
      omega
    · rw [drained_of_limited hK', willDropPacketBw_iff hK' (by omega) h.refines,
        purge_eq_self h.le_exit, h.length, hqsize] at hfull
      omega
  have hemul := emulateHop_accepted hz len (ne_of_gt (show 0 < hop.qsize by omega)) hdrop
  rw [drained_of_limited hK'] at hemul
  have hroom : q.length < (updateBwq hop tick).ringSize := by
    rw [h.length, hp.ringSize]
    unfold Hop.ringSize
    omega
  obtain ⟨hop', x, hacc, hx, hp', hr', hf'⟩ :=
    hd.accept (onlyFragment_bwDelay hz 0) hroom len tick
  have hcounted : ((updateBwq hop tick).counted len).fragment = 0 := by
    show (if (updateBwq hop tick).slotdepth ≠ 0 then (updateBwq hop tick).fragment else 0) = 0
    unfold updateBwq
    rw [fragment_updateBwqLoop, h.fragment, ite_self]
  rw [Hop.charge_of_limited (hp.KBps ▸ hK)] at hx hf'
  have hpc := hp.trans ((updateBwq hop tick).sameParams_counted len)
  have hx' : x = tick + (k + 1) * D := by
    rw [hx, h.tailExit, hD _ hpc hcounted, Nat.add_mul, Nat.one_mul, Nat.add_assoc]
  rw [hx', hp.delay] at hacc
  rw [hx'] at hr'
  have hfrag : hop'.fragment = 0 := by
    rw [hf']
    exact ((meter_bwDelay hz 0 len hop₀).charge _ len hpc hcounted (Nat.le_refl len)).1
  refine ⟨hop', _, hemul.trans hacc, hp.trans hp', hfrag, hr', ?_, ?_, fun e he => ?_⟩
  · rw [List.length_append, h.length, List.length_singleton]
  · exact tailExit_concat _ _ _
  · rcases List.mem_append.mp he with he | he
    · exact h.le_exit e he
    · rw [List.mem_singleton.mp he]
      exact Nat.le_add_right _ _

theorem exists_burst {hz len D : ℕ} {hop₀ : Hop} (hK : hop₀.KBps ≠ 0) (hplr : hop₀.plr ≤ 0)
    (hD : ∀ hop, hop₀.SameParams hop → hop.fragment = 0 → (bwDelay hz 0 hop len).1 = D)
    (h₀ : hop₀.Refines []) (hf : hop₀.fragment = 0) (tick : ℕ) {k : ℕ}
    (hk : k ≤ hop₀.qsize.toNat) :
    ∃ hop q, PartialRun.run (callStep hz) hop₀ (List.replicate k ⟨tick, len, 0⟩) = some hop ∧
      Burst hop₀ tick D k hop q := by
  induction k with
  | zero =>
    refine ⟨hop₀, [], rfl, Hop.SameParams.refl hop₀, hf, h₀, rfl, ?_, fun e he => ?_⟩
    · rw [Nat.zero_mul]
      exact tailExit_nil tick
    · exact absurd he List.not_mem_nil
  | succ k ih =>
    obtain ⟨hop, q, hrun, hburst⟩ := ih (by omega)
    obtain ⟨hop', q', heq, hburst'⟩ := hburst.step hK hplr hD (by omega)
    refine ⟨hop', q', ?_, hburst'⟩
    rw [List.replicate_succ', run_concat, hrun]
    show (emulateHop hz hop len tick 0).map Prod.fst = some hop'
    rw [heq]
    rfl

/-- **The bound is sharp.** On a link that loses no packet, a burst is due as far ahead as the
backlog and the latency allow. -/
theorem lt_schedLen_of_alwaysOnTime {hz L : ℕ} {hop₀ : Hop} (hq : 0 < hop₀.qsize)
    (hplr : hop₀.plr ≤ 0) (h₀ : hop₀.Refines []) (hf : hop₀.fragment = 0)
    (h : AlwaysOnTime (emulateCall hz) L hop₀) :
    (maxBacklog hz hop₀ L : ℤ) + hop₀.delay < schedLen := by
  unfold maxBacklog
  by_cases hK : hop₀.KBps ≠ 0
  · rw [if_pos hK]
    obtain ⟨len, hlen, hD⟩ := exists_maxBwDelay hz L hop₀
    obtain ⟨hop, q, hrun, hburst⟩ := exists_burst hK hplr hD h₀ hf 0
      (Nat.sub_le hop₀.qsize.toNat 1)
    obtain ⟨hop', q', heq, -⟩ := hburst.step hK hplr hD (by omega)
    have hall := h (List.replicate (hop₀.qsize.toNat - 1 + 1) ⟨0, len, 0⟩)
      (by rw [List.map_replicate]; exact List.pairwise_replicate.mpr (Or.inr (Nat.le_refl _)))
      (fun c hc => by rw [List.eq_of_mem_replicate hc]; exact hlen)
    rw [List.replicate_succ'] at hall
    have hon := hall.last hrun _ _ heq
    obtain ⟨hlt, -⟩ := hon _ _ rfl
    rw [Nat.zero_add, Nat.sub_add_cancel (by omega)] at hlt
    exact lt_of_lt_of_eq hlt (Int.zero_add _)
  · rw [if_neg hK]
    rw [not_not] at hK
    have hdrop : ¬ (willDropPacketPlr hop₀ 0 || willDropPacketBw (drained hop₀ 0)) = true := by
      rw [Bool.or_eq_true, drained_of_unlimited hK]
      unfold willDropPacketPlr willDropPacketBw
      rw [decide_eq_true_iff, decide_eq_true_iff]
      rintro (hlost | hfull)
      · omega
      · exact hfull.1 hK
    have hemul := emulateHop_accepted hz 0 (ne_of_gt hq) hdrop
    rw [drained_of_unlimited hK, Hop.accept_eq _ _ _ _ h₀.allocated, h₀.tailExit_eq, tailExit_nil,
      Hop.charge_of_unlimited hK] at hemul
    obtain ⟨hlt, -⟩ := (h [⟨0, 0, 0⟩] (List.pairwise_singleton _ _)
      (fun c hc => by rw [List.mem_singleton.mp hc]; exact Nat.zero_le L)).1 _ _ hemul _ _ rfl
    exact lt_of_lt_of_eq hlt (Int.zero_add _)

end Linux

namespace FreeBSD

/-- The largest backlog of packets of length at most `L`, in ticks. -/
def maxBacklog (hz : ℕ) (hop : Hop) (L : ℕ) : ℕ :=
  if hop.KBps ≠ 0 then
    if 50 < hop.bytespertick then hop.qsize.toNat * L / hop.bytespertick
    else hop.qsize.toNat * maxSlowDelay hz hop L
  else 0

/-- The bytes of the last tick that a packet uses. -/
def usedBytes (bytespertick fragment : ℕ) : ℕ := if fragment ≠ 0 then bytespertick - fragment else 0

/-- Whole ticks and used bytes of the next tick make up the packet. -/
theorem ticks_add_usedBytes {b : ℕ} (hb : 0 < b) (n : ℕ) :
    n / b * b + usedBytes b (if n % b ≠ 0 then b - n % b else 0) = n := by
  have hmod := Nat.div_add_mod n b
  have hlt := Nat.mod_lt n hb
  rw [Nat.mul_comm]
  unfold usedBytes
  by_cases hr : n % b ≠ 0
  · rw [if_pos hr, if_pos (by omega)]
    omega
  · rw [if_neg hr, if_neg (not_not.mpr rfl)]
    omega

section

variable {hop : Hop} {len : ℕ}

theorem bwDelay_fst_of_rest (hz : ℕ) (hfast : 50 < hop.bytespertick)
    (hrest : len - hop.fragment ≠ 0) :
    (bwDelay hz hop len).1 = (len - hop.fragment) / hop.bytespertick +
      if hop.fragment ≠ 0 ∧ hop.fragment ≤ len then 1 else 0 := by
  unfold bwDelay
  dsimp only
  rw [takeFragment_fst, takeFragment_fragused, if_pos ⟨hrest, hfast⟩]

theorem bwDelay_fragment_of_rest (hz : ℕ) (hfast : 50 < hop.bytespertick)
    (hrest : len - hop.fragment ≠ 0) :
    (bwDelay hz hop len).2.fragment = if (len - hop.fragment) % hop.bytespertick ≠ 0 then
      hop.bytespertick - (len - hop.fragment) % hop.bytespertick else 0 := by
  unfold bwDelay
  dsimp only
  rw [takeFragment_fst, if_pos ⟨hrest, hfast⟩]
  dsimp only
  split_ifs
  · rfl
  · rw [takeFragment_fragment]
    omega

theorem bwDelay_of_no_rest (hz : ℕ) (hrest : len - hop.fragment = 0) :
    (bwDelay hz hop len).1 = 0 ∧ (bwDelay hz hop len).2.fragment = hop.fragment - len := by
  unfold bwDelay
  dsimp only
  rw [takeFragment_fst, if_neg fun h => h.1 hrest, hrest]
  exact ⟨slowDelay_zero hz hop, takeFragment_fragment hop len⟩

end

/-- On a fast link the fragment carries the unused bytes of the last tick, so that packets are
charged by their bytes. -/
theorem meter_bwDelay_fast (hz L : ℕ) {hop₀ : Hop} (hfast : 50 < hop₀.bytespertick) :
    Meter (bwDelay hz) hop₀ L hop₀.bytespertick id (usedBytes hop₀.bytespertick)
      (fun _ => True) where
  ok_zero := trivial
  used_zero := if_neg (not_not.mpr rfl)
  used_lt f := by
    unfold usedBytes
    split_ifs with hf <;> omega
  charge hop len hp _ _ := by
    refine ⟨trivial, ?_⟩
    rw [← hp.bytespertick] at hfast ⊢
    by_cases hrest : len - hop.fragment ≠ 0
    · have hsplit := ticks_add_usedBytes (Nat.zero_lt_of_lt hfast) (len - hop.fragment)
      rw [bwDelay_fst_of_rest hz hfast hrest, bwDelay_fragment_of_rest hz hfast hrest, Nat.add_mul]
      unfold usedBytes at hsplit ⊢
      dsimp only [id]
      by_cases hf : hop.fragment ≠ 0
      · rw [if_pos ⟨hf, by omega⟩, if_pos hf]
        omega
      · rw [if_neg fun h => hf h.1, if_neg hf]
        omega
    · -- the packet fits into the fragment
      obtain ⟨hfst, hfrag⟩ := bwDelay_of_no_rest hz (not_not.mp hrest)
      rw [hfst, hfrag, Nat.zero_mul, Nat.zero_add]
      unfold usedBytes
      dsimp only [id]
      split_ifs <;> omega

theorem meter_bwDelay_slow (hz L : ℕ) {hop₀ : Hop} (hslow : ¬ 50 < hop₀.bytespertick) :
    Meter (bwDelay hz) hop₀ L 1 (fun _ => maxSlowDelay hz hop₀ L) (fun _ => 0)
      (fun f => f = 0) where
  ok_zero := rfl
  used_zero := rfl
  used_lt _ := Nat.one_pos
  charge hop len hp hf hlen := by
    have htake : takeFragment hop len = (len, 0, hop) := by
      unfold takeFragment
      rw [hf, if_neg (Nat.not_lt_zero _), if_neg (not_not.mpr rfl)]
    unfold bwDelay
    rw [htake]
    dsimp only
    rw [if_neg fun h => hslow (hp.bytespertick ▸ h.2), Nat.mul_one, Nat.add_zero, Nat.zero_add]
    exact ⟨hf, slowDelay_le_max hz hp hlen⟩

/-- The crossing as a function of the call. -/
def emulateCall (hz : ℕ) (hop : Hop) (c : Call) : Option (Hop × Outcome) :=
  emulateHop hz hop c.len c.tick c.randomVal

theorem alwaysOnTime_of_maxBacklog {hz L : ℕ} {hop₀ : Hop} (h : hop₀.Refines [])
    (hf : hop₀.fragment = 0) (hsched : (maxBacklog hz hop₀ L : ℤ) + hop₀.delay < schedLen) :
    AlwaysOnTime (emulateCall hz) L hop₀ := by
  unfold maxBacklog at hsched
  have honly := onlyFragment_bwDelay hz
  have hcross : ∀ hop c r, emulateCall hz hop c = some r → Crosses (bwDelay hz) hop c r :=
    fun _ _ _ he => crosses_emulateHop he
  by_cases hK : hop₀.KBps ≠ 0
  · rw [if_pos hK] at hsched
    by_cases hfast : 50 < hop₀.bytespertick
    · rw [if_pos hfast] at hsched
      exact alwaysOnTime_of_limited (fun _ => honly) hcross (fun _ => meter_bwDelay_fast hz L hfast)
        (fun _ hlen => hlen) hK h hf hsched
    · rw [if_neg hfast] at hsched
      refine alwaysOnTime_of_limited (fun _ => honly) hcross
        (fun _ => meter_bwDelay_slow hz L hfast) (fun _ _ => Nat.le_refl _) hK h hf ?_
      rwa [Nat.div_one]
  · rw [if_neg hK] at hsched
    exact alwaysOnTime_of_unlimited (fun _ => honly) hcross (not_not.mp hK) h (by omega)

end FreeBSD

/-! ## The hops of an accepted table -/

theorem emulateCall_of_qsize_zero (hz : ℕ) (hop : Hop) (hq : hop.qsize = 0) (c : Call) :
    Linux.emulateCall hz hop c = none ∧ FreeBSD.emulateCall hz hop c = none :=
  ⟨if_pos hq, if_pos hq⟩

/-- **Calendar horizon.** For a hop that an accepted table installs (the allocation of its arrays
fails for a negative `qsize`), packets of length at most `L` are put on the calendar on time in
every run of either module if the largest backlog plus the latency is below `SCHEDLEN`; on a
lossless link of the Linux module, only if. -/
theorem alwaysOnTime_install (hz i L : ℕ) {r : SysctlHop} (hq : 0 ≤ r.qsize.toInt) :
    ((Linux.maxBacklog hz (Hop.install hz i r) L : ℤ) + (Hop.install hz i r).delay < schedLen →
      AlwaysOnTime (Linux.emulateCall hz) L (Hop.install hz i r)) ∧
    ((FreeBSD.maxBacklog hz (Hop.install hz i r) L : ℤ) + (Hop.install hz i r).delay < schedLen →
      AlwaysOnTime (FreeBSD.emulateCall hz) L (Hop.install hz i r)) ∧
    (0 < r.qsize.toInt → r.plr.toInt ≤ 0 →
      AlwaysOnTime (Linux.emulateCall hz) L (Hop.install hz i r) →
      (Linux.maxBacklog hz (Hop.install hz i r) L : ℤ) + (Hop.install hz i r).delay <
        schedLen) := by
  rcases hq.eq_or_lt with hzero | hpos
  · have hnone := emulateCall_of_qsize_zero hz (Hop.install hz i r) hzero.symm
    exact ⟨fun _ => alwaysOnTime_of_none fun c => (hnone c).1,
      fun _ => alwaysOnTime_of_none fun c => (hnone c).2, fun h => absurd h (by omega)⟩
  · have h₀ := Hop.refines_install hz i hpos
    exact ⟨Linux.alwaysOnTime_of_maxBacklog h₀ rfl, FreeBSD.alwaysOnTime_of_maxBacklog h₀ rfl,
      fun hq' hplr => Linux.lt_schedLen_of_alwaysOnTime hq' hplr h₀ rfl⟩

/-- The theorem on a link with a backlog of 50 full packets and 100 ms of latency. -/
theorem alwaysOnTime_of_short_link :
    AlwaysOnTime (Linux.emulateCall 1000) 1500 (Hop.install 1000 0 ⟨8000, 100, 0, 50, 0, 0⟩) ∧
    AlwaysOnTime (FreeBSD.emulateCall 1000) 1500
      (Hop.install 1000 0 ⟨8000, 100, 0, 50, 0, 0⟩) := by
  obtain ⟨hlinux, hfreebsd, -⟩ :=
    alwaysOnTime_install 1000 0 1500 (r := ⟨8000, 100, 0, 50, 0, 0⟩) (by decide)
  exact ⟨hlinux (by decide), hfreebsd (by decide)⟩

/-- With 20 s of latency at 1000 ticks a second a packet is due beyond the horizon. -/
theorem not_alwaysOnTime_long_link :
    ¬ AlwaysOnTime (Linux.emulateCall 1000) 1500
      (Hop.install 1000 0 ⟨8000, 20000, 0, 50, 0, 0⟩) := by
  intro h
  obtain ⟨hon, -⟩ := h [⟨0, 1500, 700⟩] (List.pairwise_singleton _ _) (by decide)
  obtain ⟨hlt, -⟩ := hon _ _ rfl 1 20001 rfl
  revert hlt
  decide

end Modelnet

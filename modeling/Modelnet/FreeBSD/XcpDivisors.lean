import Modelnet.FreeBSD.XcpEstimates
import Modelnet.FreeBSD.XcpBudget
import Modelnet.Lib.Run
import Mathlib.Algebra.BigOperators.Group.List.Basic
import Mathlib.Algebra.Order.BigOperators.Group.List

/-!
# Divisors of the XCP handlers

What the four handlers of an XCP hop divide by, over runs. The sums of an interval wrap at 64 bits,
windows are cut to kilobytes before they are divisors, and the length of an interval is the average
round trip of the one before it. Beside the pipe runs a record of the packets of the interval; it
says by the packets alone when a divisor is 0.
-/

namespace Modelnet.FreeBSD

open Modelnet

/-- A call of a handler. Between two calls the queue of the hop may have changed. -/
inductive XcpCall where
  | enqueue (info : RemotePacket)
  | dequeue (bytedepth : ℤ) (info : RemotePacket)
  | tq (hop : Hop)
  | te (hop : Hop)

namespace XcpRouter

/-- What a handler divides by, as unsigned numbers of 64 bits, in the order of the divisions. -/
def divisors (p : XcpRouter) (hz : ℕ) : XcpCall → List (BitVec 64)
  | .enqueue info =>
    if info.xcpCwnd ≠ 0 ∧ rttTicks hz info ≠ BitVec.ofNat 32 (initialRttEstimate hz) ∧
        info.xcpCwnd / BitVec.ofNat 32 multiFac ≠ 0 then
      [(info.xcpCwnd / BitVec.ofNat 32 multiFac).setWidth 64]
    else []
  | .dequeue _ info =>
    if (info.xcpCwnd ≠ 0 ∧ info.xcpRtt ≠ 0) ∧ info.len ≠ 0 then
      [(info.xcpCwnd / BitVec.ofNat 32 multiFac).setWidth 64, info.xcpRtt.setWidth 64]
    else []
  | .tq _ => [BitVec.ofNat 64 multiFac * p.linkCapacityKbytes]
  | .te _ =>
    if 0 < p.sumRttByCwnd then
      [p.sumRttByCwnd, p.te, p.sumRttByCwnd * p.meanRtt, p.meanRtt * p.numKbytesInTe]
    else []

/-- A call of a handler; a division by 0 stops the machine. -/
def call (p : XcpRouter) (hz : ℕ) : XcpCall → Option XcpRouter
  | .enqueue info => some (p.enqueue hz info)
  | .dequeue bytedepth info => (p.dequeue hz bytedepth info).map Prod.fst
  | .tq hop => p.tqTimeout hz hop
  | .te hop => p.teTimeout hz hop

variable {hz : ℕ} {p p' : XcpRouter} {info : RemotePacket} {hop : Hop}

theorem zero_eq_widened_iff (x : BitVec 32) : 0 = x.setWidth 64 ↔ x = 0 := by
  rw [eq_comm, ← BitVec.toNat_inj, ← BitVec.toNat_inj, XcpPipe.toNat_widened]
  rfl

theorem fillInFeedback_isSome_iff (hz : ℕ) (p : XcpPipe) (info : RemotePacket) :
    (p.fillInFeedback hz info).isSome ↔
      ((info.xcpCwnd ≠ 0 ∧ info.xcpRtt ≠ 0) ∧ info.len ≠ 0 →
        info.xcpCwnd / BitVec.ofNat 32 multiFac ≠ 0) := by
  unfold XcpPipe.fillInFeedback
  split_ifs with hack hlen hcwnd
  · exact iff_of_true rfl fun hyes => absurd hlen hyes.2
  · exact iff_of_false (by decide) fun hyes => hyes ⟨hack, hlen⟩ hcwnd
  · exact iff_of_true rfl fun _ => hcwnd
  · exact iff_of_true rfl fun _ => hcwnd
  · exact iff_of_true rfl fun hyes => absurd hyes.1 hack

/-- **The machine stops** exactly at a division by 0. -/
theorem call_isSome_iff (p : XcpRouter) (hz : ℕ) (c : XcpCall) :
    (p.call hz c).isSome ↔ 0 ∉ p.divisors hz c := by
  cases c with
  | enqueue info =>
    refine iff_of_true rfl ?_
    dsimp only [divisors]
    split_ifs with h
    · rw [List.mem_singleton, zero_eq_widened_iff]
      exact h.2.2
    · exact List.not_mem_nil
  | dequeue bytedepth info =>
    dsimp only [call, divisors, dequeue, XcpPipe.xcpDequeue]
    rw [Option.isSome_map, Option.isSome_map, fillInFeedback_isSome_iff]
    split_ifs with h
    · rw [List.mem_cons, List.mem_singleton, zero_eq_widened_iff, zero_eq_widened_iff, not_or]
      exact ⟨fun hcwnd => ⟨hcwnd h, h.1.2⟩, fun hzero _ => hzero.1⟩
    · exact iff_of_true (fun hyes => absurd hyes h) List.not_mem_nil
  | tq hop =>
    dsimp only [call, divisors, tqTimeout]
    rw [List.mem_singleton]
    by_cases hcapacity : BitVec.ofNat 64 multiFac * p.linkCapacityKbytes = 0
    · rw [if_pos hcapacity]
      exact iff_of_false (by decide) fun hno => hno hcapacity.symm
    · rw [if_neg hcapacity]
      exact iff_of_true rfl fun hzero => hcapacity hzero.symm
  | te hop =>
    dsimp only [call, divisors, teTimeout]
    split_ifs with h
    · rw [Option.isSome_map, setFeedback_isSome_iff]
      have hsum : ¬ 0 = p.sumRttByCwnd := fun hzero => absurd (hzero ▸ h) (BitVec.lt_irrefl _)
      simp only [List.mem_cons, List.not_mem_nil, or_false, hsum, false_or, not_or]
      simp only [eq_comm, ne_eq]
    · exact iff_of_true rfl List.not_mem_nil

end XcpRouter

/-! ## The packets of an interval -/

namespace XcpInterval

/-- What a packet adds to `sum_rtt_by_cwnd_`. -/
def rate (hz : ℕ) (info : RemotePacket) : ℕ :=
  if info.xcpCwnd ≠ 0 ∧ XcpRouter.rttTicks hz info ≠ BitVec.ofNat 32 (initialRttEstimate hz) then
    (XcpRouter.enqueueRate info).toNat
  else 0

/-- What a packet adds to `num_Kbytes_in_Te_`. -/
def kbyte (info : RemotePacket) : ℕ := if info.xcpCwnd ≠ 0 then info.len.toNat / 1000 else 0

def rates (hz : ℕ) (l : List RemotePacket) : ℕ := (l.map (rate hz)).sum

/-- The sum of the rates, weighted by the round trips. -/
def squares (hz : ℕ) (l : List RemotePacket) : ℕ :=
  (l.map fun info => info.xcpRtt.toNat * rate hz info).sum

/-- The kilobytes with a window. -/
def kbytes (l : List RemotePacket) : ℕ := (l.map kbyte).sum

/-- The average round trip, of sums that have been cut to 64 bits. -/
def mean (hz : ℕ) (l : List RemotePacket) : ℕ := squares hz l % 2 ^ 64 / (rates hz l % 2 ^ 64)

variable (hz : ℕ) (l : List RemotePacket) (info : RemotePacket)

theorem rates_concat : rates hz (l ++ [info]) = rates hz l + rate hz info := by simp [rates]

theorem squares_concat :
    squares hz (l ++ [info]) = squares hz l + info.xcpRtt.toNat * rate hz info := by simp [squares]

theorem kbytes_concat : kbytes (l ++ [info]) = kbytes l + kbyte info := by simp [kbytes]

end XcpInterval

open XcpInterval

/-- A pipe in a run, with the packets since the last `Te_timeout` and the length of the interval in
ticks. -/
structure XcpRun where
  router : XcpRouter
  packets : List RemotePacket
  ticks : ℕ

namespace XcpRun

/-- A pipe that has just been allocated. -/
def start (hz : ℕ) (hop : Hop) (routerId : BitVec 32) : XcpRun :=
  ⟨XcpRouter.start hz hop routerId, [], initialTe hz % 2 ^ 64⟩

def packetsAfter (x : XcpRun) : XcpCall → List RemotePacket
  | .enqueue info => x.packets ++ [info]
  | .dequeue _ _ => x.packets
  | .tq _ => x.packets
  | .te _ => []

/-- The length of the interval after a call: that of the average round trip of the last one that had
traffic. -/
def ticksAfter (hz : ℕ) (x : XcpRun) : XcpCall → ℕ
  | .te _ =>
    if rates hz x.packets % 2 ^ 64 = 0 then x.ticks
    else mean hz x.packets * hz % 2 ^ 64 / 2 ^ 10
  | _ => x.ticks

def step (hz : ℕ) (x : XcpRun) (c : XcpCall) : Option XcpRun :=
  (x.router.call hz c).map fun p => ⟨p, x.packetsAfter c, x.ticksAfter hz c⟩

/-- The pipe follows from the packets. -/
structure Inv (KBps : ℤ) (hz : ℕ) (x : XcpRun) : Prop where
  te_eq : x.router.te.toNat = x.ticks
  avgRtt_eq : x.router.avgRtt = x.router.te
  rates_eq : x.router.sumRttByCwnd.toNat = rates hz x.packets % 2 ^ 64
  squares_eq : x.router.sumRttSquareByCwnd.toNat = squares hz x.packets % 2 ^ 64
  kbytes_eq : x.router.numKbytesInTe.toNat = kbytes x.packets % 2 ^ 64
  capacity_eq : x.router.linkCapacityKbytes = u64 (i32 (KBps * (1000 / multiFac : ℕ)))

variable {hz : ℕ} {hop : Hop} {KBps : ℤ} {x x' : XcpRun} {p p' : XcpRouter} {info : RemotePacket}

theorem inv_start (hz : ℕ) (hop : Hop) (routerId : BitVec 32) :
    (start hz hop routerId).Inv hop.KBps hz where
  te_eq := BitVec.toNat_ofNat _ _
  avgRtt_eq := rfl
  rates_eq := rfl
  squares_eq := rfl
  kbytes_eq := rfl
  capacity_eq := rfl

/-! ## The sums -/

theorem toNat_enqueue_kbytes (p : XcpRouter) (hz : ℕ) (info : RemotePacket) :
    (p.enqueue hz info).numKbytesInTe.toNat = (p.numKbytesInTe.toNat + kbyte info) % 2 ^ 64 := by
  have hlen : ((lenKbytes info).setWidth 64).toNat = info.len.toNat / 1000 := by
    rw [XcpPipe.toNat_widened, lenKbytes, BitVec.toNat_udiv]
    rfl
  unfold XcpRouter.enqueue kbyte
  dsimp only
  split_ifs with hcwnd hticks
  · rw [BitVec.toNat_add, hlen]
  · rw [BitVec.toNat_add, hlen]
  · exact (Nat.mod_eq_of_lt p.numKbytesInTe.isLt).symm

theorem toNat_enqueue_rates (p : XcpRouter) (hz : ℕ) (info : RemotePacket) :
    (p.enqueue hz info).sumRttByCwnd.toNat = (p.sumRttByCwnd.toNat + rate hz info) % 2 ^ 64 := by
  unfold XcpRouter.enqueue rate
  dsimp only
  split_ifs with hcwnd hticks hboth hboth hboth
  · exact BitVec.toNat_add _ _
  · exact absurd ⟨hcwnd, hticks⟩ hboth
  · exact absurd hboth.2 hticks
  · exact (Nat.mod_eq_of_lt p.sumRttByCwnd.isLt).symm
  · exact absurd hboth.1 hcwnd
  · exact (Nat.mod_eq_of_lt p.sumRttByCwnd.isLt).symm

theorem toNat_enqueue_squares (p : XcpRouter) (hz : ℕ) (info : RemotePacket) :
    (p.enqueue hz info).sumRttSquareByCwnd.toNat =
      (p.sumRttSquareByCwnd.toNat + info.xcpRtt.toNat * rate hz info) % 2 ^ 64 := by
  unfold XcpRouter.enqueue rate
  dsimp only
  split_ifs with hcwnd hticks hboth hboth hboth
  · rw [BitVec.toNat_add, BitVec.toNat_mul, XcpPipe.toNat_widened, Nat.add_mod_mod]
  · exact absurd ⟨hcwnd, hticks⟩ hboth
  · exact absurd hboth.2 hticks
  · exact (Nat.mod_eq_of_lt p.sumRttSquareByCwnd.isLt).symm
  · exact absurd hboth.1 hcwnd
  · exact (Nat.mod_eq_of_lt p.sumRttSquareByCwnd.isLt).symm

theorem enqueue_frame (p : XcpRouter) (hz : ℕ) (info : RemotePacket) :
    (p.enqueue hz info).toXcpPipe = p.toXcpPipe ∧ (p.enqueue hz info).avgRtt = p.avgRtt ∧
      (p.enqueue hz info).linkCapacityKbytes = p.linkCapacityKbytes := by
  unfold XcpRouter.enqueue
  dsimp only
  split_ifs <;> exact ⟨rfl, rfl, rfl⟩

theorem fillInFeedback_te {q q' : XcpPipe} {info' : RemotePacket}
    (h : q.fillInFeedback hz info = some (q', info')) : q'.te = q.te := by
  have hcharged : (q.charged hz info).te = q.te := by
    unfold XcpPipe.charged
    dsimp only
    split_ifs <;> rfl
  unfold XcpPipe.fillInFeedback at h
  split_ifs at h <;> cases h <;> first | rfl | exact hcharged

theorem dequeue_frame {bytedepth : ℤ} {info' : RemotePacket}
    (h : p.dequeue hz bytedepth info = some (p', info')) :
    p' = { p with toXcpPipe := p'.toXcpPipe } ∧ p'.te = p.te := by
  obtain ⟨r, hr, heq⟩ := Option.map_eq_some_iff.mp h
  cases heq
  refine ⟨rfl, ?_⟩
  unfold XcpPipe.xcpDequeue at hr
  refine (fillInFeedback_te hr).trans ?_
  split_ifs <;> rfl

theorem tqTimeout_frame (h : p.tqTimeout hz hop = some p') :
    p'.te = p.te ∧ p'.avgRtt = p.avgRtt ∧ p'.sumRttByCwnd = p.sumRttByCwnd ∧
      p'.sumRttSquareByCwnd = p.sumRttSquareByCwnd ∧ p'.numKbytesInTe = p.numKbytesInTe ∧
      p'.linkCapacityKbytes = p.linkCapacityKbytes := by
  unfold XcpRouter.tqTimeout at h
  by_cases hcapacity : BitVec.ofNat 64 multiFac * p.linkCapacityKbytes = 0
  · rw [if_pos hcapacity] at h
    cases h
  · rw [if_neg hcapacity] at h
    cases h
    exact ⟨rfl, rfl, rfl, rfl, rfl, rfl⟩

/-- `Te_timeout` starts an interval as long as the average round trip in ticks, if there is one. -/
theorem teTimeout_frame (h : p.teTimeout hz hop = some p') :
    p'.te = (if 0 < p.sumRttByCwnd then (p.meanRtt * BitVec.ofNat 64 hz) >>> fpShift
        else p.avgRtt) ∧
      p'.avgRtt = p'.te ∧ p'.sumRttByCwnd = 0 ∧ p'.sumRttSquareByCwnd = 0 ∧
      p'.numKbytesInTe = 0 ∧ p'.linkCapacityKbytes = p.linkCapacityKbytes := by
  unfold XcpRouter.teTimeout at h
  split_ifs at h with hsum
  · obtain ⟨q, hq, rfl⟩ := Option.map_eq_some_iff.mp h
    have hcapacity : q.linkCapacityKbytes = p.linkCapacityKbytes := by
      unfold XcpRouter.setFeedback at hq
      split_ifs at hq
      cases hq
      rfl
    rw [if_pos hsum]
    exact ⟨XcpRouter.setFeedback_avgRtt hq, rfl, rfl, rfl, rfl, hcapacity⟩
  · cases h
    rw [if_neg hsum]
    exact ⟨rfl, rfl, rfl, rfl, rfl, rfl⟩

/-! ## Runs -/

/-- The pipe and the packets at the end of an interval agree on whether there was traffic. -/
theorem Inv.sum_pos_iff (h : x.Inv KBps hz) :
    0 < x.router.sumRttByCwnd ↔ rates hz x.packets % 2 ^ 64 ≠ 0 := by
  rw [← h.rates_eq, BitVec.lt_def]
  exact Nat.pos_iff_ne_zero

theorem Inv.toNat_meanRtt (h : x.Inv KBps hz) :
    x.router.meanRtt.toNat = mean hz x.packets := by
  unfold XcpRouter.meanRtt mean
  rw [BitVec.toNat_udiv, h.rates_eq, h.squares_eq]

theorem Inv.enqueue (h : x.Inv KBps hz) (info : RemotePacket) :
    Inv KBps hz ⟨x.router.enqueue hz info, x.packets ++ [info], x.ticks⟩ := by
  obtain ⟨hpipe, havg, hcapacity⟩ := enqueue_frame x.router hz info
  constructor
  · dsimp only
    rw [hpipe]
    exact h.te_eq
  · dsimp only
    rw [hpipe, havg]
    exact h.avgRtt_eq
  · dsimp only
    rw [toNat_enqueue_rates, h.rates_eq, rates_concat, Nat.mod_add_mod]
  · dsimp only
    rw [toNat_enqueue_squares, h.squares_eq, squares_concat, Nat.mod_add_mod]
  · dsimp only
    rw [toNat_enqueue_kbytes, h.kbytes_eq, kbytes_concat, Nat.mod_add_mod]
  · dsimp only
    rw [hcapacity]
    exact h.capacity_eq

theorem Inv.te_timeout (h : x.Inv KBps hz) (hop : Hop) (hp : x.router.teTimeout hz hop = some p') :
    Inv KBps hz ⟨p', [], x.ticksAfter hz (.te hop)⟩ := by
  obtain ⟨hte, havg, hsum, hsquare, hkbytes, hcapacity⟩ := teTimeout_frame hp
  refine ⟨?_, havg, ?_, ?_, ?_, hcapacity.trans h.capacity_eq⟩
  · dsimp only [ticksAfter]
    rw [hte]
    split_ifs with hpos hzero hzero
    · exact absurd hzero (h.sum_pos_iff.mp hpos)
    · rw [BitVec.toNat_ushiftRight, BitVec.toNat_mul, BitVec.toNat_ofNat, h.toNat_meanRtt,
        Nat.shiftRight_eq_div_pow, Nat.mul_mod_mod]
      rfl
    · rw [h.avgRtt_eq]
      exact h.te_eq
    · exact absurd (h.sum_pos_iff.mpr hzero) hpos
  · dsimp only
    rw [hsum]
    rfl
  · dsimp only
    rw [hsquare]
    rfl
  · dsimp only
    rw [hkbytes]
    rfl

theorem Inv.step {c : XcpCall} (h : x.Inv KBps hz) (hstep : x.step hz c = some x') :
    x'.Inv KBps hz := by
  obtain ⟨p', hp, rfl⟩ := Option.map_eq_some_iff.mp hstep
  cases c with
  | enqueue info =>
    cases hp
    exact h.enqueue info
  | dequeue bytedepth info =>
    obtain ⟨⟨q, info'⟩, hq, rfl⟩ := Option.map_eq_some_iff.mp hp
    obtain ⟨hframe, hte⟩ := dequeue_frame hq
    dsimp only
    have havg : q.avgRtt = x.router.avgRtt := by rw [hframe]
    refine ⟨(congrArg BitVec.toNat hte).trans h.te_eq, ?_, ?_, ?_, ?_, ?_⟩
    · exact havg.trans (h.avgRtt_eq.trans hte.symm)
    · dsimp only
      rw [hframe]
      exact h.rates_eq
    · dsimp only
      rw [hframe]
      exact h.squares_eq
    · dsimp only
      rw [hframe]
      exact h.kbytes_eq
    · dsimp only
      rw [hframe]
      exact h.capacity_eq
  | tq hop =>
    obtain ⟨hte, havg, hsum, hsquare, hkbytes, hcapacity⟩ := tqTimeout_frame hp
    exact ⟨(congrArg BitVec.toNat hte).trans h.te_eq, havg.trans (h.avgRtt_eq.trans hte.symm),
      (congrArg BitVec.toNat hsum).trans h.rates_eq, (congrArg BitVec.toNat hsquare).trans h.squares_eq,
      (congrArg BitVec.toNat hkbytes).trans h.kbytes_eq, hcapacity.trans h.capacity_eq⟩
  | te hop => exact h.te_timeout hop hp

/-! ## When no divisor is 0 -/

/-- The traffic of an interval of `ticks` ticks has an average: the interval is not empty, the
weighted sum is no smaller than the sum it is divided by, and the average times the traffic does
not wrap to 0. -/
def HasAverage (hz : ℕ) (l : List RemotePacket) (ticks : ℕ) : Prop :=
  rates hz l % 2 ^ 64 ≠ 0 →
    ticks ≠ 0 ∧ rates hz l % 2 ^ 64 ≤ squares hz l % 2 ^ 64 ∧ ¬ 2 ^ 64 ∣ mean hz l * kbytes l

/-- The condition on a call, for a link of `KBps`. -/
def Safe (KBps : ℤ) (hz : ℕ) (x : XcpRun) : XcpCall → Prop
  | .enqueue _ => True
  | .dequeue _ info =>
    (info.xcpCwnd ≠ 0 ∧ info.xcpRtt ≠ 0) ∧ info.len ≠ 0 → 1000 ≤ info.xcpCwnd.toNat
  | .tq _ => KBps ≠ 0
  | .te _ => HasAverage hz x.packets x.ticks

theorem cwndKbytes_ne_zero_iff (cwnd : BitVec 32) :
    cwnd / BitVec.ofNat 32 multiFac ≠ 0 ↔ 1000 ≤ cwnd.toNat := by
  have hdiv : (cwnd / BitVec.ofNat 32 multiFac).toNat = cwnd.toNat / 1000 := BitVec.toNat_udiv
  rw [ne_eq, ← BitVec.toNat_inj, hdiv]
  show cwnd.toNat / 1000 ≠ 0 ↔ _
  omega

theorem bytes_eq_zero_iff (hbound : KBps.natAbs ≤ 2 ^ 28) :
    (1000 * KBps % ((2 ^ 64 : ℕ) : ℤ)).toNat = 0 ↔ KBps = 0 := by
  constructor
  · intro h
    have hnonneg : 0 ≤ 1000 * KBps % ((2 ^ 64 : ℕ) : ℤ) :=
      Int.emod_nonneg _ (Int.natCast_ne_zero.mpr (by decide))
    have hdvd : ((2 ^ 64 : ℕ) : ℤ) ∣ 1000 * KBps :=
      Int.dvd_of_emod_eq_zero (Int.le_antisymm (Int.toNat_eq_zero.mp h) hnonneg)
    have hsmall : (1000 * KBps).natAbs < ((2 ^ 64 : ℕ) : ℤ).natAbs := by
      rw [Int.natAbs_mul, Int.natAbs_natCast]
      exact Nat.lt_of_le_of_lt (Nat.mul_le_mul_left _ hbound) (by decide)
    have hzero := Int.eq_zero_of_dvd_of_natAbs_lt_natAbs hdvd hsmall
    exact (Int.mul_eq_zero.mp hzero).resolve_left (by decide)
  · rintro rfl
    rfl

/-- The capacity in bytes is 0 for no link but an unlimited one. -/
theorem capacity_ne_zero_iff (hbound : KBps.natAbs ≤ 2 ^ 28) :
    BitVec.ofNat 64 multiFac * u64 (i32 (KBps * (1000 / multiFac : ℕ))) ≠ 0 ↔ KBps ≠ 0 := by
  have hint : i32 (KBps * (1000 / multiFac : ℕ)) = KBps := by
    unfold i32
    rw [show ((1000 / multiFac : ℕ) : ℤ) = 1 from rfl, mul_one]
    exact Int.bmod_eq_of_le (by omega) (by omega)
  have hfactor : BitVec.ofNat 64 multiFac = BitVec.ofInt 64 1000 := by decide
  have hzero : (0 : BitVec 64).toNat = 0 := rfl
  rw [hint, hfactor, u64, ← BitVec.ofInt_mul, ne_eq, ← BitVec.toNat_inj, BitVec.toNat_ofInt, hzero,
    bytes_eq_zero_iff hbound]

theorem Inv.te_divisors_iff (h : x.Inv KBps hz) (hop : Hop) :
    0 ∉ x.router.divisors hz (.te hop) ↔ HasAverage hz x.packets x.ticks := by
  dsimp only [XcpRouter.divisors, HasAverage]
  by_cases htraffic : rates hz x.packets % 2 ^ 64 = 0
  · have hno : ¬ 0 < x.router.sumRttByCwnd := fun hpos => h.sum_pos_iff.mp hpos htraffic
    rw [if_neg hno]
    exact iff_of_true List.not_mem_nil fun hyes => absurd htraffic hyes
  rw [if_pos (h.sum_pos_iff.mpr htraffic)]
  set s := rates hz x.packets % 2 ^ 64 with hs
  set q := squares hz x.packets % 2 ^ 64 with hq
  have hmean : mean hz x.packets = q / s := rfl
  have hsum : (0 : BitVec 64) = x.router.sumRttByCwnd ↔ s = 0 := by
    rw [eq_comm, ← BitVec.toNat_inj, h.rates_eq]
    rfl
  have hte : (0 : BitVec 64) = x.router.te ↔ x.ticks = 0 := by
    rw [eq_comm, ← BitVec.toNat_inj, h.te_eq]
    rfl
  -- the quotient times the divisor does not wrap
  have hproduct : (0 : BitVec 64) = x.router.sumRttByCwnd * x.router.meanRtt ↔ q < s := by
    have hle : s * (q / s) ≤ q := Nat.mul_div_le q s
    have hlt : q < 2 ^ 64 := Nat.mod_lt _ (by decide)
    rw [eq_comm, ← BitVec.toNat_inj, BitVec.toNat_mul, h.rates_eq, h.toNat_meanRtt, hmean, ← hs,
      Nat.mod_eq_of_lt (hle.trans_lt hlt)]
    show s * (q / s) = 0 ↔ q < s
    rw [Nat.mul_eq_zero, or_iff_right htraffic, Nat.div_eq_zero_iff, or_iff_right htraffic]
  have hkbytes : (0 : BitVec 64) = x.router.meanRtt * x.router.numKbytesInTe ↔
      2 ^ 64 ∣ mean hz x.packets * kbytes x.packets := by
    rw [eq_comm, ← BitVec.toNat_inj, BitVec.toNat_mul, h.kbytes_eq, h.toNat_meanRtt, Nat.mul_mod_mod,
      Nat.dvd_iff_mod_eq_zero]
    rfl
  simp only [List.mem_cons, List.not_mem_nil, or_false, hsum, hte, hproduct, hkbytes, not_or,
    Nat.not_lt]
  exact ⟨fun hall _ => hall.2, fun hall => ⟨htraffic, hall htraffic⟩⟩

/-- **Divisors.** A call divides by 0 exactly when it does not meet the condition. -/
theorem Inv.divisors_iff (h : x.Inv KBps hz) (hbound : KBps.natAbs ≤ 2 ^ 28) (c : XcpCall) :
    0 ∉ x.router.divisors hz c ↔ Safe KBps hz x c := by
  cases c with
  | enqueue info => exact iff_of_true ((XcpRouter.call_isSome_iff _ _ _).mp rfl) trivial
  | dequeue bytedepth info =>
    dsimp only [XcpRouter.divisors, Safe]
    rw [← cwndKbytes_ne_zero_iff]
    split_ifs with hcharged
    · rw [List.mem_cons, List.mem_singleton, XcpRouter.zero_eq_widened_iff,
        XcpRouter.zero_eq_widened_iff, not_or]
      exact ⟨fun hzero _ => hzero.1, fun hcwnd => ⟨hcwnd hcharged, hcharged.1.2⟩⟩
    · exact iff_of_true List.not_mem_nil fun hyes => absurd hyes hcharged
  | tq hop =>
    dsimp only [XcpRouter.divisors, Safe]
    rw [List.mem_singleton, eq_comm, h.capacity_eq]
    exact capacity_ne_zero_iff hbound
  | te hop => exact h.te_divisors_iff hop

/-- **No division by zero.** In every run of the handlers on a new pipe, no divisor is 0 if and only
if the link is limited when `Tq_timeout` runs, every packet that gets feedback has a window of a
thousand bytes, and at every `Te_timeout` the traffic of the interval has an average. -/
theorem guarded_divisors_iff (hz : ℕ) (hop : Hop) (routerId : BitVec 32) (calls : List XcpCall) :
    PartialRun.Guarded (step hz) (fun x c => 0 ∉ x.router.divisors hz c) (start hz hop routerId)
        calls ↔
      PartialRun.Guarded (step hz) (Safe hop.KBps hz) (start hz hop routerId) calls :=
  PartialRun.guarded_iff_of_invariant (I := Inv hop.KBps hz)
    (fun _ _ _ hI _ hstep => hI.step hstep)
    (fun _ c hI => hI.divisors_iff hop.KBps_le c)
    (inv_start hz hop routerId)

/-- A packet of 1500 bytes of a flow with a window of half a kilobyte. -/
def smallWindow : RemotePacket where
  id := 0
  expire := 0
  len := 1500
  waitTime := 0
  src := 0
  dst := 0
  hop := 0
  ttl := 0
  xcpCwnd := 500
  xcpSrcFdbk := 0
  xcpRflctFdbk := 0
  xcpRtt := 100

/-- A link of 8 Mbit/s. -/
def eightMbit : Hop := Hop.install 1000 0 ⟨8000, 10, 0, 50, 0, 1⟩

/-- The packet is counted as it comes in, and stops the machine as it leaves. -/
theorem not_guarded_divisors_smallWindow :
    ¬ PartialRun.Guarded (step 1000) (fun x c => 0 ∉ x.router.divisors 1000 c)
      (start 1000 eightMbit 0) [.enqueue smallWindow, .dequeue 1500 smallWindow] := by
  rintro ⟨-, h⟩
  obtain ⟨hdivisors, -⟩ := h _ rfl
  exact hdivisors (by decide)

end XcpRun

end Modelnet.FreeBSD

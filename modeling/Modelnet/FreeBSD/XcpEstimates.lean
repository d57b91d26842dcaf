import Modelnet.FreeBSD.Aggregate
import Modelnet.FreeBSD.Xcp
import Modelnet.FreeBSD.EmulateHop
import Modelnet.Calendar
import Mathlib.Tactic.Tauto

/-!
# XCP estimates

The control loop of an XCP hop: what `xcp_alloc_pipe` starts from, what `xcp_enqueue` adds up over
a control interval, and the two timeouts, which sample the queue (`Tq_timeout`) and set the feedback
of the next interval (`Te_timeout`). Arithmetic is that of the machine: `u_int64_t` wraps at 64
bits, `u_int` at 32, and an `int` that meets a wider unsigned number is extended by its sign.
A timeout arms itself again after `Tq_` or `Te_` ticks; the last section says when that delay lies
between 1 and `SCHEDLEN - 1`.
-/

namespace Modelnet.FreeBSD

open Modelnet

/-- `struct _xcp_pipe_`, all of it. -/
structure XcpRouter extends XcpPipe where
  routerId : BitVec 32
  linkCapacityKbytes : BitVec 64
  tq : BitVec 64
  avgRtt : BitVec 64
  queueKbytes : BitVec 64
  inputTrafficKbytes : BitVec 64
  sumRttByCwnd : BitVec 64
  sumRttSquareByCwnd : BitVec 64
  numCcPacketsInTe : BitVec 64
  numKbytesInTe : BitVec 64
  deriving DecidableEq

def alphaG : BitVec 64 := 409

def betaG : BitVec 64 := 231

def gammaG : BitVec 64 := 102

def c1d1 : BitVec 64 := 1126

def cd6 : ℤ := 614

/-- `INITIAL_Te_VALUE`. -/
def initialTe (hz : ℕ) : ℕ := hz / 20

def ticksCd002 (hz : ℕ) : ℕ := hz / 500

def initialRttEstimate (hz : ℕ) : ℕ := hz / 1000

/-- An `int` as `u_int64_t`. -/
def u64 (x : ℤ) : BitVec 64 := BitVec.ofInt 64 x

/-- `(int)` of a `u_int64_t` that is used as a `u_int64_t` again. -/
def throughInt (x : BitVec 64) : BitVec 64 := (x.setWidth 32).signExtend 64

/-- `XCP_MAX(0, x)`, of a signed number. -/
def atLeastZero (x : BitVec 64) : BitVec 64 := if x.slt 0 then 0 else x

def absolute (x : BitVec 64) : BitVec 64 := if x.slt 0 then -x else x

/-- `len/MULTI_FAC`. -/
def lenKbytes (info : RemotePacket) : BitVec 32 := info.len / BitVec.ofNat 32 multiFac

namespace XcpRouter

/-! ## Allocation -/

/-- The pipe as `xcp_alloc_pipe` fills it. -/
def start (hz : ℕ) (hop : Hop) (routerId : BitVec 32) : XcpRouter :=
  let te := BitVec.ofNat 64 (initialTe hz)
  let capacity := u64 (i32 (hop.KBps * (1000 / multiFac : ℕ)))
  { routerId := routerId
    linkCapacityKbytes := capacity
    avgRtt := te
    te := te
    tq := te
    xiPos := 1
    xiNeg := 0
    bta := xcpMin (u64 (i32 (hop.qsize * (mnMtu / multiFac : ℕ))) / 2)
      (((alphaG * capacity * te) >>> fpShift) / BitVec.ofNat 64 hz)
    btf := 0
    queueKbytes := 0
    inputTrafficKbytes := 0
    sumRttByCwnd := 0
    sumRttSquareByCwnd := 0
    runningMinQueueKbytes := 0
    numCcPacketsInTe := 0
    numKbytesInTe := 0 }

/-- The delay of the first timeout, between a fifth of the interval `te` and all of it as `random`
says, and at least `hz/250`. -/
def firstDelay (hz : ℕ) (te : BitVec 64) (random : ℕ) : BitVec 32 :=
  let scaled : BitVec 32 := ((BitVec.ofNat 64 random <<< fpShift) / 0x7fffffff).setWidth 32
  let range : BitVec 32 := (te - te / 5).setWidth 32
  let t : BitVec 32 := (((scaled * range) >>> fpShift).setWidth 64 + te / 5).setWidth 32
  if t < BitVec.ofNat 32 (hz / 250) then BitVec.ofNat 32 (hz / 250) else t

/-! ## Packets -/

/-- `inv_rate` of `xcp_enqueue`, in 32 bits; 0 for a window below 1 KB. -/
def enqueueRate (info : RemotePacket) : BitVec 64 :=
  if info.xcpCwnd / BitVec.ofNat 32 multiFac ≠ 0 then
    (((info.xcpRtt * lenKbytes info) <<< fpShift <<< fpExtra) /
      (info.xcpCwnd / BitVec.ofNat 32 multiFac)).setWidth 64
  else 0

def rttTicks (hz : ℕ) (info : RemotePacket) : BitVec 32 :=
  (info.xcpRtt * BitVec.ofNat 32 hz) >>> fpShift

/-- `xcp_enqueue`. -/
def enqueue (hz : ℕ) (p : XcpRouter) (info : RemotePacket) : XcpRouter :=
  let kbytes := (lenKbytes info).setWidth 64
  let p := { p with inputTrafficKbytes := p.inputTrafficKbytes + kbytes }
  if info.xcpCwnd ≠ 0 then
    let p := { p with
      numCcPacketsInTe := p.numCcPacketsInTe + 1
      numKbytesInTe := p.numKbytesInTe + kbytes }
    if rttTicks hz info ≠ BitVec.ofNat 32 (initialRttEstimate hz) then
      { p with
        sumRttByCwnd := p.sumRttByCwnd + enqueueRate info
        sumRttSquareByCwnd :=
          p.sumRttSquareByCwnd + info.xcpRtt.setWidth 64 * enqueueRate info }
    else p
  else p

/-- `xcp_dequeue` on the whole pipe. -/
def dequeue (hz : ℕ) (bytedepth : ℤ) (p : XcpRouter) (info : RemotePacket) :
    Option (XcpRouter × RemotePacket) :=
  (p.toXcpPipe.xcpDequeue hz bytedepth info).map fun r => ({ p with toXcpPipe := r.1 }, r.2)

/-! ## Timeouts -/

/-- The time the queue in front of the link takes, in ticks. -/
def queueTicks (hz : ℕ) (hop : Hop) (p : XcpRouter) : BitVec 64 :=
  u64 (i32 (hop.bytedepth * hz)) / (BitVec.ofNat 64 multiFac * p.linkCapacityKbytes)

/-- `Tq_timeout`, up to the rearming with the new `Tq_`. `none` stands for the division by a
capacity of 0. -/
def tqTimeout (hz : ℕ) (hop : Hop) (p : XcpRouter) : Option XcpRouter :=
  if BitVec.ofNat 64 multiFac * p.linkCapacityKbytes = 0 then none
  else
    let half := (p.avgRtt - queueTicks hz hop p).toInt.tdiv 2
    some { p with
      queueKbytes := p.runningMinQueueKbytes
      runningMinQueueKbytes := u64 (hop.bytedepth.tdiv multiFac)
      tq := u64 (if half < ticksCd002 hz then ticksCd002 hz else half) }

/-- The average RTT of the packets of the interval, in units of `2 ^ -FP_SHIFT` seconds. -/
def meanRtt (p : XcpRouter) : BitVec 64 := p.sumRttSquareByCwnd / p.sumRttByCwnd

def phiKbytes (hz : ℕ) (p : XcpRouter) : BitVec 64 :=
  let rateDiff :=
    throughInt (p.linkCapacityKbytes - (p.inputTrafficKbytes * BitVec.ofNat 64 hz) / p.te)
  rateDiff * ((alphaG * p.meanRtt) >>> fpShift) - throughInt (betaG * p.queueKbytes)

/-- `shuffled_traffic_Kbytes`. -/
def shuffledTraffic (hz : ℕ) (p : XcpRouter) : BitVec 64 :=
  if gammaG * p.inputTrafficKbytes < absolute (p.phiKbytes hz) then 0
  else gammaG * p.inputTrafficKbytes - absolute (p.phiKbytes hz)

/-- What is left of 60% of the queue, in KB shifted by `FP_SHIFT`. -/
def queueRoom (hop : Hop) : BitVec 64 :=
  u64 (i32 ((i32 (cd6 * hop.qsize) / 2 ^ fpShift - hop.slotdepth) * (mnMtu / multiFac : ℕ) *
    2 ^ fpShift))

def nextBta (hz : ℕ) (hop : Hop) (p : XcpRouter) : BitVec 64 :=
  let bta := atLeastZero (p.phiKbytes hz) + p.shuffledTraffic hz
  if queueRoom hop < bta then atLeastZero (queueRoom hop) else bta

def nextBtf (hz : ℕ) (p : XcpRouter) : BitVec 64 :=
  atLeastZero (-p.phiKbytes hz) + p.shuffledTraffic hz

/-- The feedback of the next interval, from what came in during this one. `none` stands for a
division by 0. -/
def setFeedback (hz : ℕ) (hop : Hop) (p : XcpRouter) : Option XcpRouter :=
  if p.te = 0 ∨ p.sumRttByCwnd * p.meanRtt = 0 ∨ p.meanRtt * p.numKbytesInTe = 0 then none
  else some { p with
    bta := p.nextBta hz hop
    btf := p.nextBtf hz
    xiPos := ((c1d1 * p.nextBta hz hop) <<< fpShift <<< fpExtra) / (p.sumRttByCwnd * p.meanRtt)
    xiNeg := (((c1d1 * p.nextBtf hz) <<< fpShift) / (p.meanRtt * p.numKbytesInTe)) >>> fpShift
    avgRtt := (p.meanRtt * BitVec.ofNat 64 hz) >>> fpShift }

/-- The counters of an interval start again, and the interval becomes the average RTT. -/
def startInterval (p : XcpRouter) : XcpRouter :=
  { p with
    inputTrafficKbytes := 0
    numCcPacketsInTe := 0
    numKbytesInTe := 0
    sumRttByCwnd := 0
    sumRttSquareByCwnd := 0
    te := p.avgRtt }

/-- `Te_timeout`, up to the rearming with the new `Te_`. -/
def teTimeout (hz : ℕ) (hop : Hop) (p : XcpRouter) : Option XcpRouter :=
  if 0 < p.sumRttByCwnd then (p.setFeedback hz hop).map startInterval else some p.startInterval

/-! ## The delays -/

/-- A delay that files an entry in another slot than the one that is served, with the tick that is
meant. -/
def GoodDelay (delay : BitVec 64) : Prop := 1 ≤ delay.toNat ∧ delay.toNat < schedLen

/-- When `Tq_timeout` arms itself well: the capacity is not 0, two milliseconds are less than a
turn of the calendar, and half of what the queue leaves of the average RTT is less than a turn of
the calendar and, where two milliseconds are no tick, a tick at least. -/
def TqOk (hz : ℕ) (hop : Hop) (p : XcpRouter) : Prop :=
  BitVec.ofNat 64 multiFac * p.linkCapacityKbytes ≠ 0 ∧ ticksCd002 hz < schedLen ∧
    (p.avgRtt - queueTicks hz hop p).toInt < 2 * schedLen ∧
    (500 ≤ hz ∨ 2 ≤ (p.avgRtt - queueTicks hz hop p).toInt)

/-- When `Te_timeout` arms itself well: the average RTT of the packets of the interval lies between
one tick and a turn of the calendar, and the divisors of the feedback are not 0; without such
packets, the average that was there lies in these bounds. -/
def TeOk (hz : ℕ) (p : XcpRouter) : Prop :=
  if 0 < p.sumRttByCwnd then
    (p.te ≠ 0 ∧ p.sumRttByCwnd * p.meanRtt ≠ 0 ∧ p.meanRtt * p.numKbytesInTe ≠ 0) ∧
      2 ^ fpShift ≤ (p.meanRtt * BitVec.ofNat 64 hz).toNat ∧
      (p.meanRtt * BitVec.ofNat 64 hz).toNat < 2 ^ fpShift * schedLen
  else 1 ≤ p.avgRtt.toNat ∧ p.avgRtt.toNat < schedLen

variable {hz : ℕ} {hop : Hop} {p : XcpRouter}

theorem goodDelay_ushiftRight {x : BitVec 64} :
    GoodDelay (x >>> fpShift) ↔ 2 ^ fpShift ≤ x.toNat ∧ x.toNat < 2 ^ fpShift * schedLen := by
  unfold GoodDelay
  rw [BitVec.toNat_ushiftRight, Nat.shiftRight_eq_div_pow, Nat.le_div_iff_mul_le (by decide),
    Nat.div_lt_iff_lt_mul (by decide), Nat.one_mul, Nat.mul_comm]

theorem goodDelay_u64 {x : ℤ} (h0 : 0 ≤ x) (hx : x < 2 ^ 63) :
    GoodDelay (u64 x) ↔ 1 ≤ x ∧ x < schedLen := by
  have hnat : (u64 x).toNat = x.toNat := by
    unfold u64
    rw [BitVec.toNat_ofInt, Int.emod_eq_of_lt h0 (by omega)]
  unfold GoodDelay
  rw [hnat]
  omega

/-- The larger of the two candidates is at most `2 ^ 62`. -/
theorem goodDelay_tq (hhz : hz < 2 ^ 31) (d : BitVec 64) :
    GoodDelay (u64 (if d.toInt.tdiv 2 < ticksCd002 hz then ticksCd002 hz else d.toInt.tdiv 2)) ↔
      ticksCd002 hz < schedLen ∧ d.toInt < 2 * schedLen ∧ (500 ≤ hz ∨ 2 ≤ d.toInt) := by
  have hlt : d.toInt < 2 ^ 63 := d.toInt_lt
  have hle : -2 ^ 63 ≤ d.toInt := d.le_toInt
  have hticks : ticksCd002 hz = hz / 500 := rfl
  have hlen : schedLen = 16384 := rfl
  have hhalf : d.toInt.tdiv 2 = if 0 ≤ d.toInt then d.toInt / 2 else -(-d.toInt / 2) := by
    split_ifs with h0
    · exact Int.tdiv_eq_ediv_of_nonneg h0
    · rw [← Int.tdiv_eq_ediv_of_nonneg (by omega), Int.neg_tdiv, neg_neg]
  split_ifs at hhalf with h0
  · split_ifs with hmax
    · rw [goodDelay_u64 (by omega) (by omega)]
      omega
    · rw [goodDelay_u64 (by omega) (by omega)]
      omega
  · split_ifs with hmax
    · rw [goodDelay_u64 (by omega) (by omega)]
      omega
    · rw [goodDelay_u64 (by omega) (by omega)]
      omega

/-- **`Tq_timeout`.** It arms itself well exactly when `TqOk` holds. -/
theorem tqTimeout_good_iff (hhz : hz < 2 ^ 31) :
    (∃ p', tqTimeout hz hop p = some p' ∧ GoodDelay p'.tq) ↔ TqOk hz hop p := by
  unfold tqTimeout TqOk
  split_ifs with hcap
  · simp [hcap]
  · rw [← goodDelay_tq hhz]
    constructor
    · rintro ⟨p', hp', hgood⟩
      cases hp'
      exact ⟨hcap, hgood⟩
    · rintro ⟨-, hgood⟩
      exact ⟨_, rfl, hgood⟩

theorem setFeedback_isSome_iff (hz : ℕ) (hop : Hop) (p : XcpRouter) :
    (p.setFeedback hz hop).isSome ↔
      p.te ≠ 0 ∧ p.sumRttByCwnd * p.meanRtt ≠ 0 ∧ p.meanRtt * p.numKbytesInTe ≠ 0 := by
  unfold setFeedback
  split_ifs with hzero
  · simp only [Option.isSome_none, Bool.false_eq_true, false_iff]
    tauto
  · simp only [Option.isSome_some, true_iff]
    tauto

theorem setFeedback_avgRtt {p' : XcpRouter} (h : p.setFeedback hz hop = some p') :
    p'.avgRtt = (p.meanRtt * BitVec.ofNat 64 hz) >>> fpShift := by
  unfold setFeedback at h
  split_ifs at h
  cases h
  rfl

/-- **`Te_timeout`.** It arms itself well exactly when `TeOk` holds. -/
theorem teTimeout_good_iff :
    (∃ p', teTimeout hz hop p = some p' ∧ GoodDelay p'.te) ↔ TeOk hz p := by
  unfold teTimeout TeOk
  split_ifs with hsum
  · rw [← goodDelay_ushiftRight, ← setFeedback_isSome_iff hz hop p]
    constructor
    · rintro ⟨p', hp', hgood⟩
      obtain ⟨q, hq, rfl⟩ := Option.map_eq_some_iff.mp hp'
      exact ⟨by rw [hq]; rfl, (setFeedback_avgRtt hq) ▸ hgood⟩
    · rintro ⟨hsome, hgood⟩
      obtain ⟨q, hq⟩ := Option.isSome_iff_exists.mp hsome
      refine ⟨q.startInterval, by rw [hq]; rfl, ?_⟩
      show GoodDelay q.avgRtt
      rw [setFeedback_avgRtt hq]
      exact hgood
  · constructor
    · rintro ⟨p', hp', hgood⟩
      cases hp'
      exact hgood
    · intro hgood
      exact ⟨_, rfl, hgood⟩

end XcpRouter

end Modelnet.FreeBSD

import Modelnet.FreeBSD.EmulateHop

/-!
# What a record says in ticks

The handlers convert a record with `int` products, and the crossing of a slow link computes with
two `u_int` products. None of the ranges is checked. Each product is exact on a range of its own
(`delayOf_eq_iff`, `bytespertickOf_eq_iff`, `ticksOf_eq_iff`, `divisorOf_eq_iff`).
-/

namespace Modelnet

/-! ## Residues -/

/-- An `int` differs from the value by a multiple of `2 ^ 32`. -/
theorem i32_spec (x : ℤ) : ∃ k, x = i32 x + k * 2 ^ 32 ∧ -2 ^ 31 ≤ i32 x ∧ i32 x < 2 ^ 31 := by
  have hlo := Int.le_bmod (x := x) (m := 2 ^ 32) (by decide)
  have hhi := Int.bmod_lt (x := x) (m := 2 ^ 32) (by decide)
  have hk := Int.bmod_add_bdiv x (2 ^ 32)
  refine ⟨x.bdiv (2 ^ 32), ?_, ?_, ?_⟩ <;> unfold i32 <;> omega

/-- A nonnegative value is its own `int` below `2 ^ 31`, and only there. -/
theorem i32_eq_iff {x : ℤ} (h : 0 ≤ x) : i32 x = x ↔ x < 2 ^ 31 := by
  obtain ⟨k, hk, hlo, hhi⟩ := i32_spec x
  constructor
  · omega
  · omega

theorem u32_eq_iff {x : ℤ} (h : 0 ≤ x) : (u32 x : ℤ) = x ↔ x < 2 ^ 32 := by
  unfold u32
  omega

/-! ## The quantities -/

/-- `(u_int) len * (u_int) HZ`. -/
def ticksOf (hz len : ℕ) : ℕ := u32 (len * hz : ℕ)

/-- `(u_int) (1000*KBps)`. -/
def divisorOf (KBps : ℤ) : ℕ := u32 (1000 * KBps)

/-- The two are what the crossing of a slow link divides. -/
theorem slowDelay_eq (hz : ℕ) (hop : Hop) (len : ℕ) :
    slowDelay hz hop len = ticksOf hz len / divisorOf hop.KBps := rfl

theorem kbpsOf_eq {bandwidth : Int32} (h : 0 ≤ bandwidth.toInt) :
    kbpsOf bandwidth = bandwidth.toInt / 8 := Int.tdiv_eq_ediv_of_nonneg h

theorem delayOf_eq_iff {hz : ℕ} {delay : Int32} (h : 0 ≤ delay.toInt) :
    delayOf hz delay = hz * delay.toInt / 1000 ↔ hz * delay.toInt < 2 ^ 31 := by
  have hx : 0 ≤ hz * delay.toInt := Int.mul_nonneg (Int.natCast_nonneg hz) h
  unfold delayOf
  generalize (hz : ℤ) * delay.toInt = x at hx
  obtain ⟨k, hk, hlo, hhi⟩ := i32_spec x
  constructor
  · intro heq
    by_contra hge
    -- a wrap shifts the quotient by more than 4 million
    have hk1 : 1 ≤ k := by omega
    rcases le_or_gt 0 (i32 x) with hw | hw
    · rw [Int.tdiv_eq_ediv_of_nonneg hw] at heq
      omega
    · have htdiv : (i32 x).tdiv 1000 ≤ 0 := Int.tdiv_le_tdiv (by decide) hw.le
      omega
  · intro hlt
    rw [(i32_eq_iff hx).mpr hlt, Int.tdiv_eq_ediv_of_nonneg hx]

/-- **Dividend and divisor** of a slow link. -/
theorem ticksOf_eq_iff {hz : ℕ} : (∀ len ≤ 65535, ticksOf hz len = len * hz) ↔
    65535 * hz < 2 ^ 32 := by
  have hiff (len : ℕ) : ticksOf hz len = len * hz ↔ len * hz < 2 ^ 32 := by
    have := u32_eq_iff (x := (len * hz : ℕ)) (Int.natCast_nonneg _)
    unfold ticksOf
    omega
  constructor
  · exact fun h => (hiff 65535).mp (h 65535 (Nat.le_refl _))
  · intro h len hlen
    exact (hiff len).mpr ((Nat.mul_le_mul_right hz hlen).trans_lt h)

theorem divisorOf_eq_iff {KBps : ℤ} (h : 0 ≤ KBps) :
    (divisorOf KBps : ℤ) = 1000 * KBps ↔ 1000 * KBps < 2 ^ 32 :=
  u32_eq_iff (by omega)

/-- **Bytes in a tick**, where the divisor of a slow link is exact. -/
theorem bytespertickOf_eq_iff {hz : ℕ} (hpos : 0 < hz) (hint : hz < 2 ^ 31) {KBps : ℤ}
    (h : 0 ≤ KBps) (hdivisor : 1000 * KBps < 2 ^ 32) :
    (bytespertickOf hz KBps : ℤ) = 1000 * KBps / hz ↔ 1000 * KBps < 2 ^ 31 ∨ hz = 1 := by
  unfold bytespertickOf
  rw [Int.mul_comm KBps 1000]
  have hp : 0 ≤ 1000 * KBps := by omega
  generalize 1000 * KBps = p at hp hdivisor
  have hhz : (0 : ℤ) < hz := by omega
  by_cases hlt : p < 2 ^ 31
  · have hquot : 0 ≤ p / hz ∧ p / hz ≤ p :=
      ⟨Int.ediv_nonneg hp hhz.le, Int.ediv_le_self _ hp⟩
    rw [(i32_eq_iff hp).mpr hlt, Int.tdiv_eq_ediv_of_nonneg hp]
    exact ⟨fun _ => Or.inl hlt, fun _ => (u32_eq_iff hquot.1).mpr (by omega)⟩
  · -- the product has turned into `-a`
    obtain ⟨a, ha⟩ : ∃ a, a = 2 ^ 32 - p := ⟨_, rfl⟩
    have hw : i32 p = -a := by
      obtain ⟨k, hk, hlo, hhi⟩ := i32_spec p
      omega
    rw [hw, Int.neg_tdiv, Int.tdiv_eq_ediv_of_nonneg (by omega)]
    have hq := Int.mul_ediv_self_le (x := a) (k := (hz : ℤ)) hhz.ne'
    have hq0 : 0 ≤ a / hz := Int.ediv_nonneg (by omega) hhz.le
    have he := Int.mul_ediv_self_le (x := p) (k := (hz : ℤ)) hhz.ne'
    have he1 : 1 ≤ p / hz := (Int.le_ediv_iff_mul_le hhz).mpr (by omega)
    constructor
    · intro heq
      refine Or.inr ?_
      by_contra hne
      have htwo : (2 : ℤ) ≤ hz := by omega
      have hq2 := Int.mul_le_mul_of_nonneg_right htwo hq0
      have he2 := Int.mul_le_mul_of_nonneg_right htwo (Int.le_of_lt he1)
      unfold u32 at heq
      omega
    · rintro (hc | rfl)
      · exact absurd hc hlt
      · show (u32 (-(a / 1)) : ℤ) = p / 1
        unfold u32
        omega

/-! ## A record -/

/-- The converted values and the products of a crossing are the exact ones. -/
structure Converts (hz : ℕ) (r : SysctlHop) (hop : Hop) : Prop where
  KBps : hop.KBps = r.bandwidth.toInt / 8
  bytespertick : (hop.bytespertick : ℤ) = 1000 * hop.KBps / hz
  delay : hop.delay = hz * r.delay.toInt / 1000
  ticks : ∀ len ≤ 65535, ticksOf hz len = len * hz
  divisor : (divisorOf hop.KBps : ℤ) = 1000 * hop.KBps

structure InRange (hz : ℕ) (r : SysctlHop) : Prop where
  delay : hz * r.delay.toInt < 2 ^ 31
  ticks : 65535 * hz < 2 ^ 32
  bandwidth : 1000 * (r.bandwidth.toInt / 8) < 2 ^ 31 ∨
    hz = 1 ∧ 1000 * (r.bandwidth.toInt / 8) < 2 ^ 32

/-- A hop with the values that the handlers compute from the record. -/
theorem converts_iff_inRange {hz : ℕ} (hpos : 0 < hz) (hint : hz < 2 ^ 31) {r : SysctlHop}
    (hbandwidth : 0 ≤ r.bandwidth.toInt) (hdelay : 0 ≤ r.delay.toInt) {hop : Hop}
    (hK : hop.KBps = kbpsOf r.bandwidth)
    (hbytes : hop.bytespertick = bytespertickOf hz (kbpsOf r.bandwidth))
    (hticks : hop.delay = delayOf hz r.delay) : Converts hz r hop ↔ InRange hz r := by
  have hkbps := kbpsOf_eq hbandwidth
  have hnonneg : 0 ≤ kbpsOf r.bandwidth := by omega
  constructor
  · rintro ⟨-, h₂, h₃, h₄, h₅⟩
    rw [hK] at h₂ h₅
    rw [hbytes] at h₂
    have hdivisor := (divisorOf_eq_iff hnonneg).mp h₅
    have hpertick := (bytespertickOf_eq_iff hpos hint hnonneg hdivisor).mp h₂
    rw [hkbps] at hdivisor hpertick
    exact ⟨(delayOf_eq_iff hdelay).mp (hticks.symm.trans h₃), ticksOf_eq_iff.mp h₄,
      hpertick.imp_right fun h => ⟨h, hdivisor⟩⟩
  · rintro ⟨h₁, h₂, h₃⟩
    rw [← hkbps] at h₃
    have hdivisor : 1000 * kbpsOf r.bandwidth < 2 ^ 32 := by
      rcases h₃ with h | h
      · omega
      · exact h.2
    refine ⟨hK.trans hkbps, ?_, hticks.trans ((delayOf_eq_iff hdelay).mpr h₁),
      ticksOf_eq_iff.mpr h₂, ?_⟩
    · rw [hbytes, hK]
      exact (bytespertickOf_eq_iff hpos hint hnonneg hdivisor).mpr (h₃.imp_right fun h => h.1)
    · rw [hK]
      exact (divisorOf_eq_iff hnonneg).mpr hdivisor

/-- **Conversions.** Every record with a nonnegative bandwidth and delay, loaded by either module
or written to `hopmod`, is converted exactly, and the products of a crossing are exact, when none
of the products leaves its range, and only then. -/
theorem converts_iff {hz : ℕ} (hpos : 0 < hz) (hint : hz < 2 ^ 31) {r : SysctlHop}
    (hbandwidth : 0 ≤ r.bandwidth.toInt) (hdelay : 0 ≤ r.delay.toInt) (hop : Hop) (i : ℕ) :
    (Converts hz r (hop.configure hz i r) ↔ InRange hz r) ∧
      (Converts hz r (FreeBSD.sysctlHopmod hz hop r) ↔ InRange hz r) :=
  ⟨converts_iff_inRange hpos hint hbandwidth hdelay rfl rfl rfl,
    converts_iff_inRange hpos hint hbandwidth hdelay rfl rfl rfl⟩

/-- A link of 10 Mbit/s and 20 ms at 1000 ticks a second. -/
theorem converts_ten_megabit : Converts 1000 ⟨10000, 20, 0, 10, 0, 0⟩
    (Hop.zero.configure 1000 0 ⟨10000, 20, 0, 10, 0, 0⟩) :=
  (converts_iff (by decide) (by decide) (by decide) (by decide) Hop.zero 0).1.mpr
    ⟨by decide, by decide, Or.inl (by decide)⟩

/-- A link of 20 Gbit/s at 100 ticks a second carries 25 million bytes in a tick; the hop says four
billion. A delay of an hour at 1000 ticks a second comes out negative. -/
theorem not_converts_twenty_gigabit :
    ¬ Converts 100 ⟨20000000, 20, 0, 10, 0, 0⟩
        (Hop.zero.configure 100 0 ⟨20000000, 20, 0, 10, 0, 0⟩) ∧
      ¬ Converts 1000 ⟨10000, 3600000, 0, 10, 0, 0⟩
        (Hop.zero.configure 1000 0 ⟨10000, 3600000, 0, 10, 0, 0⟩) := by
  refine ⟨fun h => ?_, fun h => ?_⟩
  · exact absurd h.bytespertick (by decide +kernel)
  · exact absurd h.delay (by decide +kernel)

end Modelnet

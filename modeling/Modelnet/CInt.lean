import Mathlib.Data.Int.Basic
import Mathlib.Data.Nat.Basic
import Mathlib.Algebra.Group.Int.Defs
import Mathlib.Algebra.Group.Nat.Defs

/-!
# C integers

The conversions the C code makes between `int`, `u_int` and wider integers. A value of type
`int` is an integer in `[-2 ^ 31, 2 ^ 31)`, a `u_int` a natural number below `2 ^ 32`; integer
division truncates toward zero (`Int.tdiv`). The kernels are built with wrapping signed
arithmetic, so an `int` product is reduced to its residue (`i32`).
-/

namespace Modelnet

/-- The value as `int`. -/
def i32 (x : ℤ) : ℤ := x.bmod (2 ^ 32)

/-- The value as `u_int`. -/
def u32 (x : ℤ) : ℕ := (x % 2 ^ 32).toNat

theorem natAbs_tdiv_eight_le {x : ℤ} (h : -2 ^ 31 ≤ x) (h' : x < 2 ^ 31) :
    (x.tdiv 8).natAbs ≤ 2 ^ 28 := by
  rw [Int.natAbs_tdiv]
  show x.natAbs / 8 ≤ 2 ^ 28
  omega

/-- `(u_int) (1000 * k)` vanishes for no other 29-bit `k` than zero. -/
theorem u32_mul_ne_zero {k : ℤ} (hk : k ≠ 0) (h : k.natAbs ≤ 2 ^ 28) : u32 (1000 * k) ≠ 0 := by
  intro hzero
  have hmod : 1000 * k % 2 ^ 32 = 0 :=
    Int.le_antisymm (Int.toNat_eq_zero.mp hzero) (Int.emod_nonneg _ (by decide))
  have hdvd : 2 ^ 32 ∣ 1000 * k.natAbs := by
    have hnat := Int.natAbs_dvd_natAbs.mpr (Int.dvd_of_emod_eq_zero hmod)
    rwa [Int.natAbs_mul] at hnat
  -- 1000 is 8 times an odd number
  have hdvd : 2 ^ 29 ∣ 125 * k.natAbs := by
    refine Nat.dvd_of_mul_dvd_mul_left (k := 8) (by decide) ?_
    rwa [← Nat.mul_assoc]
  have hdvd : 2 ^ 29 ∣ k.natAbs := Nat.Coprime.dvd_of_dvd_mul_left (by decide) hdvd
  have hle : 2 ^ 29 ≤ k.natAbs := Nat.le_of_dvd (Int.natAbs_pos.mpr hk) hdvd
  exact absurd (Nat.le_trans hle h) (by decide)

theorem u32_of_lt {x : ℤ} (h : 0 ≤ x) (h' : x < 2 ^ 32) : u32 x = x.toNat := by
  unfold u32
  rw [Int.emod_eq_of_lt h h']

end Modelnet

import Mathlib.Algebra.BigOperators.Group.List.Basic
import Mathlib.Algebra.Order.Group.Unbundled.Int
import Mathlib.Tactic.SplitIfs
import Mathlib.Algebra.GroupWithZero.Nat
import Mathlib.Algebra.Ring.Int.Defs

/-!
# Sums of integers in doubles

A double has a significand of 53 bits. The sum of two doubles that are integers is an integer too,
rounded to the nearest double, and to the even significand when there are two. So a sum that is
accumulated in a double is exact as long as it does not leave the integers up to `2 ^ 53`.
-/

namespace Doubles

/-- The nearest number of at most 53 significant bits. -/
def roundNat (m : ℕ) : ℕ :=
  let unit := 2 ^ (Nat.log2 m - 52)
  let q := m / unit
  let r := m % unit
  (if unit < 2 * r ∨ unit = 2 * r ∧ q % 2 = 1 then q + 1 else q) * unit

/-- The double next to an integer. -/
def round (z : ℤ) : ℤ := z.sign * roundNat z.natAbs

/-- Adds up integers in a double, from the left. -/
def sum (xs : List ℤ) : ℤ := xs.foldl (fun a x => round (a + x)) 0

/-- The sum comes out right. -/
def ExactSum (xs : List ℤ) : Prop := sum xs = xs.sum

instance (xs : List ℤ) : Decidable (ExactSum xs) := inferInstanceAs (Decidable (_ = _))

theorem roundNat_of_le {m : ℕ} (h : m ≤ 2 ^ 53) : roundNat m = m := by
  rcases h.eq_or_lt with rfl | hlt
  · decide +kernel
  · have hlog : Nat.log2 m - 52 = 0 := by
      by_cases hm : m = 0
      · subst hm; rfl
      · have hlog' := (Nat.log2_lt hm).mpr hlt
        omega
    unfold roundNat
    rw [hlog, Nat.pow_zero]
    dsimp only
    rw [Nat.div_one, Nat.mod_one, if_neg (by omega), Nat.mul_one]

theorem round_of_le {z : ℤ} (h : z.natAbs ≤ 2 ^ 53) : round z = z := by
  unfold round
  rw [roundNat_of_le h, Int.sign_mul_natAbs]

theorem exactSum_of_le {xs : List ℤ} (h : (xs.map Int.natAbs).sum ≤ 2 ^ 53) : ExactSum xs := by
  have hrun : ∀ (ys : List ℤ) (a : ℤ), a.natAbs + (ys.map Int.natAbs).sum ≤ 2 ^ 53 →
      ys.foldl (fun a x => round (a + x)) a = a + ys.sum := by
    intro ys
    induction ys with
    | nil => intro a _; exact (Int.add_zero a).symm
    | cons y ys ih =>
      intro a hle
      rw [List.map_cons, List.sum_cons] at hle
      have hab := Int.natAbs_add_le a y
      rw [List.foldl_cons, round_of_le (by omega), ih (a + y) (by omega), List.sum_cons]
      omega
  unfold ExactSum sum
  rw [hrun xs 0 (by rw [Int.natAbs_zero]; omega), Int.zero_add]

end Doubles

import Mathlib.Algebra.BigOperators.Group.List.Basic
import Mathlib.Tactic.SplitIfs
import Mathlib.Algebra.GroupWithZero.Nat

/-!
# Sums of quotients

Dividing every entry of a list and adding up loses the remainders: `d` times the sum of the
quotients plus the sum of the remainders is the sum of the list (`mul_sumDiv_add_sumMod`). So the
sum of the quotients reaches the quotient of the sum exactly if the remainders add up to less than
`d`.
-/

namespace Floors

/-- The sum of the quotients by `d`. -/
def sumDiv (d : ℕ) (xs : List ℕ) : ℕ := (xs.map (· / d)).sum

/-- The sum of the remainders modulo `d`. -/
def sumMod (d : ℕ) (xs : List ℕ) : ℕ := (xs.map (· % d)).sum

theorem sumDiv_cons (d x : ℕ) (xs : List ℕ) : sumDiv d (x :: xs) = x / d + sumDiv d xs :=
  List.sum_cons

theorem sumMod_cons (d x : ℕ) (xs : List ℕ) : sumMod d (x :: xs) = x % d + sumMod d xs :=
  List.sum_cons

theorem sumMod_append (d : ℕ) (xs ys : List ℕ) :
    sumMod d (xs ++ ys) = sumMod d xs + sumMod d ys := by
  unfold sumMod
  rw [List.map_append, List.sum_append]

theorem sumDiv_append (d : ℕ) (xs ys : List ℕ) :
    sumDiv d (xs ++ ys) = sumDiv d xs + sumDiv d ys := by
  unfold sumDiv
  rw [List.map_append, List.sum_append]

/-- **Division of every entry.** -/
theorem mul_sumDiv_add_sumMod (d : ℕ) (xs : List ℕ) :
    d * sumDiv d xs + sumMod d xs = xs.sum := by
  induction xs with
  | nil => rfl
  | cons x xs ih =>
    have hx := Nat.div_add_mod x d
    rw [sumDiv_cons, sumMod_cons, List.sum_cons, Nat.mul_add]
    omega

/-- A number of units is reached by the quotients if what is cut off leaves that many. -/
theorem le_sumDiv_iff {d : ℕ} (hd : 0 < d) (n : ℕ) (xs : List ℕ) :
    n ≤ sumDiv d xs ↔ d * n + sumMod d xs ≤ xs.sum := by
  rw [← mul_sumDiv_add_sumMod d xs, Nat.add_le_add_iff_right, Nat.mul_le_mul_left_iff hd]

/-- The quotients reach the quotient of the sum exactly if the remainders stay below `d`. -/
theorem sum_div_le_sumDiv_iff {d : ℕ} (hd : 0 < d) (xs : List ℕ) :
    xs.sum / d ≤ sumDiv d xs ↔ sumMod d xs < d := by
  rw [← mul_sumDiv_add_sumMod d xs, Nat.mul_add_div hd, ← Nat.div_eq_zero_iff_lt hd]
  generalize sumMod d xs / d = k
  omega

end Floors

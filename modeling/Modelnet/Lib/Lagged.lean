import Mathlib.Data.Nat.Notation
import Mathlib.Logic.Function.Basic
import Mathlib.Tactic.SplitIfs

/-!
# Lagged recurrences in place

A sequence with `x (k + n) = f (x k) (x (k + 1)) (x (k + m))` is kept as an array of `n` of its
terms. The next `n` terms are computed in place, in ascending order: position `k` is read together
with its successor and the position `m` ahead, both around the end of the array. `Window` says
which positions are new; one step moves the border (`Window.step`).
-/

namespace Lagged

variable {α : Type*}

/-- The sequence obeys the recurrence. -/
def Recurrence (n m : ℕ) (f : α → α → α → α) (x : ℕ → α) : Prop :=
  ∀ k, x (k + n) = f (x k) (x (k + 1)) (x (k + m))

/-- The first `j` positions hold the terms of the block that starts at `b + n`, the others still
those of the block at `b`. -/
def Window (n : ℕ) (x : ℕ → α) (b j : ℕ) (a : ℕ → α) : Prop :=
  (∀ i < j, a i = x (b + n + i)) ∧ ∀ i, j ≤ i → i < n → a i = x (b + i)

variable {n m b j : ℕ} {f : α → α → α → α} {x a : ℕ → α}

theorem window_zero : Window n x b 0 a ↔ ∀ i < n, a i = x (b + i) :=
  ⟨fun h i hi => h.2 i (Nat.zero_le i) hi,
    fun h => ⟨fun i hi => absurd hi (Nat.not_lt_zero i), fun i _ hi => h i hi⟩⟩

/-- When every position is new, the array holds the next block. -/
theorem Window.full (h : Window n x b n a) : Window n x (b + n) 0 a :=
  window_zero.mpr h.1

/-- A position ahead of `j`, around the end, holds the term that many places on. -/
theorem Window.ahead (h : Window n x b j a) (hj : j < n) {d : ℕ} (hd : d < n) :
    a ((j + d) % n) = x (b + j + d) := by
  rcases Nat.lt_or_ge (j + d) n with hlt | hge
  · rw [Nat.mod_eq_of_lt hlt, h.2 (j + d) (Nat.le_add_right j d) hlt, Nat.add_assoc]
  · have hmod : (j + d) % n = j + d - n := by
      rw [Nat.mod_eq_sub_mod hge, Nat.mod_eq_of_lt (by omega)]
    rw [hmod, h.1 (j + d - n) (by omega)]
    congr 1
    omega

theorem Window.next (h : Window n x b j a) (hx : Recurrence n m f x) (hj : j < n) (hn : 1 < n)
    (hm : m < n) : f (a j) (a ((j + 1) % n)) (a ((j + m) % n)) = x (b + n + j) := by
  rw [h.ahead hj hn, h.ahead hj hm, h.2 j (Nat.le_refl j) hj, ← hx]
  congr 1
  omega

/-- **Step lemma.** The next term is written. -/
theorem Window.step (h : Window n x b j a) {v : α} (hv : v = x (b + n + j)) :
    Window n x b (j + 1) (Function.update a j v) := by
  constructor
  · intro i hi
    by_cases hij : i = j
    · subst hij
      rw [Function.update_self, hv]
    · rw [Function.update_of_ne hij]
      exact h.1 i (by omega)
  · intro i hi hin
    rw [Function.update_of_ne (by omega)]
    exact h.2 i (by omega) hin

/-- **Loop rule.** A loop whose body writes the next term at each position of a range. -/
theorem Window.foldl {g : ℕ → (ℕ → α) → α} (count : ℕ) (h : Window n x b j a)
    (hg : ∀ k a, j ≤ k → k < j + count → Window n x b k a → g k a = x (b + n + k)) :
    Window n x b (j + count)
      ((List.range' j count).foldl (fun a k => Function.update a k (g k a)) a) := by
  induction count generalizing j a with
  | zero => exact h
  | succ count ih =>
    rw [List.range'_succ, List.foldl_cons, ← Nat.add_assoc, Nat.add_right_comm]
    refine ih (h.step (hg j a (Nat.le_refl j) (by omega) h)) fun k a hk hlt => hg k a (by omega) (by omega)

end Lagged

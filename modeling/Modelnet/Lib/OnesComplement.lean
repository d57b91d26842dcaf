import Mathlib.Algebra.BigOperators.Group.List.Basic
import Mathlib.Data.Nat.Notation
import Mathlib.Algebra.GroupWithZero.Nat

/-!
# One's-complement sums

The sum of `w`-bit words in which a carry out of the top is added back at the bottom, as in the
checksums of the internet protocols. The sum of a list depends on the total of its words only, so
that words may change as long as the total does not. A list passes a check when its sum is the word of
ones, which every list does once the complement of its sum has been put into it.
-/

namespace OnesComplement

variable {w : ℕ}

/-- The sum of two words, with the carry added back. -/
def add (x y : BitVec w) : BitVec w :=
  BitVec.ofNat w ((x.toNat + y.toNat) % 2 ^ w + (x.toNat + y.toNat) / 2 ^ w)

/-- The sum of a list of words. -/
def sum (l : List (BitVec w)) : BitVec w := l.foldl add 0

/-- The total of a list of words, without reduction. -/
def total (l : List (BitVec w)) : ℕ := (l.map BitVec.toNat).sum

@[simp] theorem total_nil : total ([] : List (BitVec w)) = 0 := rfl

@[simp] theorem total_cons (x : BitVec w) (l : List (BitVec w)) :
    total (x :: l) = x.toNat + total l := List.sum_cons

@[simp] theorem total_append (l l' : List (BitVec w)) : total (l ++ l') = total l + total l' := by
  unfold total
  rw [List.map_append, List.sum_append]

/-- The representative of a total: 0 for 0 only, else the residue modulo `2 ^ w - 1` in
`1, …, 2 ^ w - 1`. -/
def reduce (w n : ℕ) : ℕ := if n = 0 then 0 else (n - 1) % (2 ^ w - 1) + 1

theorem reduce_of_lt {n : ℕ} (h : n < 2 ^ w) : reduce w n = n := by
  unfold reduce
  split_ifs with hn
  · exact hn.symm
  · rw [Nat.mod_eq_of_lt (by omega)]
    omega

theorem reduce_sub {n : ℕ} (h : 2 ^ w ≤ n) (hw : 0 < w) :
    reduce w (n - (2 ^ w - 1)) = reduce w n := by
  have hpow : 2 ^ 1 ≤ 2 ^ w := Nat.pow_le_pow_right (by decide) hw
  have hsub : n - 1 - (2 ^ w - 1) = n - (2 ^ w - 1) - 1 := by omega
  unfold reduce
  rw [if_neg (by omega), if_neg (by omega), ← hsub, ← Nat.mod_eq_sub_mod (by omega)]

theorem reduce_add (hw : 0 < w) (n m : ℕ) : reduce w (reduce w n + m) = reduce w (n + m) := by
  induction n using Nat.strongRecOn with
  | ind n ih =>
    by_cases hlt : n < 2 ^ w
    · rw [reduce_of_lt hlt]
    · have hpow : 2 ^ 1 ≤ 2 ^ w := Nat.pow_le_pow_right (by decide) hw
      rw [← reduce_sub (Nat.not_lt.mp hlt) hw, ih _ (by omega),
        ← reduce_sub (n := n + m) (by omega) hw]
      congr 1
      omega

theorem toNat_add (hw : 0 < w) (x y : BitVec w) :
    (add x y).toNat = reduce w (x.toNat + y.toNat) := by
  have hx := x.isLt
  have hy := y.isLt
  have hpow : 2 ^ 1 ≤ 2 ^ w := Nat.pow_le_pow_right (by decide) hw
  unfold add
  rw [BitVec.toNat_ofNat]
  by_cases hlt : x.toNat + y.toNat < 2 ^ w
  · rw [Nat.mod_eq_of_lt hlt, Nat.div_eq_of_lt hlt, Nat.add_zero, Nat.mod_eq_of_lt hlt,
      reduce_of_lt hlt]
  · have hmod : (x.toNat + y.toNat) % 2 ^ w = x.toNat + y.toNat - 2 ^ w := by
      rw [Nat.mod_eq_sub_mod (Nat.not_lt.mp hlt), Nat.mod_eq_of_lt (by omega)]
    have hdiv : (x.toNat + y.toNat) / 2 ^ w = 1 :=
      Nat.div_eq_of_lt_le (by omega) (by omega)
    rw [← reduce_sub (Nat.not_lt.mp hlt) hw, reduce_of_lt (by omega), hmod, hdiv,
      Nat.mod_eq_of_lt (by omega)]
    omega

theorem toNat_foldl_add (hw : 0 < w) (l : List (BitVec w)) (x : BitVec w) :
    (l.foldl add x).toNat = reduce w (x.toNat + total l) := by
  induction l generalizing x with
  | nil => exact (reduce_of_lt x.isLt).symm
  | cons y l ih =>
    rw [List.foldl_cons, ih, toNat_add hw, reduce_add hw, total_cons, Nat.add_assoc]

/-- **Total.** The sum of a list is given by the total of its words. -/
theorem toNat_sum (hw : 0 < w) (l : List (BitVec w)) : (sum l).toNat = reduce w (total l) := by
  unfold sum
  rw [toNat_foldl_add hw, show (0 : BitVec w).toNat = 0 from BitVec.toNat_zero, Nat.zero_add]

theorem sum_congr (hw : 0 < w) {l l' : List (BitVec w)} (h : total l = total l') :
    sum l = sum l' :=
  BitVec.eq_of_toNat_eq (by rw [toNat_sum hw, toNat_sum hw, h])

/-! ## Checks -/

theorem top_pos (hw : 0 < w) : 0 < 2 ^ w - 1 := by
  have hpow : 2 ^ 1 ≤ 2 ^ w := Nat.pow_le_pow_right (by decide) hw
  omega

/-- The representative is the largest word exactly for the multiples of `2 ^ w - 1` but 0. -/
theorem reduce_eq_top {n : ℕ} (hw : 0 < w) :
    reduce w n = 2 ^ w - 1 ↔ n ≠ 0 ∧ 2 ^ w - 1 ∣ n := by
  have hpos := top_pos hw
  unfold reduce
  split_ifs with hn
  · simp only [hn, ne_eq, not_true_eq_false, false_and, iff_false]
    exact Nat.ne_of_lt hpos
  · obtain ⟨k, rfl⟩ := Nat.exists_eq_succ_of_ne_zero hn
    obtain ⟨m, hm⟩ := Nat.exists_eq_succ_of_ne_zero (Nat.ne_of_gt hpos)
    rw [hm, Nat.dvd_iff_mod_eq_zero, Nat.succ_mod_succ_eq_zero_iff, Nat.succ_sub_one]
    exact ⟨fun h => ⟨hn, Nat.succ.inj h⟩, fun h => congrArg Nat.succ h.2⟩

theorem reduce_mod (hw : 0 < w) (n : ℕ) : reduce w n % (2 ^ w - 1) = n % (2 ^ w - 1) := by
  have hpos := top_pos hw
  unfold reduce
  split_ifs with hn
  · rw [hn]
  · rw [Nat.mod_add_mod, Nat.sub_add_cancel (Nat.pos_of_ne_zero hn)]

theorem reduce_le (hw : 0 < w) (n : ℕ) : reduce w n ≤ 2 ^ w - 1 := by
  have hpos := top_pos hw
  unfold reduce
  split_ifs
  · exact Nat.zero_le _
  · exact Nat.mod_lt _ hpos

theorem dvd_sub_reduce (hw : 0 < w) (n : ℕ) : 2 ^ w - 1 ∣ n + (2 ^ w - 1 - reduce w n) := by
  have hmod := reduce_mod hw n
  have hle := reduce_le hw n
  rw [Nat.dvd_iff_mod_eq_zero, Nat.add_mod, ← hmod, ← Nat.add_mod, Nat.add_sub_cancel' hle,
    Nat.mod_self]

/-- A list passes the check: its sum is the word of ones. -/
def Passes (l : List (BitVec w)) : Prop := sum l = BitVec.allOnes w

instance (l : List (BitVec w)) : Decidable (Passes l) := inferInstanceAs (Decidable (_ = _))

theorem passes_iff (hw : 0 < w) (l : List (BitVec w)) :
    Passes l ↔ total l ≠ 0 ∧ 2 ^ w - 1 ∣ total l := by
  unfold Passes
  rw [← BitVec.toNat_inj, toNat_sum hw, BitVec.toNat_allOnes, reduce_eq_top hw]

theorem passes_iff_not (l : List (BitVec w)) : ~~~sum l = 0 ↔ Passes l := by
  unfold Passes
  constructor
  · intro h
    rw [← BitVec.not_not (b := sum l), h]
    exact BitVec.not_zero
  · intro h
    rw [h]
    exact BitVec.not_allOnes

/-- The check word of a list: the complement of its sum, but never 0. -/
def checkWord (l : List (BitVec w)) : BitVec w :=
  if ~~~sum l = 0 then BitVec.allOnes w else ~~~sum l

theorem checkWord_ne_zero (hw : 0 < w) (l : List (BitVec w)) : checkWord l ≠ 0 := by
  have hpos := top_pos hw
  unfold checkWord
  split_ifs with h
  · intro heq
    have hnat := congrArg BitVec.toNat heq
    rw [BitVec.toNat_allOnes, show (0 : BitVec w).toNat = 0 from BitVec.toNat_zero] at hnat
    omega
  · exact h

theorem toNat_checkWord (hw : 0 < w) (l : List (BitVec w)) :
    2 ^ w - 1 ∣ total l + (checkWord l).toNat := by
  unfold checkWord
  split_ifs with h
  · have hl := (passes_iff hw l).mp ((passes_iff_not l).mp h)
    rw [BitVec.toNat_allOnes]
    exact (Nat.dvd_add_right hl.2).mpr (dvd_refl _)
  · rw [BitVec.toNat_not, toNat_sum hw]
    exact dvd_sub_reduce hw (total l)

/-- **Sealed.** With its check word in it, at whatever place, a list passes. -/
theorem passes_checkWord (hw : 0 < w) (l l' : List (BitVec w)) :
    Passes (l ++ checkWord (l ++ l') :: l') := by
  have hdvd := toNat_checkWord hw (l ++ l')
  have hne := checkWord_ne_zero hw (l ++ l')
  have htotal : total (l ++ checkWord (l ++ l') :: l') =
      total (l ++ l') + (checkWord (l ++ l')).toNat := by
    rw [total_append, total_append, total_cons]
    omega
  rw [passes_iff hw, htotal]
  refine ⟨fun hzero => hne (BitVec.eq_of_toNat_eq ?_), hdvd⟩
  rw [show (0 : BitVec w).toNat = 0 from BitVec.toNat_zero]
  omega

/-- **One word.** Of the changes of a single word, the check misses the one between 0 and the word
of ones only. -/
theorem passes_change (hw : 0 < w) {l l' : List (BitVec w)} {x : BitVec w} (y : BitVec w)
    (h : Passes (l ++ x :: l')) (hne : total (l ++ l') ≠ 0) :
    Passes (l ++ y :: l') ↔
      y = x ∨ (x = 0 ∧ y = BitVec.allOnes w) ∨ (x = BitVec.allOnes w ∧ y = 0) := by
  have hpos := top_pos hw
  have hx := x.isLt
  have hy := y.isLt
  have htotal : ∀ z : BitVec w, total (l ++ z :: l') = total (l ++ l') + z.toNat := by
    intro z
    rw [total_append, total_append, total_cons]
    omega
  rw [passes_iff hw, htotal] at h ⊢
  simp only [← BitVec.toNat_inj, BitVec.toNat_allOnes,
    show (0 : BitVec w).toNat = 0 from BitVec.toNat_zero]
  obtain ⟨-, k, hk⟩ := h
  constructor
  · rintro ⟨-, j, hj⟩
    rcases Nat.lt_trichotomy j k with hlt | rfl | hlt
    · have hmul : (2 ^ w - 1) * (j + 1) ≤ (2 ^ w - 1) * k := Nat.mul_le_mul_left _ hlt
      rw [Nat.mul_add, Nat.mul_one] at hmul
      omega
    · omega
    · have hmul : (2 ^ w - 1) * (k + 1) ≤ (2 ^ w - 1) * j := Nat.mul_le_mul_left _ hlt
      rw [Nat.mul_add, Nat.mul_one] at hmul
      omega
  · intro hcases
    refine ⟨by omega, ?_⟩
    rcases hcases with heq | ⟨hx0, hyt⟩ | ⟨hxt, hy0⟩
    · exact ⟨k, by omega⟩
    · exact ⟨k + 1, by rw [Nat.mul_add, Nat.mul_one]; omega⟩
    · cases k with
      | zero => omega
      | succ k => exact ⟨k, by rw [Nat.mul_add, Nat.mul_one] at hk; omega⟩

end OnesComplement

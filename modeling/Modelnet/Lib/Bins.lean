import Mathlib.Algebra.BigOperators.Group.Finset.Piecewise
import Mathlib.Algebra.Order.BigOperators.Group.Finset
import Mathlib.Algebra.Order.Field.Rat
import Mathlib.Data.Fintype.Option
import Mathlib.Data.Fintype.Pi
import Mathlib.Data.Prod.Lex
import Mathlib.Tactic.Linarith
import Mathlib.Tactic.Ring

/-!
# Items in bins

Items with weights are put into bins one by one, and moved from fuller bins to emptier ones. An item
that enters a bin makes the number of items outside smaller; an item with weight that is moved to a
bin that stays smaller than its own was makes the sum of the squared sizes smaller; and one without
weight, which changes no size, gets into a smaller bin. So the key of these three goes down
(`Bins.key_enter`, `Bins.key_move`), which it cannot do for ever (`Bins.rank_lt`).
-/

namespace Bins

variable {ι κ : Type*} [Fintype ι] [DecidableEq ι]

section

def outside (A : ι → Option κ) : ℕ := (Finset.univ.filter fun i => A i = none).card

variable {A : ι → Option κ} {i : ι} {p q : κ}

theorem outside_update_of_none (h : A i = none) :
    outside (Function.update A i (some p)) + 1 = outside A := by
  have herase : (Finset.univ.filter fun j => Function.update A i (some p) j = none) =
      (Finset.univ.filter fun j => A j = none).erase i := by
    ext j
    by_cases hj : j = i
    · subst hj
      simp
    · simp [hj]
  rw [outside, herase, Finset.card_erase_of_mem (by simpa using h), outside]
  exact Nat.sub_add_cancel (Finset.card_pos.mpr ⟨i, by simpa using h⟩)

theorem outside_update_of_some (h : A i = some q) :
    outside (Function.update A i (some p)) = outside A := by
  refine congrArg Finset.card (Finset.filter_congr fun j _ => ?_)
  by_cases hj : j = i
  · subst hj
    simp [h]
  · simp [hj]

end

variable [Fintype κ] [DecidableEq κ] (w : ι → ℚ) (A : ι → Option κ)

def size (b : κ) : ℚ := ∑ i, if A i = some b then w i else 0

/-- The sum of the squared sizes. -/
def squares : ℚ := ∑ b, size w A b ^ 2

/-- The size of the bin of an item. -/
def around (i : ι) : ℚ := (A i).elim 0 (size w A)

/-- What the items without weight have around them. -/
def crowd : ℚ := ∑ i, if w i = 0 then around w A i else 0

/-- Items outside, squared sizes, and what is around items without weight, in this order. -/
def key : ℕ ×ₗ ℚ ×ₗ ℚ := toLex (outside A, toLex (squares w A, crowd w A))

variable {w A} {i : ι} {p q : κ}

omit [Fintype κ] in
theorem size_update (i : ι) (p b : κ) : size w (Function.update A i (some p)) b =
    size w A b - (if A i = some b then w i else 0) + if p = b then w i else 0 := by
  have hrest : ∀ B : ι → Option κ, size w B b =
      (if B i = some b then w i else 0) +
        ∑ j ∈ Finset.univ.erase i, if B j = some b then w j else 0 := by
    intro B
    exact (Finset.add_sum_erase _ _ (Finset.mem_univ i)).symm
  have hsame : (∑ j ∈ Finset.univ.erase i,
      if Function.update A i (some p) j = some b then w j else 0) =
      ∑ j ∈ Finset.univ.erase i, if A j = some b then w j else 0 := by
    refine Finset.sum_congr rfl fun j hj => ?_
    rw [Function.update_of_ne (Finset.ne_of_mem_erase hj)]
  rw [hrest (Function.update A i (some p)), hsame, hrest A, Function.update_self]
  simp only [Option.some.injEq]
  ring

theorem key_enter (h : A i = none) : key w (Function.update A i (some p)) < key w A := by
  have hout := outside_update_of_none (p := p) h
  rw [key, key, Prod.Lex.toLex_lt_toLex]
  exact Or.inl (by omega)

/-- A bin that gets an item and the one that loses it. -/
theorem squares_update (h : A i = some q) (hpq : p ≠ q) :
    squares w (Function.update A i (some p)) =
      squares w A + 2 * w i * (size w A p + w i - size w A q) := by
  have hp : p ∈ Finset.univ.erase q := Finset.mem_erase.mpr ⟨hpq, Finset.mem_univ p⟩
  have hrest : (∑ b ∈ (Finset.univ.erase q).erase p,
      size w (Function.update A i (some p)) b ^ 2) =
      ∑ b ∈ (Finset.univ.erase q).erase p, size w A b ^ 2 := by
    refine Finset.sum_congr rfl fun b hb => ?_
    have hbp : p ≠ b := (Finset.ne_of_mem_erase hb).symm
    have hbq : q ≠ b := (Finset.ne_of_mem_erase (Finset.mem_of_mem_erase hb)).symm
    rw [size_update, h, if_neg (by simpa using hbq), if_neg hbp, sub_zero, add_zero]
  rw [squares, squares, ← Finset.add_sum_erase _ _ (Finset.mem_univ q),
    ← Finset.add_sum_erase _ _ hp, hrest, ← Finset.add_sum_erase _ (fun b => size w A b ^ 2) (Finset.mem_univ q),
    ← Finset.add_sum_erase _ (fun b => size w A b ^ 2) hp]
  have hsizep : size w (Function.update A i (some p)) p = size w A p + w i := by
    rw [size_update, h, if_neg (by simpa using hpq.symm), if_pos rfl, sub_zero]
  have hsizeq : size w (Function.update A i (some p)) q = size w A q - w i := by
    rw [size_update, h, if_pos rfl, if_neg hpq, add_zero]
  rw [hsizep, hsizeq]
  ring

omit [Fintype κ] in
/-- An item without weight has other items around it when it is moved, and nothing else changes. -/
theorem crowd_update (h : A i = some q) (hw : w i = 0) :
    crowd w (Function.update A i (some p)) = crowd w A + (size w A p - size w A q) := by
  have hsize : size w (Function.update A i (some p)) = size w A := by
    funext b
    rw [size_update, hw, ite_self, ite_self, sub_zero, add_zero]
  have hrest : (∑ j ∈ Finset.univ.erase i,
      if w j = 0 then around w (Function.update A i (some p)) j else 0) =
      ∑ j ∈ Finset.univ.erase i, if w j = 0 then around w A j else 0 := by
    refine Finset.sum_congr rfl fun j hj => ?_
    rw [around, around, hsize, Function.update_of_ne (Finset.ne_of_mem_erase hj)]
  rw [crowd, crowd, ← Finset.add_sum_erase _ _ (Finset.mem_univ i), hrest,
    ← Finset.add_sum_erase _ (fun j => if w j = 0 then around w A j else 0) (Finset.mem_univ i),
    if_pos hw, if_pos hw, around, around, hsize, Function.update_self, h, Option.elim_some,
    Option.elim_some]
  ring

/-- **Moving an item** to a bin that is smaller with it than its own bin. -/
theorem key_move (h : A i = some q) (hw : 0 ≤ w i) (hlt : size w A p + w i < size w A q) :
    key w (Function.update A i (some p)) < key w A := by
  have hpq : p ≠ q := by
    rintro rfl
    linarith
  rw [key, key, Prod.Lex.toLex_lt_toLex]
  refine Or.inr ⟨outside_update_of_some h, Prod.Lex.toLex_lt_toLex.mpr ?_⟩
  have hsquares : squares w (Function.update A i (some p)) =
      squares w A + 2 * w i * (size w A p + w i - size w A q) := squares_update h hpq
  rcases hw.lt_or_eq with hpos | hzero
  · refine Or.inl ?_
    have hneg : 2 * w i * (size w A p + w i - size w A q) < 0 :=
      mul_neg_of_pos_of_neg (by linarith) (by linarith)
    simp only
    linarith
  · refine Or.inr ⟨?_, ?_⟩
    · rw [← hzero] at hsquares
      simpa using hsquares
    · have hcrowd := crowd_update (p := p) h hzero.symm
      simp only
      linarith

variable (w) in
/-- How many ways to put the items into the bins have a smaller key. -/
noncomputable def rank (A : ι → Option κ) : ℕ :=
  (Finset.univ.filter fun B : ι → Option κ => key w B < key w A).card

theorem rank_lt {B : ι → Option κ} (h : key w B < key w A) : rank w B < rank w A := by
  refine Finset.card_lt_card (Finset.ssubset_iff_of_subset ?_ |>.mpr ⟨B, ?_, ?_⟩)
  · intro C hC
    rw [Finset.mem_filter] at hC ⊢
    exact ⟨hC.1, hC.2.trans h⟩
  · exact Finset.mem_filter.mpr ⟨Finset.mem_univ B, h⟩
  · intro hmem
    exact lt_irrefl _ (Finset.mem_filter.mp hmem).2

end Bins

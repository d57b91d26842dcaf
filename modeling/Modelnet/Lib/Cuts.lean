import Mathlib.Algebra.BigOperators.Ring.Finset
import Mathlib.Algebra.Order.BigOperators.Group.Finset
import Mathlib.Algebra.Order.Field.Rat
import Mathlib.Tactic.Linarith
import Mathlib.Tactic.Ring

/-!
# Cuts

What goes from the items of one part to those of another. A cut of rounded weights is close to the
cut of the weights (`Cuts.abs_cut_sub_le`), so that a partition which is better for the former is
not much worse for the latter (`Cuts.mul_cut_le`). Where the items are arcs and each is in the part
of one of its ends, only the arcs between two parts can be next to something that is cut
(`Cuts.cut_le_arcs`).
-/

namespace Cuts

variable {ι κ ν : Type*} [DecidableEq κ]

/-- The weights from one item to another one that is in another part. -/
def cut (S : Finset ι) (w : ι → ι → ℚ) (part : ι → κ) : ℚ :=
  ∑ a ∈ S, ∑ b ∈ S, if part b ≠ part a then w a b else 0

variable {S : Finset ι} {w t δ : ι → ι → ℚ} {part part' : ι → κ} {s : ℚ}

/-! ## Rounded weights -/

/-- **A cut of rounded weights** is off by what all the weights are off at most. -/
theorem abs_cut_sub_le (h : ∀ a ∈ S, ∀ b ∈ S, |t a b - s * w a b| ≤ δ a b) (part : ι → κ) :
    |cut S t part - s * cut S w part| ≤ ∑ a ∈ S, ∑ b ∈ S, δ a b := by
  have hdiff : cut S t part - s * cut S w part =
      ∑ a ∈ S, ∑ b ∈ S, if part b ≠ part a then t a b - s * w a b else 0 := by
    rw [cut, cut, Finset.mul_sum, ← Finset.sum_sub_distrib]
    refine Finset.sum_congr rfl fun a _ => ?_
    rw [Finset.mul_sum, ← Finset.sum_sub_distrib]
    refine Finset.sum_congr rfl fun b _ => ?_
    split_ifs <;> ring
  rw [hdiff]
  refine (Finset.abs_sum_le_sum_abs _ _).trans (Finset.sum_le_sum fun a ha => ?_)
  refine (Finset.abs_sum_le_sum_abs _ _).trans (Finset.sum_le_sum fun b hb => ?_)
  have hle := h a ha b hb
  split_ifs
  · exact hle
  · rw [abs_zero]
    exact (abs_nonneg _).trans hle

/-- **Nearly as good.** What is better by the rounded weights is not much worse by the weights. -/
theorem mul_cut_le (h : ∀ a ∈ S, ∀ b ∈ S, |t a b - s * w a b| ≤ δ a b)
    (hle : cut S t part ≤ cut S t part') :
    s * cut S w part ≤ s * cut S w part' + 2 * ∑ a ∈ S, ∑ b ∈ S, δ a b := by
  have hpart := abs_le.mp (abs_cut_sub_le h part)
  have hpart' := abs_le.mp (abs_cut_sub_le h part')
  linarith [hpart.1, hpart'.2]

/-! ## Arcs -/

theorem ite_le_of_nonneg {p : Prop} [Decidable p] {x : ℚ} (hx : 0 ≤ x) :
    (if p then x else 0) ≤ x := by
  split_ifs
  · exact le_rfl
  · exact hx

variable (source target : ι → ν) (place : ν → κ)

/-- **Arcs at their ends.** Something is cut at an arc between two parts only. -/
theorem cut_le_arcs (hw : ∀ a ∈ S, ∀ b ∈ S, 0 ≤ w a b)
    (hnext : ∀ a ∈ S, ∀ b ∈ S, w a b ≠ 0 → target a = source b)
    (hend : ∀ a ∈ S, ∀ b ∈ S, w a b ≠ 0 → (part a = place (source a) ∨ part a = place (target a)) ∧
      (part b = place (source b) ∨ part b = place (target b))) :
    cut S w part ≤ ∑ e ∈ S with place (source e) ≠ place (target e),
      ((∑ a ∈ S, w a e) + ∑ b ∈ S, w e b) := by
  have hpair : ∀ a ∈ S, ∀ b ∈ S, (if part b ≠ part a then w a b else 0) ≤
      (if place (source b) ≠ place (target b) then w a b else 0) +
        if place (source a) ≠ place (target a) then w a b else 0 := by
    intro a ha b hb
    have h0 := hw a ha b hb
    by_cases hzero : w a b = 0
    · simp [hzero]
    · obtain ⟨hpa, hpb⟩ := hend a ha b hb hzero
      have hmeet := hnext a ha b hb hzero
      by_cases hca : place (source a) = place (target a)
      · by_cases hcb : place (source b) = place (target b)
        · -- both arcs are inside of the part of the vertex where they meet
          have ha' : part a = place (target a) := hpa.elim (fun h => h.trans hca) id
          have hb' : part b = place (source b) := hpb.elim id fun h => h.trans hcb.symm
          simp [ha', hb', hmeet, hca, hcb]
        · rw [if_pos hcb, if_neg (not_not.mpr hca), add_zero]
          exact ite_le_of_nonneg h0
      · rw [if_pos hca]
        refine (ite_le_of_nonneg h0).trans (le_add_of_nonneg_left ?_)
        split_ifs
        · exact h0
        · exact le_rfl
  calc cut S w part
      ≤ ∑ a ∈ S, ∑ b ∈ S, ((if place (source b) ≠ place (target b) then w a b else 0) +
          if place (source a) ≠ place (target a) then w a b else 0) :=
        Finset.sum_le_sum fun a ha => Finset.sum_le_sum fun b hb => hpair a ha b hb
    _ = (∑ b ∈ S, ∑ a ∈ S, if place (source b) ≠ place (target b) then w a b else 0) +
          ∑ a ∈ S, ∑ b ∈ S, if place (source a) ≠ place (target a) then w a b else 0 := by
        simp only [Finset.sum_add_distrib]
        rw [Finset.sum_comm]
    _ = _ := by
        rw [← Finset.sum_add_distrib, Finset.sum_filter]
        refine Finset.sum_congr rfl fun e _ => ?_
        split_ifs <;> simp

end Cuts

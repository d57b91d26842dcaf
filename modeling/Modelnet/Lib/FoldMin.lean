import Mathlib.Data.List.Induction
import Mathlib.Order.MinMax

/-!
# The least of some values

The least value of a function on a list, starting from a value of its own, as a fold from the left;
when it does not change with some of the list left out; and the elements that have it.
-/

namespace List

variable {α β : Type*} [LinearOrder β] {f : α → β} {a x : β} {l : List α}

/-- The least of `a` and the values of `f` on the list. -/
def foldMin (f : α → β) (a : β) (l : List α) : β := l.foldl (fun x v => min (f v) x) a

theorem foldMin_cons (f : α → β) (a : β) (v : α) (l : List α) :
    foldMin f a (v :: l) = foldMin f (min (f v) a) l := rfl

theorem foldMin_le_iff : foldMin f a l ≤ x ↔ a ≤ x ∨ ∃ v ∈ l, f v ≤ x := by
  induction l generalizing a with
  | nil => simp [foldMin]
  | cons v l ih =>
    rw [foldMin_cons, ih, min_le_iff]
    constructor
    · rintro ((hv | ha) | ⟨u, hu, hle⟩)
      · exact Or.inr ⟨v, List.mem_cons_self, hv⟩
      · exact Or.inl ha
      · exact Or.inr ⟨u, List.mem_cons_of_mem v hu, hle⟩
    · rintro (ha | ⟨u, hu, hle⟩)
      · exact Or.inl (Or.inr ha)
      · rcases List.mem_cons.mp hu with rfl | hu
        · exact Or.inl (Or.inl hle)
        · exact Or.inr ⟨u, hu, hle⟩

theorem foldMin_le (f : α → β) (a : β) (l : List α) : foldMin f a l ≤ a :=
  foldMin_le_iff.mpr (Or.inl le_rfl)

theorem le_foldMin_iff : x ≤ foldMin f a l ↔ x ≤ a ∧ ∀ v ∈ l, x ≤ f v := by
  induction l generalizing a with
  | nil => simp [foldMin]
  | cons v l ih =>
    rw [foldMin_cons, ih, le_min_iff, List.forall_mem_cons]
    constructor
    · rintro ⟨⟨hv, ha⟩, hl⟩
      exact ⟨ha, hv, hl⟩
    · rintro ⟨ha, hv, hl⟩
      exact ⟨⟨hv, ha⟩, hl⟩

/-- **Left out.** The least value is the same without some of the list exactly when each of their
values is at least `a` or a value that is still there. -/
theorem foldMin_filter_eq_iff (keep : α → Bool) :
    foldMin f a (l.filter keep) = foldMin f a l ↔
      ∀ v ∈ l, keep v = false → a ≤ f v ∨ ∃ u ∈ l, keep u = true ∧ f u ≤ f v := by
  have hge : foldMin f a l ≤ foldMin f a (l.filter keep) := by
    refine le_foldMin_iff.mpr ⟨foldMin_le f a l, fun v hv => ?_⟩
    exact foldMin_le_iff.mpr (Or.inr ⟨v, (List.mem_filter.mp hv).1, le_rfl⟩)
  have hkept : ∀ v, foldMin f a (l.filter keep) ≤ f v ↔
      a ≤ f v ∨ ∃ u ∈ l, keep u = true ∧ f u ≤ f v := by
    intro v
    rw [foldMin_le_iff]
    refine or_congr_right ⟨?_, ?_⟩
    · rintro ⟨u, hu, hle⟩
      obtain ⟨hmem, hkeep⟩ := List.mem_filter.mp hu
      exact ⟨u, hmem, hkeep, hle⟩
    · rintro ⟨u, hmem, hkeep, hle⟩
      exact ⟨u, List.mem_filter.mpr ⟨hmem, hkeep⟩, hle⟩
  constructor
  · intro heq v hv hleft
    rw [← hkept, heq]
    exact foldMin_le_iff.mpr (Or.inr ⟨v, hv, le_rfl⟩)
  · intro h
    refine le_antisymm (le_foldMin_iff.mpr ⟨foldMin_le f a _, fun v hv => ?_⟩) hge
    cases hkeep : keep v with
    | false => exact (hkept v).mpr (h v hv hkeep)
    | true => exact (hkept v).mpr (Or.inr ⟨v, hv, hkeep, le_rfl⟩)

/-! ## The elements that have it -/

variable {h : α → Option β} {v : α}

/-- The least of `a` and the values on the list, with the elements that have it; elements without a
value are passed over. -/
def foldTies (h : α → Option β) (a : β) (l : List α) : β × List α :=
  l.foldl (fun acc v =>
    match h v with
    | none => acc
    | some x =>
      if x < acc.1 then (x, [v])
      else if x = acc.1 then (acc.1, acc.2 ++ [v])
      else acc) (a, [])

structure IsFoldTies (h : α → Option β) (a : β) (l : List α) (r : β × List α) : Prop where
  le_start : r.1 ≤ a
  le : ∀ v ∈ l, ∀ x, h v = some x → r.1 ≤ x
  eq_filter : r.2 = l.filter fun v => h v = some r.1
  attained : r.1 = a ∨ ∃ v ∈ l, h v = some r.1

theorem forall_mem_concat {P : α → Prop} : (∀ u ∈ l ++ [v], P u) ↔ (∀ u ∈ l, P u) ∧ P v := by
  rw [List.forall_mem_append, List.forall_mem_singleton]

theorem IsFoldTies.mem_iff {r : β × List α} (hr : IsFoldTies h a l r) :
    v ∈ r.2 ↔ v ∈ l ∧ h v = some r.1 := by
  rw [hr.eq_filter, List.mem_filter, decide_eq_true_eq]

theorem IsFoldTies.ne_nil {r : β × List α} (hr : IsFoldTies h a l r) (hv : v ∈ l)
    (hx : h v = some x) (hle : x ≤ a) : r.2 ≠ [] := by
  obtain ⟨u, hu, heq⟩ : ∃ u ∈ l, h u = some r.1 := by
    rcases hr.attained with heq | hattained
    · have hmin := hr.le v hv x hx
      rw [heq] at hmin ⊢
      exact ⟨v, hv, by rw [hx, le_antisymm hle hmin]⟩
    · exact hattained
  exact List.ne_nil_of_mem (hr.mem_iff.mpr ⟨hu, heq⟩)

theorem isFoldTies (h : α → Option β) (a : β) (l : List α) : IsFoldTies h a l (foldTies h a l) := by
  induction l using List.reverseRecOn with
  | nil => exact ⟨le_rfl, by simp, rfl, Or.inl rfl⟩
  | append_singleton l v ih =>
    unfold foldTies at ih ⊢
    rw [List.foldl_append, List.foldl_cons, List.foldl_nil]
    generalize l.foldl _ (a, []) = r at ih
    have hattained : r.1 = a ∨ ∃ u ∈ l ++ [v], h u = some r.1 := by
      rcases ih.attained with heq | ⟨u, hu, hx⟩
      · exact Or.inl heq
      · exact Or.inr ⟨u, List.mem_append_left _ hu, hx⟩
    cases hv : h v with
    | none =>
      refine ⟨ih.le_start, forall_mem_concat.mpr ⟨ih.le, by simp [hv]⟩, ?_, hattained⟩
      rw [List.filter_append, ← ih.eq_filter]
      simp [hv]
    | some x =>
      dsimp only
      rcases lt_trichotomy x r.1 with hlt | rfl | hgt
      · -- the elements before have larger values
        have hnone : (l.filter fun u => h u = some x) = [] := by
          refine List.filter_eq_nil_iff.mpr fun u hu hx => ?_
          exact absurd (ih.le u hu x (of_decide_eq_true hx)) (not_le.mpr hlt)
        rw [if_pos hlt]
        refine ⟨hlt.le.trans ih.le_start, forall_mem_concat.mpr ⟨?_, by simp [hv]⟩, ?_,
          Or.inr ⟨v, by simp, hv⟩⟩
        · exact fun u hu y hy => hlt.le.trans (ih.le u hu y hy)
        · rw [List.filter_append, hnone]
          simp [hv]
      · rw [if_neg (lt_irrefl _), if_pos rfl]
        refine ⟨ih.le_start, forall_mem_concat.mpr ⟨ih.le, by simp [hv]⟩, ?_,
          Or.inr ⟨v, by simp, hv⟩⟩
        rw [List.filter_append, ← ih.eq_filter]
        simp [hv]
      · rw [if_neg hgt.not_gt, if_neg hgt.ne']
        refine ⟨ih.le_start, forall_mem_concat.mpr ⟨ih.le, by simp [hv, hgt.le]⟩, ?_, hattained⟩
        rw [List.filter_append, ← ih.eq_filter]
        simp [hv, hgt.ne']

end List

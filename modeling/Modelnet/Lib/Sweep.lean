import Mathlib.Data.List.Basic
import Mathlib.Data.List.Chain
import Mathlib.Data.List.Nodup

/-!
# Sweeps that skip

A loop takes the elements with a property `p` out of a list while it walks along it. When the body
moves the cursor on after a removal and the loop moves it once more, the element behind a removed
one is not looked at. `removed` and `kept` are what such a sweep takes out and leaves; it is
complete exactly when no two neighbours have the property.
-/

namespace Sweep

variable {α : Type*} (p : α → Prop) [DecidablePred p]

/-- The elements that the sweep takes out. -/
def removed : List α → List α
  | [] => []
  | [a] => if p a then [a] else []
  | a :: b :: rest => if p a then a :: removed rest else removed (b :: rest)

/-- The elements that the sweep leaves. -/
def kept : List α → List α
  | [] => []
  | [a] => if p a then [] else [a]
  | a :: b :: rest => if p a then b :: kept rest else a :: kept (b :: rest)

variable {p} {l : List α} {a : α}

theorem removed_cons_of_neg (ha : ¬ p a) (l : List α) : removed p (a :: l) = removed p l := by
  cases l <;> simp [removed, ha]

theorem kept_cons_of_neg (ha : ¬ p a) (l : List α) : kept p (a :: l) = a :: kept p l := by
  cases l <;> simp [kept, ha]

theorem kept_append_removed_perm (p : α → Prop) [DecidablePred p] (l : List α) :
    (kept p l ++ removed p l).Perm l := by
  induction l using removed.induct p with
  | case1 => rfl
  | case2 a ha => simp [kept, removed, ha]
  | case3 a ha => simp [kept, removed, ha]
  | case4 a b rest ha ih =>
    simp only [kept, removed, if_pos ha, List.cons_append]
    have hmiddle : (kept p rest ++ a :: removed p rest).Perm (a :: (kept p rest ++ removed p rest)) :=
      List.perm_middle
    exact ((hmiddle.trans (ih.cons a)).cons b).trans (List.Perm.swap a b rest)
  | case5 a b rest ha ih =>
    rw [kept_cons_of_neg ha, removed_cons_of_neg ha, List.cons_append]
    exact ih.cons a

theorem mem_kept_or_removed : a ∈ l ↔ a ∈ kept p l ∨ a ∈ removed p l := by
  rw [← List.mem_append, (kept_append_removed_perm p l).mem_iff]

theorem filter_kept (p : α → Prop) [DecidablePred p] (l : List α) :
    (kept p l).filter (fun a => ¬ p a) = l.filter fun a => ¬ p a := by
  induction l using removed.induct p with
  | case1 => rfl
  | case2 a ha => simp [kept, ha]
  | case3 a ha => simp [kept, ha]
  | case4 a b rest ha ih =>
    rw [kept, if_pos ha]
    simp only [List.filter_cons, ih, ha, not_true_eq_false, decide_false, Bool.false_eq_true,
      if_false]
  | case5 a b rest ha ih =>
    rw [kept_cons_of_neg ha]
    simp only [List.filter_cons (x := a), ih, ha, not_false_eq_true, decide_true, if_true]

/-- **The sweep is complete** exactly when no two neighbours have the property. -/
theorem forall_kept_iff (p : α → Prop) [DecidablePred p] (l : List α) :
    (∀ a ∈ kept p l, ¬ p a) ↔ l.IsChain fun a b => ¬ (p a ∧ p b) := by
  induction l using removed.induct p with
  | case1 => simp [kept]
  | case2 a ha => simp [kept, ha]
  | case3 a ha => simp [kept, ha]
  | case4 a b rest ha ih =>
    rw [kept, if_pos ha, List.forall_mem_cons, ih, List.isChain_cons_cons]
    -- the element behind `a` may not have the property, and then it breaks every run
    by_cases hb : p b
    · exact iff_of_false (fun h => h.1 hb) fun h => h.1 ⟨ha, hb⟩
    · rw [List.isChain_cons]
      simp [hb]
  | case5 a b rest ha ih =>
    rw [kept_cons_of_neg ha, List.forall_mem_cons, ih, List.isChain_cons_cons]
    simp [ha]

theorem removed_kept_congr {q : α → Prop} [DecidablePred q] (h : ∀ a ∈ l, p a ↔ q a) :
    removed p l = removed q l ∧ kept p l = kept q l := by
  induction l using removed.induct p with
  | case1 => exact ⟨rfl, rfl⟩
  | case2 a ha => simp [kept, removed, ha, (h a (by simp)).mp ha]
  | case3 a ha => simp [kept, removed, ha, mt (h a (by simp)).mpr ha]
  | case4 a b rest ha ih =>
    have hqa : q a := (h a (by simp)).mp ha
    have hrest := ih fun c hc => h c (by simp [hc])
    simp [kept, removed, ha, hqa, hrest.1, hrest.2]
  | case5 a b rest ha ih =>
    have hqa : ¬ q a := mt (h a (by simp)).mpr ha
    have hrest := ih fun c hc => h c (List.mem_cons_of_mem a hc)
    rw [removed_cons_of_neg ha, removed_cons_of_neg hqa, kept_cons_of_neg ha, kept_cons_of_neg hqa,
      hrest.1, hrest.2]
    exact ⟨rfl, rfl⟩

end Sweep

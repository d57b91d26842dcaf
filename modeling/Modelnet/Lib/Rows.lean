import Mathlib.Algebra.BigOperators.Group.List.Basic
import Mathlib.Algebra.Group.Int.Defs
import Mathlib.Algebra.Group.Nat.Defs
import Mathlib.Algebra.GroupWithZero.Nat
import Mathlib.Data.List.Basic
import Mathlib.Data.List.Induction
import Mathlib.Data.List.Nodup
import Mathlib.Logic.Function.Basic

/-!
# Rows in one array

A graph is often passed on as one array of all its adjacency lists and another one with the places
where they start. `Rows.offset` is such a place, and `Rows.mem_part_iff` says what stands in the
part of a row; what occurs once in the row stands at one place of it (`List.exists_unique_place`).
`renumber` gives numbers to those of some keys that have a property.
-/

namespace Rows

variable {α β : Type*} (rows : List (List α)) {u i k : ℕ} {x : α}

/-- The place where a row starts. -/
def offset (u : ℕ) : ℕ := (rows.take u).flatten.length

@[simp] theorem offset_zero : offset rows 0 = 0 := by simp [offset]

@[simp] theorem offset_length : offset rows rows.length = rows.flatten.length := by simp [offset]

variable {rows}

theorem offset_succ (hu : u < rows.length) :
    offset rows (u + 1) = offset rows u + rows[u].length := by
  rw [offset, offset, List.take_succ_eq_append_getElem hu, List.flatten_append, List.length_append]
  simp

theorem offset_append {more : List (List α)} (hu : u ≤ rows.length) :
    offset (rows ++ more) u = offset rows u := by
  rw [offset, offset, List.take_append_of_le_length hu]

theorem offset_mono {v : ℕ} (huv : u ≤ v) : offset rows u ≤ offset rows v := by
  obtain ⟨d, rfl⟩ := Nat.exists_eq_add_of_le huv
  rw [offset, offset, List.take_add, List.flatten_append, List.length_append]
  exact Nat.le_add_right _ _

theorem getElem?_flatten (hu : u < rows.length) (hi : i < rows[u].length) :
    rows.flatten[offset rows u + i]? = rows[u][i]? := by
  have hrows : rows.flatten =
      (rows.take u).flatten ++ (rows[u] ++ (rows.drop (u + 1)).flatten) := by
    conv_lhs => rw [← List.take_append_drop u rows, List.drop_eq_getElem_cons hu]
    rw [List.flatten_append, List.flatten_cons]
  rw [hrows, offset, List.getElem?_append_right (Nat.le_add_right _ _), Nat.add_sub_cancel_left,
    List.getElem?_append_left hi]

theorem mem_part_iff (hu : u < rows.length) :
    offset rows u ≤ i ∧ i < offset rows (u + 1) ∧ rows.flatten[i]? = some x ↔
      ∃ k, rows[u][k]? = some x ∧ i = offset rows u + k := by
  rw [offset_succ hu]
  constructor
  · rintro ⟨hle, hlt, hx⟩
    obtain ⟨k, rfl⟩ := Nat.exists_eq_add_of_le hle
    exact ⟨k, by rwa [getElem?_flatten hu (by omega)] at hx, rfl⟩
  · rintro ⟨k, hk, rfl⟩
    have hlt : k < rows[u].length := (List.getElem?_eq_some_iff.mp hk).1
    exact ⟨Nat.le_add_right _ _, by omega, by rwa [getElem?_flatten hu hlt]⟩

end Rows

namespace List

variable {α β : Type*} {x : α}

/-- What alone of a list has a property stands at one place. -/
theorem exists_unique_place {p : α → Bool} {l : List α} (h : l.filter p = [x]) :
    ∃ k : ℕ, l[k]? = some x ∧ ∀ (k' : ℕ) (y : α), l[k']? = some y → p y → k' = k := by
  induction l with
  | nil => simp at h
  | cons a l ih =>
    rw [filter_cons] at h
    split_ifs at h with ha
    · obtain ⟨rfl, hl⟩ := List.cons.inj h
      refine ⟨0, rfl, fun k' y hy hp => ?_⟩
      cases k' with
      | zero => rfl
      | succ k' =>
        have hmem : y ∈ l.filter p := mem_filter.mpr ⟨mem_of_getElem? hy, hp⟩
        simp [hl] at hmem
    · obtain ⟨k, hk, huniq⟩ := ih h
      refine ⟨k + 1, hk, fun k' y hy hp => ?_⟩
      cases k' with
      | zero =>
        obtain rfl : a = y := by simpa using hy
        exact absurd hp ha
      | succ k' => rw [huniq k' y hy hp]

/-- The image of what alone of a list has an image with a property. -/
theorem filter_filterMap_eq_singleton {f : α → Option β} {p : β → Bool} {l : List α} {b : β}
    (hl : l.Nodup) (hx : x ∈ l) (hfx : f x = some b) (hb : p b)
    (huniq : ∀ y ∈ l, ∀ c, f y = some c → p c → y = x) : (l.filterMap f).filter p = [b] := by
  induction l with
  | nil => simp at hx
  | cons a l ih =>
    obtain ⟨ha, hl⟩ := nodup_cons.mp hl
    rcases mem_cons.mp hx with rfl | hx
    · have hrest : (l.filterMap f).filter p = [] := by
        refine filter_eq_nil_iff.mpr fun c hc hp => ?_
        obtain ⟨y, hy, hfy⟩ := mem_filterMap.mp hc
        exact ha (huniq y (mem_cons_of_mem x hy) c hfy hp ▸ hy)
      rw [filterMap_cons_some hfx, filter_cons_of_pos hb, hrest]
    · have hrest := ih hl hx fun y hy => huniq y (mem_cons_of_mem a hy)
      cases hfa : f a with
      | none => rw [filterMap_cons_none hfa, hrest]
      | some c =>
        have hc : ¬p c := by
          intro hc
          exact ha (huniq a mem_cons_self c hfa hc ▸ hx)
        rw [filterMap_cons_some hfa, filter_cons_of_neg hc, hrest]

theorem sum_indicator (p : α → Bool) (l : List α) :
    (l.map fun x => if p x then 1 else 0).sum = l.countP p := by
  induction l with
  | nil => rfl
  | cons x l ih => rw [map_cons, sum_cons, ih, countP_cons, Nat.add_comm]

theorem countP_or_of_disjoint {p q : α → Prop} [DecidablePred p] [DecidablePred q] {l : List α}
    (h : ∀ x ∈ l, p x → ¬q x) :
    l.countP (fun x => p x ∨ q x) = l.countP (fun x => p x) + l.countP fun x => q x := by
  induction l with
  | nil => rfl
  | cons x l ih =>
    obtain ⟨hx, hl⟩ := List.forall_mem_cons.mp h
    rw [List.countP_cons, List.countP_cons, List.countP_cons, ih hl]
    by_cases hp : p x
    · simp [hp, hx hp, add_right_comm]
    · simp [hp, add_assoc]

/-- Pairs counted by their first and by their second components. -/
theorem sum_countP_comm (r : α → β → Bool) (xs : List α) (ys : List β) :
    (xs.map fun x => ys.countP (r x)).sum = (ys.map fun y => xs.countP fun x => r x y).sum := by
  induction xs with
  | nil => simp
  | cons x xs ih =>
    have hcons : (ys.map fun y => (x :: xs).countP fun x => r x y) =
        ys.map fun y => (xs.countP fun x => r x y) + if r x y then 1 else 0 :=
      map_congr_left fun y _ => countP_cons
    rw [map_cons, sum_cons, ih, hcons, sum_map_add, sum_indicator, Nat.add_comm]

theorem foldl_add_skip (skip : α → Prop) [DecidablePred skip] (f : α → ℕ) (n : ℕ) (xs : List α) :
    xs.foldl (fun n x => if skip x then n else n + f x) n =
      n + ((xs.filter fun x => ¬skip x).map f).sum := by
  induction xs generalizing n with
  | nil => simp
  | cons x xs ih =>
    rw [foldl_cons, ih]
    by_cases hx : skip x
    · simp [hx]
    · simp [hx, Nat.add_assoc]

end List

/-! ## Numbers -/

section

variable {α : Type*} [DecidableEq α] (p : α → Bool)

/-- The keys with a property get the numbers from 0 on, in their order, and the others get -1. -/
def renumber (xs : List α) : ℕ × (α → ℤ) :=
  xs.foldl (fun s x => if p x then (s.1 + 1, Function.update s.2 x (s.1 : ℤ))
    else (s.1, Function.update s.2 x (-1))) (0, fun _ => 0)

variable {p} {xs : List α} {x : α}

theorem renumber_concat : renumber p (xs ++ [x]) =
    if p x then
      ((renumber p xs).1 + 1, Function.update (renumber p xs).2 x ((renumber p xs).1 : ℤ))
    else ((renumber p xs).1, Function.update (renumber p xs).2 x (-1)) := by
  rw [renumber, List.foldl_append]
  rfl

theorem renumber_count : (renumber p xs).1 = (xs.filter p).length := by
  induction xs using List.reverseRecOn with
  | nil => rfl
  | append_singleton xs x ih =>
    rw [renumber_concat, List.filter_append, List.length_append]
    by_cases hx : p x <;> simp [hx, ih]

theorem renumber_of_not (hxs : xs.Nodup) (hx : x ∈ xs) (hp : ¬p x) :
    (renumber p xs).2 x = -1 := by
  induction xs using List.reverseRecOn with
  | nil => simp at hx
  | append_singleton xs y ih =>
    rw [renumber_concat]
    by_cases hxy : x = y
    · subst hxy
      simp [hp]
    · have hx' : x ∈ xs := by simpa [hxy] using hx
      have hrest := ih (List.nodup_append.mp hxs).1 hx'
      split_ifs <;> simp [hxy, hrest]

/-- The number of a key is its place among those that get one. -/
theorem renumber_of_mem (hxs : xs.Nodup) (hx : x ∈ xs.filter p) :
    (renumber p xs).2 x = (xs.filter p).idxOf x := by
  induction xs using List.reverseRecOn with
  | nil => simp at hx
  | append_singleton xs y ih =>
    obtain ⟨hnodup, -, hne⟩ := List.nodup_append.mp hxs
    rw [renumber_concat, List.filter_append]
    by_cases hxy : x = y
    · subst hxy
      have hp : p x := (List.mem_filter.mp hx).2
      have hnot : x ∉ xs.filter p := fun hmem =>
        hne x (List.mem_filter.mp hmem).1 x (List.mem_singleton_self x) rfl
      simp [hp, renumber_count, List.idxOf_append_of_notMem hnot]
    · have hx' : x ∈ xs.filter p := by
        rw [List.mem_filter] at hx ⊢
        simpa [hxy] using hx
      rw [List.idxOf_append_of_mem hx', ← ih hnodup hx']
      split_ifs <;> simp [hxy]

end

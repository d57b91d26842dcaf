import Mathlib.Data.List.Basic
import Mathlib.Order.Bounds.Basic
import Mathlib.Order.MinMax

/-!
# Widths

The width of a list of edges is the least of their values, as the bandwidth of a path is that of its
narrowest pipe. A list without edges has no width.
-/

section

variable {E M : Type*} [LinearOrder M] {f : E → M} {es fs : List E} {e : E} {m n : M}

/-- The least value of `f` on the list. -/
def IsWidth (f : E → M) (es : List E) (m : M) : Prop := IsLeast {x | ∃ e ∈ es, f e = x} m

theorem isWidth_singleton (f : E → M) (e : E) : IsWidth f [e] (f e) := by
  refine ⟨⟨e, List.mem_singleton_self e, rfl⟩, ?_⟩
  rintro x ⟨e', he', rfl⟩
  rw [List.mem_singleton.mp he']

theorem IsWidth.le (h : IsWidth f es m) (he : e ∈ es) : m ≤ f e := h.2 ⟨e, he, rfl⟩

theorem IsWidth.unique (h : IsWidth f es m) (h' : IsWidth f es n) : m = n := IsLeast.unique h h'

theorem IsWidth.eq_of_singleton (h : IsWidth f [e] m) : m = f e := h.unique (isWidth_singleton f e)

theorem IsWidth.congr (h : IsWidth f es m) (hmem : ∀ e, e ∈ es ↔ e ∈ fs) : IsWidth f fs m := by
  have hset : {x | ∃ e ∈ es, f e = x} = {x | ∃ e ∈ fs, f e = x} := by
    ext x
    simp [hmem]
  unfold IsWidth
  rw [← hset]
  exact h

theorem IsWidth.append (h : IsWidth f es m) (h' : IsWidth f fs n) :
    IsWidth f (es ++ fs) (min m n) := by
  constructor
  · rcases min_choice m n with heq | heq
    · obtain ⟨e, he, hm⟩ := h.1
      exact ⟨e, List.mem_append_left fs he, hm.trans heq.symm⟩
    · obtain ⟨e, he, hn⟩ := h'.1
      exact ⟨e, List.mem_append_right es he, hn.trans heq.symm⟩
  · rintro x ⟨e, he, rfl⟩
    rcases List.mem_append.mp he with he | he
    · exact (min_le_left m n).trans (h.le he)
    · exact (min_le_right m n).trans (h'.le he)

theorem IsWidth.cons (h : IsWidth f es m) (e : E) : IsWidth f (e :: es) (min m (f e)) := by
  rw [min_comm]
  exact (isWidth_singleton f e).append h

theorem IsWidth.concat (h : IsWidth f es m) (e : E) : IsWidth f (es ++ [e]) (min m (f e)) :=
  h.append (isWidth_singleton f e)

theorem IsWidth.of_le {a : M} (h : IsWidth f es m) (ha : ∀ e ∈ es, a ≤ f e) : a ≤ m := by
  obtain ⟨e, he, rfl⟩ := h.1
  exact ha e he

theorem exists_isWidth (f : E → M) (hes : es ≠ []) : ∃ m, IsWidth f es m := by
  induction es with
  | nil => exact absurd rfl hes
  | cons e es ih =>
    by_cases hnil : es = []
    · subst hnil
      exact ⟨_, isWidth_singleton f e⟩
    · obtain ⟨m, hm⟩ := ih hnil
      exact ⟨_, hm.cons e⟩

end

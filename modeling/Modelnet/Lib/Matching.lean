import Mathlib.Algebra.BigOperators.Group.List.Basic
import Mathlib.Algebra.BigOperators.Ring.Finset
import Mathlib.Algebra.Group.Nat.Defs
import Mathlib.Algebra.GroupWithZero.Nat
import Mathlib.Algebra.Order.BigOperators.Group.Finset
import Mathlib.Combinatorics.Hall.Basic
import Mathlib.Data.Finset.Lattice.Fold
import Mathlib.Data.Int.LeastGreatest
import Mathlib.Data.Set.Function
import Mathlib.Tactic.Linarith

/-!
# Matchings

The rows of a table take its columns one after the other, each of them the cheapest that is left, of
several the first (`greedy`). No column is taken twice, and no row would rather have a column of a
later one; this determines what they take (`Picks.greedy_eq`). A bijection of the rows and the
columns costs the least in the sum if and only if the columns have prices at which each row does
best with its own (`sum_le_iff_exists_supports`).
-/

namespace Matching

variable {α β : Type*} [DecidableEq β]

/-- Each row takes a column of those that are left. -/
def greedy (pick : α → Finset β → β) : List α → Finset β → List (α × β)
  | [], _ => []
  | a :: rows, free => (a, pick a free) :: greedy pick rows (free.erase (pick a free))

/-- The sum of the costs. -/
def total (m : α → β → ℕ) (pairs : List (α × β)) : ℕ := (pairs.map fun e => m e.1 e.2).sum

/-- A cheaper column replaces the best one so far, of which the cost is kept with it. -/
def better (m : β → ℕ) (best : ℕ × β) (b : β) : ℕ × β := if m b < best.1 then (m b, b) else best

/-- The first column is cheaper, or as cheap and not behind the other one. -/
def Rather [LE β] (m : β → ℕ) (b b' : β) : Prop := m b < m b' ∨ m b = m b' ∧ b ≤ b'

/-- The rows pick the best columns that are left. -/
structure Picks [LE β] (m : α → β → ℕ) (pick : α → Finset β → β) (rows : List α)
    (free : Finset β) : Prop where
  mem : ∀ a ∈ rows, ∀ C ⊆ free, C.Nonempty → pick a C ∈ C
  rather : ∀ a ∈ rows, ∀ C ⊆ free, ∀ b ∈ C, Rather (m a) (pick a C) b

section

variable [PartialOrder β] {m : α → β → ℕ} {pick : α → Finset β → β} {a : α} {b b' : β}
  {rows : List α} {free : Finset β}

omit [DecidableEq β] [PartialOrder β] in
@[simp] theorem total_nil : total m [] = 0 := rfl

omit [DecidableEq β] [PartialOrder β] in
@[simp] theorem total_cons (e : α × β) (pairs : List (α × β)) :
    total m (e :: pairs) = m e.1 e.2 + total m pairs := by simp [total]

/-! ## The best column -/

section

variable {m : β → ℕ}

omit [DecidableEq β] in
theorem Rather.le (h : Rather m b b') : m b ≤ m b' := by
  rcases h with hlt | ⟨heq, -⟩
  · exact hlt.le
  · exact heq.le

omit [DecidableEq β] in
theorem Rather.antisymm (h : Rather m b b') (h' : Rather m b' b) : b = b' := by
  rcases h with hlt | ⟨heq, hle⟩
  · exact absurd h'.le (not_le.mpr hlt)
  · rcases h' with hlt | ⟨-, hle'⟩
    · exact absurd heq hlt.ne'
    · exact le_antisymm hle hle'

omit [DecidableEq β] in
/-- Either no column is cheaper than the start, or the best one is found. -/
theorem foldl_better (m : β → ℕ) {l : List β} (hl : l.Pairwise (· ≤ ·)) (best : ℕ × β) :
    l.foldl (better m) best = best ∧ (∀ b ∈ l, best.1 ≤ m b) ∨
      (l.foldl (better m) best).2 ∈ l ∧ m (l.foldl (better m) best).2 < best.1 ∧
        ∀ b ∈ l, Rather m (l.foldl (better m) best).2 b := by
  induction l generalizing best with
  | nil => exact Or.inl ⟨rfl, by simp⟩
  | cons b l ih =>
    obtain ⟨hfirst, hl⟩ := List.pairwise_cons.mp hl
    rw [List.foldl_cons, better]
    split_ifs with hlt
    · refine Or.inr ?_
      rcases ih hl (m b, b) with ⟨heq, hle⟩ | ⟨hmem, hless, hrather⟩
      · rw [heq]
        refine ⟨List.mem_cons_self, hlt, List.forall_mem_cons.mpr ⟨Or.inr ⟨rfl, le_rfl⟩, ?_⟩⟩
        intro b' hb'
        rcases (hle b' hb').lt_or_eq with hless | heq'
        · exact Or.inl hless
        · exact Or.inr ⟨heq', hfirst b' hb'⟩
      · exact ⟨List.mem_cons_of_mem _ hmem, hless.trans hlt,
          List.forall_mem_cons.mpr ⟨Or.inl hless, hrather⟩⟩
    · have hstart : best.1 ≤ m b := not_lt.mp hlt
      rcases ih hl best with ⟨heq, hle⟩ | ⟨hmem, hless, hrather⟩
      · exact Or.inl ⟨heq, List.forall_mem_cons.mpr ⟨hstart, hle⟩⟩
      · exact Or.inr ⟨List.mem_cons_of_mem _ hmem, hless,
          List.forall_mem_cons.mpr ⟨Or.inl (hless.trans_le hstart), hrather⟩⟩

end

/-! ## The columns that are taken -/

omit [PartialOrder β] in
@[simp] theorem map_fst_greedy : (greedy pick rows free).map Prod.fst = rows := by
  induction rows generalizing free with
  | nil => rfl
  | cons a rows ih => simp [greedy, ih]

omit [PartialOrder β] in
theorem length_greedy : (greedy pick rows free).length = rows.length := by
  have h : ((greedy pick rows free).map Prod.fst).length = rows.length := by rw [map_fst_greedy]
  rwa [List.length_map] at h

theorem Picks.tail (h : Picks m pick (a :: rows) free) : Picks m pick rows (free.erase b) where
  mem x hx C hC := h.mem x (List.mem_cons_of_mem _ hx) C (hC.trans (Finset.erase_subset _ _))
  rather x hx C hC := h.rather x (List.mem_cons_of_mem _ hx) C (hC.trans (Finset.erase_subset _ _))

omit [DecidableEq β] in
theorem Picks.head_mem (h : Picks m pick (a :: rows) free)
    (hcard : (a :: rows).length ≤ free.card) : pick a free ∈ free :=
  h.mem a List.mem_cons_self free subset_rfl
    (Finset.card_pos.mp (Nat.lt_of_lt_of_le (by simp) hcard))

theorem Picks.card_erase (h : Picks m pick (a :: rows) free)
    (hcard : (a :: rows).length ≤ free.card) : rows.length ≤ (free.erase (pick a free)).card := by
  rw [Finset.card_erase_of_mem (h.head_mem hcard)]
  exact Nat.le_sub_one_of_lt hcard

theorem Picks.greedy_mem (h : Picks m pick rows free) (hcard : rows.length ≤ free.card)
    {e : α × β} (he : e ∈ greedy pick rows free) : e.2 ∈ free := by
  induction rows generalizing free with
  | nil => exact absurd he List.not_mem_nil
  | cons a rows ih =>
    rcases List.mem_cons.mp he with rfl | he
    · exact h.head_mem hcard
    · exact Finset.mem_of_mem_erase (ih h.tail (h.card_erase hcard) he)

theorem Picks.greedy_nodup (h : Picks m pick rows free) (hcard : rows.length ≤ free.card) :
    ((greedy pick rows free).map Prod.snd).Nodup := by
  induction rows generalizing free with
  | nil => exact List.nodup_nil
  | cons a rows ih =>
    refine List.nodup_cons.mpr ⟨fun hmem => ?_, ih h.tail (h.card_erase hcard)⟩
    obtain ⟨e, he, heq⟩ := List.mem_map.mp hmem
    have hfree := h.tail.greedy_mem (h.card_erase hcard) he
    rw [heq] at hfree
    exact Finset.notMem_erase _ _ hfree

theorem Picks.greedy_onto (h : Picks m pick rows free) (hcard : rows.length = free.card)
    (hb : b ∈ free) : ∃ e ∈ greedy pick rows free, e.2 = b := by
  have hsub : ((greedy pick rows free).map Prod.snd).toFinset ⊆ free := by
    intro c hc
    obtain ⟨e, he, rfl⟩ := List.mem_map.mp (List.mem_toFinset.mp hc)
    exact h.greedy_mem hcard.le he
  have heq : ((greedy pick rows free).map Prod.snd).toFinset = free := by
    refine Finset.eq_of_subset_of_card_le hsub ?_
    rw [List.toFinset_card_of_nodup (h.greedy_nodup hcard.le), List.length_map, length_greedy,
      hcard]
  rw [← heq] at hb
  obtain ⟨e, he, heb⟩ := List.mem_map.mp (List.mem_toFinset.mp hb)
  exact ⟨e, he, heb⟩

theorem Picks.greedy_exact (h : Picks m pick rows free) (hrows : rows.Nodup) {f : α → β}
    (hinj : ∀ a ∈ rows, ∀ a' ∈ rows, f a = f a' → a = a') (hmem : ∀ a ∈ rows, f a ∈ free)
    (hzero : ∀ a ∈ rows, ∀ b ∈ free, m a b = 0 ↔ b = f a) :
    greedy pick rows free = rows.map fun a => (a, f a) := by
  induction rows generalizing free with
  | nil => rfl
  | cons a rows ih =>
    have ha : a ∈ a :: rows := List.mem_cons_self
    have hpick : pick a free = f a := by
      have hle := (h.rather a ha free subset_rfl (f a) (hmem a ha)).le
      rw [(hzero a ha (f a) (hmem a ha)).mpr rfl] at hle
      exact (hzero a ha _ (h.mem a ha free subset_rfl ⟨f a, hmem a ha⟩)).mp (Nat.le_zero.mp hle)
    have hnotMem := (List.nodup_cons.mp hrows).1
    rw [greedy, hpick, ih h.tail (List.nodup_cons.mp hrows).2]
    · rfl
    · intro x hx y hy
      exact hinj x (List.mem_cons_of_mem _ hx) y (List.mem_cons_of_mem _ hy)
    · intro x hx
      refine Finset.mem_erase.mpr ⟨fun heq => ?_, hmem x (List.mem_cons_of_mem _ hx)⟩
      exact hnotMem (hinj x (List.mem_cons_of_mem _ hx) a ha heq ▸ hx)
    · intro x hx c hc
      exact hzero x (List.mem_cons_of_mem _ hx) c (Finset.mem_of_mem_erase hc)

theorem Picks.greedy_pairwise (h : Picks m pick rows free) (hcard : rows.length ≤ free.card) :
    (greedy pick rows free).Pairwise fun e e' => Rather (m e.1) e.2 e'.2 := by
  induction rows generalizing free with
  | nil => exact List.Pairwise.nil
  | cons a rows ih =>
    have hrest := h.card_erase hcard
    refine List.pairwise_cons.mpr ⟨fun e he => ?_, ih h.tail hrest⟩
    exact h.rather a List.mem_cons_self free subset_rfl e.2
      (Finset.mem_of_mem_erase (h.tail.greedy_mem hrest he))

/-- **What comes out** are the columns of which no row would rather have one of a later row. -/
theorem Picks.greedy_eq (h : Picks m pick rows free) (hrows : rows.Nodup) {f : α → β}
    (hinj : ∀ a ∈ rows, ∀ a' ∈ rows, f a = f a' → a = a') (hmem : ∀ a ∈ rows, f a ∈ free)
    (honto : ∀ b ∈ free, ∃ a ∈ rows, f a = b)
    (hrather : rows.Pairwise fun a a' => Rather (m a) (f a) (f a')) :
    greedy pick rows free = rows.map fun a => (a, f a) := by
  induction rows generalizing free with
  | nil => rfl
  | cons a rows ih =>
    have ha : a ∈ a :: rows := List.mem_cons_self
    obtain ⟨hnotMem, hrows⟩ := List.nodup_cons.mp hrows
    obtain ⟨hfirst, hrather⟩ := List.pairwise_cons.mp hrather
    have hpick : pick a free = f a := by
      have hbest := h.rather a ha free subset_rfl (f a) (hmem a ha)
      obtain ⟨a', ha', heq⟩ := honto _ (h.mem a ha free subset_rfl ⟨f a, hmem a ha⟩)
      rcases List.mem_cons.mp ha' with rfl | ha'
      · exact heq.symm
      · exact hbest.antisymm (heq ▸ hfirst a' ha')
    have hne : ∀ x ∈ rows, f x ≠ f a := fun x hx heq =>
      hnotMem (hinj x (List.mem_cons_of_mem _ hx) a ha heq ▸ hx)
    rw [greedy, hpick, ih h.tail hrows ?_ ?_ ?_ hrather]
    · rfl
    · intro x hx y hy
      exact hinj x (List.mem_cons_of_mem _ hx) y (List.mem_cons_of_mem _ hy)
    · intro x hx
      exact Finset.mem_erase.mpr ⟨hne x hx, hmem x (List.mem_cons_of_mem _ hx)⟩
    · intro b hb
      obtain ⟨hnot, hb⟩ := Finset.mem_erase.mp hb
      obtain ⟨x, hx, rfl⟩ := honto b hb
      rcases List.mem_cons.mp hx with rfl | hx
      · exact absurd rfl hnot
      · exact ⟨x, hx, rfl⟩

end

/-! ## Prices -/

section

variable {s : Finset α} {t : Finset β} {m : α → β → ℤ} {f : α → β} {u : β → ℤ}

/-- With the prices no row would do better with another column. -/
def Supports (m : α → β → ℤ) (s : Finset α) (t : Finset β) (f : α → β) (u : β → ℤ) : Prop :=
  ∀ a ∈ s, ∀ b ∈ t, m a (f a) + u (f a) ≤ m a b + u b

/-- What the cheapest column costs a row with its price. -/
def cheapest (m : α → β → ℤ) (t : Finset β) (ht : t.Nonempty) (u : β → ℤ) (a : α) : ℤ :=
  t.inf' ht fun b => m a b + u b

omit [DecidableEq β] in
/-- The prices that are paid do not depend on who has which column. -/
theorem sum_prices {g : α → β} (hg : Set.BijOn g s t) (u : β → ℤ) :
    ∑ a ∈ s, u (g a) = ∑ b ∈ t, u b :=
  Finset.sum_nbij g hg.mapsTo hg.injOn hg.surjOn fun _ _ => rfl

omit [DecidableEq β] in
theorem Supports.sum_le (h : Supports m s t f u) (hf : Set.BijOn f s t) {g : α → β}
    (hg : Set.BijOn g s t) : ∑ a ∈ s, m a (f a) ≤ ∑ a ∈ s, m a (g a) := by
  have hsum : ∑ a ∈ s, (m a (f a) + u (f a)) ≤ ∑ a ∈ s, (m a (g a) + u (g a)) :=
    Finset.sum_le_sum fun a ha => h a ha (g a) (hg.mapsTo ha)
  rw [Finset.sum_add_distrib, Finset.sum_add_distrib, sum_prices hf, sum_prices hg] at hsum
  exact le_of_add_le_add_right hsum

omit [DecidableEq β] in
theorem cheapest_le {ht : t.Nonempty} {a : α} {b : β} (hb : b ∈ t) :
    cheapest m t ht u a ≤ m a b + u b := Finset.inf'_le _ hb

/-- Where a column is among the cheapest for a row. -/
def tight (m : α → β → ℤ) (t : Finset β) (ht : t.Nonempty) (u : β → ℤ) (a : α) : Finset β :=
  t.filter fun b => m a b + u b = cheapest m t ht u a

/-- If some rows have too few cheapest columns, these can cost more: the rows pay more then than the
columns get. -/
theorem exists_raised {ht : t.Nonempty} {S : Finset s}
    (hS : (S.biUnion fun a => tight m t ht u a).card < S.card) :
    ∃ u', ∑ a : s, cheapest m t ht u a - ∑ b ∈ t, u b <
      ∑ a : s, cheapest m t ht u' a - ∑ b ∈ t, u' b := by
  classical
  set N := S.biUnion fun a => tight m t ht u a with hN
  have hNt : N ⊆ t := Finset.biUnion_subset.mpr fun a _ => Finset.filter_subset _ _
  refine ⟨fun b => u b + if b ∈ N then 1 else 0, ?_⟩
  have hrows : ∀ a : s, cheapest m t ht u a + (if a ∈ S then 1 else 0) ≤
      cheapest m t ht (fun b => u b + if b ∈ N then 1 else 0) a := by
    intro a
    refine Finset.le_inf' _ _ fun b hb => ?_
    dsimp only
    have hle : cheapest m t ht u a ≤ m a b + u b := cheapest_le hb
    by_cases ha : a ∈ S
    · by_cases hbN : b ∈ N
      · rw [if_pos ha, if_pos hbN]
        linarith
      · -- what is not among the cheapest costs one more
        have hne : m a b + u b ≠ cheapest m t ht u a := fun heq =>
          hbN (Finset.mem_biUnion.mpr ⟨a, ha, Finset.mem_filter.mpr ⟨hb, heq⟩⟩)
        rw [if_pos ha, if_neg hbN]
        omega
    · rw [if_neg ha]
      split_ifs <;> omega
  have hpaid : ∑ a : s, cheapest m t ht u a + S.card ≤
      ∑ a : s, cheapest m t ht (fun b => u b + if b ∈ N then 1 else 0) a := by
    have hsum := Finset.sum_le_sum fun a (_ : a ∈ Finset.univ) => hrows a
    rwa [Finset.sum_add_distrib, Finset.sum_boole, Finset.filter_univ_mem] at hsum
  have hgot : ∑ b ∈ t, (u b + if b ∈ N then 1 else 0) = ∑ b ∈ t, u b + N.card := by
    rw [Finset.sum_add_distrib, Finset.sum_boole, Finset.filter_mem_eq_inter,
      Finset.inter_eq_right.mpr hNt]
  rw [hgot]
  have hcard : (N.card : ℤ) < S.card := by exact_mod_cast hS
  linarith

/-- **Prices.** Some bijection is supported by prices. -/
theorem exists_supports (h : ∃ f : α → β, Set.BijOn f s t) :
    ∃ (f : α → β) (u : β → ℤ), Set.BijOn f s t ∧ Supports m s t f u := by
  obtain ⟨g, hg⟩ := h
  rcases t.eq_empty_or_nonempty with rfl | ht
  · have hs : s = ∅ := Finset.eq_empty_of_forall_notMem fun a ha =>
      Finset.notMem_empty _ (hg.mapsTo ha)
    subst hs
    exact ⟨g, fun _ => 0, hg, fun a ha => absurd ha (Finset.notMem_empty a)⟩
  · -- the prices for which the rows pay the most, after what the columns get
    obtain ⟨-, ⟨u, rfl⟩, hmax⟩ := Int.exists_greatest_of_bdd
      (P := fun z => ∃ u : β → ℤ, ∑ a : s, cheapest m t ht u a - ∑ b ∈ t, u b = z)
      ⟨∑ a ∈ s, m a (g a), by
        rintro _ ⟨u, rfl⟩
        have hle : ∑ a : s, cheapest m t ht u a ≤ ∑ a : s, (m a (g a) + u (g a)) :=
          Finset.sum_le_sum fun a _ => cheapest_le (hg.mapsTo a.2)
        rw [Finset.sum_coe_sort s fun a => m a (g a) + u (g a), Finset.sum_add_distrib,
          sum_prices hg] at hle
        linarith⟩ ⟨_, fun _ => 0, rfl⟩
    obtain ⟨f, hinj, hf⟩ :=
      (Finset.all_card_le_biUnion_card_iff_exists_injective fun a : s => tight m t ht u a).mp <| by
        intro S
        by_contra! hS
        obtain ⟨u', hlt⟩ := exists_raised hS
        exact absurd (hmax _ ⟨u', rfl⟩) (not_le.mpr hlt)
    have b₀ : β := ht.choose
    have hext : ∀ a (ha : a ∈ s), Function.extend Subtype.val f (fun _ => b₀) a = f ⟨a, ha⟩ :=
      fun a ha => Subtype.val_injective.extend_apply f _ ⟨a, ha⟩
    refine ⟨Function.extend Subtype.val f fun _ => b₀, u, ?_, fun a ha b hb => ?_⟩
    · have hmaps : Set.MapsTo (Function.extend Subtype.val f fun _ => b₀) s t := by
        intro a ha
        rw [hext a ha]
        exact (Finset.mem_filter.mp (hf ⟨a, ha⟩)).1
      have hinjOn : Set.InjOn (Function.extend Subtype.val f fun _ => b₀) s := by
        intro a ha a' ha' heq
        rw [hext a ha, hext a' ha'] at heq
        exact congrArg Subtype.val (hinj heq)
      refine ⟨hmaps, hinjOn, Finset.surjOn_of_injOn_of_card_le _ hmaps hinjOn ?_⟩
      exact (Finset.card_nbij g hg.mapsTo hg.injOn hg.surjOn).ge
    · rw [hext a ha, (Finset.mem_filter.mp (hf ⟨a, ha⟩)).2]
      exact cheapest_le hb

/-- **A bijection costs the least** if and only if there are prices at which each row does best with
its own column. -/
theorem sum_le_iff_exists_supports (hf : Set.BijOn f s t) :
    (∀ g : α → β, Set.BijOn g s t → ∑ a ∈ s, m a (f a) ≤ ∑ a ∈ s, m a (g a)) ↔
      ∃ u, Supports m s t f u := by
  constructor
  · intro hmin
    obtain ⟨g, u, hg, hsupports⟩ := exists_supports (m := m) ⟨f, hf⟩
    have hle : ∀ a ∈ s, m a (g a) + u (g a) ≤ m a (f a) + u (f a) := fun a ha =>
      hsupports a ha (f a) (hf.mapsTo ha)
    have hsum : ∑ a ∈ s, (m a (g a) + u (g a)) = ∑ a ∈ s, (m a (f a) + u (f a)) := by
      refine le_antisymm (Finset.sum_le_sum hle) ?_
      rw [Finset.sum_add_distrib, Finset.sum_add_distrib, sum_prices hf, sum_prices hg]
      exact add_le_add_left (hmin g hg) _
    refine ⟨u, fun a ha b hb => ?_⟩
    rw [← (Finset.sum_eq_sum_iff_of_le hle).mp hsum a ha]
    exact hsupports a ha b hb
  · rintro ⟨u, hsupports⟩ g hg
    exact hsupports.sum_le hf hg

end

end Matching

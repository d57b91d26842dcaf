import Mathlib.Algebra.BigOperators.Group.List.Lemmas
import Mathlib.Algebra.Order.BigOperators.Group.List
import Mathlib.Algebra.Order.Group.Nat
import Mathlib.Algebra.GroupWithZero.Nat
import Mathlib.Logic.Relation

/-!
# Loops over a work list

A loop runs with a bound on its turns (`Loop.run`), and a bound that covers a variant is never
reached. A work list is drained item by item; an item that is handled may be put back at the end of
the list. When it has less effort left each time it is put back, the efforts of the items, and one
for each of them, bound the turns (`Worklist.Handled.total_lt`).
-/

namespace Loop

variable {σ : Type*}

/-- What a turn finds or does: the loop is over, something fails, or there is a next state. -/
inductive Turn (σ : Type*) where
  | finished
  | fault
  | next (s : σ)

/-- How a loop ends: in the state in which it is over, with a failing turn, or out of turns. -/
inductive Ending (σ : Type*) where
  | finished (s : σ)
  | fault
  | exhausted

/-- The state in which a loop is over. -/
def Ending.state? : Ending σ → Option σ
  | .finished s => some s
  | _ => none

theorem Ending.eq_finished {r : Ending σ} {s : σ} (h : r.state? = some s) : r = .finished s := by
  cases r with
  | finished s' => rw [Option.some.inj h]
  | fault => cases h
  | exhausted => cases h

variable (turn : σ → Turn σ)

/-- The loop with at most `n` turns. -/
def run : ℕ → σ → Ending σ
  | 0, s =>
    match turn s with
    | .finished => .finished s
    | _ => .exhausted
  | n + 1, s =>
    match turn s with
    | .finished => .finished s
    | .fault => .fault
    | .next s' => run n s'

/-- The loop comes from the first state to the second one. -/
def Visits : σ → σ → Prop := Relation.ReflTransGen fun s s' => turn s = .next s'

/-- A turn is taken only when the variant is positive, and makes it smaller. -/
structure Variant (I : σ → Prop) (w : σ → ℕ) : Prop where
  pos : ∀ s, I s → turn s ≠ .finished → 0 < w s
  next : ∀ s s', I s → turn s = .next s' → I s' ∧ w s' < w s

variable {turn} {I : σ → Prop} {w : σ → ℕ} {s s' : σ} {n : ℕ}

theorem run_of_finished (h : turn s = .finished) (n : ℕ) : run turn n s = .finished s := by
  cases n with
  | zero => rw [run, h]
  | succ n => rw [run, h]

theorem run_of_fault (h : turn s = .fault) (n : ℕ) : run turn (n + 1) s = .fault := by
  rw [run, h]

theorem run_of_next (h : turn s = .next s') (n : ℕ) : run turn (n + 1) s = run turn n s' := by
  rw [run, h]

/-- **Variant rule.** A loop that may take as many turns as its variant says is not cut off. -/
theorem Variant.run_ne_exhausted (h : Variant turn I w) (hs : I s) (hn : w s ≤ n) :
    run turn n s ≠ .exhausted := by
  induction n generalizing s with
  | zero =>
    have hdone : turn s = .finished := by
      by_contra hne
      have hpos := h.pos s hs hne
      omega
    rw [run_of_finished hdone]
    rintro ⟨⟩
  | succ n ih =>
    cases hturn : turn s with
    | finished =>
      rw [run_of_finished hturn]
      rintro ⟨⟩
    | fault =>
      rw [run_of_fault hturn]
      rintro ⟨⟩
    | next s' =>
      obtain ⟨hs', hlt⟩ := h.next s s' hs hturn
      rw [run_of_next hturn]
      exact ih hs' (by omega)

/-- A loop that comes to its end is over, or takes a turn first. -/
theorem cases_of_run_finished (h : run turn n s = .finished s') :
    turn s = .finished ∧ s' = s ∨
      ∃ m s₁, n = m + 1 ∧ turn s = .next s₁ ∧ run turn m s₁ = .finished s' := by
  cases hturn : turn s with
  | finished =>
    rw [run_of_finished hturn] at h
    cases h
    exact Or.inl ⟨rfl, rfl⟩
  | fault =>
    cases n with
    | zero =>
      rw [run, hturn] at h
      cases h
    | succ m =>
      rw [run_of_fault hturn] at h
      cases h
  | next s₁ =>
    cases n with
    | zero =>
      rw [run, hturn] at h
      cases h
    | succ m =>
      rw [run_of_next hturn] at h
      exact Or.inr ⟨m, s₁, rfl, rfl, h⟩

/-- **Invariant rule.** What every turn keeps holds in the end. -/
theorem inv_of_run_finished (hnext : ∀ s s', I s → turn s = .next s' → I s') (hs : I s)
    (h : run turn n s = .finished s') : I s' := by
  induction n generalizing s with
  | zero =>
    obtain ⟨-, rfl⟩ | ⟨m, s₁, hm, -, -⟩ := cases_of_run_finished h
    · exact hs
    · omega
  | succ n ih =>
    obtain ⟨-, rfl⟩ | ⟨m, s₁, hm, hturn, hrun⟩ := cases_of_run_finished h
    · exact hs
    · obtain rfl : n = m := by omega
      exact ih (hnext s s₁ hs hturn) hrun

/-- What every turn keeps holds in all states that the loop visits. -/
theorem Visits.inv (hnext : ∀ s s', I s → turn s = .next s' → I s') (hs : I s)
    (h : Visits turn s s') : I s' := by
  induction h with
  | refl => exact hs
  | tail _ hturn ih => exact hnext _ _ ih hturn

/-- A loop that comes to its end comes to the same end from every state that it visits. -/
theorem Visits.run_finished {s₁ : σ} (h : Visits turn s s₁) (hrun : run turn n s = .finished s') :
    ∃ m, run turn m s₁ = .finished s' := by
  induction h with
  | refl => exact ⟨n, hrun⟩
  | tail _ hturn ih =>
    obtain ⟨m, hm⟩ := ih
    obtain ⟨hdone, -⟩ | ⟨k, s₂, -, hnext, hrest⟩ := cases_of_run_finished hm
    · rw [hdone] at hturn
      cases hturn
    · rw [hturn] at hnext
      cases hnext
      exact ⟨k, hrest⟩

/-- A loop comes to the end to which it comes from a state that it visits. -/
theorem Visits.exists_run_finished {s₁ : σ} (h : Visits turn s s₁)
    (hrun : run turn n s₁ = .finished s') : ∃ m, run turn m s = .finished s' := by
  induction h using Relation.ReflTransGen.head_induction_on with
  | refl => exact ⟨n, hrun⟩
  | head hturn _ ih =>
    obtain ⟨m, hm⟩ := ih
    exact ⟨m + 1, (run_of_next hturn m).trans hm⟩

theorem visits_of_run_finished (h : run turn n s = .finished s') : Visits turn s s' :=
  inv_of_run_finished (fun _ _ hvisits hturn => hvisits.tail hturn) .refl h

theorem Visits.eq_of_finished (h : Visits turn s s') (hturn : turn s = .finished) : s' = s := by
  rcases Relation.ReflTransGen.cases_head h with rfl | ⟨s₁, hnext, -⟩
  · rfl
  · rw [hturn] at hnext
    cases hnext

theorem run_finished_unique {m : ℕ} {s₁ s₂ : σ} (h : run turn n s = .finished s₁)
    (h' : run turn m s = .finished s₂) : s₁ = s₂ := by
  induction n generalizing s m with
  | zero =>
    obtain ⟨hdone, rfl⟩ | ⟨k, s₃, hk, -, -⟩ := cases_of_run_finished h
    · rw [run_of_finished hdone] at h'
      cases h'
      rfl
    · omega
  | succ n ih =>
    obtain ⟨hdone, rfl⟩ | ⟨k, s₃, hk, hturn, hrest⟩ := cases_of_run_finished h
    · rw [run_of_finished hdone] at h'
      cases h'
      rfl
    · obtain ⟨hdone, -⟩ | ⟨j, s₄, -, hturn', hrest'⟩ := cases_of_run_finished h'
      · rw [hdone] at hturn
        cases hturn
      · rw [hturn] at hturn'
        cases hturn'
        obtain rfl : n = k := by omega
        exact ih hrest hrest'

/-- In the state in which a loop is over it takes no turn. -/
theorem turn_of_run_finished (h : run turn n s = .finished s') : turn s' = .finished := by
  induction n generalizing s with
  | zero =>
    obtain ⟨hturn, rfl⟩ | ⟨m, s₁, hm, -, -⟩ := cases_of_run_finished h
    · exact hturn
    · omega
  | succ n ih =>
    obtain ⟨hturn, rfl⟩ | ⟨m, s₁, hm, -, hrun⟩ := cases_of_run_finished h
    · exact hturn
    · obtain rfl : n = m := by omega
      exact ih hrun

/-- **Total correctness.** A loop without faults whose variant bounds its turns comes to its end, in
a state of the invariant. -/
theorem Variant.exists_finished (h : Variant turn I w) (hfault : ∀ s, I s → turn s ≠ .fault)
    (hs : I s) (hn : w s ≤ n) : ∃ s', run turn n s = .finished s' ∧ I s' ∧ turn s' = .finished := by
  induction n generalizing s with
  | zero =>
    have hdone : turn s = .finished := by
      by_contra hne
      have hpos := h.pos s hs hne
      omega
    exact ⟨s, run_of_finished hdone 0, hs, hdone⟩
  | succ n ih =>
    cases hturn : turn s with
    | finished => exact ⟨s, run_of_finished hturn (n + 1), hs, hturn⟩
    | fault => exact absurd hturn (hfault s hs)
    | next s₁ =>
      obtain ⟨hs₁, hlt⟩ := h.next s s₁ hs hturn
      obtain ⟨s', hrun, hrest⟩ := ih hs₁ (by omega)
      exact ⟨s', (run_of_next hturn n).trans hrun, hrest⟩

end Loop

namespace Worklist

variable {σ α : Type*} (items : σ → List α) (effort : σ → α → ℕ)

/-- The efforts of the items, and one for each of them. -/
def total (s : σ) : ℕ := ((items s).map fun a => effort s a + 1).sum

/-- The item `a` has been handled: it is off the list, or back at its end with less effort left. -/
structure Handled [DecidableEq α] (s : σ) (a : α) (s' : σ) : Prop where
  others : ∀ b, b ≠ a → effort s' b ≤ effort s b
  item : effort s' a ≤ effort s a
  items : items s' = (items s).erase a ∨
    items s' = (items s).erase a ++ [a] ∧ effort s' a < effort s a

variable {items effort} {s s' : σ} {a : α}

theorem total_pos (h : items s ≠ []) : 0 < total items effort s := by
  obtain ⟨a, l, hl⟩ := List.exists_cons_of_ne_nil h
  unfold total
  rw [hl, List.map_cons, List.sum_cons]
  omega

variable [DecidableEq α]

/-- **Handling an item** makes the total smaller. -/
theorem Handled.total_lt (h : Handled items effort s a s') (ha : a ∈ items s) :
    total items effort s' < total items effort s := by
  have hsplit := List.sum_map_erase (fun b => effort s b + 1) ha
  have hle : (((items s).erase a).map fun b => effort s' b + 1).sum ≤
      (((items s).erase a).map fun b => effort s b + 1).sum := by
    refine List.sum_le_sum fun b _ => Nat.succ_le_succ ?_
    by_cases hb : b = a
    · rw [hb]
      exact h.item
    · exact h.others b hb
  unfold total
  rcases h.items with heq | ⟨heq, hlt⟩
  · rw [heq]
    omega
  · rw [heq, List.map_append, List.sum_append, List.map_singleton, List.sum_singleton]
    omega

theorem Handled.mem_of_mem_erase (h : Handled items effort s a s') {b : α}
    (hb : b ∈ (items s).erase a) : b ∈ items s' := by
  rcases h.items with heq | ⟨heq, -⟩
  · rwa [heq]
  · rw [heq]
    exact List.mem_append_left _ hb

end Worklist

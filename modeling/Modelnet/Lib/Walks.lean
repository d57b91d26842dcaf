import Mathlib.Algebra.BigOperators.Group.List.Basic
import Mathlib.Algebra.Order.Group.Nat
import Mathlib.Data.List.Nodup
import Mathlib.Data.Set.Basic

/-!
# Walks in directed graphs

Graphs may have parallel edges and self loops; a walk is the list of its edges. What walks can reach
is bounded by closed sets, and what they weigh by a potential that no edge exceeds
(`Multidigraph.IsWalk.feasible`). A search leaves behind a predecessor edge for each vertex it has
found; `Multidigraph.Back` is the walk that these edges form, read from the source.
-/

/-- A directed graph: the edges that it has, with their ends. -/
structure Multidigraph (V E : Type*) where
  edges : Set E
  source : E → V
  target : E → V

namespace Multidigraph

variable {V E : Type*} (G : Multidigraph V E)

/-! ## Walks -/

/-- The edges lead from the first vertex to the second one. -/
def IsWalk : V → List E → V → Prop
  | u, [], v => u = v
  | u, e :: es, v => e ∈ G.edges ∧ G.source e = u ∧ IsWalk (G.target e) es v

def Reaches (u v : V) : Prop := ∃ es, G.IsWalk u es v

/-- A walk than which no other one between the same vertices weighs less. -/
def IsShortest {M : Type*} [AddMonoid M] [LE M] (w : E → M) (u : V) (es : List E) (v : V) : Prop :=
  G.IsWalk u es v ∧ ∀ fs, G.IsWalk u fs v → (es.map w).sum ≤ (fs.map w).sum

variable {G} {u v : V} {e : E} {es fs : List E}

@[simp] theorem isWalk_nil : G.IsWalk u [] v ↔ u = v := Iff.rfl

@[simp] theorem isWalk_cons :
    G.IsWalk u (e :: es) v ↔ e ∈ G.edges ∧ G.source e = u ∧ G.IsWalk (G.target e) es v := Iff.rfl

theorem isWalk_append :
    G.IsWalk u (es ++ fs) v ↔ ∃ x, G.IsWalk u es x ∧ G.IsWalk x fs v := by
  induction es generalizing u with
  | nil => simp
  | cons e es ih =>
    simp only [List.cons_append, isWalk_cons, ih]
    constructor
    · rintro ⟨he, hu, x, hes, hfs⟩
      exact ⟨x, ⟨he, hu, hes⟩, hfs⟩
    · rintro ⟨x, ⟨he, hu, hes⟩, hfs⟩
      exact ⟨he, hu, x, hes, hfs⟩

theorem isWalk_concat :
    G.IsWalk u (es ++ [e]) v ↔ G.IsWalk u es (G.source e) ∧ e ∈ G.edges ∧ G.target e = v := by
  rw [isWalk_append]
  constructor
  · rintro ⟨x, hes, he, rfl, hv⟩
    exact ⟨hes, he, hv⟩
  · rintro ⟨hes, he, hv⟩
    exact ⟨_, hes, he, rfl, hv⟩

theorem IsWalk.mem_edges (h : G.IsWalk u es v) (he : e ∈ es) : e ∈ G.edges := by
  obtain ⟨xs, ys, rfl⟩ := List.append_of_mem he
  obtain ⟨x, -, hedge, -⟩ := isWalk_append.mp h
  exact hedge

theorem Reaches.refl (u : V) : G.Reaches u u := ⟨[], rfl⟩

theorem Reaches.concat (h : G.Reaches u (G.source e)) (he : e ∈ G.edges) :
    G.Reaches u (G.target e) := by
  obtain ⟨es, hes⟩ := h
  exact ⟨es ++ [e], isWalk_concat.mpr ⟨hes, he, rfl⟩⟩

/-- **Potentials.** When the edges do not lead out of a set, and along none of them the potential
grows by more than its weight, it grows along no walk by more than the weight of the walk. -/
theorem IsWalk.feasible {M : Type*} [AddCommMonoid M] [PartialOrder M] [IsOrderedAddMonoid M]
    {S : Set V} {d : V → M} {w : E → M}
    (hS : ∀ e ∈ G.edges, G.source e ∈ S →
      G.target e ∈ S ∧ d (G.target e) ≤ d (G.source e) + w e)
    (hu : u ∈ S) (h : G.IsWalk u es v) : v ∈ S ∧ d v ≤ d u + (es.map w).sum := by
  induction es generalizing u with
  | nil =>
    cases h
    exact ⟨hu, by simp⟩
  | cons e es ih =>
    obtain ⟨he, rfl, hes⟩ := h
    obtain ⟨htarget, hle⟩ := hS e he hu
    obtain ⟨hv, hrest⟩ := ih htarget hes
    refine ⟨hv, ?_⟩
    calc d v ≤ d (G.target e) + (es.map w).sum := hrest
      _ ≤ d (G.source e) + w e + (es.map w).sum := by gcongr
      _ = d (G.source e) + ((e :: es).map w).sum := by
        rw [List.map_cons, List.sum_cons, add_assoc]

theorem Reaches.mem_of_closed {S : Set V}
    (hS : ∀ e ∈ G.edges, G.source e ∈ S → G.target e ∈ S) (hu : u ∈ S) (h : G.Reaches u v) :
    v ∈ S := by
  obtain ⟨es, hes⟩ := h
  refine (hes.feasible (d := fun _ => (0 : ℕ)) (w := fun _ => 0) (fun e he hsource => ?_) hu).1
  exact ⟨hS e he hsource, le_rfl⟩

/-! ## Back along predecessors -/

variable (G)

/-- The predecessors lead from a vertex back to `s`, along the edges of the list from its end. -/
inductive Back (pred : V → Option E) (s : V) : V → List E → Prop
  | root : Back pred s s []
  | step {v : V} {e : E} {es : List E} (h : pred v = some e) (hes : Back pred s (G.source e) es) :
      Back pred s v (es ++ [e])

/-- The predecessor of a vertex is an edge that leads to it. -/
def PredsLeadTo (pred : V → Option E) : Prop :=
  ∀ v e, pred v = some e → e ∈ G.edges ∧ G.target e = v

variable {G} {pred pred' : V → Option E} {s : V}

theorem Back.isWalk (hpred : G.PredsLeadTo pred) (h : G.Back pred s v es) : G.IsWalk s es v := by
  induction h with
  | root => rfl
  | step h hes ih =>
    obtain ⟨he, hv⟩ := hpred _ _ h
    exact isWalk_concat.mpr ⟨ih, he, hv⟩

theorem Back.cases_of_ne (h : G.Back pred s v es) (hv : v ≠ s) :
    ∃ e fs, pred v = some e ∧ es = fs ++ [e] ∧ G.Back pred s (G.source e) fs := by
  cases h with
  | root => exact absurd rfl hv
  | step h hes => exact ⟨_, _, h, rfl, hes⟩

/-- A vertex without a predecessor leads back by no edges only. -/
theorem Back.eq_nil (hv : pred v = none) (h : G.Back pred s v es) : es = [] := by
  cases h with
  | root => rfl
  | step h hes =>
    rw [hv] at h
    cases h

/-- Only one list of edges leads back from a vertex. -/
theorem Back.unique (hs : pred s = none) (h : G.Back pred s v es) (h' : G.Back pred s v fs) :
    es = fs := by
  induction h generalizing fs with
  | root => exact (h'.eq_nil hs).symm
  | @step v e es hpred hes ih =>
    have hv : v ≠ s := by
      rintro rfl
      rw [hs] at hpred
      cases hpred
    obtain ⟨e', fs', hpred', rfl, hfs⟩ := h'.cases_of_ne hv
    obtain rfl : e = e' := Option.some.inj (hpred.symm.trans hpred')
    rw [ih hfs]

/-- The first part of a way back, up to one of its edges, is a way back itself. -/
theorem Back.initial (hpred : G.PredsLeadTo pred) (h : G.Back pred s v (es ++ e :: fs)) :
    G.Back pred s (G.source e) es ∧ G.Back pred s (G.target e) (es ++ [e]) := by
  generalize hall : es ++ e :: fs = all at h
  induction h generalizing fs with
  | root => simp at hall
  | @step v e' es' hv hes ih =>
    rcases List.eq_nil_or_concat fs with rfl | ⟨gs, x, rfl⟩
    · obtain ⟨rfl, heq⟩ := List.append_inj' hall rfl
      obtain rfl : e = e' := List.singleton_inj.mp heq
      exact ⟨hes, (hpred _ _ hv).2 ▸ .step hv hes⟩
    · rw [List.concat_eq_append, ← List.cons_append, ← List.append_assoc] at hall
      exact ih (List.append_inj' hall rfl).1

theorem Back.nodup (hpred : G.PredsLeadTo pred) (hs : pred s = none) (h : G.Back pred s v es) :
    es.Nodup := by
  induction h with
  | root => exact List.nodup_nil
  | @step v e es hv hes ih =>
    rw [← List.concat_eq_append]
    refine List.Nodup.concat (fun hmem => ?_) ih
    obtain ⟨xs, ys, hsplit⟩ := List.append_of_mem hmem
    have hfirst : G.Back pred s (G.source e) (xs ++ e :: ys) := hsplit ▸ hes
    have hshort := (hfirst.initial hpred).2
    rw [(hpred _ _ hv).2] at hshort
    have hlen := congrArg List.length (hshort.unique hs (.step hv hes))
    rw [hsplit] at hlen
    simp at hlen

/-- Predecessors that are the same on a set that they do not lead out of lead back alike. -/
theorem Back.congr {S : Set V} (hsame : ∀ x ∈ S, pred' x = pred x)
    (hclosed : ∀ x ∈ S, ∀ e, pred x = some e → G.source e ∈ S) (hv : v ∈ S)
    (h : G.Back pred s v es) : G.Back pred' s v es := by
  induction h with
  | root => exact .root
  | step h hes ih => exact .step ((hsame _ hv).trans h) (ih (hclosed _ hv _ h))

/-- Where a rank goes down along the predecessors, they lead back to the source. -/
theorem exists_back {S : Set V} (rank : V → ℕ)
    (hpred : ∀ x ∈ S, x ≠ s → ∃ e, pred x = some e ∧ G.source e ∈ S ∧ rank (G.source e) < rank x)
    (hv : v ∈ S) : ∃ es, G.Back pred s v es := by
  induction hrank : rank v using Nat.strong_induction_on generalizing v with
  | _ n ih =>
    by_cases hne : v = s
    · subst hne
      exact ⟨[], .root⟩
    · obtain ⟨e, he, hmem, hlt⟩ := hpred v hv hne
      obtain ⟨es, hes⟩ := ih _ (hrank ▸ hlt) hmem rfl
      exact ⟨es ++ [e], .step he hes⟩

/-- A label that grows by the weight of each predecessor edge has the weight of the way back. -/
theorem Back.label_eq {M : Type*} [AddCommMonoid M] {d : V → M} {w : E → M}
    (hpred : ∀ v e, pred v = some e → d v = d (G.source e) + w e) (h : G.Back pred s v es) :
    d v = d s + (es.map w).sum := by
  induction h with
  | root => simp
  | step h hes ih =>
    rw [hpred _ _ h, ih, List.map_append, List.sum_append, List.map_singleton, List.sum_singleton,
      add_assoc]

end Multidigraph

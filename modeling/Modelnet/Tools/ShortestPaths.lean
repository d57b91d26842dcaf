import Mathlib.Algebra.Order.Group.Int
import Mathlib.Algebra.Ring.Int.Defs
import Modelnet.Tools.Routes

/-!
# Shortest paths

`shortest_paths` takes the reached vertices in the order of their distances, and until then it does
what it should (`SPState.Settled`). But it goes on with the vertices that are not reached, with
distance 0 as their vector entry: an edge from such a vertex is relaxed like any other. So the
predecessors are right as long as none of these edges is shorter than the shortest path to its target
(`shortestPaths_correct_iff`).
-/

namespace Modelnet.Tools

variable {D : Type}

/-! ## What is claimed -/

/-- The predecessors lead from every vertex with a path from the source back to it along a shortest
one, and the other vertices have none. -/
structure FindsShortestPaths (g : GraphData D) (weights : ℕ → ℤ) (src : ℕ) : Prop where
  back : ∀ v, g.digraph.Reaches src v → ∃ es,
    g.digraph.Back (shortestPaths g weights src) src v es ∧ g.digraph.IsShortest weights src es v
  nil : ∀ v, ¬ g.digraph.Reaches src v → shortestPaths g weights src v = none

/-- The walk back ends for every pair that is printed, and what is printed is a shortest path. -/
def PrintsShortestPaths (g : GraphData D) (src : ℕ) : Prop :=
  ∀ dst ∈ targets g src, ∃ hops, g.digraph.IsShortest (fun _ => (1 : ℤ)) src hops dst ∧
    ∀ fuel, hops.length ≤ fuel → routeTo g fuel src dst = some ⟨src, dst, hops⟩

/-- No edge from a vertex that the source does not reach is shorter than the way to its target. -/
def NothingStale (g : GraphData D) (weights : ℕ → ℤ) (src : ℕ) : Prop :=
  ∀ e < g.myEdges.length, ¬ g.digraph.Reaches src (g.source e) →
    ∃ es, g.digraph.IsWalk src es (g.target e) ∧ (es.map weights).sum ≤ weights e

/-! ## The reached vertices -/

section

variable {g : GraphData D} {weights : ℕ → ℤ} {src u : ℕ} {s : SPState}

/-- What holds as long as only reached vertices have been taken; `scanned` are the edges that have
been relaxed. -/
structure SPState.Front (g : GraphData D) (weights : ℕ → ℤ) (src : ℕ) (scanned : ℕ → Prop)
    (s : SPState) : Prop where
  heap_lt : ∀ v ∈ s.heap, v < g.myVertices.length
  back : ∀ v, s.infinite v = false → ∃ es, g.digraph.Back s.pred src v es
  label : ∀ v e, s.pred v = some e → e < g.myEdges.length ∧ g.source e ∉ s.heap ∧
    s.d v = s.d (g.source e) + weights e
  popped : ∀ v < g.myVertices.length, v ∉ s.heap → s.infinite v = false ∧
    ∀ x ∈ s.heap, s.infinite x = false → s.d v ≤ s.d x
  relaxed : ∀ e, scanned e → s.infinite (g.target e) = false ∧
    s.d (g.target e) ≤ s.d (g.source e) + weights e

/-- Vertex `u` is the one that has just been taken. -/
structure SPState.Taken (g : GraphData D) (u : ℕ) (s : SPState) : Prop where
  lt : u < g.myVertices.length
  not_mem : u ∉ s.heap
  reached : s.infinite u = false
  farthest : ∀ v < g.myVertices.length, v ∉ s.heap → s.d v ≤ s.d u

/-- The vectors after a relaxation that finds something better. -/
def SPState.improved (g : GraphData D) (weights : ℕ → ℤ) (u : ℕ) (s : SPState) (e : ℕ) : SPState :=
  { s with
    d := Function.update s.d (g.target e) (s.d u + weights e)
    infinite := Function.update s.infinite (g.target e) false
    pred := Function.update s.pred (g.target e) (some e) }

/-- The edge `e` of `u` leads to a vertex that is still to be taken, and by a better way. -/
structure SPState.Improves (g : GraphData D) (weights : ℕ → ℤ) (u e : ℕ) (s : SPState) : Prop where
  mem : g.target e ∈ s.heap
  better : s.infinite (g.target e) = true ∨ s.d u + weights e < s.d (g.target e)

/-- A relaxation either finds nothing better, or its target is still to be taken. -/
theorem SPState.Taken.relax_cases {scanned : ℕ → Prop} (ht : s.Taken g u)
    (hfront : s.Front g weights src scanned) (hweights : ∀ e, 0 ≤ weights e) {e : ℕ}
    (htarget : g.target e < g.myVertices.length) :
    (relax g weights u s e = s ∧ s.infinite (g.target e) = false ∧
      s.d (g.target e) ≤ s.d u + weights e) ∨
    (relax g weights u s e = s.improved g weights u e ∧ s.Improves g weights u e) := by
  unfold relax
  dsimp only
  split_ifs with hbetter
  · refine Or.inr ⟨rfl, ?_, hbetter⟩
    by_contra hnot
    have hreached := (hfront.popped _ htarget hnot).1
    have hle := ht.farthest _ htarget hnot
    have hweight := hweights e
    rcases hbetter with hinf | hlt
    · rw [hreached] at hinf
      cases hinf
    · omega
  · obtain ⟨hinf, hle⟩ := not_or.mp hbetter
    exact Or.inl ⟨rfl, by simpa using hinf, not_lt.mp hle⟩

namespace SPState.Improves

variable {scanned : ℕ → Prop} {e v : ℕ}

theorem ne (h : s.Improves g weights u e) (hv : v ∉ s.heap) : v ≠ g.target e := by
  rintro rfl
  exact hv h.mem

/-- The vertices that have been taken keep their distance. -/
theorem d_eq (h : s.Improves g weights u e) (hv : v ∉ s.heap) :
    (s.improved g weights u e).d v = s.d v :=
  Function.update_of_ne (h.ne hv) _ _

theorem taken (h : s.Improves g weights u e) (ht : s.Taken g u) :
    (s.improved g weights u e).Taken g u where
  lt := ht.lt
  not_mem := ht.not_mem
  reached := (Function.update_of_ne (h.ne ht.not_mem) _ _).trans ht.reached
  farthest := by
    intro v hv hnot
    rw [h.d_eq hnot, h.d_eq ht.not_mem]
    exact ht.farthest v hv hnot

/-- The ways back that were there do not come through the target, and the new one goes by `u`. -/
theorem back (h : s.Improves g weights u e) (ht : s.Taken g u)
    (hfront : s.Front g weights src scanned) (hsource : g.source e = u)
    (hv : (s.improved g weights u e).infinite v = false) :
    ∃ es, g.digraph.Back (s.improved g weights u e).pred src v es := by
  have hold : ∀ v, v ≠ g.target e → s.infinite v = false → ∃ es,
      g.digraph.Back (s.improved g weights u e).pred src v es := by
    intro v hv hreached
    obtain ⟨es, hes⟩ := hfront.back v hreached
    refine ⟨es, hes.congr (S := {x | x ≠ g.target e}) (fun x hx => ?_) (fun x _ e' he' => ?_) hv⟩
    · exact Function.update_of_ne hx _ _
    · exact h.ne (hfront.label x e' he').2.1
  by_cases heqv : v = g.target e
  · subst heqv
    obtain ⟨es, hes⟩ := hold u (h.ne ht.not_mem) ht.reached
    refine ⟨es ++ [e], .step (Function.update_self _ _ _) ?_⟩
    show g.digraph.Back _ src (g.source e) es
    rwa [hsource]
  · exact hold v heqv ((Function.update_of_ne heqv _ _).symm.trans hv)

theorem label (h : s.Improves g weights u e) (ht : s.Taken g u)
    (hfront : s.Front g weights src scanned) (hedge : e < g.myEdges.length)
    (hsource : g.source e = u) {e' : ℕ} (he' : (s.improved g weights u e).pred v = some e') :
    e' < g.myEdges.length ∧ g.source e' ∉ s.heap ∧ (s.improved g weights u e).d v =
      (s.improved g weights u e).d (g.source e') + weights e' := by
  by_cases heqv : v = g.target e
  · subst heqv
    have hpred : (s.improved g weights u e).pred (g.target e) = some e := Function.update_self _ _ _
    obtain rfl : e = e' := Option.some.inj (hpred.symm.trans he')
    rw [hsource, h.d_eq ht.not_mem]
    exact ⟨hedge, ht.not_mem, Function.update_self _ _ _⟩
  · obtain ⟨hlt, hnot, hlabel⟩ := hfront.label v e' ((Function.update_of_ne heqv _ _).symm.trans he')
    rw [h.d_eq hnot]
    exact ⟨hlt, hnot, (Function.update_of_ne heqv _ _).trans hlabel⟩

/-- The target is not nearer than the vertices that have been taken. -/
theorem popped (h : s.Improves g weights u e) (ht : s.Taken g u)
    (hfront : s.Front g weights src scanned) (hweight : 0 ≤ weights e)
    (hv : v < g.myVertices.length) (hnot : v ∉ s.heap) :
    (s.improved g weights u e).infinite v = false ∧ ∀ x ∈ s.heap,
      (s.improved g weights u e).infinite x = false →
        (s.improved g weights u e).d v ≤ (s.improved g weights u e).d x := by
  obtain ⟨hreached, hnearest⟩ := hfront.popped v hv hnot
  refine ⟨(Function.update_of_ne (h.ne hnot) _ _).trans hreached, fun x hx hinf => ?_⟩
  rw [h.d_eq hnot]
  by_cases heqx : x = g.target e
  · subst heqx
    have hle := ht.farthest v hv hnot
    have hd : (s.improved g weights u e).d (g.target e) = s.d u + weights e :=
      Function.update_self _ _ _
    omega
  · have hd : (s.improved g weights u e).d x = s.d x := Function.update_of_ne heqx _ _
    rw [hd]
    exact hnearest x hx ((Function.update_of_ne heqx _ _).symm.trans hinf)

/-- The edges that have been relaxed stay so, since their targets only come nearer. -/
theorem relaxed (h : s.Improves g weights u e) (hfront : s.Front g weights src scanned)
    {e' : ℕ} (he' : scanned e') (hsource : g.source e' ∉ s.heap) :
    (s.improved g weights u e).infinite (g.target e') = false ∧
      (s.improved g weights u e).d (g.target e') ≤
        (s.improved g weights u e).d (g.source e') + weights e' := by
  obtain ⟨hreached, hle⟩ := hfront.relaxed e' he'
  rw [h.d_eq hsource]
  by_cases heqt : g.target e' = g.target e
  · rw [heqt] at hreached hle ⊢
    have hd : (s.improved g weights u e).d (g.target e) = s.d u + weights e :=
      Function.update_self _ _ _
    refine ⟨Function.update_self _ _ _, ?_⟩
    rcases h.better with hinf | hlt
    · rw [hreached] at hinf
      cases hinf
    · omega
  · have hd : (s.improved g weights u e).d (g.target e') = s.d (g.target e') :=
      Function.update_of_ne heqt _ _
    rw [hd]
    exact ⟨(Function.update_of_ne heqt _ _).trans hreached, hle⟩

end SPState.Improves

theorem SPState.Taken.relax {scanned : ℕ → Prop} (ht : s.Taken g u)
    (hfront : s.Front g weights src scanned) (hweights : ∀ e, 0 ≤ weights e)
    (hscanned : ∀ e, scanned e → g.source e ∉ s.heap) (hg : g.Built) {e : ℕ}
    (he : e ∈ g.outEdges u) :
    (Tools.relax g weights u s e).Taken g u ∧
      (Tools.relax g weights u s e).Front g weights src fun e' => scanned e' ∨ e' = e := by
  obtain ⟨hedge, hsource⟩ := mem_outEdges.mp he
  rcases ht.relax_cases hfront hweights (GraphData.target_lt hg hedge) with
    ⟨heq, hreached, hle⟩ | ⟨heq, himproves⟩
  · rw [heq]
    refine ⟨ht, hfront.heap_lt, hfront.back, hfront.label, hfront.popped, fun e' he' => ?_⟩
    rcases he' with he' | rfl
    · exact hfront.relaxed e' he'
    · rw [hsource]
      exact ⟨hreached, hle⟩
  · rw [heq]
    refine ⟨himproves.taken ht, hfront.heap_lt, fun v hv => himproves.back ht hfront hsource hv,
      fun v e' he' => himproves.label ht hfront hedge hsource he',
      fun v hv hnot => himproves.popped ht hfront (hweights e) hv hnot, fun e' he' => ?_⟩
    rcases he' with he' | rfl
    · exact himproves.relaxed hfront he' (hscanned e' he')
    · rw [hsource, himproves.d_eq ht.not_mem]
      exact ⟨Function.update_self _ _ _, (Function.update_self _ _ _).le⟩

/-- **The edges of a reached vertex.** -/
theorem SPState.Taken.relaxAll {scanned : ℕ → Prop} (ht : s.Taken g u)
    (hfront : s.Front g weights src scanned) (hweights : ∀ e, 0 ≤ weights e)
    (hscanned : ∀ e, scanned e → g.source e ∉ s.heap) (hg : g.Built) {es : List ℕ}
    (hes : ∀ e ∈ es, e ∈ g.outEdges u) :
    (es.foldl (Tools.relax g weights u) s).Front g weights src fun e => scanned e ∨ e ∈ es := by
  induction es generalizing s scanned with
  | nil => simpa using hfront
  | cons e es ih =>
    have he := hes e List.mem_cons_self
    obtain ⟨ht', hfront'⟩ := ht.relax hfront hweights hscanned hg he
    have hall := ih ht' hfront' (fun e' he' => ?_) fun e' he' => hes e' (List.mem_cons_of_mem e he')
    · simpa [or_assoc] using hall
    · rw [heap_relax]
      rcases he' with he' | rfl
      · exact hscanned e' he'
      · rw [(mem_outEdges.mp he).2]
        exact ht.not_mem

/-- A reached vertex is taken before those that are not, and before those farther away. -/
theorem SPState.le_of_key {x : ℕ} (hx : s.infinite x = false) (hkey : s.key u ≤ s.key x) :
    s.infinite u = false ∧ s.d u ≤ s.d x := by
  unfold key at hkey
  cases hu : s.infinite u with
  | false =>
    rw [hu, hx, Prod.Lex.toLex_le_toLex] at hkey
    refine ⟨rfl, hkey.elim (fun hlt => absurd hlt (lt_irrefl _)) fun h => ?_⟩
    rcases Prod.Lex.toLex_le_toLex.mp h.2 with hlt | ⟨heq, -⟩
    · exact hlt.le
    · exact heq.le
  | true =>
    rw [hu, hx, Prod.Lex.toLex_le_toLex] at hkey
    rcases hkey with hlt | ⟨heq, -⟩
    · exact absurd hlt (by simp)
    · cases heq

/-- The edges of the vertices that have been taken. -/
def SPState.Scanned (g : GraphData D) (s : SPState) (e : ℕ) : Prop :=
  e < g.myEdges.length ∧ g.source e ∉ s.heap

/-- **A reached vertex is taken.** -/
theorem SPState.Front.takeVertex (hfront : s.Front g weights src (s.Scanned g))
    (hnodup : s.heap.Nodup) (hg : g.Built) (hweights : ∀ e, 0 ≤ weights e)
    (hreached : ∃ x ∈ s.heap, s.infinite x = false) :
    (takeVertex g weights s).Front g weights src ((takeVertex g weights s).Scanned g) := by
  obtain ⟨x, hx, hxreached⟩ := hreached
  obtain ⟨u, hu⟩ := SPState.exists_pop (List.ne_nil_of_mem hx)
  obtain ⟨hmem, hkey⟩ := SPState.pop_spec hu
  obtain ⟨hureached, -⟩ := SPState.le_of_key hxreached (hkey x hx)
  have hsub : ∀ v ∈ s.heap.erase u, v ∈ s.heap := fun v hv => List.mem_of_mem_erase hv
  have hleft : ∀ v, v ∉ s.heap.erase u → v = u ∨ v ∉ s.heap := by
    intro v hv
    rw [hnodup.mem_erase_iff, not_and_or, not_not] at hv
    exact hv
  have ht : SPState.Taken g u { s with heap := s.heap.erase u } := by
    refine ⟨hfront.heap_lt u hmem, hnodup.not_mem_erase, hureached, fun v hv hnot => ?_⟩
    rcases hleft v hnot with rfl | hnot
    · exact le_rfl
    · exact (hfront.popped v hv hnot).2 u hmem hureached
  have hfront' : SPState.Front g weights src (s.Scanned g) { s with heap := s.heap.erase u } := by
    refine ⟨fun v hv => hfront.heap_lt v (hsub v hv), hfront.back, fun v e he => ?_,
      fun v hv hnot => ?_, hfront.relaxed⟩
    · obtain ⟨hlt, hnot, hlabel⟩ := hfront.label v e he
      exact ⟨hlt, fun hin => hnot (hsub _ hin), hlabel⟩
    · rcases hleft v hnot with rfl | hnot
      · exact ⟨hureached, fun y hy hinf => (SPState.le_of_key hinf (hkey y (hsub y hy))).2⟩
      · obtain ⟨hinf, hle⟩ := hfront.popped v hv hnot
        exact ⟨hinf, fun y hy => hle y (hsub y hy)⟩
  have hall := ht.relaxAll hfront' hweights (fun e he hin => he.2 (hsub _ hin)) hg
    fun e he => he
  have hheap : (Tools.takeVertex g weights s).heap = s.heap.erase u := by
    rw [takeVertex_of_pop hu]
    exact heap_foldl_relax _ _ _
  rw [takeVertex_of_pop hu] at hheap ⊢
  refine ⟨hall.heap_lt, hall.back, hall.label, hall.popped, fun e he => hall.relaxed e ?_⟩
  obtain ⟨hlt, hnot⟩ := he
  rw [hheap] at hnot
  rcases hleft _ hnot with heq | hnot
  · exact Or.inr (mem_outEdges.mpr ⟨hlt, heq⟩)
  · exact Or.inl ⟨hlt, hnot⟩

/-- The vectors when no reached vertex is left: the vertices with a path from the source have the
weight of a shortest one. -/
structure SPState.Settled (g : GraphData D) (weights : ℕ → ℤ) (src : ℕ) (s : SPState) : Prop where
  pred_source : s.pred src = none
  reached : ∀ v, s.infinite v = false ↔ g.digraph.Reaches src v
  shortest : ∀ v, g.digraph.Reaches src v → ∃ es, g.digraph.Back s.pred src v es ∧
    g.digraph.IsShortest weights src es v ∧ s.d v = (es.map weights).sum

/-- **The shortest paths** have been found when all reached vertices have been taken. -/
theorem SPState.Front.settled (hfront : s.Front g weights src (s.Scanned g)) (h : s.Ok g src)
    (hdone : ∀ x ∈ s.heap, s.infinite x = true) : s.Settled g weights src := by
  have hpreds : g.digraph.PredsLeadTo s.pred :=
    fun v e he => ⟨(hfront.label v e he).1, h.pred_target v e he⟩
  have hclosed : ∀ e ∈ g.digraph.edges, g.digraph.source e ∈ {v | s.infinite v = false} →
      g.digraph.target e ∈ {v | s.infinite v = false} ∧
        s.d (g.digraph.target e) ≤ s.d (g.digraph.source e) + weights e := by
    intro e he hsource
    refine hfront.relaxed e ⟨he, fun hin => ?_⟩
    have hinf := hdone _ hin
    rw [show s.infinite (g.source e) = false from hsource] at hinf
    cases hinf
  have hreached : ∀ v, s.infinite v = false ↔ g.digraph.Reaches src v := by
    intro v
    constructor
    · intro hv
      obtain ⟨es, hes⟩ := hfront.back v hv
      exact ⟨es, hes.isWalk hpreds⟩
    · rintro ⟨es, hes⟩
      exact (hes.feasible hclosed h.reached_source).1
  refine ⟨h.pred_source, hreached, fun v hv => ?_⟩
  obtain ⟨es, hes⟩ := hfront.back v ((hreached v).mpr hv)
  have hd : s.d v = (es.map weights).sum := by
    have hlabel := hes.label_eq fun x e he => (hfront.label x e he).2.2
    rwa [h.d_source, zero_add] at hlabel
  refine ⟨es, hes, ⟨hes.isWalk hpreds, fun fs hfs => ?_⟩, hd⟩
  have hle := (hfs.feasible hclosed h.reached_source).2
  rwa [h.d_source, zero_add, hd] at hle

/-! ## The other vertices -/

/-- What holds while the vertices that are not reached are taken, if no edge leads to one of them;
`s₁` is the state before. A reached vertex has what it had there, or comes from such a vertex along an
edge that is shorter than its shortest path. -/
structure SPState.Stale (g : GraphData D) (weights : ℕ → ℤ) (s s₁ : SPState)
    (scanned : ℕ → Prop) : Prop where
  late : ∀ v ∈ s.heap, s₁.infinite v = true
  infinite : s.infinite = s₁.infinite
  le : ∀ v, s₁.infinite v = false → s.d v ≤ s₁.d v
  pred : ∀ v, s₁.infinite v = false → s.pred v = s₁.pred v ∨
    ∃ e < g.myEdges.length, s.pred v = some e ∧ g.target e = v ∧
      s₁.infinite (g.source e) = true ∧ weights e < s₁.d v
  pred_of_lt : ∀ v, s₁.infinite v = false → s.d v < s₁.d v →
    ∃ e, s.pred v = some e ∧ s₁.infinite (g.source e) = true
  relaxed : ∀ e, scanned e → s₁.infinite (g.source e) = true → s.d (g.target e) ≤ weights e

theorem SPState.stale_start (g : GraphData D) (weights : ℕ → ℤ) {s : SPState} {scanned : ℕ → Prop}
    (hlate : ∀ v ∈ s.heap, s.infinite v = true)
    (hscanned : ∀ e, scanned e → s.infinite (g.source e) = false) :
    s.Stale g weights s scanned where
  late := hlate
  infinite := rfl
  le _ _ := le_rfl
  pred _ _ := Or.inl rfl
  pred_of_lt _ _ hlt := absurd hlt (lt_irrefl _)
  relaxed e he hinf := by
    rw [hscanned e he] at hinf
    cases hinf

theorem SPState.Stale.relax {s₁ : SPState} {scanned : ℕ → Prop}
    (h : s.Stale g weights s₁ scanned) (hok : s.Ok g src) (hu : s₁.infinite u = true)
    {e : ℕ} (he : e ∈ g.outEdges u) (htarget : s₁.infinite (g.target e) = false) :
    (Tools.relax g weights u s e).Stale g weights s₁ fun e' => scanned e' ∨ e' = e := by
  obtain ⟨hlt, hsource⟩ := mem_outEdges.mp he
  have hd : s.d u = 0 := by
    apply hok.d_infinite
    rw [h.infinite]
    exact hu
  have hreached : s.infinite (g.target e) = false := by
    rw [h.infinite]
    exact htarget
  unfold Tools.relax
  dsimp only
  rw [hd, zero_add]
  split_ifs with hbetter
  · have hless : weights e < s.d (g.target e) := by
      rcases hbetter with hinf | hless
      · rw [hreached] at hinf
        cases hinf
      · exact hless
    have hstale := h.le _ htarget
    refine ⟨h.late, ?_, fun v hv => ?_, fun v hv => ?_, fun v hv hv' => ?_, fun e' he' hinf => ?_⟩
    · show Function.update s.infinite (g.target e) false = s₁.infinite
      rw [← hreached, Function.update_eq_self]
      exact h.infinite
    · dsimp only
      by_cases heq : v = g.target e
      · subst heq
        rw [Function.update_self]
        omega
      · rw [Function.update_of_ne heq]
        exact h.le v hv
    · dsimp only
      by_cases heq : v = g.target e
      · subst heq
        rw [Function.update_self]
        exact Or.inr ⟨e, hlt, rfl, rfl, hsource ▸ hu, by omega⟩
      · rw [Function.update_of_ne heq]
        exact h.pred v hv
    · dsimp only at hv' ⊢
      by_cases heq : v = g.target e
      · subst heq
        exact ⟨e, Function.update_self _ _ _, hsource ▸ hu⟩
      · rw [Function.update_of_ne heq] at hv' ⊢
        exact h.pred_of_lt v hv hv'
    · dsimp only
      by_cases heq : g.target e' = g.target e
      · rw [heq, Function.update_self]
        rcases he' with he' | rfl
        · have hle := h.relaxed e' he' hinf
          rw [heq] at hle
          omega
        · exact le_rfl
      · rw [Function.update_of_ne heq]
        rcases he' with he' | rfl
        · exact h.relaxed e' he' hinf
        · exact absurd rfl heq
  · refine ⟨h.late, h.infinite, h.le, h.pred, h.pred_of_lt, fun e' he' hinf => ?_⟩
    rcases he' with he' | rfl
    · exact h.relaxed e' he' hinf
    · exact not_lt.mp (not_or.mp hbetter).2

theorem SPState.Stale.relaxAll {s₁ : SPState} {scanned : ℕ → Prop}
    (h : s.Stale g weights s₁ scanned) (hok : s.Ok g src) (hweights : ∀ e, 0 ≤ weights e)
    (hu : s₁.infinite u = true) {es : List ℕ}
    (hes : ∀ e ∈ es, e ∈ g.outEdges u ∧ s₁.infinite (g.target e) = false) :
    (es.foldl (Tools.relax g weights u) s).Stale g weights s₁ fun e => scanned e ∨ e ∈ es := by
  induction es generalizing s scanned with
  | nil => simpa using h
  | cons e es ih =>
    obtain ⟨he, htarget⟩ := hes e List.mem_cons_self
    have hall := ih (h.relax hok hu he htarget) (hok.relax (hweights e) u)
      fun e' he' => hes e' (List.mem_cons_of_mem e he')
    simpa [or_assoc] using hall

/-- **A vertex that is not reached is taken.** -/
theorem SPState.Stale.takeVertex {s₁ : SPState} (h : s.Stale g weights s₁ (s.Scanned g))
    (hok : s.Ok g src) (hweights : ∀ e, 0 ≤ weights e)
    (hinto : ∀ e < g.myEdges.length, s₁.infinite (g.source e) = true →
      s₁.infinite (g.target e) = false) (hne : s.heap ≠ []) :
    (takeVertex g weights s).Stale g weights s₁ ((takeVertex g weights s).Scanned g) := by
  obtain ⟨u, hu⟩ := SPState.exists_pop hne
  have hinf := h.late u (SPState.pop_spec hu).1
  have hheap : (Tools.takeVertex g weights s).heap = s.heap.erase u := by
    rw [takeVertex_of_pop hu]
    exact heap_foldl_relax _ _ _
  have h' : SPState.Stale g weights { s with heap := s.heap.erase u } s₁ (s.Scanned g) :=
    ⟨fun v hv => h.late v (List.mem_of_mem_erase hv), h.infinite, h.le, h.pred, h.pred_of_lt,
      h.relaxed⟩
  have hall := h'.relaxAll (hok.withHeap _) hweights hinf fun e he => by
    obtain ⟨hlt, hsource⟩ := mem_outEdges.mp he
    exact ⟨he, hinto e hlt (hsource ▸ hinf)⟩
  rw [takeVertex_of_pop hu] at hheap ⊢
  refine ⟨hall.late, hall.infinite, hall.le, hall.pred, hall.pred_of_lt, fun e he => ?_⟩
  obtain ⟨hlt, hnot⟩ := he
  apply hall.relaxed e
  rw [hheap] at hnot
  by_cases heq : g.source e = u
  · exact Or.inr (mem_outEdges.mpr ⟨hlt, heq⟩)
  · exact Or.inl ⟨hlt, fun hin => hnot ((List.mem_erase_of_ne heq).mpr hin)⟩

/-! ## All vertices -/

theorem SPState.front_init (hg : g.Built) (hsrc : src < g.myVertices.length) :
    (SPState.init g src).Front g weights src ((SPState.init g src).Scanned g) := by
  have hpopped : ∀ v < g.myVertices.length, v ∈ (SPState.init g src).heap :=
    fun v hv => List.mem_range.mpr hv
  refine ⟨fun v hv => List.mem_range.mp hv, fun v hv => ?_, fun v e he => ?_,
    fun v hv hnot => absurd (hpopped v hv) hnot,
    fun e he => absurd (hpopped _ (GraphData.source_lt hg he.1)) he.2⟩
  · have heq : v = src := by
      by_contra hne
      simp [init, Function.update_of_ne hne] at hv
    subst heq
    exact ⟨[], .root⟩
  · simp [init] at he

/-- What has become of the vertices when a number of them has been taken: all of them were reached,
or the reached ones have been settled before. -/
def SPState.Phase (g : GraphData D) (weights : ℕ → ℤ) (src : ℕ) (s : SPState) : Prop :=
  s.Front g weights src (s.Scanned g) ∨
    ∃ s₁ : SPState, s₁.Settled g weights src ∧ s.Stale g weights s₁ (s.Scanned g)

theorem SPState.Front.stale (hfront : s.Front g weights src (s.Scanned g)) (hok : s.Ok g src)
    (hdone : ∀ x ∈ s.heap, s.infinite x = true) (hg : g.Built) :
    s.Settled g weights src ∧ s.Stale g weights s (s.Scanned g) := by
  refine ⟨hfront.settled hok hdone, SPState.stale_start g weights hdone fun e he => ?_⟩
  exact (hfront.popped _ (GraphData.source_lt hg he.1) he.2).1

theorem SPState.Phase.run (hphase : s.Phase g weights src) (h : s.Inv g src) (hg : g.Built)
    (hweights : ∀ e, 0 ≤ weights e)
    (hinto : ∀ e < g.myEdges.length, ¬ g.digraph.Reaches src (g.source e) →
      g.digraph.Reaches src (g.target e)) {n : ℕ} (hn : s.heap.length = n) :
    ∃ s₁ : SPState, s₁.Settled g weights src ∧
      ((Tools.takeVertex g weights)^[n] s).Stale g weights s₁ fun e => e < g.myEdges.length := by
  have hinto' : ∀ s₁ : SPState, s₁.Settled g weights src → ∀ e < g.myEdges.length,
      s₁.infinite (g.source e) = true → s₁.infinite (g.target e) = false := by
    intro s₁ hsettled e he hinf
    rw [hsettled.reached]
    refine hinto e he fun hreach => ?_
    rw [(hsettled.reached _).mpr hreach] at hinf
    cases hinf
  induction n generalizing s with
  | zero =>
    have hnil := List.length_eq_zero_iff.mp hn
    have hscanned : s.Scanned g = fun e => e < g.myEdges.length := by
      funext e
      simp [Scanned, hnil]
    rcases hphase with hfront | hstale
    · have hlate := hfront.stale h.toOk (by simp [hnil]) hg
      rw [hscanned] at hlate
      exact ⟨s, hlate⟩
    · rwa [hscanned] at hstale
  | succ n ih =>
    have hne := List.ne_nil_of_length_eq_add_one hn
    obtain ⟨hinv, hlen⟩ := h.takeVertex hweights hne
    refine ih ?_ hinv (by omega)
    rcases hphase with hfront | ⟨s₁, hsettled, hstale⟩
    · by_cases hreached : ∃ x ∈ s.heap, s.infinite x = false
      · exact Or.inl (hfront.takeVertex h.nodup hg hweights hreached)
      · -- from here on, only vertices are taken that are not reached
        have hdone : ∀ x ∈ s.heap, s.infinite x = true := by
          intro x hx
          by_contra hnot
          exact hreached ⟨x, hx, by simpa using hnot⟩
        obtain ⟨hsettled, hstale⟩ := hfront.stale h.toOk hdone hg
        exact Or.inr ⟨s, hsettled,
          hstale.takeVertex h.toOk hweights (hinto' s hsettled) hne⟩
    · exact Or.inr ⟨s₁, hsettled, hstale.takeVertex h.toOk hweights (hinto' s₁ hsettled) hne⟩

/-- **The vectors in the end**, if no edge leads to a vertex that is not reached. -/
theorem exists_settled (hg : g.Built) (hweights : ∀ e, 0 ≤ weights e)
    (hsrc : src < g.myVertices.length)
    (hinto : ∀ e < g.myEdges.length, ¬ g.digraph.Reaches src (g.source e) →
      g.digraph.Reaches src (g.target e)) :
    ∃ s₁ s : SPState, s₁.Settled g weights src ∧ s.pred = shortestPaths g weights src ∧
      s.Stale g weights s₁ fun e => e < g.myEdges.length := by
  obtain ⟨s₁, hsettled, hstale⟩ := SPState.Phase.run (Or.inl (SPState.front_init hg hsrc))
    (SPState.inv_init hg src) hg hweights hinto List.length_range
  exact ⟨s₁, _, hsettled, rfl, hstale⟩

/-! ## When the paths are found -/

theorem shortestPaths_source (hg : g.Built) (hweights : ∀ e, 0 ≤ weights e) (src : ℕ) :
    shortestPaths g weights src src = none := by
  by_contra hne
  exact ((isSome_shortestPaths_iff hg hweights).mp (Option.isSome_iff_ne_none.mpr hne)).1 rfl

theorem nothingStale_of_finds (hg : g.Built) (hweights : ∀ e, 0 ≤ weights e)
    (hsrc : src < g.myVertices.length) (h : FindsShortestPaths g weights src) :
    NothingStale g weights src := by
  have hinto : ∀ e < g.myEdges.length, ¬ g.digraph.Reaches src (g.source e) →
      g.digraph.Reaches src (g.target e) := by
    intro e he hsource
    by_contra htarget
    have hne : g.target e ≠ src := by
      intro heq
      rw [heq] at htarget
      exact htarget (Multidigraph.Reaches.refl src)
    have hsome : (shortestPaths g weights src (g.target e)).isSome :=
      (isSome_shortestPaths_iff hg hweights).mpr ⟨hne, e, he, rfl⟩
    rw [h.nil _ htarget] at hsome
    cases hsome
  obtain ⟨s₁, s, hsettled, hpred, hstale⟩ := exists_settled hg hweights hsrc hinto
  intro e he hsource
  have hreach := hinto e he hsource
  obtain ⟨es, -, hshortest, hd⟩ := hsettled.shortest _ hreach
  refine ⟨es, hshortest.1, ?_⟩
  by_contra hlt
  have hinf : s₁.infinite (g.source e) = true := by
    by_contra hnot
    exact hsource ((hsettled.reached _).mp (by simpa using hnot))
  have hle := hstale.relaxed e he hinf
  -- the distance has become too small, so the predecessor comes from outside
  obtain ⟨e', hpred', hinf'⟩ := hstale.pred_of_lt _ ((hsettled.reached _).mpr hreach) (by omega)
  obtain ⟨fs, hback, hwalk, -⟩ := h.back _ hreach
  rw [← hpred] at hback
  have hne : g.target e ≠ src := by
    intro heq
    have hnone : s.pred src = none := by
      rw [hpred]
      exact shortestPaths_source hg hweights src
    rw [heq, hnone] at hpred'
    cases hpred'
  obtain ⟨e'', gs, hpred'', rfl, -⟩ := hback.cases_of_ne hne
  obtain rfl : e' = e'' := Option.some.inj (hpred'.symm.trans hpred'')
  have hfrom : g.digraph.Reaches src (g.source e') := ⟨gs, (Multidigraph.isWalk_concat.mp hwalk).1⟩
  rw [(hsettled.reached _).mpr hfrom] at hinf'
  cases hinf'

theorem finds_of_nothingStale (hg : g.Built) (hweights : ∀ e, 0 ≤ weights e)
    (hsrc : src < g.myVertices.length) (h : NothingStale g weights src) :
    FindsShortestPaths g weights src := by
  have hinto : ∀ e < g.myEdges.length, ¬ g.digraph.Reaches src (g.source e) →
      g.digraph.Reaches src (g.target e) := by
    intro e he hsource
    obtain ⟨es, hes, -⟩ := h e he hsource
    exact ⟨es, hes⟩
  obtain ⟨s₁, s, hsettled, hpred, hstale⟩ := exists_settled hg hweights hsrc hinto
  have hsame : ∀ v ∈ {v | g.digraph.Reaches src v}, shortestPaths g weights src v = s₁.pred v := by
    intro v hv
    rw [← hpred]
    refine (hstale.pred v ((hsettled.reached v).mpr hv)).resolve_right ?_
    rintro ⟨e, he, -, rfl, hinf, hlt⟩
    have hsource : ¬ g.digraph.Reaches src (g.source e) := by
      intro hreach
      rw [(hsettled.reached _).mpr hreach] at hinf
      cases hinf
    obtain ⟨fs, hfs, hle⟩ := h e he hsource
    obtain ⟨es, -, hshortest, hd⟩ := hsettled.shortest _ hv
    have hmin := hshortest.2 fs hfs
    omega
  have hclosed : ∀ v ∈ {v | g.digraph.Reaches src v}, ∀ e, s₁.pred v = some e →
      g.digraph.source e ∈ {v | g.digraph.Reaches src v} := by
    intro v hv e he
    have hne : v ≠ src := by
      rintro rfl
      rw [hsettled.pred_source] at he
      cases he
    obtain ⟨es, hback, hshortest, -⟩ := hsettled.shortest v hv
    obtain ⟨e', fs, hpred', rfl, -⟩ := hback.cases_of_ne hne
    obtain rfl : e = e' := Option.some.inj (he.symm.trans hpred')
    exact ⟨fs, (Multidigraph.isWalk_concat.mp hshortest.1).1⟩
  refine ⟨fun v hv => ?_, fun v hv => ?_⟩
  · obtain ⟨es, hback, hshortest, -⟩ := hsettled.shortest v hv
    exact ⟨es, hback.congr hsame hclosed hv, hshortest⟩
  · rw [← Option.not_isSome_iff_eq_none, isSome_shortestPaths_iff hg hweights]
    rintro ⟨-, e, he, rfl⟩
    by_cases hsource : g.digraph.Reaches src (g.source e)
    · exact hv (hsource.concat he)
    · exact hv (hinto e he hsource)

/-- The loop of `routes` follows the predecessors to the source, and no further. -/
theorem walkBack_of_back {pred : ℕ → Option ℕ} (hsrc : pred src = none) {v : ℕ} {es : List ℕ}
    (h : g.digraph.Back pred src v es) {fuel : ℕ} (hfuel : es.length ≤ fuel) :
    walkBack g pred fuel (pred v) = some es.reverse := by
  induction h generalizing fuel with
  | root =>
    rw [hsrc, walkBack]
    rfl
  | @step v e es hpred hes ih =>
    rw [List.length_append, List.length_singleton] at hfuel
    obtain ⟨k, rfl⟩ : ∃ k, fuel = k + 1 := ⟨fuel - 1, by omega⟩
    have hrest : walkBack g pred k (pred (g.source e)) = some es.reverse := ih (by omega)
    rw [hpred, walkBack, hrest, List.reverse_append]
    rfl

theorem prints_of_finds (hg : g.Built) (h : FindsShortestPaths g (fun _ => 1) src) :
    PrintsShortestPaths g src := by
  intro dst hdst
  have hsome : (predFrom g src dst).isSome := by
    have hmem := (List.mem_filter.mp hdst).2
    rw [Bool.and_eq_true] at hmem
    exact hmem.2
  have hreach : g.digraph.Reaches src dst := by
    by_contra hnot
    unfold predFrom at hsome
    rw [h.nil dst hnot] at hsome
    cases hsome
  have hnone : predFrom g src src = none := shortestPaths_source hg (fun _ => zero_le_one) src
  obtain ⟨es, hback, hshortest⟩ := h.back dst hreach
  refine ⟨es, hshortest, fun fuel hfuel => ?_⟩
  unfold routeTo
  rw [walkBack_of_back hnone hback hfuel, Option.map_some, List.reverse_reverse]

end

/-- **`shortest_paths` is right exactly if** no edge from a vertex that is not reached is shorter
than the way to its target; then `routes` prints shortest paths from the source. -/
theorem shortestPaths_correct_iff (g : MNGraph D) (weights : ℕ → ℕ)
    (src : Fin g.myVertices.length) :
    (FindsShortestPaths g.toGraphData (fun e => weights e) src ∧
      (weights = (fun _ => 1) → PrintsShortestPaths g.toGraphData src)) ↔
    NothingStale g.toGraphData (fun e => weights e) src := by
  have hweights : ∀ e, (0 : ℤ) ≤ weights e := fun e => Int.natCast_nonneg _
  constructor
  · rintro ⟨h, -⟩
    exact nothingStale_of_finds g.built hweights src.isLt h
  · intro h
    have hfinds := finds_of_nothingStale g.built hweights src.isLt h
    refine ⟨hfinds, fun hones => prints_of_finds g.built ?_⟩
    subst hones
    exact hfinds

/-- A topology with a node that no edge leads to, next to the path from the first node. -/
def besidePath : MNGraph ℕ where
  myVertices := [∅, ∅, ∅, ∅]
  myEdges := [⟨0, 1, ∅⟩, ⟨1, 2, ∅⟩, ⟨3, 2, ∅⟩]
  mySpecs := ∅
  built := by
    refine ⟨?_, ?_, by decide, by decide⟩ <;> decide

/-- The route to vertex 2 is said to be the edge from vertex 3. -/
theorem not_findsShortestPaths_besidePath :
    ¬ FindsShortestPaths besidePath.toGraphData (fun _ => 1) 0 := by
  intro h
  have hedge : ∀ e < 3, e ∈ besidePath.toGraphData.digraph.edges := fun e he => he
  have hreach : besidePath.toGraphData.digraph.Reaches 0 2 :=
    ⟨[0, 1], hedge 0 (by decide), rfl, hedge 1 (by decide), rfl, rfl⟩
  obtain ⟨es, hback, -⟩ := h.back 2 hreach
  obtain ⟨e, fs, hpred, -, hrest⟩ := hback.cases_of_ne (by decide)
  have hlast : shortestPaths besidePath.toGraphData (fun _ => 1) 0 2 = some 2 := by decide
  obtain rfl : 2 = e := Option.some.inj (hlast.symm.trans hpred)
  obtain ⟨e, fs, hpred, -, -⟩ := hrest.cases_of_ne (by decide)
  have hnone : shortestPaths besidePath.toGraphData (fun _ => 1) 0 3 = none := by decide
  exact absurd (hnone.symm.trans hpred) (by simp)

end Modelnet.Tools

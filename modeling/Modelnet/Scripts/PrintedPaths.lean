import Modelnet.Lib.Walks
import Modelnet.Scripts.Allpairs

/-!
# What `allpairs` prints

With the distances and predecessors that the graph library promises, `allpairs` prints a path for
each pair of virtual nodes one of which is reached from the other, and no other path. The hops are a
shortest path: the loop over the positions and the walk back come to their ends together, because
the distance of the node is the number of the positions that are left.
-/

namespace Modelnet.Scripts

/-- The graph that `allpairs` keeps: all edges of the file. -/
def Topology.digraph (t : Topology) : Multidigraph ℕ Edge where
  edges := {e | e ∈ t.edges}
  source := Edge.src
  target := Edge.dst

/-- A path with as few hops as any other one. -/
def Topology.IsShortest (t : Topology) (v : ℕ) (hops : List Edge) (u : ℕ) : Prop :=
  t.digraph.IsWalk v hops u ∧ ∀ es, t.digraph.IsWalk v es u → hops.length ≤ es.length

/-- What the graph library says: the distances are the least numbers of hops, all below the one of
the vertices that are not reached, and the predecessor is a vertex one hop nearer. -/
structure ShortestPaths.Exact (t : Topology) (sp : ShortestPaths) : Prop where
  reached : ∀ v u, t.digraph.Reaches v u → sp.dist v u < unreachable ∧
    ∃ hops, t.IsShortest v hops u ∧ hops.length = sp.dist v u
  unreached : ∀ v u, ¬ t.digraph.Reaches v u → sp.dist v u = unreachable
  pred : ∀ v u, u ≠ v → t.digraph.Reaches v u → t.digraph.Reaches v (sp.pred v u) ∧
    sp.dist v (sp.pred v u) + 1 = sp.dist v u ∧ ∃ e ∈ t.edges, e.src = sp.pred v u ∧ e.dst = u

open Classical in
/-- The pairs of different virtual nodes with a path from the first one to the second one, in the
order of the loops. -/
noncomputable def Topology.reachedPairs (t : Topology) : List (ℕ × ℕ) :=
  (List.range t.vertices.length).flatMap fun v =>
    ((List.range t.vertices.length).filter fun u => IsVirtnode t.vertices v ∧
      IsVirtnode t.vertices u ∧ v ≠ u ∧ t.digraph.Reaches v u).map fun u => (v, u)

variable {t : Topology} {sp : ShortestPaths} {u v : ℕ}

theorem outEdge_eq_some {x y : ℕ} (h : ∃ e ∈ t.edges, e.src = x ∧ e.dst = y) :
    ∃ e ∈ t.edges, outEdge t x y = some e ∧ e.src = x ∧ e.dst = y := by
  obtain ⟨e, he, hends⟩ := h
  obtain ⟨e', he'⟩ : ∃ e', outEdge t x y = some e' :=
    Option.isSome_iff_exists.mp (List.find?_isSome.mpr ⟨e, he, by simpa using hends⟩)
  have hends' := List.find?_some he'
  exact ⟨e', List.mem_of_find?_eq_some he', he', by simpa using hends'⟩

namespace ShortestPaths.Exact

variable (h : sp.Exact t)

include h

theorem dist_eq_zero_iff (hreach : t.digraph.Reaches v u) : sp.dist v u = 0 ↔ u = v := by
  obtain ⟨-, hops, ⟨hwalk, hmin⟩, hlen⟩ := h.reached v u hreach
  constructor
  · intro hzero
    rw [hzero] at hlen
    rw [List.length_eq_zero_iff.mp hlen] at hwalk
    exact hwalk.symm
  · rintro rfl
    have hle := hmin [] rfl
    simpa [hlen] using hle

/-- **The loop over the hops** fills every position: while `n` of them are left, the node is `n` hops
away from the source. -/
theorem hopsBack_eq {n : ℕ} (hreach : t.digraph.Reaches v u) (hn : sp.dist v u = n) :
    ∃ hops : List Edge, hopsBack t (sp.pred v) n u = hops.map some ∧
      t.digraph.IsWalk v hops u ∧ hops.length = n := by
  induction n generalizing u with
  | zero =>
    obtain rfl := (h.dist_eq_zero_iff hreach).mp hn
    exact ⟨[], rfl, rfl, rfl⟩
  | succ n ih =>
    have hne : u ≠ v := by
      rintro rfl
      rw [(h.dist_eq_zero_iff hreach).mpr rfl] at hn
      cases hn
    obtain ⟨hpred, hdist, hedge⟩ := h.pred v u hne hreach
    obtain ⟨hops, heq, hwalk, hlen⟩ := ih hpred (by omega)
    obtain ⟨e, he, hout, hsrc, hdst⟩ := outEdge_eq_some hedge
    refine ⟨hops ++ [e], ?_, ?_, by simp [hlen]⟩
    · rw [hopsBack, heq, hout]
      simp
    · apply Multidigraph.isWalk_concat.mpr
      refine ⟨?_, he, hdst⟩
      show t.digraph.IsWalk v hops e.src
      rwa [hsrc]

/-- The body of the loop over the targets, for a pair of virtual nodes. -/
theorem routeTo_eq (hu : IsVirtnode t.vertices u) (hne : v ≠ u) (hreach : t.digraph.Reaches v u) :
    ∃ hops : List Edge, t.IsShortest v hops u ∧ hops.length = sp.dist v u ∧
      routeTo t sp v u = some ⟨vnOf t.vertices u, vnOf t.vertices v, hops.map some⟩ := by
  obtain ⟨hnear, best, ⟨-, hmin⟩, hbest⟩ := h.reached v u hreach
  obtain ⟨hops, heq, hwalk, hlen⟩ := h.hopsBack_eq hreach rfl
  have hpos : sp.dist v u ≠ 0 := fun hzero => hne ((h.dist_eq_zero_iff hreach).mp hzero).symm
  refine ⟨hops, ⟨hwalk, fun es hes => ?_⟩, hlen, ?_⟩
  · rw [hlen, ← hbest]
    exact hmin es hes
  · rw [routeTo, if_neg hpos, if_neg (not_not.mpr hu), if_neg hnear.ne, heq]

/-- **`allpairs` prints real shortest paths**, one for each pair that is reached. -/
theorem allpairs_eq : ∃ hops : ℕ → ℕ → List Edge,
    (∀ p ∈ t.reachedPairs, t.IsShortest p.1 (hops p.1 p.2) p.2 ∧
      (hops p.1 p.2).length = sp.dist p.1 p.2) ∧
    allpairs t sp = t.reachedPairs.map fun p =>
      ⟨vnOf t.vertices p.2, vnOf t.vertices p.1, (hops p.1 p.2).map some⟩ := by
  classical
  have hroute : ∀ v u, ∃ hops : List Edge, IsVirtnode t.vertices u → v ≠ u →
      t.digraph.Reaches v u → t.IsShortest v hops u ∧ hops.length = sp.dist v u ∧
        routeTo t sp v u = some ⟨vnOf t.vertices u, vnOf t.vertices v, hops.map some⟩ := by
    intro v u
    by_cases hpair : IsVirtnode t.vertices u ∧ v ≠ u ∧ t.digraph.Reaches v u
    · obtain ⟨hops, hall⟩ := h.routeTo_eq hpair.1 hpair.2.1 hpair.2.2
      exact ⟨hops, fun _ _ _ => hall⟩
    · exact ⟨[], fun hu hne hreach => absurd ⟨hu, hne, hreach⟩ hpair⟩
  choose hops hhops using hroute
  refine ⟨hops, fun p hp => ?_, ?_⟩
  · obtain ⟨v, -, hp⟩ := List.mem_flatMap.mp hp
    obtain ⟨u, hu, rfl⟩ := List.mem_map.mp hp
    obtain ⟨-, hu, hne, hreach⟩ := of_decide_eq_true (List.mem_filter.mp hu).2
    obtain ⟨hshort, hlen, -⟩ := hhops v u hu hne hreach
    exact ⟨hshort, hlen⟩
  · unfold allpairs Topology.reachedPairs
    rw [List.map_flatMap]
    apply List.flatMap_congr
    intro v _
    rw [List.map_map, ← List.filterMap_eq_map, List.filterMap_filter]
    unfold allPairRoute
    by_cases hv : IsVirtnode t.vertices v
    · rw [if_pos hv]
      apply List.filterMap_congr
      intro u _
      by_cases hpair : IsVirtnode t.vertices u ∧ v ≠ u ∧ t.digraph.Reaches v u
      · obtain ⟨-, -, hrouteTo⟩ := hhops v u hpair.1 hpair.2.1 hpair.2.2
        rw [if_pos (decide_eq_true ⟨hv, hpair⟩), hrouteTo]
        rfl
      · rw [if_neg (by simpa using fun _ => hpair), routeTo]
        split_ifs with hzero hu hfar
        · rfl
        · rfl
        · refine absurd ⟨hu, ?_, ?_⟩ hpair
          · rintro rfl
            exact hzero ((h.dist_eq_zero_iff (Multidigraph.Reaches.refl v)).mpr rfl)
          · by_contra hnot
            exact hfar (h.unreached v u hnot)
        · rfl
    · rw [if_neg hv]
      symm
      apply List.filterMap_eq_nil_iff.mpr
      intro u _
      rw [if_neg (by simp [hv])]

end ShortestPaths.Exact

/-! ## Two nodes -/

theorem exists_edge_twoNodes (hne : v ≠ u) (hv : v ≤ 1) (hu : u ≤ 1) :
    ∃ e ∈ twoNodes.edges, e.src = v ∧ e.dst = u := by
  have hcase : v = 0 ∧ u = 1 ∨ v = 1 ∧ u = 0 := by omega
  rcases hcase with ⟨rfl, rfl⟩ | ⟨rfl, rfl⟩
  · exact ⟨⟨1, 0, 1, "client-client", .none⟩, by decide, rfl, rfl⟩
  · exact ⟨⟨0, 1, 0, "client-client", .none⟩, by decide, rfl, rfl⟩

theorem reaches_twoNodes : twoNodes.digraph.Reaches v u ↔ v = u ∨ v ≤ 1 ∧ u ≤ 1 := by
  have hends : ∀ e ∈ twoNodes.edges, e.src ≤ 1 ∧ e.dst ≤ 1 := by decide
  constructor
  · intro h
    have hclosed : u ∈ {x | v = x ∨ v ≤ 1 ∧ x ≤ 1} := by
      refine h.mem_of_closed (fun e he hsource => ?_) (Or.inl rfl)
      obtain ⟨hsrc, hdst⟩ := hends e he
      rcases hsource with heq | ⟨hv, -⟩
      · exact Or.inr ⟨heq ▸ hsrc, hdst⟩
      · exact Or.inr ⟨hv, hdst⟩
    exact hclosed
  · intro h
    by_cases heq : v = u
    · exact heq ▸ Multidigraph.Reaches.refl v
    · obtain ⟨hv, hu⟩ := h.resolve_left heq
      obtain ⟨e, he, hsrc, hdst⟩ := exists_edge_twoNodes heq hv hu
      exact ⟨[e], he, hsrc, hdst⟩

theorem twoPaths_exact : twoPaths.Exact twoNodes where
  reached v u h := by
    by_cases heq : v = u
    · have hdist : twoPaths.dist v u = 0 := if_pos heq
      rw [hdist]
      exact ⟨by decide, [], ⟨heq, fun es _ => Nat.zero_le _⟩, rfl⟩
    · obtain ⟨hv, hu⟩ := (reaches_twoNodes.mp h).resolve_left heq
      obtain ⟨e, he, hsrc, hdst⟩ := exists_edge_twoNodes heq hv hu
      have hdist : twoPaths.dist v u = 1 := (if_neg heq).trans (if_pos ⟨hv, hu⟩)
      rw [hdist]
      refine ⟨by decide, [e], ⟨⟨he, hsrc, hdst⟩, fun es hes => ?_⟩, rfl⟩
      cases es with
      | nil => exact absurd hes heq
      | cons e' es => simp
  unreached v u h := by
    rw [reaches_twoNodes, not_or] at h
    exact (if_neg h.1).trans (if_neg h.2)
  pred v u hne h := by
    obtain ⟨hv, hu⟩ := (reaches_twoNodes.mp h).resolve_left hne.symm
    have hdist : twoPaths.dist v u = 1 := (if_neg hne.symm).trans (if_pos ⟨hv, hu⟩)
    refine ⟨Multidigraph.Reaches.refl v, ?_, exists_edge_twoNodes hne.symm hv hu⟩
    have hself : twoPaths.dist v v = 0 := if_pos rfl
    show twoPaths.dist v v + 1 = _
    rw [hself, hdist]

/-- The paths between two nodes. -/
theorem allpairs_eq_twoNodes : ∃ hops : ℕ → ℕ → List Edge,
    (∀ p ∈ twoNodes.reachedPairs, twoNodes.IsShortest p.1 (hops p.1 p.2) p.2 ∧
      (hops p.1 p.2).length = twoPaths.dist p.1 p.2) ∧
    allpairs twoNodes twoPaths = twoNodes.reachedPairs.map fun p =>
      ⟨vnOf twoNodes.vertices p.2, vnOf twoNodes.vertices p.1, (hops p.1 p.2).map some⟩ :=
  twoPaths_exact.allpairs_eq

end Modelnet.Scripts

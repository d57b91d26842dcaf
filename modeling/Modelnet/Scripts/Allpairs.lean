import Mathlib.Logic.Function.Iterate
import Modelnet.Scripts.FirstHop

/-!
# `allpairs`

`allpairs` reads the same topology file as `mkmodel`, but into a graph that keeps parallel edges, and
prints a path for each pair of virtual nodes. It walks back along the tree of
`dijkstra_shortest_paths` (a function of the graph library, here `ShortestPaths`) and takes the first
edge from each vertex to the next one; `mkmodel` keeps the last one. So a route uses hops that are
modelled as far as the file has no second edge there, or the two count as the same hop
(`routesModelled_iff`).
-/

namespace Modelnet.Scripts

/-! ## The routes -/

/-- What `dijkstra_shortest_paths` finds from each vertex, where every edge has weight 1. -/
structure ShortestPaths where
  pred : ℕ → ℕ → ℕ
  dist : ℕ → ℕ → ℕ

/-- The distance of a vertex that is not reached. -/
def unreachable : ℕ := 0x7fffffff

/-- What the graph library says about them. -/
structure ShortestPaths.Correct (t : Topology) (sp : ShortestPaths) : Prop where
  source : ∀ v, sp.dist v v = 0
  edge : ∀ v, ∀ e ∈ t.edges, sp.dist v e.src < unreachable →
    sp.dist v e.dst ≤ sp.dist v e.src + 1
  pred : ∀ v u, 0 < sp.dist v u → sp.dist v u < unreachable →
    sp.dist v (sp.pred v u) + 1 = sp.dist v u ∧ ∃ e ∈ t.edges, e.src = sp.pred v u ∧ e.dst = u

/-- The first of the `out_edges` of a vertex with the target. -/
def outEdge (t : Topology) (src dst : ℕ) : Option Edge :=
  t.edges.find? fun e => e.src = src ∧ e.dst = dst

/-- The loop over the hops of a path, from its end; `i` of them are left. -/
def hopsBack (t : Topology) (pred : ℕ → ℕ) : ℕ → ℕ → List (Option Edge)
  | 0, _ => []
  | i + 1, node => hopsBack t pred i (pred node) ++ [outEdge t (pred node) node]

/-- A `path` element; of the hops, the indices are printed. -/
structure RoutePath where
  vndst : ℕ
  vnsrc : ℕ
  hops : List (Option Edge)

/-- The body of the loop over the targets. -/
def routeTo (t : Topology) (sp : ShortestPaths) (v u : ℕ) : Option RoutePath :=
  if sp.dist v u = 0 then none
  else if ¬ IsVirtnode t.vertices u then none
  else if sp.dist v u = unreachable then none
  else some ⟨vnOf t.vertices u, vnOf t.vertices v, hopsBack t (sp.pred v) (sp.dist v u) u⟩

def allPairRoute (t : Topology) (sp : ShortestPaths) (v : ℕ) : List RoutePath :=
  if IsVirtnode t.vertices v then (List.range t.vertices.length).filterMap (routeTo t sp v) else []

def allpairs (t : Topology) (sp : ShortestPaths) : List RoutePath :=
  (List.range t.vertices.length).flatMap (allPairRoute t sp)

/-- A route goes from `x` to `y`. -/
def RouteStep (t : Topology) (sp : ShortestPaths) (x y : ℕ) : Prop :=
  ∃ v u i, IsVirtnode t.vertices v ∧ IsVirtnode t.vertices u ∧ sp.dist v u ≠ unreachable ∧
    i < sp.dist v u ∧ x = (sp.pred v)^[i + 1] u ∧ y = (sp.pred v)^[i] u

theorem mem_hopsBack {t : Topology} {pred : ℕ → ℕ} {n node : ℕ} {e : Option Edge} :
    e ∈ hopsBack t pred n node ↔ ∃ i, i < n ∧ e = outEdge t (pred^[i + 1] node) (pred^[i] node) := by
  induction n generalizing node with
  | zero => simp [hopsBack]
  | succ n ih =>
    rw [hopsBack, List.mem_append, ih, List.mem_singleton]
    constructor
    · rintro (⟨i, hi, rfl⟩ | rfl)
      exacts [⟨i + 1, Nat.succ_lt_succ hi, rfl⟩, ⟨0, Nat.succ_pos n, rfl⟩]
    · rintro ⟨i, hi, rfl⟩
      cases i with
      | zero => exact .inr rfl
      | succ i => exact .inl ⟨i, Nat.lt_of_succ_lt_succ hi, rfl⟩

theorem IsVirtnode.lt {vertices : List Vertex} {v : ℕ} (h : IsVirtnode vertices v) :
    v < vertices.length := by
  obtain ⟨vertex, hvertex, -⟩ := Option.map_eq_some_iff.mp h
  exact (List.getElem?_eq_some_iff.mp hvertex).1

theorem exists_mem_hops {t : Topology} {sp : ShortestPaths} {e : Edge} :
    (∃ path ∈ allpairs t sp, some e ∈ path.hops) ↔
      ∃ x y, RouteStep t sp x y ∧ outEdge t x y = some e := by
  simp only [allpairs, List.mem_flatMap, List.mem_range, allPairRoute]
  constructor
  · rintro ⟨path, ⟨v, -, hpath⟩, he⟩
    split_ifs at hpath with hv
    · obtain ⟨u, -, hroute⟩ := List.mem_filterMap.mp hpath
      unfold routeTo at hroute
      split_ifs at hroute with h0 hu hfar
      cases hroute
      obtain ⟨i, hi, hedge⟩ := mem_hopsBack.mp he
      exact ⟨_, _, ⟨v, u, i, hv, hu, hfar, hi, rfl, rfl⟩, hedge.symm⟩
    · cases hpath
  · rintro ⟨x, y, ⟨v, u, i, hv, hu, hfar, hi, rfl, rfl⟩, hedge⟩
    refine ⟨⟨vnOf t.vertices u, vnOf t.vertices v, hopsBack t (sp.pred v) (sp.dist v u) u⟩,
      ⟨v, hv.lt, ?_⟩, mem_hopsBack.mpr ⟨i, hi, hedge.symm⟩⟩
    rw [if_pos hv]
    refine List.mem_filterMap.mpr ⟨u, List.mem_range.mpr hu.lt, ?_⟩
    rw [routeTo, if_neg (Nat.ne_zero_of_lt hi), if_neg (not_not.mpr hu), if_neg hfar]

/-! ## The hops of the model -/

/-- The last edge of the file from a vertex to another one. -/
def lastEdge (t : Topology) (src dst : ℕ) : Option Edge :=
  t.edges.reverse.find? fun e => e.src = src ∧ e.dst = dst

/-- The edge is the last one of the file between its ends. -/
def Kept (t : Topology) (e : Edge) : Prop := lastEdge t e.src e.dst = some e

instance (t : Topology) (e : Edge) : Decidable (Kept t e) := inferInstanceAs (Decidable (_ = _))

theorem foldlM_addEdge_eq {nodes : ℕ → Option ℕ} {edges : List Edge}
    {hash hash' : ℕ × ℕ → Option Edge} (h : edges.foldlM (addEdge nodes) hash = some hash')
    (k : ℕ × ℕ) : hash' k =
      (edges.reverse.find? fun e => nodes e.src = some k.1 ∧ nodes e.dst = some k.2).or (hash k) := by
  induction edges generalizing hash with
  | nil =>
    cases h
    rfl
  | cons edge edges ih =>
    obtain ⟨hash₁, h₁, hrest⟩ := Option.bind_eq_some_iff.mp h
    obtain ⟨src, dst, hsrc, hdst, rfl⟩ := addEdge_eq_some h₁
    rw [ih hrest, List.reverse_cons, List.find?_append, Option.or_assoc]
    congr 1
    by_cases hk : k = (src, dst)
    · subst hk
      simp [hsrc, hdst]
    · have hne : ¬ (src = k.1 ∧ dst = k.2) := fun heq => hk (Prod.ext heq.1.symm heq.2.symm)
      simp [hsrc, hdst, hk, hne]

/-- **The graph of `mkmodel` has the last edges of the file.** -/
theorem kept_iff {t : Topology} {g : Graph} (hg : readxmlgraph t = some g) {e : Edge} :
    Kept t e ↔ ∃ k, g.hash k = some e := by
  obtain ⟨-, hfold⟩ := readxmlgraph_eq_some hg
  have hinj : ∀ {a b v}, nodebyid t.vertices a = some v → nodebyid t.vertices b = some v →
      a = b := by
    intro a b v ha hb
    obtain ⟨vertex, hvertex, rfl⟩ := nodebyid_eq_some ha
    obtain ⟨vertex', hvertex', rfl⟩ := nodebyid_eq_some hb
    rw [hvertex] at hvertex'
    cases hvertex'
    rfl
  have hsame : ∀ {src dst : ℕ} {k : ℕ × ℕ}, nodebyid t.vertices src = some k.1 →
      nodebyid t.vertices dst = some k.2 → g.hash k = lastEdge t src dst := by
    intro src dst k hsrc hdst
    rw [foldlM_addEdge_eq hfold, Option.or_none, lastEdge]
    congr 1
    funext e
    refine decide_eq_decide.mpr ⟨?_, ?_⟩
    · rintro ⟨h₁, h₂⟩
      exact ⟨hinj h₁ hsrc, hinj h₂ hdst⟩
    · rintro ⟨rfl, rfl⟩
      exact ⟨hsrc, hdst⟩
  constructor
  · intro hkept
    have hmem : e ∈ t.edges := List.mem_reverse.mp (List.mem_of_find?_eq_some hkept)
    -- every edge of the file has been read
    obtain ⟨before, after, hsplit⟩ := List.append_of_mem hmem
    rw [hsplit, List.foldlM_append] at hfold
    obtain ⟨hash₁, -, hrest⟩ := Option.bind_eq_some_iff.mp hfold
    obtain ⟨hash₂, h₂, -⟩ := Option.bind_eq_some_iff.mp hrest
    obtain ⟨src, dst, hsrc, hdst, -⟩ := addEdge_eq_some h₂
    exact ⟨(src, dst), (hsame (k := (src, dst)) hsrc hdst).trans hkept⟩
  · rintro ⟨k, hk⟩
    obtain ⟨-, hsrc, hdst⟩ := hash_eq_some hg hk
    exact (hsame hsrc hdst).symm.trans hk

theorem assignHop_hops (fwdcnt : ℕ) (subnetOf : ℕ → Option ℕ) (a : Assignment) (e : ℕ × ℕ)
    (edge : Edge) :
    (assignHop fwdcnt subnetOf a e edge).hops.map ModelHop.edge =
      a.hops.map ModelHop.edge ++ [edge] := by
  unfold assignHop
  extract_lets known fwd a₁ a₂
  simp [a₂, a₁]

theorem map_edge_hops {t : Topology} {g : Graph} {m : Machines} {visits : Visits g} :
    (mkmodel t m visits).hops.map ModelHop.edge = visits.edges.filterMap g.hash := by
  have hloop : ∀ (order : List (ℕ × ℕ)) (a : Assignment),
      (order.foldl (assignEdge g m.emuls.length (filling m visits).subnetOf) a).hops.map
          ModelHop.edge = a.hops.map ModelHop.edge ++ order.filterMap g.hash := by
    intro order
    induction order with
    | nil => simp
    | cons e order ih =>
      intro a
      rw [List.foldl_cons, ih, assignEdge]
      cases hedge : g.hash e with
      | none => rw [List.filterMap_cons_none hedge]
      | some edge =>
        rw [List.filterMap_cons_some hedge]
        simp only [assignHop_hops, List.append_assoc, List.singleton_append]
  exact hloop visits.edges _

/-! ## The hop table -/

/-- The parameters of an edge: its own, and those of its class. -/
def Edge.hopParams (t : Topology) (e : Edge) : HopParams := e.params.orSpecs (t.specs e.specs)

/-- Two sets of parameters that give the same record. -/
def SameRecord (p q : HopParams) : Prop := ∀ owner, p.record owner = q.record owner

theorem sameRecord_of_record_eq {p q : HopParams} {owner owner' : BitVec 32}
    (h : p.record owner = q.record owner') : SameRecord p q := by
  intro o
  simp only [HopParams.record, SysctlHop.mk.injEq, true_and] at h ⊢
  exact ⟨h.1, h.2.1, h.2.2.1, h.2.2.2.1, h.2.2.2.2.2⟩

theorem loadhoptable_record (resolve : String → BitVec 32) (hostname : String) (model : Model)
    (idx : ℕ) : (loadhoptable resolve hostname model).record idx =
      ((model.hops.reverse.find? fun hop => hop.edge.idx = idx).map
        (hopRecord resolve hostname model)).getD zeroRecord := by
  unfold loadhoptable
  generalize model.hops = hops
  induction hops using List.reverseRecOn with
  | nil => rfl
  | append_singleton hops hop ih =>
    rw [List.foldl_append, List.foldl_cons, List.foldl_nil, List.reverse_append,
      List.reverse_singleton, List.singleton_append]
    by_cases hidx : hop.edge.idx = idx
    · subst hidx
      rw [List.find?_cons_of_pos (by simp), HopTable.fill_record_self]
      rfl
    · rw [List.find?_cons_of_neg (by simpa using hidx), HopTable.fill_record_ne _ (Ne.symm hidx)]
      exact ih

/-! ## Routes and hops -/

/-- **Routes only use modelled hops**: in whatever order `mkmodel` visits the edges, the index of
every hop that is printed is that of a hop of the model, and the record that is loaded under it has
the parameters of the edge. -/
def RoutesModelled (t : Topology) (sp : ShortestPaths) (m : Machines) (g : Graph) : Prop :=
  ∀ visits : Visits g, ∀ path ∈ allpairs t sp, ∀ e, some e ∈ path.hops →
    (∃ hop ∈ (mkmodel t m visits).hops, hop.edge.idx = e.idx) ∧
    ∀ resolve hostname, ∃ owner,
      (loadhoptable resolve hostname (mkmodel t m visits)).record e.idx =
        (e.hopParams t).record owner

/-- The edge counts as a hop of the model: an edge that is kept has its index, and every edge that
is kept and has its index has its parameters. -/
def Represented (t : Topology) (e : Edge) : Prop :=
  (∃ e', Kept t e' ∧ e'.idx = e.idx) ∧
    ∀ e', Kept t e' → e'.idx = e.idx → SameRecord (e'.hopParams t) (e.hopParams t)

section Mkmodel

variable {t : Topology} {g : Graph} {m : Machines}

theorem exists_hop_iff (hg : readxmlgraph t = some g) (visits : Visits g) {e : Edge} :
    (∃ hop ∈ (mkmodel t m visits).hops, hop.edge = e) ↔ Kept t e := by
  rw [← List.mem_map, map_edge_hops, kept_iff hg]
  simp only [List.mem_filterMap, visits.mem_edges]
  constructor
  · rintro ⟨k, -, hk⟩
    exact ⟨k, hk⟩
  · rintro ⟨k, hk⟩
    exact ⟨k, Option.isSome_of_eq_some hk, hk⟩

/-- A visit that comes to the edge last. -/
def Visits.withLast (visits : Visits g) (k : ℕ × ℕ) (hk : k ∈ visits.edges) : Visits g where
  vertices := visits.vertices
  vertices_perm := visits.vertices_perm
  edges := visits.edges.erase k ++ [k]
  edges_nodup := by
    have hperm : (visits.edges.erase k ++ [k]).Perm visits.edges :=
      List.perm_append_comm.trans (List.perm_cons_erase hk).symm
    exact hperm.nodup_iff.mpr visits.edges_nodup
  mem_edges := by
    intro e
    have hperm : (visits.edges.erase k ++ [k]).Perm visits.edges :=
      List.perm_append_comm.trans (List.perm_cons_erase hk).symm
    rw [hperm.mem_iff]
    exact visits.mem_edges e

theorem Represented.loaded (hg : readxmlgraph t = some g) (visits : Visits g) {e : Edge}
    (h : Represented t e) (resolve : String → BitVec 32) (hostname : String) :
    ∃ owner, (loadhoptable resolve hostname (mkmodel t m visits)).record e.idx =
      (e.hopParams t).record owner := by
  obtain ⟨e', hkept, hidx⟩ := h.1
  obtain ⟨hop, hmem, hedge⟩ := (exists_hop_iff (m := m) hg visits).mpr hkept
  rw [loadhoptable_record]
  cases hfind : (mkmodel t m visits).hops.reverse.find? fun hop => hop.edge.idx = e.idx with
  | none =>
    have hnone := List.find?_eq_none.mp hfind hop (List.mem_reverse.mpr hmem)
    exact absurd (decide_eq_true (by rw [hedge, hidx])) hnone
  | some last =>
    have hlast : last.edge.idx = e.idx := by simpa using List.find?_some hfind
    have hkeptLast : Kept t last.edge := (exists_hop_iff (m := m) hg visits).mp
      ⟨last, List.mem_reverse.mp (List.mem_of_find?_eq_some hfind), rfl⟩
    exact ⟨_, h.2 last.edge hkeptLast hlast _⟩

theorem represented_of_loaded (hg : readxmlgraph t = some g) {e : Edge}
    (h : ∀ visits : Visits g, (∃ hop ∈ (mkmodel t m visits).hops, hop.edge.idx = e.idx) ∧
      ∀ resolve hostname, ∃ owner,
        (loadhoptable resolve hostname (mkmodel t m visits)).record e.idx =
          (e.hopParams t).record owner) : Represented t e := by
  obtain ⟨visits⟩ := nonempty_visits hg
  refine ⟨?_, ?_⟩
  · obtain ⟨hop, hmem, hidx⟩ := (h visits).1
    exact ⟨hop.edge, (exists_hop_iff (m := m) hg visits).mp ⟨hop, hmem, rfl⟩, hidx⟩
  · intro e' hkept hidx
    obtain ⟨k, hk⟩ := (kept_iff hg).mp hkept
    have hmem : k ∈ visits.edges := (visits.mem_edges k).mpr (Option.isSome_of_eq_some hk)
    -- in the order that comes to `e'` last, its record is the one that is loaded
    obtain ⟨owner, howner⟩ := (h (visits.withLast k hmem)).2 (fun _ => 0) ""
    have hedges : (mkmodel t m (visits.withLast k hmem)).hops.map ModelHop.edge =
        (visits.edges.erase k).filterMap g.hash ++ [e'] := by
      rw [map_edge_hops]
      show (visits.edges.erase k ++ [k]).filterMap g.hash = _
      rw [List.filterMap_append, List.filterMap_cons_some hk, List.filterMap_nil]
    obtain ⟨hops, last, hsplit, -, hlast⟩ := List.map_eq_append_iff.mp hedges
    obtain ⟨hop, rfl, rfl⟩ := List.map_eq_singleton_iff.mp hlast
    rw [loadhoptable_record, hsplit, List.reverse_append, List.reverse_singleton,
      List.singleton_append, List.find?_cons_of_pos (by simpa using hidx)] at howner
    exact sameRecord_of_record_eq howner

/-- **Routes only use modelled hops exactly if** the first edge of the file between two vertices on
a route counts as a hop of the model, where the model has the last ones. -/
theorem routesModelled_iff (hg : readxmlgraph t = some g) (sp : ShortestPaths) (m : Machines) :
    RoutesModelled t sp m g ↔
      ∀ x y, RouteStep t sp x y → ∀ e, outEdge t x y = some e → Represented t e := by
  constructor
  · intro h x y hstep e he
    obtain ⟨path, hpath, hmem⟩ := exists_mem_hops.mpr ⟨x, y, hstep, he⟩
    exact represented_of_loaded (m := m) hg fun visits => h visits path hpath e hmem
  · intro h visits path hpath e hmem
    obtain ⟨x, y, hstep, he⟩ := exists_mem_hops.mp ⟨path, hpath, hmem⟩
    have hrep := h x y hstep e he
    obtain ⟨e', hkept, hidx⟩ := hrep.1
    obtain ⟨hop, hhop, rfl⟩ := (exists_hop_iff (m := m) hg visits).mpr hkept
    exact ⟨⟨hop, hhop, hidx⟩, fun resolve hostname => hrep.loaded hg visits resolve hostname⟩

/-- Where the edges have indices of their own, an edge that is kept counts as a hop. -/
theorem represented_of_kept (hidx : (t.edges.map Edge.idx).Nodup) {e : Edge} (he : Kept t e) :
    Represented t e := by
  have hmem : ∀ {e}, Kept t e → e ∈ t.edges := fun h =>
    List.mem_reverse.mp (List.mem_of_find?_eq_some h)
  refine ⟨⟨e, he, rfl⟩, fun e' hkept hsame => ?_⟩
  rw [List.inj_on_of_nodup_map hidx (hmem hkept) (hmem he) hsame]
  exact fun _ => rfl

end Mkmodel

/-- The shortest paths between two vertices with an edge each way. -/
def twoPaths : ShortestPaths where
  pred := fun v _ => v
  dist := fun v u => if v = u then 0 else if v ≤ 1 ∧ u ≤ 1 then 1 else unreachable

/-- The routes between two nodes without parallel edges. -/
theorem routesModelled_twoNodes :
    RoutesModelled twoNodes twoPaths ⟨["moe", "curly"], ["larry"]⟩ twoNodesGraph := by
  refine (routesModelled_iff readxmlgraph_twoNodes twoPaths _).mpr fun x y _ e he => ?_
  refine represented_of_kept (by decide) ?_
  have hmem : e ∈ twoNodes.edges := List.mem_of_find?_eq_some he
  simp only [twoNodes, List.mem_cons, List.not_mem_nil, or_false] at hmem
  obtain rfl | rfl := hmem <;> rfl

/-- Two nodes with a second edge from the first to the second one. -/
def doubled : Topology :=
  { twoNodes with edges := twoNodes.edges ++ [⟨2, 0, 1, "client-client", .none⟩] }

theorem twoPaths_correct : twoPaths.Correct doubled := by
  refine ⟨fun v => if_pos rfl, ?_, ?_⟩
  · intro v e he hnear
    have hsrc : e.src ≤ 1 ∧ e.dst ≤ 1 := by
      simp only [doubled, twoNodes, List.cons_append, List.nil_append, List.mem_cons,
        List.not_mem_nil, or_false] at he
      obtain rfl | rfl | rfl := he <;> decide
    simp only [twoPaths] at hnear ⊢
    split_ifs at hnear ⊢ <;> omega
  · intro v u hpos hnear
    have hends : v ≠ u ∧ v ≤ 1 ∧ u ≤ 1 := by
      simp only [twoPaths] at hpos hnear
      split_ifs at hpos hnear with heq hle
      · exact absurd hpos (Nat.lt_irrefl 0)
      · exact ⟨heq, hle⟩
      · exact absurd hnear (Nat.lt_irrefl _)
    obtain ⟨hne, hv, hu⟩ := hends
    have hcase : v = 0 ∧ u = 1 ∨ v = 1 ∧ u = 0 := by omega
    obtain ⟨rfl, rfl⟩ | ⟨rfl, rfl⟩ := hcase
    · exact ⟨rfl, ⟨1, 0, 1, "client-client", .none⟩, by decide, rfl, rfl⟩
    · exact ⟨rfl, ⟨0, 1, 0, "client-client", .none⟩, by decide, rfl, rfl⟩

/-- The route takes the first of two parallel edges, the model has the second one. -/
theorem parallel_not_modelled : ¬ ∀ (t : Topology) (g : Graph) (sp : ShortestPaths) (m : Machines),
    readxmlgraph t = some g → sp.Correct t → m.hosts ≠ [] → m.emuls ≠ [] →
    RoutesModelled t sp m g := by
  intro h
  obtain ⟨g, hg⟩ : ∃ g, readxmlgraph doubled = some g := ⟨_, rfl⟩
  have hroutes := h doubled g twoPaths ⟨["moe", "curly"], ["larry"]⟩ hg twoPaths_correct
    (by decide) (by decide)
  have hstep : RouteStep doubled twoPaths 0 1 :=
    ⟨0, 1, 0, rfl, rfl, by decide, by decide, rfl, rfl⟩
  have hrep := (routesModelled_iff hg twoPaths _).mp hroutes 0 1 hstep
    ⟨1, 0, 1, "client-client", .none⟩ rfl
  obtain ⟨e', hkept, hidx⟩ := hrep.1
  -- no edge that is kept has index 1
  have hmem : e' ∈ doubled.edges := List.mem_reverse.mp (List.mem_of_find?_eq_some hkept)
  simp only [doubled, twoNodes, List.cons_append, List.nil_append, List.mem_cons,
    List.not_mem_nil, or_false] at hmem
  obtain rfl | rfl | rfl := hmem
  · exact absurd hidx (by decide)
  · exact absurd hkept (by decide)
  · exact absurd hidx (by decide)

end Modelnet.Scripts

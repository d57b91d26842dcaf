import Mathlib.Data.List.Basic
import Mathlib.Data.List.Dedup
import Mathlib.Data.Rat.Defs
import Mathlib.Logic.Function.Basic

/-!
# Topology files

The topology file that `mkmodel` and `allpairs` read, and what `mkmodel` makes of it: a directed
graph that has at most one edge for two vertices in order, with the attributes that were set last.
A vertex of the graph is the position of its element in the file.
-/

namespace Modelnet.Scripts

/-- The parameters of a hop, as far as they are given. -/
structure HopParams where
  kbps : Option ℚ
  delayms : Option ℤ
  plr : Option ℚ
  qlen : Option ℤ
  xtq : Option ℤ
  deriving DecidableEq

def HopParams.none : HopParams := ⟨.none, .none, .none, .none, .none⟩

structure Vertex where
  idx : ℕ
  role : String
  vn : ℕ

/-- An `edge` element; `specs` names the class whose parameters it has unless it gives its own. -/
structure Edge where
  idx : ℕ
  src : ℕ
  dst : ℕ
  specs : String
  params : HopParams
  deriving DecidableEq

structure Topology where
  vertices : List Vertex
  edges : List Edge
  specs : String → HopParams

/-- The graph of `mkmodel`: the `hash` attribute of each edge. -/
structure Graph where
  vertices : List Vertex
  hash : ℕ × ℕ → Option Edge

/-- The body of the loop of `readxmlgraph` over the vertices. -/
def addVertex (nodes : ℕ → Option ℕ) (v : Vertex × ℕ) : ℕ → Option ℕ :=
  Function.update nodes v.1.idx (some v.2)

/-- `%nodebyid`: the last vertex with the id. -/
def nodebyid (vertices : List Vertex) : ℕ → Option ℕ :=
  vertices.zipIdx.foldl addVertex fun _ => none

/-- The body of the loop of `readxmlgraph` over the edges. An edge that ends nowhere stops
`mkmodel`. -/
def addEdge (nodes : ℕ → Option ℕ) (hash : ℕ × ℕ → Option Edge) (edge : Edge) :
    Option (ℕ × ℕ → Option Edge) :=
  match nodes edge.src, nodes edge.dst with
  | some src, some dst => some (Function.update hash (src, dst) (some edge))
  | _, _ => none

def readxmlgraph (t : Topology) : Option Graph :=
  (t.edges.foldlM (addEdge (nodebyid t.vertices)) fun _ => none).map fun hash => ⟨t.vertices, hash⟩

/-- The orders in which the graph library hands out the vertices and the edges. -/
structure Visits (g : Graph) where
  vertices : List ℕ
  vertices_perm : vertices.Perm (List.range g.vertices.length)
  edges : List (ℕ × ℕ)
  edges_nodup : edges.Nodup
  mem_edges : ∀ e, e ∈ edges ↔ (g.hash e).isSome

/-! ## Reading -/

theorem addEdge_eq_some {nodes : ℕ → Option ℕ} {hash hash' : ℕ × ℕ → Option Edge} {edge : Edge}
    (h : addEdge nodes hash edge = some hash') :
    ∃ src dst, nodes edge.src = some src ∧ nodes edge.dst = some dst ∧
      hash' = Function.update hash (src, dst) (some edge) := by
  unfold addEdge at h
  split at h
  · exact ⟨_, _, ‹_›, ‹_›, (Option.some.inj h).symm⟩
  · cases h

theorem readxmlgraph_eq_some {t : Topology} {g : Graph} (h : readxmlgraph t = some g) :
    g.vertices = t.vertices ∧
      t.edges.foldlM (addEdge (nodebyid t.vertices)) (fun _ => none) = some g.hash := by
  obtain ⟨hash, hhash, rfl⟩ := Option.map_eq_some_iff.mp h
  exact ⟨rfl, hhash⟩

/-- What every edge that is read keeps holds of the graph. -/
theorem foldlM_addEdge {nodes : ℕ → Option ℕ} {I : (ℕ × ℕ → Option Edge) → Prop}
    {edges : List Edge}
    (hstep : ∀ hash edge src dst, edge ∈ edges → nodes edge.src = some src →
      nodes edge.dst = some dst → I hash → I (Function.update hash (src, dst) (some edge)))
    {hash hash' : ℕ × ℕ → Option Edge} (h : edges.foldlM (addEdge nodes) hash = some hash')
    (hI : I hash) : I hash' := by
  induction edges generalizing hash with
  | nil =>
    cases h
    exact hI
  | cons edge edges ih =>
    obtain ⟨hash₁, h₁, hrest⟩ := Option.bind_eq_some_iff.mp h
    obtain ⟨src, dst, hsrc, hdst, rfl⟩ := addEdge_eq_some h₁
    refine ih ?_ hrest (hstep hash edge src dst List.mem_cons_self hsrc hdst hI)
    intro hash e src dst he
    exact hstep hash e src dst (List.mem_cons_of_mem edge he)

/-- **The edges of the graph** are edges of the file, between the vertices that they name. -/
theorem hash_eq_some {t : Topology} {g : Graph} (h : readxmlgraph t = some g) {e : ℕ × ℕ}
    {edge : Edge} (he : g.hash e = some edge) :
    edge ∈ t.edges ∧ nodebyid t.vertices edge.src = some e.1 ∧
      nodebyid t.vertices edge.dst = some e.2 := by
  obtain ⟨-, hfold⟩ := readxmlgraph_eq_some h
  refine foldlM_addEdge
    (I := fun hash => ∀ e edge, hash e = some edge →
      edge ∈ t.edges ∧ nodebyid t.vertices edge.src = some e.1 ∧
        nodebyid t.vertices edge.dst = some e.2) ?_ hfold ?_ e edge he
  · intro hash new src dst hnew hsrc hdst hI e edge he
    by_cases heq : e = (src, dst)
    · subst heq
      rw [Function.update_self] at he
      cases he
      exact ⟨hnew, hsrc, hdst⟩
    · rw [Function.update_of_ne heq] at he
      exact hI e edge he
  · rintro e edge ⟨⟩

theorem nodebyid_eq_some {vertices : List Vertex} {id v : ℕ}
    (h : nodebyid vertices id = some v) : ∃ vertex, vertices[v]? = some vertex ∧ vertex.idx = id := by
  have hfold : ∀ (l : List (Vertex × ℕ)) (nodes : ℕ → Option ℕ),
      (∀ id v, nodes id = some v → ∃ vertex, vertices[v]? = some vertex ∧ vertex.idx = id) →
      (∀ p ∈ l, vertices[p.2]? = some p.1) → ∀ id v,
      l.foldl addVertex nodes id = some v →
      ∃ vertex, vertices[v]? = some vertex ∧ vertex.idx = id := by
    intro l
    induction l with
    | nil => exact fun _ h _ => h
    | cons p l ih =>
      intro nodes hnodes hl
      refine ih _ ?_ fun q hq => hl q (List.mem_cons_of_mem p hq)
      intro id v hv
      unfold addVertex at hv
      by_cases hid : id = p.1.idx
      · subst hid
        rw [Function.update_self] at hv
        cases hv
        exact ⟨p.1, hl p List.mem_cons_self, rfl⟩
      · rw [Function.update_of_ne hid] at hv
        exact hnodes id v hv
  refine hfold vertices.zipIdx (fun _ => none) ?_ ?_ id v h
  · rintro _ _ ⟨⟩
  · intro p hp
    exact List.mem_zipIdx_iff_getElem?.mp hp

theorem nodebyid_isSome {vertices : List Vertex} {vertex : Vertex} (h : vertex ∈ vertices) :
    (nodebyid vertices vertex.idx).isSome := by
  have hfold : ∀ (l : List (Vertex × ℕ)) (nodes : ℕ → Option ℕ),
      (nodes vertex.idx).isSome ∨ vertex ∈ l.map Prod.fst →
      (l.foldl addVertex nodes vertex.idx).isSome := by
    intro l
    induction l with
    | nil => simp
    | cons p l ih =>
      intro nodes h
      refine ih _ ?_
      by_cases hidx : vertex.idx = p.1.idx
      · exact .inl (by rw [addVertex, hidx, Function.update_self]; rfl)
      · rw [addVertex, Function.update_of_ne hidx]
        refine h.imp_right fun hmem => ?_
        obtain heq | hmem := List.mem_cons.mp hmem
        · exact absurd (congrArg Vertex.idx heq) hidx
        · exact hmem
  refine hfold _ _ (.inr ?_)
  rwa [List.zipIdx_map_fst]

theorem exists_readxmlgraph {t : Topology}
    (h : ∀ edge ∈ t.edges, (nodebyid t.vertices edge.src).isSome ∧
      (nodebyid t.vertices edge.dst).isSome) : ∃ g, readxmlgraph t = some g := by
  have hfold : ∀ (edges : List Edge) (hash : ℕ × ℕ → Option Edge),
      (∀ edge ∈ edges, (nodebyid t.vertices edge.src).isSome ∧
        (nodebyid t.vertices edge.dst).isSome) →
      ∃ hash', edges.foldlM (addEdge (nodebyid t.vertices)) hash = some hash' := by
    intro edges
    induction edges with
    | nil => exact fun hash _ => ⟨hash, rfl⟩
    | cons edge edges ih =>
      intro hash hends
      obtain ⟨hsrc, hdst⟩ := hends edge List.mem_cons_self
      obtain ⟨src, hsrc⟩ := Option.isSome_iff_exists.mp hsrc
      obtain ⟨dst, hdst⟩ := Option.isSome_iff_exists.mp hdst
      obtain ⟨hash', hhash⟩ := ih (Function.update hash (src, dst) (some edge))
        fun e he => hends e (List.mem_cons_of_mem edge he)
      refine ⟨hash', ?_⟩
      rw [List.foldlM_cons, addEdge, hsrc, hdst]
      exact hhash
  obtain ⟨hash, hhash⟩ := hfold t.edges _ h
  exact ⟨⟨t.vertices, hash⟩, by rw [readxmlgraph, hhash]; rfl⟩

theorem hash_isSome {t : Topology} {g : Graph} (h : readxmlgraph t = some g) {edge : Edge}
    (hedge : edge ∈ t.edges) {src dst : ℕ} (hsrc : nodebyid t.vertices edge.src = some src)
    (hdst : nodebyid t.vertices edge.dst = some dst) : (g.hash (src, dst)).isSome := by
  obtain ⟨-, hfold⟩ := readxmlgraph_eq_some h
  obtain ⟨before, after, hsplit⟩ := List.append_of_mem hedge
  rw [hsplit, List.foldlM_append] at hfold
  obtain ⟨hash₁, -, hrest⟩ := Option.bind_eq_some_iff.mp hfold
  obtain ⟨hash₂, h₂, hafter⟩ := Option.bind_eq_some_iff.mp hrest
  obtain ⟨src', dst', hsrc', hdst', rfl⟩ := addEdge_eq_some h₂
  obtain rfl := Option.some.inj (hsrc'.symm.trans hsrc)
  obtain rfl := Option.some.inj (hdst'.symm.trans hdst)
  refine foldlM_addEdge (I := fun hash => (hash (src', dst')).isSome) ?_ hafter (by simp)
  intro hash e src dst _ _ _ hsome
  by_cases heq : (src', dst') = (src, dst)
  · rw [heq, Function.update_self]
    rfl
  · rwa [Function.update_of_ne heq]

theorem nonempty_visits {t : Topology} {g : Graph} (h : readxmlgraph t = some g) :
    Nonempty (Visits g) := by
  let ends : Edge → Option (ℕ × ℕ) := fun edge =>
    (nodebyid t.vertices edge.src).bind fun src =>
      (nodebyid t.vertices edge.dst).map fun dst => (src, dst)
  refine ⟨⟨List.range g.vertices.length, List.Perm.refl _,
    (t.edges.filterMap ends).dedup.filter fun e => (g.hash e).isSome,
    (List.nodup_dedup _).filter _, fun e => ?_⟩⟩
  rw [List.mem_filter, List.mem_dedup, and_iff_right_of_imp]
  intro hsome
  obtain ⟨edge, hedge⟩ := Option.isSome_iff_exists.mp hsome
  obtain ⟨hmem, hsrc, hdst⟩ := hash_eq_some h hedge
  exact List.mem_filterMap.mpr ⟨edge, hmem, by simp only [ends, hsrc, hdst]; rfl⟩

end Modelnet.Scripts

import Mathlib.Data.Finset.Max
import Mathlib.Data.Prod.Lex
import Mathlib.Logic.Function.Iterate
import Modelnet.Lib.Walks
import Modelnet.Tools.Mngraph

/-!
# `routes`

`routes` prints a path for each pair of virtual nodes: it follows the predecessors that
`shortest_paths` has found back from the target. `shortest_paths` takes the vertices one after the
other from a heap, which it makes anew each time, and relaxes their edges; vertices without a path
from the source come last and are treated like the others. So a vertex has a predecessor as soon as
an edge leads to it, the source apart (`isSome_shortestPaths_iff`), and the predecessors need not
lead back to the source.
-/

namespace Modelnet.Tools

variable {D : Type}

def str (s : String) : Str :=
  s.toList.filterMap fun c => if h : c.toNat < 256 then some ⟨c, h⟩ else none

/-- The value of a key; a key without one has the empty string. -/
def AttributeMap.getString (am : AttributeMap D) (key : Str) : Str :=
  (am.myStrings.find? key).getD []

/-- The value of a key; a key without one has 0. -/
def AttributeMap.getInteger (am : AttributeMap D) (key : Str) : Int32 :=
  (am.myInts.find? key).getD 0

namespace GraphData

def source (g : GraphData D) (e : ℕ) : ℕ := (g.myEdges[e]?.map Edge.source).getD 0

def target (g : GraphData D) (e : ℕ) : ℕ := (g.myEdges[e]?.map Edge.target).getD 0

/-- The edges that leave a vertex, in the order in which they were added. -/
def outEdges (g : GraphData D) (v : ℕ) : List ℕ :=
  (List.range g.myEdges.length).filter fun e => g.source e = v

/-- The edges of a graph, by their indices. -/
def digraph (g : GraphData D) : Multidigraph ℕ ℕ where
  edges := {e | e < g.myEdges.length}
  source := g.source
  target := g.target

def vertexAttr (g : GraphData D) (v : ℕ) : AttributeMap D := g.myVertices[v]?.getD ∅

def isVirtnode (g : GraphData D) (v : ℕ) : Bool :=
  (g.vertexAttr v).getString (str "role") = str "virtnode"

def setString (g : GraphData D) (v : ℕ) (key s : Str) : GraphData D :=
  { g with myVertices := g.myVertices.modify v fun am => am.setString key s }

def setInteger (g : GraphData D) (v : ℕ) (key : Str) (i : Int32) : GraphData D :=
  { g with myVertices := g.myVertices.modify v fun am => am.setInteger key i }

end GraphData

/-! ## `shortest_paths` -/

/-- The vectors of `shortest_paths`, and the vertices that it still has to take. -/
structure SPState where
  d : ℕ → ℤ
  infinite : ℕ → Bool
  pred : ℕ → Option ℕ
  heap : List ℕ

namespace SPState

/-- `SPCompare`: the second vertex is to be taken before the first one. -/
def compare (s : SPState) (a b : ℕ) : Bool :=
  s.infinite a && !s.infinite b || s.infinite a && b < a || !s.infinite b &&
    (s.d b < s.d a || !(s.d a < s.d b) && b < a)

/-- `make_heap` and `pop_heap`: the vertex that no other one comes before. -/
def pop (s : SPState) : Option ℕ := s.heap.find? fun a => s.heap.all fun b => !s.compare a b

end SPState

section

variable (g : GraphData D) (weights : ℕ → ℤ)

/-- The body of the loop over the edges that leave `u`. -/
def relax (u : ℕ) (s : SPState) (e : ℕ) : SPState :=
  let v := g.target e
  if s.infinite v ∨ s.d u + weights e < s.d v then
    { s with
      d := Function.update s.d v (s.d u + weights e)
      infinite := Function.update s.infinite v false
      pred := Function.update s.pred v (some e) }
  else s

/-- The body of `while (heapSize)`. -/
def takeVertex (s : SPState) : SPState :=
  match s.pop with
  | some u => (g.outEdges u).foldl (relax g weights u) { s with heap := s.heap.erase u }
  | none => s

def SPState.init (src : ℕ) : SPState where
  d := fun _ => 0
  infinite := Function.update (fun _ => true) src false
  pred := fun _ => none
  heap := List.range g.myVertices.length

/-- `shortest_paths`: the predecessors, `none` for nil. -/
def shortestPaths (src : ℕ) : ℕ → Option ℕ :=
  ((takeVertex g weights)^[g.myVertices.length] (SPState.init g src)).pred

end

/-! ## The paths -/

structure RoutePath where
  src : ℕ
  dst : ℕ
  hops : List ℕ
  deriving DecidableEq, Repr

section

variable (g : GraphData D)

/-- `while (!hop.isNil())`; `none` where the loop has not come to its end in so many turns. -/
def walkBack (pred : ℕ → Option ℕ) : ℕ → Option ℕ → Option (List ℕ)
  | _, none => some []
  | 0, some _ => none
  | fuel + 1, some hop => (walkBack pred fuel (pred (g.source hop))).map (hop :: ·)

/-- The predecessors, with weight 1 for every edge. -/
def predFrom (src : ℕ) : ℕ → Option ℕ := shortestPaths g (fun _ => 1) src

/-- The path to `dst`. -/
def routeTo (fuel src dst : ℕ) : Option RoutePath :=
  (walkBack g (predFrom g src) fuel (predFrom g src dst)).map fun hops => ⟨src, dst, hops.reverse⟩

/-- The targets to which a path is printed. -/
def targets (src : ℕ) : List ℕ :=
  (List.range g.myVertices.length).filter fun dst => g.isVirtnode dst && (predFrom g src dst).isSome

/-- The vertices from which paths are printed. -/
def sources : List ℕ := (List.range g.myVertices.length).filter g.isVirtnode

/-- What `routes` prints, if no loop takes more turns than `fuel`. -/
def routes (fuel : ℕ) : Option (List RoutePath) :=
  ((sources g).mapM fun src => (targets g src).mapM (routeTo g fuel src)).map List.flatten

end

/-! ## The order of the vertices -/

section

variable {s : SPState} {a b u v : ℕ}

/-- The order in which vertices are taken: reached ones first, then by distance, then by index. -/
def SPState.key (s : SPState) (v : ℕ) : Bool ×ₗ ℤ ×ₗ ℕ :=
  toLex (s.infinite v, toLex (if s.infinite v then 0 else s.d v, v))

theorem SPState.compare_iff : s.compare a b = true ↔ s.key b < s.key a := by
  unfold compare key
  cases ha : s.infinite a <;> cases hb : s.infinite b <;>
    simp [Prod.Lex.toLex_lt_toLex]
  omega

theorem SPState.pop_spec (h : s.pop = some u) : u ∈ s.heap ∧ ∀ b ∈ s.heap, s.key u ≤ s.key b := by
  change (s.heap.find? fun a => s.heap.all fun b => !s.compare a b) = some u at h
  refine ⟨List.mem_of_find?_eq_some h, fun b hb => ?_⟩
  have hfirst := List.find?_some h
  have hnot := List.all_eq_true.mp hfirst b hb
  rw [Bool.not_eq_true', ← Bool.not_eq_true, SPState.compare_iff] at hnot
  exact not_lt.mp hnot

theorem SPState.exists_pop (h : s.heap ≠ []) : ∃ u, s.pop = some u := by
  have hne : s.heap.toFinset.Nonempty := by
    obtain ⟨v, hv⟩ := List.exists_mem_of_ne_nil _ h
    exact ⟨v, List.mem_toFinset.mpr hv⟩
  obtain ⟨u, hu, hmin⟩ := s.heap.toFinset.exists_min_image s.key hne
  refine Option.isSome_iff_exists.mp (List.find?_isSome.mpr ⟨u, List.mem_toFinset.mp hu, ?_⟩)
  refine List.all_eq_true.mpr fun b hb => ?_
  rw [Bool.not_eq_true', ← Bool.not_eq_true, SPState.compare_iff]
  exact not_lt.mpr (hmin b (List.mem_toFinset.mpr hb))

end

/-! ## One edge, one vertex -/

section

variable {g : GraphData D} {weights : ℕ → ℤ} {src u : ℕ} {s : SPState}

/-- After an edge its target is reached, whether or not the distance has changed. -/
theorem infinite_relax (u : ℕ) (s : SPState) (e : ℕ) :
    (relax g weights u s e).infinite = Function.update s.infinite (g.target e) false := by
  unfold relax
  dsimp only
  split_ifs with h
  · rfl
  · have hreached : s.infinite (g.target e) = false := by
      simpa using (not_or.mp h).1
    rw [← hreached, Function.update_eq_self]

theorem heap_relax (u : ℕ) (s : SPState) (e : ℕ) : (relax g weights u s e).heap = s.heap := by
  unfold relax
  dsimp only
  split_ifs <;> rfl

theorem heap_foldl_relax (u : ℕ) (s : SPState) (es : List ℕ) :
    (es.foldl (relax g weights u) s).heap = s.heap := by
  induction es generalizing s with
  | nil => rfl
  | cons e es ih => exact (ih _).trans (heap_relax u s e)

/-- What holds of the vectors after each edge. -/
structure SPState.Ok (g : GraphData D) (src : ℕ) (s : SPState) : Prop where
  d_nonneg : ∀ v, 0 ≤ s.d v
  d_source : s.d src = 0
  reached_source : s.infinite src = false
  pred_source : s.pred src = none
  pred_isSome : ∀ v, v ≠ src → ((s.pred v).isSome ↔ s.infinite v = false)
  pred_target : ∀ v e, s.pred v = some e → g.target e = v
  d_infinite : ∀ v, s.infinite v = true → s.d v = 0

theorem SPState.Ok.relax (h : s.Ok g src) {e : ℕ} (hweight : 0 ≤ weights e) (u : ℕ) :
    (relax g weights u s e).Ok g src := by
  have hd := h.d_nonneg u
  unfold Tools.relax
  dsimp only
  split_ifs with hbetter
  · -- the distance of the source is 0 already
    have hne : g.target e ≠ src := by
      intro heq
      rw [heq, h.reached_source, h.d_source] at hbetter
      rcases hbetter with hbetter | hbetter
      · exact absurd hbetter (by decide)
      · omega
    refine ⟨fun v => ?_, ?_, ?_, ?_, fun v hv => ?_, fun v e' hpred => ?_, fun v hv => ?_⟩
    · show 0 ≤ Function.update s.d (g.target e) (s.d u + weights e) v
      by_cases hv : v = g.target e
      · subst hv
        rw [Function.update_self]
        omega
      · rw [Function.update_of_ne hv]
        exact h.d_nonneg v
    · exact (Function.update_of_ne hne.symm _ _).trans h.d_source
    · exact (Function.update_of_ne hne.symm _ _).trans h.reached_source
    · exact (Function.update_of_ne hne.symm _ _).trans h.pred_source
    · by_cases hv' : v = g.target e
      · subst hv'
        simp
      · simpa [Function.update_of_ne hv'] using h.pred_isSome v hv
    · dsimp only at hpred
      by_cases hv : v = g.target e
      · subst hv
        rw [Function.update_self] at hpred
        rw [Option.some.inj hpred]
      · rw [Function.update_of_ne hv] at hpred
        exact h.pred_target v e' hpred
    · dsimp only at hv ⊢
      have hv' : v ≠ g.target e := by
        rintro rfl
        simp at hv
      rw [Function.update_of_ne hv'] at hv ⊢
      exact h.d_infinite v hv
  · exact h

theorem SPState.Ok.withHeap (h : s.Ok g src) (heap : List ℕ) :
    SPState.Ok g src { s with heap := heap } :=
  ⟨h.d_nonneg, h.d_source, h.reached_source, h.pred_source, h.pred_isSome, h.pred_target,
    h.d_infinite⟩

theorem SPState.Ok.relaxAll (h : s.Ok g src) (hweights : ∀ e, 0 ≤ weights e) (u : ℕ)
    (es : List ℕ) :
    let s' := es.foldl (Tools.relax g weights u) s
    s'.Ok g src ∧ s'.heap = s.heap ∧
      ∀ v, s'.infinite v = false ↔ s.infinite v = false ∨ ∃ e ∈ es, g.target e = v := by
  induction es generalizing s with
  | nil => exact ⟨h, rfl, fun v => by simp⟩
  | cons e es ih =>
    obtain ⟨hok, hheap, hreached⟩ := ih (h.relax (hweights e) u)
    refine ⟨hok, hheap.trans (heap_relax u s e), fun v => ?_⟩
    rw [List.foldl_cons, hreached, infinite_relax]
    by_cases hv : v = g.target e
    · subst hv
      simp
    · rw [Function.update_of_ne hv]
      simp [Ne.symm hv]

/-- What holds of the vectors after each vertex: reached are the targets of the edges of the
vertices that have been taken. -/
structure SPState.Inv (g : GraphData D) (src : ℕ) (s : SPState) : Prop extends s.Ok g src where
  nodup : s.heap.Nodup
  reached : ∀ v, s.infinite v = false ↔
    v = src ∨ ∃ e < g.myEdges.length, g.source e ∉ s.heap ∧ g.target e = v

theorem mem_outEdges {v e : ℕ} : e ∈ g.outEdges v ↔ e < g.myEdges.length ∧ g.source e = v := by
  simp [GraphData.outEdges]

theorem GraphData.source_lt (hg : g.Built) {e : ℕ} (he : e < g.myEdges.length) :
    g.source e < g.myVertices.length := by
  unfold GraphData.source
  rw [List.getElem?_eq_getElem he]
  exact hg.source_lt _ (List.getElem_mem he)

theorem GraphData.target_lt (hg : g.Built) {e : ℕ} (he : e < g.myEdges.length) :
    g.target e < g.myVertices.length := by
  unfold GraphData.target
  rw [List.getElem?_eq_getElem he]
  exact hg.target_lt _ (List.getElem_mem he)

theorem takeVertex_of_pop (hu : s.pop = some u) : takeVertex g weights s =
    (g.outEdges u).foldl (relax g weights u) { s with heap := s.heap.erase u } := by
  unfold takeVertex
  rw [hu]

theorem SPState.inv_init (hg : g.Built) (src : ℕ) : (SPState.init g src).Inv g src where
  d_nonneg _ := le_rfl
  d_source := rfl
  reached_source := by simp [init]
  pred_source := rfl
  pred_isSome v hv := by simp [init, Function.update_of_ne hv]
  pred_target v e h := absurd h (by simp [init])
  d_infinite _ _ := rfl
  nodup := List.nodup_range
  reached v := by
    constructor
    · intro h
      by_contra hnot
      have hv : v ≠ src := fun heq => hnot (Or.inl heq)
      simp [init, Function.update_of_ne hv] at h
    · rintro (rfl | ⟨e, he, hsource, -⟩)
      · exact Function.update_self v false fun _ => true
      · exact absurd (List.mem_range.mpr (GraphData.source_lt hg he)) hsource

theorem SPState.Inv.takeVertex (h : s.Inv g src) (hweights : ∀ e, 0 ≤ weights e)
    (hne : s.heap ≠ []) : (takeVertex g weights s).Inv g src ∧
      (takeVertex g weights s).heap.length + 1 = s.heap.length := by
  obtain ⟨u, hu⟩ := SPState.exists_pop hne
  have hmem := (SPState.pop_spec hu).1
  have hlen := List.length_pos_of_mem hmem
  obtain ⟨hok, hheap, hreached⟩ :=
    (h.toOk.withHeap (s.heap.erase u)).relaxAll hweights u (g.outEdges u)
  rw [takeVertex_of_pop hu]
  refine ⟨⟨hok, ?_, fun v => ?_⟩, ?_⟩
  · rw [hheap]
    exact h.nodup.erase u
  · rw [hreached, hheap]
    simp only [h.nodup.mem_erase_iff, mem_outEdges, h.reached v]
    constructor
    · rintro ((hv | ⟨e, he, hsource, hv⟩) | ⟨e, ⟨he, hsource⟩, hv⟩)
      · exact Or.inl hv
      · exact Or.inr ⟨e, he, fun hin => hsource hin.2, hv⟩
      · exact Or.inr ⟨e, he, fun hin => hin.1 hsource, hv⟩
    · rintro (hv | ⟨e, he, hsource, hv⟩)
      · exact Or.inl (Or.inl hv)
      · by_cases heq : g.source e = u
        · exact Or.inr ⟨e, ⟨he, heq⟩, hv⟩
        · exact Or.inl (Or.inr ⟨e, he, fun hin => hsource ⟨heq, hin⟩, hv⟩)
  · rw [hheap, List.length_erase_of_mem hmem]
    omega

theorem SPState.Inv.run (h : s.Inv g src) (hweights : ∀ e, 0 ≤ weights e) {n : ℕ}
    (hn : s.heap.length = n) : ((Tools.takeVertex g weights)^[n] s).Inv g src ∧
      ((Tools.takeVertex g weights)^[n] s).heap = [] := by
  induction n generalizing s with
  | zero => exact ⟨h, List.length_eq_zero_iff.mp hn⟩
  | succ n ih =>
    have hne : s.heap ≠ [] := List.ne_nil_of_length_eq_add_one hn
    obtain ⟨hinv, hlen⟩ := h.takeVertex hweights hne
    exact ih hinv (by omega)

/-- What holds of the distances while vertex `u` is the one taken after `k` others, when all weights
are 1. -/
structure SPState.Near (k u : ℕ) (s : SPState) : Prop where
  le : ∀ v, s.d v ≤ k + 1
  vertex : s.d u ≤ k
  late : s.infinite u = true → 1 ≤ k

theorem SPState.Near.relax {k : ℕ} (hnear : s.Near k u) (h : s.Ok g src) (e : ℕ) :
    (Tools.relax g (fun _ => 1) u s e).Near k u := by
  have hu := hnear.vertex
  unfold Tools.relax
  dsimp only
  split_ifs with hbetter
  · refine ⟨fun v => ?_, ?_, fun hlate => ?_⟩
    · dsimp only
      by_cases hv : v = g.target e
      · subst hv
        rw [Function.update_self]
        omega
      · rw [Function.update_of_ne hv]
        exact hnear.le v
    · dsimp only
      by_cases hloop : u = g.target e
      · -- an edge from `u` to itself changes the distance only if `u` is not reached
        rw [← hloop] at hbetter ⊢
        rw [Function.update_self]
        rcases hbetter with hinf | hlt
        · have hzero := h.d_infinite u hinf
          have hk := hnear.late hinf
          omega
        · omega
      · rw [Function.update_of_ne hloop]
        exact hu
    · dsimp only at hlate
      by_cases hloop : u = g.target e
      · rw [← hloop] at hlate
        simp at hlate
      · rw [Function.update_of_ne hloop] at hlate
        exact hnear.late hlate
  · exact hnear

theorem SPState.Near.relaxAll {k : ℕ} (hnear : s.Near k u) (h : s.Ok g src) (es : List ℕ) :
    (es.foldl (Tools.relax g (fun _ => 1) u) s).Near k u := by
  induction es generalizing s with
  | nil => exact hnear
  | cons e es ih => exact ih (hnear.relax h e) (h.relax zero_le_one u)

theorem SPState.Inv.d_takeVertex (h : s.Inv g src) {k : ℕ} (hle : ∀ v, s.d v ≤ k)
    (hfirst : k = 0 → src ∈ s.heap) (hne : s.heap ≠ []) (v : ℕ) :
    (Tools.takeVertex g (fun _ => 1) s).d v ≤ k + 1 := by
  obtain ⟨u, hu⟩ := SPState.exists_pop hne
  have hnear : SPState.Near k u { s with heap := s.heap.erase u } := by
    refine ⟨fun v => (hle v).trans (by omega), hle u, fun hinf => ?_⟩
    by_contra hzero
    have hkey := (SPState.pop_spec hu).2 src (hfirst (by omega))
    unfold SPState.key at hkey
    simp only at hinf
    simp only [hinf, h.reached_source, if_true, Prod.Lex.toLex_le_toLex] at hkey
    rcases hkey with hlt | ⟨heq, -⟩
    · exact absurd hlt (by decide)
    · exact absurd heq (by decide)
  have hall := hnear.relaxAll (h.toOk.withHeap _) (g.outEdges u)
  rw [takeVertex_of_pop hu]
  exact hall.le v

/-- **Distances.** They are at most the number of vertices that have been taken, so none leaves the
range of an `int`. -/
theorem d_le (hg : g.Built) (hsrc : src < g.myVertices.length) {k : ℕ}
    (hk : k ≤ g.myVertices.length) (v : ℕ) :
    ((takeVertex g fun _ => 1)^[k] (SPState.init g src)).d v ≤ k := by
  suffices h : ∀ k ≤ g.myVertices.length,
      let s := (takeVertex g fun _ => 1)^[k] (SPState.init g src)
      s.Inv g src ∧ s.heap.length + k = g.myVertices.length ∧ ∀ v, s.d v ≤ k from (h k hk).2.2 v
  intro k hk
  induction k with
  | zero => exact ⟨SPState.inv_init hg src, List.length_range, fun _ => le_rfl⟩
  | succ k ih =>
    obtain ⟨hinv, hlen, hle⟩ := ih (Nat.le_of_succ_le hk)
    have hne : ((takeVertex g fun _ => 1)^[k] (SPState.init g src)).heap ≠ [] := by
      intro hnil
      rw [hnil, List.length_nil] at hlen
      omega
    have hfirst : k = 0 → src ∈ ((takeVertex g fun _ => 1)^[k] (SPState.init g src)).heap := by
      rintro rfl
      exact List.mem_range.mpr hsrc
    obtain ⟨hinv', hlen'⟩ := hinv.takeVertex (fun _ => zero_le_one) hne
    rw [Function.iterate_succ_apply']
    exact ⟨hinv', by omega, fun v => hinv.d_takeVertex hle hfirst hne v⟩

/-- **Predecessors.** With weights that are not negative, every vertex but the source has one as
soon as an edge leads to it, from wherever. -/
theorem isSome_shortestPaths_iff (hg : g.Built) (hweights : ∀ e, 0 ≤ weights e) {v : ℕ} :
    (shortestPaths g weights src v).isSome ↔
      v ≠ src ∧ ∃ e < g.myEdges.length, g.target e = v := by
  obtain ⟨hinv, hheap⟩ := (SPState.inv_init hg src).run hweights List.length_range
  by_cases hv : v = src
  · subst hv
    unfold shortestPaths
    rw [hinv.pred_source]
    simp
  · unfold shortestPaths
    rw [hinv.pred_isSome v hv, hinv.reached v, hheap]
    simp [hv]

end

/-! ## What is printed -/

section

variable {g : GraphData D} {fuel src dst : ℕ} {paths : List RoutePath}

theorem exists_mem_of_mapM {α β : Type*} {f : α → Option β} {as : List α} {bs : List β}
    (h : as.mapM f = some bs) {a : α} (ha : a ∈ as) : ∃ b ∈ bs, f a = some b := by
  induction as generalizing bs with
  | nil => exact absurd ha List.not_mem_nil
  | cons x as ih =>
    rw [List.mapM_cons] at h
    obtain ⟨y, hy, h⟩ := Option.bind_eq_some_iff.mp h
    obtain ⟨ys, hys, h⟩ := Option.bind_eq_some_iff.mp h
    obtain rfl := Option.some.inj h
    rcases List.mem_cons.mp ha with rfl | ha
    · exact ⟨y, List.mem_cons_self, hy⟩
    · obtain ⟨b, hb, hf⟩ := ih hys ha
      exact ⟨b, List.mem_cons_of_mem y hb, hf⟩

theorem getString_empty (key : Str) : (∅ : AttributeMap D).getString key = [] := rfl

theorem GraphData.lt_of_isVirtnode {v : ℕ} (h : g.isVirtnode v) : v < g.myVertices.length := by
  by_contra hv
  have hnone : g.vertexAttr v = ∅ := by
    unfold GraphData.vertexAttr
    rw [List.getElem?_eq_none (not_lt.mp hv)]
    rfl
  unfold GraphData.isVirtnode at h
  rw [hnone, getString_empty] at h
  exact absurd (of_decide_eq_true h) (by decide)

/-- The pairs with a path: different virtual nodes, the second of which an edge leads to. -/
theorem mem_targets (hg : g.Built) : dst ∈ targets g src ↔
    g.isVirtnode dst ∧ dst ≠ src ∧ ∃ e < g.myEdges.length, g.target e = dst := by
  unfold targets predFrom
  rw [List.mem_filter, Bool.and_eq_true, isSome_shortestPaths_iff hg fun _ => zero_le_one]
  refine ⟨And.right, fun h => ⟨?_, h⟩⟩
  exact List.mem_range.mpr (GraphData.lt_of_isVirtnode h.1)

theorem exists_mem_routes (h : routes g fuel = some paths) (hsrc : g.isVirtnode src)
    (hdst : dst ∈ targets g src) : ∃ path ∈ paths, path.src = src ∧ path.dst = dst := by
  obtain ⟨parts, hparts, rfl⟩ := Option.map_eq_some_iff.mp h
  have hmem : src ∈ sources g :=
    List.mem_filter.mpr ⟨List.mem_range.mpr (GraphData.lt_of_isVirtnode hsrc), hsrc⟩
  obtain ⟨part, hpart, hfrom⟩ := exists_mem_of_mapM hparts hmem
  obtain ⟨path, hpath, hroute⟩ := exists_mem_of_mapM hfrom hdst
  obtain ⟨hops, -, rfl⟩ := Option.map_eq_some_iff.mp hroute
  exact ⟨_, List.mem_flatten.mpr ⟨part, hpart, hpath⟩, rfl, rfl⟩

theorem routes_of_no_targets (h : ∀ src ∈ sources g, targets g src = []) :
    routes g fuel = some [] := by
  unfold routes
  have hparts : ∀ l : List ℕ, (∀ src ∈ l, targets g src = []) →
      (l.mapM fun src => (targets g src).mapM (routeTo g fuel src)) =
        some (l.map fun _ => []) := by
    intro l hl
    induction l with
    | nil => rfl
    | cons src l ih =>
      rw [List.mapM_cons, hl src List.mem_cons_self,
        ih fun x hx => hl x (List.mem_cons_of_mem _ hx)]
      rfl
  rw [hparts _ h, Option.map_some]
  simp

end

end Modelnet.Tools

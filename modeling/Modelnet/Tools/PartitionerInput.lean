import Mathlib.Algebra.Order.BigOperators.Group.Finset
import Mathlib.Algebra.Order.BigOperators.Group.List
import Mathlib.Data.Rat.Floor
import Mathlib.Tactic.Linarith
import Modelnet.Lib.Rows
import Modelnet.Tools.Mirrors

/-!
# The input of the partitioners

`assign` hands a weighted graph to METIS or Chaco as adjacency arrays. `constructGraph` takes the
vertices that have weight, and an edge with the mean of its weight and that of its mirror;
`constructTransformGraph` takes the edges that have weight for vertices, and what flows from one
edge to another for an edge in both directions, whose number it counts in a pass of its own. The
libraries do not check that the arrays are those of a symmetric graph; they are
(`partitionerInput_valid`).
-/

namespace Modelnet.Tools

variable {D : Type}

/-! ## The weighted graph -/

/-- `weighted_graph`, as far as it is read here: weights are not negative, and the scales stay
positive. -/
structure WeightedGraph (D : Type) where
  g : MNGraph D
  flowMap : ℕ → ℕ → Option ℚ
  eweights : ℕ → ℚ
  vweights : ℕ → ℚ
  vscale : ℚ
  escale : ℚ
  maxVWeight : ℚ
  maxEWeight : ℚ
  eweights_nonneg : ∀ e, 0 ≤ eweights e
  vweights_nonneg : ∀ v, 0 ≤ vweights v
  vscale_pos : 0 < vscale
  escale_pos : 0 < escale

namespace WeightedGraph

variable (wg : WeightedGraph D)

def sumE : ℚ := ((List.range wg.g.myEdges.length).map wg.eweights).sum

def sumV : ℚ := ((List.range wg.g.myVertices.length).map wg.vweights).sum

theorem sumE_nonneg : 0 ≤ wg.sumE := by
  apply List.sum_nonneg
  simp [wg.eweights_nonneg]

theorem sumV_nonneg : 0 ≤ wg.sumV := by
  apply List.sum_nonneg
  simp [wg.vweights_nonneg]

def scaleWeights : WeightedGraph D :=
  { wg with
    maxEWeight := (List.range wg.g.myEdges.length).foldl (fun m e => max m (wg.eweights e)) 0
    maxVWeight := (List.range wg.g.myVertices.length).foldl (fun m v => max m (wg.vweights v)) 0
    vscale := if wg.sumV = 0 ∨ wg.sumE = 0 then wg.vscale else 2000000000 / wg.sumV
    escale := if wg.sumV = 0 ∨ wg.sumE = 0 then wg.escale else 2000000000 / wg.sumE
    vscale_pos := by
      split_ifs with h
      · exact wg.vscale_pos
      · exact div_pos (by norm_num) (lt_of_le_of_ne wg.sumV_nonneg (Ne.symm (not_or.mp h).1))
    escale_pos := by
      split_ifs with h
      · exact wg.escale_pos
      · exact div_pos (by norm_num) (lt_of_le_of_ne wg.sumE_nonneg (Ne.symm (not_or.mp h).2)) }

def mirror (e : ℕ) : Option ℕ := calculateMirrors wg.g.toGraphData e

def scaledWeight (e : ℕ) : ℚ := wg.eweights e * wg.escale

def scaledVertexWeight (v : ℕ) : ℚ := wg.vweights v * wg.vscale

def flowAcross (s t : ℕ) : ℚ := (wg.flowMap s t).getD 0

end WeightedGraph

/-- The edges that lead to a vertex, in the order in which they were added. -/
def GraphData.inEdges (g : GraphData D) (v : ℕ) : List ℕ :=
  (List.range g.myEdges.length).filter fun e => g.target e = v

/-! ## The arrays -/

/-- `(int)`, of a double that is in the range. -/
def truncate (q : ℚ) : ℤ := if q < 0 then ⌈q⌉ else ⌊q⌋

structure LibraryArrays where
  xadj : List ℕ
  adjacency : List ℤ
  vweights : List ℤ
  eweights : List ℤ

namespace LibraryArrays

/-- The arrays before the first vertex. -/
instance : EmptyCollection LibraryArrays := ⟨⟨[], [], [], []⟩⟩

/-- The next vertex, with its weight and its entries. -/
def addVertex (a : LibraryArrays) (weight : ℤ) (row : List (ℤ × ℤ)) : LibraryArrays where
  xadj := a.xadj ++ [a.adjacency.length]
  adjacency := a.adjacency ++ row.map Prod.fst
  vweights := a.vweights ++ [weight]
  eweights := a.eweights ++ row.map Prod.snd

/-- The places of the entries of a vertex. -/
def places (a : LibraryArrays) (v : ℕ) : List ℕ :=
  List.range' (a.xadj.getD v 0) (a.xadj.getD (v + 1) 0 - a.xadj.getD v 0)

/-- The body of the loop over the entries of a vertex. -/
def symmetrize (a : LibraryArrays) (v : ℕ) (eweights : List ℤ) (e : ℕ) : List ℤ :=
  if a.adjacency.getD e 0 < v then eweights
  else
    match (a.places (a.adjacency.getD e 0).toNat).find? fun e1 => a.adjacency.getD e1 0 = v with
    | some e1 =>
      let w := max ((eweights.getD e 0 + eweights.getD e1 0).tdiv 2) 1
      (eweights.set e w).set e1 w
    | none => eweights

def makeEdgeWeightsSymmetric (nverts : ℕ) (a : LibraryArrays) : LibraryArrays :=
  { a with
    eweights := (List.range (nverts - 1)).foldl
      (fun eweights v => (a.places v).foldl (a.symmetrize v) eweights) a.eweights }

end LibraryArrays

namespace WeightedGraph

variable (wg : WeightedGraph D)

/-- A vertex gets an index: it has weight, or an edge of its has. -/
def hasWeight (v : ℕ) : Bool :=
  0 < wg.vweights v || ((wg.g.outEdges v).any fun e => 0 < wg.eweights e) ||
    (wg.g.inEdges v).any fun e => 0 < wg.eweights e

/-- `indexOfNode`, after `nverts`. -/
def indexOfNode : ℕ × (ℕ → ℤ) := renumber wg.hasWeight (List.range wg.g.myVertices.length)

/-- `indexOfEdge`, after `nverts`. -/
def indexOfEdge : ℕ × (ℕ → ℤ) :=
  renumber (fun e => 0 < wg.eweights e) (List.range wg.g.myEdges.length)

/-- The weight of an edge and its mirror; there is none to read at nil. -/
def mirroredWeight (e : ℕ) : ℚ :=
  wg.scaledWeight e + ((wg.mirror e).map wg.scaledWeight).getD 0

/-- The body of the loop over the edges of a vertex in `constructGraph`. -/
def nodeEntry (e : ℕ) : Option (ℤ × ℤ) :=
  let w := wg.mirroredWeight e
  if w < 1 then none
  else some (wg.indexOfNode.2 (wg.g.target e), truncate (w / 2 + 0.500000001))

/-- The body of the loop of `constructGraph`. -/
def constructNode (a : LibraryArrays) (v : ℕ) : LibraryArrays :=
  if wg.indexOfNode.2 v = -1 then a
  else a.addVertex (truncate (wg.scaledVertexWeight v)) ((wg.g.outEdges v).filterMap wg.nodeEntry)

def constructGraph : LibraryArrays :=
  let a := (List.range wg.g.myVertices.length).foldl wg.constructNode ∅
  { a with xadj := a.xadj ++ [a.adjacency.length] }

/-- The counting pass of `constructTransformGraph`. -/
def connectNum : ℕ :=
  (List.range wg.g.myEdges.length).foldl (fun n e =>
    if wg.indexOfEdge.2 e = -1 then n
    else n + (wg.g.outEdges (wg.g.target e)).countP fun e1 => 0 < wg.flowAcross e e1) 0

/-- The bodies of both loops over the neighbours of an edge in `constructTransformGraph`: `w` is
what flows, and `e1` is the neighbour. -/
def transformEntry (w : ℚ) (e1 : ℕ) : Option (ℤ × ℤ) :=
  if ¬0 < w ∨ wg.indexOfEdge.2 e1 = -1 then none
  else some (wg.indexOfEdge.2 e1, truncate (w * wg.escale / 2 + 0.5))

/-- The entries of an edge. -/
def transformRow (e : ℕ) : List (ℤ × ℤ) :=
  (wg.g.outEdges (wg.g.target e)).filterMap
      (fun e1 => wg.transformEntry (wg.flowAcross e e1) e1) ++
    (wg.g.inEdges (wg.g.source e)).filterMap fun e1 => wg.transformEntry (wg.flowAcross e1 e) e1

/-- The body of `while (currEdge<nverts)`. -/
def constructEdge (a : LibraryArrays) (e : ℕ) : LibraryArrays :=
  if a.xadj.length < wg.indexOfEdge.1 then
    if wg.indexOfEdge.2 e = -1 then a
    else a.addVertex (truncate (wg.scaledWeight e)) (wg.transformRow e)
  else a

def constructTransformGraph : LibraryArrays :=
  let a := (List.range wg.g.myEdges.length).foldl wg.constructEdge ∅
  { a with xadj := a.xadj ++ [wg.connectNum * 2] }

end WeightedGraph

/-! ## What is claimed -/

/-- The entry at a place: from one vertex to another, with a weight. -/
def LibraryArrays.Entry (a : LibraryArrays) (i u v : ℕ) (w : ℤ) : Prop :=
  (∃ s t, a.xadj[u]? = some s ∧ a.xadj[u + 1]? = some t ∧ s ≤ i ∧ i < t) ∧
    a.adjacency[i]? = some (v : ℤ) ∧ a.eweights[i]? = some w

/-- The arrays are those of a symmetric graph with the given number of vertices. -/
structure ValidInput (nverts : ℕ) (least : ℤ) (a : LibraryArrays) : Prop where
  xadj_length : a.xadj.length = nverts + 1
  xadj_first : a.xadj[0]? = some 0
  xadj_mono : a.xadj.Pairwise (· ≤ ·)
  xadj_last : a.xadj[nverts]? = some a.adjacency.length
  eweights_length : a.eweights.length = a.adjacency.length
  vweights_length : a.vweights.length = nverts
  adjacency_lt : ∀ x ∈ a.adjacency, 0 ≤ x ∧ x < nverts
  least_le : ∀ w ∈ a.eweights, least ≤ w
  symmetric : ∀ i u v w, a.Entry i u v w →
    ∃ j, a.Entry j v u w ∧ ∀ j' w', a.Entry j' v u w' → j' = j

/-- The graph has no loops and no parallel edges, and every edge has a way back. -/
structure GraphData.Mirrored (g : GraphData D) : Prop where
  loopless : ∀ e < g.myEdges.length, g.source e ≠ g.target e
  simple : ∀ e < g.myEdges.length, ∀ f < g.myEdges.length,
    g.source e = g.source f → g.target e = g.target f → e = f
  back : ∀ e < g.myEdges.length, ∃ f < g.myEdges.length,
    g.source f = g.target e ∧ g.target f = g.source e

/-- What flows from an edge to another one is a part of the weights of both, and nothing flows
back. -/
structure WeightedGraph.Directed (wg : WeightedGraph D) : Prop where
  weighted : ∀ e < wg.g.myEdges.length, ∀ e1 < wg.g.myEdges.length,
    0 < wg.flowAcross e e1 → 0 < wg.eweights e ∧ 0 < wg.eweights e1
  oneWay : ∀ e < wg.g.myEdges.length, ∀ e1 < wg.g.myEdges.length,
    ¬(0 < wg.flowAcross e e1 ∧ 0 < wg.flowAcross e1 e)

/-! ## Arrays of rows -/

namespace LibraryArrays

/-- The arrays of some rows, where the last one does not end yet. -/
def ofRows (weights : List ℤ) (rows : List (List (ℤ × ℤ))) : LibraryArrays where
  xadj := (List.range rows.length).map (Rows.offset rows)
  adjacency := rows.flatten.map Prod.fst
  vweights := weights
  eweights := rows.flatten.map Prod.snd

theorem addVertex_ofRows (weights : List ℤ) (rows : List (List (ℤ × ℤ))) (weight : ℤ)
    (row : List (ℤ × ℤ)) : (ofRows weights rows).addVertex weight row =
      ofRows (weights ++ [weight]) (rows ++ [row]) := by
  have hxadj : (List.range rows.length).map (Rows.offset (rows ++ [row])) =
      (List.range rows.length).map (Rows.offset rows) := by
    refine List.map_congr_left fun u hu => ?_
    exact Rows.offset_append (List.mem_range.mp hu).le
  have hlast : Rows.offset (rows ++ [row]) rows.length = rows.flatten.length := by
    rw [Rows.offset_append le_rfl, Rows.offset_length]
  rw [ofRows, ofRows, addVertex, List.flatten_append, List.map_append, List.map_append]
  simp only [List.length_map, List.length_append, List.length_singleton, List.range_succ,
    List.map_append, hxadj, List.map_singleton, hlast, List.flatten_singleton]

theorem foldl_addVertex {step : LibraryArrays → ℕ → LibraryArrays} {p : ℕ → Bool} {weight : ℕ → ℤ}
    {row : ℕ → List (ℤ × ℤ)} {total : ℕ} (xs : List ℕ) (weights : List ℤ)
    (rows : List (List (ℤ × ℤ))) (htotal : rows.length + (xs.filter p).length = total)
    (hstep : ∀ x ∈ xs, ∀ a : LibraryArrays, (p x → a.xadj.length < total) →
      step a x = if p x then a.addVertex (weight x) (row x) else a) :
    xs.foldl step (ofRows weights rows) =
      ofRows (weights ++ (xs.filter p).map weight) (rows ++ (xs.filter p).map row) := by
  induction xs generalizing weights rows with
  | nil => simp
  | cons x xs ih =>
    have hrest := fun y hy => hstep y (List.mem_cons_of_mem x hy)
    rw [List.foldl_cons]
    by_cases hx : p x
    · have hlt : rows.length < total := by simp [hx] at htotal; omega
      rw [hstep x List.mem_cons_self _ (fun _ => by simpa [ofRows] using hlt), if_pos hx,
        addVertex_ofRows, ih _ _ (by simp [hx] at htotal ⊢; omega) hrest]
      simp [hx]
    · rw [hstep x List.mem_cons_self _ (fun h => absurd h hx), if_neg hx,
        ih _ _ (by simpa [hx] using htotal) hrest]
      simp [hx]

/-- All rows end. -/
def close (a : LibraryArrays) (count : ℕ) : LibraryArrays := { a with xadj := a.xadj ++ [count] }

theorem close_ofRows_xadj (weights : List ℤ) (rows : List (List (ℤ × ℤ))) :
    ((ofRows weights rows).close rows.flatten.length).xadj =
      (List.range (rows.length + 1)).map (Rows.offset rows) := by
  simp [close, ofRows, List.range_succ]

theorem entry_close_iff {weights : List ℤ} {rows : List (List (ℤ × ℤ))} {i u v : ℕ} {w : ℤ} :
    ((ofRows weights rows).close rows.flatten.length).Entry i u v w ↔
      ∃ row, rows[u]? = some row ∧
        ∃ k : ℕ, row[k]? = some ((v : ℤ), w) ∧ i = Rows.offset rows u + k := by
  have hpair : ((rows.flatten.map Prod.fst)[i]? = some (v : ℤ) ∧
      (rows.flatten.map Prod.snd)[i]? = some w) ↔ rows.flatten[i]? = some ((v : ℤ), w) := by
    rw [List.getElem?_map, List.getElem?_map]
    cases rows.flatten[i]? <;> simp [Prod.ext_iff]
  rw [Entry, close_ofRows_xadj]
  simp only [close, ofRows, hpair]
  have hstart : ∀ u s : ℕ, ((List.range (rows.length + 1)).map (Rows.offset rows))[u]? = some s ↔
      u ≤ rows.length ∧ Rows.offset rows u = s := by
    intro u s
    rw [List.getElem?_map]
    by_cases hu : u < rows.length + 1
    · simp [List.getElem?_range hu, Nat.le_of_lt_succ hu]
    · have hnone : (List.range (rows.length + 1))[u]? = none :=
        List.getElem?_eq_none (by simp; omega)
      simp [hnone, show ¬u ≤ rows.length by omega]
  simp only [hstart]
  constructor
  · rintro ⟨⟨s, t, ⟨-, rfl⟩, ⟨hu, rfl⟩, hsi, hit⟩, hentry⟩
    obtain ⟨k, hk, rfl⟩ := (Rows.mem_part_iff hu).mp ⟨hsi, hit, hentry⟩
    exact ⟨rows[u], List.getElem?_eq_getElem hu, k, hk, rfl⟩
  · rintro ⟨row, hrow, k, hk, rfl⟩
    obtain ⟨hu, rfl⟩ := List.getElem?_eq_some_iff.mp hrow
    obtain ⟨hsi, hit, hentry⟩ := (Rows.mem_part_iff hu).mpr ⟨k, hk, rfl⟩
    exact ⟨⟨_, _, ⟨hu.le, rfl⟩, ⟨hu, rfl⟩, hsi, hit⟩, hentry⟩

/-- Rows where every entry has exactly one entry back give valid arrays. -/
theorem validInput_close {weights : List ℤ} {rows : List (List (ℤ × ℤ))} {least : ℤ}
    (hweights : weights.length = rows.length)
    (hentries : ∀ row ∈ rows, ∀ c ∈ row, (0 ≤ c.1 ∧ c.1 < rows.length) ∧ least ≤ c.2)
    (hback : ∀ (u v : ℕ) (w : ℤ) (row : List (ℤ × ℤ)), rows[u]? = some row → ((v : ℤ), w) ∈ row →
      ∃ row', rows[v]? = some row' ∧ row'.filter (fun c => c.1 = (u : ℤ)) = [((u : ℤ), w)]) :
    ValidInput rows.length least ((ofRows weights rows).close rows.flatten.length) := by
  have hflatten : ∀ c ∈ rows.flatten, (0 ≤ c.1 ∧ c.1 < rows.length) ∧ least ≤ c.2 := by
    intro c hc
    obtain ⟨row, hrow, hc⟩ := List.mem_flatten.mp hc
    exact hentries row hrow c hc
  constructor
  case xadj_length => rw [close_ofRows_xadj, List.length_map, List.length_range]
  case xadj_first => rw [close_ofRows_xadj]; simp
  case xadj_mono =>
    rw [close_ofRows_xadj]
    refine List.pairwise_map.mpr (List.pairwise_lt_range.imp fun h => ?_)
    exact Rows.offset_mono h.le
  case xadj_last =>
    rw [close_ofRows_xadj, List.getElem?_map, List.getElem?_range (Nat.lt_succ_self _),
      Option.map_some, Rows.offset_length, close, ofRows, List.length_map]
  case eweights_length => rw [close, ofRows, List.length_map, List.length_map]
  case vweights_length => exact hweights
  case adjacency_lt =>
    intro v hv
    obtain ⟨c, hc, rfl⟩ := List.mem_map.mp hv
    exact (hflatten c hc).1
  case least_le =>
    intro w hw
    obtain ⟨c, hc, rfl⟩ := List.mem_map.mp hw
    exact (hflatten c hc).2
  case symmetric =>
    intro i u v w hentry
    obtain ⟨row, hrow, k, hk, rfl⟩ := entry_close_iff.mp hentry
    obtain ⟨row', hrow', honce⟩ := hback u v w row hrow (List.mem_of_getElem? hk)
    obtain ⟨k', hk', huniq⟩ := List.exists_unique_place honce
    refine ⟨_, entry_close_iff.mpr ⟨row', hrow', k', hk', rfl⟩, fun j w' hj => ?_⟩
    obtain ⟨row'', hrow'', k'', hk'', rfl⟩ := entry_close_iff.mp hj
    obtain rfl : row' = row'' := Option.some.inj (hrow'.symm.trans hrow'')
    rw [huniq k'' _ hk'' (by simp)]

/-- The same for the rows of some keys, where an entry has the place of its key. -/
theorem validInput_keys {xs : List ℕ} {idx : ℕ → ℤ} {row : ℕ → List (ℤ × ℤ)} {weight : ℕ → ℤ}
    {least : ℤ} (hxs : xs.Nodup) (hidx : ∀ x ∈ xs, idx x = xs.idxOf x)
    (hback : ∀ x ∈ xs, ∀ c ∈ row x, ∃ y ∈ xs, c.1 = idx y ∧ least ≤ c.2 ∧
      (row y).filter (fun c' => c'.1 = idx x) = [(idx x, c.2)]) :
    ValidInput xs.length least
      ((ofRows (xs.map weight) (xs.map row)).close (xs.map row).flatten.length) := by
  rw [← List.length_map row]
  apply validInput_close
  · rw [List.length_map, List.length_map]
  · intro r hr c hc
    obtain ⟨x, hx, rfl⟩ := List.mem_map.mp hr
    obtain ⟨y, hy, hcy, hle, -⟩ := hback x hx c hc
    rw [hcy, hidx y hy, List.length_map]
    exact ⟨⟨Int.natCast_nonneg _, Int.ofNat_lt.mpr (List.idxOf_lt_length_of_mem hy)⟩, hle⟩
  · intro u v w r hr hvw
    rw [List.getElem?_map] at hr
    obtain ⟨x, hx, rfl⟩ := Option.map_eq_some_iff.mp hr
    obtain ⟨hu, rfl⟩ := List.getElem?_eq_some_iff.mp hx
    obtain ⟨y, hy, hcy, -, honce⟩ := hback _ (List.getElem_mem hu) _ hvw
    have hv : v = xs.idxOf y := by
      rw [hidx y hy] at hcy
      exact Int.ofNat_inj.mp hcy
    have hu' : idx xs[u] = u := by
      rw [hidx _ (List.getElem_mem hu), hxs.idxOf_getElem u hu]
    refine ⟨row y, ?_, by rw [hu'] at honce; exact honce⟩
    rw [hv, List.getElem?_map, List.getElem?_eq_getElem (List.idxOf_lt_length_of_mem hy),
      List.getElem_idxOf, Option.map_some]

/-! ## Symmetric weights -/

theorem foldl_eq_self {α β : Type*} {f : α → β → α} {a : α} {xs : List β}
    (h : ∀ x ∈ xs, f a x = a) : xs.foldl f a = a := by
  induction xs with
  | nil => rfl
  | cons x xs ih =>
    rw [List.foldl_cons, h x List.mem_cons_self]
    exact ih fun y hy => h y (List.mem_cons_of_mem x hy)

variable {a : LibraryArrays} {nverts : ℕ} {least : ℤ} {v e : ℕ}

theorem exists_entry (h : ValidInput nverts least a) (hv : v < nverts) (he : e ∈ a.places v) :
    ∃ u w, a.Entry e v u w ∧ u < nverts ∧ least ≤ w := by
  have hlength := h.xadj_length
  obtain ⟨hle, hlt⟩ : a.xadj.getD v 0 ≤ e ∧ e < a.xadj.getD (v + 1) 0 := by
    have := List.mem_range'_1.mp he
    omega
  have hs : a.xadj[v]? = some (a.xadj.getD v 0) := by
    rw [List.getD_eq_getElem?_getD, List.getElem?_eq_getElem (by omega), Option.getD_some]
  have ht : a.xadj[v + 1]? = some (a.xadj.getD (v + 1) 0) := by
    rw [List.getD_eq_getElem?_getD, List.getElem?_eq_getElem (by omega), Option.getD_some]
  have htotal : a.xadj.getD (v + 1) 0 ≤ a.adjacency.length := by
    obtain ⟨hv1, hv1'⟩ := List.getElem?_eq_some_iff.mp ht
    obtain ⟨hn, hn'⟩ := List.getElem?_eq_some_iff.mp h.xadj_last
    rw [← hv1', ← hn']
    rcases Nat.lt_or_ge (v + 1) nverts with hlt' | hge
    · exact List.pairwise_iff_getElem.mp h.xadj_mono _ _ hv1 hn hlt'
    · obtain rfl : v + 1 = nverts := by omega
      exact le_rfl
  have hea : e < a.adjacency.length := by omega
  have hew : e < a.eweights.length := h.eweights_length ▸ hea
  obtain ⟨h0, hn⟩ := h.adjacency_lt _ (List.getElem_mem hea)
  obtain ⟨u, hu⟩ := Int.eq_ofNat_of_zero_le h0
  refine ⟨u, a.eweights[e], ⟨⟨_, _, hs, ht, hle, hlt⟩, ?_, List.getElem?_eq_getElem hew⟩, ?_,
    h.least_le _ (List.getElem_mem hew)⟩
  · rw [List.getElem?_eq_getElem hea, hu]
  · omega

theorem makeEdgeWeightsSymmetric_eq (h : ValidInput nverts 1 a) :
    a.makeEdgeWeightsSymmetric nverts = a := by
  have hstep : ∀ v < nverts, ∀ e ∈ a.places v, a.symmetrize v a.eweights e = a.eweights := by
    intro v hv e he
    obtain ⟨u, w, hentry, hu, hw⟩ := exists_entry h hv he
    have hadj : a.adjacency.getD e 0 = u := by
      rw [List.getD_eq_getElem?_getD, hentry.2.1, Option.getD_some]
    have hwe : a.eweights.getD e 0 = w := by
      rw [List.getD_eq_getElem?_getD, hentry.2.2, Option.getD_some]
    rw [symmetrize, hadj, Int.toNat_natCast]
    split_ifs
    · rfl
    · cases hfind : (a.places u).find? fun e1 => a.adjacency.getD e1 0 = v with
      | none => rfl
      | some e1 =>
        -- the entry back, of which there is only one
        obtain ⟨v', w1, hentry1, -, -⟩ := exists_entry h hu (List.mem_of_find?_eq_some hfind)
        have hadj1 : a.adjacency.getD e1 0 = v' := by
          rw [List.getD_eq_getElem?_getD, hentry1.2.1, Option.getD_some]
        obtain rfl : v' = v := by
          have := List.find?_some hfind
          rw [hadj1] at this
          simpa using this
        obtain ⟨j, hj, huniq⟩ := h.symmetric _ _ _ _ hentry
        obtain rfl := huniq e1 w1 hentry1
        have hwe1 : a.eweights.getD e1 0 = w := by
          rw [List.getD_eq_getElem?_getD, hj.2.2, Option.getD_some]
        have hmean : max ((w + w).tdiv 2) 1 = w := by
          rw [← two_mul, Int.mul_tdiv_cancel_left w two_ne_zero]
          exact max_eq_left hw
        have hset : ∀ {i : ℕ}, a.eweights[i]? = some w → a.eweights.set i w = a.eweights := by
          intro i hi
          obtain ⟨hlt, rfl⟩ := List.getElem?_eq_some_iff.mp hi
          exact List.set_getElem_self hlt
        simp only [hwe, hwe1, hmean, hset hentry.2.2, hset hj.2.2]
  rw [makeEdgeWeightsSymmetric]
  congr
  refine foldl_eq_self fun v hv => foldl_eq_self (hstep v ?_)
  have := List.mem_range.mp hv
  omega

end LibraryArrays

/-! ## Vertices as vertices -/

theorem one_le_truncate {q : ℚ} (h : 1 ≤ q) : 1 ≤ truncate q := by
  rw [truncate, if_neg (by linarith)]
  exact Int.le_floor.mpr (by exact_mod_cast h)

theorem truncate_nonneg {q : ℚ} (h : 0 ≤ q) : 0 ≤ truncate q := by
  rw [truncate, if_neg (by linarith)]
  exact Int.floor_nonneg.mpr h

theorem mem_inEdges {g : GraphData D} {v e : ℕ} :
    e ∈ g.inEdges v ↔ e < g.myEdges.length ∧ g.target e = v := by
  simp [GraphData.inEdges]

theorem outEdges_nodup (g : GraphData D) (v : ℕ) : (g.outEdges v).Nodup :=
  List.nodup_range.filter _

theorem inEdges_nodup (g : GraphData D) (v : ℕ) : (g.inEdges v).Nodup := List.nodup_range.filter _

namespace WeightedGraph

variable {wg : WeightedGraph D} {e f u v : ℕ}

/-- The vertices with an index. -/
def nodes (wg : WeightedGraph D) : List ℕ :=
  (List.range wg.g.myVertices.length).filter wg.hasWeight

theorem nodes_nodup : wg.nodes.Nodup := List.nodup_range.filter _

theorem indexOfNode_of_mem (hv : v ∈ wg.nodes) : wg.indexOfNode.2 v = wg.nodes.idxOf v :=
  renumber_of_mem List.nodup_range hv

theorem indexOfNode_of_not (hv : v < wg.g.myVertices.length) (hw : ¬wg.hasWeight v) :
    wg.indexOfNode.2 v = -1 :=
  renumber_of_not List.nodup_range (List.mem_range.mpr hv) hw

theorem mem_nodes : v ∈ wg.nodes ↔ v < wg.g.myVertices.length ∧ wg.hasWeight v := by
  simp [nodes]

theorem eweights_pos (h : 0 < wg.scaledWeight e) : 0 < wg.eweights e :=
  (mul_pos_iff_of_pos_right wg.escale_pos).mp h

/-- In a mirrored graph the mirror of an edge leads back, and is mirrored by the edge. -/
theorem exists_mirror_of_mirrored (hg : wg.g.Mirrored) (he : e < wg.g.myEdges.length) :
    ∃ f < wg.g.myEdges.length, wg.mirror e = some f ∧ wg.mirror f = some e ∧
      wg.g.source f = wg.g.target e ∧ wg.g.target f = wg.g.source e := by
  obtain ⟨b, hb⟩ := hg.back e he
  obtain ⟨f, hf⟩ := exists_mirror he (List.ne_nil_of_mem (mem_reverses.mpr hb))
  obtain ⟨hlt, hs, ht⟩ := mem_reverses.mp (mem_reverses_of_mirror he hf)
  obtain ⟨e', he'⟩ := exists_mirror hlt
    (List.ne_nil_of_mem (mem_reverses.mpr ⟨he, ht.symm, hs.symm⟩))
  obtain ⟨hlt', hs', ht'⟩ := mem_reverses.mp (mem_reverses_of_mirror hlt he')
  obtain rfl := hg.simple e' hlt' e he (hs'.trans ht) (ht'.trans hs)
  exact ⟨f, hlt, hf, he', hs, ht⟩

theorem mirroredWeight_mirror (hf : wg.mirror e = some f) (he : wg.mirror f = some e) :
    wg.mirroredWeight f = wg.mirroredWeight e := by
  rw [mirroredWeight, mirroredWeight, hf, he]
  exact add_comm _ _

/-- The end of an edge that is not left out has an index. -/
theorem target_mem_nodes (hg : wg.g.Mirrored) (he : e < wg.g.myEdges.length)
    (hw : 1 ≤ wg.mirroredWeight e) : wg.g.target e ∈ wg.nodes := by
  obtain ⟨f, hlt, hf, -, hs, -⟩ := exists_mirror_of_mirrored hg he
  refine mem_nodes.mpr ⟨GraphData.target_lt wg.g.built he, ?_⟩
  have hpos : 0 < wg.scaledWeight e ∨ 0 < wg.scaledWeight f := by
    by_contra! hle
    rw [mirroredWeight, hf, Option.map_some, Option.getD_some] at hw
    linarith
  rw [hasWeight, Bool.or_eq_true, Bool.or_eq_true, List.any_eq_true, List.any_eq_true]
  rcases hpos with hpos | hpos
  · exact Or.inr ⟨e, mem_inEdges.mpr ⟨he, rfl⟩, by simpa using eweights_pos hpos⟩
  · exact Or.inl (Or.inr ⟨f, mem_outEdges.mpr ⟨hlt, hs⟩, by simpa using eweights_pos hpos⟩)

theorem nodeEntry_eq_some {c : ℤ × ℤ} : wg.nodeEntry e = some c ↔ 1 ≤ wg.mirroredWeight e ∧
    c = (wg.indexOfNode.2 (wg.g.target e), truncate (wg.mirroredWeight e / 2 + 0.500000001)) := by
  rw [← not_lt]
  by_cases hw : wg.mirroredWeight e < 1
  · simp [nodeEntry, hw]
  · simp [nodeEntry, hw, eq_comm]

theorem nodeEntry_back (hg : wg.g.Mirrored) {c : ℤ × ℤ} (hv : v ∈ wg.nodes)
    (hc : c ∈ (wg.g.outEdges v).filterMap wg.nodeEntry) :
    ∃ u ∈ wg.nodes, c.1 = wg.indexOfNode.2 u ∧ 1 ≤ c.2 ∧
      ((wg.g.outEdges u).filterMap wg.nodeEntry).filter
        (fun c' => c'.1 = wg.indexOfNode.2 v) = [(wg.indexOfNode.2 v, c.2)] := by
  obtain ⟨e, he, hc⟩ := List.mem_filterMap.mp hc
  obtain ⟨hlt, hsource⟩ := mem_outEdges.mp he
  obtain ⟨f, hltf, hf, hmirror, hs, ht⟩ := exists_mirror_of_mirrored hg hlt
  obtain ⟨hw, rfl⟩ := nodeEntry_eq_some.mp hc
  refine ⟨wg.g.target e, target_mem_nodes hg hlt hw, rfl, one_le_truncate (by linarith), ?_⟩
  have hwf := mirroredWeight_mirror hf hmirror
  refine List.filter_filterMap_eq_singleton (x := f) (outEdges_nodup _ _)
    (mem_outEdges.mpr ⟨hltf, hs⟩) ?_ (by simp) ?_
  · exact nodeEntry_eq_some.mpr ⟨hwf ▸ hw, by rw [hwf, ht, hsource]⟩
  · intro e' he' c' hc' hidx
    obtain ⟨hlt', hs'⟩ := mem_outEdges.mp he'
    obtain ⟨hw', rfl⟩ := nodeEntry_eq_some.mp hc'
    have hmem := target_mem_nodes hg hlt' hw'
    have hidx' : wg.nodes.idxOf (wg.g.target e') = wg.nodes.idxOf v := by
      simpa [indexOfNode_of_mem hmem, indexOfNode_of_mem hv] using hidx
    have htarget : wg.g.target e' = v := (List.idxOf_inj hmem).mp hidx'
    exact hg.simple e' hlt' f hltf (hs'.trans hs.symm) (by rw [htarget, ht, hsource])

/-- `constructGraph` adds the rows of the vertices with an index. -/
theorem constructGraph_eq : wg.constructGraph =
    let rows := wg.nodes.map fun v => (wg.g.outEdges v).filterMap wg.nodeEntry
    (LibraryArrays.ofRows (wg.nodes.map fun v => truncate (wg.scaledVertexWeight v)) rows).close
      rows.flatten.length := by
  have hfold : (List.range wg.g.myVertices.length).foldl wg.constructNode ∅ =
      LibraryArrays.ofRows (wg.nodes.map fun v => truncate (wg.scaledVertexWeight v))
        (wg.nodes.map fun v => (wg.g.outEdges v).filterMap wg.nodeEntry) := by
    refine LibraryArrays.foldl_addVertex _ [] [] rfl fun v hv a _ => ?_
    rw [List.mem_range] at hv
    rw [constructNode]
    by_cases hw : wg.hasWeight v
    · rw [indexOfNode_of_mem (mem_nodes.mpr ⟨hv, hw⟩), if_neg (by omega), if_pos hw]
    · rw [if_pos (indexOfNode_of_not hv hw), if_neg hw]
  rw [constructGraph, hfold]
  simp only [LibraryArrays.close, LibraryArrays.ofRows, List.length_map]

theorem constructGraph_valid (hg : wg.g.Mirrored) : ValidInput wg.indexOfNode.1 1
    (wg.constructGraph.makeEdgeWeightsSymmetric wg.indexOfNode.1) := by
  have hvalid : ValidInput wg.indexOfNode.1 1 wg.constructGraph := by
    rw [constructGraph_eq, indexOfNode, renumber_count]
    exact LibraryArrays.validInput_keys nodes_nodup (fun v hv => indexOfNode_of_mem hv)
      fun v hv c hc => nodeEntry_back hg hv hc
  rwa [LibraryArrays.makeEdgeWeightsSymmetric_eq hvalid]

theorem eweights_add_le (wg : WeightedGraph D) (he : e < wg.g.myEdges.length)
    (hf : f < wg.g.myEdges.length) (hne : e ≠ f) : wg.eweights e + wg.eweights f ≤ wg.sumE := by
  have hsum : wg.sumE = ∑ i ∈ Finset.range wg.g.myEdges.length, wg.eweights i := rfl
  rw [hsum]
  exact Finset.add_le_sum (fun i _ => wg.eweights_nonneg i) (Finset.mem_range.mpr he)
    (Finset.mem_range.mpr hf) hne

/-- Scaled weights leave room in an `int` for the sum of two entries. -/
theorem scaleWeights_fits (hg : wg.g.Mirrored) (hV : wg.sumV ≠ 0) (hE : wg.sumE ≠ 0) {w : ℤ}
    (hw : w ∈ wg.scaleWeights.constructGraph.eweights) : w ≤ 1000000000 := by
  rw [constructGraph_eq] at hw
  obtain ⟨c, hc, rfl⟩ := List.mem_map.mp hw
  obtain ⟨row, hrow, hc⟩ := List.mem_flatten.mp hc
  obtain ⟨v, -, rfl⟩ := List.mem_map.mp hrow
  obtain ⟨e, he, hc⟩ := List.mem_filterMap.mp hc
  obtain ⟨hle, rfl⟩ := nodeEntry_eq_some.mp hc
  have hlt : e < wg.g.myEdges.length := (mem_outEdges.mp he).1
  have hmirrors : wg.scaleWeights.g.Mirrored := hg
  obtain ⟨f, hltf, hf, -, hs, ht⟩ := exists_mirror_of_mirrored hmirrors hlt
  have hne : e ≠ f := by
    rintro rfl
    exact hg.loopless e hlt hs
  have hpos : 0 < wg.sumE := lt_of_le_of_ne wg.sumE_nonneg (Ne.symm hE)
  have hmirrored : wg.scaleWeights.mirroredWeight e ≤ 2000000000 := by
    have hscale : wg.scaleWeights.escale = 2000000000 / wg.sumE := by
      simp [scaleWeights, hV, hE]
    rw [mirroredWeight, hf, Option.map_some, Option.getD_some, scaledWeight, scaledWeight, hscale,
      ← add_mul, mul_div_assoc', div_le_iff₀ hpos, mul_comm]
    exact mul_le_mul_of_nonneg_left (eweights_add_le wg hlt hltf hne) (by norm_num)
  have hfloor : truncate (wg.scaleWeights.mirroredWeight e / 2 + 0.500000001) < 1000000001 := by
    rw [truncate, if_neg (by linarith)]
    refine Int.floor_lt.mpr ?_
    push_cast
    linarith
  omega

/-! ## Edges as vertices -/

/-- The edges with an index. -/
def pipes (wg : WeightedGraph D) : List ℕ :=
  (List.range wg.g.myEdges.length).filter fun e => 0 < wg.eweights e

theorem pipes_nodup : wg.pipes.Nodup := List.nodup_range.filter _

theorem mem_pipes : e ∈ wg.pipes ↔ e < wg.g.myEdges.length ∧ 0 < wg.eweights e := by
  simp [pipes]

theorem indexOfEdge_of_mem (he : e ∈ wg.pipes) : wg.indexOfEdge.2 e = wg.pipes.idxOf e :=
  renumber_of_mem List.nodup_range he

theorem indexOfEdge_eq (he : e < wg.g.myEdges.length) :
    wg.indexOfEdge.2 e = -1 ↔ ¬0 < wg.eweights e := by
  by_cases hw : 0 < wg.eweights e
  · rw [indexOfEdge_of_mem (mem_pipes.mpr ⟨he, hw⟩)]
    simp only [hw, not_true_eq_false, iff_false]
    omega
  · have hnot : wg.indexOfEdge.2 e = -1 :=
      renumber_of_not List.nodup_range (List.mem_range.mpr he) (by simpa using hw)
    simp [hnot, hw]

theorem indexOfEdge_inj (he : e ∈ wg.pipes) (hf : f ∈ wg.pipes)
    (h : wg.indexOfEdge.2 e = wg.indexOfEdge.2 f) : e = f := by
  rw [indexOfEdge_of_mem he, indexOfEdge_of_mem hf, Int.ofNat_inj] at h
  exact (List.idxOf_inj he).mp h

/-- The entry for what flows to or from an edge. -/
def weightEntry (wg : WeightedGraph D) (w : ℚ) (e : ℕ) : ℤ × ℤ :=
  (wg.indexOfEdge.2 e, truncate (w * wg.escale / 2 + 0.5))

theorem transformEntry_eq_some {w : ℚ} {c : ℤ × ℤ} (he : e < wg.g.myEdges.length) :
    wg.transformEntry w e = some c ↔ 0 < w ∧ e ∈ wg.pipes ∧ c = wg.weightEntry w e := by
  simp only [transformEntry, indexOfEdge_eq he, mem_pipes]
  by_cases hw : 0 < w
  · by_cases hpipe : 0 < wg.eweights e
    · simp [hw, hpipe, he, weightEntry, eq_comm]
    · simp [hpipe]
  · simp [hw]

/-- The entries that some edges leave in a row, for one of them. -/
theorem filter_transformEntry {es : List ℕ} (w : ℕ → ℚ) (hes : es.Nodup)
    (hlt : ∀ f ∈ es, f < wg.g.myEdges.length) (he : e ∈ wg.pipes) :
    (es.filterMap fun f => wg.transformEntry (w f) f).filter
        (fun c => c.1 = wg.indexOfEdge.2 e) =
      if e ∈ es ∧ 0 < w e then [wg.weightEntry (w e) e] else [] := by
  have honly : ∀ f ∈ es, ∀ c, wg.transformEntry (w f) f = some c →
      c.1 = wg.indexOfEdge.2 e → f = e ∧ 0 < w f := by
    intro f hf c hc hidx
    obtain ⟨hw, hpipe, rfl⟩ := (transformEntry_eq_some (hlt f hf)).mp hc
    exact ⟨indexOfEdge_inj hpipe he hidx, hw⟩
  split_ifs with h
  · refine List.filter_filterMap_eq_singleton (x := e) hes h.1
      ((transformEntry_eq_some (hlt e h.1)).mpr ⟨h.2, he, rfl⟩) (by simp [weightEntry]) ?_
    exact fun f hf c hc hidx => (honly f hf c hc (by simpa using hidx)).1
  · refine List.filter_eq_nil_iff.mpr fun c hc hidx => ?_
    obtain ⟨f, hf, hc⟩ := List.mem_filterMap.mp hc
    obtain ⟨rfl, hw⟩ := honly f hf c hc (by simpa using hidx)
    exact h ⟨hf, hw⟩

theorem transformRow_back (hflow : wg.Directed) {c : ℤ × ℤ} (he : e ∈ wg.pipes)
    (hc : c ∈ wg.transformRow e) :
    ∃ e1 ∈ wg.pipes, c.1 = wg.indexOfEdge.2 e1 ∧ 0 ≤ c.2 ∧
      (wg.transformRow e1).filter (fun c' => c'.1 = wg.indexOfEdge.2 e) =
        [(wg.indexOfEdge.2 e, c.2)] := by
  obtain ⟨hlt, -⟩ := mem_pipes.mp he
  have hfilter : ∀ e1 ∈ wg.pipes,
      (wg.transformRow e1).filter (fun c' => c'.1 = wg.indexOfEdge.2 e) =
        (if e ∈ wg.g.outEdges (wg.g.target e1) ∧ 0 < wg.flowAcross e1 e
          then [wg.weightEntry (wg.flowAcross e1 e) e] else []) ++
        if e ∈ wg.g.inEdges (wg.g.source e1) ∧ 0 < wg.flowAcross e e1
          then [wg.weightEntry (wg.flowAcross e e1) e] else [] := by
    intro e1 he1
    rw [transformRow, List.filter_append,
      filter_transformEntry _ (outEdges_nodup _ _) (fun f hf => (mem_outEdges.mp hf).1) he,
      filter_transformEntry (fun f => wg.flowAcross f e1) (inEdges_nodup _ _)
        (fun f hf => (mem_inEdges.mp hf).1) he]
  have hnonneg : ∀ w, 0 < w → 0 ≤ truncate (w * wg.escale / 2 + 0.5) := by
    intro w hw
    have := mul_pos hw wg.escale_pos
    exact truncate_nonneg (by linarith)
  rcases List.mem_append.mp hc with hc | hc
  · obtain ⟨e1, he1, hc⟩ := List.mem_filterMap.mp hc
    obtain ⟨hlt1, hs⟩ := mem_outEdges.mp he1
    obtain ⟨hw, hpipe, rfl⟩ := (transformEntry_eq_some hlt1).mp hc
    refine ⟨e1, hpipe, rfl, hnonneg _ hw, ?_⟩
    rw [hfilter e1 hpipe, if_neg fun h => hflow.oneWay e hlt e1 hlt1 ⟨hw, h.2⟩,
      if_pos ⟨mem_inEdges.mpr ⟨hlt, hs.symm⟩, hw⟩]
    rfl
  · obtain ⟨e1, he1, hc⟩ := List.mem_filterMap.mp hc
    obtain ⟨hlt1, ht⟩ := mem_inEdges.mp he1
    obtain ⟨hw, hpipe, rfl⟩ := (transformEntry_eq_some hlt1).mp hc
    refine ⟨e1, hpipe, rfl, hnonneg _ hw, ?_⟩
    rw [hfilter e1 hpipe, if_pos ⟨mem_outEdges.mpr ⟨hlt, ht.symm⟩, hw⟩,
      if_neg fun h => hflow.oneWay e1 hlt1 e hlt ⟨hw, h.2⟩]
    rfl

/-- The entries that some edges leave in a row, where every edge that something flows over has
weight. -/
theorem length_filterMap_transformEntry {es : List ℕ} (w : ℕ → ℚ)
    (hlt : ∀ f ∈ es, f < wg.g.myEdges.length) (hw : ∀ f ∈ es, 0 < w f → f ∈ wg.pipes) :
    (es.filterMap fun f => wg.transformEntry (w f) f).length = es.countP fun f => 0 < w f := by
  rw [List.length_filterMap_eq_countP]
  refine List.countP_congr fun f hf => ?_
  rw [Option.isSome_iff_exists, decide_eq_true_eq]
  constructor
  · rintro ⟨c, hc⟩
    exact ((transformEntry_eq_some (hlt f hf)).mp hc).1
  · intro h
    exact ⟨_, (transformEntry_eq_some (hlt f hf)).mpr ⟨h, hw f hf h, rfl⟩⟩

theorem connectNum_eq : wg.connectNum = (wg.pipes.map fun e =>
    (wg.g.outEdges (wg.g.target e)).countP fun e1 => 0 < wg.flowAcross e e1).sum := by
  rw [connectNum, List.foldl_add_skip, Nat.zero_add, pipes]
  congr 2
  refine List.filter_congr fun e he => ?_
  simp [indexOfEdge_eq (List.mem_range.mp he)]

theorem sum_countP_inEdges (hflow : wg.Directed) : (wg.pipes.map fun e =>
    (wg.g.inEdges (wg.g.source e)).countP fun e1 => 0 < wg.flowAcross e1 e).sum =
      wg.connectNum := by
  have hin : ∀ e ∈ wg.pipes,
      ((wg.g.inEdges (wg.g.source e)).countP fun e1 => 0 < wg.flowAcross e1 e) =
        wg.pipes.countP fun e1 => wg.g.target e1 = wg.g.source e ∧ 0 < wg.flowAcross e1 e := by
    intro e he
    rw [GraphData.inEdges, pipes, List.countP_filter, List.countP_filter]
    refine List.countP_congr fun f hf => ?_
    have := hflow.weighted f (List.mem_range.mp hf) e (mem_pipes.mp he).1
    simp
    tauto
  have hout : ∀ e ∈ wg.pipes,
      ((wg.g.outEdges (wg.g.target e)).countP fun e1 => 0 < wg.flowAcross e e1) =
        wg.pipes.countP fun e1 => wg.g.target e = wg.g.source e1 ∧ 0 < wg.flowAcross e e1 := by
    intro e he
    rw [GraphData.outEdges, pipes, List.countP_filter, List.countP_filter]
    refine List.countP_congr fun f hf => ?_
    have := hflow.weighted e (mem_pipes.mp he).1 f (List.mem_range.mp hf)
    simp
    tauto
  rw [connectNum_eq, List.map_congr_left hin, List.map_congr_left hout]
  exact (List.sum_countP_comm (fun e e1 => _) wg.pipes wg.pipes).symm

/-- Both passes count what flows: the first one where it comes from, the second one at both ends. -/
theorem connectNum_mul_two (hflow : wg.Directed) :
    wg.connectNum * 2 = (wg.pipes.map wg.transformRow).flatten.length := by
  have hrow : ∀ e ∈ wg.pipes, (wg.transformRow e).length =
      ((wg.g.outEdges (wg.g.target e)).countP fun e1 => 0 < wg.flowAcross e e1) +
        (wg.g.inEdges (wg.g.source e)).countP fun e1 => 0 < wg.flowAcross e1 e := by
    intro e he
    obtain ⟨hlt, -⟩ := mem_pipes.mp he
    rw [transformRow, List.length_append, length_filterMap_transformEntry _
        (fun f hf => (mem_outEdges.mp hf).1) fun f hf hw => ?_,
      length_filterMap_transformEntry (fun f => wg.flowAcross f e)
        (fun f hf => (mem_inEdges.mp hf).1) fun f hf hw => ?_]
    · have hltf := (mem_inEdges.mp hf).1
      exact mem_pipes.mpr ⟨hltf, (hflow.weighted f hltf e hlt hw).1⟩
    · have hltf := (mem_outEdges.mp hf).1
      exact mem_pipes.mpr ⟨hltf, (hflow.weighted e hlt f hltf hw).2⟩
  have hlengths : wg.pipes.map (List.length ∘ wg.transformRow) = wg.pipes.map fun e =>
      ((wg.g.outEdges (wg.g.target e)).countP fun e1 => 0 < wg.flowAcross e e1) +
        (wg.g.inEdges (wg.g.source e)).countP fun e1 => 0 < wg.flowAcross e1 e :=
    List.map_congr_left hrow
  rw [List.length_flatten, List.map_map, hlengths, List.sum_map_add, ← connectNum_eq,
    sum_countP_inEdges hflow, mul_two]

/-- `constructTransformGraph` adds the rows of the edges with an index. -/
theorem constructTransformGraph_eq : wg.constructTransformGraph =
    (LibraryArrays.ofRows (wg.pipes.map fun e => truncate (wg.scaledWeight e))
      (wg.pipes.map wg.transformRow)).close (wg.connectNum * 2) := by
  have hfold : (List.range wg.g.myEdges.length).foldl wg.constructEdge ∅ =
      LibraryArrays.ofRows (wg.pipes.map fun e => truncate (wg.scaledWeight e))
        (wg.pipes.map wg.transformRow) := by
    have htotal : 0 + wg.pipes.length = wg.indexOfEdge.1 := by
      rw [Nat.zero_add, indexOfEdge, renumber_count, pipes]
    refine LibraryArrays.foldl_addVertex _ [] [] htotal fun e he a hlt => ?_
    have hindex : wg.indexOfEdge.2 e = -1 ↔ ¬0 < wg.eweights e :=
      indexOfEdge_eq (List.mem_range.mp he)
    rw [constructEdge]
    by_cases hw : 0 < wg.eweights e
    · rw [if_pos (hlt (by simpa using hw)), if_neg (by rw [hindex]; simpa using hw),
        if_pos (by simpa using hw)]
    · rw [if_pos (hindex.mpr hw), ite_self, if_neg (by simpa using hw)]
  rw [constructTransformGraph, hfold, LibraryArrays.close]

theorem constructTransformGraph_valid (hflow : wg.Directed) :
    ValidInput wg.indexOfEdge.1 0 wg.constructTransformGraph := by
  rw [constructTransformGraph_eq, connectNum_mul_two hflow, indexOfEdge, renumber_count]
  exact LibraryArrays.validInput_keys pipes_nodup (fun e he => indexOfEdge_of_mem he)
    fun e he c hc => transformRow_back hflow he hc

end WeightedGraph

/-- What the partitioners get is valid: from a mirrored graph its vertices, with weights of at least
1, and its edges where what flows is weight and does not flow back. -/
theorem partitionerInput_valid (wg : WeightedGraph D) :
    (wg.g.Mirrored → ValidInput wg.indexOfNode.1 1
      (wg.constructGraph.makeEdgeWeightsSymmetric wg.indexOfNode.1)) ∧
    (wg.Directed → ValidInput wg.indexOfEdge.1 0 wg.constructTransformGraph) :=
  ⟨WeightedGraph.constructGraph_valid, WeightedGraph.constructTransformGraph_valid⟩

/-- Two vertices, a pipe in each direction, and a flow that comes back. -/
def loopedPipes : WeightedGraph Unit where
  g :=
    { (∅ : GraphData Unit) with
      myVertices := [∅, ∅]
      myEdges := [⟨0, 1, ∅⟩, ⟨1, 0, ∅⟩]
      built := ⟨by simp, by simp, by decide, by decide⟩ }
  flowMap := fun s t => if s = 0 ∧ t = 1 then some 2 else none
  eweights := fun e => if e = 0 then 3 else 2
  vweights := fun v => if v = 0 then 2 else 3
  vscale := 1
  escale := 1
  maxVWeight := 0
  maxEWeight := 0
  eweights_nonneg := fun e => by split_ifs <;> norm_num
  vweights_nonneg := fun v => by split_ifs <;> norm_num
  vscale_pos := by norm_num
  escale_pos := by norm_num

theorem loopedPipes_valid :
    ValidInput loopedPipes.indexOfNode.1 1
      (loopedPipes.constructGraph.makeEdgeWeightsSymmetric loopedPipes.indexOfNode.1) ∧
    ValidInput loopedPipes.indexOfEdge.1 0 loopedPipes.constructTransformGraph := by
  refine ⟨(partitionerInput_valid loopedPipes).1 ⟨by decide, by decide, by decide⟩,
    (partitionerInput_valid loopedPipes).2 ⟨fun e _ e1 _ _ => ?_, fun e _ e1 _ h => ?_⟩⟩
  · constructor <;> simp only [loopedPipes] <;> split_ifs <;> norm_num
  · simp only [WeightedGraph.flowAcross, loopedPipes] at h
    split_ifs at h <;> simp at h
    omega

end Modelnet.Tools

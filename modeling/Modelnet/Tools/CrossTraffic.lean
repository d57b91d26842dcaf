import Mathlib.Algebra.BigOperators.Field
import Modelnet.Tools.Assignment

/-!
# Cross traffic

What METIS makes small is what the assignments are compared by. In the graph of the pipes the edges
between two parts have the cross traffic for their weight, up to the rounding of the weights
(`abs_cutEntries_sub_le`), so what `main` saves has no more cross traffic than any assignment that
METIS finds no better, but for the rounding (`assignMain_cross_le`).
-/

namespace Modelnet.Tools

variable {D : Type}

/-! ## Sums over lists -/

/-- A sum over the values of some numbers, as one over all of them. -/
theorem sum_filterMap_range (n : ℕ) (p : ℕ → Bool) {α : Type*} (f : ℕ → Option α) (g : α → ℚ) :
    ((((List.range n).filter p).filterMap f).map g).sum =
      ∑ i ∈ Finset.range n, if p i then ((f i).map g).getD 0 else 0 := by
  have hlist : ∀ l : List ℕ, (((l.filter p).filterMap f).map g).sum =
      (l.map fun i => if p i then ((f i).map g).getD 0 else 0).sum := by
    intro l
    induction l with
    | nil => rfl
    | cons i l ih =>
      rw [List.map_cons, List.sum_cons, ← ih]
      by_cases hp : p i
      · cases hf : f i <;> simp [hp, hf]
      · simp [hp]
  exact hlist (List.range n)

namespace WeightedGraph

variable {wg : WeightedGraph D} {e e1 : ℕ}

/-! ## The score is a cut -/

theorem foldl_addStress (assignment : ℕ → ℤ) (a : ℤ) (stress : ℚ) (fs : List (ℕ × ℚ)) :
    fs.foldl (addStress assignment a) stress =
      stress + (fs.map fun f => if assignment f.1 ≠ a then f.2 else 0).sum := by
  induction fs generalizing stress with
  | nil => simp
  | cons f fs ih =>
    rw [List.foldl_cons, ih, List.map_cons, List.sum_cons, addStress]
    split_ifs <;> ring

theorem stress_flowsOver (assignment : ℕ → ℤ) (e : ℕ) :
    ((wg.flowsOver e).map fun f => if assignment f.1 ≠ assignment e then f.2 else 0).sum =
      ∑ e1 ∈ Finset.range wg.g.myEdges.length,
        if assignment e1 ≠ assignment e then wg.flowAcross e e1 else 0 := by
  have hall : List.range wg.g.myEdges.length =
      (List.range wg.g.myEdges.length).filter fun _ => true := by simp
  rw [flowsOver, hall, sum_filterMap_range]
  refine Finset.sum_congr rfl fun e1 _ => ?_
  rw [if_pos rfl, flowAcross, Option.map_map]
  cases wg.flowMap e e1 <;> simp

theorem getStress_eq (wg : WeightedGraph D) (assignment : ℕ → ℤ) : wg.getStress assignment =
    Cuts.cut (Finset.range wg.g.myEdges.length) wg.flowAcross assignment := by
  have hsum : ∀ (es : List ℕ) (x : ℚ), es.foldl (fun stress e =>
      (wg.flowsOver e).foldl (addStress assignment (assignment e)) stress) x =
        x + (es.map fun e => ∑ e1 ∈ Finset.range wg.g.myEdges.length,
          if assignment e1 ≠ assignment e then wg.flowAcross e e1 else 0).sum := by
    intro es
    induction es with
    | nil => simp
    | cons e es ih =>
      intro x
      rw [List.foldl_cons, ih, foldl_addStress, stress_flowsOver, List.map_cons, List.sum_cons,
        add_assoc]
  rw [getStress, hsum, zero_add]
  rfl

/-! ## The loop over the edges -/

theorem foldl_dealEdge_of_notMem {parts : ℕ} {assignvec : ℕ → ℤ} {es : List ℕ} (he : e ∉ es)
    (s : PipeDealing) : (es.foldl (wg.dealEdge parts assignvec) s).assigns e = s.assigns e := by
  induction es generalizing s with
  | nil => rfl
  | cons f es ih =>
    have hne : e ≠ f := List.ne_of_not_mem_cons he
    rw [List.foldl_cons, ih (List.not_mem_of_not_mem_cons he), dealEdge]
    split_ifs
    · exact Function.update_of_ne hne _ _
    · exact Function.update_of_ne hne _ _

/-- An edge with an index gets the part that METIS has given to it. -/
theorem assignEdges_assigns (parts : ℕ) (assignvec : ℕ → ℤ) (he : e ∈ wg.pipes) :
    (wg.assignEdges parts assignvec).assigns e = assignvec (wg.pipes.idxOf e) := by
  have hrange : e ∈ List.range wg.g.myEdges.length := (List.mem_filter.mp he).1
  obtain ⟨xs, ys, hsplit⟩ := List.append_of_mem hrange
  have hnodup : (xs ++ e :: ys).Nodup := hsplit ▸ List.nodup_range
  have hnot : e ∉ ys := (List.nodup_cons.mp (List.nodup_append.mp hnodup).2.1).1
  have hindex := indexOfEdge_of_mem he
  rw [assignEdges, hsplit, List.foldl_append, List.foldl_cons, foldl_dealEdge_of_notMem hnot,
    dealEdge, if_neg (by omega), hindex, Int.toNat_natCast]
  exact Function.update_self ..

end WeightedGraph

/-! ## The entries of the arrays -/

namespace LibraryArrays

variable {rows : List (List (ℤ × ℤ))} {u : ℕ}

theorem map_places (weights : List ℤ) (hu : u < rows.length) :
    let a := (ofRows weights rows).close rows.flatten.length
    (a.places u).map (fun i => (a.adjacency.getD i 0, a.eweights.getD i 0)) = rows[u] := by
  intro a
  have hxadj : ∀ v ≤ rows.length, a.xadj.getD v 0 = Rows.offset rows v := by
    intro v hv
    rw [List.getD_eq_getElem?_getD, close_ofRows_xadj, List.getElem?_map,
      List.getElem?_range (Nat.lt_succ_of_le hv)]
    rfl
  have hplaces : a.places u = List.range' (Rows.offset rows u) rows[u].length := by
    rw [places, hxadj u hu.le, hxadj (u + 1) hu, Rows.offset_succ hu, Nat.add_sub_cancel_left]
  rw [hplaces, List.range'_eq_map_range, List.map_map]
  refine List.ext_getElem (by simp) fun k hk hk' => ?_
  have hentry := Rows.getElem?_flatten hu hk'
  rw [List.getElem?_eq_getElem hk'] at hentry
  have hadj : a.adjacency = rows.flatten.map Prod.fst := rfl
  have hew : a.eweights = rows.flatten.map Prod.snd := rfl
  rw [List.getElem_map, List.getElem_range, Function.comp_apply, hadj, hew,
    List.getD_eq_getElem?_getD, List.getD_eq_getElem?_getD, List.getElem?_map, List.getElem?_map,
    hentry]
  rfl

theorem cutEntries_ofRows {weights : List ℤ} (part : ℕ → ℤ) :
    ((ofRows weights rows).close rows.flatten.length).cutEntries rows.length part =
      ((List.range rows.length).map fun u => ((rows.getD u []).map fun c =>
        if part c.1.toNat ≠ part u then c.2 else 0).sum).sum := by
  refine congrArg List.sum (List.map_congr_left fun u hu => ?_)
  have hlt := List.mem_range.mp hu
  rw [List.getD_eq_getElem?_getD, List.getElem?_eq_getElem hlt, Option.getD_some,
    ← map_places weights hlt, List.map_map]
  rfl

end LibraryArrays

namespace WeightedGraph

variable {wg : WeightedGraph D} {e e1 : ℕ}

/-! ## The graph of the pipes -/

/-- The weight of the entries for what flows from a pipe to another one. -/
def entryWeight (wg : WeightedGraph D) (e e1 : ℕ) : ℤ :=
  if 0 < wg.flowAcross e e1 then truncate (wg.flowAcross e e1 * wg.escale / 2 + 0.5) else 0

theorem abs_entryWeight_sub_le (h : wg.Routed) (he : e < wg.g.myEdges.length)
    (he1 : e1 < wg.g.myEdges.length) :
    |(wg.entryWeight e e1 : ℚ) - wg.escale / 2 * wg.flowAcross e e1| ≤
      if 0 < wg.flowAcross e e1 then 1 / 2 else 0 := by
  have hscale := wg.escale_pos
  rw [entryWeight]
  split_ifs with hpos
  · have hprod := mul_pos hpos hscale
    rw [truncate, if_neg (by linarith)]
    have hle := Int.floor_le (wg.flowAcross e e1 * wg.escale / 2 + 0.5)
    have hlt := Int.lt_floor_add_one (wg.flowAcross e e1 * wg.escale / 2 + 0.5)
    rw [abs_le]
    constructor <;> linarith
  · have hzero : wg.flowAcross e e1 = 0 := le_antisymm (not_lt.mp hpos) (h.nonneg e he e1 he1)
    simp [hzero]

/-- What the entries for some neighbours of a pipe add to the cut. -/
theorem sum_transformEntry {part assignment : ℕ → ℤ} (p : ℕ → Bool) (w : ℕ → ℚ) (a : ℤ)
    (hpart : ∀ f ∈ wg.pipes, part (wg.indexOfEdge.2 f).toNat = assignment f)
    (hw : ∀ f < wg.g.myEdges.length, 0 < w f → p f = true ∧ f ∈ wg.pipes) :
    (((((List.range wg.g.myEdges.length).filter p).filterMap fun f => wg.transformEntry (w f) f).map
        fun c => ((if part c.1.toNat ≠ a then c.2 else 0 : ℤ) : ℚ)).sum) =
      ∑ f ∈ Finset.range wg.g.myEdges.length, if assignment f ≠ a then
        ((if 0 < w f then truncate (w f * wg.escale / 2 + 0.5) else 0 : ℤ) : ℚ) else 0 := by
  rw [sum_filterMap_range]
  refine Finset.sum_congr rfl fun f hf => ?_
  have hlt := Finset.mem_range.mp hf
  by_cases hpos : 0 < w f
  · obtain ⟨hp, hpipe⟩ := hw f hlt hpos
    have hentry := (transformEntry_eq_some hlt).mpr ⟨hpos, hpipe, rfl⟩
    rw [if_pos hp, hentry, Option.map_some, Option.getD_some, if_pos hpos, weightEntry]
    dsimp only
    rw [hpart f hpipe]
    split_ifs <;> simp
  · have hnone : wg.transformEntry (w f) f = none := by simp [transformEntry, hpos]
    rw [hnone, if_neg hpos]
    simp

theorem sum_transformRow (h : wg.Routed) {part assignment : ℕ → ℤ}
    (hpart : ∀ f ∈ wg.pipes, assignment f = part (wg.pipes.idxOf f)) (he : e ∈ wg.pipes) :
    ((wg.transformRow e).map fun c =>
        ((if part c.1.toNat ≠ assignment e then c.2 else 0 : ℤ) : ℚ)).sum =
      ∑ f ∈ Finset.range wg.g.myEdges.length,
        ((if assignment f ≠ assignment e then (wg.entryWeight e f : ℚ) else 0) +
          if assignment f ≠ assignment e then (wg.entryWeight f e : ℚ) else 0) := by
  obtain ⟨hlt, -⟩ := mem_pipes.mp he
  have hindex : ∀ f ∈ wg.pipes, part (wg.indexOfEdge.2 f).toNat = assignment f := by
    intro f hf
    rw [indexOfEdge_of_mem hf, Int.toNat_natCast, hpart f hf]
  have hout := sum_transformEntry (fun f => wg.g.source f = wg.g.target e) (wg.flowAcross e)
    (assignment e) hindex fun f hf hpos => by
      refine ⟨by simpa using (h.adjacent e hlt f hf hpos).symm, mem_pipes.mpr ⟨hf, ?_⟩⟩
      exact (h.weighted e hlt f hf hpos).2
  have hin := sum_transformEntry (fun f => wg.g.target f = wg.g.source e)
    (fun f => wg.flowAcross f e) (assignment e) hindex fun f hf hpos => by
      refine ⟨by simpa using h.adjacent f hf e hlt hpos, mem_pipes.mpr ⟨hf, ?_⟩⟩
      exact (h.weighted f hf e hlt hpos).1
  rw [transformRow, List.map_append, List.sum_append, GraphData.outEdges, GraphData.inEdges, hout,
    hin, Finset.sum_add_distrib]
  rfl

/-- **The graph of the pipes.** A flow has an entry at each of its pipes, so the entries between two
parts weigh twice the cut of the entries for the flows. -/
theorem cutEntries_eq (h : wg.Routed) {part assignment : ℕ → ℤ}
    (hpart : ∀ f ∈ wg.pipes, assignment f = part (wg.pipes.idxOf f)) :
    (wg.constructTransformGraph.cutEntries wg.indexOfEdge.1 part : ℚ) =
      2 * Cuts.cut (Finset.range wg.g.myEdges.length)
        (fun e e1 => (wg.entryWeight e e1 : ℚ)) assignment := by
  have hrows : (wg.pipes.map wg.transformRow).length = wg.indexOfEdge.1 := by
    rw [List.length_map, indexOfEdge, renumber_count, pipes]
  have hlist : wg.constructTransformGraph.cutEntries wg.indexOfEdge.1 part =
      (wg.pipes.map fun e => ((wg.transformRow e).map fun c =>
        if part c.1.toNat ≠ assignment e then c.2 else 0).sum).sum := by
    rw [constructTransformGraph_eq, connectNum_mul_two h.toDirected, ← hrows,
      LibraryArrays.cutEntries_ofRows]
    refine congrArg List.sum (List.ext_getElem (by simp) fun u hu hu' => ?_)
    have hlt : u < wg.pipes.length := by simpa using hu'
    have hplace : wg.pipes.idxOf wg.pipes[u] = u := pipes_nodup.idxOf_getElem u hlt
    rw [List.getElem_map, List.getElem_map, List.getElem_range, List.getD_eq_getElem?_getD,
      List.getElem?_map, List.getElem?_eq_getElem hlt, Option.map_some, Option.getD_some,
      hpart _ (List.getElem_mem hlt), hplace]
  -- a pipe without weight has no entries
  have hnone : ∀ e < wg.g.myEdges.length, ¬0 < wg.eweights e →
      ∀ f < wg.g.myEdges.length, wg.entryWeight e f = 0 ∧ wg.entryWeight f e = 0 := by
    intro e he hw f hf
    refine ⟨if_neg fun hpos => hw (h.weighted e he f hf hpos).1, if_neg fun hpos => ?_⟩
    exact hw (h.weighted f hf e he hpos).2
  have hsum : (wg.constructTransformGraph.cutEntries wg.indexOfEdge.1 part : ℚ) =
      ∑ e ∈ Finset.range wg.g.myEdges.length, ∑ f ∈ Finset.range wg.g.myEdges.length,
        ((if assignment f ≠ assignment e then (wg.entryWeight e f : ℚ) else 0) +
          if assignment f ≠ assignment e then (wg.entryWeight f e : ℚ) else 0) := by
    have hpipes := sum_filterMap_range wg.g.myEdges.length (fun e => 0 < wg.eweights e) some
      fun e => ((((wg.transformRow e).map fun c =>
        if part c.1.toNat ≠ assignment e then c.2 else 0).sum : ℤ) : ℚ)
    rw [List.filterMap_some] at hpipes
    rw [hlist, Int.cast_list_sum, List.map_map]
    refine hpipes.trans (Finset.sum_congr rfl fun e he => ?_)
    have hlt := Finset.mem_range.mp he
    by_cases hw : 0 < wg.eweights e
    · rw [if_pos (by simpa using hw), Option.map_some, Option.getD_some,
        ← sum_transformRow h hpart (mem_pipes.mpr ⟨hlt, hw⟩), Int.cast_list_sum, List.map_map]
      rfl
    · rw [if_neg (by simpa using hw)]
      refine (Finset.sum_eq_zero fun f hf => ?_).symm
      obtain ⟨hto, hfrom⟩ := hnone e hlt hw f (Finset.mem_range.mp hf)
      simp [hto, hfrom]
  have hswap : (∑ e ∈ Finset.range wg.g.myEdges.length, ∑ f ∈ Finset.range wg.g.myEdges.length,
      if assignment f ≠ assignment e then (wg.entryWeight f e : ℚ) else 0) =
        Cuts.cut (Finset.range wg.g.myEdges.length) (fun e e1 => (wg.entryWeight e e1 : ℚ))
          assignment := by
    rw [Finset.sum_comm, Cuts.cut]
    simp only [ne_comm]
  rw [hsum]
  simp only [Finset.sum_add_distrib]
  rw [hswap, two_mul]
  rfl

/-- `connectNum` counts the pairs of pipes with something that flows. -/
theorem connectNum_eq_sum (h : wg.Routed) : (wg.connectNum : ℚ) =
    ∑ e ∈ Finset.range wg.g.myEdges.length, ∑ f ∈ Finset.range wg.g.myEdges.length,
      if 0 < wg.flowAcross e f then 1 else 0 := by
  have hcount : ∀ e < wg.g.myEdges.length,
      (((wg.g.outEdges (wg.g.target e)).countP fun f => 0 < wg.flowAcross e f : ℕ) : ℚ) =
        ∑ f ∈ Finset.range wg.g.myEdges.length, if 0 < wg.flowAcross e f then 1 else 0 := by
    intro e he
    have hall : ((wg.g.outEdges (wg.g.target e)).countP fun f => 0 < wg.flowAcross e f) =
        (List.range wg.g.myEdges.length).countP fun f => 0 < wg.flowAcross e f := by
      rw [GraphData.outEdges, List.countP_filter]
      refine List.countP_congr fun f hf => ?_
      have hadj := h.adjacent e he f (List.mem_range.mp hf)
      simp only [Bool.and_eq_true, decide_eq_true_eq, and_iff_left_iff_imp]
      exact fun hpos => (hadj hpos).symm
    rw [hall, ← List.sum_indicator, Nat.cast_list_sum, List.map_map]
    refine congrArg List.sum (List.map_congr_left fun f _ => ?_)
    simp
  have hpipes := sum_filterMap_range wg.g.myEdges.length (fun e => 0 < wg.eweights e) some
    fun e => (((wg.g.outEdges (wg.g.target e)).countP fun f => 0 < wg.flowAcross e f : ℕ) : ℚ)
  rw [List.filterMap_some] at hpipes
  rw [connectNum_eq, Nat.cast_list_sum, List.map_map]
  refine hpipes.trans (Finset.sum_congr rfl fun e he => ?_)
  have hlt := Finset.mem_range.mp he
  rw [← hcount e hlt]
  split_ifs with hw
  · rfl
  · -- nothing flows from a pipe without weight
    have hzero : ((wg.g.outEdges (wg.g.target e)).countP fun f => 0 < wg.flowAcross e f) = 0 := by
      refine List.countP_eq_zero.mpr fun f hf hpos => hw ?_
      have := (h.weighted e hlt f (mem_outEdges.mp hf).1 (by simpa using hpos)).1
      simpa using this
    rw [hzero, Nat.cast_zero]

theorem sum_rounding (h : wg.Routed) : (∑ e ∈ Finset.range wg.g.myEdges.length,
    ∑ f ∈ Finset.range wg.g.myEdges.length,
      if 0 < wg.flowAcross e f then (1 / 2 : ℚ) else 0) = wg.connectNum / 2 := by
  rw [connectNum_eq_sum h, Finset.sum_div]
  refine Finset.sum_congr rfl fun e _ => ?_
  rw [Finset.sum_div]
  refine Finset.sum_congr rfl fun f _ => ?_
  split_ifs <;> simp

variable {parts : ℕ} {assignvec : ℕ → ℤ}

/-- **What METIS sees is the score**: the entries between two parts weigh the cross traffic, scaled,
up to one for each pair of pipes that something flows between. -/
theorem abs_cutEntries_sub_le (h : wg.Routed) (parts : ℕ) (assignvec : ℕ → ℤ) :
    |(wg.constructTransformGraph.cutEntries wg.indexOfEdge.1 assignvec : ℚ) -
      wg.escale * wg.getStress (wg.assignEdges parts assignvec).assigns| ≤ wg.connectNum := by
  have hcut := Cuts.abs_cut_sub_le (S := Finset.range wg.g.myEdges.length)
    (fun e he f hf => abs_entryWeight_sub_le h (Finset.mem_range.mp he) (Finset.mem_range.mp hf))
    (wg.assignEdges parts assignvec).assigns
  rw [sum_rounding h] at hcut
  rw [cutEntries_eq h fun f hf => assignEdges_assigns parts assignvec hf, getStress_eq]
  rw [abs_le] at hcut ⊢
  constructor <;> linarith [hcut.1, hcut.2]

theorem partsOf_idxOf (other : ℕ → ℤ) (he : e ∈ wg.pipes) :
    other e = wg.partsOf other (wg.pipes.idxOf e) := by
  rw [partsOf, List.getD_eq_getElem?_getD,
    List.getElem?_eq_getElem (List.idxOf_lt_length_of_mem he), Option.getD_some,
    List.getElem_idxOf]

/-- An assignment that METIS finds no better is not much better. -/
theorem getStress_assignEdges_le (h : wg.Routed) {other : ℕ → ℤ}
    (hcut : wg.constructTransformGraph.cutEntries wg.indexOfEdge.1 assignvec ≤
      wg.constructTransformGraph.cutEntries wg.indexOfEdge.1 (wg.partsOf other)) :
    wg.getStress (wg.assignEdges parts assignvec).assigns ≤
      wg.getStress other + 2 * wg.connectNum / wg.escale := by
  have hcutQ := (Int.cast_le (R := ℚ)).mpr hcut
  rw [cutEntries_eq h fun f hf => assignEdges_assigns parts assignvec hf,
    cutEntries_eq h fun f hf => partsOf_idxOf other hf] at hcutQ
  have hle := Cuts.mul_cut_le (S := Finset.range wg.g.myEdges.length)
    (fun e he f hf => abs_entryWeight_sub_le h (Finset.mem_range.mp he) (Finset.mem_range.mp hf))
    (le_of_mul_le_mul_left hcutQ zero_lt_two)
  rw [sum_rounding h, ← getStress_eq, ← getStress_eq] at hle
  rw [← sub_le_iff_le_add', le_div_iff₀ wg.escale_pos]
  linarith

end WeightedGraph

/-! ## The best assignment -/

section

variable {wg : WeightedGraph D} {metis : LibraryArrays → ℕ → ℕ → ℤ} {draws : ℕ → ℕ → ℕ} {fuel : ℕ}
  {methods : List Method} {splits : List ℤ} {s s' : Search} {x : ℚ}

/-- The best assignment has a cross traffic of at most `x`. -/
def Search.AtMost (wg : WeightedGraph D) (s : Search) (x : ℚ) : Prop :=
  ∃ best, s.best = some best ∧ wg.getStress best ≤ x

/-- **One try.** The best assignment stays as good, and is as good as the new one. -/
theorem tryMethod_atMost {numCores : ℕ} {f : Method}
    (h : tryMethod wg metis draws fuel numCores s f = some s') :
    (∀ x, s.AtMost wg x → s'.AtMost wg x) ∧
      ∃ a, f.assign wg metis fuel numCores (draws s.tries) = some a ∧
        s'.AtMost wg (wg.getStress a) := by
  obtain ⟨a, ha, rfl⟩ := Option.map_eq_some_iff.mp h
  cases hbest : s.best with
  | none =>
    refine ⟨fun x ⟨best, hb, _⟩ => ?_, a, ha, a, rfl, le_rfl⟩
    rw [hbest] at hb
    cases hb
  | some best =>
    dsimp only
    split_ifs with hlt
    · refine ⟨fun x ⟨b, hb, hle⟩ => ⟨a, rfl, ?_⟩, a, ha, a, rfl, le_rfl⟩
      obtain rfl : best = b := Option.some.inj (hbest.symm.trans hb)
      exact hlt.le.trans hle
    · refine ⟨fun x ⟨b, hb, hle⟩ => ⟨best, rfl, ?_⟩, a, ha, best, rfl, not_lt.mp hlt⟩
      obtain rfl : best = b := Option.some.inj (hbest.symm.trans hb)
      exact hle

theorem tryMethods_atMost {numCores : ℕ}
    (h : methods.foldlM (tryMethod wg metis draws fuel numCores) s = some s') :
    (∀ x, s.AtMost wg x → s'.AtMost wg x) ∧ ∀ f ∈ methods, ∃ a draw,
      f.assign wg metis fuel numCores draw = some a ∧ s'.AtMost wg (wg.getStress a) := by
  induction methods generalizing s with
  | nil =>
    cases h
    exact ⟨fun _ => id, fun f hf => absurd hf List.not_mem_nil⟩
  | cons m methods ih =>
    rw [List.foldlM_cons] at h
    obtain ⟨s₁, hfirst, hrest⟩ := Option.bind_eq_some_iff.mp h
    obtain ⟨hstays₁, a, ha, hle⟩ := tryMethod_atMost hfirst
    obtain ⟨hstays, htried⟩ := ih hrest
    refine ⟨fun x hx => hstays x (hstays₁ x hx), fun f hf => ?_⟩
    rcases List.mem_cons.mp hf with rfl | hf
    · exact ⟨a, _, ha, hstays _ hle⟩
    · exact htried f hf

theorem tryCores_atMost {numCores : ℤ}
    (h : tryCores wg metis draws fuel methods s numCores = some s') :
    (∀ x, s.AtMost wg x → s'.AtMost wg x) ∧ (1 < numCores → ∀ f ∈ methods, ∃ a draw,
      f.assign wg metis fuel numCores.toNat draw = some a ∧ s'.AtMost wg (wg.getStress a)) := by
  unfold tryCores at h
  split_ifs at h with hlt hnil
  · obtain ⟨hstays, htried⟩ := tryMethods_atMost h
    exact ⟨hstays, fun _ => htried⟩
  · cases h
    exact ⟨fun _ => id, fun hlt' => absurd hlt' hlt⟩
  · cases h
    exact ⟨fun _ => id, fun hlt' => absurd hlt' hlt⟩

/-- **All tries.** What is best in the end is as good as what any method gives for any number of
cores. -/
theorem foldlM_tryCores_atMost
    (h : splits.foldlM (tryCores wg metis draws fuel methods) s = some s') :
    (∀ x, s.AtMost wg x → s'.AtMost wg x) ∧ ∀ numCores ∈ splits, 1 < numCores →
      ∀ f ∈ methods, ∃ a draw,
        f.assign wg metis fuel numCores.toNat draw = some a ∧ s'.AtMost wg (wg.getStress a) := by
  induction splits generalizing s with
  | nil =>
    cases h
    exact ⟨fun _ => id, fun n hn => absurd hn List.not_mem_nil⟩
  | cons m splits ih =>
    rw [List.foldlM_cons] at h
    obtain ⟨s₁, hfirst, hrest⟩ := Option.bind_eq_some_iff.mp h
    obtain ⟨hstays₁, htried₁⟩ := tryCores_atMost hfirst
    obtain ⟨hstays, htried⟩ := ih hrest
    refine ⟨fun x hx => hstays x (hstays₁ x hx), fun n hn hlt f hf => ?_⟩
    rcases List.mem_cons.mp hn with rfl | hn
    · obtain ⟨a, draw, ha, hle⟩ := htried₁ hlt f hf
      exact ⟨a, draw, ha, hstays _ hle⟩
    · exact htried n hn hlt f hf

/-- **The file that is saved.** No method has found an assignment with less cross traffic, for any
of the numbers of cores. -/
theorem getStress_assignMain_le {emul : ℕ → ℤ}
    (h : assignMain wg metis draws fuel methods splits = some (some emul)) {numCores : ℤ}
    (hcores : numCores ∈ splits) (hlt : 1 < numCores) {f : Method} (hf : f ∈ methods) :
    ∃ a draw, f.assign wg metis fuel numCores.toNat draw = some a ∧
      wg.getStress emul ≤ wg.getStress a := by
  unfold assignMain at h
  split_ifs at h
  obtain ⟨s, hrun, hs⟩ := Option.map_eq_some_iff.mp h
  obtain ⟨a, draw, ha, best, hbest, hle⟩ := (foldlM_tryCores_atMost hrun).2 numCores hcores hlt f hf
  rw [hbest, Option.some_or] at hs
  obtain rfl : best = emul := Option.some.inj hs
  exact ⟨a, draw, ha, hle⟩

end

/-- **Cross traffic.** With `metis_edge` among the methods, what `assign` saves has no more cross
traffic than any assignment whose edge cut is not less than that of METIS, up to the rounding of the
weights. -/
theorem assignMain_cross_le (wg : WeightedGraph D) (h : wg.Routed)
    (metis : LibraryArrays → ℕ → ℕ → ℤ) (draws : ℕ → ℕ → ℕ) (fuel : ℕ) (methods : List Method)
    (splits : List ℤ) (emul : ℕ → ℤ)
    (hrun : assignMain wg metis draws fuel methods splits = some (some emul))
    (hmethod : .metisEdge ∈ methods) (numCores : ℤ) (hcores : numCores ∈ splits)
    (hlt : 1 < numCores) (other : ℕ → ℤ)
    (hcut : wg.constructTransformGraph.cutEntries wg.indexOfEdge.1
        (metis wg.constructTransformGraph numCores.toNat) ≤
      wg.constructTransformGraph.cutEntries wg.indexOfEdge.1 (wg.partsOf other)) :
    wg.getStress emul ≤ wg.getStress other + 2 * wg.connectNum / wg.escale := by
  obtain ⟨a, draw, ha, hle⟩ := getStress_assignMain_le hrun hcores hlt hmethod
  cases ha
  exact hle.trans (WeightedGraph.getStress_assignEdges_le h hcut)

/-- Three pipes in a row, where less flows on to the last one. -/
def pipesInRow : WeightedGraph Unit :=
  { restlessPipes with
    g :=
      { (∅ : GraphData Unit) with
        myVertices := [∅, ∅, ∅, ∅]
        myEdges := [⟨0, 1, ∅⟩, ⟨1, 2, ∅⟩, ⟨2, 3, ∅⟩]
        built := ⟨by simp, by simp, by decide, by decide⟩ }
    flowMap := fun s t => if s = 0 ∧ t = 1 then some 4 else if s = 1 ∧ t = 2 then some 2 else none
    eweights := fun e => if e = 2 then 2 else 4
    vweights := fun v => if v = 0 then 0 else if v = 3 then 2 else 4
    maxVWeight := 4
    maxEWeight := 4
    eweights_nonneg := fun e => by split_ifs <;> norm_num
    vweights_nonneg := fun v => by split_ifs <;> norm_num }

theorem routed_pipesInRow : pipesInRow.Routed where
  weighted := by decide +kernel
  oneWay := by decide +kernel
  nonneg := by decide +kernel
  adjacent := by decide +kernel

/-- METIS keeps the first two pipes together, so no more is cut than with these apart. -/
theorem pipesInRow_cross : ∃ emul,
    assignMain pipesInRow (fun _ _ u => if u = 2 then 1 else 0) (fun _ e => e) 0
      [.metisEdge, .random] [2] = some (some emul) ∧
    pipesInRow.getStress emul ≤ pipesInRow.getStress (fun e => if e = 0 then 0 else 1) +
      2 * pipesInRow.connectNum / pipesInRow.escale := by
  have hsome : ((assignMain pipesInRow (fun _ _ u => if u = 2 then 1 else 0) (fun _ e => e) 0
      [.metisEdge, .random] [2]).bind id).isSome := by decide +kernel
  obtain ⟨emul, hemul⟩ := Option.isSome_iff_exists.mp hsome
  obtain ⟨r, hrun, rfl⟩ := Option.bind_eq_some_iff.mp hemul
  refine ⟨emul, hrun, ?_⟩
  exact assignMain_cross_le pipesInRow routed_pipesInRow _ _ _ _ _ emul hrun (by decide) 2
    (by decide) (by decide) _ (by decide +kernel)

end Modelnet.Tools

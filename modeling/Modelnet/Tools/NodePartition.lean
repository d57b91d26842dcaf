import Modelnet.Tools.CrossTraffic

/-!
# Partitions of the vertices

When METIS partitions the vertices, a pipe with weight goes to the core of one of its ends. What is
cut is then next to a pipe between two cores, so the cross traffic is at most what flows into and
out of these pipes: twice the printed edge cut, if no more flows into a pipe or out of it than its
weight (`assignByNode_cross_le`).
-/

namespace Modelnet.Tools

variable {D : Type}

/-- No more flows into a pipe or out of it than its weight. -/
structure WeightedGraph.Bounded (wg : WeightedGraph D) : Prop where
  inflow : ∀ e < wg.g.myEdges.length,
    ∑ a ∈ Finset.range wg.g.myEdges.length, wg.flowAcross a e ≤ wg.eweights e
  outflow : ∀ e < wg.g.myEdges.length,
    ∑ b ∈ Finset.range wg.g.myEdges.length, wg.flowAcross e b ≤ wg.eweights e

namespace WeightedGraph

variable {wg : WeightedGraph D} {e : ℕ}

/-! ## One edge -/

theorem indexOfNode_ne (he : e < wg.g.myEdges.length) (hw : 0 < wg.eweights e) :
    wg.indexOfNode.2 (wg.g.target e) ≠ -1 ∧ wg.indexOfNode.2 (wg.g.source e) ≠ -1 := by
  have htarget : wg.g.target e ∈ wg.nodes := by
    refine mem_nodes.mpr ⟨GraphData.target_lt wg.g.built he, ?_⟩
    rw [hasWeight, Bool.or_eq_true, List.any_eq_true]
    exact Or.inr ⟨e, mem_inEdges.mpr ⟨he, rfl⟩, by simpa using hw⟩
  have hsource : wg.g.source e ∈ wg.nodes := by
    refine mem_nodes.mpr ⟨GraphData.source_lt wg.g.built he, ?_⟩
    rw [hasWeight, Bool.or_eq_true, Bool.or_eq_true, List.any_eq_true]
    exact Or.inl (Or.inr ⟨e, mem_outEdges.mpr ⟨he, rfl⟩, by simpa using hw⟩)
  rw [indexOfNode_of_mem htarget, indexOfNode_of_mem hsource]
  constructor <;> omega

def cutWeight (wg : WeightedGraph D) (assignvec : ℕ → ℤ) (e : ℕ) : ℚ :=
  if wg.placeOf assignvec (wg.g.source e) ≠ wg.placeOf assignvec (wg.g.target e) then
    wg.eweights e
  else 0

variable (parts : ℕ) (assignvec : ℕ → ℤ)

/-- **One edge.** It goes to one of its ends if it has weight, and is counted if it is cut; nothing
is fishy about it. -/
theorem dealByNode_spec (he : e < wg.g.myEdges.length) (s : NodeDealing) :
    (wg.dealByNode parts assignvec s e).fishy = s.fishy ∧
    (wg.dealByNode parts assignvec s e).edgeCut = s.edgeCut + wg.cutWeight assignvec e ∧
    (∀ f, f ≠ e → (wg.dealByNode parts assignvec s e).assigns f = s.assigns f) ∧
    (0 < wg.eweights e →
      (wg.dealByNode parts assignvec s e).assigns e = wg.placeOf assignvec (wg.g.source e) ∨
      (wg.dealByNode parts assignvec s e).assigns e = wg.placeOf assignvec (wg.g.target e)) := by
  by_cases hnil : wg.indexOfNode.2 (wg.g.target e) = -1 ∨ wg.indexOfNode.2 (wg.g.source e) = -1
  · -- an edge at a vertex without an index has no weight
    have hw : ¬0 < wg.eweights e := by
      intro hw
      obtain ⟨htarget, hsource⟩ := indexOfNode_ne he hw
      exact hnil.elim htarget hsource
    have hzero : wg.eweights e = 0 := le_antisymm (not_lt.mp hw) (wg.eweights_nonneg e)
    have hscaled : ¬1 < wg.scaledWeight e := by simp [scaledWeight, hzero]
    rw [dealByNode, if_pos hnil]
    refine ⟨if_neg hscaled, ?_, fun f hf => Function.update_of_ne hf _ _, fun h => absurd h hw⟩
    simp [cutWeight, hzero]
  · rw [dealByNode, if_neg hnil]
    refine ⟨rfl, ?_, fun f hf => Function.update_of_ne hf _ _, fun _ => ?_⟩
    · dsimp only
      rw [cutWeight]
      simp only [ne_comm]
      split_ifs
      · rfl
      · rw [add_zero]
    · dsimp only
      rw [Function.update_self]
      split_ifs
      · exact Or.inl rfl
      · exact Or.inr rfl

/-! ## All edges -/

theorem foldl_dealByNode_spec {es : List ℕ} (hes : ∀ e ∈ es, e < wg.g.myEdges.length)
    (hnodup : es.Nodup) (s : NodeDealing) :
    let s' := es.foldl (wg.dealByNode parts assignvec) s
    s'.fishy = s.fishy ∧ s'.edgeCut = s.edgeCut + (es.map (wg.cutWeight assignvec)).sum ∧
      (∀ f ∉ es, s'.assigns f = s.assigns f) ∧
      ∀ e ∈ es, 0 < wg.eweights e → s'.assigns e = wg.placeOf assignvec (wg.g.source e) ∨
        s'.assigns e = wg.placeOf assignvec (wg.g.target e) := by
  intro s'
  induction es generalizing s with
  | nil => exact ⟨rfl, by simp [s'], fun f _ => rfl, fun e he => absurd he List.not_mem_nil⟩
  | cons e es ih =>
    obtain ⟨hnot, hnodup⟩ := List.nodup_cons.mp hnodup
    obtain ⟨hfishy₁, hcut₁, hother₁, howner₁⟩ :=
      dealByNode_spec parts assignvec (hes e List.mem_cons_self) s
    obtain ⟨hfishy, hcut, hother, howner⟩ := ih (fun f hf => hes f (List.mem_cons_of_mem e hf))
      hnodup (wg.dealByNode parts assignvec s e)
    refine ⟨hfishy.trans hfishy₁, ?_, fun f hf => ?_, fun f hf hw => ?_⟩
    · rw [List.map_cons, List.sum_cons, ← add_assoc, ← hcut₁]
      exact hcut
    · rw [List.mem_cons, not_or] at hf
      exact (hother f hf.2).trans (hother₁ f hf.1)
    · rcases List.mem_cons.mp hf with rfl | hf
      · have hsame : s'.assigns f = _ := hother f hnot
        rw [hsame]
        exact howner₁ hw
      · exact howner f hf hw

variable (wg)

theorem assignByNode_fishy : (wg.assignByNode parts assignvec).fishy = 0 :=
  (foldl_dealByNode_spec parts assignvec (fun _ he => List.mem_range.mp he) List.nodup_range _).1

/-- A pipe with weight is on the core of one of its ends. -/
theorem assignByNode_owner (he : e < wg.g.myEdges.length) (hw : 0 < wg.eweights e) :
    (wg.assignByNode parts assignvec).assigns e = wg.placeOf assignvec (wg.g.source e) ∨
      (wg.assignByNode parts assignvec).assigns e = wg.placeOf assignvec (wg.g.target e) :=
  (foldl_dealByNode_spec parts assignvec (fun _ he => List.mem_range.mp he)
    List.nodup_range _).2.2.2 e (List.mem_range.mpr he) hw

theorem assignByNode_edgeCut : (wg.assignByNode parts assignvec).edgeCut =
    ∑ e ∈ Finset.range wg.g.myEdges.length with
      wg.placeOf assignvec (wg.g.source e) ≠ wg.placeOf assignvec (wg.g.target e),
      wg.eweights e := by
  have hcut : (wg.assignByNode parts assignvec).edgeCut = 0 + _ :=
    (foldl_dealByNode_spec parts assignvec (fun _ he => List.mem_range.mp he)
      List.nodup_range _).2.1
  rw [hcut, zero_add, Finset.sum_filter]
  rfl

/-- What flows from core to core flows into or out of a pipe that is cut. -/
theorem getStress_assignByNode_le (h : wg.Routed) :
    wg.getStress (wg.assignByNode parts assignvec).assigns ≤
      ∑ e ∈ Finset.range wg.g.myEdges.length with
          wg.placeOf assignvec (wg.g.source e) ≠ wg.placeOf assignvec (wg.g.target e),
        ((∑ a ∈ Finset.range wg.g.myEdges.length, wg.flowAcross a e) +
          ∑ b ∈ Finset.range wg.g.myEdges.length, wg.flowAcross e b) := by
  have hnonneg : ∀ e ∈ Finset.range wg.g.myEdges.length,
      ∀ f ∈ Finset.range wg.g.myEdges.length, 0 ≤ wg.flowAcross e f :=
    fun e he f hf => h.nonneg e (Finset.mem_range.mp he) f (Finset.mem_range.mp hf)
  rw [getStress_eq]
  apply Cuts.cut_le_arcs wg.g.source wg.g.target (wg.placeOf assignvec) hnonneg
  · intro e he f hf hne
    exact h.adjacent e (Finset.mem_range.mp he) f (Finset.mem_range.mp hf)
      (lt_of_le_of_ne (hnonneg e he f hf) hne.symm)
  · intro e he f hf hne
    have hlte := Finset.mem_range.mp he
    have hltf := Finset.mem_range.mp hf
    obtain ⟨hwe, hwf⟩ := h.weighted e hlte f hltf (lt_of_le_of_ne (hnonneg e he f hf) hne.symm)
    exact ⟨wg.assignByNode_owner parts assignvec hlte hwe,
      wg.assignByNode_owner parts assignvec hltf hwf⟩

/-- What flows into and out of the pipes that are cut is twice their weight at most. -/
theorem arcs_le_edgeCut (h : wg.Bounded) :
    (∑ e ∈ Finset.range wg.g.myEdges.length with
        wg.placeOf assignvec (wg.g.source e) ≠ wg.placeOf assignvec (wg.g.target e),
      ((∑ a ∈ Finset.range wg.g.myEdges.length, wg.flowAcross a e) +
        ∑ b ∈ Finset.range wg.g.myEdges.length, wg.flowAcross e b)) ≤
      2 * (wg.assignByNode parts assignvec).edgeCut := by
  rw [assignByNode_edgeCut, Finset.mul_sum]
  refine Finset.sum_le_sum fun e he => ?_
  have hlt := Finset.mem_range.mp (Finset.mem_filter.mp he).1
  have hin := h.inflow e hlt
  have hout := h.outflow e hlt
  linarith

end WeightedGraph

/-- **A partition of the vertices.** No pipe with weight is at a vertex that METIS does not see, and
each is on the core of one of its ends. Where flow is routed, the cross traffic is at most what flows
into and out of the pipes that are cut, so twice the edge cut where their weights are all that
flows. -/
theorem assignByNode_cross_le (wg : WeightedGraph D) (parts : ℕ) (assignvec : ℕ → ℤ) :
    let r := wg.assignByNode parts assignvec
    r.fishy = 0 ∧
    (∀ e < wg.g.myEdges.length, 0 < wg.eweights e →
      r.assigns e = wg.placeOf assignvec (wg.g.source e) ∨
      r.assigns e = wg.placeOf assignvec (wg.g.target e)) ∧
    (wg.Routed →
      wg.getStress r.assigns ≤ ∑ e ∈ Finset.range wg.g.myEdges.length with
          wg.placeOf assignvec (wg.g.source e) ≠ wg.placeOf assignvec (wg.g.target e),
        ((∑ a ∈ Finset.range wg.g.myEdges.length, wg.flowAcross a e) +
          ∑ b ∈ Finset.range wg.g.myEdges.length, wg.flowAcross e b) ∧
      (wg.Bounded → wg.getStress r.assigns ≤ 2 * r.edgeCut)) := by
  refine ⟨wg.assignByNode_fishy parts assignvec, ?_, fun hrouted => ?_⟩
  · intro e he hw
    exact wg.assignByNode_owner parts assignvec he hw
  · have harcs := wg.getStress_assignByNode_le parts assignvec hrouted
    refine ⟨harcs, fun hbounded => ?_⟩
    exact harcs.trans (wg.arcs_le_edgeCut parts assignvec hbounded)

theorem bounded_pipesInRow : pipesInRow.Bounded where
  inflow := by decide +kernel
  outflow := by decide +kernel

/-- METIS cuts the pipe in the middle, so the cross traffic is 8 at most. -/
theorem pipesInRow_byNode :
    let r := pipesInRow.assignByNode 2 fun v => if v < 2 then 0 else 1
    r.fishy = 0 ∧ r.edgeCut = 4 ∧ pipesInRow.getStress r.assigns ≤ 2 * r.edgeCut := by
  intro r
  obtain ⟨hfishy, -, hcross⟩ :=
    assignByNode_cross_le pipesInRow 2 fun v => if v < 2 then 0 else 1
  exact ⟨hfishy, by decide +kernel, (hcross routed_pipesInRow).2 bounded_pipesInRow⟩

end Modelnet.Tools

import Modelnet.Tools.WorstCase

/-!
# The weights of the worst case

The second loop of `weight_worst_case` walks up from the targets, adds the flows to the weights of
the edges and clears the tables. It asks for the predecessor of the vertex that the loop before has
left, not for that of its target. So a source counts only if the walk up from its last target has
stopped early, and then with its first target only (`weightWorstCase_reaches_iff`).
-/

namespace Modelnet.Tools

/-- The flows from edge to edge and the weights of the edges. -/
structure PipeWeights where
  flowMap : ℕ → ℕ → Option ℚ
  eweights : ℕ → ℚ

/-- The weights of a new graph. -/
def PipeWeights.fresh : PipeWeights := ⟨fun _ _ => none, fun _ => 0⟩

/-- What comes in by the edge `into` goes out by `e`, as far as there is room. -/
def PipeWeights.send (w : PipeWeights) (bandwidth : ℕ → ℚ) (into e : ℕ) (flow : ℚ) : PipeWeights :=
  let sent := (w.flowMap into e).getD 0
  let room := max 0 (bandwidth e - sent)
  { flowMap := Function.update w.flowMap into
      (Function.update (w.flowMap into) e (some (sent + min room flow)))
    eweights := Function.update w.eweights e (w.eweights e + min room flow) }

/-- What the source sends by its edge `e`. -/
def PipeWeights.start (w : PipeWeights) (e : ℕ) (flow : ℚ) : PipeWeights :=
  { w with eweights := Function.update w.eweights e flow }

/-- `partialFlow[e]=minBandwidthUpTo[e]=0`. -/
def FlowTables.clear (t : FlowTables) (e : ℕ) : FlowTables :=
  { t with
    partialFlow := Function.update t.partialFlow e 0
    minBandwidthUpTo := Function.update t.minBandwidthUpTo e 0 }

/-- The variables of the second loop over the targets. -/
structure Unwind where
  v : ℕ
  tables : FlowTables
  weights : PipeWeights

section

variable {D : Type} (g : GraphData D) (bandwidth : ℕ → ℚ) (pred : ℕ → Option ℕ) (source : ℕ)

/-- `while (!e.isNil() && partialFlow[e]!=0)`; `flowMap` is not read at nil. -/
def unwindTurn (u : Unwind) : Loop.Turn Unwind :=
  match pred u.v with
  | none => .finished
  | some e =>
    if u.tables.partialFlow e = 0 then .finished
    else if g.source e = source then
      .next ⟨g.source e, u.tables.clear e, u.weights.start e (u.tables.partialFlow e)⟩
    else
      match pred (g.source e) with
      | none => .fault
      | some into => .next ⟨g.source e, u.tables.clear e,
          u.weights.send bandwidth into e (u.tables.partialFlow e)⟩

/-- The body of the second loop over the targets. It is skipped when `pred[v]` is nil. -/
def secondTarget (u : Unwind) (target : ℕ) : Option Unwind :=
  match pred u.v with
  | none => some u
  | some _ =>
    match Loop.run (unwindTurn g bandwidth pred source) g.myEdges.length { u with v := target } with
    | .finished u' => some u'
    | _ => none

end

/-- The body of the loop over the sources, on the weights and on `v`. -/
def weightSource (g : GraphData ℚ) (clients : List ℕ) (s : PipeWeights × ℕ) (source : ℕ) :
    Option (PipeWeights × ℕ) :=
  let pred := (breadthFirstSearch g source).pred
  (firstPass g g.kbps pred source clients s.2).bind fun r =>
    (clients.foldlM (secondTarget g g.kbps pred source) ⟨r.2, r.1, s.1⟩).map fun u =>
      (u.weights, u.v)

/-- The loop over the edges at the end. -/
def vertexWeights {D : Type} (g : GraphData D) (eweights : ℕ → ℚ) : ℕ → ℚ :=
  (List.range g.myEdges.length).foldl
    (fun w e => Function.update w (g.target e) (w (g.target e) + eweights e)) fun _ => 0

/-- `weight_worst_case` on a new graph: the weights of the edges and of the vertices. The loop over
the clients before has left `v` at the last one. -/
def weightWorstCase (g : GraphData ℚ) (clients : List ℕ) : Option ((ℕ → ℚ) × (ℕ → ℚ)) :=
  (clients.foldlM (weightSource g clients) (.fresh, clients.getLast?.getD 0)).map fun s =>
    (s.1.eweights, vertexWeights g s.1.eweights)

/-! ## What is claimed -/

/-- Some client sends to another one through the edge. -/
def UsedPipe (g : GraphData ℚ) (clients : List ℕ) (e : ℕ) : Prop :=
  ∃ source ∈ clients, ∃ target ∈ clients, source ≠ target ∧
    OnWay g source (breadthFirstSearch g source).pred {target} e

/-- The used edges are those with a weight, and a vertex has the weight of what leads to it. -/
structure ReachesUsed (g : GraphData ℚ) (clients : List ℕ) (w : (ℕ → ℚ) × (ℕ → ℚ)) : Prop where
  used : ∀ e, UsedPipe g clients e → 0 < w.1 e
  unused : ∀ e, ¬ UsedPipe g clients e → w.1 e = 0
  vertex : ∀ v, w.2 v =
    (((List.range g.myEdges.length).filter fun e => g.target e = v).map w.1).sum

/-- The way to the last target that can be reached begins with an edge by which at least as much goes
to an earlier target. -/
def StopsEarly (g : GraphData ℚ) (clients : List ℕ) (source : ℕ) : Prop :=
  ∃ front last back, clients = front ++ last :: back ∧
    ((breadthFirstSearch g source).pred last).isSome ∧
    (∀ c ∈ back, (breadthFirstSearch g source).pred c = none) ∧
    Covered g g.kbps source (breadthFirstSearch g source).pred {c | c ∈ front} last

/-- What the source counts for: the way to the first client, if the first loop stops early. -/
def countedFrom (g : GraphData ℚ) (clients : List ℕ) (source : ℕ) : Set ℕ :=
  {e | StopsEarly g clients source ∧
    OnWay g source (breadthFirstSearch g source).pred {c | c ∈ clients.head?} e}

/-- Every used edge is on the way to the first client from one that counts. -/
def CountsUsed (g : GraphData ℚ) (clients : List ℕ) : Prop :=
  ∀ e, UsedPipe g clients e → ∃ source ∈ clients, e ∈ countedFrom g clients source

/-! ## Weights that grow -/

namespace PipeWeights

/-- Where no weight is, nothing has been sent. -/
def Ok (w : PipeWeights) : Prop :=
  ∀ e, 0 ≤ w.eweights e ∧ (w.eweights e = 0 → ∀ into, w.flowMap into e = none)

/-- The edges of the set have got a weight; nothing else has happened. -/
structure Grown (S : Set ℕ) (w w' : PipeWeights) : Prop where
  new : ∀ e ∈ S, 0 < w'.eweights e
  old : ∀ e ∉ S, w'.eweights e = w.eweights e ∧ ∀ into, w'.flowMap into e = w.flowMap into e

variable {S S' : Set ℕ} {w w' w'' : PipeWeights} {bandwidth : ℕ → ℚ} {into e : ℕ} {flow : ℚ}

theorem ok_fresh : fresh.Ok := fun _ => ⟨le_rfl, fun _ _ => rfl⟩

theorem grown_empty (w : PipeWeights) : Grown ∅ w w :=
  ⟨fun _ he => absurd he (Set.notMem_empty _), fun _ _ => ⟨rfl, fun _ => rfl⟩⟩

theorem Grown.ok (h : Grown S w w') (hw : w.Ok) : w'.Ok := by
  intro e
  by_cases he : e ∈ S
  · have hpos := h.new e he
    exact ⟨hpos.le, fun hzero => absurd hzero hpos.ne'⟩
  · obtain ⟨heq, hflow⟩ := h.old e he
    simp only [heq, hflow]
    exact hw e

theorem Grown.trans (h : Grown S w w') (h' : Grown S' w' w'') : Grown (S ∪ S') w w'' := by
  refine ⟨fun e he => ?_, fun e he => ?_⟩
  · by_cases he' : e ∈ S'
    · exact h'.new e he'
    · rw [(h'.old e he').1]
      exact h.new e (he.resolve_right he')
  · obtain ⟨heq, hflow⟩ := h.old e fun h => he (Or.inl h)
    obtain ⟨heq', hflow'⟩ := h'.old e fun h => he (Or.inr h)
    exact ⟨heq'.trans heq, fun into => (hflow' into).trans (hflow into)⟩

theorem grown_start (hflow : 0 < flow) : Grown {e} w (w.start e flow) := by
  refine ⟨?_, fun a ha => ⟨?_, fun _ => rfl⟩⟩
  · rintro a rfl
    dsimp only [start]
    rwa [Function.update_self]
  · exact Function.update_of_ne ha _ _

/-- An edge by which nothing has gone has room, and one that has a weight keeps it. -/
theorem grown_send (hw : w.Ok) (hpos : 0 < bandwidth e) (hflow : 0 < flow) :
    Grown {e} w (w.send bandwidth into e flow) := by
  refine ⟨?_, fun a ha => ⟨?_, fun b => ?_⟩⟩
  · rintro a rfl
    obtain ⟨hle, hnone⟩ := hw a
    dsimp only [send]
    rw [Function.update_self]
    obtain hzero | hlt := hle.eq_or_lt
    · rw [hnone hzero.symm, ← hzero, zero_add, Option.getD_none, sub_zero]
      exact lt_min (lt_max_of_lt_right hpos) hflow
    · exact add_pos_of_pos_of_nonneg hlt (le_min (le_max_left _ _) hflow.le)
  · exact Function.update_of_ne ha _ _
  · dsimp only [send]
    by_cases hb : b = into
    · subst hb
      rw [Function.update_self, Function.update_of_ne ha]
    · rw [Function.update_of_ne hb]

end PipeWeights

/-! ## The second loop of one source -/

section

variable {D : Type} {g : GraphData D} {bandwidth : ℕ → ℚ} {src v : ℕ} {pred : ℕ → Option ℕ}
  {es : List ℕ} {t : FlowTables} {w : PipeWeights} {u : Unwind}

open PipeWeights

theorem FlowTables.clear_partialFlow_of_ne {a e : ℕ} (h : a ≠ e) :
    (t.clear e).partialFlow a = t.partialFlow a := Function.update_of_ne h _ _

/-- **The walk up of the second loop** gives a weight to every edge of the way. -/
theorem exists_unwind (htree : SearchTree g src pred)
    (hpos : ∀ e < g.myEdges.length, 0 < bandwidth e) (hes : g.digraph.Back pred src v es)
    (hflow : ∀ e ∈ es, 0 < t.partialFlow e) (hw : w.Ok) {n : ℕ} (hn : es.length ≤ n) :
    ∃ t' w', Loop.run (unwindTurn g bandwidth pred src) n ⟨v, t, w⟩ = .finished ⟨src, t', w'⟩ ∧
      w.Grown {e | e ∈ es} w' := by
  induction hes generalizing t w n with
  | root =>
    refine ⟨t, w, Loop.run_of_finished ?_ n, by simpa using w.grown_empty⟩
    unfold unwindTurn
    rw [htree.pred_source]
  | @step v e es hpred hes ih =>
    obtain ⟨he, -⟩ := htree.predsLeadTo v e hpred
    have hnodup := (Multidigraph.Back.step hpred hes).nodup htree.predsLeadTo htree.pred_source
    have hnot : e ∉ es := fun hmem => (List.nodup_append.mp hnodup).2.2 e hmem e (by simp) rfl
    have hflow_e : 0 < t.partialFlow e := hflow e (by simp)
    rw [List.length_append, List.length_singleton] at hn
    obtain ⟨k, rfl⟩ : ∃ k, n = k + 1 := ⟨n - 1, by omega⟩
    obtain ⟨w₁, hturn, hgrown⟩ : ∃ w₁, unwindTurn g bandwidth pred src ⟨v, t, w⟩ =
        .next ⟨g.source e, t.clear e, w₁⟩ ∧ w.Grown {e} w₁ := by
      unfold unwindTurn
      rw [hpred]
      dsimp only
      rw [if_neg hflow_e.ne']
      by_cases hsource : g.source e = src
      · exact ⟨_, if_pos hsource, grown_start hflow_e⟩
      · obtain ⟨into, -, (hinto : pred (g.source e) = some into), -, -⟩ :=
          hes.cases_of_ne hsource
        rw [if_neg hsource, hinto]
        exact ⟨_, rfl, grown_send hw (hpos e he) hflow_e⟩
    have hflow' : ∀ a ∈ es, 0 < (t.clear e).partialFlow a := by
      intro a ha
      have hne : a ≠ e := by
        rintro rfl
        exact hnot ha
      rw [FlowTables.clear_partialFlow_of_ne hne]
      exact hflow a (by simp [ha])
    obtain ⟨t', w', hrun, hgrown'⟩ := ih hflow' (hgrown.ok hw) (by omega : es.length ≤ k)
    refine ⟨t', w', (Loop.run_of_next hturn k).trans hrun, ?_⟩
    have hset : {a | a ∈ es ++ [e]} = {e} ∪ {a | a ∈ es} := by
      ext a
      simp [or_comm]
    rw [hset]
    exact hgrown.trans hgrown'

theorem secondTarget_of_none (h : pred u.v = none) (target : ℕ) :
    secondTarget g bandwidth pred src u target = some u := by
  unfold secondTarget
  rw [h]

theorem foldlM_secondTarget_of_none (h : pred u.v = none) (clients : List ℕ) :
    clients.foldlM (secondTarget g bandwidth pred src) u = some u := by
  induction clients with
  | nil => rfl
  | cons c clients ih =>
    rw [List.foldlM_cons, secondTarget_of_none h]
    exact ih

theorem FlowTables.Holds.partialFlow_pos {targets : Set ℕ} {e : ℕ}
    (h : t.Holds g bandwidth src pred targets) (htree : SearchTree g src pred)
    (hpos : ∀ e < g.myEdges.length, 0 < bandwidth e) (he : OnWay g src pred targets e) :
    0 < t.partialFlow e := by
  obtain ⟨c, -, es, hes, -, hwidth⟩ := (h.flow e ((h.visited e).mpr he)).1
  obtain ⟨a, ha, heq⟩ := hwidth.1
  rw [← heq]
  exact hpos a ((hes.isWalk htree.predsLeadTo).mem_edges ha)

/-- **The second loop** handles the first target if `v` has a predecessor, and no other one. -/
theorem exists_secondPass {c : ℕ} {clients : List ℕ} (htree : SearchTree g src pred)
    (hpos : ∀ e < g.myEdges.length, 0 < bandwidth e)
    (h : t.Holds g bandwidth src pred {a | a ∈ c :: clients}) (hw : w.Ok) (v : ℕ) :
    ∃ u', (c :: clients).foldlM (secondTarget g bandwidth pred src) ⟨v, t, w⟩ = some u' ∧
      (u'.v = v ∧ pred v = none ∨ u'.v = src ∨ u'.v = c) ∧
      w.Grown {e | (pred v).isSome ∧ OnWay g src pred {c} e} u'.weights := by
  rw [List.foldlM_cons]
  cases hv : pred v with
  | none =>
    refine ⟨⟨v, t, w⟩, ?_, Or.inl ⟨rfl, rfl⟩, by simpa using w.grown_empty⟩
    rw [secondTarget_of_none hv]
    exact foldlM_secondTarget_of_none hv clients
  | some a =>
    obtain ⟨u', hrun, hu', hnone, hgrown⟩ : ∃ u',
        Loop.run (unwindTurn g bandwidth pred src) g.myEdges.length ⟨c, t, w⟩ = .finished u' ∧
        (u'.v = src ∨ u'.v = c) ∧ pred u'.v = none ∧
        w.Grown {e | OnWay g src pred {c} e} u'.weights := by
      cases hc : pred c with
      | none =>
        have hempty : {e | OnWay g src pred {c} e} = ∅ := by
          ext e
          simp only [Set.mem_ofPred_eq, Set.mem_empty_iff_false, iff_false]
          rintro ⟨_, rfl, es, hes, he⟩
          rw [hes.eq_nil hc] at he
          cases he
        refine ⟨⟨c, t, w⟩, Loop.run_of_finished ?_ _, Or.inr rfl, hc, hempty ▸ w.grown_empty⟩
        unfold unwindTurn
        rw [hc]
      | some last =>
        obtain ⟨es, hes⟩ := htree.exists_back c last hc
        have hset : {e | OnWay g src pred {c} e} = {e | e ∈ es} := by
          ext e
          constructor
          · rintro ⟨_, rfl, fs, hfs, he⟩
            rwa [htree.unique hes hfs]
          · intro he
            exact ⟨c, rfl, es, hes, he⟩
        have hflow : ∀ e ∈ es, 0 < t.partialFlow e := by
          intro e he
          exact h.partialFlow_pos htree hpos ⟨c, List.mem_cons_self, es, hes, he⟩
        obtain ⟨t', w', hrun, hgrown⟩ :=
          exists_unwind htree hpos hes hflow hw (htree.length_le hes)
        exact ⟨⟨src, t', w'⟩, hrun, Or.inl rfl, htree.pred_source, hset ▸ hgrown⟩
    refine ⟨u', ?_, Or.inr hu', by simpa using hgrown⟩
    unfold secondTarget
    rw [hv]
    dsimp only
    rw [hrun]
    exact foldlM_secondTarget_of_none hnone clients

end

/-! ## All sources -/

section

variable {g : GraphData ℚ} {clients : List ℕ} {source v : ℕ} {w : PipeWeights}

/-- Some element that has the property comes last, or none has it. -/
theorem exists_last_split {α : Type*} (p : α → Prop) (l : List α) :
    (∀ a ∈ l, ¬ p a) ∨ ∃ front a back, l = front ++ a :: back ∧ p a ∧ ∀ b ∈ back, ¬ p b := by
  induction l with
  | nil => exact Or.inl fun a ha => absurd ha List.not_mem_nil
  | cons a l ih =>
    rcases ih with hnone | ⟨front, b, back, rfl, hb, hback⟩
    · by_cases ha : p a
      · exact Or.inr ⟨[], a, l, rfl, ha, hnone⟩
      · refine Or.inl fun b hb => ?_
        obtain rfl | hb := List.mem_cons.mp hb
        · exact ha
        · exact hnone b hb
    · exact Or.inr ⟨a :: front, b, back, rfl, hb, hback⟩

/-- `v` has a predecessor after the first loop exactly if the loop stops early. -/
theorem LeftBy.isSome_iff {v' : ℕ}
    (hleft : LeftBy g g.kbps source (breadthFirstSearch g source).pred ∅ clients v v')
    (hv : v ∈ clients) :
    ((breadthFirstSearch g source).pred v').isSome ↔ StopsEarly g clients source := by
  constructor
  · intro hsome
    rcases exists_last_split (fun c => ((breadthFirstSearch g source).pred c).isSome) clients with
      hnone | ⟨front, last, back, hsplit, hlast, hback⟩
    · have hnone' : ∀ c ∈ clients, (breadthFirstSearch g source).pred c = none := by
        simpa using hnone
      rw [hleft.unreached hnone', hnone' v hv] at hsome
      cases hsome
    · have hback' : ∀ c ∈ back, (breadthFirstSearch g source).pred c = none := by
        simpa using hback
      have hcovered := (hleft.reached front last back hsplit hlast hback').2.mp hsome
      rw [Set.empty_union] at hcovered
      exact ⟨front, last, back, hsplit, hlast, hback', hcovered⟩
  · rintro ⟨front, last, back, hsplit, hlast, hback, hcovered⟩
    rw [← Set.empty_union {c | c ∈ front}] at hcovered
    exact (hleft.reached front last back hsplit hlast hback).2.mpr hcovered

/-- `v` is a client again after the first loop, or has a predecessor. -/
theorem LeftBy.mem_or_isSome {v' : ℕ}
    (hleft : LeftBy g g.kbps source (breadthFirstSearch g source).pred ∅ clients v v')
    (hsource : source ∈ clients) (hv : v ∈ clients) :
    v' ∈ clients ∨ ((breadthFirstSearch g source).pred v').isSome := by
  rcases exists_last_split (fun c => ((breadthFirstSearch g source).pred c).isSome) clients with
    hnone | ⟨front, last, back, hsplit, hlast, hback⟩
  · rw [hleft.unreached (by simpa using hnone)]
    exact Or.inl hv
  · rcases (hleft.reached front last back hsplit hlast (by simpa using hback)).1 with rfl | hsome
    · exact Or.inl hsource
    · exact Or.inr hsome

/-- **One source** gives a weight to the edges that it counts for. -/
theorem exists_weightSource (hg : g.Built) (hkbps : ∀ e < g.myEdges.length, 0 < g.kbps e)
    (hclients : ∀ c ∈ clients, c < g.myVertices.length) (hsource : source ∈ clients)
    (hv : v ∈ clients) (hw : w.Ok) :
    ∃ w' v', weightSource g clients (w, v) source = some (w', v') ∧ v' ∈ clients ∧
      w.Grown (countedFrom g clients source) w' := by
  have htree := searchTree_breadthFirstSearch hg (hclients source hsource)
  obtain ⟨t, v₁, hfirst, hholds, hleft⟩ :=
    firstPass_holds htree (fun e he => (hkbps e he).le) clients v
  obtain ⟨c, rest, rfl⟩ := List.exists_cons_of_ne_nil (List.ne_nil_of_mem hsource)
  obtain ⟨u, hsecond, hu, hgrown⟩ := exists_secondPass htree hkbps hholds hw v₁
  refine ⟨u.weights, u.v, ?_, ?_, ?_⟩
  · unfold weightSource
    dsimp only
    rw [hfirst, Option.bind_some, hsecond]
    rfl
  · rcases hu with ⟨hsame, hnone⟩ | hu | hu
    · rw [hsame]
      refine (hleft.mem_or_isSome hsource hv).resolve_right ?_
      rw [hnone]
      exact Bool.false_ne_true
    · rwa [hu]
    · rw [hu]
      exact List.mem_cons_self
  · have hset : countedFrom g (c :: rest) source =
        {e | ((breadthFirstSearch g source).pred v₁).isSome ∧
          OnWay g source (breadthFirstSearch g source).pred {c} e} := by
      have hhead : {a | a ∈ (c :: rest).head?} = {c} := by
        ext a
        simp [eq_comm]
      unfold countedFrom
      rw [hhead, hleft.isSome_iff hv]
    rw [hset]
    exact hgrown

theorem exists_weightSources (hg : g.Built) (hkbps : ∀ e < g.myEdges.length, 0 < g.kbps e)
    (hclients : ∀ c ∈ clients, c < g.myVertices.length) (hv : v ∈ clients) (hw : w.Ok)
    {sources : List ℕ} (hsources : ∀ s ∈ sources, s ∈ clients) :
    ∃ w' v', sources.foldlM (weightSource g clients) (w, v) = some (w', v') ∧
      w.Grown {e | ∃ s ∈ sources, e ∈ countedFrom g clients s} w' := by
  induction sources generalizing w v with
  | nil => exact ⟨w, v, rfl, by simpa using w.grown_empty⟩
  | cons s sources ih =>
    obtain ⟨w₁, v₁, hfirst, hv₁, hgrown⟩ :=
      exists_weightSource hg hkbps hclients (hsources s List.mem_cons_self) hv hw
    obtain ⟨w', v', hrest, hgrown'⟩ := ih hv₁ (hgrown.ok hw)
      fun a ha => hsources a (List.mem_cons_of_mem s ha)
    have hset : {e | ∃ a ∈ s :: sources, e ∈ countedFrom g clients a} =
        countedFrom g clients s ∪ {e | ∃ a ∈ sources, e ∈ countedFrom g clients a} := by
      ext e
      simp
    refine ⟨w', v', ?_, hset ▸ hgrown.trans hgrown'⟩
    rw [List.foldlM_cons, hfirst]
    exact hrest

/-- **The weights** are those of the edges that some source counts for. -/
theorem exists_weightWorstCase (hg : g.Built) (hkbps : ∀ e < g.myEdges.length, 0 < g.kbps e)
    (hclients : ∀ c ∈ clients, c < g.myVertices.length) :
    ∃ w : ℕ → ℚ, weightWorstCase g clients = some (w, vertexWeights g w) ∧
      (∀ e, (∃ s ∈ clients, e ∈ countedFrom g clients s) → 0 < w e) ∧
      ∀ e, ¬ (∃ s ∈ clients, e ∈ countedFrom g clients s) → w e = 0 := by
  obtain ⟨w, v, hrun, hgrown⟩ : ∃ w v, clients.foldlM (weightSource g clients)
      (.fresh, clients.getLast?.getD 0) = some (w, v) ∧
      PipeWeights.fresh.Grown {e | ∃ s ∈ clients, e ∈ countedFrom g clients s} w := by
    rcases List.eq_nil_or_concat clients with rfl | ⟨front, last, rfl⟩
    · exact ⟨.fresh, 0, rfl, by simpa using PipeWeights.grown_empty .fresh⟩
    · exact exists_weightSources hg hkbps hclients (by simp) PipeWeights.ok_fresh
        fun _ hs => hs
  refine ⟨w.eweights, ?_, hgrown.new, fun e he => (hgrown.old e he).1⟩
  unfold weightWorstCase
  rw [hrun]
  rfl

end

theorem usedPipe_of_mem {g : GraphData ℚ} {clients : List ℕ} {source e : ℕ} (hg : g.Built)
    (hclients : ∀ c ∈ clients, c < g.myVertices.length) (hsource : source ∈ clients)
    (he : e ∈ countedFrom g clients source) : UsedPipe g clients e := by
  obtain ⟨-, target, htarget, es, hes, hmem⟩ := he
  refine ⟨source, hsource, target, List.mem_of_mem_head? htarget, ?_, target, rfl, es, hes, hmem⟩
  rintro rfl
  have htree := searchTree_breadthFirstSearch hg (hclients _ hsource)
  rw [hes.eq_nil htree.pred_source] at hmem
  cases hmem

theorem foldl_vertexWeights {D : Type} (g : GraphData D) (eweights : ℕ → ℚ) (es : List ℕ)
    (w : ℕ → ℚ) (v : ℕ) :
    es.foldl (fun w e => Function.update w (g.target e) (w (g.target e) + eweights e)) w v =
      w v + ((es.filter fun e => g.target e = v).map eweights).sum := by
  induction es generalizing w with
  | nil => simp
  | cons e es ih =>
    rw [List.foldl_cons, ih]
    by_cases he : g.target e = v
    · subst he
      simp [add_assoc]
    · rw [Function.update_of_ne (Ne.symm he), List.filter_cons_of_neg (by simpa using he)]

/-- **`weight_worst_case` reaches the used pipes exactly if** each is on the way to the first client
from one for which the first loop stops early. -/
theorem weightWorstCase_reaches_iff (g : MNGraph ℚ)
    (hkbps : ∀ e < g.myEdges.length, 0 < g.kbps e) (clients : List (Fin g.myVertices.length)) :
    (∃ w, weightWorstCase g.toGraphData (clients.map Fin.val) = some w ∧
      ReachesUsed g.toGraphData (clients.map Fin.val) w) ↔
    CountsUsed g.toGraphData (clients.map Fin.val) := by
  have hclients : ∀ c ∈ clients.map Fin.val, c < g.myVertices.length := by
    intro c hc
    obtain ⟨i, -, rfl⟩ := List.mem_map.mp hc
    exact i.isLt
  obtain ⟨w, hrun, hpos, hzero⟩ := exists_weightWorstCase g.built hkbps hclients
  constructor
  · rintro ⟨w', hrun', hreaches⟩ e he
    obtain rfl := Option.some.inj (hrun.symm.trans hrun')
    by_contra hnot
    exact absurd (hzero e hnot) (hreaches.used e he).ne'
  · intro hcounts
    refine ⟨_, hrun, fun e he => hpos e (hcounts e he), fun e he => hzero e ?_, fun v => ?_⟩
    · rintro ⟨s, hs, hmem⟩
      exact he (usedPipe_of_mem g.built hclients hs hmem)
    · exact (foldl_vertexWeights g.toGraphData w _ _ v).trans (zero_add _)

def virtnode : AttributeMap ℚ :=
  (∅ : AttributeMap ℚ).setString (str "role") (str "virtnode")

def pipe (source target : ℕ) (kbps : ℚ) : Edge ℚ :=
  ⟨source, target, (∅ : AttributeMap ℚ).setDouble (str "kbps") kbps⟩

/-- Two nodes with a pipe each way. -/
def bothWays : MNGraph ℚ where
  myVertices := [virtnode, virtnode]
  myEdges := [pipe 0 1 10, pipe 1 0 10]
  mySpecs := ∅
  built := by
    refine ⟨?_, ?_, by decide, by decide⟩ <;> decide

/-- Three nodes in a row, where the last one sends to both others through the same pipe. -/
def downstream : MNGraph ℚ where
  myVertices := [virtnode, virtnode, virtnode]
  myEdges := [pipe 2 1 1, pipe 1 0 2]
  mySpecs := ∅
  built := by
    refine ⟨?_, ?_, by decide, by decide⟩ <;> decide

/-- In a row all pipes get a weight. -/
theorem weightWorstCase_reaches_downstream :
    ∃ w, weightWorstCase downstream.toGraphData [0, 1, 2] = some w ∧
      ReachesUsed downstream.toGraphData [0, 1, 2] w := by
  refine (weightWorstCase_reaches_iff downstream (by decide)
    [⟨0, by decide⟩, ⟨1, by decide⟩, ⟨2, by decide⟩]).mpr ?_
  have hone : downstream.digraph.Back (breadthFirstSearch downstream.toGraphData 2).pred 2 1
      ([] ++ [0]) := .step (by decide) .root
  have hzero : downstream.digraph.Back (breadthFirstSearch downstream.toGraphData 2).pred 2 0
      ([0] ++ [1]) := .step (by decide) hone
  have hwidth : IsWidth downstream.kbps ([0] ++ [1]) 1 := by
    have hmin := (isWidth_singleton downstream.kbps 0).concat 1
    rwa [show min (downstream.kbps 0) (downstream.kbps 1) = 1 by decide] at hmin
  have hwidth' : IsWidth downstream.kbps [0] 1 := by
    have hmin := isWidth_singleton downstream.kbps 0
    rwa [show downstream.kbps 0 = 1 by decide] at hmin
  have hearly : StopsEarly downstream.toGraphData [0, 1, 2] 2 := by
    refine ⟨[0], 1, [2], rfl, by decide, by decide, 0, [], 1, hone, hwidth', 1, ?_, le_rfl⟩
    exact ⟨0, by simp, _, hzero, by simp, hwidth⟩
  rintro e ⟨source, hsource, target, -, -, _, rfl, es, hes, he⟩
  have htree : SearchTree downstream.toGraphData source
      (breadthFirstSearch downstream.toGraphData source).pred := by
    refine searchTree_breadthFirstSearch downstream.built ?_
    simp only [List.map_cons, List.map_nil, List.mem_cons, List.not_mem_nil, or_false] at hsource
    rcases hsource with rfl | rfl | rfl <;> decide
  have hlt : e < 2 := (hes.isWalk htree.predsLeadTo).mem_edges he
  refine ⟨2, by simp, hearly, 0, rfl, _, hzero, ?_⟩
  rw [List.singleton_append, List.mem_cons, List.mem_singleton]
  omega

/-- Nothing gets a weight. -/
theorem not_reachesUsed_bothWays :
    ¬ ∃ w, weightWorstCase bothWays.toGraphData (sources bothWays.toGraphData) = some w ∧
      ReachesUsed bothWays.toGraphData (sources bothWays.toGraphData) w := by
  rw [show sources bothWays.toGraphData = [0, 1] by decide]
  rintro ⟨w, hrun, hreaches⟩
  have hmap : (weightWorstCase bothWays.toGraphData [0, 1]).map (fun w => w.1 0) = some 0 := by
    decide
  rw [hrun] at hmap
  have hzero : w.1 0 = 0 := Option.some.inj hmap
  have hused : UsedPipe bothWays.toGraphData [0, 1] 0 := by
    refine ⟨0, by simp, 1, by simp, by decide, 1, rfl, [] ++ [0], ?_, by simp⟩
    exact .step (by decide) .root
  exact absurd hzero (hreaches.used 0 hused).ne'

end Modelnet.Tools

import Mathlib.Algebra.Order.Ring.Rat
import Modelnet.Lib.Widths
import Modelnet.Lib.Worklist
import Modelnet.Tools.BreadthFirst

/-!
# Worst-case weights

`weight_worst_case` sends from every client to all others along the tree of a breadth-first search.
A first loop over the targets finds the largest flow for each edge of the tree; a walk up from a
target stops as soon as an edge already carries enough, since then the edges above it do so as well
(`FlowTables.Holds`). The second loop adds the flows to the weights and clears the tables.
-/

namespace Modelnet.Tools

/-! ## Specs -/

/-- The value of a key; a key without one has 0. -/
def AttributeMap.getDouble (am : AttributeMap ℚ) (key : Str) : ℚ :=
  (am.myDoubles.find? key).getD 0

namespace GraphData

variable {D : Type}

def edgeAttr (g : GraphData D) (e : ℕ) : AttributeMap D := (g.myEdges[e]?.map Edge.attr).getD ∅

/-- `specsFor`: the attributes of the label that an edge names, or its own. -/
def specsFor (g : GraphData D) (e : ℕ) : AttributeMap D :=
  match (g.edgeAttr e).myStrings.find? (str "specs") with
  | some label => (g.mySpecs.find? label).getD ∅
  | none => g.edgeAttr e

/-- `g.specsFor(e).getDouble("kbps")`. -/
def kbps (g : GraphData ℚ) (e : ℕ) : ℚ := (g.specsFor e).getDouble (str "kbps")

end GraphData

/-! ## The first loop over the targets -/

structure FlowTables where
  partialFlow : ℕ → ℚ
  minBandwidthUpTo : ℕ → ℚ
  visited : ℕ → Bool

def FlowTables.zero : FlowTables := ⟨fun _ => 0, fun _ => 0, fun _ => false⟩

/-- The variables of the walk up from a target; the edge `e` of the source is `pred[v]`. -/
structure Climb where
  v : ℕ
  minBandwidth : ℚ
  path : List ℕ

section

variable {D : Type} (g : GraphData D) (bandwidth : ℕ → ℚ) (pred : ℕ → Option ℕ)

/-- `while (!e.isNil() && (!visited[e] || partialFlow[e] < MIN(minBandwidth, ...)))`. -/
def climbTurn (t : FlowTables) (c : Climb) : Loop.Turn Climb :=
  match pred c.v with
  | none => .finished
  | some e =>
    if t.visited e = false ∨ t.partialFlow e < min c.minBandwidth (t.minBandwidthUpTo e) then
      .next ⟨g.source e, min c.minBandwidth (bandwidth e), e :: c.path⟩
    else .finished

/-- The body of `forall(e,path)`, with `minSoFar`. -/
def recordEdge (flow : ℚ) (s : ℚ × FlowTables) (e : ℕ) : ℚ × FlowTables :=
  let minSoFar := min s.1 (bandwidth e)
  (minSoFar,
    { minBandwidthUpTo := Function.update s.2.minBandwidthUpTo e minSoFar
      visited := Function.update s.2.visited e true
      partialFlow := Function.update s.2.partialFlow e (max (s.2.partialFlow e) flow) })

/-- `flow` and `minSoFar` after the walk; `none` where an array is read at nil. -/
def flowAtTop (source : ℕ) (t : FlowTables) (c : Climb) : Option (ℚ × ℚ) :=
  if c.v = source then c.path.head?.map fun e => (c.minBandwidth, bandwidth e)
  else (pred c.v).map fun e => (min c.minBandwidth (t.minBandwidthUpTo e), t.minBandwidthUpTo e)

/-- The body of the first loop over the targets; `v` is the variable that the loops share. A walk
has no more turns than there are edges. -/
def firstTarget (source : ℕ) (s : FlowTables × ℕ) (target : ℕ) : Option (FlowTables × ℕ) :=
  match pred target with
  | none => some s
  | some e =>
    match Loop.run (climbTurn g bandwidth pred s.1) g.myEdges.length ⟨target, bandwidth e, []⟩ with
    | .finished c => (flowAtTop bandwidth pred source s.1 c).map fun r =>
        ((c.path.foldl (recordEdge bandwidth r.1) (r.2, s.1)).2, c.v)
    | _ => none

def firstPass (source : ℕ) (clients : List ℕ) (v : ℕ) : Option (FlowTables × ℕ) :=
  clients.foldlM (firstTarget g bandwidth pred source) (FlowTables.zero, v)

end

/-! ## Trees -/

section

variable {D : Type} {g : GraphData D} {src v : ℕ} {pred : ℕ → Option ℕ}

/-- The predecessors are edges that lead to their vertices, and lead back to the source. -/
structure SearchTree (g : GraphData D) (src : ℕ) (pred : ℕ → Option ℕ) : Prop where
  pred_source : pred src = none
  predsLeadTo : g.digraph.PredsLeadTo pred
  exists_back : ∀ v e, pred v = some e → ∃ es, g.digraph.Back pred src v es

theorem searchTree_breadthFirstSearch (hg : g.Built) (hsrc : src < g.myVertices.length) :
    SearchTree g src (breadthFirstSearch g src).pred := by
  obtain ⟨hinv, hq⟩ := inv_breadthFirstSearch hg hsrc
  refine ⟨hinv.source.2.1, hinv.predsLeadTo, fun v e he => ?_⟩
  obtain ⟨es, hes, -⟩ := (hinv.correct hq).back v (by
    by_contra hnot
    rw [((hinv.correct hq).pred_eq_none v).mpr (Or.inr hnot)] at he
    cases he)
  exact ⟨es, hes⟩

namespace SearchTree

variable (h : SearchTree g src pred) {e : ℕ} {es fs : List ℕ}

include h

theorem unique (hes : g.digraph.Back pred src v es) (hfs : g.digraph.Back pred src v fs) :
    es = fs := hes.unique h.pred_source hfs

theorem length_le (hes : g.digraph.Back pred src v es) : es.length ≤ g.myEdges.length := by
  have hsub : es ⊆ List.range g.myEdges.length :=
    fun e he => List.mem_range.mpr ((hes.isWalk h.predsLeadTo).mem_edges he)
  have hle := ((hes.nodup h.predsLeadTo h.pred_source).subperm hsub).length_le
  rwa [List.length_range] at hle

theorem ne_nil {t : ℕ} (hpred : pred t = some e) (hes : g.digraph.Back pred src t es) :
    ∃ ys, es = ys ++ [e] ∧ g.digraph.Back pred src (g.source e) ys := by
  have hne : t ≠ src := by
    rintro rfl
    rw [h.pred_source] at hpred
    cases hpred
  obtain ⟨e', ys, hpred', rfl, hys⟩ := hes.cases_of_ne hne
  obtain rfl : e = e' := Option.some.inj (hpred.symm.trans hpred')
  exact ⟨ys, rfl, hys⟩

end SearchTree

end

/-! ## The tables -/

section

variable {D : Type} {g : GraphData D} {bandwidth : ℕ → ℚ} {src : ℕ} {pred : ℕ → Option ℕ}

/-- The flows that go through the edge `e`, one for each target: what is left on the way. -/
def flowsThrough (g : GraphData D) (bandwidth : ℕ → ℚ) (src : ℕ) (pred : ℕ → Option ℕ)
    (targets : Set ℕ) (e : ℕ) : Set ℚ :=
  {m | ∃ t ∈ targets, ∃ es, g.digraph.Back pred src t es ∧ e ∈ es ∧ IsWidth bandwidth es m}

/-- The edge `e` is on the way to one of the targets. -/
def OnWay (g : GraphData D) (src : ℕ) (pred : ℕ → Option ℕ) (targets : Set ℕ) (e : ℕ) : Prop :=
  ∃ t ∈ targets, ∃ es, g.digraph.Back pred src t es ∧ e ∈ es

/-- What the tables say when some targets have been handled. -/
structure FlowTables.Holds (g : GraphData D) (bandwidth : ℕ → ℚ) (src : ℕ) (pred : ℕ → Option ℕ)
    (targets : Set ℕ) (t : FlowTables) : Prop where
  visited : ∀ e, t.visited e = true ↔ OnWay g src pred targets e
  upTo : ∀ e, t.visited e = true → ∃ es, g.digraph.Back pred src (g.source e) es ∧
    IsWidth bandwidth (es ++ [e]) (t.minBandwidthUpTo e)
  flow : ∀ e, t.visited e = true →
    IsGreatest (flowsThrough g bandwidth src pred targets e) (t.partialFlow e)
  zero : ∀ e, t.visited e = false → t.partialFlow e = 0

theorem FlowTables.holds_zero : FlowTables.zero.Holds g bandwidth src pred ∅ := by
  refine ⟨fun e => ?_, ?_, ?_, fun _ _ => rfl⟩
  · simp [FlowTables.zero, OnWay]
  · rintro e ⟨⟩
  · rintro e ⟨⟩

/-! ## Flows through edges -/

variable {targets : Set ℕ} {target e a : ℕ} {es xs : List ℕ} {m : ℚ}

theorem onWay_iff_nonempty (bandwidth : ℕ → ℚ) :
    OnWay g src pred targets e ↔ (flowsThrough g bandwidth src pred targets e).Nonempty := by
  constructor
  · rintro ⟨t, ht, es, hes, he⟩
    obtain ⟨m, hm⟩ := exists_isWidth bandwidth (List.ne_nil_of_mem he)
    exact ⟨m, t, ht, es, hes, he, hm⟩
  · rintro ⟨m, t, ht, es, hes, he, -⟩
    exact ⟨t, ht, es, hes, he⟩

/-- What goes through an edge goes through the edges above it. -/
theorem flowsThrough_subset (htree : SearchTree g src pred)
    (hxs : g.digraph.Back pred src (g.source e) xs) (ha : a ∈ xs) :
    flowsThrough g bandwidth src pred targets e ⊆ flowsThrough g bandwidth src pred targets a := by
  rintro m ⟨t, ht, es, hes, he, hm⟩
  obtain ⟨ps, qs, rfl⟩ := List.append_of_mem he
  obtain rfl := htree.unique hxs (hes.initial htree.predsLeadTo).1
  exact ⟨t, ht, _, hes, List.mem_append_left _ ha, hm⟩

theorem mem_flowsThrough_insert (htree : SearchTree g src pred)
    (hes : g.digraph.Back pred src target es) (hm : IsWidth bandwidth es m) {x : ℚ} :
    x ∈ flowsThrough g bandwidth src pred (insert target targets) e ↔
      x = m ∧ e ∈ es ∨ x ∈ flowsThrough g bandwidth src pred targets e := by
  constructor
  · rintro ⟨t, rfl | ht, fs, hfs, he, hx⟩
    · obtain rfl := htree.unique hes hfs
      exact Or.inl ⟨hx.unique hm, he⟩
    · exact Or.inr ⟨t, ht, fs, hfs, he, hx⟩
  · rintro (⟨rfl, he⟩ | ⟨t, ht, fs, hfs, he, hx⟩)
    · exact ⟨target, Or.inl rfl, es, hes, he, hm⟩
    · exact ⟨t, Or.inr ht, fs, hfs, he, hx⟩

theorem flowsThrough_insert_of_mem (htree : SearchTree g src pred)
    (hes : g.digraph.Back pred src target es) (hm : IsWidth bandwidth es m) (he : e ∈ es) :
    flowsThrough g bandwidth src pred (insert target targets) e =
      insert m (flowsThrough g bandwidth src pred targets e) := by
  ext x
  rw [mem_flowsThrough_insert htree hes hm, Set.mem_insert_iff]
  simp [he]

theorem flowsThrough_insert_of_not_mem (htree : SearchTree g src pred)
    (hes : g.digraph.Back pred src target es) (hm : IsWidth bandwidth es m) (he : e ∉ es) :
    flowsThrough g bandwidth src pred (insert target targets) e =
      flowsThrough g bandwidth src pred targets e := by
  ext x
  rw [mem_flowsThrough_insert htree hes hm]
  simp [he]

/-! ## Recording a path -/

/-- What the loop over a path does to the tables. -/
structure Recorded (bandwidth : ℕ → ℚ) (flow : ℚ) (above path : List ℕ) (t t' : FlowTables) :
    Prop where
  visited : ∀ e, t'.visited e = true ↔ t.visited e = true ∨ e ∈ path
  upTo_old : ∀ e, e ∉ path → t'.minBandwidthUpTo e = t.minBandwidthUpTo e
  upTo_new : ∀ ps e qs, path = ps ++ e :: qs →
    IsWidth bandwidth (above ++ (ps ++ [e])) (t'.minBandwidthUpTo e)
  flow_old : ∀ e, e ∉ path → t'.partialFlow e = t.partialFlow e
  flow_new : ∀ e ∈ path, t'.partialFlow e = max (t.partialFlow e) flow

theorem recorded_foldl {above path : List ℕ} {minSoFar flow : ℚ} {t : FlowTables}
    (habove : IsWidth bandwidth above minSoFar) (hnodup : path.Nodup) :
    Recorded bandwidth flow above path t
      (path.foldl (recordEdge bandwidth flow) (minSoFar, t)).2 := by
  induction path generalizing above minSoFar t with
  | nil =>
    refine ⟨fun e => by simp, fun _ _ => rfl, ?_, fun _ _ => rfl, ?_⟩
    · intro ps e qs hnil
      simp at hnil
    · rintro e ⟨⟩
  | cons a path ih =>
    obtain ⟨ha, hnodup⟩ := List.nodup_cons.mp hnodup
    have hrest := ih (t := (recordEdge bandwidth flow (minSoFar, t) a).2) (habove.concat a) hnodup
    rw [List.foldl_cons]
    change Recorded bandwidth flow above (a :: path) t
      (path.foldl (recordEdge bandwidth flow)
        (min minSoFar (bandwidth a), (recordEdge bandwidth flow (minSoFar, t) a).2)).2
    generalize (path.foldl (recordEdge bandwidth flow)
      (min minSoFar (bandwidth a), (recordEdge bandwidth flow (minSoFar, t) a).2)).2 = t' at hrest
    refine ⟨fun e => ?_, fun e he => ?_, ?_, fun e he => ?_, fun e he => ?_⟩
    · rw [hrest.visited, List.mem_cons]
      by_cases hea : e = a
      · subst hea
        simp [recordEdge]
      · simp [recordEdge, hea]
    · obtain ⟨hea, he⟩ := List.ne_and_not_mem_of_not_mem_cons he
      rw [hrest.upTo_old e he]
      exact Function.update_of_ne hea _ _
    · intro ps e qs hsplit
      cases ps with
      | nil =>
        obtain ⟨rfl, -⟩ := List.cons.inj hsplit
        rw [hrest.upTo_old a ha]
        simpa [recordEdge] using habove.concat a
      | cons b ps =>
        obtain ⟨rfl, htail⟩ := List.cons.inj hsplit
        have hnew := hrest.upTo_new ps e qs htail
        simpa using hnew
    · obtain ⟨hea, he⟩ := List.ne_and_not_mem_of_not_mem_cons he
      rw [hrest.flow_old e he]
      exact Function.update_of_ne hea _ _
    · by_cases hea : e = a
      · subst hea
        rw [hrest.flow_old e ha]
        exact Function.update_self _ _ _
      · rw [hrest.flow_new e ((List.mem_cons.mp he).resolve_left hea)]
        exact congrArg (max · flow) (Function.update_of_ne hea _ _)

/-- **Recording a path** keeps what the tables say, when the edges above the path carry enough. -/
theorem Recorded.holds {t t' : FlowTables} {above path : List ℕ}
    (hrec : Recorded bandwidth m above path t t') (h : t.Holds g bandwidth src pred targets)
    (htree : SearchTree g src pred) (hes : g.digraph.Back pred src target (xs ++ path))
    (hm : IsWidth bandwidth (xs ++ path) m) (hpos : 0 ≤ m)
    (habove : ∀ ps e qs, path = ps ++ e :: qs → ∀ a, a ∈ above ++ (ps ++ [e]) ↔ a ∈ xs ++ (ps ++ [e]))
    (henough : ∀ a ∈ xs, ∃ x ∈ flowsThrough g bandwidth src pred targets a, m ≤ x) :
    t'.Holds g bandwidth src pred (insert target targets) := by
  have hxs : ∀ a ∈ xs, t.visited a = true := by
    intro a ha
    obtain ⟨x, hx, -⟩ := henough a ha
    exact (h.visited a).mpr ((onWay_iff_nonempty bandwidth).mpr ⟨x, hx⟩)
  have hvisited : ∀ e, t'.visited e = true ↔ OnWay g src pred (insert target targets) e := by
    intro e
    rw [hrec.visited, h.visited, onWay_iff_nonempty bandwidth, onWay_iff_nonempty bandwidth]
    constructor
    · rintro (⟨x, hx⟩ | he)
      · exact ⟨x, (mem_flowsThrough_insert htree hes hm).mpr (Or.inr hx)⟩
      · refine ⟨m, (mem_flowsThrough_insert htree hes hm).mpr (Or.inl ⟨rfl, ?_⟩)⟩
        exact List.mem_append_right xs he
    · rintro ⟨x, hx⟩
      obtain ⟨-, he⟩ | hx := (mem_flowsThrough_insert htree hes hm).mp hx
      · obtain he | he := List.mem_append.mp he
        · obtain ⟨y, hy, -⟩ := henough e he
          exact Or.inl ⟨y, hy⟩
        · exact Or.inr he
      · exact Or.inl ⟨x, hx⟩
  refine ⟨hvisited, fun e he => ?_, fun e he => ?_, fun e he => ?_⟩
  · by_cases hpath : e ∈ path
    · obtain ⟨ps, qs, rfl⟩ := List.append_of_mem hpath
      refine ⟨xs ++ ps, ?_, ?_⟩
      · rw [← List.append_assoc] at hes
        exact (hes.initial htree.predsLeadTo).1
      · rw [List.append_assoc]
        exact (hrec.upTo_new ps e qs rfl).congr (habove ps e qs rfl)
    · rw [hrec.upTo_old e hpath]
      exact h.upTo e (((hrec.visited e).mp he).resolve_right hpath)
  · by_cases hpath : e ∈ path
    · rw [flowsThrough_insert_of_mem htree hes hm (List.mem_append_right xs hpath),
        hrec.flow_new e hpath, max_comm]
      cases hold : t.visited e with
      | true => exact (h.flow e hold).insert m
      | false =>
        have hnone : flowsThrough g bandwidth src pred targets e = ∅ := by
          rw [← Set.not_nonempty_iff_eq_empty, ← onWay_iff_nonempty bandwidth, ← h.visited, hold]
          exact Bool.false_ne_true
        rw [hnone, h.zero e hold, max_eq_left hpos]
        simp
    · have hold := ((hrec.visited e).mp he).resolve_right hpath
      rw [hrec.flow_old e hpath]
      by_cases hup : e ∈ xs
      · -- the edges above the path carry at least as much already
        obtain ⟨x, hx, hle⟩ := henough e hup
        rw [flowsThrough_insert_of_mem htree hes hm (List.mem_append_left path hup),
          ← max_eq_right (hle.trans ((h.flow e hold).2 hx))]
        exact (h.flow e hold).insert m
      · rw [flowsThrough_insert_of_not_mem htree hes hm (by simp [hup, hpath])]
        exact h.flow e hold
  · have hpath : e ∉ path := by
      intro hpath
      rw [(hrec.visited e).mpr (Or.inr hpath)] at he
      cases he
    rw [hrec.flow_old e hpath]
    refine h.zero e ?_
    by_contra hold
    rw [(hrec.visited e).mpr (Or.inl (by simpa using hold))] at he
    cases he

/-! ## The walk up -/

variable {last : ℕ} {t : FlowTables} {c : Climb}

/-- Where the walk up from a target is: its path is the last part of the way, `minBandwidth` counts
the edge into the target from the beginning, and no edge of the path has carried enough. -/
structure Climb.Inv (g : GraphData D) (bandwidth : ℕ → ℚ) (src : ℕ) (pred : ℕ → Option ℕ)
    (t : FlowTables) (last : ℕ) (es : List ℕ) (c : Climb) : Prop where
  rest : ∃ xs, g.digraph.Back pred src c.v xs ∧ es = xs ++ c.path
  last_mem : last ∈ es
  width : IsWidth bandwidth (c.path ++ [last]) c.minBandwidth
  passed : ∀ e ∈ c.path, t.visited e = true → ∀ m, IsWidth bandwidth es m → t.partialFlow e < m

/-- At an edge that has been visited, the tables give the rest of the width. -/
theorem FlowTables.Holds.width (h : t.Holds g bandwidth src pred targets)
    (htree : SearchTree g src pred) (hinv : c.Inv g bandwidth src pred t last es)
    (hxs : g.digraph.Back pred src (g.source e) xs) (hes : es = xs ++ e :: c.path)
    (hvisited : t.visited e = true) :
    IsWidth bandwidth es (min c.minBandwidth (t.minBandwidthUpTo e)) := by
  obtain ⟨ys, hys, hupTo⟩ := h.upTo e hvisited
  obtain rfl := htree.unique hxs hys
  have hlast := hinv.last_mem
  rw [min_comm]
  refine (hupTo.append hinv.width).congr fun a => ?_
  subst hes
  simp only [List.mem_append, List.mem_cons, List.not_mem_nil, or_false] at *
  constructor
  · rintro ((ha | ha) | ha | rfl)
    · exact Or.inl ha
    · exact Or.inr (Or.inl ha)
    · exact Or.inr (Or.inr ha)
    · exact hlast
  · rintro (ha | ha | ha)
    · exact Or.inl (Or.inl ha)
    · exact Or.inl (Or.inr ha)
    · exact Or.inr (Or.inl ha)

/-- The walk is at the source, stops below an edge that carries enough, or goes up. -/
theorem climbTurn_cases (hinv : c.Inv g bandwidth src pred t last es)
    (htree : SearchTree g src pred) :
    c.v = src ∧ es = c.path ∧ climbTurn g bandwidth pred t c = .finished ∨
    ∃ xs e, pred c.v = some e ∧ g.digraph.Back pred src (g.source e) xs ∧
      es = xs ++ e :: c.path ∧
      (t.visited e = true ∧ min c.minBandwidth (t.minBandwidthUpTo e) ≤ t.partialFlow e ∧
        climbTurn g bandwidth pred t c = .finished ∨
      (t.visited e = true → t.partialFlow e < min c.minBandwidth (t.minBandwidthUpTo e)) ∧
        climbTurn g bandwidth pred t c =
          .next ⟨g.source e, min c.minBandwidth (bandwidth e), e :: c.path⟩) := by
  obtain ⟨xs, hxs, hes⟩ := hinv.rest
  by_cases hv : c.v = src
  · rw [hv] at hxs
    rw [hxs.eq_nil htree.pred_source, List.nil_append] at hes
    refine Or.inl ⟨hv, hes, ?_⟩
    unfold climbTurn
    rw [hv, htree.pred_source]
  · obtain ⟨e, ys, hpred, rfl, hys⟩ := hxs.cases_of_ne hv
    refine Or.inr ⟨ys, e, hpred, hys, by simpa using hes, ?_⟩
    unfold climbTurn
    rw [hpred]
    by_cases hgo : t.visited e = false ∨
        t.partialFlow e < min c.minBandwidth (t.minBandwidthUpTo e)
    · refine Or.inr ⟨fun hvisited => hgo.resolve_left ?_, if_pos hgo⟩
      simp [hvisited]
    · have hstop := hgo
      rw [not_or, Bool.not_eq_false, not_lt] at hstop
      exact Or.inl ⟨hstop.1, hstop.2, if_neg hgo⟩

theorem climb_variant (h : t.Holds g bandwidth src pred targets) (htree : SearchTree g src pred) :
    Loop.Variant (climbTurn g bandwidth pred t) (Climb.Inv g bandwidth src pred t last es)
      fun c => es.length - c.path.length where
  pos c hinv hne := by
    obtain ⟨-, -, hdone⟩ | ⟨xs, e, -, -, hes, -⟩ := climbTurn_cases hinv htree
    · exact absurd hdone hne
    · have hlen := congrArg List.length hes
      simp at hlen
      omega
  next c c' hinv hturn := by
    obtain ⟨-, -, hdone⟩ | ⟨xs, e, -, hxs, hes, ⟨-, -, hdone⟩ | ⟨hless, hnext⟩⟩ :=
      climbTurn_cases hinv htree
    · rw [hdone] at hturn
      cases hturn
    · rw [hdone] at hturn
      cases hturn
    · rw [hnext] at hturn
      cases hturn
      have hlen := congrArg List.length hes
      simp at hlen
      refine ⟨⟨⟨xs, hxs, hes⟩, hinv.last_mem, ?_, ?_⟩, ?_⟩
      · rw [List.cons_append]
        exact hinv.width.cons e
      · intro a ha hvisited m hm
        obtain rfl | ha := List.mem_cons.mp ha
        · rw [hm.unique (h.width htree hinv hxs hes hvisited)]
          exact hless hvisited
        · exact hinv.passed a ha hvisited m hm
      · dsimp only [List.length_cons]
        omega

/-- How the walk up along `es` ends: at the source, or below an edge that carries enough. -/
def Climb.Ended (g : GraphData D) (bandwidth : ℕ → ℚ) (src : ℕ) (pred : ℕ → Option ℕ)
    (t : FlowTables) (es : List ℕ) (c : Climb) : Prop :=
  c.v = src ∧ es = c.path ∧ IsWidth bandwidth es c.minBandwidth ∨
  ∃ xs e, pred c.v = some e ∧ c.v ≠ src ∧ g.digraph.Back pred src (g.source e) xs ∧
    es = xs ++ e :: c.path ∧ t.visited e = true ∧
    min c.minBandwidth (t.minBandwidthUpTo e) ≤ t.partialFlow e ∧
    IsWidth bandwidth es (min c.minBandwidth (t.minBandwidthUpTo e))

theorem exists_climb (h : t.Holds g bandwidth src pred targets) (htree : SearchTree g src pred)
    (hpred : pred target = some last) (hes : g.digraph.Back pred src target es) :
    ∃ c, Loop.run (climbTurn g bandwidth pred t) g.myEdges.length ⟨target, bandwidth last, []⟩ =
      .finished c ∧ c.Ended g bandwidth src pred t es ∧
      ∀ e ∈ c.path, t.visited e = true → ∀ m, IsWidth bandwidth es m → t.partialFlow e < m := by
  obtain ⟨ys, hsplit, -⟩ := htree.ne_nil hpred hes
  have hinit : Climb.Inv g bandwidth src pred t last es ⟨target, bandwidth last, []⟩ := by
    refine ⟨⟨es, hes, (List.append_nil es).symm⟩, by simp [hsplit], ?_, ?_⟩
    · exact isWidth_singleton bandwidth last
    · rintro e ⟨⟩
  have hfault : ∀ c, c.Inv g bandwidth src pred t last es →
      climbTurn g bandwidth pred t c ≠ .fault := by
    intro c hinv hfault
    obtain ⟨-, -, hturn⟩ | ⟨_, _, -, -, -, ⟨-, -, hturn⟩ | ⟨-, hturn⟩⟩ :=
      climbTurn_cases hinv htree
    all_goals
      rw [hturn] at hfault
      cases hfault
  obtain ⟨c, hrun, hinv, hdone⟩ := (climb_variant h htree).exists_finished hfault hinit
    ((Nat.sub_le _ _).trans (htree.length_le hes))
  refine ⟨c, hrun, ?_, hinv.passed⟩
  obtain ⟨hv, hpath, -⟩ | ⟨xs, e, hpred, hxs, hsplit, ⟨hvisited, hle, -⟩ | ⟨-, hnext⟩⟩ :=
    climbTurn_cases hinv htree
  · refine Or.inl ⟨hv, hpath, hinv.width.congr fun a => ?_⟩
    have hlast := hinv.last_mem
    rw [← hpath, List.mem_append, List.mem_singleton]
    constructor
    · rintro (ha | rfl)
      · exact ha
      · exact hlast
    · exact Or.inl
  · refine Or.inr ⟨xs, e, hpred, ?_, hxs, hsplit, hvisited, hle,
      h.width htree hinv hxs hsplit hvisited⟩
    intro hv
    rw [hv, htree.pred_source] at hpred
    cases hpred
  · rw [hdone] at hnext
    cases hnext

/-! ## One target -/

/-- The way to `target` begins with an edge that carries its flow already. -/
def Covered (g : GraphData D) (bandwidth : ℕ → ℚ) (src : ℕ) (pred : ℕ → Option ℕ)
    (targets : Set ℕ) (target : ℕ) : Prop :=
  ∃ e es m, g.digraph.Back pred src target (e :: es) ∧ IsWidth bandwidth (e :: es) m ∧
    ∃ x ∈ flowsThrough g bandwidth src pred targets e, m ≤ x

/-- What the end of the walk gives: the flow of the way, and a value to start from above the path. -/
theorem Climb.Ended.top (hend : c.Ended g bandwidth src pred t es)
    (h : t.Holds g bandwidth src pred targets) (htree : SearchTree g src pred) (hnil : es ≠ []) :
    ∃ xs above flow minSoFar, es = xs ++ c.path ∧
      flowAtTop bandwidth pred src t c = some (flow, minSoFar) ∧
      IsWidth bandwidth es flow ∧ IsWidth bandwidth above minSoFar ∧
      (∀ ps e qs, c.path = ps ++ e :: qs →
        ∀ a, a ∈ above ++ (ps ++ [e]) ↔ a ∈ xs ++ (ps ++ [e])) ∧
      (c.v = src ∧ xs = [] ∨ c.v ≠ src ∧ (∃ e, pred c.v = some e) ∧ xs ≠ []) ∧
      ∀ a ∈ xs, ∃ x ∈ flowsThrough g bandwidth src pred targets a, flow ≤ x := by
  rcases hend with ⟨hv, rfl, hwidth⟩ | ⟨xs, e, hpred, hv, hxs, hes, hvisited, hle, hwidth⟩
  · obtain ⟨f, path, hpath⟩ := List.exists_cons_of_ne_nil hnil
    refine ⟨[], [f], c.minBandwidth, bandwidth f, rfl, ?_, hwidth, isWidth_singleton bandwidth f,
      ?_, Or.inl ⟨hv, rfl⟩, ?_⟩
    · unfold flowAtTop
      rw [if_pos hv, hpath]
      rfl
    · intro ps e qs hsplit a
      -- the first edge counts twice
      have hfirst : f ∈ ps ++ [e] := by
        rw [hpath] at hsplit
        cases ps with
        | nil => simp [(List.cons.inj hsplit).1]
        | cons b ps => simp [(List.cons.inj hsplit).1]
      rw [List.mem_append, List.nil_append, List.mem_singleton]
      constructor
      · rintro (rfl | ha)
        · exact hfirst
        · exact ha
      · exact Or.inr
    · rintro a ⟨⟩
  · obtain ⟨ys, hys, hupTo⟩ := h.upTo e hvisited
    obtain rfl := htree.unique hxs hys
    refine ⟨xs ++ [e], xs ++ [e], _, _, by simpa using hes, ?_, hwidth, hupTo,
      fun _ _ _ _ _ => Iff.rfl, Or.inr ⟨hv, ⟨e, hpred⟩, by simp⟩, ?_⟩
    · unfold flowAtTop
      rw [if_neg hv, hpred]
      rfl
    · intro a ha
      refine ⟨t.partialFlow e, ?_, hle⟩
      obtain ha | ha := List.mem_append.mp ha
      · exact flowsThrough_subset htree hxs ha (h.flow e hvisited).1
      · rw [List.mem_singleton.mp ha]
        exact (h.flow e hvisited).1

theorem FlowTables.Holds.congr {targets' : Set ℕ} (h : t.Holds g bandwidth src pred targets)
    (hsame : ∀ e, flowsThrough g bandwidth src pred targets' e =
      flowsThrough g bandwidth src pred targets e) : t.Holds g bandwidth src pred targets' := by
  refine ⟨fun e => ?_, h.upTo, fun e he => ?_, h.zero⟩
  · rw [h.visited, onWay_iff_nonempty bandwidth, onWay_iff_nonempty bandwidth, hsame]
  · rw [hsame]
    exact h.flow e he

/-- A vertex without a predecessor is the target of no flow. -/
theorem flowsThrough_insert_of_none (hpred : pred target = none) (e : ℕ) :
    flowsThrough g bandwidth src pred (insert target targets) e =
      flowsThrough g bandwidth src pred targets e := by
  ext x
  constructor
  · rintro ⟨t, rfl | ht, es, hes, he, hx⟩
    · rw [hes.eq_nil hpred] at he
      cases he
    · exact ⟨t, ht, es, hes, he, hx⟩
  · rintro ⟨t, ht, hrest⟩
    exact ⟨t, Or.inr ht, hrest⟩

/-- **One target**: the tables say what they should about it as well. The walk stops below the
source exactly if the way is covered. -/
theorem firstTarget_holds (h : t.Holds g bandwidth src pred targets)
    (htree : SearchTree g src pred) (hpos : ∀ e < g.myEdges.length, 0 ≤ bandwidth e) (v : ℕ)
    (target : ℕ) :
    ∃ t' v', firstTarget g bandwidth pred src (t, v) target = some (t', v') ∧
      t'.Holds g bandwidth src pred (insert target targets) ∧
      (pred target = none → v' = v) ∧
      ((pred target).isSome → (v' = src ∨ (pred v').isSome) ∧
        ((pred v').isSome ↔ Covered g bandwidth src pred targets target)) := by
  cases hpred : pred target with
  | none =>
    refine ⟨t, v, ?_, h.congr (flowsThrough_insert_of_none hpred), fun _ => rfl, ?_⟩
    · unfold firstTarget
      rw [hpred]
    · rintro ⟨⟩
  | some last =>
    obtain ⟨es, hes⟩ := htree.exists_back target last hpred
    obtain ⟨ys, hsplit, -⟩ := htree.ne_nil hpred hes
    have hnil : es ≠ [] := by simp [hsplit]
    obtain ⟨c, hrun, hend, hpassed⟩ := exists_climb h htree hpred hes
    obtain ⟨xs, above, flow, minSoFar, rfl, htop, hwidth, habove, hsame, hstop, henough⟩ :=
      hend.top h htree hnil
    have hnodup : c.path.Nodup :=
      (List.nodup_append.mp (hes.nodup htree.predsLeadTo htree.pred_source)).2.1
    have hflow : 0 ≤ flow :=
      hwidth.of_le fun e he => hpos e ((hes.isWalk htree.predsLeadTo).mem_edges he)
    refine ⟨_, c.v, ?_, (recorded_foldl habove hnodup).holds h htree hes hwidth hflow hsame henough,
      ?_, fun _ => ?_⟩
    · unfold firstTarget
      rw [hpred]
      dsimp only
      rw [hrun]
      dsimp only
      rw [htop]
      rfl
    · rintro ⟨⟩
    · rcases hstop with ⟨hv, rfl⟩ | ⟨hv, ⟨e, he⟩, hxs⟩
      · refine ⟨Or.inl hv, ?_⟩
        rw [hv, htree.pred_source]
        refine iff_of_false (by simp) ?_
        rintro ⟨e, fs, m, hfs, hm, x, hx, hle⟩
        obtain heq := htree.unique hes hfs
        rw [List.nil_append] at heq
        have hvisited : t.visited e = true :=
          (h.visited e).mpr ((onWay_iff_nonempty bandwidth).mpr ⟨x, hx⟩)
        have hlt := hpassed e (by simp [heq]) hvisited m (by simpa [heq] using hm)
        exact absurd ((h.flow e hvisited).2 hx) (not_le.mpr (hlt.trans_le hle))
      · refine ⟨Or.inr (by simp [he]), iff_of_true (by simp [he]) ?_⟩
        obtain ⟨f, fs, rfl⟩ := List.exists_cons_of_ne_nil hxs
        exact ⟨f, _, flow, hes, hwidth, henough f List.mem_cons_self⟩

/-! ## All targets -/

/-- `v` after the targets: as before if none of them is reached, else where the walk up from the last
one that is has stopped. -/
structure LeftBy (g : GraphData D) (bandwidth : ℕ → ℚ) (src : ℕ) (pred : ℕ → Option ℕ)
    (targets : Set ℕ) (clients : List ℕ) (v v' : ℕ) : Prop where
  unreached : (∀ c ∈ clients, pred c = none) → v' = v
  reached : ∀ front last back, clients = front ++ last :: back → (pred last).isSome →
    (∀ c ∈ back, pred c = none) → (v' = src ∨ (pred v').isSome) ∧
      ((pred v').isSome ↔ Covered g bandwidth src pred (targets ∪ {c | c ∈ front}) last)

theorem foldlM_firstTarget (h : t.Holds g bandwidth src pred targets)
    (htree : SearchTree g src pred) (hpos : ∀ e < g.myEdges.length, 0 ≤ bandwidth e)
    (clients : List ℕ) (v : ℕ) :
    ∃ t' v', clients.foldlM (firstTarget g bandwidth pred src) (t, v) = some (t', v') ∧
      t'.Holds g bandwidth src pred (targets ∪ {c | c ∈ clients}) ∧
      LeftBy g bandwidth src pred targets clients v v' := by
  induction clients generalizing targets t v with
  | nil =>
    refine ⟨t, v, rfl, by simpa using h, fun _ => rfl, ?_⟩
    intro front last back hnil
    simp at hnil
  | cons c clients ih =>
    obtain ⟨t₁, v₁, hfirst, hholds, hnone, hsome⟩ := firstTarget_holds h htree hpos v c
    obtain ⟨t', v', hrest, hholds', hleft⟩ := ih hholds v₁
    have hset : ∀ cs : List ℕ,
        insert c targets ∪ {a | a ∈ cs} = targets ∪ {a | a ∈ c :: cs} := by
      intro cs
      ext a
      simp [or_left_comm, or_assoc]
    refine ⟨t', v', ?_, hset clients ▸ hholds', fun hall => ?_, ?_⟩
    · rw [List.foldlM_cons, hfirst]
      exact hrest
    · rw [hleft.unreached fun a ha => hall a (List.mem_cons_of_mem c ha)]
      exact hnone (hall c List.mem_cons_self)
    · intro front last back hsplit hlast hback
      cases front with
      | nil =>
        obtain ⟨rfl, rfl⟩ := List.cons.inj hsplit
        rw [hleft.unreached hback]
        simpa using hsome hlast
      | cons a front =>
        obtain ⟨rfl, htail⟩ := List.cons.inj hsplit
        rw [← hset front]
        exact hleft.reached front last back htail hlast hback

/-- **The first loop** fills the tables for all clients. -/
theorem firstPass_holds (htree : SearchTree g src pred)
    (hpos : ∀ e < g.myEdges.length, 0 ≤ bandwidth e) (clients : List ℕ) (v : ℕ) :
    ∃ t v', firstPass g bandwidth pred src clients v = some (t, v') ∧
      t.Holds g bandwidth src pred {c | c ∈ clients} ∧
      LeftBy g bandwidth src pred ∅ clients v v' := by
  obtain ⟨t, v', hrun, hholds, hleft⟩ :=
    foldlM_firstTarget FlowTables.holds_zero htree hpos clients v
  rw [Set.empty_union] at hholds
  exact ⟨t, v', hrun, hholds, hleft⟩

end

/-- **The tables of a source.** For each edge on the way to a client: its partial flow is the largest
of the flows to the clients below it, and its bandwidth up to it is the width of the way there. -/
theorem firstPass_correct (g : MNGraph ℚ) (hkbps : ∀ e < g.myEdges.length, 0 ≤ g.kbps e)
    (source : Fin g.myVertices.length) (clients : List ℕ) (v : ℕ) :
    ∃ t v', firstPass g.toGraphData g.kbps (breadthFirstSearch g.toGraphData source).pred source
        clients v = some (t, v') ∧
      ∀ e, OnWay g.toGraphData source (breadthFirstSearch g.toGraphData source).pred
          {c | c ∈ clients} e →
        IsGreatest (flowsThrough g.toGraphData g.kbps source
          (breadthFirstSearch g.toGraphData source).pred {c | c ∈ clients} e) (t.partialFlow e) ∧
        ∃ es, g.digraph.Back (breadthFirstSearch g.toGraphData source).pred source (g.source e) es ∧
          IsWidth g.kbps (es ++ [e]) (t.minBandwidthUpTo e) := by
  obtain ⟨t, v', hrun, hholds, -⟩ :=
    firstPass_holds (searchTree_breadthFirstSearch g.built source.isLt) hkbps clients v
  refine ⟨t, v', hrun, fun e he => ?_⟩
  have hvisited := (hholds.visited e).mpr he
  exact ⟨hholds.flow e hvisited, hholds.upTo e hvisited⟩

/-- Three nodes in a row, with a wide pipe and a narrow one. -/
def narrowing : MNGraph ℚ where
  myVertices := [∅, ∅, ∅]
  myEdges := [⟨0, 1, (∅ : AttributeMap ℚ).setDouble (str "kbps") 5⟩,
    ⟨1, 2, (∅ : AttributeMap ℚ).setDouble (str "kbps") 3⟩]
  mySpecs := ∅
  built := by
    refine ⟨?_, ?_, by decide, by decide⟩ <;> decide

/-- From the first node, 3 is sent to the last one through both pipes. -/
theorem firstPass_correct_narrowing :
    ∃ t v', firstPass narrowing.toGraphData narrowing.kbps
        (breadthFirstSearch narrowing.toGraphData 0).pred 0 [0, 2] 2 = some (t, v') ∧
      t.partialFlow 0 = 3 := by
  have hkbps : ∀ e < narrowing.myEdges.length, 0 ≤ narrowing.kbps e := by decide
  obtain ⟨t, v', hrun, htables⟩ := firstPass_correct narrowing hkbps ⟨0, by decide⟩ [0, 2] 2
  have hfirst : narrowing.digraph.Back (breadthFirstSearch narrowing.toGraphData 0).pred 0 1
      ([] ++ [0]) := .step (by decide) .root
  have hway : narrowing.digraph.Back (breadthFirstSearch narrowing.toGraphData 0).pred 0 2
      ([0] ++ [1]) := .step (by decide) hfirst
  have hwidth : IsWidth narrowing.kbps [0, 1] 3 := by
    have hmin := (isWidth_singleton narrowing.kbps 1).cons 0
    rwa [show min (narrowing.kbps 1) (narrowing.kbps 0) = 3 by decide] at hmin
  refine ⟨t, v', hrun, (htables 0 ⟨2, by simp, _, hway, by simp⟩).1.unique ⟨?_, ?_⟩⟩
  · exact ⟨2, by simp, _, hway, by simp, hwidth⟩
  · rintro x ⟨c, hc, es, hes, he, hx⟩
    obtain rfl | rfl : c = 0 ∨ c = 2 := by simpa using hc
    · rw [hes.eq_nil (by decide)] at he
      cases he
    · rw [hes.unique (by decide) hway] at hx
      exact (hx.unique hwidth).le

end Modelnet.Tools

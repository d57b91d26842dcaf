import Mathlib.Algebra.BigOperators.Group.Finset.Piecewise
import Mathlib.Algebra.Order.BigOperators.Group.Finset
import Modelnet.Tools.WorstCaseWeights

/-!
# Flow lists

`buildFlowLists` enters the flows of a client into the lists of the pipes while it searches the graph
from this client, every time that it has taken a vertex from the queue, and not once the search is
over. So a flow that leads further than to a neighbour of its source is entered more than once, or
along predecessors that are not there yet (`buildFlowLists_correct_iff`).
-/

namespace Modelnet.Tools

structure Flow where
  source : ℕ
  target : ℕ
  bandwidth : ℚ
  sendRate : ℚ
  stepFactor : ℚ

/-- `struct pipeUser`, with the index of the flow. -/
structure PipeUser where
  f : ℕ
  next : Option ℕ
  deriving DecidableEq

/-- The conversions of a `double` to `int` and to `float`. -/
structure Casts where
  toInt : ℚ → ℤ
  toFloat : ℚ → ℚ

/-- The predecessors, the users of the pipes and the flows. -/
structure FlowLists where
  pred : ℕ → Option ℕ
  users : ℕ → List PipeUser
  flows : List Flow

/-- The variables of `while (v1!=v)`. -/
structure RouteWalk where
  v1 : ℕ
  lastEdge : Option ℕ
  minBW : ℤ
  users : ℕ → List PipeUser

/-- The variables of `while (discovered < targets[v].size())`. -/
structure FlowSearch where
  q : List ℕ
  visited : ℕ → Bool
  discovered : ℕ
  lists : FlowLists

def targetsOf (flows : List Flow) (v : ℕ) : Finset ℕ :=
  ((flows.filter fun f => f.source = v).map Flow.target).toFinset

def flowsFor (flows : List Flow) (v : ℕ) : List ℕ :=
  (List.range flows.length).filter fun i => flows[i]?.map Flow.source = some v

section

variable (c : Casts) (g : GraphData ℚ)

/-- The body of `while (v1!=v)`; `users` is not read at nil. -/
def routeTurn (pred : ℕ → Option ℕ) (v i : ℕ) (w : RouteWalk) : Loop.Turn RouteWalk :=
  if w.v1 = v then .finished
  else
    match pred w.v1 with
    | none => .fault
    | some e => .next
      { v1 := g.source e
        lastEdge := some e
        minBW := if w.minBW = -1 then c.toInt (g.kbps e) else min (c.toInt (g.kbps e)) w.minBW
        users := Function.update w.users e (w.users e ++ [⟨i, w.lastEdge⟩]) }

/-- The body of `forall(f, flowsFor[v])`. A walk that takes more turns than there are vertices comes
back to one of them, and never ends. -/
def registerFlow (v : ℕ) (s : FlowLists) (i : ℕ) : Option FlowLists :=
  match s.flows[i]? with
  | none => none
  | some f =>
    match Loop.run (routeTurn c g s.pred v i) g.myVertices.length
        ⟨f.target, none, -1, s.users⟩ with
    | .finished w => some { s with
        users := w.users
        flows := s.flows.set i { f with bandwidth := c.toFloat (min w.minBW f.bandwidth) } }
    | _ => none

/-- The body of `forall_out_edges(e,v1,g)`. -/
def discoverEdge (targets : Finset ℕ) (s : FlowSearch) (e : ℕ) : FlowSearch :=
  let v2 := g.target e
  if s.visited v2 then s
  else
    { q := s.q ++ [v2]
      visited := Function.update s.visited v2 true
      discovered := if v2 ∈ targets then s.discovered + 1 else s.discovered
      lists := { s.lists with pred := Function.update s.lists.pred v2 (some e) } }

/-- The body of `while (discovered < targets[v].size())`; the queue must not be empty. -/
def flowSearchTurn (v : ℕ) (targets : Finset ℕ) (flows : List ℕ) (s : FlowSearch) :
    Loop.Turn FlowSearch :=
  if s.discovered < targets.card then
    match s.q with
    | [] => .fault
    | v1 :: q =>
      let s' := (g.outEdges v1).foldl (discoverEdge g targets) { s with q := q }
      match flows.foldlM (registerFlow c g v) s'.lists with
      | none => .fault
      | some lists => .next { s' with lists := lists }
  else .finished

/-- The variables before the search from `v`. -/
def FlowSearch.init (v : ℕ) (lists : FlowLists) : FlowSearch where
  q := [v]
  visited := Function.update (fun _ => false) v true
  discovered := 0
  lists := lists

/-- The body of the loop over the clients. A vertex is taken from the queue once at most. -/
def flowsFrom (flows : List Flow) (lists : FlowLists) (v : ℕ) : Option FlowLists :=
  match Loop.run (flowSearchTurn c g v (targetsOf flows v) (flowsFor flows v)) g.myVertices.length
      (FlowSearch.init v lists) with
  | .finished s => some s.lists
  | _ => none

def buildFlowLists (clients : List ℕ) (flows : List Flow) : Option FlowLists :=
  clients.foldlM (flowsFrom c g flows) ⟨fun _ => none, fun _ => [], flows⟩

end

/-! ## What is claimed -/

/-- The edges lead from the source of the flow to its target along the tree of the search. -/
def Flow.Route {D : Type} (g : GraphData D) (f : Flow) (es : List ℕ) : Prop :=
  g.digraph.Back (breadthFirstSearch g f.source).pred f.source f.target es

/-- What the list of an edge has of a flow. -/
def entriesOf (users : ℕ → List PipeUser) (i e : ℕ) : List PipeUser :=
  (users e).filter fun pu => pu.f = i

/-- A flow is in the list of each edge of its route once, with the edge that follows, and in no other
list. -/
structure RegisteredOnce {D : Type} (g : GraphData D) (flows : List Flow)
    (users : ℕ → List PipeUser) : Prop where
  on : ∀ (i : ℕ) (f : Flow) (ps : List ℕ) (e : ℕ) (qs : List ℕ), flows[i]? = some f →
    f.Route g (ps ++ e :: qs) → entriesOf users i e = [⟨i, qs.head?⟩]
  off : ∀ (i : ℕ) (f : Flow) (es : List ℕ) (e : ℕ), flows[i]? = some f →
    f.Route g es → e ∉ es → entriesOf users i e = []

/-- The flows are registered, with the bandwidths that their routes leave to them. -/
structure FlowLists.Correct (g : GraphData ℚ) (flows : List Flow) (r : FlowLists) : Prop where
  registered : RegisteredOnce g flows r.users
  bandwidth : ∀ (i : ℕ) (f : Flow) (es : List ℕ) (m : ℚ), flows[i]? = some f → f.Route g es →
    IsWidth g.kbps es m → r.flows[i]?.map Flow.bandwidth = some (min m f.bandwidth)

/-- The first edge from the source of the flow to its target. -/
def Flow.edge? {D : Type} (g : GraphData D) (f : Flow) : Option ℕ :=
  (g.outEdges f.source).find? fun e => g.target e = f.target

/-- The source is in the list once and the target next to it; or nothing is sent, and not by a
client. -/
def Flow.Adjacent {D : Type} (g : GraphData D) (clients : List ℕ) (f : Flow) : Prop :=
  f.target = f.source ∧ f.source ∉ clients ∨
  f.target ≠ f.source ∧ clients.count f.source = 1 ∧ (f.edge? g).isSome

/-- The conversions leave the bandwidth as it should be. -/
def Flow.Converted (c : Casts) (g : GraphData ℚ) (f : Flow) : Prop :=
  ∀ e, f.edge? g = some e →
    c.toFloat (min (c.toInt (g.kbps e) : ℚ) f.bandwidth) = min (g.kbps e) f.bandwidth

section

variable {c : Casts} {g : GraphData ℚ} {clients is : List ℕ} {flows : List Flow} {v i j e a : ℕ}

/-! ## Lists that grow -/

theorem entriesOf_update (users : ℕ → List PipeUser) (next : Option ℕ) :
    entriesOf (Function.update users e (users e ++ [⟨i, next⟩])) j a =
      if j = i ∧ a = e then entriesOf users i e ++ [⟨i, next⟩] else entriesOf users j a := by
  unfold entriesOf
  by_cases ha : a = e
  · subst ha
    rw [Function.update_self, List.filter_append]
    by_cases hj : j = i
    · subst hj
      simp
    · simp [hj, Ne.symm hj]
  · rw [Function.update_of_ne ha, if_neg fun h => ha h.2]

/-- Only entries of the flows of the set have come in, and none has gone; the flows lead where they
did. -/
structure FlowLists.Grown (S : Set ℕ) (s s' : FlowLists) : Prop where
  targets : ∀ i : ℕ, s'.flows[i]?.map Flow.target = s.flows[i]?.map Flow.target
  other : ∀ i ∉ S, ∀ e, entriesOf s'.users i e = entriesOf s.users i e
  more : ∀ i e, (entriesOf s.users i e).length ≤ (entriesOf s'.users i e).length

namespace FlowLists

variable {S T : Set ℕ} {s s' s'' : FlowLists}

theorem Grown.of_eq (husers : s'.users = s.users) (hflows : s'.flows = s.flows) :
    Grown S s s' := by
  refine ⟨fun i => by rw [hflows], fun i _ e => by rw [husers], fun i e => by rw [husers]⟩

theorem Grown.mono (h : Grown S s s') (hST : S ⊆ T) : Grown T s s' :=
  ⟨h.targets, fun i hi => h.other i fun hin => hi (hST hin), h.more⟩

theorem Grown.trans (h : Grown S s s') (h' : Grown S s' s'') : Grown S s s'' where
  targets i := (h'.targets i).trans (h.targets i)
  other i hi e := (h'.other i hi e).trans (h.other i hi e)
  more i e := (h.more i e).trans (h'.more i e)

end FlowLists

/-- The entries of a flow in the lists of the edges to `t`. -/
def load (g : GraphData ℚ) (users : ℕ → List PipeUser) (i t : ℕ) : ℕ :=
  ∑ e ∈ (Finset.range g.myEdges.length).filter (fun e => g.target e = t),
    (entriesOf users i e).length

theorem FlowLists.Grown.load_le {S : Set ℕ} {s s' : FlowLists} (h : s.Grown S s') (i t : ℕ) :
    load g s.users i t ≤ load g s'.users i t :=
  Finset.sum_le_sum fun e _ => h.more i e

/-! ## One flow -/

/-- The walk adds entries of its flow only, the first one for the edge into the target. -/
theorem grown_routeTurn {pred : ℕ → Option ℕ} {w w' : RouteWalk} {s : FlowLists} {flows' : List Flow}
    (hturn : routeTurn c g pred v i w = .next w')
    (hgrown : s.Grown {i} ⟨pred, w.users, flows'⟩) :
    s.Grown {i} ⟨pred, w'.users, flows'⟩ ∧ ∃ e, pred w.v1 = some e ∧
      (entriesOf w.users i e).length < (entriesOf w'.users i e).length := by
  unfold routeTurn at hturn
  split at hturn
  · cases hturn
  · cases hpred : pred w.v1 with
    | none =>
      rw [hpred] at hturn
      cases hturn
    | some e =>
      rw [hpred] at hturn
      cases hturn
      refine ⟨hgrown.trans ⟨fun _ => rfl, fun j hj a => ?_, fun j a => ?_⟩, e, rfl, ?_⟩
      · dsimp only
        rw [entriesOf_update, if_neg fun h => hj h.1]
      · dsimp only
        rw [entriesOf_update]
        split_ifs with h
        · obtain ⟨rfl, rfl⟩ := h
          simp
        · exact le_rfl
      · dsimp only
        rw [entriesOf_update, if_pos ⟨rfl, rfl⟩]
        simp

theorem cases_of_registerFlow {s s' : FlowLists} (h : registerFlow c g v s i = some s') :
    ∃ f w, s.flows[i]? = some f ∧
      Loop.run (routeTurn c g s.pred v i) g.myVertices.length ⟨f.target, none, -1, s.users⟩ =
        .finished w ∧
      s' = ⟨s.pred, w.users,
        s.flows.set i { f with bandwidth := c.toFloat (min w.minBW f.bandwidth) }⟩ := by
  unfold registerFlow at h
  cases hf : s.flows[i]? with
  | none =>
    rw [hf] at h
    cases h
  | some f =>
    rw [hf] at h
    dsimp only at h
    refine ⟨f, ?_⟩
    cases hrun : Loop.run (routeTurn c g s.pred v i) g.myVertices.length
        ⟨f.target, none, -1, s.users⟩ with
    | finished w =>
      rw [hrun] at h
      cases h
      exact ⟨w, rfl, rfl, rfl⟩
    | fault =>
      rw [hrun] at h
      cases h
    | exhausted =>
      rw [hrun] at h
      cases h

theorem target_set {flows : List Flow} {f : Flow} {b : ℚ} (hf : flows[i]? = some f) (j : ℕ) :
    (flows.set i { f with bandwidth := b })[j]?.map Flow.target = flows[j]?.map Flow.target := by
  by_cases hij : i = j
  · subst hij
    rw [List.getElem?_set_self (List.getElem?_eq_some_iff.mp hf).1, hf]
    rfl
  · rw [List.getElem?_set_ne hij]

theorem grown_registerFlow {s s' : FlowLists} (h : registerFlow c g v s i = some s') :
    s'.pred = s.pred ∧ s.Grown {i} s' ∧
      ∀ f, s.flows[i]? = some f → f.target ≠ v → ∃ e, s.pred f.target = some e ∧
        (entriesOf s.users i e).length < (entriesOf s'.users i e).length := by
  obtain ⟨f, w, hf, hrun, rfl⟩ := cases_of_registerFlow h
  have hset : ∀ w' : RouteWalk, s.Grown {i} ⟨s.pred, w'.users, s.flows⟩ →
      s.Grown {i} ⟨s.pred, w'.users,
        s.flows.set i { f with bandwidth := c.toFloat (min w.minBW f.bandwidth) }⟩ :=
    fun w' hw' => ⟨target_set hf, hw'.other, hw'.more⟩
  have hrest : ∀ {w₀ : RouteWalk} {n : ℕ},
      Loop.run (routeTurn c g s.pred v i) n w₀ = .finished w →
      FlowLists.Grown {i} ⟨s.pred, w₀.users, s.flows⟩ ⟨s.pred, w.users, s.flows⟩ := by
    intro w₀ n hrun
    exact Loop.inv_of_run_finished
      (I := fun w' => FlowLists.Grown {i} ⟨s.pred, w₀.users, s.flows⟩ ⟨s.pred, w'.users, s.flows⟩)
      (fun w₁ w₂ hw hturn => (grown_routeTurn hturn hw).1) (.of_eq rfl rfl) hrun
  have hinit : s.Grown {i} ⟨s.pred, s.users, s.flows⟩ := .of_eq rfl rfl
  refine ⟨rfl, hset w (hinit.trans (hrest hrun)), fun f' hf' hne => ?_⟩
  obtain rfl : f = f' := Option.some.inj (hf.symm.trans hf')
  obtain ⟨hdone, -⟩ | ⟨m, w₁, -, hturn, hmore⟩ := Loop.cases_of_run_finished hrun
  · unfold routeTurn at hdone
    rw [if_neg hne] at hdone
    split at hdone <;> cases hdone
  · obtain ⟨-, e, he, hlt⟩ := grown_routeTurn hturn hinit
    exact ⟨e, he, hlt.trans_le ((hrest hmore).more i e)⟩

/-- **The flows of a client**, each of them once. -/
theorem grown_registerFlows {s s' : FlowLists} (h : is.foldlM (registerFlow c g v) s = some s')
    (hpred : g.digraph.PredsLeadTo s.pred) :
    s'.pred = s.pred ∧ s.Grown {i | i ∈ is} s' ∧
      ∀ i ∈ is, ∀ t, s.flows[i]?.map Flow.target = some t → t ≠ v →
        load g s.users i t < load g s'.users i t := by
  induction is generalizing s with
  | nil =>
    cases h
    exact ⟨rfl, .of_eq rfl rfl, fun i hi => absurd hi List.not_mem_nil⟩
  | cons a is ih =>
    rw [List.foldlM_cons] at h
    obtain ⟨s₁, hfirst, hrest⟩ := Option.bind_eq_some_iff.mp h
    obtain ⟨hpred₁, hgrown₁, hlt₁⟩ := grown_registerFlow hfirst
    obtain ⟨hpred', hgrown, hlt⟩ := ih hrest (hpred₁.symm ▸ hpred)
    refine ⟨hpred'.trans hpred₁, (hgrown₁.mono ?_).trans (hgrown.mono ?_), fun i hi t ht hne => ?_⟩
    · rintro _ rfl
      exact List.mem_cons_self
    · exact fun i hi => List.mem_cons_of_mem a hi
    · obtain rfl | hi := List.mem_cons.mp hi
      · obtain ⟨f, hf, rfl⟩ := Option.map_eq_some_iff.mp ht
        obtain ⟨e, he, hmore⟩ := hlt₁ f hf hne
        obtain ⟨hedge, htarget⟩ := hpred _ _ he
        refine lt_of_lt_of_le ?_ (hgrown.load_le i f.target)
        refine Finset.sum_lt_sum (fun a _ => hgrown₁.more i a) ⟨e, ?_, hmore⟩
        exact Finset.mem_filter.mpr ⟨Finset.mem_range.mpr hedge, htarget⟩
      · exact (hgrown₁.load_le i t).trans_lt (hlt i hi t ((hgrown₁.targets i).trans ht) hne)

/-! ## The edges of one vertex -/

variable {targets : Finset ℕ} {s s' : FlowSearch} {u : ℕ}

def FlowSearch.toBFS (s : FlowSearch) (dist : ℕ → ℤ) : BFSState :=
  ⟨s.q, s.visited, s.lists.pred, dist⟩

/-- The targets that have not been visited. -/
def FlowSearch.left (targets : Finset ℕ) (s : FlowSearch) : Finset ℕ :=
  targets.filter fun u => s.visited u = false

theorem discoverEdge_visited (h : s.visited (g.target e) = true) :
    discoverEdge g targets s e = s := if_pos h

theorem discoverEdge_fresh (h : s.visited (g.target e) = false) :
    discoverEdge g targets s e =
      { q := s.q ++ [g.target e]
        visited := Function.update s.visited (g.target e) true
        discovered := if g.target e ∈ targets then s.discovered + 1 else s.discovered
        lists := { s.lists with pred := Function.update s.lists.pred (g.target e) (some e) } } :=
  if_neg (by simp [h])

theorem discoverEdge_toBFS (targets : Finset ℕ) (s : FlowSearch) (dist : ℕ → ℤ) (u e : ℕ) :
    ∃ dist', (discoverEdge g targets s e).toBFS dist' = scanEdge g u (s.toBFS dist) e := by
  cases hvisited : s.visited (g.target e) with
  | true =>
    refine ⟨dist, ?_⟩
    rw [scanEdge_visited (s := s.toBFS dist) hvisited, discoverEdge_visited hvisited]
  | false =>
    rw [scanEdge_fresh (s := s.toBFS dist) hvisited, discoverEdge_fresh hvisited]
    exact ⟨_, rfl⟩

/-- The loop over the edges visits what a breadth-first search does. -/
theorem scanned_discover (hu : s.visited u = true) (targets : Finset ℕ) (es : List ℕ) :
    ∃ dist dist', Scanned g u es (s.toBFS dist) ((es.foldl (discoverEdge g targets) s).toBFS dist') := by
  have hfold : ∀ (es : List ℕ) (s : FlowSearch) (dist : ℕ → ℤ), ∃ dist',
      (es.foldl (discoverEdge g targets) s).toBFS dist' =
        es.foldl (scanEdge g u) (s.toBFS dist) := by
    intro es
    induction es with
    | nil => exact fun s dist => ⟨dist, rfl⟩
    | cons e es ih =>
      intro s dist
      obtain ⟨dist₁, heq⟩ := discoverEdge_toBFS (g := g) targets s dist u e
      obtain ⟨dist', hrest⟩ := ih (discoverEdge g targets s e) dist₁
      exact ⟨dist', by rw [List.foldl_cons, List.foldl_cons, hrest, heq]⟩
  obtain ⟨dist', heq⟩ := hfold es s fun _ => 0
  refine ⟨fun _ => 0, dist', ?_⟩
  rw [heq]
  exact scanned_foldl (s := s.toBFS fun _ => 0) hu es

theorem discoverEdge_discovered (targets : Finset ℕ) (s : FlowSearch) (e : ℕ) :
    (discoverEdge g targets s e).discovered +
        ((discoverEdge g targets s e).left targets).card =
      s.discovered + (s.left targets).card := by
  cases hvisited : s.visited (g.target e) with
  | true => rw [discoverEdge_visited hvisited]
  | false =>
    have hleft : (discoverEdge g targets s e).left targets =
        (s.left targets).erase (g.target e) := by
      rw [discoverEdge_fresh hvisited]
      ext a
      unfold FlowSearch.left
      by_cases ha : a = g.target e
      · subst ha
        simp
      · simp [ha, Function.update_of_ne]
    have hmem : g.target e ∈ s.left targets ↔ g.target e ∈ targets := by
      simp [FlowSearch.left, hvisited]
    rw [hleft, discoverEdge_fresh hvisited]
    by_cases htarget : g.target e ∈ targets
    · have hcard := Finset.card_erase_add_one (hmem.mpr htarget)
      dsimp only
      rw [if_pos htarget]
      omega
    · dsimp only
      rw [if_neg htarget, Finset.erase_eq_of_notMem fun h => htarget (hmem.mp h)]

/-- **The loop over the edges.** -/
theorem foldl_discoverEdge {es : List ℕ} (hes : ∀ e ∈ es, e < g.myEdges.length)
    (hpred : g.digraph.PredsLeadTo s.lists.pred) (targets : Finset ℕ) :
    (es.foldl (discoverEdge g targets) s).discovered +
        ((es.foldl (discoverEdge g targets) s).left targets).card =
      s.discovered + (s.left targets).card ∧
    (es.foldl (discoverEdge g targets) s).lists.users = s.lists.users ∧
    (es.foldl (discoverEdge g targets) s).lists.flows = s.lists.flows ∧
    g.digraph.PredsLeadTo (es.foldl (discoverEdge g targets) s).lists.pred := by
  induction es generalizing s with
  | nil => exact ⟨rfl, rfl, rfl, hpred⟩
  | cons e es ih =>
    obtain ⟨husers₁, hflows₁, hpred₁⟩ : (discoverEdge g targets s e).lists.users = s.lists.users ∧
        (discoverEdge g targets s e).lists.flows = s.lists.flows ∧
        g.digraph.PredsLeadTo (discoverEdge g targets s e).lists.pred := by
      cases hvisited : s.visited (g.target e) with
      | true =>
        rw [discoverEdge_visited hvisited]
        exact ⟨rfl, rfl, hpred⟩
      | false =>
        rw [discoverEdge_fresh hvisited]
        refine ⟨rfl, rfl, fun x a hx => ?_⟩
        dsimp only at hx
        by_cases hxe : x = g.target e
        · subst hxe
          rw [Function.update_self] at hx
          cases hx
          exact ⟨hes e List.mem_cons_self, rfl⟩
        · rw [Function.update_of_ne hxe] at hx
          exact hpred x a hx
    obtain ⟨hcount, husers, hflows, hrest⟩ :=
      ih (fun a ha => hes a (List.mem_cons_of_mem e ha)) hpred₁
    rw [List.foldl_cons]
    exact ⟨hcount.trans (discoverEdge_discovered targets s e), husers.trans husers₁,
      hflows.trans hflows₁, hrest⟩

/-! ## One vertex -/

theorem cases_of_flowSearchTurn (h : flowSearchTurn c g v targets is s = .next s') :
    s.discovered < targets.card ∧ ∃ u q lists, s.q = u :: q ∧
      is.foldlM (registerFlow c g v)
        ((g.outEdges u).foldl (discoverEdge g targets) { s with q := q }).lists = some lists ∧
      s' = { (g.outEdges u).foldl (discoverEdge g targets) { s with q := q } with
        lists := lists } := by
  unfold flowSearchTurn at h
  split at h
  · rename_i hlt
    refine ⟨hlt, ?_⟩
    cases hq : s.q with
    | nil =>
      rw [hq] at h
      cases h
    | cons u q =>
      rw [hq] at h
      dsimp only at h
      refine ⟨u, q, ?_⟩
      cases hflows : is.foldlM (registerFlow c g v)
          ((g.outEdges u).foldl (discoverEdge g targets) { s with q := q }).lists with
      | none =>
        rw [hflows] at h
        cases h
      | some lists =>
        rw [hflows] at h
        cases h
        exact ⟨lists, rfl, rfl, rfl⟩
  · cases h

theorem flowSearchTurn_of_registered {u : ℕ} {q : List ℕ} {lists : FlowLists}
    (hlt : s.discovered < targets.card) (hq : s.q = u :: q)
    (h : is.foldlM (registerFlow c g v)
      ((g.outEdges u).foldl (discoverEdge g targets) { s with q := q }).lists = some lists) :
    flowSearchTurn c g v targets is s =
      .next { (g.outEdges u).foldl (discoverEdge g targets) { s with q := q } with
        lists := lists } := by
  unfold flowSearchTurn
  rw [if_pos hlt, hq]
  dsimp only
  rw [h]

theorem lt_of_mem_outEdges {u e : ℕ} (he : e ∈ g.outEdges u) : e < g.myEdges.length :=
  (mem_outEdges.mp he).1

/-- **One vertex**: what has been discovered is counted, and every flow of the client entered. -/
theorem grown_flowSearchTurn (hpred : g.digraph.PredsLeadTo s.lists.pred)
    (h : flowSearchTurn c g v targets is s = .next s') :
    g.digraph.PredsLeadTo s'.lists.pred ∧
    s'.discovered + (s'.left targets).card = s.discovered + (s.left targets).card ∧
    s.lists.Grown {i | i ∈ is} s'.lists ∧
    ∀ i ∈ is, ∀ t, s.lists.flows[i]?.map Flow.target = some t → t ≠ v →
      load g s.lists.users i t < load g s'.lists.users i t := by
  obtain ⟨-, u, q, lists, -, hflows, rfl⟩ := cases_of_flowSearchTurn h
  obtain ⟨hcount, husers, hsame, hpred₁⟩ := foldl_discoverEdge (s := { s with q := q })
    (fun e he => lt_of_mem_outEdges he) hpred targets
  obtain ⟨hpred', hgrown, hload⟩ := grown_registerFlows hflows hpred₁
  refine ⟨hpred' ▸ hpred₁, hcount, (FlowLists.Grown.of_eq husers hsame).trans hgrown,
    fun i hi t ht hne => ?_⟩
  have hlt := hload i hi t (by rw [hsame]; exact ht) hne
  rwa [husers] at hlt

/-! ## One client -/

/-- What the search from `v` has done so far. -/
structure FlowSearch.Ok (g : GraphData ℚ) (flows : List Flow) (v : ℕ) (lists : FlowLists)
    (s : FlowSearch) : Prop where
  pred : g.digraph.PredsLeadTo s.lists.pred
  discovered : s.discovered + (s.left (targetsOf flows v)).card = ((targetsOf flows v).erase v).card
  grown : lists.Grown {i | i ∈ flowsFor flows v} s.lists

theorem FlowSearch.left_init (targets : Finset ℕ) (v : ℕ) (lists : FlowLists) :
    (FlowSearch.init v lists).left targets = targets.erase v := by
  ext a
  unfold FlowSearch.left FlowSearch.init
  by_cases ha : a = v
  · subst ha
    simp
  · simp [ha, Function.update_of_ne]

theorem FlowSearch.ok_init {lists : FlowLists} (hpred : g.digraph.PredsLeadTo lists.pred) :
    (FlowSearch.init v lists).Ok g flows v lists := by
  refine ⟨hpred, ?_, .of_eq rfl rfl⟩
  rw [FlowSearch.left_init]
  exact zero_add _

theorem visited_first {lists : FlowLists} {t : ℕ}
    (hturn : flowSearchTurn c g v targets is (FlowSearch.init v lists) = .next s')
    (ht : s'.visited t = true) (hne : t ≠ v) : ∃ e ∈ g.outEdges v, g.target e = t := by
  obtain ⟨-, u, q, lists₁, hq, -, rfl⟩ := cases_of_flowSearchTurn hturn
  obtain ⟨rfl, rfl⟩ := List.cons.inj hq
  obtain ⟨dist, dist', hscan⟩ := scanned_discover (g := g) (u := v)
    (s := { FlowSearch.init v lists with q := [] })
    (by simp [FlowSearch.init]) targets (g.outEdges v)
  refine ((hscan.visited t).mp ht).resolve_left fun hold => ?_
  simp [FlowSearch.toBFS, FlowSearch.init, Function.update_of_ne hne] at hold

theorem FlowSearch.Ok.next {lists : FlowLists} (h : s.Ok g flows v lists)
    (hturn : flowSearchTurn c g v (targetsOf flows v) (flowsFor flows v) s = .next s') :
    s'.Ok g flows v lists := by
  obtain ⟨hpred, hcount, hgrown, -⟩ := grown_flowSearchTurn h.pred hturn
  exact ⟨hpred, hcount.trans h.discovered, h.grown.trans hgrown⟩

/-- A search that is over has discovered all targets, and `v` is none of them. -/
theorem FlowSearch.Ok.of_finished {lists : FlowLists} (h : s.Ok g flows v lists)
    (hdone : flowSearchTurn c g v (targetsOf flows v) (flowsFor flows v) s = .finished) :
    v ∉ targetsOf flows v ∧ s.left (targetsOf flows v) = ∅ := by
  have hge : (targetsOf flows v).card ≤ s.discovered := by
    by_contra hlt
    unfold flowSearchTurn at hdone
    rw [if_pos (not_le.mp hlt)] at hdone
    split at hdone
    · cases hdone
    · dsimp only at hdone
      split at hdone <;> cases hdone
  have hsum := h.discovered
  have hle := Finset.card_erase_le (s := targetsOf flows v) (a := v)
  constructor
  · intro hmem
    have hlt := Finset.card_erase_lt_of_mem hmem
    omega
  · rw [← Finset.card_eq_zero]
    omega

theorem target_mem_targetsOf {f : Flow} (hf : flows[i]? = some f) :
    f.target ∈ targetsOf flows f.source := by
  unfold targetsOf
  rw [List.mem_toFinset, List.mem_map]
  exact ⟨f, List.mem_filter.mpr ⟨List.mem_of_getElem? hf, by simp⟩, rfl⟩

theorem mem_flowsFor : i ∈ flowsFor flows v ↔ flows[i]?.map Flow.source = some v := by
  unfold flowsFor
  rw [List.mem_filter, List.mem_range, decide_eq_true_iff]
  refine ⟨And.right, fun h => ⟨?_, h⟩⟩
  obtain ⟨f, hf, -⟩ := Option.map_eq_some_iff.mp h
  exact (List.getElem?_eq_some_iff.mp hf).1

theorem cases_of_flowsFrom {lists lists' : FlowLists}
    (h : flowsFrom c g flows lists v = some lists') :
    ∃ s, Loop.run (flowSearchTurn c g v (targetsOf flows v) (flowsFor flows v))
      g.myVertices.length (FlowSearch.init v lists) = .finished s ∧ s.lists = lists' := by
  unfold flowsFrom at h
  split at h
  · rename_i s hrun
    exact ⟨s, hrun, Option.some.inj h⟩
  · cases h

theorem grown_flowsFrom {lists lists' : FlowLists} (h : flowsFrom c g flows lists v = some lists')
    (hpred : g.digraph.PredsLeadTo lists.pred) :
    g.digraph.PredsLeadTo lists'.pred ∧ lists.Grown {i | i ∈ flowsFor flows v} lists' ∧
      v ∉ targetsOf flows v := by
  obtain ⟨s, hrun, rfl⟩ := cases_of_flowsFrom h
  have hok : s.Ok g flows v lists :=
    Loop.inv_of_run_finished (fun _ _ hs hturn => hs.next hturn) (FlowSearch.ok_init hpred) hrun
  exact ⟨hok.pred, hok.grown, (hok.of_finished (Loop.turn_of_run_finished hrun)).1⟩

/-- **A client with a flow** enters it, and more than once unless its targets are all next to it. -/
theorem load_lt_flowsFrom {lists lists' : FlowLists} {f : Flow}
    (h : flowsFrom c g flows lists f.source = some lists')
    (hpred : g.digraph.PredsLeadTo lists.pred) (hf : flows[i]? = some f)
    (hlists : lists.flows[i]?.map Flow.target = some f.target) :
    load g lists.users i f.target < load g lists'.users i f.target ∧
      (load g lists'.users i f.target ≤ load g lists.users i f.target + 1 →
        ∀ t ∈ targetsOf flows f.source, ∃ e ∈ g.outEdges f.source, g.target e = t) := by
  obtain ⟨s, hrun, rfl⟩ := cases_of_flowsFrom h
  have hinit : (FlowSearch.init f.source lists).Ok g flows f.source lists :=
    FlowSearch.ok_init hpred
  have hi : i ∈ flowsFor flows f.source := mem_flowsFor.mpr (by rw [hf]; rfl)
  have hmem := target_mem_targetsOf hf
  have hnot : f.source ∉ targetsOf flows f.source := (grown_flowsFrom h hpred).2.2
  have hne : f.target ≠ f.source := by
    intro heq
    rw [heq] at hmem
    exact hnot hmem
  have hrest : ∀ {s₁ : FlowSearch} {n : ℕ}, s₁.Ok g flows f.source lists →
      Loop.run (flowSearchTurn c g f.source (targetsOf flows f.source)
        (flowsFor flows f.source)) n s₁ = .finished s →
      load g s₁.lists.users i f.target ≤ load g s.lists.users i f.target := by
    intro s₁ n hok hrun
    refine (Loop.inv_of_run_finished (I := fun s₂ => s₂.Ok g flows f.source lists ∧
      load g s₁.lists.users i f.target ≤ load g s₂.lists.users i f.target)
      (fun s₂ s₃ hs hturn => ⟨hs.1.next hturn, hs.2.trans ?_⟩) ⟨hok, le_rfl⟩ hrun).2
    exact (grown_flowSearchTurn hs.1.pred hturn).2.2.1.load_le i f.target
  have hmore : ∀ {s₁ s₂ : FlowSearch}, s₁.Ok g flows f.source lists →
      flowSearchTurn c g f.source (targetsOf flows f.source) (flowsFor flows f.source) s₁ =
        .next s₂ → load g s₁.lists.users i f.target < load g s₂.lists.users i f.target :=
    fun hok hturn => (grown_flowSearchTurn hok.pred hturn).2.2.2 i hi f.target
      ((hok.grown.targets i).trans hlists) hne
  obtain ⟨hdone, -⟩ | ⟨m, s₁, -, hturn, hrun₁⟩ := Loop.cases_of_run_finished hrun
  · -- the target has not been discovered at the beginning
    have hempty := (hinit.of_finished hdone).2
    rw [FlowSearch.left_init] at hempty
    exact absurd (Finset.mem_erase.mpr ⟨hne, hmem⟩) (hempty ▸ Finset.notMem_empty _)
  · have hok₁ := hinit.next hturn
    have hlt := hmore hinit hturn
    refine ⟨hlt.trans_le (hrest hok₁ hrun₁), fun hle t ht => ?_⟩
    obtain ⟨hdone, -⟩ | ⟨m, s₂, -, hturn₂, hrun₂⟩ := Loop.cases_of_run_finished hrun₁
    · have hvisited : s₁.visited t = true := by
        by_contra hnot'
        have hleft : t ∈ s₁.left (targetsOf flows f.source) :=
          Finset.mem_filter.mpr ⟨ht, by simpa using hnot'⟩
        rw [(hok₁.of_finished hdone).2] at hleft
        exact absurd hleft (Finset.notMem_empty _)
      refine visited_first hturn hvisited ?_
      rintro rfl
      exact hnot ht
    · have hlt₂ := hmore hok₁ hturn₂
      have hle₂ := hrest (hok₁.next hturn₂) hrun₂
      have heq : (FlowSearch.init f.source lists).lists = lists := rfl
      rw [heq] at hlt
      omega

/-! ## All clients -/

theorem grown_foldlM_flowsFrom {lists r : FlowLists}
    (h : clients.foldlM (flowsFrom c g flows) lists = some r)
    (hpred : g.digraph.PredsLeadTo lists.pred) :
    lists.Grown {i | ∃ v ∈ clients, i ∈ flowsFor flows v} r ∧
      ∀ v ∈ clients, v ∉ targetsOf flows v := by
  induction clients generalizing lists with
  | nil =>
    cases h
    exact ⟨.of_eq rfl rfl, fun v hv => absurd hv List.not_mem_nil⟩
  | cons v clients ih =>
    rw [List.foldlM_cons] at h
    obtain ⟨lists₁, hfirst, hrest⟩ := Option.bind_eq_some_iff.mp h
    obtain ⟨hpred₁, hgrown₁, hself⟩ := grown_flowsFrom hfirst hpred
    obtain ⟨hgrown, hselves⟩ := ih hrest hpred₁
    refine ⟨(hgrown₁.mono ?_).trans (hgrown.mono ?_), fun u hu => ?_⟩
    · exact fun i hi => ⟨v, List.mem_cons_self, hi⟩
    · rintro i ⟨u, hu, hi⟩
      exact ⟨u, List.mem_cons_of_mem v hu, hi⟩
    · obtain rfl | hu := List.mem_cons.mp hu
      · exact hself
      · exact hselves u hu

/-- A flow is entered at least once for each time that its source is in the list of clients. -/
theorem load_foldlM_flowsFrom {lists r : FlowLists} {f : Flow}
    (h : clients.foldlM (flowsFrom c g flows) lists = some r)
    (hpred : g.digraph.PredsLeadTo lists.pred) (hf : flows[i]? = some f)
    (hlists : lists.flows[i]?.map Flow.target = some f.target) :
    load g lists.users i f.target + clients.count f.source ≤ load g r.users i f.target ∧
      (f.source ∈ clients → load g r.users i f.target ≤ load g lists.users i f.target + 1 →
        ∀ t ∈ targetsOf flows f.source, ∃ e ∈ g.outEdges f.source, g.target e = t) := by
  induction clients generalizing lists with
  | nil =>
    cases h
    exact ⟨le_rfl, fun hin => absurd hin List.not_mem_nil⟩
  | cons v clients ih =>
    rw [List.foldlM_cons] at h
    obtain ⟨lists₁, hfirst, hrest⟩ := Option.bind_eq_some_iff.mp h
    obtain ⟨hpred₁, hgrown₁, -⟩ := grown_flowsFrom hfirst hpred
    obtain ⟨hcount, hnext⟩ := ih hrest hpred₁ ((hgrown₁.targets i).trans hlists)
    have hle := hgrown₁.load_le (g := g) i f.target
    by_cases hv : v = f.source
    · subst hv
      obtain ⟨hlt, honce⟩ := load_lt_flowsFrom hfirst hpred hf hlists
      rw [List.count_cons_self]
      exact ⟨by omega, fun _ hr => honce (by omega)⟩
    · rw [List.count_cons_of_ne hv]
      refine ⟨by omega, fun hin hr => hnext ?_ (by omega)⟩
      exact (List.mem_cons.mp hin).resolve_left fun heq => hv heq.symm

/-- A flow that is registered once on its route has one entry at most for the edges to its target. -/
theorem RegisteredOnce.load_le {users : ℕ → List PipeUser} (h : RegisteredOnce g flows users)
    {f : Flow} {es : List ℕ} (hf : flows[i]? = some f) (hes : f.Route g es)
    (hpred : g.digraph.PredsLeadTo (breadthFirstSearch g f.source).pred)
    (hnone : (breadthFirstSearch g f.source).pred f.source = none) :
    load g users i f.target ≤ 1 := by
  unfold load
  rcases List.eq_nil_or_concat es with rfl | ⟨ys, last, rfl⟩
  · refine (Finset.sum_eq_zero fun e _ => ?_).trans_le zero_le_one
    rw [h.off i f [] e hf hes List.not_mem_nil]
    rfl
  · rw [List.concat_eq_append] at hes
    -- no other edge of the route leads to the target
    have honly : ∀ e ∈ ys ++ [last], g.target e = f.target → e = last := by
      intro e hmem htarget
      obtain ⟨ps, qs, hsplit⟩ := List.append_of_mem hmem
      have hback : g.digraph.Back (breadthFirstSearch g f.source).pred f.source f.target
          (ps ++ e :: qs) := hsplit ▸ hes
      have hshort := (hback.initial hpred).2
      rw [show g.digraph.target e = f.target from htarget] at hshort
      exact List.singleton_inj.mp (List.append_inj' (hshort.unique hnone hes) rfl).2
    have hentries : ∀ e ∈ (Finset.range g.myEdges.length).filter (fun e => g.target e = f.target),
        (entriesOf users i e).length ≤ if e = last then 1 else 0 := by
      intro e he
      by_cases hlast : e = last
      · subst hlast
        rw [h.on i f ys e [] hf hes, if_pos rfl]
        rfl
      · have hnot : e ∉ ys ++ [last] :=
          fun hmem => hlast (honly e hmem (Finset.mem_filter.mp he).2)
        rw [h.off i f _ e hf hes hnot]
        exact Nat.zero_le _
    refine (Finset.sum_le_sum hentries).trans ?_
    rw [Finset.sum_ite_eq']
    split_ifs <;> omega

theorem exists_route {f : Flow} (hg : g.Built) (hsource : f.source < g.myVertices.length)
    (hreach : g.digraph.Reaches f.source f.target) : ∃ es, f.Route g es := by
  obtain ⟨hinv, hq⟩ := inv_breadthFirstSearch hg hsource
  obtain ⟨es, hes, -⟩ := (hinv.correct hq).back f.target hreach
  exact ⟨es, hes⟩

/-- **Flows that are registered once** lead to a vertex next to their source. -/
theorem adjacent_of_registeredOnce {r : FlowLists} {f : Flow} (hg : g.Built)
    (hrun : buildFlowLists c g clients flows = some r) (hreg : RegisteredOnce g flows r.users)
    (hf : f ∈ flows) (hsource : f.source < g.myVertices.length)
    (hreach : g.digraph.Reaches f.source f.target) : f.Adjacent g clients := by
  obtain ⟨i, hi⟩ := List.getElem?_of_mem hf
  obtain ⟨es, hes⟩ := exists_route hg hsource hreach
  have htree := searchTree_breadthFirstSearch hg hsource
  have hpred : g.digraph.PredsLeadTo (fun _ => none) := by
    rintro x e ⟨⟩
  obtain ⟨hgrown, hself⟩ := grown_foldlM_flowsFrom hrun hpred
  obtain ⟨hcount, hnext⟩ := load_foldlM_flowsFrom hrun hpred hi (by rw [hi]; rfl)
  have hload := hreg.load_le hi hes htree.predsLeadTo htree.pred_source
  have hzero : load g (fun _ => []) i f.target = 0 := Finset.sum_eq_zero fun _ _ => rfl
  rw [hzero] at hcount hnext
  by_cases hclient : f.source ∈ clients
  · have hmem := target_mem_targetsOf hi
    have hne : f.target ≠ f.source := by
      intro heq
      rw [heq] at hmem
      exact hself f.source hclient hmem
    obtain ⟨e, he, htarget⟩ := hnext hclient (by omega) f.target hmem
    refine Or.inr ⟨hne, ?_, List.find?_isSome.mpr ⟨e, he, by simpa using htarget⟩⟩
    have hpos := List.count_pos_iff.mpr hclient
    omega
  · have hentries : ∀ e, entriesOf r.users i e = [] := by
      refine hgrown.other i ?_
      rintro ⟨v, hv, hin⟩
      rw [mem_flowsFor, hi] at hin
      cases hin
      exact hclient hv
    rcases List.eq_nil_or_concat es with rfl | ⟨ys, last, rfl⟩
    · exact Or.inl ⟨(hes.isWalk htree.predsLeadTo).symm, hclient⟩
    · rw [List.concat_eq_append] at hes
      have hon := hreg.on i f ys last [] hi hes
      rw [hentries last] at hon
      cases hon

/-! ## Flows to neighbours -/

/-- The flow with the bandwidth that its first edge leaves to it. -/
def Flow.narrowed (c : Casts) (g : GraphData ℚ) (f : Flow) : Flow :=
  match f.edge? g with
  | some e => { f with bandwidth := c.toFloat (min (c.toInt (g.kbps e) : ℚ) f.bandwidth) }
  | none => f

/-- The flows of the set have been entered for their first edges; nothing else has happened. -/
structure FlowLists.Entered (c : Casts) (g : GraphData ℚ) (flows : List Flow) (S : Set ℕ)
    (s s' : FlowLists) : Prop where
  new : ∀ i ∈ S, ∀ f : Flow, flows[i]? = some f → s'.flows[i]? = some (f.narrowed c g) ∧
    ∀ e, entriesOf s'.users i e =
      entriesOf s.users i e ++ if f.edge? g = some e then [⟨i, none⟩] else []
  old : ∀ i ∉ S, s'.flows[i]? = s.flows[i]? ∧ ∀ e, entriesOf s'.users i e = entriesOf s.users i e

theorem FlowLists.Entered.of_eq {s s' : FlowLists} (husers : s'.users = s.users)
    (hflows : s'.flows = s.flows) : s.Entered c g flows ∅ s' :=
  ⟨fun i hi => absurd hi (Set.notMem_empty i), fun i _ => by rw [husers, hflows]; simp⟩

theorem FlowLists.Entered.trans {S T : Set ℕ} {s s' s'' : FlowLists}
    (h : s.Entered c g flows S s') (h' : s'.Entered c g flows T s'') (hdisj : ∀ i ∈ S, i ∉ T) :
    s.Entered c g flows (S ∪ T) s'' := by
  refine ⟨fun i hi f hf => ?_, fun i hi => ?_⟩
  · rcases hi with hi | hi
    · obtain ⟨hflow, hentries⟩ := h'.old i (hdisj i hi)
      obtain ⟨hflow', hentries'⟩ := h.new i hi f hf
      exact ⟨hflow.trans hflow', fun e => (hentries e).trans (hentries' e)⟩
    · obtain ⟨-, hentries⟩ := h.old i fun hin => hdisj i hin hi
      obtain ⟨hflow', hentries'⟩ := h'.new i hi f hf
      exact ⟨hflow', fun e => by rw [hentries' e, hentries e]⟩
  · obtain ⟨hflow, hentries⟩ := h.old i fun hin => hi (Or.inl hin)
    obtain ⟨hflow', hentries'⟩ := h'.old i fun hin => hi (Or.inr hin)
    exact ⟨hflow'.trans hflow, fun e => (hentries' e).trans (hentries e)⟩

theorem entered_registerFlow {s : FlowLists} {f : Flow} (hn : 0 < g.myVertices.length)
    (hf : flows[i]? = some f) (hs : s.flows[i]? = some f) (hne : f.target ≠ f.source)
    (he : f.edge? g = some e) (hpred : s.pred f.target = some e) :
    ∃ s', registerFlow c g f.source s i = some s' ∧ s'.pred = s.pred ∧
      s.Entered c g flows {i} s' := by
  have hsource : g.source e = f.source := (mem_outEdges.mp (List.mem_of_find?_eq_some he)).2
  obtain ⟨m, hm⟩ : ∃ m, g.myVertices.length = m + 1 := ⟨g.myVertices.length - 1, by omega⟩
  have hturn : routeTurn c g s.pred f.source i ⟨f.target, none, -1, s.users⟩ = .next
      ⟨g.source e, some e, c.toInt (g.kbps e),
        Function.update s.users e (s.users e ++ [⟨i, none⟩])⟩ := by
    unfold routeTurn
    rw [if_neg hne]
    dsimp only
    rw [hpred]
    rfl
  have hdone : ∀ users : ℕ → List PipeUser, routeTurn c g s.pred f.source i
      ⟨g.source e, some e, c.toInt (g.kbps e), users⟩ = .finished :=
    fun users => if_pos hsource
  refine ⟨⟨s.pred, Function.update s.users e (s.users e ++ [⟨i, none⟩]),
    s.flows.set i { f with bandwidth := c.toFloat (min (c.toInt (g.kbps e) : ℚ) f.bandwidth) }⟩,
    ?_, rfl, ?_, fun j hj => ⟨?_, fun a => ?_⟩⟩
  · unfold registerFlow
    rw [hs]
    dsimp only
    rw [hm, Loop.run_of_next hturn, Loop.run_of_finished (hdone _)]
  · rintro _ rfl f' hf'
    obtain rfl : f = f' := Option.some.inj (hf.symm.trans hf')
    refine ⟨?_, fun a => ?_⟩
    · dsimp only
      rw [List.getElem?_set_self (List.getElem?_eq_some_iff.mp hs).1]
      unfold Flow.narrowed
      rw [he]
    · dsimp only
      rw [entriesOf_update, he]
      by_cases ha : a = e
      · subst ha
        simp
      · simp [ha, Ne.symm ha]
  · exact List.getElem?_set_ne fun heq => hj heq.symm
  · dsimp only
    rw [entriesOf_update, if_neg fun h => hj h.1]

/-- **The flows of a client to its neighbours** are entered once the predecessors are there. -/
theorem entered_registerFlows {s : FlowLists} (hn : 0 < g.myVertices.length) (hnodup : is.Nodup)
    (his : ∀ i ∈ is, ∃ f e, flows[i]? = some f ∧ f.source = v ∧ s.flows[i]? = some f ∧
      f.target ≠ f.source ∧ f.edge? g = some e ∧ s.pred f.target = some e) :
    ∃ s', is.foldlM (registerFlow c g v) s = some s' ∧ s.Entered c g flows {i | i ∈ is} s' := by
  induction is generalizing s with
  | nil => exact ⟨s, rfl, by simpa using FlowLists.Entered.of_eq rfl rfl⟩
  | cons a is ih =>
    obtain ⟨ha, hnodup⟩ := List.nodup_cons.mp hnodup
    obtain ⟨f, e, hf, rfl, hs, hne, he, hpred⟩ := his a List.mem_cons_self
    obtain ⟨s₁, hfirst, hpred₁, hentered₁⟩ := entered_registerFlow (c := c) hn hf hs hne he hpred
    obtain ⟨s', hrest, hentered⟩ := ih (s := s₁) hnodup (by
      intro i hi
      obtain ⟨f', e', hf', hsource', hs', hrest⟩ := his i (List.mem_cons_of_mem a hi)
      refine ⟨f', e', hf', hsource', ?_, by rwa [hpred₁]⟩
      have hia : i ∉ ({a} : Set ℕ) := by
        rintro rfl
        exact ha hi
      rw [(hentered₁.old i hia).1, hs'])
    have hset : {i | i ∈ a :: is} = {a} ∪ {i | i ∈ is} := by
      ext i
      simp
    refine ⟨s', ?_, hset ▸ hentered₁.trans hentered ?_⟩
    · rw [List.foldlM_cons, hfirst]
      exact hrest
    · rintro _ rfl
      exact ha

theorem exists_of_mem_targetsOf {t : ℕ} (ht : t ∈ targetsOf flows v) :
    ∃ i ∈ flowsFor flows v, flows[i]?.map Flow.target = some t := by
  unfold targetsOf at ht
  rw [List.mem_toFinset, List.mem_map] at ht
  obtain ⟨f, hf, rfl⟩ := ht
  obtain ⟨hf, hsource⟩ := List.mem_filter.mp hf
  obtain ⟨i, hi⟩ := List.getElem?_of_mem hf
  refine ⟨i, mem_flowsFor.mpr ?_, by rw [hi]; rfl⟩
  rw [hi]
  simpa using hsource

theorem nodup_flowsFor : (flowsFor flows v).Nodup := List.nodup_range.filter _

/-- Every flow from `v` in the list leads to another vertex by an edge. -/
def FlowLists.Leads (g : GraphData D) (flows : List Flow) (v : ℕ) (lists : FlowLists) : Prop :=
  ∀ i ∈ flowsFor flows v, ∃ f e, flows[i]? = some f ∧ f.source = v ∧ lists.flows[i]? = some f ∧
    f.target ≠ f.source ∧ f.edge? g = some e

theorem FlowLists.Leads.of_mem_targetsOf {lists : FlowLists} (h : lists.Leads g flows v) {t : ℕ}
    (ht : t ∈ targetsOf flows v) : ∃ (f : Flow) (e : ℕ), f.source = v ∧ f.target = t ∧
      f.target ≠ f.source ∧ f.edge? g = some e := by
  obtain ⟨i, hi, htarget⟩ := exists_of_mem_targetsOf ht
  obtain ⟨f, e, hf, hsource, -, hne, he⟩ := h i hi
  rw [hf] at htarget
  exact ⟨f, e, hsource, Option.some.inj htarget, hne, he⟩

theorem FlowLists.Leads.notMem_targetsOf {lists : FlowLists} (h : lists.Leads g flows v) :
    v ∉ targetsOf flows v := by
  intro hmem
  obtain ⟨f, e, hsource, htarget, hne, -⟩ := h.of_mem_targetsOf hmem
  exact hne (htarget.trans hsource.symm)

theorem entered_flowsFrom_of_empty {lists : FlowLists} (hlists : lists.Leads g flows v)
    (hempty : targetsOf flows v = ∅) : flowsFrom c g flows lists v = some lists ∧
      lists.Entered c g flows {i | i ∈ flowsFor flows v} lists := by
  have hnone : flowsFor flows v = [] := by
    refine List.eq_nil_iff_forall_not_mem.mpr fun i hi => ?_
    obtain ⟨f, e, hf, rfl, -⟩ := hlists i hi
    have hmem := target_mem_targetsOf hf
    rw [hempty] at hmem
    exact absurd hmem (Finset.notMem_empty _)
  refine ⟨?_, by rw [hnone]; simpa using FlowLists.Entered.of_eq rfl rfl⟩
  unfold flowsFrom
  rw [Loop.run_of_finished]
  · rfl
  · unfold flowSearchTurn
    rw [hempty, Finset.card_empty, if_neg (Nat.not_lt_zero _)]

/-- The first turn discovers the targets and enters the flows. -/
theorem exists_firstTurn {lists : FlowLists} (hn : 0 < g.myVertices.length)
    (hpred : g.digraph.PredsLeadTo lists.pred) (hlists : lists.Leads g flows v)
    (hempty : targetsOf flows v ≠ ∅) :
    ∃ s, flowSearchTurn c g v (targetsOf flows v) (flowsFor flows v)
        (FlowSearch.init v lists) = .next s ∧
      FlowSearch.left (targetsOf flows v) s = ∅ ∧
      lists.Entered c g flows {i | i ∈ flowsFor flows v} s.lists := by
  obtain ⟨dist, dist', hscan⟩ := scanned_discover (g := g) (u := v)
    (s := { FlowSearch.init v lists with q := [] })
    (by simp [FlowSearch.init]) (targetsOf flows v) (g.outEdges v)
  obtain ⟨-, husers, hflows, -⟩ := foldl_discoverEdge
    (s := { FlowSearch.init v lists with q := [] })
    (fun e he => lt_of_mem_outEdges (u := v) he) hpred (targetsOf flows v)
  have hnew : ∀ t, t ≠ v → (FlowSearch.init v lists).visited t = false := by
    intro t ht
    simp [FlowSearch.init, Function.update_of_ne ht]
  generalize hs₁ : (g.outEdges v).foldl (discoverEdge g (targetsOf flows v))
    { FlowSearch.init v lists with q := [] } = s₁ at hscan husers hflows
  obtain ⟨lists', hregister, hentered⟩ :
      ∃ lists', (flowsFor flows v).foldlM (registerFlow c g v) s₁.lists = some lists' ∧
        s₁.lists.Entered c g flows {i | i ∈ flowsFor flows v} lists' := by
    refine entered_registerFlows hn nodup_flowsFor ?_
    intro i hi
    obtain ⟨f, e, hf, rfl, hold, hne, he⟩ := hlists i hi
    refine ⟨f, e, hf, rfl, by rw [hflows]; exact hold, hne, he, ?_⟩
    refine (hscan.pred_new f.target (hnew _ hne)).trans ?_
    rw [show (g.outEdges f.source).find? (fun e => g.target e = f.target) = some e from he]
    rfl
  have hcard : 0 < (targetsOf flows v).card :=
    Finset.card_pos.mpr (Finset.nonempty_iff_ne_empty.mpr hempty)
  refine ⟨{ s₁ with lists := lists' }, ?_, ?_, ?_⟩
  · subst hs₁
    exact flowSearchTurn_of_registered hcard rfl hregister
  · refine Finset.filter_eq_empty_iff.mpr fun t ht hnot => ?_
    obtain ⟨f, e, rfl, rfl, -, he⟩ := hlists.of_mem_targetsOf ht
    have hvisited := (hscan.visited f.target).mpr (Or.inr ⟨e, List.mem_of_find?_eq_some he, by
      simpa using List.find?_some he⟩)
    exact absurd (hvisited.symm.trans hnot) (by simp)
  · have hfirst : lists.Entered c g flows ∅ s₁.lists := .of_eq husers hflows
    have hall := hfirst.trans hentered fun i hi => absurd hi (Set.notMem_empty i)
    rwa [Set.empty_union] at hall

/-- **A client whose flows lead to its neighbours**: one turn discovers the targets and enters the
flows. -/
theorem entered_flowsFrom {lists : FlowLists} (hn : flows ≠ [] → 0 < g.myVertices.length)
    (hpred : g.digraph.PredsLeadTo lists.pred) (hlists : lists.Leads g flows v) :
    ∃ lists', flowsFrom c g flows lists v = some lists' ∧ g.digraph.PredsLeadTo lists'.pred ∧
      lists.Entered c g flows {i | i ∈ flowsFor flows v} lists' := by
  by_cases hempty : targetsOf flows v = ∅
  · obtain ⟨hfrom, hentered⟩ := entered_flowsFrom_of_empty hlists hempty
    exact ⟨lists, hfrom, hpred, hentered⟩
  · have hn' : 0 < g.myVertices.length := by
      refine hn ?_
      rintro rfl
      exact hempty rfl
    obtain ⟨m, hm⟩ : ∃ m, g.myVertices.length = m + 1 := ⟨g.myVertices.length - 1, by omega⟩
    obtain ⟨s, hturn, hleft, hentered⟩ := exists_firstTurn hn' hpred hlists hempty
    have hok := (FlowSearch.ok_init hpred).next hturn
    -- no target is left, so that the next turn ends the search
    have hdone : flowSearchTurn c g v (targetsOf flows v) (flowsFor flows v) s = .finished := by
      have hsum := hok.discovered
      rw [hleft, Finset.card_empty, Finset.erase_eq_of_notMem hlists.notMem_targetsOf, add_zero]
        at hsum
      unfold flowSearchTurn
      rw [if_neg (by omega)]
    refine ⟨s.lists, ?_, hok.pred, hentered⟩
    unfold flowsFrom
    rw [hm, Loop.run_of_next hturn, Loop.run_of_finished hdone]

theorem exists_adjacentFlow (hadj : ∀ f ∈ flows, f.Adjacent g clients) {done rest : List ℕ}
    (hsplit : clients = done ++ v :: rest) {i : ℕ} (hi : i ∈ flowsFor flows v) :
    ∃ (f : Flow) (e : ℕ), flows[i]? = some f ∧ f.source = v ∧ f.target ≠ f.source ∧
      f.edge? g = some e ∧ v ∉ done := by
  obtain ⟨f, hf, rfl⟩ := Option.map_eq_some_iff.mp (mem_flowsFor.mp hi)
  have hclient : f.source ∈ clients := by simp [hsplit]
  rcases hadj f (List.mem_of_getElem? hf) with ⟨-, hnot⟩ | ⟨hne, hcount, hedge⟩
  · exact absurd hclient hnot
  · obtain ⟨e, he⟩ := Option.isSome_iff_exists.mp hedge
    refine ⟨f, e, hf, rfl, hne, he, fun hdone => ?_⟩
    rw [hsplit, List.count_append, List.count_cons_self] at hcount
    have hpos := List.count_pos_iff.mpr hdone
    omega

theorem notMem_flowsFor_done (hadj : ∀ f ∈ flows, f.Adjacent g clients) {done rest : List ℕ}
    (hsplit : clients = done ++ v :: rest) {i : ℕ} (hi : i ∈ flowsFor flows v) :
    i ∉ {i | ∃ u ∈ done, i ∈ flowsFor flows u} := by
  rintro ⟨u, hu, hin⟩
  obtain ⟨f, e, hf, rfl, -, -, hdone⟩ := exists_adjacentFlow hadj hsplit hi
  rw [mem_flowsFor, hf] at hin
  cases hin
  exact hdone hu

/-- The clients that remain, by induction on them: the flows of those before have been entered. -/
theorem entered_foldlM_flowsFrom (hn : flows ≠ [] → 0 < g.myVertices.length)
    (hadj : ∀ f ∈ flows, f.Adjacent g clients) {rest done : List ℕ} {lists₀ lists : FlowLists}
    (hflows : lists₀.flows = flows) (hsplit : clients = done ++ rest)
    (hpred : g.digraph.PredsLeadTo lists.pred)
    (hentered : lists₀.Entered c g flows {i | ∃ v ∈ done, i ∈ flowsFor flows v} lists) :
    ∃ r, rest.foldlM (flowsFrom c g flows) lists = some r ∧
      lists₀.Entered c g flows {i | ∃ v ∈ clients, i ∈ flowsFor flows v} r := by
  induction rest generalizing done lists with
  | nil =>
    rw [List.append_nil] at hsplit
    exact ⟨lists, rfl, hsplit ▸ hentered⟩
  | cons v rest ih =>
    have hnot : ∀ i ∈ flowsFor flows v, i ∉ {i | ∃ u ∈ done, i ∈ flowsFor flows u} :=
      fun i hi => notMem_flowsFor_done hadj hsplit hi
    have hleads : lists.Leads g flows v := by
      intro i hi
      obtain ⟨f, e, hf, hsource, hne, he, -⟩ := exists_adjacentFlow hadj hsplit hi
      have hold : lists.flows[i]? = flows[i]? := by
        rw [(hentered.old i (hnot i hi)).1, hflows]
      exact ⟨f, e, hf, hsource, hold.trans hf, hne, he⟩
    obtain ⟨lists₁, hfirst, hpred₁, hentered₁⟩ := entered_flowsFrom (c := c) hn hpred hleads
    have hset : {i | ∃ u ∈ done ++ [v], i ∈ flowsFor flows u} =
        {i | ∃ u ∈ done, i ∈ flowsFor flows u} ∪ {i | i ∈ flowsFor flows v} := by
      ext i
      simp [or_and_right, exists_or]
    have hboth : lists₀.Entered c g flows {i | ∃ u ∈ done ++ [v], i ∈ flowsFor flows u} lists₁ := by
      rw [hset]
      exact hentered.trans hentered₁ fun i hi hin => hnot i hin hi
    obtain ⟨r, hrun, hr⟩ := ih (by rw [hsplit]; simp) hpred₁ hboth
    refine ⟨r, ?_, hr⟩
    rw [List.foldlM_cons, hfirst]
    exact hrun

theorem entered_buildFlowLists (hn : flows ≠ [] → 0 < g.myVertices.length)
    (hadj : ∀ f ∈ flows, f.Adjacent g clients) :
    ∃ r, buildFlowLists c g clients flows = some r ∧
      FlowLists.Entered c g flows {i | ∃ v ∈ clients, i ∈ flowsFor flows v}
        ⟨fun _ => none, fun _ => [], flows⟩ r := by
  have hsame : FlowLists.Entered c g flows {i | ∃ v ∈ ([] : List ℕ), i ∈ flowsFor flows v}
      ⟨fun _ => none, fun _ => [], flows⟩ ⟨fun _ => none, fun _ => [], flows⟩ := by
    simpa using FlowLists.Entered.of_eq rfl rfl
  refine entered_foldlM_flowsFrom hn hadj rfl (List.nil_append clients).symm ?_ hsame
  rintro x e ⟨⟩

/-! ## The routes of neighbours -/

theorem route_eq_singleton {f : Flow} {es : List ℕ} (hg : g.Built)
    (hsource : f.source < g.myVertices.length) (hne : f.target ≠ f.source)
    (he : f.edge? g = some e) (hes : f.Route g es) : es = [e] := by
  have htree := searchTree_breadthFirstSearch hg hsource
  have hpred := pred_breadthFirstSearch_of_find hg hsource hne he
  obtain ⟨e', fs, hpred', rfl, hfs⟩ := hes.cases_of_ne hne
  obtain rfl : e = e' := Option.some.inj (hpred.symm.trans hpred')
  have hfrom : g.digraph.source e = f.source := (mem_outEdges.mp (List.mem_of_find?_eq_some he)).2
  rw [hfrom] at hfs
  rw [hfs.eq_nil htree.pred_source]
  rfl

theorem route_eq_nil {f : Flow} {es : List ℕ} (hg : g.Built)
    (hsource : f.source < g.myVertices.length) (hself : f.target = f.source)
    (hes : f.Route g es) : es = [] := by
  unfold Flow.Route at hes
  rw [hself] at hes
  exact hes.eq_nil (searchTree_breadthFirstSearch hg hsource).pred_source

/-- The flows of the clients have been entered, the others are as they were. -/
theorem FlowLists.Entered.cases {r : FlowLists} {f : Flow}
    (h : FlowLists.Entered c g flows {i | ∃ v ∈ clients, i ∈ flowsFor flows v}
      ⟨fun _ => none, fun _ => [], flows⟩ r) (hf : flows[i]? = some f) :
    (f.source ∈ clients → r.flows[i]? = some (f.narrowed c g) ∧
      ∀ e, entriesOf r.users i e = if f.edge? g = some e then [⟨i, none⟩] else []) ∧
    (f.source ∉ clients → ∀ e, entriesOf r.users i e = []) := by
  constructor
  · intro hclient
    obtain ⟨hflow, hentries⟩ := h.new i ⟨f.source, hclient, mem_flowsFor.mpr (by rw [hf]; rfl)⟩ f hf
    exact ⟨hflow, hentries⟩
  · intro hclient
    refine (h.old i ?_).2
    rintro ⟨v, hv, hin⟩
    rw [mem_flowsFor, hf] at hin
    cases hin
    exact hclient hv

theorem registeredOnce_of_entered {r : FlowLists} (hg : g.Built)
    (hsources : ∀ f ∈ flows, f.source < g.myVertices.length)
    (hadj : ∀ f ∈ flows, f.Adjacent g clients)
    (h : FlowLists.Entered c g flows {i | ∃ v ∈ clients, i ∈ flowsFor flows v}
      ⟨fun _ => none, fun _ => [], flows⟩ r) : RegisteredOnce g flows r.users := by
  refine ⟨fun i f ps e qs hf hes => ?_, fun i f es e hf hes he => ?_⟩
  · have hmem := List.mem_of_getElem? hf
    rcases hadj f hmem with ⟨hself, -⟩ | ⟨hne, hcount, hedge⟩
    · have hnil := route_eq_nil hg (hsources f hmem) hself hes
      simp at hnil
    · obtain ⟨a, ha⟩ := Option.isSome_iff_exists.mp hedge
      have hsingle := route_eq_singleton hg (hsources f hmem) hne ha hes
      obtain ⟨rfl, hcons⟩ | ⟨b, -, hbad⟩ := List.append_eq_cons_iff.mp hsingle
      · obtain ⟨rfl, rfl⟩ := List.cons.inj hcons
        have hclient : f.source ∈ clients := List.count_pos_iff.mp (by omega)
        rw [((h.cases hf).1 hclient).2, if_pos ha]
        rfl
      · simp at hbad
  · have hmem := List.mem_of_getElem? hf
    rcases hadj f hmem with ⟨-, hclient⟩ | ⟨hne, hcount, hedge⟩
    · exact (h.cases hf).2 hclient e
    · obtain ⟨a, ha⟩ := Option.isSome_iff_exists.mp hedge
      rw [route_eq_singleton hg (hsources f hmem) hne ha hes, List.mem_singleton] at he
      have hclient : f.source ∈ clients := List.count_pos_iff.mp (by omega)
      rw [((h.cases hf).1 hclient).2, ha, if_neg]
      exact fun heq => he (Option.some.inj heq).symm

theorem Flow.narrowed_bandwidth {f : Flow} (he : f.edge? g = some e) :
    (f.narrowed c g).bandwidth = c.toFloat (min (c.toInt (g.kbps e) : ℚ) f.bandwidth) := by
  unfold Flow.narrowed
  rw [he]

end

/-- **`buildFlowLists` is right exactly if** every flow leads from a client, which is in the list
once, to a vertex next to it, and its bandwidth survives the conversions. -/
theorem buildFlowLists_correct_iff (c : Casts) (g : MNGraph ℚ) (clients : List ℕ)
    (flows : List Flow) (hflows : ∀ f ∈ flows, f.source < g.myVertices.length ∧
      g.digraph.Reaches f.source f.target) :
    (∃ r, buildFlowLists c g.toGraphData clients flows = some r ∧
      r.Correct g.toGraphData flows) ↔
    ∀ f ∈ flows, f.Adjacent g.toGraphData clients ∧
      (f.target ≠ f.source → f.Converted c g.toGraphData) := by
  have hn : flows ≠ [] → 0 < g.myVertices.length := by
    intro hne
    obtain ⟨f, l, rfl⟩ := List.exists_cons_of_ne_nil hne
    exact Nat.zero_lt_of_lt (hflows f List.mem_cons_self).1
  constructor
  · rintro ⟨r, hrun, hcorrect⟩
    have hadj : ∀ f ∈ flows, f.Adjacent g.toGraphData clients := fun f hf =>
      adjacent_of_registeredOnce g.built hrun hcorrect.registered hf (hflows f hf).1 (hflows f hf).2
    obtain ⟨r', hrun', hentered⟩ := entered_buildFlowLists (c := c) hn hadj
    obtain rfl : r = r' := Option.some.inj (hrun.symm.trans hrun')
    refine fun f hf => ⟨hadj f hf, fun hne e he => ?_⟩
    obtain ⟨i, hi⟩ := List.getElem?_of_mem hf
    obtain ⟨es, hes⟩ := exists_route g.built (hflows f hf).1 (hflows f hf).2
    have hsingle := route_eq_singleton g.built (hflows f hf).1 hne he hes
    subst hsingle
    have hcount := ((hadj f hf).resolve_left fun h => hne h.1).2.1
    have hclient : f.source ∈ clients := List.count_pos_iff.mp (by omega)
    have hbw := hcorrect.bandwidth i f _ _ hi hes (isWidth_singleton _ e)
    rw [((hentered.cases hi).1 hclient).1] at hbw
    rw [← Flow.narrowed_bandwidth he]
    exact Option.some.inj hbw
  · intro hcond
    have hadj : ∀ f ∈ flows, f.Adjacent g.toGraphData clients := fun f hf => (hcond f hf).1
    obtain ⟨r, hrun, hentered⟩ := entered_buildFlowLists (c := c) hn hadj
    refine ⟨r, hrun, registeredOnce_of_entered g.built (fun f hf => (hflows f hf).1) hadj hentered,
      fun i f es m hi hes hm => ?_⟩
    have hf := List.mem_of_getElem? hi
    rcases hadj f hf with ⟨hself, -⟩ | ⟨hne, hcount, hedge⟩
    · rw [route_eq_nil g.built (hflows f hf).1 hself hes] at hm
      obtain ⟨a, ha, -⟩ := hm.1
      cases ha
    · obtain ⟨e, he⟩ := Option.isSome_iff_exists.mp hedge
      rw [route_eq_singleton g.built (hflows f hf).1 hne he hes] at hm
      have hclient : f.source ∈ clients := List.count_pos_iff.mp (by omega)
      rw [((hentered.cases hi).1 hclient).1, hm.eq_of_singleton, Option.map_some,
        Flow.narrowed_bandwidth he, (hcond f hf).2 hne e he]

/-- The conversions where nothing is lost. -/
def Casts.exact : Casts := ⟨fun x => x.floor, id⟩

def twoPipes : MNGraph ℚ where
  myVertices := [virtnode, virtnode, virtnode]
  myEdges := [pipe 0 1 10, pipe 1 2 15]
  mySpecs := ∅
  built := by
    refine ⟨?_, ?_, by decide, by decide⟩ <;> decide

/-- A flow as the patterns make it. -/
def flowOf (source target : ℕ) (bandwidth : ℚ) : Flow := ⟨source, target, bandwidth, 0, 1⟩

/-- A flow through one pipe is registered. -/
theorem buildFlowLists_correct_onePipe :
    ∃ r, buildFlowLists .exact twoPipes.toGraphData [0, 1, 2] [flowOf 0 1 20] = some r ∧
      r.Correct twoPipes.toGraphData [flowOf 0 1 20] := by
  refine (buildFlowLists_correct_iff .exact twoPipes [0, 1, 2] [flowOf 0 1 20] ?_).mpr ?_
  · intro f hf
    obtain rfl := List.mem_singleton.mp hf
    have hedge : 0 ∈ twoPipes.digraph.edges := by
      change 0 < twoPipes.myEdges.length
      decide
    exact ⟨by decide, [0], hedge, rfl, rfl⟩
  · intro f hf
    obtain rfl := List.mem_singleton.mp hf
    refine ⟨Or.inr ⟨by decide, by decide, by decide⟩, fun _ e he => ?_⟩
    obtain rfl : 0 = e := Option.some.inj ((by decide : (flowOf 0 1 20).edge? _ = some 0).symm.trans he)
    decide

/-- For a flow through both pipes a predecessor is followed that is nil. -/
theorem not_buildFlowLists_twoPipes :
    ¬ ∃ r, buildFlowLists .exact twoPipes.toGraphData (sources twoPipes.toGraphData)
        [flowOf 0 2 20] = some r ∧ r.Correct twoPipes.toGraphData [flowOf 0 2 20] := by
  rintro ⟨r, hrun, -⟩
  have hnone : (buildFlowLists .exact twoPipes.toGraphData (sources twoPipes.toGraphData)
      [flowOf 0 2 20]).isNone := by decide
  rw [hrun] at hnone
  cases hnone

end Modelnet.Tools

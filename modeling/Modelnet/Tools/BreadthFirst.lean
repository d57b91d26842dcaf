import Mathlib.Algebra.Order.Group.Int
import Mathlib.Algebra.Ring.Int.Defs
import Mathlib.Data.Finset.Card
import Modelnet.Tools.Routes

/-!
# Breadth-first search

`breadth_first_search` of `graph.h`, on which the weights rest: it takes the vertices from a queue in
which two levels of distances stand one after the other. When the queue is empty, the distances are
the least numbers of edges from the source, and the predecessors lead back to it
(`breadthFirstSearch_correct`).
-/

namespace Modelnet.Tools

variable {D : Type}

structure BFSState where
  q : List ℕ
  visited : ℕ → Bool
  pred : ℕ → Option ℕ
  dist : ℕ → ℤ

section

variable (g : GraphData D)

/-- The body of the loop over the edges that leave `v`. -/
def scanEdge (v : ℕ) (s : BFSState) (e : ℕ) : BFSState :=
  let u := g.target e
  if s.visited u then s
  else
    { q := s.q ++ [u]
      visited := Function.update s.visited u true
      pred := Function.update s.pred u (some e)
      dist := Function.update s.dist u (s.dist v + 1) }

/-- The body of `while (q.size())`; nothing happens any more when the queue is empty. -/
def bfsTurn (s : BFSState) : BFSState :=
  match s.q with
  | [] => s
  | v :: q => (g.outEdges v).foldl (scanEdge g v) { s with q := q }

def BFSState.init (source : ℕ) : BFSState where
  q := [source]
  visited := Function.update (fun _ => false) source true
  pred := fun _ => none
  dist := Function.update (fun _ => -1) source 0

/-- `breadth_first_search`. Every vertex is taken from the queue once at most. -/
def breadthFirstSearch (source : ℕ) : BFSState :=
  (bfsTurn g)^[g.myVertices.length] (BFSState.init source)

end

variable {g : GraphData D} {src v : ℕ} {s s' : BFSState}

/-! ## The edges of one vertex -/

/-- What the loop over some edges of `v` does: the targets that have not been visited are put at the
end of the queue, one level below `v`, with the first edge that leads to them. -/
structure Scanned (g : GraphData D) (v : ℕ) (es : List ℕ) (s s' : BFSState) : Prop where
  visited : ∀ u, s'.visited u = true ↔ s.visited u = true ∨ ∃ e ∈ es, g.target e = u
  pred_old : ∀ u, s.visited u = true → s'.pred u = s.pred u
  pred_new : ∀ u, s.visited u = false →
    s'.pred u = (es.find? fun e => g.target e = u).or (s.pred u)
  dist_old : ∀ u, s.visited u = true ∨ s'.visited u = false → s'.dist u = s.dist u
  dist_new : ∀ u, s.visited u = false → s'.visited u = true → s'.dist u = s.dist v + 1
  q : ∃ fresh : List ℕ, s'.q = s.q ++ fresh ∧ fresh.Nodup ∧
    ∀ u, u ∈ fresh ↔ s.visited u = false ∧ s'.visited u = true

theorem scanned_nil (g : GraphData D) (v : ℕ) (s : BFSState) : Scanned g v [] s s where
  visited u := by simp
  pred_old _ _ := rfl
  pred_new u _ := by simp
  dist_old _ _ := rfl
  dist_new u h h' := by simp [h] at h'
  q := ⟨[], by simp, List.nodup_nil, fun u => by simp⟩

theorem scanEdge_visited {e : ℕ} (h : s.visited (g.target e) = true) : scanEdge g v s e = s :=
  if_pos h

theorem scanEdge_fresh {e : ℕ} (h : s.visited (g.target e) = false) :
    scanEdge g v s e =
      { q := s.q ++ [g.target e]
        visited := Function.update s.visited (g.target e) true
        pred := Function.update s.pred (g.target e) (some e)
        dist := Function.update s.dist (g.target e) (s.dist v + 1) } :=
  if_neg (by simp [h])

theorem Scanned.cons_visited {e : ℕ} {es : List ℕ} (hvisited : s.visited (g.target e) = true)
    (h : Scanned g v es s s') : Scanned g v (e :: es) s s' := by
  refine ⟨fun u => ?_, h.pred_old, fun u hu => ?_, h.dist_old, h.dist_new, h.q⟩
  · simp only [h.visited, List.mem_cons, exists_eq_or_imp]
    constructor
    · rintro (hu | hu)
      · exact Or.inl hu
      · exact Or.inr (Or.inr hu)
    · rintro (hu | rfl | hu)
      · exact Or.inl hu
      · exact Or.inl hvisited
      · exact Or.inr hu
  · have hne : g.target e ≠ u := by
      rintro rfl
      rw [hu] at hvisited
      cases hvisited
    rw [h.pred_new u hu, List.find?_cons_of_neg (by simpa using hne)]

theorem Scanned.cons_fresh {e : ℕ} {es : List ℕ} (hv : s.visited v = true)
    (hvisited : s.visited (g.target e) = false) (h : Scanned g v es (scanEdge g v s e) s') :
    Scanned g v (e :: es) s s' := by
  rw [scanEdge_fresh hvisited] at h
  have hself : s'.visited (g.target e) = true := by
    rw [h.visited]
    left
    simp
  have hother : ∀ u, u ≠ g.target e →
      Function.update s.visited (g.target e) true u = s.visited u :=
    fun u hu => Function.update_of_ne hu _ _
  obtain ⟨fresh, hq, hnodup, hmem⟩ := h.q
  dsimp only at hq hmem
  have hold : ∀ u, s.visited u = true → u ≠ g.target e := by
    rintro _ hu rfl
    rw [hu] at hvisited
    cases hvisited
  refine ⟨fun u => ?_, fun u hu => ?_, fun u hu => ?_, fun u hu => ?_, fun u hu hu' => ?_,
    ⟨g.target e :: fresh, ?_, ?_, fun u => ?_⟩⟩
  · simp only [h.visited, List.mem_cons, exists_eq_or_imp]
    by_cases hu : u = g.target e
    · subst hu
      simp
    · rw [hother u hu]
      simp [Ne.symm hu]
  · rw [h.pred_old u ((hother u (hold u hu)).trans hu)]
    exact Function.update_of_ne (hold u hu) _ _
  · by_cases hne' : u = g.target e
    · subst hne'
      rw [h.pred_old _ (Function.update_self _ _ _), List.find?_cons_of_pos (by simp)]
      exact Function.update_self _ _ _
    · rw [h.pred_new u ((hother u hne').trans hu),
        List.find?_cons_of_neg (by simpa using Ne.symm hne')]
      exact congrArg _ (Function.update_of_ne hne' _ _)
  · have hne : u ≠ g.target e := by
      rintro rfl
      simp [hvisited, hself] at hu
    rw [h.dist_old u ?_]
    · exact Function.update_of_ne hne _ _
    · dsimp only
      rwa [hother u hne]
  · by_cases hne' : u = g.target e
    · subst hne'
      rw [h.dist_old _ (Or.inl (Function.update_self _ _ _))]
      exact Function.update_self _ _ _
    · rw [h.dist_new u ((hother u hne').trans hu) hu']
      exact congrArg (· + 1) (Function.update_of_ne (hold v hv) _ _)
  · rw [hq, List.append_assoc, List.singleton_append]
  · refine List.nodup_cons.mpr ⟨fun hin => ?_, hnodup⟩
    have hfresh := ((hmem _).mp hin).1
    simp at hfresh
  · rw [List.mem_cons, hmem]
    by_cases hu : u = g.target e
    · subst hu
      simp [hvisited, hself]
    · rw [hother u hu]
      simp [hu]

theorem Scanned.cons {e : ℕ} {es : List ℕ} (hv : s.visited v = true)
    (h : Scanned g v es (scanEdge g v s e) s') : Scanned g v (e :: es) s s' := by
  cases hvisited : s.visited (g.target e) with
  | true =>
    rw [scanEdge_visited hvisited] at h
    exact h.cons_visited hvisited
  | false => exact h.cons_fresh hv hvisited

/-- **The loop over the edges.** -/
theorem scanned_foldl (hv : s.visited v = true) (es : List ℕ) :
    Scanned g v es s (es.foldl (scanEdge g v) s) := by
  induction es generalizing s with
  | nil => exact scanned_nil g v s
  | cons e es ih =>
    refine Scanned.cons hv (ih ?_)
    cases hvisited : s.visited (g.target e) with
    | true => rwa [scanEdge_visited hvisited]
    | false =>
      rw [scanEdge_fresh hvisited]
      by_cases hu : v = g.target e
      · subst hu
        simp
      · simpa [Function.update_of_ne hu] using hv

/-! ## One vertex -/

/-- What holds after each vertex. A visited vertex that is not in the queue has been taken from it. -/
structure BFSState.Inv (g : GraphData D) (src : ℕ) (s : BFSState) : Prop where
  nodup : s.q.Nodup
  q_visited : ∀ v ∈ s.q, s.visited v = true
  source : s.visited src = true ∧ s.pred src = none ∧ s.dist src = 0
  unvisited : ∀ v, s.visited v = false → s.pred v = none ∧ s.dist v = -1
  visited_lt : ∀ v, s.visited v = true → v < g.myVertices.length ∧ 0 ≤ s.dist v
  tree : ∀ v, s.visited v = true → v ≠ src → ∃ e, s.pred v = some e ∧ e < g.myEdges.length ∧
    g.target e = v ∧ s.visited (g.source e) = true ∧ s.dist v = s.dist (g.source e) + 1
  taken : ∀ e < g.myEdges.length, s.visited (g.source e) = true → g.source e ∉ s.q →
    s.visited (g.target e) = true ∧ s.dist (g.target e) ≤ s.dist (g.source e) + 1
  sorted : s.q.Pairwise fun a b => s.dist a ≤ s.dist b
  levels : ∀ v ∈ s.q, ∀ u, s.visited u = true → s.dist u ≤ s.dist v + 1

theorem BFSState.inv_init (hsrc : src < g.myVertices.length) : (BFSState.init src).Inv g src := by
  have hvisited : ∀ v, (BFSState.init src).visited v = true → v = src := by
    intro v hv
    by_contra hne
    simp [init, Function.update_of_ne hne] at hv
  refine ⟨List.nodup_singleton src, ?_, ⟨?_, rfl, ?_⟩, ?_, ?_, ?_, ?_, List.pairwise_singleton _ _, ?_⟩
  · intro v hv
    rw [List.mem_singleton.mp hv]
    simp [init]
  · simp [init]
  · simp [init]
  · intro v hv
    have hne : v ≠ src := by
      rintro rfl
      simp [init] at hv
    exact ⟨rfl, by simp [init, Function.update_of_ne hne]⟩
  · intro v hv
    rw [hvisited v hv]
    simpa [init] using hsrc
  · intro v hv hne
    exact absurd (hvisited v hv) hne
  · intro e _ hv hq
    rw [hvisited _ hv] at hq
    exact absurd (List.mem_singleton_self src) hq
  · intro v hv u hu
    rw [hvisited u hu, List.mem_singleton.mp hv]
    omega

/-- The vertices that still have to be taken from the queue. -/
def BFSState.left (g : GraphData D) (s : BFSState) : Finset ℕ :=
  (Finset.range g.myVertices.length).filter fun v => s.visited v = false ∨ v ∈ s.q

/-- What a turn does with the first vertex `v` of the queue: it scans the edges of `v` and puts the
vertices `fresh` at the end. -/
structure Turned (g : GraphData D) (v : ℕ) (q fresh : List ℕ) (s s' : BFSState) : Prop where
  head : s.q = v :: q
  scan : Scanned g v (g.outEdges v) { s with q := q } s'
  queue : s'.q = q ++ fresh
  nodup : fresh.Nodup
  mem_fresh : ∀ u, u ∈ fresh ↔ s.visited u = false ∧ s'.visited u = true

theorem exists_turned (h : s.Inv g src) {q : List ℕ} (hvq : s.q = v :: q) :
    ∃ fresh, Turned g v q fresh s (bfsTurn g s) := by
  have hv := h.q_visited v (by simp [hvq])
  have hturn : bfsTurn g s = (g.outEdges v).foldl (scanEdge g v) { s with q := q } := by
    unfold bfsTurn
    rw [hvq]
  have hscan : Scanned g v (g.outEdges v) { s with q := q } (bfsTurn g s) := by
    rw [hturn]
    exact scanned_foldl (s := { s with q := q }) hv _
  obtain ⟨fresh, hq', hfresh, hmem⟩ := hscan.q
  exact ⟨fresh, hvq, hscan, hq', hfresh, hmem⟩

namespace Turned

variable {q fresh : List ℕ} {u w : ℕ}

theorem visited (t : Turned g v q fresh s s') (hu : s.visited u = true) : s'.visited u = true :=
  (t.scan.visited u).mpr (Or.inl hu)

theorem unvisited (t : Turned g v q fresh s s') (hu : s'.visited u = false) :
    s.visited u = false := by
  by_contra hne
  rw [t.visited (by simpa using hne)] at hu
  cases hu

theorem dist (t : Turned g v q fresh s s') (hu : s.visited u = true) : s'.dist u = s.dist u :=
  t.scan.dist_old u (Or.inl hu)

theorem dist_fresh (t : Turned g v q fresh s s') (hu : u ∈ fresh) : s'.dist u = s.dist v + 1 :=
  t.scan.dist_new u ((t.mem_fresh u).mp hu).1 ((t.mem_fresh u).mp hu).2

theorem mem_head (t : Turned g v q fresh s s') : v ∈ s.q := by
  rw [t.head]
  exact List.mem_cons_self

theorem mem_tail (t : Turned g v q fresh s s') (hu : u ∈ q) : u ∈ s.q := by
  rw [t.head]
  exact List.mem_cons_of_mem v hu

theorem mem_queue (t : Turned g v q fresh s s') : u ∈ s'.q ↔ u ∈ q ∨ u ∈ fresh := by
  rw [t.queue, List.mem_append]

/-- A vertex that is new is the target of an edge of `v`, and the first such edge leads back. -/
theorem exists_pred (t : Turned g v q fresh s s') (hold : s.visited u = false)
    (hu : s'.visited u = true) : ∃ e, s'.pred u = some e ∧ e < g.myEdges.length ∧
      g.source e = v ∧ g.target e = u := by
  have hedge := (t.scan.visited u).mp hu
  dsimp only at hedge
  rw [hold] at hedge
  obtain ⟨e, he, htarget⟩ := hedge.resolve_left (by simp)
  obtain ⟨e', he'⟩ : ∃ e', (g.outEdges v).find? (fun e => g.target e = u) = some e' := by
    refine Option.isSome_iff_exists.mp (List.find?_isSome.mpr ⟨e, he, ?_⟩)
    simpa using htarget
  obtain ⟨hlt, hsource⟩ := mem_outEdges.mp (List.mem_of_find?_eq_some he')
  have htarget' := List.find?_some he'
  refine ⟨e', ?_, hlt, hsource, by simpa using htarget'⟩
  rw [t.scan.pred_new u hold, he']
  rfl

theorem dist_le (t : Turned g v q fresh s s') (h : s.Inv g src) (hu : s'.visited u = true) :
    s'.dist u ≤ s.dist v + 1 := by
  cases hold : s.visited u with
  | true =>
    rw [t.dist hold]
    exact h.levels v t.mem_head u hold
  | false => exact (t.scan.dist_new u hold hu).le

theorem queued (t : Turned g v q fresh s s') (h : s.Inv g src) (hu : u ∈ s'.q) :
    s'.visited u = true ∧ s.dist v ≤ s'.dist u := by
  obtain ⟨hhead, -⟩ := List.pairwise_cons.mp (t.head ▸ h.sorted)
  obtain hu | hu := t.mem_queue.mp hu
  · have hold := h.q_visited u (t.mem_tail hu)
    rw [t.dist hold]
    exact ⟨t.visited hold, hhead u hu⟩
  · rw [t.dist_fresh hu]
    exact ⟨((t.mem_fresh u).mp hu).2, by omega⟩

theorem queue_nodup (t : Turned g v q fresh s s') (h : s.Inv g src) : s'.q.Nodup := by
  obtain ⟨-, hqnodup⟩ := List.nodup_cons.mp (t.head ▸ h.nodup)
  rw [t.queue]
  refine hqnodup.append t.nodup fun u hu hu' => ?_
  have hfalse := ((t.mem_fresh u).mp hu').1
  rw [h.q_visited u (t.mem_tail hu)] at hfalse
  cases hfalse

theorem queue_sorted (t : Turned g v q fresh s s') (h : s.Inv g src) :
    s'.q.Pairwise fun a b => s'.dist a ≤ s'.dist b := by
  obtain ⟨-, hsorted⟩ := List.pairwise_cons.mp (t.head ▸ h.sorted)
  have hold : ∀ a ∈ q, s.visited a = true := fun a ha => h.q_visited a (t.mem_tail ha)
  rw [t.queue]
  refine List.pairwise_append.mpr ⟨?_, ?_, ?_⟩
  · refine hsorted.imp_of_mem fun {a b} ha hb hle => ?_
    rw [t.dist (hold a ha), t.dist (hold b hb)]
    exact hle
  · refine List.pairwise_of_forall_mem_list fun a ha b hb => ?_
    rw [t.dist_fresh ha, t.dist_fresh hb]
  · intro a ha b hb
    rw [t.dist_fresh hb]
    exact t.dist_le h (t.visited (hold a ha))

/-- A vertex that is still not visited has been left alone. -/
theorem untouched (t : Turned g v q fresh s s') (h : s.Inv g src) (hu : s'.visited u = false) :
    s'.pred u = none ∧ s'.dist u = -1 := by
  have hnone : (g.outEdges v).find? (fun e => g.target e = u) = none := by
    refine List.find?_eq_none.mpr fun e he htarget => ?_
    rw [(t.scan.visited u).mpr (Or.inr ⟨e, he, by simpa using htarget⟩)] at hu
    cases hu
  rw [t.scan.pred_new u (t.unvisited hu), hnone, t.scan.dist_old u (Or.inr hu)]
  exact h.unvisited u (t.unvisited hu)

theorem visited_lt (t : Turned g v q fresh s s') (h : s.Inv g src) (hg : g.Built)
    (hu : s'.visited u = true) : u < g.myVertices.length ∧ 0 ≤ s'.dist u := by
  cases hold : s.visited u with
  | true =>
    rw [t.dist hold]
    exact h.visited_lt u hold
  | false =>
    obtain ⟨e, -, he, -, rfl⟩ := t.exists_pred hold hu
    have hpos := (h.visited_lt v (h.q_visited v t.mem_head)).2
    rw [t.scan.dist_new _ hold hu]
    exact ⟨GraphData.target_lt hg he, by dsimp only; omega⟩

theorem tree (t : Turned g v q fresh s s') (h : s.Inv g src) (hu : s'.visited u = true)
    (hne : u ≠ src) : ∃ e, s'.pred u = some e ∧ e < g.myEdges.length ∧ g.target e = u ∧
      s'.visited (g.source e) = true ∧ s'.dist u = s'.dist (g.source e) + 1 := by
  cases hold : s.visited u with
  | true =>
    obtain ⟨e, hpred, he, htarget, hsource, hstep⟩ := h.tree u hold hne
    refine ⟨e, (t.scan.pred_old u hold).trans hpred, he, htarget, t.visited hsource, ?_⟩
    rw [t.dist hold, t.dist hsource]
    exact hstep
  | false =>
    have hv := h.q_visited v t.mem_head
    obtain ⟨e, hpred, he, hsource, htarget⟩ := t.exists_pred hold hu
    refine ⟨e, hpred, he, htarget, ?_, ?_⟩
    · rw [hsource]
      exact t.visited hv
    · rw [hsource, t.dist hv, t.scan.dist_new u hold hu]

/-- The edges of `v`, which has now been taken, and of the vertices taken before. -/
theorem taken (t : Turned g v q fresh s s') (h : s.Inv g src) {e : ℕ} (he : e < g.myEdges.length)
    (hsource : s'.visited (g.source e) = true) (hnot : g.source e ∉ s'.q) :
    s'.visited (g.target e) = true ∧ s'.dist (g.target e) ≤ s'.dist (g.source e) + 1 := by
  rw [t.mem_queue, not_or] at hnot
  by_cases heq : g.source e = v
  · have htarget : s'.visited (g.target e) = true :=
      (t.scan.visited _).mpr (Or.inr ⟨e, mem_outEdges.mpr ⟨he, heq⟩, rfl⟩)
    refine ⟨htarget, ?_⟩
    rw [heq, t.dist (h.q_visited v t.mem_head)]
    exact t.dist_le h htarget
  · have hold : s.visited (g.source e) = true := by
      by_contra hne
      exact hnot.2 ((t.mem_fresh _).mpr ⟨by simpa using hne, hsource⟩)
    have hnotq : g.source e ∉ s.q := by
      rw [t.head, List.mem_cons, not_or]
      exact ⟨heq, hnot.1⟩
    obtain ⟨htarget, hle⟩ := h.taken e he hold hnotq
    refine ⟨t.visited htarget, ?_⟩
    rw [t.dist htarget, t.dist hold]
    exact hle

theorem inv (t : Turned g v q fresh s s') (h : s.Inv g src) (hg : g.Built) : s'.Inv g src where
  nodup := t.queue_nodup h
  q_visited := fun _ hu => (t.queued h hu).1
  source := by
    refine ⟨t.visited h.source.1, ?_, ?_⟩
    · rw [t.scan.pred_old _ h.source.1]
      exact h.source.2.1
    · rw [t.dist h.source.1]
      exact h.source.2.2
  unvisited := fun _ hu => t.untouched h hu
  visited_lt := fun _ hu => t.visited_lt h hg hu
  tree := fun _ hu hne => t.tree h hu hne
  taken := fun _ he hsource hnot => t.taken h he hsource hnot
  sorted := t.queue_sorted h
  levels := by
    intro u hu w hw
    have hle := t.dist_le h hw
    have hge := (t.queued h hu).2
    omega

/-- `v` has been taken, and no vertex has come back. -/
theorem left_ssubset (t : Turned g v q fresh s s') (h : s.Inv g src) : s'.left g ⊂ s.left g := by
  have hv := h.q_visited v t.mem_head
  obtain ⟨hvnot, -⟩ := List.nodup_cons.mp (t.head ▸ h.nodup)
  have hsubset : s'.left g ⊆ s.left g := by
    intro u hu
    obtain ⟨hlt, hleft⟩ := Finset.mem_filter.mp hu
    refine Finset.mem_filter.mpr ⟨hlt, ?_⟩
    obtain hnot | hin := hleft
    · exact Or.inl (t.unvisited hnot)
    · obtain hin | hin := t.mem_queue.mp hin
      · exact Or.inr (t.mem_tail hin)
      · exact Or.inl ((t.mem_fresh u).mp hin).1
  refine (Finset.ssubset_iff_of_subset hsubset).mpr ⟨v, ?_, fun hin => ?_⟩
  · exact Finset.mem_filter.mpr ⟨Finset.mem_range.mpr (h.visited_lt v hv).1, Or.inr t.mem_head⟩
  · obtain hnot | hin := (Finset.mem_filter.mp hin).2
    · rw [t.visited hv] at hnot
      cases hnot
    · obtain hin | hin := t.mem_queue.mp hin
      · exact hvnot hin
      · have hfalse := ((t.mem_fresh v).mp hin).1
        rw [hv] at hfalse
        cases hfalse

end Turned

/-- **A vertex is taken from the queue.** -/
theorem BFSState.Inv.turn (h : s.Inv g src) (hg : g.Built) (hq : s.q ≠ []) :
    (bfsTurn g s).Inv g src ∧ (bfsTurn g s).left g ⊂ s.left g := by
  obtain ⟨v, q, hvq⟩ := List.exists_cons_of_ne_nil hq
  obtain ⟨fresh, hturned⟩ := exists_turned h hvq
  exact ⟨hturned.inv h hg, hturned.left_ssubset h⟩

theorem bfsTurn_of_nil (hq : s.q = []) : bfsTurn g s = s := by
  unfold bfsTurn
  rw [hq]

/-- **All vertices.** In the end the queue is empty. -/
theorem inv_breadthFirstSearch (hg : g.Built) (hsrc : src < g.myVertices.length) :
    (breadthFirstSearch g src).Inv g src ∧ (breadthFirstSearch g src).q = [] := by
  have hrun : ∀ k, let s := (bfsTurn g)^[k] (BFSState.init src)
      s.Inv g src ∧ (s.q = [] ∨ (s.left g).card + k ≤ g.myVertices.length) := by
    intro k
    induction k with
    | zero =>
      refine ⟨BFSState.inv_init hsrc, Or.inr ?_⟩
      exact (Finset.card_filter_le _ _).trans (Finset.card_range _).le
    | succ k ih =>
      obtain ⟨hinv, hleft⟩ := ih
      rw [Function.iterate_succ_apply']
      by_cases hq : ((bfsTurn g)^[k] (BFSState.init src)).q = []
      · rw [bfsTurn_of_nil hq]
        exact ⟨hinv, Or.inl hq⟩
      · obtain ⟨hinv', hlt⟩ := hinv.turn hg hq
        have hcard := Finset.card_lt_card hlt
        have hle := hleft.resolve_left hq
        exact ⟨hinv', Or.inr (by omega)⟩
  obtain ⟨hinv, hleft⟩ := hrun g.myVertices.length
  refine ⟨hinv, hleft.elim id fun hle => ?_⟩
  have hempty : (breadthFirstSearch g src).left g = ∅ :=
    Finset.card_eq_zero.mp (by unfold breadthFirstSearch; omega)
  refine List.eq_nil_iff_forall_not_mem.mpr fun v hv => ?_
  have hmem : v ∈ (breadthFirstSearch g src).left g := Finset.mem_filter.mpr
    ⟨Finset.mem_range.mpr (hinv.visited_lt v (hinv.q_visited v hv)).1, Or.inr hv⟩
  rw [hempty] at hmem
  exact absurd hmem (Finset.notMem_empty v)

/-! ## Predecessors stay -/

/-- A vertex that has been visited keeps its predecessor. -/
theorem BFSState.Inv.pred_turn (h : s.Inv g src) (hv : s.visited v = true) :
    (bfsTurn g s).visited v = true ∧ (bfsTurn g s).pred v = s.pred v := by
  cases hq : s.q with
  | nil =>
    rw [bfsTurn_of_nil hq]
    exact ⟨hv, rfl⟩
  | cons u q =>
    have hu := h.q_visited u (by simp [hq])
    have hscan := scanned_foldl (g := g) (s := { s with q := q }) hu (g.outEdges u)
    unfold bfsTurn
    rw [hq]
    exact ⟨(hscan.visited v).mpr (Or.inl hv), hscan.pred_old v hv⟩

theorem BFSState.Inv.pred_iterate (hg : g.Built) (h : s.Inv g src) (hv : s.visited v = true)
    (k : ℕ) : ((bfsTurn g)^[k] s).pred v = s.pred v := by
  induction k generalizing s with
  | zero => rfl
  | succ k ih =>
    obtain ⟨hv', hpred⟩ := h.pred_turn hv
    have hinv : (bfsTurn g s).Inv g src := by
      by_cases hq : s.q = []
      · rwa [bfsTurn_of_nil hq]
      · exact (h.turn hg hq).1
    rw [Function.iterate_succ_apply, ih hinv hv', hpred]

/-- A vertex next to the source has the first edge that leads to it. -/
theorem pred_breadthFirstSearch_of_find (hg : g.Built) (hsrc : src < g.myVertices.length) {e : ℕ}
    (hv : v ≠ src) (he : (g.outEdges src).find? (fun e => g.target e = v) = some e) :
    (breadthFirstSearch g src).pred v = some e := by
  have hinit := BFSState.inv_init hsrc
  have hnew : (BFSState.init src).visited v = false := by
    simp [BFSState.init, Function.update_of_ne hv]
  have hscan := scanned_foldl (g := g) (s := { BFSState.init src with q := [] }) hinit.source.1
    (g.outEdges src)
  have hfirst : (bfsTurn g (BFSState.init src)).pred v = some e := by
    refine (hscan.pred_new v hnew).trans ?_
    rw [he]
    rfl
  have hvisited : (bfsTurn g (BFSState.init src)).visited v = true :=
    (hscan.visited v).mpr (Or.inr ⟨e, List.mem_of_find?_eq_some he, by
      simpa using List.find?_some he⟩)
  obtain ⟨m, hm⟩ : ∃ m, g.myVertices.length = m + 1 := ⟨g.myVertices.length - 1, by omega⟩
  unfold breadthFirstSearch
  rw [hm, Function.iterate_succ_apply,
    (hinit.turn hg (List.cons_ne_nil src [])).1.pred_iterate hg hvisited, hfirst]

/-! ## What the search has found -/

/-- The search is over, its distances are the least numbers of edges from the source, and its
predecessors lead back to the source in as many steps. -/
structure BFSState.Correct (g : GraphData D) (src : ℕ) (s : BFSState) : Prop where
  ended : s.q = []
  dist_of_reaches : ∀ v, g.digraph.Reaches src v → ∃ es, g.digraph.IsWalk src es v ∧
    s.dist v = es.length ∧ ∀ fs, g.digraph.IsWalk src fs v → es.length ≤ fs.length
  dist_of_not_reaches : ∀ v, ¬ g.digraph.Reaches src v → s.dist v = -1
  pred_eq_none : ∀ v, s.pred v = none ↔ v = src ∨ ¬ g.digraph.Reaches src v
  pred_eq_some : ∀ v e, s.pred v = some e → e < g.myEdges.length ∧ g.target e = v ∧
    s.dist (g.source e) = s.dist v - 1
  back : ∀ v, g.digraph.Reaches src v → ∃ es, g.digraph.Back s.pred src v es ∧ s.dist v = es.length

theorem sum_map_one (es : List ℕ) : (es.map fun _ => (1 : ℤ)).sum = es.length := by
  simp

section

variable (h : s.Inv g src) (hq : s.q = [])

include h

theorem BFSState.Inv.pred_of_visited {e : ℕ} (hpred : s.pred v = some e) :
    e < g.myEdges.length ∧ g.target e = v ∧ s.visited (g.source e) = true ∧
      s.dist v = s.dist (g.source e) + 1 := by
  have hv : s.visited v = true := by
    by_contra hnot
    rw [(h.unvisited v (by simpa using hnot)).1] at hpred
    cases hpred
  have hne : v ≠ src := by
    rintro rfl
    rw [h.source.2.1] at hpred
    cases hpred
  obtain ⟨e', hpred', hrest⟩ := h.tree v hv hne
  obtain rfl : e = e' := Option.some.inj (hpred.symm.trans hpred')
  exact hrest

theorem BFSState.Inv.predsLeadTo : g.digraph.PredsLeadTo s.pred := by
  intro v e hpred
  obtain ⟨he, htarget, -⟩ := h.pred_of_visited hpred
  exact ⟨he, htarget⟩

/-- From every visited vertex, the predecessors lead back to the source. -/
theorem BFSState.Inv.exists_back (hv : s.visited v = true) :
    ∃ es, g.digraph.Back s.pred src v es ∧ s.dist v = es.length := by
  have hrank : ∀ u ∈ {u | s.visited u = true}, u ≠ src → ∃ e, s.pred u = some e ∧
      g.digraph.source e ∈ {u | s.visited u = true} ∧
      (s.dist (g.digraph.source e)).toNat < (s.dist u).toNat := by
    intro u hu hne
    obtain ⟨e, hpred, -, -, hsource, hdist⟩ := h.tree u hu hne
    have hpos := (h.visited_lt _ hsource).2
    refine ⟨e, hpred, hsource, ?_⟩
    show (s.dist (g.source e)).toNat < (s.dist u).toNat
    omega
  obtain ⟨es, hes⟩ := Multidigraph.exists_back (fun u => (s.dist u).toNat) hrank hv
  refine ⟨es, hes, ?_⟩
  have hlabel := hes.label_eq (d := s.dist) (w := fun _ => 1) fun u e hpred =>
    (h.pred_of_visited hpred).2.2.2
  rw [hlabel, h.source.2.2, sum_map_one, zero_add]

include hq

/-- A walk only comes to vertices that have been visited, and is as long as their distance. -/
theorem BFSState.Inv.le_length {es : List ℕ} (hes : g.digraph.IsWalk src es v) :
    s.visited v = true ∧ s.dist v ≤ es.length := by
  have hclosed : ∀ e ∈ g.digraph.edges, g.digraph.source e ∈ {u | s.visited u = true} →
      g.digraph.target e ∈ {u | s.visited u = true} ∧
        s.dist (g.digraph.target e) ≤ s.dist (g.digraph.source e) + 1 :=
    fun e he hsource => h.taken e he hsource (by simp [hq])
  have hall := hes.feasible (w := fun _ => 1) hclosed h.source.1
  rwa [h.source.2.2, sum_map_one, zero_add] at hall

theorem BFSState.Inv.visited_iff : s.visited v = true ↔ g.digraph.Reaches src v := by
  constructor
  · intro hv
    obtain ⟨es, hes, -⟩ := h.exists_back hv
    exact ⟨es, hes.isWalk h.predsLeadTo⟩
  · rintro ⟨es, hes⟩
    exact (h.le_length hq hes).1

theorem BFSState.Inv.correct : s.Correct g src where
  ended := hq
  dist_of_reaches v hv := by
    obtain ⟨es, hes, hdist⟩ := h.exists_back ((h.visited_iff hq).mpr hv)
    refine ⟨es, hes.isWalk h.predsLeadTo, hdist, fun fs hfs => ?_⟩
    have hle := (h.le_length hq hfs).2
    omega
  dist_of_not_reaches v hv := by
    rw [← h.visited_iff hq] at hv
    exact (h.unvisited v (by simpa using hv)).2
  pred_eq_none v := by
    rw [← h.visited_iff hq]
    constructor
    · intro hnone
      by_contra hnot
      obtain ⟨hne, hv⟩ := not_or.mp hnot
      obtain ⟨e, hpred, -⟩ := h.tree v (not_not.mp hv) hne
      rw [hnone] at hpred
      cases hpred
    · rintro (rfl | hv)
      · exact h.source.2.1
      · exact (h.unvisited v (by simpa using hv)).1
  pred_eq_some v e hpred := by
    obtain ⟨he, htarget, -, hdist⟩ := h.pred_of_visited hpred
    exact ⟨he, htarget, by omega⟩
  back v hv := h.exists_back ((h.visited_iff hq).mpr hv)

end

/-- **Breadth-first search is correct** on every graph, from every source. -/
theorem breadthFirstSearch_correct (g : MNGraph D) (src : Fin g.myVertices.length) :
    (breadthFirstSearch g.toGraphData src).Correct g.toGraphData src := by
  obtain ⟨hinv, hq⟩ := inv_breadthFirstSearch g.built src.isLt
  exact hinv.correct hq

end Modelnet.Tools

import Mathlib.Algebra.Order.BigOperators.Group.List
import Mathlib.Algebra.Order.Group.Nat
import Modelnet.Lib.Doubles
import Modelnet.Tools.Buildflows

/-!
# Reading flow maps

`weight_by_flowmap` reads the file of `buildflows` into the weights of a graph. Counts are `long
long` there and `int` here, the sums are kept in doubles, and pipe 0 is not taken for the source of
a flow. So a flow map survives the file if no count is too large, no flow leaves pipe 0, and the
doubles add up.
-/

namespace Modelnet.Tools

/-- The pipes of a graph with the vertices that they lead to. -/
structure PipeGraph where
  edges : ℕ
  target : ℤ → ℕ

/-- The weights of a `weighted_graph`. The doubles are integers. -/
structure Weights where
  flowMap : ℤ → SortedMap ℤ ℤ
  eweights : ℤ → ℤ
  vweights : ℕ → ℤ
  maxEWeight : ℤ
  maxVWeight : ℤ

/-- The weights of a new graph. -/
def Weights.fresh : Weights := ⟨fun _ => ∅, fun _ => 0, fun _ => 0, 0, 0⟩

/-- The body of the inner loop. -/
def Weights.add (g : PipeGraph) (src : ℤ) (w : Weights) (dst flow : ℤ) : Weights :=
  { w with
    flowMap := if src ≠ 0 then Function.update w.flowMap src ((w.flowMap src).insert dst flow)
      else w.flowMap
    eweights := Function.update w.eweights dst (Doubles.round (w.eweights dst + flow))
    vweights := Function.update w.vweights (g.target dst)
      (Doubles.round (w.vweights (g.target dst) + flow)) }

/-- The inner loop, on the integers that the stream still gives: `numFlows` pairs, or until the
stream fails. -/
def readFlows (g : PipeGraph) (src : ℤ) : ℤ → List ℤ → Weights → List ℤ × Weights
  | numFlows, dst :: flow :: zs, w =>
    if numFlows = 0 then (dst :: flow :: zs, w)
    else readFlows g src (numFlows - 1) zs (w.add g src dst flow)
  | numFlows, zs, w => if numFlows = 0 then (zs, w) else ([], w)

/-- The outer loop. Every turn takes two integers at least. -/
def readLines (g : PipeGraph) : ℕ → List ℤ → Weights → Weights
  | n + 1, src :: numFlows :: zs, w =>
    let r := readFlows g src numFlows zs w
    readLines g n r.1 r.2
  | _, _, w => w

def weightByFlowmap (g : PipeGraph) (file : List Char) : Weights :=
  let w := readLines g (ints file).length (ints file) .fresh
  { w with
    maxEWeight := (List.range g.edges).foldl (fun m e => max m (w.eweights e)) w.maxEWeight
    maxVWeight :=
      (List.range g.edges).foldl (fun m e => max m (w.vweights (g.target e))) w.maxVWeight }

def Weights.flowAcross (w : Weights) (s t : ℤ) : ℤ := ((w.flowMap s).find? t).getD 0

/-! ## What is claimed -/

/-- The counts of the flows into a pipe, in the order of the file. -/
def FlowMap.countsInto (f : FlowMap) (q : ℤ) : List ℤ :=
  (f.flows.filter fun e => e.2.1 = q).map fun e => e.2.2

/-- The counts of the flows into the pipes that lead to a vertex. -/
def FlowMap.countsIntoVertex (g : PipeGraph) (f : FlowMap) (v : ℕ) : List ℤ :=
  (f.flows.filter fun e => g.target e.2.1 = v).map fun e => e.2.2

/-- The weights read from the printed map are its flows and their sums. -/
structure FlowMap.Survives (g : PipeGraph) (f : FlowMap) : Prop where
  flowAcross : ∀ (p : ℕ) (q : ℤ),
    (weightByFlowmap g (printFlows f)).flowAcross p q = f.count p q
  eweights : ∀ q, (weightByFlowmap g (printFlows f)).eweights q = (f.countsInto q).sum
  vweights : ∀ v, (weightByFlowmap g (printFlows f)).vweights v = (f.countsIntoVertex g v).sum

/-- No packet is counted that leaves pipe 0. -/
def FlowMap.NothingFromZero (f : FlowMap) : Prop := ∀ q, f.count 0 q = 0

/-- The sums come out right in doubles. -/
def FlowMap.SumsExact (g : PipeGraph) (f : FlowMap) : Prop :=
  (∀ q, Doubles.ExactSum (f.countsInto q)) ∧ ∀ v, Doubles.ExactSum (f.countsIntoVertex g v)

/-! ## What a file can do -/

variable {g : PipeGraph}

/-- What every turn keeps is kept by the inner loop, and nothing is read twice. -/
theorem readFlows_invariant {I : Weights → Prop} {src : ℤ}
    (hadd : ∀ w dst flow, IsInt flow → I w → I (w.add g src dst flow)) {n : ℤ} {zs : List ℤ}
    {w : Weights} (hzs : ∀ z ∈ zs, IsInt z) (hw : I w) :
    I (readFlows g src n zs w).2 ∧ ∀ z ∈ (readFlows g src n zs w).1, IsInt z := by
  fun_induction readFlows g src n zs w with
  | case1 dst flow zs w => exact ⟨hw, hzs⟩
  | case2 n dst flow zs w h ih =>
    exact ih (fun z hz => hzs z (List.mem_cons_of_mem _ (List.mem_cons_of_mem _ hz)))
      (hadd w dst flow (hzs flow (List.mem_cons_of_mem _ List.mem_cons_self)) hw)
  | case3 zs w => exact ⟨hw, hzs⟩
  | case4 n zs w => exact ⟨hw, fun z hz => absurd hz List.not_mem_nil⟩

/-- What every turn keeps is kept by the reading of a file. -/
theorem weightByFlowmap_invariant {I : Weights → Prop}
    (hadd : ∀ w src dst flow, IsInt flow → I w → I (w.add g src dst flow))
    (hmax : ∀ w m m', I w → I { w with maxEWeight := m, maxVWeight := m' })
    (hfresh : I .fresh) (file : List Char) : I (weightByFlowmap g file) := by
  have hlines : ∀ n zs w, (∀ z ∈ zs, IsInt z) → I w → I (readLines g n zs w) := by
    intro n zs w hzs hw
    fun_induction readLines g n zs w with
    | case1 n src numFlows zs w r ih =>
      obtain ⟨hw', hzs'⟩ := readFlows_invariant (fun w dst flow => hadd w src dst flow)
        (fun z hz => hzs z (List.mem_cons_of_mem _ (List.mem_cons_of_mem _ hz))) hw
      exact ih hzs' hw'
    | case2 n zs w => exact hw
  exact hmax _ _ _ (hlines _ _ _ (fun z hz => isInt_of_mem_ints hz) hfresh)

/-- The flows read into the map are of type `int`, and none of them leaves pipe 0. -/
def Weights.Read (w : Weights) : Prop :=
  w.flowMap 0 = ∅ ∧ ∀ p q z, (w.flowMap p).find? q = some z → IsInt z

theorem read_weightByFlowmap (file : List Char) : (weightByFlowmap g file).Read := by
  refine weightByFlowmap_invariant (fun w src dst flow hflow hw => ?_) (fun _ _ _ hw => hw)
    ⟨rfl, fun p q z h => by cases h⟩ file
  obtain ⟨hzero, hint⟩ := hw
  by_cases hsrc : src ≠ 0
  · have hmap : (w.add g src dst flow).flowMap =
        Function.update w.flowMap src ((w.flowMap src).insert dst flow) := if_pos hsrc
    unfold Weights.Read
    rw [hmap]
    refine ⟨by rw [Function.update_of_ne hsrc.symm, hzero], fun p q z h => ?_⟩
    by_cases hp : p = src
    · subst hp
      rw [Function.update_self] at h
      by_cases hq : q = dst
      · subst hq
        rw [SortedMap.find?_insert_self] at h
        cases h
        exact hflow
      · rw [SortedMap.find?_insert_of_ne _ _ hq] at h
        exact hint p q z h
    · rw [Function.update_of_ne hp] at h
      exact hint p q z h
  · have hmap : (w.add g src dst flow).flowMap = w.flowMap := if_neg hsrc
    unfold Weights.Read
    rw [hmap]
    exact ⟨hzero, hint⟩

/-! ## What the printed file does -/

/-- The entries of a list are added to the weights. -/
def Weights.addAll (g : PipeGraph) (w : Weights) (es : List (ℤ × ℤ × ℤ)) : Weights :=
  es.foldl (fun w e => w.add g e.1 e.2.1 e.2.2) w

theorem readFlows_row (src : ℤ) (es : List (ℤ × Int64)) (zs : List ℤ) (w : Weights) :
    readFlows g src es.length ((es.flatMap fun e => [e.1, e.2.toInt]) ++ zs) w =
      (zs, w.addAll g (es.map fun e => (src, e.1, e.2.toInt))) := by
  induction es generalizing w with
  | nil =>
    show readFlows g src 0 zs w = (zs, w)
    match zs with
    | [] => exact if_pos rfl
    | [_] => exact if_pos rfl
    | _ :: _ :: _ => exact if_pos rfl
  | cons e es ih =>
    have hlen : ((e :: es).length : ℤ) ≠ 0 := by rw [List.length_cons]; omega
    have hpred : ((e :: es).length : ℤ) - 1 = es.length := by rw [List.length_cons]; omega
    show readFlows g src (e :: es).length
      (e.1 :: e.2.toInt :: ((es.flatMap fun e => [e.1, e.2.toInt]) ++ zs)) w = _
    rw [readFlows, if_neg hlen, hpred, ih]
    rfl

/-- **The loops take the entries of the map** one after the other. -/
theorem readLines_intsFrom (f : FlowMap) (pipe n : ℕ) (w : Weights)
    (hn : (intsFrom pipe f).length ≤ n) :
    readLines g n (intsFrom pipe f) w = w.addAll g (entriesFrom pipe f) := by
  induction f generalizing pipe n w with
  | nil =>
    cases n <;> rfl
  | cons row f ih =>
    rw [intsFrom, List.length_append] at hn
    rw [intsFrom, entriesFrom]
    unfold rowInts at hn ⊢
    by_cases h : row.entries.length = 0
    · rw [if_pos h] at hn ⊢
      rw [List.length_eq_zero_iff.mp h]
      exact ih (pipe + 1) n w (by rw [List.length_nil] at hn; omega)
    · rw [if_neg h] at hn ⊢
      rw [List.length_cons] at hn
      obtain ⟨n, rfl⟩ : ∃ m, n = m + 1 := ⟨n - 1, by omega⟩
      rw [List.cons_append, List.cons_append, readLines, readFlows_row]
      dsimp only
      rw [ih (pipe + 1) n _ (by omega)]
      unfold Weights.addAll
      rw [List.foldl_append]

/-! ## The weights after the entries -/

section

variable (w : Weights) (es : List (ℤ × ℤ × ℤ))

theorem eweights_addAll (q : ℤ) : (w.addAll g es).eweights q =
    ((es.filter fun e => e.2.1 = q).map fun e => e.2.2).foldl
      (fun a x => Doubles.round (a + x)) (w.eweights q) := by
  induction es generalizing w with
  | nil => rfl
  | cons e es ih =>
    show ((w.add g e.1 e.2.1 e.2.2).addAll g es).eweights q = _
    rw [ih, List.filter_cons]
    by_cases h : e.2.1 = q
    · subst h
      rw [if_pos (decide_eq_true rfl), List.map_cons, List.foldl_cons]
      congr 1
      exact Function.update_self _ _ _
    · rw [if_neg (by rwa [decide_eq_true_iff])]
      congr 1
      exact Function.update_of_ne (Ne.symm h) _ _

theorem vweights_addAll (v : ℕ) : (w.addAll g es).vweights v =
    ((es.filter fun e => g.target e.2.1 = v).map fun e => e.2.2).foldl
      (fun a x => Doubles.round (a + x)) (w.vweights v) := by
  induction es generalizing w with
  | nil => rfl
  | cons e es ih =>
    show ((w.add g e.1 e.2.1 e.2.2).addAll g es).vweights v = _
    rw [ih, List.filter_cons]
    by_cases h : g.target e.2.1 = v
    · subst h
      rw [if_pos (decide_eq_true rfl), List.map_cons, List.foldl_cons]
      congr 1
      exact Function.update_self _ _ _
    · rw [if_neg (by rwa [decide_eq_true_iff])]
      congr 1
      exact Function.update_of_ne (Ne.symm h) _ _

end

/-- Adding an entry sets the flow between its pipes and no other. -/
theorem find?_add (w : Weights) (src dst flow p q : ℤ) :
    ((w.add g src dst flow).flowMap p).find? q =
      if src ≠ 0 ∧ p = src ∧ q = dst then some flow else (w.flowMap p).find? q := by
  by_cases hsrc : src ≠ 0
  · have hmap : (w.add g src dst flow).flowMap =
        Function.update w.flowMap src ((w.flowMap src).insert dst flow) := if_pos hsrc
    rw [hmap]
    by_cases hp : p = src
    · subst hp
      rw [Function.update_self]
      by_cases hq : q = dst
      · subst hq
        rw [SortedMap.find?_insert_self, if_pos ⟨hsrc, rfl, rfl⟩]
      · rw [SortedMap.find?_insert_of_ne _ _ hq, if_neg fun h => hq h.2.2]
    · rw [Function.update_of_ne hp, if_neg fun h => hp h.2.1]
  · have hmap : (w.add g src dst flow).flowMap = w.flowMap := if_neg hsrc
    rw [hmap, if_neg fun h => hsrc h.1]

theorem find?_addAll_of_not_mem (w : Weights) {es : List (ℤ × ℤ × ℤ)} {p q : ℤ}
    (h : ∀ c, (p, q, c) ∉ es) : ((w.addAll g es).flowMap p).find? q = (w.flowMap p).find? q := by
  induction es generalizing w with
  | nil => rfl
  | cons e es ih =>
    show (((w.add g e.1 e.2.1 e.2.2).addAll g es).flowMap p).find? q = _
    rw [ih _ fun c hc => h c (List.mem_cons_of_mem _ hc), find?_add, if_neg]
    rintro ⟨-, rfl, rfl⟩
    exact h e.2.2 List.mem_cons_self

/-- When no two entries lead from one pipe to one other, the flows are those of the entries. -/
theorem find?_addAll (w : Weights) {es : List (ℤ × ℤ × ℤ)}
    (hes : es.Pairwise fun e e' => (e.1, e.2.1) ≠ (e'.1, e'.2.1)) {p q c : ℤ} (hp : p ≠ 0)
    (h : (p, q, c) ∈ es) : ((w.addAll g es).flowMap p).find? q = some c := by
  induction es generalizing w with
  | nil => exact absurd h List.not_mem_nil
  | cons e es ih =>
    obtain ⟨hhead, htail⟩ := List.pairwise_cons.mp hes
    show (((w.add g e.1 e.2.1 e.2.2).addAll g es).flowMap p).find? q = _
    rcases List.mem_cons.mp h with rfl | h
    · rw [find?_addAll_of_not_mem _ fun c' hc' => hhead _ hc' rfl, find?_add,
        if_pos ⟨hp, rfl, rfl⟩]
    · exact ih _ htail h

/-! ## The entries of a map -/

theorem mem_entriesFrom {f : FlowMap} {pipe : ℕ} {p q c : ℤ} :
    (p, q, c) ∈ entriesFrom pipe f ↔ ∃ (i : ℕ) (row : SortedMap ℤ Int64), f[i]? = some row ∧ p = pipe + i ∧
      ∃ n : Int64, (q, n) ∈ row.entries ∧ n.toInt = c := by
  induction f generalizing pipe with
  | nil => simp [entriesFrom]
  | cons row f ih =>
    rw [entriesFrom, List.mem_append, ih]
    constructor
    · rintro (h | ⟨i, row', hrow, rfl, h⟩)
      · obtain ⟨e, he, heq⟩ := List.mem_map.mp h
        cases heq
        exact ⟨0, row, rfl, by omega, e.2, he, rfl⟩
      · exact ⟨i + 1, row', hrow, by omega, h⟩
    · rintro ⟨i, row', hrow, hp, n, hn, rfl⟩
      cases i with
      | zero =>
        cases hrow
        refine Or.inl (List.mem_map.mpr ⟨(q, n), hn, ?_⟩)
        rw [hp, Int.natCast_zero, Int.add_zero]
      | succ i => exact Or.inr ⟨i, row', hrow, by omega, n, hn, rfl⟩

theorem pairwise_entriesFrom (f : FlowMap) (pipe : ℕ) :
    (entriesFrom pipe f).Pairwise fun e e' => (e.1, e.2.1) ≠ (e'.1, e'.2.1) := by
  induction f generalizing pipe with
  | nil => exact List.Pairwise.nil
  | cons row f ih =>
    refine List.pairwise_append.mpr ⟨List.pairwise_map.mpr (row.sorted.imp ?_), ih _, ?_⟩
    · intro e e' hlt heq
      exact absurd (Prod.mk.inj heq).2 hlt.ne
    · intro e he e' he' heq
      obtain ⟨x, -, rfl⟩ := List.mem_map.mp he
      obtain ⟨i, _, -, hp, -⟩ := mem_entriesFrom.mp (show (e'.1, e'.2.1, e'.2.2) ∈ _ from he')
      have hpipe := (Prod.mk.inj heq).1
      dsimp only at hpipe
      omega

theorem count_eq_of_mem {f : FlowMap} {p : ℕ} {q c : ℤ} (h : ((p : ℤ), q, c) ∈ f.flows) :
    f.count p q = c := by
  obtain ⟨i, row, hrow, hp, n, hn, rfl⟩ := mem_entriesFrom.mp h
  have hi : i = p := by omega
  subst hi
  unfold FlowMap.count
  rw [hrow, Option.bind_some, SortedMap.find?_eq_some.mpr hn]
  rfl

theorem count_eq_zero_of_not_mem {f : FlowMap} {p : ℕ} {q : ℤ}
    (h : ∀ c, ((p : ℤ), q, c) ∉ f.flows) : f.count p q = 0 := by
  unfold FlowMap.count
  cases hrow : f[p]? with
  | none => rfl
  | some row =>
    rw [Option.bind_some]
    cases hn : row.find? q with
    | none => rfl
    | some n =>
      have hmem : ((p : ℤ), q, n.toInt) ∈ f.flows := mem_entriesFrom.mpr
        ⟨p, row, hrow, (Int.zero_add _).symm, n, SortedMap.find?_eq_some.mp hn, rfl⟩
      exact absurd hmem (h _)

/-! ## Which maps survive -/

section

variable {numPipes : ℕ} {f : FlowMap}

theorem weights_of_countsFit (hf : f.InPipes numPipes) (hn : numPipes + 1 < 2 ^ 31)
    (hfit : f.CountsFit) : readLines g (ints (printFlows f)).length (ints (printFlows f)) .fresh =
      Weights.fresh.addAll g f.flows := by
  have hints : ints (printFlows f) = intsFrom 0 f := by
    rw [ints_printFlows]
    exact List.takeWhile_eq_self_iff.mpr fun z hz => decide_eq_true (hf.isInt hn hfit z hz)
  rw [hints, readLines_intsFrom f 0 _ _ (Nat.le_refl _)]
  rfl

theorem flowAcross_of_countsFit (hf : f.InPipes numPipes) (hn : numPipes + 1 < 2 ^ 31)
    (hfit : f.CountsFit) {p : ℕ} (hp : p ≠ 0) (q : ℤ) :
    (weightByFlowmap g (printFlows f)).flowAcross p q = f.count p q := by
  unfold Weights.flowAcross weightByFlowmap
  dsimp only
  rw [weights_of_countsFit hf hn hfit]
  by_cases h : ∃ c, ((p : ℤ), q, c) ∈ f.flows
  · obtain ⟨c, hc⟩ := h
    have hpair : f.flows.Pairwise fun e e' => (e.1, e.2.1) ≠ (e'.1, e'.2.1) :=
      pairwise_entriesFrom f 0
    rw [find?_addAll _ hpair (by omega) hc, count_eq_of_mem hc]
    rfl
  · have hnone : ∀ c, ((p : ℤ), q, c) ∉ f.flows := fun c hc => h ⟨c, hc⟩
    rw [find?_addAll_of_not_mem _ hnone, count_eq_zero_of_not_mem hnone]
    rfl

theorem flowAcross_zero (file : List Char) (q : ℤ) :
    (weightByFlowmap g file).flowAcross 0 q = 0 := by
  unfold Weights.flowAcross
  rw [(read_weightByFlowmap file).1]
  rfl

/-- The sums of the weights are those of the counts exactly if these add up in doubles. -/
theorem sums_of_countsFit (hf : f.InPipes numPipes) (hn : numPipes + 1 < 2 ^ 31)
    (hfit : f.CountsFit) :
    (∀ q, (weightByFlowmap g (printFlows f)).eweights q = Doubles.sum (f.countsInto q)) ∧
      ∀ v, (weightByFlowmap g (printFlows f)).vweights v =
        Doubles.sum (f.countsIntoVertex g v) := by
  unfold weightByFlowmap
  dsimp only
  rw [weights_of_countsFit hf hn hfit]
  exact ⟨fun q => eweights_addAll _ _ q, fun v => vweights_addAll _ _ v⟩

theorem countsFit_of_survives (h : f.Survives g) : f.CountsFit := by
  intro row hrow e he
  obtain ⟨p, hp, hget⟩ := List.getElem_of_mem hrow
  have hmem : ((p : ℤ), e.1, e.2.toInt) ∈ f.flows := mem_entriesFrom.mpr
    ⟨p, row, by rw [List.getElem?_eq_getElem hp, hget], (Int.zero_add _).symm, e.2, he, rfl⟩
  have hback := h.flowAcross p e.1
  rw [count_eq_of_mem hmem] at hback
  unfold Weights.flowAcross at hback
  cases hfind : ((weightByFlowmap g (printFlows f)).flowMap p).find? e.1 with
  | none =>
    rw [hfind] at hback
    rw [← hback]
    exact ⟨by decide, by decide⟩
  | some z =>
    rw [hfind] at hback
    rw [← hback]
    exact (read_weightByFlowmap _).2 _ _ _ hfind

/-- **Flow maps.** A flow map that `buildFlows` makes survives the file if and only if every count
is an `int`, nothing is counted that leaves pipe 0, and the sums come out right in doubles. -/
theorem survives_iff {ipMap : UInt32 → ℤ} {routes : ℤ → ℤ → List ℤ}
    {logs : List (Option (List LogRecord))} (hn : numPipes + 1 < 2 ^ 31)
    (hroutes : OverPipes numPipes routes) (h : buildFlows ipMap routes numPipes logs = some f)
    (g : PipeGraph) :
    f.Survives g ↔ f.CountsFit ∧ f.NothingFromZero ∧ f.SumsExact g := by
  have hf := inPipes_buildFlows hroutes h
  constructor
  · intro hs
    have hfit := countsFit_of_survives hs
    obtain ⟨hedges, hvertices⟩ := sums_of_countsFit (g := g) hf hn hfit
    refine ⟨hfit, fun q => ?_, fun q => ?_, fun v => ?_⟩
    · rw [← hs.flowAcross 0 q]
      exact flowAcross_zero _ q
    · exact (hedges q).symm.trans (hs.eweights q)
    · exact (hvertices v).symm.trans (hs.vweights v)
  · rintro ⟨hfit, hzero, hsums⟩
    obtain ⟨hedges, hvertices⟩ := sums_of_countsFit (g := g) hf hn hfit
    refine ⟨fun p q => ?_, fun q => (hedges q).trans (hsums.1 q),
      fun v => (hvertices v).trans (hsums.2 v)⟩
    by_cases hp : p = 0
    · subst hp
      rw [hzero q]
      exact flowAcross_zero _ q
    · exact flowAcross_of_countsFit hf hn hfit hp q

/-- The sums come out right if all counts together stay below `2 ^ 53`. -/
theorem sumsExact_of_le (g : PipeGraph) (h : (f.flows.map fun e => e.2.2.natAbs).sum ≤ 2 ^ 53) :
    f.SumsExact g := by
  have hsub : ∀ p : ℤ × ℤ × ℤ → Bool,
      Doubles.ExactSum ((f.flows.filter p).map fun e => e.2.2) := by
    intro p
    refine Doubles.exactSum_of_le (le_trans ?_ h)
    rw [List.map_map]
    exact (List.filter_sublist.map _).sum_le_sum fun _ _ => Nat.zero_le _
  exact ⟨fun _ => hsub _, fun _ => hsub _⟩

end

/-! ## Two maps -/

/-- The node with address 1 is node 0, every other one is node 1. -/
def twoNodes (ip : UInt32) : ℤ := if ip = 1 then 0 else 1

/-- One route, from node 0 to node 1. -/
def oneRoute (route : List ℤ) (src dst : ℤ) : List ℤ := if src = 0 ∧ dst = 1 then route else []

/-- A log with five packets from node 0 to node 1. -/
def fivePackets : List (Option (List LogRecord)) :=
  [some [.routeStats [⟨htonl 1, htonl 2, 5⟩]]]

theorem overPipes_oneRoute {numPipes : ℕ} {route : List ℤ}
    (h : ∀ p ∈ route, 0 ≤ p ∧ p ≤ numPipes) : OverPipes numPipes (oneRoute route) := by
  intro src dst p hp
  unfold oneRoute at hp
  split_ifs at hp
  · exact h p hp
  · exact absurd hp List.not_mem_nil

/-- What the log makes of a route over pipes 1 and 2, and of one over pipes 0 and 1. -/
theorem buildFlows_fivePackets :
    buildFlows twoNodes (oneRoute [1, 2]) 2 fivePackets = some [∅, SortedMap.insert ∅ 2 5, ∅] ∧
      buildFlows twoNodes (oneRoute [0, 1]) 1 fivePackets = some [SortedMap.insert ∅ 1 5, ∅] :=
  ⟨by decide +kernel, by decide +kernel⟩

/-- The theorem on five packets that go from pipe 1 to pipe 2. -/
theorem survives_fivePackets :
    FlowMap.Survives ⟨3, fun q => q.toNat⟩ [∅, SortedMap.insert ∅ 2 5, ∅] := by
  refine (survives_iff (by decide) (overPipes_oneRoute (by decide)) buildFlows_fivePackets.1 _).mpr
    ⟨?_, fun q => rfl, sumsExact_of_le _ (by decide +kernel)⟩
  unfold FlowMap.CountsFit
  decide +kernel

/-- Five packets from pipe 0 to pipe 1 are lost. -/
theorem not_survives_fivePackets :
    buildFlows twoNodes (oneRoute [0, 1]) 1 fivePackets = some [SortedMap.insert ∅ 1 5, ∅] ∧
      ¬ FlowMap.Survives ⟨2, fun q => q.toNat⟩ [SortedMap.insert ∅ 1 5, ∅] := by
  refine ⟨buildFlows_fivePackets.2, fun h => ?_⟩
  have hcount : FlowMap.count [SortedMap.insert ∅ 1 5, ∅] 0 1 = 5 := by decide +kernel
  have hback := h.flowAcross 0 1
  rw [hcount] at hback
  exact absurd (hback.symm.trans (flowAcross_zero _ 1)) (by decide)

end Modelnet.Tools

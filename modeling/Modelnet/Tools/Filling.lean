import Mathlib.Algebra.Order.BigOperators.Group.List
import Mathlib.Algebra.Order.Field.Rat
import Mathlib.Tactic.Ring
import Modelnet.Lib.FoldMin
import Modelnet.Tools.FlowLists

/-!
# Progressive filling

The loop of `weight_by_pattern`: all flows grow at the same pace until a client or a pipe is full,
whose flows are then frozen. Every turn freezes a flow (`fill_terminates`). What a client has left is
computed anew in each turn; for a pipe the loop takes all of its room each time, also when flows that
are frozen use some of it (`fill_respects_iff`).
-/

namespace Modelnet.Tools

/-! ## Sums over flows -/

/-- `stepFactor*bandwidth` of a flow. -/
def paceOf (flows : List Flow) (i : ℕ) : ℚ :=
  (flows[i]?.map fun f => f.stepFactor * f.bandwidth).getD 0

def rateOf (flows : List Flow) (i : ℕ) : ℚ := (flows[i]?.map Flow.sendRate).getD 0

/-- What some flows want for a whole step. -/
def demand (flows : List Flow) (is : List ℕ) : ℚ := (is.map (paceOf flows)).sum

/-- What some flows send. -/
def totalRate (flows : List Flow) (is : List ℕ) : ℚ := (is.map (rateOf flows)).sum

/-- `f->sendRate+=f->bandwidth*f->stepFactor*nextStep`. -/
def Flow.grow (nextStep : ℚ) (f : Flow) : Flow :=
  { f with sendRate := f.sendRate + f.bandwidth * f.stepFactor * nextStep }

/-- `f->stepFactor=0` for some flows. -/
def freeze (flows : List Flow) (is : List ℕ) : List Flow :=
  is.foldl (fun flows i => flows.modify i fun f => { f with stepFactor := 0 }) flows

/-! ## The loop -/

/-- The variables of the loop. -/
structure Filling where
  flows : List Flow
  activeEdges : List ℕ
  step : ℚ
  fullClients : ℕ

section

variable (g : GraphData ℚ) (clients : List ℕ) (users : ℕ → List PipeUser)

def usersOf (e : ℕ) : List ℕ := (users e).map PipeUser.f

/-- `room[e]`. -/
def roomOf (e : ℕ) : ℚ := if users e = [] then 0 else g.kbps e

/-- `sendRate[v]` of a client: the room of the first edge that has some. -/
def sendRateOf (v : ℕ) : ℚ :=
  (((g.outEdges v).find? fun e => roomOf g users e ≠ 0).map (roomOf g users)).getD 0

def Filling.init (flows : List Flow) : Filling where
  flows := flows
  activeEdges := (List.range g.myEdges.length).filter fun e => users e ≠ []
  step := 0
  fullClients := 0

/-- `roomLeft / req`, for a client whose flows grow. -/
def clientRatio (flows : List Flow) (v : ℕ) : Option ℚ :=
  let req := demand flows (flowsFor flows v)
  let curr := totalRate flows (flowsFor flows v)
  if req = 0 then none else some ((sendRateOf g users v - curr) / req)

/-- `room[e] / flowStep`, for a pipe whose flows grow. -/
def pipeRatio (flows : List Flow) (e : ℕ) : Option ℚ :=
  let flowStep := demand flows (usersOf users e)
  if flowStep = 0 then none else some (roomOf g users e / flowStep)

/-- `minClientStep` and `filledClients`. -/
def minClient (s : Filling) : ℚ × List ℕ := clients.foldTies (clientRatio g users s.flows) 10000

/-- `minPipeStep` and `filledPipes`. -/
def minPipe (s : Filling) : ℚ × List ℕ := s.activeEdges.foldTies (pipeRatio g users s.flows) 10000

def nextStep (s : Filling) : ℚ :=
  min (1 - s.step) (min (minClient g clients users s).1 (minPipe g users s).1)

/-- The loop `while (step<1.0)`. -/
def fillTurn (s : Filling) : Loop.Turn Filling :=
  if s.step < 1 then
    if (minPipe g users s).2 = [] ∨ s.fullClients = clients.length ∨ s.activeEdges = [] then
      .finished
    else
      let flows := s.flows.map (Flow.grow (nextStep g clients users s))
      if (minClient g clients users s).1 < (minPipe g users s).1 then .next
        { s with
          flows := freeze flows ((minClient g clients users s).2.flatMap (flowsFor flows))
          step := s.step + nextStep g clients users s
          fullClients := s.fullClients + (minClient g clients users s).2.length }
      else .next
        { s with
          flows := freeze flows ((minPipe g users s).2.flatMap (usersOf users))
          activeEdges := s.activeEdges.filter fun e => e ∉ (minPipe g users s).2
          step := s.step + nextStep g clients users s }
  else .finished

end

def growing (flows : List Flow) : Finset ℕ :=
  (Finset.range flows.length).filter fun i => paceOf flows i ≠ 0

/-! ## Growing and freezing -/

section

variable {flows flows' : List Flow} {is js : List ℕ} {d : ℚ} {i : ℕ}

theorem getElem?_freeze (flows : List Flow) (is : List ℕ) (i : ℕ) :
    (freeze flows is)[i]? =
      flows[i]?.map fun f => if i ∈ is then { f with stepFactor := 0 } else f := by
  unfold freeze
  induction is generalizing flows with
  | nil => simp
  | cons a is ih =>
    rw [List.foldl_cons, ih, List.getElem?_modify]
    by_cases ha : a = i
    · subst ha
      cases flows[a]? <;> simp
    · cases flows[i]? <;> simp [ha, Ne.symm ha]

def sourceOf (flows : List Flow) (i : ℕ) : Option ℕ := flows[i]?.map Flow.source

theorem length_congr (h : ∀ i, sourceOf flows' i = sourceOf flows i) :
    flows'.length = flows.length := by
  have hiff : ∀ i, flows'.length ≤ i ↔ flows.length ≤ i := by
    intro i
    rw [← List.getElem?_eq_none_iff, ← List.getElem?_eq_none_iff,
      ← Option.map_eq_none_iff (f := Flow.source), ← Option.map_eq_none_iff (f := Flow.source)]
    exact Eq.congr_left (h i)
  exact le_antisymm ((hiff _).mpr le_rfl) ((hiff _).mp le_rfl)

theorem flowsFor_congr (h : ∀ i, sourceOf flows' i = sourceOf flows i) (v : ℕ) :
    flowsFor flows' v = flowsFor flows v := by
  unfold flowsFor
  rw [length_congr h]
  refine List.filter_congr fun i _ => ?_
  rw [decide_eq_decide]
  exact Eq.congr_left (h i)

/-- What a turn does to the flows. -/
structure Grown (d : ℚ) (is : List ℕ) (flows flows' : List Flow) : Prop where
  get : ∀ i : ℕ, flows'[i]? = flows[i]?.map fun f =>
    if i ∈ is then { f.grow d with stepFactor := 0 } else f.grow d

theorem grown_freeze (d : ℚ) (is : List ℕ) (flows : List Flow) :
    Grown d is flows (freeze (flows.map (Flow.grow d)) is) := by
  refine ⟨fun i => ?_⟩
  rw [getElem?_freeze, List.getElem?_map]
  cases flows[i]? <;> rfl

namespace Grown

variable (h : Grown d is flows flows')

include h

theorem pace (i : ℕ) : paceOf flows' i = if i ∈ is then 0 else paceOf flows i := by
  unfold paceOf
  rw [h.get]
  cases flows[i]? with
  | none => simp
  | some f =>
    by_cases hi : i ∈ is
    · simp [hi]
    · simp [hi, Flow.grow]

theorem rate (i : ℕ) : rateOf flows' i = rateOf flows i + paceOf flows i * d := by
  unfold rateOf paceOf
  rw [h.get]
  cases flows[i]? with
  | none => simp
  | some f =>
    have hgrow : (f.grow d).sendRate = f.sendRate + f.stepFactor * f.bandwidth * d := by
      dsimp only [Flow.grow]
      ring
    by_cases hi : i ∈ is
    · simpa [hi] using hgrow
    · simpa [hi] using hgrow

theorem sourceOf_eq (i : ℕ) : sourceOf flows' i = sourceOf flows i := by
  unfold sourceOf
  rw [h.get, Option.map_map]
  refine Option.map_congr fun f _ => ?_
  by_cases hi : i ∈ is
  · simp [hi, Flow.grow]
  · simp [hi, Flow.grow]

theorem length_eq : flows'.length = flows.length := length_congr h.sourceOf_eq

theorem flowsFor_eq (v : ℕ) : flowsFor flows' v = flowsFor flows v := flowsFor_congr h.sourceOf_eq v

theorem totalRate_eq (js : List ℕ) :
    totalRate flows' js = totalRate flows js + demand flows js * d := by
  unfold totalRate demand
  induction js with
  | nil => simp
  | cons j js ih =>
    rw [List.map_cons, List.map_cons, List.map_cons, List.sum_cons, List.sum_cons, List.sum_cons,
      ih, h.rate]
    ring

theorem growing_eq : growing flows' = (growing flows).filter fun i => i ∉ is := by
  ext i
  unfold growing
  rw [h.length_eq]
  simp only [Finset.mem_filter, h.pace]
  by_cases hi : i ∈ is
  · simp [hi]
  · simp [hi]

end Grown

theorem exists_growing_of_demand (h : demand flows js ≠ 0) : ∃ i ∈ js, i ∈ growing flows := by
  by_contra hnone
  refine h (List.sum_eq_zero fun x hx => ?_)
  obtain ⟨i, hi, rfl⟩ := List.mem_map.mp hx
  by_contra hpace
  refine hnone ⟨i, hi, Finset.mem_filter.mpr ⟨Finset.mem_range.mpr ?_, hpace⟩⟩
  by_contra hlt
  refine hpace ?_
  unfold paceOf
  rw [List.getElem?_eq_none (by omega)]
  rfl

/-- Flows that do not want less than nothing. -/
def NonNeg (flows : List Flow) : Prop := ∀ f ∈ flows, 0 ≤ f.bandwidth ∧ 0 ≤ f.stepFactor

theorem NonNeg.demand_nonneg (h : NonNeg flows) (js : List ℕ) : 0 ≤ demand flows js := by
  refine List.sum_nonneg fun x hx => ?_
  obtain ⟨i, -, rfl⟩ := List.mem_map.mp hx
  unfold paceOf
  cases hf : flows[i]? with
  | none => exact le_rfl
  | some f =>
    obtain ⟨hbw, hfactor⟩ := h f (List.mem_of_getElem? hf)
    exact mul_nonneg hfactor hbw

theorem NonNeg.grown (h : NonNeg flows) (hgrown : Grown d is flows flows') : NonNeg flows' := by
  intro f' hf'
  obtain ⟨i, hi⟩ := List.getElem?_of_mem hf'
  rw [hgrown.get] at hi
  obtain ⟨f, hf, rfl⟩ := Option.map_eq_some_iff.mp hi
  obtain ⟨hbw, hfactor⟩ := h f (List.mem_of_getElem? hf)
  split_ifs
  · exact ⟨hbw, le_rfl⟩
  · exact ⟨hbw, hfactor⟩

end

/-! ## One turn -/

section

variable {g : GraphData ℚ} {clients : List ℕ} {users : ℕ → List PipeUser} {s s' : Filling}
  {flows : List Flow} {v e : ℕ} {x : ℚ}

theorem clientRatio_eq_some : clientRatio g users flows v = some x ↔
    demand flows (flowsFor flows v) ≠ 0 ∧
      (sendRateOf g users v - totalRate flows (flowsFor flows v)) /
        demand flows (flowsFor flows v) = x := by
  unfold clientRatio
  by_cases hreq : demand flows (flowsFor flows v) = 0
  · simp [hreq]
  · simp [hreq]

theorem pipeRatio_eq_some : pipeRatio g users flows e = some x ↔
    demand flows (usersOf users e) ≠ 0 ∧ roomOf g users e / demand flows (usersOf users e) = x := by
  unfold pipeRatio
  by_cases hreq : demand flows (usersOf users e) = 0
  · simp [hreq]
  · simp [hreq]

def frozenBy (g : GraphData ℚ) (clients : List ℕ) (users : ℕ → List PipeUser) (s : Filling) :
    List ℕ :=
  if (minClient g clients users s).1 < (minPipe g users s).1 then
    (minClient g clients users s).2.flatMap (flowsFor s.flows)
  else (minPipe g users s).2.flatMap (usersOf users)

theorem cases_of_fillTurn (h : fillTurn g clients users s = .next s') :
    s.step < 1 ∧ (minPipe g users s).2 ≠ [] ∧ s'.step = s.step + nextStep g clients users s ∧
      Grown (nextStep g clients users s) (frozenBy g clients users s) s.flows s'.flows ∧
      s'.activeEdges ⊆ s.activeEdges := by
  have hgrown := grown_freeze (nextStep g clients users s) [] s.flows
  have hsame : flowsFor (s.flows.map (Flow.grow (nextStep g clients users s))) = flowsFor s.flows :=
    funext hgrown.flowsFor_eq
  unfold fillTurn at h
  split_ifs at h with hstep hstop hless
  · cases h
    rw [not_or] at hstop
    refine ⟨hstep, hstop.1, rfl, ?_, fun e he => he⟩
    unfold frozenBy
    rw [if_pos hless, hsame]
    exact grown_freeze _ _ _
  · cases h
    rw [not_or] at hstop
    refine ⟨hstep, hstop.1, rfl, ?_, fun e he => (List.mem_filter.mp he).1⟩
    unfold frozenBy
    rw [if_neg hless]
    exact grown_freeze _ _ _

theorem fillTurn_ne_fault (s : Filling) : fillTurn g clients users s ≠ .fault := by
  unfold fillTurn
  split_ifs <;> simp

theorem exists_minPipe (h : (minPipe g users s).2 ≠ []) :
    ∃ e ∈ (minPipe g users s).2, e ∈ s.activeEdges ∧ demand s.flows (usersOf users e) ≠ 0 ∧
      roomOf g users e / demand s.flows (usersOf users e) = (minPipe g users s).1 := by
  have hpipes := List.isFoldTies (pipeRatio g users s.flows) 10000 s.activeEdges
  obtain ⟨e, hmem⟩ := List.exists_mem_of_ne_nil _ h
  obtain ⟨he, hratio⟩ := hpipes.mem_iff.mp hmem
  exact ⟨e, hmem, he, pipeRatio_eq_some.mp hratio⟩

/-- **A turn freezes a flow that grows.** -/
theorem exists_frozen (h : (minPipe g users s).2 ≠ []) :
    ∃ i ∈ frozenBy g clients users s, i ∈ growing s.flows := by
  have hpipes := List.isFoldTies (pipeRatio g users s.flows) 10000 s.activeEdges
  have hclients := List.isFoldTies (clientRatio g users s.flows) 10000 clients
  unfold frozenBy
  split_ifs with hless
  · have hne : (minClient g clients users s).1 ≠ 10000 := (hless.trans_le hpipes.le_start).ne
    obtain ⟨v, hv, hratio⟩ := hclients.attained.resolve_left hne
    obtain ⟨i, hi, hgrowing⟩ := exists_growing_of_demand (clientRatio_eq_some.mp hratio).1
    have hmem : v ∈ (minClient g clients users s).2 := hclients.mem_iff.mpr ⟨hv, hratio⟩
    exact ⟨i, List.mem_flatMap.mpr ⟨v, hmem, hi⟩, hgrowing⟩
  · obtain ⟨e, hmem, -, hdemand, -⟩ := exists_minPipe h
    obtain ⟨i, hi, hgrowing⟩ := exists_growing_of_demand hdemand
    exact ⟨i, List.mem_flatMap.mpr ⟨e, hmem, hi⟩, hgrowing⟩

theorem growing_ssubset (h : fillTurn g clients users s = .next s') :
    growing s'.flows ⊂ growing s.flows := by
  obtain ⟨-, hpipes, -, hgrown, -⟩ := cases_of_fillTurn h
  obtain ⟨i, hi, hgrowing⟩ :
      ∃ i ∈ frozenBy g clients users s, i ∈ growing s.flows := exists_frozen hpipes
  rw [hgrown.growing_eq]
  refine Finset.filter_ssubset.mpr ⟨i, hgrowing, not_not.mpr hi⟩

structure Filling.Inv (g : GraphData ℚ) (clients : List ℕ) (users : ℕ → List PipeUser)
    (s : Filling) : Prop where
  nonneg : NonNeg s.flows
  step : 0 ≤ s.step ∧ s.step ≤ 1
  active : ∀ e ∈ s.activeEdges, e < g.myEdges.length
  clients : ∀ v ∈ clients, totalRate s.flows (flowsFor s.flows v) ≤ sendRateOf g users v

theorem roomOf_nonneg (hkbps : ∀ e < g.myEdges.length, 0 ≤ g.kbps e) (he : e < g.myEdges.length) :
    0 ≤ roomOf g users e := by
  unfold roomOf
  split_ifs
  · exact le_rfl
  · exact hkbps e he

theorem sendRateOf_nonneg (hkbps : ∀ e < g.myEdges.length, 0 ≤ g.kbps e) (v : ℕ) :
    0 ≤ sendRateOf g users v := by
  unfold sendRateOf
  cases hfind : (g.outEdges v).find? fun e => roomOf g users e ≠ 0 with
  | none => exact le_rfl
  | some e =>
    exact roomOf_nonneg hkbps (mem_outEdges.mp (List.mem_of_find?_eq_some hfind)).1

namespace Filling.Inv

variable (h : s.Inv g clients users)

include h

theorem minClient_nonneg : 0 ≤ (minClient g clients users s).1 := by
  have hclients := List.isFoldTies (clientRatio g users s.flows) 10000 clients
  rcases hclients.attained with heq | ⟨v, hv, hratio⟩
  · unfold minClient
    rw [heq]
    decide
  · obtain ⟨-, heq⟩ := clientRatio_eq_some.mp hratio
    unfold minClient
    rw [← heq]
    exact div_nonneg (sub_nonneg.mpr (h.clients v hv)) (h.nonneg.demand_nonneg _)

theorem minPipe_nonneg (hkbps : ∀ e < g.myEdges.length, 0 ≤ g.kbps e) :
    0 ≤ (minPipe g users s).1 := by
  have hpipes := List.isFoldTies (pipeRatio g users s.flows) 10000 s.activeEdges
  rcases hpipes.attained with heq | ⟨e, he, hratio⟩
  · unfold minPipe
    rw [heq]
    decide
  · obtain ⟨-, heq⟩ := pipeRatio_eq_some.mp hratio
    unfold minPipe
    rw [← heq]
    exact div_nonneg (roomOf_nonneg hkbps (h.active e he)) (h.nonneg.demand_nonneg _)

theorem nextStep_nonneg (hkbps : ∀ e < g.myEdges.length, 0 ≤ g.kbps e) :
    0 ≤ nextStep g clients users s :=
  le_min (sub_nonneg.mpr h.step.2) (le_min h.minClient_nonneg (h.minPipe_nonneg hkbps))

omit h in
theorem nextStep_mul_le (hv : v ∈ clients) (hreq : 0 < demand s.flows (flowsFor s.flows v)) :
    demand s.flows (flowsFor s.flows v) * nextStep g clients users s ≤
      sendRateOf g users v - totalRate s.flows (flowsFor s.flows v) := by
  have hclients := List.isFoldTies (clientRatio g users s.flows) 10000 clients
  have hle : nextStep g clients users s ≤
      (sendRateOf g users v - totalRate s.flows (flowsFor s.flows v)) /
        demand s.flows (flowsFor s.flows v) :=
    (min_le_right _ _).trans ((min_le_left _ _).trans
      (hclients.le v hv _ (clientRatio_eq_some.mpr ⟨hreq.ne', rfl⟩)))
  rwa [le_div_iff₀ hreq, mul_comm] at hle

theorem next (hkbps : ∀ e < g.myEdges.length, 0 ≤ g.kbps e)
    (hturn : fillTurn g clients users s = .next s') : s'.Inv g clients users := by
  obtain ⟨hlt, -, hstep, hgrown, hactive⟩ := cases_of_fillTurn hturn
  have hnonneg := h.nextStep_nonneg hkbps
  refine ⟨h.nonneg.grown hgrown, ⟨?_, ?_⟩, fun e he => h.active e (hactive he), fun v hv => ?_⟩
  · rw [hstep]
    exact add_nonneg h.step.1 hnonneg
  · have hle : nextStep g clients users s ≤ 1 - s.step := min_le_left _ _
    rw [hstep]
    exact (add_le_add_right hle s.step).trans (by rw [add_sub_cancel])
  · rw [hgrown.flowsFor_eq, hgrown.totalRate_eq]
    rcases (h.nonneg.demand_nonneg (flowsFor s.flows v)).eq_or_lt with hzero | hpos
    · rw [← hzero, zero_mul, add_zero]
      exact h.clients v hv
    · exact le_sub_iff_add_le'.mp (nextStep_mul_le hv hpos)

end Filling.Inv

/-! ## All turns -/

def Flow.Fresh (f : Flow) : Prop := 0 ≤ f.bandwidth ∧ 0 ≤ f.stepFactor ∧ f.sendRate = 0

theorem totalRate_fresh (h : ∀ f ∈ flows, f.Fresh) (js : List ℕ) : totalRate flows js = 0 := by
  refine List.sum_eq_zero fun x hx => ?_
  obtain ⟨i, -, rfl⟩ := List.mem_map.mp hx
  unfold rateOf
  cases hf : flows[i]? with
  | none => rfl
  | some f => exact (h f (List.mem_of_getElem? hf)).2.2

theorem Filling.inv_init (hkbps : ∀ e < g.myEdges.length, 0 ≤ g.kbps e)
    (hflows : ∀ f ∈ flows, f.Fresh) : (Filling.init g users flows).Inv g clients users := by
  refine ⟨fun f hf => ⟨(hflows f hf).1, (hflows f hf).2.1⟩, ⟨le_rfl, zero_le_one⟩,
    fun e he => List.mem_range.mp (List.mem_filter.mp he).1, fun v _ => ?_⟩
  rw [show (Filling.init g users flows).flows = flows from rfl, totalRate_fresh hflows]
  exact sendRateOf_nonneg hkbps v

theorem fill_variant (hkbps : ∀ e < g.myEdges.length, 0 ≤ g.kbps e) :
    Loop.Variant (fillTurn g clients users) (Filling.Inv g clients users)
      fun s => (growing s.flows).card where
  pos s _ hne := by
    cases hturn : fillTurn g clients users s with
    | finished => exact absurd hturn hne
    | fault => exact absurd hturn (fillTurn_ne_fault s)
    | next s' => exact Nat.zero_lt_of_lt (Finset.card_lt_card (growing_ssubset hturn))
  next s s' hinv hturn := ⟨hinv.next hkbps hturn, Finset.card_lt_card (growing_ssubset hturn)⟩

theorem exists_filled (hkbps : ∀ e < g.myEdges.length, 0 ≤ g.kbps e)
    (hflows : ∀ f ∈ flows, f.Fresh) :
    ∃ s, Loop.run (fillTurn g clients users) (growing flows).card (Filling.init g users flows) =
      .finished s ∧ s.Inv g clients users ∧ fillTurn g clients users s = .finished :=
  (fill_variant hkbps).exists_finished (fun s _ => fillTurn_ne_fault s)
    (Filling.inv_init hkbps hflows) le_rfl

end

/-- **The loop ends** after as many turns as flows grow at most, and once more through its tests.
Every turn freezes a flow that grows, and takes no negative step. -/
theorem fill_terminates (g : MNGraph ℚ) (clients : List ℕ) (users : ℕ → List PipeUser)
    (flows : List Flow) (hkbps : ∀ e < g.myEdges.length, 0 ≤ g.kbps e)
    (hflows : ∀ f ∈ flows, f.Fresh) :
    (∃ s, Loop.run (fillTurn g.toGraphData clients users) (growing flows).card
      (Filling.init g.toGraphData users flows) = .finished s) ∧
    ∀ s s', Loop.Visits (fillTurn g.toGraphData clients users)
        (Filling.init g.toGraphData users flows) s →
      fillTurn g.toGraphData clients users s = .next s' →
      growing s'.flows ⊂ growing s.flows ∧ s.step ≤ s'.step := by
  obtain ⟨s, hrun, -⟩ := exists_filled hkbps hflows
  refine ⟨⟨s, hrun⟩, fun s₁ s₂ hvisits hturn => ⟨growing_ssubset hturn, ?_⟩⟩
  have hinv : s₁.Inv g.toGraphData clients users :=
    hvisits.inv (fun _ _ hinv hturn => hinv.next hkbps hturn) (Filling.inv_init hkbps hflows)
  rw [(cases_of_fillTurn hturn).2.2.1]
  exact le_add_of_nonneg_right (hinv.nextStep_nonneg hkbps)

/-- A flow through each of two pipes in a row, and one through both. -/
def overlapping : List Flow := [flowOf 0 1 10, flowOf 0 2 10, flowOf 1 2 15]

/-- The lists of the two pipes. -/
def overlappingUsers (e : ℕ) : List PipeUser :=
  if e = 0 then [⟨0, none⟩, ⟨1, some 1⟩]
  else if e = 1 then [⟨1, none⟩, ⟨2, none⟩]
  else []

theorem fresh_overlapping : ∀ f ∈ overlapping, f.Fresh := by
  simp [overlapping, Flow.Fresh, flowOf]

/-- The loop for the three flows takes three turns at most. -/
theorem fill_terminates_overlapping :
    ∃ s, Loop.run (fillTurn twoPipes.toGraphData [0, 1, 2] overlappingUsers) 3
      (Filling.init twoPipes.toGraphData overlappingUsers overlapping) = .finished s := by
  have hcard : (growing overlapping).card = 3 := by decide +kernel
  rw [← hcard]
  exact (fill_terminates twoPipes [0, 1, 2] overlappingUsers overlapping (by decide)
    fresh_overlapping).1

end Modelnet.Tools

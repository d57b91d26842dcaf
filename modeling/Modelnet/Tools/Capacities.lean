import Mathlib.Algebra.BigOperators.Ring.List
import Mathlib.Tactic.Linarith
import Mathlib.Tactic.Push
import Modelnet.Lib.Rows
import Modelnet.Tools.Filling

/-!
# Capacities

When the filling loop respects the pipes. A client gives up what its flows send before it divides
what is left among those that grow; a pipe does not, so only in the first step that takes it beyond
0 its room is what it has. After that step no pipe may stop a flow any more: it would have sent its
capacity in addition to what it sent before. So the rates respect the capacities if and only if in
the state after that step the pipes have room for all that the clients let the flows have
(`fill_respects_iff`).
-/

namespace Modelnet.Tools

/-- No pipe, no client and no flow has more than it can send. -/
structure Respects (g : GraphData ℚ) (clients : List ℕ) (users : ℕ → List PipeUser)
    (flows : List Flow) : Prop where
  pipes : ∀ e < g.myEdges.length, totalRate flows (usersOf users e) ≤ g.kbps e
  clients : ∀ v ∈ clients, totalRate flows (flowsFor flows v) ≤ sendRateOf g users v
  flows : ∀ f ∈ flows, f.sendRate ≤ f.bandwidth

instance (g : GraphData ℚ) (clients : List ℕ) (users : ℕ → List PipeUser) (flows : List Flow) :
    Decidable (Respects g clients users flows) :=
  decidable_of_iff ((∀ e < g.myEdges.length, totalRate flows (usersOf users e) ≤ g.kbps e) ∧
    (∀ v ∈ clients, totalRate flows (flowsFor flows v) ≤ sendRateOf g users v) ∧
    ∀ f ∈ flows, f.sendRate ≤ f.bandwidth)
    ⟨fun h => ⟨h.1, h.2.1, h.2.2⟩, fun h => ⟨h.pipes, h.clients, h.flows⟩⟩

/-! ## What the clients let the flows have -/

section

variable (g : GraphData ℚ) (clients : List ℕ) (users : ℕ → List PipeUser) (s : Filling)

/-- After how much of the whole step the client of a flow is full. -/
def untilFull (i : ℕ) : Option ℚ :=
  (sourceOf s.flows i).bind fun v =>
    if v ∈ clients then clientRatio g users s.flows v else none

/-- For how much of the next `y` a flow grows, if only its client stops it. -/
def growth (y : ℚ) (i : ℕ) : ℚ := (untilFull g clients users s i).elim y (min y)

/-- What some flows want for a whole step after the next `x`, if only clients stop flows. -/
def laterDemand (x : ℚ) (is : List ℕ) : ℚ :=
  demand s.flows (is.filter fun i => ∀ t ∈ untilFull g clients users s i, x < t)

/-- The loop does not break off after the next `x`, if only clients stop flows: some clients are not
full, and some pipe is wanted for at least a ten-thousandth of its room. -/
def GoesOn (x : ℚ) : Prop :=
  s.fullClients + clients.countP (fun v => ∃ t ∈ clientRatio g users s.flows v, t ≤ x) ≠
    clients.length ∧
  ∃ e ∈ s.activeEdges, laterDemand g clients users s x (usersOf users e) ≠ 0 ∧
    roomOf g users e / laterDemand g clients users s x (usersOf users e) ≤ 10000

/-- The pipes have room for all that their flows can have before the clients stop them, as long as
the loop goes on. -/
def HasRoom : Prop :=
  ∀ y, 0 ≤ y → y ≤ 1 - s.step → (∀ x, 0 ≤ x → x < y → GoesOn g clients users s x) →
    ∀ e < g.myEdges.length, totalRate s.flows (usersOf users e) + ((usersOf users e).map fun i =>
      paceOf s.flows i * growth g clients users s y i).sum ≤ g.kbps e

end

section

variable {g : GraphData ℚ} {clients : List ℕ} {users : ℕ → List PipeUser} {r s s' : Filling}
  {flows flows' : List Flow} {is js : List ℕ} {e v i : ℕ} {d x y : ℚ} {K : Finset ℕ}

theorem NonNeg.paceOf_nonneg (h : NonNeg flows) (i : ℕ) : 0 ≤ paceOf flows i := by
  have hsum := h.demand_nonneg [i]
  simpa [demand] using hsum

theorem Grown.demand_le (h : Grown d is flows flows') (hnonneg : NonNeg flows) (js : List ℕ) :
    demand flows' js ≤ demand flows js := by
  refine List.sum_le_sum fun j _ => ?_
  rw [h.pace]
  split_ifs
  · exact hnonneg.paceOf_nonneg j
  · exact le_rfl

theorem Grown.demand_eq_zero (h : Grown d is flows flows') (hnonneg : NonNeg flows)
    (hzero : demand flows js = 0) : demand flows' js = 0 :=
  le_antisymm ((h.demand_le hnonneg js).trans hzero.le) ((hnonneg.grown h).demand_nonneg js)

/-! ## What holds at every turn -/

/-- A turn stops the flows of the clients that are full first, or else those of pipes. -/
theorem sides_of_fillTurn (h : fillTurn g clients users s = .next s') :
    s.fullClients ≠ clients.length ∧
    ((minClient g clients users s).1 < (minPipe g users s).1 ∧ s'.activeEdges = s.activeEdges ∧
        s'.fullClients = s.fullClients + (minClient g clients users s).2.length ∨
      (minPipe g users s).1 ≤ (minClient g clients users s).1 ∧
        s'.fullClients = s.fullClients) := by
  unfold fillTurn at h
  split_ifs at h with hstep hstop hless
  · cases h
    rw [not_or, not_or] at hstop
    exact ⟨hstop.2.1, Or.inl ⟨hless, rfl, rfl⟩⟩
  · cases h
    rw [not_or, not_or] at hstop
    exact ⟨hstop.2.1, Or.inr ⟨not_lt.mp hless, rfl⟩⟩

/-- Where the loop ends before a whole step, it breaks off. -/
theorem stops_of_fillTurn (h : fillTurn g clients users s = .finished) (hlt : s.step < 1) :
    (minPipe g users s).2 = [] ∨ s.fullClients = clients.length ∨ s.activeEdges = [] := by
  by_contra hstop
  unfold fillTurn at h
  rw [if_pos hlt, if_neg hstop] at h
  dsimp only at h
  split_ifs at h

/-- The flows have grown for `step` at most, each at its own bandwidth, those that still grow for
all of it; and no more clients are counted than are full. -/
structure Filling.Paced (g : GraphData ℚ) (clients : List ℕ) (users : ℕ → List PipeUser)
    (s : Filling) : Prop where
  inv : s.Inv g clients users
  rate_le : ∀ f ∈ s.flows, f.stepFactor ≤ 1 ∧ f.sendRate ≤ f.bandwidth * s.step
  le_rate : ∀ i, paceOf s.flows i * s.step ≤ rateOf s.flows i
  full : s.fullClients + clients.countP (fun v => (clientRatio g users s.flows v).isSome) ≤
    clients.length

theorem isSome_clientRatio :
    (clientRatio g users flows v).isSome ↔ demand flows (flowsFor flows v) ≠ 0 := by
  unfold clientRatio
  by_cases hreq : demand flows (flowsFor flows v) = 0
  · simp [hreq]
  · simp [hreq]

theorem Grown.clientRatio_isSome (h : Grown d is flows flows') (hnonneg : NonNeg flows)
    (hsome : (clientRatio g users flows' v).isSome) : (clientRatio g users flows v).isSome := by
  rw [isSome_clientRatio, h.flowsFor_eq] at hsome
  exact isSome_clientRatio.mpr fun hzero => hsome (h.demand_eq_zero hnonneg hzero)

theorem Grown.clientRatio_eq_none (h : Grown d is flows flows')
    (hmem : ∀ i ∈ flowsFor flows v, i ∈ is) : clientRatio g users flows' v = none := by
  have hzero : demand flows' (flowsFor flows v) = 0 := by
    refine List.sum_eq_zero fun a ha => ?_
    obtain ⟨j, hj, rfl⟩ := List.mem_map.mp ha
    rw [h.pace, if_pos (hmem j hj)]
  unfold clientRatio
  rw [h.flowsFor_eq]
  exact if_pos hzero

theorem frozenBy_of_lt (h : (minClient g clients users s).1 < (minPipe g users s).1) :
    frozenBy g clients users s = (minClient g clients users s).2.flatMap (flowsFor s.flows) :=
  if_pos h

theorem length_minClient : (minClient g clients users s).2.length = clients.countP fun v =>
    clientRatio g users s.flows v = some (minClient g clients users s).1 := by
  rw [List.countP_eq_length_filter]
  exact congrArg List.length
    (List.isFoldTies (clientRatio g users s.flows) 10000 clients).eq_filter

theorem Filling.Paced.next (h : s.Paced g clients users)
    (hkbps : ∀ e < g.myEdges.length, 0 ≤ g.kbps e)
    (hturn : fillTurn g clients users s = .next s') : s'.Paced g clients users := by
  obtain ⟨-, -, hstep, hgrown, -⟩ := cases_of_fillTurn hturn
  have hd := h.inv.nextStep_nonneg hkbps
  refine ⟨h.inv.next hkbps hturn, fun f' hf' => ?_, fun i => ?_, ?_⟩
  · obtain ⟨i, hi⟩ := List.getElem?_of_mem hf'
    rw [hgrown.get] at hi
    obtain ⟨f, hf, rfl⟩ := Option.map_eq_some_iff.mp hi
    have hmem := List.mem_of_getElem? hf
    obtain ⟨hbw, -⟩ := h.inv.nonneg f hmem
    obtain ⟨hone, hrate⟩ := h.rate_le f hmem
    have hgrow : (f.grow (nextStep g clients users s)).sendRate ≤ f.bandwidth * s'.step := by
      have hle : f.bandwidth * f.stepFactor ≤ f.bandwidth := mul_le_of_le_one_right hbw hone
      have hmul := mul_le_mul_of_nonneg_right hle hd
      rw [hstep]
      dsimp only [Flow.grow]
      linarith
    split_ifs
    · exact ⟨zero_le_one, hgrow⟩
    · exact ⟨hone, hgrow⟩
  · have hrate := h.le_rate i
    have hpace := h.inv.nonneg.paceOf_nonneg i
    rw [hgrown.rate, hgrown.pace, hstep]
    split_ifs
    · have hzero : 0 ≤ paceOf s.flows i * s.step := mul_nonneg hpace h.inv.step.1
      have hgrows := mul_nonneg hpace hd
      linarith
    · linarith
  · have hsome : ∀ v, (clientRatio g users s'.flows v).isSome →
        (clientRatio g users s.flows v).isSome := fun v =>
      hgrown.clientRatio_isSome h.inv.nonneg
    obtain ⟨-, ⟨hless, -, hfull⟩ | ⟨-, hfull⟩⟩ := sides_of_fillTurn hturn
    · -- those that are counted now want nothing any more
      rw [frozenBy_of_lt hless] at hgrown
      have hnone : ∀ v ∈ clients, (clientRatio g users s'.flows v).isSome →
          ¬clientRatio g users s.flows v = some (minClient g clients users s).1 := by
        intro v hv hsome' heq
        have hmem : v ∈ (minClient g clients users s).2 :=
          (List.isFoldTies (clientRatio g users s.flows) 10000 clients).mem_iff.mpr ⟨hv, heq⟩
        rw [hgrown.clientRatio_eq_none fun i hi => List.mem_flatMap.mpr ⟨v, hmem, hi⟩] at hsome'
        cases hsome'
      have hle : clients.countP (fun v => (clientRatio g users s'.flows v).isSome ∨
          clientRatio g users s.flows v = some (minClient g clients users s).1) ≤
          clients.countP fun v => (clientRatio g users s.flows v).isSome := by
        refine List.countP_mono_left fun v _ hv => ?_
        rw [decide_eq_true_eq] at hv
        rcases hv with hv | hv
        · exact hsome v hv
        · rw [hv]
          rfl
      rw [List.countP_or_of_disjoint hnone, ← length_minClient] at hle
      have hbound := h.full
      simp only [Bool.decide_eq_true] at hle
      omega
    · rw [hfull]
      exact (Nat.add_le_add_left (List.countP_mono_left fun v _ => hsome v) _).trans h.full

/-! ## Turns that stop flows of clients only -/

/-- Some clients have been full since `r`: those that were to be full before now. -/
structure Stopped (g : GraphData ℚ) (clients : List ℕ) (users : ℕ → List PipeUser)
    (r s : Filling) (K : Finset ℕ) : Prop where
  mem : ∀ v ∈ K, v ∈ clients ∧ ∃ t ∈ clientRatio g users r.flows v, t ≤ s.step - r.step
  of_lt : ∀ v ∈ clients, ∀ t ∈ clientRatio g users r.flows v, t < s.step - r.step → v ∈ K
  pace_mem : ∀ v ∈ K, ∀ i, sourceOf r.flows i = some v → paceOf s.flows i = 0
  pace_notMem : ∀ i, (∀ v ∈ sourceOf r.flows i, v ∉ K) → paceOf s.flows i = paceOf r.flows i
  active : s.activeEdges = r.activeEdges
  full : s.fullClients = r.fullClients + clients.countP (· ∈ K)

/-- Since `r` only clients have stopped flows. -/
structure ClientsOnly (g : GraphData ℚ) (clients : List ℕ) (users : ℕ → List PipeUser)
    (r s : Filling) : Prop where
  step : r.step ≤ s.step
  source : ∀ i, sourceOf s.flows i = sourceOf r.flows i
  rate : ∀ i, rateOf s.flows i =
    rateOf r.flows i + paceOf r.flows i * growth g clients users r (s.step - r.step) i
  stopped : s.step < 1 → ∃ K, Stopped g clients users r s K

theorem untilFull_of_mem (hi : sourceOf s.flows i = some v) (hv : v ∈ clients) :
    untilFull g clients users s i = clientRatio g users s.flows v := by
  rw [untilFull, hi, Option.bind_some, if_pos hv]

theorem growth_of_none (h : untilFull g clients users s i = none) :
    growth g clients users s y i = y := by
  rw [growth, h]
  rfl

theorem growth_of_some {t : ℚ} (h : untilFull g clients users s i = some t) :
    growth g clients users s y i = min y t := by
  rw [growth, h]
  rfl

theorem growth_mono (hxy : x ≤ y) (i : ℕ) :
    growth g clients users s x i ≤ growth g clients users s y i := by
  cases h : untilFull g clients users s i with
  | none => rwa [growth_of_none h, growth_of_none h]
  | some t =>
    rw [growth_of_some h, growth_of_some h]
    exact min_le_min_right t hxy

theorem Filling.Inv.clientRatio_nonneg (h : s.Inv g clients users) (hv : v ∈ clients) {t : ℚ}
    (ht : t ∈ clientRatio g users s.flows v) : 0 ≤ t := by
  obtain ⟨-, rfl⟩ := clientRatio_eq_some.mp ht
  exact div_nonneg (sub_nonneg.mpr (h.clients v hv)) (h.nonneg.demand_nonneg _)

theorem Filling.Inv.growth_zero (h : s.Inv g clients users) (i : ℕ) :
    growth g clients users s 0 i = 0 := by
  cases hfull : untilFull g clients users s i with
  | none => exact growth_of_none hfull
  | some t =>
    rw [growth_of_some hfull]
    obtain ⟨v, hsource, hv⟩ := Option.bind_eq_some_iff.mp hfull
    split_ifs at hv with hmem
    exact min_eq_left (h.clientRatio_nonneg hmem hv)

theorem Filling.Inv.clientsOnly_refl (h : r.Inv g clients users) :
    ClientsOnly g clients users r r := by
  refine ⟨le_rfl, fun _ => rfl, fun i => ?_, fun _ => ⟨∅, ?_⟩⟩
  · rw [sub_self, h.growth_zero, mul_zero, add_zero]
  · refine ⟨fun v hv => absurd hv (Finset.notMem_empty v), fun v hv t ht hlt => ?_,
      fun v hv => absurd hv (Finset.notMem_empty v), fun _ _ => rfl, rfl, by simp⟩
    rw [sub_self] at hlt
    exact absurd (h.clientRatio_nonneg hv ht) (not_le.mpr hlt)

theorem totalRate_eq_add {c : ℕ → ℚ} (h : ∀ i, rateOf flows' i = rateOf flows i + c i)
    (js : List ℕ) : totalRate flows' js = totalRate flows js + (js.map c).sum := by
  rw [totalRate, totalRate, ← List.sum_map_add]
  exact congrArg List.sum (List.map_congr_left fun i _ => h i)

namespace Stopped

variable (hK : Stopped g clients users r s K)

include hK

theorem step_sub_le (hv : v ∈ clients) (hmem : v ∉ K) {t : ℚ}
    (ht : t ∈ clientRatio g users r.flows v) : s.step - r.step ≤ t := by
  by_contra! hlt
  exact hmem (hK.of_lt v hv t ht hlt)

omit hK in
/-- A flow of which the client is not full before `y` grows for all of it. -/
theorem growth_of_notMem
    (hy : ∀ v ∈ clients, v ∉ K → ∀ t ∈ clientRatio g users r.flows v, y ≤ t)
    (hi : ∀ v ∈ sourceOf r.flows i, v ∉ K) : growth g clients users r y i = y := by
  cases hfull : untilFull g clients users r i with
  | none => exact growth_of_none hfull
  | some t =>
    rw [growth_of_some hfull]
    obtain ⟨v, hsource, hv⟩ := Option.bind_eq_some_iff.mp hfull
    split_ifs at hv with hmem
    exact min_eq_left (hy v hmem (hi v hsource) t hv)

theorem growth_of_mem (hv : v ∈ K) (hi : sourceOf r.flows i = some v)
    (hy : s.step - r.step ≤ y) :
    growth g clients users r y i = growth g clients users r (s.step - r.step) i := by
  obtain ⟨hmem, t, ht, hle⟩ := hK.mem v hv
  have hfull : untilFull g clients users r i = some t := (untilFull_of_mem hi hmem).trans ht
  rw [growth_of_some hfull, growth_of_some hfull, min_eq_right (hle.trans hy), min_eq_right hle]

/-- **What a flow grows** in a time in which no other client is full. -/
theorem mul_growth_eq (hd : 0 ≤ d) (hfree : ∀ v ∈ clients, v ∉ K →
      ∀ t ∈ clientRatio g users r.flows v, s.step - r.step + d ≤ t) (i : ℕ) :
    paceOf r.flows i * growth g clients users r (s.step - r.step + d) i =
      paceOf r.flows i * growth g clients users r (s.step - r.step) i + paceOf s.flows i * d := by
  by_cases hi : ∀ v ∈ sourceOf r.flows i, v ∉ K
  · have hnow : growth g clients users r (s.step - r.step) i = s.step - r.step :=
      growth_of_notMem (fun v hv hmem _ ht => hK.step_sub_le hv hmem ht) hi
    rw [growth_of_notMem hfree hi, hnow, hK.pace_notMem i hi, mul_add]
  · push Not at hi
    obtain ⟨v, hsource, hv⟩ := hi
    rw [hK.growth_of_mem hv hsource (le_add_of_nonneg_right hd), hK.pace_mem v hv i hsource,
      zero_mul, add_zero]

theorem clientRatio_eq (honly : ClientsOnly g clients users r s) (v : ℕ) :
    clientRatio g users s.flows v = if v ∈ K then none else
      (clientRatio g users r.flows v).map fun t => t - (s.step - r.step) := by
  have hflows : flowsFor s.flows v = flowsFor r.flows v := flowsFor_congr honly.source v
  split_ifs with hmem
  · have hzero : demand s.flows (flowsFor s.flows v) = 0 := by
      refine List.sum_eq_zero fun a ha => ?_
      obtain ⟨i, hi, rfl⟩ := List.mem_map.mp ha
      rw [hflows] at hi
      exact hK.pace_mem v hmem i (mem_flowsFor.mp hi)
    exact if_pos hzero
  · have hnotMem : ∀ i ∈ flowsFor r.flows v, ∀ w ∈ sourceOf r.flows i, w ∉ K := by
      intro i hi w hw
      rw [Option.some.inj (hw.symm.trans (mem_flowsFor.mp hi))]
      exact hmem
    have hdemand : demand s.flows (flowsFor r.flows v) = demand r.flows (flowsFor r.flows v) :=
      congrArg List.sum (List.map_congr_left fun i hi => hK.pace_notMem i (hnotMem i hi))
    have hrate : totalRate s.flows (flowsFor r.flows v) = totalRate r.flows (flowsFor r.flows v) +
        demand r.flows (flowsFor r.flows v) * (s.step - r.step) := by
      rw [totalRate_eq_add honly.rate, demand, ← List.sum_map_mul_right]
      refine congrArg _ (congrArg List.sum (List.map_congr_left fun i hi => ?_))
      rw [growth_of_notMem (fun w hw hw' _ ht => hK.step_sub_le hw hw' ht) (hnotMem i hi)]
    unfold clientRatio
    rw [hflows, hdemand, hrate]
    dsimp only
    split_ifs with hreq
    · rfl
    · rw [Option.map_some, sub_add_eq_sub_sub, sub_div, mul_div_cancel_left₀ _ hreq]

omit hK in
theorem laterDemand_eq_sum (js : List ℕ) : laterDemand g clients users r x js =
    (js.map fun i => if ∀ t ∈ untilFull g clients users r i, x < t then paceOf r.flows i
      else 0).sum := by
  unfold laterDemand demand
  induction js with
  | nil => rfl
  | cons i js ih =>
    rw [List.filter_cons]
    split_ifs <;> simp_all

/-- Flows that are to grow after now have not been stopped. -/
theorem pace_of_later (hx : s.step - r.step ≤ x)
    (hcond : ∀ t ∈ untilFull g clients users r i, x < t) :
    paceOf s.flows i = paceOf r.flows i := by
  refine hK.pace_notMem i fun v hv hmem => ?_
  obtain ⟨hclient, t, ht, hle⟩ := hK.mem v hmem
  rw [← untilFull_of_mem hv hclient] at ht
  exact absurd (hcond t ht) (not_lt.mpr (hle.trans hx))

/-- What the flows want now is at least what they are to want later. -/
theorem laterDemand_le (hnonneg : NonNeg s.flows) (hx : s.step - r.step ≤ x) (js : List ℕ) :
    laterDemand g clients users r x js ≤ demand s.flows js := by
  rw [laterDemand_eq_sum, demand]
  refine List.sum_le_sum fun i _ => ?_
  split_ifs with hcond
  · rw [hK.pace_of_later hx hcond]
  · exact hnonneg.paceOf_nonneg i

/-- Until another client is full, the flows want what they want now. -/
theorem laterDemand_eq (hx : s.step - r.step ≤ x)
    (hfree : ∀ v ∈ clients, v ∉ K → ∀ t ∈ clientRatio g users r.flows v, x < t) (js : List ℕ) :
    laterDemand g clients users r x js = demand s.flows js := by
  rw [laterDemand_eq_sum, demand]
  refine congrArg List.sum (List.map_congr_left fun i _ => ?_)
  split_ifs with hcond
  · rw [hK.pace_of_later hx hcond]
  · push Not at hcond
    obtain ⟨t, ht, hle⟩ := hcond
    obtain ⟨v, hsource, hv⟩ := Option.bind_eq_some_iff.mp ht
    split_ifs at hv with hclient
    have hmem : v ∈ K := by
      by_contra hnot
      exact absurd (hfree v hclient hnot t hv) (not_lt.mpr hle)
    exact (hK.pace_mem v hmem i hsource).symm

theorem countP_le (hx : s.step - r.step ≤ x) : clients.countP (· ∈ K) ≤
    clients.countP fun v => ∃ t ∈ clientRatio g users r.flows v, t ≤ x := by
  refine List.countP_mono_left fun v _ hv => ?_
  rw [decide_eq_true_eq] at hv ⊢
  obtain ⟨-, t, ht, hle⟩ := hK.mem v hv
  exact ⟨t, ht, hle.trans hx⟩

theorem countP_eq (hx : s.step - r.step ≤ x)
    (hfree : ∀ v ∈ clients, v ∉ K → ∀ t ∈ clientRatio g users r.flows v, x < t) :
    clients.countP (· ∈ K) =
      clients.countP fun v => ∃ t ∈ clientRatio g users r.flows v, t ≤ x := by
  refine List.countP_congr fun v hv => ?_
  rw [decide_eq_true_eq, decide_eq_true_eq]
  constructor
  · intro hmem
    obtain ⟨-, t, ht, hle⟩ := hK.mem v hmem
    exact ⟨t, ht, hle.trans hx⟩
  · rintro ⟨t, ht, hle⟩
    by_contra hmem
    exact absurd (hfree v hv hmem t ht) (not_lt.mpr hle)

/-- Where the loop breaks off, it was not to go on. -/
theorem not_goesOn (hpaced : r.Paced g clients users) (hnonneg : NonNeg s.flows) (hlt : s.step < 1)
    (hturn : fillTurn g clients users s = .finished) :
    ¬GoesOn g clients users r (s.step - r.step) := by
  rintro ⟨hfull, e, he, hne, hratio⟩
  have hpipes := List.isFoldTies (pipeRatio g users s.flows) 10000 s.activeEdges
  have hle := hK.laterDemand_le hnonneg le_rfl (usersOf users e)
  have hlater : 0 < laterDemand g clients users r (s.step - r.step) (usersOf users e) := by
    refine lt_of_le_of_ne ?_ hne.symm
    exact hpaced.inv.nonneg.demand_nonneg _
  have hroom : roomOf g users e / demand s.flows (usersOf users e) ≤ 10000 := by
    rw [div_le_iff₀ hlater] at hratio
    rw [div_le_iff₀ (hlater.trans_le hle)]
    linarith
  rw [← hK.active] at he
  have hsome : pipeRatio g users s.flows e =
      some (roomOf g users e / demand s.flows (usersOf users e)) :=
    pipeRatio_eq_some.mpr ⟨(hlater.trans_le hle).ne', rfl⟩
  have hcount : r.fullClients + clients.countP (fun v =>
      ∃ t ∈ clientRatio g users r.flows v, t ≤ s.step - r.step) ≤ clients.length := by
    refine (Nat.add_le_add_left (List.countP_mono_left fun v _ hv => ?_) _).trans hpaced.full
    rw [decide_eq_true_eq] at hv
    obtain ⟨t, ht, -⟩ := hv
    rw [Option.mem_def.mp ht]
    rfl
  have hcountK := hK.countP_le (x := s.step - r.step) le_rfl
  have hnot : s.fullClients ≠ clients.length := by
    rw [hK.full]
    omega
  rcases stops_of_fillTurn hturn hlt with hnil | hclients | hnil
  · exact hpipes.ne_nil he hsome hroom hnil
  · exact hnot hclients
  · rw [hnil] at he
    exact absurd he List.not_mem_nil

end Stopped

namespace ClientsOnly

variable (honly : ClientsOnly g clients users r s) (hK : Stopped g clients users r s K)

include honly hK

/-- No client that is not full yet is full before the next turn. -/
theorem nextStep_le (hv : v ∈ clients) (hmem : v ∉ K) {t : ℚ}
    (ht : t ∈ clientRatio g users r.flows v) :
    s.step - r.step + nextStep g clients users s ≤ t := by
  have hclients := List.isFoldTies (clientRatio g users s.flows) 10000 clients
  have hratio : clientRatio g users s.flows v = some (t - (s.step - r.step)) := by
    rw [hK.clientRatio_eq honly, if_neg hmem, Option.mem_def.mp ht, Option.map_some]
  have hle : nextStep g clients users s ≤ t - (s.step - r.step) :=
    (min_le_right _ _).trans ((min_le_left _ _).trans (hclients.le v hv _ hratio))
  linarith

/-- As long as the next turn takes, the loop goes on. -/
theorem goesOn (hturn : fillTurn g clients users s = .next s') (hx : s.step - r.step ≤ x)
    (hlt : x < s.step - r.step + nextStep g clients users s) : GoesOn g clients users r x := by
  have hfree : ∀ v ∈ clients, v ∉ K → ∀ t ∈ clientRatio g users r.flows v, x < t :=
    fun v hv hmem t ht => hlt.trans_le (honly.nextStep_le hK hv hmem ht)
  have hpipes := List.isFoldTies (pipeRatio g users s.flows) 10000 s.activeEdges
  refine ⟨?_, ?_⟩
  · rw [← hK.countP_eq hx hfree, ← hK.full]
    exact (sides_of_fillTurn hturn).1
  · obtain ⟨e, -, he, hne, heq⟩ := exists_minPipe (cases_of_fillTurn hturn).2.1
    rw [hK.active] at he
    refine ⟨e, he, ?_⟩
    rw [hK.laterDemand_eq hx hfree]
    exact ⟨hne, heq.trans_le hpipes.le_start⟩

/-- The clients that are full after the next turn, if that is not the last one. -/
theorem stopped_next (hinv : s.Inv g clients users)
    (hturn : fillTurn g clients users s = .next s')
    (hless : (minClient g clients users s).1 < (minPipe g users s).1)
    (hstep : nextStep g clients users s = (minClient g clients users s).1) :
    Stopped g clients users r s' (K ∪ (minClient g clients users s).2.toFinset) := by
  have hclients := List.isFoldTies (clientRatio g users s.flows) 10000 clients
  obtain ⟨-, -, hnext, hgrown, -⟩ := cases_of_fillTurn hturn
  have hsub : s'.step - r.step = s.step - r.step + nextStep g clients users s := by
    rw [hnext, add_sub_right_comm]
  have hfull : ∀ v, v ∈ (minClient g clients users s).2 ↔
      v ∈ clients ∧ v ∉ K ∧ clientRatio g users r.flows v =
        some (s.step - r.step + nextStep g clients users s) := by
    intro v
    rw [minClient, hclients.mem_iff, ← minClient, hK.clientRatio_eq honly, hstep]
    refine and_congr_right fun _ => ?_
    by_cases hv : v ∈ K
    · simp [hv]
    · rw [if_neg hv, Option.map_eq_some_iff]
      constructor
      · rintro ⟨t, ht, heq⟩
        refine ⟨hv, ?_⟩
        rw [ht, ← heq, add_sub_cancel]
      · rintro ⟨-, ht⟩
        exact ⟨_, ht, add_sub_cancel_left _ _⟩
  rw [frozenBy_of_lt hless] at hgrown
  obtain ⟨-, ⟨-, hactive, hcount⟩ | ⟨hge, -⟩⟩ := sides_of_fillTurn hturn
  swap
  · exact absurd hless (not_lt.mpr hge)
  refine ⟨fun v hv => ?_, fun v hv t ht hlt => ?_, fun v hv i hi => ?_, fun i hi => ?_,
    hactive.trans hK.active, ?_⟩
  · rw [hsub]
    rcases Finset.mem_union.mp hv with hv | hv
    · obtain ⟨hmem, t, ht, hle⟩ := hK.mem v hv
      exact ⟨hmem, t, ht, by linarith [hinv.minClient_nonneg]⟩
    · obtain ⟨hmem, -, ht⟩ := (hfull v).mp (List.mem_toFinset.mp hv)
      exact ⟨hmem, _, ht, le_rfl⟩
  · rw [hsub] at hlt
    by_contra hmem
    have hnot : v ∉ K := fun h => hmem (Finset.mem_union_left _ h)
    exact absurd (honly.nextStep_le hK hv hnot ht) (not_le.mpr hlt)
  · rw [hgrown.pace]
    rcases Finset.mem_union.mp hv with hv | hv
    · rw [hK.pace_mem v hv i hi, ite_self]
    · rw [if_pos]
      refine List.mem_flatMap.mpr ⟨v, List.mem_toFinset.mp hv, mem_flowsFor.mpr ?_⟩
      exact (honly.source i).trans hi
  · rw [hgrown.pace, if_neg, hK.pace_notMem i fun v hv h => hi v hv (Finset.mem_union_left _ h)]
    intro hmem
    obtain ⟨v, hv, hflow⟩ := List.mem_flatMap.mp hmem
    have hsource : sourceOf r.flows i = some v :=
      (honly.source i).symm.trans (mem_flowsFor.mp hflow)
    exact hi v hsource (Finset.mem_union_right _ (List.mem_toFinset.mpr hv))
  · have hdisjoint : ∀ v ∈ clients, v ∈ K → ¬v ∈ (minClient g clients users s).2 :=
      fun v _ hv hmem => ((hfull v).mp hmem).2.1 hv
    have hunion : clients.countP (· ∈ K ∪ (minClient g clients users s).2.toFinset) =
        clients.countP (fun v => v ∈ K ∨ v ∈ (minClient g clients users s).2) := by
      simp only [Finset.mem_union, List.mem_toFinset]
    have hnew : clients.countP (· ∈ (minClient g clients users s).2) =
        (minClient g clients users s).2.length := by
      rw [length_minClient]
      refine List.countP_congr fun v hv => ?_
      rw [decide_eq_true_eq, decide_eq_true_eq, minClient, hclients.mem_iff]
      exact and_iff_right hv
    rw [hcount, hK.full, hunion, List.countP_or_of_disjoint hdisjoint, hnew, Nat.add_assoc]

omit hK in
theorem rate_next (hinv : s.Inv g clients users) (hkbps : ∀ e < g.myEdges.length, 0 ≤ g.kbps e)
    (hturn : fillTurn g clients users s = .next s') (i : ℕ) : rateOf s'.flows i =
      rateOf r.flows i + paceOf r.flows i * growth g clients users r (s'.step - r.step) i := by
  obtain ⟨hlt, -, hstep, hgrown, -⟩ := cases_of_fillTurn hturn
  obtain ⟨K, hK⟩ := honly.stopped hlt
  rw [hgrown.rate, honly.rate, hstep, add_sub_right_comm,
    hK.mul_growth_eq (hinv.nextStep_nonneg hkbps) fun v hv hmem t ht =>
      honly.nextStep_le hK hv hmem ht, add_assoc]

omit hK in
/-- **A turn in which no pipe stops flows.** -/
theorem next (hinv : s.Inv g clients users) (hkbps : ∀ e < g.myEdges.length, 0 ≤ g.kbps e)
    (hturn : fillTurn g clients users s = .next s')
    (hpipes : (minClient g clients users s).1 < (minPipe g users s).1 ∨
      1 - s.step ≤ (minPipe g users s).1) : ClientsOnly g clients users r s' := by
  obtain ⟨hlt, -, hstep, hgrown, -⟩ := cases_of_fillTurn hturn
  obtain ⟨K, hK⟩ := honly.stopped hlt
  refine ⟨?_, fun i => (hgrown.sourceOf_eq i).trans (honly.source i),
    honly.rate_next hinv hkbps hturn, fun hlt' => ?_⟩
  · rw [hstep]
    exact honly.step.trans (le_add_of_nonneg_right (hinv.nextStep_nonneg hkbps))
  · have hne : nextStep g clients users s ≠ 1 - s.step := by
      intro heq
      rw [hstep, heq, add_sub_cancel] at hlt'
      exact lt_irrefl _ hlt'
    have hmin : nextStep g clients users s =
        min (minClient g clients users s).1 (minPipe g users s).1 :=
      (min_choice _ _).resolve_left hne
    have hlt1 : nextStep g clients users s < 1 - s.step := lt_of_le_of_ne (min_le_left _ _) hne
    have hless : (minClient g clients users s).1 < (minPipe g users s).1 := by
      rcases hpipes with hless | hle
      · exact hless
      · by_contra! hge
        rw [min_eq_right hge] at hmin
        exact absurd (hmin ▸ hlt1) (not_lt.mpr hle)
    rw [min_eq_left hless.le] at hmin
    exact ⟨_, honly.stopped_next hK hinv hturn hless hmin⟩

end ClientsOnly

/-! ## Pipes that stop flows -/

theorem Filling.Paced.demand_mul_le (h : s.Paced g clients users) (js : List ℕ) :
    demand s.flows js * s.step ≤ totalRate s.flows js := by
  rw [demand, totalRate, ← List.sum_map_mul_right]
  exact List.sum_le_sum fun i _ => h.le_rate i

theorem Filling.Paced.totalRate_le (h : s.Paced g clients users)
    (hkbps : ∀ e < g.myEdges.length, 0 ≤ g.kbps e)
    (hturn : fillTurn g clients users s = .next s') (js : List ℕ) :
    totalRate s.flows js ≤ totalRate s'.flows js := by
  rw [(cases_of_fillTurn hturn).2.2.2.1.totalRate_eq]
  exact le_add_of_nonneg_right
    (mul_nonneg (h.inv.nonneg.demand_nonneg js) (h.inv.nextStep_nonneg hkbps))

/-- **A pipe that stops flows after the first step** sends its capacity and what it sent before. -/
theorem Filling.Paced.exists_overrun (h : s.Paced g clients users) (hpos : 0 < s.step)
    (hturn : fillTurn g clients users s = .next s')
    (hle : (minPipe g users s).1 ≤ (minClient g clients users s).1)
    (hlt : (minPipe g users s).1 < 1 - s.step) :
    ∃ e < g.myEdges.length, g.kbps e < totalRate s'.flows (usersOf users e) := by
  obtain ⟨-, hne, -, hgrown, -⟩ := cases_of_fillTurn hturn
  obtain ⟨e, -, he, hdemand, heq⟩ := exists_minPipe hne
  have hwanted : 0 < demand s.flows (usersOf users e) :=
    lt_of_le_of_ne (h.inv.nonneg.demand_nonneg _) hdemand.symm
  have hroom : roomOf g users e = g.kbps e := by
    refine if_neg fun hnil => hdemand ?_
    rw [usersOf, hnil]
    rfl
  have hstep : nextStep g clients users s = g.kbps e / demand s.flows (usersOf users e) := by
    rw [nextStep, min_eq_right hle, min_eq_right hlt.le, ← hroom]
    exact heq.symm
  have hsent := h.demand_mul_le (usersOf users e)
  refine ⟨e, h.inv.active e he, ?_⟩
  rw [hgrown.totalRate_eq, hstep, mul_div_cancel₀ _ hdemand]
  linarith [mul_pos hwanted hpos]

theorem Filling.paced_init (hkbps : ∀ e < g.myEdges.length, 0 ≤ g.kbps e)
    (hflows : ∀ f ∈ flows, f.Fresh ∧ f.stepFactor ≤ 1) :
    (Filling.init g users flows).Paced g clients users := by
  have hinv : (Filling.init g users flows).Inv g clients users :=
    Filling.inv_init hkbps fun f hf => (hflows f hf).1
  refine ⟨hinv, fun f hf => ⟨(hflows f hf).2, ?_⟩, fun i => ?_, ?_⟩
  · rw [(hflows f hf).1.2.2]
    exact (mul_zero f.bandwidth).ge
  · have hzero : rateOf flows i = 0 := by
      have hsum := totalRate_fresh (fun f hf => (hflows f hf).1) [i]
      simpa [totalRate] using hsum
    exact (mul_zero _).trans_le hzero.ge
  · exact (Nat.zero_add _).trans_le List.countP_le_length

/-- What is sent at the end is at least what is sent before. -/
theorem totalRate_le_of_run (hkbps : ∀ e < g.myEdges.length, 0 ≤ g.kbps e) {n : ℕ} {sf : Filling}
    (h : s.Paced g clients users) (hrun : Loop.run (fillTurn g clients users) n s = .finished sf)
    (js : List ℕ) : totalRate s.flows js ≤ totalRate sf.flows js := by
  have hkept := Loop.inv_of_run_finished
    (I := fun s' => s'.Paced g clients users ∧ totalRate s.flows js ≤ totalRate s'.flows js)
    (by
      rintro s₁ s₂ ⟨hs, hle⟩ hturn
      exact ⟨hs.next hkbps hturn, hle.trans (hs.totalRate_le hkbps hturn js)⟩)
    ⟨h, le_rfl⟩ hrun
  exact hkept.2

/-- If no pipe is overrun in the end, only clients have stopped flows since the first step. -/
theorem clientsOnly_of_respects (hkbps : ∀ e < g.myEdges.length, 0 ≤ g.kbps e) {n : ℕ}
    {sf : Filling} (hr : r.Paced g clients users) (hpos : 0 < r.step)
    (hrun : Loop.run (fillTurn g clients users) n r = .finished sf)
    (hpipes : ∀ e < g.myEdges.length, totalRate sf.flows (usersOf users e) ≤ g.kbps e) :
    sf.Paced g clients users ∧ ClientsOnly g clients users r sf := by
  have hkept := Loop.inv_of_run_finished
    (I := fun s => s.Paced g clients users ∧ ClientsOnly g clients users r s ∧
      ∃ m, Loop.run (fillTurn g clients users) m s = .finished sf)
    (by
      rintro s s' ⟨hs, honly, m, hm⟩ hturn
      obtain ⟨hdone, -⟩ | ⟨k, s₁, -, hnext, hrest⟩ := Loop.cases_of_run_finished hm
      · rw [hdone] at hturn
        cases hturn
      · rw [hturn] at hnext
        cases hnext
        have hs' := hs.next hkbps hturn
        refine ⟨hs', honly.next hs.inv hkbps hturn ?_, k, hrest⟩
        by_contra! hstops
        obtain ⟨e, he, hover⟩ :=
          hs.exists_overrun (hpos.trans_le honly.step) hturn hstops.1 hstops.2
        exact absurd ((totalRate_le_of_run hkbps hs' hrest _).trans (hpipes e he))
          (not_le.mpr hover))
    ⟨hr, hr.inv.clientsOnly_refl, n, hrun⟩ hrun
  exact ⟨hkept.1, hkept.2.1⟩

/-- What the clients let the flows have is what they have in the end. -/
theorem hasRoom_of_respects (hkbps : ∀ e < g.myEdges.length, 0 ≤ g.kbps e) {n : ℕ}
    {sf : Filling} (hr : r.Paced g clients users) (hpos : 0 < r.step)
    (hrun : Loop.run (fillTurn g clients users) n r = .finished sf)
    (hpipes : ∀ e < g.myEdges.length, totalRate sf.flows (usersOf users e) ≤ g.kbps e) :
    HasRoom g clients users r := by
  obtain ⟨hsf, honly⟩ := clientsOnly_of_respects hkbps hr hpos hrun hpipes
  intro y hy hle hgoes e he
  have hreached : y ≤ sf.step - r.step := by
    by_contra! hlt
    have hgoesOn := hgoes (sf.step - r.step) (sub_nonneg.mpr honly.step) hlt
    have hlast : sf.step < 1 := by linarith
    obtain ⟨K, hK⟩ := honly.stopped hlast
    exact hK.not_goesOn hr hsf.inv.nonneg hlast (Loop.turn_of_run_finished hrun) hgoesOn
  refine le_trans ?_ (hpipes e he)
  rw [totalRate_eq_add honly.rate]
  refine add_le_add_right (List.sum_le_sum fun i _ => ?_) _
  exact mul_le_mul_of_nonneg_left (growth_mono hreached i) (hr.inv.nonneg.paceOf_nonneg i)

/-- The turns since the state `r`, in which the pipes have room. -/
structure Roomy (g : GraphData ℚ) (clients : List ℕ) (users : ℕ → List PipeUser)
    (r s : Filling) : Prop where
  pos : 0 < r.step
  room : HasRoom g clients users r
  only : ClientsOnly g clients users r s
  goesOn : ∀ x, 0 ≤ x → x < s.step - r.step → GoesOn g clients users r x

/-- **A turn in a state that has room** overruns no pipe. -/
theorem Roomy.next (hroomy : Roomy g clients users r s) (hs : s.Paced g clients users)
    (hkbps : ∀ e < g.myEdges.length, 0 ≤ g.kbps e)
    (hturn : fillTurn g clients users s = .next s') : Roomy g clients users r s' := by
  obtain ⟨hlt, -, hstep, -, -⟩ := cases_of_fillTurn hturn
  obtain ⟨K, hK⟩ := hroomy.only.stopped hlt
  have hs' := hs.next hkbps hturn
  have hle : r.step ≤ s'.step := by
    rw [hstep]
    exact hroomy.only.step.trans (le_add_of_nonneg_right (hs.inv.nextStep_nonneg hkbps))
  have hgoes : ∀ x, 0 ≤ x → x < s'.step - r.step → GoesOn g clients users r x := by
    intro x hx hxlt
    rcases lt_or_ge x (s.step - r.step) with hbefore | hafter
    · exact hroomy.goesOn x hx hbefore
    · refine hroomy.only.goesOn hK hturn hafter (hxlt.trans_eq ?_)
      rw [hstep, add_sub_right_comm]
  refine ⟨hroomy.pos, hroomy.room, hroomy.only.next hs.inv hkbps hturn ?_, hgoes⟩
  by_contra! hstops
  obtain ⟨e, he, hover⟩ :=
    hs.exists_overrun (hroomy.pos.trans_le hroomy.only.step) hturn hstops.1 hstops.2
  have hroom := hroomy.room (s'.step - r.step) (sub_nonneg.mpr hle)
    (sub_le_sub_right hs'.inv.step.2 _) hgoes e he
  rw [← totalRate_eq_add (hroomy.only.rate_next hs.inv hkbps hturn)] at hroom
  exact absurd hroom (not_le.mpr hover)

theorem Roomy.totalRate_le (hroomy : Roomy g clients users r s) (hs : s.Paced g clients users)
    (he : e < g.myEdges.length) : totalRate s.flows (usersOf users e) ≤ g.kbps e := by
  rw [totalRate_eq_add hroomy.only.rate]
  exact hroomy.room _ (sub_nonneg.mpr hroomy.only.step) (sub_le_sub_right hs.inv.step.2 _)
    hroomy.goesOn e he

theorem Filling.Paced.totalRate_nonpos (hs : s.Paced g clients users) (hstep : s.step = 0)
    (js : List ℕ) : totalRate s.flows js ≤ 0 := by
  refine (List.sum_le_sum (g := fun _ => 0) fun i _ => ?_).trans (by simp)
  unfold rateOf
  cases hf : s.flows[i]? with
  | none => exact le_rfl
  | some f =>
    have hle := (hs.rate_le f (List.mem_of_getElem? hf)).2
    rwa [hstep, mul_zero] at hle

end

/-- **The filling loop respects the capacities exactly if** in the state after the first step of
some length the pipes have room for all that the clients let the flows have. -/
theorem fill_respects_iff (g : MNGraph ℚ) (clients : List ℕ) (users : ℕ → List PipeUser)
    (flows : List Flow) (hkbps : ∀ e < g.myEdges.length, 0 ≤ g.kbps e)
    (hflows : ∀ f ∈ flows, f.Fresh ∧ f.stepFactor ≤ 1) :
    (∃ n s, Loop.run (fillTurn g.toGraphData clients users) n
        (Filling.init g.toGraphData users flows) = .finished s ∧
      Respects g.toGraphData clients users s.flows) ↔
    ∀ s s₁, Loop.Visits (fillTurn g.toGraphData clients users)
        (Filling.init g.toGraphData users flows) s →
      fillTurn g.toGraphData clients users s = .next s₁ → s.step = 0 → 0 < s₁.step →
      HasRoom g.toGraphData clients users s₁ := by
  have hinit : (Filling.init g.toGraphData users flows).Paced g.toGraphData clients users :=
    Filling.paced_init hkbps hflows
  constructor
  · rintro ⟨n, sf, hrun, hrespects⟩ s s₁ hvisits hturn - hpos
    have hvisits₁ := hvisits.tail hturn
    have hpaced : s₁.Paced g.toGraphData clients users :=
      Loop.Visits.inv (fun _ _ hs hturn => hs.next hkbps hturn) hinit hvisits₁
    obtain ⟨m, hm⟩ := Loop.Visits.run_finished hvisits₁ hrun
    exact hasRoom_of_respects hkbps hpaced hpos hm hrespects.pipes
  · intro hroom
    obtain ⟨sf, hrun, -⟩ := exists_filled hkbps fun f hf => (hflows f hf).1
    obtain ⟨hpaced, -, hsteps⟩ := Loop.inv_of_run_finished
      (I := fun s => s.Paced g.toGraphData clients users ∧
        Loop.Visits (fillTurn g.toGraphData clients users)
          (Filling.init g.toGraphData users flows) s ∧
        (s.step = 0 ∨ ∃ r, Roomy g.toGraphData clients users r s))
      (by
        rintro s s' ⟨hs, hvisits, hsteps⟩ hturn
        have hs' := hs.next hkbps hturn
        refine ⟨hs', hvisits.tail hturn, ?_⟩
        rcases hsteps with hzero | ⟨r, hroomy⟩
        · rcases hs'.inv.step.1.eq_or_lt with heq | hpos
          · exact Or.inl heq.symm
          · -- the first step
            refine Or.inr ⟨s', hpos, hroom s s' hvisits hturn hzero hpos,
              hs'.inv.clientsOnly_refl, fun x hx hlt => ?_⟩
            rw [sub_self] at hlt
            exact absurd hx (not_le.mpr hlt)
        · exact Or.inr ⟨r, hroomy.next hs hkbps hturn⟩)
      ⟨hinit, Relation.ReflTransGen.refl, Or.inl rfl⟩ hrun
    refine ⟨_, sf, hrun, fun e he => ?_, hpaced.inv.clients, fun f hf => ?_⟩
    · rcases hsteps with hzero | ⟨r, hroomy⟩
      · exact (hpaced.totalRate_nonpos hzero _).trans (hkbps e he)
      · exact hroomy.totalRate_le hpaced he
    · have hbandwidth : 0 ≤ f.bandwidth := (hpaced.inv.nonneg f hf).1
      exact (hpaced.rate_le f hf).2.trans
        (mul_le_of_le_one_right hbandwidth hpaced.inv.step.2)

/-- A flow through the first of two pipes. -/
def onePipeUsers (e : ℕ) : List PipeUser := if e = 0 then [⟨0, none⟩] else []

/-- One flow respects the capacities, and there is room after the first step. -/
theorem hasRoom_onePipe :
    (∃ n s, Loop.run (fillTurn twoPipes.toGraphData [0, 1, 2] onePipeUsers) n
        (Filling.init twoPipes.toGraphData onePipeUsers [flowOf 0 1 10]) = .finished s ∧
      Respects twoPipes.toGraphData [0, 1, 2] onePipeUsers s.flows) ∧
    ∀ s s₁, Loop.Visits (fillTurn twoPipes.toGraphData [0, 1, 2] onePipeUsers)
        (Filling.init twoPipes.toGraphData onePipeUsers [flowOf 0 1 10]) s →
      fillTurn twoPipes.toGraphData [0, 1, 2] onePipeUsers s = .next s₁ → s.step = 0 →
      0 < s₁.step → HasRoom twoPipes.toGraphData [0, 1, 2] onePipeUsers s₁ := by
  have hend : ((Loop.run (fillTurn twoPipes.toGraphData [0, 1, 2] onePipeUsers) 1
      (Filling.init twoPipes.toGraphData onePipeUsers [flowOf 0 1 10])).state?.map fun s =>
        decide (Respects twoPipes.toGraphData [0, 1, 2] onePipeUsers s.flows)) = some true := by
    decide +kernel
  obtain ⟨s, hrun, hrespects⟩ := Option.map_eq_some_iff.mp hend
  have hrespected : ∃ n s, Loop.run (fillTurn twoPipes.toGraphData [0, 1, 2] onePipeUsers) n
        (Filling.init twoPipes.toGraphData onePipeUsers [flowOf 0 1 10]) = .finished s ∧
      Respects twoPipes.toGraphData [0, 1, 2] onePipeUsers s.flows :=
    ⟨1, s, Loop.Ending.eq_finished hrun, of_decide_eq_true hrespects⟩
  refine ⟨hrespected, ?_⟩
  refine (fill_respects_iff twoPipes [0, 1, 2] onePipeUsers [flowOf 0 1 10] (by decide) ?_).mp
    hrespected
  simp [Flow.Fresh, flowOf]

/-! ## Neighbours of two clients -/

/-- Two pipes from one vertex, of 100 and 10, and a pipe of 6 from another. -/
def fanOut : MNGraph ℚ where
  myVertices := [virtnode, virtnode, virtnode, virtnode]
  myEdges := [pipe 0 1 100, pipe 0 2 10, pipe 3 1 6]
  mySpecs := ∅
  built := by
    refine ⟨?_, ?_, by decide, by decide⟩ <;> decide

/-- A flow through the first pipe, two through the second and three through the third one. -/
def fanFlows : List Flow :=
  [flowOf 0 1 10, flowOf 0 2 10, flowOf 0 2 10, flowOf 3 1 6, flowOf 3 1 6, flowOf 3 1 6]

theorem adjacent_fanFlows :
    ∀ f ∈ fanFlows, f.Adjacent fanOut.toGraphData (sources fanOut.toGraphData) := by
  have hall : ∀ f ∈ fanFlows, f.target ≠ f.source ∧
      (sources fanOut.toGraphData).count f.source = 1 ∧ (f.edge? fanOut.toGraphData).isSome := by
    decide
  exact fun f hf => Or.inr (hall f hf)

/-- The third pipe is full after a third of the step; then the second one gets all of its 10 once
more, and has 50/3 in the end. -/
theorem not_respects_fanOut :
    ∃ r, buildFlowLists .exact fanOut.toGraphData (sources fanOut.toGraphData) fanFlows = some r ∧
      RegisteredOnce fanOut.toGraphData fanFlows r.users ∧
      ¬ ∃ n s, Loop.run (fillTurn fanOut.toGraphData (sources fanOut.toGraphData) r.users) n
          (Filling.init fanOut.toGraphData r.users r.flows) = .finished s ∧
        Respects fanOut.toGraphData (sources fanOut.toGraphData) r.users s.flows := by
  obtain ⟨r, hlists, hentered⟩ := entered_buildFlowLists (c := .exact) (fun _ => by decide)
    adjacent_fanFlows
  refine ⟨r, hlists, registeredOnce_of_entered fanOut.built (by decide) adjacent_fanFlows hentered,
    ?_⟩
  rintro ⟨n, s, hrun, hrespects⟩
  have hend : ((buildFlowLists .exact fanOut.toGraphData (sources fanOut.toGraphData)
      fanFlows).bind fun r => (Loop.run (fillTurn fanOut.toGraphData (sources fanOut.toGraphData)
        r.users) 6 (Filling.init fanOut.toGraphData r.users r.flows)).state?.map fun s =>
          totalRate s.flows (usersOf r.users 1)) = some (50 / 3) := by decide +kernel
  rw [hlists, Option.bind_some] at hend
  obtain ⟨s', hrun', hrate⟩ := Option.map_eq_some_iff.mp hend
  rw [Loop.run_finished_unique (Loop.Ending.eq_finished hrun') hrun] at hrate
  have hle := hrespects.pipes 1 (by decide)
  rw [hrate] at hle
  exact absurd hle (by decide +kernel)

end Modelnet.Tools

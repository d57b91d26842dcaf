import Mathlib.Algebra.Order.Ring.Rat
import Mathlib.Tactic.FieldSimp
import Mathlib.Tactic.Linarith
import Modelnet.Tools.FlowLifecycles

/-!
# The limits of flows

What a flow of `traffic` keeps to in every run, whatever the sockets and the clock do: a cap, which
it passes by one `send` at most (`mainLoop_transferCap`), the times between its sends
(`mainLoop_spacing`), and its rate (`mainLoop_rate`). A flow without a destination never comes to an
end: once its connection is pending, the next turn adds the socket -1 to an `fd_set`
(`mainLoop_unreachable`).
-/

namespace Modelnet.Tools.Traffic

variable {fl : ℚ → ℚ} {st st' : State} {p : ℕ} {d : Decl} {t0 : ℚ} {decls : List (ℕ × Decl)}
  {turns : List Turn}

theorem flow_start (hnodup : (decls.map Prod.fst).Nodup) (hd : (p, d) ∈ decls) :
    (readFlows fl t0 decls).flow p = d.flow fl t0 ∧
      TracksAt (readFlows fl t0 decls) p .waiting := by
  obtain ⟨htracks, hflow⟩ := @tracks_readFlows fl t0 decls hnodup
  have hat := htracks.phase p
  rw [show startPhases decls p = .waiting from if_pos (List.mem_map_of_mem hd)] at hat
  exact ⟨hflow _ hd, hat⟩

theorem connect_cases (socket : ℤ) (f : Flow) : ∃ s, f.connect socket = { f with s } := by
  unfold Flow.connect
  split_ifs
  exacts [⟨f.s, rfl⟩, ⟨socket, rfl⟩]

/-! ## Caps -/

/-- A flow with a cap counts the bytes that its socket has taken. -/
structure Capped (d : Decl) (p : ℕ) (st : State) : Prop where
  transferCap : (st.flow p).transferCap = d.transferCap
  sent : (st.flow p).sent.toInt = st.taken p
  taken_le : (st.taken p : ℤ) ≤ max (d.transferCap.toInt - 1) 0 + 1400
  duration : p ∉ st.finished → (st.flow p).duration = d.duration
  reached : p ∈ st.finished → d.duration < 0 → d.transferCap.toInt ≤ st.taken p

theorem Capped.of_same (h : Capped d p st) (hsame : Same st st' p) : Capped d p st' := by
  constructor
  · rw [hsame.flow, h.transferCap]
  · rw [hsame.flow, hsame.taken, h.sent]
  · rw [hsame.taken]
    exact h.taken_le
  · rw [hsame.finished, hsame.flow]
    exact h.duration
  · rw [hsame.finished, hsame.taken]
    exact h.reached

theorem Capped.service (h : Capped d p st) (hcap : d.transferCap.toInt + 1399 < 2 ^ 31)
    (hroom : (st.taken p : ℤ) ≤ max (d.transferCap.toInt - 1) 0) (hs : (st.flow p).s ≠ -1)
    (hfinished : p ∉ st.finished) (now : ℚ) (r : SendResult) :
    Capped d p (service fl now r st p) := by
  obtain ⟨n, -, heq⟩ | ⟨-, heq⟩ | ⟨-, heq⟩ := service_cases now r hs
  · rw [heq]
    have hn := n.isLt
    constructor
    · simpa using h.transferCap
    · dsimp only
      rw [Function.update_self, Function.update_self]
      dsimp only
      have hofNat : (Int32.ofNat n).toInt = (n : ℕ) := by
        rw [Int32.toInt_ofNat']
        refine Int.bmod_eq_of_le ?_ ?_ <;> simp only [Int32.size] <;> omega
      rw [Int32.toInt_add, hofNat, h.sent, Nat.cast_add]
      refine Int.bmod_eq_of_le ?_ ?_ <;> omega
    · dsimp only
      rw [Function.update_self]
      omega
    · simpa using h.duration
    · exact fun hmem => absurd hmem hfinished
  · rw [heq]
    exact ⟨h.transferCap, h.sent, h.taken_le, h.duration, h.reached⟩
  · rw [heq]
    exact ⟨h.transferCap, h.sent, h.taken_le, h.duration, h.reached⟩

/-- A flow passes its cap by less than one `send`, and without a limit in time it is not finished
before it has come to its cap. -/
theorem mainLoop_transferCap (hnodup : (decls.map Prod.fst).Nodup)
    (h : mainLoop fl t0 decls turns = some st) (hd : (p, d) ∈ decls)
    (hpos : 0 ≤ d.transferCap.toInt) (hcap : d.transferCap.toInt + 1399 < 2 ^ 31) :
    (st.taken p : ℤ) ≤ max (d.transferCap.toInt - 1) 0 + 1400 ∧
      (p ∈ st.finished → d.duration < 0 → d.transferCap.toInt ≤ st.taken p) := by
  obtain ⟨hflow, hat⟩ : (readFlows fl t0 decls).flow p = d.flow fl t0 ∧
      TracksAt (readFlows fl t0 decls) p .waiting := flow_start hnodup hd
  suffices hcapped : Capped d p st from ⟨hcapped.taken_le, hcapped.reached⟩
  refine mainLoop_flow hnodup h ?_ (fun st st' hsame hJ => hJ.of_same hsame) ?_ ?_ ?_ ?_
  · have htaken := (hat.fresh (.inl rfl)).1
    have hfinished : p ∉ (readFlows fl t0 decls).finished := fun hf => by
      simpa using hat.finished.mp hf
    constructor
    · rw [hflow]
      rfl
    · rw [hflow, htaken]
      rfl
    · rw [htaken]
      omega
    · exact fun _ => congrArg Flow.duration hflow
    · exact fun hf => absurd hf hfinished
  · intro st tv r hat hs hJ
    have hhand := inHand_newConnection hat (ne_of_inFdSet hs) (getTime fl tv)
    refine Capped.service ?_ hcap ?_ hhand.socket hhand.finished _ r
    · constructor
      · simpa using hJ.transferCap
      · simpa using hJ.sent
      · exact hJ.taken_le
      · simpa using hJ.duration
      · exact hJ.reached
    · show (st.taken p : ℤ) ≤ _
      rw [(hat.fresh (.inr rfl)).1]
      omega
  · intro st q t _ c _ hat _ _ hJ
    obtain ⟨s, heq⟩ := connect_cases c.socket (st.flow p)
    unfold State.connect
    dsimp only
    rw [heq]
    constructor
    · simpa using hJ.transferCap
    · simpa using hJ.sent
    · exact hJ.taken_le
    · simpa using hJ.duration
    · exact hJ.reached
  · intro st q tv hat _ hexpired hJ
    have hfinished : p ∉ st.finished := fun hf => by simpa using hat.finished.mp hf
    unfold State.expire
    constructor
    · simpa [Flow.destroy] using hJ.transferCap
    · simpa [Flow.destroy] using hJ.sent
    · exact hJ.taken_le
    · simp
    · intro _ hneg
      rcases hexpired with ⟨-, hle⟩ | ⟨hle, -⟩
      · rw [Int32.le_iff_toInt_le, hJ.sent, hJ.transferCap] at hle
        exact hle
      · rw [hJ.duration hfinished] at hle
        exact absurd hle (not_le.mpr hneg)
  · intro st q tv r hat _ _ hexpired hJ
    have hs : (st.flow p).s ≠ -1 := fun hs => by simpa using (hat.socket (.inr rfl)).mp hs
    have hfinished : p ∉ st.finished := fun hf => by simpa using hat.finished.mp hf
    have hcapped : Capped d p { st with q } :=
      ⟨hJ.transferCap, hJ.sent, hJ.taken_le, hJ.duration, hJ.reached⟩
    refine hcapped.service hcap ?_ hs hfinished _ r
    show (st.taken p : ℤ) ≤ _
    by_contra hroom
    refine hexpired (.inl ⟨?_, ?_⟩)
    · rw [Int32.le_iff_toInt_le, hJ.transferCap]
      exact hpos
    · rw [Int32.le_iff_toInt_le, hJ.sent, hJ.transferCap]
      omega

theorem mainLoop_transferCap_kilobyte : ∃ st,
    mainLoop id 0 kilobyte kilobyteTurns = some st ∧ (st.taken 0 : ℤ) ≤ 1023 + 1400 ∧
      (0 ∈ st.finished → 1024 ≤ st.taken 0) := by
  obtain ⟨st, hst, -⟩ := exists_kilobyte 3
  obtain ⟨hle, hreached⟩ :=
    mainLoop_transferCap (by decide) hst mem_kilobyte (by decide) (by decide)
  exact ⟨st, hst, hle, fun hf => Nat.cast_le.mp (hreached hf (by decide))⟩

/-! ## Times -/

/-- The entry of a flow is not before the time that its last `send` and its rate allow. -/
structure Paced (fl : ℚ → ℚ) (rate : ℚ) (p : ℕ) (st : State) : Prop where
  rate_eq : (st.flow p).rate = rate
  spaced : ∀ e ∈ st.q, e.flow = p → ∀ t n, (st.flow p).lastSend = some (t, n) →
    fl (t + fl (n / rate)) ≤ e.t

theorem Paced.of_same {rate : ℚ} (h : Paced fl rate p st) (hsame : Same st st' p) :
    Paced fl rate p st' := by
  constructor
  · rw [hsame.flow, h.rate_eq]
  · intro e he hp t n hlast
    rw [hsame.flow] at hlast
    exact h.spaced e ((hsame.queue e hp).mp he) hp t n hlast

/-- The flow is served at a time that its last `send` allows. -/
theorem Paced.service {rate : ℚ} (hfl : ∀ tv, getTime fl tv ≤ fl (getTime fl tv + fl (1 / 1000000)))
    (hpos : 0 < rate) (hrate : (st.flow p).rate = rate) (hs : (st.flow p).s ≠ -1)
    (hgone : ∀ e ∈ st.q, e.flow ≠ p) (tv : Timeval) (r : SendResult)
    (hdue : ∀ t n, (st.flow p).lastSend = some (t, n) → fl (t + fl (n / rate)) ≤ getTime fl tv) :
    Paced fl rate p (service fl (getTime fl tv) r st p) := by
  obtain ⟨n, -, heq⟩ | ⟨-, heq⟩ | ⟨-, heq⟩ := service_cases (getTime fl tv) r hs
  · rw [heq]
    constructor
    · simpa using hrate
    · intro e he hp t k hlast
      rcases List.mem_cons.mp he with rfl | he
      · dsimp only at hlast
        rw [Function.update_self] at hlast
        cases hlast
        unfold Flow.delay
        rw [hrate, if_pos hpos]
      · exact absurd hp (hgone e he)
  · rw [heq]
    refine ⟨hrate, fun e he hp t k hlast => ?_⟩
    rcases List.mem_cons.mp he with rfl | he
    · exact (hdue t k hlast).trans (hfl tv)
    · exact absurd hp (hgone e he)
  · rw [heq]
    exact ⟨hrate, fun e he hp => absurd hp (hgone e he)⟩

/-- A flow with a rate is not served before the time that its last `send` has taken at this rate
is over. -/
theorem mainLoop_spacing
    (hfl : ∀ tv, getTime fl tv ≤ fl (getTime fl tv + fl (1 / 1000000)))
    (hnodup : (decls.map Prod.fst).Nodup) (h : mainLoop fl t0 decls turns = some st)
    (hd : (p, d) ∈ decls) (hpos : 0 < fl (d.rate * 128)) :
    ∀ e ∈ st.q, e.flow = p → ∀ t n, (st.flow p).lastSend = some (t, n) →
      fl (t + fl (n / fl (d.rate * 128))) ≤ e.t := by
  obtain ⟨hflow, hat⟩ : (readFlows fl t0 decls).flow p = d.flow fl t0 ∧
      TracksAt (readFlows fl t0 decls) p .waiting := flow_start hnodup hd
  suffices hpaced : Paced fl (fl (d.rate * 128)) p st from hpaced.spaced
  refine mainLoop_flow hnodup h ?_ (fun st st' hsame hJ => hJ.of_same hsame) ?_ ?_ ?_ ?_
  · refine ⟨congrArg Flow.rate hflow, fun e _ _ t n hlast => ?_⟩
    rw [(hat.fresh (.inl rfl)).2.2] at hlast
    cases hlast
  · intro st tv r hat hs hJ
    have hhand := inHand_newConnection hat (ne_of_inFdSet hs) (getTime fl tv)
    refine Paced.service hfl hpos ?_ hhand.socket ?_ tv r fun t n hlast => ?_
    · simpa using hJ.rate_eq
    · exact fun e he hp => hhand.queue (hp ▸ List.mem_map_of_mem he)
    · dsimp only at hlast
      rw [Function.update_self] at hlast
      rw [show (st.flow p).lastSend = none from (hat.fresh (.inr rfl)).2.2] at hlast
      cases hlast
  · intro st q t _ c _ hat hgone _ hJ
    obtain ⟨s, heq⟩ := connect_cases c.socket (st.flow p)
    unfold State.connect
    dsimp only
    rw [heq]
    exact ⟨by simpa using hJ.rate_eq, fun e he hp => absurd hp (hgone e he)⟩
  · intro st q tv hat hgone _ hJ
    unfold State.expire
    exact ⟨by simpa [Flow.destroy] using hJ.rate_eq, fun e he hp => absurd hp (hgone e he)⟩
  · intro st q tv r hat hgone hdue _ hJ
    have hs : (st.flow p).s ≠ -1 := fun hs => by simpa using (hat.socket (.inr rfl)).mp hs
    obtain ⟨e, he, hp, hle⟩ := hdue
    refine Paced.service hfl hpos ?_ ?_ ?_ tv r ?_
    exacts [hJ.rate_eq, hs, hgone, fun t n hlast => (hJ.spaced e he hp t n hlast).trans hle]

theorem mainLoop_spacing_kilobyte : ∃ st,
    mainLoop id 0 kilobyte (kilobyteTurns.take 2) = some st ∧
      ∀ e ∈ st.q, e.flow = 0 → ∀ t n, (st.flow 0).lastSend = some (t, n) →
        t + n / (128 * 128) ≤ e.t := by
  obtain ⟨st, hst, -⟩ := exists_kilobyte 2
  have hfl : ∀ tv, getTime id tv ≤ id (getTime id tv + id (1 / 1000000)) := fun tv =>
    le_add_of_nonneg_right (by norm_num)
  have hspacing := mainLoop_spacing hfl (by decide) hst mem_kilobyte (by norm_num)
  exact ⟨st, hst, hspacing⟩

/-! ## Rates -/

/-- A flow has sent what its rate allows, and at most one `send` more. -/
structure RateKept (rate : ℚ) (p : ℕ) (st : State) : Prop where
  rate_eq : (st.flow p).rate = rate
  unsent : (st.flow p).lastSend = none → st.taken p = 0
  sent : ∀ t n, (st.flow p).lastSend = some (t, n) →
    (st.taken p : ℚ) ≤ rate * (t - (st.flow p).start) + n
  due : ∀ e ∈ st.q, e.flow = p → p ∈ st.connected →
    (st.taken p : ℚ) ≤ rate * (e.t - (st.flow p).start)

theorem RateKept.of_same {rate : ℚ} (h : RateKept rate p st) (hsame : Same st st' p) :
    RateKept rate p st' := by
  constructor
  · rw [hsame.flow, h.rate_eq]
  · rw [hsame.flow, hsame.taken]
    exact h.unsent
  · rw [hsame.flow, hsame.taken]
    exact h.sent
  · intro e he hp hconnected
    rw [hsame.taken, hsame.flow]
    exact h.due e ((hsame.queue e hp).mp he) hp (hsame.connected.mp hconnected)

theorem RateKept.service {rate : ℚ} (hpos : 0 < rate) (h : RateKept rate p st)
    (hs : (st.flow p).s ≠ -1) (hgone : ∀ e ∈ st.q, e.flow ≠ p) {now : ℚ} (r : SendResult)
    (hdue : (st.taken p : ℚ) ≤ rate * (now - (st.flow p).start)) :
    RateKept rate p (service id now r st p) := by
  obtain ⟨n, -, heq⟩ | ⟨-, heq⟩ | ⟨-, heq⟩ := service_cases now r hs
  · have hn : (0 : ℚ) ≤ (n : ℕ) := Nat.cast_nonneg _
    rw [heq]
    constructor
    · simpa using h.rate_eq
    · intro hnone
      simp at hnone
    · intro t k hlast
      dsimp only at hlast ⊢
      rw [Function.update_self] at hlast ⊢
      cases hlast
      rw [Function.update_self, Nat.cast_add]
      dsimp only
      linarith
    · intro e he hp _
      rcases List.mem_cons.mp he with rfl | he
      · have hdelay : (st.flow p).delay id n = (n : ℕ) / rate := by
          unfold Flow.delay
          rw [h.rate_eq, if_pos hpos]
          rfl
        have hmul : rate * ((n : ℕ) / rate) = (n : ℕ) := mul_div_cancel₀ _ hpos.ne'
        dsimp only
        rw [Function.update_self, Function.update_self, Nat.cast_add, hdelay]
        dsimp only [id]
        linarith
      · exact absurd hp (hgone e he)
  · rw [heq]
    refine ⟨h.rate_eq, h.unsent, h.sent, fun e he hp _ => ?_⟩
    rcases List.mem_cons.mp he with rfl | he
    · dsimp only [id]
      have hmore : 0 ≤ rate * (1 / 1000000) := mul_nonneg hpos.le (by norm_num)
      linarith
    · exact absurd hp (hgone e he)
  · rw [heq]
    exact ⟨h.rate_eq, h.unsent, h.sent, fun e he hp => absurd hp (hgone e he)⟩

/-- Where the clock is not rounded, a flow with a rate has never sent more since it was connected
than its rate allows and the last `send`. -/
theorem mainLoop_rate (hnodup : (decls.map Prod.fst).Nodup)
    (h : mainLoop id t0 decls turns = some st) (hd : (p, d) ∈ decls) (hpos : 0 < d.rate) :
    ∀ t n, (st.flow p).lastSend = some (t, n) →
      (st.taken p : ℚ) ≤ d.rate * 128 * (t - (st.flow p).start) + n := by
  obtain ⟨hflow, hat⟩ : (readFlows id t0 decls).flow p = d.flow id t0 ∧
      TracksAt (readFlows id t0 decls) p .waiting := flow_start hnodup hd
  have hrate : 0 < d.rate * 128 := mul_pos hpos (by norm_num)
  suffices hkept : RateKept (d.rate * 128) p st from hkept.sent
  refine mainLoop_flow hnodup h ?_ (fun st st' hsame hJ => hJ.of_same hsame) ?_ ?_ ?_ ?_
  · obtain ⟨htaken, -, hnone⟩ := hat.fresh (.inl rfl)
    refine ⟨congrArg Flow.rate hflow, fun _ => htaken, fun t n hlast => ?_, fun e _ _ hc => ?_⟩
    · rw [hnone] at hlast
      cases hlast
    · simpa using hat.connected.mp hc
  · intro st tv r hat hs hJ
    obtain ⟨htaken, -, hnone⟩ := hat.fresh (.inr rfl)
    have hhand := inHand_newConnection hat (ne_of_inFdSet hs) (getTime id tv)
    have hgone : ∀ e ∈ st.q, e.flow ≠ p := fun e he hp =>
      hhand.queue (hp ▸ List.mem_map_of_mem he)
    refine RateKept.service hrate ?_ hhand.socket hgone r ?_
    · refine ⟨by simpa using hJ.rate_eq, fun _ => htaken, fun t n hlast => ?_, fun e he hp =>
        absurd hp (hgone e he)⟩
      dsimp only at hlast
      rw [Function.update_self] at hlast
      rw [show (st.flow p).lastSend = none from hnone] at hlast
      cases hlast
    · dsimp only
      rw [Function.update_self, htaken, sub_self, mul_zero]
      rfl
  · intro st q t _ c _ hat hgone _ hJ
    obtain ⟨s, heq⟩ := connect_cases c.socket (st.flow p)
    unfold State.connect
    dsimp only
    rw [heq]
    refine ⟨by simpa using hJ.rate_eq, by simpa using hJ.unsent, fun t n hlast => ?_, fun e he hp =>
      absurd hp (hgone e he)⟩
    dsimp only at hlast ⊢
    rw [Function.update_self] at hlast ⊢
    exact hJ.sent t n hlast
  · intro st q tv hat hgone _ hJ
    unfold State.expire Flow.destroy
    refine ⟨by simpa using hJ.rate_eq, by simpa using hJ.unsent, fun t n hlast => ?_, fun e he hp =>
      absurd hp (hgone e he)⟩
    dsimp only at hlast ⊢
    rw [Function.update_self] at hlast ⊢
    exact hJ.sent t n hlast
  · intro st q tv r hat hgone hdue _ hJ
    have hs : (st.flow p).s ≠ -1 := fun hs => by simpa using (hat.socket (.inr rfl)).mp hs
    obtain ⟨e, he, hp, hle⟩ := hdue
    have hkept : RateKept (d.rate * 128) p { st with q } :=
      ⟨hJ.rate_eq, hJ.unsent, hJ.sent, fun e he hp => absurd hp (hgone e he)⟩
    refine hkept.service hrate hs hgone r ?_
    have hdue := hJ.due e he hp (hat.connected.mpr (.inl rfl))
    have hmore := mul_le_mul_of_nonneg_left
      (sub_le_sub_right hle (st.flow p).start) hrate.le
    exact hdue.trans hmore

theorem mainLoop_rate_kilobyte : ∃ st,
    mainLoop id 0 kilobyte (kilobyteTurns.take 2) = some st ∧
      ∀ t n, (st.flow 0).lastSend = some (t, n) →
        (st.taken 0 : ℚ) ≤ 128 * 128 * (t - (st.flow 0).start) + n := by
  obtain ⟨st, hst, -⟩ := exists_kilobyte 2
  have hrate := mainLoop_rate (by decide) hst mem_kilobyte (by norm_num)
  exact ⟨st, hst, hrate⟩

/-! ## Sockets -/

/-- A flow whose address and port are given. -/
def Decl.Reachable (d : Decl) : Prop := d.dst ≠ 0 ∧ UInt16.ofInt d.port.toInt ≠ 0

instance (d : Decl) : Decidable d.Reachable := inferInstanceAs (Decidable (_ ∧ _))

/-- A flow that is pending has a place in the `fd_set`. -/
structure Placed (d : Decl) (p : ℕ) (st : State) : Prop where
  dst : (st.flow p).dst = d.dst
  port : (st.flow p).port = UInt16.ofInt d.port.toInt
  pending : p ∈ st.pending → InFdSet (st.flow p).s

/-- A flow that has not got a socket: it waits for its start, or its start has passed and it is
pending. -/
structure Stuck (fl : ℚ → ℚ) (t0 : ℚ) (turns : List Turn) (d : Decl) (p : ℕ) (st : State) :
    Prop where
  dst : (st.flow p).dst = d.dst
  port : (st.flow p).port = UInt16.ofInt d.port.toInt
  socket : (st.flow p).s = -1
  held : (p ∈ st.q.map QueueEntry.flow ∧ p ∉ st.pending ∧
      ∀ e ∈ st.q, e.flow = p → e.t = fl (d.startTime + t0)) ∨
    (p ∉ st.q.map QueueEntry.flow ∧ p ∈ st.pending ∧
      ∃ t ∈ turns, ∃ tv ∈ t.clocks, fl (d.startTime + t0) ≤ getTime fl tv)

theorem service_addr (now : ℚ) (r : SendResult) (st : State) (p x : ℕ) :
    ((service fl now r st p).flow x).dst = (st.flow x).dst ∧
      ((service fl now r st p).flow x).port = (st.flow x).port := by
  by_cases hs : (st.flow p).s = -1
  · unfold service
    rw [if_pos hs]
    exact ⟨rfl, rfl⟩
  · obtain ⟨n, -, heq⟩ | ⟨-, heq⟩ | ⟨-, heq⟩ := service_cases now r hs
    · rw [heq]
      by_cases hx : x = p
      · subst hx
        simp
      · simp [hx]
    · rw [heq]
      exact ⟨rfl, rfl⟩
    · rw [heq]
      exact ⟨rfl, rfl⟩

/-- Where every flow has an address and a port, and every socket has a place in an `fd_set`, the
sets that are made in a run have a place for each flow that is pending. -/
theorem mainLoop_placed (hnodup : (decls.map Prod.fst).Nodup)
    (hreachable : ∀ d ∈ decls, d.2.Reachable)
    (hsockets : ∀ t ∈ turns, ∀ c ∈ t.cycles, InFdSet c.socket)
    (h : mainLoop fl t0 decls turns = some st) (writable : Option (ℤ → Bool)) :
    (checkPending writable st).isSome := by
  suffices hplaced : ∀ p ∈ st.pending, InFdSet (st.flow p).s by
    unfold checkPending
    rw [if_pos hplaced]
    rfl
  intro p hp
  obtain ⟨φ, hsteps, htracks⟩ := exists_phases hnodup h
  have hknown : p ∈ decls.map Prod.fst := by
    by_contra hunknown
    have habsent := (absent_iff hsteps p).mpr (if_neg hunknown)
    rw [(htracks.phase p).pending, habsent] at hp
    cases hp
  obtain ⟨d, hd⟩ : ∃ d, (p, d) ∈ decls := by simpa using hknown
  obtain ⟨hdst, hport⟩ := hreachable _ hd
  obtain ⟨hflow, hat⟩ := @flow_start fl p d t0 decls hnodup hd
  suffices hplaced : Placed d p st from hplaced.pending hp
  refine mainLoop_flow (p := p) hnodup h ?_ ?_ ?_ ?_ ?_ ?_
  · refine ⟨congrArg Flow.dst hflow, congrArg Flow.port hflow, fun hpending => ?_⟩
    simpa using hat.pending.mp hpending
  · intro st st' hsame hJ
    refine ⟨?_, ?_, ?_⟩
    · rw [hsame.flow, hJ.dst]
    · rw [hsame.flow, hJ.port]
    · rw [hsame.flow, hsame.pending]
      exact hJ.pending
  · intro st tv r hat _ hJ
    have haddr := @service_addr fl (getTime fl tv) r
    unfold newConnection
    refine ⟨?_, ?_, ?_⟩
    · rw [(haddr _ p p).1]
      simpa using hJ.dst
    · rw [(haddr _ p p).2]
      simpa using hJ.port
    · rw [service_pending]
      simp
  · intro st q t ht c hc hat _ _ hJ
    have hs := (hat.socket (.inl rfl)).mpr rfl
    have hconnect : (st.flow p).connect c.socket = { st.flow p with s := c.socket } := by
      unfold Flow.connect
      rw [if_neg (by rw [hJ.dst, hJ.port, hs]; simp [hdst, hport])]
    unfold State.connect
    dsimp only
    rw [hconnect]
    refine ⟨by simpa using hJ.dst, by simpa using hJ.port, fun _ => ?_⟩
    simpa using hsockets t ht c hc
  · intro st q tv hat _ _ hJ
    unfold State.expire Flow.destroy
    refine ⟨by simpa using hJ.dst, by simpa using hJ.port, fun hpending => ?_⟩
    simpa using hat.pending.mp hpending
  · intro st q tv r hat _ _ _ hJ
    have haddr := @service_addr fl (getTime fl tv) r
    refine ⟨(haddr _ p p).1.trans hJ.dst, (haddr _ p p).2.trans hJ.port, ?_⟩
    rw [service_pending]
    exact fun hpending => by simpa using hat.pending.mp hpending

theorem mainLoop_placed_kilobyte : ∃ st,
    mainLoop id 0 kilobyte (kilobyteTurns.take 1) = some st ∧ (checkPending none st).isSome := by
  obtain ⟨st, hst, -⟩ := exists_kilobyte 1
  exact ⟨st, hst, mainLoop_placed (by decide) (by decide) (by decide) hst none⟩

/-- A flow without an address or without a port has no socket. It waits in the queue for its start;
when that has passed it is pending, and there is no other turn, whatever the turn meets: the sockets
are put into an `fd_set`, and that of the flow is -1. -/
theorem mainLoop_unreachable (hnodup : (decls.map Prod.fst).Nodup)
    (h : mainLoop fl t0 decls turns = some st) (hd : (p, d) ∈ decls) (hbad : ¬ d.Reachable) :
    (st.flow p).s = -1 ∧
    ((p ∈ st.q.map QueueEntry.flow ∧ p ∉ st.pending ∧
        ∀ e ∈ st.q, e.flow = p → e.t = fl (d.startTime + t0)) ∨
      (p ∉ st.q.map QueueEntry.flow ∧ p ∈ st.pending ∧
        (∃ t ∈ turns, ∃ tv ∈ t.clocks, fl (d.startTime + t0) ≤ getTime fl tv) ∧
        (∀ writable, checkPending writable st = none) ∧ ∀ t, turn fl st t = none)) := by
  obtain ⟨hflow, hat⟩ := @flow_start fl p d t0 decls hnodup hd
  suffices hstuck : Stuck fl t0 turns d p st by
    refine ⟨hstuck.socket, hstuck.held.imp_right fun ⟨hq, hp, hpassed⟩ => ?_⟩
    have hcheck : ∀ writable, checkPending writable st = none := by
      intro writable
      unfold checkPending
      refine if_neg fun hset => ?_
      have hplace := hset p hp
      rw [hstuck.socket] at hplace
      exact ne_of_inFdSet hplace rfl
    refine ⟨hq, hp, hpassed, hcheck, fun t => ?_⟩
    unfold turn
    rw [if_pos (.inl ⟨p, hp⟩)]
    unfold connections
    rw [if_pos ⟨p, hp⟩, hcheck]
    rfl
  refine mainLoop_flow (p := p) hnodup h ?_ ?_ ?_ ?_ ?_ ?_
  · refine ⟨congrArg Flow.dst hflow, congrArg Flow.port hflow, congrArg Flow.s hflow,
      .inl ⟨hat.queue.mpr (.inl rfl), fun hp => ?_, fun e he hflow => ?_⟩⟩
    · cases hat.pending.mp hp
    · obtain ⟨d', hd', ht⟩ := mem_queue_readFlows he
      rw [hflow] at hd'
      have heq := List.inj_on_of_nodup_map hnodup hd hd' rfl
      rw [ht, ← (Prod.mk.inj heq).2]
      rfl
  · intro st st' hsame hJ
    refine ⟨?_, ?_, ?_, ?_⟩
    · rw [hsame.flow, hJ.dst]
    · rw [hsame.flow, hJ.port]
    · rw [hsame.flow, hJ.socket]
    · rw [hsame.mem_queue, hsame.pending]
      refine hJ.held.imp_left fun ⟨hq, hp, hstart⟩ => ⟨hq, hp, fun e he hflow => ?_⟩
      exact hstart e ((hsame.queue e hflow).mp he) hflow
  · intro st tv r hat hs hJ
    rw [hJ.socket] at hs
    exact absurd rfl (ne_of_inFdSet hs)
  · intro st q t ht c hc hat hgone hdue hJ
    have hconnect : (st.flow p).connect c.socket = st.flow p := by
      unfold Flow.connect
      refine if_pos ?_
      rw [hJ.dst, hJ.port]
      by_contra hgood
      exact hbad ⟨fun h0 => hgood (.inl h0), fun h0 => hgood (.inr (.inl h0))⟩
    obtain ⟨e, he, hflow, tv, htv, hle⟩ := hdue
    have hstart : ∀ e ∈ st.q, e.flow = p → e.t = fl (d.startTime + t0) := by
      rcases hJ.held with ⟨-, -, hstart⟩ | ⟨hq, -, -⟩
      · exact hstart
      · exact absurd (hat.queue.mpr (.inl rfl)) hq
    rw [hstart e he hflow] at hle
    unfold State.connect
    dsimp only
    rw [hconnect, Function.update_eq_self]
    refine ⟨hJ.dst, hJ.port, hJ.socket, .inr ⟨fun hq => ?_, Finset.mem_insert_self p _,
      t, ht, tv, htv, hle⟩⟩
    obtain ⟨e', he', hflow'⟩ := List.mem_map.mp hq
    exact hgone e' he' hflow'
  · intro st q tv hat _ _ hJ
    exact absurd ((hat.socket (.inr rfl)).mp hJ.socket) (by decide)
  · intro st q tv r hat _ _ _ hJ
    exact absurd ((hat.socket (.inr rfl)).mp hJ.socket) (by decide)

def portless : List (ℕ × Decl) := [(0, ⟨1, 65536, 0, -1, 128, 1024⟩)]

theorem mainLoop_unreachable_portless : ∃ st,
    mainLoop id 0 portless (kilobyteTurns.take 1) = some st ∧ (st.flow 0).s = -1 ∧
      (0 ∈ st.q.map QueueEntry.flow ∨ ∀ t, turn id st t = none) := by
  obtain ⟨st, hst⟩ : ∃ st, mainLoop id 0 portless (kilobyteTurns.take 1) = some st :=
    Option.isSome_iff_exists.mp (by decide +kernel)
  obtain ⟨hsocket, hheld⟩ :=
    mainLoop_unreachable (by decide) hst (List.mem_singleton_self _) (by decide)
  exact ⟨st, hst, hsocket, hheld.imp (fun hq => hq.1) fun hp => hp.2.2.2.2⟩

end Modelnet.Tools.Traffic

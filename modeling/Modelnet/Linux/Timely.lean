import Modelnet.Linux.Sections

/-!
# When a packet is linked

The tick that `emulate_hop` reads is not the tick at which it links the packet: the clock runs in
between. The due tick lies behind the tick that was read by the latency of the hop at least, unless
a hop without a bandwidth limit starts from an old exit tick. So the packet is linked in time as
long as the clock gains no more than the latency (`Punctual`).
-/

namespace Modelnet

/-- The ring of a hop with a bandwidth limit holds a queue. -/
def Hop.Backed (hop : Hop) : Prop := hop.KBps ≠ 0 → 0 < hop.qsize → ∃ q, hop.Refines q

theorem Hop.backed_install (hz i : ℕ) (r : SysctlHop) : (Hop.install hz i r).Backed :=
  fun _ hq => ⟨[], Hop.refines_install hz i hq⟩

namespace Linux

/-- A crossing starts from the current tick, or from an exit tick that is not older. -/
def Current (hop : Hop) (curtick randomVal : ℕ) : Prop :=
  hop.KBps = 0 → ¬ willDropPacketPlr hop randomVal = true → hop.slotdepth ≠ 0 →
    curtick ≤ hop.lastExit

variable {hz len curtick randomVal : ℕ} {hop hop' : Hop}

theorem backed_emulateHop {out : Outcome} (h : hop.Backed)
    (hemulate : emulateHop hz hop len curtick randomVal = some (hop', out)) : hop'.Backed := by
  have hsame := (sameParams_emulateHop hemulate).1
  intro hK hq
  rw [hsame.KBps] at hK
  rw [hsame.qsize] at hq
  obtain ⟨q, hr⟩ := h hK hq
  obtain ⟨hop₁, out₁, q', heq, -, -, hr'⟩ := emulateHop_step hz len curtick randomVal hK hq hr
  obtain ⟨rfl, -⟩ := Prod.mk.inj (Option.some.inj (hemulate.symm.trans heq))
  exact ⟨q', hr'⟩

/-- **Due ticks.** The latency lies between the tick that was read and the due tick. -/
theorem le_due {x : ℕ} {due : ℤ} (h : hop.Backed) (hcur : Current hop curtick randomVal)
    (hemulate : emulateHop hz hop len curtick randomVal = some (hop', .queued x due)) :
    curtick + hop.delay ≤ due := by
  have hdue := (sameParams_emulateHop hemulate).2 x due rfl
  have hx : curtick ≤ x := by
    by_cases hK : hop.KBps ≠ 0
    · have hq : 0 < hop.qsize := by
        cases crosses_emulateHop (c := ⟨curtick, len, randomVal⟩) hemulate with
        | accepted hroom _ => exact (Int.natCast_nonneg _).trans_lt (hroom hK)
      obtain ⟨q, hr⟩ := h hK hq
      obtain ⟨hop₁, out₁, q', heq, hstep, -, -⟩ :=
        emulateHop_step hz len curtick randomVal hK hq hr
      obtain ⟨-, rfl⟩ := Prod.mk.inj (Option.some.inj (hemulate.symm.trans heq))
      cases hstep with
      | queued _ _ hx => exact (LinkQueue.le_tailExit_purge q curtick).trans hx
    · rw [not_not] at hK
      have hq : hop.qsize ≠ 0 := by
        intro hq
        unfold emulateHop at hemulate
        rw [if_pos hq] at hemulate
        cases hemulate
      by_cases hdrop :
          (willDropPacketPlr hop randomVal || willDropPacketBw (drained hop curtick)) = true
      · obtain ⟨n, heq⟩ := emulateHop_dropped hz len curtick randomVal hq hdrop
        cases hemulate.symm.trans heq
      · have hlost : ¬ willDropPacketPlr hop randomVal = true := fun hl =>
          hdrop (by rw [hl, Bool.true_or])
        rw [emulateHop_accepted hz len hq hdrop, drained_of_unlimited hK] at hemulate
        have hle : curtick ≤ hop.tailExit curtick := by
          unfold Hop.tailExit
          split_ifs with hd
          · exact hcur hK hlost hd
          · exact Nat.le_refl _
        unfold Hop.accept at hemulate
        split_ifs at hemulate
        cases hemulate
        exact hle.trans (Nat.le_add_right _ _)
  omega

/-! ## What a step does to the hops -/

/-- The tables after a step that crosses at most one hop. -/
inductive TabStep (hz : ℕ) (t : PathTab) : PathTab → Prop where
  | same : TabStep hz t t
  | crossed {ptr : HopPtr} {hop hop' : Hop} {out : Outcome} {len curtick randomVal : ℕ}
      (hhop : t.hops ptr = some hop)
      (hemulate : emulateHop hz hop len curtick randomVal = some (hop', out)) :
      TabStep hz t (t.setHop ptr hop')

variable {t t' : PathTab}

theorem TabStep.backed (h : TabStep hz t t') (ht : ∀ ptr hop, t.hops ptr = some hop → hop.Backed) :
    ∀ ptr hop, t'.hops ptr = some hop → hop.Backed := by
  cases h with
  | same => exact ht
  | @crossed ptr hop hop' _ _ _ _ hhop hemulate =>
    intro q hop₁ h₁
    by_cases hq : q = ptr
    · subst hq
      have hself : (t.setHop q hop').hops q = some hop' := Function.update_self _ _ _
      cases Option.some.inj (hself.symm.trans h₁)
      exact backed_emulateHop (ht q hop hhop) hemulate
    · exact ht q hop₁ ((Function.update_of_ne hq _ _).symm.trans h₁)

theorem TabStep.delay (h : TabStep hz t t') {ptr : HopPtr} (hhop : t.hops ptr = some hop) :
    ∃ hop', t'.hops ptr = some hop' ∧ hop'.delay = hop.delay := by
  cases h with
  | same => exact ⟨hop, hhop, rfl⟩
  | @crossed ptr' hop₁ hop' _ _ _ _ hhop₁ hemulate =>
    by_cases hq : ptr = ptr'
    · subst hq
      cases Option.some.inj (hhop.symm.trans hhop₁)
      exact ⟨hop', Function.update_self _ _ _, (sameParams_emulateHop hemulate).1.delay⟩
    · exact ⟨hop, (Function.update_of_ne hq _ _).trans hhop, rfl⟩

namespace Kernel

variable {k k' : Kernel} {p : PktId}

theorem tab_mnFreePkt (h : k.mnFreePkt p = some k') : k'.tab = k.tab := by
  obtain ⟨pkt, -, h⟩ := Option.bind_eq_some_iff.mp h
  split at h
  · cases h
    rfl
  · obtain ⟨k₁, hk₁, rfl⟩ := Option.map_eq_some_iff.mp h
    obtain ⟨_, -, rfl⟩ := Option.map_eq_some_iff.mp hk₁
    rfl

theorem tab_forwardPacket (h : k.forwardPacket p = some k') : k'.tab = k.tab := by
  obtain ⟨pkt, -, h⟩ := Option.bind_eq_some_iff.mp h
  split at h
  · cases h
    rfl
  · obtain ⟨_, -, h⟩ := Option.bind_eq_some_iff.mp h
    obtain ⟨_, -, rfl⟩ := Option.map_eq_some_iff.mp h
    rfl

theorem tab_finishNexthop {ptr : HopPtr} {ret : ℤ} (h : k.finishNexthop p ptr ret = some k') :
    k'.tab = k.tab := by
  obtain ⟨pkt, -, h⟩ := Option.bind_eq_some_iff.mp h
  obtain ⟨path, -, h⟩ := Option.bind_eq_some_iff.mp h
  obtain ⟨hop, -, h⟩ := Option.bind_eq_some_iff.mp h
  have hset : (k.setPkt p (pkt.incr path)).tab = k.tab := rfl
  dsimp only at h
  split_ifs at h
  · exact (tab_mnFreePkt h).trans hset
  · exact (tab_mnFreePkt h).trans hset
  · cases h
    rfl

theorem tab_hopSection {ptr : HopPtr} {r : Kernel × Outcome}
    (h : k.hopSection hz p ptr curtick randomVal = some r) :
    ∃ hop hop' len, k.tab.hops ptr = some hop ∧
      Linux.emulateHop hz hop len curtick randomVal = some (hop', r.2) ∧
      r.1.tab = k.tab.setHop ptr hop' := by
  obtain ⟨pkt, -, h⟩ := Option.bind_eq_some_iff.mp h
  obtain ⟨hop, hhop, h⟩ := Option.bind_eq_some_iff.mp h
  obtain ⟨⟨hop', out⟩, hemulate, rfl⟩ := Option.map_eq_some_iff.mp h
  cases out with
  | dropped => exact ⟨hop, hop', _, hhop, hemulate, rfl⟩
  | queued => exact ⟨hop, hop', _, hhop, hemulate, rfl⟩

theorem tabStep_emulateNexthop (h : k.emulateNexthop hz p = some k') :
    TabStep hz k.tab k'.tab := by
  obtain ⟨pkt, -, h⟩ := Option.bind_eq_some_iff.mp h
  obtain ⟨path, -, h⟩ := Option.bind_eq_some_iff.mp h
  obtain ⟨curhop, -, h⟩ := Option.bind_eq_some_iff.mp h
  cases curhop with
  | none =>
    obtain ⟨k₁, hk₁, h⟩ := Option.bind_eq_some_iff.mp h
    rw [tab_mnFreePkt h, tab_forwardPacket hk₁]
    exact .same
  | some ptr =>
    obtain ⟨hop, -, h⟩ := Option.bind_eq_some_iff.mp h
    obtain ⟨r, hr, h⟩ := Option.bind_eq_some_iff.mp h
    rw [tab_finishNexthop h]
    split_ifs at hr
    · cases hr
      exact .same
    · obtain ⟨r', hr', rfl⟩ := Option.map_eq_some_iff.mp hr
      obtain ⟨hop₁, hop', len, hhop₁, hemulate, htab⟩ := tab_hopSection hr'
      obtain ⟨k₁, out⟩ := r'
      cases out with
      | dropped => exact htab ▸ .crossed hhop₁ hemulate
      | queued => exact htab ▸ .crossed hhop₁ hemulate

theorem tab_beginNexthop {r : Kernel × Option Pc} (h : k.beginNexthop p = some r) :
    r.1.tab = k.tab ∧ ∀ ptr curtick due, r.2 ≠ some (.link ptr curtick due) := by
  obtain ⟨pkt, -, h⟩ := Option.bind_eq_some_iff.mp h
  obtain ⟨path, -, h⟩ := Option.bind_eq_some_iff.mp h
  obtain ⟨curhop, -, h⟩ := Option.bind_eq_some_iff.mp h
  cases curhop with
  | none =>
    obtain ⟨k₂, hk₂, rfl⟩ := Option.map_eq_some_iff.mp h
    obtain ⟨k₁, hk₁, h⟩ := Option.bind_eq_some_iff.mp hk₂
    exact ⟨(tab_mnFreePkt h).trans (tab_forwardPacket hk₁), fun _ _ _ h => by cases h⟩
  | some ptr =>
    obtain ⟨hop, -, h⟩ := Option.bind_eq_some_iff.mp h
    split_ifs at h
    · obtain ⟨k₁, hk₁, rfl⟩ := Option.map_eq_some_iff.mp h
      exact ⟨tab_finishNexthop hk₁, fun _ _ _ h => by cases h⟩
    · cases h
      exact ⟨rfl, fun _ _ _ h => by cases h⟩

end Kernel

/-! ## The calls that wait to link their packets -/

namespace Machine

/-- The guard: a crossing starts from a current tick, and a packet is linked before the clock has
gained more than the latency of the hop on the tick that was read. -/
def Punctual (m : Machine) : Move → Prop
  | .hook p => ∀ c, m.calls p = some c →
    match c.pc with
    | .cross ptr randomVal curtick =>
      ∀ hop, m.kernel.tab.hops ptr = some hop → Current hop curtick randomVal
    | .link ptr curtick _ => m.clockLocks = false →
      ∀ hop, m.kernel.tab.hops ptr = some hop → m.kernel.calendarTick ≤ curtick + hop.delay
    | _ => True
  | _ => True

/-- What is claimed: the due tick has not passed when the packet is linked. -/
def Timely (m : Machine) : Move → Prop
  | .hook p => ∀ c, m.calls p = some c →
    match c.pc with
    | .link _ _ due => m.clockLocks = false → m.kernel.calendarTick ≤ due
    | _ => True
  | _ => True

/-- Every call that waits to link its packet has a due tick behind the latency of its hop. -/
structure Waiting (m : Machine) : Prop where
  backed : ∀ ptr hop, m.kernel.tab.hops ptr = some hop → hop.Backed
  due : ∀ p c ptr curtick due, m.calls p = some c → c.pc = .link ptr curtick due →
    ∃ hop, m.kernel.tab.hops ptr = some hop ∧ curtick + hop.delay ≤ due

variable {m m' : Machine} {p : PktId} {s : SkbId}

theorem Waiting.congr (h : m.Waiting) (htab : TabStep hz m.kernel.tab m'.kernel.tab)
    (hcalls : ∀ p c, m'.calls p = some c → m.calls p = some c ∨
      ∀ ptr curtick due, c.pc = .link ptr curtick due →
        ∃ hop, m'.kernel.tab.hops ptr = some hop ∧ curtick + hop.delay ≤ due) : m'.Waiting := by
  refine ⟨htab.backed h.backed, fun p c ptr curtick due hc hpc => ?_⟩
  rcases hcalls p c hc with hold | hnew
  · obtain ⟨hop, hhop, hle⟩ := h.due p c ptr curtick due hold hpc
    obtain ⟨hop', hhop', hdelay⟩ := htab.delay hhop
    exact ⟨hop', hhop', hdelay ▸ hle⟩
  · exact hnew ptr curtick due hpc

theorem Waiting.resume (h : m.Waiting) {r : Kernel × Option Pc}
    (htab : TabStep hz m.kernel.tab r.1.tab)
    (hlink : ∀ ptr curtick due, r.2 = some (.link ptr curtick due) →
      ∃ hop, r.1.tab.hops ptr = some hop ∧ curtick + hop.delay ≤ due) :
    (m.resume p s r).Waiting := by
  obtain ⟨k, pc⟩ := r
  cases pc with
  | none =>
    refine h.congr htab fun q c hc => Or.inl ?_
    by_cases hq : q = p
    · subst hq
      exact absurd ((Function.update_self _ _ _).symm.trans hc) (by simp)
    · exact (Function.update_of_ne hq _ _).symm.trans hc
  | some pc =>
    refine h.congr htab fun q c hc => ?_
    by_cases hq : q = p
    · subst hq
      have hself : (m.resume q s (k, some pc)).calls q = some ⟨s, pc⟩ :=
        Function.update_self _ _ _
      cases Option.some.inj (hself.symm.trans hc)
      exact Or.inr fun ptr curtick due hpc => hlink ptr curtick due (congrArg some hpc)
    · exact Or.inl ((Function.update_of_ne hq _ _).symm.trans hc)

theorem Waiting.section (h : m.Waiting) {c : HookCall}
    (hcur : ∀ ptr randomVal curtick, c.pc = .cross ptr randomVal curtick →
      ∀ hop, m.kernel.tab.hops ptr = some hop → Current hop curtick randomVal)
    {r : Kernel × Option Pc} (hr : m.kernel.callSection hz p c.pc = some r) :
    (m.resume p c.skb r).Waiting := by
  have hsame : TabStep hz m.kernel.tab m.kernel.tab := .same
  cases hpc : c.pc with
  | readTick ptr randomVal =>
    rw [hpc] at hr
    cases hr
    exact h.resume hsame fun _ _ _ h => by cases h
  | cross ptr randomVal curtick =>
    rw [hpc] at hr
    obtain ⟨⟨k, out⟩, hsection, rfl⟩ := Option.map_eq_some_iff.mp hr
    obtain ⟨hop, hop', len, hhop, hemulate, htab⟩ := Kernel.tab_hopSection hsection
    have hstep : TabStep hz m.kernel.tab k.tab := htab ▸ .crossed hhop hemulate
    cases out with
    | dropped => exact h.resume hstep fun _ _ _ h => by cases h
    | queued x due =>
      refine h.resume hstep fun ptr' curtick' due' heq => ?_
      cases heq
      have hself : k.tab.hops ptr = some hop' := by
        rw [show k.tab = _ from htab]
        exact Function.update_self _ _ _
      refine ⟨hop', hself, ?_⟩
      rw [(sameParams_emulateHop hemulate).1.delay]
      exact le_due (h.backed ptr hop hhop) (hcur ptr randomVal curtick hpc hop hhop) hemulate
  | link ptr curtick due =>
    rw [hpc] at hr
    cases hr
    exact h.resume hsame fun _ _ _ h => by cases h
  | advance ptr ret =>
    rw [hpc] at hr
    obtain ⟨k, hk, rfl⟩ := Option.map_eq_some_iff.mp hr
    have hstep : TabStep hz m.kernel.tab k.tab := by
      rw [Kernel.tab_finishNexthop hk]
      exact hsame
    exact h.resume hstep fun _ _ _ h => by cases h

theorem Waiting.step (h : m.Waiting) {move : Move} (hguard : m.Punctual move)
    (hstep : m.step hz move = some m') : m'.Waiting := by
  have hsame : TabStep hz m.kernel.tab m.kernel.tab := .same
  cases move with
  | input skb kmallocOk okfn =>
    obtain ⟨r, henter, hstep⟩ := Option.bind_eq_some_iff.mp hstep
    have htab : r.1.tab = m.kernel.tab := by
      cases Kernel.entered_of_enter henter with
      | passed => rfl
      | noPath => rfl
      | started => rfl
    obtain ⟨k, pkt⟩ := r
    cases pkt with
    | none =>
      cases hstep
      have hverdict : TabStep hz m.kernel.tab k.tab := htab ▸ hsame
      exact h.congr hverdict fun _ _ hc => Or.inl hc
    | some p =>
      obtain ⟨r, hbegin, rfl⟩ := Option.map_eq_some_iff.mp hstep
      obtain ⟨hbegun, hlink⟩ := Kernel.tab_beginNexthop hbegin
      have hbegin : TabStep hz m.kernel.tab r.1.tab := (hbegun.trans htab) ▸ hsame
      exact h.resume hbegin fun ptr curtick due heq => absurd heq (hlink ptr curtick due)
  | hook p =>
    unfold Machine.step at hstep
    dsimp only at hstep
    cases hc : m.calls p with
    | none =>
      rw [hc] at hstep
      cases hstep
      exact h
    | some c =>
      rw [hc] at hstep
      dsimp only at hstep
      split_ifs at hstep
      · cases hstep
        exact h
      · obtain ⟨r, hr, rfl⟩ := Option.map_eq_some_iff.mp hstep
        refine h.section (fun ptr randomVal curtick hpc hop hhop => ?_) hr
        have hpunctual := hguard c hc
        rw [hpc] at hpunctual
        exact hpunctual hop hhop
  | lockCalendar =>
    cases hstep
    exact h.congr hsame fun _ _ hc => Or.inl hc
  | clock turn =>
    unfold Machine.step at hstep
    dsimp only at hstep
    split_ifs at hstep
    · obtain ⟨k', hk', rfl⟩ := Option.map_eq_some_iff.mp hstep
      have hclock : TabStep hz m.kernel.tab k'.tab := by
        rcases Kernel.clockTurn_cases hk' with rfl | ⟨-, hslot, rfl⟩ | ⟨-, p, l, hslot, hnext⟩
        · exact hsame
        · exact hsame
        · have hdel : TabStep hz (m.kernel.listDel m.kernel.curSlot p).tab k'.tab :=
            Kernel.tabStep_emulateNexthop hnext
          exact hdel
      exact h.congr hclock fun _ _ hc => Or.inl hc
    · cases hstep
      exact h
  | unlockCalendar =>
    cases hstep
    exact h.congr hsame fun _ _ hc => Or.inl hc

/-- A call that is punctual links its packet in time. -/
theorem Waiting.timely (h : m.Waiting) {move : Move} (hguard : m.Punctual move) :
    m.Timely move := by
  cases move with
  | hook p =>
    intro c hc
    have hpunctual := hguard c hc
    cases hpc : c.pc with
    | link ptr curtick due =>
      rw [hpc] at hpunctual
      intro hlock
      obtain ⟨hop, hhop, hle⟩ := h.due p c ptr curtick due hc hpc
      exact (hpunctual hlock hop hhop).trans hle
    | _ => trivial
  | _ => trivial

/-- **Timely insertion.** In every order of sections and turns in which every crossing starts from
a current tick, and the clock gains no more than the latency of the hop until a packet is linked,
every packet is linked in time. -/
theorem timely_of_punctual (hz jiffies : ℕ) (random : ℕ → ℕ) {tab : PathTab}
    (hhops : ∀ ptr hop, tab.hops ptr = some hop → hop.Backed) {moves : List Move}
    (hguard : PartialRun.Guarded (step hz) Punctual (load jiffies random tab) moves) :
    PartialRun.Guarded (step hz) Timely (load jiffies random tab) moves :=
  hguard.imp (fun _ _ _ h hg hstep => Waiting.step h hg hstep) (fun _ _ h hg => Waiting.timely h hg)
    ⟨hhops, fun _ _ _ _ _ hc => by cases hc⟩

/-- A packet arrives; between the tick its call reads and the insertion the clock gains `n`. -/
def slowCall (n : ℕ) : List Move :=
  [.input ⟨0x0a000000, 0x0a000001, 1500⟩ true 7, .hook 0, .lockCalendar] ++
    List.replicate n (.clock .tick) ++ [.unlockCalendar, .hook 0, .hook 0]

theorem backed_oneLink : ∀ ptr hop, PathTab.oneLink.hops ptr = some hop → hop.Backed := by
  intro ptr hop hhop
  unfold PathTab.oneLink at hhop
  dsimp only at hhop
  split_ifs at hhop
  cases hhop
  exact Hop.backed_install _ _ _

/-- A clock that gains three ticks is no harm. -/
theorem timely_three_ticks :
    PartialRun.Guarded (step 1000) Timely (load 0 (fun _ => 0) PathTab.oneLink) (slowCall 3) := by
  refine timely_of_punctual 1000 0 (fun _ => 0) backed_oneLink ⟨trivial, fun m₁ h₁ => ?_⟩
  cases h₁
  refine ⟨fun c hc => by cases hc; trivial, fun m₂ h₂ => ?_⟩
  cases h₂
  refine ⟨trivial, fun m₃ h₃ => ⟨trivial, fun m₄ h₄ => ⟨trivial, fun m₅ h₅ => ⟨trivial,
    fun m₆ h₆ => ⟨trivial, fun m₇ h₇ => ⟨fun c hc => ?_, fun m₈ h₈ => ⟨fun c hc => ?_,
      fun _ _ => trivial⟩⟩⟩⟩⟩⟩⟩
  all_goals
    cases h₃
    cases h₄
    cases h₅
    cases h₆
    cases h₇
  · cases hc
    intro hop hhop hK
    cases hhop
    exact absurd hK (by decide)
  · cases h₈
    cases hc
    intro _ hop hhop
    cases hhop
    decide

/-- A clock that gains thirteen ticks has passed the due tick, which is 12. -/
theorem not_timely_thirteen_ticks :
    ¬ PartialRun.Guarded (step 1000) Timely (load 0 (fun _ => 0) PathTab.oneLink)
      (slowCall 13) := by
  intro h
  have hstate : (PartialRun.run (step 1000) (load 0 (fun _ => 0) PathTab.oneLink)
      (slowCall 13).dropLast).map (fun m => (m.calls 0, m.clockLocks, m.kernel.calendarTick)) =
      some (some ⟨0, .link ⟨0, 0⟩ 0 12⟩, false, 13) := by decide +kernel
  obtain ⟨m, hm, hstate⟩ := Option.map_eq_some_iff.mp hstate
  obtain ⟨hcall, hstate⟩ := Prod.mk.inj hstate
  obtain ⟨hlock, htick⟩ := Prod.mk.inj hstate
  have hlast : m.Timely (.hook 0) := PartialRun.Guarded.last h hm
  have hle : (m.kernel.calendarTick : ℤ) ≤ 12 := hlast _ hcall hlock
  rw [htick] at hle
  omega

end Machine

end Linux

end Modelnet

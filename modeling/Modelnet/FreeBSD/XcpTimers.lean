import Modelnet.FreeBSD.HopClock
import Modelnet.FreeBSD.XtqSafety
import Modelnet.IndexSafety

/-!
# Timers of XCP hops

Whether the entries of `hop_calendar` are those of the XCP hops: one for each timeout of each hop.
A timeout that is called arms itself again, and the installation of XCP arms both timeouts, but
`xcp_free_pipe` takes none off the calendar (`xtq_unschedule_hop` is never called). So the timers
match the hops in every run in which no XCP hop is uninstalled; `TimersFit` says which loads and
modifications these are.
-/

namespace Modelnet.FreeBSD

open Modelnet PartialRun TimingWheel

namespace XtqState

/-- The entries of `hop_calendar`. -/
def timers (s : XtqState) : List (Timeout × HopPtr) :=
  (agenda schedLen s.hopCalendar s.calendarTick).map fun e => (e.2.timeout, e.2.hop)

/-- The entries are those of the XCP hops among the hops of `live`, one for each timeout. -/
structure Matches (s : XtqState) (live : HopPtr → Prop) : Prop where
  armed : ∀ h, live h → s.XcpInstalled h → ∀ f, s.timers.count (f, h) = 1
  entry : ∀ e ∈ s.timers, live e.2 ∧ s.XcpInstalled e.2

variable {s s' : XtqState} {live live' : HopPtr → Prop} {h h' : HopPtr} {hop : Hop} {t : ℤ}
  {env : XtqEnv}

theorem Matches.congr (hm : s.Matches live) (hlive : ∀ h, live' h ↔ live h)
    (hperm : s'.timers.Perm s.timers) (hxtq : s'.xtq = s.xtq) : s'.Matches live' := by
  have hinstalled : ∀ h, s'.XcpInstalled h ↔ s.XcpInstalled h := by
    intro h
    unfold XcpInstalled
    rw [hxtq]
  constructor
  · intro h hl hx f
    rw [hperm.count_eq]
    exact hm.armed h ((hlive h).mp hl) ((hinstalled h).mp hx) f
  · intro e he
    obtain ⟨hl, hx⟩ := hm.entry e (hperm.mem_iff.mp he)
    exact ⟨(hlive _).mpr hl, (hinstalled _).mpr hx⟩

theorem Matches.timers_eq_nil (hm : s.Matches live) (hnone : ∀ h, live h → ¬ s.XcpInstalled h) :
    s.timers = [] := by
  apply List.eq_nil_iff_forall_not_mem.mpr
  intro e he
  obtain ⟨hl, hx⟩ := hm.entry e he
  exact hnone _ hl hx

theorem Matches.count_eq_zero (hm : s.Matches live) (hnot : ¬ s.XcpInstalled h) (f : Timeout) :
    s.timers.count (f, h) = 0 := by
  apply List.count_eq_zero_of_not_mem
  intro hmem
  exact hnot (hm.entry _ hmem).2

theorem timers_scheduleHop (s : XtqState) (h : HopPtr) (f : Timeout) (d : ℕ) :
    (s.scheduleHop h f d true).timers.Perm ((f, h) :: s.timers) := by
  have hperm := agenda_insert_perm schedLen_pos (HopSched.due ⟨f, h, s.calendarTick, d⟩)
    s.hopCalendar s.calendarTick (⟨f, h, s.calendarTick, d⟩ : HopSched)
  have hmap := hperm.map fun e : HopSched => (e.timeout, e.hop)
  rw [List.map_map, List.map_cons, List.map_map] at hmap
  exact hmap

theorem timers_startPipe {a : Addr} (htq : env.tqSchedOk = true) (hte : env.teSchedOk = true) :
    (s.startPipe h hop env a).timers.Perm ((.te, h) :: (.tq, h) :: s.timers) := by
  unfold startPipe
  dsimp only
  rw [htq, hte]
  exact (timers_scheduleHop _ h .te _).trans ((timers_scheduleHop _ h .tq _).cons _)

theorem timers_countPipe (s : XtqState) : s.countPipe.timers = s.timers := by
  unfold countPipe
  dsimp only
  split_ifs <;> rfl

/-- **Installation.** An installable type on a hop without XCP keeps the timers in order. -/
theorem Matches.install (hm : s.Matches live) (hl : live h) (hnot : ¬ s.XcpInstalled h)
    (hinst : s.Installable t env) (htq : env.tqSchedOk = true) (hte : env.teSchedOk = true) :
    (s.xtqInstall h hop t env).Matches live := by
  obtain ⟨h0, h2, hmalloc⟩ := hinst
  rcases (by unfold xtqXcp; omega : t = xtqXcp ∨ t = 0 ∨ t = 2) with rfl | hplain
  · obtain ⟨a, ha⟩ := Option.isSome_iff_exists.mp (hmalloc rfl)
    have htimers : (s.xtqInstall h hop xtqXcp env).timers.Perm
        ((.te, h) :: (.tq, h) :: s.timers) := by
      rw [xtqInstall_allocated h hop ha]
      refine (timers_startPipe htq hte).trans (List.Perm.of_eq ?_)
      show _ :: _ :: (s.setXtq h (.xcp none)).countPipe.timers = _
      rw [timers_countPipe]
      rfl
    have hxtq : (s.xtqInstall h hop xtqXcp env).xtq = Function.update s.xtq h (.xcp (some a)) := by
      rw [xtqInstall_allocated h hop ha, startPipe_xtq]
      simp [setXtq]
    have hself : (s.xtqInstall h hop xtqXcp env).XcpInstalled h :=
      xcpInstalled_xcp (by rw [hxtq, Function.update_self])
    have hother : ∀ h', h' ≠ h →
        ((s.xtqInstall h hop xtqXcp env).XcpInstalled h' ↔ s.XcpInstalled h') := by
      intro h' hne
      unfold XcpInstalled
      rw [hxtq, Function.update_of_ne hne]
    constructor
    · intro h' hl' hx f
      rw [htimers.count_eq]
      by_cases hne : h' = h
      · subst hne
        have hzero := hm.count_eq_zero hnot
        cases f
        · simp [hzero]
        · simp [hzero]
      · have hone := hm.armed h' hl' ((hother h' hne).mp hx) f
        simp [hone, Ne.symm hne]
    · intro e he
      rcases List.mem_cons.mp (htimers.mem_iff.mp he) with rfl | he
      · exact ⟨hl, hself⟩
      rcases List.mem_cons.mp he with rfl | he
      · exact ⟨hl, hself⟩
      obtain ⟨hl', hx⟩ := hm.entry e he
      have hne : e.2 ≠ h := fun heq => hnot (heq ▸ hx)
      exact ⟨hl', (hother _ hne).mpr hx⟩
  · obtain ⟨u, hu, heq⟩ := xtqInstall_plain s h hop env hplain
    rw [heq]
    have hself : ¬ (s.setXtq h (.plain u)).XcpInstalled h := by
      unfold XcpInstalled
      rw [setXtq_xtq_self]
      exact hu
    constructor
    · intro h' hl' hx f
      have hne : h' ≠ h := fun heq => hself (heq ▸ hx)
      exact hm.armed h' hl' ((xcpInstalled_setXtq_ne hne _).mp hx) f
    · intro e he
      obtain ⟨hl', hx⟩ := hm.entry e he
      have hne : e.2 ≠ h := fun heq => hnot (heq ▸ hx)
      exact ⟨hl', (xcpInstalled_setXtq_ne hne _).mpr hx⟩

/-- A discipline with something to free is XCP. -/
def Functions (s : XtqState) : Prop := ∀ h, (s.xtq h).free.isSome ↔ s.XcpInstalled h

theorem xtqInstall_xtq (s : XtqState) (h : HopPtr) (hop : Hop) (t : ℤ) (env : XtqEnv) :
    ∃ q, (s.xtqInstall h hop t env).xtq = Function.update s.xtq h q ∧
      (q.free.isSome ↔ q.type = xtqXcp) := by
  by_cases hunknown : t < 0 ∨ 2 < t
  · exact ⟨.xcp none, by rw [xtqInstall_unknown hunknown]; rfl, by simp [ExtendedQ.xcp]⟩
  rcases (by unfold xtqXcp; omega : t = xtqXcp ∨ t = 0 ∨ t = 2) with rfl | hplain
  · cases hmalloc : s.mallocPipe env with
    | none =>
      refine ⟨.xcp none, ?_, by simp [ExtendedQ.xcp]⟩
      have hmalloc' : (s.setXtq h (.xcp none)).mallocPipe env = none := hmalloc
      rw [xtqInstall_xcp]
      unfold xcpAllocPipe
      simp only [mallocPipe_countPipe, hmalloc', setXtq_xtq_self, countPipe_xtq]
      simp [setXtq, ExtendedQ.xcp]
    | some a =>
      refine ⟨.xcp (some a), ?_, by simp [ExtendedQ.xcp]⟩
      rw [xtqInstall_allocated h hop hmalloc, startPipe_xtq]
      simp [setXtq]
  · obtain ⟨u, hu, heq⟩ := xtqInstall_plain s h hop env hplain
    exact ⟨.plain u, by rw [heq]; rfl, by simp [ExtendedQ.plain, hu]⟩

theorem Functions.install (hf : s.Functions) (h : HopPtr) (hop : Hop) (t : ℤ) (env : XtqEnv) :
    (s.xtqInstall h hop t env).Functions := by
  obtain ⟨q, hxtq, hq⟩ := xtqInstall_xtq s h hop t env
  intro h'
  unfold XcpInstalled
  rw [hxtq]
  by_cases hne : h' = h
  · subst hne
    rw [Function.update_self]
    exact hq
  · rw [Function.update_of_ne hne]
    exact hf h'

/-- `xcp_free_pipe` leaves the disciplines and the calendar as they are. -/
theorem xcpFreePipe_xtq (s : XtqState) (h : HopPtr) :
    (s.xcpFreePipe h).xtq = s.xtq ∧ (s.xcpFreePipe h).timers = s.timers := by
  unfold xcpFreePipe
  dsimp only
  split_ifs <;> exact ⟨rfl, rfl⟩

theorem mallocPipe_xtqInstall {e : XtqEnv} (hinst : s.Installable t env)
    (hother : t = xtqXcp → env.pipe ≠ e.pipe) (hmalloc : (s.mallocPipe e).isSome) :
    ((s.xtqInstall h hop t env).mallocPipe e).isSome := by
  obtain ⟨h0, h2, hpipe⟩ := hinst
  rcases (by unfold xtqXcp; omega : t = xtqXcp ∨ t = 0 ∨ t = 2) with rfl | hplain
  · obtain ⟨a, ha⟩ := Option.isSome_iff_exists.mp (hpipe rfl)
    obtain ⟨c, hc⟩ := Option.isSome_iff_exists.mp hmalloc
    have hac : c ≠ a := by
      rintro rfl
      exact hother rfl ((Option.filter_eq_some_iff.mp ha).1.trans
        (Option.filter_eq_some_iff.mp hc).1.symm)
    have hpipes : (s.xtqInstall h hop xtqXcp env).pipes c = s.pipes c := by
      rw [xtqInstall_allocated h hop ha, startPipe_pipes, Function.update_of_ne hac]
      exact congrFun (countPipe_pipes _) c
    have hfilter := Option.filter_eq_some_iff.mp hc
    refine Option.isSome_iff_exists.mpr ⟨c, Option.filter_eq_some_iff.mpr ⟨hfilter.1, ?_⟩⟩
    rw [hpipes]
    exact hfilter.2
  · obtain ⟨u, -, heq⟩ := xtqInstall_plain s h hop env hplain
    rw [heq]
    exact hmalloc

end XtqState

namespace XtqCore

open XtqState

/-- **The timers match the hops.** Every XCP hop of the table has one entry for each of its two
timeouts on the calendar, and there are no other entries. -/
def TimersMatch (c : XtqCore) : Prop := c.xs.Matches c.Installed

/-- `XTQ_GET_HS` finds an entry whenever it is asked for one. -/
def SchedOk : HopEvent → Prop
  | .load w => ∀ i, (w.env i).tqSchedOk = true ∧ (w.env i).teSchedOk = true
  | .hopmod w => w.env.tqSchedOk = true ∧ w.env.teSchedOk = true
  | .fire hsOk => hsOk = true
  | _ => True

/-- What the new hops get can be installed: the types are in the table, and each XCP hop gets a
pipe of its own. -/
def LoadOk (s : XtqState) (w : XtqHoptableWrite) : Prop :=
  (∀ i < w.hopcount.toInt.toNat, s.Installable (w.hops i).xtqType.toInt (w.env i)) ∧
    ∀ j < w.hopcount.toInt.toNat, ∀ i < j, (w.hops i).xtqType.toInt = xtqXcp →
      (w.hops j).xtqType.toInt = xtqXcp → (w.env i).pipe ≠ (w.env j).pipe

/-- The events that leave the timers in order: a table is loaded when no hop of the old one has XCP,
and an XCP hop is only modified with a negative type; what is installed can be installed. -/
def TimersFit (c : XtqCore) : HopEvent → Prop
  | .load w => LoadAccepted w →
      (∀ h, c.Installed h → ¬ c.xs.XcpInstalled h) ∧ LoadOk c.xs w
  | .hopmod w => c.HopmodAccepted w → ∀ b, c.tab.hoptable = some b →
      let t := w.mod.hop.xtqType.toInt
      if c.xs.XcpInstalled ⟨b, w.mod.hopidx.toInt⟩ then t < 0 else 0 ≤ t → c.xs.Installable t w.env
  | _ => True

/-- What holds in every state of such a run. -/
structure TimersInv (c : XtqCore) : Prop where
  timers : c.TimersMatch
  functions : c.xs.Functions
  table : ∀ h, c.Installed h ↔ ∃ b, c.tab.hoptable = some b ∧ InTable b c.tab.hopcount h

variable {c c' : XtqCore} {b : ℕ} {h : HopPtr}

theorem timersInv_boot (hz : ℕ) : (boot hz).TimersInv where
  timers := by
    constructor
    · intro h hl
      cases hl
    · intro e he
      have hempty : (XtqState.boot hz).timers = [] := by
        unfold XtqState.timers
        rw [List.map_eq_nil_iff, List.eq_nil_iff_forall_not_mem]
        intro e he
        exact absurd (mem_agenda.mp he).2 List.not_mem_nil
      exact absurd (hempty ▸ he) List.not_mem_nil
  functions := fun h => by simp [XtqState.boot, boot, XcpInstalled, ExtendedQ.plain, xtqNoxtq, xtqXcp]
  table := fun h => by simp [Installed, boot, PathTab.empty]

/-! ## Loading a table -/

theorem uninstallHops_eq (hf : c.xs.Functions) (n : ℕ)
    (hnone : ∀ i < n, ¬ c.xs.XcpInstalled ⟨b, i⟩) : uninstallHops b n c.xs = c.xs := by
  unfold uninstallHops
  induction n with
  | zero => rfl
  | succ n ih =>
    have hn : ¬ ((c.xs.xtq ⟨b, n⟩).free.isSome) := mt (hf _).mp (hnone n (Nat.lt_succ_self n))
    rw [List.range_succ, List.foldl_append, ih fun i hi => hnone i (Nat.lt_succ_of_lt hi)]
    show c.xs.xtqUninstall ⟨b, n⟩ Hop.zero (-1) .unused = c.xs
    rw [xtqUninstall_of_neg (by decide), if_neg hn]

/-- After the old table is gone there are no hops and no timers. -/
theorem TimersInv.uninitPaths (hc : c.TimersInv)
    (hnone : ∀ h, c.Installed h → ¬ c.xs.XcpInstalled h) :
    c.uninitPaths.xs = c.xs ∧ c.xs.timers = [] ∧ ∀ h, ¬ c.uninitPaths.Installed h := by
  refine ⟨?_, hc.timers.timers_eq_nil hnone, ?_⟩
  · unfold XtqCore.uninitPaths
    cases hb : c.tab.hoptable with
    | none => rfl
    | some b =>
      refine uninstallHops_eq hc.functions _ fun i hi => hnone _ ((hc.table _).mpr ⟨b, hb, rfl, ?_⟩)
      show (0 : ℤ) ≤ i ∧ (i : ℤ) < c.tab.hopcount
      omega
  · intro h hl
    obtain ⟨-, -, hhop, -, hhops⟩ := PathTab.freePath_frame c.tab
    have htable := hc.table h
    unfold Installed XtqCore.uninitPaths PathTab.uninitPaths at hl
    unfold Installed at htable
    cases hb : c.tab.hoptable with
    | none =>
      simp only [hhop, hb, hhops] at hl
      obtain ⟨b, hb', -⟩ := htable.mp hl
      rw [hb] at hb'
      cases hb'
    | some b =>
      simp only [hhop, hb, hhops] at hl
      split_ifs at hl with htab
      · cases hl
      · obtain ⟨b', hb', hin⟩ := htable.mp hl
        rw [hb] at hb'
        cases hb'
        exact htab hin.1

/-- One turn of the loop of `PathTab` writes one hop of the table. -/
theorem loadHops_one (hz b : ℕ) (hops : ℕ → SysctlHop) (exittickOk slotlenOk : ℕ → Bool) (i : ℕ)
    (t : PathTab) :
    ∃ hop, (PathTab.loadHops hz b hops exittickOk slotlenOk 1 i t).1 = t.setHop ⟨b, i⟩ hop := by
  unfold PathTab.loadHops
  dsimp only
  split_ifs
  · exact ⟨_, rfl⟩
  · exact ⟨_, rfl⟩
  · exact ⟨_, rfl⟩

/-- What the loop over the hops keeps: the timers, and the table it fills. -/
structure Loading (c : XtqCore) (b : ℕ) (n : ℤ) : Prop where
  timers : c.xs.Matches (InTable b n)
  functions : c.xs.Functions
  hoptable : c.tab.hoptable = some b
  hopcount : c.tab.hopcount = n
  hops : ∀ h, c.Installed h ↔ InTable b n h

theorem Loading.setHop {n : ℤ} (hl : c.Loading b n) {i : ℕ} (hi : (i : ℤ) < n) (hop : Hop) :
    Loading ⟨c.tab.setHop ⟨b, i⟩ hop, c.xs⟩ b n where
  timers := hl.timers
  functions := hl.functions
  hoptable := hl.hoptable
  hopcount := hl.hopcount
  hops := by
    intro h
    have hself : InTable b n ⟨b, i⟩ := ⟨rfl, Int.natCast_nonneg i, hi⟩
    unfold Installed PathTab.setHop
    dsimp only
    by_cases hne : h = ⟨b, i⟩
    · subst hne
      simp [hself]
    · rw [Function.update_of_ne hne]
      exact hl.hops h

theorem Loading.install {n : ℤ} (hl : c.Loading b n) {i : ℕ} (hi : (i : ℤ) < n) (hop : Hop)
    {t : ℤ} {env : XtqEnv} (hnot : ¬ c.xs.XcpInstalled ⟨b, i⟩) (hinst : c.xs.Installable t env)
    (htq : env.tqSchedOk = true) (hte : env.teSchedOk = true) :
    Loading ⟨c.tab, c.xs.xtqInstall ⟨b, i⟩ hop t env⟩ b n where
  timers := hl.timers.install ⟨rfl, Int.natCast_nonneg i, hi⟩ hnot hinst htq hte
  functions := hl.functions.install _ _ _ _
  hoptable := hl.hoptable
  hopcount := hl.hopcount
  hops := hl.hops

/-- The loop over the hops, while those from `i` on are still plain. -/
theorem Loading.loadHops {w : XtqHoptableWrite} {n : ℤ} (m i : ℕ) {c : XtqCore}
    (hl : c.Loading b n) (hn : i + m = n.toNat)
    (hplain : ∀ j < n.toNat, i ≤ j → ¬ c.xs.XcpInstalled ⟨b, j⟩)
    (hinst : ∀ j < n.toNat, i ≤ j → c.xs.Installable (w.hops j).xtqType.toInt (w.env j))
    (hpipes : ∀ j < n.toNat, ∀ k < j, (w.hops k).xtqType.toInt = xtqXcp →
      (w.hops j).xtqType.toInt = xtqXcp → (w.env k).pipe ≠ (w.env j).pipe)
    (hsched : ∀ j, (w.env j).tqSchedOk = true ∧ (w.env j).teSchedOk = true) :
    (XtqCore.loadHops b w m i c).1.Loading b n := by
  induction m generalizing i c with
  | zero => exact hl
  | succ m ih =>
    have hi : (i : ℤ) < n := by omega
    obtain ⟨hop, hone⟩ := loadHops_one c.xs.hz b w.hops w.exittickOk w.slotlenOk i c.tab
    have hset := hl.setHop hi hop
    unfold XtqCore.loadHops
    dsimp only
    rw [hone]
    split_ifs with hok
    · have hi' : i < n.toNat := by omega
      have hstep := hset.install hi (Hop.install c.xs.hz i (w.hops i)) (hplain i hi' le_rfl)
        (hinst i hi' le_rfl) (hsched i).1 (hsched i).2
      refine ih (i + 1) hstep (by omega) ?_ ?_
      · intro j hj hij
        obtain ⟨q, hxtq, -⟩ := xtqInstall_xtq c.xs ⟨b, i⟩ (Hop.install c.xs.hz i (w.hops i))
          (w.hops i).xtqType.toInt (w.env i)
        have hne : (⟨b, j⟩ : HopPtr) ≠ ⟨b, i⟩ := by
          intro heq
          injection heq with _ hji
          omega
        unfold XcpInstalled
        rw [hxtq, Function.update_of_ne hne]
        exact hplain j hj (by omega)
      · intro j hj hij
        obtain ⟨h0, h2, hmalloc⟩ := hinst j hj (by omega)
        exact ⟨h0, h2, fun hxcp => mallocPipe_xtqInstall (hinst i hi' le_rfl)
          (fun hxi => hpipes j hj i (by omega) hxi hxcp) (hmalloc hxcp)⟩
    · exact hset

/-! ## The events -/

theorem TimersInv.congr (hc : c.TimersInv) (hhops : ∀ h, c'.Installed h ↔ c.Installed h)
    (hhoptable : c'.tab.hoptable = c.tab.hoptable) (hhopcount : c'.tab.hopcount = c.tab.hopcount)
    (hperm : c'.xs.timers.Perm c.xs.timers) (hxtq : c'.xs.xtq = c.xs.xtq) : c'.TimersInv where
  timers := hc.timers.congr hhops hperm hxtq
  functions := by
    intro h
    unfold XcpInstalled
    rw [hxtq]
    exact hc.functions h
  table := by
    intro h
    rw [hhops h, hc.table h, hhoptable, hhopcount]

theorem TimersInv.of_setHop {hop : Hop} (hc : c.TimersInv) (hh : c.tab.hops h = some hop)
    (hop' : Hop) : TimersInv ⟨c.tab.setHop h hop', c.xs⟩ := by
  refine hc.congr (fun h' => ?_) rfl rfl (List.Perm.refl _) rfl
  unfold Installed PathTab.setHop
  dsimp only
  by_cases hne : h' = h
  · subst hne
    simp [hh]
  · rw [Function.update_of_ne hne]

theorem TimersInv.setPipe (hc : c.TimersInv) (a : Addr) (blk : XcpBlock) :
    (c.setPipe a blk).TimersInv :=
  hc.congr (fun _ => Iff.rfl) rfl rfl (List.Perm.refl _) rfl

theorem Loading.timersInv {n : ℤ} (hl : c.Loading b n) : c.TimersInv where
  timers := hl.timers.congr hl.hops (List.Perm.refl _) rfl
  functions := hl.functions
  table := by
    intro h
    rw [hl.hops h, hl.hopcount, hl.hoptable]
    simp

theorem TimersInv.loadHoptable {w : XtqHoptableWrite} (hc : c.TimersInv)
    (hsched : SchedOk (.load w)) (hnone : ∀ h, c.Installed h → ¬ c.xs.XcpInstalled h)
    (hload : LoadOk c.xs w) : (XtqCore.loadHoptable c w).1.TimersInv := by
  obtain ⟨hxs, htimers, hgone⟩ := hc.uninitPaths hnone
  have hnil : ∀ e, e ∉ c.xs.timers := fun e he => absurd (htimers ▸ he) List.not_mem_nil
  unfold XtqCore.loadHoptable
  dsimp only
  split_ifs with htable
  · have hxtq : ∀ h, InTable w.table w.hopcount.toInt h →
        ¬ (c.uninitPaths.openTable w.table w.hopcount.toInt).xs.XcpInstalled h := by
      intro h hin
      unfold XcpInstalled openTable
      dsimp only
      rw [if_pos hin]
      decide
    have hopen : (c.uninitPaths.openTable w.table w.hopcount.toInt).Loading w.table
        w.hopcount.toInt := by
      constructor
      · constructor
        · intro h hin hxcp
          exact absurd hxcp (hxtq h hin)
        · intro e he
          have he' : e ∈ c.uninitPaths.xs.timers := he
          rw [hxs] at he'
          exact absurd he' (hnil e)
      · intro h
        unfold XcpInstalled openTable
        dsimp only
        split_ifs
        · decide
        · rw [hxs]
          exact hc.functions h
      · rfl
      · rfl
      · intro h
        unfold Installed openTable
        dsimp only
        split_ifs with hin
        · simp [hin]
        · exact iff_of_false (hgone h) hin
    have hpipes : (c.uninitPaths.openTable w.table w.hopcount.toInt).xs.pipes = c.xs.pipes := by
      show c.uninitPaths.xs.pipes = _
      rw [hxs]
    refine (hopen.loadHops _ 0 (Nat.zero_add _) ?_ ?_ hload.2 hsched).timersInv
    · intro j hj _
      exact hxtq _ ⟨rfl, Int.natCast_nonneg j, by show (j : ℤ) < _; omega⟩
    · intro j hj _
      have hj' := hload.1 j hj
      unfold Installable mallocPipe at hj' ⊢
      rw [hpipes]
      exact hj'
  · constructor
    · constructor
      · intro h hin
        exact absurd hin (hgone h)
      · intro e he
        rw [hxs] at he
        exact absurd he (hnil e)
    · rw [hxs]
      exact hc.functions
    · intro h
      refine iff_of_false (hgone h) ?_
      rintro ⟨b, hb, -⟩
      cases hb

theorem TimersInv.load {w : XtqHoptableWrite} (hc : c.TimersInv) (hsched : SchedOk (.load w))
    (hfit : c.TimersFit (.load w)) : (c.sysctlHophandle w).1.TimersInv := by
  unfold XtqCore.sysctlHophandle
  by_cases herror : w.error ≠ 0 ∨ ¬ w.newptr = true
  · rw [if_pos herror]
    exact hc
  rw [if_neg herror]
  by_cases hsize : ¬ (w.hopsOk = true ∧ 0 ≤ w.hopcount.toInt)
  · rw [if_pos hsize]
    exact hc
  rw [if_neg hsize]
  obtain ⟨hnone, hload⟩ := hfit ⟨by tauto, not_not.mp hsize⟩
  have halloc : TimersInv ⟨c.tab.alloc, c.xs⟩ :=
    hc.congr (fun _ => Iff.rfl) rfl rfl (List.Perm.refl _) rfl
  have hr := halloc.loadHoptable hsched hnone hload
  dsimp only
  split_ifs
  · exact hr.congr (fun _ => Iff.rfl) rfl rfl (List.Perm.refl _) rfl
  · exact hr

/-- A modification: an XCP hop keeps its discipline and its timers, another one gets what is
installed. -/
theorem TimersInv.hopmod {w : HopmodWrite} {ret : ℤ} (hc : c.TimersInv)
    (hsched : SchedOk (.hopmod w)) (hfit : c.TimersFit (.hopmod w))
    (hmod : c.sysctlHopmodhandle w = some (c', ret)) : c'.TimersInv := by
  rcases sysctlHopmodhandle_cases hmod with heq | ⟨haccepted, b, hop, hb, hhop, heq⟩
  · have hsame : c' = c := heq
    rw [hsame]
    exact hc
  have hsame : c' = c.modified w b hop := heq
  subst hsame
  unfold modified
  dsimp only
  have hset := hc.of_setHop hhop (sysctlHopmod c.xs.hz hop w.mod.hop)
  have hcond := hfit haccepted b hb
  dsimp only at hcond
  by_cases hxcp : c.xs.XcpInstalled ⟨b, w.mod.hopidx.toInt⟩
  · rw [if_pos hxcp] at hcond
    obtain ⟨hxtq, htimers⟩ := xcpFreePipe_xtq c.xs ⟨b, w.mod.hopidx.toInt⟩
    rw [xtqUninstall_of_neg (by omega), if_pos ((hc.functions _).mpr hxcp)]
    exact hset.congr (fun _ => Iff.rfl) rfl rfl (List.Perm.of_eq htimers) hxtq
  · rw [if_neg hxcp] at hcond
    have hfree := mt (hc.functions ⟨b, w.mod.hopidx.toInt⟩).mp hxcp
    by_cases h0 : 0 ≤ w.mod.hop.xtqType.toInt
    · rw [xtqUninstall_of_nonneg h0, if_neg hfree]
      have hlive : Installed ⟨c.tab.setHop ⟨b, w.mod.hopidx.toInt⟩
          (sysctlHopmod c.xs.hz hop w.mod.hop), c.xs⟩ ⟨b, w.mod.hopidx.toInt⟩ := by
        simp [Installed, PathTab.setHop]
      exact ⟨hset.timers.install hlive hxcp (hcond h0) hsched.1 hsched.2,
        hset.functions.install _ _ _ _, hset.table⟩
    · rw [xtqUninstall_of_neg h0, if_neg hfree]
      exact hset

theorem TimersInv.arrive {random : ℕ} {info : RemotePacket} (hc : c.TimersInv)
    (harrive : c.arrive h random info = some c') : c'.TimersInv := by
  unfold XtqCore.arrive at harrive
  obtain ⟨hop, hhop, harrive⟩ := Option.bind_eq_some_iff.mp harrive
  obtain ⟨r, -, harrive⟩ := Option.bind_eq_some_iff.mp harrive
  have hset := hc.of_setHop hhop r.1
  dsimp only at harrive
  cases hout : r.2 with
  | dropped plr bw =>
    rw [hout] at harrive
    cases harrive
    exact hset
  | queued tailexit due =>
    rw [hout] at harrive
    dsimp only at harrive
    split_ifs at harrive
    · obtain ⟨blk, -, harrive⟩ := Option.bind_eq_some_iff.mp harrive
      cases harrive
      exact hset.setPipe _ _
    · cases harrive
      exact hset

theorem TimersInv.depart {info : RemotePacket} (hc : c.TimersInv)
    (hdepart : c.depart h info = some c') : c'.TimersInv := by
  unfold XtqCore.depart at hdepart
  obtain ⟨hop, -, hdepart⟩ := Option.bind_eq_some_iff.mp hdepart
  split_ifs at hdepart
  · obtain ⟨blk, -, hdepart⟩ := Option.bind_eq_some_iff.mp hdepart
    obtain ⟨r, -, hdepart⟩ := Option.bind_eq_some_iff.mp hdepart
    cases hdepart
    exact hc.setPipe _ _
  · cases hdepart
    exact hc

/-- A timeout that is called arms itself again: its entry is replaced. -/
theorem TimersInv.fire (hc : c.TimersInv) (hfire : c.fire true = some c') : c'.TimersInv := by
  unfold XtqCore.fire at hfire
  cases hslot : c.serving with
  | nil =>
    rw [hslot] at hfire
    cases hfire
  | cons hs rest =>
    rw [hslot] at hfire
    obtain ⟨r, -, rfl⟩ := Option.map_eq_some_iff.mp hfire
    refine hc.congr (fun _ => Iff.rfl) rfl rfl ?_ (scheduleHop_xtq ..)
    have hpop : c.xs.timers = (hs.timeout, hs.hop) :: c.pop.xs.timers := by
      unfold XtqState.timers
      rw [agenda_cons schedLen_pos hslot]
      unfold pop
      rw [hslot]
      rfl
    rw [hpop]
    exact timers_scheduleHop (c.pop.setPipe r.1 r.2).xs hs.hop hs.timeout _

theorem TimersInv.tick (hc : c.TimersInv) (htick : c.tick = some c') : c'.TimersInv := by
  unfold XtqCore.tick at htick
  cases hslot : c.serving with
  | cons hs rest =>
    rw [hslot] at htick
    cases htick
  | nil =>
    rw [hslot] at htick
    cases htick
    refine hc.congr (fun _ => Iff.rfl) rfl rfl (List.Perm.of_eq ?_) rfl
    unfold XtqState.timers
    have hagenda := agenda_tick schedLen_pos hslot
    push_cast
    rw [hagenda]

theorem TimersInv.step {e : HopEvent} (hc : c.TimersInv) (hsched : SchedOk e)
    (hfit : c.TimersFit e) (hstep : c.step e = some c') : c'.TimersInv := by
  cases e with
  | load w =>
    cases hstep
    exact hc.load hsched hfit
  | hopmod w =>
    obtain ⟨r, hr, rfl⟩ := Option.map_eq_some_iff.mp hstep
    exact hc.hopmod hsched hfit hr
  | arrive h random info => exact hc.arrive hstep
  | depart h info => exact hc.depart hstep
  | fire hsOk =>
    have htrue : hsOk = true := hsched
    subst htrue
    exact hc.fire hstep
  | tick => exact hc.tick hstep

/-- **XCP timers match XCP hops**, at any point of every run in which entries for the calendar can be
had, no XCP hop is uninstalled, and what is installed can be installed. -/
theorem timersMatch_of_run (hz : ℕ) {es : List HopEvent}
    (hfit : Guarded XtqCore.step (fun c e => SchedOk e ∧ c.TimersFit e) (boot hz) es)
    (hrun : run XtqCore.step (boot hz) es = some c) : c.TimersMatch := by
  have hinv : c.TimersInv := run_invariant_guarded
    (fun _ _ _ hc hG hstep => hc.step hG.1 hG.2 hstep) hfit hrun (timersInv_boot hz)
  exact hinv.timers

def oneXcpHop : XtqHoptableWrite where
  error := 0
  newptr := true
  oldptr := true
  hopcount := 1
  hopsOk := true
  hops := fun _ => ⟨8000000, 10, 0, 50, 0, 1⟩
  tableOk := true
  exittickOk := fun _ => true
  slotlenOk := fun _ => true
  outError := 0
  table := 1
  env := fun _ => ⟨some 8, 0, 0, true, true⟩

/-- A packet arrives, and the clock runs until both timeouts have been called for the first time. -/
def packetAndClock : List HopEvent :=
  .arrive ⟨1, 0⟩ 0 ⟨0, 0, 1500, 0, 0, 0, 0, 0, 3000, 0, 0, 100⟩ ::
    (List.replicate 10 .tick ++ [.fire true, .fire true, .tick])

theorem timersFit_oneXcpHop (hz : ℕ) : (boot hz).TimersFit (.load oneXcpHop) := by
  refine fun _ => ⟨fun h hl => ?_, fun i _ => ?_, fun j hj i hij => ?_⟩
  · cases hl
  · exact ⟨Int.one_nonneg, by decide +revert, fun _ => rfl⟩
  · have hlt : j < 1 := hj
    omega

theorem timersMatch_oneXcpHop :
    ∃ c, run XtqCore.step (boot 1000) (.load oneXcpHop :: packetAndClock) = some c ∧
      c.TimersMatch := by
  have hsome : (run XtqCore.step (boot 1000) (.load oneXcpHop :: packetAndClock)).isSome := by
    decide +kernel
  obtain ⟨c, hc⟩ := Option.isSome_iff_exists.mp hsome
  refine ⟨c, hc, timersMatch_of_run 1000 ?_ hc⟩
  refine ⟨⟨fun _ => ⟨rfl, rfl⟩, timersFit_oneXcpHop 1000⟩, fun s _ => guarded_of_forall ?_ s⟩
  intro s e he
  unfold packetAndClock at he
  simp only [List.mem_cons, List.mem_append, List.mem_replicate, List.not_mem_nil, or_false] at he
  rcases he with rfl | ⟨-, rfl⟩ | rfl | rfl | rfl
  · exact ⟨trivial, trivial⟩
  · exact ⟨trivial, trivial⟩
  · exact ⟨rfl, trivial⟩
  · exact ⟨rfl, trivial⟩
  · exact ⟨trivial, trivial⟩

/-- `hop->xtq` of an XCP hop is overwritten by a plain discipline, and its entries stay. -/
theorem TimersInv.not_match_of_plain {w : HopmodWrite} {ret : ℤ} (hc : c.TimersInv)
    (haccepted : c.HopmodAccepted w) (hb : c.tab.hoptable = some b)
    (hxcp : c.xs.XcpInstalled ⟨b, w.mod.hopidx.toInt⟩) (hplain : w.mod.hop.xtqType.toInt = 0)
    (hmod : c.sysctlHopmodhandle w = some (c', ret)) : ¬ c'.TimersMatch := by
  intro hmatch
  obtain ⟨b', hop, hb', hhop, heq⟩ := sysctlHopmodhandle_accepted haccepted hmod
  rw [hb] at hb'
  cases hb'
  have hsame : c' = c.modified w b hop := heq
  subst hsame
  unfold modified at hmatch
  dsimp only at hmatch
  obtain ⟨hxtq, htimers⟩ := xcpFreePipe_xtq c.xs ⟨b, w.mod.hopidx.toInt⟩
  have hlive : c.Installed ⟨b, w.mod.hopidx.toInt⟩ := by
    unfold Installed
    rw [hhop]
    rfl
  have hone := hc.timers.armed _ hlive hxcp .tq
  have hmem : (Timeout.tq, (⟨b, w.mod.hopidx.toInt⟩ : HopPtr)) ∈ c.xs.timers :=
    List.count_pos_iff.mp (by rw [hone]; exact Nat.one_pos)
  have hun := hmatch.entry (Timeout.tq, (⟨b, w.mod.hopidx.toInt⟩ : HopPtr))
  dsimp only at hun
  rw [xtqUninstall_of_nonneg (by omega), if_pos ((hc.functions _).mpr hxcp)] at hun
  obtain ⟨u, hu, heq⟩ := xtqInstall_plain (c.xs.xcpFreePipe ⟨b, w.mod.hopidx.toInt⟩)
    ⟨b, w.mod.hopidx.toInt⟩ (sysctlHopmod c.xs.hz hop w.mod.hop) w.env (.inl hplain)
  rw [heq] at hun
  have hafter := (hun (by
    show _ ∈ (c.xs.xcpFreePipe ⟨b, w.mod.hopidx.toInt⟩).timers
    rw [htimers]
    exact hmem)).2
  unfold XcpInstalled at hafter
  rw [setXtq_xtq_self] at hafter
  exact hu hafter

/-- The XCP hop of `oneXcpHop` is made a FIFO. -/
def makeFifo : HopmodWrite where
  error := 0
  newptr := true
  oldptr := true
  mod := ⟨0, ⟨8000000, 10, 0, 50, 0, 0⟩⟩
  outError := 0
  env := ⟨none, 0, 0, true, true⟩

/-- Its timers are still on the calendar. -/
theorem timers_not_match_after_hopmod :
    ¬ ∀ c, run XtqCore.step (boot 1000) [.load oneXcpHop, .hopmod makeFifo] = some c →
      c.TimersMatch := by
  intro hall
  have hinv := (timersInv_boot 1000).load (fun _ => ⟨rfl, rfl⟩) (timersFit_oneXcpHop 1000)
  have hsome : (((boot 1000).sysctlHophandle oneXcpHop).1.sysctlHopmodhandle makeFifo).isSome := by
    decide +kernel
  obtain ⟨⟨c, ret⟩, hc⟩ := Option.isSome_iff_exists.mp hsome
  refine hinv.not_match_of_plain (b := 1) (w := makeFifo) ⟨⟨rfl, rfl⟩, ?_⟩ rfl ?_ rfl hc (hall c ?_)
  · decide +kernel
  · decide +kernel
  · show ((((boot 1000).sysctlHophandle oneXcpHop).1.sysctlHopmodhandle makeFifo).map
      Prod.fst).bind some = some c
    rw [hc]
    rfl

end XtqCore

end Modelnet.FreeBSD

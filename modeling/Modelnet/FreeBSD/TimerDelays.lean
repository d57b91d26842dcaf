import Modelnet.FreeBSD.XcpTimers

/-!
# Delays of the timers

When the loop of `hopclock` over `hop_calendar` ends, and when a timer fires. Whatever the delays,
an entry armed with fewer than `SCHEDLEN` ticks fires exactly that many ticks later (`Clocked`).
A timeout that arms itself again with a delay between 1 and `SCHEDLEN - 1` leaves the slot that is
being served, so the loop ends (`drainHops_ends`); one that arms itself with a delay of 0 is called
again in the same tick, and a `Te_timeout` whose average RTT has become 0 never leaves the loop
(`drainHops_never_ends`).
-/

namespace Modelnet.FreeBSD

open Modelnet PartialRun TimingWheel

/-- `hz`, an `int` that is at least 1. -/
structure TickRate where
  hz : ℕ
  pos : 1 ≤ hz
  lt : hz < 2 ^ 31

instance (d : BitVec 64) : Decidable (XcpRouter.GoodDelay d) :=
  inferInstanceAs (Decidable (_ ∧ _))

/-- When a timeout arms itself well. -/
def XcpRouter.TimerOk (hz : ℕ) (hop : Hop) (p : XcpRouter) : Timeout → Prop
  | .tq => p.TqOk hz hop
  | .te => p.TeOk hz

theorem XcpRouter.timeout_good_iff {hz : ℕ} (hhz : hz < 2 ^ 31) (hop : Hop) (p : XcpRouter)
    (f : Timeout) :
    (∃ p', p.timeout hz hop f = some p' ∧ GoodDelay (p'.delay f)) ↔ p.TimerOk hz hop f := by
  cases f with
  | tq => exact tqTimeout_good_iff hhz
  | te => exact teTimeout_good_iff

/-! ## The calendar -/

namespace XtqState

/-- Every entry is in the slot of the tick that it is meant for, and that tick is ahead and within a
turn of the calendar, unless the delay is longer than a turn. -/
structure Clocked (hz : ℕ) (s : XtqState) : Prop where
  rate : s.hz = hz
  slot : ∀ i, ∀ hs ∈ s.hopCalendar i, calendarSlot hs.due = i
  window : ∀ i, ∀ hs ∈ s.hopCalendar i, hs.delay < schedLen →
    InWindow schedLen s.calendarTick hs.due

variable {s s' : XtqState} {hz : ℕ}

theorem Clocked.congr (hs : s.Clocked hz) (hrate : s'.hz = s.hz)
    (hcal : s'.hopCalendar = s.hopCalendar) (htick : s'.calendarTick = s.calendarTick) :
    s'.Clocked hz where
  rate := hrate.trans hs.rate
  slot := by
    rw [hcal]
    exact hs.slot
  window := by
    rw [hcal, htick]
    exact hs.window

theorem Clocked.scheduleHop (hs : s.Clocked hz) (h : HopPtr) (f : Timeout) (d : ℕ) (ok : Bool) :
    (s.scheduleHop h f d ok).Clocked hz := by
  unfold XtqState.scheduleHop
  split_ifs
  · have hmem : ∀ i, ∀ e ∈ Function.update s.hopCalendar
        (calendarSlot (HopSched.due ⟨f, h, s.calendarTick, d⟩))
        (s.hopCalendar (calendarSlot (HopSched.due ⟨f, h, s.calendarTick, d⟩)) ++
          [⟨f, h, s.calendarTick, d⟩]) i,
        e ∈ s.hopCalendar i ∨ (e = ⟨f, h, s.calendarTick, d⟩ ∧ i = calendarSlot e.due) := by
      intro i e he
      by_cases hi : i = calendarSlot (HopSched.due ⟨f, h, s.calendarTick, d⟩)
      · rw [hi, Function.update_self] at he
        rcases List.mem_append.mp he with he | he
        · exact .inl (hi ▸ he)
        · have heq := List.mem_singleton.mp he
          exact .inr ⟨heq, by rw [heq]; exact hi⟩
      · rw [Function.update_of_ne hi] at he
        exact .inl he
    refine ⟨hs.rate, fun i e he => ?_, fun i e he hlt => ?_⟩
    · rcases hmem i e he with he | ⟨-, hi⟩
      · exact hs.slot i e he
      · exact hi.symm
    · rcases hmem i e he with he | ⟨rfl, -⟩
      · exact hs.window i e he hlt
      · have hd : d < schedLen := hlt
        unfold InWindow HopSched.due
        dsimp only
        omega
  · exact hs

theorem Clocked.startPipe (hs : s.Clocked hz) (h : HopPtr) (hop : Hop) (env : XtqEnv) (a : Addr) :
    (s.startPipe h hop env a).Clocked hz := by
  unfold XtqState.startPipe
  dsimp only
  refine Clocked.scheduleHop (Clocked.scheduleHop ?_ _ _ _ _) _ _ _ _
  exact hs.congr rfl rfl rfl

theorem Clocked.countPipe (hs : s.Clocked hz) : s.countPipe.Clocked hz := by
  unfold XtqState.countPipe
  dsimp only
  split_ifs
  · exact hs.congr rfl rfl rfl
  · exact hs.congr rfl rfl rfl

theorem Clocked.setXtq (hs : s.Clocked hz) (h : HopPtr) (q : ExtendedQ) :
    (s.setXtq h q).Clocked hz := hs.congr rfl rfl rfl

theorem Clocked.xtqInstall (hs : s.Clocked hz) (h : HopPtr) (hop : Hop) (t : ℤ) (env : XtqEnv) :
    (s.xtqInstall h hop t env).Clocked hz := by
  unfold XtqState.xtqInstall
  split_ifs
  · exact hs.setXtq h _
  dsimp only
  split_ifs
  · unfold xcpAllocPipe
    dsimp only
    split
    · exact ((hs.setXtq h _).countPipe).setXtq h _
    · exact (((hs.setXtq h _).countPipe).setXtq h _).startPipe h hop env _
  · exact hs.setXtq h _

theorem Clocked.xcpFreePipe (hs : s.Clocked hz) (h : HopPtr) : (s.xcpFreePipe h).Clocked hz := by
  unfold XtqState.xcpFreePipe
  dsimp only
  split_ifs
  · exact hs.congr rfl rfl rfl
  · exact hs.congr rfl rfl rfl

theorem Clocked.xtqUninstall (hs : s.Clocked hz) (h : HopPtr) (hop : Hop) (t : ℤ) (env : XtqEnv) :
    (s.xtqUninstall h hop t env).Clocked hz := by
  have hfreed : (if (s.xtq h).free.isSome then s.xcpFreePipe h else s).Clocked hz := by
    split_ifs
    · exact hs.xcpFreePipe h
    · exact hs
  unfold XtqState.xtqUninstall
  dsimp only
  split_ifs at hfreed ⊢
  all_goals first | exact hfreed.xtqInstall h hop t env | exact hfreed

end XtqState

namespace XtqCore

open XtqState XcpRouter

variable {c c' : XtqCore} {hz : ℕ} {hs : HopSched}

theorem clocked_boot (hz : ℕ) : (boot hz).xs.Clocked hz :=
  ⟨rfl, fun _ _ he => absurd he List.not_mem_nil, fun _ _ he => absurd he List.not_mem_nil⟩

theorem clocked_uninstallHops {s : XtqState} (hs : s.Clocked hz) (b n : ℕ) :
    (uninstallHops b n s).Clocked hz := by
  unfold uninstallHops
  induction n with
  | zero => exact hs
  | succ n ih =>
    rw [List.range_succ, List.foldl_append, List.foldl_cons, List.foldl_nil]
    exact ih.xtqUninstall _ _ _ _

theorem clocked_loadHops (b : ℕ) (w : XtqHoptableWrite) (m i : ℕ) {c : XtqCore}
    (hc : c.xs.Clocked hz) : (loadHops b w m i c).1.xs.Clocked hz := by
  induction m generalizing i c with
  | zero => exact hc
  | succ m ih =>
    unfold loadHops
    dsimp only
    split_ifs
    · exact ih (i + 1) (hc.xtqInstall _ _ _ _)
    · exact hc

theorem clocked_sysctlHophandle (hc : c.xs.Clocked hz) (w : XtqHoptableWrite) :
    (c.sysctlHophandle w).1.xs.Clocked hz := by
  have huninit : (uninitPaths ⟨c.tab.alloc, c.xs⟩).xs.Clocked hz := by
    unfold uninitPaths
    dsimp only
    split
    · exact clocked_uninstallHops hc _ _
    · exact hc
  have hload : (loadHoptable ⟨c.tab.alloc, c.xs⟩ w).1.xs.Clocked hz := by
    unfold loadHoptable
    dsimp only
    split_ifs
    · exact clocked_loadHops _ _ _ _ (huninit.congr rfl rfl rfl)
    · exact huninit
  unfold sysctlHophandle
  split_ifs
  all_goals first | exact hc | skip
  dsimp only
  split_ifs
  · exact hload
  · exact hload

theorem clocked_hopmod {w : HopmodWrite} {r : XtqCore × ℤ} (hc : c.xs.Clocked hz)
    (hmod : c.sysctlHopmodhandle w = some r) : r.1.xs.Clocked hz := by
  rcases sysctlHopmodhandle_cases hmod with heq | ⟨-, b, hop, -, -, heq⟩
  · rw [heq]
    exact hc
  · rw [heq]
    exact hc.xtqUninstall _ _ _ _

theorem clocked_arrive {h : HopPtr} {random : ℕ} {info : RemotePacket} (hc : c.xs.Clocked hz)
    (harrive : c.arrive h random info = some c') : c'.xs.Clocked hz := by
  unfold arrive at harrive
  obtain ⟨hop, -, harrive⟩ := Option.bind_eq_some_iff.mp harrive
  obtain ⟨r, -, harrive⟩ := Option.bind_eq_some_iff.mp harrive
  dsimp only at harrive
  split at harrive
  · cases harrive
    exact hc
  · split_ifs at harrive
    · obtain ⟨blk, -, harrive⟩ := Option.bind_eq_some_iff.mp harrive
      cases harrive
      exact hc.congr rfl rfl rfl
    · cases harrive
      exact hc

theorem clocked_depart {h : HopPtr} {info : RemotePacket} (hc : c.xs.Clocked hz)
    (hdepart : c.depart h info = some c') : c'.xs.Clocked hz := by
  unfold depart at hdepart
  obtain ⟨hop, -, hdepart⟩ := Option.bind_eq_some_iff.mp hdepart
  split_ifs at hdepart
  · obtain ⟨blk, -, hdepart⟩ := Option.bind_eq_some_iff.mp hdepart
    obtain ⟨r, -, hdepart⟩ := Option.bind_eq_some_iff.mp hdepart
    cases hdepart
    exact hc.congr rfl rfl rfl
  · cases hdepart
    exact hc

theorem clocked_pop (hc : c.xs.Clocked hz) : c.pop.xs.Clocked hz := by
  have hmem : ∀ i, ∀ e ∈ c.pop.xs.hopCalendar i, e ∈ c.xs.hopCalendar i := by
    intro i e he
    have he' : e ∈ Function.update c.xs.hopCalendar (calendarSlot c.xs.calendarTick)
      c.serving.tail i := he
    by_cases hi : i = calendarSlot c.xs.calendarTick
    · rw [hi, Function.update_self] at he'
      rw [hi]
      exact List.mem_of_mem_tail he'
    · rwa [Function.update_of_ne hi] at he'
  exact ⟨hc.rate, fun i e he => hc.slot i e (hmem i e he),
    fun i e he => hc.window i e (hmem i e he)⟩

theorem fire_eq_some {hsOk : Bool} (hfire : c.fire hsOk = some c') :
    ∃ hs rest r, c.serving = hs :: rest ∧ c.callTimeout hs = some r ∧
      c' = (c.pop.setPipe r.1 r.2).rearm hs r.2.pipe hsOk := by
  unfold fire at hfire
  cases hslot : c.serving with
  | nil =>
    rw [hslot] at hfire
    cases hfire
  | cons hs rest =>
    rw [hslot] at hfire
    obtain ⟨r, hr, rfl⟩ := Option.map_eq_some_iff.mp hfire
    exact ⟨hs, rest, r, rfl, hr, rfl⟩

theorem clocked_fire {hsOk : Bool} (hc : c.xs.Clocked hz) (hfire : c.fire hsOk = some c') :
    c'.xs.Clocked hz := by
  obtain ⟨hs, rest, r, -, -, rfl⟩ := fire_eq_some hfire
  have hpipe : (c.pop.setPipe r.1 r.2).xs.Clocked hz := (clocked_pop hc).congr rfl rfl rfl
  exact hpipe.scheduleHop _ _ _ _

/-- The clock passes an empty slot, so nothing that is due is left behind. -/
theorem clocked_tick (hc : c.xs.Clocked hz) (htick : c.tick = some c') : c'.xs.Clocked hz := by
  unfold tick at htick
  cases hslot : c.serving with
  | cons hs rest =>
    rw [hslot] at htick
    cases htick
  | nil =>
    rw [hslot] at htick
    cases htick
    refine ⟨hc.rate, hc.slot, fun i e he hlt => ?_⟩
    obtain ⟨hle, hlt'⟩ := hc.window i e he hlt
    have hne : e.due ≠ c.xs.calendarTick := by
      intro heq
      have hi : i = calendarSlot c.xs.calendarTick := by rw [← hc.slot i e he, heq]
      rw [hi] at he
      have hin : e ∈ c.serving := he
      rw [hslot] at hin
      cases hin
    unfold InWindow
    dsimp only
    push_cast
    omega

theorem clocked_step {e : HopEvent} (hc : c.xs.Clocked hz) (hstep : c.step e = some c') :
    c'.xs.Clocked hz := by
  cases e with
  | load w =>
    cases hstep
    exact clocked_sysctlHophandle hc w
  | hopmod w =>
    obtain ⟨r, hr, rfl⟩ := Option.map_eq_some_iff.mp hstep
    exact clocked_hopmod hc hr
  | arrive h random info => exact clocked_arrive hc hstep
  | depart h info => exact clocked_depart hc hstep
  | fire hsOk => exact clocked_fire hc hstep
  | tick => exact clocked_tick hc hstep

theorem armed_delay_ago (hc : c.xs.Clocked hz) (hserved : hs ∈ c.serving)
    (hlt : hs.delay < schedLen) : hs.armed + hs.delay = c.xs.calendarTick := by
  have hslot := hc.slot _ hs hserved
  have hdue := eq_of_index_eq schedLen_pos (hc.window _ hs hserved hlt)
    (inWindow_now schedLen_pos _) hslot
  unfold HopSched.due at hdue
  omega

/-! ## The loop over a slot -/

/-- The timeout that is called next, if any, completes and arms itself again with a delay between 1
and `SCHEDLEN - 1`. -/
def Punctual (c : XtqCore) : HopEvent → Prop
  | .fire _ => ∀ hs rest, c.serving = hs :: rest →
      ∃ r, c.callTimeout hs = some r ∧ GoodDelay (r.2.pipe.delay hs.timeout)
  | _ => True

/-- `Punctual` for the timeout that is called next, to be computed. -/
def firesWell (c : XtqCore) : Bool :=
  c.xs.hz < 2 ^ 31 && match c.serving with
    | [] => true
    | hs :: _ => (c.callTimeout hs).any fun r => decide (GoodDelay (r.2.pipe.delay hs.timeout))

theorem punctual_of_firesWell (h : c.firesWell) (ok : Bool) : c.Punctual (.fire ok) := by
  intro hs rest hslot
  unfold firesWell at h
  rw [hslot, Bool.and_eq_true] at h
  obtain ⟨r, hr, hgood⟩ := (Option.any_eq_true _ _).mp h.2
  exact ⟨r, hr, of_decide_eq_true hgood⟩

/-- Its hop is in the table and has a pipe, whose variables are those of `TimerOk`. -/
def RearmOk (c : XtqCore) : HopEvent → Prop
  | .fire _ => ∀ hs rest, c.serving = hs :: rest →
      ∃ hop r, c.tab.hops hs.hop = some hop ∧ c.pipeOf hs.hop = some r ∧
        r.2.pipe.TimerOk c.xs.hz hop hs.timeout
  | _ => True

theorem punctual_iff (hc : c.xs.hz < 2 ^ 31) (e : HopEvent) : c.Punctual e ↔ c.RearmOk e := by
  cases e with
  | fire hsOk =>
    refine forall_congr' fun hs => forall_congr' fun rest => imp_congr_right fun _ => ?_
    constructor
    · rintro ⟨r, hr, hgood⟩
      obtain ⟨hop, hhop, hr⟩ := Option.bind_eq_some_iff.mp hr
      obtain ⟨blk, hblk, hr⟩ := Option.bind_eq_some_iff.mp hr
      obtain ⟨p, hp, hr⟩ := Option.bind_eq_some_iff.mp hr
      cases hr
      exact ⟨hop, blk, hhop, hblk, (timeout_good_iff hc hop _ _).mp ⟨p, hp, hgood⟩⟩
    · rintro ⟨hop, blk, hhop, hblk, hok⟩
      obtain ⟨p, hp, hgood⟩ := (timeout_good_iff hc hop _ _).mpr hok
      refine ⟨(blk.1, { blk.2 with pipe := p }), ?_, hgood⟩
      unfold callTimeout
      rw [hhop, hblk]
      show (blk.2.pipe.timeout c.xs.hz hop hs.timeout).bind _ = _
      rw [hp]
      rfl
  | load w => exact Iff.rfl
  | hopmod w => exact Iff.rfl
  | arrive h random info => exact Iff.rfl
  | depart h info => exact Iff.rfl
  | tick => exact Iff.rfl

/-- A timeout that arms itself well leaves the slot. -/
theorem serving_rearm {hs : HopSched} {p : XcpRouter} (hgood : GoodDelay (p.delay hs.timeout))
    (hsOk : Bool) : (c.rearm hs p hsOk).serving = c.serving := by
  unfold rearm serving XtqState.scheduleHop
  dsimp only
  split_ifs
  · have hne : calendarSlot c.xs.calendarTick ≠
        calendarSlot (HopSched.due ⟨hs.timeout, hs.hop, c.xs.calendarTick,
          (p.delay hs.timeout).toNat⟩) := by
      intro heq
      have hwin : InWindow schedLen c.xs.calendarTick (HopSched.due ⟨hs.timeout, hs.hop,
          c.xs.calendarTick, (p.delay hs.timeout).toNat⟩) := by
        unfold InWindow HopSched.due
        have := hgood.2
        dsimp only
        omega
      have hdue := eq_of_index_eq schedLen_pos (inWindow_now schedLen_pos _) hwin heq
      unfold HopSched.due at hdue
      have := hgood.1
      dsimp only at hdue
      omega
    exact Function.update_of_ne hne _ _
  · rfl

/-- **The loop ends** when every timeout that it calls arms itself well. -/
theorem drainHops_ends (oks : List Bool) {c : XtqCore} (hlen : oks.length = c.serving.length)
    (hG : Guarded XtqCore.step Punctual c (oks.map .fire)) :
    ∃ c', drainHops oks c = some c' ∧ c'.serving = [] := by
  induction oks generalizing c with
  | nil =>
    have hnil : c.serving = [] := List.eq_nil_of_length_eq_zero hlen.symm
    refine ⟨c, ?_, hnil⟩
    unfold drainHops
    rw [hnil]
  | cons ok oks ih =>
    obtain ⟨hs, rest, hslot⟩ := List.exists_cons_of_length_eq_add_one hlen.symm
    obtain ⟨r, hr, hgood⟩ := hG.1 hs rest hslot
    have hfire : c.fire ok = some ((c.pop.setPipe r.1 r.2).rearm hs r.2.pipe ok) := by
      unfold fire
      rw [hslot]
      show (c.callTimeout hs).map _ = _
      rw [hr]
      rfl
    have hserving : ((c.pop.setPipe r.1 r.2).rearm hs r.2.pipe ok).serving = rest := by
      rw [serving_rearm hgood]
      show c.pop.serving = rest
      rw [pop_serving, hslot]
      rfl
    have hrest := hG.2 _ hfire
    have hlen' : oks.length = ((c.pop.setPipe r.1 r.2).rearm hs r.2.pipe ok).serving.length := by
      rw [hserving]
      rw [hslot] at hlen
      exact Nat.succ.inj hlen
    obtain ⟨c', hc', hempty⟩ := ih hlen' hrest
    refine ⟨c', ?_, hempty⟩
    unfold drainHops
    rw [hslot]
    dsimp only
    rw [hfire]
    exact hc'

/-- **Delays of the timers.** At every tick rate and in every run: all timeouts arm themselves with
a delay between 1 and `SCHEDLEN - 1` exactly when `RearmOk` holds whenever one is called; a timer
that is served was armed its delay ago; and the loop over the served slot ends when `RearmOk`
holds for the timeouts that it calls. -/
theorem timers_punctual_iff (rate : TickRate) (es : List HopEvent) :
    (Guarded XtqCore.step Punctual (boot rate.hz) es ↔
      Guarded XtqCore.step RearmOk (boot rate.hz) es) ∧
    ∀ c, run XtqCore.step (boot rate.hz) es = some c →
      (∀ hs ∈ c.serving, hs.delay < schedLen → hs.armed + hs.delay = c.xs.calendarTick) ∧
      ∀ oks, oks.length = c.serving.length → Guarded XtqCore.step RearmOk c (oks.map .fire) →
        ∃ c', drainHops oks c = some c' ∧ c'.serving = [] := by
  have hstep : ∀ (s : XtqCore) (e : HopEvent) (s' : XtqCore), s.xs.Clocked rate.hz →
      s.step e = some s' → s'.xs.Clocked rate.hz := fun _ _ _ hs he => clocked_step hs he
  have hiff : ∀ (s : XtqCore) (e : HopEvent), s.xs.Clocked rate.hz → (s.Punctual e ↔ s.RearmOk e) :=
    fun s e hs => punctual_iff (hs.rate ▸ rate.lt) e
  constructor
  · exact guarded_iff_of_invariant (fun s e s' hs _ he => hstep s e s' hs he) hiff
      (clocked_boot rate.hz)
  · intro c hrun
    have hc : c.xs.Clocked rate.hz := run_invariant hstep hrun (clocked_boot rate.hz)
    refine ⟨fun hs hserved hlt => armed_delay_ago hc hserved hlt, fun oks hlen hG => ?_⟩
    exact drainHops_ends oks hlen
      ((guarded_iff_of_invariant (fun s e s' hs _ he => hstep s e s' hs he) hiff hc).mpr hG)

/-- The events until the first timeouts of `oneXcpHop` are due, with a packet that carries an RTT. -/
def untilTimeouts (xcpRtt : BitVec 32) : List HopEvent :=
  [.load oneXcpHop, .arrive ⟨1, 0⟩ 0 ⟨0, 0, 1500, 0, 0, 0, 0, 0, 3000, 0, 0, xcpRtt⟩] ++
    List.replicate 10 .tick

/-- With an RTT of a tenth of a second, both timeouts arm themselves well. -/
theorem timers_punctual_oneXcpHop :
    ∃ c, run XtqCore.step (boot 1000) (untilTimeouts 100) = some c ∧
      (∀ hs ∈ c.serving, hs.delay < schedLen → hs.armed + hs.delay = c.xs.calendarTick) ∧
      ∃ c', drainHops [true, true] c = some c' ∧ c'.serving = [] := by
  have hchecked : ((run XtqCore.step (boot 1000) (untilTimeouts 100)).any fun c =>
      c.serving.length = 2 && c.firesWell && (c.fire true).any firesWell) = true := by
    decide +kernel
  obtain ⟨c, hc, hchecked⟩ := (Option.any_eq_true _ _).mp hchecked
  simp only [Bool.and_eq_true, decide_eq_true_eq] at hchecked
  obtain ⟨⟨hlen, hfirst⟩, hsecond⟩ := hchecked
  obtain ⟨c₁, hc₁, hsecond⟩ := (Option.any_eq_true _ _).mp hsecond
  obtain ⟨htime, hdrain⟩ :=
    (timers_punctual_iff ⟨1000, by decide, by decide⟩ (untilTimeouts 100)).2 c hc
  have hok : ∀ s : XtqCore, s.firesWell → s.RearmOk (.fire true) := by
    intro s hs
    have hrate : s.xs.hz < 2 ^ 31 := by
      unfold firesWell at hs
      rw [Bool.and_eq_true] at hs
      exact of_decide_eq_true hs.1
    exact (punctual_iff hrate _).mp (punctual_of_firesWell hs true)
  refine ⟨c, hc, htime, hdrain [true, true] hlen.symm ⟨hok c hfirst, fun s hs => ⟨?_, ?_⟩⟩⟩
  · have hsame : s = c₁ := Option.some.inj (hs.symm.trans hc₁)
    exact hsame ▸ hok c₁ hsecond
  · exact fun _ _ => trivial

/-! ## A loop that does not end -/

/-- A delay of 0 files the entry in the slot that is being served. -/
theorem serving_rearm_zero {p : XcpRouter} (hzero : p.delay hs.timeout = 0) :
    (c.rearm hs p true).serving = c.serving ++ [⟨hs.timeout, hs.hop, c.xs.calendarTick, 0⟩] := by
  have hdue : HopSched.due ⟨hs.timeout, hs.hop, c.xs.calendarTick, 0⟩ = c.xs.calendarTick := by
    unfold HopSched.due
    dsimp only
    omega
  have hslot : (c.rearm hs p true).serving = Function.update c.xs.hopCalendar
      (calendarSlot (HopSched.due ⟨hs.timeout, hs.hop, c.xs.calendarTick, 0⟩))
      (c.xs.hopCalendar (calendarSlot (HopSched.due ⟨hs.timeout, hs.hop, c.xs.calendarTick, 0⟩)) ++
        [⟨hs.timeout, hs.hop, c.xs.calendarTick, 0⟩]) (calendarSlot c.xs.calendarTick) := by
    unfold rearm XtqState.scheduleHop serving
    rw [hzero]
    rfl
  rw [hslot, hdue, Function.update_self]
  rfl

/-- The only entry of the served slot is a `Te_timeout` of a pipe without packets and with an
average RTT of 0. -/
def Stuck (c : XtqCore) : Prop :=
  ∃ hs hop r, c.serving = [hs] ∧ hs.timeout = .te ∧ c.tab.hops hs.hop = some hop ∧
    c.pipeOf hs.hop = some r ∧ r.2.pipe.sumRttByCwnd = 0 ∧ r.2.pipe.avgRtt = 0

/-- It arms itself for the slot that is being served. -/
theorem Stuck.fire (hc : c.Stuck) : ∃ c', c.fire true = some c' ∧ c'.Stuck := by
  obtain ⟨hs, hop, r, hslot, hte, hhop, hpipe, hsum, havg⟩ := hc
  have hcall : c.callTimeout hs = some (r.1, { r.2 with pipe := r.2.pipe.startInterval }) := by
    unfold callTimeout
    rw [hhop, hpipe, hte]
    show (r.2.pipe.teTimeout c.xs.hz hop).bind _ = _
    unfold teTimeout
    rw [hsum]
    rfl
  have hzero : (r.2.pipe.startInterval).delay hs.timeout = 0 := by
    rw [hte]
    exact havg
  refine ⟨(c.pop.setPipe r.1 { r.2 with pipe := r.2.pipe.startInterval }).rearm hs
    r.2.pipe.startInterval true, ?_, ⟨hs.timeout, hs.hop, c.xs.calendarTick, 0⟩, hop,
    (r.1, { r.2 with pipe := r.2.pipe.startInterval }), ?_, hte, hhop, ?_, rfl, havg⟩
  · unfold XtqCore.fire
    rw [hslot]
    show (c.callTimeout hs).map _ = _
    rw [hcall]
    rfl
  · rw [serving_rearm_zero hzero]
    show c.pop.serving ++ _ = _
    rw [pop_serving, hslot]
    rfl
  · rw [rearm_pipeOf]
    have hpop : c.pop.pipeOf hs.hop = some r := hpipe
    exact setPipe_pipeOf hpop _

/-- **The loop does not end** from there. -/
theorem Stuck.drainHops_eq_none (n : ℕ) (hc : c.Stuck) :
    drainHops (List.replicate n true) c = none := by
  induction n generalizing c with
  | zero =>
    obtain ⟨hs, -, -, hslot, -⟩ := hc
    unfold drainHops
    rw [List.replicate_zero, hslot]
  | succ n ih =>
    obtain ⟨c', hfire, hc'⟩ := hc.fire
    obtain ⟨hs, -, -, hslot, -⟩ := hc
    unfold drainHops
    rw [List.replicate_succ, hslot]
    dsimp only
    rw [hfire]
    exact ih hc'

/-- **A single packet with an RTT of a thousandth of a second**, at 1000 ticks a second: the next
`Te_timeout` never leaves the loop. -/
theorem drain_never_ends_after_packet :
    ∃ c, run XtqCore.step (boot 1000) (untilTimeouts 1 ++ [.fire true, .fire true]) = some c ∧
      ∀ n, drainHops (List.replicate n true) c = none := by
  have hchecked : ((run XtqCore.step (boot 1000) (untilTimeouts 1 ++ [.fire true, .fire true])).any
      fun c => c.serving.map (fun hs => (hs.timeout, hs.hop)) = [(.te, ⟨1, 0⟩)] &&
        (c.tab.hops ⟨1, 0⟩).isSome && (c.pipeOf ⟨1, 0⟩).any fun r =>
          r.2.pipe.sumRttByCwnd = 0 && r.2.pipe.avgRtt = 0) = true := by
    decide +kernel
  obtain ⟨c, hc, hchecked⟩ := (Option.any_eq_true _ _).mp hchecked
  simp only [Bool.and_eq_true, decide_eq_true_eq] at hchecked
  obtain ⟨⟨hslot, hhop⟩, hpipe⟩ := hchecked
  obtain ⟨hs, hserving, hkey⟩ := List.map_eq_singleton_iff.mp hslot
  obtain ⟨hop, hhop⟩ := Option.isSome_iff_exists.mp hhop
  obtain ⟨r, hr, hzero⟩ := (Option.any_eq_true _ _).mp hpipe
  simp only [Bool.and_eq_true, decide_eq_true_eq] at hzero
  injection hkey with hte hptr
  refine ⟨c, hc, fun n => Stuck.drainHops_eq_none n ?_⟩
  exact ⟨hs, hop, r, hserving, hte, by rw [hptr]; exact hhop, by rw [hptr]; exact hr, hzero⟩

end XtqCore

end Modelnet.FreeBSD

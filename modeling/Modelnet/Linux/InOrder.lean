import Modelnet.Linux.CalendarQueue

/-!
# The order of the packets on the calendar

On hops with a bandwidth limit no packet overtakes another one. A packet that waits behind a link
is due no later than `delay` after the exit of the last packet of that link (`Floor`), so a packet
that crosses the link later is filed behind it. Of two packets on the same path the older one is
therefore further along the path, or at the same hop and earlier on the calendar (`InOrder`).
-/

namespace Modelnet

open LinkQueue

/-- A local link with a bandwidth limit and a queue. -/
structure Hop.Queued (hop : Hop) : Prop where
  emulator : hop.emulator = 0
  KBps : hop.KBps ≠ 0
  qsize : 0 < hop.qsize
  allocated : hop.exittickAlloc = true ∧ hop.slotlenAlloc = true

theorem Hop.parametric_queued : Hop.Parametric Hop.Queued := fun hsame h =>
  ⟨hsame.emulator.trans h.emulator, hsame.KBps ▸ h.KBps, hsame.qsize ▸ h.qsize,
    hsame.exittickAlloc.trans h.allocated.1, hsame.slotlenAlloc.trans h.allocated.2⟩

theorem Hop.Queued.crossable {hop : Hop} (h : hop.Queued) : hop.Crossable :=
  fun _ => ⟨ne_of_gt h.qsize, h.allocated⟩

/-- What is left of a queue ends at its last exit, or now. -/
theorem LinkQueue.tailExit_purge_eq {q : LinkQueue} (h : q.Sorted) (tick : ℕ) :
    (q.purge tick).tailExit tick = max tick (q.tailExit tick) := by
  by_cases hq : q.purge tick = []
  · rw [hq, tailExit_nil]
    rcases List.eq_nil_or_concat' q with rfl | ⟨r, last, rfl⟩
    · rw [tailExit_nil, Nat.max_self]
    · have hlast : ¬ tick ≤ last.1 := fun hle => by
        have hm : last ∈ purge tick (r ++ [last]) :=
          mem_purge.mpr ⟨List.mem_append_right _ (List.mem_singleton_self last), hle⟩
        rw [hq] at hm
        exact List.not_mem_nil hm
      rw [tailExit_concat]
      omega
  · have hle := le_tailExit_purge q tick
    rw [tailExit_purge h hq] at hle ⊢
    omega

/-- No packet that crosses the hop from now on exits earlier. -/
def Hop.floor (hop : Hop) (now : ℕ) : ℕ := max now (hop.tailExit now)

theorem Hop.floor_succ (hop : Hop) (now : ℕ) : hop.floor now ≤ hop.floor (now + 1) := by
  unfold Hop.floor Hop.tailExit
  split_ifs <;> omega

/-- **Monotone exits.** A crossing never lowers the floor, and a packet that is queued exits at the
new floor. -/
theorem Linux.floor_emulateHop {hz len now randomVal : ℕ} {hop hop' : Hop} {out : Outcome}
    {q : LinkQueue} (hop_queued : hop.Queued) (hq : hop.Refines q)
    (h : Linux.emulateHop hz hop len now randomVal = some (hop', out)) :
    (∃ q', hop'.Refines q') ∧ hop.floor now ≤ hop'.floor now ∧
      ∀ x due, out = .queued x due →
        due = x + hop.delay ∧ hop.floor now ≤ x ∧ x ≤ hop'.floor now := by
  obtain ⟨hop₁, out₁, q', heq, hstep, -, hr⟩ :=
    Linux.emulateHop_step hz len now randomVal hop_queued.KBps hop_queued.qsize hq
  obtain ⟨rfl, rfl⟩ := Prod.mk.inj (Option.some.inj (heq.symm.trans h))
  have hpurge := tailExit_purge_eq hq.sorted now
  have hdue := (Linux.sameParams_emulateHop h).2
  unfold Hop.floor
  rw [hq.tailExit_eq, hr.tailExit_eq, ← hpurge]
  refine ⟨⟨q', hr⟩, ?_⟩
  cases hstep with
  | dropped => exact ⟨Nat.le_max_right _ _, fun x due hout => by cases hout⟩
  | @queued x due _ _ hx =>
    have htail : tailExit now (q.purge now ++ [(x, len)]) = x := tailExit_concat _ _ _
    rw [htail]
    refine ⟨hx.trans (Nat.le_max_right _ _), fun x' due' hout => ?_⟩
    have hdue' := hdue x' due' hout
    cases hout
    exact ⟨hdue', hx, Nat.le_max_right _ _⟩

namespace Linux

namespace Kernel

/-- Where the packet is on its path. -/
def place (k : Kernel) (p : PktId) : Option PathPtr := (k.pkts p).bind Packet.path

variable {hz : ℕ} {k k' : Kernel} {p : PktId} {pkt : Packet} {s : SkbId}

theorem place_eq (hp : k.pkts p = some pkt) : k.place p = pkt.path := by
  unfold place
  rw [hp]
  rfl

theorem place_consume (k : Kernel) (p : PktId) (s : SkbId) (seen : List Obs) (q : PktId)
    (path : PathPtr) (hq : (k.consume p s seen).place q = some path) : k.place q = some path := by
  unfold place at hq ⊢
  by_cases hqp : q = p
  · subst hqp
    have hnone : (k.consume q s seen).pkts q = none := Function.update_self _ _ _
    rw [hnone] at hq
    cases hq
  · have hpkts : (k.consume p s seen).pkts q = k.pkts q := Function.update_of_ne hqp _ _
    rwa [hpkts] at hq

theorem pkts_consume (k : Kernel) (p : PktId) (s : SkbId) (seen : List Obs) (q : PktId)
    (hq : k.pkts q = none) : (k.consume p s seen).pkts q = none := by
  by_cases hqp : q = p
  · subst hqp
    exact Function.update_self _ _ _
  · exact (Function.update_of_ne hqp _ _).trans hq

/-- `a` may be served before `b`: on one path an older packet is not behind a younger one, and a
younger one not level with an older one. -/
def Ahead (k : Kernel) (a b : PktId) : Prop :=
  ∀ pa pb, k.place a = some pa → k.place b = some pb → pa.arr = pb.arr →
    (a < b → pb.off ≤ pa.off) ∧ (b < a → pa.off < pb.off)

/-- The entry is due no later than anything that crosses its last hop from now on. -/
def Floor (k : Kernel) (e : ℤ × PktId) : Prop :=
  ∀ path, k.place e.2 = some path → ∃ off ptr hop, path.off = off + 1 ∧
    k.tab.readPath ⟨path.arr, off⟩ = some (some ptr) ∧ k.tab.hops ptr = some hop ∧
    e.1 ≤ hop.floor k.calendarTick + hop.delay

/-- The packets of every path are in order, with `cur` about to be served. -/
structure InOrder (k : Kernel) (cur : Option PktId) : Prop where
  ahead : (cur.toList ++ k.calendar).Pairwise k.Ahead
  floor : ∀ e ∈ k.agenda, k.Floor e
  queues : ∀ ptr hop, k.tab.hops ptr = some hop → ∃ q, hop.Refines q

theorem Ahead.of_place {a b : PktId} (h : k.Ahead a b)
    (ha : ∀ path, k'.place a = some path → k.place a = some path)
    (hb : ∀ path, k'.place b = some path → k.place b = some path) : k'.Ahead a b :=
  fun pa pb hpa hpb harr => h pa pb (ha pa hpa) (hb pb hpb) harr

namespace InOrder

variable {cur : Option PktId}

theorem congr (h : InOrder k cur) (hplace : ∀ p path, k'.place p = some path →
    k.place p = some path) (hcal : k'.agenda = k.agenda) (htab : k'.tab = k.tab)
    (htick : k'.calendarTick = k.calendarTick) : InOrder k' cur := by
  have hcalendar : k'.calendar = k.calendar := congrArg (List.map Prod.snd) hcal
  refine ⟨?_, fun e he path hpath => ?_, ?_⟩
  · rw [hcalendar]
    exact h.ahead.imp fun hab => hab.of_place (hplace _) (hplace _)
  · rw [hcal] at he
    rw [htab, htick]
    exact h.floor e he path (hplace _ path hpath)
  · rw [htab]
    exact h.queues

theorem of_cur (h : InOrder k (some p)) : InOrder k none :=
  ⟨List.Pairwise.of_cons h.ahead, h.floor, h.queues⟩

theorem listDel (h : InOrder k none) {l : List PktId}
    (hslot : k.packetCalendar k.curSlot = p :: l) :
    InOrder (k.listDel k.curSlot p) (some p) := by
  refine ⟨?_, fun e he => ?_, h.queues⟩
  · have hahead := h.ahead
    rw [calendar_listDel hslot] at hahead
    exact hahead
  · refine h.floor e ?_
    rw [agenda_listDel hslot]
    exact List.mem_cons_of_mem _ he

theorem tick (h : InOrder k none) (hslot : k.packetCalendar k.curSlot = []) :
    InOrder { k with calendarTick := k.calendarTick + 1 } none := by
  have hagenda := agenda_tick hslot
  refine ⟨?_, fun e he path hpath => ?_, h.queues⟩
  · unfold calendar
    rw [hagenda]
    exact h.ahead
  · rw [hagenda] at he
    obtain ⟨off, ptr, hop, hoff, hread, hhop, hle⟩ := h.floor e he path hpath
    refine ⟨off, ptr, hop, hoff, hread, hhop, hle.trans ?_⟩
    have hmono := hop.floor_succ k.calendarTick
    show (hop.floor k.calendarTick : ℤ) + hop.delay ≤ hop.floor (k.calendarTick + 1) + hop.delay
    omega

theorem consume (h : InOrder k (some p)) (s : SkbId) (seen : List Obs) :
    InOrder (k.consume p s seen) none :=
  h.of_cur.congr (place_consume k p s seen) rfl rfl rfl

theorem crossHop (h : InOrder k cur) {ptr : HopPtr} {hop hop' : Hop} {len : ℕ} {out : Outcome}
    (hhop : k.tab.hops ptr = some hop) (hqueued : hop.Queued)
    (hemulate : Linux.emulateHop hz hop len k.calendarTick (k.random 0) = some (hop', out)) :
    InOrder (k.crossHop p ptr hop') cur := by
  obtain ⟨q, hq⟩ := h.queues ptr hop hhop
  obtain ⟨hq', hfloor, -⟩ := floor_emulateHop hqueued hq hemulate
  have hdelay := (sameParams_emulateHop hemulate).1.delay
  have hself : (k.crossHop p ptr hop').tab.hops ptr = some hop' := Function.update_self _ _ _
  have hother : ∀ ptr', ptr' ≠ ptr → (k.crossHop p ptr hop').tab.hops ptr' = k.tab.hops ptr' :=
    fun ptr' hne => Function.update_of_ne hne _ _
  refine ⟨h.ahead, fun e he path hpath => ?_, fun ptr' hop₁ h₁ => ?_⟩
  · obtain ⟨off, ptr', hop₁, hoff, hread, h₁, hle⟩ := h.floor e he path hpath
    by_cases hne : ptr' = ptr
    · subst hne
      cases Option.some.inj (hhop.symm.trans h₁)
      refine ⟨off, ptr', hop', hoff, hread, hself, hle.trans ?_⟩
      rw [hdelay]
      show (hop.floor k.calendarTick : ℤ) + hop.delay ≤ hop'.floor k.calendarTick + hop.delay
      omega
    · exact ⟨off, ptr', hop₁, hoff, hread, (hother ptr' hne).trans h₁, hle⟩
  · by_cases hne : ptr' = ptr
    · subst hne
      cases Option.some.inj (hself.symm.trans h₁)
      exact hq'
    · rw [hother ptr' hne] at h₁
      exact h.queues ptr' hop₁ h₁

/-- **The step of the order.** The served packet moves on along its path and is filed behind
everything that crossed its hop before. -/
theorem advance (h : InOrder k (some p)) {path : PathPtr} {ptr : HopPtr} {hop : Hop} {due : ℤ}
    (hnot : p ∉ k.calendar) (hplace : k.place p = some path)
    (hread : k.tab.readPath path = some (some ptr)) (hhop : k.tab.hops ptr = some hop)
    (hdue : due ≤ hop.floor k.calendarTick + hop.delay)
    (hlast : ∀ e ∈ k.agenda, ∀ pe, k.place e.2 = some pe → pe.arr = path.arr →
      pe.off = path.off + 1 → e.1 ≤ due)
    (hwin : TimingWheel.InWindow schedLen k.calendarTick due) :
    InOrder ((k.setPkt p (pkt.advance path)).listAddTail p due) none := by
  obtain ⟨before, after, hold, hnew, hbefore, hafter⟩ :=
    TimingWheel.agenda_insert schedLen_pos hwin k.packetCalendar p
  have hk : k.agenda = before ++ after := hold
  have hk' : ((k.setPkt p (pkt.advance path)).listAddTail p due).agenda =
      before ++ (due, p) :: after := hnew
  have hself : ((k.setPkt p (pkt.advance path)).listAddTail p due).place p =
      some ⟨path.arr, path.off + 1⟩ := by
    have hpkt : ((k.setPkt p (pkt.advance path)).listAddTail p due).pkts p =
        some (pkt.advance path) := Function.update_self _ _ _
    exact place_eq hpkt
  have hother : ∀ q, q ≠ p →
      ((k.setPkt p (pkt.advance path)).listAddTail p due).place q = k.place q := by
    intro q hq
    have hpkts : ((k.setPkt p (pkt.advance path)).listAddTail p due).pkts q = k.pkts q :=
      Function.update_of_ne hq _ _
    unfold place
    rw [hpkts]
  have hne : ∀ e ∈ before ++ after, e.2 ≠ p := by
    rintro e he rfl
    exact hnot (List.mem_map.mpr ⟨e, hk ▸ he, rfl⟩)
  have hcur : ∀ e ∈ before ++ after, k.Ahead p e.2 := fun e he =>
    List.rel_of_pairwise_cons h.ahead (List.mem_map.mpr ⟨e, hk ▸ he, rfl⟩)
  have hrest : ((before ++ after).map Prod.snd).Pairwise
      ((k.setPkt p (pkt.advance path)).listAddTail p due).Ahead := by
    have hold' := List.Pairwise.of_cons h.ahead
    unfold calendar at hold'
    rw [hk] at hold'
    refine hold'.imp_of_mem fun {a b} ha hb hab => ?_
    obtain ⟨ea, hea, rfl⟩ := List.mem_map.mp ha
    obtain ⟨eb, heb, rfl⟩ := List.mem_map.mp hb
    exact hab.of_place (fun _ hp => (hother _ (hne ea hea)).symm.trans hp)
      fun _ hp => (hother _ (hne eb heb)).symm.trans hp
  refine ⟨?_, fun e he pe hpe => ?_, h.queues⟩
  · show (List.map Prod.snd _).Pairwise _
    rw [hk', List.map_append, List.map_cons]
    rw [List.map_append] at hrest
    obtain ⟨hb, ha, hba⟩ := List.pairwise_append.mp hrest
    refine List.pairwise_append.mpr ⟨hb, List.pairwise_cons.mpr ⟨fun b hm => ?_, ha⟩, fun a hm b hm' => ?_⟩
    · -- what stays behind the packet has not crossed the hop
      obtain ⟨e, he, rfl⟩ := List.mem_map.mp hm
      have he' := List.mem_append_right before he
      intro pa pb hpa hpb harr
      cases Option.some.inj (hself.symm.trans hpa)
      have hpb' : k.place e.2 = some pb := (hother _ (hne e he')).symm.trans hpb
      obtain ⟨h1, h2⟩ := hcur e he' path pb hplace hpb' harr
      refine ⟨fun hlt => (h1 hlt).trans (Nat.le_succ _), fun hlt => ?_⟩
      refine lt_of_le_of_ne (h2 hlt) fun heq => ?_
      have hle := hlast e (hk ▸ he') pb hpb' harr.symm heq.symm
      exact absurd (hafter e he) (not_lt.mpr hle)
    · rcases List.mem_cons.mp hm' with rfl | hm'
      · obtain ⟨e, he, rfl⟩ := List.mem_map.mp hm
        have he' := List.mem_append_left after he
        intro pa pb hpa hpb harr
        cases Option.some.inj (hself.symm.trans hpb)
        have hpa' : k.place e.2 = some pa := (hother _ (hne e he')).symm.trans hpa
        obtain ⟨h1, h2⟩ := hcur e he' path pa hplace hpa' harr.symm
        exact ⟨fun hlt => h2 hlt, fun hlt => Nat.lt_succ_of_le (h1 hlt)⟩
      · exact hba a hm b hm'
  · rw [hk'] at he
    by_cases hep : e = (due, p)
    · subst hep
      cases Option.some.inj (hself.symm.trans hpe)
      exact ⟨path.off, ptr, hop, rfl, hread, hhop, hdue⟩
    · have he' : e ∈ before ++ after := by
        rcases List.mem_append.mp he with he | he
        · exact List.mem_append_left _ he
        · exact List.mem_append_right _ ((List.mem_cons.mp he).resolve_left hep)
      exact h.floor e (hk ▸ he') pe ((hother _ (hne e he')).symm.trans hpe)

theorem nextHop (h : InOrder k (some p)) (hown : Owned k (some p))
    (hr : OnRoute Hop.Queued k) (hp : Holding k p pkt s) (hnext : NextHop hz k p pkt s k')
    (hwin : InsertsInWindow k'.log) : InOrder k' none := by
  have hqueued : ∀ {path ptr hop}, pkt.path = some path →
      k.tab.readPath path = some (some ptr) → k.tab.hops ptr = some hop → hop.Queued := by
    intro path ptr hop hpath hread hhop
    obtain ⟨path', hs, hpath', hroute, hoff⟩ := hr.packet p pkt hp.read
    cases Option.some.inj (hpath.symm.trans hpath')
    obtain ⟨hop₁, h₁, hq⟩ := hroute.hop ptr
      (List.mem_of_getElem? (hroute.lt_of_readPath hoff hread))
    cases Option.some.inj (hhop.symm.trans h₁)
    exact hq
  cases hnext with
  | forward => exact h.consume _ _
  | remote => exact h.consume _ _
  | dropped hpath hread hhop _ hemulate =>
    exact (h.crossHop hhop (hqueued hpath hread hhop) hemulate).consume _ _
  | @queued path ptr hop hop' x due hpath hread hhop _ hemulate =>
    have hcross := h.crossHop (p := p) hhop (hqueued hpath hread hhop) hemulate
    obtain ⟨q, hq⟩ := h.queues ptr hop hhop
    obtain ⟨-, -, hbounds⟩ := floor_emulateHop (hqueued hpath hread hhop) hq hemulate
    obtain ⟨hdue, hle, hge⟩ := hbounds x due rfl
    have hdelay := (sameParams_emulateHop hemulate).1.delay
    refine hcross.advance (hown.hand_not_mem p rfl) ((place_eq hp.read).trans hpath) hread
      (Function.update_self _ _ _) ?_ (fun e he pe hpe harr hoff => ?_) ?_
    · show due ≤ (hop'.floor k.calendarTick : ℤ) + hop'.delay
      rw [hdue, hdelay]
      omega
    · -- the packets level with this one crossed the same hop before
      obtain ⟨off, ptr', hop₁, hoff', hread', h₁, hle'⟩ := h.floor e he pe hpe
      have hpe' : (⟨pe.arr, off⟩ : PathPtr) = path := by
        rw [harr, show off = path.off by omega]
      rw [hpe', hread] at hread'
      cases Option.some.inj (Option.some.inj hread')
      cases Option.some.inj (hhop.symm.trans h₁)
      rw [hdue]
      omega
    · exact hwin (.insert p due k.calendarTick) (List.mem_append_right _ List.mem_cons_self)

/-- A packet that arrives is younger than the others and behind them. -/
theorem start (h : InOrder k none) (hown : Owned k none) (skb : SkBuff) (okfn : Okfn)
    (arr : ℕ) : InOrder (k.start skb okfn arr) (some k.nextPkt) := by
  have hold : ∀ q ∈ k.calendar, q < k.nextPkt := by
    intro q hq
    by_contra hge
    obtain ⟨pkt, s, hp⟩ := hown.holding_of_mem hq
    exact absurd ((hown.fresh q (Nat.le_of_not_lt hge)).symm.trans hp.read) (by simp)
  have hplace : ∀ q, q < k.nextPkt → (k.start skb okfn arr).place q = k.place q := by
    intro q hq
    have hpkts : (k.start skb okfn arr).pkts q = k.pkts q :=
      (Function.update_of_ne (Nat.ne_of_lt hq) _ _).trans
        (Function.update_of_ne (Nat.ne_of_lt hq) _ _)
    unfold place
    rw [hpkts]
  have hmem : ∀ e ∈ k.agenda, e.2 ∈ k.calendar := fun e he => List.mem_map.mpr ⟨e, he, rfl⟩
  refine ⟨List.pairwise_cons.mpr ⟨fun q hq => ?_, ?_⟩, fun e he path hpath => ?_, h.queues⟩
  · intro pa pb hpa hpb _
    have hq' : q < k.nextPkt := hold q hq
    refine ⟨fun hlt => absurd hlt (Nat.lt_asymm hq'), fun _ => ?_⟩
    rw [place_eq (holding_start k skb okfn arr).read] at hpa
    cases hpa
    obtain ⟨e, he, rfl⟩ := List.mem_map.mp hq
    obtain ⟨off, ptr, hop, hoff, -⟩ := h.floor e he pb ((hplace _ hq').symm.trans hpb)
    rw [hoff]
    exact Nat.succ_pos off
  · refine List.Pairwise.imp_of_mem (fun {a b} ha hb hab => ?_) h.ahead
    exact hab.of_place (fun _ hp => (hplace a (hold a ha)).symm.trans hp)
      fun _ hp => (hplace b (hold b hb)).symm.trans hp
  · exact h.floor e he path ((hplace _ (hold _ (hmem e he))).symm.trans hpath)

end InOrder

end Kernel

end Linux

end Modelnet

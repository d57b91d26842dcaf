import Modelnet.Linux.InOrder

/-!
# Order preservation

Two packets that are accepted one after the other for the same path leave it in that order. The
log tells which packets started on which path and which were forwarded (`History`); the packet
that is forwarded next is the first of the calendar, so by the order of the packets on the
calendar nothing older is left on its path.
-/

namespace Modelnet.Linux

open Modelnet

/-- The packets accepted so far, with the blocks of their paths. -/
def started (log : List Obs) : List (PktId × ℕ) :=
  log.filterMap fun o => match o with
    | .path p arr => some (p, arr)
    | _ => none

def forwarded (log : List Obs) : List PktId :=
  log.filterMap fun o => match o with
    | .forward p => some p
    | _ => none

theorem started_append (log seen : List Obs) :
    started (log ++ seen) = started log ++ started seen := List.filterMap_append

theorem forwarded_append (log seen : List Obs) :
    forwarded (log ++ seen) = forwarded log ++ forwarded seen := List.filterMap_append

namespace Kernel

variable {hz : ℕ} {k k' : Kernel} {p : PktId} {pkt : Packet} {s : SkbId}

/-- What the log says about the packets and their paths. -/
structure History (k : Kernel) : Prop where
  increasing : (started k.log).Pairwise fun a b => a.1 < b.1
  fresh : ∀ a ∈ started k.log, a.1 < k.nextPkt
  place : ∀ a ∈ started k.log, ∀ path, k.place a.1 = some path → path.arr = a.2
  dead : ∀ p ∈ forwarded k.log, p < k.nextPkt ∧ k.pkts p = none
  nodup : (forwarded k.log).Nodup
  /-- Nothing older is left on the path of a forwarded packet. -/
  passed : ∀ p q arr, (p, arr) ∈ started k.log → (q, arr) ∈ started k.log → p < q →
    q ∈ forwarded k.log → k.pkts p = none
  order : ∀ p q arr, (p, arr) ∈ started k.log → (q, arr) ∈ started k.log → p < q →
    p ∈ forwarded k.log → q ∈ forwarded k.log → [p, q].Sublist (forwarded k.log)

theorem history_load (jiffies : ℕ) (random : ℕ → ℕ) (tab : PathTab) :
    History (load jiffies random tab) where
  increasing := List.Pairwise.nil
  fresh _ ha := absurd ha List.not_mem_nil
  place _ ha := absurd ha List.not_mem_nil
  dead _ hp := absurd hp List.not_mem_nil
  nodup := List.nodup_nil
  passed _ _ _ hp := absurd hp List.not_mem_nil
  order _ _ _ hp := absurd hp List.not_mem_nil

namespace History

/-- Packets may move on along their paths or disappear. -/
theorem congr (h : History k) (seen : List Obs) (hlog : k'.log = k.log ++ seen)
    (hstarted : started seen = []) (hforwarded : forwarded seen = [])
    (hnextPkt : k.nextPkt ≤ k'.nextPkt)
    (hplace : ∀ p path', k'.place p = some path' →
      ∃ path, k.place p = some path ∧ path.arr = path'.arr)
    (hpkts : ∀ p, k.pkts p = none → k'.pkts p = none) : History k' := by
  have hs : started k'.log = started k.log := by
    rw [hlog, started_append, hstarted, List.append_nil]
  have hf : forwarded k'.log = forwarded k.log := by
    rw [hlog, forwarded_append, hforwarded, List.append_nil]
  constructor
  case increasing => exact hs ▸ h.increasing
  case fresh => exact fun a ha => (h.fresh a (hs ▸ ha)).trans_le hnextPkt
  case place =>
    intro a ha path' hpath'
    obtain ⟨path, hpath, harr⟩ := hplace a.1 path' hpath'
    exact harr.symm.trans (h.place a (hs ▸ ha) path hpath)
  case dead =>
    intro p hp
    obtain ⟨hlt, hnone⟩ := h.dead p (hf ▸ hp)
    exact ⟨hlt.trans_le hnextPkt, hpkts p hnone⟩
  case nodup => exact hf ▸ h.nodup
  case passed =>
    rw [hs, hf]
    exact fun p q arr hp hq hlt hfq => hpkts p (h.passed p q arr hp hq hlt hfq)
  case order =>
    rw [hs, hf]
    exact h.order

/-- **The step of the history.** A packet is forwarded once everything older on its path is
gone. -/
theorem forward (h : History k) (hp : k.pkts p = some pkt) (hlt : p < k.nextPkt)
    (hfirst : ∀ q arr, (q, arr) ∈ started k.log → (p, arr) ∈ started k.log → q < p →
      k.pkts q = none) : History (k.consume p s [.okfn s, .forward p, .kfree p]) := by
  have hs : started (k.consume p s [.okfn s, .forward p, .kfree p]).log = started k.log :=
    (started_append _ _).trans (List.append_nil _)
  have hf : forwarded (k.consume p s [.okfn s, .forward p, .kfree p]).log =
      forwarded k.log ++ [p] := forwarded_append _ _
  have hnone : (k.consume p s [.okfn s, .forward p, .kfree p]).pkts p = none :=
    Function.update_self _ _ _
  have hlive : ∀ q, k.pkts q = none → q ≠ p := by
    rintro q hq rfl
    exact absurd (hq.symm.trans hp) (by simp)
  constructor
  case increasing => exact hs ▸ h.increasing
  case fresh => exact fun a ha => h.fresh a (hs ▸ ha)
  case place =>
    exact fun a ha path hpath => h.place a (hs ▸ ha) path (place_consume k p s _ _ _ hpath)
  case dead =>
    intro q hq
    rw [hf] at hq
    rcases List.mem_append.mp hq with hq | hq
    · obtain ⟨hlt', hq'⟩ := h.dead q hq
      exact ⟨hlt', pkts_consume k p s _ q hq'⟩
    · rw [List.mem_singleton.mp hq]
      exact ⟨hlt, hnone⟩
  case nodup =>
    rw [hf]
    refine List.nodup_append.mpr ⟨h.nodup, List.nodup_singleton p, fun q hq q' hq' => ?_⟩
    rw [List.mem_singleton.mp hq']
    exact hlive q (h.dead q hq).2
  case passed =>
    intro q q' arr hq hq' hlt' hfq
    rw [hs] at hq hq'
    rw [hf] at hfq
    refine pkts_consume k p s _ q ?_
    rcases List.mem_append.mp hfq with hfq | hfq
    · exact h.passed q q' arr hq hq' hlt' hfq
    · rw [List.mem_singleton.mp hfq] at hq' hlt'
      exact hfirst q arr hq hq' hlt'
  case order =>
    intro q q' arr hq hq' hlt' hfq hfq'
    rw [hs] at hq hq'
    rw [hf] at hfq hfq' ⊢
    rcases List.mem_append.mp hfq' with hfq' | hfq'
    · -- the younger one was forwarded before, so the older one was too
      have hgone := h.passed q q' arr hq hq' hlt' hfq'
      have hfq := (List.mem_append.mp hfq).resolve_right fun he =>
        hlive q hgone (List.mem_singleton.mp he)
      exact (h.order q q' arr hq hq' hlt' hfq hfq').trans (List.sublist_append_left _ _)
    · rw [List.mem_singleton.mp hfq'] at hlt' ⊢
      have hfq := (List.mem_append.mp hfq).resolve_right fun he =>
        absurd (List.mem_singleton.mp he) (Nat.ne_of_lt hlt')
      exact (List.singleton_sublist.mpr hfq).append (List.Sublist.refl [p])

theorem nextHop (h : History k) (hin : InOrder k (some p)) (hown : Owned k (some p))
    (hr : OnRoute Hop.Queued k) (hp : Holding k p pkt s) (hnext : NextHop hz k p pkt s k') :
    History k' := by
  cases hnext with
  | @forward path hpath hread hhook =>
    have hlt : p < k.nextPkt := by
      by_contra hge
      exact absurd ((hown.fresh p (Nat.le_of_not_lt hge)).symm.trans hp.read) (by simp)
    refine h.forward hp.read hlt fun q arr hq hp' hqp => ?_
    by_contra hlive
    obtain ⟨pktq, hpktq⟩ := Option.ne_none_iff_exists'.mp hlive
    obtain ⟨pathq, hsq, hpathq, hrouteq, hoffq⟩ := hr.packet q pktq hpktq
    obtain ⟨path', hs, hpath', hroute, hoff⟩ := hr.packet p pkt hp.read
    cases Option.some.inj (hpath.symm.trans hpath')
    have hplacep := (place_eq hp.read).trans hpath
    have hplaceq := (place_eq hpktq).trans hpathq
    have harr : path.arr = pathq.arr :=
      (h.place _ hp' path hplacep).trans (h.place _ hq pathq hplaceq).symm
    have hmem : q ∈ k.calendar :=
      ((hown.live_iff q).mp (by rw [hpktq]; rfl)).resolve_right fun he =>
        Nat.ne_of_lt hqp (Option.some.inj he).symm
    -- the packet has no hop left, so the other one cannot be ahead of it
    have hahead := ((List.rel_of_pairwise_cons hin.ahead hmem) path pathq hplacep hplaceq harr).2 hqp
    have hend : hs[path.off]? = none := Option.some.inj ((hroute.readPath hoff).symm.trans hread)
    rw [← harr] at hrouteq
    rw [← hroute.unique hrouteq] at hoffq
    have hge := List.getElem?_eq_none_iff.mp hend
    omega
  | remote =>
    exact h.congr _ rfl rfl rfl (Nat.le_refl _) (fun q path hq => ⟨path, place_consume _ _ _ _ _ _ hq, rfl⟩)
      (pkts_consume _ _ _ _)
  | @dropped path ptr hop hop' =>
    exact h.congr [.cross p ptr, .kfreeSkb s, .kfree p] (List.append_assoc _ _ _) rfl rfl
      (Nat.le_refl _) (fun q path hq => ⟨path, place_consume (k.crossHop p ptr hop') _ _ _ _ _ hq, rfl⟩)
      (pkts_consume (k.crossHop p ptr hop') _ _ _)
  | @queued path ptr hop hop' x due hpath =>
    refine h.congr [.cross p ptr, .insert p due k.calendarTick]
      (List.append_assoc _ _ _) rfl rfl (Nat.le_refl _) (fun q path' hq => ?_) fun q hq => ?_
    · by_cases hqp : q = p
      · subst hqp
        have hself : (((k.crossHop q ptr hop').setPkt q (pkt.advance path)).listAddTail q
          due).pkts q = some (pkt.advance path) := Function.update_self _ _ _
        rw [place_eq hself] at hq
        cases Option.some.inj hq
        exact ⟨path, (place_eq hp.read).trans hpath, rfl⟩
      · have hpkts : (((k.crossHop p ptr hop').setPkt p (pkt.advance path)).listAddTail p
          due).pkts q = k.pkts q := Function.update_of_ne hqp _ _
        unfold Kernel.place at hq
        rw [hpkts] at hq
        exact ⟨path', hq, rfl⟩
    · have hqp : q ≠ p := by
        rintro rfl
        exact absurd (hq.symm.trans hp.read) (by simp)
      exact (Function.update_of_ne hqp _ _).trans hq

theorem start (h : History k) (skb : SkBuff) (okfn : Okfn) (arr : ℕ) :
    History (k.start skb okfn arr) := by
  have hlog : (k.start skb okfn arr).log =
      k.log ++ [.input k.nextSkb, .kmalloc k.nextPkt, .path k.nextPkt arr] :=
    List.append_assoc _ _ _
  have hs : started (k.start skb okfn arr).log = started k.log ++ [(k.nextPkt, arr)] := by
    rw [hlog, started_append]
    rfl
  have hf : forwarded (k.start skb okfn arr).log = forwarded k.log := by
    rw [hlog, forwarded_append]
    exact List.append_nil _
  have hpkts : ∀ q, q < k.nextPkt → (k.start skb okfn arr).pkts q = k.pkts q := fun q hq =>
    (Function.update_of_ne (Nat.ne_of_lt hq) _ _).trans
      (Function.update_of_ne (Nat.ne_of_lt hq) _ _)
  have hold : ∀ {q arr'}, (q, arr') ∈ started k.log ++ [(k.nextPkt, arr)] → q < k.nextPkt →
      (q, arr') ∈ started k.log := by
    intro q arr' hq hlt
    refine (List.mem_append.mp hq).resolve_right fun he => ?_
    cases List.mem_singleton.mp he
    exact Nat.lt_irrefl _ hlt
  constructor
  case increasing =>
    rw [hs]
    refine List.pairwise_append.mpr ⟨h.increasing, List.pairwise_singleton _ _, fun a ha b hb => ?_⟩
    rw [List.mem_singleton.mp hb]
    exact h.fresh a ha
  case fresh =>
    intro a ha
    rw [hs] at ha
    rcases List.mem_append.mp ha with ha | ha
    · exact (h.fresh a ha).trans (Nat.lt_succ_self _)
    · rw [List.mem_singleton.mp ha]
      exact Nat.lt_succ_self _
  case place =>
    intro a ha path hpath
    rw [hs] at ha
    rcases List.mem_append.mp ha with ha | ha
    · unfold Kernel.place at hpath
      rw [hpkts _ (h.fresh a ha)] at hpath
      exact h.place a ha path hpath
    · rw [List.mem_singleton.mp ha] at hpath ⊢
      rw [place_eq (holding_start k skb okfn arr).read] at hpath
      cases Option.some.inj hpath
      rfl
  case dead =>
    intro q hq
    rw [hf] at hq
    obtain ⟨hlt, hnone⟩ := h.dead q hq
    exact ⟨hlt.trans (Nat.lt_succ_self _), (hpkts q hlt).trans hnone⟩
  case nodup => exact hf ▸ h.nodup
  case passed =>
    intro q q' arr' hq hq' hlt hfq
    rw [hf] at hfq
    rw [hs] at hq hq'
    have hlt' := (h.dead q' hfq).1
    rw [hpkts q (hlt.trans hlt')]
    exact h.passed q q' arr' (hold hq (hlt.trans hlt')) (hold hq' hlt') hlt hfq
  case order =>
    intro q q' arr' hq hq' hlt hfq hfq'
    rw [hf] at hfq hfq' ⊢
    rw [hs] at hq hq'
    have hlt' := (h.dead q' hfq').1
    exact h.order q q' arr' (hold hq (hlt.trans hlt')) (hold hq' hlt') hlt hfq hfq'

end History

/-! ## Runs -/

theorem NextHop.log_append (h : NextHop hz k p pkt s k') : ∃ seen, k'.log = k.log ++ seen := by
  cases h with
  | forward => exact ⟨_, rfl⟩
  | remote => exact ⟨_, rfl⟩
  | dropped => exact ⟨_, List.append_assoc _ _ _⟩
  | queued => exact ⟨_, List.append_assoc _ _ _⟩

/-- The order of the packets and their history, if the insertions were in the window. -/
def Orderly (k : Kernel) : Prop := InsertsInWindow k.log → InOrder k none ∧ History k

theorem orderly_load (jiffies : ℕ) (random : ℕ → ℕ) {tab : PathTab}
    (hqueues : ∀ ptr hop, tab.hops ptr = some hop → ∃ q, hop.Refines q) :
    Orderly (load jiffies random tab) := by
  refine fun _ => ⟨⟨?_, fun e he => ?_, hqueues⟩, history_load jiffies random tab⟩
  · rw [calendar_load]
    exact List.Pairwise.nil
  · exact absurd (TimingWheel.mem_agenda.mp he).2 List.not_mem_nil

theorem Orderly.input (h : Orderly k) (hown : Owned k none) (hr : OnRoute Hop.Queued k)
    {skb : SkBuff} {okfn : Okfn} (hstep : InputStep hz k skb okfn k') : Orderly k' := by
  intro hwin
  cases hstep with
  | passed =>
    obtain ⟨hin, hhist⟩ := h hwin.of_append.of_append
    exact ⟨hin.congr (fun _ _ hp => hp) rfl rfl rfl,
      hhist.congr [.input k.nextSkb, .verdict k.nextSkb .accept]
        (List.append_assoc _ _ _) rfl rfl (Nat.le_refl _) (fun _ path hp => ⟨path, hp, rfl⟩)
        fun _ hp => hp⟩
  | noPath =>
    obtain ⟨hin, hhist⟩ := h hwin.of_append.of_append.of_append
    have hpkts : (((k.arrival skb okfn).kfreePkt k.nextPkt).giveVerdict k.nextSkb .accept).pkts =
        k.pkts := by
      show Function.update (Function.update k.pkts _ _) _ none = k.pkts
      rw [Function.update_idem, ← hown.fresh k.nextPkt (Nat.le_refl _), Function.update_eq_self]
    have hplace : ∀ q path, (((k.arrival skb okfn).kfreePkt k.nextPkt).giveVerdict k.nextSkb
        .accept).place q = some path → k.place q = some path := by
      intro q path hq
      unfold place at hq ⊢
      rwa [hpkts] at hq
    refine ⟨hin.congr hplace rfl rfl rfl, hhist.congr [.input k.nextSkb,
      .kmalloc k.nextPkt, .kfree k.nextPkt, .verdict k.nextSkb .accept] ?_ rfl rfl
      (Nat.le_succ _) (fun q path hq => ⟨path, hplace q path hq, rfl⟩) fun q hq => hpkts ▸ hq⟩
    show k.log ++ _ ++ _ ++ _ = _
    rw [List.append_assoc, List.append_assoc]
    rfl
  | @started arr k₁ hpath hnext =>
    have hwin₁ : InsertsInWindow k₁.log := hwin.of_append
    obtain ⟨seen, hseen⟩ := hnext.log_append
    have hwin₀ : InsertsInWindow (k.start skb okfn arr).log := by
      rw [hseen] at hwin₁
      exact hwin₁.of_append
    obtain ⟨hin, hhist⟩ := h hwin₀.of_append.of_append
    have hin' := hin.start hown skb okfn arr
    have hown' := hown.start skb okfn arr
    have hr' := hr.start okfn hpath
    have hp' := holding_start k skb okfn arr
    exact ⟨(hin'.nextHop hown' hr' hp' hnext hwin₁).congr (fun _ _ hp => hp) rfl rfl rfl,
      ((hhist.start skb okfn arr).nextHop hin' hown' hr' hp' hnext).congr
        [.verdict k.nextSkb .stolen] rfl rfl rfl (Nat.le_refl _)
        (fun _ path hp => ⟨path, hp, rfl⟩) fun _ hp => hp⟩

/-- Runs of traffic on links with a bandwidth limit are orderly. -/
theorem orderly_rule (hz : ℕ) :
    RunRule hz fun k => (Owned k none ∧ OnRoute Hop.Queued k) ∧ Orderly k where
  owned h := h.1.1
  drain {k p l pkt s k'} h hslot hp hnext hemulate := by
    refine ⟨(onRoute_rule hz Hop.parametric_queued).drain h.1 hslot hp hnext hemulate, fun hwin => ?_⟩
    obtain ⟨seen, hseen⟩ := hnext.log_append
    have hwin' : InsertsInWindow (k.listDel k.curSlot p).log := by
      rw [hseen] at hwin
      exact hwin.of_append
    obtain ⟨hin, hhist⟩ := h.2 hwin'.of_append
    have hin' := hin.listDel hslot
    have hown' := h.1.1.listDel hslot
    have hr' : OnRoute Hop.Queued (k.listDel k.curSlot p) := h.1.2.congr rfl rfl
    have hhist' : History (k.listDel k.curSlot p) :=
      hhist.congr [.remove p k.calendarTick] rfl rfl rfl (Nat.le_refl _)
        (fun _ path hp => ⟨path, hp, rfl⟩) fun _ hp => hp
    exact ⟨hin'.nextHop hown' hr' hp hnext hwin, hhist'.nextHop hin' hown' hr' hp hnext⟩
  tick {k} h hslot := by
    refine ⟨(onRoute_rule hz Hop.parametric_queued).tick h.1 hslot, fun hwin => ?_⟩
    obtain ⟨hin, hhist⟩ := h.2 hwin
    exact ⟨hin.tick hslot, hhist.congr [] (List.append_nil _).symm rfl rfl (Nat.le_refl _)
      (fun _ path hp => ⟨path, hp, rfl⟩) fun _ hp => hp⟩
  input h hstep :=
    ⟨(onRoute_rule hz Hop.parametric_queued).input h.1 hstep, h.2.input h.1.1 h.1.2 hstep⟩

/-- **Order preservation.** On local links with a bandwidth limit, every run of arrivals and ticks
completes, and as long as everything is due inside the window of the calendar, packets that were
accepted for the same path are forwarded in the order in which they were accepted. -/
theorem forwarded_in_order (hz jiffies : ℕ) (random : ℕ → ℕ) {tab : PathTab}
    (hroutes : tab.Routes Hop.Queued)
    (hqueues : ∀ ptr hop, tab.hops ptr = some hop → ∃ q, hop.Refines q) (es : List Event) :
    ∃ k, PartialRun.run (step hz) (load jiffies random tab) es = some k ∧
      (InsertsInWindow k.log → (forwarded k.log).Nodup ∧
        ∀ p q arr, [(p, arr), (q, arr)].Sublist (started k.log) →
          p ∈ forwarded k.log → q ∈ forwarded k.log → [p, q].Sublist (forwarded k.log)) := by
  obtain ⟨k, hrun, -, hk⟩ := (orderly_rule hz).run_isSome (fun _ h => h.crossable)
    (fun h => h.1.2)
    ⟨⟨owned_load jiffies random tab, hroutes, fun p pkt hp => by cases hp⟩,
      orderly_load jiffies random hqueues⟩ es
  refine ⟨k, hrun, fun hwin => ?_⟩
  obtain ⟨-, hhist⟩ := hk hwin
  refine ⟨hhist.nodup, fun p q arr hpq hp hq => ?_⟩
  have hlt : p < q := List.rel_of_pairwise_cons (hhist.increasing.sublist hpq) List.mem_cons_self
  exact hhist.order p q arr (hpq.subset List.mem_cons_self)
    (hpq.subset (List.mem_cons_of_mem _ List.mem_cons_self)) hlt hp hq

/-- Two packets cross the link between two nodes in the order of their arrival. -/
theorem forwarded_in_order_twoPackets :
    ∃ k, PartialRun.run (step 1000) (load 0 (fun _ => 0) PathTab.oneLink) twoPackets = some k ∧
      [0, 1].Sublist (forwarded k.log) := by
  have hqueues : ∀ ptr hop, PathTab.oneLink.hops ptr = some hop → ∃ q, hop.Refines q := by
    intro ptr hop h
    have hlink : (if ptr = ⟨0, 0⟩ then some PathTab.link else none) = some hop := h
    split_ifs at hlink
    cases hlink
    exact ⟨[], Hop.refines_install 1000 0 (by decide)⟩
  obtain ⟨k, hk, horder⟩ := forwarded_in_order 1000 0 (fun _ => 0)
    (PathTab.routes_oneLink ⟨rfl, by decide, by decide, rfl, rfl⟩) hqueues twoPackets
  have hlog := log_twoPackets
  rw [hk, Option.map_some] at hlog
  rw [Option.some.inj hlog] at horder
  refine ⟨k, hk, ?_⟩
  rw [Option.some.inj hlog]
  exact (horder (by decide)).2 0 1 4 (by decide) (by decide) (by decide)

end Kernel

end Modelnet.Linux

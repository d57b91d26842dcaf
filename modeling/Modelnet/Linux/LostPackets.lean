import Modelnet.Linux.HopCounters
import Modelnet.Linux.Ordering
import Mathlib.Algebra.BigOperators.Group.Finset.Piecewise
import Mathlib.Algebra.Order.BigOperators.Group.Finset
import Mathlib.Data.Nat.ModEq

/-!
# Where the packets have gone

On a network of local hops without loss rates a packet that has started on a path is on the
calendar, or it was forwarded, or it has met a full queue, and then it is in the counter of that
hop. So the drops that `modelstat` prints make up for the packets that are missing
(`modelstat_drops`).
-/

namespace Modelnet.Linux

open Modelnet

/-- The crossings that lost their packet. -/
def lost (log : List Obs) : List Crossing := (crossings log).filter fun c => c.carried = false

theorem lost_append {log seen : List Obs} (hseen : ∀ o, seen.head? = some o → ¬ o.Completes) :
    lost (log ++ seen) = lost log ++ lost seen := by
  unfold lost
  rw [crossings_append hseen, List.filter_append]

theorem sum_lostAt {log : List Obs} {b n : ℕ}
    (h : ∀ c ∈ crossings log, ∃ i : ℕ, i < n ∧ c.hop = ⟨b, i⟩) :
    ∑ i ∈ Finset.range n, (lostAt ⟨b, i⟩ log).length = (lost log).length := by
  unfold lostAt lost
  simp only [List.length_map, ← List.countP_eq_length_filter]
  revert h
  generalize crossings log = cs
  intro h
  induction cs with
  | nil => simp
  | cons c cs ih =>
    obtain ⟨i, hi, hc⟩ := h c List.mem_cons_self
    have hhop : ∀ j : ℕ, (c.hop = ⟨b, j⟩ ∧ c.carried = false) ↔ i = j ∧ c.carried = false := by
      intro j
      rw [hc, HopPtr.mk.injEq, Nat.cast_inj]
      exact and_congr_left' ⟨fun hj => hj.2, fun hj => ⟨rfl, hj⟩⟩
    simp only [List.countP_cons, decide_eq_true_eq, Finset.sum_add_distrib,
      ih fun c' hc' => h c' (List.mem_cons_of_mem c hc'), hhop, ite_and]
    rw [Finset.sum_ite_eq, if_pos (Finset.mem_range.mpr hi)]

namespace Kernel

/-- Hop tables are loaded before there is traffic, with local hops without a loss rate. -/
def Lossless (k : Kernel) : Activity → Prop
  | .write (.hoptable w) => w.Loads → k.log = [] ∧ ∀ i : ℕ, (i : ℤ) < w.hopcount.toInt →
      (w.hops i).plr.toInt ≤ 0 ∧ (w.hops i).emulator = 0
  | _ => True

/-- The packets are accounted for, with `inHand` of them in the hands of a call. -/
structure Account (k : Kernel) (inHand : ℕ) : Prop where
  plain : ∀ ptr hop, k.tab.hops ptr = some hop → hop.plr ≤ 0 ∧ hop.emulator = 0
  known : ∀ c ∈ crossings k.log, (k.tab.hops c.hop).isSome
  balance : (started k.log).length =
    (forwarded k.log).length + (lost k.log).length + k.calendar.length + inHand

variable {hz n n' : ℕ} {k k' : Kernel} {p : PktId} {pkt : Packet} {s : SkbId}

theorem account_load (jiffies : ℕ) (random : ℕ → ℕ) :
    Account (load jiffies random PathTab.empty) 0 where
  plain _ _ h := by cases h
  known _ h := absurd h List.not_mem_nil
  balance := by
    rw [calendar_load]
    rfl

namespace Account

theorem quiet (h : Account k n) (seen : List Obs) (hlog : k'.log = k.log ++ seen)
    (hseen : ∀ o, seen.head? = some o → ¬ o.Completes) (hcross : crossings seen = [])
    (htab : k'.tab = k.tab) (hbalance : k.calendar.length + n + (started seen).length =
      k'.calendar.length + n' + (forwarded seen).length) : Account k' n' where
  plain := htab ▸ h.plain
  known c hc := by
    rw [hlog, crossings_append hseen, hcross, List.append_nil] at hc
    rw [htab]
    exact h.known c hc
  balance := by
    have hlost : lost seen = [] := by
      unfold lost
      rw [hcross]
      rfl
    have hold := h.balance
    rw [hlog, started_append, forwarded_append, lost_append hseen, hlost]
    simp only [List.length_append, List.length_nil]
    omega

theorem cross (h : Account k n) (seen : List Obs) (carried : Bool) {ptr : HopPtr}
    {hop hop' : Hop} (hhop : k.tab.hops ptr = some hop) (hsame : hop.SameParams hop')
    (hlog : k'.log = k.log ++ seen) (hseen : ∀ o, seen.head? = some o → ¬ o.Completes)
    (hcross : crossings seen = [⟨p, ptr, carried⟩]) (htab : k'.tab = k.tab.setHop ptr hop')
    (hstarted : started seen = []) (hforwarded : forwarded seen = [])
    (hbalance : k.calendar.length + n = k'.calendar.length + n' + if carried then 0 else 1) :
    Account k' n' := by
  have hself : k'.tab.hops ptr = some hop' := by
    rw [htab]
    exact Function.update_self _ _ _
  have hother : ∀ q, q ≠ ptr → k'.tab.hops q = k.tab.hops q := by
    intro q hq
    rw [htab]
    exact Function.update_of_ne hq _ _
  constructor
  case plain =>
    intro q hop₁ h₁
    by_cases hq : q = ptr
    · subst hq
      cases Option.some.inj (hself.symm.trans h₁)
      rw [hsame.plr, hsame.emulator]
      exact h.plain q hop hhop
    · exact h.plain q hop₁ ((hother q hq).symm.trans h₁)
  case known =>
    intro c hc
    by_cases hq : c.hop = ptr
    · rw [hq, hself]
      rfl
    · rw [hother _ hq]
      rw [hlog, crossings_append hseen, hcross] at hc
      refine h.known c ((List.mem_append.mp hc).resolve_right fun hm => hq ?_)
      rw [List.mem_singleton.mp hm]
  case balance =>
    have hlost : (lost seen).length = if carried then 0 else 1 := by
      unfold lost
      rw [hcross]
      cases carried <;> rfl
    have hold := h.balance
    rw [hlog, started_append, forwarded_append, lost_append hseen, hstarted, hforwarded]
    simp only [List.length_append, List.length_nil, hlost]
    omega

/-- A call of `emulate_nexthop` forwards its packet, loses it, or puts it on the calendar. -/
theorem nextHop (h : Account k 1) (hnext : NextHop hz k p pkt s k') : Account k' 0 := by
  cases hnext with
  | forward => exact h.quiet _ rfl (by simp [Obs.Completes]) rfl rfl rfl
  | remote hpath hread hhop hemulator => exact absurd (h.plain _ _ hhop).2 hemulator
  | @dropped path ptr hop hop' plr bw hpath hread hhop hemulator hemulate =>
    exact h.cross [.cross p ptr, .kfreeSkb s, .kfree p] false hhop
      (sameParams_emulateHop hemulate).1 (List.append_assoc _ _ _) (by simp [Obs.Completes]) rfl rfl
      rfl rfl rfl
  | @queued path ptr hop hop' x due hpath hread hhop hemulator hemulate =>
    refine h.cross [.cross p ptr, .insert p due k.calendarTick] true hhop
      (sameParams_emulateHop hemulate).1 (List.append_assoc _ _ _) (by simp [Obs.Completes]) rfl rfl
      rfl rfl ?_
    have hperm := calendar_listAddTail ((k.crossHop p ptr hop').setPkt p (pkt.advance path)) p due
    rw [hperm.length_eq]
    rfl

theorem start (h : Account k 0) (skb : SkBuff) (okfn : Okfn) (arr : ℕ) :
    Account (k.start skb okfn arr) 1 :=
  h.quiet [.input k.nextSkb, .kmalloc k.nextPkt, .path k.nextPkt arr]
    (List.append_assoc _ _ _) (by simp [Obs.Completes]) rfl rfl rfl

theorem input (h : Account k 0) {skb : SkBuff} {okfn : Okfn}
    (hstep : InputStep hz k skb okfn k') : Account k' 0 := by
  cases hstep with
  | passed =>
    exact h.quiet [.input k.nextSkb, .verdict k.nextSkb .accept] (List.append_assoc _ _ _)
      (by simp [Obs.Completes]) rfl rfl rfl
  | noPath =>
    refine h.quiet [.input k.nextSkb, .kmalloc k.nextPkt, .kfree k.nextPkt,
      .verdict k.nextSkb .accept] ?_ (by simp [Obs.Completes]) rfl rfl rfl
    show k.log ++ _ ++ _ ++ _ = _
    rw [List.append_assoc, List.append_assoc]
    rfl
  | started hpath hnext =>
    exact ((h.start skb okfn _).nextHop hnext).quiet [.verdict k.nextSkb .stolen] rfl
      (by simp [Obs.Completes]) rfl rfl rfl

/-- A write keeps the account: it does not change the hops, or there was no traffic yet. -/
theorem write (h : Account k 0) (htidy : k.tab.Tidy) (hz : ℕ) {w : TableWrite}
    (hlossless : Lossless k (.write w)) :
    Account { k with tab := (handle hz k.tab w).tab } 0 := by
  rcases handle_hops hz k.tab w with hsame | ⟨v, rfl, hloads, hsame⟩
  · exact ⟨fun ptr hop hhop => h.plain ptr hop (hsame.hops ▸ hhop),
      fun c hc => by
        show ((handle hz k.tab w).tab.hops c.hop).isSome
        rw [hsame.hops]
        exact h.known c hc, h.balance⟩
  · obtain ⟨hlog, hrecords⟩ := hlossless hloads
    have halloc := (PathTab.sameHops_alloc k.tab).tidy htidy
    have hall : (k.tab.alloc.load hz v.load).1.AllHops fun hop =>
        hop.plr ≤ 0 ∧ hop.emulator = 0 := by
      refine (halloc.allHops_load_iff v.load).mpr fun _ i hi => ?_
      unfold HopLoad.loaded
      split_ifs
      · exact hrecords i hi
      · exact ⟨le_refl _, rfl⟩
    refine ⟨fun ptr hop hhop => hall ptr hop (hsame.hops ▸ hhop), fun c hc => ?_, h.balance⟩
    have hc' : c ∈ crossings k.log := hc
    rw [hlog] at hc'
    exact absurd hc' List.not_mem_nil

end Account

/-! ## Runs -/

/-- The account stays while the clock runs. -/
theorem account_rule (hz : ℕ) : ClockRule hz fun k => Owned k none ∧ Account k 0 where
  owned h := h.1
  drain {k p l pkt s k'} h hslot hp hnext _ := by
    have hdel : Account (k.listDel k.curSlot p) 1 :=
      h.2.quiet [.remove p k.calendarTick] rfl (by simp [Obs.Completes]) rfl rfl (by
        rw [calendar_listDel hslot]
        rfl)
    exact ⟨(h.1.listDel hslot).nextHop hp hnext, hdel.nextHop hnext⟩
  tick {k} h hslot := by
    have hcal : ({ k with calendarTick := k.calendarTick + 1 } : Kernel).calendar = k.calendar :=
      congrArg (List.map Prod.snd) (agenda_tick hslot)
    refine ⟨h.1.tick hslot, h.2.quiet [] (List.append_nil _).symm (by simp) rfl rfl ?_⟩
    rw [hcal]
    rfl

theorem account_of_activity {a : Activity}
    (h : (Owned k none ∧ ∃ lens, Counted lens k) ∧ Account k 0) (hlossless : Lossless k a)
    (hstep : k.activity hz a = some k') :
    (Owned k' none ∧ ∃ lens, Counted lens k') ∧ Account k' 0 := by
  obtain ⟨⟨hown, lens, hcount⟩, haccount⟩ := h
  obtain ⟨hown', hcount'⟩ := counted_of_activity ⟨hown, hcount⟩ hstep
  refine ⟨⟨hown', _, hcount'⟩, ?_⟩
  cases a with
  | input skb kmallocOk okfn => exact haccount.input (inputStep_of_step hstep)
  | clock turn => exact ((account_rule hz).clockTurn ⟨hown, haccount⟩ hstep).2
  | write w =>
    cases hstep
    exact haccount.write hcount.tidy hz hlossless

/-- The drops of the hops of the table are all the losses. -/
theorem Account.sum_qdrops {lens : List ℕ} (h : Account k 0) (hcount : Counted lens k) :
    ∑ i ∈ Finset.range k.tab.hopcount.toNat, (tableHop k.tab i).qdrops = (lost k.log).length := by
  cases hb : k.tab.hoptable with
  | none =>
    have hnone : lost k.log = [] := by
      refine List.eq_nil_iff_forall_not_mem.mpr fun c hc => ?_
      have hlive := (hcount.populated.live c.hop).mp (h.known c (List.mem_filter.mp hc).1)
      rw [hb] at hlive
      cases hlive.1
    rw [hcount.populated.none hb, hnone]
    rfl
  | some b =>
    rw [← sum_lostAt (b := b) fun c hc => ?_]
    · refine Finset.sum_congr rfl fun i hi => ?_
      obtain ⟨b', hb', hhop⟩ := hcount.populated.tableHop (Finset.mem_range.mp hi)
      cases Option.some.inj (hb'.symm.trans hb)
      exact (hcount.agree _ _ hhop).lossless (h.plain _ _ hhop).1
    · obtain ⟨htab, hidx, hlt⟩ := (hcount.populated.live c.hop).mp (h.known c hc)
      refine ⟨c.hop.idx.toNat, by omega, ?_⟩
      rw [Int.toNat_of_nonneg hidx]
      exact congrArg (HopPtr.mk · c.hop.idx) (Option.some.inj (htab.symm.trans hb))

/-- **Drops make up for what is missing.** Let the hop table have been loaded before there was
traffic, with local hops without a loss rate. After any activities, the packets that have started
on a path are those that were forwarded, those on the calendar, and those in the column of drops
that `modelstat` prints, which is cut to 32 bits in each line. With fewer than `2 ^ 32` packets the
sum is exact. -/
theorem modelstat_drops (hz jiffies : ℕ) (random : ℕ → ℕ) (as : List Activity) (k : Kernel)
    (hlossless : PartialRun.Guarded (activity hz) Lossless (load jiffies random PathTab.empty) as)
    (hrun : PartialRun.run (activity hz) (load jiffies random PathTab.empty) as = some k) :
    ∃ lines, modelstat k.tab true true = some (.printed lines) ∧
      (started k.log).length ≡ (forwarded k.log).length + k.calendar.length +
        (lines.map StatLine.drops).sum [MOD 2 ^ 32] ∧
      ((started k.log).length < 2 ^ 32 → (started k.log).length =
        (forwarded k.log).length + k.calendar.length + (lines.map StatLine.drops).sum) := by
  obtain ⟨⟨-, lens, hcount⟩, haccount⟩ := PartialRun.run_invariant_guarded
    (I := fun k => (Owned k none ∧ ∃ lens, Counted lens k) ∧ Account k 0)
    (fun k a k' hk hq hstep => account_of_activity hk hq hstep) hlossless hrun
    ⟨⟨owned_load jiffies random PathTab.empty, [], counted_load jiffies random⟩,
      account_load jiffies random⟩
  have hsum := haccount.sum_qdrops hcount
  have hbalance := haccount.balance
  have hlines : (((List.range k.tab.hopcount.toNat).map fun i =>
      hopLine (tableHop k.tab i) i).map StatLine.drops).sum =
      ∑ i ∈ Finset.range k.tab.hopcount.toNat, (tableHop k.tab i).qdrops % 2 ^ 32 := by
    rw [List.map_map]
    rfl
  refine ⟨_, modelstat_eq hcount.populated, ?_, fun hlt => ?_⟩
  · have hmod : ∑ i ∈ Finset.range k.tab.hopcount.toNat, (tableHop k.tab i).qdrops ≡
        ∑ i ∈ Finset.range k.tab.hopcount.toNat, (tableHop k.tab i).qdrops % 2 ^ 32
        [MOD 2 ^ 32] := Finset.sum_nat_mod _ _ _
    have hexact : (started k.log).length = (forwarded k.log).length + k.calendar.length +
        ∑ i ∈ Finset.range k.tab.hopcount.toNat, (tableHop k.tab i).qdrops := by omega
    rw [hlines, hexact]
    exact hmod.add_left _
  · have hsmall : ∀ i ∈ Finset.range k.tab.hopcount.toNat,
        (tableHop k.tab i).qdrops % 2 ^ 32 = (tableHop k.tab i).qdrops := by
      intro i hi
      have hle := Finset.single_le_sum (f := fun i => (tableHop k.tab i).qdrops)
        (fun _ _ => Nat.zero_le _) hi
      exact Nat.mod_eq_of_lt (by omega)
    rw [hlines, Finset.sum_congr rfl hsmall]
    omega

/-- Two packets for a link that has room for one. -/
def narrowLink : List Activity :=
  [.write (.hoptable ⟨true, 0, 12, true, 1, true, fun _ => ⟨8000, 10, 0, 1, 0, 0⟩, true, true,
      fun _ => true, fun _ => true⟩),
    .write (.nodecount ⟨true, some 1, true, fun _ => true⟩),
    .write (.pathentry ⟨true, 20, true, 0, 0, 1, true, fun _ => 0, true, true⟩),
    .input ⟨0x0a000000, 0x0a000001, 1500⟩ true 7, .input ⟨0x0a000000, 0x0a000001, 1500⟩ true 7]

theorem modelstat_narrowLink : ∃ k lines,
    PartialRun.run (activity 1000) (load 0 (fun _ => 0) PathTab.empty) narrowLink = some k ∧
      modelstat k.tab true true = some (.printed lines) ∧ (started k.log).length = 2 ∧
      2 = k.calendar.length + (lines.map StatLine.drops).sum := by
  have hstate : (PartialRun.run (activity 1000) (load 0 (fun _ => 0) PathTab.empty)
      narrowLink).map (fun k => ((started k.log).length, (forwarded k.log).length)) =
      some (2, 0) := by decide +kernel
  obtain ⟨k, hk, hstate⟩ := Option.map_eq_some_iff.mp hstate
  obtain ⟨hstarted, hforwarded⟩ := Prod.mk.inj hstate
  have hlossless : PartialRun.Guarded (activity 1000) Lossless
      (load 0 (fun _ => 0) PathTab.empty) narrowLink :=
    ⟨fun _ => ⟨rfl, fun _ _ => ⟨show (0 : Int32).toInt ≤ 0 by decide, rfl⟩⟩,
      fun _ _ => ⟨trivial, fun _ _ => ⟨trivial, fun _ _ => ⟨trivial, fun _ _ => ⟨trivial,
        fun _ _ => trivial⟩⟩⟩⟩⟩
  obtain ⟨lines, hlines, -, hexact⟩ := modelstat_drops 1000 0 (fun _ => 0) narrowLink k hlossless hk
  have hsum := hexact (by rw [hstarted]; decide)
  rw [hstarted, hforwarded, Nat.zero_add] at hsum
  exact ⟨k, lines, hk, hlines, hstarted, hsum⟩

end Kernel

end Modelnet.Linux

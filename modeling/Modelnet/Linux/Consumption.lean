import Modelnet.Linux.Ledger
import Mathlib.Data.List.Nodup

/-!
# Exactly-once consumption

In every state that a run of arrivals and ticks reaches, a buffer that was accepted is out of
modelnet's hands, and one that was stolen is held by a packet on the calendar or was given away
once (`ConsumedOnce`). Without arrivals the clock empties the calendar: every packet waits for
less than `SCHEDLEN` ticks and has fewer positions of its path left each time.
-/

namespace Modelnet.Linux

open Modelnet

namespace Kernel

variable {hz : ℕ} {k k' : Kernel} {p : PktId} {pkt : Packet} {s : SkbId}

/-! ## The clock empties the calendar -/

/-- A bound on the calls of `emulate_nexthop` for the packets of the calendar. -/
def calendarWeight (k : Kernel) : ℕ := (k.calendar.map fun p => k.remaining p + 1).sum

theorem calendarWeight_nextHop (hown : Owned k none) {l : List PktId}
    (hslot : k.packetCalendar k.curSlot = p :: l) (hp : k.pkts p = some pkt)
    (hnext : NextHop hz (k.listDel k.curSlot p) p pkt s k') :
    k'.calendarWeight + 1 ≤ k.calendarWeight := by
  have hcal := calendar_listDel hslot
  have hnot : p ∉ (k.listDel k.curSlot p).calendar :=
    (hown.listDel hslot).hand_not_mem p rfl
  have hrest : ((k.listDel k.curSlot p).calendar.map fun q => k'.remaining q + 1) =
      (k.listDel k.curSlot p).calendar.map fun q => k.remaining q + 1 :=
    List.map_congr_left fun q hq => by
      have hne : q ≠ p := by
        rintro rfl
        exact hnot hq
      rw [hnext.remaining_of_ne hne]
      rfl
  unfold calendarWeight
  rw [hcal, List.map_cons, List.sum_cons]
  rcases hnext.calendar hp with heq | ⟨hperm, hrem⟩
  · rw [heq, hrest]
    omega
  · have hrem' : k'.remaining p + 1 = k.remaining p := hrem
    rw [(hperm.map _).sum_eq, List.map_cons, List.sum_cons, hrest]
    omega

theorem calendarWeight_pos {e : ℤ × PktId} (he : e ∈ k.agenda) : 0 < k.calendarWeight := by
  unfold calendarWeight calendar
  cases hagenda : k.agenda with
  | nil => exact absurd (hagenda ▸ he) List.not_mem_nil
  | cons e' l =>
    rw [List.map_cons, List.map_cons, List.sum_cons]
    omega

/-- What waits for tick `T` and all that may follow from it is over by tick `bound`. -/
def SettlesBy (bound : ℤ) (k : Kernel) : Prop :=
  ∀ e ∈ k.agenda, e.1 + schedLen * k.calendarWeight ≤ bound

theorem settlesBy_rule (bound : ℤ) : ClockRule hz fun k => Owned k none ∧ SettlesBy bound k where
  owned h := h.1
  drain {k p l pkt s k'} h hslot hp hnext _ := by
    refine ⟨(h.1.listDel hslot).nextHop hp hnext, fun e he => ?_⟩
    have hweight := calendarWeight_nextHop h.1 hslot hp.read hnext
    have hnow := h.2 (↑k.calendarTick, p) (by rw [agenda_listDel hslot]; exact List.mem_cons_self)
    have hlt : e.1 < k'.calendarTick + schedLen := (TimingWheel.mem_agenda.mp he).1.2
    have htick : k'.calendarTick = k.calendarTick := hnext.calendarTick
    have hmul : (schedLen : ℤ) * k'.calendarWeight + schedLen ≤ schedLen * k.calendarWeight := by
      have := Nat.mul_le_mul_left schedLen hweight
      rw [Nat.mul_add, Nat.mul_one] at this
      exact_mod_cast this
    rw [htick] at hlt
    dsimp only at hnow
    omega
  tick {k} h hslot := by
    refine ⟨h.1.tick hslot, fun e he => ?_⟩
    rw [agenda_tick hslot] at he
    have hweight : ({ k with calendarTick := k.calendarTick + 1 } : Kernel).calendarWeight =
        k.calendarWeight := by
      unfold calendarWeight calendar
      rw [agenda_tick hslot]
      rfl
    rw [hweight]
    exact h.2 e he

/-- Once the time has come nothing is left on the calendar. -/
theorem SettlesBy.calendar_eq_nil {bound : ℤ} (h : SettlesBy bound k)
    (hnow : bound ≤ k.calendarTick) : k.calendar = [] := by
  refine List.eq_nil_iff_forall_not_mem.mpr fun p hp => ?_
  obtain ⟨e, he, -⟩ := List.mem_map.mp hp
  have hle : (k.calendarTick : ℤ) ≤ e.1 := (TimingWheel.mem_agenda.mp he).1.1
  have hpos := Nat.mul_pos schedLen_pos (calendarWeight_pos he)
  have hdue := h e he
  rw [← Nat.cast_mul] at hdue
  omega

theorem settlesBy (k : Kernel) :
    SettlesBy (k.calendarTick + schedLen + schedLen * k.calendarWeight) k := by
  intro e he
  have hlt : e.1 < k.calendarTick + schedLen := (TimingWheel.mem_agenda.mp he).1.2
  omega

/-! ## Consumption -/

/-- Every buffer got at most one verdict, and what modelnet took over it holds or has given away
once; every struct is on the calendar or was freed, once. -/
structure ConsumedOnce (k : Kernel) : Prop where
  input : ∀ s : ℕ, k.log.count (.input s) = if s < k.nextSkb then 1 else 0
  verdict : ∀ s, k.log.count (.verdict s .accept) + k.log.count (.verdict s .stolen) =
    k.log.count (.input s)
  consumed : ∀ s, k.log.count (.okfn s) + k.log.count (.kfreeSkb s) + (k.skbs s).isSome.toNat =
    k.log.count (.verdict s .stolen)
  accepted : ∀ s, .verdict s .accept ∈ k.log →
    .okfn s ∉ k.log ∧ .kfreeSkb s ∉ k.log ∧ k.skbs s = none
  held : ∀ s, (k.skbs s).isSome → ∃ p ∈ k.calendar, ∃ pkt, Holding k p pkt s
  kmalloc : ∀ p : ℕ, k.log.count (.kmalloc p) = if p < k.nextPkt then 1 else 0
  kfree : ∀ p, k.log.count (.kfree p) + k.calendar.count p = k.log.count (.kmalloc p)
  calendar : k.calendar.Nodup
  live : ∀ p, (k.pkts p).isSome ↔ p ∈ k.calendar

/-- Nothing is left in modelnet's hands. -/
structure Settled (k : Kernel) : Prop where
  calendar : k.calendar = []
  pkts : ∀ p, k.pkts p = none
  skbs : ∀ s, k.skbs s = none

/-- A buffer that went back to the stack was not given away and is not held. -/
theorem Ledger.accepted (hl : Ledger k none) (hs : .verdict s .accept ∈ k.log) :
    .okfn s ∉ k.log ∧ .kfreeSkb s ∉ k.log ∧ k.skbs s = none := by
  have hpos := List.count_pos_iff.mpr hs
  have hinput : k.log.count (.input s) ≤ 1 := by
    rw [Books.input hl s]
    split_ifs <;> omega
  have hverdict := Books.verdict hl s
  have hconsumed := Books.consumed hl s
  simp only [reduceCtorEq, if_false] at hverdict hconsumed
  refine ⟨List.count_eq_zero.mp (by omega), List.count_eq_zero.mp (by omega), ?_⟩
  refine Option.not_isSome_iff_eq_none.mp fun hlive => ?_
  rw [hlive, Bool.toNat_true] at hconsumed
  omega

theorem consumedOnce (h : Owned k none) (hl : Ledger k none) : ConsumedOnce k := by
  have hlive : ∀ p, (k.pkts p).isSome ↔ p ∈ k.calendar := fun p =>
    (h.live_iff p).trans (or_iff_left (by simp))
  have hfree : ∀ p, k.calendar.count p = (k.pkts p).isSome.toNat := by
    intro p
    by_cases hp : p ∈ k.calendar
    · rw [List.count_eq_one_of_mem h.nodup hp, (hlive p).mpr hp]
      rfl
    · rw [List.count_eq_zero.mpr hp, Bool.eq_false_iff.mpr fun hs => hp ((hlive p).mp hs)]
      rfl
  constructor
  case input => exact Books.input hl
  case verdict => exact fun s => by simpa using Books.verdict hl s
  case consumed => exact fun s => by simpa using Books.consumed hl s
  case accepted => exact fun s hs => hl.accepted hs
  case held =>
    intro s hs
    obtain ⟨p, pkt, hp⟩ := h.held s hs
    exact ⟨p, (hlive p).mp (by rw [hp.read]; rfl), pkt, hp⟩
  case kmalloc => exact Books.kmalloc hl
  case kfree => exact fun p => by rw [hfree]; exact Books.kfree hl p
  case calendar => exact h.nodup
  case live => exact hlive

theorem ConsumedOnce.settled (h : ConsumedOnce k) (hcal : k.calendar = []) : Settled k := by
  have hno : ∀ p, p ∉ k.calendar := fun p => hcal ▸ List.not_mem_nil
  constructor
  case calendar => exact hcal
  case pkts =>
    intro p
    exact Option.not_isSome_iff_eq_none.mp fun hp => hno p ((h.live p).mp hp)
  case skbs =>
    intro s
    refine Option.not_isSome_iff_eq_none.mp fun hs => ?_
    obtain ⟨p, hp, -⟩ := h.held s hs
    exact hno p hp

/-- **Exactly-once consumption.** Every run of arrivals and ticks leaves every buffer and every
struct consumed at most once. With tables that serve the traffic every run completes, and from
some time on the clock has consumed everything. -/
theorem consumed_exactly_once (hz jiffies : ℕ) (random : ℕ → ℕ) (tab : PathTab) (es : List Event) :
    (∀ k, PartialRun.run (step hz) (load jiffies random tab) es = some k → ConsumedOnce k) ∧
    (tab.Routes Hop.Crossable →
      ∃ k, PartialRun.run (step hz) (load jiffies random tab) es = some k ∧
        ∃ bound, ∀ now ≥ bound, ∃ k', k.step hz (.hopclock now) = some k' ∧
          ConsumedOnce k' ∧ Settled k') := by
  have hown := owned_load jiffies random tab
  have hledger := ledger_load jiffies random tab
  constructor
  · intro k hrun
    obtain ⟨h, hl⟩ := (ledger_rule hz).run ⟨hown, hledger⟩ hrun
    exact consumedOnce h hl
  · intro hroutes
    have hroute : OnRoute Hop.Crossable (load jiffies random tab) :=
      ⟨hroutes, fun p pkt hp => by cases hp⟩
    obtain ⟨k, hrun, ⟨h, hl⟩, -, hr⟩ :=
      ((ledger_rule hz).and (onRoute_rule hz Hop.parametric_crossable)).run_isSome
        (fun _ h => h) (fun h => h.2.2) ⟨⟨hown, hledger⟩, hown, hroute⟩ es
    refine ⟨k, hrun, k.calendarTick + schedLen + schedLen * k.calendarWeight, fun now hnow => ?_⟩
    have hrule := (ledger_rule hz).toClockRule.and
      ((onRoute_rule hz Hop.parametric_crossable).toClockRule.and
        (settlesBy_rule (k.calendarTick + schedLen + schedLen * k.calendarWeight)))
    obtain ⟨k', hclock, ⟨⟨h', hl'⟩, -, -, hs'⟩, htick⟩ := hrule.hopclock_isSome
      (fun _ h => h) (fun h => h.2.1.2) ⟨⟨h, hl⟩, ⟨h, hr⟩, h, settlesBy k⟩ now
    have hconsumed := consumedOnce h' hl'
    refine ⟨k', hclock, hconsumed, hconsumed.settled (hs'.calendar_eq_nil ?_)⟩
    rw [htick]
    push_cast at hnow ⊢
    omega

/-- A packet crosses the link between two nodes. -/
theorem consumed_exactly_once_oneLink :
    ∃ k, PartialRun.run (step 1000) (load 0 (fun _ => 0) PathTab.oneLink)
        [.input ⟨0x0a000000, 0x0a000001, 1500⟩ true 7, .hopclock 5] = some k ∧
      ∃ bound, ∀ now ≥ bound, ∃ k', k.step 1000 (.hopclock now) = some k' ∧
        ConsumedOnce k' ∧ Settled k' :=
  (consumed_exactly_once 1000 0 (fun _ => 0) PathTab.oneLink _).2
    (PathTab.routes_oneLink fun _ => ⟨by decide, rfl, rfl⟩)

end Kernel

end Modelnet.Linux

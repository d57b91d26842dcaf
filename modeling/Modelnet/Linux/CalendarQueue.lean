import Modelnet.Linux.Consumption

/-!
# The calendar is a timing wheel

The log records what was put on the calendar for which tick, and what was taken off it at which
tick. As long as every packet is due inside the window of the calendar when it is linked, the two
histories are those of a timing wheel: at every tick the packets inserted for it come off, in the
order of insertion, and once the tick has passed all of them have. Insertions made while a slot is
being drained, also into that slot, are no exception.
-/

namespace Modelnet.Linux

open Modelnet

/-- What was linked into the calendar, with the due ticks. -/
def inserted (log : List Obs) : List (ℤ × PktId) :=
  log.filterMap fun o => match o with
    | .insert p due _ => some (due, p)
    | _ => none

/-- What was taken off the calendar, with the ticks at that moment. -/
def removed (log : List Obs) : List (ℤ × PktId) :=
  log.filterMap fun o => match o with
    | .remove p tick => some ((tick : ℤ), p)
    | _ => none

/-- What is linked into the calendar is due inside its window at that moment. -/
def Obs.InWindow : Obs → Prop
  | .insert _ due tick => TimingWheel.InWindow schedLen tick due
  | _ => True

instance : DecidablePred Obs.InWindow := fun o => match o with
  | .insert _ due tick => inferInstanceAs (Decidable (TimingWheel.InWindow schedLen tick due))
  | .input _ | .kmalloc _ | .path _ _ | .cross _ _ | .remove _ _ | .forward _ | .okfn _
  | .kfreeSkb _ | .kfree _ | .verdict _ _ => inferInstanceAs (Decidable True)

/-- Every packet was due inside the window of the calendar when it was linked. -/
def InsertsInWindow (log : List Obs) : Prop := ∀ o ∈ log, o.InWindow

instance (log : List Obs) : Decidable (InsertsInWindow log) :=
  inferInstanceAs (Decidable (∀ o ∈ log, o.InWindow))

/-- An observation of neither kind. -/
def Obs.OffCalendar : Obs → Prop
  | .insert _ _ _ | .remove _ _ => False
  | _ => True

variable {log seen : List Obs}

theorem inserted_append (log seen : List Obs) :
    inserted (log ++ seen) = inserted log ++ inserted seen := List.filterMap_append

theorem removed_append (log seen : List Obs) :
    removed (log ++ seen) = removed log ++ removed seen := List.filterMap_append

theorem inserted_of_offCalendar (h : ∀ o ∈ seen, o.OffCalendar) : inserted seen = [] := by
  refine List.filterMap_eq_nil_iff.mpr fun o ho => ?_
  have ho' := h o ho
  cases o <;> first | rfl | exact ho'.elim

theorem removed_of_offCalendar (h : ∀ o ∈ seen, o.OffCalendar) : removed seen = [] := by
  refine List.filterMap_eq_nil_iff.mpr fun o ho => ?_
  have ho' := h o ho
  cases o <;> first | rfl | exact ho'.elim

theorem InsertsInWindow.of_append (h : InsertsInWindow (log ++ seen)) : InsertsInWindow log :=
  fun o ho => h o (List.mem_append_left seen ho)

namespace Kernel

variable {hz : ℕ} {k k' : Kernel} {p : PktId} {pkt : Packet} {s : SkbId}

/-- The slots obey the law of the wheel, if the insertions were in the window. -/
def Lawful (k : Kernel) : Prop :=
  InsertsInWindow k.log →
    TimingWheel.Law schedLen k.packetCalendar k.calendarTick (inserted k.log) (removed k.log)

namespace Lawful

theorem congr (h : Lawful k) (seen : List Obs) (hseen : ∀ o ∈ seen, o.OffCalendar)
    (hlog : k'.log = k.log ++ seen) (hcal : k'.packetCalendar = k.packetCalendar)
    (htick : k'.calendarTick = k.calendarTick) : Lawful k' := by
  intro hwin
  rw [hlog] at hwin
  rw [hcal, htick, hlog, inserted_append, removed_append, inserted_of_offCalendar hseen,
    removed_of_offCalendar hseen, List.append_nil, List.append_nil]
  exact h hwin.of_append

theorem listAddTail (h : Lawful k) (p : PktId) (due : ℤ) : Lawful (k.listAddTail p due) := by
  intro hwin
  have hlog : (k.listAddTail p due).log = k.log ++ [.insert p due k.calendarTick] := rfl
  rw [hlog] at hwin ⊢
  have hdue := hwin (.insert p due k.calendarTick) (List.mem_append_right _ List.mem_cons_self)
  rw [inserted_append, removed_append]
  have hlaw := (h hwin.of_append).insert schedLen_pos hdue p
  rw [← List.append_nil (removed k.log)] at hlaw
  exact hlaw

theorem listDel (h : Lawful k) {l : List PktId} (hslot : k.packetCalendar k.curSlot = p :: l) :
    Lawful (k.listDel k.curSlot p) := by
  intro hwin
  have hlog : (k.listDel k.curSlot p).log = k.log ++ [.remove p k.calendarTick] := rfl
  rw [hlog] at hwin ⊢
  rw [packetCalendar_listDel hslot, inserted_append, removed_append]
  have hlaw := (h hwin.of_append).remove schedLen_pos hslot
  rw [← List.append_nil (inserted k.log)] at hlaw
  exact hlaw

theorem tick (h : Lawful k) (hslot : k.packetCalendar k.curSlot = []) :
    Lawful { k with calendarTick := k.calendarTick + 1 } :=
  fun hwin => (h hwin).tick schedLen_pos hslot

/-- A call of `emulate_nexthop` puts its packet on the calendar or leaves the calendar alone. -/
theorem nextHop (h : Lawful k) (hnext : NextHop hz k p pkt s k') : Lawful k' := by
  cases hnext with
  | forward => exact h.congr _ (by simp [Obs.OffCalendar]) rfl rfl rfl
  | remote => exact h.congr _ (by simp [Obs.OffCalendar]) rfl rfl rfl
  | @dropped path ptr hop hop' =>
    exact h.congr [.cross p ptr, .kfreeSkb s, .kfree p] (by simp [Obs.OffCalendar])
      (List.append_assoc _ _ _) rfl rfl
  | @queued path ptr hop hop' x due =>
    have hcross : Lawful ((k.crossHop p ptr hop').setPkt p (pkt.advance path)) :=
      h.congr [.cross p ptr] (by simp [Obs.OffCalendar]) rfl rfl rfl
    exact hcross.listAddTail p due

theorem input (h : Lawful k) {skb : SkBuff} {okfn : Okfn} (hstep : InputStep hz k skb okfn k') :
    Lawful k' := by
  cases hstep with
  | passed =>
    exact h.congr [.input k.nextSkb, .verdict k.nextSkb .accept]
      (by simp [Obs.OffCalendar]) (List.append_assoc _ _ _) rfl rfl
  | noPath =>
    refine h.congr [.input k.nextSkb, .kmalloc k.nextPkt, .kfree k.nextPkt,
      .verdict k.nextSkb .accept] (by simp [Obs.OffCalendar]) ?_ rfl rfl
    show k.log ++ _ ++ _ ++ _ = _
    rw [List.append_assoc, List.append_assoc]
    rfl
  | @started arr k₁ _ hnext =>
    have hstart : Lawful (k.start skb okfn arr) :=
      h.congr [.input k.nextSkb, .kmalloc k.nextPkt, .path k.nextPkt arr]
        (by simp [Obs.OffCalendar]) (List.append_assoc _ _ _) rfl rfl
    exact (hstart.nextHop hnext).congr [.verdict k.nextSkb .stolen]
      (by simp [Obs.OffCalendar]) rfl rfl rfl

end Lawful

theorem lawful_load (jiffies : ℕ) (random : ℕ → ℕ) (tab : PathTab) :
    Lawful (load jiffies random tab) :=
  fun _ => TimingWheel.Law.empty fun _ => rfl

theorem lawful_rule (hz : ℕ) : RunRule hz fun k => Owned k none ∧ Lawful k where
  owned h := h.1
  drain h hslot hp hnext _ :=
    ⟨(h.1.listDel hslot).nextHop hp hnext, (h.2.listDel hslot).nextHop hnext⟩
  tick h hslot := ⟨h.1.tick hslot, h.2.tick hslot⟩
  input h hstep := ⟨h.1.input hstep, h.2.input hstep⟩

/-- The calendar does what it is for: at every tick exactly the packets inserted for it come off,
first come first served, and all of them once the tick has passed. No packet is on the calendar
twice, and no live packet is off it. -/
structure CalendarCorrect (k : Kernel) : Prop where
  law : TimingWheel.Law schedLen k.packetCalendar k.calendarTick (inserted k.log) (removed k.log)
  passed : ∀ T < (k.calendarTick : ℤ),
    TimingWheel.entriesAt T (removed k.log) = TimingWheel.entriesAt T (inserted k.log)
  nodup : k.calendar.Nodup
  live : ∀ p, (k.pkts p).isSome ↔ p ∈ k.calendar

/-- **The calendar queue is a timing wheel** in every state that a run reaches, if all insertions
were in the window. With tables that serve the traffic every run completes, and the clock then
reaches every tick. -/
theorem calendar_correct (hz jiffies : ℕ) (random : ℕ → ℕ) (tab : PathTab) (es : List Event) :
    (∀ k, PartialRun.run (step hz) (load jiffies random tab) es = some k → InsertsInWindow k.log →
      CalendarCorrect k) ∧
    (tab.Routes Hop.Crossable →
      ∃ k, PartialRun.run (step hz) (load jiffies random tab) es = some k ∧
        ∀ now, ∃ k', k.step hz (.hopclock now) = some k' ∧
          k'.calendarTick = max k.calendarTick now) := by
  have hown := owned_load jiffies random tab
  constructor
  · intro k hrun hwin
    obtain ⟨h, hlawful⟩ := (lawful_rule hz).run ⟨hown, lawful_load jiffies random tab⟩ hrun
    have hlaw := hlawful hwin
    exact ⟨hlaw, fun T hT => hlaw.removed_of_lt hT, h.nodup,
      fun p => (h.live_iff p).trans (or_iff_left (by simp))⟩
  · intro hroutes
    have hrule := onRoute_rule hz Hop.parametric_crossable
    obtain ⟨k, hrun, hk⟩ := hrule.run_isSome (fun _ h => h) (fun h => h.2)
      ⟨hown, hroutes, fun p pkt hp => by cases hp⟩ es
    refine ⟨k, hrun, fun now => ?_⟩
    obtain ⟨k', hclock, -, htick⟩ :=
      hrule.toClockRule.hopclock_isSome (fun _ h => h) (fun h => h.2) hk now
    exact ⟨k', hclock, htick⟩

/-! ## A run -/

/-- Two packets for the link between two nodes, and the clock. -/
def twoPackets : List Event :=
  [.input ⟨0x0a000000, 0x0a000001, 1500⟩ true 7, .hopclock 5,
    .input ⟨0x0a000000, 0x0a000001, 40⟩ true 7, .hopclock 20]

theorem log_twoPackets :
    (PartialRun.run (step 1000) (load 0 (fun _ => 0) PathTab.oneLink) twoPackets).map Kernel.log =
      some ([.input 0, .kmalloc 0, .path 0 4, .cross 0 ⟨0, 0⟩, .insert 0 12 0, .verdict 0 .stolen,
        .input 1, .kmalloc 1, .path 1 4, .cross 1 ⟨0, 0⟩, .insert 1 16 5, .verdict 1 .stolen,
        .remove 0 12, .okfn 0, .forward 0, .kfree 0, .remove 1 16, .okfn 1, .forward 1,
        .kfree 1] : List Obs) := by
  decide +kernel

/-- The second packet comes off the calendar after the first. -/
theorem calendar_correct_twoPackets :
    ∃ k, PartialRun.run (step 1000) (load 0 (fun _ => 0) PathTab.oneLink) twoPackets = some k ∧
      removed k.log = [(12, 0), (16, 1)] ∧ CalendarCorrect k := by
  obtain ⟨k, hk, hlog⟩ := Option.map_eq_some_iff.mp log_twoPackets
  have hcorrect := (calendar_correct 1000 0 (fun _ => 0) PathTab.oneLink twoPackets).1 k hk
  rw [hlog] at hcorrect
  exact ⟨k, hk, by rw [hlog]; rfl, hcorrect (by decide)⟩

end Kernel

end Modelnet.Linux

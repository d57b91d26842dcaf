import Modelnet.Linux.Clock

/-!
# The clock in steps

A run of `hopclock` is a sequence of turns: the front of the served slot is taken off the calendar
and gets its next hop, or the clock moves past an empty slot. The systems in which other things
happen during a run of the clock take these turns one by one.
-/

namespace Modelnet.Linux

open Modelnet

namespace Kernel

variable {hz : ℕ} {k k' : Kernel} {p : PktId}

/-- The front of the served slot gets its next hop. -/
def serve (hz : ℕ) (k : Kernel) : Option Kernel :=
  match k.packetCalendar k.curSlot with
  | [] => some k
  | p :: _ => (k.listDel k.curSlot p).emulateNexthop hz p

/-- The clock moves past an empty slot. -/
def nextTick (k : Kernel) : Kernel :=
  match k.packetCalendar k.curSlot with
  | [] => { k with calendarTick := k.calendarTick + 1 }
  | _ :: _ => k

theorem serve_of_cons {l : List PktId} (hslot : k.packetCalendar k.curSlot = p :: l) :
    k.serve hz = (k.listDel k.curSlot p).emulateNexthop hz p := by
  unfold serve
  rw [hslot]

theorem nextTick_of_nil (hslot : k.packetCalendar k.curSlot = []) :
    k.nextTick = { k with calendarTick := k.calendarTick + 1 } := by
  unfold nextTick
  rw [hslot]

inductive ClockTurn where
  | serve
  | tick

def clockTurn (hz : ℕ) (k : Kernel) : ClockTurn → Option Kernel
  | .serve => k.serve hz
  | .tick => some k.nextTick

theorem clockTurn_cases {turn : ClockTurn} (h : k.clockTurn hz turn = some k') :
    k' = k ∨
    (turn = .tick ∧ k.packetCalendar k.curSlot = [] ∧
      k' = { k with calendarTick := k.calendarTick + 1 }) ∨
    (turn = .serve ∧ ∃ p l, k.packetCalendar k.curSlot = p :: l ∧
      (k.listDel k.curSlot p).emulateNexthop hz p = some k') := by
  cases hslot : k.packetCalendar k.curSlot with
  | nil =>
    cases turn with
    | serve =>
      have hserve : k.serve hz = some k := by
        unfold serve
        rw [hslot]
      exact Or.inl (Option.some.inj (h.symm.trans hserve))
    | tick =>
      rw [clockTurn, nextTick_of_nil hslot] at h
      exact Or.inr (Or.inl ⟨rfl, rfl, (Option.some.inj h).symm⟩)
  | cons p l =>
    cases turn with
    | serve =>
      rw [clockTurn, serve_of_cons hslot] at h
      exact Or.inr (Or.inr ⟨rfl, p, l, rfl, h⟩)
    | tick =>
      have htick : k.nextTick = k := by
        unfold nextTick
        rw [hslot]
      rw [clockTurn, htick] at h
      exact Or.inl (Option.some.inj h).symm

/-- **Turn rule.** What the steps of the clock preserve, a turn does. -/
theorem ClockRule.clockTurn {I : Kernel → Prop} (hI : ClockRule hz I) (hk : I k) {turn : ClockTurn}
    (h : k.clockTurn hz turn = some k') : I k' := by
  rcases clockTurn_cases h with rfl | ⟨-, hslot, rfl⟩ | ⟨-, p, l, hslot, hnext⟩
  · exact hk
  · exact hI.tick hk hslot
  · exact (hI.turn hk hslot hnext).1

theorem turns_rule (hz : ℕ) (k₀ : Kernel) : ClockRule hz fun k =>
    Owned k none ∧ ∃ turns, PartialRun.run (clockTurn hz) k₀ turns = some k where
  owned h := h.1
  drain h hslot hp hnext hemulate := by
    obtain ⟨hown, turns, hrun⟩ := h
    refine ⟨(hown.listDel hslot).nextHop hp hnext, turns ++ [.serve], ?_⟩
    rw [PartialRun.run_concat, hrun]
    exact (serve_of_cons hslot).trans hemulate
  tick h hslot := by
    obtain ⟨hown, turns, hrun⟩ := h
    refine ⟨hown.tick hslot, turns ++ [.tick], ?_⟩
    rw [PartialRun.run_concat, hrun]
    exact congrArg some (nextTick_of_nil hslot)

theorem exists_turns_of_hopclock (hown : Owned k none) {jiffies : ℕ}
    (h : k.hopclock hz jiffies = some k') :
    ∃ turns, PartialRun.run (clockTurn hz) k turns = some k' :=
  ((hopclock_rule (turns_rule hz k) ⟨hown, [], rfl⟩ jiffies).1 k' h).1.2

end Kernel

end Modelnet.Linux

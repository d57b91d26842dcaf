import Modelnet.LinkQueue

/-!
# Joining the queue of a link

The second half of `emulate_hop`, the same in both modules up to the bandwidth delay: a packet
that is not dropped is accounted for, its exit tick is computed from the tail of the queue, and
it is written into the slot chosen on entry.
-/

namespace Modelnet

open LinkQueue

/-- A call of `emulate_hop`: the tick it reads, the length of the packet, the random value. -/
structure Call where
  tick : ℕ
  len : ℕ
  randomVal : ℕ

/-- What `emulate_hop` decides about the packet. -/
inductive Outcome where
  /-- `-ENOBUFS`, with the two reasons for it. -/
  | dropped (willDropPacketPlr willDropPacketBw : Bool)
  /-- Queued until `tailexit`, to be taken off the calendar at tick `due`. -/
  | queued (tailexit : ℕ) (due : ℤ)
  deriving DecidableEq, Repr

/-- The packet is counted, and the fragment of an empty queue is forgotten. -/
def Hop.counted (hop : Hop) (len : ℕ) : Hop :=
  { hop with
    pkts := hop.pkts + 1
    bytes := hop.bytes + len
    fragment := if hop.slotdepth ≠ 0 then hop.fragment else 0 }

/-- The bandwidth delay in ticks, 0 without a bandwidth limit, with the hop left by its
computation. -/
def Hop.charge (bwDelay : Hop → ℕ → ℕ × Hop) (hop : Hop) (len : ℕ) : ℕ × Hop :=
  if hop.KBps ≠ 0 then bwDelay (hop.counted len) len else (0, hop.counted len)

/-- The part of `emulate_hop` after the drops. `none` stands for the write through a null array
pointer. -/
def Hop.accept (bwDelay : Hop → ℕ → ℕ × Hop) (hop : Hop) (newslot len curtick : ℕ) :
    Option (Hop × Outcome) :=
  if hop.exittickAlloc && hop.slotlenAlloc then
    let tailexit := hop.tailExit curtick
    let bw := hop.charge bwDelay len
    some (bw.2.enqueue newslot len (tailexit + bw.1),
      .queued (tailexit + bw.1) ((tailexit + bw.1 : ℕ) + hop.delay))
  else none

/-- A bandwidth delay computation that changes at most the fragment of the hop. -/
def OnlyFragment (bwDelay : Hop → ℕ → ℕ × Hop) : Prop :=
  ∀ hop len, ∃ f, (bwDelay hop len).2 = { hop with fragment := f }

theorem takeFragment_hop (hop : Hop) (len : ℕ) :
    ∃ f, (takeFragment hop len).2.2 = { hop with fragment := f } := by
  unfold takeFragment
  split_ifs
  · exact ⟨_, rfl⟩
  · exact ⟨_, rfl⟩
  · exact ⟨hop.fragment, rfl⟩

/-- The queue the packet meets: drained up to now on a hop with a bandwidth limit. -/
def drained (hop : Hop) (curtick : ℕ) : Hop :=
  if hop.KBps ≠ 0 then updateBwq hop curtick else hop

theorem drained_of_limited {hop : Hop} (hK : hop.KBps ≠ 0) (curtick : ℕ) :
    drained hop curtick = updateBwq hop curtick := if_pos hK

theorem drained_of_unlimited {hop : Hop} (hK : hop.KBps = 0) (curtick : ℕ) :
    drained hop curtick = hop := if_neg (not_not.mpr hK)

theorem sameParams_drained (hop : Hop) (curtick : ℕ) : hop.SameParams (drained hop curtick) := by
  unfold drained
  split_ifs
  · exact sameParams_updateBwq hop curtick
  · exact Hop.SameParams.refl hop

theorem newslot_drained (hop : Hop) (curtick : ℕ) : (drained hop curtick).newslot = hop.newslot := by
  unfold drained
  split_ifs
  · exact newslot_updateBwq hop curtick
  · rfl

/-- Everything a completed crossing can do: drop the packet, before or after the queue is
drained, or accept it into a queue that is not full. -/
inductive Crosses (bwDelay : Hop → ℕ → ℕ × Hop) (hop : Hop) (c : Call) : Hop × Outcome → Prop where
  | dropped {hop₁ : Hop} (h : hop₁ = hop ∨ hop₁ = drained hop c.tick) (n : ℕ) (plr bw : Bool) :
      Crosses bwDelay hop c ({ hop₁ with qdrops := n }, .dropped plr bw)
  | accepted {r : Hop × Outcome}
      (hroom : hop.KBps ≠ 0 → ((drained hop c.tick).slotdepth : ℤ) < hop.qsize)
      (h : (drained hop c.tick).accept bwDelay (drained hop c.tick).newslot c.len c.tick = some r) :
      Crosses bwDelay hop c r

variable {bwDelay : Hop → ℕ → ℕ × Hop} {hop : Hop} {len curtick : ℕ}

theorem Hop.sameParams_counted (hop : Hop) (len : ℕ) : hop.SameParams (hop.counted len) :=
  ⟨rfl, rfl, rfl, rfl, rfl, rfl, rfl, rfl, rfl⟩

theorem Hop.Refines.counted {q : LinkQueue} (h : hop.Refines q) (len : ℕ) :
    (hop.counted len).Refines q :=
  ⟨h.allocated, h.slotdepth, h.bytedepth, h.ring, h.sorted⟩

theorem Hop.charge_of_limited (hK : hop.KBps ≠ 0) (len : ℕ) :
    hop.charge bwDelay len = bwDelay (hop.counted len) len := if_pos hK

theorem Hop.charge_of_unlimited (hK : hop.KBps = 0) (len : ℕ) :
    hop.charge bwDelay len = (0, hop.counted len) := if_neg (not_not.mpr hK)

/-- The charge leaves everything but the fragment and the statistics. -/
theorem Hop.charge_hop (hbw : OnlyFragment bwDelay) (hop : Hop) (len : ℕ) :
    ∃ f, (hop.charge bwDelay len).2 =
      { hop with fragment := f, pkts := hop.pkts + 1, bytes := hop.bytes + len } := by
  by_cases hK : hop.KBps ≠ 0
  · rw [Hop.charge_of_limited hK]
    exact hbw (hop.counted len) len
  · rw [Hop.charge_of_unlimited (not_not.mp hK)]
    exact ⟨_, rfl⟩

theorem Hop.accept_eq (bwDelay : Hop → ℕ → ℕ × Hop) (newslot len curtick : ℕ)
    (ha : hop.exittickAlloc = true ∧ hop.slotlenAlloc = true) :
    hop.accept bwDelay newslot len curtick =
      some ((hop.charge bwDelay len).2.enqueue newslot len
          (hop.tailExit curtick + (hop.charge bwDelay len).1),
        .queued (hop.tailExit curtick + (hop.charge bwDelay len).1)
          ((hop.tailExit curtick + (hop.charge bwDelay len).1 : ℕ) + hop.delay)) := by
  unfold Hop.accept
  rw [if_pos (by rw [ha.1, ha.2]; rfl)]

theorem Hop.sameParams_charge (hbw : OnlyFragment bwDelay) (hop : Hop) (len : ℕ) :
    hop.SameParams (hop.charge bwDelay len).2 := by
  obtain ⟨f, hf⟩ := Hop.charge_hop hbw hop len
  rw [hf]
  exact ⟨rfl, rfl, rfl, rfl, rfl, rfl, rfl, rfl, rfl⟩

theorem Hop.sameParams_accept (hbw : OnlyFragment bwDelay) {newslot : ℕ} {hop' : Hop}
    {out : Outcome} (h : hop.accept bwDelay newslot len curtick = some (hop', out)) :
    hop.SameParams hop' ∧ ∃ x, out = .queued x (x + hop.delay) := by
  have ha : hop.exittickAlloc = true ∧ hop.slotlenAlloc = true := by
    by_contra hc
    unfold Hop.accept at h
    rw [if_neg (by rwa [Bool.and_eq_true])] at h
    cases h
  rw [Hop.accept_eq bwDelay newslot len curtick ha] at h
  obtain ⟨rfl, rfl⟩ := Prod.mk.inj (Option.some.inj h)
  exact ⟨(Hop.sameParams_charge hbw hop len).trans (Hop.sameParams_enqueue _ _ _ _), _, rfl⟩

/-- A crossing changes no parameter of the hop, and what it queues is due `delay` ticks after its
exit. -/
theorem Crosses.sameParams (hbw : OnlyFragment bwDelay) {c : Call} {r : Hop × Outcome}
    (h : Crosses bwDelay hop c r) :
    hop.SameParams r.1 ∧ ∀ x due, r.2 = .queued x due → due = x + hop.delay := by
  have hd := sameParams_drained hop c.tick
  cases h with
  | dropped h n plr bw =>
    refine ⟨?_, fun x due hx => by cases hx⟩
    rcases h with rfl | rfl
    · exact ⟨rfl, rfl, rfl, rfl, rfl, rfl, rfl, rfl, rfl⟩
    · exact hd.trans ⟨rfl, rfl, rfl, rfl, rfl, rfl, rfl, rfl, rfl⟩
  | accepted hroom h =>
    obtain ⟨hp, x, hx⟩ := Hop.sameParams_accept hbw h
    refine ⟨hd.trans hp, fun y due hy => ?_⟩
    rw [hx] at hy
    cases hy
    rw [hd.delay]

/-- **Acceptance.** A packet accepted into a queue with room joins its end, with an exit tick no
earlier than the tail's. -/
theorem Hop.Refines.accept {q : LinkQueue} (hbw : OnlyFragment bwDelay) (h : hop.Refines q)
    (hroom : q.length < hop.ringSize) (len curtick : ℕ) :
    ∃ hop' x, hop.accept bwDelay hop.newslot len curtick =
        some (hop', .queued x (x + hop.delay)) ∧
      x = q.tailExit curtick + (hop.charge bwDelay len).1 ∧
      hop.SameParams hop' ∧ hop'.Refines (q ++ [(x, len)]) ∧
      hop'.fragment = (hop.charge bwDelay len).2.fragment := by
  have heq := Hop.accept_eq bwDelay hop.newslot len curtick h.allocated
  rw [h.tailExit_eq] at heq
  refine ⟨_, _, heq, rfl, (Hop.sameParams_accept hbw heq).1, ?_, rfl⟩
  obtain ⟨f, hf⟩ := Hop.charge_hop hbw hop len
  rw [hf]
  exact (h.frame f _ _ hop.qdrops).enqueue hroom
    (fun e he => (le_tailExit h.sorted curtick he).trans (Nat.le_add_right _ _)) len

end Modelnet

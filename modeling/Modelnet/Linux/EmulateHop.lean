import Modelnet.Crossing

/-!
# `emulate_hop`, Linux module

The section of `emulate_hop` under the lock of the hop. The tick is the calendar tick read on
entry; the random value serves both the loss draw and the rounding of the bandwidth delay.
-/

namespace Modelnet.Linux

open Modelnet LinkQueue

/-- Ticks to transmit `len` bytes. The quotient is rounded up with the probability of its
remainder, by the same random value as the loss draw. -/
def bwDelay (hz randomVal : ℕ) (hop : Hop) (len : ℕ) : ℕ × Hop :=
  let t := takeFragment hop len
  if t.1 ≠ 0 ∧ 50 < hop.bytespertick then
    let bwdelay := t.1 / hop.bytespertick + t.2.1
    let remainder := t.1 % hop.bytespertick
    let randNum := randomVal % hop.bytespertick
    (if randNum < remainder then bwdelay + 1 else bwdelay, t.2.2)
  else (slowDelay hz hop t.1, t.2.2)

/-- `hop->plr && ((randomVal & 0x7fffffff) < hop->plr)`. -/
def willDropPacketPlr (hop : Hop) (randomVal : ℕ) : Bool :=
  hop.plr ≠ 0 ∧ ((randomVal % 2 ^ 31 : ℕ) : ℤ) < hop.plr

/-- The bandwidth queue after its update is full. -/
def willDropPacketBw (hop : Hop) : Bool := hop.KBps ≠ 0 ∧ hop.qsize ≤ hop.slotdepth

/-- The crossing of a hop. The slot index is computed before the queue is drained. `none` stands
for the division by `qsize = 0` and the write through a null array. -/
def emulateHop (hz : ℕ) (hop : Hop) (len curtick randomVal : ℕ) : Option (Hop × Outcome) :=
  if hop.qsize = 0 then none
  else
    let newslot := hop.newslot
    let plr := willDropPacketPlr hop randomVal
    let hop := drained hop curtick
    let bw := willDropPacketBw hop
    if plr || bw then
      some ({ hop with qdrops := if bw then hop.qdrops + 1 else hop.qdrops }, .dropped plr bw)
    else hop.accept (bwDelay hz randomVal) newslot len curtick

theorem onlyFragment_bwDelay (hz randomVal : ℕ) : OnlyFragment (bwDelay hz randomVal) := by
  intro hop len
  obtain ⟨f, hf⟩ := takeFragment_hop hop len
  refine ⟨f, ?_⟩
  unfold bwDelay
  dsimp only
  split_ifs <;> exact hf

variable {hz len curtick randomVal : ℕ} {hop hop' : Hop}

theorem emulateHop_dropped (hz len curtick randomVal : ℕ) (hq : hop.qsize ≠ 0)
    (hdrop : (willDropPacketPlr hop randomVal || willDropPacketBw (drained hop curtick)) = true) :
    ∃ n, emulateHop hz hop len curtick randomVal =
      some ({ drained hop curtick with qdrops := n },
        .dropped (willDropPacketPlr hop randomVal) (willDropPacketBw (drained hop curtick))) := by
  unfold emulateHop
  rw [if_neg hq, if_pos hdrop]
  exact ⟨_, rfl⟩

theorem emulateHop_accepted (hz len : ℕ) (hq : hop.qsize ≠ 0)
    (hdrop : ¬ (willDropPacketPlr hop randomVal || willDropPacketBw (drained hop curtick)) = true) :
    emulateHop hz hop len curtick randomVal =
      (drained hop curtick).accept (bwDelay hz randomVal) (drained hop curtick).newslot len
        curtick := by
  unfold emulateHop
  rw [if_neg hq, if_neg hdrop, newslot_drained]

theorem crosses_emulateHop {c : Call} {r : Hop × Outcome}
    (h : emulateHop hz hop c.len c.tick c.randomVal = some r) :
    Crosses (bwDelay hz c.randomVal) hop c r := by
  have hq : hop.qsize ≠ 0 := by
    intro hq
    unfold emulateHop at h
    rw [if_pos hq] at h
    cases h
  by_cases hdrop :
      (willDropPacketPlr hop c.randomVal || willDropPacketBw (drained hop c.tick)) = true
  · obtain ⟨n, heq⟩ := emulateHop_dropped hz c.len c.tick c.randomVal hq hdrop
    rw [heq] at h
    cases h
    exact .dropped (Or.inr rfl) n _ _
  · rw [emulateHop_accepted hz c.len hq hdrop] at h
    refine .accepted (fun hK => ?_) h
    have hp := sameParams_drained hop c.tick
    have hfull : ¬ (drained hop c.tick).qsize ≤ (drained hop c.tick).slotdepth := fun hle =>
      hdrop (by
        unfold willDropPacketBw
        rw [decide_eq_true ⟨hp.KBps ▸ hK, hle⟩, Bool.or_true])
    rw [hp.qsize] at hfull
    omega

/-- A crossing changes no parameter of the hop, and what it queues is due `delay` ticks after its
exit. -/
theorem sameParams_emulateHop {out : Outcome}
    (h : emulateHop hz hop len curtick randomVal = some (hop', out)) :
    hop.SameParams hop' ∧ ∀ x due, out = .queued x due → due = x + hop.delay :=
  (crosses_emulateHop (c := ⟨curtick, len, randomVal⟩) h).sameParams
    (onlyFragment_bwDelay hz randomVal)

/-! ## Hops with a bandwidth limit -/

/-- The crossing of a hop with a bandwidth limit, on the queue it stands for; `lost` is the loss
draw. -/
inductive QueueStep (qsize : ℕ) (lost : Bool) (tick len : ℕ) (q : LinkQueue) :
    Outcome → LinkQueue → Prop where
  /-- Lost on the link, or the queue is full. -/
  | dropped {bw : Bool} (hdrop : (lost || bw) = true)
      (hbw : bw = true ↔ (q.purge tick).length = qsize) :
      QueueStep qsize lost tick len q (.dropped lost bw) (q.purge tick)
  /-- Behind the packets still queued. -/
  | queued {x : ℕ} {due : ℤ} (hlost : lost = false) (hroom : (q.purge tick).length < qsize)
      (hx : (q.purge tick).tailExit tick ≤ x) :
      QueueStep qsize lost tick len q (.queued x due) (q.purge tick ++ [(x, len)])

/-- On a queue that is held in the ring, fullness is a matter of the list. -/
theorem willDropPacketBw_iff {q : LinkQueue} (hK : hop.KBps ≠ 0) (hq : 0 < hop.qsize)
    (h : hop.Refines q) (tick : ℕ) :
    willDropPacketBw (updateBwq hop tick) = true ↔ (q.purge tick).length = hop.qsize.toNat := by
  have hd := h.updateBwq tick
  have hp := sameParams_updateBwq hop tick
  have hle : (q.purge tick).length ≤ hop.ringSize := by
    rw [← hp.ringSize]; exact hd.ring.length_le
  unfold willDropPacketBw
  rw [decide_eq_true_iff, hp.KBps, hp.qsize, hd.slotdepth]
  unfold Hop.ringSize at hle
  constructor
  · rintro ⟨-, h1⟩
    omega
  · intro h1
    exact ⟨hK, by omega⟩

/-- The crossing of a hop with a bandwidth limit drops the packet or lets it join what is left of
the queue. -/
theorem emulateHop_limited {q : LinkQueue} (hz len curtick randomVal : ℕ) (hK : hop.KBps ≠ 0)
    (hq : 0 < hop.qsize) (h : hop.Refines q) :
    (∃ n bw, emulateHop hz hop len curtick randomVal =
        some ({ updateBwq hop curtick with qdrops := n },
          .dropped (willDropPacketPlr hop randomVal) bw) ∧
      (willDropPacketPlr hop randomVal || bw) = true ∧
      (bw = true ↔ (q.purge curtick).length = hop.qsize.toNat)) ∨
    (emulateHop hz hop len curtick randomVal =
        (updateBwq hop curtick).accept (bwDelay hz randomVal) (updateBwq hop curtick).newslot len
          curtick ∧
      willDropPacketPlr hop randomVal = false ∧
      (q.purge curtick).length < hop.qsize.toNat) := by
  have hbw := willDropPacketBw_iff hK hq h curtick
  rw [← drained_of_limited hK curtick] at hbw ⊢
  by_cases hdrop :
      (willDropPacketPlr hop randomVal || willDropPacketBw (drained hop curtick)) = true
  · obtain ⟨n, heq⟩ := emulateHop_dropped hz len curtick randomVal (ne_of_gt hq) hdrop
    exact Or.inl ⟨n, _, heq, hdrop, hbw⟩
  · have hlost : willDropPacketPlr hop randomVal = false :=
      Bool.eq_false_iff.mpr fun hlost => hdrop (by rw [hlost, Bool.true_or])
    refine Or.inr ⟨emulateHop_accepted hz len (ne_of_gt hq) hdrop, hlost, ?_⟩
    have hle := (h.updateBwq curtick).ring.length_le
    rw [(sameParams_updateBwq hop curtick).ringSize] at hle
    unfold Hop.ringSize at hle
    have hne : (q.purge curtick).length ≠ hop.qsize.toNat := fun he =>
      hdrop (by rw [hbw.mpr he, Bool.or_true])
    omega

/-- **Step lemma.** A crossing of a hop with a bandwidth limit is a step of its queue. -/
theorem emulateHop_step {q : LinkQueue} (hz len curtick randomVal : ℕ) (hK : hop.KBps ≠ 0)
    (hq : 0 < hop.qsize) (h : hop.Refines q) :
    ∃ hop' out q', emulateHop hz hop len curtick randomVal = some (hop', out) ∧
      QueueStep hop.qsize.toNat (willDropPacketPlr hop randomVal) curtick len q out q' ∧
      hop.SameParams hop' ∧ hop'.Refines q' := by
  have hd := h.updateBwq curtick
  have hp := sameParams_updateBwq hop curtick
  rcases emulateHop_limited hz len curtick randomVal hK hq h with
    ⟨n, bw, heq, hdrop, hbw⟩ | ⟨heq, hlost, hroom⟩
  · exact ⟨_, _, _, heq, .dropped hdrop hbw,
      hp.trans ⟨rfl, rfl, rfl, rfl, rfl, rfl, rfl, rfl, rfl⟩, hd.frame _ _ _ _⟩
  · have hsize : (updateBwq hop curtick).ringSize = hop.qsize.toNat := by
      rw [hp.ringSize]; unfold Hop.ringSize; omega
    obtain ⟨hop', x, hacc, rfl, hp', hr', -⟩ :=
      hd.accept (onlyFragment_bwDelay hz randomVal) (by rw [hsize]; exact hroom) len curtick
    exact ⟨hop', _, _, heq.trans hacc, .queued hlost hroom (Nat.le_add_right _ _), hp.trans hp',
      hr'⟩

end Modelnet.Linux

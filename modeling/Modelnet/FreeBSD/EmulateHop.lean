import Modelnet.Crossing

/-!
# `emulate_hop`, FreeBSD module

The crossing of a hop in the FreeBSD module. A lost packet returns before the queue is drained;
the bytes left over in the last tick of a packet are kept in `fragment` for the next one. The
handlers of an extended queueing discipline read the ring but do not write it.
-/

namespace Modelnet.FreeBSD

open Modelnet LinkQueue

/-- Ticks to transmit `len` bytes; what is left of the last tick goes to `fragment`. -/
def bwDelay (hz : ℕ) (hop : Hop) (len : ℕ) : ℕ × Hop :=
  let t := takeFragment hop len
  if t.1 ≠ 0 ∧ 50 < hop.bytespertick then
    let remainder := t.1 % hop.bytespertick
    (t.1 / hop.bytespertick + t.2.1,
      if remainder ≠ 0 then { t.2.2 with fragment := hop.bytespertick - remainder } else t.2.2)
  else (slowDelay hz hop t.1, t.2.2)

/-- `hop->plr && random() < hop->plr`. -/
def lostOnLink (hop : Hop) (random : ℕ) : Bool := hop.plr ≠ 0 ∧ (random : ℤ) < hop.plr

/-- The crossing of a hop. `none` stands for the division by `qsize = 0` and the write through a
null array. -/
def emulateHop (hz : ℕ) (hop : Hop) (len calendarTick random : ℕ) : Option (Hop × Outcome) :=
  if hop.qsize = 0 then none
  else
    let newslot := hop.newslot
    if lostOnLink hop random then some (hop, .dropped true false)
    else if hop.KBps ≠ 0 then
      let hop := updateBwq hop calendarTick
      if hop.qsize ≤ hop.slotdepth then
        some ({ hop with qdrops := hop.qdrops + 1 }, .dropped false true)
      else hop.accept (bwDelay hz) newslot len calendarTick
    else hop.accept (bwDelay hz) newslot len calendarTick

/-- `sysctl_hopmodhandle` on the hop it addresses; the ring is not reallocated, so `qsize` stays. -/
def sysctlHopmod (hz : ℕ) (hop : Hop) (r : SysctlHop) : Hop :=
  { hop with
    KBps := kbpsOf r.bandwidth
    KBps_le := r.kbpsOf_le
    delay := delayOf hz r.delay
    plr := r.plr.toInt
    emulator := r.emulator
    bytespertick := bytespertickOf hz (kbpsOf r.bandwidth) }

theorem onlyFragment_bwDelay (hz : ℕ) : OnlyFragment (bwDelay hz) := by
  intro hop len
  obtain ⟨f, hf⟩ := takeFragment_hop hop len
  unfold bwDelay
  dsimp only
  split_ifs
  · exact ⟨hop.bytespertick - (takeFragment hop len).1 % hop.bytespertick, by rw [hf]⟩
  · exact ⟨f, hf⟩
  · exact ⟨f, hf⟩

variable {hop : Hop}

theorem emulateHop_lost (hz len calendarTick : ℕ) {random : ℕ} (hq : hop.qsize ≠ 0)
    (hlost : lostOnLink hop random = true) :
    emulateHop hz hop len calendarTick random = some (hop, .dropped true false) := by
  unfold emulateHop
  rw [if_neg hq, if_pos hlost]

theorem emulateHop_unlimited (hz len calendarTick : ℕ) {random : ℕ} (hq : hop.qsize ≠ 0)
    (hlost : ¬ lostOnLink hop random = true) (hK : hop.KBps = 0) :
    emulateHop hz hop len calendarTick random =
      hop.accept (bwDelay hz) hop.newslot len calendarTick := by
  unfold emulateHop
  rw [if_neg hq, if_neg hlost, if_neg (not_not.mpr hK)]

theorem crosses_emulateHop {hz : ℕ} {c : Call} {r : Hop × Outcome}
    (h : emulateHop hz hop c.len c.tick c.randomVal = some r) : Crosses (bwDelay hz) hop c r := by
  unfold emulateHop at h
  by_cases hq : hop.qsize = 0
  · rw [if_pos hq] at h
    cases h
  rw [if_neg hq] at h
  dsimp only at h
  by_cases hlost : lostOnLink hop c.randomVal = true
  · rw [if_pos hlost] at h
    cases h
    exact .dropped (Or.inl rfl) _ _ _
  rw [if_neg hlost, ← newslot_drained hop c.tick] at h
  by_cases hK : hop.KBps ≠ 0
  · rw [if_pos hK, ← drained_of_limited hK] at h
    by_cases hfull : (drained hop c.tick).qsize ≤ (drained hop c.tick).slotdepth
    · rw [if_pos hfull] at h
      cases h
      exact .dropped (Or.inr rfl) _ _ _
    · rw [if_neg hfull] at h
      rw [(sameParams_drained hop c.tick).qsize] at hfull
      exact .accepted (fun _ => by omega) h
  · rw [if_neg hK] at h
    refine .accepted (fun hK' => absurd hK' hK) ?_
    rwa [drained_of_unlimited (not_not.mp hK)] at h ⊢

/-- The crossing of a hop with a bandwidth limit loses the packet, drops it at a full queue, or
lets it join what is left of the queue. -/
theorem emulateHop_limited {q : LinkQueue} (hz len calendarTick random : ℕ) (hK : hop.KBps ≠ 0)
    (hq : 0 < hop.qsize) (h : hop.Refines q) :
    emulateHop hz hop len calendarTick random = some (hop, .dropped true false) ∨
    (∃ n, emulateHop hz hop len calendarTick random =
        some ({ updateBwq hop calendarTick with qdrops := n }, .dropped false true) ∧
      (q.purge calendarTick).length = hop.qsize.toNat) ∨
    (emulateHop hz hop len calendarTick random =
        (updateBwq hop calendarTick).accept (bwDelay hz) (updateBwq hop calendarTick).newslot len
          calendarTick ∧
      (q.purge calendarTick).length < hop.qsize.toNat) := by
  have hd := h.updateBwq calendarTick
  have hp := sameParams_updateBwq hop calendarTick
  have hle := hd.ring.length_le
  rw [hp.ringSize] at hle
  unfold Hop.ringSize at hle
  by_cases hlost : lostOnLink hop random = true
  · exact Or.inl (emulateHop_lost hz len calendarTick (ne_of_gt hq) hlost)
  unfold emulateHop
  rw [if_neg (ne_of_gt hq), if_neg hlost, if_pos hK]
  dsimp only
  rw [← newslot_updateBwq hop calendarTick]
  by_cases hfull : (updateBwq hop calendarTick).qsize ≤ (updateBwq hop calendarTick).slotdepth
  · rw [if_pos hfull]
    rw [hp.qsize, hd.slotdepth] at hfull
    exact Or.inr (Or.inl ⟨_, rfl, by omega⟩)
  · rw [if_neg hfull]
    rw [hp.qsize, hd.slotdepth] at hfull
    exact Or.inr (Or.inr ⟨rfl, by omega⟩)

/-- **Step lemma.** A crossing of a hop with a bandwidth limit completes and keeps a queue in the
ring. -/
theorem emulateHop_step {q : LinkQueue} (hz len calendarTick random : ℕ) (hK : hop.KBps ≠ 0)
    (hq : 0 < hop.qsize) (h : hop.Refines q) :
    ∃ hop' out q', emulateHop hz hop len calendarTick random = some (hop', out) ∧
      hop.SameParams hop' ∧ hop'.Refines q' := by
  have hd := h.updateBwq calendarTick
  have hp := sameParams_updateBwq hop calendarTick
  rcases emulateHop_limited hz len calendarTick random hK hq h with
    heq | ⟨n, heq, -⟩ | ⟨heq, hroom⟩
  · exact ⟨_, _, q, heq, Hop.SameParams.refl hop, h⟩
  · exact ⟨_, _, _, heq, hp.trans ⟨rfl, rfl, rfl, rfl, rfl, rfl, rfl, rfl, rfl⟩,
      hd.frame _ _ _ _⟩
  · have hsize : (updateBwq hop calendarTick).ringSize = hop.qsize.toNat := by
      rw [hp.ringSize]; unfold Hop.ringSize; omega
    obtain ⟨hop', x, hacc, -, hp', hr', -⟩ :=
      hd.accept (onlyFragment_bwDelay hz) (by rw [hsize]; exact hroom) len calendarTick
    exact ⟨hop', _, _, heq.trans hacc, hp.trans hp', hr'⟩

end Modelnet.FreeBSD

import Modelnet.Linux.HopRun
import Modelnet.FreeBSD.HopRun

/-!
# Hops without a bandwidth limit

`KBps = 0` skips `update_bwq` and the check for a full queue, but the packet is still written
into the ring, and the next packet still starts from the last exit tick stored there. The ring
is never drained, so the hop adds only its latency as long as every packet meets an empty ring
or a last exit tick of the current tick, and as long as a slot is free. This file proves that
these runs are the only good ones, in both modules.
-/

namespace Modelnet

open LinkQueue PartialRun

/-- The bytes stored in the occupied slots. -/
def Hop.storedBytes (hop : Hop) : ℕ :=
  (RingBuffer.contents hop.slotlen hop.ringSize hop.headslot hop.slotdepth).sum

/-- The counters of the ring agree with its slots. -/
structure Hop.Accounted (hop : Hop) : Prop where
  slotdepth_le : (hop.slotdepth : ℤ) ≤ hop.qsize
  bytedepth_eq : hop.bytedepth = hop.storedBytes

/-- Without a bandwidth limit an accepted packet is due after the latency of the link. -/
def LatencyOnly (hop : Hop) (tick : ℕ) (out : Outcome) : Prop :=
  hop.KBps = 0 → ∀ x due, out = .queued x due → due = tick + hop.delay

/-- No older exit tick is in the way of the packet, and a slot is free for it. -/
def Hop.HasRoom (hop : Hop) (tick : ℕ) : Prop :=
  (hop.slotdepth ≠ 0 → hop.lastExit = tick) ∧ (hop.slotdepth : ℤ) < hop.qsize

instance (hop : Hop) (tick : ℕ) : Decidable (hop.HasRoom tick) :=
  inferInstanceAs (Decidable (_ ∧ _))

/-- What is claimed of a packet whose crossing gives `emulated`: the counters are right before and
after it, and accepted without a limit it is due after the latency. -/
def Hop.Conforms (hop : Hop) (tick : ℕ) (emulated : Option (Hop × Outcome)) : Prop :=
  hop.Accounted ∧ ∀ hop' out, emulated = some (hop', out) →
    LatencyOnly hop tick out ∧ hop'.Accounted

/-- The ring has slots and holds a queue. -/
def Hop.HoldsQueue (hop : Hop) : Prop := 0 < hop.qsize ∧ ∃ q, hop.Refines q

/-- Every configured bandwidth below 8 is unlimited. -/
theorem kbpsOf_eq_zero_iff {bandwidth : Int32} :
    kbpsOf bandwidth = 0 ↔ bandwidth.toInt.natAbs < 8 := by
  unfold kbpsOf
  rw [← Int.natAbs_eq_zero, Int.natAbs_tdiv]
  show bandwidth.toInt.natAbs / 8 = 0 ↔ bandwidth.toInt.natAbs < 8
  omega

variable {hop : Hop} {q : LinkQueue}

theorem Hop.HoldsQueue.accounted (h : hop.HoldsQueue) : hop.Accounted where
  slotdepth_le := by
    obtain ⟨hq, q, h⟩ := h
    have hle := h.ring.length_le
    unfold Hop.ringSize at hle
    rw [h.slotdepth]
    omega
  bytedepth_eq := by
    obtain ⟨-, q, h⟩ := h
    have hmap : RingBuffer.contents hop.slotlen hop.ringSize hop.headslot hop.slotdepth =
        q.map Prod.snd := by
      conv_rhs => rw [← h.ring.contents_eq]
      rw [h.slotdepth]
      simp [RingBuffer.contents, Hop.ring]
    rw [h.bytedepth, Hop.storedBytes, hmap]
    rfl

/-- A crossing that leaves a queue behind conforms, when it delays the packet by no more than it
should. -/
theorem Hop.conforms_of_holdsQueue {tick : ℕ} {hop' : Hop} {out : Outcome} (h : hop.HoldsQueue)
    (hlat : LatencyOnly hop tick out) (h' : hop'.HoldsQueue) :
    hop.Conforms tick (some (hop', out)) := by
  refine ⟨h.accounted, fun hop₁ out₁ he => ?_⟩
  obtain ⟨rfl, rfl⟩ := Prod.mk.inj (Option.some.inj he)
  exact ⟨hlat, h'.accounted⟩

theorem latencyOnly_dropped (hop : Hop) (tick : ℕ) (plr bw : Bool) :
    LatencyOnly hop tick (.dropped plr bw) := by
  intro _ x due hx
  cases hx

theorem latencyOnly_of_limited (hK : hop.KBps ≠ 0) (tick : ℕ) (out : Outcome) :
    LatencyOnly hop tick out := fun hK' => absurd hK' hK

/-- The exit tick starts from now exactly when no older exit tick is stored. -/
theorem Hop.tailExit_eq_iff (hop : Hop) (tick : ℕ) :
    hop.tailExit tick = tick ↔ (hop.slotdepth ≠ 0 → hop.lastExit = tick) := by
  unfold Hop.tailExit
  by_cases hd : hop.slotdepth ≠ 0
  · rw [if_pos hd]
    exact ⟨fun he _ => he, fun he => he hd⟩
  · rw [if_neg hd]
    exact ⟨fun _ hd' => absurd hd' hd, fun _ => rfl⟩

/-- **Acceptance without a limit** conforms exactly when the packet has room, and then the ring
still holds a queue. -/
theorem Hop.HoldsQueue.conforms_accept_iff (bwDelay : Hop → ℕ → ℕ × Hop) (h : hop.HoldsQueue)
    (hK : hop.KBps = 0) (len tick : ℕ) :
    ∃ hop' out, hop.accept bwDelay hop.newslot len tick = some (hop', out) ∧
      (hop.Conforms tick (some (hop', out)) ↔ hop.HasRoom tick) ∧
      (hop.HasRoom tick → hop'.HoldsQueue) := by
  obtain ⟨hq, q, hr⟩ := h
  have heq := Hop.accept_eq bwDelay hop.newslot len tick hr.allocated
  rw [Hop.charge_of_unlimited hK, Nat.add_zero] at heq
  -- with room the packet joins the end of the list the ring stands for
  have hjoin : hop.HasRoom tick →
      ((hop.counted len).enqueue hop.newslot len (hop.tailExit tick)).HoldsQueue := by
    intro hroom
    have hlen : q.length < hop.ringSize := by
      have := hroom.2
      rw [← hr.slotdepth]
      unfold Hop.ringSize
      omega
    refine ⟨hq, _, (hr.counted len).enqueue hlen (fun e he => ?_) len⟩
    rw [hr.tailExit_eq]
    exact le_tailExit hr.sorted tick he
  refine ⟨_, _, heq, ⟨fun hc => ?_, fun hroom => ?_⟩, hjoin⟩
  · obtain ⟨hlat, hacc⟩ := hc.2 _ _ rfl
    have hdue := hlat hK _ _ rfl
    have hle : ((hop.slotdepth + 1 : ℕ) : ℤ) ≤ hop.qsize := hacc.slotdepth_le
    exact ⟨(hop.tailExit_eq_iff tick).mp (by omega), by omega⟩
  · refine Hop.conforms_of_holdsQueue ⟨hq, q, hr⟩ (fun _ x due hx => ?_) (hjoin hroom)
    cases hx
    rw [(hop.tailExit_eq_iff tick).mpr hroom.1]

namespace Linux

/-- What is claimed of a call. -/
def Conforms (hz : ℕ) (hop : Hop) (c : Call) : Prop :=
  hop.Conforms c.tick (emulateHop hz hop c.len c.tick c.randomVal)

/-- A packet that is not lost on a hop without a limit has room. -/
def Roomy (hop : Hop) (c : Call) : Prop :=
  hop.KBps = 0 → ¬ willDropPacketPlr hop c.randomVal = true → hop.HasRoom c.tick

theorem willDropPacketBw_of_unlimited (hK : hop.KBps = 0) : willDropPacketBw hop = false := by
  unfold willDropPacketBw
  rw [decide_eq_false_iff_not]
  exact fun h => h.1 hK

theorem conforms_iff_roomy (hz : ℕ) (c : Call) (h : hop.HoldsQueue) :
    ∃ hop' out, emulateHop hz hop c.len c.tick c.randomVal = some (hop', out) ∧
      (Conforms hz hop c ↔ Roomy hop c) ∧ (Roomy hop c → hop'.HoldsQueue) := by
  unfold Conforms
  obtain ⟨hq, q, hr⟩ := id h
  by_cases hK : hop.KBps ≠ 0
  · obtain ⟨hop', out, q', heq, -, hp, hr'⟩ := emulateHop_step hz c.len c.tick c.randomVal hK hq hr
    have h' : hop'.HoldsQueue := ⟨hp.qsize ▸ hq, q', hr'⟩
    rw [heq]
    refine ⟨hop', out, rfl, ⟨fun _ hK' => absurd hK' hK, fun _ => ?_⟩, fun _ => h'⟩
    exact Hop.conforms_of_holdsQueue h (latencyOnly_of_limited hK _ _) h'
  rw [not_not] at hK
  by_cases hlost : willDropPacketPlr hop c.randomVal = true
  · -- the loss draw changes nothing on a hop that is not drained
    obtain ⟨n, heq⟩ := emulateHop_dropped hz c.len c.tick c.randomVal (ne_of_gt hq)
      (by rw [hlost, Bool.true_or])
    have h' : ({ drained hop c.tick with qdrops := n } : Hop).HoldsQueue := by
      rw [drained_of_unlimited hK]
      exact ⟨hq, q, hr.frame _ _ _ n⟩
    rw [heq]
    refine ⟨_, _, rfl, ⟨fun _ _ hl => absurd hlost hl, fun _ => ?_⟩, fun _ => h'⟩
    exact Hop.conforms_of_holdsQueue h (latencyOnly_dropped _ _ _ _) h'
  · have hdrop : ¬ (willDropPacketPlr hop c.randomVal || willDropPacketBw (drained hop c.tick))
        = true := by
      rw [drained_of_unlimited hK, willDropPacketBw_of_unlimited hK, Bool.or_false]
      exact hlost
    obtain ⟨hop', out, hacc, hiff, hjoin⟩ :=
      h.conforms_accept_iff (bwDelay hz c.randomVal) hK c.len c.tick
    rw [emulateHop_accepted hz c.len (ne_of_gt hq) hdrop, drained_of_unlimited hK, hacc]
    exact ⟨hop', out, rfl, hiff.trans ⟨fun hr _ _ => hr, fun hr => hr hK hlost⟩,
      fun hr => hjoin (hr hK hlost)⟩

theorem guarded_conforms_iff (hz : ℕ) (h : hop.HoldsQueue) (cs : List Call) :
    Guarded (callStep hz) (Conforms hz) hop cs ↔ Guarded (callStep hz) Roomy hop cs := by
  refine guarded_iff_of_invariant (I := Hop.HoldsQueue) (fun s c s' hs hc hstep => ?_)
    (fun s c hs => ?_) h
  · obtain ⟨hop', out, heq, hiff, hjoin⟩ := conforms_iff_roomy hz c hs
    unfold callStep at hstep
    rw [heq] at hstep
    cases hstep
    exact hjoin (hiff.mp hc)
  · obtain ⟨-, -, -, hiff, -⟩ := conforms_iff_roomy hz c hs
    exact hiff

end Linux

namespace FreeBSD

/-- What is claimed of an event; a write to `hopmod` has only the counters to keep. -/
def Conforms (hz : ℕ) (hop : Hop) : Event → Prop
  | .packet c => hop.Conforms c.tick (emulateHop hz hop c.len c.tick c.randomVal)
  | .hopmod r => hop.Accounted ∧ (sysctlHopmod hz hop r).Accounted

/-- A packet that is not lost on a hop without a limit has room. -/
def Roomy (hop : Hop) : Event → Prop
  | .packet c => hop.KBps = 0 → ¬ lostOnLink hop c.randomVal = true → hop.HasRoom c.tick
  | .hopmod _ => True

theorem holdsQueue_sysctlHopmod (hz : ℕ) (r : SysctlHop) (h : hop.HoldsQueue) :
    (sysctlHopmod hz hop r).HoldsQueue := by
  obtain ⟨hq, q, hr⟩ := h
  exact ⟨hq, q, refines_sysctlHopmod hz r hr⟩

theorem conforms_iff_roomy (hz : ℕ) (e : Event) (h : hop.HoldsQueue) :
    ∃ hop', eventStep hz hop e = some hop' ∧
      (Conforms hz hop e ↔ Roomy hop e) ∧ (Roomy hop e → hop'.HoldsQueue) := by
  cases e with
  | hopmod r =>
    have h' := holdsQueue_sysctlHopmod hz r h
    exact ⟨_, rfl, ⟨fun _ => trivial, fun _ => ⟨h.accounted, h'.accounted⟩⟩, fun _ => h'⟩
  | packet c =>
    unfold Conforms eventStep callStep
    obtain ⟨hq, q, hr⟩ := id h
    by_cases hK : hop.KBps ≠ 0
    · obtain ⟨hop', out, q', heq, hp, hr'⟩ := emulateHop_step hz c.len c.tick c.randomVal hK hq hr
      have h' : hop'.HoldsQueue := ⟨hp.qsize ▸ hq, q', hr'⟩
      dsimp only
      rw [heq]
      refine ⟨hop', rfl, ⟨fun _ hK' => absurd hK' hK, fun _ => ?_⟩, fun _ => h'⟩
      exact Hop.conforms_of_holdsQueue h (latencyOnly_of_limited hK _ _) h'
    rw [not_not] at hK
    by_cases hlost : lostOnLink hop c.randomVal = true
    · dsimp only
      rw [emulateHop_lost hz c.len c.tick (ne_of_gt hq) hlost]
      refine ⟨hop, rfl, ⟨fun _ _ hl => absurd hlost hl, fun _ => ?_⟩, fun _ => h⟩
      exact Hop.conforms_of_holdsQueue h (latencyOnly_dropped _ _ _ _) h
    · obtain ⟨hop', out, hacc, hiff, hjoin⟩ :=
        h.conforms_accept_iff (bwDelay hz) hK c.len c.tick
      dsimp only
      rw [emulateHop_unlimited hz c.len c.tick (ne_of_gt hq) hlost hK, hacc]
      exact ⟨hop', rfl, hiff.trans ⟨fun hr _ _ => hr, fun hr => hr hK hlost⟩,
        fun hr => hjoin (hr hK hlost)⟩

theorem guarded_conforms_iff (hz : ℕ) (h : hop.HoldsQueue) (es : List Event) :
    Guarded (eventStep hz) (Conforms hz) hop es ↔ Guarded (eventStep hz) Roomy hop es := by
  refine guarded_iff_of_invariant (I := Hop.HoldsQueue) (fun s e s' hs hc hstep => ?_)
    (fun s e hs => ?_) h
  · obtain ⟨hop', heq, hiff, hjoin⟩ := conforms_iff_roomy hz e hs
    rw [heq] at hstep
    cases hstep
    exact hjoin (hiff.mp hc)
  · obtain ⟨-, -, hiff, -⟩ := conforms_iff_roomy hz e hs
    exact hiff

end FreeBSD

/-! ## When a hop without a limit behaves -/

/-- **Hops without a bandwidth limit.** From an empty ring, a run keeps the counters right and
delays every packet accepted without a limit by the latency alone if and only if each such packet
finds no older exit tick stored and a free slot. -/
theorem unlimited_conforms_iff (hz : ℕ) (hq : 0 < hop.qsize) (h : hop.Refines []) :
    (∀ cs, Guarded (Linux.callStep hz) (Linux.Conforms hz) hop cs ↔
      Guarded (Linux.callStep hz) Linux.Roomy hop cs) ∧
    (∀ es, Guarded (FreeBSD.eventStep hz) (FreeBSD.Conforms hz) hop es ↔
      Guarded (FreeBSD.eventStep hz) FreeBSD.Roomy hop es) :=
  ⟨Linux.guarded_conforms_iff hz ⟨hq, [], h⟩, FreeBSD.guarded_conforms_iff hz ⟨hq, [], h⟩⟩

/-- On a link configured below 8 bits a second two packets of one tick are handled right. -/
theorem unlimited_conforms_iff_of_seven_bits :
    Guarded (Linux.callStep 1000) (Linux.Conforms 1000)
      (Hop.install 1000 0 ⟨7, 10, 0, 2, 0, 0⟩) [⟨5, 100, 0⟩, ⟨5, 100, 0⟩] := by
  refine ((unlimited_conforms_iff 1000 (by decide) (Hop.refines_install 1000 0 (by decide))).1
    _).mpr ⟨fun _ _ => by decide, fun s' hs' => ⟨fun _ _ => ?_, fun _ _ => trivial⟩⟩
  cases hs'
  decide

/-- A second packet, 50 ticks later, is due at the tick of the first one. -/
theorem not_conforms_seven_bits :
    ¬ Guarded (Linux.callStep 1000) (Linux.Conforms 1000)
      (Hop.install 1000 0 ⟨7, 10, 0, 2, 0, 0⟩) [⟨0, 100, 0⟩, ⟨50, 100, 0⟩] := by
  rintro ⟨-, hrest⟩
  obtain ⟨hconf, -⟩ := hrest _ rfl
  have hdue := (hconf.2 _ _ rfl).1 rfl 0 10 rfl
  revert hdue
  decide

end Modelnet

import Modelnet.Linux.EmulateHop
import Modelnet.Lib.Run

/-!
# Runs of one link, Linux module

Sequences of `emulate_hop` calls on one hop. With a bandwidth limit every run refines the runs
of the first-in first-out queue (`emulateHop_refines_fifo`), whatever the ticks, the packet
lengths and the random values.
-/

namespace Modelnet.Linux

open Modelnet LinkQueue

def callStep (hz : ℕ) (hop : Hop) (c : Call) : Option Hop :=
  (emulateHop hz hop c.len c.tick c.randomVal).map Prod.fst

/-- The runs of the queue; `lost` is the loss draw of each call. -/
inductive QueueRun (qsize : ℕ) (lost : Call → Bool) :
    LinkQueue → List Call → LinkQueue → Prop where
  | nil (q : LinkQueue) : QueueRun qsize lost q [] q
  | cons {q q' q'' : LinkQueue} {c : Call} {cs : List Call} {out : Outcome}
      (hstep : QueueStep qsize (lost c) c.tick c.len q out q')
      (hrun : QueueRun qsize lost q' cs q'') : QueueRun qsize lost q (c :: cs) q''

/-- The record of a hop, field by field, when its ring of `qsize` slots holds `q`. -/
structure Layout (hop : Hop) (q : LinkQueue) : Prop where
  slotdepth : hop.slotdepth = q.length
  length_le : (q.length : ℤ) ≤ hop.qsize
  headslot : (hop.headslot : ℤ) < hop.qsize
  bytedepth : hop.bytedepth = (q.map Prod.snd).sum
  occupied : ∀ i (hi : i < q.length),
    hop.exittick ((hop.headslot + i) % hop.qsize.toNat) = q[i].1 ∧
      hop.slotlen ((hop.headslot + i) % hop.qsize.toNat) = q[i].2
  unoccupied : ∀ s < hop.qsize.toNat, (∀ i < q.length, s ≠ (hop.headslot + i) % hop.qsize.toNat) →
    hop.exittick s = 0 ∧ hop.slotlen s = 0
  sorted : q.Pairwise fun a b => a.1 ≤ b.1

theorem Layout.of_refines {hop : Hop} {q : LinkQueue} (hq : 0 < hop.qsize) (h : hop.Refines q) :
    Layout hop q := by
  have hn : hop.ringSize = hop.qsize.toNat := by unfold Hop.ringSize; omega
  have hle := h.ring.length_le
  have hhead := h.ring.head_lt
  refine ⟨h.slotdepth, by omega, by omega, h.bytedepth, fun i hi => ?_, fun s hs hfree => ?_,
    h.sorted⟩
  · have he := h.ring.getElem hi
    rw [hn] at he
    exact ⟨congrArg Prod.fst he, congrArg Prod.snd he⟩
  · obtain ⟨i, hi, rfl⟩ := RingBuffer.exists_slot_eq hhead (hn.symm ▸ hs)
    have hblank := h.ring.blank i (Nat.le_of_not_lt fun hlt => hfree i hlt (by rw [← hn]; rfl)) hi
    exact ⟨congrArg Prod.fst hblank, congrArg Prod.snd hblank⟩

variable {hz : ℕ} {hop₀ : Hop}

def lossDraw (hop : Hop) (c : Call) : Bool := willDropPacketPlr hop c.randomVal

theorem lossDraw_congr {hop hop' : Hop} (hp : hop.SameParams hop') :
    lossDraw hop' = lossDraw hop := by
  unfold lossDraw willDropPacketPlr
  rw [hp.plr]

/-- **Run lemma.** Calls on a hop with a bandwidth limit complete and follow its queue. -/
theorem exists_queueRun (hz : ℕ) {q₀ : LinkQueue} (hK : hop₀.KBps ≠ 0) (hq : 0 < hop₀.qsize)
    (h₀ : hop₀.Refines q₀) (cs : List Call) :
    ∃ hop q, PartialRun.run (callStep hz) hop₀ cs = some hop ∧
      QueueRun hop₀.qsize.toNat (lossDraw hop₀) q₀ cs q ∧ hop₀.SameParams hop ∧
      hop.Refines q := by
  induction cs generalizing hop₀ q₀ with
  | nil => exact ⟨hop₀, q₀, rfl, .nil q₀, Hop.SameParams.refl hop₀, h₀⟩
  | cons c cs ih =>
    obtain ⟨hop', out, q', heq, hstep, hp, hr⟩ :=
      emulateHop_step hz c.len c.tick c.randomVal hK hq h₀
    obtain ⟨hop, q, hrun, hqrun, hp', hr'⟩ :=
      ih (hp.KBps ▸ hK) (hp.qsize ▸ hq) hr
    rw [hp.qsize, lossDraw_congr hp] at hqrun
    refine ⟨hop, q, ?_, .cons hstep hqrun, hp.trans hp', hr'⟩
    rw [PartialRun.run_cons]
    unfold callStep
    rw [heq]
    exact hrun

/-- After an accepted packet every listed exit lies ahead of the call. -/
theorem QueueStep.le_exit {qsize tick len x : ℕ} {lost : Bool} {due : ℤ} {q q' : LinkQueue}
    (h : QueueStep qsize lost tick len q (.queued x due) q') : ∀ e ∈ q', tick ≤ e.1 := by
  cases h with
  | queued _ _ hx =>
    intro e he
    rcases List.mem_append.mp he with he | he
    · exact (mem_purge.mp he).2
    · rw [List.mem_singleton.mp he]
      exact (le_tailExit_purge q tick).trans hx

theorem QueueStep.dropped_bw_iff {qsize tick len : ℕ} {lost : Bool} {out : Outcome}
    {q q' : LinkQueue} (h : QueueStep qsize lost tick len q out q') :
    (∃ plr, out = .dropped plr true) ↔ (q.purge tick).length = qsize := by
  cases h with
  | @dropped bw hdrop hbw =>
    rw [← hbw]
    constructor
    · rintro ⟨p, hp⟩
      cases hp
      rfl
    · rintro rfl
      exact ⟨lost, rfl⟩
  | queued _ hroom _ =>
    constructor
    · rintro ⟨p, hp⟩
      cases hp
    · intro he
      omega

/-- The slot chosen before the drain is the first free slot after it. -/
theorem newslot_free {hop : Hop} {q : LinkQueue} (hq : 0 < hop.qsize) (h : hop.Refines q)
    (tick : ℕ) :
    hop.newslot = ((updateBwq hop tick).headslot + (q.purge tick).length) % hop.qsize.toNat ∧
      ((q.purge tick).length < hop.qsize.toNat →
        (updateBwq hop tick).exittick hop.newslot = 0 ∧
          (updateBwq hop tick).slotlen hop.newslot = 0) := by
  have hd := h.updateBwq tick
  have hn : (updateBwq hop tick).ringSize = hop.qsize.toNat := by
    rw [(sameParams_updateBwq hop tick).ringSize]; unfold Hop.ringSize; omega
  have hslot := hd.newslot_eq
  rw [newslot_updateBwq, hn] at hslot
  refine ⟨hslot, fun hroom => ?_⟩
  have hblank := hd.ring.blank _ (le_refl _) (hn.symm ▸ hroom)
  rw [hn, ← hslot] at hblank
  exact ⟨congrArg Prod.fst hblank, congrArg Prod.snd hblank⟩

/-- **The ring is a first-in first-out queue.** From an empty queue every sequence of calls on a
hop with a bandwidth limit completes; the hop then lays out a list `q` reached by the queue, and
every next call is a step of the queue from `q`. -/
theorem emulateHop_refines_fifo (hz : ℕ) {hop₀ : Hop} (hK : hop₀.KBps ≠ 0) (hq : 0 < hop₀.qsize)
    (h₀ : hop₀.Refines []) (cs : List Call) :
    ∃ hop q, PartialRun.run (callStep hz) hop₀ cs = some hop ∧
      QueueRun hop₀.qsize.toNat (lossDraw hop₀) [] cs q ∧ hop.qsize = hop₀.qsize ∧ Layout hop q ∧
      ∀ c : Call, ∃ hop' out q', emulateHop hz hop c.len c.tick c.randomVal = some (hop', out) ∧
        QueueStep hop₀.qsize.toNat (lossDraw hop₀ c) c.tick c.len q out q' ∧ Layout hop' q' ∧
        ((∃ plr, out = .dropped plr true) ↔
          (q.filter fun e => c.tick ≤ e.1).length = hop₀.qsize.toNat) ∧
        (∀ x due, out = .queued x due → ∀ e ∈ q', c.tick ≤ e.1) ∧
        hop.newslot = ((updateBwq hop c.tick).headslot + (q.filter fun e => c.tick ≤ e.1).length) %
          hop₀.qsize.toNat ∧
        ((q.filter fun e => c.tick ≤ e.1).length < hop₀.qsize.toNat →
          (updateBwq hop c.tick).exittick hop.newslot = 0 ∧
            (updateBwq hop c.tick).slotlen hop.newslot = 0) := by
  obtain ⟨hop, q, hrun, hqrun, hp, hr⟩ := exists_queueRun hz hK hq h₀ cs
  have hK' : hop.KBps ≠ 0 := hp.KBps ▸ hK
  have hq' : 0 < hop.qsize := hp.qsize ▸ hq
  refine ⟨hop, q, hrun, hqrun, hp.qsize, .of_refines hq' hr, fun c => ?_⟩
  obtain ⟨hop', out, q', heq, hstep, hp', hr'⟩ :=
    emulateHop_step hz c.len c.tick c.randomVal hK' hq' hr
  obtain ⟨hslot, hfree⟩ := newslot_free hq' hr c.tick
  rw [show willDropPacketPlr hop c.randomVal = lossDraw hop₀ c from
    congrFun (lossDraw_congr hp) c] at hstep
  rw [hp.qsize] at hstep hslot hfree
  refine ⟨hop', out, q', heq, hstep, .of_refines (hp'.qsize ▸ hq') hr', hstep.dropped_bw_iff,
    fun x due hout => ?_, hslot, hfree⟩
  exact (hout ▸ hstep).le_exit

/-- The theorem on a link of two slots that is filled, refuses a packet and drains. -/
theorem emulateHop_refines_fifo_of_two_slots :
    ∃ hop q, PartialRun.run (callStep 1000)
        (Hop.install 1000 0 ⟨800, 10, 0, 2, 0, 0⟩) [⟨0, 1500, 7⟩, ⟨1, 1500, 7⟩, ⟨2, 40, 7⟩,
          ⟨16, 1500, 7⟩] = some hop ∧
      QueueRun 2 (fun _ => false) [] [⟨0, 1500, 7⟩, ⟨1, 1500, 7⟩, ⟨2, 40, 7⟩, ⟨16, 1500, 7⟩] q ∧
      Layout hop q := by
  obtain ⟨hop, q, hrun, hqrun, -, hlayout, -⟩ :=
    emulateHop_refines_fifo 1000
      (show (Hop.install 1000 0 ⟨800, 10, 0, 2, 0, 0⟩).KBps ≠ 0 by decide)
      (by decide) (Hop.refines_install 1000 0 (by decide))
      [⟨0, 1500, 7⟩, ⟨1, 1500, 7⟩, ⟨2, 40, 7⟩, ⟨16, 1500, 7⟩]
  exact ⟨hop, q, hrun, hqrun, hlayout⟩

end Modelnet.Linux

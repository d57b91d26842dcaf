import Modelnet.Hop
import Mathlib.Algebra.BigOperators.Group.List.Basic

/-!
# The queue of a link

What the ring of a hop stands for: a first-in first-out list of (exit tick, length) pairs with
exit ticks that never decrease. `Hop.Refines hop q` connects the redundant counters and the two
arrays of `struct hop` to the list `q`; the operations of the ring follow those of the list
(`Refines.dequeue`, `Refines.updateBwq`, `Refines.enqueue`).
-/

namespace Modelnet

/-- The packets in front of a link, oldest first: exit tick and length. -/
abbrev LinkQueue := List (ℕ × ℕ)

namespace LinkQueue

/-- The packets that have not left before `tick`. -/
def purge (tick : ℕ) (q : LinkQueue) : LinkQueue := q.filter fun e => tick ≤ e.1

/-- Exit ticks never decrease along the queue. -/
def Sorted (q : LinkQueue) : Prop := q.Pairwise fun a b => a.1 ≤ b.1

def bytes (q : LinkQueue) : ℕ := (q.map Prod.snd).sum

/-- When a packet arriving at `tick` reaches the head of the link. -/
def tailExit (tick : ℕ) (q : LinkQueue) : ℕ := (q.getLast?.map Prod.fst).getD tick

theorem bytes_cons (e : ℕ × ℕ) (q : LinkQueue) : bytes (e :: q) = e.2 + bytes q := by
  simp [bytes]

theorem bytes_concat (q : LinkQueue) (e : ℕ × ℕ) : bytes (q ++ [e]) = bytes q + e.2 := by
  simp [bytes]

theorem purge_cons_of_lt {tick : ℕ} {e : ℕ × ℕ} (h : e.1 < tick) (q : LinkQueue) :
    purge tick (e :: q) = purge tick q := by
  simp [purge, h]

/-- Nothing leaves a sorted queue whose head has not left. -/
theorem purge_of_head_le {tick : ℕ} {e : ℕ × ℕ} {q : LinkQueue} (hs : Sorted (e :: q))
    (h : tick ≤ e.1) : purge tick (e :: q) = e :: q := by
  unfold purge
  rw [List.filter_eq_self]
  intro a ha
  rcases List.mem_cons.mp ha with rfl | ha
  · exact decide_eq_true h
  · exact decide_eq_true (h.trans (List.rel_of_pairwise_cons hs ha))

theorem mem_purge {tick : ℕ} {e : ℕ × ℕ} {q : LinkQueue} :
    e ∈ purge tick q ↔ e ∈ q ∧ tick ≤ e.1 := by
  simp [purge]

theorem Sorted.purge {q : LinkQueue} (h : q.Sorted) (tick : ℕ) : (q.purge tick).Sorted :=
  List.Pairwise.filter _ h

theorem tailExit_nil (tick : ℕ) : tailExit tick [] = tick := rfl

theorem tailExit_concat (tick : ℕ) (q : LinkQueue) (e : ℕ × ℕ) :
    tailExit tick (q ++ [e]) = e.1 := by
  simp [tailExit]

theorem le_tailExit {q : LinkQueue} (h : q.Sorted) (tick : ℕ) {e : ℕ × ℕ} (he : e ∈ q) :
    e.1 ≤ q.tailExit tick := by
  rcases List.eq_nil_or_concat' q with rfl | ⟨r, last, rfl⟩
  · exact absurd he List.not_mem_nil
  · rw [tailExit_concat]
    rcases List.mem_append.mp he with he | he
    · exact (List.pairwise_append.mp h).2.2 e he last (List.mem_singleton_self last)
    · rw [List.mem_singleton.mp he]

theorem le_tailExit_purge (q : LinkQueue) (tick : ℕ) : tick ≤ (q.purge tick).tailExit tick := by
  rcases List.eq_nil_or_concat' (q.purge tick) with h | ⟨r, last, h⟩
  · rw [h, tailExit_nil]
  · rw [h, tailExit_concat]
    exact (mem_purge (q := q).mp (h ▸ List.mem_append_right _ (List.mem_singleton_self last))).2

theorem tailExit_purge {q : LinkQueue} (h : q.Sorted) {tick : ℕ} (hq : q.purge tick ≠ []) :
    (q.purge tick).tailExit tick = q.tailExit tick := by
  induction q with
  | nil => exact absurd rfl hq
  | cons e q ih =>
    by_cases ht : e.1 < tick
    · rw [purge_cons_of_lt ht] at hq ⊢
      rw [ih (List.Pairwise.of_cons h) hq]
      rcases List.eq_nil_or_concat' q with rfl | ⟨r, last, rfl⟩
      · exact absurd rfl hq
      · rw [tailExit_concat, ← List.cons_append, tailExit_concat]
    · rw [purge_of_head_le h (Nat.le_of_not_lt ht)]

theorem Sorted.concat {q : LinkQueue} (h : q.Sorted) {x : ℕ} (hx : ∀ e ∈ q, e.1 ≤ x) (len : ℕ) :
    Sorted (q ++ [(x, len)]) := by
  refine List.pairwise_append.mpr ⟨h, List.pairwise_singleton _ _, fun e he f hf => ?_⟩
  rw [List.mem_singleton.mp hf]
  exact hx e he

end LinkQueue

open LinkQueue

/-- The record refines the queue `q`. -/
structure Hop.Refines (hop : Hop) (q : LinkQueue) : Prop where
  allocated : hop.exittickAlloc = true ∧ hop.slotlenAlloc = true
  slotdepth : hop.slotdepth = q.length
  bytedepth : hop.bytedepth = q.bytes
  ring : RingBuffer.Represents (0, 0) hop.ring hop.ringSize hop.headslot q
  sorted : q.Sorted

namespace Hop

theorem ring_dequeue (hop : Hop) :
    hop.dequeue.ring = Function.update hop.ring hop.headslot (0, 0) := by
  funext i
  by_cases hi : i = hop.headslot
  · subst hi; simp [ring, dequeue]
  · simp [ring, dequeue, hi]

theorem ring_enqueue (hop : Hop) (s len t : ℕ) :
    (hop.enqueue s len t).ring = Function.update hop.ring s (t, len) := by
  funext i
  by_cases hi : i = s
  · subst hi; simp [ring, enqueue]
  · simp [ring, enqueue, hi]

theorem newslot_dequeue {hop : Hop} (h : hop.slotdepth ≠ 0) :
    hop.dequeue.newslot = hop.newslot := by
  show RingBuffer.slot hop.ringSize (RingBuffer.advance hop.ringSize hop.headslot)
    (hop.slotdepth - 1) = RingBuffer.slot hop.ringSize hop.headslot hop.slotdepth
  rw [RingBuffer.slot_advance, Nat.sub_add_cancel (Nat.pos_of_ne_zero h)]

end Hop

/-- Draining the head of the queue does not move its end. -/
theorem newslot_updateBwq (hop : Hop) (tick : ℕ) : (updateBwq hop tick).newslot = hop.newslot := by
  induction hn : hop.slotdepth generalizing hop with
  | zero => rw [updateBwq_eq, if_neg fun h => h.1 hn]
  | succ n ih =>
    rw [updateBwq_eq]
    split_ifs with h
    · rw [ih hop.dequeue (by show hop.slotdepth - 1 = n; omega), Hop.newslot_dequeue h.1]
    · rfl

namespace Hop.Refines

variable {hop : Hop} {q : LinkQueue}

theorem pos (h : hop.Refines q) : 0 < hop.ringSize := h.ring.pos

theorem newslot_eq (h : hop.Refines q) :
    hop.newslot = RingBuffer.slot hop.ringSize hop.headslot q.length := by
  unfold Hop.newslot; rw [h.slotdepth]

theorem frame (h : hop.Refines q) (fragment pkts bytes qdrops : ℕ) :
    ({ hop with fragment := fragment, pkts := pkts, bytes := bytes, qdrops := qdrops } :
      Hop).Refines q :=
  ⟨h.allocated, h.slotdepth, h.bytedepth, h.ring, h.sorted⟩

theorem dequeue {e : ℕ × ℕ} (h : hop.Refines (e :: q)) : hop.dequeue.Refines q where
  allocated := h.allocated
  slotdepth := by
    show hop.slotdepth - 1 = q.length
    rw [h.slotdepth, List.length_cons, Nat.add_sub_cancel]
  bytedepth := by
    show hop.bytedepth - (hop.slotlen hop.headslot : ℕ) = (q.bytes : ℕ)
    have hlen : hop.slotlen hop.headslot = e.2 := congrArg Prod.snd h.ring.head_eq
    rw [h.bytedepth, hlen, bytes_cons]
    omega
  ring := by
    rw [ring_dequeue]
    exact h.ring.pop
  sorted := List.Pairwise.of_cons h.sorted

/-- `update_bwq` removes exactly the entries that have left. -/
theorem updateBwq (h : hop.Refines q) (tick : ℕ) :
    (Modelnet.updateBwq hop tick).Refines (q.purge tick) := by
  induction q generalizing hop with
  | nil =>
    rw [updateBwq_eq, if_neg fun hd => hd.1 h.slotdepth]
    exact h
  | cons e q ih =>
    have hhead : hop.exittick hop.headslot = e.1 := congrArg Prod.fst h.ring.head_eq
    have hdepth : hop.slotdepth ≠ 0 := by rw [h.slotdepth]; exact Nat.succ_ne_zero _
    rw [updateBwq_eq, hhead]
    by_cases ht : e.1 < tick
    · rw [if_pos ⟨hdepth, ht⟩, purge_cons_of_lt ht]
      exact ih h.dequeue
    · rw [if_neg fun hd => ht hd.2, purge_of_head_le h.sorted (Nat.le_of_not_lt ht)]
      exact h

/-- A packet joins a queue with room at the slot after its last packet. -/
theorem enqueue (h : hop.Refines q) (hroom : q.length < hop.ringSize) {x : ℕ}
    (hx : ∀ e ∈ q, e.1 ≤ x) (len : ℕ) :
    (hop.enqueue hop.newslot len x).Refines (q ++ [(x, len)]) where
  allocated := h.allocated
  slotdepth := by
    show hop.slotdepth + 1 = (q ++ [(x, len)]).length
    rw [h.slotdepth, List.length_append, List.length_singleton]
  bytedepth := by
    show hop.bytedepth + (len : ℕ) = (LinkQueue.bytes (q ++ [(x, len)]) : ℕ)
    rw [h.bytedepth, bytes_concat]
    omega
  ring := by
    rw [ring_enqueue, h.newslot_eq]
    exact h.ring.push hroom (x, len)
  sorted := h.sorted.concat hx len

theorem lastExit_eq {e : ℕ × ℕ} (h : hop.Refines (q ++ [e])) : hop.lastExit = e.1 := by
  have hd : hop.slotdepth - 1 = q.length := by rw [h.slotdepth]; simp
  have hlast := congrArg Prod.fst h.ring.last_eq
  unfold Hop.lastExit
  rw [hd]
  exact hlast

end Hop.Refines

/-- A configuration record with a positive `qsize` installs an empty queue. -/
theorem Hop.refines_install (hz i : ℕ) {r : SysctlHop} (hq : 0 < r.qsize.toInt) :
    (Hop.install hz i r).Refines [] where
  allocated := ⟨rfl, rfl⟩
  slotdepth := rfl
  bytedepth := rfl
  ring := RingBuffer.Represents.empty (fun _ _ => rfl) (Int.natAbs_pos.mpr (ne_of_gt hq))
  sorted := List.Pairwise.nil

/-- `tailexit` before the delay of the packet is added: the exit of the tail packet, or the
current time when nothing is queued. -/
def Hop.tailExit (hop : Hop) (curtick : ℕ) : ℕ :=
  if hop.slotdepth ≠ 0 then hop.lastExit else curtick

theorem Hop.Refines.tailExit_eq {hop : Hop} {q : LinkQueue} (h : hop.Refines q) (curtick : ℕ) :
    hop.tailExit curtick = q.tailExit curtick := by
  unfold Hop.tailExit
  rcases List.eq_nil_or_concat' q with rfl | ⟨r, e, rfl⟩
  · rw [if_neg fun hd => hd h.slotdepth, tailExit_nil]
  · rw [if_pos (by rw [h.slotdepth]; simp), h.lastExit_eq, tailExit_concat]

end Modelnet

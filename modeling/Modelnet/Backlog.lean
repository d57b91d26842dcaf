import Modelnet.Crossing

/-!
# How far ahead a queue can reach

A link is a meter: its time is counted in units of `1 / b` tick, and a packet of length `len`
advances it by at most `w len` units. `Paced b w K B q` says that the meter stands at `K`, at
most the weight of `q` after the base `B`, and that the same holds of every suffix of `q`, with
the end of the exit tick before it as base. Draining keeps this, since what has left has left
before the current tick, and an accepted packet adds its own weight. So an exit tick lies ahead
of the current tick by no more than the weight of a full queue.
-/

namespace Modelnet

open LinkQueue

namespace LinkQueue

def weight (w : ℕ → ℕ) (q : LinkQueue) : ℕ := (q.map fun e => w e.2).sum

/-- The meter reading `K` is explained by the queue from the base `B` on. -/
def Paced (b : ℕ) (w : ℕ → ℕ) (K : ℕ) : ℕ → LinkQueue → Prop
  | B, [] => K ≤ B
  | B, e :: q => K ≤ B + weight w (e :: q) ∧ Paced b w K ((e.1 + 1) * b - 1) q

variable {b K B : ℕ} {w : ℕ → ℕ} {q : LinkQueue}

theorem weight_concat (w : ℕ → ℕ) (q : LinkQueue) (e : ℕ × ℕ) :
    weight w (q ++ [e]) = weight w q + w e.2 := by
  simp [weight]

theorem weight_le {W : ℕ} (h : ∀ e ∈ q, w e.2 ≤ W) : weight w q ≤ q.length * W := by
  induction q with
  | nil => exact Nat.zero_le _
  | cons e q ih =>
    have he := h e List.mem_cons_self
    have hq := ih fun a ha => h a (List.mem_cons_of_mem e ha)
    have hcons : weight w (e :: q) = w e.2 + weight w q := by simp [weight]
    rw [hcons, List.length_cons, Nat.add_mul, Nat.one_mul]
    omega

namespace Paced

theorem le (h : Paced b w K B q) : K ≤ B + weight w q := by
  cases q with
  | nil => exact h
  | cons e q => exact h.1

theorem mono (h : Paced b w K B q) {B' : ℕ} (hB : B ≤ B') : Paced b w K B' q := by
  cases q with
  | nil => exact Nat.le_trans h hB
  | cons e q => exact ⟨h.1.trans (Nat.add_le_add_right hB _), h.2⟩

/-- What has left before `tick` leaves the meter no later than `tick`. -/
theorem purge (h : Paced b w K B q) (hs : Sorted q) {tick : ℕ} (hB : B ≤ tick * b) :
    Paced b w K (tick * b) (q.purge tick) := by
  induction q generalizing B with
  | nil => exact h.mono hB
  | cons e q ih =>
    by_cases ht : e.1 < tick
    · rw [purge_cons_of_lt ht]
      refine ih h.2 (List.Pairwise.of_cons hs) ?_
      have hmul : (e.1 + 1) * b ≤ tick * b := Nat.mul_le_mul_right b ht
      omega
    · rw [purge_of_head_le hs (Nat.le_of_not_lt ht)]
      exact h.mono hB

/-- A packet adds its weight; the meter stands within the tick of its exit. -/
theorem concat (h : Paced b w K B q) {K' x len : ℕ} (hK : K' ≤ K + w len)
    (hx : K' < (x + 1) * b) : Paced b w K' B (q ++ [(x, len)]) := by
  induction q generalizing B with
  | nil =>
    have hle : K ≤ B := h
    refine ⟨?_, show K' ≤ (x + 1) * b - 1 by omega⟩
    have hone : weight w [(x, len)] = w len := by simp [weight]
    show K' ≤ B + weight w [(x, len)]
    omega
  | cons e q ih =>
    refine ⟨?_, ih h.2⟩
    have hle := h.1
    have hcat : weight w ((e :: q) ++ [(x, len)]) = weight w (e :: q) + w len :=
      weight_concat w (e :: q) (x, len)
    show K' ≤ B + weight w ((e :: q) ++ [(x, len)])
    omega

end Paced

end LinkQueue

/-! ## The meter of a hop -/

/-- How the bandwidth delay of a packet is charged, on the hops with the parameters of `hop₀` and
a fragment that is `Ok`: `b` units a tick, of which `used` are spent when a fragment is left, and
at most `w len` units for a packet of length `len ≤ L`. -/
structure Meter (bwDelay : Hop → ℕ → ℕ × Hop) (hop₀ : Hop) (L b : ℕ) (w used : ℕ → ℕ)
    (Ok : ℕ → Prop) : Prop where
  ok_zero : Ok 0
  used_zero : used 0 = 0
  used_lt : ∀ f, used f < b
  charge : ∀ hop len, hop₀.SameParams hop → Ok hop.fragment → len ≤ L →
    Ok (bwDelay hop len).2.fragment ∧
      (bwDelay hop len).1 * b + used (bwDelay hop len).2.fragment ≤ used hop.fragment + w len

/-- The units of the last tick that are spent; nothing is left over of an empty queue. -/
def Hop.spent (used : ℕ → ℕ) (hop : Hop) : ℕ := if hop.slotdepth ≠ 0 then used hop.fragment else 0

/-- The ring holds packets of length at most `L` that explain the meter at `tick`. -/
structure Hop.Metered (L b : ℕ) (w used : ℕ → ℕ) (Ok : ℕ → Prop) (tick : ℕ) (hop : Hop)
    (q : LinkQueue) : Prop where
  refines : hop.Refines q
  fragment : Ok hop.fragment
  len_le : ∀ e ∈ q, e.2 ≤ L
  paced : Paced b w (q.tailExit tick * b + hop.spent used) (tick * b) q

variable {bwDelay : Hop → ℕ → ℕ × Hop} {hop₀ hop : Hop} {L b tick : ℕ} {w used : ℕ → ℕ}
  {Ok : ℕ → Prop} {q : LinkQueue}

theorem Hop.Metered.of_empty (h : hop.Refines []) (hf : Ok hop.fragment) (tick : ℕ) :
    hop.Metered L b w used Ok tick [] where
  refines := h
  fragment := hf
  len_le e he := absurd he List.not_mem_nil
  paced := by
    unfold Hop.spent
    rw [if_neg fun hd => hd h.slotdepth]
    exact Nat.le_refl _

theorem fragment_updateBwqLoop (hop : Hop) (tick n : ℕ) :
    (updateBwqLoop tick n hop).fragment = hop.fragment := by
  induction n generalizing hop with
  | zero => rfl
  | succ n ih =>
    unfold updateBwqLoop
    split_ifs
    · exact ih hop.dequeue
    · rfl

theorem fragment_drained (hop : Hop) (tick : ℕ) : (drained hop tick).fragment = hop.fragment := by
  unfold drained
  split_ifs
  · exact fragment_updateBwqLoop hop tick _
  · rfl

namespace Hop.Metered

theorem mono (h : hop.Metered L b w used Ok tick q) {tick' : ℕ} (ht : tick ≤ tick') :
    hop.Metered L b w used Ok tick' q where
  refines := h.refines
  fragment := h.fragment
  len_le := h.len_le
  paced := by
    rcases List.eq_nil_or_concat' q with rfl | ⟨r, e, rfl⟩
    · unfold Hop.spent
      rw [if_neg fun hd => hd h.refines.slotdepth]
      exact Nat.le_refl _
    · have hp := h.paced
      rw [tailExit_concat] at hp ⊢
      exact hp.mono (Nat.mul_le_mul_right b ht)

theorem updateBwq (h : hop.Metered L b w used Ok tick q) :
    (updateBwq hop tick).Metered L b w used Ok tick (q.purge tick) where
  refines := h.refines.updateBwq tick
  fragment := by
    show Ok (updateBwqLoop tick hop.slotdepth hop).fragment
    rw [fragment_updateBwqLoop]
    exact h.fragment
  len_le e he := h.len_le e (mem_purge.mp he).1
  paced := by
    have hd := h.refines.updateBwq tick
    by_cases hq : q.purge tick = []
    · rw [hq] at hd ⊢
      unfold Hop.spent
      rw [if_neg fun h0 => h0 hd.slotdepth]
      exact Nat.le_refl _
    · -- the tail of the queue stays, and its last tick with it
      have hne : q ≠ [] := fun h0 => hq (by rw [h0]; rfl)
      have hspent : (Modelnet.updateBwq hop tick).spent used = hop.spent used := by
        unfold Hop.spent
        rw [if_pos (by rw [hd.slotdepth]; exact List.length_pos_iff.mpr hq |>.ne'),
          if_pos (by rw [h.refines.slotdepth]; exact List.length_pos_iff.mpr hne |>.ne')]
        unfold Modelnet.updateBwq
        rw [fragment_updateBwqLoop]
      rw [hspent, tailExit_purge h.refines.sorted hq]
      exact h.paced.purge h.refines.sorted (Nat.le_refl _)

/-- **Acceptance.** The packet advances the meter by its weight. -/
theorem accept (hbw : OnlyFragment bwDelay) (hm : Meter bwDelay hop₀ L b w used Ok)
    (hp : hop₀.SameParams hop) (hK : hop.KBps ≠ 0) (h : hop.Metered L b w used Ok tick q)
    (hroom : q.length < hop.ringSize) {len : ℕ} (hlen : len ≤ L) :
    ∃ hop' x, hop.accept bwDelay hop.newslot len tick = some (hop', .queued x (x + hop.delay)) ∧
      hop.SameParams hop' ∧ hop'.Metered L b w used Ok tick (q ++ [(x, len)]) ∧
      q.tailExit tick ≤ x ∧ x * b ≤ tick * b + weight w (q ++ [(x, len)]) := by
  obtain ⟨hop', x, hacc, hx, hp', hr', hf'⟩ := h.refines.accept hbw hroom len tick
  rw [Hop.charge_of_limited hK] at hx hf'
  have hok : Ok (hop.counted len).fragment := by
    show Ok (if hop.slotdepth ≠ 0 then hop.fragment else 0)
    split_ifs
    · exact h.fragment
    · exact hm.ok_zero
  have hspent : hop.spent used = used (hop.counted len).fragment := by
    unfold Hop.spent Hop.counted
    dsimp only
    split_ifs
    · rfl
    · exact hm.used_zero.symm
  obtain ⟨hok', hcharge⟩ :=
    hm.charge (hop.counted len) len (hp.trans (hop.sameParams_counted len)) hok hlen
  rw [← hf'] at hok' hcharge
  have hspent' : hop'.spent used = used hop'.fragment := by
    unfold Hop.spent
    rw [if_pos (by rw [hr'.slotdepth]; simp)]
  have hpaced : Paced b w (x * b + hop'.spent used) (tick * b) (q ++ [(x, len)]) := by
    refine h.paced.concat ?_ ?_
    · rw [hspent, hspent', hx, Nat.add_mul]
      omega
    · have hlt := hm.used_lt hop'.fragment
      rw [hspent', Nat.add_mul, Nat.one_mul]
      omega
  refine ⟨hop', x, hacc, hp', ⟨hr', hok', fun e he => ?_, ?_⟩, by omega, ?_⟩
  · rcases List.mem_append.mp he with he | he
    · exact h.len_le e he
    · rw [List.mem_singleton.mp he]
      exact hlen
  · rw [tailExit_concat]
    exact hpaced
  · have hle := hpaced.le
    omega

end Hop.Metered

end Modelnet

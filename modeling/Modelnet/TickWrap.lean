import Modelnet.Horizon

/-!
# Tick counters that wrap

The ticks of both modules are counters of `w` bits. `hopclock` goes from tick to tick in the order
of the counter, while `update_bwq` compares the stored exit ticks with the current tick as plain
numbers. This file runs a hop on ticks of `w` bits next to the same hop on ticks that never wrap.
The two see the same queue as long as no exit tick that `update_bwq` has to decide about lies on
the other side of a wrap of the counter.
-/

namespace Modelnet

open PartialRun

/-! ## The queue as `update_bwq` meets it -/

/-- The exit ticks that `n` turns of the loop meet. -/
def storedLoop : ℕ → Hop → List ℕ
  | 0, _ => []
  | n + 1, hop => hop.exittick hop.headslot :: storedLoop n hop.dequeue

/-- The stored exit ticks, from the head of the queue. -/
def Hop.stored (hop : Hop) : List ℕ := storedLoop hop.slotdepth hop

/-- For a hop that holds a queue these are the exit ticks of the queue. -/
theorem Hop.Refines.stored {hop : Hop} {q : LinkQueue} (h : hop.Refines q) :
    hop.stored = q.map Prod.fst := by
  unfold Hop.stored
  rw [h.slotdepth]
  induction q generalizing hop with
  | nil => rfl
  | cons e q ih =>
    have hhead : hop.exittick hop.headslot = e.1 := congrArg Prod.fst h.ring.head_eq
    rw [List.length_cons, storedLoop, hhead, ih h.dequeue, List.map_cons]

theorem slotdepth_iterate_dequeue (k : ℕ) (hop : Hop) :
    (Hop.dequeue^[k] hop).slotdepth = hop.slotdepth - k := by
  induction k generalizing hop with
  | zero => rfl
  | succ k ih =>
    rw [Function.iterate_succ_apply, ih]
    show hop.slotdepth - 1 - k = hop.slotdepth - (k + 1)
    omega

theorem length_storedLoop (n : ℕ) (hop : Hop) : (storedLoop n hop).length = n := by
  induction n generalizing hop with
  | zero => rfl
  | succ n ih => rw [storedLoop, List.length_cons, ih]

theorem updateBwqLoop_eq_iterate (tick n : ℕ) (hop : Hop) :
    updateBwqLoop tick n hop =
      Hop.dequeue^[((storedLoop n hop).takeWhile (· < tick)).length] hop := by
  induction n generalizing hop with
  | zero => rfl
  | succ n ih =>
    rw [updateBwqLoop, storedLoop, List.takeWhile_cons]
    by_cases h : hop.exittick hop.headslot < tick
    · rw [if_pos h, if_pos (decide_eq_true h), ih, List.length_cons, Function.iterate_succ_apply]
    · rw [if_neg h, if_neg (by rwa [decide_eq_true_iff])]
      rfl

/-- `update_bwq` removes entries from the head while they are below the tick as numbers. -/
theorem updateBwq_eq_iterate (hop : Hop) (tick : ℕ) :
    updateBwq hop tick = Hop.dequeue^[(hop.stored.takeWhile (· < tick)).length] hop :=
  updateBwqLoop_eq_iterate tick _ hop

/-! ## Ticks of `w` bits -/

/-- The hop with its exit ticks stored in `w` bits. -/
def Hop.wrapTicks (w : ℕ) (hop : Hop) : Hop :=
  { hop with exittick := fun i => hop.exittick i % 2 ^ w }

@[simp] theorem wrapTicks_KBps (w : ℕ) (hop : Hop) : (hop.wrapTicks w).KBps = hop.KBps := rfl

@[simp] theorem wrapTicks_plr (w : ℕ) (hop : Hop) : (hop.wrapTicks w).plr = hop.plr := rfl

@[simp] theorem wrapTicks_qsize (w : ℕ) (hop : Hop) : (hop.wrapTicks w).qsize = hop.qsize := rfl

@[simp] theorem wrapTicks_fragment (w : ℕ) (hop : Hop) :
    (hop.wrapTicks w).fragment = hop.fragment := rfl

@[simp] theorem wrapTicks_bytespertick (w : ℕ) (hop : Hop) :
    (hop.wrapTicks w).bytespertick = hop.bytespertick := rfl

@[simp] theorem wrapTicks_slotdepth (w : ℕ) (hop : Hop) :
    (hop.wrapTicks w).slotdepth = hop.slotdepth := rfl

@[simp] theorem wrapTicks_newslot (w : ℕ) (hop : Hop) :
    (hop.wrapTicks w).newslot = hop.newslot := rfl

@[simp] theorem wrapTicks_wrapTicks (w : ℕ) (hop : Hop) :
    (hop.wrapTicks w).wrapTicks w = hop.wrapTicks w := by
  unfold Hop.wrapTicks
  dsimp only
  simp only [Nat.mod_mod]

theorem wrapTicks_qdrops (w : ℕ) (hop : Hop) (n : ℕ) :
    ({ hop.wrapTicks w with qdrops := n } : Hop).wrapTicks w =
      ({ hop with qdrops := n } : Hop).wrapTicks w :=
  wrapTicks_wrapTicks w { hop with qdrops := n }

/-- `(signed)(a - t) < 0`, the order in which the counter advances. -/
def tickBefore (w t a : ℕ) : Bool := 2 ^ (w - 1) ≤ (a + (2 ^ w - t)) % 2 ^ w

variable {w : ℕ} {hop : Hop} {tick : ℕ}

theorem wrapTicks_dequeue (w : ℕ) (hop : Hop) :
    (hop.wrapTicks w).dequeue = hop.dequeue.wrapTicks w := by
  have hexit : Function.update (fun i => hop.exittick i % 2 ^ w) hop.headslot 0 =
      fun i => Function.update hop.exittick hop.headslot 0 i % 2 ^ w := by
    funext i
    by_cases hi : i = hop.headslot
    · subst hi; simp
    · simp [hi]
  unfold Hop.wrapTicks Hop.dequeue
  dsimp only
  rw [hexit]
  rfl

theorem wrapTicks_iterate_dequeue (w k : ℕ) (hop : Hop) :
    Hop.dequeue^[k] (hop.wrapTicks w) = (Hop.dequeue^[k] hop).wrapTicks w := by
  induction k generalizing hop with
  | zero => rfl
  | succ k ih => rw [Function.iterate_succ_apply, wrapTicks_dequeue, ih, Function.iterate_succ_apply]

theorem storedLoop_wrapTicks (w n : ℕ) (hop : Hop) :
    storedLoop n (hop.wrapTicks w) = (storedLoop n hop).map (· % 2 ^ w) := by
  induction n generalizing hop with
  | zero => rfl
  | succ n ih =>
    rw [storedLoop, wrapTicks_dequeue, ih, storedLoop, List.map_cons]
    rfl

theorem stored_wrapTicks (w : ℕ) (hop : Hop) :
    (hop.wrapTicks w).stored = hop.stored.map (· % 2 ^ w) := storedLoop_wrapTicks w _ hop

/-! ## Two orders on ticks -/

/-- The tick is within half the range of the counter. -/
def NearTick (w tick a : ℕ) : Prop := tick ≤ a + 2 ^ (w - 1) ∧ a < tick + 2 ^ (w - 1)

/-- The ticks are on the same side of the wraps of the counter. -/
def SameEpoch (w tick a : ℕ) : Prop := a / 2 ^ w = tick / 2 ^ w

theorem two_pow_eq_halves (hw : 0 < w) : 2 ^ w = 2 ^ (w - 1) + 2 ^ (w - 1) := by
  rw [← Nat.two_mul, ← Nat.pow_succ', Nat.succ_eq_add_one, Nat.sub_add_cancel hw]

/-- The epochs of two near ticks are the same or next to each other. -/
theorem NearTick.cases {a : ℕ} (hw : 0 < w) (h : NearTick w tick a) :
    SameEpoch w tick a ∨ 2 ^ w * (tick / 2 ^ w) = 2 ^ w * (a / 2 ^ w) + 2 ^ w ∧ a < tick ∨
      2 ^ w * (a / 2 ^ w) = 2 ^ w * (tick / 2 ^ w) + 2 ^ w ∧ tick ≤ a := by
  have hhalf := two_pow_eq_halves hw
  have hpos : 0 < 2 ^ w := Nat.two_pow_pos w
  obtain ⟨h₁, h₂⟩ := h
  have hup : a / 2 ^ w ≤ tick / 2 ^ w + 1 := by
    rw [← Nat.add_div_right _ hpos]
    exact Nat.div_le_div_right (by omega)
  have hdown : tick / 2 ^ w ≤ a / 2 ^ w + 1 := by
    rw [← Nat.add_div_right _ hpos]
    exact Nat.div_le_div_right (by omega)
  rcases Nat.lt_trichotomy (a / 2 ^ w) (tick / 2 ^ w) with hlt | heq | hgt
  · refine Or.inr (Or.inl ⟨?_, Nat.lt_of_div_lt_div hlt⟩)
    rw [Nat.le_antisymm hdown hlt, Nat.mul_succ]
  · exact Or.inl heq
  · refine Or.inr (Or.inr ⟨?_, (Nat.lt_of_div_lt_div hgt).le⟩)
    rw [Nat.le_antisymm hup hgt, Nat.mul_succ]

/-- The order of the counter is the order of the ticks that never wrap. -/
theorem tickBefore_iff {a : ℕ} (hw : 0 < w) (h : NearTick w tick a) :
    tickBefore w (tick % 2 ^ w) (a % 2 ^ w) = true ↔ a < tick := by
  have hhalf := two_pow_eq_halves hw
  have hpos : 0 < 2 ^ w := Nat.two_pow_pos w
  have ha := Nat.div_add_mod a (2 ^ w)
  have ht := Nat.div_add_mod tick (2 ^ w)
  have hra := Nat.mod_lt a hpos
  have hrt := Nat.mod_lt tick hpos
  -- the difference of the residues is the difference of the ticks, wrapped
  have hdiff : (a % 2 ^ w + (2 ^ w - tick % 2 ^ w)) % 2 ^ w =
      if a < tick then 2 ^ w + a - tick else a - tick := by
    rcases h.cases hw with heq | ⟨heq, hlt⟩ | ⟨heq, hle⟩
    · unfold SameEpoch at heq
      rw [heq] at ha
      split_ifs with hlt
      · rw [Nat.mod_eq_of_lt (by omega)]
        omega
      · rw [Nat.mod_eq_sub_mod (by omega), Nat.mod_eq_of_lt (by omega)]
        omega
    · obtain ⟨h₁, h₂⟩ := h
      rw [if_pos hlt, Nat.mod_eq_sub_mod (by omega), Nat.mod_eq_of_lt (by omega)]
      omega
    · obtain ⟨h₁, h₂⟩ := h
      rw [if_neg (by omega), Nat.mod_eq_of_lt (by omega)]
      omega
  obtain ⟨h₁, h₂⟩ := h
  unfold tickBefore
  rw [decide_eq_true_iff, hdiff]
  split_ifs <;> omega

/-- The order as plain numbers is that order only on the same side of a wrap. -/
theorem mod_lt_mod_iff {a : ℕ} (hw : 0 < w) (h : NearTick w tick a) :
    (a % 2 ^ w < tick % 2 ^ w ↔ a < tick) ↔ SameEpoch w tick a := by
  have hhalf := two_pow_eq_halves hw
  have hpos : 0 < 2 ^ w := Nat.two_pow_pos w
  have ha := Nat.div_add_mod a (2 ^ w)
  have ht := Nat.div_add_mod tick (2 ^ w)
  have hra := Nat.mod_lt a hpos
  have hrt := Nat.mod_lt tick hpos
  rcases h.cases hw with heq | ⟨heq, hlt⟩ | ⟨heq, hle⟩
  · refine iff_of_true ?_ heq
    unfold SameEpoch at heq
    rw [heq] at ha
    omega
  · obtain ⟨h₁, h₂⟩ := h
    refine iff_of_false (by omega) fun hsame => ?_
    unfold SameEpoch at hsame
    rw [hsame] at heq
    omega
  · obtain ⟨h₁, h₂⟩ := h
    refine iff_of_false (by omega) fun hsame => ?_
    unfold SameEpoch at hsame
    rw [hsame] at heq
    omega

/-! ## One call of `update_bwq` -/

/-- Two conditions stop at the same place of a list exactly if they agree up to there. -/
theorem length_takeWhile_eq_iff {α : Type*} (p p' : α → Bool) (l : List α) :
    (l.takeWhile p').length = (l.takeWhile p).length ↔
      (∀ a ∈ l.takeWhile p, p' a = p a) ∧ ∀ a, (l.dropWhile p).head? = some a → p' a = p a := by
  induction l with
  | nil => simp
  | cons b l ih =>
    cases hp : p b <;> cases hp' : p' b <;> simp [hp, hp', ih]

/-- No wrap of the counter lies between the current tick and an exit tick that the loop has to
decide about: those before the tick, and the first one that is not. -/
def Hop.ClearOfWrap (w : ℕ) (hop : Hop) (tick : ℕ) : Prop :=
  (∀ a ∈ hop.stored.takeWhile (· < tick), SameEpoch w tick a) ∧
    ∀ a, (hop.stored.dropWhile (· < tick)).head? = some a → SameEpoch w tick a

/-- All stored exit ticks are within half the range of the counter. -/
def Hop.AllNear (w : ℕ) (hop : Hop) (tick : ℕ) : Prop := ∀ a ∈ hop.stored, NearTick w tick a

/-- `update_bwq` on a counter of `w` bits removes the entries that come before the tick in the order
of the counter, and leaves as many as it would on ticks that never wrap. -/
structure DrainsInOrder (w : ℕ) (wrapped hop : Hop) (tick : ℕ) : Prop where
  removed : updateBwq wrapped (tick % 2 ^ w) =
    Hop.dequeue^[(wrapped.stored.takeWhile (tickBefore w (tick % 2 ^ w))).length] wrapped
  occupancy : (updateBwq wrapped (tick % 2 ^ w)).slotdepth = (updateBwq hop tick).slotdepth

theorem clearOfWrap_iff_length (hw : 0 < w) (h : hop.AllNear w tick) :
    hop.ClearOfWrap w tick ↔
      ((hop.wrapTicks w).stored.takeWhile (· < tick % 2 ^ w)).length =
        (hop.stored.takeWhile (· < tick)).length := by
  have hmem : ∀ a ∈ hop.stored, (decide (a % 2 ^ w < tick % 2 ^ w) = decide (a < tick) ↔
      SameEpoch w tick a) := fun a ha => by
    rw [decide_eq_decide]
    exact mod_lt_mod_iff hw (h a ha)
  rw [stored_wrapTicks, List.takeWhile_map, List.length_map, length_takeWhile_eq_iff]
  refine and_congr (forall₂_congr fun a ha => ?_) (forall₂_congr fun a ha => ?_)
  · exact (hmem a ((List.takeWhile_subset _) ha)).symm
  · exact (hmem a ((List.dropWhile_subset _) (List.mem_of_head? ha))).symm

theorem length_takeWhile_tickBefore (hw : 0 < w) (h : hop.AllNear w tick) :
    ((hop.wrapTicks w).stored.takeWhile (tickBefore w (tick % 2 ^ w))).length =
      (hop.stored.takeWhile (· < tick)).length := by
  have hagree : ∀ a ∈ hop.stored,
      tickBefore w (tick % 2 ^ w) (a % 2 ^ w) = decide (a < tick) := fun a ha => by
    rw [Bool.eq_iff_iff, decide_eq_true_iff]
    exact tickBefore_iff hw (h a ha)
  rw [stored_wrapTicks, List.takeWhile_map, List.length_map]
  exact (length_takeWhile_eq_iff _ _ _).mpr
    ⟨fun a ha => hagree a (List.takeWhile_subset _ ha),
      fun a ha => hagree a (List.dropWhile_subset _ (List.mem_of_head? ha))⟩

/-- Removing more entries than another time leaves fewer. -/
theorem slotdepth_iterate_inj {k k' : ℕ} (h : k ≤ hop.slotdepth) (h' : k' ≤ hop.slotdepth)
    (heq : (Hop.dequeue^[k] hop).slotdepth = (Hop.dequeue^[k'] hop).slotdepth) : k = k' := by
  rw [slotdepth_iterate_dequeue, slotdepth_iterate_dequeue] at heq
  omega

/-- Away from a wrap the loop on `w` bits does what the loop on unbounded ticks does. -/
theorem updateBwq_wrapTicks (hw : 0 < w) (h : hop.AllNear w tick)
    (hclear : hop.ClearOfWrap w tick) :
    updateBwq (hop.wrapTicks w) (tick % 2 ^ w) = (updateBwq hop tick).wrapTicks w := by
  rw [updateBwq_eq_iterate, (clearOfWrap_iff_length hw h).mp hclear, wrapTicks_iterate_dequeue,
    updateBwq_eq_iterate]

/-- **Step lemma.** The loop drains in order exactly away from a wrap. -/
theorem clearOfWrap_iff (hw : 0 < w) (h : hop.AllNear w tick) :
    hop.ClearOfWrap w tick ↔ DrainsInOrder w (hop.wrapTicks w) hop tick := by
  constructor
  · intro hclear
    have heq := updateBwq_wrapTicks hw h hclear
    refine ⟨?_, by rw [heq, wrapTicks_slotdepth]⟩
    rw [heq, length_takeWhile_tickBefore hw h, wrapTicks_iterate_dequeue, updateBwq_eq_iterate]
  · intro hdrains
    have hocc := hdrains.occupancy
    have hlen : (hop.wrapTicks w).stored.length = hop.slotdepth := length_storedLoop _ _
    have hlen' : hop.stored.length = hop.slotdepth := length_storedLoop _ _
    rw [updateBwq_eq_iterate, wrapTicks_iterate_dequeue, updateBwq_eq_iterate hop] at hocc
    rw [clearOfWrap_iff_length hw h]
    exact slotdepth_iterate_inj (hlen ▸ (List.takeWhile_sublist _).length_le)
      (hlen' ▸ (List.takeWhile_sublist _).length_le) hocc

/-! ## The rest of the crossing -/

/-- A bandwidth delay computation that does not read the exit ticks. -/
def IgnoresTicks (bwDelay : Hop → ℕ → ℕ × Hop) : Prop :=
  ∀ w hop len, bwDelay (hop.wrapTicks w) len = ((bwDelay hop len).1, (bwDelay hop len).2.wrapTicks w)

theorem takeFragment_wrapTicks (w : ℕ) (hop : Hop) (len : ℕ) :
    takeFragment (hop.wrapTicks w) len = ((takeFragment hop len).1, (takeFragment hop len).2.1,
      (takeFragment hop len).2.2.wrapTicks w) := by
  unfold takeFragment
  rw [wrapTicks_fragment]
  by_cases h : len < hop.fragment
  · rw [if_pos h, if_pos h]
    rfl
  · rw [if_neg h, if_neg h]
    by_cases h' : hop.fragment ≠ 0
    · rw [if_pos h', if_pos h']
      rfl
    · rw [if_neg h', if_neg h']

theorem Linux.ignoresTicks_bwDelay (hz randomVal : ℕ) :
    IgnoresTicks (Linux.bwDelay hz randomVal) := by
  intro w hop len
  unfold Linux.bwDelay
  rw [takeFragment_wrapTicks, wrapTicks_bytespertick]
  dsimp only
  split_ifs <;> rfl

theorem FreeBSD.ignoresTicks_bwDelay (hz : ℕ) : IgnoresTicks (FreeBSD.bwDelay hz) := by
  intro w hop len
  unfold FreeBSD.bwDelay
  rw [takeFragment_wrapTicks, wrapTicks_bytespertick]
  dsimp only
  split_ifs <;> rfl

theorem charge_wrapTicks {bwDelay : Hop → ℕ → ℕ × Hop} (h : IgnoresTicks bwDelay) (w : ℕ)
    (hop : Hop) (len : ℕ) : (hop.wrapTicks w).charge bwDelay len =
      ((hop.charge bwDelay len).1, (hop.charge bwDelay len).2.wrapTicks w) := by
  unfold Hop.charge
  rw [wrapTicks_KBps]
  by_cases hK : hop.KBps ≠ 0
  · rw [if_pos hK, if_pos hK]
    exact h w (hop.counted len) len
  · rw [if_neg hK, if_neg hK]
    rfl

theorem wrapTicks_enqueue (w s len : ℕ) (hop : Hop) {x y : ℕ} (h : x % 2 ^ w = y % 2 ^ w) :
    ((hop.wrapTicks w).enqueue s len x).wrapTicks w = (hop.enqueue s len y).wrapTicks w := by
  have hexit : (fun i => Function.update (fun i => hop.exittick i % 2 ^ w) s x i % 2 ^ w) =
      fun i => Function.update hop.exittick s y i % 2 ^ w := by
    funext i
    by_cases hi : i = s
    · subst hi; simp [h]
    · simp [hi]
  unfold Hop.wrapTicks Hop.enqueue
  dsimp only
  rw [hexit]

theorem tailExit_wrapTicks (w : ℕ) (hop : Hop) (tick : ℕ) :
    (hop.wrapTicks w).tailExit (tick % 2 ^ w) = hop.tailExit tick % 2 ^ w := by
  unfold Hop.tailExit
  rw [wrapTicks_slotdepth]
  by_cases h : hop.slotdepth ≠ 0
  · rw [if_pos h, if_pos h]
    rfl
  · rw [if_neg h, if_neg h]

/-- A packet joins the queue on `w` bits as it does on unbounded ticks. -/
theorem accept_wrapTicks {bwDelay : Hop → ℕ → ℕ × Hop} (h : IgnoresTicks bwDelay) (w : ℕ)
    (hop : Hop) (newslot len tick : ℕ) :
    ((hop.wrapTicks w).accept bwDelay newslot len (tick % 2 ^ w)).map
      (fun r => r.1.wrapTicks w) =
    (hop.accept bwDelay newslot len tick).map fun r => r.1.wrapTicks w := by
  unfold Hop.accept
  by_cases ha : (hop.exittickAlloc && hop.slotlenAlloc) = true
  · have ha' : ((hop.wrapTicks w).exittickAlloc && (hop.wrapTicks w).slotlenAlloc) = true := ha
    rw [if_pos ha, if_pos ha', charge_wrapTicks h, tailExit_wrapTicks]
    dsimp only
    rw [Option.map_some, Option.map_some]
    refine congrArg some (wrapTicks_enqueue w _ _ _ ?_)
    rw [Nat.mod_add_mod]
  · have ha' : ¬ ((hop.wrapTicks w).exittickAlloc && (hop.wrapTicks w).slotlenAlloc) = true := ha
    rw [if_neg ha, if_neg ha']

/-- The hop after a call on ticks of `w` bits. -/
def wrappedCall (w : ℕ) (emulate : Hop → Call → Option (Hop × Outcome)) (hop : Hop) (c : Call) :
    Option Hop := (emulate hop { c with tick := c.tick % 2 ^ w }).map fun r => r.1.wrapTicks w

namespace Linux

/-- The call gets to `update_bwq`. -/
def Drains (hop : Hop) : Prop := hop.qsize ≠ 0 ∧ hop.KBps ≠ 0

theorem wrappedCall_emulateCall (hz : ℕ) {c : Call} (h : Drains hop →
    updateBwq (hop.wrapTicks w) (c.tick % 2 ^ w) = (updateBwq hop c.tick).wrapTicks w) :
    wrappedCall w (emulateCall hz) (hop.wrapTicks w) c =
      (callStep hz hop c).map (Hop.wrapTicks w) := by
  unfold wrappedCall callStep emulateCall emulateHop
  rw [wrapTicks_qsize, wrapTicks_newslot]
  by_cases hq : hop.qsize = 0
  · rw [if_pos hq, if_pos hq]
    rfl
  rw [if_neg hq, if_neg hq]
  have hdrained : drained (hop.wrapTicks w) (c.tick % 2 ^ w) = (drained hop c.tick).wrapTicks w := by
    unfold drained
    rw [wrapTicks_KBps]
    by_cases hK : hop.KBps ≠ 0
    · rw [if_pos hK, if_pos hK, h ⟨hq, hK⟩]
    · rw [if_neg hK, if_neg hK]
  have hplr : willDropPacketPlr (hop.wrapTicks w) c.randomVal =
      willDropPacketPlr hop c.randomVal := rfl
  have hbw : willDropPacketBw ((drained hop c.tick).wrapTicks w) =
      willDropPacketBw (drained hop c.tick) := rfl
  dsimp only
  rw [hdrained, hplr, hbw]
  by_cases hdrop :
      (willDropPacketPlr hop c.randomVal || willDropPacketBw (drained hop c.tick)) = true
  · rw [if_pos hdrop, if_pos hdrop, Option.map_some, Option.map_some, Option.map_some]
    exact congrArg some (wrapTicks_qdrops w (drained hop c.tick) _)
  · rw [if_neg hdrop, if_neg hdrop, accept_wrapTicks (ignoresTicks_bwDelay hz c.randomVal),
      Option.map_map]
    rfl

end Linux

namespace FreeBSD

/-- The call gets to `update_bwq`. -/
def Drains (hop : Hop) (c : Call) : Prop :=
  hop.qsize ≠ 0 ∧ ¬ lostOnLink hop c.randomVal = true ∧ hop.KBps ≠ 0

theorem wrappedCall_emulateCall (hz : ℕ) {c : Call} (h : Drains hop c →
    updateBwq (hop.wrapTicks w) (c.tick % 2 ^ w) = (updateBwq hop c.tick).wrapTicks w) :
    wrappedCall w (emulateCall hz) (hop.wrapTicks w) c =
      (callStep hz hop c).map (Hop.wrapTicks w) := by
  have hlost : lostOnLink (hop.wrapTicks w) c.randomVal = lostOnLink hop c.randomVal := rfl
  have haccept := accept_wrapTicks (ignoresTicks_bwDelay hz) w
  unfold wrappedCall callStep emulateCall emulateHop
  rw [wrapTicks_qsize, wrapTicks_newslot, wrapTicks_KBps]
  dsimp only
  rw [hlost]
  by_cases hq : hop.qsize = 0
  · rw [if_pos hq, if_pos hq]
    rfl
  rw [if_neg hq, if_neg hq]
  by_cases hdrop : lostOnLink hop c.randomVal = true
  · rw [if_pos hdrop, if_pos hdrop, Option.map_some, Option.map_some, Option.map_some]
    exact congrArg some (wrapTicks_wrapTicks w hop)
  rw [if_neg hdrop, if_neg hdrop]
  by_cases hK : hop.KBps ≠ 0
  · rw [if_pos hK, if_pos hK, h ⟨hq, hdrop, hK⟩, wrapTicks_qsize, wrapTicks_slotdepth]
    by_cases hfull : (updateBwq hop c.tick).qsize ≤ (updateBwq hop c.tick).slotdepth
    · rw [if_pos hfull, if_pos hfull, Option.map_some, Option.map_some, Option.map_some]
      exact congrArg some (wrapTicks_qdrops w (updateBwq hop c.tick) _)
    · rw [if_neg hfull, if_neg hfull, haccept, Option.map_map]
      rfl
  · rw [if_neg hK, if_neg hK, haccept, Option.map_map]
    rfl

end FreeBSD

/-! ## Runs -/

namespace Linux

/-- The calls that get to `update_bwq` are clear of the wraps. -/
def ClearRun (w hz : ℕ) : Hop → List Call → Prop :=
  Guarded (callStep hz) fun hop c => Drains hop → hop.ClearOfWrap w c.tick

/-- The stored exit ticks are near the tick of every call. -/
def NearRun (w hz : ℕ) : Hop → List Call → Prop :=
  Guarded (callStep hz) fun hop c => hop.AllNear w c.tick

/-- Next to a run on ticks that never wrap, every call on ticks of `w` bits drains the queue in
order. -/
def OrderedRun (w hz : ℕ) (hop : Hop) : List Call → Prop :=
  Guarded (both (wrappedCall w (emulateCall hz)) (callStep hz))
    (fun p c => Drains p.1 → DrainsInOrder w p.1 p.2 c.tick) (hop.wrapTicks w, hop)

theorem clearRun_iff (hz : ℕ) (hw : 0 < w) {cs : List Call} (h : NearRun w hz hop cs) :
    ClearRun w hz hop cs ↔ OrderedRun w hz hop cs :=
  guarded_both_iff (fun _ _ hnear hclear => wrappedCall_emulateCall hz fun hd =>
      updateBwq_wrapTicks hw hnear (hclear hd))
    (fun _ _ hnear => imp_congr_right fun _ => clearOfWrap_iff hw hnear) h

end Linux

namespace FreeBSD

/-- The hop after an event on ticks of `w` bits. -/
def wrappedEvent (w hz : ℕ) (hop : Hop) : Event → Option Hop
  | .packet c => wrappedCall w (emulateCall hz) hop c
  | .hopmod r => some (sysctlHopmod hz hop r)

/-- The calls that get to `update_bwq` are clear of the wraps. -/
def ClearRun (w hz : ℕ) : Hop → List Event → Prop :=
  Guarded (eventStep hz) fun hop e =>
    ∀ c, e = .packet c → Drains hop c → hop.ClearOfWrap w c.tick

/-- The stored exit ticks are near the tick of every call. -/
def NearRun (w hz : ℕ) : Hop → List Event → Prop :=
  Guarded (eventStep hz) fun hop e => ∀ c, e = .packet c → hop.AllNear w c.tick

/-- Next to a run on ticks that never wrap, every call on ticks of `w` bits drains the queue in
order. -/
def OrderedRun (w hz : ℕ) (hop : Hop) : List Event → Prop :=
  Guarded (both (wrappedEvent w hz) (eventStep hz))
    (fun p e => ∀ c, e = .packet c → Drains p.1 c → DrainsInOrder w p.1 p.2 c.tick)
    (hop.wrapTicks w, hop)

theorem clearRun_iff (hz : ℕ) (hw : 0 < w) {es : List Event} (h : NearRun w hz hop es) :
    ClearRun w hz hop es ↔ OrderedRun w hz hop es := by
  refine guarded_both_iff (fun t e hnear hclear => ?_) (fun t e hnear => ?_) h
  · cases e with
    | packet c =>
      exact wrappedCall_emulateCall hz fun hd =>
        updateBwq_wrapTicks hw (hnear c rfl) (hclear c rfl hd)
    | hopmod r => rfl
  · exact forall₂_congr fun c hc => imp_congr_right fun _ => clearOfWrap_iff hw (hnear c hc)

end FreeBSD

/-- **Wrapping counters.** While the stored exit ticks are within half the range of the counter, a
run of either module on ticks of `w` bits drains the queue as the run on unbounded ticks does if and
only if every call that drains it is clear of the wraps. -/
theorem orderedRun_iff (hz : ℕ) (hw : 0 < w) (hop : Hop) :
    (∀ cs, Linux.NearRun w hz hop cs →
      (Linux.OrderedRun w hz hop cs ↔ Linux.ClearRun w hz hop cs)) ∧
    ∀ es, FreeBSD.NearRun w hz hop es →
      (FreeBSD.OrderedRun w hz hop es ↔ FreeBSD.ClearRun w hz hop es) :=
  ⟨fun _ h => (Linux.clearRun_iff hz hw h).symm, fun _ h => (FreeBSD.clearRun_iff hz hw h).symm⟩

/-! ## A wrap of 32 bits -/

/-- A link of 400 kbit/s: a packet of 1500 bytes takes 30 ticks. -/
def slowHop : Hop := Hop.install 1000 0 ⟨400, 0, 0, 50, 0, 0⟩

/-- Two packets of 1500 bytes, one tick after the other. -/
def twoCalls (tick : ℕ) : List Call := [⟨tick, 1500, 0⟩, ⟨tick + 1, 1500, 0⟩]

/-- The second packet meets the exit tick of the first one. -/
def MeetsFirst (tick : ℕ) : Prop :=
  (Linux.callStep 1000 slowHop ⟨tick, 1500, 0⟩).map Hop.stored = some [tick + 30] ∧
    (FreeBSD.callStep 1000 slowHop ⟨tick, 1500, 0⟩).map Hop.stored = some [tick + 30]

theorem meetsFirst_behind_wrap : MeetsFirst (2 ^ 32) := ⟨by decide +kernel, by decide +kernel⟩

theorem meetsFirst_before_wrap : MeetsFirst (2 ^ 32 - 2) := ⟨by decide +kernel, by decide +kernel⟩

theorem MeetsFirst.stored {tick : ℕ} {hop : Hop} (h : MeetsFirst tick)
    (hstep : Linux.callStep 1000 slowHop ⟨tick, 1500, 0⟩ = some hop ∨
      FreeBSD.callStep 1000 slowHop ⟨tick, 1500, 0⟩ = some hop) : hop.stored = [tick + 30] := by
  obtain ⟨hlinux, hfreebsd⟩ := h
  rcases hstep with hstep | hstep
  · rw [hstep] at hlinux
    exact Option.some.inj hlinux
  · rw [hstep] at hfreebsd
    exact Option.some.inj hfreebsd

theorem nearRun_twoCalls {tick : ℕ} (hmeets : MeetsFirst tick) :
    Linux.NearRun 32 1000 slowHop (twoCalls tick) ∧
      FreeBSD.NearRun 32 1000 slowHop ((twoCalls tick).map .packet) := by
  have hnear : ∀ hop : Hop, hop.stored = [tick + 30] → hop.AllNear 32 (tick + 1) := by
    intro hop h a ha
    rw [h, List.mem_singleton] at ha
    subst ha
    exact ⟨by omega, by omega⟩
  have hempty : ∀ t, slowHop.AllNear 32 t := fun t a ha => by cases ha
  constructor
  · exact ⟨hempty _, fun hop h => ⟨hnear hop (hmeets.stored (Or.inl h)), fun _ _ => trivial⟩⟩
  · refine ⟨fun c _ => hempty _, fun hop h => ⟨fun c hc => ?_, fun _ _ => trivial⟩⟩
    cases hc
    exact hnear hop (hmeets.stored (Or.inr h))

/-- The theorem on two packets just behind a wrap. -/
theorem orderedRun_behind_wrap : Linux.OrderedRun 32 1000 slowHop (twoCalls (2 ^ 32)) ∧
    FreeBSD.OrderedRun 32 1000 slowHop ((twoCalls (2 ^ 32)).map .packet) := by
  have hclear : ∀ hop : Hop, hop.stored = [2 ^ 32 + 30] → hop.ClearOfWrap 32 (2 ^ 32 + 1) := by
    intro hop h
    unfold Hop.ClearOfWrap
    rw [h]
    refine ⟨fun a ha => ?_, fun a ha => ?_⟩
    · have hnone : [2 ^ 32 + 30].takeWhile (· < 2 ^ 32 + 1) = [] := by decide
      rw [hnone] at ha
      cases ha
    · cases ha
      rfl
  have hempty : ∀ t, slowHop.ClearOfWrap 32 t :=
    fun t => ⟨fun a ha => (by cases ha), fun a ha => (by cases ha)⟩
  obtain ⟨hlinux, hfreebsd⟩ := orderedRun_iff 1000 (w := 32) (by decide) slowHop
  obtain ⟨hnear, hnear'⟩ := nearRun_twoCalls meetsFirst_behind_wrap
  constructor
  · exact (hlinux _ hnear).mpr ⟨fun _ => hempty _, fun hop h =>
      ⟨fun _ => hclear hop (meetsFirst_behind_wrap.stored (Or.inl h)), fun _ _ => trivial⟩⟩
  · refine (hfreebsd _ hnear').mpr ⟨fun c _ _ => hempty _, fun hop h =>
      ⟨fun c hc _ => ?_, fun _ _ => trivial⟩⟩
    cases hc
    exact hclear hop (meetsFirst_behind_wrap.stored (Or.inr h))

/-- Two ticks before the wrap the first packet gets an exit tick behind it. The second one finds the
queue empty, while on ticks that never wrap the first packet is still queued. -/
theorem not_orderedRun_before_wrap :
    (Linux.NearRun 32 1000 slowHop (twoCalls (2 ^ 32 - 2)) ∧
      ¬ Linux.OrderedRun 32 1000 slowHop (twoCalls (2 ^ 32 - 2))) ∧
    FreeBSD.NearRun 32 1000 slowHop ((twoCalls (2 ^ 32 - 2)).map .packet) ∧
      ¬ FreeBSD.OrderedRun 32 1000 slowHop ((twoCalls (2 ^ 32 - 2)).map .packet) := by
  obtain ⟨hnear, hnear'⟩ := nearRun_twoCalls meetsFirst_before_wrap
  refine ⟨⟨hnear, fun h => ?_⟩, hnear', fun h => ?_⟩
  · have hocc := ((h.2 _ rfl).1 ⟨by decide, by decide⟩).occupancy
    revert hocc
    decide
  · have hocc := ((h.2 _ rfl).1 _ rfl ⟨by decide, by decide, by decide⟩).occupancy
    revert hocc
    decide
end Modelnet

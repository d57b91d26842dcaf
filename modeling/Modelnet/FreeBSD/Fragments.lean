import Modelnet.BusyPeriod
import Modelnet.Horizon

/-!
# The bytes left over in a tick

On a fast link the FreeBSD module keeps the bytes of the last tick that a packet did not need, and
gives them to the next one. Over a busy period the kept bytes are those missing to full ticks. The
exit ticks are those of the bytes sent, except that a packet that just fits into the kept bytes is
never charged the tick it completes: the tick is set aside in `fragused`, but nothing is left of
the packet, and the branch that adds it is not taken.
-/

namespace Modelnet.FreeBSD

open Modelnet LinkQueue

/-! ## The tariff of a fast link -/

/-- What a packet of `len` bytes is charged when `f` bytes of the last tick are kept, and what is
kept after it. -/
def fastPrice (b f len : ℕ) : ℕ × ℕ :=
  if len ≤ f then (0, f - len)
  else ((len - f) / b + if f ≠ 0 then 1 else 0,
    if (len - f) % b ≠ 0 then b - (len - f) % b else 0)

theorem tariff_fastPrice (hz : ℕ) {hop₀ : Hop} (hfast : 50 < hop₀.bytespertick) :
    Tariff (bwDelay hz) hop₀ (fastPrice hop₀.bytespertick) := by
  have hprice : ∀ hop len, hop₀.SameParams hop → (bwDelay hz hop len).1 =
      (fastPrice hop₀.bytespertick hop.fragment len).1 ∧ (bwDelay hz hop len).2.fragment =
      (fastPrice hop₀.bytespertick hop.fragment len).2 := by
    intro hop len hsame
    unfold fastPrice
    by_cases hrest : len ≤ hop.fragment
    · rw [if_pos hrest]
      exact bwDelay_of_no_rest hz (Nat.sub_eq_zero_of_le hrest)
    · have hne : len - hop.fragment ≠ 0 := by omega
      have hfast' : 50 < hop.bytespertick := hsame.bytespertick ▸ hfast
      rw [if_neg hrest, ← hsame.bytespertick, bwDelay_fst_of_rest hz hfast' hne,
        bwDelay_fragment_of_rest hz hfast' hne]
      refine ⟨?_, rfl⟩
      by_cases hf : hop.fragment ≠ 0
      · rw [if_pos ⟨hf, by omega⟩, if_pos hf]
      · rw [if_neg fun h => hf h.1, if_neg hf]
  exact ⟨fun hop len h => (hprice hop len h).1, fun hop len h => (hprice hop len h).2⟩

/-! ## The bytes missing to full ticks -/

/-- The bytes missing to full ticks of `b` bytes after `S` bytes. -/
def missing (b S : ℕ) : ℕ := if S % b ≠ 0 then b - S % b else 0

/-- The packet takes exactly the bytes kept from the last tick. -/
def FitsExactly (b S len : ℕ) : Prop := S % b ≠ 0 ∧ len = missing b S

instance (b S len : ℕ) : Decidable (FitsExactly b S len) := inferInstanceAs (Decidable (_ ∧ _))

variable {b : ℕ}

theorem mod_missing (hb : 0 < b) (S : ℕ) : (S + missing b S) % b = 0 := by
  have hlt := Nat.mod_lt S hb
  unfold missing
  split_ifs with h
  · rw [← Nat.mod_add_mod, Nat.add_sub_of_le hlt.le, Nat.mod_self]
  · exact not_not.mp h

theorem div_missing (hb : 0 < b) (S : ℕ) :
    (S + missing b S) / b = S / b + if missing b S ≠ 0 then 1 else 0 := by
  have hlt := Nat.mod_lt S hb
  unfold missing
  by_cases h : S % b ≠ 0
  · have hsplit := Nat.div_add_mod S b
    have hsum : S + (b - S % b) = b * (S / b + 1) := by rw [Nat.mul_succ]; omega
    rw [if_pos h, if_pos (by omega), hsum, Nat.mul_div_cancel_left _ hb]
  · rw [if_neg h, if_neg (not_not.mpr rfl), Nat.add_zero, Nat.add_zero]

/-- **Step lemma.** The kept bytes go on being those missing to full ticks. -/
theorem fastPrice_snd (hb : 0 < b) (S len : ℕ) :
    (fastPrice b (missing b S) len).2 = missing b (S + len) := by
  have hmod := mod_missing hb S
  unfold fastPrice
  by_cases hrest : len ≤ missing b S
  · rw [if_pos hrest]
    obtain ⟨k, hk⟩ := Nat.exists_eq_add_of_le hrest
    have hfull : (S + len + k) % b = 0 := by rwa [Nat.add_assoc, ← hk]
    have hlt : k < b := by
      have hS := Nat.mod_lt S hb
      unfold missing at hk
      split_ifs at hk with h <;> omega
    have heq : k = missing b (S + len) := by
      have hm := Nat.mod_lt (S + len) hb
      rw [Nat.add_mod, Nat.mod_eq_of_lt hlt] at hfull
      unfold missing
      rcases Nat.lt_or_ge ((S + len) % b + k) b with hsmall | hlarge
      · rw [Nat.mod_eq_of_lt hsmall] at hfull
        rw [if_neg (by omega)]
        omega
      · rw [Nat.mod_eq_sub_mod hlarge, Nat.mod_eq_of_lt (by omega)] at hfull
        rw [if_pos (by omega)]
        omega
    rw [← heq, hk, Nat.add_sub_cancel_left]
  · have hsum : S + len = S + missing b S + (len - missing b S) := by omega
    rw [if_neg hrest]
    unfold missing at hmod hsum ⊢
    rw [hsum, ← Nat.mod_add_mod (m := S + _), hmod, Nat.zero_add]

/-- **Step lemma.** The ticks charged are those the bytes complete, but for the one that a packet
completes by fitting exactly. -/
theorem fastPrice_fst (hb : 0 < b) (S len : ℕ) :
    (fastPrice b (missing b S) len).1 + (if FitsExactly b S len then 1 else 0) + S / b =
      (S + len) / b := by
  have hdiv := div_missing hb S
  have hS := Nat.mod_lt S hb
  have hsplit := Nat.div_add_mod S b
  unfold fastPrice
  by_cases hrest : len ≤ missing b S
  · rw [if_pos hrest, Nat.zero_add]
    by_cases hfit : FitsExactly b S len
    · have hne : missing b S ≠ 0 := by
        unfold missing
        rw [if_pos hfit.1]
        omega
      rw [if_pos hne] at hdiv
      rw [if_pos hfit, hfit.2, hdiv, Nat.add_comm]
    · have hbelow : S % b + len < b := by
        unfold FitsExactly at hfit
        unfold missing at hfit hrest
        split_ifs at hfit hrest <;> omega
      rw [if_neg hfit, Nat.zero_add]
      refine (Nat.div_eq_of_lt_le ?_ ?_).symm
      · rw [Nat.mul_comm]
        omega
      · rw [Nat.mul_comm, Nat.mul_succ]
        omega
  · have hsum : S + len = S + missing b S + (len - missing b S) := by omega
    have hnot : ¬ FitsExactly b S len := fun h => hrest h.2.le
    rw [if_neg hrest, if_neg hnot, hsum]
    have hmod := mod_missing hb S
    rw [← Nat.mul_div_cancel' (Nat.dvd_of_mod_eq_zero hmod), Nat.mul_add_div hb, hdiv]
    omega

/-! ## Over a busy period -/

/-- The ticks that the packets after the first `S` bytes complete by fitting exactly. -/
def unchargedTicks (b : ℕ) : ℕ → List (ℕ × ℕ) → ℕ
  | _, [] => 0
  | S, e :: ps => (if FitsExactly b S e.1 then 1 else 0) + unchargedTicks b (S + e.1) ps

theorem unchargedTicks_concat (b S : ℕ) (ps : List (ℕ × ℕ)) (e : ℕ × ℕ) :
    unchargedTicks b S (ps ++ [e]) =
      unchargedTicks b S ps + if FitsExactly b (S + sentBytes ps) e.1 then 1 else 0 := by
  induction ps generalizing S with
  | nil => rw [List.nil_append, unchargedTicks, unchargedTicks, sentBytes_nil, Nat.add_comm]; rfl
  | cons p ps ih =>
    rw [List.cons_append, unchargedTicks, unchargedTicks, ih, sentBytes_cons, Nat.add_assoc,
      Nat.add_assoc]

/-- No packet takes exactly the bytes kept from the last tick. -/
def NoneFits (b : ℕ) : List (ℕ × ℕ) → Prop :=
  EachStep fun qs e => ¬ FitsExactly b (sentBytes qs) e.1

/-- Every exit tick is that of the bytes sent until then. -/
def ExitsByBytes (start b : ℕ) : List (ℕ × ℕ) → Prop :=
  EachStep fun qs e => e.2 = start + sentBytes (qs ++ [e]) / b

theorem unchargedTicks_eq_zero_iff (b : ℕ) (ps : List (ℕ × ℕ)) :
    unchargedTicks b 0 ps = 0 ↔ NoneFits b ps := by
  induction ps using List.reverseRecOn with
  | nil => exact ⟨fun _ => EachStep.nil, fun _ => rfl⟩
  | append_singleton ps e ih =>
    rw [unchargedTicks_concat, NoneFits, eachStep_concat, Nat.add_eq_zero_iff, ih, Nat.zero_add]
    refine and_congr Iff.rfl ?_
    split_ifs with h
    · exact iff_of_false id (not_not.mpr h)
    · exact iff_of_true rfl h

/-- **Run lemma.** The kept bytes are those missing to full ticks, and the exit ticks are those of
the bytes sent, less the uncharged ticks. -/
theorem exits_of_charged (hb : 0 < b) {start f : ℕ} {ps : List (ℕ × ℕ)}
    (h : Charged start (fastPrice b) ps f) :
    f = missing b (sentBytes ps) ∧ EachStep (fun qs e =>
      e.2 + unchargedTicks b 0 (qs ++ [e]) = start + sentBytes (qs ++ [e]) / b) ps := by
  have hzero : missing b 0 = 0 := if_neg (by rw [Nat.zero_mod]; exact not_not.mpr rfl)
  induction h with
  | first len =>
    have hfst := fastPrice_fst hb 0 len
    have hsnd := fastPrice_snd hb 0 len
    rw [hzero, Nat.zero_add] at hsnd
    rw [hzero, Nat.zero_div, Nat.add_zero, Nat.zero_add] at hfst
    rw [sentBytes_singleton]
    refine ⟨hsnd, eachStep_singleton.mpr ?_⟩
    rw [List.nil_append, unchargedTicks, unchargedTicks, sentBytes_singleton]
    dsimp only
    omega
  | @next ps len₀ x f h len ih =>
    obtain ⟨rfl, heach⟩ := ih
    have hfst := fastPrice_fst hb (sentBytes (ps ++ [(len₀, x)])) len
    have hlast := (eachStep_concat.mp heach).2
    rw [sentBytes_concat _ (len, _)]
    refine ⟨fastPrice_snd hb _ len, eachStep_concat.mpr ⟨heach, ?_⟩⟩
    rw [unchargedTicks_concat, Nat.zero_add, sentBytes_concat _ (len, _)]
    dsimp only at hlast ⊢
    omega

/-- On a link with a tick's worth of bytes the bandwidth is not zero. -/
theorem kbps_ne_zero {hz : ℕ} {hop : Hop} (hB : hop.bytespertick = bytespertickOf hz hop.KBps)
    (hfast : 50 < hop.bytespertick) : hop.KBps ≠ 0 := by
  intro hK
  rw [hB, hK] at hfast
  simp [bytespertickOf, i32, u32] at hfast

/-- **Fragments.** In a busy period of a fast link the kept bytes are those missing to full ticks,
and the exit ticks are those of the bytes sent if and only if no packet takes exactly the bytes
kept from the last tick. -/
theorem exitsByBytes_iff {hz start : ℕ} {hop₀ hop : Hop} {q₀ : LinkQueue} {ps : List (ℕ × ℕ)}
    (hr : hop₀.Refines q₀) (hB : hop₀.bytespertick = bytespertickOf hz hop₀.KBps)
    (hfast : 50 < hop₀.bytespertick) (h : Busy (emulateCall hz) hop₀ start ps hop) :
    hop.fragment = missing hop₀.bytespertick (sentBytes ps) ∧
      (ExitsByBytes start hop₀.bytespertick ps ↔ NoneFits hop₀.bytespertick ps) := by
  have hperiod := h.inPeriod (fun _ => bwDelay hz) (fun _ _ _ he => crosses_emulateHop he)
    (fun _ => onlyFragment_bwDelay hz) (fun _ => tariff_fastPrice hz hfast)
    (kbps_ne_zero hB hfast) hr
  obtain ⟨hf, hexits⟩ := exits_of_charged (Nat.zero_lt_of_lt hfast) hperiod.charged
  refine ⟨hf, fun hby => ?_, fun hnone qs e hqs => ?_⟩
  · rw [← unchargedTicks_eq_zero_iff]
    obtain ⟨qs, e, rfl⟩ := (List.eq_nil_or_concat' ps).resolve_left hperiod.charged.ne_nil
    have hlast := hexits qs e (List.prefix_refl _)
    have hexit := hby qs e (List.prefix_refl _)
    dsimp only at hlast hexit
    omega
  · have hzero := (unchargedTicks_eq_zero_iff _ _).mpr (hnone.mono hqs)
    have hexit := hexits qs e hqs
    dsimp only at hexit ⊢
    omega

theorem busy_two_packets : ∃ hop : Hop,
    Busy (emulateCall 100) (Hop.install 100 0 ⟨8000, 0, 0, 50, 0, 0⟩) 5 [(1500, 5), (1500, 5)] hop :=
  ⟨_, .next (c := ⟨5, 1500, 0⟩) (.first (c := ⟨5, 1500, 0⟩) rfl rfl rfl) (by decide) rfl⟩

/-- The theorem on these packets. -/
theorem exitsByBytes_two_packets : ∃ hop : Hop,
    Busy (emulateCall 100) (Hop.install 100 0 ⟨8000, 0, 0, 50, 0, 0⟩) 5 [(1500, 5), (1500, 5)] hop ∧
      hop.fragment = missing 10000 3000 ∧
      (ExitsByBytes 5 10000 [(1500, 5), (1500, 5)] ↔ NoneFits 10000 [(1500, 5), (1500, 5)]) := by
  obtain ⟨hop, h⟩ := busy_two_packets
  exact ⟨hop, h, exitsByBytes_iff (Hop.refines_install 100 0 (by decide)) rfl (by decide) h⟩

/-- A packet of 6000 bytes behind one of 4000 leaves with it: the tick they fill is not charged. -/
theorem not_exitsByBytes_exact_fit :
    ∃ hop, Busy (emulateCall 100) (Hop.install 100 0 ⟨8000, 0, 0, 50, 0, 0⟩) 5
        [(4000, 5), (6000, 5)] hop ∧ 50 < hop.bytespertick ∧
      ¬ ExitsByBytes 5 hop.bytespertick [(4000, 5), (6000, 5)] := by
  refine ⟨_, .next (c := ⟨5, 6000, 0⟩) (.first (c := ⟨5, 4000, 0⟩) rfl rfl rfl) (by decide) rfl,
    by decide, fun h => ?_⟩
  have hexit : 5 = 5 + 10000 / 10000 := h [(4000, 5)] (6000, 5) (List.prefix_refl _)
  omega

end Modelnet.FreeBSD

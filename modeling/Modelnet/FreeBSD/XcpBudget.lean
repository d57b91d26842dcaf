import Modelnet.FreeBSD.Xcp

/-!
# The budget of a pipe

`fill_in_feedback` charges what a packet is given to the allocations `BTA_` and `BTF_` of the
interval. All of it is unsigned: a subtraction in `XCP_MIN` is safe, but `XCP_MAX(0, ..)` cannot
see that a difference has wrapped. This file finds the packets whose charge is within the budget,
by the values of the products and shifts as numbers.
-/

namespace Modelnet.FreeBSD

open Modelnet

/-! ## Unsigned differences -/

/-- A difference is no larger than its first argument exactly when it does not wrap. -/
theorem sub_le_left_iff {w : ℕ} (a t : BitVec w) : a - t ≤ a ↔ t ≤ a := by
  constructor
  · intro h
    by_contra hlt
    rw [BitVec.le_def] at h hlt
    have hsub := BitVec.toNat_sub a t
    have ht := t.isLt
    have hwrap : (2 ^ w - t.toNat + a.toNat) % 2 ^ w = 2 ^ w - t.toNat + a.toNat :=
      Nat.mod_eq_of_lt (by omega)
    omega
  · intro h
    rw [BitVec.le_def, BitVec.toNat_sub_of_le h]
    exact Nat.sub_le _ _

theorem xcpMin_le_left (x y : BitVec 64) : xcpMin x y ≤ x := by
  unfold xcpMin
  split_ifs with h
  · exact BitVec.le_refl x
  · exact BitVec.not_lt.mp h

theorem xcpMin_le_right (x y : BitVec 64) : xcpMin x y ≤ y := by
  unfold xcpMin
  split_ifs with h
  · exact BitVec.le_of_lt h
  · exact BitVec.le_refl y

theorem toNat_xcpMin (x y : BitVec 64) : (xcpMin x y).toNat = min x.toNat y.toNat := by
  unfold xcpMin
  split_ifs with h
  · exact (Nat.min_eq_left (Nat.le_of_lt (BitVec.lt_def.mp h))).symm
  · exact (Nat.min_eq_right (BitVec.le_def.mp (BitVec.not_lt.mp h))).symm

theorem xcpMax_zero (x : BitVec 64) : xcpMax 0 x = x := by
  unfold xcpMax
  exact if_neg BitVec.not_lt_zero

theorem sub_xcpMin_le_left (a t : BitVec 64) : a - xcpMin a t ≤ a :=
  (sub_le_left_iff a _).mpr (xcpMin_le_left a t)

theorem sub_xcpMin_le_right (a t : BitVec 64) : a - xcpMin t a ≤ a :=
  (sub_le_left_iff a _).mpr (xcpMin_le_right t a)

namespace XcpPipe

variable {hz : ℕ} {p p' : XcpPipe} {info info' : RemotePacket}

/-! ## Shares -/

/-- `p->Te_` in fixed-point seconds. -/
def teSeconds (hz : ℕ) (p : XcpPipe) : ℕ := p.te.toNat * 2 ^ 10 % 2 ^ 64 / (hz % 2 ^ 64)

/-- What a packet is given of the positive feedback, were there budget enough. -/
def posShare (p : XcpPipe) (info : RemotePacket) : ℕ :=
  p.xiPos.toNat * (invRate info).toNat % 2 ^ 64 * info.xcpRtt.toNat % 2 ^ 64 / 2 ^ 21

/-- What a packet is given of the negative feedback. -/
def negShare (p : XcpPipe) (info : RemotePacket) : ℕ :=
  p.xiNeg.toNat * info.xcpRtt.toNat % 2 ^ 64 * (info.len.toNat / 1000) % 2 ^ 64 / 2 ^ 10

theorem toNat_widened (x : BitVec 32) : (x.setWidth 64).toNat = x.toNat :=
  BitVec.toNat_setWidth_of_le (by decide)

theorem toNat_posFeedback (p : XcpPipe) (info : RemotePacket) :
    (p.posFeedback info).toNat = min p.bta.toNat (p.posShare info) := by
  unfold posFeedback posShare
  rw [toNat_xcpMin]
  congr 1
  simp only [BitVec.toNat_ushiftRight, BitVec.toNat_mul, toNat_widened,
    Nat.shiftRight_eq_div_pow, Nat.div_div_eq_div_mul]
  rfl

theorem toNat_negFeedback (p : XcpPipe) (info : RemotePacket) :
    (p.negFeedback info).toNat = min p.btf.toNat (p.negShare info) := by
  unfold negFeedback negShare
  rw [toNat_xcpMin]
  congr 1
  simp only [BitVec.toNat_ushiftRight, BitVec.toNat_mul, toNat_widened, BitVec.toNat_udiv,
    Nat.shiftRight_eq_div_pow, fpShift]
  rfl

theorem toNat_teByRtt (hz : ℕ) (p : XcpPipe) (rtt : BitVec 32) (value : BitVec 64) :
    (p.teByRtt hz (rtt.setWidth 64) value).toNat =
      value.toNat * p.teSeconds hz % 2 ^ 64 / rtt.toNat := by
  unfold teByRtt teSeconds
  rw [BitVec.toNat_udiv, BitVec.toNat_mul, BitVec.toNat_udiv, BitVec.toNat_shiftLeft,
    BitVec.toNat_ofNat, toNat_widened, Nat.shiftLeft_eq]
  rfl

/-! ## The charge -/

/-- The packet gets feedback, and its own one: no router before this one allows less. -/
def Charges (p : XcpPipe) (info : RemotePacket) : Prop :=
  (info.xcpCwnd ≠ 0 ∧ info.xcpRtt ≠ 0) ∧ info.len ≠ 0 ∧ info.xcpCwnd / BitVec.ofNat 32 multiFac ≠ 0 ∧
    (p.feedbackBytes info).sle info.xcpSrcFdbk = true

/-- What a packet takes out of a budget of `budget`, given at most `share` of it. -/
def charge (hz : ℕ) (p : XcpPipe) (budget share : ℕ) : ℕ :=
  min budget share * p.teSeconds hz % 2 ^ 64

/-- The charges are within the budgets, counted in units of `rtt`. -/
def Affordable (hz : ℕ) (p : XcpPipe) (info : RemotePacket) : Prop :=
  p.charge hz p.bta.toNat (p.posShare info) < (p.bta.toNat + 1) * info.xcpRtt.toNat ∧
    p.charge hz p.btf.toNat (p.negShare info) < (p.btf.toNat + 1) * info.xcpRtt.toNat

theorem charged_le_iff (hz : ℕ) (p : XcpPipe) {info : RemotePacket} (hrtt : info.xcpRtt ≠ 0)
    (budget : BitVec 64) {value : BitVec 64} {share : ℕ}
    (hvalue : value.toNat = min budget.toNat share) :
    xcpMax 0 (budget - p.teByRtt hz (info.xcpRtt.setWidth 64) value) ≤ budget ↔
      p.charge hz budget.toNat share < (budget.toNat + 1) * info.xcpRtt.toNat := by
  have hpos : 0 < info.xcpRtt.toNat :=
    Nat.pos_of_ne_zero fun h => hrtt (BitVec.eq_of_toNat_eq h)
  rw [xcpMax_zero, sub_le_left_iff, BitVec.le_def, toNat_teByRtt, hvalue, ← Nat.lt_succ_iff,
    Nat.div_lt_iff_lt_mul hpos]
  rfl

/-- After `fill_in_feedback`, the allocations are no larger than before. -/
def SpendsBudget (hz : ℕ) (p : XcpPipe) (info : RemotePacket) : Prop :=
  ∀ p' info', p.fillInFeedback hz info = some (p', info') → p'.bta ≤ p.bta ∧ p'.btf ≤ p.btf

theorem spendsBudget_of_charges (h : p.Charges info) :
    p.SpendsBudget hz info ↔ p.Affordable hz info := by
  obtain ⟨hack, hlen, hcwnd, hown⟩ := h
  have hcharged : p.charged hz info =
      { p with
        bta := xcpMax 0 (p.bta - p.teByRtt hz (info.xcpRtt.setWidth 64) (p.posFeedback info))
        btf := xcpMax 0 (p.btf - p.teByRtt hz (info.xcpRtt.setWidth 64) (p.negFeedback info)) } :=
    if_pos hown
  have hfill : p.fillInFeedback hz info =
      some (p.charged hz info, { info with xcpSrcFdbk := p.feedbackBytes info }) := by
    unfold fillInFeedback
    rw [if_pos hack, if_neg hlen, if_neg hcwnd, if_pos hown]
  have hbta := charged_le_iff hz p hack.2 p.bta (toNat_posFeedback p info)
  have hbtf := charged_le_iff hz p hack.2 p.btf (toNat_negFeedback p info)
  unfold Affordable
  rw [← hbta, ← hbtf]
  constructor
  · intro hspends
    simpa only [hcharged] using hspends _ _ hfill
  · intro hwithin p' info' h
    cases hfill.symm.trans h
    rw [hcharged]
    exact hwithin

/-- The charges for the feedback of another router are capped. -/
theorem charged_le_of_upstream (hupstream : ¬ (p.feedbackBytes info).sle info.xcpSrcFdbk = true) :
    (p.charged hz info).bta ≤ p.bta ∧ (p.charged hz info).btf ≤ p.btf := by
  unfold charged
  dsimp only
  rw [if_neg hupstream]
  split_ifs
  · exact ⟨sub_xcpMin_le_right _ _, sub_xcpMin_le_left _ _⟩
  · exact ⟨BitVec.le_refl _, BitVec.le_trans (sub_xcpMin_le_right _ _) (sub_xcpMin_le_right _ _)⟩
  · exact ⟨BitVec.le_refl _, sub_xcpMin_le_right _ _⟩

theorem spendsBudget_of_not_charges (h : ¬ p.Charges info) : p.SpendsBudget hz info := by
  intro p' info' hfill
  unfold fillInFeedback at hfill
  split_ifs at hfill with hack hlen hcwnd hown
  · cases hfill
    exact ⟨BitVec.le_refl _, BitVec.le_refl _⟩
  · exact absurd ⟨hack, hlen, hcwnd, hown⟩ h
  · cases hfill
    exact charged_le_of_upstream hown
  · cases hfill
    exact ⟨BitVec.le_refl _, BitVec.le_refl _⟩

/-- **The budget.** `fill_in_feedback` leaves both allocations no larger than they were exactly when
the packet is not charged for its own feedback, or its charges are within the budgets. -/
theorem spendsBudget_iff (hz : ℕ) (p : XcpPipe) (info : RemotePacket) :
    p.SpendsBudget hz info ↔ (p.Charges info → p.Affordable hz info) := by
  by_cases hcharges : p.Charges info
  · rw [spendsBudget_of_charges hcharges]
    exact ⟨fun h _ => h, fun h => h hcharges⟩
  · exact iff_of_true (spendsBudget_of_not_charges hcharges) fun h => absurd h hcharges

/-- An interval of 100 ticks, and a positive allocation. -/
def longInterval : XcpPipe where
  te := 100
  xiPos := 5
  xiNeg := 0
  bta := 10
  btf := 0
  runningMinQueueKbytes := 0

/-- A packet of a flow whose round trip is half of it. -/
def shortTrip : RemotePacket where
  id := 0
  expire := 0
  len := 1500
  waitTime := 0
  src := 0
  dst := 0
  hop := 0
  ttl := 0
  xcpCwnd := 1500
  xcpSrcFdbk := 100000
  xcpRflctFdbk := 0
  xcpRtt := 50

/-- Ten units are allocated, and the packet takes twenty. -/
theorem not_spendsBudget_shortTrip : ¬ longInterval.SpendsBudget 1000 shortTrip := by
  intro h
  have hcharges : longInterval.Charges shortTrip := by unfold Charges; decide
  have haffordable := (spendsBudget_of_charges hcharges).mp h
  exact absurd haffordable.1 (by decide)

end XcpPipe

end Modelnet.FreeBSD

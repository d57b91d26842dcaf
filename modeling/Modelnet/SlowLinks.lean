import Modelnet.BusyPeriod
import Modelnet.Horizon
import Modelnet.Lib.Floors

/-!
# The bandwidth of slow links

On a slow link (`bytespertick` at most 50) both modules compute the ticks of a packet by
`len * HZ / (1000 * KBps)` and drop the remainder. No remainder is carried over to the next packet,
so over a busy period the hop is ahead of its bandwidth as soon as the dropped remainders make up a
tick.
-/

namespace Modelnet

open LinkQueue Floors

/-- What a packet of `len` bytes is charged on a slow link, and the fragment after it. -/
def slowPrice (hz : ℕ) (hop₀ : Hop) (f len : ℕ) : ℕ × ℕ := (slowDelay hz hop₀ (len - f), f - len)

theorem Hop.SameParams.slowDelay {hop₀ hop : Hop} (h : hop₀.SameParams hop) (hz len : ℕ) :
    Modelnet.slowDelay hz hop len = Modelnet.slowDelay hz hop₀ len := by
  unfold Modelnet.slowDelay
  rw [h.KBps]

theorem tariff_of_slowDelay {bwDelay : Hop → ℕ → ℕ × Hop} {hz : ℕ} {hop₀ : Hop}
    (hslow : hop₀.bytespertick ≤ 50) (h : ∀ hop len, hop.bytespertick ≤ 50 → bwDelay hop len =
      (slowDelay hz hop (takeFragment hop len).1, (takeFragment hop len).2.2)) :
    Tariff bwDelay hop₀ (slowPrice hz hop₀) := by
  constructor
  · intro hop len hsame
    rw [h hop len (hsame.bytespertick ▸ hslow), takeFragment_fst, hsame.slowDelay]
    rfl
  · intro hop len hsame
    rw [h hop len (hsame.bytespertick ▸ hslow)]
    exact takeFragment_fragment hop len

theorem Linux.tariff_slowPrice (hz randomVal : ℕ) {hop₀ : Hop} (hslow : hop₀.bytespertick ≤ 50) :
    Tariff (Linux.bwDelay hz randomVal) hop₀ (slowPrice hz hop₀) :=
  tariff_of_slowDelay hslow fun hop len h => by
    unfold Linux.bwDelay
    dsimp only
    rw [if_neg fun hfast => absurd hfast.2 (by omega)]

theorem FreeBSD.tariff_slowPrice (hz : ℕ) {hop₀ : Hop} (hslow : hop₀.bytespertick ≤ 50) :
    Tariff (FreeBSD.bwDelay hz) hop₀ (slowPrice hz hop₀) :=
  tariff_of_slowDelay hslow fun hop len h => by
    unfold FreeBSD.bwDelay
    dsimp only
    rw [if_neg fun hfast => absurd hfast.2 (by omega)]

/-! ## Over a busy period -/

/-- The products `len * HZ` of the packets, as the code computes them. -/
def products (hz : ℕ) (ps : List (ℕ × ℕ)) : List ℕ := ps.map fun e => u32 (e.1 * hz : ℕ)

/-- The divisor `1000 * KBps`, as the code computes it. -/
def divisor (hop : Hop) : ℕ := u32 (1000 * hop.KBps)

theorem products_concat (hz : ℕ) (ps : List (ℕ × ℕ)) (e : ℕ × ℕ) :
    products hz (ps ++ [e]) = products hz ps ++ [u32 (e.1 * hz : ℕ)] := List.map_append

/-- **Run lemma.** The exit ticks on a slow link are sums of quotients. -/
theorem exits_of_slowPrice {hz start f : ℕ} {hop₀ : Hop} {ps : List (ℕ × ℕ)}
    (h : Charged start (slowPrice hz hop₀) ps f) : f = 0 ∧ EachStep (fun qs e =>
      e.2 = start + sumDiv (divisor hop₀) (products hz (qs ++ [e]))) ps := by
  induction h with
  | first len =>
    exact ⟨Nat.zero_sub len, eachStep_singleton.mpr rfl⟩
  | @next ps len₀ x f h len ih =>
    obtain ⟨rfl, heach⟩ := ih
    have hlast := (eachStep_concat.mp heach).2
    refine ⟨Nat.zero_sub len, eachStep_concat.mpr ⟨heach, ?_⟩⟩
    dsimp only at hlast ⊢
    rw [products_concat, sumDiv_append, ← Nat.add_assoc, ← hlast]
    rfl

/-- The ticks that the configured bandwidth takes for the bytes. -/
def bandwidthTicks (hz : ℕ) (KBps : ℤ) (bytes : ℕ) : ℕ := hz * bytes / (1000 * KBps).toNat

/-- No packet leaves before the bytes up to it are sent at the configured bandwidth. -/
def EnforcesBandwidth (hz start : ℕ) (KBps : ℤ) : List (ℕ × ℕ) → Prop :=
  EachStep fun qs e => start + bandwidthTicks hz KBps (sentBytes (qs ++ [e])) ≤ e.2

/-- The remainders cut off from the products leave room for the ticks of the bandwidth. -/
def CutOffCovered (hz : ℕ) (hop : Hop) : List (ℕ × ℕ) → Prop :=
  EachStep fun qs e =>
    divisor hop * bandwidthTicks hz hop.KBps (sentBytes (qs ++ [e])) +
      sumMod (divisor hop) (products hz (qs ++ [e])) ≤ (products hz (qs ++ [e])).sum

theorem divisor_pos {hop : Hop} (hK : 0 < hop.KBps) : 0 < divisor hop :=
  Nat.pos_of_ne_zero (u32_mul_ne_zero hK.ne' hop.KBps_le)

theorem enforcesBandwidth_iff_cutOff {hz start : ℕ} {hop₀ : Hop} {ps : List (ℕ × ℕ)}
    (hK : 0 < hop₀.KBps) (h : EachStep (fun qs e =>
      e.2 = start + sumDiv (divisor hop₀) (products hz (qs ++ [e]))) ps) :
    EnforcesBandwidth hz start hop₀.KBps ps ↔ CutOffCovered hz hop₀ ps := by
  refine forall₃_congr fun qs e hqs => ?_
  have hexit := h qs e hqs
  dsimp only at hexit ⊢
  rw [hexit, Nat.add_le_add_iff_left, le_sumDiv_iff (divisor_pos hK)]

/-! ### Without wrapping -/

/-- No product wraps around 32 bits, nor does the divisor. -/
def ProductsFit (hz : ℕ) (hop : Hop) (ps : List (ℕ × ℕ)) : Prop :=
  1000 * hop.KBps < 2 ^ 32 ∧ ∀ e ∈ ps, e.1 * hz < 2 ^ 32

/-- The remainders of the packets make up less than a tick. -/
def LessThanATick (hz : ℕ) (KBps : ℤ) (ps : List (ℕ × ℕ)) : Prop :=
  sumMod (1000 * KBps).toNat (ps.map fun e => e.1 * hz) < (1000 * KBps).toNat

theorem products_of_productsFit {hz : ℕ} {hop : Hop} {ps : List (ℕ × ℕ)} (h : ProductsFit hz hop ps) :
    products hz ps = ps.map fun e => e.1 * hz :=
  List.map_congr_left fun e he => by
    have hlt := h.2 e he
    rw [u32_of_lt (by omega) (by omega), Int.toNat_natCast]

theorem divisor_of_productsFit {hz : ℕ} {hop : Hop} {ps : List (ℕ × ℕ)} (hK : 0 < hop.KBps)
    (h : ProductsFit hz hop ps) : divisor hop = (1000 * hop.KBps).toNat :=
  u32_of_lt (by omega) h.1

theorem sum_map_mul (hz : ℕ) (ps : List (ℕ × ℕ)) :
    (ps.map fun e => e.1 * hz).sum = hz * sentBytes ps := by
  induction ps with
  | nil => rfl
  | cons e ps ih => rw [List.map_cons, List.sum_cons, ih, sentBytes_cons, Nat.mul_add, Nat.mul_comm]

theorem cutOffCovered_iff {hz : ℕ} {hop : Hop} {ps : List (ℕ × ℕ)} (hK : 0 < hop.KBps)
    (hps : ps ≠ []) (h : ProductsFit hz hop ps) :
    CutOffCovered hz hop ps ↔ LessThanATick hz hop.KBps ps := by
  have hpos := divisor_pos hK
  have hstep : ∀ qs, qs <+: ps → (divisor hop * bandwidthTicks hz hop.KBps (sentBytes qs) +
      sumMod (divisor hop) (products hz qs) ≤ (products hz qs).sum ↔
      LessThanATick hz hop.KBps qs) := by
    intro qs hqs
    have hin : ProductsFit hz hop qs := ⟨h.1, fun e he => h.2 e (hqs.subset he)⟩
    rw [divisor_of_productsFit hK h] at hpos ⊢
    rw [products_of_productsFit hin, ← le_sumDiv_iff hpos, bandwidthTicks, ← sum_map_mul,
      sum_div_le_sumDiv_iff hpos]
    rfl
  constructor
  · intro hcov
    obtain ⟨qs, e, rfl⟩ := (List.eq_nil_or_concat' ps).resolve_left hps
    exact (hstep _ (List.prefix_refl _)).mp (hcov qs e (List.prefix_refl _))
  · intro hless qs e hqs
    refine (hstep _ hqs).mpr ?_
    -- the remainders of the first packets are among those of all packets
    obtain ⟨rs, rfl⟩ := hqs
    unfold LessThanATick at hless ⊢
    rw [List.map_append, sumMod_append] at hless
    omega

/-- **Bandwidth of slow links.** In a busy period of a slow link of either module no packet leaves
too early if and only if the remainders cut off leave room for the ticks of the bandwidth. When
nothing wraps around 32 bits, that is if and only if the remainders make up less than a tick. -/
theorem enforcesBandwidth_iff {hz start : ℕ} {hop₀ hop : Hop} {q₀ : LinkQueue}
    {ps : List (ℕ × ℕ)} (hr : hop₀.Refines q₀) (hK : 0 < hop₀.KBps)
    (hslow : hop₀.bytespertick ≤ 50) (h : Busy (Linux.emulateCall hz) hop₀ start ps hop ∨
      Busy (FreeBSD.emulateCall hz) hop₀ start ps hop) :
    (EnforcesBandwidth hz start hop₀.KBps ps ↔ CutOffCovered hz hop₀ ps) ∧
      (ProductsFit hz hop₀ ps →
        (EnforcesBandwidth hz start hop₀.KBps ps ↔ LessThanATick hz hop₀.KBps ps)) := by
  have hperiod : InPeriod hop₀ start (slowPrice hz hop₀) ps hop := by
    rcases h with h | h
    · exact h.inPeriod (fun c => Linux.bwDelay hz c.randomVal)
        (fun _ _ _ he => Linux.crosses_emulateHop he)
        (fun c => Linux.onlyFragment_bwDelay hz c.randomVal)
        (fun c => Linux.tariff_slowPrice hz c.randomVal hslow) hK.ne' hr
    · exact h.inPeriod (fun _ => FreeBSD.bwDelay hz)
        (fun _ _ _ he => FreeBSD.crosses_emulateHop he)
        (fun _ => FreeBSD.onlyFragment_bwDelay hz)
        (fun _ => FreeBSD.tariff_slowPrice hz hslow) hK.ne' hr
  have hiff := enforcesBandwidth_iff_cutOff hK (exits_of_slowPrice hperiod.charged).2
  exact ⟨hiff, fun hin => hiff.trans (cutOffCovered_iff hK hperiod.charged.ne_nil hin)⟩

/-- Two packets of 1499 bytes, sent at once over a link of 400 kbit/s. -/
theorem busy_slow_link : (∃ hop : Hop,
    Busy (Linux.emulateCall 1000) (Hop.install 1000 0 ⟨400, 0, 0, 50, 0, 0⟩) 5
      [(1499, 34), (1499, 63)] hop) ∧ ∃ hop : Hop,
    Busy (FreeBSD.emulateCall 1000) (Hop.install 1000 0 ⟨400, 0, 0, 50, 0, 0⟩) 5
      [(1499, 34), (1499, 63)] hop :=
  ⟨⟨_, .next (c := ⟨5, 1499, 0⟩) (.first (c := ⟨5, 1499, 0⟩) rfl rfl rfl) (by decide) rfl⟩,
    ⟨_, .next (c := ⟨5, 1499, 0⟩) (.first (c := ⟨5, 1499, 0⟩) rfl rfl rfl) (by decide) rfl⟩⟩

/-- The theorem on these packets: each of them leaves 49000 of the 50000 parts of a tick. -/
theorem enforcesBandwidth_slow_link :
    EnforcesBandwidth 1000 5 50 [(1499, 34), (1499, 63)] ↔
      LessThanATick 1000 50 [(1499, 34), (1499, 63)] := by
  obtain ⟨⟨hop, h⟩, -⟩ := busy_slow_link
  refine (enforcesBandwidth_iff (Hop.refines_install 1000 0 (by decide)) (by decide) (by decide)
    (Or.inl h)).2 ⟨by decide, fun e he => ?_⟩
  simp only [List.mem_cons, List.not_mem_nil, or_false] at he
  rcases he with rfl | rfl <;> decide

/-- In both modules the second packet leaves after 58 ticks, while the bandwidth takes 59 for the
two. -/
theorem not_enforcesBandwidth_slow_link :
    ((∃ hop : Hop, Busy (Linux.emulateCall 1000) (Hop.install 1000 0 ⟨400, 0, 0, 50, 0, 0⟩) 5
      [(1499, 34), (1499, 63)] hop) ∧ ∃ hop : Hop,
      Busy (FreeBSD.emulateCall 1000) (Hop.install 1000 0 ⟨400, 0, 0, 50, 0, 0⟩) 5
      [(1499, 34), (1499, 63)] hop) ∧
    ¬ EnforcesBandwidth 1000 5 (Hop.install 1000 0 ⟨400, 0, 0, 50, 0, 0⟩).KBps
      [(1499, 34), (1499, 63)] := by
  refine ⟨busy_slow_link, fun h => ?_⟩
  have hlast : 64 ≤ 63 := h [(1499, 34)] (1499, 63) (List.prefix_refl _)
  omega

end Modelnet

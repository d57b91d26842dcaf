import Modelnet.Backlog

/-!
# Busy periods

A busy period of a hop with a bandwidth limit: a packet is accepted into the empty queue, and each
one accepted after it finds the queue not yet drained. So every packet starts where the one before
it ends, and the exit ticks are sums of bandwidth delays, whatever happens to the ring.
-/

namespace Modelnet

open LinkQueue

/-- The packets accepted so far, with their lengths and exit ticks, and the hop after them. The
first one came at tick `start`. Packets that are dropped meanwhile do not matter. -/
inductive Busy (emulate : Hop → Call → Option (Hop × Outcome)) (hop₀ : Hop) (start : ℕ) :
    List (ℕ × ℕ) → Hop → Prop where
  | first {c : Call} {hop : Hop} {x : ℕ} {due : ℤ} (htick : c.tick = start)
      (hidle : (drained hop₀ c.tick).slotdepth = 0)
      (h : emulate hop₀ c = some (hop, .queued x due)) :
      Busy emulate hop₀ start [(c.len, x)] hop
  | next {ps : List (ℕ × ℕ)} {c : Call} {hop hop' : Hop} {x : ℕ} {due : ℤ}
      (hps : Busy emulate hop₀ start ps hop) (hbusy : (drained hop c.tick).slotdepth ≠ 0)
      (h : emulate hop c = some (hop', .queued x due)) :
      Busy emulate hop₀ start (ps ++ [(c.len, x)]) hop'
  | dropped {ps : List (ℕ × ℕ)} {c : Call} {hop hop' : Hop} {plr bw : Bool}
      (hps : Busy emulate hop₀ start ps hop)
      (h : emulate hop c = some (hop', .dropped plr bw)) :
      Busy emulate hop₀ start ps hop'

/-- The property holds of every packet of the list and those before it. -/
def EachStep {α : Type*} (P : List α → α → Prop) (ps : List α) : Prop :=
  ∀ qs e, qs ++ [e] <+: ps → P qs e

section

variable {α : Type*} {P : List α → α → Prop}

theorem EachStep.nil : EachStep P [] := by
  intro qs e h
  simp at h

theorem eachStep_concat {ps : List α} {e : α} :
    EachStep P (ps ++ [e]) ↔ EachStep P ps ∧ P ps e := by
  constructor
  · exact fun h => ⟨fun qs f hqs => h qs f (hqs.trans (List.prefix_append _ _)),
      h ps e (List.prefix_refl _)⟩
  · rintro ⟨h, he⟩ qs f hqs
    rcases List.prefix_concat_iff.mp hqs with heq | hqs
    · obtain ⟨rfl, hef⟩ := List.append_inj' heq rfl
      cases hef
      exact he
    · exact h qs f hqs

theorem eachStep_singleton {e : α} : EachStep P [e] ↔ P [] e := by
  rw [← List.nil_append [e], eachStep_concat]
  exact and_iff_right EachStep.nil

theorem EachStep.mono {ps qs : List α} (h : EachStep P ps) (hqs : qs <+: ps) : EachStep P qs :=
  fun rs e hrs => h rs e (hrs.trans hqs)

end

def sentBytes (ps : List (ℕ × ℕ)) : ℕ := (ps.map Prod.fst).sum

@[simp] theorem sentBytes_nil : sentBytes [] = 0 := rfl

theorem sentBytes_cons (e : ℕ × ℕ) (ps : List (ℕ × ℕ)) :
    sentBytes (e :: ps) = e.1 + sentBytes ps := List.sum_cons

theorem sentBytes_singleton (e : ℕ × ℕ) : sentBytes [e] = e.1 := Nat.add_zero e.1

theorem sentBytes_concat (ps : List (ℕ × ℕ)) (e : ℕ × ℕ) :
    sentBytes (ps ++ [e]) = sentBytes ps + e.1 := by
  unfold sentBytes
  rw [List.map_append, List.sum_append]
  exact congrArg _ (Nat.add_zero e.1)

/-- The ticks of a packet, and the fragment it leaves, do not depend on what is queued. -/
structure Tariff (bwDelay : Hop → ℕ → ℕ × Hop) (hop₀ : Hop) (price : ℕ → ℕ → ℕ × ℕ) : Prop where
  ticks : ∀ hop len, hop₀.SameParams hop → (bwDelay hop len).1 = (price hop.fragment len).1
  fragment : ∀ hop len, hop₀.SameParams hop →
    (bwDelay hop len).2.fragment = (price hop.fragment len).2

/-- The exit tick of the last packet and the fragment, by the tariff alone. -/
inductive Charged (start : ℕ) (price : ℕ → ℕ → ℕ × ℕ) : List (ℕ × ℕ) → ℕ → Prop where
  | first (len : ℕ) :
      Charged start price [(len, start + (price 0 len).1)] (price 0 len).2
  | next {ps : List (ℕ × ℕ)} {len₀ x f : ℕ} (h : Charged start price (ps ++ [(len₀, x)]) f)
      (len : ℕ) :
      Charged start price (ps ++ [(len₀, x)] ++ [(len, x + (price f len).1)]) (price f len).2

variable {emulate : Hop → Call → Option (Hop × Outcome)} {hop₀ hop : Hop} {start : ℕ}
  {price : ℕ → ℕ → ℕ × ℕ} {ps : List (ℕ × ℕ)} {q₀ : LinkQueue}

theorem Charged.ne_nil {f : ℕ} (h : Charged start price ps f) : ps ≠ [] := by
  cases h <;> simp

theorem fragment_counted (hop : Hop) (len : ℕ) :
    (hop.counted len).fragment = if hop.slotdepth ≠ 0 then hop.fragment else 0 := rfl

/-- What a busy period keeps: the queue ends with the last packet. -/
structure InPeriod (hop₀ : Hop) (start : ℕ) (price : ℕ → ℕ → ℕ × ℕ) (ps : List (ℕ × ℕ))
    (hop : Hop) : Prop where
  sameParams : hop₀.SameParams hop
  charged : Charged start price ps hop.fragment
  queue : ∃ q, hop.Refines q ∧
    ∀ e tick, ps.getLast? = some e → q ≠ [] → q.tailExit tick = e.2

theorem LinkQueue.tailExit_of_ne_nil {q : LinkQueue} (h : q ≠ []) (tick tick' : ℕ) :
    q.tailExit tick = q.tailExit tick' := by
  obtain ⟨r, e, rfl⟩ := (List.eq_nil_or_concat' q).resolve_left h
  rw [tailExit_concat, tailExit_concat]

theorem LinkQueue.ne_nil_of_purge {q : LinkQueue} {tick : ℕ} (h : q.purge tick ≠ []) : q ≠ [] := by
  rintro rfl
  exact h rfl

/-- An accepted packet starts at the end of the queue it meets. -/
theorem Crosses.queued {bwDelay : Hop → ℕ → ℕ × Hop} {c : Call} {hop' : Hop} {x : ℕ} {due : ℤ}
    {q : LinkQueue} (honly : OnlyFragment bwDelay) (hK : hop.KBps ≠ 0) (hr : hop.Refines q)
    (h : Crosses bwDelay hop c (hop', .queued x due)) :
    hop.SameParams hop' ∧
      x = (q.purge c.tick).tailExit c.tick +
        (bwDelay ((drained hop c.tick).counted c.len) c.len).1 ∧
      hop'.fragment = (bwDelay ((drained hop c.tick).counted c.len) c.len).2.fragment ∧
      hop'.Refines (q.purge c.tick ++ [(x, c.len)]) := by
  have hsame := (h.sameParams honly).1
  cases h with
  | accepted hroom haccept =>
    have hd := hr.updateBwq c.tick
    rw [← drained_of_limited hK] at hd
    have hp := sameParams_drained hop c.tick
    have hroom' := hroom hK
    have hlt : (q.purge c.tick).length < (drained hop c.tick).ringSize := by
      rw [hp.ringSize, ← hd.slotdepth]
      unfold Hop.ringSize
      omega
    obtain ⟨hop₁, x₁, heq, hx, -, hq, hf⟩ := hd.accept honly hlt c.len c.tick
    rw [heq] at haccept
    cases haccept
    rw [Hop.charge_of_limited (hp.KBps ▸ hK)] at hx hf
    exact ⟨hsame, hx, hf, hq⟩

/-- **Busy periods** are charged by the tariff. -/
theorem Busy.inPeriod (bw : Call → Hop → ℕ → ℕ × Hop)
    (hcross : ∀ hop c r, emulate hop c = some r → Crosses (bw c) hop c r)
    (honly : ∀ c, OnlyFragment (bw c)) (htariff : ∀ c, Tariff (bw c) hop₀ price)
    (hK : hop₀.KBps ≠ 0) (hr : hop₀.Refines q₀) (h : Busy emulate hop₀ start ps hop) :
    InPeriod hop₀ start price ps hop := by
  induction h with
  | @first c hop x due htick hidle h =>
    obtain ⟨hsame, hx, hf, hq⟩ := (hcross _ _ _ h).queued (honly c) hK hr
    have hp := (sameParams_drained hop₀ c.tick).trans (Hop.sameParams_counted _ c.len)
    have hzero : ((drained hop₀ c.tick).counted c.len).fragment = 0 := by
      rw [fragment_counted, if_neg (not_not.mpr hidle)]
    have hnil : q₀.purge c.tick = [] := by
      have hd := hr.updateBwq c.tick
      rw [← drained_of_limited hK] at hd
      exact List.length_eq_zero_iff.mp (hd.slotdepth.symm.trans hidle)
    rw [(htariff c).ticks _ _ hp, hzero, hnil, tailExit_nil, htick] at hx
    rw [(htariff c).fragment _ _ hp, hzero] at hf
    rw [hx] at hq ⊢
    refine ⟨hsame, hf ▸ .first c.len, _, hq, fun e tick he _ => ?_⟩
    cases he
    exact tailExit_concat _ _ _
  | @next ps c hop hop' x due hps hbusy h ih =>
    obtain ⟨hsame₀, hcharged, q, hq, hlast⟩ := ih
    have hK' : hop.KBps ≠ 0 := hsame₀.KBps ▸ hK
    obtain ⟨hsame, hx, hf, hq'⟩ := (hcross _ _ _ h).queued (honly c) hK' hq
    have hp := hsame₀.trans
      ((sameParams_drained hop c.tick).trans (Hop.sameParams_counted _ c.len))
    have hfrag : ((drained hop c.tick).counted c.len).fragment = hop.fragment := by
      rw [fragment_counted, if_pos hbusy, fragment_drained]
    have hne : q.purge c.tick ≠ [] := by
      have hd := hq.updateBwq c.tick
      rw [← drained_of_limited hK'] at hd
      exact fun hnil => hbusy (hd.slotdepth.trans (by rw [hnil]; rfl))
    obtain ⟨ps₀, e, rfl⟩ := (List.eq_nil_or_concat' ps).resolve_left hcharged.ne_nil
    obtain ⟨len₀, x₀⟩ := e
    have htail := hlast (len₀, x₀) c.tick (by simp) (ne_nil_of_purge hne)
    rw [(htariff c).ticks _ _ hp, hfrag, tailExit_purge hq.sorted hne, htail] at hx
    rw [(htariff c).fragment _ _ hp, hfrag] at hf
    refine ⟨hsame₀.trans hsame, ?_, _, hq', fun e tick he _ => ?_⟩
    · rw [hf, hx]
      exact hcharged.next c.len
    · rw [List.getLast?_concat] at he
      cases he
      rw [tailExit_concat]
  | @dropped ps c hop hop' plr bw hps h ih =>
    obtain ⟨hsame₀, hcharged, q, hq, hlast⟩ := ih
    have hK' : hop.KBps ≠ 0 := hsame₀.KBps ▸ hK
    have hsame := ((hcross _ _ _ h).sameParams (honly c)).1
    cases hcross _ _ _ h with
    | dropped hkept n =>
      rcases hkept with rfl | rfl
      · exact ⟨hsame₀.trans hsame, hcharged, q, hq.frame _ _ _ _, hlast⟩
      · have hd := hq.updateBwq c.tick
        rw [← drained_of_limited hK'] at hd
        refine ⟨hsame₀.trans hsame, ?_, _, hd.frame _ _ _ _, fun e tick he hne => ?_⟩
        · exact (fragment_drained hop c.tick).symm ▸ hcharged
        · rw [tailExit_of_ne_nil hne tick c.tick, tailExit_purge hq.sorted hne]
          exact hlast e c.tick he (ne_nil_of_purge hne)
    | accepted _ haccept =>
      obtain ⟨-, x, hx⟩ := Hop.sameParams_accept (honly c) haccept
      cases hx

end Modelnet

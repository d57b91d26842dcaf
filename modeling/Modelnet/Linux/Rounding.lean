import Modelnet.Backlog
import Modelnet.HopTable
import Modelnet.Linux.Reconfig
import Modelnet.Linux.Timely
import Mathlib.Algebra.BigOperators.Fin
import Mathlib.Algebra.Module.BigOperators

/-!
# Rounding by chance

Where a link is fast the Linux module rounds a bandwidth delay up with the probability of its
remainder, and the code that carries the remainder in `fragment` never runs: no load and no
crossing sets it (`Hop.Whole`). So a delay depends on the residue of the random value alone, and
over all residues the delays add up to the bytes (`totalDelay_sum`).
-/

namespace Modelnet.Linux

open Modelnet PartialRun Finset

/-! ## No fragment is ever kept -/

/-- No bytes are left over from the last tick, and only hops with a bandwidth limit are fast. -/
structure Whole (hop : Hop) : Prop where
  fragment : hop.fragment = 0
  limited : 50 < hop.bytespertick → hop.KBps ≠ 0

variable {hz len randomVal : ℕ} {hop hop' : Hop}

/-- Every record installs such a hop, also when the load fails. -/
theorem whole_loaded (l : HopLoad) (hz i : ℕ) : Whole (l.loaded hz i) := by
  unfold HopLoad.loaded
  split_ifs
  · refine ⟨rfl, fun hfast hK => ?_⟩
    have hfast' : 50 < bytespertickOf hz (kbpsOf (l.hops i).bandwidth) := hfast
    have hK' : kbpsOf (l.hops i).bandwidth = 0 := hK
    rw [hK'] at hfast'
    simp [bytespertickOf, i32, u32] at hfast'
  · exact ⟨rfl, fun hfast => absurd hfast (by decide)⟩

/-- Without a fragment nothing is taken from it, and nothing is put there. -/
theorem takeFragment_of_whole (h : hop.fragment = 0) (len : ℕ) :
    takeFragment hop len = (len, 0, hop) := by
  unfold takeFragment
  rw [if_neg (by omega), if_neg (not_not.mpr h)]

theorem fragment_bwDelay (h : hop.fragment = 0) (hz randomVal len : ℕ) :
    (bwDelay hz randomVal hop len).2.fragment = 0 := by
  unfold bwDelay
  rw [takeFragment_of_whole h]
  dsimp only
  split_ifs <;> exact h

theorem fragment_charge (h : hop.fragment = 0) (hz randomVal len : ℕ) :
    (hop.charge (bwDelay hz randomVal) len).2.fragment = 0 := by
  have hcounted : (hop.counted len).fragment = 0 := by
    unfold Hop.counted
    dsimp only
    split_ifs
    · exact h
    · rfl
  unfold Hop.charge
  split_ifs
  · exact fragment_bwDelay hcounted hz randomVal len
  · exact hcounted

theorem Whole.of_sameParams (h : Whole hop) (hsame : hop.SameParams hop')
    (hfrag : hop'.fragment = 0) : Whole hop' :=
  ⟨hfrag, fun hfast => hsame.KBps ▸ h.limited (hsame.bytespertick ▸ hfast)⟩

theorem Crossed.whole (h : Whole hop) (hcross : Crossed hz hop hop') : Whole hop' := by
  refine h.of_sameParams hcross.sameParams ?_
  obtain ⟨c, out, hcross⟩ := hcross
  cases crosses_emulateHop (c := c) hcross with
  | dropped hkept n plr bw =>
    rcases hkept with rfl | rfl
    · exact h.fragment
    · exact (fragment_drained hop c.tick).trans h.fragment
  | accepted hroom haccept =>
    unfold Hop.accept at haccept
    split_ifs at haccept
    cases haccept
    exact fragment_charge ((fragment_drained hop c.tick).trans h.fragment) hz c.randomVal c.len

/-- **Every hop** of reachable tables is one. -/
theorem whole_of_run {es : List TableEvent} {t : PathTab}
    (hrun : run (tableStep hz) PathTab.empty es = some t) : t.AllHops Whole :=
  (stepsHops hz).allHops (fun l _ i _ => whole_loaded l hz i)
    (fun _ _ hab ha => Crossed.whole ha hab) hrun

/-! ## The tables of the running module -/

/-- A step of the module that crosses at most one hop is an event of the tables. -/
theorem exists_events_of_tabStep {t t' : PathTab} (h : TabStep hz t t') :
    ∃ es, run (tableStep hz) t es = some t' := by
  cases h with
  | same => exact ⟨[], rfl⟩
  | @crossed ptr hop hop' out len curtick randomVal hhop hemulate =>
    refine ⟨[.packet ptr ⟨curtick, len, randomVal⟩], ?_⟩
    rw [run_cons, tableStep, hhop, Option.bind_some, hemulate]
    rfl

namespace Kernel

variable {k k' : Kernel}

theorem tabStep_emulatePath {p : PktId} {r : Kernel × ℤ} (h : k.emulatePath hz p = some r) :
    TabStep hz k.tab r.1.tab := by
  obtain ⟨pkt, -, h⟩ := Option.bind_eq_some_iff.mp h
  obtain ⟨s, -, h⟩ := Option.bind_eq_some_iff.mp h
  obtain ⟨ip, -, h⟩ := Option.bind_eq_some_iff.mp h
  dsimp only at h
  split at h
  · cases h
    exact .same
  · obtain ⟨cell, -, h⟩ := Option.bind_eq_some_iff.mp h
    cases cell with
    | none =>
      cases h
      exact .same
    | some arr =>
      obtain ⟨k₁, hk₁, rfl⟩ := Option.map_eq_some_iff.mp h
      have hstep := tabStep_emulateNexthop hk₁
      exact hstep

theorem tabStep_filterIpinput {s : SkbId} {kmallocOk : Bool} {okfn : Okfn}
    {r : Kernel × Verdict} (h : k.filterIpinput hz s kmallocOk okfn = some r) :
    TabStep hz k.tab r.1.tab := by
  obtain ⟨iph, -, h⟩ := Option.bind_eq_some_iff.mp h
  split_ifs at h
  · obtain ⟨r₁, hr₁, h⟩ := Option.bind_eq_some_iff.mp h
    have hstep := tabStep_emulatePath hr₁
    split_ifs at h
    · obtain ⟨pkt, -, h⟩ := Option.bind_eq_some_iff.mp h
      obtain ⟨k₂, hk₂, rfl⟩ := Option.map_eq_some_iff.mp h
      have htab := tab_mnFreePkt hk₂
      exact htab ▸ hstep
    · cases h
      exact hstep
  · cases h
    exact .same
  · cases h
    exact .same

/-- **Activities as events.** What happens to the tables while the module runs is a run of their
own. -/
theorem exists_events_of_activity {a : Activity} (h : k.activity hz a = some k') :
    ∃ es, run (tableStep hz) k.tab es = some k'.tab := by
  cases a with
  | input skb kmallocOk okfn =>
    obtain ⟨r, hr, rfl⟩ := Option.map_eq_some_iff.mp h
    have hfilter := tabStep_filterIpinput hr
    exact exists_events_of_tabStep hfilter
  | clock turn =>
    rcases clockTurn_cases h with rfl | ⟨-, -, rfl⟩ | ⟨-, p, l, -, hnext⟩
    · exact ⟨[], rfl⟩
    · exact ⟨[], rfl⟩
    · have hserve := tabStep_emulateNexthop hnext
      exact exists_events_of_tabStep hserve
  | write w =>
    cases h
    exact ⟨[.write w], rfl⟩

theorem exists_events_of_run {as : List Activity} {jiffies : ℕ} {random : ℕ → ℕ}
    (h : run (activity hz) (load jiffies random PathTab.empty) as = some k) :
    ∃ es, run (tableStep hz) PathTab.empty es = some k.tab := by
  refine run_invariant (I := fun k => ∃ es, run (tableStep hz) PathTab.empty es = some k.tab)
    (fun k a k' hk hstep => ?_) h ⟨[], rfl⟩
  obtain ⟨es, hes⟩ := hk
  obtain ⟨fs, hfs⟩ := exists_events_of_activity hstep
  exact ⟨es ++ fs, by rw [run_append, hes, Option.bind_some, hfs]⟩

end Kernel

/-! ## The delay of a packet -/

/-- The ticks a packet is charged. -/
def delay (hz : ℕ) (hop : Hop) (randomVal len : ℕ) : ℕ := (hop.charge (bwDelay hz randomVal) len).1

/-- The ticks all packets are charged, each entering the queue that the one before it left. -/
def totalDelay (hz : ℕ) : Hop → List Call → ℕ
  | _, [] => 0
  | hop, c :: cs =>
    let hop := drained hop c.tick
    let bw := hop.charge (bwDelay hz c.randomVal) c.len
    bw.1 + totalDelay hz (bw.2.enqueue hop.newslot c.len (hop.tailExit c.tick + bw.1)) cs

/-- `len / bytespertick`, rounded up when the residue of the random value lies below that of the
length. -/
def rounded (b randomVal len : ℕ) : ℕ := len / b + if randomVal % b < len % b then 1 else 0

theorem delay_eq (h : Whole hop) (hfast : 50 < hop.bytespertick) (hz randomVal len : ℕ) :
    delay hz hop randomVal len = rounded hop.bytespertick randomVal len := by
  have hfrag : (hop.counted len).fragment = 0 := by
    unfold Hop.counted
    dsimp only
    split_ifs
    · exact h.fragment
    · rfl
  have hb : (hop.counted len).bytespertick = hop.bytespertick := rfl
  unfold delay rounded
  rw [Hop.charge_of_limited (h.limited hfast)]
  unfold bwDelay
  rw [takeFragment_of_whole hfrag]
  dsimp only
  rw [hb]
  by_cases hlen : len = 0
  · subst hlen
    rw [if_neg fun hc => hc.1 rfl]
    simp [slowDelay, u32]
  · rw [if_pos ⟨hlen, hfast⟩]
    dsimp only
    split_ifs <;> rfl

theorem whole_enqueue (h : Whole hop) (hz randomVal len newslot tailexit : ℕ) :
    Whole ((hop.charge (bwDelay hz randomVal) len).2.enqueue newslot len tailexit) :=
  h.of_sameParams ((Hop.sameParams_charge (onlyFragment_bwDelay hz randomVal) hop len).trans
    (Hop.sameParams_enqueue _ _ _ _)) (fragment_charge h.fragment hz randomVal len)

/-- The packets are charged independently of each other. -/
theorem totalDelay_eq (h : Whole hop) (hfast : 50 < hop.bytespertick) (cs : List Call) :
    totalDelay hz hop cs = (cs.map fun c => rounded hop.bytespertick c.randomVal c.len).sum := by
  induction cs generalizing hop with
  | nil => rfl
  | cons c cs ih =>
    have hsame := sameParams_drained hop c.tick
    have hd : Whole (drained hop c.tick) :=
      h.of_sameParams hsame ((fragment_drained hop c.tick).trans h.fragment)
    have hdelay := delay_eq hd (hsame.bytespertick ▸ hfast) hz c.randomVal c.len
    unfold delay at hdelay
    unfold totalDelay
    dsimp only
    rw [List.map_cons, List.sum_cons, hdelay, hsame.bytespertick]
    have hnext := whole_enqueue hd hz c.randomVal c.len (drained hop c.tick).newslot
      ((drained hop c.tick).tailExit c.tick + rounded hop.bytespertick c.randomVal c.len)
    have hsame' := hsame.trans ((Hop.sameParams_charge (onlyFragment_bwDelay hz c.randomVal)
      (drained hop c.tick) c.len).trans (Hop.sameParams_enqueue _ (drained hop c.tick).newslot c.len
        ((drained hop c.tick).tailExit c.tick + rounded hop.bytespertick c.randomVal c.len)))
    rw [ih hnext (hsame'.bytespertick ▸ hfast), hsame'.bytespertick]

/-! ## Over all residues -/

theorem sum_rounded {b : ℕ} (hb : 0 < b) (len : ℕ) : ∑ r ∈ range b, rounded b r len = len := by
  have hround : ∀ r ∈ range b, rounded b r len = len / b + if r < len % b then 1 else 0 := by
    intro r hr
    unfold rounded
    rw [Nat.mod_eq_of_lt (mem_range.mp hr)]
  have hcount : ∑ r ∈ range b, (if r < len % b then 1 else 0) = len % b := by
    have hfilter : (range b).filter (· < len % b) = range (len % b) := by
      ext r
      have := Nat.mod_lt len hb
      simp only [mem_filter, mem_range]
      omega
    rw [← card_filter, hfilter, card_range]
  rw [sum_congr rfl hround, sum_add_distrib, sum_const, card_range, smul_eq_mul, hcount,
    Nat.div_add_mod]

/-- Each of `n` choices among `b` is made in one place: summed over all of them, a value that
depends on one choice occurs once for every way to make the others. -/
theorem sum_choices {n b : ℕ} (f : Fin n → Fin b → ℕ) :
    (∑ rs : Fin n → Fin b, ∑ i, f i (rs i)) * b = (∑ i, ∑ r, f i r) * b ^ n := by
  rw [sum_comm, sum_mul, sum_mul]
  refine sum_congr rfl fun i _ => ?_
  have hpi := Fintype.sum_piFinset_apply (f i) univ i
  rw [Fintype.piFinset_univ, card_fin, Fintype.card_fin, smul_eq_mul] at hpi
  have hn : n - 1 + 1 = n := Nat.sub_add_cancel (Nat.pos_of_ne_zero fun h => by
    subst h
    exact i.elim0)
  rw [hpi, mul_right_comm, ← pow_succ, hn, mul_comm]

/-- Packets with their arrivals and lengths, under a choice of residues. -/
def calls {n b : ℕ} (ps : Fin n → ℕ × ℕ) (rs : Fin n → Fin b) : List Call :=
  List.ofFn fun i => ⟨(ps i).1, (ps i).2, rs i⟩

theorem totalDelay_sum (h : Whole hop) (hfast : 50 < hop.bytespertick) {n : ℕ}
    (ps : Fin n → ℕ × ℕ) :
    (∑ rs : Fin n → Fin hop.bytespertick, totalDelay hz hop (calls ps rs)) * hop.bytespertick =
      (∑ i, (ps i).2) * hop.bytespertick ^ n := by
  have htotal (rs : Fin n → Fin hop.bytespertick) : totalDelay hz hop (calls ps rs) =
      ∑ i, rounded hop.bytespertick (rs i) (ps i).2 := by
    rw [totalDelay_eq h hfast, calls, List.map_ofFn, List.sum_ofFn]
    rfl
  have hone (i : Fin n) :
      ∑ r : Fin hop.bytespertick, rounded hop.bytespertick r (ps i).2 = (ps i).2 := by
    rw [Fin.sum_univ_eq_sum_range fun r => rounded hop.bytespertick r (ps i).2]
    exact sum_rounded (by omega) _
  have hchoices := sum_choices fun (i : Fin n) (r : Fin hop.bytespertick) =>
    rounded hop.bytespertick r (ps i).2
  rw [sum_congr rfl fun rs _ => htotal rs, hchoices, sum_congr rfl fun i _ => hone i]

/-- **Exact in expectation.** In every reachable state of the tables no hop keeps a fragment. On a
fast hop the delay of a packet is the quotient of its length, or one more when there is a
remainder, and depends on the residue of the random value only; over all residues the delays add
up to the length, and over all choices of residues the total delay of any sequence of packets to
its bytes times the number of choices, divided by `bytespertick`. -/
theorem rounding_exact (hz : ℕ) {es : List TableEvent} {t : PathTab}
    (hrun : run (tableStep hz) PathTab.empty es = some t) {ptr : HopPtr} {hop : Hop}
    (hhop : t.hops ptr = some hop) :
    hop.fragment = 0 ∧ (50 < hop.bytespertick →
      (∀ randomVal len,
        (delay hz hop randomVal len = len / hop.bytespertick ∨
          delay hz hop randomVal len = len / hop.bytespertick + 1 ∧ len % hop.bytespertick ≠ 0) ∧
        delay hz hop randomVal len = delay hz hop (randomVal % hop.bytespertick) len) ∧
      (∀ len, ∑ r ∈ range hop.bytespertick, delay hz hop r len = len) ∧
      (∀ (n : ℕ) (ps : Fin n → ℕ × ℕ),
        (∑ rs : Fin n → Fin hop.bytespertick, totalDelay hz hop (calls ps rs)) *
            hop.bytespertick = (∑ i, (ps i).2) * hop.bytespertick ^ n)) := by
  have hwhole := whole_of_run hrun ptr hop hhop
  refine ⟨hwhole.fragment, fun hfast => ⟨fun randomVal len => ?_, fun len => ?_,
    fun n ps => totalDelay_sum hwhole hfast ps⟩⟩
  · rw [delay_eq hwhole hfast, delay_eq hwhole hfast]
    unfold rounded
    rw [Nat.mod_mod]
    split_ifs with hround
    · exact ⟨Or.inr ⟨rfl, by omega⟩, rfl⟩
    · exact ⟨Or.inl rfl, rfl⟩
  · rw [sum_congr rfl fun r _ => delay_eq hwhole hfast hz r len]
    exact sum_rounded (by omega) len

/-- A link of 8 Mbit/s at 100 ticks a second, loaded into an empty table. -/
def fastLink : TableEvent :=
  .write (.hoptable ⟨true, 0, 12, true, 1, true, fun _ => ⟨8000, 10, 0, 10, 0, 0⟩, true, true,
    fun _ => true, fun _ => true⟩)

theorem rounding_exact_fastLink :
    ∃ t hop, run (tableStep 100) PathTab.empty [fastLink] = some t ∧ t.hops ⟨1, 0⟩ = some hop ∧
      hop.bytespertick = 10000 ∧ ∑ r ∈ range hop.bytespertick, delay 100 hop r 1500 = 1500 := by
  have hhop : ((run (tableStep 100) PathTab.empty [fastLink]).bind fun t => t.hops ⟨1, 0⟩).map
      (fun hop => hop.bytespertick) = some 10000 := by decide +kernel
  obtain ⟨hop, h, hb⟩ := Option.map_eq_some_iff.mp hhop
  obtain ⟨t, ht, h⟩ := Option.bind_eq_some_iff.mp h
  exact ⟨t, hop, ht, h, hb, ((rounding_exact 100 ht h).2 (by rw [hb]; decide)).2.1 1500⟩

end Modelnet.Linux

import Modelnet.Linux.HopStats

/-!
# The counters agree with the log

In every state that arrivals, turns of the clock and writes to the tables reach, in any order, the
counters of each hop of the installed table are those of the crossings that the log has for it
(`Counted`). A hop table is allocated in a block of its own, so the log entries for earlier tables
do not speak of its hops.
-/

namespace Modelnet.Linux

open Modelnet

/-- The counters of a hop for the packets it has carried and lost. -/
structure CountersAgree (hop : Hop) (carried lost : List PktId) (len : PktId → ℕ) : Prop where
  pkts : hop.pkts = carried.length
  bytes : hop.bytes = (carried.map len).sum
  qdrops : hop.qdrops ≤ lost.length
  /-- Without a loss rate every packet that is lost has met a full queue. -/
  lossless : hop.plr ≤ 0 → hop.qdrops = lost.length
  /-- Without a bandwidth limit no packet has. -/
  unlimited : hop.KBps = 0 → hop.qdrops = 0

namespace CountersAgree

variable {hop hop' : Hop} {carried lost : List PktId} {len len' : PktId → ℕ} {p : PktId} {n : ℕ}

theorem congr (h : CountersAgree hop carried lost len) (hlen : ∀ p ∈ carried, len' p = len p) :
    CountersAgree hop carried lost len' :=
  { h with bytes := by rw [h.bytes, List.map_congr_left hlen] }

theorem unused (hpkts : hop.pkts = 0) (hbytes : hop.bytes = 0) (hqdrops : hop.qdrops = 0)
    (len : PktId → ℕ) : CountersAgree hop [] [] len :=
  ⟨hpkts, hbytes, hqdrops.le, fun _ => hqdrops, fun _ => hqdrops⟩

theorem queued (h : CountersAgree hop carried lost len) (hsame : hop.SameParams hop') {x : ℕ}
    {due : ℤ} (hcount : CountsCrossing hop hop' (len p) (.queued x due)) :
    CountersAgree hop' (carried ++ [p]) lost len := by
  cases hcount with
  | queued hpkts hbytes hqdrops =>
    constructor
    case pkts => rw [hpkts, h.pkts, List.length_append]; rfl
    case bytes => rw [hbytes, h.bytes, List.map_append, List.sum_append]; rfl
    case qdrops => exact hqdrops.trans_le h.qdrops
    case lossless => exact fun hplr => hqdrops.trans (h.lossless (hsame.plr ▸ hplr))
    case unlimited => exact fun hK => hqdrops.trans (h.unlimited (hsame.KBps ▸ hK))

theorem dropped (h : CountersAgree hop carried lost len) (hsame : hop.SameParams hop')
    {plr bw : Bool} (hcount : CountsCrossing hop hop' n (.dropped plr bw)) :
    CountersAgree hop' carried (lost ++ [p]) len := by
  cases hcount with
  | dropped hpkts hbytes hqdrops hdrop hplr hbw =>
    have hle : bw.toNat ≤ 1 := Bool.toNat_le bw
    constructor
    case pkts => exact hpkts.trans h.pkts
    case bytes => exact hbytes.trans h.bytes
    case qdrops =>
      have hold := h.qdrops
      rw [hqdrops, List.length_append, List.length_singleton]
      omega
    case lossless =>
      intro hpos
      rw [hsame.plr] at hpos
      have hnot : plr = false := Bool.eq_false_iff.mpr fun ht => absurd (hplr ht) (not_lt.mpr hpos)
      rw [hnot, Bool.false_or] at hdrop
      rw [hqdrops, hdrop, h.lossless hpos, List.length_append]
      rfl
    case unlimited =>
      intro hK
      rw [hsame.KBps] at hK
      have hnot : bw = false := Bool.eq_false_iff.mpr fun ht => hbw ht hK
      rw [hqdrops, hnot, h.unlimited hK]
      rfl

end CountersAgree

/-! ## The lists of a hop -/

section

variable {log seen : List Obs} {h h' : HopPtr} {p : PktId}

theorem carriedBy_append (hseen : ∀ o, seen.head? = some o → ¬ o.Completes) :
    carriedBy h (log ++ seen) = carriedBy h log ++ carriedBy h seen := by
  unfold carriedBy
  rw [crossings_append hseen, List.filter_append, List.map_append]

theorem lostAt_append (hseen : ∀ o, seen.head? = some o → ¬ o.Completes) :
    lostAt h (log ++ seen) = lostAt h log ++ lostAt h seen := by
  unfold lostAt
  rw [crossings_append hseen, List.filter_append, List.map_append]

theorem carriedBy_of_crossings_nil (hseen : crossings seen = []) : carriedBy h seen = [] := by
  unfold carriedBy
  rw [hseen]
  rfl

theorem lostAt_of_crossings_nil (hseen : crossings seen = []) : lostAt h seen = [] := by
  unfold lostAt
  rw [hseen]
  rfl

theorem carriedBy_singleton {c : Crossing} (hseen : crossings seen = [c]) :
    carriedBy h seen = (if c.hop = h ∧ c.carried = true then [c.pkt] else []) ∧
      lostAt h seen = (if c.hop = h ∧ c.carried = false then [c.pkt] else []) := by
  unfold carriedBy lostAt
  rw [hseen]
  constructor
  · split_ifs with hc
    · rw [List.filter_cons_of_pos (by simpa using hc)]
      rfl
    · rw [List.filter_cons_of_neg (by simpa using hc)]
      rfl
  · split_ifs with hc
    · rw [List.filter_cons_of_pos (by simpa using hc)]
      rfl
    · rw [List.filter_cons_of_neg (by simpa using hc)]
      rfl

end

namespace Kernel

/-! ## The invariant -/

theorem loaded_hops (hz : ℕ) {t : PathTab} (ht : t.Tidy) (l : HopLoad) :
    t.nextBlock ≤ (t.load hz l).1.nextBlock ∧ ∀ ptr hop, (t.load hz l).1.hops ptr = some hop →
      t.nextBlock ≤ ptr.tab ∧ hop.pkts = 0 ∧ hop.bytes = 0 ∧ hop.qdrops = 0 := by
  by_cases hok : l.tableOk = true
  · obtain ⟨hholds, hnext, -⟩ := ht.load_of_tableOk hz hok
    refine ⟨by omega, fun ptr hop hhop => ?_⟩
    obtain ⟨i, -, rfl, rfl⟩ := (hholds.hops ptr hop).mp hhop
    unfold HopLoad.loaded
    split_ifs
    · exact ⟨le_refl _, rfl, rfl, rfl⟩
    · exact ⟨le_refl _, rfl, rfl, rfl⟩
  · rw [t.load_of_not_tableOk hok]
    obtain ⟨hgone, -, -, hnext⟩ := ht.uninitPaths
    refine ⟨hnext.ge, fun ptr hop hhop => ?_⟩
    rw [hgone] at hhop
    cases hhop

/-- The counters are those of the log; `lens` are the lengths of the buffers that have come in. -/
structure Counted (lens : List ℕ) (k : Kernel) : Prop where
  populated : Populated k.tab
  tidy : k.tab.Tidy
  arrived : lens.length = k.nextSkb
  buffer : ∀ p s, bufferOf p k.log = some s → p < k.nextPkt ∧ s < k.nextSkb
  live : ∀ p pkt, k.pkts p = some pkt →
    (bufferOf p k.log).isSome ∧ lenOf lens k.log p = pkt.info.len
  crossed : ∀ c ∈ crossings k.log, (bufferOf c.pkt k.log).isSome ∧ c.hop.tab < k.tab.nextBlock
  agree : ∀ h hop, k.tab.hops h = some hop →
    CountersAgree hop (carriedBy h k.log) (lostAt h k.log) (lenOf lens k.log)

variable {hz : ℕ} {lens : List ℕ} {k k' : Kernel} {p : PktId} {pkt : Packet} {s : SkbId}

theorem counted_load (jiffies : ℕ) (random : ℕ → ℕ) :
    Counted [] (load jiffies random PathTab.empty) where
  populated := Populated.empty
  tidy := PathTab.tidy_empty
  arrived := rfl
  buffer _ _ h := by cases h
  live _ _ h := by cases h
  crossed _ h := absurd h List.not_mem_nil
  agree _ _ h := by cases h

namespace Counted

/-- The length of a packet that has been allocated is known for good. -/
theorem lenOf_append (h : Counted lens k) (more : List ℕ) {seen : List Obs}
    (hp : (bufferOf p k.log).isSome)
    (hseen : ∀ o, seen.head? = some o → ¬ o.Completes) :
    lenOf (lens ++ more) (k.log ++ seen) p = lenOf lens k.log p := by
  obtain ⟨s, hs⟩ := Option.isSome_iff_exists.mp hp
  have hlt : s < lens.length := h.arrived ▸ (h.buffer p s hs).2
  unfold lenOf
  rw [bufferOf_append hseen, hs, Option.some_or, Option.bind_some, Option.bind_some,
    List.getElem?_append_left hlt]

theorem isSome_of_mem_carriedBy (h : Counted lens k) {ptr : HopPtr}
    (hp : p ∈ carriedBy ptr k.log) : (bufferOf p k.log).isSome := by
  obtain ⟨c, hc, rfl⟩ := List.mem_map.mp hp
  exact (h.crossed c (List.mem_filter.mp hc).1).1

/-- **Step lemma.** What a step may do: buffers and structs come in, structs disappear, hops are
crossed, and the hops of the table count the crossings. -/
theorem step (h : Counted lens k) (more : List ℕ) (seen : List Obs) (hlog : k'.log = k.log ++ seen)
    (hseen : ∀ o, seen.head? = some o → ¬ o.Completes)
    (hpopulated : Populated k'.tab) (htidy : k'.tab.Tidy)
    (hblock : k.tab.nextBlock ≤ k'.tab.nextBlock)
    (hskb : k'.nextSkb = k.nextSkb + more.length) (hpkt : k.nextPkt ≤ k'.nextPkt)
    (hbuffer : ∀ p s, bufferOf p seen = some s → p < k'.nextPkt ∧ s < k'.nextSkb)
    (hlive : ∀ p pkt, k'.pkts p = some pkt →
      (∃ pkt₀, k.pkts p = some pkt₀ ∧ pkt₀.info.len = pkt.info.len) ∨
        bufferOf p k.log = none ∧ ∃ s, bufferOf p seen = some s ∧
          (lens ++ more)[s]? = some pkt.info.len)
    (hcrossed : ∀ c ∈ crossings seen, (bufferOf c.pkt k.log).isSome ∧ c.hop.tab < k.tab.nextBlock)
    (hagree : ∀ ptr hop, k'.tab.hops ptr = some hop → CountersAgree hop
      (carriedBy ptr k.log ++ carriedBy ptr seen) (lostAt ptr k.log ++ lostAt ptr seen)
      (lenOf lens k.log)) : Counted (lens ++ more) k' := by
  have hsome : ∀ q, (bufferOf q k.log).isSome → (bufferOf q k'.log).isSome := by
    intro q hq
    rw [hlog, bufferOf_append hseen, Option.isSome_or, hq, Bool.true_or]
  constructor
  case populated => exact hpopulated
  case tidy => exact htidy
  case arrived => rw [List.length_append, h.arrived, hskb]
  case buffer =>
    intro q s hq
    rw [hlog, bufferOf_append hseen] at hq
    rcases Option.or_eq_some_iff.mp hq with hq | ⟨-, hq⟩
    · obtain ⟨hlt, hlt'⟩ := h.buffer q s hq
      exact ⟨hlt.trans_le hpkt, hlt'.trans_le (hskb ▸ Nat.le_add_right _ _)⟩
    · exact hbuffer q s hq
  case live =>
    intro q pkt hq
    rcases hlive q pkt hq with ⟨pkt₀, hq₀, hlen⟩ | ⟨hnone, s, hs, hlen⟩
    · obtain ⟨hbuf, hlen₀⟩ := h.live q pkt₀ hq₀
      rw [hlog, h.lenOf_append more hbuf hseen, hlen₀]
      exact ⟨hlog ▸ hsome q hbuf, hlen⟩
    · unfold lenOf
      rw [hlog, bufferOf_append hseen, hnone, hs, Option.none_or, Option.bind_some, hlen]
      exact ⟨rfl, rfl⟩
  case crossed =>
    intro c hc
    rw [hlog, crossings_append hseen] at hc
    rcases List.mem_append.mp hc with hc | hc
    · exact ⟨hsome _ (h.crossed c hc).1, (h.crossed c hc).2.trans_le hblock⟩
    · exact ⟨hsome _ (hcrossed c hc).1, (hcrossed c hc).2.trans_le hblock⟩
  case agree =>
    intro ptr hop hhop
    rw [hlog, carriedBy_append hseen, lostAt_append hseen]
    refine (hagree ptr hop hhop).congr fun q hq => h.lenOf_append more ?_ hseen
    rcases List.mem_append.mp hq with hq | hq
    · exact h.isSome_of_mem_carriedBy hq
    · obtain ⟨c, hc, rfl⟩ := List.mem_map.mp hq
      exact (hcrossed c (List.mem_filter.mp hc).1).1

/-- A step that crosses no hop and takes nothing in. -/
theorem quiet (h : Counted lens k) (seen : List Obs) (hlog : k'.log = k.log ++ seen)
    (hseen : ∀ o, seen.head? = some o → ¬ o.Completes) (hcross : crossings seen = [])
    (hbuf : ∀ q, bufferOf q seen = none) (htab : k'.tab = k.tab) (hskb : k'.nextSkb = k.nextSkb)
    (hpkt : k'.nextPkt = k.nextPkt)
    (hpkts : ∀ q pkt, k'.pkts q = some pkt → k.pkts q = some pkt) : Counted lens k' := by
  have hstep := h.step [] seen hlog hseen (htab ▸ h.populated) (htab ▸ h.tidy) (by rw [htab])
    hskb hpkt.ge (fun q s hq => nomatch (hbuf q).symm.trans hq)
    (fun q pkt hq => Or.inl ⟨pkt, hpkts q pkt hq, rfl⟩)
    (fun c hc => absurd (hcross ▸ hc) List.not_mem_nil) fun ptr hop hhop => by
      rw [carriedBy_of_crossings_nil hcross, lostAt_of_crossings_nil hcross, List.append_nil,
        List.append_nil]
      exact h.agree ptr hop (htab ▸ hhop)
  rwa [List.append_nil] at hstep

/-- A hop is crossed: its counters follow, and those of the others stay. -/
theorem cross (h : Counted lens k) (seen : List Obs) (hp : k.pkts p = some pkt) {ptr : HopPtr}
    {hop hop' : Hop} {out : Outcome} (hhop : k.tab.hops ptr = some hop) {tick randomVal : ℕ}
    (hemulate : Linux.emulateHop hz hop pkt.info.len tick randomVal = some (hop', out))
    (hlog : k'.log = k.log ++ seen) (hseen : ∀ o, seen.head? = some o → ¬ o.Completes)
    (hcross : crossings seen = [⟨p, ptr, out matches .queued _ _⟩])
    (hbuf : ∀ q, bufferOf q seen = none) (htab : k'.tab = k.tab.setHop ptr hop')
    (hskb : k'.nextSkb = k.nextSkb) (hpkt : k'.nextPkt = k.nextPkt)
    (hpkts : ∀ q pkt', k'.pkts q = some pkt' →
      ∃ pkt₀, k.pkts q = some pkt₀ ∧ pkt₀.info.len = pkt'.info.len) : Counted lens k' := by
  obtain ⟨hbufp, hlen⟩ := h.live p pkt hp
  have hsame := (sameParams_emulateHop hemulate).1
  have hcount := countsCrossing_emulateHop hemulate
  have hstep := h.step [] seen hlog hseen (htab ▸ h.populated.setHop hhop hop')
    (htab ▸ PathTab.HopsStep.tidy (R := Hop.SameParams) (.set hhop hsame) h.tidy)
    (by rw [htab]; exact Nat.le_refl _) hskb hpkt.ge
    (fun q s hq => nomatch (hbuf q).symm.trans hq) (fun q pkt' hq => Or.inl (hpkts q pkt' hq))
    (fun c hc => by
      rw [hcross] at hc
      rw [List.mem_singleton.mp hc]
      exact ⟨hbufp, h.tidy.hoptable _ (h.tidy.hops ptr hop hhop)⟩)
    fun q hop₁ h₁ => ?_
  · rwa [List.append_nil] at hstep
  obtain ⟨hcarried, hlost⟩ := carriedBy_singleton (h := q) hcross
  rw [hcarried, hlost]
  rw [htab] at h₁
  by_cases hq : q = ptr
  · subst hq
    have hself : (k.tab.setHop q hop').hops q = some hop' := Function.update_self _ _ _
    cases Option.some.inj (hself.symm.trans h₁)
    have hold := h.agree q hop hhop
    cases out with
    | queued x due =>
      rw [if_pos ⟨rfl, rfl⟩, if_neg (by simp), List.append_nil]
      exact hold.queued hsame (hlen ▸ hcount)
    | dropped plr bw =>
      rw [if_neg (by simp), if_pos ⟨rfl, rfl⟩, List.append_nil]
      exact hold.dropped hsame hcount
  · rw [if_neg fun hc => hq hc.1.symm, if_neg fun hc => hq hc.1.symm, List.append_nil,
      List.append_nil]
    exact h.agree q hop₁ ((Function.update_of_ne hq _ _).symm.trans h₁)

theorem nextHop (h : Counted lens k) (hp : k.pkts p = some pkt)
    (hnext : NextHop hz k p pkt s k') : Counted lens k' := by
  have hgone : ∀ (k₀ : Kernel) seen q pkt', (k₀.consume p s seen).pkts q = some pkt' →
      k₀.pkts q = some pkt' := by
    intro k₀ seen q pkt' hq
    by_cases hqp : q = p
    · subst hqp
      have hself : (k₀.consume q s seen).pkts q = none := Function.update_self _ _ _
      cases hself.symm.trans hq
    · exact (Function.update_of_ne hqp _ _).symm.trans hq
  cases hnext with
  | forward =>
    exact h.quiet _ rfl (by simp [Obs.Completes]) rfl (fun _ => rfl) rfl rfl rfl (hgone k _)
  | remote =>
    exact h.quiet _ rfl (by simp [Obs.Completes]) rfl (fun _ => rfl) rfl rfl rfl (hgone k _)
  | @dropped path ptr hop hop' plr bw hpath hread hhop hemulator hemulate =>
    exact h.cross [.cross p ptr, .kfreeSkb s, .kfree p] hp hhop hemulate
      (List.append_assoc _ _ _) (by simp [Obs.Completes]) rfl (fun _ => rfl) rfl rfl rfl
      fun q pkt' hq => ⟨pkt', hgone (k.crossHop p ptr hop') _ q pkt' hq, rfl⟩
  | @queued path ptr hop hop' x due hpath hread hhop hemulator hemulate =>
    refine h.cross [.cross p ptr, .insert p due k.calendarTick] hp hhop hemulate
      (List.append_assoc _ _ _) (by simp [Obs.Completes]) rfl (fun _ => rfl) rfl rfl rfl
      fun q pkt' hq => ?_
    by_cases hqp : q = p
    · subst hqp
      have hself : (((k.crossHop q ptr hop').setPkt q (pkt.advance path)).listAddTail q due).pkts q
          = some (pkt.advance path) := Function.update_self _ _ _
      cases Option.some.inj (hself.symm.trans hq)
      exact ⟨pkt, hp, rfl⟩
    · exact ⟨pkt', (Function.update_of_ne hqp _ _).symm.trans hq, rfl⟩

/-- A buffer comes in, with a packet struct for it or not. -/
theorem arrive (h : Counted lens k) (n : ℕ) (seen : List Obs) (hlog : k'.log = k.log ++ seen)
    (hseen : ∀ o, seen.head? = some o → ¬ o.Completes) (hcross : crossings seen = [])
    (hbuf : ∀ q s, bufferOf q seen = some s → q = k.nextPkt ∧ q < k'.nextPkt ∧ s = k.nextSkb)
    (htab : k'.tab = k.tab) (hskb : k'.nextSkb = k.nextSkb + 1) (hpkt : k.nextPkt ≤ k'.nextPkt)
    (hpkts : ∀ q pkt', k'.pkts q = some pkt' → k.pkts q = some pkt' ∨
      q = k.nextPkt ∧ bufferOf q seen = some k.nextSkb ∧ pkt'.info.len = n) :
    Counted (lens ++ [n]) k' := by
  refine h.step [n] seen hlog hseen (htab ▸ h.populated) (htab ▸ h.tidy) (by rw [htab]) hskb hpkt
    (fun q s hq => ?_) (fun q pkt' hq => ?_) (fun c hc => absurd (hcross ▸ hc) List.not_mem_nil)
    fun ptr hop hhop => ?_
  · obtain ⟨-, hlt, hs⟩ := hbuf q s hq
    exact ⟨hlt, by rw [hs, hskb]; exact Nat.lt_succ_self _⟩
  · rcases hpkts q pkt' hq with hold | ⟨rfl, hnew, hlen⟩
    · exact Or.inl ⟨pkt', hold, rfl⟩
    · refine Or.inr ⟨?_, _, hnew, ?_⟩
      · refine Option.eq_none_iff_forall_ne_some.mpr fun s hs => ?_
        exact Nat.lt_irrefl _ (h.buffer _ s hs).1
      · rw [← h.arrived, List.getElem?_concat_length, hlen]
  · rw [carriedBy_of_crossings_nil hcross, lostAt_of_crossings_nil hcross, List.append_nil,
      List.append_nil]
    exact h.agree ptr hop (htab ▸ hhop)

theorem bufferOf_start (q : PktId) (s : SkbId) (p : PktId) (seen : List Obs)
    (hseen : bufferOf q seen = none) :
    bufferOf q (.input s :: .kmalloc p :: seen) = if q = p then some s else none := by
  have hrest : bufferOf q (.kmalloc p :: seen) = none := hseen
  rw [bufferOf, hrest]
  refine if_congr ?_ rfl rfl
  rw [List.head?_cons, Option.some.injEq, Obs.kmalloc.injEq]
  exact eq_comm

theorem start (h : Counted lens k) (skb : SkBuff) (okfn : Okfn) (arr : ℕ) :
    Counted (lens ++ [skb.len]) (k.start skb okfn arr) := by
  have hbuf := fun q => bufferOf_start q k.nextSkb k.nextPkt [.path k.nextPkt arr] rfl
  refine h.arrive skb.len [.input k.nextSkb, .kmalloc k.nextPkt, .path k.nextPkt arr]
    (List.append_assoc _ _ _) (by simp [Obs.Completes]) rfl (fun q s hq => ?_) rfl rfl
    (Nat.le_succ _) fun q pkt' hq => ?_
  · rw [hbuf] at hq
    split_ifs at hq with hqp
    exact ⟨hqp, hqp ▸ Nat.lt_succ_self _, (Option.some.inj hq).symm⟩
  · by_cases hqp : q = k.nextPkt
    · subst hqp
      cases Option.some.inj ((holding_start k skb okfn arr).read.symm.trans hq)
      exact Or.inr ⟨rfl, by rw [hbuf, if_pos rfl], rfl⟩
    · have hq' : Function.update (Function.update k.pkts _ _) _ _ q = some pkt' := hq
      rw [Function.update_of_ne hqp, Function.update_of_ne hqp] at hq'
      exact Or.inl hq'

theorem input (h : Counted lens k) (hown : Owned k none) {skb : SkBuff} {okfn : Okfn}
    (hstep : InputStep hz k skb okfn k') : Counted (lens ++ [skb.len]) k' := by
  have hfresh := hown.fresh k.nextPkt (Nat.le_refl _)
  cases hstep with
  | passed =>
    exact h.arrive skb.len [.input k.nextSkb, .verdict k.nextSkb .accept]
      (List.append_assoc _ _ _) (by simp [Obs.Completes]) rfl (fun q s hq => nomatch hq) rfl rfl
      (Nat.le_refl _) fun q pkt' hq => Or.inl hq
  | noPath =>
    have hbuf := fun q => bufferOf_start q k.nextSkb k.nextPkt
      [.kfree k.nextPkt, .verdict k.nextSkb .accept] rfl
    refine h.arrive skb.len [.input k.nextSkb, .kmalloc k.nextPkt, .kfree k.nextPkt,
      .verdict k.nextSkb .accept] ?_ (by simp [Obs.Completes]) rfl (fun q s hq => ?_) rfl rfl
      (Nat.le_succ _) fun q pkt' hq => Or.inl ?_
    · show k.log ++ _ ++ _ ++ _ = _
      rw [List.append_assoc, List.append_assoc]
      rfl
    · rw [hbuf] at hq
      split_ifs at hq with hqp
      refine ⟨hqp, ?_, (Option.some.inj hq).symm⟩
      rw [hqp]
      exact Nat.lt_succ_self k.nextPkt
    · have hpkts : (((k.arrival skb okfn).kfreePkt k.nextPkt).giveVerdict k.nextSkb .accept).pkts =
          k.pkts := by
        show Function.update (Function.update k.pkts _ _) _ none = k.pkts
        rw [Function.update_idem, ← hfresh, Function.update_eq_self]
      exact hpkts ▸ hq
  | started hpath hnext =>
    have hstart := (h.start skb okfn _).nextHop (holding_start k skb okfn _).read hnext
    exact hstart.quiet [.verdict k.nextSkb .stolen] rfl (by simp [Obs.Completes]) rfl
      (fun _ => rfl) rfl rfl rfl fun q pkt' hq => hq

/-- A write keeps the counts: the hops of a new table start from 0. -/
theorem write (h : Counted lens k) (hz : ℕ) (w : TableWrite) :
    Counted lens { k with tab := (handle hz k.tab w).tab } := by
  rcases handle_hops hz k.tab w with hsame | ⟨v, -, hloads, hsame⟩
  · have hstep : Counted (lens ++ []) { k with tab := (handle hz k.tab w).tab } := h.step [] []
      (List.append_nil _).symm (by simp) (h.populated.sameHops hsame) (hsame.tidy h.tidy)
      hsame.nextBlock rfl (Nat.le_refl _) (fun q s hq => nomatch hq)
      (fun q pkt hq => Or.inl ⟨pkt, hq, rfl⟩) (fun c hc => absurd hc List.not_mem_nil)
      fun ptr hop hhop => by
        have hnil : crossings [] = [] := rfl
        rw [carriedBy_of_crossings_nil hnil, lostAt_of_crossings_nil hnil, List.append_nil,
          List.append_nil]
        exact h.agree ptr hop (hsame.hops ▸ hhop)
    rwa [List.append_nil] at hstep
  · have halloc := (PathTab.sameHops_alloc k.tab).tidy h.tidy
    have hnonneg : 0 ≤ v.load.hopcount := le_of_lt hloads.hops.2
    obtain ⟨hblock, hnew⟩ := loaded_hops hz halloc v.load
    have hstep : Counted (lens ++ []) { k with tab := (handle hz k.tab w).tab } := h.step [] []
      (List.append_nil _).symm (by simp) ((Populated.load halloc hz hnonneg).sameHops hsame)
      (hsame.tidy (halloc.load hz v.load))
      ((Nat.le_succ _).trans (hblock.trans hsame.nextBlock)) rfl (Nat.le_refl _)
      (fun q s hq => nomatch hq) (fun q pkt hq => Or.inl ⟨pkt, hq, rfl⟩)
      (fun c hc => absurd hc List.not_mem_nil) fun ptr hop hhop => by
        obtain ⟨hle, hpkts, hbytes, hqdrops⟩ := hnew ptr hop (hsame.hops ▸ hhop)
        -- no entry of the log names a hop of the new table
        have hnone : ∀ c ∈ crossings k.log, c.hop ≠ ptr := by
          rintro c hc rfl
          exact absurd ((h.crossed c hc).2.trans (Nat.lt_succ_self _)) (Nat.not_lt.mpr hle)
        have hcarried : carriedBy ptr k.log = [] := by
          unfold carriedBy
          rw [List.filter_eq_nil_iff.mpr fun c hc => by simp [hnone c hc]]
          rfl
        have hlost : lostAt ptr k.log = [] := by
          unfold lostAt
          rw [List.filter_eq_nil_iff.mpr fun c hc => by simp [hnone c hc]]
          rfl
        rw [hcarried, hlost]
        exact .unused hpkts hbytes hqdrops _
    rwa [List.append_nil] at hstep

end Counted

/-! ## Runs -/

/-- The lengths of the buffers that have come in. -/
def arrivals (as : List Activity) : List ℕ :=
  as.filterMap fun a => match a with
    | .input skb _ _ => some skb.len
    | _ => none

theorem counted_rule (hz : ℕ) (lens : List ℕ) :
    ClockRule hz fun k => Owned k none ∧ Counted lens k where
  owned h := h.1
  drain {k p l pkt s k'} h hslot hp hnext _ := by
    have hdel : Counted lens (k.listDel k.curSlot p) :=
      h.2.quiet [.remove p k.calendarTick] rfl (by simp [Obs.Completes]) rfl
        (fun _ => rfl) rfl rfl rfl fun q pkt' hq => hq
    exact ⟨(h.1.listDel hslot).nextHop hp hnext, hdel.nextHop hp.read hnext⟩
  tick h hslot := ⟨h.1.tick hslot, h.2.quiet [] (List.append_nil _).symm (by simp) rfl
    (fun _ => rfl) rfl rfl rfl fun q pkt' hq => hq⟩

theorem counted_of_activity {a : Activity} (h : Owned k none ∧ Counted lens k)
    (hstep : k.activity hz a = some k') : Owned k' none ∧ Counted (lens ++ arrivals [a]) k' := by
  obtain ⟨hown, hcount⟩ := h
  cases a with
  | input skb kmallocOk okfn =>
    have hinput := inputStep_of_step hstep
    exact ⟨hown.input hinput, hcount.input hown hinput⟩
  | clock turn =>
    rw [show arrivals [.clock turn] = [] from rfl, List.append_nil]
    exact (counted_rule hz lens).clockTurn ⟨hown, hcount⟩ hstep
  | write w =>
    rw [show arrivals [.write w] = [] from rfl, List.append_nil]
    cases hstep
    exact ⟨hown.congr rfl rfl rfl (Nat.le_refl _) (Nat.le_refl _) id, hcount.write hz w⟩

theorem counted_run {as : List Activity} (h : Owned k none ∧ Counted lens k)
    (hrun : PartialRun.run (activity hz) k as = some k') :
    Owned k' none ∧ Counted (lens ++ arrivals as) k' := by
  induction as generalizing k lens with
  | nil =>
    cases hrun
    rw [show arrivals [] = [] from rfl, List.append_nil]
    exact h
  | cons a as ih =>
    obtain ⟨k₁, h₁, hrun⟩ := Option.bind_eq_some_iff.mp hrun
    have hall := ih (counted_of_activity h h₁) hrun
    have harrivals : arrivals (a :: as) = arrivals [a] ++ arrivals as :=
      List.filterMap_append (l := [a])
    rw [List.append_assoc, ← harrivals] at hall
    exact hall

/-- **What `modelstat` prints.** After any activities from the loading of the module on, there is a
line for each hop of the installed table, with the number of packets that the log shows it to have
carried, the sum of their lengths, and a number of drops that is at most that of the packets it has
lost: it is exactly this number if the hop has no loss rate, and 0 if it has no bandwidth limit.
All three are cut to 32 bits. -/
theorem modelstat_activity (hz jiffies : ℕ) (random : ℕ → ℕ) (as : List Activity) (k : Kernel)
    (hrun : PartialRun.run (activity hz) (load jiffies random PathTab.empty) as = some k) :
    ∃ lines, modelstat k.tab true true = some (.printed lines) ∧
      (lines.length : ℤ) = k.tab.hopcount ∧
      ∀ (i : ℕ) (hi : i < lines.length), ∃ b hop qdrops,
        k.tab.hoptable = some b ∧ k.tab.hops ⟨b, i⟩ = some hop ∧
        lines[i].idx = i ∧
        lines[i].pkts = (carriedBy ⟨b, i⟩ k.log).length % 2 ^ 32 ∧
        lines[i].bytes =
          ((carriedBy ⟨b, i⟩ k.log).map (lenOf (arrivals as) k.log)).sum % 2 ^ 32 ∧
        lines[i].drops = qdrops % 2 ^ 32 ∧
        qdrops ≤ (lostAt ⟨b, i⟩ k.log).length ∧
        (hop.plr ≤ 0 → qdrops = (lostAt ⟨b, i⟩ k.log).length) ∧
        (hop.KBps = 0 → qdrops = 0) := by
  have hcount := (counted_run ⟨owned_load jiffies random PathTab.empty,
    counted_load jiffies random⟩ hrun).2
  rw [List.nil_append] at hcount
  refine ⟨_, modelstat_eq hcount.populated, ?_, fun i hi => ?_⟩
  · rw [List.length_map, List.length_range, Int.toNat_of_nonneg hcount.populated.nonneg]
  · have hlt := hi
    rw [List.length_map, List.length_range] at hlt
    obtain ⟨b, hb, hhop⟩ := hcount.populated.tableHop hlt
    have hagree := hcount.agree _ _ hhop
    refine ⟨b, _, _, hb, hhop, ?_, ?_, ?_, ?_, hagree.qdrops, hagree.lossless, hagree.unlimited⟩
    all_goals rw [List.getElem_map, List.getElem_range]
    · rfl
    · exact congrArg (· % 2 ^ 32) hagree.pkts
    · exact congrArg (· % 2 ^ 32) hagree.bytes
    · rfl

/-- A packet of 1500 bytes is on the only link. -/
theorem modelstat_packetOnLink : ∃ k lines,
    PartialRun.run (activity 1000) (load 0 (fun _ => 0) PathTab.empty) packetOnLink = some k ∧
      modelstat k.tab true true = some (.printed lines) ∧
      lines.map (fun line => (line.pkts, line.bytes)) = [(1, 1500)] := by
  have hstate : (PartialRun.run (activity 1000) (load 0 (fun _ => 0) PathTab.empty)
      packetOnLink).map (fun k => (k.tab.hoptable, k.tab.hopcount, carriedBy ⟨1, 0⟩ k.log,
        lenOf (arrivals packetOnLink) k.log 0)) = some (some 1, 1, [0], 1500) := by decide +kernel
  obtain ⟨k, hk, hstate⟩ := Option.map_eq_some_iff.mp hstate
  simp only [Prod.mk.injEq] at hstate
  obtain ⟨htab, hcount, hcarried, hlen⟩ := hstate
  obtain ⟨lines, hlines, hlength, hline⟩ := modelstat_activity 1000 0 (fun _ => 0) packetOnLink k hk
  rw [hcount] at hlength
  obtain ⟨line, rfl⟩ := List.length_eq_one_iff.mp (by exact_mod_cast hlength)
  obtain ⟨b, hop, qdrops, hb, -, -, hpkts, hbytes, -⟩ := hline 0 Nat.zero_lt_one
  obtain rfl : b = 1 := Option.some.inj (hb.symm.trans htab)
  rw [Nat.cast_zero, hcarried] at hpkts hbytes
  rw [List.map_cons, List.map_nil, List.sum_singleton, hlen] at hbytes
  refine ⟨k, [line], hk, hlines, ?_⟩
  exact congrArg (fun x => [x]) (Prod.ext hpkts hbytes)

end Kernel

end Modelnet.Linux

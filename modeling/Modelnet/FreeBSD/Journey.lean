import Modelnet.FreeBSD.PacketCache
import Modelnet.Lib.FoldMin

/-!
# The feedback of a packet on its journey

The journey of one packet over several cores, call by call: at its home, where its struct stays in
the packet cache while its record travels, and at the other cores, where a struct is made for the
record (`Journey`). What happens to the rest of a core between two calls is left open. `mc_reunite`
takes only the hop and the path from the record, so that what the XCP hops of other cores have
written into the feedback is lost. It makes no difference exactly when these hops allow at least as
much as the source asks for or as some XCP hop at home allows (`Covered`).
-/

namespace Modelnet.FreeBSD

open Modelnet

/-- A call of the handler of an XCP hop, at home or at another core, with the state of the hop. -/
structure Visit where
  remote : Bool
  hz : ℕ
  bytedepth : ℤ
  pipe : XcpPipe

/-- The record of a packet after the call. -/
def Visit.charge (v : Visit) (info : RemotePacket) : Option RemotePacket :=
  (v.pipe.xcpDequeue v.hz v.bytedepth info).map Prod.snd

/-- The record after all the hops, one after the other, on one core. -/
def together (info : RemotePacket) (vs : List Visit) : Option RemotePacket :=
  vs.foldlM (fun info v => v.charge info) info

/-- The visit that ends when `emulate_nexthop` is called for a packet. -/
def Core.visits (c : Core) (remote : Bool) (pkt : Packet) : List Visit :=
  match c.leaving pkt with
  | none => []
  | some (bytedepth, pipe) => [⟨remote, c.hz, bytedepth, pipe⟩]

inductive Place where
  /-- at home, in its struct -/
  | home (pkt : Packet)
  /-- its record is between two cores, its struct in the cache -/
  | abroad (cached : Packet) (info : RemotePacket)
  /-- its record is at another core, in a struct there -/
  | guest (cached pkt : Packet)

/-- One call for a packet, with the visit that it ends. -/
inductive Moves : Place → List Visit → Place → Prop where
  | wait {c c' : Core} {k : Env} {p : Addr} {pkt pkt' : Packet} {due : ℤ}
      (hhome : pkt.cachehost = 0) (hloose : c.Loose p pkt) (hpkt : c.pkts p = some pkt)
      (hcall : c.emulateNexthop k p = .ok (c', .waiting due)) (hpkt' : c'.pkts p = some pkt') :
      Moves (.home pkt) (c.visits false pkt) (.home pkt')
  | leave {c c' : Core} {k : Env} {p : Addr} {pkt cached : Packet} {toAddr : BitVec 32}
      {info : RemotePacket} (hhome : pkt.cachehost = 0) (hloose : c.Loose p pkt)
      (hpkt : c.pkts p = some pkt)
      (hcall : c.emulateNexthop k p = .ok (c', .left toAddr 0 info true))
      (hcached : c'.pkts p = some cached) :
      Moves (.home pkt) (c.visits false pkt) (.abroad cached info)
  | arrive {c c' : Core} {n : ℕ} {p q : Addr} {t : Cursor.Taken} {host : BitVec 32}
      {cached pkt : Packet} (hfree : c.pkts p = none) (hmem : p ∉ c.mcPcache)
      (hcall : (c.setPkt p { Core.freshPkt t.m 0 with info := t.info }).checkRecord n p t =
        .ok (c', .handed q host))
      (hforeign : host ≠ 0) (hpkt : c'.pkts q = some pkt) :
      Moves (.abroad cached t.info) [] (.guest cached pkt)
  | stay {c c' : Core} {k : Env} {p : Addr} {cached pkt pkt' : Packet} {due : ℤ}
      (hforeign : pkt.cachehost ≠ 0) (hloose : c.Loose p pkt) (hpkt : c.pkts p = some pkt)
      (hcall : c.emulateNexthop k p = .ok (c', .waiting due)) (hpkt' : c'.pkts p = some pkt') :
      Moves (.guest cached pkt) (c.visits true pkt) (.guest cached pkt')
  | pass {c c' : Core} {k : Env} {p : Addr} {cached pkt : Packet} {toAddr host : BitVec 32}
      {info : RemotePacket} (hforeign : pkt.cachehost ≠ 0) (hloose : c.Loose p pkt)
      (hpkt : c.pkts p = some pkt)
      (hcall : c.emulateNexthop k p = .ok (c', .left toAddr host info false)) :
      Moves (.guest cached pkt) (c.visits true pkt) (.abroad cached info)
  | back {c c' : Core} {n : ℕ} {p q : Addr} {t : Cursor.Taken} {cached pkt : Packet}
      (hfree : c.pkts p = none) (hmem : p ∉ c.mcPcache) (hid : t.info.id ≠ 0)
      (hcached : c.pkts t.info.id = some cached)
      (hcall : (c.setPkt p { Core.freshPkt t.m 0 with info := t.info }).checkRecord n p t =
        .ok (c', .handed q 0))
      (hpkt : c'.pkts q = some pkt) :
      Moves (.abroad cached t.info) [] (.home pkt)

/-- The calls for a packet so far, from its struct at the start. -/
inductive Journey (start : Packet) : List Visit → Place → Prop where
  | start : Journey start [] (.home start)
  | move {vs ws : List Visit} {a b : Place} (h : Journey start vs a) (hmove : Moves a ws b) :
      Journey start (vs ++ ws) b

/-- A packet has left its home core at the end of its path, as `m`, and `xcp_set_xcpinfo` has been
called for it. -/
inductive Delivered (start : Packet) : List Visit → List Byte → Prop where
  | forwarded {vs : List Visit} {c c' : Core} {k : Env} {p : Addr} {pkt : Packet} {m : List Byte}
      (h : Journey start vs (.home pkt)) (hloose : c.Loose p pkt) (hpkt : c.pkts p = some pkt)
      (hxcp : c.xcpInitialized = true)
      (hcall : c.emulateNexthop k p = .ok (c', .forwarded m)) :
      Delivered start (vs ++ c.visits false pkt) m

/-! ## What a visit does to the feedback -/

variable {v : Visit} {vs : List Visit} {info info' : RemotePacket}

/-- The packet says what `fill_in_feedback` needs to know. -/
def RemotePacket.Asks (info : RemotePacket) : Prop := info.xcpCwnd ≠ 0 ∧ info.xcpRtt ≠ 0

instance : Decidable info.Asks := inferInstanceAs (Decidable (_ ∧ _))

def RemotePacket.DividesByZero (info : RemotePacket) : Prop :=
  info.Asks ∧ info.len ≠ 0 ∧ info.xcpCwnd / BitVec.ofNat 32 multiFac = 0

instance : Decidable info.DividesByZero := inferInstanceAs (Decidable (_ ∧ _ ∧ _))

def Visit.allows (v : Visit) (info : RemotePacket) : BitVec 32 := v.pipe.feedbackBytes info

/-- The feedback after a visit, for the feedback in front of it. -/
def Visit.feedback (v : Visit) (info : RemotePacket) (fdbk : BitVec 32) : BitVec 32 :=
  if info.Asks then
    if info.len = 0 then fdbk else if (v.allows info).sle fdbk then v.allows info else fdbk
  else 0

/-- The hops of other cores allow at least as much as the source asks for or as some XCP hop at home
allows. -/
def Covered (info : RemotePacket) (vs : List Visit) : Prop :=
  ∀ v ∈ vs, v.remote = true →
    if info.Asks then
      info.len = 0 ∨ info.xcpSrcFdbk.sle (v.allows info) = true ∨
        ∃ u ∈ vs, u.remote = false ∧ (u.allows info).sle (v.allows info) = true
    else info.xcpSrcFdbk = 0 ∨ ∃ u ∈ vs, u.remote = false

def RemotePacket.withFdbk (info : RemotePacket) (fdbk : BitVec 32) : RemotePacket :=
  { info with xcpSrcFdbk := fdbk }

theorem Visit.charge_eq (v : Visit) (info : RemotePacket) :
    v.charge info = if info.DividesByZero then none
      else some (info.withFdbk (v.feedback info info.xcpSrcFdbk)) := by
  have hpipe : ∀ p : XcpPipe, p.feedbackBytes info = v.allows info →
      (p.fillInFeedback v.hz info).map Prod.snd = if info.DividesByZero then none
        else some (info.withFdbk (v.feedback info info.xcpSrcFdbk)) := by
    intro p hp
    unfold XcpPipe.fillInFeedback Visit.feedback
    by_cases hasks : info.Asks
    · rw [if_pos (show info.xcpCwnd ≠ 0 ∧ info.xcpRtt ≠ 0 from hasks), if_pos hasks, hp]
      by_cases hlen : info.len = 0
      · rw [if_pos hlen, if_pos hlen, if_neg fun h : info.DividesByZero => h.2.1 hlen]
        rfl
      · rw [if_neg hlen, if_neg hlen]
        by_cases hcwnd : info.xcpCwnd / BitVec.ofNat 32 multiFac = 0
        · have hzero : info.DividesByZero := ⟨hasks, hlen, hcwnd⟩
          rw [if_pos hcwnd, if_pos hzero]
          rfl
        · rw [if_neg hcwnd, if_neg fun h : info.DividesByZero => hcwnd h.2.2]
          split_ifs
          · rfl
          · rfl
    · rw [if_neg (show ¬ (info.xcpCwnd ≠ 0 ∧ info.xcpRtt ≠ 0) from hasks), if_neg hasks,
        if_neg fun h : info.DividesByZero => hasks h.1]
      rfl
  unfold Visit.charge XcpPipe.xcpDequeue
  refine hpipe _ ?_
  split_ifs
  · rfl
  · rfl

def feedbackAfter (info : RemotePacket) (fdbk : BitVec 32) (vs : List Visit) : BitVec 32 :=
  vs.foldl (fun fdbk v => v.feedback info fdbk) fdbk

theorem charge_withFdbk (v : Visit) (info : RemotePacket) (fdbk : BitVec 32)
    (hzero : ¬ info.DividesByZero) :
    v.charge (info.withFdbk fdbk) = some (info.withFdbk (v.feedback info fdbk)) := by
  rw [v.charge_eq]
  exact if_neg hzero

theorem together_eq (hzero : vs ≠ [] → ¬ info.DividesByZero) :
    together info vs = some (info.withFdbk (feedbackAfter info info.xcpSrcFdbk vs)) := by
  have hfold : ∀ fdbk, vs.foldlM (fun info v => v.charge info) (info.withFdbk fdbk) =
      some (info.withFdbk (feedbackAfter info fdbk vs)) := by
    induction vs with
    | nil => exact fun _ => rfl
    | cons v vs ih =>
      intro fdbk
      have hzero : ¬ info.DividesByZero := hzero (List.cons_ne_nil v vs)
      rw [List.foldlM_cons, charge_withFdbk v info fdbk hzero]
      exact ih (fun _ => hzero) (v.feedback info fdbk)
  exact hfold info.xcpSrcFdbk

def homeVisits (vs : List Visit) : List Visit := vs.filter fun v => !v.remote

/-- When the packet asks, the feedback becomes the least that the hops allow. -/
theorem toInt_feedbackAfter (hasks : info.Asks) (hlen : info.len ≠ 0) (fdbk : BitVec 32)
    (vs : List Visit) : (feedbackAfter info fdbk vs).toInt =
      vs.foldMin (fun v => (v.allows info).toInt) fdbk.toInt := by
  induction vs generalizing fdbk with
  | nil => rfl
  | cons v vs ih =>
    have hmin : (v.feedback info fdbk).toInt = min (v.allows info).toInt fdbk.toInt := by
      unfold Visit.feedback
      rw [if_pos hasks, if_neg hlen, BitVec.sle_eq_decide]
      by_cases hle : (v.allows info).toInt ≤ fdbk.toInt
      · rw [if_pos (decide_eq_true hle), min_eq_left hle]
      · rw [if_neg (by simpa using hle), min_eq_right (le_of_not_ge hle)]
    rw [List.foldMin_cons, ← hmin]
    exact ih (v.feedback info fdbk)

theorem feedbackAfter_empty (hasks : info.Asks) (hlen : info.len = 0) (fdbk : BitVec 32)
    (vs : List Visit) : feedbackAfter info fdbk vs = fdbk := by
  induction vs with
  | nil => rfl
  | cons v vs ih =>
    have hsame : v.feedback info fdbk = fdbk := by
      unfold Visit.feedback
      rw [if_pos hasks, if_pos hlen]
    show feedbackAfter info (v.feedback info fdbk) vs = fdbk
    rw [hsame]
    exact ih

theorem feedbackAfter_silent (hasks : ¬ info.Asks) (fdbk : BitVec 32) (vs : List Visit) :
    feedbackAfter info fdbk vs = if vs = [] then fdbk else 0 := by
  induction vs generalizing fdbk with
  | nil => rfl
  | cons v vs ih =>
    have hzero : v.feedback info fdbk = 0 := if_neg hasks
    show feedbackAfter info (v.feedback info fdbk) vs = _
    rw [hzero, ih, ite_self]
    rfl

/-- **Covered.** The hops at home leave the same feedback as all hops exactly when the other ones
are covered. -/
theorem feedbackAfter_home_iff (info : RemotePacket) (vs : List Visit) :
    feedbackAfter info info.xcpSrcFdbk (homeVisits vs) =
      feedbackAfter info info.xcpSrcFdbk vs ↔ Covered info vs := by
  have hcovered : ∀ P : Visit → Prop, (∀ v ∈ vs, (!v.remote) = false → P v) ↔
      ∀ v ∈ vs, v.remote = true → P v := by
    intro P
    simp only [Bool.not_eq_false']
  unfold Covered
  by_cases hasks : info.Asks
  · simp only [if_pos hasks]
    by_cases hlen : info.len = 0
    · rw [feedbackAfter_empty hasks hlen, feedbackAfter_empty hasks hlen]
      exact ⟨fun _ _ _ _ => Or.inl hlen, fun _ => rfl⟩
    · rw [← BitVec.toInt_inj, toInt_feedbackAfter hasks hlen, toInt_feedbackAfter hasks hlen]
      refine (List.foldMin_filter_eq_iff _).trans ?_
      rw [hcovered]
      refine forall_congr' fun v => forall_congr' fun _ => forall_congr' fun _ => ?_
      simp only [BitVec.sle_eq_decide, decide_eq_true_iff, Bool.not_eq_true']
      rw [or_iff_right hlen]
  · simp only [if_neg hasks]
    rw [feedbackAfter_silent hasks, feedbackAfter_silent hasks]
    by_cases hhome : homeVisits vs = []
    · have hall : ∀ u ∈ vs, u.remote = true := by
        simpa [homeVisits, List.filter_eq_nil_iff] using hhome
      rw [if_pos hhome]
      cases vs with
      | nil => exact ⟨fun _ v hv => absurd hv List.not_mem_nil, fun _ => rfl⟩
      | cons v vs =>
        rw [if_neg (List.cons_ne_nil v vs)]
        constructor
        · exact fun hzero _ _ _ => Or.inl hzero
        · intro h
          rcases h v List.mem_cons_self (hall v List.mem_cons_self) with hzero | ⟨u, hu, hlocal⟩
          · exact hzero
          · rw [hall u hu] at hlocal
            cases hlocal
    · have hsome : vs ≠ [] := by
        rintro rfl
        exact hhome rfl
      obtain ⟨u, hu⟩ := List.exists_mem_of_ne_nil _ hhome
      obtain ⟨hmem, hlocal⟩ := List.mem_filter.mp hu
      rw [if_neg hhome, if_neg hsome]
      exact ⟨fun _ _ _ _ => Or.inr ⟨u, hmem, Bool.not_eq_true' _ ▸ hlocal⟩, fun _ => rfl⟩

/-! ## Along the journey -/

/-- The record of the packet, but for its feedback. -/
def RemotePacket.Flow (a b : RemotePacket) : Prop := ∃ fdbk, a.SameXcp (b.withFdbk fdbk)

theorem feedback_congr {fdbk : BitVec 32} (h : info'.SameXcp (info.withFdbk fdbk)) (v : Visit)
    (x : BitVec 32) : v.feedback info' x = v.feedback info x := by
  have hlen : info'.len = info.len := h.len
  have hcwnd : info'.xcpCwnd = info.xcpCwnd := h.cwnd
  have hrtt : info'.xcpRtt = info.xcpRtt := h.rtt
  have hallows : v.allows info' = v.allows info := by
    unfold Visit.allows XcpPipe.feedbackBytes XcpPipe.posFeedback XcpPipe.negFeedback
      XcpPipe.invRate
    rw [hlen, hcwnd, hrtt]
  have hasks : info'.Asks ↔ info.Asks := by
    unfold RemotePacket.Asks
    rw [hcwnd, hrtt]
  unfold Visit.feedback
  rw [hallows, hlen]
  exact if_congr hasks rfl rfl

theorem dividesByZero_congr {fdbk : BitVec 32} (h : info'.SameXcp (info.withFdbk fdbk)) :
    info'.DividesByZero ↔ info.DividesByZero := by
  have hlen : info'.len = info.len := h.len
  have hcwnd : info'.xcpCwnd = info.xcpCwnd := h.cwnd
  have hrtt : info'.xcpRtt = info.xcpRtt := h.rtt
  unfold RemotePacket.DividesByZero RemotePacket.Asks
  rw [hlen, hcwnd, hrtt]

theorem charges_eq {c : Core} {pkt : Packet} {fdbk x : BitVec 32} (hcharges : c.Charges pkt fdbk)
    (h : pkt.info.SameXcp (info.withFdbk x)) (remote : Bool) :
    (c.visits remote pkt ≠ [] → ¬ info.DividesByZero) ∧
      fdbk = feedbackAfter info x (c.visits remote pkt) := by
  unfold Core.Charges at hcharges
  unfold Core.visits
  cases hleaving : c.leaving pkt with
  | none =>
    rw [hleaving] at hcharges
    exact ⟨fun hne => absurd rfl hne, hcharges.trans h.fdbk⟩
  | some r =>
    obtain ⟨bytedepth, pipe⟩ := r
    rw [hleaving] at hcharges
    obtain ⟨pipe', hdequeue⟩ := hcharges
    have hcharge : Visit.charge ⟨remote, c.hz, bytedepth, pipe⟩ pkt.info =
        some (pkt.setFdbk fdbk).info := by
      unfold Visit.charge
      dsimp only
      rw [hdequeue]
      rfl
    rw [Visit.charge_eq] at hcharge
    split_ifs at hcharge with hzero
    have hfdbk : pkt.info.xcpSrcFdbk = x := h.fdbk
    rw [dividesByZero_congr h] at hzero
    rw [feedback_congr h, hfdbk] at hcharge
    exact ⟨fun _ => hzero, (congrArg RemotePacket.xcpSrcFdbk (Option.some.inj hcharge)).symm⟩

theorem homeVisits_append_local (c : Core) (pkt : Packet) (vs : List Visit) :
    homeVisits (vs ++ c.visits false pkt) = homeVisits vs ++ c.visits false pkt := by
  unfold homeVisits Core.visits
  rw [List.filter_append]
  cases c.leaving pkt with
  | none => rfl
  | some r => rfl

theorem homeVisits_append_remote (c : Core) (pkt : Packet) (vs : List Visit) :
    homeVisits (vs ++ c.visits true pkt) = homeVisits vs := by
  unfold homeVisits Core.visits
  rw [List.filter_append]
  cases c.leaving pkt with
  | none => exact List.append_nil _
  | some r => exact List.append_nil _

/-- The struct at home has the feedback that the hops at home have left. -/
structure AtHome (start : Packet) (vs : List Visit) (pkt : Packet) : Prop where
  host : pkt.cachehost = 0
  m : pkt.m = start.m
  defined : vs ≠ [] → ¬ start.info.DividesByZero
  xcp : pkt.info.SameXcp
    (start.info.withFdbk (feedbackAfter start.info start.info.xcpSrcFdbk (homeVisits vs)))

/-- What holds of a packet wherever it is. -/
def Place.Sound (start : Packet) (vs : List Visit) : Place → Prop
  | .home pkt => AtHome start vs pkt
  | .abroad cached info => AtHome start vs cached ∧ info.Flow start.info
  | .guest cached pkt => AtHome start vs cached ∧ pkt.info.Flow start.info

variable {start : Packet}

theorem AtHome.charge {c : Core} {pkt : Packet} {fdbk : BitVec 32} (h : AtHome start vs pkt)
    (hcharges : c.Charges pkt fdbk) : AtHome start (vs ++ c.visits false pkt) (pkt.setFdbk fdbk) := by
  obtain ⟨hzero, hfdbk⟩ := charges_eq hcharges h.xcp false
  refine ⟨h.host, h.m, fun hne => ?_, h.xcp.len, h.xcp.cwnd, ?_, h.xcp.rtt⟩
  · by_cases hvs : vs = []
    · rw [hvs, List.nil_append] at hne
      exact hzero hne
    · exact h.defined hvs
  · rw [homeVisits_append_local]
    show fdbk = feedbackAfter _ _ _
    unfold feedbackAfter
    rw [List.foldl_append]
    exact hfdbk

/-- A visit at another core does not reach the struct at home. -/
theorem AtHome.away {c : Core} {cached pkt : Packet} {fdbk : BitVec 32}
    (h : AtHome start vs cached) (hcharges : c.Charges pkt fdbk) (hflow : pkt.info.Flow start.info) :
    AtHome start (vs ++ c.visits true pkt) cached ∧ (pkt.setFdbk fdbk).info.Flow start.info := by
  obtain ⟨x, hx⟩ := hflow
  obtain ⟨hzero, -⟩ := charges_eq hcharges hx true
  refine ⟨⟨h.host, h.m, fun hne => ?_, ?_⟩, fdbk, hx.len, hx.cwnd, rfl, hx.rtt⟩
  · by_cases hvs : vs = []
    · rw [hvs, List.nil_append] at hne
      exact hzero hne
    · exact h.defined hvs
  · rw [homeVisits_append_remote]
    exact h.xcp

theorem AtHome.congr {pkt pkt' : Packet} (h : AtHome start vs pkt) (hhost : pkt'.cachehost = 0)
    (hm : pkt'.m = pkt.m) (hxcp : pkt'.info.SameXcp pkt.info) : AtHome start vs pkt' :=
  ⟨hhost, hm.trans h.m, h.defined, hxcp.trans h.xcp⟩

/-- What a call of `emulate_nexthop` has done when it has come back. -/
theorem nextHop_of_ok {c : Core} {env : Env} {p : Addr} {pkt : Packet} {r : Core × Fate}
    (hloose : c.Loose p pkt) (hpkt : c.pkts p = some pkt) (hcall : c.emulateNexthop env p = .ok r) :
    ∃ fdbk, c.Charges pkt fdbk ∧ c.NextHop p (pkt.setFdbk fdbk) r :=
  (Core.emulateNexthop_yields (E := fun _ => True) trivial hloose hpkt
    (Core.nextOr_true c env p)).of_ok hcall

theorem leaves_not_cached {c : Core} {pkt : Packet} {toAddr host : BitVec 32} :
    ¬ c.Leaves pkt (.left toAddr host info true) := by
  intro h
  generalize hfate : Fate.left toAddr host info true = fate at h
  cases h with
  | freed => cases hfate
  | forwarded => cases hfate
  | left => cases hfate

/-- **Step.** A call keeps what holds of the packet. -/
theorem Moves.sound {a b : Place} {ws : List Visit} (hmove : Moves a ws b)
    (h : a.Sound start vs) : b.Sound start (vs ++ ws) := by
  cases hmove with
  | wait hhome hloose hpkt hcall hpkt' =>
    obtain ⟨fdbk, hcharges, hnext⟩ := nextHop_of_ok hloose hpkt hcall
    cases hnext with
    | gone hfate => cases hfate
    | waiting =>
      cases (Core.pkts_setPkt_self _ _ _).symm.trans hpkt'
      exact (h.charge hcharges).congr hhome rfl ⟨rfl, rfl, rfl, rfl⟩
  | leave hhome hloose hpkt hcall hcached =>
    obtain ⟨fdbk, hcharges, hnext⟩ := nextHop_of_ok hloose hpkt hcall
    have hcharged := h.charge hcharges
    cases hnext with
    | gone hfate => exact absurd hfate leaves_not_cached
    | cached hfrom hhome' hm hpcache hid hexpire hxcp hcopy =>
      cases (Core.packet_eq_ok.mp (Core.packet_mcPcacheAdd _ _ _)).symm.trans hcached
      exact ⟨hcharged.congr hhome' hm ⟨hcopy.len, hcopy.cwnd, hcopy.fdbk, hcopy.rtt⟩,
        _, hxcp.trans hcharged.xcp⟩
  | arrive hfree hmem hcall hforeign hpkt =>
    rw [List.append_nil]
    have hadmits := (Core.checkRecord_yields hfree hmem _).of_ok hcall
    cases hadmits with
    | arrived =>
      cases (Core.pkts_setPkt_self _ _ _).symm.trans hpkt
      exact h
    | reunited => exact absurd rfl hforeign
  | stay hforeign hloose hpkt hcall hpkt' =>
    obtain ⟨fdbk, hcharges, hnext⟩ := nextHop_of_ok hloose hpkt hcall
    obtain ⟨hhome, x, hflow⟩ := h.1.away hcharges h.2
    cases hnext with
    | gone hfate => cases hfate
    | waiting =>
      cases (Core.pkts_setPkt_self _ _ _).symm.trans hpkt'
      exact ⟨hhome, x, hflow.len, hflow.cwnd, hflow.fdbk, hflow.rtt⟩
  | pass hforeign hloose hpkt hcall =>
    obtain ⟨fdbk, hcharges, hnext⟩ := nextHop_of_ok hloose hpkt hcall
    obtain ⟨hhome, hflow⟩ := h.1.away hcharges h.2
    cases hnext with
    | gone hfate =>
      cases hfate with
      | left hinfo =>
        rw [← hinfo hforeign] at hflow
        exact ⟨hhome, hflow⟩
  | back hfree hmem hid hcached hcall hpkt =>
    rw [List.append_nil]
    have hadmits := (Core.checkRecord_yields hfree hmem _).of_ok hcall
    cases hadmits with
    | arrived hzero => exact absurd (hzero rfl) hid
    | reunited hhome hcached' =>
      cases hcached.symm.trans hcached'
      cases (Core.pkts_setPkt_self _ _ _).symm.trans hpkt
      exact h.1.congr h.1.host rfl ⟨rfl, rfl, rfl, rfl⟩

theorem Journey.sound {a : Place} (h : Journey start vs a) (hhome : start.cachehost = 0) :
    a.Sound start vs := by
  induction h with
  | start => exact ⟨hhome, rfl, fun hne => absurd rfl hne, ⟨rfl, rfl, rfl, rfl⟩⟩
  | move _ hmove ih => exact hmove.sound ih

/-- What a packet leaves with has the feedback of the hops at home. -/
theorem Delivered.eq {m m' : List Byte} (h : Delivered start vs m') (hhome : start.cachehost = 0)
    (hm : start.m = some m) : (vs ≠ [] → ¬ start.info.DividesByZero) ∧
      ∃ info, m' = xcpSetXcpinfo m info ∧ info.xcpSrcFdbk =
        feedbackAfter start.info start.info.xcpSrcFdbk (homeVisits vs) := by
  cases h with
  | forwarded hjourney hloose hpkt hxcp hcall =>
    have hathome : AtHome start _ _ := hjourney.sound hhome
    obtain ⟨fdbk, hcharges, hnext⟩ := nextHop_of_ok hloose hpkt hcall
    have hcharged := hathome.charge hcharges
    refine ⟨hcharged.defined, _, ?_, hcharged.xcp.fdbk⟩
    cases hnext with
    | gone hfate =>
      generalize hforwarded : Fate.forwarded m' = fate at hfate
      cases hfate with
      | freed => cases hforwarded
      | left => cases hforwarded
      | forwarded hm' =>
        rw [if_pos hxcp] at hforwarded
        cases hforwarded
        cases (hcharged.m.trans hm).symm.trans hm'
        rfl

/-- **Distribution.** A packet leaves with the feedback that it would have if all hops were emulated
on one core exactly when the hops of other cores are covered. -/
theorem feedback_transparent_iff {m m' : List Byte} (h : Delivered start vs m')
    (hhome : start.cachehost = 0) (hm : start.m = some m) (htuf : ipProto m = ipprotoTuf) :
    (∃ info, together start.info vs = some info ∧ m' = xcpSetXcpinfo m info) ↔
      Covered start.info vs := by
  obtain ⟨hzero, info, rfl, hinfo⟩ := h.eq hhome hm
  have hset : ∀ a, xcpSetXcpinfo m a = setBe32 m 44 a.xcpSrcFdbk := fun _ => if_pos htuf
  rw [← feedbackAfter_home_iff, ← hinfo, together_eq hzero]
  constructor
  · rintro ⟨a, ha, heq⟩
    cases ha
    rw [hset, hset, setBe32_inj] at heq
    exact heq
  · intro heq
    refine ⟨_, rfl, ?_⟩
    rw [hset, hset, heq]
    rfl

/-! ## A journey over a hop at home and an XCP hop of another core -/

namespace Journey

/-- A TUF packet from the first node to the second that asks for 1000 more bytes. -/
def tufPacket : List Byte :=
  [69, 0, 0, 60, 0, 0, 0, 0, 64, 132, 0, 0, 10, 0, 0, 1, 10, 0, 0, 2] ++ List.replicate 20 0 ++
    be32 100000 ++ be32 1000 ++ be32 0 ++ be32 100 ++ [0, 0, 0, 0]

/-- An XCP hop with nothing to give. -/
def fullPipe : XcpPipe where
  te := 10
  xiPos := 0
  xiNeg := 0
  bta := 0
  btf := 0
  runningMinQueueKbytes := 0

def homeCore : Core :=
  (System.load 1000 0 (System.twoNodes [0, 0xc0a80002]) (fun _ => none) true).core

def nextCore : Core :=
  (System.load 1000 0 (System.twoNodes [0xc0a80001, 0])
    (fun h => if h = ⟨3, 1⟩ then some fullPipe else none) true).core

/-- The struct in front of the first hop. -/
def started : Packet where
  path := some ⟨4, 0⟩
  m := some tufPacket
  cachehost := 0
  state := 0
  info :=
    { id := 0, expire := 0, len := 60, waitTime := 0, src := 0x0a000001, dst := 0x0a000002,
      hop := 0, ttl := 0, xcpCwnd := 100000, xcpSrcFdbk := 1000, xcpRflctFdbk := 0, xcpRtt := 100 }

/-- The record with which it leaves. -/
def sent : RemotePacket := { started.info with id := 0x100, expire := 1000, hop := 1, ttl := 40 }

def cached : Packet :=
  { started with path := some ⟨4, 2⟩, state := qBwDelay, info := { sent with hop := 2 } }

/-- The struct at the other core. -/
def guest : Packet :=
  { path := some ⟨4, 1⟩, m := none, cachehost := 0xc0a80001, state := 0, info := sent }

/-- The record with which it comes back. -/
def returned : RemotePacket := { sent with hop := 2, xcpSrcFdbk := 0 }

/-- The visit to the hop of the other core. -/
def visit : Visit := ⟨true, 1000, 0, fullPipe⟩

theorem started_delivered : Delivered started [visit] tufPacket := by
  have hhome : ∀ pkt : Packet, pkt.info.id = 0 → (homeCore.setPkt 0x100 pkt).Loose 0x100 pkt :=
    fun _ hid => ⟨by decide, List.not_mem_nil, fun _ => hid⟩
  have hnext : ∀ pkt : Packet, pkt.cachehost ≠ 0 →
      (nextCore.setPkt 0x200 pkt).Loose 0x200 pkt :=
    fun _ hforeign => ⟨by decide, List.not_mem_nil, fun hzero => absurd hzero hforeign⟩
  have h₁ : Journey started [] (.home { started with state := qBwDelay }.incr) :=
    .move .start (.wait (c := homeCore.setPkt 0x100 started) (k := System.plainEnv 0x300)
      (p := 0x100) rfl (hhome _ rfl) rfl rfl rfl)
  have h₂ : Journey started [] (.abroad cached sent) :=
    .move h₁ (.leave (c := homeCore.setPkt 0x100 _) (k := System.plainEnv 0x300) (p := 0x100)
      rfl (hhome _ rfl) rfl rfl rfl)
  have h₃ : Journey started [] (.guest cached guest) :=
    .move h₂ (.arrive (c := nextCore) (n := 76) (p := 0x200)
      (t := ⟨sent, none, ⟨some [], 2⟩⟩) rfl List.not_mem_nil rfl (by decide) rfl)
  have h₄ : Journey started [] (.guest cached { guest with state := qBwDelay }.incr) :=
    .move h₃ (.stay (c := nextCore.setPkt 0x200 guest) (k := System.plainEnv 0x300) (p := 0x200)
      (by decide) (hnext _ (by decide)) rfl rfl rfl)
  have h₅ : Journey started [visit] (.abroad cached returned) :=
    .move h₄ (.pass (c := nextCore.setPkt 0x200 _) (k := System.plainEnv 0x300) (p := 0x200)
      (by decide) (hnext _ (by decide)) rfl rfl)
  have h₆ : Journey started [visit]
      (.home { cached with info := { cached.info with id := 0 } }) :=
    .move h₅ (.back (c := { homeCore.setPkt 0x100 cached with mcPcache := [0x100] })
      (n := 76) (p := 0x200) (t := ⟨returned, none, ⟨some [], 2⟩⟩) rfl (by decide) (by decide)
      rfl rfl rfl)
  exact .forwarded (c := homeCore.setPkt 0x100 _) (k := System.plainEnv 0x300) (p := 0x100) h₆
    (hhome _ rfl) rfl rfl rfl

end Journey

theorem feedback_transparent_started :
    (∃ info, together Journey.started.info [Journey.visit] = some info ∧
      Journey.tufPacket = xcpSetXcpinfo Journey.tufPacket info) ↔
        Covered Journey.started.info [Journey.visit] :=
  feedback_transparent_iff Journey.started_delivered rfl rfl rfl

/-- The packet asks for 1000 bytes, the hop of the other core has nothing to give, and the packet
leaves with its 1000 bytes. -/
theorem feedback_not_transparent :
    Journey.homeCore.startPath Journey.tufPacket = .ok (some Journey.started) ∧
      Delivered Journey.started [Journey.visit] Journey.tufPacket ∧
      (together Journey.started.info [Journey.visit]).map RemotePacket.xcpSrcFdbk = some 0 ∧
      ¬ ∃ info, together Journey.started.info [Journey.visit] = some info ∧
        Journey.tufPacket = xcpSetXcpinfo Journey.tufPacket info := by
  have hfdbk : (together Journey.started.info [Journey.visit]).map RemotePacket.xcpSrcFdbk =
      some 0 := by decide
  refine ⟨rfl, Journey.started_delivered, hfdbk, ?_⟩
  rintro ⟨info, hinfo, heq⟩
  rw [hinfo] at hfdbk
  have hzero : info.xcpSrcFdbk = 0 := Option.some.inj hfdbk
  have hset : xcpSetXcpinfo Journey.tufPacket info = setBe32 Journey.tufPacket 44 0 := by
    unfold xcpSetXcpinfo
    rw [hzero]
    rfl
  rw [hset] at heq
  exact absurd heq (by decide)

end Modelnet.FreeBSD

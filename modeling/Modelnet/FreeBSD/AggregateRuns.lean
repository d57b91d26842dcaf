import Modelnet.FreeBSD.Aggregate
import Modelnet.Lib.Run
import Mathlib.Data.List.Nodup

/-!
# Aggregation loses, duplicates and reorders nothing

Runs of `remote_aggregate` and `remote_aggregate_clean` against the loop of `remote_input` at the
receiver. An entry of the pending queue stands for a list of records (`Holds`); for every
destination, what its receiver decodes followed by what is pending is what was submitted.
-/

namespace Modelnet.FreeBSD

open Modelnet

/-- The queues with what has been submitted and sent so far. -/
structure Xmit where
  agg : Aggregates
  submitted : List (BitVec 32 × RemotePacket)
  sent : List Sent

namespace Xmit

/-- The state after `remote_init`. -/
def init : Xmit := ⟨.init, [], []⟩

/-- What happens to the queues. -/
inductive Op where
  | aggregate (info : RemotePacket) (ownerIp : BitVec 32)
  | clean

/-- One call, with mbufs available and sends that succeed. -/
def step (x : Xmit) : Op → Option Xmit
  | .aggregate info ownerIp =>
    (x.agg.remoteAggregate info ownerIp true).toOption.map fun r =>
      ⟨r.1, x.submitted ++ [(ownerIp, info)], x.sent ++ r.2.toList⟩
  | .clean =>
    x.agg.remoteAggregateClean.toOption.map fun r => ⟨r.1, x.submitted, x.sent ++ r.2⟩

/-- The calls that `remote_hop` makes: for a cached packet and another core, which has a pending
entry or finds one that is free. -/
def Allowed (x : Xmit) : Op → Prop
  | .aggregate info ownerIp => info.id ≠ 0 ∧ ownerIp ≠ 0 ∧
      (ownerIp ∈ x.agg.pendingXc.map (·.id) ∨ x.agg.pendingXc.length < mnMaxCores)
  | .clean => True

/-- The records that a receiver decodes from a datagram. -/
def decoded (s : Sent) : List RemotePacket :=
  match Cursor.recordsOf s.payload with
  | .ok r => r.1
  | .error _ => []

/-- The records decoded so far at a destination. -/
def delivered (x : Xmit) (d : BitVec 32) : List RemotePacket :=
  (x.sent.filter fun s => s.toAddr = d).flatMap decoded

/-- The records submitted so far for a destination. -/
def submittedTo (x : Xmit) (d : BitVec 32) : List RemotePacket :=
  (x.submitted.filter fun s => s.1 = d).map Prod.snd

end Xmit

/-- The records of a pending entry. -/
def RemoteAggregate.digests (ragg : RemoteAggregate) : List RemotePacket :=
  RemotePacket.codec.decodeAll ragg.numDigests (ragg.m.getD [])

/-- The records pending for a destination. -/
def digestsFor (l : List RemoteAggregate) (d : BitVec 32) : List RemotePacket :=
  (l.filter fun ragg => ragg.id = d).flatMap RemoteAggregate.digests

@[simp] theorem digestsFor_nil (d : BitVec 32) : digestsFor [] d = [] := rfl

theorem digestsFor_append (l l' : List RemoteAggregate) (d : BitVec 32) :
    digestsFor (l ++ l') d = digestsFor l d ++ digestsFor l' d := by
  unfold digestsFor
  rw [List.filter_append, List.flatMap_append]

theorem digestsFor_cons (ragg : RemoteAggregate) (l : List RemoteAggregate) (d : BitVec 32) :
    digestsFor (ragg :: l) d = (if ragg.id = d then ragg.digests else []) ++ digestsFor l d := by
  unfold digestsFor
  by_cases h : ragg.id = d
  · rw [List.filter_cons_of_pos (by simpa using h), List.flatMap_cons, if_pos h]
  · rw [List.filter_cons_of_neg (by simpa using h), if_neg h, List.nil_append]

theorem digestsFor_eq_nil {l : List RemoteAggregate} {d : BitVec 32}
    (h : ∀ ragg ∈ l, ragg.id ≠ d) : digestsFor l d = [] := by
  unfold digestsFor
  rw [List.filter_eq_nil_iff.mpr fun ragg hragg => by simpa using h ragg hragg]
  rfl

/-! ## Entries -/

/-- The entry stands for the records. -/
structure Holds (ragg : RemoteAggregate) (l : List RemotePacket) : Prop where
  m : l ≠ [] → ragg.m = some (RemotePacket.codec.encodeAll l)
  numDigests : ragg.numDigests = l.length
  bytesLeft : ragg.bytesLeft = aggregateRoom - l.length * remotePacketSize

/-- The records have a handle and fit in one datagram; 30 of them fill it. -/
def Fits (n : ℕ) (l : List RemotePacket) : Prop := l.length ≤ n ∧ ∀ r ∈ l, r.id ≠ 0

theorem holds_grab (ragg : RemoteAggregate) (ownerIp : BitVec 32) :
    Holds (ragg.grab ownerIp) [] :=
  ⟨fun h => absurd rfl h, rfl, by show aggregateRoom = aggregateRoom - 0 * _; simp⟩

namespace Holds

variable {ragg : RemoteAggregate} {l : List RemotePacket}

theorem digests_eq (h : Holds ragg l) : ragg.digests = l := by
  unfold RemoteAggregate.digests
  rw [h.numDigests]
  cases l with
  | nil => rfl
  | cons r l =>
    rw [h.m (List.cons_ne_nil r l)]
    have hround := RemotePacket.codec.decodeAll_encodeAll_append (r :: l) []
    rw [List.append_nil] at hround
    exact hround

theorem hasRoom_iff (h : Holds ragg l) (hl : l.length ≤ 30) : ragg.hasRoom ↔ l.length < 30 := by
  have hroom : ragg.bytesLeft = 1472 - l.length * 48 := h.bytesLeft
  unfold RemoteAggregate.hasRoom remotePacketSize
  rw [hroom, u32_of_lt (by omega) (by omega)]
  omega

theorem addDigest (h : Holds ragg l) (hl : l.length < 30) (info : RemotePacket) :
    ∃ ragg', ragg.addDigest info true = .ok ragg' ∧ Holds ragg' (l ++ [info]) ∧
      ragg'.id = ragg.id := by
  have hbytes : ragg.bytesLeft - remotePacketSize =
      aggregateRoom - (l ++ [info]).length * remotePacketSize := by
    have hroom : ragg.bytesLeft = 1472 - l.length * 48 := h.bytesLeft
    rw [hroom, List.length_append, List.length_singleton]
    show (1472 - l.length * 48 - 48 : ℤ) = 1472 - ((l.length + 1 : ℕ) : ℤ) * 48
    omega
  have hcount : ragg.numDigests + 1 = (l ++ [info]).length := by
    rw [h.numDigests, List.length_append, List.length_singleton]
  unfold RemoteAggregate.addDigest
  rw [if_pos ((h.hasRoom_iff (Nat.le_of_lt hl)).mpr hl)]
  by_cases hzero : ragg.numDigests = 0
  · rw [if_pos hzero, if_pos rfl]
    have hnil : l = [] := List.eq_nil_of_length_eq_zero (h.numDigests ▸ hzero)
    refine ⟨_, rfl, ⟨fun _ => ?_, hcount, hbytes⟩, rfl⟩
    rw [hnil, List.nil_append, FixedCodec.encodeAll_singleton]
    rfl
  · rw [if_neg hzero]
    have hne : l ≠ [] := by
      rintro rfl
      exact hzero h.numDigests
    rw [h.m hne]
    dsimp only
    rw [if_pos (by
      rw [FixedCodec.length_encodeAll]
      show l.length * remotePacketSize + remotePacketSize ≤ mclbytes
      unfold remotePacketSize mclbytes
      omega)]
    refine ⟨_, rfl, ⟨fun _ => ?_, hcount, hbytes⟩, rfl⟩
    rw [FixedCodec.encodeAll_append, FixedCodec.encodeAll_singleton]
    rfl

end Holds

/-- A pending entry between two calls. -/
structure Entry (ragg : RemoteAggregate) (l : List RemotePacket) : Prop where
  holds : Holds ragg l
  ne_nil : l ≠ []
  fits : Fits 29 l
  id : ragg.id ≠ 0

/-- The queues between two calls: the entries go around, the destinations are different. -/
structure Queues (a : Aggregates) : Prop where
  total : a.pendingXc.length + a.freePendingXc.length = mnMaxCores
  distinct : (a.pendingXc.map (·.id)).Nodup
  entries : ∀ ragg ∈ a.pendingXc, ∃ l, Entry ragg l

/-- The entry that a call has chosen, between the ones before and after it. -/
structure Chosen (a : Aggregates) (ownerIp : BitVec 32) (pre post free : List RemoteAggregate)
    (ragg : RemoteAggregate) (l : List RemotePacket) : Prop where
  choose : a.choose ownerIp = .ok (⟨pre ++ ragg :: post, free⟩, pre.length)
  holds : Holds ragg l
  fits : Fits 29 l
  id : ragg.id = ownerIp
  total : (pre ++ post).length + 1 + free.length = mnMaxCores
  distinct : ((pre ++ post).map (·.id)).Nodup
  others : ∀ r ∈ pre ++ post, r.id ≠ ownerIp ∧ ∃ l, Entry r l
  digests : ∀ d, digestsFor a.pendingXc d = digestsFor (pre ++ post) d ++ if ownerIp = d then l else []

variable {a : Aggregates} {ownerIp : BitVec 32} {info : RemotePacket}

theorem digestsFor_middle {pre post : List RemoteAggregate} {ragg : RemoteAggregate}
    (hothers : ∀ r ∈ pre ++ post, r.id ≠ ragg.id) (d : BitVec 32) :
    digestsFor (pre ++ ragg :: post) d =
      digestsFor (pre ++ post) d ++ if ragg.id = d then ragg.digests else [] := by
  rw [digestsFor_append, digestsFor_append, digestsFor_cons]
  by_cases hd : ragg.id = d
  · have hpre : digestsFor pre d = [] := digestsFor_eq_nil fun r hr =>
      hd ▸ hothers r (List.mem_append_left _ hr)
    have hpost : digestsFor post d = [] := digestsFor_eq_nil fun r hr =>
      hd ▸ hothers r (List.mem_append_right _ hr)
    rw [hpre, hpost, if_pos hd]
    simp
  · rw [if_neg hd]
    simp

theorem exists_split_of_findIdx? {α : Type*} {l : List α} {p : α → Bool} {i : ℕ}
    (h : l.findIdx? p = some i) : ∃ pre x post, l = pre ++ x :: post ∧ pre.length = i ∧ p x := by
  obtain ⟨hi, hp, -⟩ := List.findIdx?_eq_some_iff_getElem.mp h
  refine ⟨l.take i, l[i], l.drop (i + 1), ?_, List.length_take_of_le (Nat.le_of_lt hi), hp⟩
  rw [List.getElem_cons_drop, List.take_append_drop]

theorem Queues.chosen (h : Queues a)
    (hroom : ownerIp ∈ a.pendingXc.map (·.id) ∨ a.pendingXc.length < mnMaxCores) :
    ∃ pre post free ragg l, Chosen a ownerIp pre post free ragg l := by
  obtain ⟨pending, free⟩ := a
  cases hfind : pending.findIdx? (fun ragg => ragg.id = ownerIp) with
  | some i =>
    obtain ⟨pre, ragg, post, rfl, rfl, hid⟩ := exists_split_of_findIdx? hfind
    have hid : ragg.id = ownerIp := of_decide_eq_true hid
    obtain ⟨l, hentry⟩ := h.entries ragg (List.mem_append_right _ List.mem_cons_self)
    have hperm : (pre ++ ragg :: post).Perm (ragg :: (pre ++ post)) := List.perm_middle
    have hnodup : ragg.id ∉ (pre ++ post).map (·.id) ∧ ((pre ++ post).map (·.id)).Nodup :=
      List.nodup_cons.mp ((hperm.map fun r : RemoteAggregate => r.id).nodup_iff.mp h.distinct)
    have hothers : ∀ r ∈ pre ++ post, r.id ≠ ragg.id := by
      intro r hr heq
      exact hnodup.1 (heq ▸ List.mem_map_of_mem hr)
    refine ⟨pre, post, free, ragg, l, ?_, hentry.holds, hentry.fits, hid, ?_, hnodup.2, ?_, ?_⟩
    · unfold Aggregates.choose
      rw [hfind]
    · have htotal : (pre ++ ragg :: post).length + free.length = mnMaxCores := h.total
      rw [hperm.length_eq, List.length_cons] at htotal
      exact htotal
    · intro r hr
      exact ⟨hid ▸ hothers r hr, h.entries r (hperm.mem_iff.mpr (List.mem_cons_of_mem _ hr))⟩
    · intro d
      rw [digestsFor_middle hothers, hentry.holds.digests_eq, hid]
  | none =>
    have habsent : ∀ r ∈ pending, r.id ≠ ownerIp := by
      intro r hr
      simpa using List.findIdx?_eq_none_iff.mp hfind r hr
    have hlt : pending.length < mnMaxCores := by
      refine hroom.resolve_left fun hmem => ?_
      obtain ⟨r, hr, heq⟩ := List.mem_map.mp hmem
      exact habsent r hr heq
    have htotal : pending.length + free.length = mnMaxCores := h.total
    cases free with
    | nil =>
      rw [List.length_nil, Nat.add_zero] at htotal
      exact absurd htotal (Nat.ne_of_lt hlt)
    | cons ragg free =>
      refine ⟨pending, [], free, ragg.grab ownerIp, [], ?_, holds_grab ragg ownerIp,
        ⟨Nat.zero_le _, fun _ hr => absurd hr List.not_mem_nil⟩, rfl, ?_, ?_, ?_, ?_⟩
      · unfold Aggregates.choose
        rw [hfind]
      · rw [List.length_cons] at htotal
        rw [List.append_nil]
        omega
      · rw [List.append_nil]
        exact h.distinct
      · rw [List.append_nil]
        exact fun r hr => ⟨habsent r hr, h.entries r hr⟩
      · intro d
        rw [List.append_nil, ite_self, List.append_nil]

/-! ## One call -/

/-- The records that a receiver decodes from the datagrams for a destination. -/
def sentFor (sent : List Sent) (d : BitVec 32) : List RemotePacket :=
  (sent.filter fun s => s.toAddr = d).flatMap Xmit.decoded

theorem sentFor_append (sent sent' : List Sent) (d : BitVec 32) :
    sentFor (sent ++ sent') d = sentFor sent d ++ sentFor sent' d := by
  unfold sentFor
  rw [List.filter_append, List.flatMap_append]

/-- A datagram that the loop of `remote_input` decodes as a whole. -/
def Decodes (s : Sent) (l : List RemotePacket) : Prop :=
  Cursor.recordsOf s.payload = .ok (l, .exit) ∧ l.length ≤ 46

theorem decodes_of_fits {l : List RemotePacket} (h : Fits 30 l) (d : BitVec 32) :
    Decodes ⟨d, RemotePacket.codec.encodeAll l⟩ l :=
  have hle : l.length ≤ 46 := Nat.le_trans h.1 (by decide)
  ⟨Cursor.recordsOf_encodeAll h.2 hle, hle⟩

theorem sentFor_singleton {s : Sent} {l : List RemotePacket} (h : Decodes s l) (d : BitVec 32) :
    sentFor [s] d = if s.toAddr = d then l else [] := by
  have hdecoded : Xmit.decoded s = l := by
    unfold Xmit.decoded
    rw [h.1]
  unfold sentFor
  by_cases hd : s.toAddr = d
  · rw [List.filter_cons_of_pos (by simpa using hd), if_pos hd]
    simp [hdecoded]
  · rw [List.filter_cons_of_neg (by simpa using hd), if_neg hd]
    rfl

/-- What a call does with the queues: records join, and records leave in datagrams. -/
structure Effect (a a' : Aggregates) (sent : List Sent) (joined : BitVec 32 → List RemotePacket) :
    Prop where
  queues : Queues a'
  decodes : ∀ s ∈ sent, ∃ l, Decodes s l
  fifo : ∀ d, sentFor sent d ++ digestsFor a'.pendingXc d = digestsFor a.pendingXc d ++ joined d

section Middle

variable {α : Type*} (pre post : List α) (x y : α)

theorem getElem?_middle : (pre ++ x :: post)[pre.length]? = some x := by
  rw [List.getElem?_append_right (Nat.le_refl _), Nat.sub_self, List.getElem?_cons_zero]

theorem set_middle : (pre ++ x :: post).set pre.length y = pre ++ y :: post := by
  rw [List.set_append_right _ _ (Nat.le_refl _), Nat.sub_self, List.set_cons_zero]

theorem eraseIdx_middle : (pre ++ x :: post).eraseIdx pre.length = pre ++ post := by
  rw [List.eraseIdx_append_of_length_le (Nat.le_refl _), Nat.sub_self, List.eraseIdx_cons_zero]

end Middle

theorem queues_middle {pre post free : List RemoteAggregate} {ragg : RemoteAggregate}
    {l : List RemotePacket} (htotal : (pre ++ post).length + 1 + free.length = mnMaxCores)
    (hdistinct : ((pre ++ post).map (·.id)).Nodup)
    (hothers : ∀ r ∈ pre ++ post, r.id ≠ ragg.id ∧ ∃ l, Entry r l) (hentry : Entry ragg l) :
    Queues ⟨pre ++ ragg :: post, free⟩ := by
  have hperm : (pre ++ ragg :: post).Perm (ragg :: (pre ++ post)) := List.perm_middle
  refine ⟨?_, ?_, ?_⟩
  · show (pre ++ ragg :: post).length + free.length = mnMaxCores
    rw [hperm.length_eq, List.length_cons]
    exact htotal
  · refine (hperm.map fun r : RemoteAggregate => r.id).nodup_iff.mpr (List.nodup_cons.mpr ⟨?_, hdistinct⟩)
    intro hmem
    obtain ⟨r, hr, heq⟩ := List.mem_map.mp hmem
    exact (hothers r hr).1 heq
  · intro r hr
    rcases List.mem_cons.mp (hperm.mem_iff.mp hr) with rfl | hr
    · exact ⟨l, hentry⟩
    · exact (hothers r hr).2

/-- **Step lemma.** A call of `remote_aggregate` completes; the record joins the others for its
destination, and they leave together when the entry is full. -/
theorem Queues.remoteAggregate (h : Queues a) (hid : info.id ≠ 0) (howner : ownerIp ≠ 0)
    (hroom : ownerIp ∈ a.pendingXc.map (·.id) ∨ a.pendingXc.length < mnMaxCores) :
    ∃ a' sent, a.remoteAggregate info ownerIp true = .ok (a', sent) ∧
      Effect a a' sent.toList fun d => if ownerIp = d then [info] else [] := by
  obtain ⟨pre, post, free, ragg, l, hchosen⟩ := h.chosen hroom
  have hlt : l.length < 30 := Nat.lt_succ_of_le hchosen.fits.1
  obtain ⟨ragg', hadd, hholds, hid'⟩ := hchosen.holds.addDigest hlt info
  have hle : (l ++ [info]).length ≤ 30 := by
    rw [List.length_append, List.length_singleton]
    omega
  have hhandles : ∀ r ∈ l ++ [info], r.id ≠ 0 := by
    intro r hr
    rcases List.mem_append.mp hr with hr | hr
    · exact hchosen.fits.2 r hr
    · rw [List.mem_singleton.mp hr]
      exact hid
  have howner' : ragg'.id = ownerIp := hid'.trans hchosen.id
  have hcall : a.remoteAggregate info ownerIp true =
      if ragg'.hasRoom then .ok (⟨pre ++ ragg' :: post, free⟩, none)
      else ((⟨pre ++ ragg' :: post, free⟩ : Aggregates).remoteAggregateSend pre.length >>= fun r =>
        .ok (r.1, some r.2)) := by
    unfold Aggregates.remoteAggregate
    rw [hchosen.choose]
    simp only [bind, Except.bind, getElem?_middle, hadd, set_middle]
    rfl
  rw [hcall]
  by_cases hfull : ragg'.hasRoom
  · rw [if_pos hfull]
    have hlen := (hholds.hasRoom_iff hle).mp hfull
    refine ⟨_, none, rfl, ?_, fun s hs => absurd hs List.not_mem_nil, ?_⟩
    · refine queues_middle hchosen.total hchosen.distinct ?_
        ⟨hholds, by simp, ⟨Nat.le_of_lt_succ hlen, hhandles⟩, howner' ▸ howner⟩
      exact fun r hr => ⟨howner' ▸ (hchosen.others r hr).1, (hchosen.others r hr).2⟩
    · intro d
      show digestsFor (pre ++ ragg' :: post) d = _
      rw [digestsFor_middle (fun r hr => howner' ▸ (hchosen.others r hr).1), howner',
        hholds.digests_eq, hchosen.digests d, List.append_assoc]
      split_ifs <;> rfl
  · rw [if_neg hfull]
    have hsend : (⟨pre ++ ragg' :: post, free⟩ : Aggregates).remoteAggregateSend pre.length =
        .ok (⟨pre ++ post, free ++ [ragg'.release]⟩,
          ⟨ownerIp, RemotePacket.codec.encodeAll (l ++ [info])⟩) := by
      unfold Aggregates.remoteAggregateSend
      dsimp only
      rw [getElem?_middle]
      dsimp only
      rw [hholds.m (by simp)]
      dsimp only
      rw [if_neg (howner' ▸ howner), eraseIdx_middle, howner']
    rw [hsend]
    have hdecodes := decodes_of_fits ⟨hle, hhandles⟩ ownerIp
    refine ⟨_, some _, rfl, ⟨?_, hchosen.distinct, fun r hr => (hchosen.others r hr).2⟩, ?_, ?_⟩
    · show (pre ++ post).length + (free ++ [ragg'.release]).length = mnMaxCores
      have htotal := hchosen.total
      have hfree : (free ++ [ragg'.release]).length = free.length + 1 := List.length_append
      omega
    · intro s hs
      rw [Option.toList_some, List.mem_singleton] at hs
      subst hs
      exact ⟨_, hdecodes⟩
    · intro d
      rw [Option.toList_some, sentFor_singleton hdecodes, hchosen.digests d]
      show (if ownerIp = d then _ else _) ++ digestsFor (pre ++ post) d = _
      by_cases hd : ownerIp = d
      · rw [if_pos hd, if_pos hd, if_pos hd,
          digestsFor_eq_nil fun r hr => hd ▸ (hchosen.others r hr).1]
        simp
      · rw [if_neg hd, if_neg hd, if_neg hd]
        simp

theorem Queues.hasRoom_of_choose (h : Queues a) {a' : Aggregates} {i : ℕ} {ragg : RemoteAggregate}
    (hchoose : a.choose ownerIp = .ok (a', i)) (hragg : a'.pendingXc[i]? = some ragg) :
    ragg.hasRoom := by
  have hroom : ownerIp ∈ a.pendingXc.map (·.id) ∨ a.pendingXc.length < mnMaxCores := by
    have htotal := h.total
    unfold Aggregates.choose at hchoose
    split at hchoose
    · next i hfind =>
      obtain ⟨hi, hid, -⟩ := List.findIdx?_eq_some_iff_getElem.mp hfind
      exact Or.inl (List.mem_map.mpr ⟨_, List.getElem_mem hi, of_decide_eq_true hid⟩)
    · split at hchoose
      · cases hchoose
      · next free hfree =>
        rw [hfree, List.length_cons] at htotal
        exact Or.inr (by omega)
  obtain ⟨pre, post, free, r, l, hchosen⟩ := h.chosen hroom
  cases hchosen.choose.symm.trans hchoose
  cases (getElem?_middle pre post r).symm.trans hragg
  exact (hchosen.holds.hasRoom_iff (Nat.le_trans hchosen.fits.1 (by decide))).mpr
    (Nat.lt_succ_of_le hchosen.fits.1)

theorem remoteAggregateSend_zero {ragg : RemoteAggregate} (rest free : List RemoteAggregate)
    {l : List RemotePacket} (hentry : Entry ragg l) :
    (⟨ragg :: rest, free⟩ : Aggregates).remoteAggregateSend 0 =
      .ok (⟨rest, free ++ [ragg.release]⟩, ⟨ragg.id, RemotePacket.codec.encodeAll l⟩) := by
  unfold Aggregates.remoteAggregateSend
  dsimp only
  rw [List.getElem?_cons_zero]
  dsimp only
  rw [hentry.holds.m hentry.ne_nil]
  dsimp only
  rw [if_neg hentry.id, List.eraseIdx_cons_zero]

theorem Queues.cleanLoop {n : ℕ} (h : Queues a) (hn : a.pendingXc.length ≤ n) :
    ∃ a' sent, Aggregates.cleanLoop n a = .ok (a', sent) ∧ Effect a a' sent (fun _ => []) ∧
      a'.pendingXc = [] := by
  induction n generalizing a with
  | zero =>
    have hnil := List.eq_nil_of_length_eq_zero (Nat.le_zero.mp hn)
    exact ⟨a, [], rfl, ⟨h, fun s hs => absurd hs List.not_mem_nil,
      fun d => (List.append_nil _).symm⟩, hnil⟩
  | succ n ih =>
    obtain ⟨pending, free⟩ := a
    cases pending with
    | nil =>
      exact ⟨_, [], rfl, ⟨h, fun s hs => absurd hs List.not_mem_nil,
        fun d => (List.append_nil _).symm⟩, rfl⟩
    | cons ragg rest =>
      obtain ⟨l, hentry⟩ := h.entries ragg List.mem_cons_self
      have hsend := remoteAggregateSend_zero rest free hentry
      have hdecodes := decodes_of_fits (l := l)
        ⟨Nat.le_trans hentry.fits.1 (by decide), hentry.fits.2⟩ ragg.id
      have hrest : Queues ⟨rest, free ++ [ragg.release]⟩ := by
        refine ⟨?_, (List.nodup_cons.mp h.distinct).2,
          fun r hr => h.entries r (List.mem_cons_of_mem _ hr)⟩
        have htotal : (ragg :: rest).length + free.length = mnMaxCores := h.total
        have hfree : (free ++ [ragg.release]).length = free.length + 1 := List.length_append
        rw [List.length_cons] at htotal
        show rest.length + (free ++ [ragg.release]).length = mnMaxCores
        omega
      obtain ⟨a', sent, hloop, heffect, hnil⟩ := ih hrest (Nat.le_of_succ_le_succ hn)
      refine ⟨a', ⟨ragg.id, RemotePacket.codec.encodeAll l⟩ :: sent, ?_,
        ⟨heffect.queues, ?_, ?_⟩, hnil⟩
      · unfold Aggregates.cleanLoop
        rw [if_neg (List.cons_ne_nil ragg rest), hsend]
        simp only [bind, Except.bind, hloop]
        rfl
      · intro s hs
        rcases List.mem_cons.mp hs with rfl | hs
        · exact ⟨l, hdecodes⟩
        · exact heffect.decodes s hs
      · intro d
        rw [← List.singleton_append, sentFor_append, List.append_assoc, heffect.fifo d,
          List.append_nil, List.append_nil, sentFor_singleton hdecodes]
        show _ = digestsFor (ragg :: rest) d
        rw [digestsFor_cons, hentry.holds.digests_eq]

/-! ## Runs -/

/-- Nothing is lost, duplicated or reordered on the way to any destination, and the bookkeeping of
the entries is right. -/
structure Xmit.Faithful (x : Xmit) : Prop where
  fifo : ∀ d, x.delivered d ++ digestsFor x.agg.pendingXc d = x.submittedTo d
  bytesLeft : ∀ ragg ∈ x.agg.pendingXc,
    ragg.bytesLeft = mnMtu - udpiphdrSize - ragg.numDigests * remotePacketSize
  distinct : (x.agg.pendingXc.map (·.id)).Nodup
  total : x.agg.pendingXc.length + x.agg.freePendingXc.length = mnMaxCores
  room : ∀ ownerIp a i ragg, x.agg.choose ownerIp = .ok (a, i) → a.pendingXc[i]? = some ragg →
    ragg.hasRoom
  decodes : ∀ s ∈ x.sent, ∃ l, Decodes s l

structure Xmit.Inv (x : Xmit) : Prop where
  queues : Queues x.agg
  decodes : ∀ s ∈ x.sent, ∃ l, Decodes s l
  fifo : ∀ d, sentFor x.sent d ++ digestsFor x.agg.pendingXc d = x.submittedTo d

namespace Xmit

variable {x : Xmit}

theorem Inv.faithful (h : x.Inv) : x.Faithful where
  fifo := h.fifo
  bytesLeft := by
    intro ragg hragg
    obtain ⟨l, hentry⟩ := h.queues.entries ragg hragg
    rw [hentry.holds.bytesLeft, hentry.holds.numDigests]
    rfl
  distinct := h.queues.distinct
  total := h.queues.total
  room := fun _ _ _ _ hchoose hragg => h.queues.hasRoom_of_choose hchoose hragg
  decodes := h.decodes

theorem inv_init : init.Inv where
  queues := ⟨rfl, List.nodup_nil, fun _ hr => absurd hr List.not_mem_nil⟩
  decodes := fun _ hs => absurd hs List.not_mem_nil
  fifo := fun _ => rfl

theorem Inv.of_effect (h : x.Inv) {a' : Aggregates} {sent : List Sent}
    {joined : BitVec 32 → List RemotePacket} {submitted : List (BitVec 32 × RemotePacket)}
    (heffect : Effect x.agg a' sent joined)
    (hjoined : ∀ d, (⟨a', submitted, x.sent ++ sent⟩ : Xmit).submittedTo d =
      x.submittedTo d ++ joined d) : (⟨a', submitted, x.sent ++ sent⟩ : Xmit).Inv where
  queues := heffect.queues
  decodes := fun s hs => (List.mem_append.mp hs).elim (h.decodes s) (heffect.decodes s)
  fifo := by
    intro d
    show sentFor (x.sent ++ sent) d ++ digestsFor a'.pendingXc d = _
    rw [hjoined d, ← h.fifo d, sentFor_append, List.append_assoc, heffect.fifo d,
      List.append_assoc]

/-- Both calls keep the invariant; a clean leaves nothing pending. -/
theorem Inv.exists_step (h : x.Inv) {op : Op} (hop : x.Allowed op) :
    ∃ x', x.step op = some x' ∧ x'.Inv ∧ (op = .clean → x'.agg.pendingXc = []) := by
  cases op with
  | aggregate info ownerIp =>
    obtain ⟨hid, howner, hroom⟩ := hop
    obtain ⟨a', sent, hcall, heffect⟩ := h.queues.remoteAggregate hid howner hroom
    refine ⟨⟨a', x.submitted ++ [(ownerIp, info)], x.sent ++ sent.toList⟩, ?_,
      h.of_effect heffect fun d => ?_, fun hclean => nomatch hclean⟩
    · unfold step
      dsimp only
      rw [hcall]
      rfl
    · unfold submittedTo
      rw [List.filter_append, List.map_append]
      by_cases hd : ownerIp = d
      · rw [if_pos hd, List.filter_cons_of_pos (by simpa using hd)]
        rfl
      · rw [if_neg hd, List.filter_cons_of_neg (by simpa using hd)]
        rfl
  | clean =>
    obtain ⟨a', sent, hcall, heffect, hnil⟩ := h.queues.cleanLoop (Nat.le_refl _)
    refine ⟨⟨a', x.submitted, x.sent ++ sent⟩, ?_,
      h.of_effect heffect fun d => (List.append_nil _).symm, fun _ => hnil⟩
    unfold step Aggregates.remoteAggregateClean
    dsimp only
    rw [hcall]
    rfl

/-- **Aggregation.** Every run completes; for every destination what has been decoded and what is
pending is what was submitted, in order; after a clean nothing is pending. -/
theorem faithful_run {ops : List Op} (hops : PartialRun.Guarded step Allowed init ops) :
    ∃ x, PartialRun.run step init ops = some x ∧ x.Faithful ∧
      ∃ x', x.step .clean = some x' ∧ x'.Faithful ∧ x'.agg.pendingXc = [] := by
  obtain ⟨x, hrun, hinv⟩ := PartialRun.run_isSome_guarded
    (fun _ _ h hop => (Inv.exists_step h hop).imp fun _ h' => ⟨h'.1, h'.2.1⟩) hops inv_init
  have hallowed : x.Allowed .clean := trivial
  obtain ⟨x', hclean, hinv', hnil⟩ := hinv.exists_step hallowed
  exact ⟨x, hrun, hinv.faithful, x', hclean, hinv'.faithful, hnil rfl⟩

/-- The record of a packet at address `id`. -/
def recordOf (id : Addr) : RemotePacket where
  id := id
  expire := 100
  len := 1500
  waitTime := 0
  src := 0x0a000001
  dst := 0x0a000002
  hop := 1
  ttl := 40
  xcpCwnd := 0
  xcpSrcFdbk := 0
  xcpRflctFdbk := 0
  xcpRtt := 0

/-- Two records for two cores. -/
theorem faithful_run_twoCores :
    ∃ x, PartialRun.run step init
        [.aggregate (recordOf 0x100) 0xc0a80002, .aggregate (recordOf 0x200) 0xc0a80003] = some x ∧
      x.Faithful ∧ ∃ x', x.step .clean = some x' ∧ x'.Faithful ∧ x'.agg.pendingXc = [] := by
  refine faithful_run ⟨⟨by decide, by decide, Or.inr (by decide)⟩, ?_⟩
  intro x hx
  cases hx
  exact ⟨⟨by decide, by decide, Or.inr (by decide)⟩, fun _ _ => trivial⟩

end Xmit

end Modelnet.FreeBSD

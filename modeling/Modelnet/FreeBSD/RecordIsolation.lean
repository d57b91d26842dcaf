import Modelnet.FreeBSD.DatagramParsing

/-!
# Records of one datagram

What `remote_input` would do if a record that is rejected were freed and the loop went on, as it does
without `DEBUG_REMOTE_INPUT` (`isolate`), and when the loop that jumps to the shared exit instead has
the same effect: no record after the first rejected one is a good one, and the counter does not stop
the loop in front of a record.
-/

namespace Modelnet.FreeBSD

open Modelnet

/-- A record of an aggregate, with the answers of the kernel for its turn. -/
structure Digest where
  info : RemotePacket
  env : Env

def Digest.payload (recs : List Digest) : List Byte :=
  RemotePacket.codec.encodeAll (recs.map (·.info))

namespace Core

/-- One cached record by itself: it is rejected, and its packet freed, or handed on. -/
def record (c : Core) (ipLen : ℕ) (d : Digest) : Except Fault (Core × Option Handed) :=
  match c.mallocPkt d.env with
  | none => return (c, none)
  | some p => do
    let t : Cursor.Taken := ⟨d.info, none, ⟨none, 0⟩⟩
    let r ← (c.setPkt p { freshPkt none 0 with info := d.info }).checkRecord ipLen p t
    match r.2 with
    | .rejected _ =>
      let c ← r.1.mnFreePkt p
      return (c, none)
    | .handed q _ =>
      let r ← r.1.emulateNexthop d.env q
      return (r.1, some ⟨q, d.info, r.2⟩)

/-- The records one after the other; those that are rejected are passed over. -/
def isolate (ipLen : ℕ) : List Digest → Core → Except Fault (Core × List Handed)
  | [], c => return (c, [])
  | d :: rest, c => do
    let r ← c.record ipLen d
    let s ← isolate ipLen rest r.1
    return (s.1, r.2.toList ++ s.2)

/-- The checks refuse a cached record with the struct `p`: for the size of the datagram, the `ttl`,
the path, or in `mc_reunite`. -/
def Refuses (c : Core) (ipLen : ℕ) (p : Addr) (info : RemotePacket) : Prop :=
  (¬ c.aggregate ∧ ipLen ≠ remotePacketSize + udpiphdrSize) ∨ info.ttl.sle 0 ∨
    c.lookupPath (info.src &&& ~~~modelForcebit) info.dst = .ok none ∨
    (c.Home info ∧ ¬ c.Passes p info)

/-- The record is rejected in this state. -/
def Rejects (c : Core) (ipLen : ℕ) (d : Digest) : Prop :=
  ∀ p, c.mallocPkt d.env = some p → c.Refuses ipLen p d.info

/-- All records behind the first rejected one are rejected too, and the loop does not come to a
record after `n` of them. -/
def Clean (ipLen : ℕ) : List Digest → ℕ → Core → Prop
  | [], _, _ => True
  | _ :: _, 0, _ => False
  | d :: rest, n + 1, c =>
    (c.Rejects ipLen d → ∀ d' ∈ rest, c.Rejects ipLen d') ∧
      (¬ c.Rejects ipLen d → ∀ r, c.record ipLen d = .ok r → Clean ipLen rest n r.1)

/-- A datagram of these records has the outcome of the records by themselves. -/
def Isolates (c : Core) (recs : List Digest) : Prop :=
  ∀ r, isolate ((Digest.payload recs).length + udpiphdrSize) recs c = .ok r →
    ∃ err, c.remoteInput (recs.map (·.env)) (Digest.payload recs) = .ok (r.1, err, r.2)

variable {c c' : Core} {env : Env} {p q : Addr} {l l' : InputLoop} {t : Cursor.Taken} {ipLen : ℕ}
  {d : Digest} {pkt : Packet}

/-! ## One record -/

/-- `mc_reunite` on the struct at `p`, which `malloc` has just returned, fails if and only if the
record does not pass its tests. A failure leaves the core as it is. -/
theorem mcReunite_fails (c : Core) (p : Addr) (pkt : Packet) :
    ((c.setPkt p pkt).mcReunite p).Yields (fun _ => True) fun r =>
      (r.2.1 ≠ 0 → r.1 = c.setPkt p pkt) ∧ (r.2.1 ≠ 0 ↔ ¬ c.Passes p pkt.info) := by
  unfold mcReunite
  rw [packet_setPkt]
  show (ite _ _ _ : Except Fault (Core × ℤ × Addr)).Yields _ _
  have hfails : ¬ c.Passes p pkt.info →
      ((1 : ℤ) ≠ 0 → c.setPkt p pkt = c.setPkt p pkt) ∧ ((1 : ℤ) ≠ 0 ↔ ¬ c.Passes p pkt.info) :=
    fun h => ⟨fun _ => rfl, fun _ => h, fun _ => one_ne_zero⟩
  by_cases hexpire : pkt.info.expire ≤ (c.setPkt p pkt).now
  · rw [if_pos hexpire]
    exact hfails fun h => BitVec.not_le.mpr h.1 hexpire
  rw [if_neg hexpire]
  by_cases hhop : pkt.info.hop = 0
  · rw [if_pos hhop]
    exact hfails fun h => h.2.1 hhop
  rw [if_neg hhop]
  refine (packet_yields trivial _ pkt.info.id).bind fun cached hcached => ?_
  have hheap : pkt.info.id ≠ p → c.pkts pkt.info.id = some cached := by
    intro hne
    rwa [pkts_setPkt_of_ne c pkt hne] at hcached
  by_cases hfishy : cached.info.id ≠ pkt.info.id ∨ cached.info.expire ≠ pkt.info.expire
  · rw [if_pos hfishy]
    refine hfails fun h => ?_
    by_cases hne : pkt.info.id = p
    · rw [hne, pkts_setPkt_self] at hcached
      cases hcached
      exact hfishy.elim (fun hid => hid rfl) fun hsame => hsame rfl
    · obtain ⟨cached', hcached', hid, hsame⟩ := h.2.2.resolve_left hne
      cases (hheap hne).symm.trans hcached'
      exact hfishy.elim (fun h => h hid) fun h => h hsame
  · rw [if_neg hfishy]
    obtain ⟨hid, hsame⟩ := not_or.mp hfishy
    have hpasses : c.Passes p pkt.info := by
      refine ⟨BitVec.not_le.mp hexpire, hhop, ?_⟩
      by_cases hne : pkt.info.id = p
      · exact Or.inl hne
      · exact Or.inr ⟨cached, hheap hne, not_not.mp hid, not_not.mp hsame⟩
    split_ifs
    · trivial
    · refine Except.Yields.bind (P := fun _ => True) ?_ fun c₁ _ => ?_
      · exact ((keeps_mnUncachePkt _ _).imp fun _ _ => trivial).imp_error fun _ _ => trivial
      · refine Except.Yields.bind (P := fun _ => True) ?_ fun c₂ _ => ?_
        · exact ((keeps_mnFreePkt _ p).imp fun _ _ => trivial).imp_error fun _ _ => trivial
        · exact ⟨fun h => absurd rfl h, fun h => absurd rfl h, fun h => absurd hpasses h⟩

/-- The checks on a cached record. A rejected one leaves its struct and nothing else. -/
theorem checkRecord_refuses_iff (hid : d.info.id ≠ 0) (ipLen : ℕ) (p : Addr) (pkt : Packet) :
    ((c.setPkt p pkt).checkRecord ipLen p ⟨d.info, none, ⟨none, 0⟩⟩).Yields (fun _ => True) fun r =>
      (∀ err, r.2 = .rejected err → c.Refuses ipLen p d.info ∧ ∃ pkt', r.1 = c.setPkt p pkt') ∧
        ∀ q host, r.2 = .handed q host → ¬ c.Refuses ipLen p d.info := by
  have hrejected : ∀ (pkt' : Packet) (err : ℤ), c.Refuses ipLen p d.info →
      (∀ err', Verdict.rejected err = .rejected err' → c.Refuses ipLen p d.info ∧
        ∃ pkt'', c.setPkt p pkt' = c.setPkt p pkt'') ∧
          ∀ q host, Verdict.rejected err = .handed q host → ¬ c.Refuses ipLen p d.info :=
    fun pkt' err h => ⟨fun _ _ => ⟨h, pkt', rfl⟩, by rintro _ _ ⟨⟩⟩
  have hhanded : ∀ (c' : Core) q host, ¬ c.Refuses ipLen p d.info →
      (∀ err, Verdict.handed q host = .rejected err → c.Refuses ipLen p d.info ∧
        ∃ pkt', c' = c.setPkt p pkt') ∧
          ∀ q' host', Verdict.handed q host = .handed q' host' → ¬ c.Refuses ipLen p d.info :=
    fun c' q host h => ⟨by rintro _ ⟨⟩, fun _ _ _ => h⟩
  unfold checkRecord
  by_cases hsize : ¬ c.aggregate ∧ ipLen ≠ remotePacketSize + udpiphdrSize
  · rw [if_pos ⟨hid, hsize⟩]
    exact hrejected pkt _ (Or.inl hsize)
  rw [if_neg fun h => hsize h.2]
  by_cases httl : d.info.ttl.sle 0
  · rw [if_pos httl]
    exact hrejected pkt _ (Or.inr (Or.inl httl))
  rw [if_neg httl]
  refine (lookupPath_yields trivial _ _ _).bind fun path hpath => ?_
  cases path with
  | none => exact hrejected pkt _ (Or.inr (Or.inr (Or.inl hpath)))
  | some path =>
    refine (readPath_yields trivial _ _).bind fun curhop hcurhop => ?_
    cases curhop with
    | none => trivial
    | some h =>
      refine (hop_yields trivial _ h).bind fun hop hhop => ?_
      have hpath : c.lookupPath (d.info.src &&& ~~~modelForcebit) d.info.dst = .ok (some path) :=
        hpath
      have haccepts : (c.Home d.info → c.Passes p d.info) → ¬ c.Refuses ipLen p d.info := by
        rintro hhome (h | h | h | h)
        · exact hsize h
        · exact httl h
        · cases hpath.symm.trans h
        · exact h.2 (hhome h.1)
      show (ite _ _ _ : Except Fault (Core × Verdict)).Yields _ _
      by_cases hback : hop.emulator = 0 ∧ d.info.id ≠ 0
      · rw [if_pos hback]
        have hhome : c.Home d.info := ⟨path, h, hop, hpath, hcurhop, hhop, hback.1⟩
        unfold arrive
        rw [setPkt_setPkt]
        refine (mcReunite_fails c p _).bind fun r hr => ?_
        by_cases herr : r.2.1 ≠ 0
        · have hcore := hr.1 herr
          rw [if_pos herr]
          show (∀ err, _ → _ ∧ ∃ pkt', r.1 = _) ∧ _
          rw [hcore]
          exact hrejected _ _ (Or.inr (Or.inr (Or.inr ⟨hhome, hr.2.mp herr⟩)))
        · rw [if_neg herr]
          exact hhanded r.1 _ _ (haccepts fun _ => not_not.mp fun h => herr (hr.2.mpr h))
      · rw [if_neg hback]
        refine hhanded _ _ _ (haccepts ?_)
        rintro ⟨path', h', hop', hpath', hcurhop', hhop', hzero⟩
        cases hpath.symm.trans hpath'
        cases hcurhop.symm.trans hcurhop'
        cases hhop.symm.trans hhop'
        exact absurd ⟨hzero, hid⟩ hback

theorem eq_freePkt_of_mnFreePkt (h : c.mnFreePkt p = .ok c') : c' = c.freePkt p := by
  unfold mnFreePkt at h
  split_ifs at h
  obtain ⟨pkt, -, h⟩ := Except.bind_eq_ok_iff.mp h
  cases h
  rfl

theorem record_rejects_iff (hid : d.info.id ≠ 0) {o : Option Handed}
    (h : c.record ipLen d = .ok (c', o)) :
    (o = none → c.Rejects ipLen d ∧ c' = c) ∧
      ∀ x, o = some x → ¬ c.Rejects ipLen d ∧ x.info = d.info := by
  unfold record at h
  cases hmalloc : c.mallocPkt d.env with
  | none =>
    rw [hmalloc] at h
    cases h
    refine ⟨fun _ => ⟨fun p hp => ?_, rfl⟩, by rintro _ ⟨⟩⟩
    cases hmalloc.symm.trans hp
  | some p =>
    have hp := (mallocPkt_eq_some hmalloc).2
    rw [hmalloc] at h
    obtain ⟨⟨c₁, verdict⟩, hcheck, h⟩ := Except.bind_eq_ok_iff.mp h
    obtain ⟨hrejected, hhanded⟩ := (checkRecord_refuses_iff hid ipLen p _).of_ok hcheck
    cases verdict with
    | rejected err =>
      obtain ⟨hrefuses, pkt', rfl⟩ := hrejected err rfl
      obtain ⟨c₂, hfree, h⟩ := Except.bind_eq_ok_iff.mp h
      cases h
      refine ⟨fun _ => ⟨fun p' hp' => ?_, ?_⟩, by rintro _ ⟨⟩⟩
      · cases hmalloc.symm.trans hp'
        exact hrefuses
      · rw [eq_freePkt_of_mnFreePkt hfree, freePkt_setPkt_fresh hp]
    | handed q host =>
      obtain ⟨r, -, h⟩ := Except.bind_eq_ok_iff.mp h
      cases h
      refine ⟨(by rintro ⟨⟩), ?_⟩
      rintro _ ⟨⟩
      exact ⟨fun hrejects => hhanded q host rfl (hrejects p hmalloc), rfl⟩

/-- The body of the loop on a cached record is the record by itself. -/
theorem inputBody_record {o : Option Handed} (htake : l.cursor.take = .ok t)
    (hinfo : t.info = d.info) (hm : t.m = none) (h : c.record l.ipLen d = .ok (c', o)) :
    (o = none → ∃ err, c.inputBody l d.env = .ok (c', .done err)) ∧
      ∀ x, o = some x → ∃ host, c.inputBody l d.env =
        .ok (c', .next { l with cursor := t.cursor, pkt := some x.p } x.p host x.info x.fate) := by
  obtain ⟨info, m, cursor⟩ := t
  obtain ⟨info', env⟩ := d
  cases hinfo
  cases hm
  unfold record at h
  unfold inputBody
  dsimp only at h ⊢
  cases hmalloc : c.mallocPkt env with
  | none =>
    rw [hmalloc] at h
    cases h
    exact ⟨fun _ => ⟨_, rfl⟩, by rintro _ ⟨⟩⟩
  | some p =>
    rw [hmalloc] at h
    dsimp only at h ⊢
    rw [htake]
    obtain ⟨⟨c₁, verdict⟩, hcheck, h⟩ := Except.bind_eq_ok_iff.mp h
    have hcheck : (c.setPkt p { freshPkt none 0 with info := info }).checkRecord l.ipLen p
        ⟨info, none, cursor⟩ = .ok (c₁, verdict) := hcheck
    show (_ → ∃ err, (checkRecord (c.setPkt p { freshPkt none 0 with info := info }) l.ipLen p
      ⟨info, none, cursor⟩ >>= _ : Except Fault (Core × Turn)) = _) ∧ ∀ x, _ → ∃ host,
        (checkRecord (c.setPkt p { freshPkt none 0 with info := info }) l.ipLen p
          ⟨info, none, cursor⟩ >>= _ : Except Fault (Core × Turn)) = _
    rw [hcheck]
    cases verdict with
    | rejected err =>
      obtain ⟨c₂, hfree, h⟩ := Except.bind_eq_ok_iff.mp h
      cases h
      refine ⟨fun _ => ⟨err, ?_⟩, by rintro _ ⟨⟩⟩
      show (c₁.mnFreePkt p >>= _ : Except Fault (Core × Turn)) = _
      rw [hfree]
      rfl
    | handed q host =>
      obtain ⟨r, hemulate, h⟩ := Except.bind_eq_ok_iff.mp h
      cases h
      refine ⟨(by rintro ⟨⟩), ?_⟩
      rintro _ ⟨⟩
      refine ⟨host, ?_⟩
      show (c₁.emulateNexthop env q >>= _ : Except Fault (Core × Turn)) = _
      rw [hemulate]
      rfl

/-! ## The loop -/

variable {recs rest : List Digest} {r : Core × List Handed}

theorem isolate_cons (h : isolate ipLen (d :: rest) c = .ok r) :
    ∃ c' o s, c.record ipLen d = .ok (c', o) ∧ isolate ipLen rest c' = .ok s ∧
      r = (s.1, o.toList ++ s.2) := by
  unfold isolate at h
  obtain ⟨⟨c', o⟩, hrecord, h⟩ := Except.bind_eq_ok_iff.mp h
  obtain ⟨s, hrest, h⟩ := Except.bind_eq_ok_iff.mp h
  cases h
  exact ⟨c', o, s, hrecord, hrest, rfl⟩

/-- Nothing is handed on, and the core stays as it is, if and only if every record is rejected. -/
theorem isolate_eq_nil_iff (hids : ∀ d ∈ recs, d.info.id ≠ 0) (h : isolate ipLen recs c = .ok r) :
    (r.2 = [] ↔ ∀ d ∈ recs, c.Rejects ipLen d) ∧ (r.2 = [] → r.1 = c) := by
  induction recs generalizing r with
  | nil =>
    cases h
    exact ⟨⟨fun _ _ hd => absurd hd List.not_mem_nil, fun _ => rfl⟩, fun _ => rfl⟩
  | cons d rest ih =>
    obtain ⟨c', o, s, hrecord, hrest, rfl⟩ := isolate_cons h
    obtain ⟨hnone, hsome⟩ := record_rejects_iff (hids d List.mem_cons_self) hrecord
    cases o with
    | none =>
      obtain ⟨hrejects, rfl⟩ := hnone rfl
      obtain ⟨hiff, hcore⟩ := ih (fun d' hd' => hids d' (List.mem_cons_of_mem d hd')) hrest
      refine ⟨?_, hcore⟩
      rw [List.forall_mem_cons]
      exact ⟨fun hnil => ⟨hrejects, hiff.mp hnil⟩, fun hall => hiff.mpr hall.2⟩
    | some x =>
      refine ⟨⟨?_, fun hall => ?_⟩, ?_⟩
      · rintro ⟨⟩
      · exact absurd (hall d List.mem_cons_self) (hsome x rfl).1
      · rintro ⟨⟩

/-- The records that are rejected might as well not be there. -/
theorem isolate_sublist (hids : ∀ d ∈ recs, d.info.id ≠ 0) (h : isolate ipLen recs c = .ok r) :
    ∃ kept, kept.Sublist recs ∧ kept.map (·.info) = r.2.map (·.info) ∧
      isolate ipLen kept c = .ok r := by
  induction recs generalizing c r with
  | nil =>
    cases h
    exact ⟨[], .slnil, rfl, rfl⟩
  | cons d rest ih =>
    obtain ⟨c', o, s, hrecord, hrest, rfl⟩ := isolate_cons h
    obtain ⟨kept, hsub, hinfo, hkept⟩ := ih (fun d' hd' => hids d' (List.mem_cons_of_mem d hd')) hrest
    obtain ⟨hnone, hsome⟩ := record_rejects_iff (hids d List.mem_cons_self) hrecord
    cases o with
    | none =>
      obtain ⟨-, rfl⟩ := hnone rfl
      exact ⟨kept, hsub.cons d, hinfo, hkept⟩
    | some x =>
      refine ⟨d :: kept, hsub.cons_cons d, ?_, ?_⟩
      · show d.info :: kept.map _ = x.info :: s.2.map _
        rw [hinfo, (hsome x rfl).2]
      · unfold isolate
        rw [hrecord]
        show (isolate ipLen kept c' >>= _ : Except Fault (Core × List Handed)) = _
        rw [hkept]
        rfl

theorem payload_cons (d : Digest) (rest : List Digest) :
    Digest.payload (d :: rest) = d.info.encode ++ Digest.payload rest :=
  RemotePacket.codec.encodeAll_cons d.info (rest.map Digest.info)

theorem test_payload {n : ℕ} (hm : l.cursor.m = some (Digest.payload (d :: rest)))
    (honce : l.cursor.once + n = 47) (hpos : l.cursor.once ≠ 0) :
    l.cursor.test = .ok (if n = 0 then .tooMany else .body) := by
  have hne : Digest.payload (d :: rest) ≠ [] := by
    rw [payload_cons]
    exact fun h => absurd (congrArg List.length (List.append_eq_nil_iff.mp h).1)
      (by rw [RemotePacket.length_encode]; decide)
  unfold Cursor.test
  rw [hm]
  dsimp only
  rw [if_neg (not_or.mpr ⟨hne, hpos⟩)]
  split_ifs
  · rfl
  · omega
  · omega
  · rfl

theorem take_payload (hm : l.cursor.m = some (Digest.payload (d :: rest))) (hid : d.info.id ≠ 0) :
    l.cursor.take =
      .ok ⟨d.info, none, ⟨some (Digest.payload rest), l.cursor.once + 1⟩⟩ := by
  have hdecode : RemotePacket.decode (Digest.payload (d :: rest)) = d.info := by
    rw [payload_cons]
    exact RemotePacket.decode_encode_append d.info _
  have hrest : (Digest.payload (d :: rest)).drop remotePacketSize = Digest.payload rest := by
    rw [payload_cons]
    exact RemotePacket.codec.drop_encode_append d.info _
  have hlen : ¬ (Digest.payload (d :: rest)).length < remotePacketSize := by
    rw [payload_cons, List.length_append, RemotePacket.length_encode]
    exact Nat.not_lt.mpr (Nat.le_add_right _ _)
  unfold Cursor.take
  rw [hm]
  dsimp only
  rw [if_neg hlen, hdecode, hrest, if_pos hid]

/-- The shared exit frees the packet of a record that has been handed on. -/
theorem inputError_ne (hpkt : l.pkt.isSome) : c.inputError l.pkt ≠ .ok c := by
  obtain ⟨q, hq⟩ := Option.isSome_iff_exists.mp hpkt
  rw [hq]
  intro h
  have hfree : c.mnFreePkt q = .ok c := h
  have hcore := eq_freePkt_of_mnFreePkt hfree
  have hlive : (c.packet q).Yields (fun _ => True) fun pkt => c.pkts q = some pkt :=
    packet_yields trivial c q
  unfold mnFreePkt at hfree
  split_ifs at hfree
  obtain ⟨pkt, hpacket, -⟩ := Except.bind_eq_ok_iff.mp hfree
  have hsome := hlive.of_ok hpacket
  rw [hcore, pkts_freePkt_self] at hsome
  cases hsome

/-- A turn beyond the limit frees the packet of the turn before, also when nothing has been
rejected. -/
theorem not_isolates_limit (hids : ∀ d' ∈ d :: rest, d'.info.id ≠ 0)
    (htest : l.cursor.test = .ok .tooMany) (hpkt : l.pkt.isSome)
    (h : isolate l.ipLen (d :: rest) c = .ok r) :
    ¬ ∃ err, inputLoop ((d :: rest).map (·.env)) c l = .ok (r.1, err, r.2) := by
  have hturn : c.turn l d.env = c.inputError l.pkt >>= fun c => .ok (c, .done 1) := by
    unfold turn
    rw [htest]
    rfl
  rintro ⟨err, heq⟩
  rw [List.map_cons, inputLoop_cons, hturn] at heq
  obtain ⟨t, ht, heq⟩ := Except.bind_eq_ok_iff.mp heq
  obtain ⟨c₁, hfree, ht⟩ := Except.bind_eq_ok_iff.mp ht
  cases ht
  obtain ⟨hcore, hrest⟩ := Prod.mk.inj (Except.ok.inj heq)
  have hhanded := (Prod.mk.inj hrest).2
  have hcore : c₁ = r.1 := hcore
  rw [hcore, (isolate_eq_nil_iff hids h).2 hhanded.symm] at hfree
  exact inputError_ne hpkt hfree

/-- A rejected record ends the loop, so the rest has to be rejected too. -/
theorem isolates_rejected_iff {err : ℤ} {s : Core × List Handed}
    (hids : ∀ d' ∈ rest, d'.info.id ≠ 0) (hturn : c.turn l d.env = .ok (c, .done err))
    (h : isolate ipLen rest c = .ok s) :
    (∃ err, inputLoop ((d :: rest).map (·.env)) c l = .ok (s.1, err, s.2)) ↔
      ∀ d' ∈ rest, c.Rejects ipLen d' := by
  obtain ⟨hiff, hsame⟩ := isolate_eq_nil_iff hids h
  have hloop : inputLoop ((d :: rest).map (·.env)) c l = .ok (c, some err, []) := by
    rw [List.map_cons, inputLoop_cons, hturn]
    rfl
  constructor
  · rintro ⟨err', heq⟩
    have hempty := (Prod.mk.inj (Prod.mk.inj (Except.ok.inj (hloop.symm.trans heq))).2).2
    exact hiff.mp hempty.symm
  · intro hall
    have hempty := hiff.mpr hall
    refine ⟨some err, ?_⟩
    rw [hloop, hempty, hsame hempty]

/-- A record that is handed on leaves the rest to the rest of the loop. -/
theorem isolates_kept_iff {host : BitVec 32} {x : Handed} {s : Core × List Handed}
    (hturn : c.turn l d.env = .ok (c', .next l' x.p host x.info x.fate)) :
    (∃ err, inputLoop ((d :: rest).map (·.env)) c l = .ok (s.1, err, x :: s.2)) ↔
      ∃ err, inputLoop (rest.map (·.env)) c' l' = .ok (s.1, err, s.2) := by
  have hloop : inputLoop ((d :: rest).map (·.env)) c l =
      inputLoop (rest.map (·.env)) c' l' >>= fun r => .ok (r.1, r.2.1, x :: r.2.2) := by
    rw [List.map_cons, inputLoop_cons, hturn]
    rfl
  rw [hloop]
  constructor
  · rintro ⟨err, heq⟩
    obtain ⟨r, hr, heq⟩ := Except.bind_eq_ok_iff.mp heq
    obtain ⟨hcore, heq⟩ := Prod.mk.inj (Except.ok.inj heq)
    obtain ⟨-, hhanded⟩ := Prod.mk.inj heq
    have hhanded : r.2.2 = s.2 := (List.cons.inj hhanded).2
    refine ⟨r.2.1, ?_⟩
    rw [hr, ← hcore, ← hhanded]
  · rintro ⟨err, heq⟩
    exact ⟨err, Except.bind_eq_ok_iff.mpr ⟨_, heq, rfl⟩⟩

/-- **The loop over cached records.** -/
theorem isolates_loop {n : ℕ} (hids : ∀ d ∈ recs, d.info.id ≠ 0)
    (hm : l.cursor.m = some (Digest.payload recs)) (honce : l.cursor.once + n = 47)
    (hpos : l.cursor.once ≠ 0) (hpkt : n = 0 → l.pkt.isSome)
    (h : isolate l.ipLen recs c = .ok r) :
    (∃ err, inputLoop (recs.map (·.env)) c l = .ok (r.1, err, r.2)) ↔
      Clean l.ipLen recs n c := by
  induction recs generalizing c l n r with
  | nil =>
    cases h
    have htest : l.cursor.test = .ok .exit := by
      unfold Cursor.test
      rw [hm]
      rfl
    refine ⟨fun _ => trivial, fun _ => ⟨some 0, ?_⟩⟩
    show inputLoop [] c l = _
    unfold inputLoop
    rw [htest]
    rfl
  | cons d rest ih =>
    have htest := test_payload hm honce hpos
    cases n with
    | zero =>
      exact ⟨fun heq => absurd heq (not_isolates_limit hids htest (hpkt rfl) h), fun h => h.elim⟩
    | succ n =>
      obtain ⟨c', o, s, hrecord, hrest, rfl⟩ := isolate_cons h
      have hid := hids d List.mem_cons_self
      have hids' : ∀ d' ∈ rest, d'.info.id ≠ 0 :=
        fun d' hd' => hids d' (List.mem_cons_of_mem d hd')
      obtain ⟨hnone, hsome⟩ := record_rejects_iff hid hrecord
      have hturn : c.turn l d.env = c.inputBody l d.env := by
        unfold turn
        rw [htest]
        rfl
      obtain ⟨hdone, hnext⟩ := inputBody_record (take_payload hm hid) rfl rfl hrecord
      rw [← hturn] at hdone hnext
      cases o with
      | none =>
        obtain ⟨hrejects, rfl⟩ := hnone rfl
        obtain ⟨err, hbody⟩ := hdone rfl
        refine (isolates_rejected_iff hids' hbody hrest).trans ?_
        constructor
        · exact fun hall => ⟨fun _ => hall, fun hgood => absurd hrejects hgood⟩
        · exact fun hclean => hclean.1 hrejects
      | some x =>
        obtain ⟨host, hbody⟩ := hnext x rfl
        obtain ⟨hgood, -⟩ := hsome x rfl
        have hrest' := ih (l := { l with
            cursor := ⟨some (Digest.payload rest), l.cursor.once + 1⟩, pkt := some x.p })
          (n := n) hids' rfl (by show l.cursor.once + 1 + n = 47; omega) (Nat.succ_ne_zero _)
          (fun _ => rfl) hrest
        refine ((isolates_kept_iff hbody).trans hrest').trans ?_
        constructor
        · refine fun h => ⟨fun hrejects => absurd hrejects hgood, fun _ r hr => ?_⟩
          cases hrecord.symm.trans hr
          exact h
        · exact fun h => h.2 hgood (c', some x) hrecord

/-- **Records by themselves.** On a datagram of cached records `remote_input` hands on the good ones
as if the rejected ones were not there, and frees no other packet, if and only if the datagram is
clean. -/
theorem isolates_iff (c : Core) {recs : List Digest} (hids : ∀ d ∈ recs, d.info.id ≠ 0) :
    c.Isolates recs ↔ ∀ r, isolate ((Digest.payload recs).length + udpiphdrSize) recs c = .ok r →
      Clean ((Digest.payload recs).length + udpiphdrSize) recs 46 c := by
  refine forall_congr' fun r => imp_congr_right fun h => ?_
  exact isolates_loop (l := InputLoop.start (Digest.payload recs)) hids rfl rfl one_ne_zero
    (by rintro ⟨⟩) h

/-- A record without `ttl`. -/
def expired : Digest := ⟨{ Xmit.recordOf 0x100 with ttl := 0 }, System.plainEnv 0x200⟩

/-- The record of a packet of another core. -/
def passing : Digest := ⟨Xmit.recordOf 0x300, System.plainEnv 0x400⟩

/-- The good record in front of the expired one. -/
theorem isolates_passing_expired :
    (System.load 1000 0 (System.twoNodes [0xc0a80001, 0xc0a80003]) (fun _ => none) false).core.Isolates
      [passing, expired] := by
  have hids : ∀ d ∈ [passing, expired], d.info.id ≠ 0 := by
    rw [List.forall_mem_cons, List.forall_mem_singleton]
    exact ⟨by decide, by decide⟩
  refine (isolates_iff _ hids).mpr fun r _ => ?_
  refine ⟨fun hrejects => ?_, fun _ r hr => ⟨fun _ => by simp, fun _ _ _ => trivial⟩⟩
  rcases hrejects 0x400 rfl with ⟨hagg, -⟩ | httl | hpath | ⟨⟨path, h, hop, hpath, hread, hhop, hzero⟩, -⟩
  · exact absurd rfl hagg
  · exact absurd httl (by decide)
  · cases hpath
  · cases hpath
    cases hread
    cases hhop
    exact absurd hzero (by decide)

/-- The good record behind the expired one is lost. -/
theorem not_isolates_expired_passing :
    ¬ ∀ (c : Core) (recs : List Digest), (∀ d ∈ recs, d.info.id ≠ 0) → c.Isolates recs := by
  intro h
  have hids : ∀ d ∈ [expired, passing], d.info.id ≠ 0 := by
    rw [List.forall_mem_cons, List.forall_mem_singleton]
    exact ⟨by decide, by decide⟩
  have hisolates := h (System.load 1000 0 (System.twoNodes [0xc0a80001, 0xc0a80003])
    (fun _ => none) false).core _ hids
  have hgood : (isolate ((Digest.payload [expired, passing]).length + udpiphdrSize)
      [expired, passing] (System.load 1000 0 (System.twoNodes [0xc0a80001, 0xc0a80003])
        (fun _ => none) false).core).toOption.map (fun r => r.2.length) = some 1 := rfl
  have hlost : (remoteInput (System.load 1000 0 (System.twoNodes [0xc0a80001, 0xc0a80003])
      (fun _ => none) false).core ([expired, passing].map (·.env))
        (Digest.payload [expired, passing])).toOption.map (fun r => r.2.2.length) = some 0 := rfl
  obtain ⟨r, hr, hlength⟩ := Option.map_eq_some_iff.mp hgood
  obtain ⟨err, heq⟩ := hisolates r (Except.toOption_eq_some_iff.mp hr)
  rw [heq] at hlost
  exact absurd (hlength.symm.trans (Option.some.inj hlost)) (by decide)

end Core

end Modelnet.FreeBSD

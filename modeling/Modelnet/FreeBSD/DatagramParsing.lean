import Modelnet.FreeBSD.Ttl

/-!
# Where the loop of `remote_input` reads

Every record that is handed on is a whole one of the datagram. But a remainder that is too short for
a record is copied all the same, and after a record that is not cached the condition of the loop
reads the chain that has been given away. `TurnParses` is the condition on a turn under which
neither happens.
-/

namespace Modelnet.FreeBSD

open Modelnet

namespace Core

/-- A turn that goes on, seen from its variables. -/
def inputStep (s : Core × InputLoop) (env : Env) : Option (Core × InputLoop) :=
  match s.1.turn s.2 env with
  | .ok (c, .next l _ _ _ _) => some (c, l)
  | _ => none

/-- A record that is not cached has a `ttl` and a path, and `emulate_nexthop` comes back from its
packet. -/
def Survives (c : Core) (env : Env) (p : Addr) (t : Cursor.Taken) : Prop :=
  ¬ t.info.ttl.sle 0 ∧ ∃ path h hop r,
    c.lookupPath (t.info.src &&& ~~~modelForcebit) t.info.dst = .ok (some path) ∧
      c.readPath (some path) = .ok (some h) ∧ c.tab.hops h = some hop ∧
      (c.arrive p t path hop.emulator).emulateNexthop env p = .ok r

/-- A turn with a packet struct has a whole record in front of it, and one that is not cached does
not get past the checks and `emulate_nexthop`. -/
def TurnParses (s : Core × InputLoop) (env : Env) : Prop :=
  ∀ bs p, s.2.cursor.test = .ok .body → s.2.cursor.m = some bs → s.1.mallocPkt env = some p →
    remotePacketSize ≤ bs.length ∧
      ((RemotePacket.decode bs).id = 0 → ¬ s.1.Survives env p
        ⟨RemotePacket.decode bs, some (bs.drop remotePacketSize), ⟨none, 0⟩⟩)

/-- What the loop over the chain `bs` has to do: nothing is decoded from past its end, the
condition of the loop can be read, each record handed on is a whole one of the chain, in order, and
an end without an error has used the chain up. -/
structure ParsesWell (envs : List Env) (c : Core) (l : InputLoop) (bs : List Byte) : Prop where
  inside : inputLoop envs c l ≠ .error .copyPastEnd
  ends : inputLoop envs c l ≠ .error .nullChain
  records : ∀ c' err hs, inputLoop envs c l = .ok (c', err, hs) → ∀ i h, hs[i]? = some h →
    (i + 1) * remotePacketSize ≤ bs.length ∧
      h.info = RemotePacket.decode (bs.drop (i * remotePacketSize))
  whole : ∀ c' hs, inputLoop envs c l = .ok (c', some 0, hs) →
    bs.length = hs.length * remotePacketSize

variable {c c' : Core} {env : Env} {envs : List Env} {p q : Addr} {l l' : InputLoop}
  {bs : List Byte} {t : Cursor.Taken}

/-! ## The variables of a turn -/

theorem test_some (hm : l.cursor.m = some bs) :
    ∃ test, l.cursor.test = .ok test ∧ (test = .exit → bs = [] ∨ l.cursor.once = 0) := by
  unfold Cursor.test
  rw [hm]
  dsimp only
  split_ifs with hexit
  · exact ⟨.exit, rfl, fun _ => hexit⟩
  · exact ⟨.tooMany, rfl, by rintro ⟨⟩⟩
  · exact ⟨.body, rfl, by rintro ⟨⟩⟩

theorem test_none (hm : l.cursor.m = none) : l.cursor.test = .error .nullChain := by
  unfold Cursor.test
  rw [hm]

theorem take_some (hm : l.cursor.m = some bs) (hlen : remotePacketSize ≤ bs.length) :
    ∃ t, l.cursor.take = .ok t ∧ t.info = RemotePacket.decode bs ∧
      (t.info.id ≠ 0 →
        t = ⟨t.info, none, ⟨some (bs.drop remotePacketSize), l.cursor.once + 1⟩⟩) ∧
      (t.info.id = 0 → t = ⟨t.info, some (bs.drop remotePacketSize), ⟨none, 0⟩⟩) := by
  unfold Cursor.take
  rw [hm]
  dsimp only
  rw [if_neg (Nat.not_lt.mpr hlen)]
  split_ifs with hid
  · exact ⟨_, rfl, rfl, fun _ => rfl, fun h => absurd h hid⟩
  · exact ⟨_, rfl, rfl, fun h => absurd h hid, fun _ => rfl⟩

theorem take_short (hm : l.cursor.m = some bs) (hlen : ¬ remotePacketSize ≤ bs.length) :
    l.cursor.take = .error .copyPastEnd := by
  unfold Cursor.take
  rw [hm]
  dsimp only
  rw [if_pos (Nat.not_le.mp hlen)]

/-- The checks reject with an error, and their faults are not those of the loop. -/
theorem checkRecord_rejects (c : Core) (ipLen : ℕ) (p : Addr) (t : Cursor.Taken) :
    (c.checkRecord ipLen p t).Yields Fault.Local fun r => ∀ err, r.2 = .rejected err → err ≠ 0 := by
  have hrejected : ∀ (c' : Core) {err : ℤ}, err ≠ 0 →
      ∀ err', (c', Verdict.rejected err).2 = .rejected err' → err' ≠ 0 := by
    rintro c' err herr _ ⟨⟩
    exact herr
  unfold checkRecord
  split_ifs
  · exact hrejected c (by decide)
  · exact hrejected c (by decide)
  refine (lookupPath_yields Fault.local_memory c _ _).bind fun path _ => ?_
  cases path with
  | none => exact hrejected c (by decide)
  | some path =>
    refine (readPath_yields Fault.local_memory c _).bind fun curhop _ => ?_
    cases curhop with
    | none => exact Fault.local_memory
    | some h =>
      refine (hop_yields Fault.local_memory c h).bind fun hop _ => ?_
      show (ite _ _ _ : Except Fault (Core × Verdict)).Yields _ _
      split_ifs
      · refine (keeps_mcReunite _ p).bind fun r _ => ?_
        by_cases herr : r.2.1 ≠ 0
        · show ∀ err, (if r.2.1 ≠ 0 then _ else _ : Verdict) = .rejected err → err ≠ 0
          rw [if_pos herr]
          exact hrejected r.1 herr
        · show ∀ err, (if r.2.1 ≠ 0 then _ else _ : Verdict) = .rejected err → err ≠ 0
          rw [if_neg herr]
          rintro _ ⟨⟩
      · rintro _ ⟨⟩

/-- A record that is not cached goes on in its own struct. -/
theorem checkRecord_given {pkt : Packet} (hid : t.info.id = 0) (ipLen : ℕ) :
    (∃ c' q host r, (c.setPkt p pkt).checkRecord ipLen p t = .ok (c', .handed q host) ∧
      c'.emulateNexthop env q = .ok r) ↔ c.Survives env p t := by
  have harrive : ∀ path host, (c.setPkt p pkt).arrive p t path host = c.arrive p t path host :=
    fun path host => setPkt_setPkt c p pkt _
  unfold checkRecord
  rw [if_neg fun h => h.1 hid]
  constructor
  · rintro ⟨c', q, host, r, hcheck, hemulate⟩
    split_ifs at hcheck with httl
    · cases hcheck
    obtain ⟨path, hpath, hcheck⟩ := Except.bind_eq_ok_iff.mp hcheck
    cases path with
    | none => cases hcheck
    | some path =>
      obtain ⟨curhop, hcurhop, hcheck⟩ := Except.bind_eq_ok_iff.mp hcheck
      cases curhop with
      | none => cases hcheck
      | some h =>
        obtain ⟨hop, hhop, hcheck⟩ := Except.bind_eq_ok_iff.mp hcheck
        have hhop := (hop_yields trivial (E := fun _ => True) _ h).of_ok hhop
        dsimp only at hcheck
        rw [if_neg fun h => h.2 hid, harrive] at hcheck
        cases hcheck
        exact ⟨httl, path, h, hop, r, hpath, hcurhop, hhop, hemulate⟩
  · rintro ⟨httl, path, h, hop, r, hpath, hcurhop, hhop, hemulate⟩
    refine ⟨c.arrive p t path hop.emulator, p, hop.emulator, r, ?_, hemulate⟩
    rw [if_neg httl]
    refine Except.bind_eq_ok_iff.mpr ⟨some path, hpath, ?_⟩
    refine Except.bind_eq_ok_iff.mpr ⟨some h, hcurhop, ?_⟩
    refine Except.bind_eq_ok_iff.mpr ⟨hop, ?_, ?_⟩
    · unfold Core.hop
      rw [show (c.setPkt p pkt).tab.hops h = some hop from hhop]
    · dsimp only
      rw [if_neg fun h => h.2 hid, harrive]
      rfl

def TurnStops (c : Core) (l : InputLoop) (env : Env) (f : Fault) : Prop :=
  f.Local ∧ TurnParses (c, l) env ∨ f = .copyPastEnd ∧ ¬ TurnParses (c, l) env

/-- The outcomes of a turn over the chain `bs`. -/
def TurnGoes (c : Core) (l : InputLoop) (env : Env) (bs : List Byte) (r : Core × Turn) : Prop :=
  (∀ err, r.2 = .done err → TurnParses (c, l) env ∧ (err = 0 → bs = [])) ∧
    ∀ l' q host info fate, r.2 = .next l' q host info fate →
      remotePacketSize ≤ bs.length ∧ info = RemotePacket.decode bs ∧
        (TurnParses (c, l) env ∧
            l'.cursor = ⟨some (bs.drop remotePacketSize), l.cursor.once + 1⟩ ∨
          ¬ TurnParses (c, l) env ∧ l'.cursor.m = none)

/-- A turn that ends with an error, and frees a packet before it does. -/
theorem inputError_stops (c' : Core) (pkt : Option Addr) {err : ℤ} (herr : err ≠ 0)
    (hparses : TurnParses (c, l) env) :
    (c'.inputError pkt >>= fun c' => pure (c', Turn.done err) :
      Except Fault (Core × Turn)).Yields (c.TurnStops l env) (c.TurnGoes l env bs) := by
  have hfree : (c'.inputError pkt).Yields Fault.Local fun _ => True := by
    unfold inputError
    cases pkt with
    | none => trivial
    | some p => exact (keeps_mnFreePkt c' p).imp fun _ _ => trivial
  refine (hfree.imp_error fun f hf => Or.inl ⟨hf, hparses⟩).bind fun c'' _ => ⟨?_, ?_⟩
  · rintro _ ⟨⟩
    exact ⟨hparses, fun hzero => absurd hzero herr⟩
  · rintro _ _ _ _ _ ⟨⟩

/-- A turn parses what it reads, unless it goes on with a record that is not cached. -/
theorem turnParses_of_take (hm : l.cursor.m = some bs) (hmalloc : c.mallocPkt env = some p)
    (hlen : remotePacketSize ≤ bs.length) (hinfo : t.info = RemotePacket.decode bs)
    (hgiven : t.info.id = 0 → t = ⟨t.info, some (bs.drop remotePacketSize), ⟨none, 0⟩⟩)
    (h : ∀ c' q host r, (c.setPkt p { freshPkt t.m 0 with info := t.info }).checkRecord l.ipLen p t =
      .ok (c', .handed q host) → t.info.id = 0 → c'.emulateNexthop env q ≠ .ok r) :
    TurnParses (c, l) env := by
  intro bs' p' _ hm' hmalloc'
  cases hm.symm.trans hm'
  cases hmalloc.symm.trans hmalloc'
  refine ⟨hlen, fun hid hsurvives => ?_⟩
  rw [← hinfo] at hid hsurvives
  rw [← hgiven hid] at hsurvives
  obtain ⟨c', q, host, r, hcheck, hemulate⟩ := (checkRecord_given hid l.ipLen).mpr hsurvives
  exact h c' q host r hcheck hid hemulate

/-- A turn with a packet struct and a whole record in front of it. -/
theorem inputBody_goes (hm : l.cursor.m = some bs) (htest : l.cursor.test = .ok .body)
    (hmalloc : c.mallocPkt env = some p) (hlen : remotePacketSize ≤ bs.length) :
    (c.inputBody l env).Yields (c.TurnStops l env) (c.TurnGoes l env bs) := by
  obtain ⟨t, htake, hinfo, hcached, hgiven⟩ := take_some hm hlen
  have hparses := turnParses_of_take hm hmalloc hlen hinfo hgiven
  have hrejects := checkRecord_rejects (c.setPkt p { freshPkt t.m 0 with info := t.info }) l.ipLen p t
  unfold inputBody
  rw [hmalloc]
  dsimp only
  rw [htake]
  show (checkRecord _ l.ipLen p t >>= _ : Except Fault (Core × Turn)).Yields _ _
  cases hcheck : (c.setPkt p { freshPkt t.m 0 with info := t.info }).checkRecord l.ipLen p t with
  | error f =>
    refine Or.inl ⟨hrejects.of_error hcheck, hparses fun c' q host r h => ?_⟩
    cases hcheck.symm.trans h
  | ok r =>
    obtain ⟨c', verdict⟩ := r
    cases verdict with
    | rejected err =>
      refine inputError_stops c' (some p) (hrejects.of_ok hcheck err rfl) ?_
      refine hparses fun c'' q host r h => ?_
      cases hcheck.symm.trans h
    | handed q host =>
      show (c'.emulateNexthop env q >>= _ : Except Fault (Core × Turn)).Yields _ _
      cases hemulate : c'.emulateNexthop env q with
      | error f =>
        refine Or.inl ⟨(keeps_emulateNexthop c' env q).of_error hemulate, ?_⟩
        refine hparses fun c'' q' host' r h _ => ?_
        cases hcheck.symm.trans h
        rw [hemulate]
        rintro ⟨⟩
      | ok r =>
        refine ⟨by rintro _ ⟨⟩, ?_⟩
        rintro _ _ _ _ _ ⟨⟩
        refine ⟨hlen, hinfo, ?_⟩
        by_cases hid : t.info.id = 0
        · have hnull : t.cursor.m = none := by rw [hgiven hid]
          refine Or.inr ⟨fun h => ?_, hnull⟩
          have hsurvives := (h bs p htest hm hmalloc).2 (hinfo ▸ hid)
          rw [← hinfo, ← hgiven hid] at hsurvives
          exact hsurvives ((checkRecord_given hid l.ipLen).mp ⟨c', q, host, r, hcheck, hemulate⟩)
        · exact Or.inl ⟨hparses fun _ _ _ _ _ h => absurd h hid, by rw [hcached hid]⟩

/-- **A turn of the loop over the chain `bs`.** -/
theorem turn_parses (c : Core) (env : Env) (hm : l.cursor.m = some bs) (honce : l.cursor.once ≠ 0) :
    (c.turn l env).Yields (c.TurnStops l env) (c.TurnGoes l env bs) := by
  obtain ⟨test, htest, hexit⟩ := test_some hm
  have hother : test ≠ .body → TurnParses (c, l) env := by
    intro hne bs' p hbody
    cases htest.symm.trans hbody
    exact absurd rfl hne
  unfold turn
  rw [htest]
  cases test with
  | exit =>
    refine ⟨?_, by rintro _ _ _ _ _ ⟨⟩⟩
    rintro _ ⟨⟩
    exact ⟨hother (by decide), fun _ => (hexit rfl).resolve_right honce⟩
  | tooMany => exact inputError_stops c l.pkt (by decide) (hother (by decide))
  | body =>
    show (c.inputBody l env).Yields _ _
    cases hmalloc : c.mallocPkt env with
    | none =>
      unfold inputBody
      rw [hmalloc]
      refine ⟨?_, by rintro _ _ _ _ _ ⟨⟩⟩
      rintro _ ⟨⟩
      refine ⟨fun bs' p _ _ hp => ?_, fun hzero => absurd hzero (by decide)⟩
      cases hmalloc.symm.trans hp
    | some p =>
      by_cases hlen : remotePacketSize ≤ bs.length
      · exact inputBody_goes hm htest hmalloc hlen
      · unfold inputBody
        rw [hmalloc]
        dsimp only
        rw [take_short hm hlen]
        exact Or.inr ⟨rfl, fun h => hlen (h bs p htest hm hmalloc).1⟩

/-! ## The loop -/

theorem inputLoop_none (envs : List Env) (c : Core) (hm : l.cursor.m = none) :
    inputLoop envs c l = .error .nullChain := by
  cases envs with
  | nil =>
    unfold inputLoop
    rw [test_none hm]
    rfl
  | cons env envs =>
    unfold inputLoop turn
    rw [test_none hm]
    rfl

/-- A loop that has handed on the first record of its chain. -/
theorem parsesWell_cons {h : Handed}
    (hloop : inputLoop (env :: envs) c l =
      (inputLoop envs c' l').map fun r => (r.1, r.2.1, h :: r.2.2))
    (hlen : remotePacketSize ≤ bs.length) (hinfo : h.info = RemotePacket.decode bs) :
    ParsesWell (env :: envs) c l bs ↔ ParsesWell envs c' l' (bs.drop remotePacketSize) := by
  have hdrop : ∀ i, (bs.drop remotePacketSize).drop (i * remotePacketSize) =
      bs.drop ((i + 1) * remotePacketSize) := by
    intro i
    rw [List.drop_drop, Nat.succ_mul, Nat.add_comm]
  have hlength : (bs.drop remotePacketSize).length = bs.length - remotePacketSize :=
    List.length_drop
  cases hrest : inputLoop envs c' l' with
  | error f =>
    rw [hrest] at hloop
    have hloop : inputLoop (env :: envs) c l = .error f := hloop
    constructor
    · intro hw
      refine ⟨?_, ?_, by rw [hrest]; rintro _ _ _ ⟨⟩, by rw [hrest]; rintro _ _ ⟨⟩⟩
      · exact fun h => hw.inside (hloop.trans (hrest.symm.trans h))
      · exact fun h => hw.ends (hloop.trans (hrest.symm.trans h))
    · intro hw
      refine ⟨?_, ?_, by rw [hloop]; rintro _ _ _ ⟨⟩, by rw [hloop]; rintro _ _ ⟨⟩⟩
      · exact fun h => hw.inside (hrest.trans (hloop.symm.trans h))
      · exact fun h => hw.ends (hrest.trans (hloop.symm.trans h))
  | ok r =>
    obtain ⟨c'', err, hs⟩ := r
    rw [hrest] at hloop
    have hloop : inputLoop (env :: envs) c l = .ok (c'', err, h :: hs) := hloop
    constructor
    · intro hw
      refine ⟨by rw [hrest]; rintro ⟨⟩, by rw [hrest]; rintro ⟨⟩, ?_, ?_⟩
      · rintro _ _ _ heq i h' hh'
        cases hrest.symm.trans heq
        obtain ⟨hle, hinfo'⟩ := hw.records c'' err (h :: hs) hloop (i + 1) h'
          (by rw [List.getElem?_cons_succ]; exact hh')
        rw [hlength, hdrop]
        refine ⟨?_, hinfo'⟩
        rw [Nat.succ_mul] at hle
        exact Nat.le_sub_of_add_le hle
      · rintro _ _ heq
        cases hrest.symm.trans heq
        have hwhole := hw.whole c'' (h :: hs) hloop
        rw [List.length_cons, Nat.succ_mul] at hwhole
        rw [hlength, hwhole, Nat.add_sub_cancel]
    · intro hw
      refine ⟨by rw [hloop]; rintro ⟨⟩, by rw [hloop]; rintro ⟨⟩, ?_, ?_⟩
      · rintro _ _ _ heq i h' hh'
        cases hloop.symm.trans heq
        cases i with
        | zero =>
          cases hh'
          rw [Nat.zero_add, Nat.one_mul, Nat.zero_mul, List.drop_zero]
          exact ⟨hlen, hinfo⟩
        | succ i =>
          rw [List.getElem?_cons_succ] at hh'
          obtain ⟨hle, hinfo'⟩ := hw.records c'' err hs hrest i h' hh'
          rw [hlength] at hle
          rw [hdrop] at hinfo'
          refine ⟨?_, hinfo'⟩
          rw [Nat.succ_mul]
          exact Nat.add_le_of_le_sub hlen hle
      · rintro _ _ heq
        cases hloop.symm.trans heq
        have hwhole := hw.whole c'' hs hrest
        rw [hlength] at hwhole
        rw [List.length_cons, Nat.succ_mul, ← hwhole, Nat.sub_add_cancel hlen]

theorem parsesWell_end (c' : Core) (err : Option ℤ) (hloop : inputLoop envs c l = .ok (c', err, []))
    (hend : err = some 0 → bs = []) : ParsesWell envs c l bs := by
  refine ⟨by rw [hloop]; rintro ⟨⟩, by rw [hloop]; rintro ⟨⟩, ?_, ?_⟩
  · rintro _ _ _ heq i h hh
    cases hloop.symm.trans heq
    cases hh
  · rintro _ _ heq
    cases hloop.symm.trans heq
    rw [hend rfl]
    rfl

theorem parsesWell_error {f : Fault} (hloop : inputLoop envs c l = .error f) :
    ParsesWell envs c l bs ↔ f.Local := by
  constructor
  · intro hw
    exact ⟨fun hf => hw.inside (hf ▸ hloop), fun hf => hw.ends (hf ▸ hloop)⟩
  · rintro ⟨hinside, hends⟩
    refine ⟨?_, ?_, by rw [hloop]; rintro _ _ _ ⟨⟩, by rw [hloop]; rintro _ _ ⟨⟩⟩
    · intro h
      cases hloop.symm.trans h
      exact hinside rfl
    · intro h
      cases hloop.symm.trans h
      exact hends rfl

theorem parsesWell_nil (hm : l.cursor.m = some bs) (honce : l.cursor.once ≠ 0) :
    ParsesWell [] c l bs := by
  obtain ⟨test, htest, hexit⟩ := test_some hm
  cases test with
  | exit =>
    refine parsesWell_end c (some 0) ?_ fun _ => (hexit rfl).resolve_right honce
    unfold inputLoop
    rw [htest]
    rfl
  | body =>
    refine parsesWell_end c none ?_ (by rintro ⟨⟩)
    unfold inputLoop
    rw [htest]
    rfl
  | tooMany =>
    have hloop : inputLoop [] c l =
        (c.inputError l.pkt).map fun c' => (c', some 1, []) := by
      unfold inputLoop
      rw [htest]
      show (c.inputError l.pkt >>= _ : Except Fault (Core × Option ℤ × List Handed)) = _
      cases c.inputError l.pkt with
      | error f => rfl
      | ok c' => rfl
    have hfree : (c.inputError l.pkt).Yields Fault.Local fun _ => True := by
      unfold inputError
      cases l.pkt with
      | none => trivial
      | some p => exact (keeps_mnFreePkt c p).imp fun _ _ => trivial
    cases herror : c.inputError l.pkt with
    | error f =>
      rw [herror] at hloop
      exact (parsesWell_error hloop).mpr (hfree.of_error herror)
    | ok c' =>
      rw [herror] at hloop
      exact parsesWell_end _ _ hloop (by rintro ⟨⟩)

/-- **The loop of `remote_input`.** It parses well if and only if every turn does. -/
theorem parsesWell_iff (hm : l.cursor.m = some bs) (honce : l.cursor.once ≠ 0) :
    ParsesWell envs c l bs ↔ PartialRun.Guarded inputStep TurnParses (c, l) envs := by
  induction envs generalizing c l bs with
  | nil => exact ⟨fun _ => trivial, fun _ => parsesWell_nil hm honce⟩
  | cons env envs ih =>
    rw [PartialRun.guarded_cons]
    have hspec := turn_parses c env hm honce
    have hloop := inputLoop_cons env envs c l
    cases hturn : c.turn l env with
    | error f =>
      rw [hturn] at hloop
      have hstep : inputStep (c, l) env = none := by
        unfold inputStep
        rw [hturn]
      rw [parsesWell_error hloop, hstep]
      rcases hspec.of_error hturn with ⟨hlocal, hparses⟩ | ⟨rfl, hparses⟩
      · exact ⟨fun _ => ⟨hparses, by rintro _ ⟨⟩⟩, fun _ => hlocal⟩
      · exact ⟨fun h => absurd rfl h.1, fun h => absurd h.1 hparses⟩
    | ok r =>
      rw [hturn] at hloop
      obtain ⟨c', turn⟩ := r
      obtain ⟨hdone, hnext⟩ := hspec.of_ok hturn
      cases turn with
      | done err =>
        obtain ⟨hparses, hend⟩ := hdone err rfl
        have hstep : inputStep (c, l) env = none := by
          unfold inputStep
          rw [hturn]
        rw [hstep]
        refine ⟨fun _ => ⟨hparses, by rintro _ ⟨⟩⟩, fun _ => parsesWell_end _ _ hloop ?_⟩
        intro herr
        exact hend (Option.some.inj herr)
      | next l' q host info fate =>
        obtain ⟨hlen, hinfo, hcursor⟩ := hnext l' q host info fate rfl
        have hstep : inputStep (c, l) env = some (c', l') := by
          unfold inputStep
          rw [hturn]
        have hmap : inputLoop (env :: envs) c l =
            (inputLoop envs c' l').map fun r => (r.1, r.2.1, ⟨q, info, fate⟩ :: r.2.2) := by
          rw [hloop]
          show (inputLoop envs c' l' >>= _ : Except Fault (Core × Option ℤ × List Handed)) = _
          cases inputLoop envs c' l' with
          | error f => rfl
          | ok r => rfl
        rw [hstep]
        rcases hcursor with ⟨hparses, hcursor⟩ | ⟨hparses, hnull⟩
        · have hm' : l'.cursor.m = some (bs.drop remotePacketSize) := by rw [hcursor]
          have honce' : l'.cursor.once ≠ 0 := by
            rw [hcursor]
            exact Nat.succ_ne_zero _
          rw [parsesWell_cons hmap hlen hinfo, ih hm' honce']
          constructor
          · intro h
            refine ⟨hparses, ?_⟩
            rintro _ ⟨⟩
            exact h
          · exact fun h => h.2 (c', l') rfl
        · rw [inputLoop_none envs c' hnull] at hmap
          rw [parsesWell_error hmap]
          exact ⟨fun h => absurd rfl h.2, fun h => absurd h.1 hparses⟩

/-- **Parsing.** `remote_input` reads nothing but the datagram if and only if each of its turns meets
the condition. -/
theorem remoteInput_parses_iff (c : Core) (envs : List Env) (payload : List Byte) :
    ParsesWell envs c (InputLoop.start payload) payload ↔
      PartialRun.Guarded inputStep TurnParses (c, InputLoop.start payload) envs :=
  parsesWell_iff rfl Nat.one_ne_zero

/-- A datagram of one byte is decoded as a record. -/
theorem remoteInput_not_parses :
    ¬ ∀ (c : Core) (envs : List Env) (payload : List Byte),
      ParsesWell envs c (InputLoop.start payload) payload := by
  intro h
  have hfault : inputLoop [System.plainEnv 0x100]
      (System.load 1000 0 (System.twoNodes [0]) (fun _ => none) false).core
      (InputLoop.start [0]) = .error .copyPastEnd := rfl
  exact (h _ _ [0]).inside hfault

/-- The packet behind a record that is not cached ends the chain, and the next test reads it. -/
example : remoteInput (System.load 1000 0 (System.twoNodes [0]) (fun _ => none) false).core
    [System.plainEnv 0x100] ((Xmit.recordOf 0).encode ++ System.ipPacket) = .error .nullChain := rfl

end Core

end Modelnet.FreeBSD

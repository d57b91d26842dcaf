import Modelnet.FreeBSD.Admission
import Modelnet.Lib.Run

/-!
# The packet cache over a run

Every event of a core keeps the invariant, as long as it meets `EventOk`: no packet is left half
cached by a failed send, and no record from the network names a packet of this core that is not in
the cache. So the cache holds live packets, each once and none on the calendar, and the macros are
only used where they may be.
-/

namespace Modelnet.FreeBSD

open Modelnet

namespace Core

variable {c : Core} {env : Env} {p q : Addr} {pkt : Packet} {t : Cursor.Taken} {l : InputLoop}

/-! ## A turn of `remote_input` -/

theorem inputError_fresh (hp : c.pkts p = none) (hmem : p ∉ c.mcPcache) (pkt : Packet) :
    (c.setPkt p pkt).inputError (some p) = .ok c := by
  unfold inputError
  dsimp only
  rw [mnFreePkt_eq (c := c.setPkt p pkt) hmem (pkts_setPkt_self c p pkt), freePkt_setPkt_fresh hp]

theorem Admits.inv (h : c.Inv none) (hzero : p ≠ 0) (hp : c.pkts p = none) {c' : Core}
    {host : BitVec 32} (hadmits : Admits c p t (c', .handed q host)) :
    c'.Inv none ∧ c'.InHand q ∧ ∃ pkt, c'.pkts q = some pkt ∧
      (pkt.cachehost = 0 → pkt.info.id = 0) := by
  cases hadmits with
  | @arrived path _ hid hhome =>
    have harrive : (c.arrive p t path host).Inv none ∧ (c.arrive p t path host).InHand p :=
      h.setPkt_fresh hzero hp (Or.inr hid)
    obtain ⟨hinv, hhand⟩ := harrive
    exact ⟨hinv, hhand, _, pkts_setPkt_self c p _, hid⟩
  | @reunited path cached hhome hcached hmem hexpire hsame =>
    obtain ⟨hinv, hhand⟩ := h.uncache hmem hcached
    exact ⟨hinv.setPkt_inHand hhand (fun _ _ hq => hq) (Or.inr fun _ => rfl),
      hhand.setPkt _ _, _, pkts_setPkt_self _ _ _, fun _ => rfl⟩

/-- What a turn needs. At the bound on the turns, the packet of the last record must be gone. A
record that passes `mc_reunite` must be one of a cached packet, and the packet that goes on must not
be left half cached. -/
def TurnOk (c : Core) (l : InputLoop) (env : Env) : Prop :=
  (l.cursor.test = .ok .tooMany → ∀ p, l.pkt = some p → c.pkts p = none) ∧
    ∀ p t, l.cursor.test = .ok .body → c.mallocPkt env = some p → l.cursor.take = .ok t →
      (c.Returns l.ipLen t.info → c.Passes p t.info → t.info.id ∈ c.mcPcache) ∧
      ∀ c' q host, (c.setPkt p { freshPkt t.m 0 with info := t.info }).checkRecord l.ipLen p t =
        .ok (c', .handed q host) → c'.NextOk env q

/-- The outcomes of a turn: the loop ends with the core as it was, or a packet has been handed to
`emulate_nexthop`. -/
inductive Turns (c : Core) (l : InputLoop) (env : Env) : Core × Turn → Prop
  | done {err : ℤ} : Turns c l env (c, .done err)
  | next {p q : Addr} {t : Cursor.Taken} {c' : Core} {pkt : Packet} {fdbk host : BitVec 32}
      {r : Core × Fate} (htest : l.cursor.test = .ok .body) (hmalloc : c.mallocPkt env = some p)
      (htake : l.cursor.take = .ok t)
      (hadmits : Admits c p t (c', .handed q host)) (hpkt : c'.pkts q = some pkt)
      (hnext : NextHop c' q (pkt.setFdbk fdbk) r) :
      Turns c l env (r.1, .next { l with cursor := t.cursor, pkt := some q } q host t.info r.2)

theorem take_yields (l : Cursor) :
    l.take.Yields Fault.Benign fun t => l.take = .ok t := by
  unfold Cursor.take
  split
  · exact Fault.benign_nullChain
  · split_ifs
    · exact Fault.benign_copyPastEnd
    · dsimp only
      split_ifs
      · rfl
      · rfl

theorem test_yields (l : Cursor) :
    l.test.Yields Fault.Benign fun r => l.test = .ok r := by
  unfold Cursor.test
  split
  · exact Fault.benign_nullChain
  · split_ifs
    · rfl
    · rfl
    · rfl

/-- **A turn of `remote_input`.** -/
theorem turn_yields (h : c.Inv none) (hok : c.TurnOk l env) :
    (c.turn l env).Yields Fault.Benign (Turns c l env) := by
  unfold turn
  refine (test_yields l.cursor).bind fun test htest => ?_
  cases test with
  | exit => exact .done
  | tooMany =>
    refine Except.Yields.bind (P := fun c' => c' = c) ?_ ?_
    · unfold inputError
      cases hpkt : l.pkt with
      | none => rfl
      | some p =>
        have hp := hok.1 htest p hpkt
        show (c.mnFreePkt p).Yields _ _
        unfold mnFreePkt packet
        rw [if_neg (h.not_mem_of_free hp), hp]
        exact Fault.benign_memory
    · rintro c' rfl
      exact .done
  | body =>
    show (c.inputBody l env).Yields _ _
    unfold inputBody
    cases hmalloc : c.mallocPkt env with
    | none => exact .done
    | some p =>
      obtain ⟨hzero, hp⟩ := mallocPkt_eq_some hmalloc
      have hmem := h.not_mem_of_free hp
      refine (take_yields l.cursor).bind fun t htake => ?_
      obtain ⟨hdenotes, hnextOk⟩ := hok.2 p t htest hmalloc htake
      have hcheck : ((c.setPkt p { freshPkt t.m 0 with info := t.info }).checkRecord l.ipLen p t).Yields
          Fault.Benign fun r =>
            (c.setPkt p { freshPkt t.m 0 with info := t.info }).checkRecord l.ipLen p t = .ok r ∧
              Admits c p t r := by
        cases hr : (c.setPkt p { freshPkt t.m 0 with info := t.info }).checkRecord l.ipLen p t with
        | ok r => exact ⟨rfl, (checkRecord_yields hp hmem l.ipLen).of_ok hr⟩
        | error f =>
          rcases (checkRecord_yields hp hmem l.ipLen).of_error hr with hf | ⟨hreturns, hpasses, habsent⟩
          · exact hf
          · exact absurd (hdenotes hreturns hpasses) habsent
      refine hcheck.bind ?_
      rintro ⟨c', verdict⟩ ⟨hr, hadmits⟩
      cases verdict with
      | rejected err =>
        cases hadmits with
        | rejected =>
          dsimp only
          rw [inputError_fresh hp hmem]
          exact .done
      | handed q host =>
        obtain ⟨hinv, hhand, pkt, hpkt, -⟩ := hadmits.inv h hzero hp
        refine (emulateNexthop_yields Fault.benign_memory (hinv.loose hhand hpkt) hpkt
          (hnextOk c' q host hr).nextOr).bind ?_
        rintro r ⟨fdbk, -, hnext⟩
        exact .next htest hmalloc htake hadmits hpkt hnext

theorem Turns.inv (h : c.Inv none) {r : Core × Turn} (hr : Turns c l env r) : r.1.Inv none := by
  cases hr with
  | done => exact h
  | @next p q t c' pkt fdbk host r htest hmalloc htake hadmits hpkt hnext =>
    obtain ⟨hzero, hp⟩ := mallocPkt_eq_some hmalloc
    obtain ⟨hinv, hhand, pkt', hpkt', hid⟩ := hadmits.inv h hzero hp
    cases hpkt.symm.trans hpkt'
    have hid : (pkt.setFdbk fdbk).cachehost = 0 → (pkt.setFdbk fdbk).info.id = 0 := hid
    exact hnext.inv hinv hhand hid

/-! ## The other calls -/

theorem flushLoop_yields (n : ℕ) (h : c.Inv none) :
    (flushLoop n c).Yields Fault.Benign fun c' => c'.Inv none := by
  induction n generalizing c with
  | zero => exact h
  | succ n ih =>
    unfold flushLoop
    cases hcache : c.mcPcache with
    | nil => exact h
    | cons p rest =>
      have hmem : p ∈ c.mcPcache := hcache ▸ List.mem_cons_self
      refine (packet_yields Fault.benign_memory c p).bind fun pkt hpkt => ?_
      show (ite _ _ _ : Except Fault Core).Yields _ _
      split_ifs
      · exact h
      · obtain ⟨hinv, hhand⟩ := h.uncache hmem hpkt
        rw [mnUncachePkt_eq hmem hpkt]
        refine (mnFreePkt_yields hinv hhand fun _ _ => by rintro ⟨⟩).bind ?_
        rintro c' ⟨-, hinv'⟩
        exact ih hinv'

theorem remoteFlush_yields (h : c.Inv none) :
    c.remoteFlush.Yields Fault.Benign fun c' => c'.Inv none := by
  unfold remoteFlush
  split_ifs
  · exact flushLoop_yields _ h
  · exact h

/-- A packet of a local node starts at home, in front of its first hop and without a handle. -/
theorem startPath_yields (c : Core) (m : List Byte) :
    (c.startPath m).Yields Fault.Benign fun start => ∀ pkt, start = some pkt →
      pkt.cachehost = 0 ∧ pkt.info.id = 0 ∧ pkt.info.hop = 0 := by
  unfold startPath
  refine (lookupPath_yields Fault.benign_memory c _ _).bind fun path _ => ?_
  rintro pkt hpkt
  obtain ⟨path, -, rfl⟩ := Option.map_eq_some_iff.mp hpkt
  refine ⟨rfl, ?_, rfl⟩
  show (if c.xcpInitialized = true then xcpGetXcpinfo _ _ else _ : RemotePacket).id = 0
  split_ifs
  · unfold xcpGetXcpinfo
    split_ifs
    · rfl
    · rfl
  · rfl

theorem filterIpinput_yields (h : c.Inv none) (m : List Byte) :
    (c.filterIpinput env m).Yields Fault.Benign fun r => r.1.Inv none := by
  unfold filterIpinput
  cases hmalloc : c.mallocPkt env with
  | none => exact h
  | some p =>
    obtain ⟨hzero, hp⟩ := mallocPkt_eq_some hmalloc
    refine (startPath_yields c m).bind fun start hstart => ?_
    cases start with
    | none => exact h
    | some pkt =>
      obtain ⟨-, hid, hhop⟩ := hstart pkt rfl
      obtain ⟨hinv, hhand⟩ := h.setPkt_fresh hzero hp (Or.inr fun _ => hid)
      have hok : (c.setPkt p pkt).NextOk env p := by
        intro pkt' h₁ hop hpkt' _ _ _ pkt₁ a hpkt₁ _ hhop'
        cases (pkts_setPkt_self c p pkt).symm.trans hpkt₁
        exact absurd hhop hhop'
      refine (emulateNexthop_yields Fault.benign_memory (hinv.loose hhand (pkts_setPkt_self c p pkt))
        (pkts_setPkt_self c p pkt) hok.nextOr).bind ?_
      rintro r ⟨fdbk, -, hnext⟩
      have hid : (pkt.setFdbk fdbk).cachehost = 0 → (pkt.setFdbk fdbk).info.id = 0 := fun _ => hid
      exact hnext.inv hinv hhand hid

/-- What a core keeps: every packet in the cache is live, is there once and is not on the
calendar, and `pcache_occupancy` counts the cache. -/
structure Sound (c : Core) : Prop where
  live : ∀ p ∈ c.mcPcache, (c.pkts p).isSome
  nodup : c.mcPcache.Nodup
  offCalendar : ∀ p ∈ c.mcPcache, ∀ i, p ∉ c.packetCalendar i
  occupancy : c.pcacheOccupancy = c.mcPcache.length

theorem Inv.sound (h : c.Inv none) : c.Sound where
  live := by
    intro p hp
    obtain ⟨pkt, hpkt, -⟩ := h.cached p hp
    exact Option.isSome_of_eq_some hpkt
  nodup := h.nodup
  offCalendar := h.offCalendar
  occupancy := h.occupancy

end Core

/-! ## Runs -/

namespace System

/-- What an event needs so that no packet is left half cached. -/
def EventOk (s : System) : CoreEvent → Prop
  | .turn env => ∀ l, s.input = some l → s.core.TurnOk l env
  | .hopclockPacket env => s.input = none → s.core.calendarTick ≠ s.core.ticks →
      ∀ p rest, s.slot = p :: rest →
        (s.core.calendarRemove (calendarSlot s.core.calendarTick) rest).NextOk env p
  | _ => True

theorem cleanAggregates_yields {c : Core} (h : c.Inv none) :
    (cleanAggregates c).Yields Fault.Benign fun c' => c'.Inv none := by
  unfold cleanAggregates Aggregates.remoteAggregateClean
  split_ifs
  · exact (Aggregates.cleanLoop_yields Fault.benign_memory _ _).bind fun _ _ => h
  · exact h

theorem hopclockEnd_yields {c : Core} (h : c.Inv none) :
    (hopclockEnd c).Yields Fault.Benign fun c' => c'.Inv none := by
  unfold hopclockEnd
  refine (cleanAggregates_yields h).bind fun c' hc' => ?_
  split_ifs
  · exact Core.remoteFlush_yields hc'
  · exact hc'

/-- **Step.** An event keeps the invariant. -/
theorem step_yields {s : System} (h : s.core.Inv none) {e : CoreEvent} (hok : s.EventOk e) :
    (s.step e).Yields Fault.Benign fun r => r.1.core.Inv none := by
  obtain ⟨c, input⟩ := s
  cases e with
  | hardclock => exact h
  | packet env m =>
    cases input with
    | some l => exact h
    | none =>
      unfold step
      dsimp only
      split_ifs
      · refine (Core.filterIpinput_yields h m).bind fun r hr => ?_
        exact hr
      · exact h
  | datagram payload =>
    cases input with
    | some l => exact h
    | none => exact h
  | turn env =>
    cases input with
    | none => exact h
    | some l =>
      refine (Core.turn_yields h (hok l rfl)).bind fun r hr => ?_
      obtain ⟨c', turn⟩ := r
      have hinv := hr.inv h
      cases turn with
      | done => exact hinv
      | next => exact hinv
  | hopclockPacket env =>
    cases input with
    | some l => exact h
    | none =>
      unfold step
      dsimp only
      cases hslot : slot ⟨c, none⟩ with
      | nil => exact h
      | cons p rest =>
        dsimp only
        split_ifs with htick
        · obtain ⟨hinv, hhand⟩ := h.calendarRemove hslot
          obtain ⟨pkt, hpkt⟩ := Option.isSome_iff_exists.mp hhand.live
          refine (Core.emulateNexthop_yields Fault.benign_memory (hinv.loose hhand hpkt) hpkt
            (hok rfl htick p rest hslot).nextOr).bind ?_
          rintro r ⟨fdbk, -, hnext⟩
          have hhome : pkt.cachehost = 0 → pkt.info.id = 0 := hinv.id_eq_zero hhand hpkt
          have hid : (pkt.setFdbk fdbk).cachehost = 0 → (pkt.setFdbk fdbk).info.id = 0 := hhome
          exact hnext.inv hinv hhand hid
        · exact h
  | hopclockSlot =>
    cases input with
    | some l => exact h
    | none =>
      unfold step
      dsimp only
      split_ifs
      · exact h
      · exact h
  | hopclockEnd =>
    cases input with
    | some l => exact h
    | none =>
      unfold step
      dsimp only
      split_ifs
      · refine (hopclockEnd_yields h).bind fun c' hc' => ?_
        exact hc'
      · exact h
  | configure pcache aggregate mcExpire mcTtl => exact h
  | teTimeout h₁ pipe =>
    cases input with
    | some l => exact h
    | none => exact h

theorem load_inv (hz ticks : ℕ) (tab : PathTab) (xtHop : HopPtr → Option XcpPipe)
    (xcpInitialized : Bool) : (load hz ticks tab xtHop xcpInitialized).core.Inv none where
  nodup := List.nodup_nil
  occupancy := rfl
  null := rfl
  cached := fun _ hp => absurd hp List.not_mem_nil
  uncached := fun _ _ _ hp => by cases hp
  offCalendar := fun _ hp => absurd hp List.not_mem_nil
  calendarNodup := fun _ => List.nodup_nil
  calendarSlot := fun _ _ _ hp => absurd hp List.not_mem_nil
  calendarLive := fun _ _ hp => absurd hp List.not_mem_nil

theorem stepState_eq_some {s s' : System} {e : CoreEvent} :
    s.stepState e = some s' ↔ ∃ act, s.step e = .ok (s', act) := by
  unfold stepState
  cases s.step e with
  | error f =>
    constructor
    · rintro ⟨⟩
    · rintro ⟨_, ⟨⟩⟩
  | ok r =>
    obtain ⟨s₁, act⟩ := r
    constructor
    · rintro ⟨⟩
      exact ⟨act, rfl⟩
    · rintro ⟨_, ⟨⟩⟩
      rfl

/-- **The packet cache.** In every run whose events are all in order, every state has a sound cache,
and the next event that is in order neither frees a cached packet nor takes one off that is not
there. -/
theorem pcache_owned {hz ticks : ℕ} {tab : PathTab} {xtHop : HopPtr → Option XcpPipe}
    {xcpInitialized : Bool} {es : List CoreEvent} {s : System}
    (hok : PartialRun.Guarded stepState EventOk (load hz ticks tab xtHop xcpInitialized) es)
    (hrun : PartialRun.run stepState (load hz ticks tab xtHop xcpInitialized) es = some s) :
    s.core.Sound ∧ ∀ e f, s.EventOk e → s.step e = .error f → f.Benign := by
  have hinv : s.core.Inv none := by
    refine PartialRun.run_invariant_guarded (I := fun s => s.core.Inv none) ?_ hok hrun
      (load_inv hz ticks tab xtHop xcpInitialized)
    intro s e s' h he hstep
    obtain ⟨act, hstep⟩ := stepState_eq_some.mp hstep
    exact (step_yields h he).of_ok hstep
  exact ⟨hinv.sound, fun e f he hstep => (step_yields hinv he).of_error hstep⟩

/-! ## Two runs -/

/-- Two nodes, with one path between them over hops with these emulators. -/
def twoNodes (emulators : List (BitVec 32)) : PathTab where
  nodetable := fun n => if n = 1 then 0 else if n = 2 then 1 else -1
  hopcount := emulators.length
  hoptable := some 3
  nodecount := 2
  pathtable := some
    { base := 0, rows := [1, 2], dim := 2,
      cell := fun i j => if i = 0 ∧ j = 1 then some 4 else none }
  hops := fun h =>
    if h.tab = 3 then emulators[h.idx.toNat]?.map fun emulator =>
      { Hop.zero with
        qsize := 10, emulator := emulator, exittickAlloc := true, slotlenAlloc := true }
    else none
  pathArrs := fun arr =>
    if arr = 4 then some ((List.range emulators.length).map (fun i : ℕ => some ⟨3, i⟩) ++ [none])
    else none
  nextBlock := 5
  freed := []

/-- An IP packet from the first node to the second. -/
def ipPacket : List Byte := [69, 0, 0, 20, 0, 0, 0, 0, 64, 17, 0, 0, 10, 0, 0, 1, 10, 0, 0, 2]

/-- A kernel that has memory, and puts a packet struct at `p`. -/
def plainEnv (p : Addr) : Env where
  random := 0
  mbufOk := true
  pullupOk := true
  sendErr := 0
  malloc := some p

/-- A packet crosses a hop of this core and leaves for the next core. -/
theorem pcache_owned_remote :
    ∃ s, PartialRun.run stepState (load 1000 0 (twoNodes [0, 0xc0a80002]) (fun _ => none) false)
        [.packet (plainEnv 0x100) ipPacket, .hardclock, .hopclockPacket (plainEnv 0x200)] = some s ∧
      s.core.Sound ∧ ∀ e f, s.EventOk e → s.step e = .error f → f.Benign := by
  have hsome : (PartialRun.run stepState
      (load 1000 0 (twoNodes [0, 0xc0a80002]) (fun _ => none) false)
      [.packet (plainEnv 0x100) ipPacket, .hardclock, .hopclockPacket (plainEnv 0x200)]).isSome :=
    rfl
  obtain ⟨s, hs⟩ := Option.isSome_iff_exists.mp hsome
  have hok : PartialRun.Guarded stepState EventOk
      (load 1000 0 (twoNodes [0, 0xc0a80002]) (fun _ => none) false)
      [.packet (plainEnv 0x100) ipPacket, .hardclock, .hopclockPacket (plainEnv 0x200)] := by
    refine ⟨trivial, fun s₁ hs₁ => ⟨trivial, fun s₂ hs₂ => ⟨?_, fun _ _ => trivial⟩⟩⟩
    cases hs₁
    cases hs₂
    rintro - - p rest hslot pkt h hop - - - - pkt' a hpkt' - - haddr
    refine ⟨fun _ => ⟨?_, fun _ _ => rfl⟩, fun _ _ => rfl⟩
    cases hslot
    cases hpkt'
    cases haddr
    decide
  exact ⟨s, hs, pcache_owned hok hs⟩

/-- Without `MN_PCACHE`, a packet that leaves its home when there is no mbuf is taken off the cache
on which it has never been. -/
theorem pcache_not_owned :
    ¬ ∀ (tab : PathTab) (es : List CoreEvent) (s : System),
      PartialRun.run stepState (load 1000 0 tab (fun _ => none) false) es = some s →
        s.core.Sound ∧ ∀ e f, s.step e = .error f → f.Benign := by
  intro h
  have hfault : (PartialRun.run stepState
      (load 1000 0 (twoNodes [0, 0xc0a80002]) (fun _ => none) false)
      [.configure false true 1000 40, .packet (plainEnv 0x100) ipPacket, .hardclock]).map
        (fun s => s.step (.hopclockPacket { plainEnv 0x200 with mbufOk := false })) =
      some (.error (.uncacheAbsent 0x100)) := rfl
  obtain ⟨s, hs, hstep⟩ := Option.map_eq_some_iff.mp hfault
  exact ((h _ _ s hs).2 _ _ hstep).2 0x100 rfl

end System

end Modelnet.FreeBSD

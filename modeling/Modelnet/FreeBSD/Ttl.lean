import Modelnet.FreeBSD.AggregateRuns
import Modelnet.FreeBSD.Foreign
import Mathlib.Data.Nat.Basic

/-!
# The time to live between cores

The `ttl` of a record is checked by `remote_input` and decremented in the datagram, after the record
has been copied into the packet. So a core that is not the home of a packet sends it on with the
`ttl` it came with, and nothing bounds the number of crossings.
-/

namespace Modelnet.FreeBSD

open Modelnet

/-- The record that a core sends on for a packet which is not its own. -/
def Fate.sentOn : Fate → Option RemotePacket
  | .left _ cachehost info _ => if cachehost ≠ 0 then some info else none
  | _ => none

/-- A packet sent on goes with the `ttl` of the record with which it came. -/
def Arrivals.Repeats (g : Arrivals) (p : Addr) (fate : Fate) : Prop :=
  ∀ info, fate.sentOn = some info → ∃ rec, g p = some rec ∧ info.ttl = rec.ttl

namespace Core

variable {c c' : Core} {env : Env} {p q : Addr} {g : Arrivals} {l : InputLoop}

theorem Follows.repeats (h : c.Follows g) {fate : Fate} (hfate : c.LeavesWith p fate) :
    g.Repeats p fate := by
  intro info hinfo
  cases fate with
  | left toAddr host info' cached =>
    have hinfo : (if host ≠ 0 then some info' else none) = some info := hinfo
    split_ifs at hinfo with hforeign
    cases hinfo
    obtain ⟨pkt, hpkt, hhost, httl⟩ := hfate toAddr host info cached rfl
    obtain ⟨rec, hrec, httl'⟩ := h p pkt hpkt (hhost ▸ hforeign)
    exact ⟨rec, hrec, (httl hforeign).trans httl'⟩
  | freed => cases hinfo
  | waiting due => cases hinfo
  | forwarded m => cases hinfo

/-- `emulate_nexthop` on a packet that has come with the record of `g`, if with any. -/
theorem follows_emulateNexthop (h : c.Follows g) (env : Env) (p : Addr) :
    (c.emulateNexthop env p).Yields Fault.Local fun r => r.1.Follows g ∧ g.Repeats p r.2 :=
  (keeps_emulateNexthop c env p).imp fun _ hr => ⟨h.of_keeps hr.1, h.repeats hr.2⟩

/-- **A turn of `remote_input`.** -/
theorem follows_turn (h : c.Follows g) (l : InputLoop) (env : Env) :
    (c.turn l env).Yields (fun _ => True) fun r =>
      (∀ err, r.2 = .done err → r.1.Follows g) ∧
        ∀ l' q host info fate, r.2 = .next l' q host info fate →
          r.1.Follows (g.arrive q host info) ∧ (g.arrive q host info).Repeats q fate := by
  have hdone : ∀ (c' : Core) err, c'.Follows g →
      (∀ err', Turn.done err = .done err' → c'.Follows g) ∧
        ∀ l' q host info fate, Turn.done err = .next l' q host info fate →
          c'.Follows (g.arrive q host info) ∧ (g.arrive q host info).Repeats q fate :=
    fun c' err hc' => ⟨fun _ _ => hc', by rintro _ _ _ _ _ ⟨⟩⟩
  have herror : ∀ (c' : Core) pkt, c'.Follows g →
      (c'.inputError pkt).Yields (fun _ => True) fun c'' => c''.Follows g := by
    intro c' pkt hc'
    unfold inputError
    cases pkt with
    | none => exact hc'
    | some p =>
      exact ((keeps_mnFreePkt c' p).imp fun _ hc'' => hc'.of_keeps hc'').imp_error
        fun _ _ => trivial
  unfold turn
  refine ((test_yields l.cursor).imp_error fun _ _ => trivial).bind fun test _ => ?_
  cases test with
  | exit => exact hdone c 0 h
  | tooMany => exact (herror c l.pkt h).bind fun c' hc' => hdone c' 1 hc'
  | body =>
    show (c.inputBody l env).Yields _ _
    unfold inputBody
    cases c.mallocPkt env with
    | none => exact hdone c _ h
    | some p =>
      refine ((take_yields l.cursor).imp_error fun _ _ => trivial).bind fun t _ => ?_
      have hfresh : (c.setPkt p { freshPkt t.m 0 with info := t.info }).Follows g := by
        have hset := h.setPkt p { freshPkt t.m 0 with info := t.info } fun _ => rfl
        rwa [show ({ freshPkt t.m 0 with info := t.info } : Packet).cachehost = 0 from rfl,
          g.arrive_home] at hset
      refine ((follows_checkRecord hfresh l.ipLen p t).imp_error fun _ _ => trivial).bind ?_
      rintro ⟨c', verdict⟩ ⟨hrejected, hhanded⟩
      cases verdict with
      | rejected err =>
        exact (herror c' (some p) (hrejected err rfl)).bind fun c'' hc'' => hdone c'' err hc''
      | handed q host =>
        refine ((follows_emulateNexthop (hhanded q host rfl) env q).imp_error
          fun _ _ => trivial).bind fun r hr => ⟨by rintro _ ⟨⟩, ?_⟩
        rintro _ _ _ _ _ ⟨⟩
        exact hr

theorem follows_filterIpinput (h : c.Follows g) (env : Env) (m : List Byte) :
    (c.filterIpinput env m).Yields (fun _ => True) fun r =>
      r.1.Follows g ∧ ∀ p fate, r.2.2 = some (p, fate) → g.Repeats p fate := by
  unfold filterIpinput
  cases c.mallocPkt env with
  | none => exact ⟨h, by rintro _ _ ⟨⟩⟩
  | some p =>
    refine ((startPath_yields c m).imp_error fun _ _ => trivial).bind fun start hstart => ?_
    cases start with
    | none => exact ⟨h, by rintro _ _ ⟨⟩⟩
    | some pkt =>
      have hset : (c.setPkt p pkt).Follows g := by
        have hset := h.setPkt p pkt fun _ => rfl
        rwa [(hstart pkt rfl).1, g.arrive_home] at hset
      refine ((follows_emulateNexthop hset env p).imp_error fun _ _ => trivial).bind fun r hr => ?_
      refine ⟨hr.1, ?_⟩
      rintro _ _ ⟨⟩
      exact hr.2

end Core

namespace Act

/-- The packet that a core which is not its home sends on, with its record. -/
def sentOn : Act → Option (Addr × RemotePacket)
  | .started p fate => fate.sentOn.map fun info => (p, info)
  | .handed p _ _ fate => fate.sentOn.map fun info => (p, info)
  | .crossed p fate => fate.sentOn.map fun info => (p, info)
  | .idle => none

def arrivals (g : Arrivals) : Act → Arrivals
  | .handed p cachehost info _ => g.arrive p cachehost info
  | _ => g

end Act

namespace System

/-- A core with the records of the packets that have come from other cores. -/
def trackedStep (s : System × Arrivals) (e : CoreEvent) : Option (System × Arrivals) :=
  match s.1.step e with
  | .ok r => some (r.1, r.2.arrivals s.2)
  | .error _ => none

/-- A packet that the event sends on has a smaller `ttl` than the record with which it came. -/
def Decreases (s : System × Arrivals) (e : CoreEvent) : Prop :=
  ∀ s' act p info, s.1.step e = .ok (s', act) → act.sentOn = some (p, info) →
    ∃ rec, act.arrivals s.2 p = some rec ∧ info.ttl.slt rec.ttl

/-- The event sends no packet of another core on. -/
def SendsNoneOn (s : System × Arrivals) (e : CoreEvent) : Prop :=
  ∀ s' act, s.1.step e = .ok (s', act) → act.sentOn = none

variable {s s' : System} {g : Arrivals} {e : CoreEvent} {act : Act}

/-- A record that repeats the one with which the packet came has its `ttl`. -/
theorem exists_arrival_of_repeats {g : Arrivals} {p : Addr} {fate : Fate} (hfate : g.Repeats p fate)
    (q : Addr) (info : RemotePacket) (h : fate.sentOn.map (fun info => (p, info)) = some (q, info)) :
    ∃ rec, g q = some rec ∧ info.ttl = rec.ttl := by
  obtain ⟨info', hinfo', heq⟩ := Option.map_eq_some_iff.mp h
  cases heq
  exact hfate info hinfo'

theorem follows_hopclockEnd {c : Core} (h : c.Follows g) :
    (hopclockEnd c).Yields (fun _ => True) fun c' => c'.Follows g := by
  have hclean : (cleanAggregates c).Yields (fun _ => True) fun c' => c'.Follows g := by
    unfold cleanAggregates Aggregates.remoteAggregateClean
    split_ifs
    · exact (Aggregates.cleanLoop_yields trivial _ _).bind fun _ _ => h
    · exact h
  unfold hopclockEnd
  refine hclean.bind fun c' hc' => ?_
  split_ifs
  · unfold Core.remoteFlush
    split_ifs
    · exact ((Core.keeps_flushLoop _ c').imp fun _ => hc'.of_keeps).imp_error
        fun _ _ => trivial
    · exact hc'
  · exact hc'

/-- **Step.** A packet that an event sends on has the `ttl` of the record with which it came. -/
theorem follows_step (h : s.core.Follows g) (e : CoreEvent) :
    (s.step e).Yields (fun _ => True) fun r => r.1.core.Follows (r.2.arrivals g) ∧
      ∀ p info, r.2.sentOn = some (p, info) →
        ∃ rec, r.2.arrivals g p = some rec ∧ info.ttl = rec.ttl := by
  have hidle : ∀ s' : System, s'.core.Follows g →
      s'.core.Follows (Act.idle.arrivals g) ∧ ∀ p info, Act.idle.sentOn = some (p, info) →
        ∃ rec, Act.idle.arrivals g p = some rec ∧ info.ttl = rec.ttl :=
    fun s' hs' => ⟨hs', by rintro _ _ ⟨⟩⟩
  obtain ⟨c, input⟩ := s
  cases e with
  | hardclock => exact hidle _ h
  | packet env m =>
    cases input with
    | some l => exact hidle _ h
    | none =>
      unfold step
      dsimp only
      split_ifs
      · refine (Core.follows_filterIpinput h env m).bind ?_
        rintro ⟨c', err, started⟩ ⟨hc', hfate⟩
        cases started with
        | none => exact hidle ⟨c', none⟩ hc'
        | some start => exact ⟨hc', exists_arrival_of_repeats (hfate start.1 start.2 rfl)⟩
      · exact hidle _ h
  | datagram payload =>
    cases input with
    | some l => exact hidle _ h
    | none => exact hidle _ h
  | turn env =>
    cases input with
    | none => exact hidle _ h
    | some l =>
      refine (Core.follows_turn h l env).bind ?_
      rintro ⟨c', turn⟩ ⟨hdone, hnext⟩
      cases turn with
      | done err => exact hidle ⟨c', none⟩ (hdone err rfl)
      | next l' q host info fate =>
        obtain ⟨hc', hfate⟩ := hnext l' q host info fate rfl
        exact ⟨hc', exists_arrival_of_repeats hfate⟩
  | hopclockPacket env =>
    cases input with
    | some l => exact hidle _ h
    | none =>
      unfold step
      dsimp only
      cases slot ⟨c, none⟩ with
      | nil => exact hidle _ h
      | cons p rest =>
        dsimp only
        split_ifs
        · have hremove : (c.calendarRemove (calendarSlot c.calendarTick) rest).Follows g := h
          refine ((Core.follows_emulateNexthop hremove env p).imp_error fun _ _ => trivial).bind
            fun r hr => ⟨hr.1, exists_arrival_of_repeats hr.2⟩
        · exact hidle _ h
  | hopclockSlot =>
    cases input with
    | some l => exact hidle _ h
    | none =>
      unfold step
      dsimp only
      split_ifs
      · exact hidle ⟨_, none⟩ h
      · exact hidle _ h
  | hopclockEnd =>
    cases input with
    | some l => exact hidle _ h
    | none =>
      unfold step
      dsimp only
      split_ifs
      · exact (follows_hopclockEnd h).bind fun c' hc' => hidle ⟨c', none⟩ hc'
      · exact hidle _ h
  | configure pcache aggregate mcExpire mcTtl => exact hidle ⟨_, input⟩ h
  | teTimeout h₁ pipe =>
    cases input with
    | some l => exact hidle _ h
    | none => exact hidle ⟨_, none⟩ h

theorem load_follows (hz ticks : ℕ) (tab : PathTab) (xtHop : HopPtr → Option XcpPipe)
    (xcpInitialized : Bool) (g : Arrivals) :
    (load hz ticks tab xtHop xcpInitialized).core.Follows g := fun _ _ hq => by cases hq

theorem trackedStep_eq_some {s s' : System × Arrivals} :
    trackedStep s e = some s' ↔ ∃ act, s.1.step e = .ok (s'.1, act) ∧ s'.2 = act.arrivals s.2 := by
  unfold trackedStep
  cases s.1.step e with
  | error f =>
    constructor
    · rintro ⟨⟩
    · rintro ⟨_, ⟨⟩, _⟩
  | ok r =>
    obtain ⟨s₁, act⟩ := r
    obtain ⟨s₂, g₂⟩ := s'
    constructor
    · rintro ⟨⟩
      exact ⟨act, rfl, rfl⟩
    · rintro ⟨_, ⟨⟩, rfl⟩
      rfl

/-- A pass of a packet through a core that is not its home, in a run of that core: it comes with the
record `r`, and is sent on with `r'`. -/
def Passes (r r' : RemotePacket) : Prop :=
  ∃ hz ticks tab xtHop xcpInitialized es, ∃ s : System × Arrivals, ∃ e s' act p,
    PartialRun.run trackedStep (load hz ticks tab xtHop xcpInitialized, fun _ => none) es = some s ∧
      s.1.step e = .ok (s', act) ∧ act.sentOn = some (p, r') ∧ act.arrivals s.2 p = some r

/-- One pass after the other, between two visits to the home of the packet. -/
inductive Crosses : ℕ → RemotePacket → RemotePacket → Prop
  | nil {r : RemotePacket} : Crosses 0 r r
  | cons {n : ℕ} {r r' r'' : RemotePacket} (hpass : Passes r r') (hcross : Crosses n r' r'') :
      Crosses (n + 1) r r''

theorem run_follows {s s' : System × Arrivals} {es : List CoreEvent} (h : s.1.core.Follows s.2)
    (hrun : PartialRun.run trackedStep s es = some s') : s'.1.core.Follows s'.2 := by
  refine PartialRun.run_invariant (I := fun s => s.1.core.Follows s.2) ?_ hrun h
  intro s e s' hs hstep
  obtain ⟨act, hact, heq⟩ := trackedStep_eq_some.mp hstep
  rw [heq]
  exact ((follows_step hs e).of_ok hact).1

theorem Passes.ttl_eq {r r' : RemotePacket} (h : Passes r r') : r'.ttl = r.ttl := by
  obtain ⟨hz, ticks, tab, xtHop, xcpInitialized, es, s, e, s', act, p, hrun, hstep, hsent, hrec⟩ :=
    h
  have hs := run_follows (load_follows hz ticks tab xtHop xcpInitialized _) hrun
  obtain ⟨rec, hrec', httl⟩ := ((follows_step hs e).of_ok hstep).2 p r' hsent
  cases hrec.symm.trans hrec'
  exact httl

theorem Crosses.ttl_eq {n : ℕ} {r r' : RemotePacket} (h : Crosses n r r') : r'.ttl = r.ttl := by
  induction h with
  | nil => rfl
  | cons hpass _ ih => exact ih.trans hpass.ttl_eq

/-- **The time to live.** In a run of a core the `ttl` of the packets that pass decreases only if
none passes; and after any number of passes through any cores it is what it was. -/
theorem ttl_decreases_iff (hz ticks : ℕ) (tab : PathTab) (xtHop : HopPtr → Option XcpPipe)
    (xcpInitialized : Bool) (es : List CoreEvent) (n : ℕ) (r r' : RemotePacket) :
    (PartialRun.Guarded trackedStep Decreases
        (load hz ticks tab xtHop xcpInitialized, fun _ => none) es ↔
      PartialRun.Guarded trackedStep SendsNoneOn
        (load hz ticks tab xtHop xcpInitialized, fun _ => none) es) ∧
      (Crosses n r r' → r'.ttl = r.ttl) := by
  refine ⟨?_, fun h => h.ttl_eq⟩
  have hguard : ∀ (s : System × Arrivals) e, s.1.core.Follows s.2 →
      (Decreases s e ↔ SendsNoneOn s e) := by
    intro s e hs
    constructor
    · intro hdec s' act hstep
      cases hsent : act.sentOn with
      | none => rfl
      | some sent =>
        obtain ⟨rec, hrec, hlt⟩ := hdec s' act sent.1 sent.2 hstep hsent
        obtain ⟨rec', hrec', heq⟩ := ((follows_step hs e).of_ok hstep).2 sent.1 sent.2 hsent
        cases hrec.symm.trans hrec'
        rw [heq] at hlt
        exact absurd (of_decide_eq_true hlt) (lt_irrefl _)
    · intro hquiet s' act p info hstep hsent
      rw [hquiet s' act hstep] at hsent
      cases hsent
  refine PartialRun.guarded_iff_of_invariant (I := fun s => s.1.core.Follows s.2) ?_ hguard
    (load_follows hz ticks tab xtHop xcpInitialized _)
  intro s e s' hs _ hstep
  obtain ⟨act, hact, heq⟩ := trackedStep_eq_some.mp hstep
  rw [heq]
  exact ((follows_step hs e).of_ok hact).1

/-- The second hop of the path belongs to another core, and so does the packet. -/
theorem exists_pass : ∃ s s' act,
    PartialRun.run trackedStep
        (load 1000 0 (twoNodes [0xc0a80001, 0xc0a80003]) (fun _ => none) false, fun _ => none)
        [.datagram (Xmit.recordOf 0x100).encode] = some s ∧
      s.1.step (.turn (plainEnv 0x200)) = .ok (s', act) ∧
      act.sentOn = some (0x200, Xmit.recordOf 0x100) ∧
      act.arrivals s.2 0x200 = some (Xmit.recordOf 0x100) := by
  have hturn : (PartialRun.run trackedStep
      (load 1000 0 (twoNodes [0xc0a80001, 0xc0a80003]) (fun _ => none) false, fun _ => none)
      [.datagram (Xmit.recordOf 0x100).encode]).map
        (fun s => (s.1.step (.turn (plainEnv 0x200))).toOption.map fun r =>
          (r.2.sentOn, r.2.arrivals s.2 0x200)) =
      some (some (some (0x200, Xmit.recordOf 0x100), some (Xmit.recordOf 0x100))) := rfl
  obtain ⟨s, hrun, hstep⟩ := Option.map_eq_some_iff.mp hturn
  obtain ⟨⟨s', act⟩, hok, heq⟩ := Option.map_eq_some_iff.mp hstep
  obtain ⟨hsent, harrival⟩ := Prod.mk.inj heq
  exact ⟨s, s', act, hrun, Except.toOption_eq_some_iff.mp hok, hsent, harrival⟩

/-- The record of a packet that left home with a `ttl` of 40 is sent on with 40, any number of
times. -/
theorem ttl_not_decremented :
    (¬ ∀ tab es, PartialRun.Guarded trackedStep Decreases
      (load 1000 0 tab (fun _ => none) false, fun _ => none) es) ∧
      ∀ n, ∃ r r', r.ttl = 40 ∧ Crosses n r r' := by
  obtain ⟨s, s', act, hrun, hstep, hsent, harrival⟩ := exists_pass
  constructor
  · intro h
    have hdec : Decreases s (.turn (plainEnv 0x200)) :=
      (h _ ([.datagram (Xmit.recordOf 0x100).encode] ++ [.turn (plainEnv 0x200)])).last hrun
    obtain ⟨rec, hrec, hlt⟩ := hdec s' act _ _ hstep hsent
    cases harrival.symm.trans hrec
    exact absurd hlt (by decide)
  · intro n
    refine ⟨Xmit.recordOf 0x100, Xmit.recordOf 0x100, rfl, ?_⟩
    induction n with
    | zero => exact .nil
    | succ n ih =>
      exact .cons ⟨_, _, _, _, _, _, s, _, s', act, _, hrun, hstep, hsent, harrival⟩ ih

end System

end Modelnet.FreeBSD

import Modelnet.Lib.Traced
import Modelnet.FreeBSD.RemoteInput

/-!
# What is read along a path

`emulate_nexthop` and `remote_input` once more, with a note of every read of a path: of `*pkt->path`
or `path[0]`, of `*(pkt->path - 1)`, and through the pointer to a hop that came out of it. What a
function does behind its last read of this kind is taken over as it is. Without the notes they are
the functions of the model (`result_stepT`).
-/

namespace Modelnet.FreeBSD

open Modelnet Traced

inductive PathAccess where
  /-- `*path`; `none` is a pointer that has not been set -/
  | cell (path : Option PathPtr)
  /-- `*(path - 1)` -/
  | before (path : Option PathPtr)
  /-- through the hop or the null that a path holds -/
  | hop (cell : Option HopPtr)
  deriving DecidableEq

namespace Core

/-- `*(pkt->path - 1)`, and the hop behind it. -/
def prevHopT (c : Core) (path : Option PathPtr) : Traced PathAccess Fault HopPtr := do
  observe (.before path)
  match path with
  | none => lift (.error .memory)
  | some path =>
    if path.off = 0 then lift (.error .memory)
    else do
      let prv ← lift (c.readPath (some { path with off := path.off - 1 }))
      observe (.hop prv)
      match prv with
      | none => lift (.error .memory)
      | some h => return h

/-- The handler of the previous hop is called for a packet that leaves it. -/
def dequeueT (c : Core) (p : Addr) (pkt : Packet) : Traced PathAccess Fault Core :=
  if pkt.info.hop ≠ 0 ∧ pkt.state &&& 1 ≠ 0 then do
    let h ← c.prevHopT pkt.path
    lift (do
      let prvhop ← c.hop h
      match c.xtHop h with
      | none => return c
      | some pipe =>
        if prvhop.emulator = 0 then
          match pipe.xcpDequeue c.hz prvhop.bytedepth pkt.info with
          | none => .error .memory
          | some (pipe, info) =>
            return { c.setPkt p { pkt with info := info } with
              xtHop := Function.update c.xtHop h (some pipe) }
        else return c)
  else return c

/-- `emulate_nexthop` from the test for the end of the path on; `curhop` is only read when it is
not the end. -/
def crossHopT (c : Core) (env : Env) (p : Addr) (curhop : Option HopPtr) :
    Traced PathAccess Fault (Core × Fate) :=
  match curhop with
  | none => lift (c.crossHop env p none)
  | some h => do
    observe (.hop (some h))
    lift (c.crossHop env p (some h))

def emulateNexthopT (c : Core) (env : Env) (p : Addr) : Traced PathAccess Fault (Core × Fate) := do
  let pkt ← lift (c.packet p)
  observe (.cell pkt.path)
  let curhop ← lift (c.readPath pkt.path)
  if pkt.info.hop = 0 then do
    -- the emulator of the first hop, before any test for the end of the path
    observe (.hop curhop)
    match curhop with
    | none => lift (.error .memory)
    | some h => do
      let hop ← lift (c.hop h)
      if hop.emulator ≠ 0 then do
        let c ← lift (c.mnFreePkt p)
        return (c, .freed)
      else c.crossHopT env p curhop
  else do
    let c ← c.dequeueT p pkt
    c.crossHopT env p curhop

/-- The checks of a record whose packet struct is `p`. -/
def checkRecordT (c : Core) (ipLen : ℕ) (p : Addr) (t : Cursor.Taken) :
    Traced PathAccess Fault (Core × Verdict) :=
  if t.info.id ≠ 0 ∧ ¬ c.aggregate ∧ ipLen ≠ remotePacketSize + udpiphdrSize then
    return (c, .rejected einval)
  else if t.info.ttl.sle 0 then return (c, .rejected einval)
  else do
    let path ← lift (c.lookupPath (t.info.src &&& ~~~modelForcebit) t.info.dst)
    match path with
    | none => return (c, .rejected enoent)
    | some path => do
      -- `pkt->path[0]->emulator`
      observe (.cell (some path))
      let first ← lift (c.readPath (some path))
      observe (.hop first)
      match first with
      | none => lift (.error .memory)
      | some h => lift (do
        let hop ← c.hop h
        let c := c.arrive p t path hop.emulator
        if hop.emulator = 0 ∧ t.info.id ≠ 0 then
          let r ← c.mcReunite p
          return (r.1, if r.2.1 ≠ 0 then .rejected r.2.1 else .handed r.2.2 0)
        else return (c, .handed p hop.emulator))

/-- The body of the loop of `remote_input`. -/
def inputBodyT (c : Core) (l : InputLoop) (env : Env) : Traced PathAccess Fault (Core × Turn) :=
  match c.mallocPkt env with
  | none => return (c, .done enobufs)
  | some p => do
    let t ← lift l.cursor.take
    let r ← (c.setPkt p { freshPkt t.m 0 with info := t.info }).checkRecordT l.ipLen p t
    match r.2 with
    | .rejected err => do
      let c ← lift (r.1.inputError (some p))
      return (c, .done err)
    | .handed q cachehost => do
      let r ← r.1.emulateNexthopT env q
      return (r.1, .next { l with cursor := t.cursor, pkt := some q } q cachehost t.info r.2)

def turnT (c : Core) (l : InputLoop) (env : Env) : Traced PathAccess Fault (Core × Turn) := do
  let test ← lift l.cursor.test
  match test with
  | .exit => return (c, .done 0)
  | .tooMany => do
    let c ← lift (c.inputError l.pkt)
    return (c, .done 1)
  | .body => c.inputBodyT l env

def filterIpinputT (c : Core) (env : Env) (m : List Byte) :
    Traced PathAccess Fault (Core × ℤ × Option (Addr × Fate)) :=
  match c.mallocPkt env with
  | none => return (c, enobufs, none)
  | some p => do
    let start ← lift (c.startPath m)
    match start with
    | none => return (c, enoent, none)
    | some pkt => do
      let r ← (c.setPkt p pkt).emulateNexthopT env p
      return (r.1, 0, some (p, r.2))

end Core

/-- An event. Those that take no packet along its path read no path. -/
def System.stepT (s : System) (e : CoreEvent) : Traced PathAccess Fault (System × Act) :=
  match e, s.input with
  | .turn env, some l => do
    let r ← s.core.turnT l env
    return afterTurn r.1 r.2
  | .packet env m, none =>
    if ipSize ≤ m.length ∧ be32At m 12 &&& modelMask = modelSubnet ∧
        be32At m 16 &&& modelMask = modelSubnet then do
      let r ← s.core.filterIpinputT env m
      return (⟨r.1, none⟩, match r.2.2 with
        | none => .idle
        | some (p, fate) => .started p fate)
    else return (s, .idle)
  | .hopclockPacket env, none =>
    match s.slot with
    | [] => return (s, .idle)
    | p :: rest =>
      if s.core.calendarTick ≠ s.core.ticks then do
        let c := s.core.calendarRemove (calendarSlot s.core.calendarTick) rest
        let r ← c.emulateNexthopT env p
        return (⟨r.1, none⟩, .crossed p r.2)
      else return (s, .idle)
  | e, _ => lift (s.step e)

/-! ## Without the notes -/

namespace Core

variable (c : Core) (env : Env) (p : Addr)

theorem result_prevHopT (path : Option PathPtr) : (c.prevHopT path).result = c.prevHop path := by
  unfold prevHopT prevHop
  rw [result_observe_bind]
  cases path with
  | none => rfl
  | some path =>
    dsimp only
    split_ifs
    · rfl
    · rw [result_lift_bind]
      refine bind_congr fun prv => ?_
      rw [result_observe_bind]
      cases prv with
      | none => rfl
      | some h => rfl

theorem result_dequeueT (pkt : Packet) : (c.dequeueT p pkt).result = c.dequeue p pkt := by
  unfold dequeueT dequeue
  split_ifs
  · rw [result_bind, result_prevHopT]
    rfl
  · rfl

theorem result_crossHopT (curhop : Option HopPtr) :
    (c.crossHopT env p curhop).result = c.crossHop env p curhop := by
  cases curhop with
  | none => rfl
  | some h => exact result_observe_bind _ _

theorem result_emulateNexthopT : (c.emulateNexthopT env p).result = c.emulateNexthop env p := by
  unfold emulateNexthopT emulateNexthop
  rw [result_lift_bind]
  refine bind_congr fun pkt => ?_
  rw [result_observe_bind, result_lift_bind]
  refine bind_congr fun curhop => ?_
  split_ifs
  · rw [result_observe_bind]
    cases curhop with
    | none => rfl
    | some h =>
      dsimp only
      rw [result_lift_bind]
      refine bind_congr fun hop => ?_
      split_ifs
      · rw [result_lift_bind]
        rfl
      · exact result_crossHopT c env p (some h)
  · rw [result_bind, result_dequeueT]
    refine bind_congr fun c => ?_
    exact result_crossHopT c env p curhop

theorem result_checkRecordT (ipLen : ℕ) (t : Cursor.Taken) :
    (c.checkRecordT ipLen p t).result = c.checkRecord ipLen p t := by
  unfold checkRecordT checkRecord
  split_ifs
  · rfl
  · rfl
  · rw [result_lift_bind]
    refine bind_congr fun path => ?_
    cases path with
    | none => rfl
    | some path =>
      dsimp only
      rw [result_observe_bind, result_lift_bind]
      refine bind_congr fun first => ?_
      rw [result_observe_bind]
      cases first with
      | none => rfl
      | some h => rfl

theorem result_inputBodyT (l : InputLoop) : (c.inputBodyT l env).result = c.inputBody l env := by
  unfold inputBodyT inputBody
  cases c.mallocPkt env with
  | none => rfl
  | some p =>
    dsimp only
    rw [result_lift_bind]
    refine bind_congr fun t => ?_
    rw [result_bind, result_checkRecordT]
    refine bind_congr fun r => ?_
    obtain ⟨c', verdict⟩ := r
    cases verdict with
    | rejected err => exact result_lift_bind _ _
    | handed q cachehost =>
      dsimp only
      rw [result_bind, result_emulateNexthopT]
      rfl

theorem result_turnT (l : InputLoop) : (c.turnT l env).result = c.turn l env := by
  unfold turnT turn
  rw [result_lift_bind]
  refine bind_congr fun test => ?_
  cases test with
  | exit => rfl
  | tooMany => exact result_lift_bind _ _
  | body => exact result_inputBodyT c env l

theorem result_filterIpinputT (m : List Byte) :
    (c.filterIpinputT env m).result = c.filterIpinput env m := by
  unfold filterIpinputT filterIpinput
  cases c.mallocPkt env with
  | none => rfl
  | some p =>
    dsimp only
    rw [result_lift_bind]
    refine bind_congr fun start => ?_
    cases start with
    | none => rfl
    | some pkt =>
      dsimp only
      rw [result_bind, result_emulateNexthopT]
      rfl

end Core

/-- **Without the notes**, an event does what it does in the model. -/
theorem System.result_stepT (s : System) (e : CoreEvent) : (s.stepT e).result = s.step e := by
  obtain ⟨c, input⟩ := s
  cases e with
  | packet env m =>
    cases input with
    | some l => rfl
    | none =>
      unfold stepT step
      dsimp only
      split_ifs
      · rw [result_bind, Core.result_filterIpinputT]
        rfl
      · rfl
  | turn env =>
    cases input with
    | none => rfl
    | some l =>
      unfold stepT step
      dsimp only
      rw [result_bind, Core.result_turnT]
      rfl
  | hopclockPacket env =>
    cases input with
    | some l => rfl
    | none =>
      unfold stepT step
      dsimp only
      cases slot ⟨c, none⟩ with
      | nil => rfl
      | cons p rest =>
        dsimp only
        split_ifs
        · rw [result_bind, Core.result_emulateNexthopT]
          rfl
        · rfl
  | _ => rfl

end Modelnet.FreeBSD

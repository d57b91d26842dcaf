import Modelnet.FreeBSD.Core
import Modelnet.FreeBSD.Datagram

/-!
# `remote_input`, and the core as a whole

The loop of `remote_input` turn by turn, the tick of `hopclock`, and the events that drive a core.
A record that fails a check leaves the loop through the common exit, where the chain and the packet
that `pkt` points at are freed.
-/

namespace Modelnet.FreeBSD

open Modelnet

structure InputLoop where
  ipLen : ℕ
  cursor : Cursor
  pkt : Option Addr

/-- The variables of `remote_input` in front of the loop. -/
def InputLoop.start (payload : List Byte) : InputLoop where
  ipLen := payload.length + udpiphdrSize
  cursor := Cursor.start payload
  pkt := none

/-- What the checks say about a record: the error, or the packet for `emulate_nexthop` and the core
that caches it. -/
inductive Verdict where
  | rejected (err : ℤ)
  | handed (p : Addr) (cachehost : BitVec 32)
  deriving DecidableEq

/-- What a turn of the loop does: it ends the loop with this result, or `emulate_nexthop` has been
called on the packet `p` of the record `info`. -/
inductive Turn where
  | done (err : ℤ)
  | next (l : InputLoop) (p : Addr) (cachehost : BitVec 32) (info : RemotePacket) (fate : Fate)

namespace Core

/-- The packet of a record at the start of what its core has to do. -/
def arrive (c : Core) (p : Addr) (t : Cursor.Taken) (path : PathPtr) (cachehost : BitVec 32) :
    Core :=
  c.setPkt p
    { path := some { path with off := t.info.hop.toNat }, m := t.m, cachehost := cachehost,
      state := 0, info := t.info }

/-- The checks of a record whose packet struct is `p`. -/
def checkRecord (c : Core) (ipLen : ℕ) (p : Addr) (t : Cursor.Taken) : Except Fault (Core × Verdict) :=
  if t.info.id ≠ 0 ∧ ¬ c.aggregate ∧ ipLen ≠ remotePacketSize + udpiphdrSize then
    return (c, .rejected einval)
  else if t.info.ttl.sle 0 then return (c, .rejected einval)
  else do
    let path ← c.lookupPath (t.info.src &&& ~~~modelForcebit) t.info.dst
    match path with
    | none => return (c, .rejected enoent)
    | some path =>
      match ← c.readPath (some path) with
      | none => .error .memory
      | some h =>
        let hop ← c.hop h
        let c := c.arrive p t path hop.emulator
        if hop.emulator = 0 ∧ t.info.id ≠ 0 then
          let r ← c.mcReunite p
          return (r.1, if r.2.1 ≠ 0 then .rejected r.2.1 else .handed r.2.2 0)
        else return (c, .handed p hop.emulator)

/-- The exit for errors, for the value of `pkt`. -/
def inputError (c : Core) (pkt : Option Addr) : Except Fault Core :=
  match pkt with
  | none => return c
  | some p => c.mnFreePkt p

def inputBody (c : Core) (l : InputLoop) (env : Env) : Except Fault (Core × Turn) :=
  match c.mallocPkt env with
  | none => return (c, .done enobufs)
  | some p => do
    let t ← l.cursor.take
    let r ← (c.setPkt p { freshPkt t.m 0 with info := t.info }).checkRecord l.ipLen p t
    match r.2 with
    | .rejected err =>
      let c ← r.1.inputError (some p)
      return (c, .done err)
    | .handed q cachehost =>
      let r ← r.1.emulateNexthop env q
      return (r.1, .next { l with cursor := t.cursor, pkt := some q } q cachehost t.info r.2)

def turn (c : Core) (l : InputLoop) (env : Env) : Except Fault (Core × Turn) := do
  match ← l.cursor.test with
  | .exit => return (c, .done 0)
  | .tooMany =>
    let c ← c.inputError l.pkt
    return (c, .done 1)
  | .body => c.inputBody l env

/-- A packet handed to `emulate_nexthop`, with its record and its fate. -/
structure Handed where
  p : Addr
  info : RemotePacket
  fate : Fate

/-- The loop of `remote_input`, with the answers of the kernel for its turns: the result, if the
answers are enough to end it, and the packets it hands on. -/
def inputLoop : List Env → Core → InputLoop → Except Fault (Core × Option ℤ × List Handed)
  | [], c, l => do
    match ← l.cursor.test with
    | .exit => return (c, some 0, [])
    | .tooMany =>
      let c ← c.inputError l.pkt
      return (c, some 1, [])
    | .body => return (c, none, [])
  | env :: envs, c, l => do
    let r ← c.turn l env
    match r.2 with
    | .done err => return (r.1, some err, [])
    | .next l p _ info fate =>
      let r ← inputLoop envs r.1 l
      return (r.1, r.2.1, ⟨p, info, fate⟩ :: r.2.2)

theorem inputLoop_cons (env : Env) (envs : List Env) (c : Core) (l : InputLoop) :
    inputLoop (env :: envs) c l = c.turn l env >>= fun r =>
      match r.2 with
      | .done err => .ok (r.1, some err, [])
      | .next l p _ info fate => inputLoop envs r.1 l >>= fun r =>
        .ok (r.1, r.2.1, ⟨p, info, fate⟩ :: r.2.2) := rfl

def remoteInput (c : Core) (envs : List Env) (payload : List Byte) :
    Except Fault (Core × Option ℤ × List Handed) :=
  inputLoop envs c (InputLoop.start payload)

end Core

/-! ## The core as a whole -/

/-- A core, and the loop of `remote_input` while it runs. -/
structure System where
  core : Core
  input : Option InputLoop

inductive CoreEvent where
  /-- `hardclock` advances `ticks` -/
  | hardclock
  /-- a packet of a local node arrives -/
  | packet (env : Env) (m : List Byte)
  /-- a datagram of another core arrives -/
  | datagram (payload : List Byte)
  /-- a turn of the loop of `remote_input` -/
  | turn (env : Env)
  /-- `hopclock` takes a packet off the slot of the tick -/
  | hopclockPacket (env : Env)
  /-- `hopclock` leaves an empty slot -/
  | hopclockSlot
  /-- `hopclock` has come up to `ticks` -/
  | hopclockEnd
  /-- the variables of the `sysctl` node `mc` are set -/
  | configure (pcache aggregate : Bool) (mcExpire mcTtl : BitVec 32)
  /-- the control timer of an XCP hop -/
  | teTimeout (h : HopPtr) (pipe : XcpPipe)

/-- The packet an event has dealt with. -/
inductive Act where
  | idle
  | started (p : Addr) (fate : Fate)
  | handed (p : Addr) (cachehost : BitVec 32) (info : RemotePacket) (fate : Fate)
  | crossed (p : Addr) (fate : Fate)

namespace System

/-- The core and the loop after a turn. -/
def afterTurn (c : Core) : Turn → System × Act
  | .done _ => (⟨c, none⟩, .idle)
  | .next l p cachehost info fate => (⟨c, some l⟩, .handed p cachehost info fate)

/-- `if (mn.state & MN_AGGREGATE) remote_aggregate_clean()`. -/
def cleanAggregates (c : Core) : Except Fault Core :=
  if c.aggregate then do
    let r ← c.agg.remoteAggregateClean
    return { c with agg := r.1 }
  else return c

def hopclockEnd (c : Core) : Except Fault Core := do
  let c ← cleanAggregates c
  if c.ticks % remoteFlushRate = 0 then c.remoteFlush else return c

/-- The slot that `hopclock` works on. -/
def slot (s : System) : List Addr := s.core.packetCalendar (calendarSlot s.core.calendarTick)

/-- An event. While `remote_input` runs, it holds the lock, and only its own turns, `hardclock` and
writes to the `sysctl` variables go on. An event for which it is not the time changes nothing. -/
def step (s : System) (e : CoreEvent) : Except Fault (System × Act) :=
  match e, s.input with
  | .hardclock, _ => return (⟨{ s.core with ticks := s.core.ticks + 1 }, s.input⟩, .idle)
  | .configure pcache aggregate mcExpire mcTtl, _ =>
    return (⟨{ s.core with
      pcache := pcache, aggregate := aggregate, mcExpire := mcExpire, mcTtl := mcTtl }, s.input⟩,
      .idle)
  | .turn env, some l => do
    let r ← s.core.turn l env
    return afterTurn r.1 r.2
  | .packet env m, none =>
    if ipSize ≤ m.length ∧ be32At m 12 &&& modelMask = modelSubnet ∧
        be32At m 16 &&& modelMask = modelSubnet then do
      let r ← s.core.filterIpinput env m
      return (⟨r.1, none⟩, match r.2.2 with
        | none => .idle
        | some (p, fate) => .started p fate)
    else return (s, .idle)
  | .datagram payload, none => return (⟨s.core, some (InputLoop.start payload)⟩, .idle)
  | .hopclockPacket env, none =>
    match s.slot with
    | [] => return (s, .idle)
    | p :: rest =>
      if s.core.calendarTick ≠ s.core.ticks then do
        let c := s.core.calendarRemove (calendarSlot s.core.calendarTick) rest
        let r ← c.emulateNexthop env p
        return (⟨r.1, none⟩, .crossed p r.2)
      else return (s, .idle)
  | .hopclockSlot, none =>
    if s.core.calendarTick ≠ s.core.ticks ∧ s.slot = [] then
      return (⟨{ s.core with calendarTick := s.core.calendarTick + 1 }, none⟩, .idle)
    else return (s, .idle)
  | .hopclockEnd, none =>
    if s.core.calendarTick = s.core.ticks then do
      let c ← hopclockEnd s.core
      return (⟨c, none⟩, .idle)
    else return (s, .idle)
  | .teTimeout h pipe, none =>
    return (⟨{ s.core with xtHop := Function.update s.core.xtHop h (some pipe) }, none⟩, .idle)
  | _, _ => return (s, .idle)

/-- The state after an event that does not fault. -/
def stepState (s : System) (e : CoreEvent) : Option System := (s.step e).toOption.map Prod.fst

/-- A core after `modelnet_modevent`, with its tables. -/
def load (hz : ℕ) (ticks : ℕ) (tab : PathTab) (xtHop : HopPtr → Option XcpPipe)
    (xcpInitialized : Bool) : System where
  core :=
    { hz := hz, pcache := true, aggregate := true, mcExpire := BitVec.ofNat 32 hz, mcTtl := 40,
      mcPcache := [], pcacheOccupancy := 0, ticks := ticks, calendarTick := ticks,
      packetCalendar := fun _ => [], pkts := fun _ => none, agg := .init, tab := tab,
      xtHop := xtHop, xcpInitialized := xcpInitialized }
  input := none

end System

end Modelnet.FreeBSD

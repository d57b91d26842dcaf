import Modelnet.FreeBSD.Aggregate
import Modelnet.FreeBSD.EmulateHop
import Modelnet.FreeBSD.Xcp
import Modelnet.Calendar
import Modelnet.PathTable

/-!
# A core of the FreeBSD module

The state of one core and the functions of `ip_modelnet.c` and `mn_remote.c` over it. Packet
structs live in a heap indexed by their addresses, so that an address may be used again after
`free`; a freed struct is absent, and touching it is a fault. `Env` holds what the rest of the
kernel answers during one call. Counters other than `pcache_occupancy` and the handle through which
`MN_FREE_PKT` clears the pointer of the caller are left out.
-/

namespace Modelnet.FreeBSD

open Modelnet

def enoent : ℤ := 2

def enobufs : ℤ := 55

/-- `Q_BW | Q_DELAY`. -/
def qBwDelay : ℕ := 3

def modelSubnet : BitVec 32 := 0x0a000000

def modelMask : BitVec 32 := 0xff000000

def modelForcebit : BitVec 32 := 0x00800000

def remoteFlushRate : ℕ := 100

def ipSize : ℕ := 20

/-- `struct packet`; `path` is `none` until it is looked up. -/
structure Packet where
  path : Option PathPtr
  /-- the bytes of the IP packet, or null while only its record is here -/
  m : Option (List Byte)
  /-- address of the core caching the packet, or 0 -/
  cachehost : BitVec 32
  state : ℕ
  info : RemotePacket

/-- `++pkt->path; ++pkt->info.hop;`. -/
def Packet.incr (pkt : Packet) : Packet :=
  { pkt with
    path := pkt.path.map fun path => { path with off := path.off + 1 }
    info := { pkt.info with hop := pkt.info.hop + 1 } }

/-- What the rest of the kernel answers during one call. -/
structure Env where
  random : ℕ
  mbufOk : Bool
  pullupOk : Bool
  /-- the error of `udp_send_out`, 0 for success -/
  sendErr : ℤ
  /-- the address that `malloc` returns; one that is in use stands for a failure -/
  malloc : Option Addr

/-- What has become of a packet at the end of `emulate_nexthop`. -/
inductive Fate where
  /-- freed: dropped, or lost on its way out -/
  | freed
  /-- on the calendar -/
  | waiting (due : ℤ)
  /-- handed to `ip_forward` -/
  | forwarded (m : List Byte)
  /-- its record was handed to another core, by the core `cachehost` says; the struct stays in the
  packet cache or is freed -/
  | left (toAddr cachehost : BitVec 32) (info : RemotePacket) (cached : Bool)

/-- The state of a core: `mn`, the calendar, the tables and the queues for aggregation. -/
structure Core where
  hz : ℕ
  /-- `MN_PCACHE` -/
  pcache : Bool
  /-- `MN_AGGREGATE` -/
  aggregate : Bool
  mcExpire : BitVec 32
  mcTtl : BitVec 32
  mcPcache : List Addr
  pcacheOccupancy : ℤ
  ticks : ℕ
  calendarTick : ℕ
  packetCalendar : ℕ → List Addr
  pkts : Addr → Option Packet
  agg : Aggregates
  tab : PathTab
  /-- the pipe of a hop with the XCP discipline -/
  xtHop : HopPtr → Option XcpPipe
  xcpInitialized : Bool

namespace Core

/-! ## Packets -/

def packet (c : Core) (p : Addr) : Except Fault Packet :=
  match c.pkts p with
  | none => .error .memory
  | some pkt => .ok pkt

def setPkt (c : Core) (p : Addr) (pkt : Packet) : Core :=
  { c with pkts := Function.update c.pkts p (some pkt) }

def mallocPkt (c : Core) (env : Env) : Option Addr :=
  env.malloc.filter fun p => p ≠ 0 ∧ (c.pkts p).isNone

def freePkt (c : Core) (p : Addr) : Core := { c with pkts := Function.update c.pkts p none }

def mnFreePkt (c : Core) (p : Addr) : Except Fault Core :=
  if p ∈ c.mcPcache then .error (.freeCached p)
  else do
    let _ ← c.packet p
    return c.freePkt p

/-- The packet struct `pkt` at `p` taken off the cache. -/
def uncache (c : Core) (p : Addr) (pkt : Packet) : Core :=
  { c.setPkt p { pkt with info := { pkt.info with id := 0 } } with
    mcPcache := c.mcPcache.erase p
    pcacheOccupancy := c.pcacheOccupancy - 1 }

def mnUncachePkt (c : Core) (p : Addr) : Except Fault Core :=
  if p ∉ c.mcPcache then .error (.uncacheAbsent p)
  else do
    let pkt ← c.packet p
    return c.uncache p pkt

/-- `if (b) MN_UNCACHE_PKT(pkt)`. -/
def uncacheIf (c : Core) (b : Prop) [Decidable b] (p : Addr) : Except Fault Core :=
  if b then c.mnUncachePkt p else .ok c

/-- The ticks as the `unsigned long` of a record. -/
def now (c : Core) : BitVec 32 := BitVec.ofNat 32 c.ticks

/-- `mc_pcache` on the packet struct `pkt` at `p`. -/
def mcPcacheAdd (c : Core) (p : Addr) (pkt : Packet) : Core :=
  { c.setPkt p { pkt with info := { pkt.info with expire := c.now + c.mcExpire, id := p } } with
    mcPcache := c.mcPcache ++ [p]
    pcacheOccupancy := c.pcacheOccupancy + 1 }

/-! ## One hop -/

/-- `TAILQ_INSERT_TAIL(packet_calendar + (due & SCHEDMASK), pkt, list)`. -/
def calendarInsert (c : Core) (p : Addr) (due : ℤ) : Core :=
  { c with
    packetCalendar := Function.update c.packetCalendar (calendarSlot due)
      (c.packetCalendar (calendarSlot due) ++ [p]) }

/-- `TAILQ_REMOVE` of the first packet of a slot, with `rest` behind it. -/
def calendarRemove (c : Core) (slot : ℕ) (rest : List Addr) : Core :=
  { c with packetCalendar := Function.update c.packetCalendar slot rest }

def emulateHop (c : Core) (env : Env) (p : Addr) (h : HopPtr) : Except Fault (Core × Outcome) := do
  let pkt ← c.packet p
  match c.tab.hops h with
  | none => .error .memory
  | some hop =>
    match FreeBSD.emulateHop c.hz hop pkt.info.len.toNat c.calendarTick env.random with
    | none => .error .memory
    | some (hop, .dropped plr bw) => return ({ c with tab := c.tab.setHop h hop }, .dropped plr bw)
    | some (hop, .queued x due) =>
      let c := { c with tab := c.tab.setHop h hop }
      return ((c.setPkt p { pkt with state := qBwDelay }).calendarInsert p due, .queued x due)

/-! ## To another core -/

/-- The source and the destination in the IP header of a packet. -/
def ipAddrs (pkt : Packet) : Except Fault (BitVec 32 × BitVec 32) :=
  match pkt.m with
  | none => .error .memory
  | some m => if m.length < ipSize then .error .memory else .ok (be32At m 12, be32At m 16)

/-- `remote_hop` on a packet that is at home: its fields are filled in and it is cached. -/
def leaveHome (c : Core) (p : Addr) (pkt : Packet) : Except Fault Core := do
  let (src, dst) ← ipAddrs pkt
  let pkt := { pkt with
    info := { pkt.info with
      src := src, dst := dst, ttl := c.mcTtl.setWidth 8, id := 0, expire := 0 } }
  return if c.pcache then c.mcPcacheAdd p pkt else c.setPkt p pkt

/-- The chain of a packet that is not cached goes with its record. -/
def takeChain (c : Core) (p : Addr) (pkt : Packet) : Except Fault Core :=
  if pkt.info.id ≠ 0 then .ok c
  else if pkt.m.isNone then .error .memory
  else .ok (c.setPkt p { pkt with m := none })

/-- `remote_hop` from the test of `MN_AGGREGATE` on. -/
def transmit (c : Core) (env : Env) (p : Addr) (ownerIp : BitVec 32) :
    Except Fault (Core × ℤ) := do
  let pkt ← c.packet p
  if c.aggregate ∧ pkt.info.id ≠ 0 then do
    let r ← c.agg.remoteAggregate pkt.info ownerIp env.mbufOk
    return ({ c with agg := r.1 }, if r.2.isSome then env.sendErr else 0)
  else if ¬ env.mbufOk then do
    let c ← c.uncacheIf (pkt.cachehost = 0) p
    return (c, enobufs)
  else do
    let c ← c.takeChain p pkt
    let c ← c.uncacheIf (env.sendErr ≠ 0 ∧ pkt.cachehost = 0 ∧ c.pcache) p
    return (c, env.sendErr)

/-- The fields of a packet that is at home are filled in. -/
def prepare (c : Core) (p : Addr) (pkt : Packet) : Except Fault Core :=
  if pkt.cachehost = 0 then c.leaveHome p pkt else .ok c

def remoteHop (c : Core) (env : Env) (p : Addr) (ownerIp : BitVec 32) :
    Except Fault (Core × ℤ) := do
  let pkt ← c.packet p
  if pkt.info.hop = 0 then return (c, einval)
  else do
    let c ← c.prepare p pkt
    let pkt ← c.packet p
    if pkt.info.src = 0 then return (c, einval) else c.transmit env p ownerIp

/-- What `remote_hop` has done with the packet, for its result. -/
def fateOf (c : Core) (p : Addr) (ownerIp : BitVec 32) (err : ℤ) : Except Fault Fate := do
  let pkt ← c.packet p
  return if err = 0 then .left ownerIp pkt.cachehost pkt.info (p ∈ c.mcPcache) else .freed

/-! ## Along the path -/

def forwardPacket (c : Core) (env : Env) (p : Addr) : Except Fault (Core × Fate) := do
  let pkt ← c.packet p
  match pkt.m with
  | none =>
    let r ← c.remoteHop env p pkt.cachehost
    let fate ← r.1.fateOf p pkt.cachehost r.2
    return (r.1, fate)
  | some m =>
    if pkt.cachehost ≠ 0 ∧ ¬ env.mbufOk then return (c, .freed)
    else if pkt.cachehost ≠ 0 ∧ ¬ env.pullupOk then .error .memory
    else
      let m := if c.xcpInitialized then xcpSetXcpinfo m pkt.info else m
      return (c.setPkt p { pkt with m := none }, .forwarded m)

/-- `*path`, with the test for a path that has not been looked up. -/
def readPath (c : Core) (path : Option PathPtr) : Except Fault (Option HopPtr) :=
  match path.bind c.tab.readPath with
  | none => .error .memory
  | some curhop => .ok curhop

def hop (c : Core) (h : HopPtr) : Except Fault Hop :=
  match c.tab.hops h with
  | none => .error .memory
  | some hop => .ok hop

/-- `*(pkt->path - 1)`. -/
def prevHop (c : Core) (path : Option PathPtr) : Except Fault HopPtr :=
  match path with
  | none => .error .memory
  | some path =>
    if path.off = 0 then .error .memory
    else do
      let prv ← c.readPath (some { path with off := path.off - 1 })
      match prv with
      | none => .error .memory
      | some h => return h

/-- The handler of the previous hop is called for a packet that leaves it, when the hop is local
and has one. -/
def dequeue (c : Core) (p : Addr) (pkt : Packet) : Except Fault Core :=
  if pkt.info.hop ≠ 0 ∧ pkt.state &&& 1 ≠ 0 then do
    let h ← c.prevHop pkt.path
    let prvhop ← c.hop h
    match c.xtHop h with
    | none => return c
    | some pipe =>
      if prvhop.emulator = 0 then
        match pipe.xcpDequeue c.hz prvhop.bytedepth pkt.info with
        | none => .error .memory
        | some (pipe, info) =>
          return { c.setPkt p { pkt with info := info } with
            xtHop := Function.update c.xtHop h (some pipe) }
      else return c
  else return c

/-- The end of `emulate_nexthop`: the packet is advanced, and freed unless it waits on the calendar
or in the packet cache. -/
def finishNexthop (c : Core) (p : Addr) (emulator : BitVec 32) (dropped : Bool) :
    Except Fault Core := do
  let pkt ← c.packet p
  let pkt := pkt.incr
  let c := c.setPkt p pkt
  if ¬ (pkt.cachehost = 0 ∧ pkt.info.id ≠ 0) ∧ emulator ≠ 0 then c.mnFreePkt p
  else if dropped then c.mnFreePkt p
  else return c

/-- `emulate_nexthop` from the test for the end of the path on. -/
def crossHop (c : Core) (env : Env) (p : Addr) (curhop : Option HopPtr) :
    Except Fault (Core × Fate) :=
  match curhop with
  | none => do
    let r ← c.forwardPacket env p
    let c ← r.1.mnFreePkt p
    return (c, r.2)
  | some h => do
    let curhop ← c.hop h
    if curhop.emulator ≠ 0 then
      let r ← c.remoteHop env p curhop.emulator
      let fate ← r.1.fateOf p curhop.emulator r.2
      let c ← r.1.finishNexthop p curhop.emulator (r.2 ≠ 0)
      return (c, fate)
    else
      let r ← c.emulateHop env p h
      match r.2 with
      | .dropped _ _ =>
        let c ← r.1.finishNexthop p 0 true
        return (c, .freed)
      | .queued _ due =>
        let c ← r.1.finishNexthop p 0 false
        return (c, .waiting due)

def emulateNexthop (c : Core) (env : Env) (p : Addr) : Except Fault (Core × Fate) := do
  let pkt ← c.packet p
  let curhop ← c.readPath pkt.path
  if pkt.info.hop = 0 then
    match curhop with
    | none => .error .memory
    | some h =>
      let hop ← c.hop h
      if hop.emulator ≠ 0 then
        let c ← c.mnFreePkt p
        return (c, .freed)
      else c.crossHop env p curhop
  else
    let c ← c.dequeue p pkt
    c.crossHop env p curhop

/-! ## Back from another core -/

/-- `mc_reunite` on the packet at `p`: the error, and the packet that goes on. -/
def mcReunite (c : Core) (p : Addr) : Except Fault (Core × ℤ × Addr) := do
  let pkt ← c.packet p
  let info := pkt.info
  if info.expire ≤ c.now then return (c, 1, p)
  else if info.hop = 0 then return (c, 1, p)
  else
    let cached ← c.packet info.id
    if cached.info.id ≠ info.id ∨ cached.info.expire ≠ info.expire then return (c, 1, p)
    else if c.mcPcache = [] then .error .memory
    else
      let c ← c.mnUncachePkt info.id
      let c := c.setPkt info.id { cached with
        path := pkt.path, info := { cached.info with hop := info.hop, id := 0 } }
      let c ← c.mnFreePkt p
      return (c, 0, info.id)

/-- `remote_flush` with `MN_PCACHE` on; every turn takes a packet off the cache, so that `n` turns
are enough for `n` packets. -/
def flushLoop : ℕ → Core → Except Fault Core
  | 0, c => return c
  | n + 1, c =>
    match c.mcPcache with
    | [] => return c
    | p :: _ => do
      let pkt ← c.packet p
      if c.now < pkt.info.expire then return c
      else
        let c ← c.mnUncachePkt p
        let c ← c.mnFreePkt p
        flushLoop n c

def remoteFlush (c : Core) : Except Fault Core :=
  if c.pcache then flushLoop c.mcPcache.length c else return c

/-! ## A packet of a local node -/

def lookupPath (c : Core) (src dst : BitVec 32) : Except Fault (Option PathPtr) :=
  match c.tab.lookupPath src dst with
  | .noPath => return none
  | .cell row col =>
    match c.tab.readCell row col with
    | none => .error .memory
    | some cell => return cell.map fun arr => ⟨arr, 0⟩

/-- A packet struct with the fields that are set after `malloc`; the other ones are 0 here. -/
def freshPkt (m : Option (List Byte)) (len : BitVec 32) : Packet where
  path := none
  m := m
  cachehost := 0
  state := 0
  info := { id := 0, expire := 0, len := len, waitTime := 0, src := 0, dst := 0, hop := 0, ttl := 0,
            xcpCwnd := 0, xcpSrcFdbk := 0, xcpRflctFdbk := 0, xcpRtt := 0 }

/-- `emulate_path` up to the call of `emulate_nexthop`: the packet with its path, or none. -/
def startPath (c : Core) (m : List Byte) : Except Fault (Option Packet) := do
  let src := be32At m 12 ||| (be32At m 16 &&& modelForcebit)
  let dst := be32At m 16 &&& ~~~modelForcebit
  let m := setBe32 (setBe32 m 12 src) 16 dst
  let path ← c.lookupPath (src &&& ~~~modelForcebit) dst
  return path.map fun path =>
    let pkt := freshPkt (some m) (BitVec.ofNat 32 m.length)
    let info := if c.xcpInitialized then xcpGetXcpinfo m pkt.info else pkt.info
    { pkt with path := some path, info := { info with hop := 0, src := src, dst := dst } }

/-- `filter_ipinput` on the packet `m`, which has an IP header, of a local node: the error, and the
packet struct with its fate when `emulate_nexthop` was called. -/
def filterIpinput (c : Core) (env : Env) (m : List Byte) :
    Except Fault (Core × ℤ × Option (Addr × Fate)) :=
  match c.mallocPkt env with
  | none => return (c, enobufs, none)
  | some p => do
    let start ← c.startPath m
    match start with
    | none => return (c, enoent, none)
    | some pkt =>
      let r ← (c.setPkt p pkt).emulateNexthop env p
      return (r.1, 0, some (p, r.2))

end Core

end Modelnet.FreeBSD

import Modelnet.Linux.Kernel
import Modelnet.Linux.EmulateHop

/-!
# `ip_modelnet.c`, Linux module

The functions of the module over the kernel state, with the hooks and the runs of `hopclock`
executed atomically. `emulate_hop` is put together from its three sections (the tick is read under
the lock of the calendar, the queue is computed under the lock of the hop, the packet is linked
under the lock of the calendar), so that the interleaved system can take them one by one.

The loops of `hopclock` carry a bound on their turns. A packet that comes back to the slot has
advanced along its path, so the bound taken on entry is never reached (`drainSlot_empty`).
-/

namespace Modelnet.Linux

open Modelnet

def enobufs : ℤ := -105

def enoent : ℤ := 2

def modelSubnet : BitVec 32 := 0x0a000000

def modelMask : BitVec 32 := 0xff000000

def modelForcebit : BitVec 32 := 0x00800000

/-- `Q_BW | Q_DELAY`. -/
def qBwDelay : ℕ := 3

/-- `remote_hop`: not implemented in this release. -/
def remoteHop : ℤ := -1

/-- `++pkt->path; ++pkt->info.hop;`, where `path` is the value of `pkt->path`. -/
def Packet.incr (pkt : Packet) (path : PathPtr) : Packet :=
  { pkt with
    path := some { path with off := path.off + 1 }
    info := { pkt.info with hop := pkt.info.hop + 1 } }

namespace Kernel

/-! ## Packets and buffers -/

def kfreeSkb (k : Kernel) (s : SkbId) : Option Kernel :=
  (k.skbs s).map fun _ =>
    { k with skbs := Function.update k.skbs s none, log := k.log ++ [.kfreeSkb s] }

def kfreePkt (k : Kernel) (p : PktId) : Kernel :=
  { k with pkts := Function.update k.pkts p none, log := k.log ++ [.kfree p] }

def mnFreePkt (k : Kernel) (p : PktId) : Option Kernel :=
  (k.pkts p).bind fun pkt =>
    match pkt.skb with
    | none => some (k.kfreePkt p)
    | some s => (k.kfreeSkb s).map fun k => k.kfreePkt p

/-- `forward_packet`. A packet without a buffer would go to its remote home, which is not
implemented. -/
def forwardPacket (k : Kernel) (p : PktId) : Option Kernel :=
  (k.pkts p).bind fun pkt =>
    match pkt.skb with
    | none => some k
    | some s =>
      (k.skbs s).bind fun _ => k.ipRcvFinishHook.map fun _ =>
        { k with
          skbs := Function.update k.skbs s none
          pkts := Function.update k.pkts p (some { pkt with skb := none })
          log := k.log ++ [.okfn s, .forward p] }

/-! ## One hop -/

/-- The section of `emulate_hop` under the lock of the hop, with the tick and the random value
read before. -/
def hopSection (hz : ℕ) (k : Kernel) (p : PktId) (h : HopPtr) (curtick randomVal : ℕ) :
    Option (Kernel × Outcome) :=
  (k.pkts p).bind fun pkt => (k.tab.hops h).bind fun hop =>
    (emulateHop hz hop pkt.info.len curtick randomVal).map fun r =>
      let k := { k with tab := k.tab.setHop h r.1, log := k.log ++ [.cross p h] }
      match r.2 with
      | .dropped _ _ => (k, r.2)
      | .queued _ _ => (k.setPkt p { pkt with state := qBwDelay }, r.2)

def emulateHop (hz : ℕ) (k : Kernel) (p : PktId) (h : HopPtr) : Option (Kernel × ℤ) :=
  let randomVal := k.random 0
  let curtick := k.calendarTick
  (k.drawRandom.hopSection hz p h curtick randomVal).map fun r =>
    match r.2 with
    | .dropped _ _ => (r.1, enobufs)
    | .queued _ due => (r.1.listAddTail p due, 0)

/-- The end of `emulate_nexthop`: the packet is advanced, and freed unless it waits on the
calendar or in the packet cache. -/
def finishNexthop (k : Kernel) (p : PktId) (h : HopPtr) (ret : ℤ) : Option Kernel :=
  (k.pkts p).bind fun pkt => pkt.path.bind fun path => (k.tab.hops h).bind fun curhop =>
    let pkt := pkt.incr path
    let k := k.setPkt p pkt
    if ¬ (pkt.cachehost = 0 ∧ pkt.info.id ≠ 0) ∧ curhop.emulator ≠ 0 then k.mnFreePkt p
    else if ret = enobufs then k.mnFreePkt p
    else some k

def emulateNexthop (hz : ℕ) (k : Kernel) (p : PktId) : Option Kernel :=
  (k.pkts p).bind fun pkt => pkt.path.bind fun path => (k.tab.readPath path).bind fun curhop =>
    match curhop with
    | none => (k.forwardPacket p).bind fun k => k.mnFreePkt p
    | some h =>
      (k.tab.hops h).bind fun hop =>
        (if hop.emulator ≠ 0 then some (k, remoteHop) else k.emulateHop hz p h).bind fun r =>
          r.1.finishNexthop p h r.2

/-! ## The netfilter hook -/

/-- `emulate_path`: the kernel and the error, 0 on success. -/
def emulatePath (hz : ℕ) (k : Kernel) (p : PktId) : Option (Kernel × ℤ) :=
  (k.pkts p).bind fun pkt => pkt.skb.bind fun s => (k.skbs s).bind fun ip =>
    let saddr := ip.saddr ||| (ip.daddr &&& modelForcebit)
    let daddr := ip.daddr &&& ~~~modelForcebit
    let k := { k with
      skbs := Function.update k.skbs s (some { ip with saddr := saddr, daddr := daddr }) }
    match k.tab.lookupPath (saddr &&& ~~~modelForcebit) daddr with
    | .noPath => some (k, enoent)
    | .cell row col =>
      (k.tab.readCell row col).bind fun cell =>
        match cell with
        | none => some (k, enoent)
        | some arr =>
          let k := k.setPkt p { pkt with
            path := some ⟨arr, 0⟩
            info := { pkt.info with hop := 0, src := saddr, dst := daddr } }
          (emulateNexthop hz { k with log := k.log ++ [.path p arr] } p).map fun k => (k, 0)

/-- A `struct packet` just allocated; the fields not set by `filter_ipinput` are 0. -/
def allocPkt (k : Kernel) (s : SkbId) (len : ℕ) : Kernel :=
  { k with
    pkts := Function.update k.pkts k.nextPkt (some
      { path := none, skb := some s, cachehost := 0, state := 0,
        info := { id := 0, len := len, src := 0, dst := 0, hop := 0 } })
    nextPkt := k.nextPkt + 1
    log := k.log ++ [.kmalloc k.nextPkt] }

/-- `filter_ipinput` on the buffer `s`, whose header netfilter guarantees to exist. `kmallocOk`
says whether the packet struct can be allocated. -/
def filterIpinput (hz : ℕ) (k : Kernel) (s : SkbId) (kmallocOk : Bool) (okfn : Okfn) :
    Option (Kernel × Verdict) :=
  (k.skbs s).bind fun iph =>
    if iph.saddr &&& modelMask = modelSubnet ∧ iph.daddr &&& modelMask = modelSubnet then
      let k := { k with ipRcvFinishHook := some okfn }
      if kmallocOk then
        let p := k.nextPkt
        (emulatePath hz (k.allocPkt s iph.len) p).bind fun r =>
          if r.2 ≠ 0 then
            (r.1.pkts p).bind fun pkt =>
              ((r.1.setPkt p { pkt with skb := none }).mnFreePkt p).map fun k => (k, .accept)
          else some (r.1, .stolen)
      else some (k, .accept)
    else some (k, .accept)

/-! ## The clock -/

/-- The positions of its path array that the packet has not passed. -/
def remaining (k : Kernel) (p : PktId) : ℕ :=
  (((k.pkts p).bind fun pkt => pkt.path.bind fun path =>
    (k.tab.pathArrs path.arr).map fun cells => cells.length - path.off)).getD 0

/-- A bound on the calls of `emulate_nexthop` for the packets of a slot. -/
def slotWeight (k : Kernel) (slot : ℕ) : ℕ :=
  ((k.packetCalendar slot).map fun p => k.remaining p + 1).sum

/-- `pos->next`, `none` for the head of the list. -/
def nextOf (l : List PktId) (pos : PktId) : Option PktId := (l.dropWhile (· ≠ pos)).tail.head?

/-- The turns of `list_for_each_safe` from `pos` on: `q` is read before the packet is unlinked. -/
def listForEachSafe (hz slot : ℕ) : ℕ → Kernel → Option PktId → Option Kernel
  | 0, k, _ => some k
  | _ + 1, k, none => some k
  | n + 1, k, some pos =>
    let q := nextOf (k.packetCalendar slot) pos
    ((k.listDel slot pos).emulateNexthop hz pos).bind fun k => listForEachSafe hz slot n k q

/-- `while (!list_empty(&packet_calendar[slot].list))`. -/
def drainSlot (hz slot n : ℕ) : ℕ → Kernel → Option Kernel
  | 0, k => some k
  | m + 1, k =>
    match (k.packetCalendar slot).head? with
    | none => some k
    | some pos =>
      (listForEachSafe hz slot n k (some pos)).bind fun k => drainSlot hz slot n m k

/-- One turn of the outer loop of `hopclock`. -/
def hopclockTick (hz : ℕ) (k : Kernel) : Option Kernel :=
  let slot := calendarSlot k.calendarTick
  let n := k.slotWeight slot
  (drainSlot hz slot n n k).map fun k => { k with calendarTick := k.calendarTick + 1 }

/-- `n` turns of the outer loop. -/
def hopclockLoop (hz : ℕ) : ℕ → Kernel → Option Kernel
  | 0, k => some k
  | n + 1, k => (k.hopclockTick hz).bind fun k => hopclockLoop hz n k

/-- `hopclock`, when the last test of its loop reads `jiffies`. -/
def hopclock (hz : ℕ) (k : Kernel) (jiffies : ℕ) : Option Kernel :=
  hopclockLoop hz (jiffies - k.calendarTick) k

/-! ## The system -/

/-- What happens to the module: a buffer arrives at the hook, or the clock runs. -/
inductive Event where
  | input (skb : SkBuff) (kmallocOk : Bool) (okfn : Okfn)
  | hopclock (jiffies : ℕ)

/-- A buffer comes in at a fresh address. -/
def receive (k : Kernel) (skb : SkBuff) : Kernel :=
  { k with
    skbs := Function.update k.skbs k.nextSkb (some skb)
    nextSkb := k.nextSkb + 1
    log := k.log ++ [.input k.nextSkb] }

/-- The verdict on the buffer `s`; an accepted buffer goes back to the stack. -/
def giveVerdict (k : Kernel) (s : SkbId) (v : Verdict) : Kernel :=
  { k with
    skbs := match v with
      | .accept => Function.update k.skbs s none
      | .stolen => k.skbs
    log := k.log ++ [.verdict s v] }

def step (hz : ℕ) (k : Kernel) : Event → Option Kernel
  | .input skb kmallocOk okfn =>
    ((k.receive skb).filterIpinput hz k.nextSkb kmallocOk okfn).map fun r =>
      r.1.giveVerdict k.nextSkb r.2
  | .hopclock jiffies => k.hopclock hz jiffies

end Kernel

end Modelnet.Linux

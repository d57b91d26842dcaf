import Modelnet.Calendar
import Modelnet.PathTab
import Mathlib.Logic.Function.Basic

/-!
# The state of the Linux module

Packet structs and socket buffers live in two heaps, addressed by numbers that are handed out
once. A freed packet struct and a buffer that modelnet no longer owns are absent from their heap,
so that a function that touches one of them faults (`none`). The log records what an observer of
the module sees; no function reads it.
-/

namespace Modelnet.Linux

open Modelnet

abbrev PktId := ℕ

abbrev SkbId := ℕ

/-- The address of an `okfn` of netfilter. -/
abbrev Okfn := ℕ

/-- What modelnet reads and writes of a buffer: the IP addresses and the length. -/
structure SkBuff where
  saddr : BitVec 32
  daddr : BitVec 32
  len : ℕ

/-- `struct remote_packet`, without the fields for the time a packet waits at remote cores. -/
structure RemotePacket where
  id : ℕ
  len : ℕ
  src : BitVec 32
  dst : BitVec 32
  hop : ℕ

/-- `struct packet`; `path` is `none` until it is looked up. -/
structure Packet where
  path : Option PathPtr
  skb : Option SkbId
  cachehost : BitVec 32
  state : ℕ
  info : RemotePacket

inductive Verdict where
  | accept
  | stolen
  deriving DecidableEq, Repr

/-- What an observer sees. -/
inductive Obs where
  /-- A buffer is handed to `filter_ipinput`. -/
  | input (s : SkbId)
  | kmalloc (p : PktId)
  /-- The packet starts on the path in block `arr`. -/
  | path (p : PktId) (arr : ℕ)
  /-- `emulate_hop` runs for the packet on a hop. -/
  | cross (p : PktId) (h : HopPtr)
  /-- The packet is linked into the calendar for tick `due`, at tick `tick`. -/
  | insert (p : PktId) (due : ℤ) (tick : ℕ)
  /-- `hopclock` takes the packet off the calendar. -/
  | remove (p : PktId) (tick : ℕ)
  /-- The packet has completed its path. -/
  | forward (p : PktId)
  /-- The buffer is handed to the saved `okfn`. -/
  | okfn (s : SkbId)
  | kfreeSkb (s : SkbId)
  | kfree (p : PktId)
  | verdict (s : SkbId) (v : Verdict)
  deriving DecidableEq, Repr

/-- The state of the module. -/
structure Kernel where
  calendarTick : ℕ
  packetCalendar : ℕ → List PktId
  pkts : PktId → Option Packet
  nextPkt : ℕ
  skbs : SkbId → Option SkBuff
  nextSkb : ℕ
  ipRcvFinishHook : Option Okfn
  /-- The values `random_bits` is going to return. -/
  random : ℕ → ℕ
  tab : PathTab
  log : List Obs

namespace Kernel

/-- The module after `modelnet_load`, with these tables. -/
def load (jiffies : ℕ) (random : ℕ → ℕ) (tab : PathTab) : Kernel where
  calendarTick := jiffies
  packetCalendar := fun _ => []
  pkts := fun _ => none
  nextPkt := 0
  skbs := fun _ => none
  nextSkb := 0
  ipRcvFinishHook := none
  random := random
  tab := tab
  log := []

/-- `list_add_tail(&pkt->list, &packet_calendar[due & SCHEDMASK])`. -/
def listAddTail (k : Kernel) (p : PktId) (due : ℤ) : Kernel :=
  { k with
    packetCalendar := Function.update k.packetCalendar (calendarSlot due)
      (k.packetCalendar (calendarSlot due) ++ [p])
    log := k.log ++ [.insert p due k.calendarTick] }

/-- `list_del(pos)`, for a packet in this slot. -/
def listDel (k : Kernel) (slot : ℕ) (pos : PktId) : Kernel :=
  { k with
    packetCalendar := Function.update k.packetCalendar slot ((k.packetCalendar slot).erase pos)
    log := k.log ++ [.remove pos k.calendarTick] }

def setPkt (k : Kernel) (p : PktId) (pkt : Packet) : Kernel :=
  { k with pkts := Function.update k.pkts p (some pkt) }

/-- `random_bits()` returns `k.random 0`; the state is advanced. -/
def drawRandom (k : Kernel) : Kernel := { k with random := fun n => k.random (n + 1) }

end Kernel

end Modelnet.Linux

import Modelnet.FreeBSD.Datagram

/-!
# Aggregation of records for one core

`remote_aggregate` collects the records for one destination in a pending entry and sends them as
one datagram when the entry is full; `remote_aggregate_clean` sends what is left at the end of a
tick. The entries go around between the two queues. An entry of a queue is given by its position.
-/

namespace Modelnet.FreeBSD

open Modelnet

def mnMtu : ℕ := 1500

def mnMaxCores : ℕ := 32

def mclbytes : ℕ := 2048

def mnAggFree : ℕ := 0x2

def mnAggBusy : ℕ := 0x4

/-- `MN_MTU - sizeof(struct udpiphdr)`. -/
def aggregateRoom : ℤ := mnMtu - udpiphdrSize

structure RemoteAggregate where
  /-- current pending packet -/
  m : Option (List Byte)
  /-- ip address of the core -/
  id : BitVec 32
  state : ℕ
  /-- number of digests assembled -/
  numDigests : ℕ
  bytesLeft : ℤ

/-- The two queues. -/
structure Aggregates where
  pendingXc : List RemoteAggregate
  freePendingXc : List RemoteAggregate

/-- What `udp_send_out` is handed: the destination and the payload. -/
structure Sent where
  toAddr : BitVec 32
  payload : List Byte

namespace RemoteAggregate

def init : RemoteAggregate where
  m := none
  id := 0
  state := mnAggFree
  numDigests := 0
  bytesLeft := aggregateRoom

/-- An entry taken from the free queue. -/
def grab (ragg : RemoteAggregate) (ownerIp : BitVec 32) : RemoteAggregate :=
  { ragg with
    state := mnAggBusy
    id := ownerIp
    numDigests := 0
    bytesLeft := aggregateRoom
    m := none }

/-- An entry that is put on the free queue. -/
def release (ragg : RemoteAggregate) : RemoteAggregate :=
  { ragg with m := none, id := 0, state := mnAggFree }

/-- `ragg->bytes_left >= sizeof(struct remote_packet)`, compared as unsigned numbers. -/
def hasRoom (ragg : RemoteAggregate) : Prop := remotePacketSize ≤ u32 ragg.bytesLeft

instance (ragg : RemoteAggregate) : Decidable ragg.hasRoom := inferInstanceAs (Decidable (_ ≤ _))

def count (ragg : RemoteAggregate) (m : List Byte) : RemoteAggregate :=
  { ragg with
    m := some m
    numDigests := ragg.numDigests + 1
    bytesLeft := ragg.bytesLeft - remotePacketSize }

/-- The digest joins the entry. Without a fresh mbuf the first one is written through null; the
assertions on the later ones panic. -/
def addDigest (ragg : RemoteAggregate) (info : RemotePacket) (mbufOk : Bool) :
    Except Fault RemoteAggregate :=
  if ragg.hasRoom then
    if ragg.numDigests = 0 then
      if mbufOk then .ok (ragg.count info.encode) else .error .memory
    else
      match ragg.m with
      | none => .error .memory
      | some m =>
        if m.length + remotePacketSize ≤ mclbytes then .ok (ragg.count (m ++ info.encode))
        else .error .memory
  else .ok ragg

end RemoteAggregate

namespace Aggregates

def init : Aggregates := ⟨[], List.replicate mnMaxCores RemoteAggregate.init⟩

/-- `remote_aggregate_send` on the pending entry at position `i`. A failed send changes nothing
here. -/
def remoteAggregateSend (a : Aggregates) (i : ℕ) : Except Fault (Aggregates × Sent) :=
  match a.pendingXc[i]? with
  | none => .error .memory
  | some ragg =>
    match ragg.m with
    | none => .error .memory
    | some m =>
      if ragg.id = 0 then .error .memory
      else .ok (⟨a.pendingXc.eraseIdx i, a.freePendingXc ++ [ragg.release]⟩, ⟨ragg.id, m⟩)

/-- The search for the pending entry of an owner; a free entry is taken when there is none. -/
def choose (a : Aggregates) (ownerIp : BitVec 32) : Except Fault (Aggregates × ℕ) :=
  match a.pendingXc.findIdx? fun ragg => ragg.id = ownerIp with
  | some i => .ok (a, i)
  | none =>
    match a.freePendingXc with
    | [] => .error .memory
    | ragg :: free =>
      .ok (⟨a.pendingXc ++ [ragg.grab ownerIp], free⟩, a.pendingXc.length)

/-- `remote_aggregate`, with what it sends. -/
def remoteAggregate (a : Aggregates) (info : RemotePacket) (ownerIp : BitVec 32) (mbufOk : Bool) :
    Except Fault (Aggregates × Option Sent) := do
  let (a, i) ← a.choose ownerIp
  match a.pendingXc[i]? with
  | none => .error .memory
  | some ragg =>
    let ragg ← ragg.addDigest info mbufOk
    let a := { a with pendingXc := a.pendingXc.set i ragg }
    if ragg.hasRoom then return (a, none)
    else
      let r ← a.remoteAggregateSend i
      return (r.1, some r.2)

/-- `remote_aggregate_clean`; every turn takes an entry off the queue, so that `n` turns are enough
for `n` entries. -/
def cleanLoop : ℕ → Aggregates → Except Fault (Aggregates × List Sent)
  | 0, a => .ok (a, [])
  | n + 1, a =>
    if a.pendingXc = [] then .ok (a, [])
    else do
      let r ← a.remoteAggregateSend 0
      let r' ← cleanLoop n r.1
      return (r'.1, r.2 :: r'.2)

def remoteAggregateClean (a : Aggregates) : Except Fault (Aggregates × List Sent) :=
  cleanLoop a.pendingXc.length a

end Aggregates

end Modelnet.FreeBSD

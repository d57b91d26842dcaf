import Mathlib.Data.Int.Notation
import Mathlib.Data.Nat.Notation
import Mathlib.Logic.Function.Basic

/-!
# The client library

`libipaddr.c`, the library that applications are started with: it binds sockets to the address of
the virtual node, sends to forced destinations and hides the force bit from the application. The
kernel is behind it: `kernel` holds the socket of each descriptor, and `Outcomes` what the system
calls of one call of the library return. Addresses are in host order.
-/

namespace Modelnet.Client

/-- `AF_INET` and `PF_INET`. -/
def afInet : ℕ := 2

def fdSetsize : ℤ := 1024

def mnetMagicBit : BitVec 32 := 0x00800000

def inaddrAny : BitVec 32 := 0

def IsMnetIp (ip : BitVec 32) : Prop := ip &&& 0xff000000 = 0x0a000000

instance (ip : BitVec 32) : Decidable (IsMnetIp ip) := inferInstanceAs (Decidable (_ = _))

structure SockaddrIn where
  family : ℕ
  addr : BitVec 32
  port : ℕ

/-- A `struct sockaddr *` with its length. -/
structure SockArg where
  sa : Option SockaddrIn
  len : ℕ

def sockaddrInSize : ℕ := 16

/-- `IS_INET_ADDR`, with the address that it lets the caller look at. -/
def SockArg.inet (a : SockArg) : Option SockaddrIn :=
  a.sa.filter fun sa => sockaddrInSize ≤ a.len ∧ sa.family = afInet

/-- A socket of the kernel: the address it has been bound to through the library. -/
structure KernelSocket where
  boundTo : Option (BitVec 32)
  deriving DecidableEq

/-- What the system calls of a call of the library return. -/
structure Outcomes where
  bindOk : Bool
  getsocknameOk : Bool
  oldPort : ℕ
  getsockoptOk : Bool
  newSocket : ℤ
  dup2Ok : Bool
  /-- The second `bind` of `rebind_to`. -/
  bindAnyOk : Bool

/-- A process: the variables of the library, and the sockets behind the descriptors. -/
structure Process where
  mnLocalip : BitVec 32
  mnKeepDstip : Bool
  unbound : ℕ → Bool
  modelnet : ℕ → Bool
  hasport : ℕ → Bool
  kernel : ℕ → Option KernelSocket

namespace Process

/-- The process after `init`. -/
def init (mnLocalip : BitVec 32) (mnKeepDstip : Bool) : Process where
  mnLocalip := mnLocalip
  mnKeepDstip := mnKeepDstip
  unbound := fun _ => false
  modelnet := fun _ => false
  hasport := fun _ => false
  kernel := fun _ => none

def sockSys (c : Process) (s : ℕ) : Bool := !c.unbound s && !c.modelnet s

/-- The descriptor `s` refers to a new socket. -/
def setKernel (c : Process) (s : ℕ) (k : Option KernelSocket) : Process :=
  { c with kernel := Function.update c.kernel s k }

/-- `f_bind`. Only an open socket can be bound. -/
def fBind (c : Process) (ok : Bool) (s : ℕ) (addr : BitVec 32) : Process × ℤ :=
  if ok ∧ (c.kernel s).isSome then (c.setKernel s (some ⟨some addr⟩), 0) else (c, -1)

def bindTo (c : Process) (ok : Bool) (s : ℕ) (addr : BitVec 32) (port : ℕ) : Process × ℤ :=
  let r := c.fBind ok s addr
  if r.2 = 0 then
    ({ r.1 with
        unbound := Function.update c.unbound s false
        modelnet := Function.update c.modelnet s (decide (IsMnetIp addr))
        hasport := Function.update c.hasport s (decide (port ≠ 0)) }, r.2)
  else r

def rebindTo (c : Process) (o : Outcomes) (s : ℕ) (addr : BitVec 32) : Process × ℤ :=
  if ¬ (o.getsocknameOk ∧ (c.kernel s).isSome) then (c, -1)
  else if ¬ o.getsockoptOk then (c, -1)
  else if o.newSocket < 0 then (c, -1)
  else
    let sNew := o.newSocket.toNat
    let c := c.setKernel sNew (some ⟨none⟩)
    if ¬ o.dup2Ok then (c.setKernel sNew none, -1)
    else
      let c := c.setKernel s (c.kernel sNew)
      let c := c.setKernel sNew none
      let r := c.bindTo o.bindOk s addr o.oldPort
      if r.2 ≠ 0 ∧ ¬ r.1.hasport s then r.1.bindTo o.bindAnyOk s addr 0 else r

def rebindIfNeeded (c : Process) (o : Outcomes) (s : ℕ) (dest : BitVec 32) : Process × ℤ :=
  if IsMnetIp dest then
    if c.unbound s then c.bindTo o.bindOk s c.mnLocalip 0
    else if c.sockSys s then c.rebindTo o s c.mnLocalip
    else (c, 0)
  else
    if c.unbound s then c.bindTo o.bindOk s inaddrAny 0
    else if c.modelnet s then c.rebindTo o s inaddrAny
    else (c, 0)

/-- `socket`. The assertion limits the descriptors of the library. -/
def socket (c : Process) (domain : ℕ) (s : ℤ) : Option Process :=
  if s < 0 then some c
  else if domain = afInet then
    if s < fdSetsize then
      some { c.setKernel s.toNat (some ⟨none⟩) with
        unbound := Function.update c.unbound s.toNat true
        modelnet := Function.update c.modelnet s.toNat false
        hasport := Function.update c.hasport s.toNat false }
    else none
  else some (c.setKernel s.toNat none)

/-- `bind`. An address that is not looked at goes to the kernel as it is. -/
def bind (c : Process) (o : Outcomes) (s : ℕ) (a : SockArg) : Process :=
  let passed := match a.sa with
    | none => c
    | some sa => (c.fBind o.bindOk s sa.addr).1
  match a.inet with
  | some sa => if c.mnLocalip ≠ 0 then (c.bindTo o.bindOk s c.mnLocalip sa.port).1 else passed
  | none => passed

/-! ## Addresses on their way to the kernel and back -/

/-- The lines of `connect`, `sendto` and `sendmsg` that force a destination. -/
def forceDst (c : Process) (sa : SockaddrIn) : SockaddrIn :=
  if ¬ c.mnKeepDstip ∧ IsMnetIp sa.addr ∧ c.mnLocalip ≠ 0 then
    if sa.addr ≠ c.mnLocalip then { sa with addr := sa.addr ||| mnetMagicBit } else sa
  else sa

def toKernel (c : Process) (a : SockArg) : SockArg :=
  match a.inet with
  | none => a
  | some sa => { a with sa := some (c.forceDst sa) }

/-- The lines of `getpeername`, `recvfrom` and `recvmsg` that hide the bit. -/
def hideBit (c : Process) (sa : SockaddrIn) : SockaddrIn :=
  if ¬ c.mnKeepDstip ∧ IsMnetIp sa.addr then { sa with addr := sa.addr &&& ~~~mnetMagicBit } else sa

/-- The address that the application gets. -/
def fromKernel (c : Process) (a : SockArg) : SockArg :=
  match a.inet with
  | none => a
  | some sa => { a with sa := some (c.hideBit sa) }

/-- The part of `connect`, `sendto` and `sendmsg` before the system call. -/
def prepare (c : Process) (o : Outcomes) (s : ℕ) (a : SockArg) : Process :=
  match a.inet with
  | none => c
  | some sa => (c.rebindIfNeeded o s sa.addr).1

/-- `connect`, up to the arguments of the system call. -/
def connect (c : Process) (o : Outcomes) (s : ℕ) (servAddr : SockArg) : Process × SockArg :=
  (c.prepare o s servAddr, c.toKernel servAddr)

/-- `sendto`, up to the arguments of the system call. -/
def sendto (c : Process) (o : Outcomes) (s : ℕ) (toAddr : SockArg) : Process × SockArg :=
  (c.prepare o s toAddr, c.toKernel toAddr)

/-- `sendmsg`, up to the arguments of the system call; the address is `msg_name`. -/
def sendmsg (c : Process) (o : Outcomes) (s : ℕ) (name : SockArg) : Process × SockArg :=
  (c.prepare o s name, c.toKernel name)

/-- `getpeername`, on what the system call returns. -/
def getpeername (c : Process) (name : SockArg) : SockArg := c.fromKernel name

def recvfrom (c : Process) (from_ : SockArg) : SockArg := c.fromKernel from_

/-- `recvmsg`, on what the system call returns; the address is `msg_name`. -/
def recvmsg (c : Process) (name : SockArg) : SockArg := c.fromKernel name

end Process

end Modelnet.Client

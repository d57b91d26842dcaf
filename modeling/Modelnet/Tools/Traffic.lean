import Mathlib.Data.Finset.Sort
import Mathlib.Data.Rat.Floor
import Modelnet.Lib.Run

/-!
# `traffic`

`traffic` drives TCP flows. A flow is in the delay queue until it starts, is pending until its
socket can be written, and after each `send` goes back into the queue for the time its rate allows.
When it has expired it is finished. What the sockets and the clock do is up to the events; `fl`
rounds the results of the operations on doubles.
-/

namespace Modelnet.Tools.Traffic

/-- `Flow`. Without a socket, `s` is -1. -/
structure Flow where
  s : ℤ
  dst : ℕ
  port : UInt16
  start : ℚ
  duration : ℚ
  rate : ℚ
  transferCap : Int32
  sent : Int32
  /-- `_lastSendTime` and `_lastSendSize`. -/
  lastSend : Option (ℚ × ℕ)

def Flow.new : Flow := ⟨-1, 0, 0, 0, -1, -1, -1, 0, none⟩

/-- A line of the flow file, with the address of its host. -/
structure Decl where
  dst : ℕ
  port : Int32
  startTime : ℚ
  duration : ℚ
  rate : ℚ
  transferCap : Int32

structure QueueEntry where
  t : ℚ
  flow : ℕ
  deriving DecidableEq

/-- What `send` returns: the bytes it takes of the buffer, -1 with `EAGAIN`, or -1 with another
error. -/
inductive SendResult where
  | sent (n : Fin 1401)
  | again
  | error

/-- The flows by their addresses, the queue and the sets. The bytes that the sockets have taken and
the flows whose `send` has failed are not known to the program. -/
structure State where
  flow : ℕ → Flow
  q : List QueueEntry
  pending : Finset ℕ
  connected : Finset ℕ
  finished : Finset ℕ
  taken : ℕ → ℕ
  failed : List ℕ

/-- `gettimeofday`. -/
structure Timeval where
  sec : ℤ
  usec : ℤ

/-- What a turn of the inner loop meets: the entry that the queue has at its top, the socket it
may open, the `send` it may make, and the clock behind it. -/
structure Cycle where
  top : QueueEntry
  socket : ℤ
  send : SendResult
  now : Timeval

/-- What a turn of the main loop meets: the clock, the sockets that `select` reports unless it
returns 0, the `send` of each new connection, the clock again, and the inner loop. -/
structure Turn where
  now : Timeval
  writable : Option (ℤ → Bool)
  sends : ℕ → SendResult
  later : Timeval
  cycles : List Cycle

section

variable (fl : ℚ → ℚ)

def getTime (tv : Timeval) : ℚ := fl (tv.sec + fl (tv.usec / 1000000))

/-! ## Flows -/

def Decl.flow (t0 : ℚ) (d : Decl) : Flow where
  s := -1
  dst := d.dst
  port := UInt16.ofInt d.port.toInt
  start := fl (d.startTime + t0)
  duration := d.duration
  rate := fl (d.rate * 128)
  transferCap := d.transferCap
  sent := 0
  lastSend := none

/-- `Flow::connect`, as far as the flow is concerned. -/
def Flow.connect (socket : ℤ) (f : Flow) : Flow :=
  if f.dst = 0 ∨ f.port = 0 ∨ f.s ≠ -1 then f else { f with s := socket }

def Flow.isExpired (now : ℚ) (f : Flow) : Prop :=
  (0 ≤ f.transferCap ∧ f.transferCap ≤ f.sent) ∨ (0 ≤ f.duration ∧ f.duration ≤ fl (now - f.start))

instance (now : ℚ) (f : Flow) : Decidable (f.isExpired fl now) :=
  inferInstanceAs (Decidable (_ ∨ _))

def Flow.destroy (now : ℚ) (f : Flow) : Flow := { f with duration := fl (now - f.start), s := -1 }

/-- The time until the next `send`. -/
def Flow.delay (n : ℕ) (f : Flow) : ℚ := if 0 < f.rate then fl (n / f.rate) else fl (1 / 10000000)

def service (now : ℚ) (r : SendResult) (st : State) (p : ℕ) : State :=
  let f := st.flow p
  if f.s = -1 then st
  else
    match r with
    | .sent n =>
      { st with
        flow := Function.update st.flow p
          { f with sent := f.sent + Int32.ofNat n, lastSend := some (now, n) }
        q := ⟨fl (now + f.delay fl n), p⟩ :: st.q
        taken := Function.update st.taken p (st.taken p + n) }
    | .again => { st with q := ⟨fl (now + fl (1 / 1000000)), p⟩ :: st.q }
    | .error => { st with failed := p :: st.failed }

/-! ## The loops -/

/-- The socket has a place in an `fd_set`. -/
def InFdSet (s : ℤ) : Prop := 0 ≤ s ∧ s < 1024

instance (s : ℤ) : Decidable (InFdSet s) := inferInstanceAs (Decidable (_ ∧ _))

/-- `checkPending`; it is not defined what it does with a socket that has no place in the set. -/
def checkPending (writable : Option (ℤ → Bool)) (st : State) : Option (List ℕ) :=
  if ∀ p ∈ st.pending, InFdSet (st.flow p).s then
    some (match writable with
      | none => []
      | some w => (st.pending.sort (· ≤ ·)).filter fun p => w (st.flow p).s)
  else none

/-- The body of the loop over the new connections. -/
def newConnection (now : ℚ) (r : SendResult) (st : State) (p : ℕ) : State :=
  service fl now r
    { st with
      pending := st.pending.erase p
      connected := insert p st.connected
      flow := Function.update st.flow p { st.flow p with start := now } } p

/-- `q.top().t`. -/
def topTime (q : List QueueEntry) : Option ℚ := (q.map QueueEntry.t).min?

/-- The flow at the top begins its connection. -/
def State.connect (socket : ℤ) (st : State) (p : ℕ) : State :=
  { st with
    flow := Function.update st.flow p ((st.flow p).connect socket)
    pending := insert p st.pending }

def State.expire (now : ℚ) (st : State) (p : ℕ) : State :=
  { st with
    flow := Function.update st.flow p ((st.flow p).destroy fl now)
    connected := st.connected.erase p
    finished := insert p st.finished }

/-- The body of the inner loop. -/
def serve (now : ℚ) (c : Cycle) (st : State) : Option State :=
  if c.top ∈ st.q ∧ ∀ e ∈ st.q, c.top.t ≤ e.t then
    let p := c.top.flow
    let popped := { st with q := st.q.erase c.top }
    if (st.flow p).s = -1 then some (popped.connect c.socket p)
    else if (st.flow p).isExpired fl now then some (popped.expire fl now p)
    else some (service fl now c.send popped p)
  else none

def due (now : ℚ) (left : ℕ) (st : State) : Bool :=
  ((topTime st.q).any fun t => t ≤ now) && decide (0 < left)

def innerLoop : ℕ → ℚ → List Cycle → State → Option State
  | left, now, [], st => if due now left st then none else some st
  | left, now, c :: cs, st =>
    if due now left st then (serve fl now c st).bind (innerLoop (left - 1) (getTime fl c.now) cs)
    else none

/-- `if (q.size() && (dt=(q.top().t-now)) > 0.011)`. -/
def pauses (now : ℚ) (st : State) : Bool :=
  (topTime st.q).any fun t => fl (11 / 1000) < fl (t - now)

def State.goesOn (st : State) : Prop := st.pending.Nonempty ∨ st.q ≠ []

instance (st : State) : Decidable st.goesOn := inferInstanceAs (Decidable (_ ∨ _))

def connections (t : Turn) (st : State) : Option State :=
  if st.pending.Nonempty then
    (checkPending t.writable st).map fun ps =>
      ps.foldl (fun st p => newConnection fl (getTime fl t.now) (t.sends p) st p) st
  else some st

/-- The body of the main loop. -/
def turn (st : State) (t : Turn) : Option State :=
  if st.goesOn then
    (connections fl t st).bind fun st =>
      let now := getTime fl t.later
      if pauses fl now st then if t.cycles.isEmpty then some st else none
      else innerLoop fl 50 now t.cycles st
  else none

/-- A line of the flow file. -/
def declare (t0 : ℚ) (st : State) (d : ℕ × Decl) : State :=
  { st with
    flow := Function.update st.flow d.1 (d.2.flow fl t0)
    q := ⟨(d.2.flow fl t0).start, d.1⟩ :: st.q }

/-- The flows of the flow file, with the addresses that `new` returns. -/
def readFlows (t0 : ℚ) (decls : List (ℕ × Decl)) : State :=
  decls.foldl (declare fl t0) ⟨fun _ => Flow.new, [], ∅, ∅, ∅, fun _ => 0, []⟩

/-- The main loop, as far as the turns go. -/
def mainLoop (t0 : ℚ) (decls : List (ℕ × Decl)) (turns : List Turn) : Option State :=
  PartialRun.run (turn fl) (readFlows fl t0 decls) turns

end

end Modelnet.Tools.Traffic

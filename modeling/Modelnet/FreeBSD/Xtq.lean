import Modelnet.FreeBSD.XcpEstimates
import Modelnet.PathTab

/-!
# Queueing disciplines

`mn_xtq.c` and the allocation of `mn_xcp.c`: the table `qsw`, the installation of a discipline in a
hop, and the calendar on which the hops of a discipline schedule their timeouts. The functions get
the hop that their pointer leads to as an argument. A pipe is never given back by the code; the
model notes for which hop it was allocated, and whether `xcp_free_pipe` has been called for it. An
entry of the calendar notes when it was armed, and with which delay.
-/

namespace Modelnet.FreeBSD

open Modelnet

/-! ## The table of disciplines -/

/-- The functions that the table points to. -/
inductive XtqFunction where
  | xcpAllocPipe
  | xcpFreePipe
  | xcpEnqueue
  | xcpDequeue
  deriving DecidableEq

/-- `struct extended_q`, without the name and the flags. -/
structure ExtendedQ where
  type : ℤ
  alloc : Option XtqFunction
  free : Option XtqFunction
  enqueue : Option XtqFunction
  dequeue : Option XtqFunction
  xtHop : Option Addr
  deriving DecidableEq

def xtqNoxtq : ℤ := 0

def xtqXcp : ℤ := 1

def xtqMax : ℤ := 256

/-- A discipline without functions. -/
def ExtendedQ.plain (type : ℤ) : ExtendedQ := ⟨type, none, none, none, none, none⟩

def ExtendedQ.xcp (pipe : Option Addr) : ExtendedQ where
  type := xtqXcp
  alloc := some .xcpAllocPipe
  free := some .xcpFreePipe
  enqueue := some .xcpEnqueue
  dequeue := some .xcpDequeue
  xtHop := pipe

def qsw : List ExtendedQ := [.plain xtqNoxtq, .xcp none, .plain xtqMax]

/-- `num_qsw_entries`, as `xtq_init` counts them. -/
def numQswEntries : ℕ := (qsw.takeWhile fun q => q.type ≠ xtqMax).length

theorem numQswEntries_eq : numQswEntries = 2 := by decide

/-- `qsw[i]`. -/
def qswAt (i : ℕ) : ExtendedQ := qsw.getD i (.plain xtqMax)

/-! ## The state -/

/-- The timeouts of an XCP hop. -/
inductive Timeout where
  | tq
  | te
  deriving DecidableEq

structure HopSched where
  timeout : Timeout
  hop : HopPtr
  /-- the tick in which it was armed -/
  armed : ℕ
  /-- and the delay it was armed with -/
  delay : ℕ
  deriving DecidableEq

/-- The tick it is meant for. -/
def HopSched.due (hs : HopSched) : ℤ := hs.armed + hs.delay

/-- A pipe with its history. -/
structure XcpBlock where
  owner : HopPtr
  released : Bool
  pipe : XcpRouter

/-- The variables of `mn_xtq.c` and `mn_xcp.c`, the calendar of timeouts, and what the hops have in
`xtq`. -/
structure XtqState where
  hz : ℕ
  calendarTick : ℕ
  hopCalendar : ℕ → List HopSched
  xtq : HopPtr → ExtendedQ
  pipes : Addr → Option XcpBlock
  xcpInitialized : Bool
  xcpPipeCount : ℤ
  nextRouter : BitVec 32

/-- What the rest of the kernel answers during an installation. -/
structure XtqEnv where
  /-- the address that `malloc` returns; one that is in use stands for a failure -/
  pipe : Option Addr
  randomTq : ℕ
  randomTe : ℕ
  /-- whether `XTQ_GET_HS` finds an entry, for each of the two timeouts -/
  tqSchedOk : Bool
  teSchedOk : Bool

namespace XtqState

def boot (hz : ℕ) : XtqState where
  hz := hz
  calendarTick := 0
  hopCalendar := fun _ => []
  xtq := fun _ => .plain xtqNoxtq
  pipes := fun _ => none
  xcpInitialized := false
  xcpPipeCount := 0
  nextRouter := 0

/-- `hop->xtq = q`. -/
def setXtq (s : XtqState) (h : HopPtr) (q : ExtendedQ) : XtqState :=
  { s with xtq := Function.update s.xtq h q }

def mallocPipe (s : XtqState) (env : XtqEnv) : Option Addr :=
  env.pipe.filter fun a => a ≠ 0 ∧ (s.pipes a).isNone

def setPipe (s : XtqState) (a : Addr) (b : XcpBlock) : XtqState :=
  { s with pipes := Function.update s.pipes a (some b) }

def scheduleHop (s : XtqState) (h : HopPtr) (timeout : Timeout) (delay : ℕ) (hsOk : Bool) :
    XtqState :=
  if hsOk then
    let hs : HopSched := ⟨timeout, h, s.calendarTick, delay⟩
    { s with
      hopCalendar := Function.update s.hopCalendar (calendarSlot hs.due)
        (s.hopCalendar (calendarSlot hs.due) ++ [hs]) }
  else s

/-! ## XCP pipes -/

def xcpInit (s : XtqState) : XtqState := { s with xcpPipeCount := 0, xcpInitialized := true }

def xcpUninit (s : XtqState) : XtqState := { s with xcpInitialized := false }

/-- The pipe at `a` is filled, and its timeouts are armed. -/
def startPipe (s : XtqState) (h : HopPtr) (hop : Hop) (env : XtqEnv) (a : Addr) : XtqState :=
  let p := XcpRouter.start s.hz hop s.nextRouter
  let s := { s.setPipe a ⟨h, false, p⟩ with nextRouter := s.nextRouter + 1 }
  let s := s.scheduleHop h .tq (XcpRouter.firstDelay s.hz p.tq env.randomTq).toNat env.tqSchedOk
  s.scheduleHop h .te (XcpRouter.firstDelay s.hz p.te env.randomTe).toNat env.teSchedOk

/-- The count of pipes as `xcp_alloc_pipe` leaves it, which initializes XCP for the first one. -/
def countPipe (s : XtqState) : XtqState :=
  let s := if s.xcpInitialized then s else s.xcpInit
  { s with xcpPipeCount := s.xcpPipeCount + 1 }

/-- `xcp_alloc_pipe`. Its result is not looked at. -/
def xcpAllocPipe (s : XtqState) (h : HopPtr) (hop : Hop) (env : XtqEnv) : XtqState :=
  let s := s.countPipe
  let pipe := s.mallocPipe env
  let s := s.setXtq h { s.xtq h with xtHop := pipe }
  match pipe with
  | none => s
  | some a => s.startPipe h hop env a

/-- The pipe of a hop is released: noted, but not given back. -/
def releasePipe (s : XtqState) (h : HopPtr) : XtqState :=
  { s with
    pipes := fun a =>
      if (s.xtq h).xtHop = some a then (s.pipes a).map fun b => { b with released := true }
      else s.pipes a }

def xcpFreePipe (s : XtqState) (h : HopPtr) : XtqState :=
  let s := { s.releasePipe h with xcpPipeCount := s.xcpPipeCount - 1 }
  if s.xcpPipeCount = 0 then s.xcpUninit else s

/-! ## Installation -/

/-- `xtq_install`. The only function that `alloc` points to is `xcp_alloc_pipe`. -/
def xtqInstall (s : XtqState) (h : HopPtr) (hop : Hop) (xtqType : ℤ) (env : XtqEnv) : XtqState :=
  if xtqType < 0 ∨ (numQswEntries : ℤ) < xtqType then s.setXtq h (qswAt (numQswEntries - 1))
  else
    let s := s.setXtq h (qswAt xtqType.toNat)
    if (s.xtq h).alloc.isSome then s.xcpAllocPipe h hop env else s

def xtqUninstall (s : XtqState) (h : HopPtr) (hop : Hop) (xtqType : ℤ) (env : XtqEnv) : XtqState :=
  let s := if (s.xtq h).free.isSome then s.xcpFreePipe h else s
  if 0 ≤ xtqType then s.xtqInstall h hop xtqType env else s

variable {s : XtqState} {h h' : HopPtr} {hop : Hop} {xtqType : ℤ} {env : XtqEnv}

@[simp] theorem setXtq_xtq_self (s : XtqState) (h : HopPtr) (q : ExtendedQ) :
    (s.setXtq h q).xtq h = q := Function.update_self ..

theorem setXtq_xtq_ne (s : XtqState) (hne : h' ≠ h) (q : ExtendedQ) :
    (s.setXtq h q).xtq h' = s.xtq h' := Function.update_of_ne hne ..

theorem qswAt_unknown : qswAt (numQswEntries - 1) = .xcp none := by decide

/-- A type that is not in the table gets the functions of XCP without a pipe. -/
theorem xtqInstall_unknown (hunknown : xtqType < 0 ∨ 2 < xtqType) :
    s.xtqInstall h hop xtqType env = s.setXtq h (.xcp none) := by
  have hcond : xtqType < 0 ∨ (numQswEntries : ℤ) < xtqType := by
    rw [numQswEntries_eq]
    exact hunknown
  unfold xtqInstall
  rw [if_pos hcond, qswAt_unknown]

theorem xtqInstall_plain (s : XtqState) (h : HopPtr) (hop : Hop) (env : XtqEnv)
    (hplain : xtqType = 0 ∨ xtqType = 2) :
    ∃ t, t ≠ xtqXcp ∧ s.xtqInstall h hop xtqType env = s.setXtq h (.plain t) := by
  rcases hplain with rfl | rfl
  · exact ⟨xtqNoxtq, by decide, by simp [xtqInstall, qswAt, qsw, numQswEntries_eq, ExtendedQ.plain]⟩
  · exact ⟨xtqMax, by decide, by simp [xtqInstall, qswAt, qsw, numQswEntries_eq, ExtendedQ.plain]⟩

/-- XCP: the functions are in place before the pipe is allocated. -/
theorem xtqInstall_xcp :
    s.xtqInstall h hop xtqXcp env = (s.setXtq h (.xcp none)).xcpAllocPipe h hop env := by
  simp [xtqInstall, qswAt, qsw, numQswEntries_eq, ExtendedQ.xcp, xtqXcp]

/-! ## The tick rate stays -/

@[simp] theorem scheduleHop_hz (s : XtqState) (h : HopPtr) (f : Timeout) (d : ℕ) (ok : Bool) :
    (s.scheduleHop h f d ok).hz = s.hz := by
  unfold scheduleHop
  split_ifs <;> rfl

@[simp] theorem countPipe_hz (s : XtqState) : s.countPipe.hz = s.hz := by
  unfold countPipe
  dsimp only
  split_ifs <;> rfl

@[simp] theorem startPipe_hz (s : XtqState) (h : HopPtr) (hop : Hop) (env : XtqEnv) (a : Addr) :
    (s.startPipe h hop env a).hz = s.hz := by
  simp [startPipe, setPipe]

@[simp] theorem xtqInstall_hz (s : XtqState) (h : HopPtr) (hop : Hop) (xtqType : ℤ)
    (env : XtqEnv) : (s.xtqInstall h hop xtqType env).hz = s.hz := by
  unfold xtqInstall xcpAllocPipe
  dsimp only
  split_ifs
  · rfl
  · split <;> simp [setXtq]
  · rfl

@[simp] theorem xtqUninstall_hz (s : XtqState) (h : HopPtr) (hop : Hop) (xtqType : ℤ)
    (env : XtqEnv) : (s.xtqUninstall h hop xtqType env).hz = s.hz := by
  have hfree : (s.xcpFreePipe h).hz = s.hz := by
    unfold xcpFreePipe
    dsimp only
    split_ifs <;> rfl
  unfold xtqUninstall
  dsimp only
  split_ifs <;> simp [hfree]

theorem xtqUninstall_of_nonneg (h0 : 0 ≤ xtqType) :
    s.xtqUninstall h hop xtqType env =
      (if (s.xtq h).free.isSome then s.xcpFreePipe h else s).xtqInstall h hop xtqType env :=
  if_pos h0

theorem xtqUninstall_of_neg (h0 : ¬ 0 ≤ xtqType) :
    s.xtqUninstall h hop xtqType env =
      if (s.xtq h).free.isSome then s.xcpFreePipe h else s := if_neg h0

end XtqState

end Modelnet.FreeBSD

import Modelnet.FreeBSD.PathTable
import Modelnet.FreeBSD.Xtq

/-!
# Hops with disciplines, and their clock

The handlers of `mn_pathtable.c` that install and remove the disciplines of the hops, and what
happens to these while the clock runs: packets arrive at a hop and depart from it, and `hopclock`
takes the entries of the served slot off `hop_calendar` and calls their timeouts. The block of a new
hop table is the one that `malloc` returns, which may be that of an old table. An access to a hop
that is not there, or through a null pipe, is a fault (`none`).
-/

namespace Modelnet.FreeBSD

open Modelnet

/-- The tables and the disciplines of a core. -/
structure XtqCore where
  tab : PathTab
  xs : XtqState

/-- A call of `sysctl_hophandle`, with the block of the new table and what the kernel answers in the
installation of each discipline. -/
structure XtqHoptableWrite extends HoptableWrite where
  table : ℕ
  env : ℕ → XtqEnv

structure SysctlHopmod where
  hopidx : Int32
  hop : SysctlHop

/-- A call of `sysctl_hopmodhandle`; `error` is that of `SYSCTL_IN`, `outError` that of the
`SYSCTL_OUT` that ends it. -/
structure HopmodWrite where
  error : ℤ
  newptr : Bool
  oldptr : Bool
  mod : SysctlHopmod
  outError : ℤ
  env : XtqEnv

/-- The answers where nothing is installed. -/
def XtqEnv.unused : XtqEnv := ⟨none, 0, 0, false, false⟩

def XcpRouter.timeout (hz : ℕ) (hop : Hop) (p : XcpRouter) : Timeout → Option XcpRouter
  | .tq => p.tqTimeout hz hop
  | .te => p.teTimeout hz hop

/-- The delay with which a timeout arms itself again. -/
def XcpRouter.delay (p : XcpRouter) : Timeout → BitVec 64
  | .tq => p.tq
  | .te => p.te

namespace XtqCore

def boot (hz : ℕ) : XtqCore := ⟨.empty, .boot hz⟩

/-- The hop is in the table. -/
def Installed (c : XtqCore) (h : HopPtr) : Prop := (c.tab.hops h).isSome

/-! ## The handlers -/

/-- The disciplines of the first `n` hops of a table are uninstalled. -/
def uninstallHops (b n : ℕ) (xs : XtqState) : XtqState :=
  (List.range n).foldl (fun xs (i : ℕ) => xs.xtqUninstall ⟨b, i⟩ Hop.zero (-1) .unused) xs

def uninitPaths (c : XtqCore) : XtqCore where
  tab := c.tab.uninitPaths
  xs := match c.tab.hoptable with
    | some b => uninstallHops b c.tab.hopcount.toNat c.xs
    | none => c.xs

/-- The hops of a table in block `b`. -/
def InTable (b : ℕ) (hopcount : ℤ) (h : HopPtr) : Prop :=
  h.tab = b ∧ 0 ≤ h.idx ∧ h.idx < hopcount

instance (b : ℕ) (hopcount : ℤ) (h : HopPtr) : Decidable (InTable b hopcount h) :=
  inferInstanceAs (Decidable (_ ∧ _ ∧ _))

def openTable (c : XtqCore) (b : ℕ) (hopcount : ℤ) : XtqCore where
  tab := { c.tab.alloc with
    hoptable := some b
    hopcount := hopcount
    hops := fun h => if InTable b hopcount h then some Hop.zero else c.tab.hops h }
  xs := { c.xs with
    xtq := fun h => if InTable b hopcount h then .plain xtqNoxtq else c.xs.xtq h }

/-- The loop over the hops from hop `i` on; `m` of them are left. -/
def loadHops (b : ℕ) (w : XtqHoptableWrite) : ℕ → ℕ → XtqCore → XtqCore × Bool
  | 0, _, c => (c, true)
  | m + 1, i, c =>
    let r := PathTab.loadHops c.xs.hz b w.hops w.exittickOk w.slotlenOk 1 i c.tab
    if r.2 then
      loadHops b w m (i + 1)
        ⟨r.1, c.xs.xtqInstall ⟨b, i⟩ (Hop.install c.xs.hz i (w.hops i)) (w.hops i).xtqType.toInt
          (w.env i)⟩
    else (⟨r.1, c.xs⟩, false)

/-- The old tables are freed, and a zeroed table is allocated and loaded. -/
def loadHoptable (c : XtqCore) (w : XtqHoptableWrite) : XtqCore × Bool :=
  let c := c.uninitPaths
  if w.tableOk then
    loadHops w.table w w.hopcount.toInt.toNat 0 (c.openTable w.table w.hopcount.toInt)
  else (c, false)

def sysctlHophandle (c : XtqCore) (w : XtqHoptableWrite) : XtqCore × ℤ :=
  if w.error ≠ 0 ∨ ¬ w.newptr then (c, if w.oldptr then w.error else w.outError)
  else if ¬ (w.hopsOk ∧ 0 ≤ w.hopcount.toInt) then (c, enomem)
  else
    let r := loadHoptable ⟨c.tab.alloc, c.xs⟩ w
    if r.2 then (⟨r.1.tab.kfree c.tab.nextBlock, r.1.xs⟩, w.outError) else (r.1, enomem)

/-- The hop `hop` of the table in block `b` is modified. -/
def modified (c : XtqCore) (w : HopmodWrite) (b : ℕ) (hop : Hop) : XtqCore :=
  let h : HopPtr := ⟨b, w.mod.hopidx.toInt⟩
  let hop := sysctlHopmod c.xs.hz hop w.mod.hop
  ⟨c.tab.setHop h hop, c.xs.xtqUninstall h hop w.mod.hop.xtqType.toInt w.env⟩

/-- `sysctl_hopmodhandle`. The index is only compared with `hopcount`. -/
def sysctlHopmodhandle (c : XtqCore) (w : HopmodWrite) : Option (XtqCore × ℤ) :=
  if w.error ≠ 0 ∨ ¬ w.newptr then some (c, if w.oldptr then w.error else w.outError)
  else if c.tab.hopcount ≤ w.mod.hopidx.toInt then some (c, einval)
  else do
    let b ← c.tab.hoptable
    let hop ← c.tab.hops ⟨b, w.mod.hopidx.toInt⟩
    return (c.modified w b hop, w.outError)

/-- A write to the hop table that is carried out. -/
def LoadAccepted (w : XtqHoptableWrite) : Prop :=
  (w.error = 0 ∧ w.newptr = true) ∧ w.hopsOk = true ∧ 0 ≤ w.hopcount.toInt

/-- A modification that is carried out. -/
def HopmodAccepted (c : XtqCore) (w : HopmodWrite) : Prop :=
  (w.error = 0 ∧ w.newptr = true) ∧ w.mod.hopidx.toInt < c.tab.hopcount

theorem sysctlHopmodhandle_accepted {c : XtqCore} {w : HopmodWrite} {r : XtqCore × ℤ}
    (haccepted : c.HopmodAccepted w) (hmod : c.sysctlHopmodhandle w = some r) :
    ∃ b hop, c.tab.hoptable = some b ∧ c.tab.hops ⟨b, w.mod.hopidx.toInt⟩ = some hop ∧
      r.1 = c.modified w b hop := by
  have herror : ¬ (w.error ≠ 0 ∨ ¬ w.newptr = true) := by
    rintro (herror | hread)
    · exact herror haccepted.1.1
    · exact hread haccepted.1.2
  unfold sysctlHopmodhandle at hmod
  rw [if_neg herror, if_neg (not_le.mpr haccepted.2)] at hmod
  obtain ⟨b, hb, hmod⟩ := Option.bind_eq_some_iff.mp hmod
  obtain ⟨hop, hhop, hmod⟩ := Option.bind_eq_some_iff.mp hmod
  cases hmod
  exact ⟨b, hop, hb, hhop, rfl⟩

theorem sysctlHopmodhandle_cases {c : XtqCore} {w : HopmodWrite} {r : XtqCore × ℤ}
    (hmod : c.sysctlHopmodhandle w = some r) :
    r.1 = c ∨ (c.HopmodAccepted w ∧ ∃ b hop, c.tab.hoptable = some b ∧
      c.tab.hops ⟨b, w.mod.hopidx.toInt⟩ = some hop ∧ r.1 = c.modified w b hop) := by
  by_cases haccepted : c.HopmodAccepted w
  · exact .inr ⟨haccepted, sysctlHopmodhandle_accepted haccepted hmod⟩
  · left
    unfold sysctlHopmodhandle at hmod
    unfold HopmodAccepted at haccepted
    by_cases herror : w.error ≠ 0 ∨ ¬ w.newptr = true
    · rw [if_pos herror] at hmod
      cases hmod
      rfl
    · rw [if_neg herror, if_pos (by by_contra hlt; exact haccepted ⟨by tauto, by omega⟩)] at hmod
      cases hmod
      rfl

/-! ## The tables are those of `sysctlHophandle` -/

theorem uninstallHops_hz (b n : ℕ) (xs : XtqState) : (uninstallHops b n xs).hz = xs.hz := by
  unfold uninstallHops
  induction n with
  | zero => rfl
  | succ n ih =>
    rw [List.range_succ, List.foldl_append, List.foldl_cons, List.foldl_nil,
      XtqState.xtqUninstall_hz, ih]

theorem uninitPaths_hz (c : XtqCore) : c.uninitPaths.xs.hz = c.xs.hz := by
  unfold uninitPaths
  cases c.tab.hoptable with
  | none => rfl
  | some b => exact uninstallHops_hz b _ _

theorem loadHops_tab (b : ℕ) (w : XtqHoptableWrite) (m i : ℕ) (c : XtqCore) :
    ((loadHops b w m i c).1.tab, (loadHops b w m i c).2) =
      PathTab.loadHops c.xs.hz b w.hops w.exittickOk w.slotlenOk m i c.tab := by
  induction m generalizing i c with
  | zero => rfl
  | succ m ih =>
    unfold loadHops PathTab.loadHops
    dsimp only
    by_cases hexit : (w.exittickOk i && decide (0 ≤ (Hop.zero.configure c.xs.hz i (w.hops i)).qsize))
      = true
    · rw [if_pos hexit, if_pos hexit]
      by_cases hslot : (w.slotlenOk i &&
          decide (0 ≤ (Hop.zero.configure c.xs.hz i (w.hops i)).qsize)) = true
      · rw [if_pos hslot, if_pos hslot]
        refine (ih (i + 1) _).trans ?_
        rw [XtqState.xtqInstall_hz]
        rfl
      · rw [if_neg hslot, if_neg hslot]
        rfl
    · rw [if_neg hexit, if_neg hexit]
      rfl

/-- **A load with disciplines** leaves the tables that `sysctlHophandle` leaves and returns the
same, when the table is a new block. -/
theorem sysctlHophandle_tab (c : XtqCore) (w : XtqHoptableWrite)
    (hnew : w.table = c.tab.alloc.uninitPaths.nextBlock) :
    (c.sysctlHophandle w).1.tab =
        (FreeBSD.sysctlHophandle c.xs.hz c.tab w.toHoptableWrite).tab ∧
      (c.sysctlHophandle w).2 = (FreeBSD.sysctlHophandle c.xs.hz c.tab w.toHoptableWrite).ret := by
  have hload : ((loadHoptable ⟨c.tab.alloc, c.xs⟩ w).1.tab, (loadHoptable ⟨c.tab.alloc, c.xs⟩ w).2) =
      c.tab.alloc.loadHoptable c.xs.hz w.hopcount.toInt w.hops w.tableOk w.exittickOk
        w.slotlenOk := by
    unfold loadHoptable PathTab.loadHoptable
    dsimp only
    split_ifs
    · rw [hnew, loadHops_tab]
      have hhz : (XtqCore.openTable (uninitPaths ⟨c.tab.alloc, c.xs⟩)
          c.tab.alloc.uninitPaths.nextBlock w.hopcount.toInt).xs.hz = c.xs.hz :=
        uninitPaths_hz ⟨c.tab.alloc, c.xs⟩
      rw [hhz]
      rfl
    · rfl
  obtain ⟨htab, hok⟩ := Prod.ext_iff.mp hload
  dsimp only at htab hok
  unfold sysctlHophandle FreeBSD.sysctlHophandle
  split_ifs
  · exact ⟨rfl, rfl⟩
  · exact ⟨rfl, rfl⟩
  · dsimp only
    rw [← hok, ← htab]
    split_ifs
    · exact ⟨rfl, rfl⟩
    · exact ⟨rfl, rfl⟩
  · exact ⟨rfl, rfl⟩

/-! ## Packets -/

/-- The pipe that `hop->xtq.xt_hop` points to. -/
def pipeOf (c : XtqCore) (h : HopPtr) : Option (Addr × XcpBlock) := do
  let a ← (c.xs.xtq h).xtHop
  let b ← c.xs.pipes a
  return (a, b)

def setPipe (c : XtqCore) (a : Addr) (b : XcpBlock) : XtqCore := { c with xs := c.xs.setPipe a b }

/-- `emulate_hop` for a packet with the record `info`. -/
def arrive (c : XtqCore) (h : HopPtr) (random : ℕ) (info : RemotePacket) : Option XtqCore := do
  let hop ← c.tab.hops h
  let r ← emulateHop c.xs.hz hop info.len.toNat c.xs.calendarTick random
  let c := { c with tab := c.tab.setHop h r.1 }
  match r.2 with
  | .dropped _ _ => return c
  | .queued _ _ =>
    if (c.xs.xtq h).enqueue.isSome then
      let (a, b) ← c.pipeOf h
      return c.setPipe a { b with pipe := b.pipe.enqueue c.xs.hz info }
    else return c

/-- `emulate_nexthop` for a packet that leaves the hop `h`. -/
def depart (c : XtqCore) (h : HopPtr) (info : RemotePacket) : Option XtqCore := do
  let hop ← c.tab.hops h
  if hop.emulator = 0 ∧ (c.xs.xtq h).dequeue.isSome then
    let (a, b) ← c.pipeOf h
    let r ← b.pipe.dequeue c.xs.hz hop.bytedepth info
    return c.setPipe a { b with pipe := r.1 }
  else return c

/-! ## The clock -/

/-- `hop_calendar + (calendar_tick & SCHEDMASK)`. -/
def serving (c : XtqCore) : List HopSched := c.xs.hopCalendar (calendarSlot c.xs.calendarTick)

/-- The front of the served slot is taken off. -/
def pop (c : XtqCore) : XtqCore :=
  { c with xs := { c.xs with
      hopCalendar := Function.update c.xs.hopCalendar (calendarSlot c.xs.calendarTick)
        c.serving.tail } }

/-- The call `hs->timeout(hs->hop)`, up to the rearming: the pipe and its new value. -/
def callTimeout (c : XtqCore) (hs : HopSched) : Option (Addr × XcpBlock) := do
  let hop ← c.tab.hops hs.hop
  let (a, b) ← c.pipeOf hs.hop
  let p ← b.pipe.timeout c.xs.hz hop hs.timeout
  return (a, { b with pipe := p })

/-- The timeout arms itself again. -/
def rearm (c : XtqCore) (hs : HopSched) (p : XcpRouter) (hsOk : Bool) : XtqCore :=
  { c with xs := c.xs.scheduleHop hs.hop hs.timeout (p.delay hs.timeout).toNat hsOk }

/-- A turn of the loop over the served slot; there is none when the slot is empty. -/
def fire (c : XtqCore) (hsOk : Bool) : Option XtqCore :=
  match c.serving with
  | [] => none
  | hs :: _ => (c.callTimeout hs).map fun r => (c.pop.setPipe r.1 r.2).rearm hs r.2.pipe hsOk

/-- `++calendar_tick`, once the slot is empty. -/
def tick (c : XtqCore) : Option XtqCore :=
  match c.serving with
  | [] => some { c with xs := { c.xs with calendarTick := c.xs.calendarTick + 1 } }
  | _ :: _ => none

theorem pop_serving (c : XtqCore) : c.pop.serving = c.serving.tail := Function.update_self ..

theorem rearm_pipeOf (c : XtqCore) (hs : HopSched) (p : XcpRouter) (hsOk : Bool) (h : HopPtr) :
    (c.rearm hs p hsOk).pipeOf h = c.pipeOf h := by
  unfold rearm XtqState.scheduleHop
  split_ifs <;> rfl

theorem setPipe_pipeOf {c : XtqCore} {h : HopPtr} {r : Addr × XcpBlock} (hpipe : c.pipeOf h = some r)
    (b : XcpBlock) : (c.setPipe r.1 b).pipeOf h = some (r.1, b) := by
  obtain ⟨a, ha, hr⟩ := Option.bind_eq_some_iff.mp hpipe
  obtain ⟨b', hb', heq⟩ := Option.bind_eq_some_iff.mp hr
  cases heq
  unfold pipeOf
  show ((c.xs.xtq h).xtHop).bind _ = _
  rw [ha]
  show (Function.update c.xs.pipes a (some b) a).bind _ = _
  rw [Function.update_self]
  rfl

/-- The loop over the served slot, as long as there are answers of `XTQ_GET_HS`; `none` also when
they do not suffice. -/
def drainHops : List Bool → XtqCore → Option XtqCore
  | oks, c =>
    match c.serving, oks with
    | [], _ => some c
    | _ :: _, [] => none
    | _ :: _, ok :: oks => (c.fire ok).bind (drainHops oks)

/-! ## Events -/

/-- What happens to the hops of a core. -/
inductive HopEvent where
  | load (w : XtqHoptableWrite)
  | hopmod (w : HopmodWrite)
  | arrive (h : HopPtr) (random : ℕ) (info : RemotePacket)
  | depart (h : HopPtr) (info : RemotePacket)
  | fire (hsOk : Bool)
  | tick

def step (c : XtqCore) : HopEvent → Option XtqCore
  | .load w => some (c.sysctlHophandle w).1
  | .hopmod w => (c.sysctlHopmodhandle w).map Prod.fst
  | .arrive h random info => c.arrive h random info
  | .depart h info => c.depart h info
  | .fire hsOk => c.fire hsOk
  | .tick => c.tick

end XtqCore

end Modelnet.FreeBSD

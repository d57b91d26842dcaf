import Modelnet.Linux.ClockSteps
import Modelnet.Linux.Routes

/-!
# The hook and the clock, section by section

The netfilter hook calls `emulate_nexthop` without the lock of the calendar, and takes it for two
sections of `emulate_hop`; `hopclock` holds it from the first turn to the last. The sections of the
calls of the hook and the turns of the clock are the steps of one machine, in any order that the
locks allow. A call that is not interrupted is the atomic call (`emulateNexthop_eq_sections`).
-/

namespace Modelnet.Linux

open Modelnet

/-- What a call of the hook does next, with the local variables it still needs. -/
inductive Pc where
  /-- `curtick = calendar_tick`, under the lock of the calendar. -/
  | readTick (h : HopPtr) (randomVal : ℕ)
  /-- The section under the lock of the hop. -/
  | cross (h : HopPtr) (randomVal curtick : ℕ)
  /-- `list_add_tail`, under the lock of the calendar. -/
  | link (h : HopPtr) (curtick : ℕ) (due : ℤ)
  /-- `++pkt->path`, and freeing the packet. -/
  | advance (h : HopPtr) (ret : ℤ)
  deriving DecidableEq, Repr

namespace Kernel

/-- `emulate_nexthop` up to the first lock of `emulate_hop`; without a crossing it ends here. -/
def beginNexthop (k : Kernel) (p : PktId) : Option (Kernel × Option Pc) :=
  (k.pkts p).bind fun pkt => pkt.path.bind fun path => (k.tab.readPath path).bind fun curhop =>
    match curhop with
    | none => ((k.forwardPacket p).bind fun k => k.mnFreePkt p).map fun k => (k, none)
    | some h =>
      (k.tab.hops h).bind fun hop =>
        if hop.emulator ≠ 0 then (k.finishNexthop p h remoteHop).map fun k => (k, none)
        else some (k.drawRandom, some (.readTick h (k.random 0)))

def callSection (hz : ℕ) (k : Kernel) (p : PktId) : Pc → Option (Kernel × Option Pc)
  | .readTick h randomVal => some (k, some (.cross h randomVal k.calendarTick))
  | .cross h randomVal curtick =>
    (k.hopSection hz p h curtick randomVal).map fun r =>
      match r.2 with
      | .dropped _ _ => (r.1, some (.advance h enobufs))
      | .queued _ due => (r.1, some (.link h curtick due))
  | .link h _ due => some (k.listAddTail p due, some (.advance h 0))
  | .advance h ret => (k.finishNexthop p h ret).map fun k => (k, none)

/-- At most `n` sections of a call, without interruption. -/
def callSections (hz : ℕ) : ℕ → Kernel → PktId → Option Pc → Option Kernel
  | _, k, _, none => some k
  | 0, _, _, some _ => none
  | n + 1, k, p, some pc => (k.callSection hz p pc).bind fun r => callSections hz n r.1 p r.2

/-- **Sections.** The atomic call is its sections without interruption. -/
theorem emulateNexthop_eq_sections (hz : ℕ) (k : Kernel) (p : PktId) :
    k.emulateNexthop hz p =
      (k.beginNexthop p).bind fun r => callSections hz 4 r.1 p r.2 := by
  unfold emulateNexthop beginNexthop
  rw [Option.bind_assoc]
  congr 1
  funext pkt
  rw [Option.bind_assoc]
  congr 1
  funext path
  rw [Option.bind_assoc]
  congr 1
  funext curhop
  cases curhop with
  | none =>
    dsimp only
    rw [Option.bind_map]
    exact (Option.bind_fun_some _).symm
  | some h =>
    dsimp only
    rw [Option.bind_assoc]
    congr 1
    funext hop
    by_cases hemulator : hop.emulator ≠ 0
    · rw [if_pos hemulator, if_pos hemulator, Option.bind_some, Option.bind_map]
      exact (Option.bind_fun_some _).symm
    · rw [if_neg hemulator, if_neg hemulator, Option.bind_some]
      unfold emulateHop
      rw [Option.bind_map]
      show _ = Option.bind (Option.map _ _) _
      rw [Option.bind_map]
      congr 1
      funext r
      rcases r with ⟨k₁, ⟨plr, bw⟩ | ⟨x, due⟩⟩
      · show _ = Option.bind (Option.map _ _) _
        rw [Option.bind_map]
        exact (Option.bind_fun_some _).symm
      · show _ = Option.bind (Option.map _ _) _
        rw [Option.bind_map]
        exact (Option.bind_fun_some _).symm

end Kernel

/-! ## The machine -/

/-- A call of the hook in `emulate_nexthop`. -/
structure HookCall where
  skb : SkbId
  pc : Pc
  deriving DecidableEq, Repr

/-- The module with the calls of the hook in progress, by their packets. `clockLocks` says that
`hopclock` holds the lock of the calendar. -/
structure Machine where
  kernel : Kernel
  calls : PktId → Option HookCall
  clockLocks : Bool

inductive Move where
  /-- A buffer arrives at the hook and gets as far as the first lock. -/
  | input (skb : SkBuff) (kmallocOk : Bool) (okfn : Okfn)
  /-- The next section of the call for a packet. -/
  | hook (p : PktId)
  | lockCalendar
  /-- A turn of `hopclock`. -/
  | clock (turn : Kernel.ClockTurn)
  | unlockCalendar

/-- The section takes the lock of the calendar. -/
def Pc.locksCalendar : Pc → Bool
  | .readTick _ _ | .link _ _ _ => true
  | .cross _ _ _ | .advance _ _ => false

namespace Machine

/-- The machine after the module is loaded. -/
def load (jiffies : ℕ) (random : ℕ → ℕ) (tab : PathTab) : Machine where
  kernel := Kernel.load jiffies random tab
  calls := fun _ => none
  clockLocks := false

/-- A section ends: the call goes on, or the hook returns `NF_STOLEN`. -/
def resume (m : Machine) (p : PktId) (s : SkbId) (r : Kernel × Option Pc) : Machine :=
  match r.2 with
  | some pc => { m with kernel := r.1, calls := Function.update m.calls p (some ⟨s, pc⟩) }
  | none =>
    { m with kernel := r.1.giveVerdict s .stolen, calls := Function.update m.calls p none }

/-- One move. A section that waits for the lock and a turn of a clock that does not run change
nothing; `none` is a fault. -/
def step (hz : ℕ) (m : Machine) : Move → Option Machine
  | .input skb kmallocOk okfn =>
    let s := m.kernel.nextSkb
    ((m.kernel.receive skb).enter s kmallocOk okfn).bind fun r =>
      match r.2 with
      | none => some { m with kernel := r.1.giveVerdict s .accept }
      | some p => (r.1.beginNexthop p).map (m.resume p s)
  | .hook p =>
    match m.calls p with
    | none => some m
    | some c =>
      if m.clockLocks && c.pc.locksCalendar then some m
      else (m.kernel.callSection hz p c.pc).map (m.resume p c.skb)
  | .lockCalendar => some { m with clockLocks := true }
  | .clock turn =>
    if m.clockLocks then (m.kernel.clockTurn hz turn).map fun k => { m with kernel := k }
    else some m
  | .unlockCalendar => some { m with clockLocks := false }

end Machine

/-! ## What a section does -/

namespace Kernel

variable {hz : ℕ} {k k' : Kernel} {p : PktId} {pkt : Packet} {s : SkbId}

/-- A hop has been crossed, with a random value drawn before. -/
def crossLink (k : Kernel) (p : PktId) (h : HopPtr) (hop : Hop) : Kernel :=
  { k with tab := k.tab.setHop h hop, log := k.log ++ [.cross p h] }

/-- The outcomes of the start of `emulate_nexthop` for a packet that holds a buffer. -/
inductive BeginStep (k : Kernel) (p : PktId) (pkt : Packet) (s : SkbId) :
    Kernel × Option Pc → Prop where
  | forward {path : PathPtr} (hpath : pkt.path = some path)
      (hread : k.tab.readPath path = some none) :
      BeginStep k p pkt s (k.consume p s [.okfn s, .forward p, .kfree p], none)
  | remote {path : PathPtr} {h : HopPtr} (hpath : pkt.path = some path)
      (hread : k.tab.readPath path = some (some h)) :
      BeginStep k p pkt s (k.consume p s [.kfreeSkb s, .kfree p], none)
  | call {path : PathPtr} {h : HopPtr} {hop : Hop} (hpath : pkt.path = some path)
      (hread : k.tab.readPath path = some (some h)) (hhop : k.tab.hops h = some hop)
      (hemulator : hop.emulator = 0) :
      BeginStep k p pkt s (k.drawRandom, some (.readTick h (k.random 0)))

/-- The outcomes of the sections of a call for a packet that holds a buffer. -/
inductive SectionStep (hz : ℕ) (k : Kernel) (p : PktId) (pkt : Packet) (s : SkbId) :
    Pc → Kernel × Option Pc → Prop where
  | readTick (h : HopPtr) (randomVal : ℕ) :
      SectionStep hz k p pkt s (.readTick h randomVal)
        (k, some (.cross h randomVal k.calendarTick))
  | dropped {h : HopPtr} {randomVal curtick : ℕ} {hop hop' : Hop} {plr bw : Bool}
      (hhop : k.tab.hops h = some hop)
      (hemulate : Linux.emulateHop hz hop pkt.info.len curtick randomVal =
        some (hop', .dropped plr bw)) :
      SectionStep hz k p pkt s (.cross h randomVal curtick)
        (k.crossLink p h hop', some (.advance h enobufs))
  | queued {h : HopPtr} {randomVal curtick : ℕ} {hop hop' : Hop} {x : ℕ} {due : ℤ}
      (hhop : k.tab.hops h = some hop)
      (hemulate : Linux.emulateHop hz hop pkt.info.len curtick randomVal =
        some (hop', .queued x due)) :
      SectionStep hz k p pkt s (.cross h randomVal curtick)
        ((k.crossLink p h hop').setPkt p { pkt with state := qBwDelay },
          some (.link h curtick due))
  | link (h : HopPtr) (curtick : ℕ) (due : ℤ) :
      SectionStep hz k p pkt s (.link h curtick due)
        (k.listAddTail p due, some (.advance h 0))
  | freed (h : HopPtr) {ret : ℤ} {hop : Hop} (hhop : k.tab.hops h = some hop)
      (hfree : hop.emulator ≠ 0 ∨ ret = enobufs) :
      SectionStep hz k p pkt s (.advance h ret) (k.consume p s [.kfreeSkb s, .kfree p], none)
  | moved (h : HopPtr) {ret : ℤ} {path : PathPtr} (hpath : pkt.path = some path)
      (hret : ret ≠ enobufs) :
      SectionStep hz k p pkt s (.advance h ret) (k.setPkt p (pkt.incr path), none)

theorem beginStep_of_beginNexthop {r : Kernel × Option Pc} (hp : Holding k p pkt s)
    (hhook : k.ipRcvFinishHook.isSome) (h : k.beginNexthop p = some r) :
    BeginStep k p pkt s r := by
  unfold beginNexthop at h
  rw [hp.read, Option.bind_some] at h
  obtain ⟨path, hpath, h⟩ := Option.bind_eq_some_iff.mp h
  obtain ⟨curhop, hread, h⟩ := Option.bind_eq_some_iff.mp h
  cases curhop with
  | none =>
    dsimp only at h
    rw [forwardPacket_mnFreePkt_eq hp hhook] at h
    cases h
    exact .forward hpath hread
  | some ptr =>
    obtain ⟨hop, hhop, h⟩ := Option.bind_eq_some_iff.mp h
    by_cases hemulator : hop.emulator ≠ 0
    · rw [if_pos hemulator, finishNexthop_eq hp hpath hhop, if_pos (Or.inl hemulator)] at h
      cases h
      exact .remote hpath hread
    · rw [if_neg hemulator] at h
      cases h
      exact .call hpath hread hhop (not_not.mp hemulator)

theorem sectionStep_of_callSection {pc : Pc} {r : Kernel × Option Pc} (hp : Holding k p pkt s)
    (h : k.callSection hz p pc = some r) : SectionStep hz k p pkt s pc r := by
  cases pc with
  | readTick ptr randomVal =>
    cases h
    exact .readTick ptr randomVal
  | cross ptr randomVal curtick =>
    obtain ⟨r', hsection, rfl⟩ := Option.map_eq_some_iff.mp h
    unfold hopSection at hsection
    rw [hp.read, Option.bind_some] at hsection
    obtain ⟨hop, hhop, hsection⟩ := Option.bind_eq_some_iff.mp hsection
    obtain ⟨⟨hop', out⟩, hemulate, rfl⟩ := Option.map_eq_some_iff.mp hsection
    cases out with
    | dropped plr bw => exact .dropped hhop hemulate
    | queued x due => exact .queued hhop hemulate
  | link ptr curtick due =>
    cases h
    exact .link ptr curtick due
  | advance ptr ret =>
    obtain ⟨k', hfinish, rfl⟩ := Option.map_eq_some_iff.mp h
    have hfinish' := hfinish
    unfold finishNexthop at hfinish'
    rw [hp.read, Option.bind_some] at hfinish'
    obtain ⟨path, hpath, hfinish'⟩ := Option.bind_eq_some_iff.mp hfinish'
    obtain ⟨hop, hhop, -⟩ := Option.bind_eq_some_iff.mp hfinish'
    rw [finishNexthop_eq hp hpath hhop] at hfinish
    split_ifs at hfinish with hfree
    · cases hfinish
      exact .freed ptr hhop hfree
    · cases hfinish
      exact .moved ptr hpath fun hret => hfree (Or.inr hret)

end Kernel

end Modelnet.Linux

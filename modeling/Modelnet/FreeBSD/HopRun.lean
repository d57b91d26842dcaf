import Modelnet.FreeBSD.EmulateHop
import Modelnet.Lib.Run

/-!
# Runs of a hop, FreeBSD module

What can happen to a hop while its table stays installed: packets cross it, and a write to
`hopmod` changes its parameters but not its ring.
-/

namespace Modelnet.FreeBSD

open Modelnet LinkQueue

def callStep (hz : ℕ) (hop : Hop) (c : Call) : Option Hop :=
  (emulateHop hz hop c.len c.tick c.randomVal).map Prod.fst

/-- A packet or a write to `hopmod`. -/
inductive Event where
  | packet (c : Call)
  | hopmod (r : SysctlHop)

def eventStep (hz : ℕ) (hop : Hop) : Event → Option Hop
  | .packet c => callStep hz hop c
  | .hopmod r => some (sysctlHopmod hz hop r)

/-- The ring keeps its packets when the parameters change. -/
theorem refines_sysctlHopmod {hop : Hop} {q : LinkQueue} (hz : ℕ) (r : SysctlHop)
    (h : hop.Refines q) : (sysctlHopmod hz hop r).Refines q :=
  ⟨h.allocated, h.slotdepth, h.bytedepth, h.ring, h.sorted⟩

end Modelnet.FreeBSD

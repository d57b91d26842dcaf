import Modelnet.Linux.Draining
import Modelnet.FreeBSD.Walking

/-!
# Draining a slot, FreeBSD module

`hopclock` takes the front packet off a slot until the slot is empty, and `emulate_nexthop` may
append it again. A packet that comes back has crossed a hop (`Moves`), so the variant of the Linux
module works here too: the hops that the packets of the slot have left, and one more for each
packet. The answers of the kernel, random values among them, are any sequence.

Both bits of `state` are set in a packet that `emulate_hop` has put on the calendar, because the
module is built with `UNIFIED_PKT_SCHEDULE`; the branch that waits for the delay of a hop after its
bandwidth is for packets with `Q_BW` alone.
-/

namespace Modelnet.FreeBSD

open Modelnet

namespace Core

variable {slot : ℕ} {c c' : Core} {env : Env} {p : Addr}

def pathAt (c : Core) (p : Addr) : Option PathPtr := (c.pkts p).bind Packet.path

def hopsLeft (c : Core) (p : Addr) : ℕ := ((c.pathAt p).map c.tab.hopsFrom).getD 0

/-- The hops that the packets of a slot have left, and one more for each packet. -/
def slotCalls (slot : ℕ) (c : Core) : ℕ :=
  Worklist.total (fun c => c.packetCalendar slot) hopsLeft c

theorem hopsLeft_of_none (h : c.pkts p = none) : c.hopsLeft p = 0 := by
  unfold hopsLeft pathAt
  rw [h]
  rfl

theorem hopsLeft_of_path {pkt : Packet} {path : PathPtr} (hpkt : c.pkts p = some pkt)
    (hpath : pkt.path = some path) : c.hopsLeft p = c.tab.hopsFrom path := by
  unfold hopsLeft pathAt
  rw [hpkt, Option.bind_some, hpath]
  rfl

/-- A packet that keeps its place has as many hops left as before, or is gone. -/
theorem hopsLeft_le_of_keepsPlace (h : KeepsPlace c.pkts c'.pkts p) (htab : SamePaths c.tab c'.tab) :
    c'.hopsLeft p ≤ c.hopsLeft p := by
  cases hpkt' : c'.pkts p with
  | none =>
    rw [hopsLeft_of_none hpkt']
    exact Nat.zero_le _
  | some pkt' =>
    obtain ⟨pkt, hpkt, hsame⟩ := h pkt' hpkt'
    unfold hopsLeft pathAt
    rw [hpkt, hpkt', Option.bind_some, Option.bind_some, hsame.path,
      PathTab.hopsFrom_congr htab.pathArrs]

theorem Moves.hopsLeft_lt (h : Moves c p c') {pkt : Packet} {path : PathPtr} {ptr : HopPtr}
    (hpkt : c.pkts p = some pkt) (hpath : pkt.path = some path)
    (hread : c.tab.readPath path = some (some ptr)) : c'.hopsLeft p < c.hopsLeft p := by
  rw [hopsLeft_of_path hpkt hpath, PathTab.hopsFrom_of_readPath hread]
  cases hpkt' : c'.pkts p with
  | none =>
    rw [hopsLeft_of_none hpkt']
    exact Nat.succ_pos _
  | some pkt' =>
    obtain ⟨pkt₁, path₁, ptr₁, hpkt₁, hpath₁, -, hahead⟩ := h.moved pkt' hpkt'
    cases hpkt.symm.trans hpkt₁
    cases hpath.symm.trans hpath₁
    rw [hopsLeft_of_path hpkt' hahead.path, PathTab.hopsFrom_congr h.tab.pathArrs]
    exact Nat.lt_succ_self _

theorem handled_of_moves {rest : List Addr} (hslot : c.packetCalendar slot = p :: rest)
    (h : Moves (c.calendarRemove slot rest) p c') :
    Worklist.Handled (fun c => c.packetCalendar slot) hopsLeft c p c' := by
  have hself : (c.calendarRemove slot rest).packetCalendar slot = (c.packetCalendar slot).erase p := by
    rw [hslot, List.erase_cons_head]
    exact Function.update_self _ _ _
  refine ⟨fun q hq => hopsLeft_le_of_keepsPlace (h.others q hq) h.tab, ?_, ?_⟩
  · cases hpkt' : c'.pkts p with
    | none =>
      rw [hopsLeft_of_none hpkt']
      exact Nat.zero_le _
    | some pkt' =>
      obtain ⟨pkt, path, ptr, hpkt, hpath, hread, -⟩ := h.moved pkt' hpkt'
      exact (h.hopsLeft_lt hpkt hpath hread).le
  · rcases h.calendar with hcal | ⟨⟨due, hdue⟩, pkt, path, ptr, hpkt, hpath, hread⟩
    · exact Or.inl ((congrFun hcal slot).trans hself)
    · by_cases heq : slot = calendarSlot due
      · refine Or.inr ⟨?_, h.hopsLeft_lt hpkt hpath hread⟩
        rw [hdue, ← hself, heq]
        exact Function.update_self _ _ _
      · left
        rw [hdue, ← hself]
        exact Function.update_of_ne heq _ _

/-! ## The loop -/

/-- A turn of the loop over a slot of the packet calendar. -/
def drainTurn (slot : ℕ) (s : Core × (ℕ → Env)) : Loop.Turn (Core × (ℕ → Env)) :=
  match s.1.packetCalendar slot with
  | [] => .finished
  | p :: rest =>
    match (s.1.calendarRemove slot rest).emulateNexthop (s.2 0) p with
    | .error _ => .fault
    | .ok r => .next (r.1, fun n => s.2 (n + 1))

/-- The loop over a slot, with at most `calls` calls of `emulate_nexthop`. -/
def drain (slot calls : ℕ) (envs : ℕ → Env) (c : Core) : Loop.Ending (Core × (ℕ → Env)) :=
  Loop.run (drainTurn slot) calls (c, envs)

/-- What a turn does: nothing is left, or one call is made for the packet in front. -/
theorem drainTurn_cases (slot : ℕ) (s : Core × (ℕ → Env)) :
    (s.1.packetCalendar slot = [] ∧ drainTurn slot s = .finished) ∨
      ∃ p rest, s.1.packetCalendar slot = p :: rest ∧
        (drainTurn slot s = .fault ∨
          ∃ r, (s.1.calendarRemove slot rest).emulateNexthop (s.2 0) p = .ok r ∧
            drainTurn slot s = .next (r.1, fun n => s.2 (n + 1))) := by
  unfold drainTurn
  cases hslot : s.1.packetCalendar slot with
  | nil => exact Or.inl ⟨rfl, rfl⟩
  | cons p rest =>
    refine Or.inr ⟨p, rest, rfl, ?_⟩
    dsimp only
    cases hcall : (s.1.calendarRemove slot rest).emulateNexthop (s.2 0) p with
    | error f => exact Or.inl rfl
    | ok r => exact Or.inr ⟨r, rfl, rfl⟩

/-- The calls that the packets of the slot may still need are a variant of the loop. -/
theorem drainTurn_variant (slot : ℕ) :
    Loop.Variant (drainTurn slot) (fun _ => True) fun s => s.1.slotCalls slot where
  pos s _ hturn := by
    refine Worklist.total_pos fun hnil => hturn ?_
    rcases drainTurn_cases slot s with ⟨-, h⟩ | ⟨p, rest, hslot, -⟩
    · exact h
    · exact absurd (hslot.symm.trans hnil) (List.cons_ne_nil p rest)
  next s s' _ hturn := by
    rcases drainTurn_cases slot s with ⟨-, h⟩ | ⟨p, rest, hslot, h | ⟨r, hcall, h⟩⟩
    · cases h.symm.trans hturn
    · cases h.symm.trans hturn
    · cases h.symm.trans hturn
      have hmoves := (emulateNexthop_moves _ (s.2 0) p).of_ok hcall
      refine ⟨trivial, (handled_of_moves hslot hmoves).total_lt ?_⟩
      rw [hslot]
      exact List.mem_cons_self

/-- **The loop ends**: the calls that the packets of the slot may need are enough. -/
theorem drain_ne_exhausted (slot : ℕ) (envs : ℕ → Env) (c : Core) :
    drain slot (c.slotCalls slot) envs c ≠ .exhausted :=
  (drainTurn_variant slot).run_ne_exhausted trivial (Nat.le_refl _)

theorem packetCalendar_of_drain {calls : ℕ} {envs : ℕ → Env} {s : Core × (ℕ → Env)}
    (h : drain slot calls envs c = .finished s) : s.1.packetCalendar slot = [] := by
  have hdone := Loop.turn_of_run_finished h
  rcases drainTurn_cases slot s with ⟨hnil, -⟩ | ⟨p, rest, -, h | ⟨r, -, h⟩⟩
  · exact hnil
  · cases h.symm.trans hdone
  · cases h.symm.trans hdone

/-- A turn of the loop is the event of the core in which `hopclock` takes a packet off the slot. -/
theorem drainTurn_eq_step {s : System} (hinput : s.input = none)
    (htick : s.core.calendarTick ≠ s.core.ticks) (hslot : s.slot ≠ []) (envs : ℕ → Env) :
    drainTurn (calendarSlot s.core.calendarTick) (s.core, envs) =
      match s.step (.hopclockPacket (envs 0)) with
      | .error _ => .fault
      | .ok r => .next (r.1.core, fun n => envs (n + 1)) := by
  obtain ⟨c, input⟩ := s
  cases hinput
  obtain ⟨p, rest, hcons⟩ := List.exists_cons_of_ne_nil hslot
  have hcons' : c.packetCalendar (calendarSlot c.calendarTick) = p :: rest := hcons
  unfold drainTurn
  dsimp only
  rw [hcons']
  show _ = match (match System.slot ⟨c, none⟩ with | [] => _ | p :: rest => _ :
    Except Fault (System × Act)) with | .error _ => _ | .ok r => _
  rw [hcons]
  dsimp only
  rw [if_pos htick]
  cases (c.calendarRemove (calendarSlot c.calendarTick) rest).emulateNexthop (envs 0) p with
  | error f => rfl
  | ok r => rfl

end Core

end Modelnet.FreeBSD

namespace Modelnet

/-- The nested loops over a slot of the Linux module end after the calls of `emulate_nexthop` that
its packets may need, with the slot empty unless a call faults; they do so with any bounds on the
turns that cover these calls. -/
structure Linux.Kernel.Drains (hz slot : ℕ) (k : Linux.Kernel) : Prop where
  ends : Linux.Kernel.drain hz slot (k.slotCalls slot) k ≠ .exhausted
  empty : ∀ s, Linux.Kernel.drain hz slot (k.slotCalls slot) k = .finished s →
    s.1.packetCalendar slot = []
  nested : ∀ n m, k.slotCalls slot ≤ n → k.slotCalls slot ≤ m →
    Linux.Kernel.drainSlot hz slot n m k =
      Linux.Kernel.endOf (Linux.Kernel.drain hz slot (k.slotCalls slot) k)

/-- The loop over a slot of the packet calendar of the FreeBSD module ends after the calls that its
packets may need, with the slot empty unless a call faults. -/
structure FreeBSD.Core.Drains (slot : ℕ) (envs : ℕ → FreeBSD.Env) (c : FreeBSD.Core) : Prop where
  ends : FreeBSD.Core.drain slot (c.slotCalls slot) envs c ≠ .exhausted
  empty : ∀ s, FreeBSD.Core.drain slot (c.slotCalls slot) envs c = .finished s →
    s.1.packetCalendar slot = []

/-- **Draining a slot** ends in both modules, whatever packets are on the calendar, whatever state
the hops are in, and whatever the random values are: the hops that the packets of the slot have
left, and one more for each packet, bound the calls of `emulate_nexthop`. -/
theorem draining_ends :
    (∀ (hz slot : ℕ) (k : Linux.Kernel), k.Drains hz slot) ∧
      ∀ (slot : ℕ) (envs : ℕ → FreeBSD.Env) (c : FreeBSD.Core), c.Drains slot envs :=
  ⟨fun hz slot k => ⟨Linux.Kernel.drain_ne_exhausted hz slot k,
    fun _ h => Linux.Kernel.packetCalendar_of_drain h,
    fun _ _ hn hm => Linux.Kernel.drainSlot_eq hz slot k hn hm⟩,
   fun slot envs c => ⟨FreeBSD.Core.drain_ne_exhausted slot envs c,
    fun _ h => FreeBSD.Core.packetCalendar_of_drain h⟩⟩

theorem Linux.Kernel.hopclockTick_eq (hz : ℕ) (k : Linux.Kernel) :
    k.hopclockTick hz =
      let slot := calendarSlot k.calendarTick
      (Linux.Kernel.endOf (Linux.Kernel.drain hz slot (k.slotCalls slot) k)).map fun k =>
        { k with calendarTick := k.calendarTick + 1 } := by
  unfold hopclockTick
  dsimp only
  rw [drainSlot_eq hz _ k (slotCalls_le_slotWeight k _) (slotCalls_le_slotWeight k _)]

end Modelnet

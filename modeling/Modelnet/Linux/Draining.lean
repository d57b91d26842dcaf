import Modelnet.PathWalk
import Modelnet.Linux.IpModelnet
import Modelnet.Lib.Worklist

/-!
# Draining a slot, Linux module

`hopclock` takes packets off a slot while `emulate_nexthop` may append them to the same slot again.
A packet that comes back has crossed a hop of its path, so the hops that the packets of the slot
have left, and one more for each packet, bound the calls of `emulate_nexthop`
(`drain_ne_exhausted`); nothing is assumed of the packets, the hops or the random values. The two
nested loops are one loop with a cursor, and any bounds that cover this number give the same
result (`drainSlot_eq`).
-/

namespace Modelnet.Linux

open Modelnet

namespace Kernel

variable {hz slot : ℕ} {k k' : Kernel} {p : PktId}

def pathAt (k : Kernel) (p : PktId) : Option PathPtr := (k.pkts p).bind Packet.path

def hopsLeft (k : Kernel) (p : PktId) : ℕ := ((k.pathAt p).map k.tab.hopsFrom).getD 0

/-- The hops that the packets of a slot have left, and one more for each packet. -/
def slotCalls (slot : ℕ) (k : Kernel) : ℕ :=
  Worklist.total (fun k => k.packetCalendar slot) hopsLeft k

/-! ## One call -/

/-- No path has changed, and no packet but `p`. -/
structure Touches (k : Kernel) (p : PktId) (k' : Kernel) : Prop where
  paths : k'.tab.pathArrs = k.tab.pathArrs
  others : ∀ q, q ≠ p → k'.pkts q = k.pkts q

theorem Touches.refl (k : Kernel) (p : PktId) : Touches k p k := ⟨rfl, fun _ _ => rfl⟩

theorem Touches.trans {k'' : Kernel} (h : Touches k p k') (h' : Touches k' p k'') :
    Touches k p k'' :=
  ⟨h'.paths.trans h.paths, fun q hq => (h'.others q hq).trans (h.others q hq)⟩

theorem Touches.hopsLeft_of_ne (h : Touches k p k') {q : PktId} (hq : q ≠ p) :
    k'.hopsLeft q = k.hopsLeft q := by
  unfold hopsLeft pathAt
  rw [h.others q hq, PathTab.hopsFrom_congr h.paths]

theorem touches_setPkt (k : Kernel) (p : PktId) (pkt : Packet) : Touches k p (k.setPkt p pkt) :=
  ⟨rfl, fun _ hq => Function.update_of_ne hq _ _⟩

theorem pathAt_setPkt (k : Kernel) (p : PktId) (pkt : Packet) :
    (k.setPkt p pkt).pathAt p = pkt.path := by
  have hself : (k.setPkt p pkt).pkts p = some pkt := Function.update_self _ _ _
  unfold pathAt
  rw [hself, Option.bind_some]

/-- `MN_FREE_PKT` leaves the calendar alone, and the packet is nowhere. -/
theorem mnFreePkt_touches (h : k.mnFreePkt p = some k') :
    Touches k p k' ∧ k'.packetCalendar = k.packetCalendar ∧ k'.pathAt p = none := by
  have hnone : ∀ k : Kernel, (k.kfreePkt p).pathAt p = none := by
    intro k
    have hself : (k.kfreePkt p).pkts p = none := Function.update_self _ _ _
    unfold pathAt
    rw [hself, Option.bind_none]
  unfold mnFreePkt at h
  obtain ⟨pkt, -, h⟩ := Option.bind_eq_some_iff.mp h
  split at h
  · cases h
    exact ⟨⟨rfl, fun _ hq => Function.update_of_ne hq _ _⟩, rfl, hnone _⟩
  · obtain ⟨k₁, hskb, rfl⟩ := Option.map_eq_some_iff.mp h
    obtain ⟨b, -, rfl⟩ := Option.map_eq_some_iff.mp hskb
    exact ⟨⟨rfl, fun _ hq => Function.update_of_ne hq _ _⟩, rfl, hnone _⟩

theorem forwardPacket_touches (h : k.forwardPacket p = some k') :
    Touches k p k' ∧ k'.packetCalendar = k.packetCalendar := by
  unfold forwardPacket at h
  obtain ⟨pkt, -, h⟩ := Option.bind_eq_some_iff.mp h
  split at h
  · cases h
    exact ⟨Touches.refl k p, rfl⟩
  · obtain ⟨b, -, h⟩ := Option.bind_eq_some_iff.mp h
    obtain ⟨f, -, rfl⟩ := Option.map_eq_some_iff.mp h
    exact ⟨⟨rfl, fun _ hq => Function.update_of_ne hq _ _⟩, rfl⟩

/-- `emulate_hop` leaves the packet at its place on the path, and may put it at the end of a slot. -/
theorem emulateHop_touches {h : HopPtr} {ret : ℤ} (he : k.emulateHop hz p h = some (k', ret)) :
    Touches k p k' ∧ k'.pathAt p = k.pathAt p ∧
      (k'.packetCalendar = k.packetCalendar ∨ ∃ due, k'.packetCalendar =
        (k.listAddTail p due).packetCalendar) := by
  unfold emulateHop at he
  obtain ⟨⟨k₁, out⟩, hsection, heq⟩ := Option.map_eq_some_iff.mp he
  unfold hopSection at hsection
  obtain ⟨pkt, hpkt, hsection⟩ := Option.bind_eq_some_iff.mp hsection
  obtain ⟨hop, -, hsection⟩ := Option.bind_eq_some_iff.mp hsection
  obtain ⟨⟨hop', out'⟩, -, hsection⟩ := Option.map_eq_some_iff.mp hsection
  have hself : k.pathAt p = pkt.path := by
    have hread : k.pkts p = some pkt := hpkt
    unfold pathAt
    rw [hread, Option.bind_some]
  cases out' with
  | dropped plr bw =>
    cases hsection
    cases heq
    exact ⟨⟨rfl, fun _ _ => rfl⟩, rfl, Or.inl rfl⟩
  | queued x due =>
    cases hsection
    cases heq
    refine ⟨⟨rfl, fun _ hq => Function.update_of_ne hq _ _⟩, ?_, Or.inr ⟨due, rfl⟩⟩
    rw [hself]
    exact pathAt_setPkt _ p _

theorem finishNexthop_touches {h : HopPtr} {ret : ℤ} (hf : k.finishNexthop p h ret = some k') :
    Touches k p k' ∧ k'.packetCalendar = k.packetCalendar ∧ (k'.pathAt p = none ∨
      ∃ path, k.pathAt p = some path ∧ k'.pathAt p = some ⟨path.arr, path.off + 1⟩) := by
  unfold finishNexthop at hf
  obtain ⟨pkt, hpkt, hf⟩ := Option.bind_eq_some_iff.mp hf
  obtain ⟨path, hpath, hf⟩ := Option.bind_eq_some_iff.mp hf
  obtain ⟨hop, -, hf⟩ := Option.bind_eq_some_iff.mp hf
  have hold : k.pathAt p = some path := by
    unfold pathAt
    rw [hpkt, Option.bind_some, hpath]
  have hfreed : (k.setPkt p (pkt.incr path)).mnFreePkt p = some k' →
      Touches k p k' ∧ k'.packetCalendar = k.packetCalendar ∧ k'.pathAt p = none := by
    intro hfree
    obtain ⟨htouch, hcal, hnone⟩ := mnFreePkt_touches hfree
    exact ⟨(touches_setPkt k p _).trans htouch, hcal, hnone⟩
  dsimp only at hf
  split_ifs at hf
  · obtain ⟨htouch, hcal, hnone⟩ := hfreed hf
    exact ⟨htouch, hcal, Or.inl hnone⟩
  · obtain ⟨htouch, hcal, hnone⟩ := hfreed hf
    exact ⟨htouch, hcal, Or.inl hnone⟩
  · cases hf
    exact ⟨touches_setPkt k p _, rfl, Or.inr ⟨path, hold, pathAt_setPkt k p _⟩⟩

theorem hopsLeft_eq_zero (h : k.pathAt p = none) : k.hopsLeft p = 0 := by
  unfold hopsLeft
  rw [h]
  rfl

theorem hopsLeft_of_pathAt {path : PathPtr} (h : k.pathAt p = some path) :
    k.hopsLeft p = k.tab.hopsFrom path := by
  unfold hopsLeft
  rw [h]
  rfl

/-- **One call** of `emulate_nexthop`: the packet has no more hops left than before, and less when
it is on the calendar again. -/
theorem emulateNexthop_touches (h : k.emulateNexthop hz p = some k') :
    Touches k p k' ∧ k'.hopsLeft p ≤ k.hopsLeft p ∧
      (k'.packetCalendar = k.packetCalendar ∨
        (∃ due, k'.packetCalendar = (k.listAddTail p due).packetCalendar) ∧
          k'.hopsLeft p < k.hopsLeft p) := by
  unfold emulateNexthop at h
  obtain ⟨pkt, hpkt, h⟩ := Option.bind_eq_some_iff.mp h
  obtain ⟨path, hpath, h⟩ := Option.bind_eq_some_iff.mp h
  obtain ⟨curhop, hread, h⟩ := Option.bind_eq_some_iff.mp h
  have hold : k.pathAt p = some path := by
    unfold pathAt
    rw [hpkt, Option.bind_some, hpath]
  cases curhop with
  | none =>
    obtain ⟨k₁, hforward, hfree⟩ := Option.bind_eq_some_iff.mp h
    obtain ⟨htouch, hcal⟩ := forwardPacket_touches hforward
    obtain ⟨htouch', hcal', hnone⟩ := mnFreePkt_touches hfree
    refine ⟨htouch.trans htouch', ?_, Or.inl (hcal'.trans hcal)⟩
    rw [hopsLeft_eq_zero hnone]
    exact Nat.zero_le _
  | some ptr =>
    obtain ⟨hop, -, h⟩ := Option.bind_eq_some_iff.mp h
    obtain ⟨⟨k₁, ret⟩, hcross, hfinish⟩ := Option.bind_eq_some_iff.mp h
    -- neither `remote_hop` nor `emulate_hop` moves the packet along its path
    have hmid : Touches k p k₁ ∧ k₁.pathAt p = k.pathAt p ∧
        (k₁.packetCalendar = k.packetCalendar ∨ ∃ due, k₁.packetCalendar =
          (k.listAddTail p due).packetCalendar) := by
      split_ifs at hcross
      · cases hcross
        exact ⟨Touches.refl k p, rfl, Or.inl rfl⟩
      · exact emulateHop_touches hcross
    obtain ⟨htouch, hat, hcal⟩ := hmid
    obtain ⟨htouch', hcal', hend⟩ := finishNexthop_touches hfinish
    have hall := htouch.trans htouch'
    have hlt : k'.hopsLeft p < k.hopsLeft p := by
      rw [hopsLeft_of_pathAt hold, PathTab.hopsFrom_of_readPath hread]
      rcases hend with hnone | ⟨path', hpath', hnext⟩
      · rw [hopsLeft_eq_zero hnone]
        exact Nat.succ_pos _
      · rw [hat, hold] at hpath'
        cases hpath'
        rw [hopsLeft_of_pathAt hnext, PathTab.hopsFrom_congr hall.paths]
        exact Nat.lt_succ_self _
    refine ⟨hall, hlt.le, hcal.imp (hcal'.trans ·) fun ⟨due, hdue⟩ => ⟨⟨due, ?_⟩, hlt⟩⟩
    exact hcal'.trans hdue

theorem handled_of_emulateNexthop (h : (k.listDel slot p).emulateNexthop hz p = some k') :
    Worklist.Handled (fun k => k.packetCalendar slot) hopsLeft k p k' := by
  obtain ⟨htouch, hle, hcal⟩ := emulateNexthop_touches h
  have hself : (k.listDel slot p).packetCalendar slot = (k.packetCalendar slot).erase p :=
    Function.update_self _ _ _
  refine ⟨fun q hq => (htouch.hopsLeft_of_ne hq).le, hle, ?_⟩
  rcases hcal with hcal | ⟨⟨due, hdue⟩, hlt⟩
  · exact Or.inl ((congrFun hcal slot).trans hself)
  · by_cases hslot : slot = calendarSlot due
    · refine Or.inr ⟨?_, hlt⟩
      rw [hdue, ← hself, hslot]
      exact Function.update_self _ _ _
    · left
      rw [hdue, ← hself]
      exact Function.update_of_ne hslot _ _

/-! ## The loops -/

/-- A turn of the loops over a slot. The cursor is the packet that `list_for_each_safe` is at; at
its end (`none`) the outer loop looks at the front of the slot. -/
def drainTurn (hz slot : ℕ) (s : Kernel × Option PktId) : Loop.Turn (Kernel × Option PktId) :=
  match s.2.or (s.1.packetCalendar slot).head? with
  | none => .finished
  | some pos =>
    match (s.1.listDel slot pos).emulateNexthop hz pos with
    | none => .fault
    | some k => .next (k, nextOf (s.1.packetCalendar slot) pos)

/-- The loops over a slot, with at most `calls` calls of `emulate_nexthop`. -/
def drain (hz slot calls : ℕ) (k : Kernel) : Loop.Ending (Kernel × Option PktId) :=
  Loop.run (drainTurn hz slot) calls (k, none)

section Turns

variable {s s' : Kernel × Option PktId} {pos : PktId}

/-- The loops are over at the end of the list when the slot is empty. -/
theorem drainTurn_eq_finished :
    drainTurn hz slot s = .finished ↔ s.2.or (s.1.packetCalendar slot).head? = none := by
  unfold drainTurn
  constructor
  · intro h
    cases hpos : s.2.or (s.1.packetCalendar slot).head? with
    | none => rfl
    | some pos =>
      rw [hpos] at h
      dsimp only at h
      cases hcall : (s.1.listDel slot pos).emulateNexthop hz pos with
      | none =>
        rw [hcall] at h
        cases h
      | some k =>
        rw [hcall] at h
        cases h
  · intro h
    rw [h]

theorem drainTurn_of_call (hpos : s.2.or (s.1.packetCalendar slot).head? = some pos) {k : Kernel}
    (hcall : (s.1.listDel slot pos).emulateNexthop hz pos = some k) :
    drainTurn hz slot s = .next (k, nextOf (s.1.packetCalendar slot) pos) := by
  unfold drainTurn
  rw [hpos]
  dsimp only
  rw [hcall]

theorem drainTurn_of_fault (hpos : s.2.or (s.1.packetCalendar slot).head? = some pos)
    (hcall : (s.1.listDel slot pos).emulateNexthop hz pos = none) :
    drainTurn hz slot s = .fault := by
  unfold drainTurn
  rw [hpos]
  dsimp only
  rw [hcall]

theorem drainTurn_eq_next (h : drainTurn hz slot s = .next s') :
    ∃ pos k, s.2.or (s.1.packetCalendar slot).head? = some pos ∧
      (s.1.listDel slot pos).emulateNexthop hz pos = some k ∧
      s' = (k, nextOf (s.1.packetCalendar slot) pos) := by
  cases hpos : s.2.or (s.1.packetCalendar slot).head? with
  | none =>
    rw [drainTurn_eq_finished.mpr hpos] at h
    cases h
  | some pos =>
    cases hcall : (s.1.listDel slot pos).emulateNexthop hz pos with
    | none =>
      rw [drainTurn_of_fault hpos hcall] at h
      cases h
    | some k =>
      rw [drainTurn_of_call hpos hcall] at h
      cases h
      exact ⟨pos, k, rfl, hcall, rfl⟩

end Turns

/-- The cursor is at a packet of the slot. -/
def OnList (slot : ℕ) (s : Kernel × Option PktId) : Prop :=
  ∀ pos, s.2 = some pos → pos ∈ s.1.packetCalendar slot

theorem mem_of_cursor {s : Kernel × Option PktId} {pos : PktId} (hs : OnList slot s)
    (hpos : s.2.or (s.1.packetCalendar slot).head? = some pos) :
    pos ∈ s.1.packetCalendar slot := by
  obtain ⟨k, cursor⟩ := s
  cases cursor with
  | none => exact List.mem_of_mem_head? hpos
  | some q =>
    cases hpos
    exact hs _ rfl

theorem nextOf_mem_erase {l : List PktId} {pos q : PktId} (hq : nextOf l pos = some q) :
    q ∈ l.erase pos := by
  unfold nextOf at hq
  have hmem := List.mem_of_mem_head? hq
  induction l with
  | nil => cases hmem
  | cons a l ih =>
    by_cases ha : a = pos
    · subst ha
      rw [List.dropWhile_cons_of_neg (by simp), List.tail_cons] at hmem
      rwa [List.erase_cons_head]
    · rw [List.dropWhile_cons_of_pos (by simpa using ha)] at hq hmem
      rw [List.erase_cons_tail (by simpa using ha)]
      exact List.mem_cons_of_mem a (ih hq hmem)

/-- The calls that the packets of the slot may still need are a variant of the loops. -/
theorem drainTurn_variant (hz slot : ℕ) :
    Loop.Variant (drainTurn hz slot) (OnList slot) fun s => s.1.slotCalls slot where
  pos s hs hturn := by
    refine Worklist.total_pos fun hnil => hturn (drainTurn_eq_finished.mpr ?_)
    by_contra hne
    obtain ⟨pos, hpos⟩ := Option.ne_none_iff_exists'.mp hne
    have hmem := mem_of_cursor hs hpos
    have hnil' : s.1.packetCalendar slot = [] := hnil
    rw [hnil'] at hmem
    cases hmem
  next s s' hs hturn := by
    obtain ⟨pos, k, hpos, hcall, rfl⟩ := drainTurn_eq_next hturn
    have hhandled := handled_of_emulateNexthop hcall
    exact ⟨fun q hq => hhandled.mem_of_mem_erase (nextOf_mem_erase hq),
      hhandled.total_lt (mem_of_cursor hs hpos)⟩

theorem onList_none (slot : ℕ) (k : Kernel) : OnList slot (k, none) := fun _ hq => by cases hq

/-- **The loops end**: the calls that the packets of the slot may need are enough. -/
theorem drain_ne_exhausted (hz slot : ℕ) (k : Kernel) :
    drain hz slot (k.slotCalls slot) k ≠ .exhausted :=
  (drainTurn_variant hz slot).run_ne_exhausted (onList_none slot k) (Nat.le_refl _)

theorem packetCalendar_of_drain {calls : ℕ} {s : Kernel × Option PktId}
    (h : drain hz slot calls k = .finished s) : s.1.packetCalendar slot = [] := by
  have hpos := drainTurn_eq_finished.mp (Loop.turn_of_run_finished h)
  have hhead := (Option.or_eq_none_iff.mp hpos).2
  exact List.head?_eq_none_iff.mp hhead

/-! ## The loops with bounds -/

/-- The kernel at the end of the loops, unless a call faults. -/
def endOf : Loop.Ending (Kernel × Option PktId) → Option Kernel
  | .finished s => some s.1
  | _ => none

theorem emulateNexthop_bind {w : ℕ} {k : Kernel} {pos : PktId} {cursor : Option PktId}
    (F : Kernel → Option Kernel) (hmem : pos ∈ k.packetCalendar slot)
    (hw : k.slotCalls slot ≤ w + 1) (hcursor : cursor.or (k.packetCalendar slot).head? = some pos)
    (hF : ∀ k', k'.slotCalls slot ≤ w → OnList slot (k', nextOf (k.packetCalendar slot) pos) →
      F k' = endOf (Loop.run (drainTurn hz slot) w (k', nextOf (k.packetCalendar slot) pos))) :
    ((k.listDel slot pos).emulateNexthop hz pos).bind F =
      endOf (Loop.run (drainTurn hz slot) (w + 1) (k, cursor)) := by
  cases hcall : (k.listDel slot pos).emulateNexthop hz pos with
  | none =>
    rw [Loop.run_of_fault (drainTurn_of_fault hcursor hcall)]
    rfl
  | some k' =>
    have hhandled := handled_of_emulateNexthop hcall
    have hlt : k'.slotCalls slot < k.slotCalls slot := hhandled.total_lt hmem
    rw [Loop.run_of_next (drainTurn_of_call hcursor hcall), Option.bind_some]
    exact hF k' (by omega) fun q hq => hhandled.mem_of_mem_erase (nextOf_mem_erase hq)

/-- The inner loop from a cursor on, and the outer loop after it. -/
theorem listForEachSafe_bind (hz slot : ℕ) {w : ℕ} {k : Kernel} {pos : Option PktId} {n' n m : ℕ}
    (hw : k.slotCalls slot ≤ w) (hpos : OnList slot (k, pos)) (hn' : w ≤ n') (hn : w ≤ n)
    (hm : w ≤ m) :
    ((listForEachSafe hz slot n' k pos).bind fun k => drainSlot hz slot n m k) =
      endOf (Loop.run (drainTurn hz slot) w (k, pos)) := by
  induction w generalizing k pos n' m with
  | zero =>
    have hnil : k.packetCalendar slot = [] := by
      by_contra hne
      have hpos' : 0 < k.slotCalls slot := Worklist.total_pos hne
      omega
    have hnone : pos = none := by
      by_contra hne
      obtain ⟨q, rfl⟩ := Option.ne_none_iff_exists'.mp hne
      have hmem := hpos q rfl
      rw [hnil] at hmem
      cases hmem
    subst hnone
    have hturn : drainTurn hz slot (k, none) = .finished :=
      drainTurn_eq_finished.mpr (List.head?_eq_none_iff.mpr hnil)
    rw [Loop.run_of_finished hturn]
    have hfor : listForEachSafe hz slot n' k none = some k := by cases n' <;> rfl
    rw [hfor, Option.bind_some]
    cases m with
    | zero => rfl
    | succ m =>
      rw [drainSlot, hnil]
      rfl
  | succ w ih =>
    obtain ⟨n', rfl⟩ : ∃ i, n' = i + 1 := ⟨n' - 1, by omega⟩
    cases pos with
    | some q =>
      rw [listForEachSafe, Option.bind_assoc]
      exact emulateNexthop_bind _ (hpos q rfl) hw rfl
        fun k' hk' hon => ih hk' hon (by omega) (by omega) (by omega)
    | none =>
      obtain ⟨m, rfl⟩ : ∃ i, m = i + 1 := ⟨m - 1, by omega⟩
      rw [listForEachSafe, Option.bind_some, drainSlot]
      cases hhead : (k.packetCalendar slot).head? with
      | none =>
        have hturn : drainTurn hz slot (k, none) = .finished := drainTurn_eq_finished.mpr hhead
        rw [Loop.run_of_finished hturn]
        rfl
      | some q =>
        obtain ⟨n, rfl⟩ : ∃ i, n = i + 1 := ⟨n - 1, by omega⟩
        dsimp only
        rw [listForEachSafe, Option.bind_assoc]
        exact emulateNexthop_bind _ (List.mem_of_mem_head? hhead) hw hhead
          fun k' hk' hon => ih hk' hon (by omega) (by omega) (by omega)

/-- **The nested loops** with any bounds that cover the calls are the loop with the cursor. -/
theorem drainSlot_eq (hz slot : ℕ) (k : Kernel) {n m : ℕ} (hn : k.slotCalls slot ≤ n)
    (hm : k.slotCalls slot ≤ m) :
    drainSlot hz slot n m k = endOf (drain hz slot (k.slotCalls slot) k) := by
  have hloop := listForEachSafe_bind hz slot (Nat.le_refl (k.slotCalls slot)) (onList_none slot k)
    hn hn hm
  have hfor : listForEachSafe hz slot n k none = some k := by cases n <;> rfl
  rwa [hfor, Option.bind_some] at hloop

/-- The bound that a tick of `hopclock` takes covers the calls. -/
theorem slotCalls_le_slotWeight (k : Kernel) (slot : ℕ) : k.slotCalls slot ≤ k.slotWeight slot := by
  refine List.sum_le_sum fun p _ => Nat.succ_le_succ ?_
  unfold hopsLeft pathAt remaining
  cases k.pkts p with
  | none => exact Nat.le_refl _
  | some pkt =>
    rw [Option.bind_some, Option.bind_some]
    cases pkt.path with
    | none => exact Nat.le_refl _
    | some path =>
      rw [Option.map_some, Option.bind_some, Option.getD_some]
      cases hcells : k.tab.pathArrs path.arr with
      | none =>
        unfold PathTab.hopsFrom
        rw [hcells]
        exact Nat.le_refl _
      | some cells => exact PathTab.hopsFrom_le hcells

end Kernel

end Modelnet.Linux

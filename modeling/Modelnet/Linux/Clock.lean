import Modelnet.Linux.Owned
import Modelnet.Lib.Run

/-!
# The loops of `hopclock`

Every turn of the loops takes the front of the served slot off the calendar and calls
`emulate_nexthop` for it; the outer loop moves to the next tick when the slot is empty. So a run
of the clock preserves whatever these two steps preserve (`hopclock_rule`). A packet that returns
to the slot has fewer positions of its path left, and so the bound on the turns is never reached.
-/

namespace Modelnet.Linux

open Modelnet

namespace Kernel

variable {hz : ℕ} {k k' : Kernel} {p : PktId} {pkt : Packet} {s : SkbId}

/-! ## What is left to do -/

theorem remaining_eq {path : PathPtr} {cells : List (Option HopPtr)} (hp : k.pkts p = some pkt)
    (hpath : pkt.path = some path) (hcells : k.tab.pathArrs path.arr = some cells) :
    k.remaining p = cells.length - path.off := by
  unfold remaining
  rw [hp, Option.bind_some, hpath, Option.bind_some, hcells]
  rfl

theorem NextHop.calendarTick (h : NextHop hz k p pkt s k') : k'.calendarTick = k.calendarTick := by
  cases h <;> rfl

theorem NextHop.remaining_of_ne (h : NextHop hz k p pkt s k') {q : PktId} (hq : q ≠ p) :
    k'.remaining q = k.remaining q := by
  unfold remaining
  cases h with
  | forward | remote | dropped =>
    show ((Function.update k.pkts p none q).bind _).getD 0 = _
    rw [Function.update_of_ne hq]
    rfl
  | queued =>
    show ((Function.update k.pkts p _ q).bind _).getD 0 = _
    rw [Function.update_of_ne hq]
    rfl

/-- The packet that waits again has one position less to go. -/
theorem remaining_queued (hp : k.pkts p = some pkt) {path : PathPtr} {ptr : HopPtr}
    (hpath : pkt.path = some path) (hread : k.tab.readPath path = some (some ptr)) (hop' : Hop)
    (due : ℤ) :
    (((k.crossHop p ptr hop').setPkt p (pkt.advance path)).listAddTail p due).remaining p + 1 =
      k.remaining p := by
  obtain ⟨cells, hcells, hget⟩ := Option.bind_eq_some_iff.mp hread
  have hlt : path.off < cells.length := (List.getElem?_eq_some_iff.mp hget).1
  have hself : (((k.crossHop p ptr hop').setPkt p (pkt.advance path)).listAddTail p due).pkts p =
      some (pkt.advance path) := Function.update_self _ _ _
  have hadvance : (pkt.advance path).path = some ⟨path.arr, path.off + 1⟩ := rfl
  rw [remaining_eq hself hadvance hcells, remaining_eq hp hpath hcells]
  dsimp only
  omega

/-- A slot stays, or gets the packet back with one position less to go. -/
theorem NextHop.slot (h : NextHop hz k p pkt s k') (hp : k.pkts p = some pkt) (slot : ℕ) :
    k'.packetCalendar slot = k.packetCalendar slot ∨
      k'.packetCalendar slot = k.packetCalendar slot ++ [p] ∧
        k'.remaining p + 1 = k.remaining p := by
  cases h with
  | forward | remote | dropped => exact Or.inl rfl
  | @queued path ptr hop hop' x due hpath hread =>
    by_cases hslot : slot = calendarSlot due
    · refine Or.inr ⟨?_, remaining_queued hp hpath hread hop' due⟩
      subst hslot
      exact Function.update_self _ _ _
    · exact Or.inl (Function.update_of_ne hslot _ _)

theorem NextHop.calendar (h : NextHop hz k p pkt s k') (hp : k.pkts p = some pkt) :
    k'.calendar = k.calendar ∨
      k'.calendar.Perm (p :: k.calendar) ∧ k'.remaining p + 1 = k.remaining p := by
  cases h with
  | forward | remote | dropped => exact Or.inl rfl
  | @queued path ptr hop hop' x due hpath hread =>
    exact Or.inr ⟨calendar_listAddTail _ p due, remaining_queued hp hpath hread hop' due⟩

theorem slotWeight_nextHop {l : List PktId} (hslot : k.packetCalendar k.curSlot = p :: l)
    (hp : k.pkts p = some pkt) (hl : p ∉ l)
    (h : NextHop hz (k.listDel k.curSlot p) p pkt s k') :
    k'.slotWeight k.curSlot + 1 ≤ k.slotWeight k.curSlot := by
  have hdel : (k.listDel k.curSlot p).packetCalendar k.curSlot = l := by
    rw [packetCalendar_listDel hslot, Function.update_self]
  have hrest : (l.map fun q => k'.remaining q + 1) = l.map fun q => k.remaining q + 1 :=
    List.map_congr_left fun q hq => by
      rw [h.remaining_of_ne fun he => hl (he ▸ hq)]
      rfl
  unfold slotWeight
  rcases h.slot hp k.curSlot with heq | ⟨heq, hrem⟩
  · rw [heq, hdel, hrest, hslot, List.map_cons, List.sum_cons]
    omega
  · have hrem' : k'.remaining p + 1 = k.remaining p := hrem
    rw [heq, hdel, List.map_append, hrest, hslot, List.map_cons, List.sum_append, List.sum_cons]
    simp only [List.map_cons, List.map_nil, List.sum_cons, List.sum_nil]
    omega

theorem slotWeight_eq_zero {slot : ℕ} (h : k.slotWeight slot = 0) :
    k.packetCalendar slot = [] := by
  unfold slotWeight at h
  cases hl : k.packetCalendar slot with
  | nil => rfl
  | cons p l =>
    rw [hl, List.map_cons, List.sum_cons] at h
    omega

theorem nextOf_cons (p : PktId) (l : List PktId) : nextOf (p :: l) p = l.head? := by
  simp [nextOf]

/-! ## The loops -/

/-- The steps of a clock run that a rule asks about. -/
structure ClockRule (hz : ℕ) (I : Kernel → Prop) : Prop where
  owned : ∀ {k}, I k → Owned k none
  drain : ∀ {k p l pkt s k'}, I k → k.packetCalendar k.curSlot = p :: l →
    Holding (k.listDel k.curSlot p) p pkt s → NextHop hz (k.listDel k.curSlot p) p pkt s k' →
    (k.listDel k.curSlot p).emulateNexthop hz p = some k' → I k'
  tick : ∀ {k}, I k → k.packetCalendar k.curSlot = [] →
    I { k with calendarTick := k.calendarTick + 1 }

/-- The calls of `emulate_nexthop` complete. -/
def Completes (hz : ℕ) (I : Kernel → Prop) : Prop :=
  ∀ {k p l}, I k → k.packetCalendar k.curSlot = p :: l →
    ((k.listDel k.curSlot p).emulateNexthop hz p).isSome

variable {I J : Kernel → Prop}

theorem ClockRule.and (hI : ClockRule hz I) (hJ : ClockRule hz J) :
    ClockRule hz fun k => I k ∧ J k where
  owned h := hI.owned h.1
  drain h hslot hp hnext hemulate :=
    ⟨hI.drain h.1 hslot hp hnext hemulate, hJ.drain h.2 hslot hp hnext hemulate⟩
  tick h hslot := ⟨hI.tick h.1 hslot, hJ.tick h.2 hslot⟩

theorem ClockRule.turn (hI : ClockRule hz I) (hk : I k) {l : List PktId}
    (hslot : k.packetCalendar k.curSlot = p :: l)
    (h : (k.listDel k.curSlot p).emulateNexthop hz p = some k') :
    I k' ∧ k'.calendarTick = k.calendarTick ∧
      (∀ q, l.head? = some q → (k'.packetCalendar k.curSlot).head? = some q) ∧
      k'.slotWeight k.curSlot + 1 ≤ k.slotWeight k.curSlot := by
  have hown := hI.owned hk
  have hcal := calendar_listDel hslot
  obtain ⟨pkt, s, hp⟩ := hown.holding_of_mem (p := p) (by rw [hcal]; exact List.mem_cons_self)
  have hp' : Holding (k.listDel k.curSlot p) p pkt s := hp.of_eq rfl rfl
  have hnext := nextHop_of_emulateNexthop hp' (hown.hook p (by rw [hp.read]; rfl)) h
  have hdel : (k.listDel k.curSlot p).packetCalendar k.curSlot = l := by
    rw [packetCalendar_listDel hslot, Function.update_self]
  have hl : p ∉ l := by
    intro hm
    refine (hown.listDel hslot).hand_not_mem p rfl (List.mem_map.mpr ⟨(↑k.calendarTick, p), ?_, rfl⟩)
    refine TimingWheel.mem_agenda.mpr ⟨TimingWheel.inWindow_now schedLen_pos _, ?_⟩
    exact hdel.symm ▸ hm
  refine ⟨hI.drain hk hslot hp' hnext h, hnext.calendarTick, fun q hq => ?_,
    slotWeight_nextHop hslot hp.read hl hnext⟩
  rcases hnext.slot hp'.read k.curSlot with heq | ⟨heq, -⟩
  · rw [heq, hdel, hq]
  · rw [heq, hdel, List.head?_append, hq]
    rfl

/-- The inner loop, from the front of the slot or from the end of the list. -/
theorem ClockRule.listForEachSafe (hI : ClockRule hz I) {slot n : ℕ} (pos : Option PktId)
    (hk : I k) (hcur : k.curSlot = slot)
    (hpos : ∀ q, pos = some q → (k.packetCalendar slot).head? = some q)
    (hn : k.slotWeight slot ≤ n) :
    (∀ k', Kernel.listForEachSafe hz slot n k pos = some k' →
      I k' ∧ k'.calendarTick = k.calendarTick ∧
        k'.slotWeight slot + (if pos.isSome then 1 else 0) ≤ k.slotWeight slot) ∧
    (Completes hz I → (Kernel.listForEachSafe hz slot n k pos).isSome) := by
  induction n generalizing k pos with
  | zero =>
    refine ⟨fun k' h => ?_, fun _ => rfl⟩
    cases h
    refine ⟨hk, rfl, ?_⟩
    cases pos with
    | none => exact Nat.le_refl _
    | some q =>
      have hempty := hpos q rfl
      rw [slotWeight_eq_zero (Nat.le_zero.mp hn)] at hempty
      cases hempty
  | succ n ih =>
    cases pos with
    | none =>
      refine ⟨fun k' h => ?_, fun _ => rfl⟩
      cases h
      exact ⟨hk, rfl, Nat.le_refl _⟩
    | some p =>
      obtain ⟨l, hslot⟩ := List.head?_eq_some_iff.mp (hpos p rfl)
      have hslot' : k.packetCalendar k.curSlot = p :: l := hcur ▸ hslot
      have hnext : ∀ k₁, (k.listDel slot p).emulateNexthop hz p = some k₁ →
          I k₁ ∧ k₁.calendarTick = k.calendarTick ∧ k₁.slotWeight slot + 1 ≤ k.slotWeight slot ∧
          k₁.curSlot = slot ∧ ∀ q, l.head? = some q → (k₁.packetCalendar slot).head? = some q := by
        intro k₁ h₁
        obtain ⟨hI₁, htick, hhead, hlt⟩ := hI.turn hk hslot' (by rw [hcur]; exact h₁)
        rw [hcur] at hhead hlt
        refine ⟨hI₁, htick, hlt, ?_, hhead⟩
        rw [← hcur]
        unfold curSlot
        rw [htick]
      unfold Kernel.listForEachSafe
      rw [hslot, nextOf_cons]
      constructor
      · intro k' h
        obtain ⟨k₁, h₁, h⟩ := Option.bind_eq_some_iff.mp h
        obtain ⟨hI₁, htick, hlt, hcur₁, hhead⟩ := hnext k₁ h₁
        obtain ⟨hI', htick', hle⟩ := (ih _ hI₁ hcur₁ hhead (by omega)).1 k' h
        exact ⟨hI', htick'.trans htick, by simp only [Option.isSome_some, if_true]; omega⟩
      · intro hcomplete
        have hsome := hcomplete hk hslot'
        rw [hcur] at hsome
        obtain ⟨k₁, h₁⟩ := Option.isSome_iff_exists.mp hsome
        obtain ⟨hI₁, -, hlt, hcur₁, hhead⟩ := hnext k₁ h₁
        dsimp only
        rw [h₁, Option.bind_some]
        exact (ih _ hI₁ hcur₁ hhead (by omega)).2 hcomplete

/-- **The loop over a slot** ends with the slot empty. -/
theorem ClockRule.drainSlot (hI : ClockRule hz I) {slot n m : ℕ} (hk : I k)
    (hcur : k.curSlot = slot) (hn : k.slotWeight slot ≤ n) (hm : k.slotWeight slot ≤ m) :
    (∀ k', Kernel.drainSlot hz slot n m k = some k' →
      I k' ∧ k'.calendarTick = k.calendarTick ∧ k'.packetCalendar slot = []) ∧
    (Completes hz I → (Kernel.drainSlot hz slot n m k).isSome) := by
  induction m generalizing k with
  | zero =>
    refine ⟨fun k' h => ?_, fun _ => rfl⟩
    cases h
    exact ⟨hk, rfl, slotWeight_eq_zero (Nat.le_zero.mp hm)⟩
  | succ m ih =>
    unfold Kernel.drainSlot
    cases hslot : (k.packetCalendar slot).head? with
    | none =>
      refine ⟨fun k' h => ?_, fun _ => rfl⟩
      cases h
      exact ⟨hk, rfl, List.head?_eq_none_iff.mp hslot⟩
    | some pos =>
      obtain ⟨hloop, hloopc⟩ := hI.listForEachSafe (some pos) hk hcur
        (fun q hq => by rw [hslot, hq]) hn
      have hnext : ∀ k₁, Kernel.listForEachSafe hz slot n k (some pos) = some k₁ →
          I k₁ ∧ k₁.calendarTick = k.calendarTick ∧ k₁.slotWeight slot + 1 ≤ k.slotWeight slot ∧
          k₁.curSlot = slot := by
        intro k₁ h₁
        obtain ⟨hI₁, htick, hlt⟩ := hloop k₁ h₁
        refine ⟨hI₁, htick, hlt, ?_⟩
        rw [← hcur]
        unfold curSlot
        rw [htick]
      dsimp only
      constructor
      · intro k' h
        obtain ⟨k₁, h₁, h⟩ := Option.bind_eq_some_iff.mp h
        obtain ⟨hI₁, htick, hlt, hcur₁⟩ := hnext k₁ h₁
        obtain ⟨hI', htick', hempty⟩ := (ih hI₁ hcur₁ (by omega) (by omega)).1 k' h
        exact ⟨hI', htick'.trans htick, hempty⟩
      · intro hcomplete
        obtain ⟨k₁, h₁⟩ := Option.isSome_iff_exists.mp (hloopc hcomplete)
        obtain ⟨hI₁, -, hlt, hcur₁⟩ := hnext k₁ h₁
        rw [h₁, Option.bind_some]
        exact (ih hI₁ hcur₁ (by omega) (by omega)).2 hcomplete

/-- The bound on the turns is never reached. -/
theorem ClockRule.drainSlot_empty (hI : ClockRule hz I) (hk : I k)
    (h : Kernel.drainSlot hz k.curSlot (k.slotWeight k.curSlot) (k.slotWeight k.curSlot) k =
      some k') : k'.packetCalendar k.curSlot = [] :=
  ((hI.drainSlot hk rfl (Nat.le_refl _) (Nat.le_refl _)).1 k' h).2.2

theorem ClockRule.hopclockTick (hI : ClockRule hz I) (hk : I k) :
    (∀ k', k.hopclockTick hz = some k' → I k' ∧ k'.calendarTick = k.calendarTick + 1) ∧
    (Completes hz I → (k.hopclockTick hz).isSome) := by
  obtain ⟨hdrain, hdrainc⟩ := hI.drainSlot hk rfl (Nat.le_refl _) (Nat.le_refl _)
  unfold Kernel.hopclockTick
  constructor
  · intro k' h
    obtain ⟨k₁, h₁, rfl⟩ := Option.map_eq_some_iff.mp h
    obtain ⟨hI₁, htick, hempty⟩ := hdrain k₁ h₁
    have hcur : k₁.curSlot = k.curSlot := by unfold curSlot; rw [htick]
    exact ⟨hI.tick hI₁ (by rw [hcur]; exact hempty), congrArg (· + 1) htick⟩
  · intro hcomplete
    rw [Option.isSome_map]
    exact hdrainc hcomplete

theorem ClockRule.hopclockLoop (hI : ClockRule hz I) {n : ℕ} (hk : I k) :
    (∀ k', Kernel.hopclockLoop hz n k = some k' → I k' ∧ k'.calendarTick = k.calendarTick + n) ∧
    (Completes hz I → (Kernel.hopclockLoop hz n k).isSome) := by
  induction n generalizing k with
  | zero =>
    refine ⟨fun k' h => ?_, fun _ => rfl⟩
    cases h
    exact ⟨hk, rfl⟩
  | succ n ih =>
    obtain ⟨htick, htickc⟩ := hI.hopclockTick hk
    unfold Kernel.hopclockLoop
    constructor
    · intro k' h
      obtain ⟨k₁, h₁, h⟩ := Option.bind_eq_some_iff.mp h
      obtain ⟨hI₁, heq⟩ := htick k₁ h₁
      obtain ⟨hI', heq'⟩ := (ih hI₁).1 k' h
      exact ⟨hI', by omega⟩
    · intro hcomplete
      obtain ⟨k₁, h₁⟩ := Option.isSome_iff_exists.mp (htickc hcomplete)
      rw [h₁, Option.bind_some]
      exact (ih (htick k₁ h₁).1).2 hcomplete

/-- **Clock rule.** A run of the clock preserves what its steps preserve, and completes when its
calls of `emulate_nexthop` do. -/
theorem hopclock_rule (hI : ClockRule hz I) (hk : I k) (jiffies : ℕ) :
    (∀ k', k.hopclock hz jiffies = some k' →
      I k' ∧ k'.calendarTick = max k.calendarTick jiffies) ∧
    (Completes hz I → (k.hopclock hz jiffies).isSome) := by
  obtain ⟨h, hc⟩ := hI.hopclockLoop (n := jiffies - k.calendarTick) hk
  refine ⟨fun k' hk' => ?_, hc⟩
  obtain ⟨hI', heq⟩ := h k' hk'
  exact ⟨hI', by omega⟩

/-! ## Runs of the system -/

/-- What a rule for whole runs asks about. -/
structure RunRule (hz : ℕ) (I : Kernel → Prop) : Prop extends ClockRule hz I where
  input : ∀ {k skb okfn k'}, I k → InputStep hz k skb okfn k' → I k'

theorem RunRule.and (hI : RunRule hz I) (hJ : RunRule hz J) : RunRule hz fun k => I k ∧ J k where
  toClockRule := hI.toClockRule.and hJ.toClockRule
  input h hstep := ⟨hI.input h.1 hstep, hJ.input h.2 hstep⟩

theorem RunRule.run (hI : RunRule hz I) {es : List Event} (hk : I k)
    (h : PartialRun.run (step hz) k es = some k') : I k' := by
  refine PartialRun.run_invariant (fun k e k' hk h => ?_) h hk
  cases e with
  | input skb kmallocOk okfn => exact hI.input hk (inputStep_of_step h)
  | hopclock jiffies => exact ((hopclock_rule hI.toClockRule hk jiffies).1 k' h).1

end Kernel

end Modelnet.Linux

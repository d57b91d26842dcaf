import Modelnet.Linux.Input

/-!
# Who owns a packet

Every live packet struct holds a live buffer of its own and sits on the calendar once, unless a
call is working on it; every live buffer is held by a struct. `OwnedBy` says this for any set of
packets in the hands of calls, `Owned` for the one packet of a call that runs alone. Each
elementary step of the module keeps it.
-/

namespace Modelnet.Linux

open Modelnet

namespace Kernel

/-- The packets on the calendar with the ticks of the window they wait for, in the order in which
they will be served. -/
def agenda (k : Kernel) : List (ℤ × PktId) :=
  TimingWheel.agenda schedLen k.packetCalendar k.calendarTick

def calendar (k : Kernel) : List PktId := k.agenda.map Prod.snd

/-- The slot that `hopclock` serves. -/
def curSlot (k : Kernel) : ℕ := calendarSlot k.calendarTick

variable {hz : ℕ} {k k' : Kernel} {p : PktId} {pkt : Packet} {s : SkbId}

/-! ## The calendar under the elementary steps -/

theorem calendar_listAddTail (k : Kernel) (p : PktId) (due : ℤ) :
    (k.listAddTail p due).calendar.Perm (p :: k.calendar) :=
  TimingWheel.agenda_insert_perm schedLen_pos due k.packetCalendar k.calendarTick p

theorem packetCalendar_listDel {l : List PktId} (hslot : k.packetCalendar k.curSlot = p :: l) :
    (k.listDel k.curSlot p).packetCalendar = Function.update k.packetCalendar k.curSlot l := by
  show Function.update k.packetCalendar k.curSlot ((k.packetCalendar k.curSlot).erase p) = _
  rw [hslot, List.erase_cons_head]

theorem agenda_listDel {l : List PktId} (hslot : k.packetCalendar k.curSlot = p :: l) :
    k.agenda = (↑k.calendarTick, p) :: (k.listDel k.curSlot p).agenda := by
  unfold agenda
  rw [packetCalendar_listDel hslot]
  exact TimingWheel.agenda_cons schedLen_pos hslot

theorem calendar_listDel {l : List PktId} (hslot : k.packetCalendar k.curSlot = p :: l) :
    k.calendar = p :: (k.listDel k.curSlot p).calendar := by
  unfold calendar
  rw [agenda_listDel hslot]
  rfl

theorem agenda_tick (hslot : k.packetCalendar k.curSlot = []) :
    ({ k with calendarTick := k.calendarTick + 1 } : Kernel).agenda = k.agenda := by
  have hnext : TimingWheel.agenda schedLen k.packetCalendar ((k.calendarTick : ℤ) + 1) = k.agenda :=
    TimingWheel.agenda_tick schedLen_pos hslot
  exact hnext

/-! ## The invariant -/

/-- The owners of packet structs and buffers, while calls work on the packets in `hand`. -/
structure OwnedBy (k : Kernel) (hand : PktId → Prop) : Prop where
  live_iff : ∀ p, (k.pkts p).isSome ↔ p ∈ k.calendar ∨ hand p
  nodup : k.calendar.Nodup
  hand_not_mem : ∀ p, hand p → p ∉ k.calendar
  holding : ∀ p, (k.pkts p).isSome → ∃ pkt s, Holding k p pkt s
  inj : ∀ p q pkt pkt' s, Holding k p pkt s → Holding k q pkt' s → p = q
  held : ∀ s, (k.skbs s).isSome → ∃ p pkt, Holding k p pkt s
  fresh : ∀ p, k.nextPkt ≤ p → k.pkts p = none
  freshSkb : ∀ s, k.nextSkb ≤ s → k.skbs s = none
  hook : ∀ p, (k.pkts p).isSome → k.ipRcvFinishHook.isSome

/-- The owners while one call works on the packet `cur`, or none. -/
abbrev Owned (k : Kernel) (cur : Option PktId) : Prop := OwnedBy k fun p => cur = some p

theorem calendar_load (jiffies : ℕ) (random : ℕ → ℕ) (tab : PathTab) :
    (load jiffies random tab).calendar = [] := by
  refine List.eq_nil_iff_forall_not_mem.mpr fun p hp => ?_
  obtain ⟨e, he, -⟩ := List.mem_map.mp hp
  exact List.not_mem_nil (TimingWheel.mem_agenda.mp he).2

theorem owned_load (jiffies : ℕ) (random : ℕ → ℕ) (tab : PathTab) :
    Owned (load jiffies random tab) none where
  live_iff p := by
    rw [calendar_load]
    simp [load]
  nodup := by
    rw [calendar_load]
    exact List.nodup_nil
  hand_not_mem p hp := by cases hp
  holding p hp := by cases hp
  inj p q pkt pkt' s h := by cases h.read
  held s hs := by cases hs
  fresh p hp := rfl
  freshSkb s hs := rfl
  hook p hp := by cases hp

variable {hand hand' : PktId → Prop} {cur : Option PktId}

namespace OwnedBy

theorem holding_of_mem (h : OwnedBy k hand) (hp : p ∈ k.calendar) :
    ∃ pkt s, Holding k p pkt s := h.holding p ((h.live_iff p).mpr (Or.inl hp))

/-- A packet may move between the calendar and the hands of calls. -/
theorem move (h : OwnedBy k hand)
    (hmem : ∀ q, q ∈ k.calendar ∨ hand q ↔ q ∈ k'.calendar ∨ hand' q)
    (hnodup : k'.calendar.Nodup) (hhand : ∀ q, hand' q → q ∉ k'.calendar)
    (hpkts : k'.pkts = k.pkts) (hskbs : k'.skbs = k.skbs) (hnextPkt : k.nextPkt ≤ k'.nextPkt)
    (hnextSkb : k.nextSkb ≤ k'.nextSkb)
    (hhook : k.ipRcvFinishHook.isSome → k'.ipRcvFinishHook.isSome) : OwnedBy k' hand' := by
  have hto : ∀ {p pkt s}, Holding k p pkt s → Holding k' p pkt s := fun hh =>
    hh.of_eq (congrFun hpkts _) (congrFun hskbs _)
  have hback : ∀ {p pkt s}, Holding k' p pkt s → Holding k p pkt s := fun hh =>
    hh.of_eq (congrFun hpkts _).symm (congrFun hskbs _).symm
  constructor
  case live_iff => rw [hpkts]; exact fun q => (h.live_iff q).trans (hmem q)
  case nodup => exact hnodup
  case hand_not_mem => exact hhand
  case holding =>
    intro p hp
    rw [hpkts] at hp
    obtain ⟨pkt, s, hh⟩ := h.holding p hp
    exact ⟨pkt, s, hto hh⟩
  case inj => exact fun p q pkt pkt' s hp hq => h.inj p q pkt pkt' s (hback hp) (hback hq)
  case held =>
    intro s hs
    rw [hskbs] at hs
    obtain ⟨p, pkt, hh⟩ := h.held s hs
    exact ⟨p, pkt, hto hh⟩
  case fresh => rw [hpkts]; exact fun p hp => h.fresh p (hnextPkt.trans hp)
  case freshSkb => rw [hskbs]; exact fun s hs => h.freshSkb s (hnextSkb.trans hs)
  case hook => rw [hpkts]; exact fun p hp => hhook (h.hook p hp)

theorem congrHand (h : OwnedBy k hand) (heq : ∀ q, hand q ↔ hand' q) : OwnedBy k hand' :=
  h.move (fun q => or_congr_right (heq q)) h.nodup (fun q hq => h.hand_not_mem q ((heq q).mpr hq))
    rfl rfl (Nat.le_refl _) (Nat.le_refl _) id

/-- Ownership depends on the heaps and the calendar only. -/
theorem congr (h : OwnedBy k hand) (hcal : k'.calendar = k.calendar) (hpkts : k'.pkts = k.pkts)
    (hskbs : k'.skbs = k.skbs) (hnextPkt : k.nextPkt ≤ k'.nextPkt)
    (hnextSkb : k.nextSkb ≤ k'.nextSkb)
    (hhook : k.ipRcvFinishHook.isSome → k'.ipRcvFinishHook.isSome) : OwnedBy k' hand :=
  h.move (fun q => by rw [hcal]) (hcal ▸ h.nodup) (hcal ▸ h.hand_not_mem) hpkts hskbs hnextPkt
    hnextSkb hhook

/-- A struct being worked on and its buffer are given up. -/
theorem consume (h : OwnedBy k hand) (hpin : hand p) (hp : Holding k p pkt s) (seen : List Obs) :
    OwnedBy (k.consume p s seen) fun q => hand q ∧ q ≠ p := by
  have hself : (k.consume p s seen).pkts p = none := Function.update_self _ _ _
  have hpkts : ∀ q, q ≠ p → (k.consume p s seen).pkts q = k.pkts q := fun q hq =>
    Function.update_of_ne hq _ _
  have hskbself : (k.consume p s seen).skbs s = none := Function.update_self _ _ _
  have hskbs : ∀ s', s' ≠ s → (k.consume p s seen).skbs s' = k.skbs s' := fun s' hs =>
    Function.update_of_ne hs _ _
  -- the structs left hold what they held
  have hto : ∀ {q pkt' s'}, q ≠ p → Holding k q pkt' s' →
      Holding (k.consume p s seen) q pkt' s' := by
    intro q pkt' s' hq hh
    refine hh.of_eq (hpkts q hq) (hskbs s' ?_)
    rintro rfl
    exact hq (h.inj q p pkt' pkt _ hh hp)
  have hback : ∀ {q pkt' s'}, Holding (k.consume p s seen) q pkt' s' →
      q ≠ p ∧ Holding k q pkt' s' := by
    intro q pkt' s' hh
    have hq : q ≠ p := by
      rintro rfl
      exact absurd (hself.symm.trans hh.read) (by simp)
    have hs : s' ≠ s := by
      rintro rfl
      have hl := hh.live
      rw [hskbself] at hl
      cases hl
    exact ⟨hq, hh.of_eq (hpkts q hq).symm (hskbs s' hs).symm⟩
  constructor
  case live_iff =>
    intro q
    by_cases hq : q = p
    · subst hq
      rw [hself]
      exact ⟨fun hf => (by cases hf), fun hor => hor.elim
        (fun hm => absurd hm (h.hand_not_mem q hpin)) fun hf => absurd rfl hf.2⟩
    · rw [hpkts q hq, h.live_iff q]
      exact or_congr_right (iff_of_eq (and_iff_left hq).symm.eq)
  case nodup => exact h.nodup
  case hand_not_mem => exact fun q hq => h.hand_not_mem q hq.1
  case holding =>
    intro q hq
    have hne : q ≠ p := by
      rintro rfl
      rw [hself] at hq
      cases hq
    rw [hpkts q hne] at hq
    obtain ⟨pkt', s', hh⟩ := h.holding q hq
    exact ⟨pkt', s', hto hne hh⟩
  case inj =>
    exact fun q q' pkt₁ pkt₂ s' h₁ h₂ => h.inj q q' pkt₁ pkt₂ s' (hback h₁).2 (hback h₂).2
  case held =>
    intro s' hs
    have hne : s' ≠ s := by
      rintro rfl
      rw [hskbself] at hs
      cases hs
    rw [hskbs s' hne] at hs
    obtain ⟨q, pkt', hh⟩ := h.held s' hs
    refine ⟨q, pkt', hto ?_ hh⟩
    rintro rfl
    exact hne (hh.unique hp).2
  case fresh =>
    intro q hq
    by_cases hqp : q = p
    · exact hqp ▸ hself
    · rw [hpkts q hqp]
      exact h.fresh q hq
  case freshSkb =>
    intro s' hs
    by_cases hss : s' = s
    · exact hss ▸ hskbself
    · rw [hskbs s' hss]
      exact h.freshSkb s' hs
  case hook =>
    intro q hq
    refine h.hook q ?_
    by_cases hqp : q = p
    · rw [hqp, hself] at hq
      cases hq
    · rwa [hpkts q hqp] at hq

/-- The fields of a struct are written, but not its buffer. -/
theorem setPkt (h : OwnedBy k hand) (hp : Holding k p pkt s) (pkt' : Packet)
    (hskb : pkt'.skb = pkt.skb) (hid : pkt'.info.id = 0) : OwnedBy (k.setPkt p pkt') hand := by
  have hself : (k.setPkt p pkt').pkts p = some pkt' := Function.update_self _ _ _
  have hpkts : ∀ q, q ≠ p → (k.setPkt p pkt').pkts q = k.pkts q := fun q hq =>
    Function.update_of_ne hq _ _
  have hpnew : Holding (k.setPkt p pkt') p pkt' s := ⟨hself, hskb.trans hp.skb, hp.live, hid⟩
  have hsome : ∀ q, ((k.setPkt p pkt').pkts q).isSome ↔ (k.pkts q).isSome := by
    intro q
    by_cases hq : q = p
    · rw [hq, hself, hp.read]
      exact Iff.rfl
    · rw [hpkts q hq]
  have hto : ∀ {q pkt₁ s'}, Holding k q pkt₁ s' → ∃ pkt₂, Holding (k.setPkt p pkt') q pkt₂ s' := by
    intro q pkt₁ s' hh
    by_cases hq : q = p
    · subst hq
      rw [(hh.unique hp).2]
      exact ⟨pkt', hpnew⟩
    · exact ⟨pkt₁, hh.of_eq (hpkts q hq) rfl⟩
  have hback : ∀ {q pkt₁ s'}, Holding (k.setPkt p pkt') q pkt₁ s' → ∃ pkt₂, Holding k q pkt₂ s' := by
    intro q pkt₁ s' hh
    by_cases hq : q = p
    · subst hq
      rw [(hh.unique hpnew).2]
      exact ⟨pkt, hp⟩
    · exact ⟨pkt₁, hh.of_eq (hpkts q hq).symm rfl⟩
  constructor
  case live_iff => exact fun q => (hsome q).trans (h.live_iff q)
  case nodup => exact h.nodup
  case hand_not_mem => exact h.hand_not_mem
  case holding =>
    intro q hq
    obtain ⟨pkt₁, s', hh⟩ := h.holding q ((hsome q).mp hq)
    obtain ⟨pkt₂, hh'⟩ := hto hh
    exact ⟨pkt₂, s', hh'⟩
  case inj =>
    intro q q' pkt₁ pkt₂ s' h₁ h₂
    obtain ⟨_, h₁'⟩ := hback h₁
    obtain ⟨_, h₂'⟩ := hback h₂
    exact h.inj q q' _ _ s' h₁' h₂'
  case held =>
    intro s' hs
    obtain ⟨q, pkt₁, hh⟩ := h.held s' hs
    obtain ⟨pkt₂, hh'⟩ := hto hh
    exact ⟨q, pkt₂, hh'⟩
  case fresh =>
    intro q hq
    have hne : q ≠ p := by
      rintro rfl
      exact absurd ((h.fresh q hq).symm.trans hp.read) (by simp)
    rw [hpkts q hne]
    exact h.fresh q hq
  case freshSkb => exact h.freshSkb
  case hook => exact fun q hq => h.hook q ((hsome q).mp hq)

/-- A packet being worked on is linked into the calendar. -/
theorem listAddTail (h : OwnedBy k hand) (hpin : hand p) (due : ℤ) :
    OwnedBy (k.listAddTail p due) fun q => hand q ∧ q ≠ p := by
  have hperm := calendar_listAddTail k p due
  refine h.move (fun q => ?_) (hperm.nodup_iff.mpr (List.nodup_cons.mpr
    ⟨h.hand_not_mem p hpin, h.nodup⟩)) (fun q hq hm => ?_) rfl rfl (Nat.le_refl _)
    (Nat.le_refl _) id
  · rw [hperm.mem_iff, List.mem_cons]
    by_cases hq : q = p
    · subst hq
      exact ⟨fun _ => Or.inl (Or.inl rfl), fun _ => Or.inr hpin⟩
    · rw [or_iff_right hq, and_iff_left hq]
  · rw [hperm.mem_iff, List.mem_cons] at hm
    exact h.hand_not_mem q hq.1 (hm.resolve_left hq.2)

/-- The front of the served slot is taken off the calendar to be worked on. -/
theorem listDel (h : OwnedBy k hand) {l : List PktId}
    (hslot : k.packetCalendar k.curSlot = p :: l) :
    OwnedBy (k.listDel k.curSlot p) fun q => hand q ∨ q = p := by
  have hcal := calendar_listDel hslot
  have hnodup := List.nodup_cons.mp (hcal ▸ h.nodup)
  refine h.move (fun q => ?_) hnodup.2 (fun q hq hm => ?_) rfl rfl (Nat.le_refl _)
    (Nat.le_refl _) id
  · rw [hcal, List.mem_cons, or_comm (a := q = p), or_assoc, or_comm (a := q = p)]
  · rcases hq with hq | rfl
    · exact h.hand_not_mem q hq (by rw [hcal]; exact List.mem_cons_of_mem p hm)
    · exact hnodup.1 hm

/-- The call of `emulate_nexthop` leaves its packet on the calendar or gone. -/
theorem nextHop (h : OwnedBy k hand) (hpin : hand p) (hp : Holding k p pkt s)
    (hnext : NextHop hz k p pkt s k') : OwnedBy k' fun q => hand q ∧ q ≠ p := by
  have hcross : ∀ ptr hop, OwnedBy (k.crossHop p ptr hop) hand := fun ptr hop =>
    h.congr rfl rfl rfl (Nat.le_refl _) (Nat.le_refl _) id
  have hpcross : ∀ ptr hop, Holding (k.crossHop p ptr hop) p pkt s := fun ptr hop =>
    hp.of_eq rfl rfl
  cases hnext with
  | forward => exact h.consume hpin hp _
  | remote => exact h.consume hpin hp _
  | dropped => exact (hcross _ _).consume hpin (hpcross _ _) _
  | @queued path ptr hop hop' x due =>
    exact ((hcross ptr hop').setPkt (hpcross ptr hop') (pkt.advance path) rfl
      hp.id).listAddTail hpin due

theorem serve (h : OwnedBy k hand) {l : List PktId} (hslot : k.packetCalendar k.curSlot = p :: l)
    (hp : Holding (k.listDel k.curSlot p) p pkt s)
    (hnext : NextHop hz (k.listDel k.curSlot p) p pkt s k') : OwnedBy k' hand := by
  have hmem : p ∈ k.calendar := by
    rw [calendar_listDel hslot]
    exact List.mem_cons_self
  refine ((h.listDel hslot).nextHop (Or.inr rfl) hp hnext).congrHand fun q => ?_
  constructor
  · rintro ⟨hq | rfl, hne⟩
    · exact hq
    · exact absurd rfl hne
  · intro hq
    refine ⟨Or.inl hq, ?_⟩
    rintro rfl
    exact h.hand_not_mem q hq hmem

theorem tick (h : OwnedBy k hand) (hslot : k.packetCalendar k.curSlot = []) :
    OwnedBy { k with calendarTick := k.calendarTick + 1 } hand :=
  h.congr (congrArg (List.map Prod.snd) (agenda_tick hslot)) rfl rfl (Nat.le_refl _)
    (Nat.le_refl _) id

/-- A packet struct is allocated for an arriving buffer and starts on a path. -/
theorem start (h : OwnedBy k hand) (skb : SkBuff) (okfn : Okfn) (arr : ℕ) :
    OwnedBy (k.start skb okfn arr) fun q => hand q ∨ q = k.nextPkt := by
  have hself : (k.start skb okfn arr).pkts k.nextPkt = some (k.startPkt skb arr) :=
    Function.update_self _ _ _
  have hpkts : ∀ q, q ≠ k.nextPkt → (k.start skb okfn arr).pkts q = k.pkts q := by
    intro q hq
    show Function.update (Function.update k.pkts _ _) _ _ q = _
    rw [Function.update_of_ne hq, Function.update_of_ne hq]
  have hskbs : ∀ s', s' ≠ k.nextSkb → (k.start skb okfn arr).skbs s' = k.skbs s' := fun s' hs =>
    Function.update_of_ne hs _ _
  have hpnew := holding_start k skb okfn arr
  have hp := h.fresh k.nextPkt (Nat.le_refl _)
  have hs := h.freshSkb k.nextSkb (Nat.le_refl _)
  have hne : ∀ {q pkt s'}, Holding k q pkt s' → q ≠ k.nextPkt ∧ s' ≠ k.nextSkb := by
    intro q pkt s' hh
    refine ⟨fun hq => ?_, fun hs' => ?_⟩
    · rw [hq] at hh
      exact absurd (hp.symm.trans hh.read) (by simp)
    · have hl := hh.live
      rw [hs', hs] at hl
      cases hl
  have hto : ∀ {q pkt s'}, Holding k q pkt s' → Holding (k.start skb okfn arr) q pkt s' :=
    fun hh => hh.of_eq (hpkts _ (hne hh).1) (hskbs _ (hne hh).2)
  have hback : ∀ {q pkt s'}, Holding (k.start skb okfn arr) q pkt s' →
      (q = k.nextPkt ∧ s' = k.nextSkb) ∨ Holding k q pkt s' := by
    intro q pkt s' hh
    by_cases hq : q = k.nextPkt
    · subst hq
      exact Or.inl ⟨rfl, (hh.unique hpnew).2⟩
    · right
      refine ⟨(hpkts q hq).symm.trans hh.read, hh.skb, ?_, hh.id⟩
      obtain ⟨pkt', s₁, hh'⟩ := h.holding q
        (Option.isSome_iff_exists.mpr ⟨pkt, (hpkts q hq).symm.trans hh.read⟩)
      rw [((hto hh').unique hh).2] at hh'
      exact hh'.live
  have hnot : k.nextPkt ∉ k.calendar := fun hm => by
    have := (h.live_iff k.nextPkt).mpr (Or.inl hm)
    rw [hp] at this
    cases this
  constructor
  case live_iff =>
    intro q
    by_cases hq : q = k.nextPkt
    · rw [hq, hself]
      exact ⟨fun _ => Or.inr (Or.inr rfl), fun _ => rfl⟩
    · rw [hpkts q hq, h.live_iff q, or_iff_left hq]
      exact Iff.rfl
  case nodup => exact h.nodup
  case hand_not_mem =>
    rintro q (hq | rfl)
    · exact h.hand_not_mem q hq
    · exact hnot
  case holding =>
    intro q hq
    by_cases hqp : q = k.nextPkt
    · subst hqp
      exact ⟨_, _, hpnew⟩
    · rw [hpkts q hqp] at hq
      obtain ⟨pkt', s', hh⟩ := h.holding q hq
      exact ⟨pkt', s', hto hh⟩
  case inj =>
    intro q q' pkt₁ pkt₂ s' h₁ h₂
    rcases hback h₁ with ⟨rfl, hs₁⟩ | h₁'
    · rcases hback h₂ with ⟨rfl, -⟩ | h₂'
      · rfl
      · exact absurd hs₁ (hne h₂').2
    · rcases hback h₂ with ⟨rfl, hs₂⟩ | h₂'
      · exact absurd hs₂ (hne h₁').2
      · exact h.inj q q' pkt₁ pkt₂ s' h₁' h₂'
  case held =>
    intro s' hs'
    by_cases hss : s' = k.nextSkb
    · subst hss
      exact ⟨_, _, hpnew⟩
    · rw [hskbs s' hss] at hs'
      obtain ⟨q, pkt', hh⟩ := h.held s' hs'
      exact ⟨q, pkt', hto hh⟩
  case fresh =>
    intro q hq
    have hq' : k.nextPkt + 1 ≤ q := hq
    rw [hpkts q (by omega)]
    exact h.fresh q (by omega)
  case freshSkb =>
    intro s' hs'
    have hs'' : k.nextSkb + 1 ≤ s' := hs'
    rw [hskbs s' (by omega)]
    exact h.freshSkb s' (by omega)
  case hook => exact fun _ _ => rfl

theorem passed (h : OwnedBy k hand) {skb : SkBuff} {okfn : Okfn} {hook : Option Okfn}
    (hhook : hook = k.ipRcvFinishHook ∨ hook = some okfn) :
    OwnedBy (({ k.receive skb with ipRcvFinishHook := hook } : Kernel).giveVerdict k.nextSkb
      .accept) hand := by
  have hs := h.freshSkb k.nextSkb (Nat.le_refl _)
  refine h.congr rfl rfl ?_ (Nat.le_refl _) (Nat.le_succ _) fun hsome => ?_
  · show Function.update (Function.update k.skbs _ _) _ none = k.skbs
    rw [Function.update_idem, ← hs, Function.update_eq_self]
  · rcases hhook with rfl | rfl
    · exact hsome
    · rfl

theorem noPath (h : OwnedBy k hand) (skb : SkBuff) (okfn : Okfn) :
    OwnedBy (((k.arrival skb okfn).kfreePkt k.nextPkt).giveVerdict k.nextSkb .accept) hand := by
  have hs := h.freshSkb k.nextSkb (Nat.le_refl _)
  have hp := h.fresh k.nextPkt (Nat.le_refl _)
  refine h.congr rfl ?_ ?_ (Nat.le_succ _) (Nat.le_succ _) fun _ => rfl
  · show Function.update (Function.update k.pkts _ _) _ none = k.pkts
    rw [Function.update_idem, ← hp, Function.update_eq_self]
  · show Function.update (Function.update k.skbs _ _) _ none = k.skbs
    rw [Function.update_idem, ← hs, Function.update_eq_self]

end OwnedBy

namespace Owned

theorem mem_calendar (h : Owned k none) (hp : k.pkts p = some pkt) : p ∈ k.calendar :=
  ((h.live_iff p).mp (by rw [hp]; rfl)).resolve_right (by simp)

theorem listDel (h : Owned k none) {l : List PktId}
    (hslot : k.packetCalendar k.curSlot = p :: l) : Owned (k.listDel k.curSlot p) (some p) :=
  (OwnedBy.listDel h hslot).congrHand fun q => by simp [eq_comm]

theorem nextHop (h : Owned k (some p)) (hp : Holding k p pkt s) (hnext : NextHop hz k p pkt s k') :
    Owned k' none :=
  (OwnedBy.nextHop h rfl hp hnext).congrHand fun q => by simp [eq_comm]

theorem start (h : Owned k none) (skb : SkBuff) (okfn : Okfn) (arr : ℕ) :
    Owned (k.start skb okfn arr) (some k.nextPkt) :=
  (OwnedBy.start h skb okfn arr).congrHand fun q => by simp [eq_comm]

/-- **Arrivals.** A buffer that comes in is passed back or owned by a struct on the calendar. -/
theorem input (h : Owned k none) {skb : SkBuff} {okfn : Okfn}
    (hstep : InputStep hz k skb okfn k') : Owned k' none := by
  cases hstep with
  | passed hhook => exact h.passed hhook
  | noPath => exact h.noPath skb okfn
  | started _ hnext =>
    have h₁ := (h.start skb okfn _).nextHop (holding_start k skb okfn _) hnext
    exact h₁.congr rfl rfl rfl (Nat.le_refl _) (Nat.le_refl _) id

end Owned

end Kernel

end Modelnet.Linux

import Modelnet.FreeBSD.RemoteInput
import Mathlib.Data.List.Nodup

/-!
# Who owns a packet struct

A packet struct of a core is in the packet cache, on the calendar, or in the hand of the function
that works on it. `Bookkeeping` says that the cache and the calendar hold live structs, each once
and none both, and that the structs at home with a handle are the cached ones; the packet `x` in
hand may be exempt from the last part while its record is checked.
-/

namespace Modelnet.FreeBSD

open Modelnet

/-- Neither `MN_FREE_PKT` on a cached packet nor `MN_UNCACHE_PKT` on another one. -/
def Fault.Benign (f : Fault) : Prop := (∀ p, f ≠ .freeCached p) ∧ ∀ p, f ≠ .uncacheAbsent p

theorem Fault.benign_memory : Fault.Benign .memory :=
  ⟨fun _ => by rintro ⟨⟩, fun _ => by rintro ⟨⟩⟩

theorem Fault.benign_copyPastEnd : Fault.Benign .copyPastEnd :=
  ⟨fun _ => by rintro ⟨⟩, fun _ => by rintro ⟨⟩⟩

theorem Fault.benign_nullChain : Fault.Benign .nullChain :=
  ⟨fun _ => by rintro ⟨⟩, fun _ => by rintro ⟨⟩⟩

/-- The cache, its counter, the calendar and the heap fit together. -/
structure Bookkeeping (x : Option Addr) (cache : List Addr) (occupancy : ℤ)
    (calendar : ℕ → List Addr) (pkts : Addr → Option Packet) : Prop where
  nodup : cache.Nodup
  occupancy : occupancy = cache.length
  null : pkts 0 = none
  cached : ∀ p ∈ cache, ∃ pkt, pkts p = some pkt ∧ pkt.cachehost = 0 ∧ pkt.info.id = p
  uncached : ∀ p pkt, x ≠ some p → pkts p = some pkt → pkt.cachehost = 0 → pkt.info.id ≠ 0 →
    p ∈ cache
  offCalendar : ∀ p ∈ cache, ∀ i, p ∉ calendar i
  calendarNodup : ∀ i, (calendar i).Nodup
  calendarSlot : ∀ p i j, p ∈ calendar i → p ∈ calendar j → i = j
  calendarLive : ∀ p i, p ∈ calendar i → (pkts p).isSome

namespace Core

/-- The invariant of a core. -/
def Inv (c : Core) (x : Option Addr) : Prop :=
  Bookkeeping x c.mcPcache c.pcacheOccupancy c.packetCalendar c.pkts

/-- The packet is neither in the cache nor on the calendar. -/
structure InHand (c : Core) (p : Addr) : Prop where
  live : (c.pkts p).isSome
  uncached : p ∉ c.mcPcache
  offCalendar : ∀ i, p ∉ c.packetCalendar i

structure Cached (c : Core) (p : Addr) : Prop where
  mem : p ∈ c.mcPcache
  home : ∀ pkt, c.pkts p = some pkt → pkt.cachehost = 0 ∧ pkt.info.id ≠ 0

variable {c c' : Core} {p q : Addr} {pkt pkt' : Packet} {x : Option Addr}

theorem packet_eq_ok : c.packet p = .ok pkt ↔ c.pkts p = some pkt := by
  unfold packet
  cases c.pkts p with
  | none =>
    constructor
    · rintro ⟨⟩
    · rintro ⟨⟩
  | some pkt' =>
    constructor
    · rintro ⟨⟩
      rfl
    · rintro ⟨⟩
      rfl

theorem packet_yields {E : Fault → Prop} (hE : E .memory) (c : Core) (p : Addr) :
    (c.packet p).Yields E fun pkt => c.pkts p = some pkt := by
  unfold packet
  cases c.pkts p with
  | none => exact hE
  | some pkt => rfl

theorem Inv.ne_zero (h : c.Inv x) (hp : (c.pkts p).isSome) : p ≠ 0 := by
  rintro rfl
  rw [show c.pkts 0 = none from h.null] at hp
  cases hp

theorem Inv.id_eq_zero (h : c.Inv none) (hp : c.InHand p) (hpkt : c.pkts p = some pkt)
    (hhome : pkt.cachehost = 0) : pkt.info.id = 0 := by
  by_contra hid
  exact hp.uncached (h.uncached p pkt (by rintro ⟨⟩) hpkt hhome hid)

/-! ## Writes to a struct -/

@[simp] theorem pkts_setPkt_self (c : Core) (p : Addr) (pkt : Packet) :
    (c.setPkt p pkt).pkts p = some pkt := Function.update_self _ _ _

theorem pkts_setPkt_of_ne (c : Core) (pkt : Packet) (h : q ≠ p) :
    (c.setPkt p pkt).pkts q = c.pkts q := Function.update_of_ne h _ _

theorem isSome_setPkt (c : Core) (p : Addr) (pkt : Packet) (h : (c.pkts q).isSome) :
    ((c.setPkt p pkt).pkts q).isSome := by
  by_cases hq : q = p
  · rw [hq, pkts_setPkt_self]
    rfl
  · rw [pkts_setPkt_of_ne c pkt hq]
    exact h

/-- A write to a struct in hand, which is exempt or has no handle when it is at home. -/
theorem Inv.setPkt_inHand (h : c.Inv x) (hp : c.InHand p) {y : Option Addr}
    (hx : ∀ q, q ≠ p → y ≠ some q → x ≠ some q)
    (hpkt : y = some p ∨ (pkt.cachehost = 0 → pkt.info.id = 0)) :
    (c.setPkt p pkt).Inv y where
  nodup := h.nodup
  occupancy := h.occupancy
  null := by
    rw [pkts_setPkt_of_ne c pkt (h.ne_zero hp.live).symm]
    exact h.null
  cached := by
    intro q hq
    have hne : q ≠ p := by
      rintro rfl
      exact hp.uncached hq
    rw [pkts_setPkt_of_ne c pkt hne]
    exact h.cached q hq
  uncached := by
    intro q pkt' hy hq hhome hid
    by_cases hqp : q = p
    · subst hqp
      rw [pkts_setPkt_self] at hq
      cases hq
      exact absurd ((hpkt.resolve_left hy) hhome) hid
    · rw [pkts_setPkt_of_ne c pkt hqp] at hq
      exact h.uncached q pkt' (hx q hqp hy) hq hhome hid
  offCalendar := h.offCalendar
  calendarNodup := h.calendarNodup
  calendarSlot := h.calendarSlot
  calendarLive := fun q i hq => isSome_setPkt c p pkt (h.calendarLive q i hq)

theorem InHand.setPkt (h : c.InHand p) (q : Addr) (pkt : Packet) : (c.setPkt q pkt).InHand p :=
  ⟨isSome_setPkt c q pkt h.live, h.uncached, h.offCalendar⟩

theorem mallocPkt_eq_some {env : Env} (h : c.mallocPkt env = some p) :
    p ≠ 0 ∧ c.pkts p = none := by
  obtain ⟨-, hp⟩ := Option.filter_eq_some_iff.mp h
  have hp := of_decide_eq_true hp
  exact ⟨hp.1, Option.isNone_iff_eq_none.mp hp.2⟩

theorem Inv.not_mem_of_free (h : c.Inv x) (hp : c.pkts p = none) : p ∉ c.mcPcache := by
  intro hmem
  obtain ⟨pkt, hpkt, -⟩ := h.cached p hmem
  rw [hp] at hpkt
  cases hpkt

/-- A struct from `malloc` comes into the hand. -/
theorem Inv.setPkt_fresh (h : c.Inv none) (hzero : p ≠ 0) (hp : c.pkts p = none) {y : Option Addr}
    (hpkt : y = some p ∨ (pkt.cachehost = 0 → pkt.info.id = 0)) :
    (c.setPkt p pkt).Inv y ∧ (c.setPkt p pkt).InHand p := by
  have hne : ∀ q, (c.pkts q).isSome → q ≠ p := by
    rintro q hq rfl
    rw [hp] at hq
    cases hq
  have hlive : ∀ q ∈ c.mcPcache, (c.pkts q).isSome := by
    intro q hq
    obtain ⟨pkt', hpkt', -⟩ := h.cached q hq
    exact Option.isSome_of_eq_some hpkt'
  refine ⟨⟨h.nodup, h.occupancy, ?_, ?_, ?_, h.offCalendar, h.calendarNodup, h.calendarSlot,
    fun q i hq => isSome_setPkt c p pkt (h.calendarLive q i hq)⟩,
    ⟨by rw [pkts_setPkt_self]; rfl, h.not_mem_of_free hp,
      fun i hq => hne p (h.calendarLive p i hq) rfl⟩⟩
  · rw [pkts_setPkt_of_ne c pkt hzero.symm]
    exact h.null
  · intro q hq
    rw [pkts_setPkt_of_ne c pkt (hne q (hlive q hq))]
    exact h.cached q hq
  · intro q pkt' hy hq hhome hid
    by_cases hqp : q = p
    · subst hqp
      rw [pkts_setPkt_self] at hq
      cases hq
      exact absurd ((hpkt.resolve_left hy) hhome) hid
    · rw [pkts_setPkt_of_ne c pkt hqp] at hq
      exact h.uncached q pkt' (by rintro ⟨⟩) hq hhome hid

/-! ## The macros -/

@[simp] theorem pkts_freePkt_self (c : Core) (p : Addr) : (c.freePkt p).pkts p = none :=
  Function.update_self _ _ _

theorem pkts_freePkt_of_ne (c : Core) (h : q ≠ p) : (c.freePkt p).pkts q = c.pkts q :=
  Function.update_of_ne h _ _

theorem Inv.freePkt (h : c.Inv x) (hp : c.InHand p) (hx : ∀ q, q ≠ p → x ≠ some q) :
    (c.freePkt p).Inv none where
  nodup := h.nodup
  occupancy := h.occupancy
  null := by
    rw [pkts_freePkt_of_ne c (h.ne_zero hp.live).symm]
    exact h.null
  cached := by
    intro q hq
    rw [pkts_freePkt_of_ne c fun heq : q = p => hp.uncached (heq ▸ hq)]
    exact h.cached q hq
  uncached := by
    intro q pkt _ hq hhome hid
    by_cases hqp : q = p
    · subst hqp
      rw [pkts_freePkt_self] at hq
      cases hq
    · rw [pkts_freePkt_of_ne c hqp] at hq
      exact h.uncached q pkt (hx q hqp) hq hhome hid
  offCalendar := h.offCalendar
  calendarNodup := h.calendarNodup
  calendarSlot := h.calendarSlot
  calendarLive := by
    intro q i hq
    rw [pkts_freePkt_of_ne c fun heq : q = p => hp.offCalendar i (heq ▸ hq)]
    exact h.calendarLive q i hq

theorem mnFreePkt_yields (h : c.Inv x) (hp : c.InHand p) (hx : ∀ q, q ≠ p → x ≠ some q) :
    (c.mnFreePkt p).Yields Fault.Benign fun c' => c' = c.freePkt p ∧ c'.Inv none := by
  unfold mnFreePkt
  rw [if_neg hp.uncached]
  exact (packet_yields Fault.benign_memory c p).bind fun pkt hpkt => ⟨rfl, h.freePkt hp hx⟩

/-- A cached packet is taken off the cache and comes into the hand. -/
theorem Inv.uncache (h : c.Inv x) (hp : p ∈ c.mcPcache) (hpkt : c.pkts p = some pkt) :
    (c.uncache p pkt).Inv x ∧ (c.uncache p pkt).InHand p := by
  have hmem : ∀ q, q ∈ (c.uncache p pkt).mcPcache ↔ q ≠ p ∧ q ∈ c.mcPcache :=
    fun q => h.nodup.mem_erase_iff
  have hself : (c.uncache p pkt).pkts p = some { pkt with info := { pkt.info with id := 0 } } :=
    Function.update_self _ _ _
  have hother : ∀ q, q ≠ p → (c.uncache p pkt).pkts q = c.pkts q :=
    fun q hq => Function.update_of_ne hq _ _
  have hlive : ∀ q, (c.pkts q).isSome → ((c.uncache p pkt).pkts q).isSome :=
    fun q hq => isSome_setPkt c p _ hq
  refine ⟨⟨h.nodup.erase p, ?_, ?_, ?_, ?_, ?_, h.calendarNodup, h.calendarSlot,
    fun q i hq => hlive q (h.calendarLive q i hq)⟩,
    ⟨hself ▸ rfl, fun hq => ((hmem p).mp hq).1 rfl, h.offCalendar p hp⟩⟩
  · have hocc : c.pcacheOccupancy = c.mcPcache.length := h.occupancy
    have hpos : 0 < c.mcPcache.length := List.length_pos_of_mem hp
    show c.pcacheOccupancy - 1 = (c.mcPcache.erase p).length
    rw [List.length_erase_of_mem hp, hocc]
    omega
  · rw [hother 0 (h.ne_zero (Option.isSome_of_eq_some hpkt)).symm]
    exact h.null
  · intro q hq
    obtain ⟨hne, hq⟩ := (hmem q).mp hq
    rw [hother q hne]
    exact h.cached q hq
  · intro q pkt' hx hq hhome hid
    by_cases hqp : q = p
    · subst hqp
      cases hself.symm.trans hq
      exact absurd rfl hid
    · rw [hother q hqp] at hq
      exact (hmem q).mpr ⟨hqp, h.uncached q pkt' hx hq hhome hid⟩
  · exact fun q hq => h.offCalendar q ((hmem q).mp hq).2

theorem mnUncachePkt_eq (hp : p ∈ c.mcPcache) (hpkt : c.pkts p = some pkt) :
    c.mnUncachePkt p = .ok (c.uncache p pkt) := by
  unfold mnUncachePkt
  rw [if_neg (not_not.mpr hp), packet_eq_ok.mpr hpkt]
  rfl

theorem Inv.mcPcacheAdd (h : c.Inv none) (hp : c.InHand p) (hhome : pkt.cachehost = 0) :
    (c.mcPcacheAdd p pkt).Inv none ∧ p ∈ (c.mcPcacheAdd p pkt).mcPcache := by
  have hmem : ∀ q, q ∈ (c.mcPcacheAdd p pkt).mcPcache ↔ q ∈ c.mcPcache ∨ q = p := by
    intro q
    show q ∈ c.mcPcache ++ [p] ↔ _
    rw [List.mem_append, List.mem_singleton]
  have hself : (c.mcPcacheAdd p pkt).pkts p =
      some { pkt with info := { pkt.info with expire := c.now + c.mcExpire, id := p } } :=
    Function.update_self _ _ _
  have hother : ∀ q, q ≠ p → (c.mcPcacheAdd p pkt).pkts q = c.pkts q :=
    fun q hq => Function.update_of_ne hq _ _
  refine ⟨⟨?_, ?_, ?_, ?_, ?_, ?_, h.calendarNodup, h.calendarSlot,
    fun q i hq => isSome_setPkt c p _ (h.calendarLive q i hq)⟩, (hmem p).mpr (Or.inr rfl)⟩
  · refine List.Nodup.append h.nodup (List.nodup_singleton p) ?_
    exact List.disjoint_singleton.mpr hp.uncached
  · have hocc : c.pcacheOccupancy = c.mcPcache.length := h.occupancy
    show c.pcacheOccupancy + 1 = (c.mcPcache ++ [p]).length
    rw [List.length_append, List.length_singleton, hocc]
    rfl
  · rw [hother 0 (h.ne_zero hp.live).symm]
    exact h.null
  · intro q hq
    rcases (hmem q).mp hq with hq | rfl
    · rw [hother q fun heq : q = p => hp.uncached (heq ▸ hq)]
      exact h.cached q hq
    · exact ⟨_, hself, hhome, rfl⟩
  · intro q pkt' hx hq hhome' hid
    by_cases hqp : q = p
    · exact (hmem q).mpr (Or.inr hqp)
    · rw [hother q hqp] at hq
      exact (hmem q).mpr (Or.inl (h.uncached q pkt' hx hq hhome' hid))
  · intro q hq
    rcases (hmem q).mp hq with hq | rfl
    · exact h.offCalendar q hq
    · exact hp.offCalendar

theorem Inv.calendarInsert (h : c.Inv none) (hp : c.InHand p) (due : ℤ) :
    (c.calendarInsert p due).Inv none := by
  have hmem : ∀ q i, q ∈ (c.calendarInsert p due).packetCalendar i ↔
      q ∈ c.packetCalendar i ∨ q = p ∧ i = calendarSlot due := by
    intro q i
    show q ∈ Function.update c.packetCalendar (calendarSlot due) _ i ↔ _
    by_cases hi : i = calendarSlot due
    · rw [hi, Function.update_self, List.mem_append, List.mem_singleton]
      simp
    · rw [Function.update_of_ne hi]
      simp [hi]
  refine ⟨h.nodup, h.occupancy, h.null, h.cached, h.uncached, ?_, ?_, ?_, ?_⟩
  · intro q hq i hmem'
    rcases (hmem q i).mp hmem' with hcal | ⟨rfl, -⟩
    · exact h.offCalendar q hq i hcal
    · exact hp.uncached hq
  · intro i
    show (Function.update c.packetCalendar (calendarSlot due) _ i).Nodup
    by_cases hi : i = calendarSlot due
    · rw [hi, Function.update_self]
      exact List.Nodup.append (h.calendarNodup _) (List.nodup_singleton p)
        (List.disjoint_singleton.mpr (hp.offCalendar _))
    · rw [Function.update_of_ne hi]
      exact h.calendarNodup i
  · intro q i j hi hj
    rcases (hmem q i).mp hi with hi' | ⟨rfl, rfl⟩
    · rcases (hmem q j).mp hj with hj' | ⟨rfl, -⟩
      · exact h.calendarSlot q i j hi' hj'
      · exact absurd hi' (hp.offCalendar i)
    · rcases (hmem q j).mp hj with hj' | ⟨-, rfl⟩
      · exact absurd hj' (hp.offCalendar j)
      · rfl
  · intro q i hq
    rcases (hmem q i).mp hq with hq | ⟨rfl, -⟩
    · exact h.calendarLive q i hq
    · exact hp.live

/-- The first packet of a slot is taken off the calendar and comes into the hand. -/
theorem Inv.calendarRemove (h : c.Inv none) {slot : ℕ} {rest : List Addr}
    (hslot : c.packetCalendar slot = p :: rest) :
    (c.calendarRemove slot rest).Inv none ∧ (c.calendarRemove slot rest).InHand p := by
  have hp : p ∈ c.packetCalendar slot := hslot ▸ List.mem_cons_self
  have hnodup : (p :: rest).Nodup := hslot ▸ h.calendarNodup slot
  have hsub : ∀ q i, q ∈ (c.calendarRemove slot rest).packetCalendar i →
      q ∈ c.packetCalendar i := by
    intro q i hq
    have hq : q ∈ Function.update c.packetCalendar slot rest i := hq
    by_cases hi : i = slot
    · rw [hi, Function.update_self] at hq
      rw [hi, hslot]
      exact List.mem_cons_of_mem p hq
    · rwa [Function.update_of_ne hi] at hq
  refine ⟨⟨h.nodup, h.occupancy, h.null, h.cached, h.uncached,
    fun q hq i hcal => h.offCalendar q hq i (hsub q i hcal), ?_,
    fun q i j hi hj => h.calendarSlot q i j (hsub q i hi) (hsub q j hj),
    fun q i hq => h.calendarLive q i (hsub q i hq)⟩,
    ⟨h.calendarLive p slot hp, fun hc => h.offCalendar p hc slot hp, ?_⟩⟩
  · intro i
    show (Function.update c.packetCalendar slot rest i).Nodup
    by_cases hi : i = slot
    · rw [hi, Function.update_self]
      exact (List.nodup_cons.mp hnodup).2
    · rw [Function.update_of_ne hi]
      exact h.calendarNodup i
  · intro i hq
    have hi := h.calendarSlot p i slot (hsub p i hq) hp
    subst hi
    have hq : p ∈ Function.update c.packetCalendar i rest i := hq
    rw [Function.update_self] at hq
    exact (List.nodup_cons.mp hnodup).1 hq

end Core

end Modelnet.FreeBSD

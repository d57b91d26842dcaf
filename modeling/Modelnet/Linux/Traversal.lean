import Modelnet.Linux.Sections

/-!
# Every hop once

A call of the hook links its packet into the calendar before it has advanced it (`++pkt->path`
comes last), so the clock may serve a packet that still stands at the hop it has crossed, and send
it over that hop again. As long as no turn of the clock takes a packet whose call is not finished
(`NoEarlyServe`), every packet crosses the hops of its path in order, each once, and no call
touches a packet that is gone.
-/

namespace Modelnet

namespace PathTab

/-- The hops `hs` are the first ones of the path in block `arr`. -/
def StartsWith (t : PathTab) (arr : ℕ) (hs : List HopPtr) : Prop :=
  ∃ cells, t.pathArrs arr = some cells ∧ hs.map some <+: cells

/-- The hops `hs` are the path in block `arr`, up to its null. -/
def IsWhole (t : PathTab) (arr : ℕ) (hs : List HopPtr) : Prop :=
  ∃ cells, t.pathArrs arr = some cells ∧ hs.map some ++ [none] <+: cells

variable {t t' : PathTab} {arr : ℕ} {hs : List HopPtr}

/-- What is read behind the first hops comes next. -/
theorem StartsWith.next (h : t.StartsWith arr hs) {cur : Option HopPtr}
    (hread : t.readPath ⟨arr, hs.length⟩ = some cur) :
    ∃ cells, t.pathArrs arr = some cells ∧ hs.map some ++ [cur] <+: cells := by
  obtain ⟨cells, hcells, rest, hrest⟩ := h
  refine ⟨cells, hcells, ?_⟩
  unfold readPath at hread
  rw [hcells, Option.bind_some, ← hrest, List.getElem?_append_right (by simp)] at hread
  simp only [List.length_map, Nat.sub_self] at hread
  cases rest with
  | nil => cases hread
  | cons c rest =>
    cases hread
    exact ⟨rest, by rw [← hrest, List.append_assoc]; rfl⟩

theorem StartsWith.append (h : t.StartsWith arr hs) {ptr : HopPtr}
    (hread : t.readPath ⟨arr, hs.length⟩ = some (some ptr)) : t.StartsWith arr (hs ++ [ptr]) := by
  obtain ⟨cells, hcells, hpre⟩ := h.next hread
  exact ⟨cells, hcells, by rwa [List.map_append]⟩

end PathTab

namespace Linux

/-- An observation about the way of the packet. -/
def Obs.about (p : PktId) : Obs → Bool
  | .path q _ | .cross q _ | .forward q => q = p
  | _ => false

/-- The way of a packet in the log. -/
def trace (p : PktId) (log : List Obs) : List Obs := log.filter (Obs.about p)

/-- The way of a packet that has crossed the hops `hs` of its path. -/
def legs (p : PktId) (arr : ℕ) (hs : List HopPtr) : List Obs := .path p arr :: hs.map (.cross p)

variable {p q : PktId} {log seen : List Obs}

theorem trace_append (p : PktId) (log seen : List Obs) :
    trace p (log ++ seen) = trace p log ++ trace p seen := List.filter_append _ _

theorem legs_append (p : PktId) (arr : ℕ) (hs : List HopPtr) (ptr : HopPtr) :
    legs p arr hs ++ [.cross p ptr] = legs p arr (hs ++ [ptr]) := by
  simp [legs]

/-- **Traversal.** The packet has not started, or has crossed the first hops of its path, each once
and in order; when it was forwarded it had crossed all of them. -/
def Traversed (t : PathTab) (log : List Obs) (p : PktId) : Prop :=
  trace p log = [] ∨ ∃ arr hs,
    t.StartsWith arr hs ∧ trace p log = legs p arr hs ∨
    t.IsWhole arr hs ∧ trace p log = legs p arr hs ++ [.forward p]

/-- The packet is not on the calendar between this section and the one before. -/
def Pc.offCalendar : Pc → Prop
  | .readTick _ _ | .cross _ _ _ | .link _ _ _ => True
  | .advance _ ret => ret = enobufs

/-- The hop that the call is about. -/
def Pc.hop : Pc → HopPtr
  | .readTick h _ | .cross h _ _ | .link h _ _ | .advance h _ => h

/-- The hops that the call has crossed. -/
def Pc.crossed : Pc → ℕ
  | .readTick _ _ | .cross _ _ _ => 0
  | .link _ _ _ | .advance _ _ => 1

namespace Machine

/-- The packet is in the hands of a call. -/
def hand (m : Machine) (p : PktId) : Prop := ∃ c, m.calls p = some c ∧ c.pc.offCalendar

/-- The hops that the call for the packet has crossed. -/
def ahead (m : Machine) (p : PktId) : ℕ := ((m.calls p).map fun c => c.pc.crossed).getD 0

/-- A packet that is gone, or on its way with the hops `hs` behind it. -/
inductive Status (m : Machine) (p : PktId) : Prop where
  | gone (hpkt : m.kernel.pkts p = none) (hcall : m.calls p = none)
      (htrav : Traversed m.kernel.tab m.kernel.log p)
  | onWay {pkt : Packet} {path : PathPtr} {hs : List HopPtr} (hpkt : m.kernel.pkts p = some pkt)
      (hpath : pkt.path = some path) (hstart : m.kernel.tab.StartsWith path.arr hs)
      (hlen : hs.length = path.off + m.ahead p)
      (hcall : ∀ c, m.calls p = some c →
        m.kernel.tab.readPath path = some (some c.pc.hop) ∧
          ∃ hop, m.kernel.tab.hops c.pc.hop = some hop ∧ hop.emulator = 0)
      (htrace : trace p m.kernel.log = legs p path.arr hs)

/-- The invariant of the machine, over the paths that were loaded. -/
structure Sound (paths : ℕ → Option (List (Option HopPtr))) (m : Machine) : Prop where
  paths_eq : m.kernel.tab.pathArrs = paths
  owned : m.kernel.OwnedBy m.hand
  status : ∀ p, m.Status p
  fresh : ∀ p, m.kernel.nextPkt ≤ p → trace p m.kernel.log = []

/-- No turn of the clock takes a packet whose call has not advanced it. -/
def NoEarlyServe (m : Machine) : Move → Prop
  | .clock .serve => m.clockLocks → ∀ p l,
      m.kernel.packetCalendar m.kernel.curSlot = p :: l → m.calls p = none
  | _ => True

variable {hz : ℕ} {m m' : Machine} {pkt : Packet} {s : SkbId}
  {paths : ℕ → Option (List (Option HopPtr))}

theorem Status.traversed (h : m.Status p) : Traversed m.kernel.tab m.kernel.log p := by
  cases h with
  | gone _ _ htrav => exact htrav
  | onWay _ _ hstart _ _ htrace => exact Or.inr ⟨_, _, Or.inl ⟨hstart, htrace⟩⟩

/-- The tables change in the queues of the hops only. -/
structure SameLinks (t t' : PathTab) : Prop where
  pathArrs : t'.pathArrs = t.pathArrs
  hops : ∀ ptr hop, t.hops ptr = some hop → ∃ hop', t'.hops ptr = some hop' ∧
    hop'.emulator = hop.emulator

theorem SameLinks.refl (t : PathTab) : SameLinks t t := ⟨rfl, fun _ hop h => ⟨hop, h, rfl⟩⟩

theorem sameLinks_setHop {t : PathTab} {ptr : HopPtr} {hop hop' : Hop}
    (hhop : t.hops ptr = some hop) (hsame : hop.SameParams hop') :
    SameLinks t (t.setHop ptr hop') := by
  refine ⟨rfl, fun q hop₁ h₁ => ?_⟩
  by_cases hq : q = ptr
  · subst hq
    cases Option.some.inj (hhop.symm.trans h₁)
    exact ⟨hop', Function.update_self _ _ _, hsame.emulator⟩
  · exact ⟨hop₁, (Function.update_of_ne hq _ _).trans h₁, rfl⟩

theorem SameLinks.readPath {t t' : PathTab} (h : SameLinks t t') (path : PathPtr) :
    t'.readPath path = t.readPath path := by
  unfold PathTab.readPath
  rw [h.pathArrs]

theorem SameLinks.startsWith {t t' : PathTab} (h : SameLinks t t') {arr : ℕ} {hs : List HopPtr}
    (hstart : t.StartsWith arr hs) : t'.StartsWith arr hs := by
  unfold PathTab.StartsWith
  rw [h.pathArrs]
  exact hstart

theorem SameLinks.traversed {t t' : PathTab} (h : SameLinks t t')
    (htrav : Traversed t log p) : Traversed t' log p := by
  unfold Traversed PathTab.StartsWith PathTab.IsWhole at htrav ⊢
  rw [h.pathArrs]
  exact htrav

theorem Status.other (h : m.Status p) (hpkts : m'.kernel.pkts p = m.kernel.pkts p)
    (hcalls : m'.calls p = m.calls p) (hlinks : SameLinks m.kernel.tab m'.kernel.tab)
    (htrace : trace p m'.kernel.log = trace p m.kernel.log) : m'.Status p := by
  cases h with
  | gone hpkt hcall htrav =>
    refine .gone (hpkts.trans hpkt) (hcalls.trans hcall) ?_
    have htrav' := hlinks.traversed htrav
    unfold Traversed at htrav' ⊢
    rw [htrace]
    exact htrav'
  | onWay hpkt hpath hstart hlen hcall htr =>
    have hahead : m'.ahead p = m.ahead p := by
      unfold ahead
      rw [hcalls]
    refine .onWay (hpkts.trans hpkt) hpath (hlinks.startsWith hstart) (by rw [hahead]; exact hlen)
      (fun c hc => ?_) (htrace.trans htr)
    obtain ⟨hread, hop, hhop, hemulator⟩ := hcall c (hcalls.symm.trans hc)
    obtain ⟨hop', hhop', heq⟩ := hlinks.hops _ hop hhop
    exact ⟨(hlinks.readPath _).trans hread, hop', hhop', heq.trans hemulator⟩

/-- A step about the packet `p` keeps the invariant if it does so for `p`. -/
theorem Sound.of_status (h : m.Sound paths) (p : PktId) (howned : m'.kernel.OwnedBy m'.hand)
    (hstatus : m'.Status p) (hpkts : ∀ q, q ≠ p → m'.kernel.pkts q = m.kernel.pkts q)
    (hcalls : ∀ q, q ≠ p → m'.calls q = m.calls q) (hlinks : SameLinks m.kernel.tab m'.kernel.tab)
    (htrace : ∀ q, q ≠ p → trace q m'.kernel.log = trace q m.kernel.log)
    (hnext : m.kernel.nextPkt ≤ m'.kernel.nextPkt) (hp : p < m'.kernel.nextPkt) :
    m'.Sound paths := by
  refine ⟨hlinks.pathArrs.trans h.paths_eq, howned, fun q => ?_, fun q hq => ?_⟩
  · by_cases hqp : q = p
    · exact hqp ▸ hstatus
    · exact (h.status q).other (hpkts q hqp) (hcalls q hqp) hlinks (htrace q hqp)
  · have hqp : q ≠ p := by
      rintro rfl
      exact absurd hp (Nat.not_lt.mpr hq)
    rw [htrace q hqp]
    exact h.fresh q (hnext.trans hq)

theorem Sound.lt_nextPkt (h : m.Sound paths) (hp : m.kernel.pkts p = some pkt) :
    p < m.kernel.nextPkt := by
  by_contra hge
  rw [h.owned.fresh p (Nat.not_lt.mp hge)] at hp
  cases hp

theorem Sound.holding (h : m.Sound paths) (hp : m.kernel.pkts p = some pkt) :
    ∃ s, Holding m.kernel p pkt s := by
  obtain ⟨pkt', s, hh⟩ := h.owned.holding p (by rw [hp]; rfl)
  cases Option.some.inj (hp.symm.trans hh.read)
  exact ⟨s, hh⟩

theorem hand_resume (m : Machine) (p q : PktId) (s : SkbId) (k : Kernel) (pc : Pc) :
    (m.resume p s (k, some pc)).hand q ↔ q = p ∧ pc.offCalendar ∨ q ≠ p ∧ m.hand q := by
  unfold hand resume
  by_cases hq : q = p
  · subst hq
    simp
  · simp [hq]

theorem hand_resume_none (m : Machine) (p q : PktId) (s : SkbId) (k : Kernel) :
    (m.resume p s (k, none)).hand q ↔ m.hand q ∧ q ≠ p := by
  unfold hand resume
  by_cases hq : q = p
  · subst hq
    simp
  · simp [hq]

/-- The effect of a section on the packets other than `p`. -/
structure Apart (p : PktId) (k k' : Kernel) : Prop where
  pkts : ∀ q, q ≠ p → k'.pkts q = k.pkts q
  links : SameLinks k.tab k'.tab
  trace : ∀ q, q ≠ p → trace q k'.log = trace q k.log
  nextPkt : k.nextPkt ≤ k'.nextPkt

theorem Sound.resume (h : m.Sound paths) {k : Kernel} {pc : Pc} {path : PathPtr} {hs : List HopPtr}
    (s : SkbId) (hapart : Apart p m.kernel k)
    (howned : k.OwnedBy fun q => q = p ∧ pc.offCalendar ∨ q ≠ p ∧ m.hand q)
    (hpkt : k.pkts p = some pkt) (hpath : pkt.path = some path)
    (hstart : k.tab.StartsWith path.arr hs) (hlen : hs.length = path.off + pc.crossed)
    (hread : k.tab.readPath path = some (some pc.hop))
    (hlocal : ∃ hop, k.tab.hops pc.hop = some hop ∧ hop.emulator = 0)
    (htrace : trace p k.log = legs p path.arr hs) (hlt : p < k.nextPkt) :
    (m.resume p s (k, some pc)).Sound paths := by
  have hself : (m.resume p s (k, some pc)).calls p = some ⟨s, pc⟩ := Function.update_self _ _ _
  refine h.of_status p (howned.congrHand fun q => (hand_resume m p q s k pc).symm) ?_
    hapart.pkts (fun q hq => Function.update_of_ne hq _ _) hapart.links hapart.trace
    hapart.nextPkt hlt
  refine .onWay hpkt hpath hstart ?_ (fun c hc => ?_) htrace
  · unfold ahead
    rw [hself]
    exact hlen
  · cases Option.some.inj (hself.symm.trans hc)
    exact ⟨hread, hlocal⟩

theorem Sound.finish (h : m.Sound paths) {k : Kernel} (s : SkbId) (hapart : Apart p m.kernel k)
    (howned : k.OwnedBy fun q => m.hand q ∧ q ≠ p) (hlt : p < k.nextPkt)
    (hstatus : (m.resume p s (k, none)).Status p) : (m.resume p s (k, none)).Sound paths := by
  refine h.of_status p ?_ hstatus hapart.pkts (fun q hq => Function.update_of_ne hq _ _)
    hapart.links (fun q hq => ?_) hapart.nextPkt hlt
  · have hverdict : (k.giveVerdict s .stolen).OwnedBy fun q => m.hand q ∧ q ≠ p :=
      howned.congr rfl rfl rfl (Nat.le_refl _) (Nat.le_refl _) id
    exact hverdict.congrHand fun q => (hand_resume_none m p q s k).symm
  · show trace q (k.log ++ _) = _
    rw [trace_append, hapart.trace q hq]
    exact List.append_nil _

/-! ## The sections of a call -/

theorem crossLink_facts {k : Kernel} {ptr : HopPtr} {hop' : Hop} {path : PathPtr}
    {hs : List HopPtr} (hlinks : SameLinks k.tab (k.tab.setHop ptr hop'))
    (hstart : k.tab.StartsWith path.arr hs) (hlen : hs.length = path.off)
    (hread : k.tab.readPath path = some (some ptr))
    (hlocal : ∃ hop, k.tab.hops ptr = some hop ∧ hop.emulator = 0)
    (htrace : trace p k.log = legs p path.arr hs) :
    (k.crossLink p ptr hop').tab.StartsWith path.arr (hs ++ [ptr]) ∧
      (∃ hop, (k.crossLink p ptr hop').tab.hops ptr = some hop ∧ hop.emulator = 0) ∧
      trace p (k.crossLink p ptr hop').log = legs p path.arr (hs ++ [ptr]) ∧
      ∀ q, q ≠ p → trace q (k.crossLink p ptr hop').log = trace q k.log := by
  obtain ⟨arr, off⟩ := path
  dsimp only at hlen hstart htrace
  subst hlen
  refine ⟨hlinks.startsWith (hstart.append hread), ?_, ?_, fun q hq => ?_⟩
  · obtain ⟨hop, hhop, hemulator⟩ := hlocal
    obtain ⟨hop₁, hhop₁, heq⟩ := hlinks.hops ptr hop hhop
    exact ⟨hop₁, hhop₁, heq.trans hemulator⟩
  · show trace p (k.log ++ [.cross p ptr]) = _
    rw [trace_append, htrace, ← legs_append]
    simp [trace, Obs.about]
  · show trace q (k.log ++ [.cross p ptr]) = _
    rw [trace_append]
    simp [trace, Obs.about, hq.symm]

/-- **A section** of a call keeps the invariant. -/
theorem Sound.section (h : m.Sound paths) {c : HookCall} (hc : m.calls p = some c)
    {r : Kernel × Option Pc} (hr : m.kernel.callSection hz p c.pc = some r) :
    (m.resume p c.skb r).Sound paths := by
  have hahead : m.ahead p = c.pc.crossed := by
    unfold ahead
    rw [hc]
    rfl
  have hhand : ∀ q, m.hand q ↔ q = p ∧ c.pc.offCalendar ∨ q ≠ p ∧ m.hand q := by
    intro q
    by_cases hq : q = p
    · subst hq
      simp [hand, hc]
    · simp [hq]
  cases h.status p with
  | gone hpkt hcall => exact absurd (hcall.symm.trans hc) (by simp)
  | @onWay pkt path hs hpkt hpath hstart hlen hcall htrace =>
    obtain ⟨s, hp⟩ := h.holding hpkt
    obtain ⟨hread, hlocal⟩ := hcall c hc
    have hlt := h.lt_nextPkt hpkt
    have howned := h.owned.congrHand hhand
    rw [hahead] at hlen
    generalize c.pc = pc at hr hlen hread hlocal hhand howned
    have hstep := Kernel.sectionStep_of_callSection hp hr
    cases hstep with
    | readTick ptr randomVal =>
      exact h.resume c.skb ⟨fun _ _ => rfl, SameLinks.refl _, fun _ _ => rfl, Nat.le_refl _⟩ howned
        hpkt hpath hstart hlen hread hlocal htrace hlt
    | @dropped ptr randomVal curtick hop hop' plr bw hhop hemulate =>
      have hlinks := sameLinks_setHop hhop (sameParams_emulateHop hemulate).1
      obtain ⟨hstart', hlocal', htrace', hother⟩ :=
        crossLink_facts hlinks hstart hlen hread hlocal htrace
      have hcross : (m.kernel.crossLink p ptr hop').OwnedBy _ :=
        howned.congr rfl rfl rfl (Nat.le_refl _) (Nat.le_refl _) id
      refine h.resume c.skb ⟨fun _ _ => rfl, hlinks, hother, Nat.le_refl _⟩
        (hcross.congrHand fun q => ?_) hpkt hpath hstart' (by rw [List.length_append, hlen]; rfl)
        ((hlinks.readPath path).trans hread) hlocal' htrace' hlt
      exact or_congr_left (and_congr_right fun _ => ⟨fun _ => rfl, fun _ => trivial⟩)
    | @queued ptr randomVal curtick hop hop' x due hhop hemulate =>
      have hlinks := sameLinks_setHop hhop (sameParams_emulateHop hemulate).1
      obtain ⟨hstart', hlocal', htrace', hother⟩ :=
        crossLink_facts hlinks hstart hlen hread hlocal htrace
      have hcross : (m.kernel.crossLink p ptr hop').OwnedBy _ :=
        howned.congr rfl rfl rfl (Nat.le_refl _) (Nat.le_refl _) id
      have hp' : Holding (m.kernel.crossLink p ptr hop') p pkt s := hp.of_eq rfl rfl
      refine h.resume c.skb ⟨fun q hq => Function.update_of_ne hq _ _, hlinks, hother,
          Nat.le_refl _⟩ (hcross.setPkt hp' { pkt with state := qBwDelay } rfl hp.id)
        (Function.update_self _ _ _) hpath hstart' (by rw [List.length_append, hlen]; rfl)
        ((hlinks.readPath path).trans hread) hlocal' htrace' hlt
    | link ptr curtick due =>
      have hother : ∀ q, trace q (m.kernel.listAddTail p due).log = trace q m.kernel.log :=
        fun q => (trace_append q _ _).trans (List.append_nil _)
      refine h.resume c.skb ⟨fun _ _ => rfl, SameLinks.refl _, fun q _ => hother q, Nat.le_refl _⟩
        ((howned.listAddTail (Or.inl ⟨rfl, trivial⟩) due).congrHand fun q => ?_) hpkt hpath hstart
        hlen hread hlocal ((hother p).trans htrace) hlt
      have hon : ¬ (Pc.advance ptr 0).offCalendar := show (0 : ℤ) ≠ enobufs by decide
      by_cases hq : q = p
      · simp [hq, hon]
      · simp [hq]
    | @freed ptr ret hop hhop hfree =>
      obtain ⟨hop₀, hhop₀, hemulator₀⟩ := hlocal
      have hret : ret = enobufs := hfree.resolve_left (by
        rw [← Option.some.inj (hhop₀.symm.trans hhop)]
        exact not_not.mpr hemulator₀)
      have hother : ∀ q, trace q (m.kernel.consume p s [.kfreeSkb s, .kfree p]).log =
          trace q m.kernel.log := fun q => (trace_append q _ _).trans (List.append_nil _)
      refine h.finish c.skb ⟨fun q hq => Function.update_of_ne hq _ _, SameLinks.refl _,
        fun q _ => hother q, Nat.le_refl _⟩
        ((howned.consume (Or.inl ⟨rfl, hret⟩) hp _).congrHand fun q => ?_) hlt
        (.gone (Function.update_self _ _ _) (Function.update_self _ _ _)
          (Or.inr ⟨path.arr, hs, Or.inl ⟨hstart, ?_⟩⟩))
      · by_cases hq : q = p
        · simp [hq]
        · simp [hq]
      · show trace p (_ ++ [.verdict c.skb .stolen]) = _
        rw [trace_append, hother p, htrace]
        exact List.append_nil _
    | @moved ptr ret path' hpath' hret =>
      cases Option.some.inj (hpath.symm.trans hpath')
      have hself : (m.resume p c.skb (m.kernel.setPkt p (pkt.incr path), none)).calls p = none :=
        Function.update_self _ _ _
      refine h.finish c.skb ⟨fun q hq => Function.update_of_ne hq _ _, SameLinks.refl _,
        fun q _ => rfl, Nat.le_refl _⟩
        ((howned.setPkt hp (pkt.incr path) rfl hp.id).congrHand fun q => ?_) hlt
        (.onWay (Function.update_self _ _ _) rfl hstart ?_ (fun c' hc' => ?_) ?_)
      · have hon : ¬ (Pc.advance ptr ret).offCalendar := hret
        by_cases hq : q = p
        · simp [hq, hon]
        · simp [hq]
      · unfold ahead
        rw [hself]
        exact hlen
      · exact absurd (hself.symm.trans hc') (by simp)
      · show trace p (_ ++ [.verdict c.skb .stolen]) = _
        rw [trace_append]
        exact (List.append_nil _).trans htrace

/-! ## The other moves -/

/-- **A packet in no call** is served: it goes over the next hop of its path, or to the end of it. -/
theorem Sound.serve (h : m.Sound paths) {l : List PktId} {k' : Kernel}
    (hslot : m.kernel.packetCalendar m.kernel.curSlot = p :: l) (hcall : m.calls p = none)
    (hk : (m.kernel.listDel m.kernel.curSlot p).emulateNexthop hz p = some k') :
    Sound paths { m with kernel := k' } := by
  have hahead : ∀ k, ahead { m with kernel := k } p = 0 := by
    intro k
    unfold ahead
    rw [hcall]
    rfl
  have hmem : p ∈ m.kernel.calendar := by
    rw [Kernel.calendar_listDel hslot]
    exact List.mem_cons_self
  obtain ⟨pkt, s, hp⟩ := h.owned.holding_of_mem hmem
  have hlt := h.lt_nextPkt hp.read
  cases h.status p with
  | gone hpkt => exact absurd (hpkt.symm.trans hp.read) (by simp)
  | @onWay pkt' path hs hpkt hpath hstart hlen _ htrace =>
    cases Option.some.inj (hpkt.symm.trans hp.read)
    rw [show m.ahead p = 0 from hahead m.kernel, Nat.add_zero] at hlen
    have hp' : Holding (m.kernel.listDel m.kernel.curSlot p) p pkt s := hp.of_eq rfl rfl
    have hnext := Kernel.nextHop_of_emulateNexthop hp' (h.owned.hook p (by rw [hpkt]; rfl)) hk
    have howned := h.owned.serve hslot hp' hnext
    obtain ⟨arr, off⟩ := path
    dsimp only at hstart hlen htrace
    subst hlen
    -- what the calendar does is not about the way of a packet
    have hdel : ∀ q seen, trace q (m.kernel.log ++ [.remove p m.kernel.calendarTick] ++ seen) =
        trace q m.kernel.log ++ trace q seen := by
      intro q seen
      rw [trace_append, trace_append]
      exact congrArg (· ++ _) (List.append_nil _)
    cases hnext with
    | @forward path' hpath' hread hhook =>
      cases Option.some.inj (hpath.symm.trans hpath')
      obtain ⟨cells, hcells, hpre⟩ := hstart.next hread
      refine h.of_status p howned (.gone (Function.update_self _ _ _) hcall
        (Or.inr ⟨arr, hs, Or.inr ⟨⟨cells, hcells, hpre⟩, ?_⟩⟩))
        (fun q hq => Function.update_of_ne hq _ _) (fun _ _ => rfl) (SameLinks.refl _)
        (fun q hq => ?_) (Nat.le_refl _) hlt
      · refine (hdel p _).trans ?_
        rw [htrace]
        simp [trace, Obs.about]
      · refine (hdel q _).trans ?_
        simp [trace, Obs.about, hq.symm]
    | remote =>
      refine h.of_status p howned (.gone (Function.update_self _ _ _) hcall
        (Or.inr ⟨arr, hs, Or.inl ⟨hstart, ?_⟩⟩))
        (fun q hq => Function.update_of_ne hq _ _) (fun _ _ => rfl) (SameLinks.refl _)
        (fun q hq => ?_) (Nat.le_refl _) hlt
      · refine (hdel p _).trans ?_
        rw [htrace]
        exact List.append_nil _
      · exact (hdel q _).trans (List.append_nil _)
    | @dropped path' ptr hop hop' plr bw hpath' hread hhop _ hemulate =>
      cases Option.some.inj (hpath.symm.trans hpath')
      have hlinks := sameLinks_setHop hhop (sameParams_emulateHop hemulate).1
      refine h.of_status p howned (.gone (Function.update_self _ _ _) hcall
        (Or.inr ⟨arr, hs ++ [ptr], Or.inl ⟨hlinks.startsWith (hstart.append hread), ?_⟩⟩))
        (fun q hq => Function.update_of_ne hq _ _) (fun _ _ => rfl) hlinks
        (fun q hq => ?_) (Nat.le_refl _) hlt
      · refine (trace_append p _ _).trans ((List.append_nil _).trans ?_)
        refine (hdel p [.cross p ptr]).trans ?_
        rw [htrace, ← legs_append]
        simp [trace, Obs.about]
      · refine (trace_append q _ _).trans ((List.append_nil _).trans ?_)
        refine (hdel q [.cross p ptr]).trans ?_
        simp [trace, Obs.about, hq.symm]
    | @queued path' ptr hop hop' x due hpath' hread hhop _ hemulate =>
      cases Option.some.inj (hpath.symm.trans hpath')
      have hlinks := sameLinks_setHop hhop (sameParams_emulateHop hemulate).1
      refine h.of_status p howned (.onWay (Function.update_self _ _ _) rfl
        (hlinks.startsWith (hstart.append hread)) ?_ (fun c hc => ?_) ?_)
        (fun q hq => Function.update_of_ne hq _ _) (fun _ _ => rfl) hlinks
        (fun q hq => ?_) (Nat.le_refl _) hlt
      · rw [hahead, List.length_append]
        rfl
      · exact absurd (hcall.symm.trans hc) (by simp)
      · refine (trace_append p _ _).trans ((List.append_nil _).trans ?_)
        refine (hdel p [.cross p ptr]).trans ?_
        rw [htrace, ← legs_append]
        simp [trace, Obs.about]
      · refine (trace_append q _ _).trans ((List.append_nil _).trans ?_)
        refine (hdel q [.cross p ptr]).trans ?_
        simp [trace, Obs.about, hq.symm]

/-- **A turn of the clock** keeps the invariant, if it takes no packet from under a call. -/
theorem Sound.clock (h : m.Sound paths) {turn : Kernel.ClockTurn} {k' : Kernel}
    (hguard : turn = .serve → ∀ p l, m.kernel.packetCalendar m.kernel.curSlot = p :: l →
      m.calls p = none)
    (hk : m.kernel.clockTurn hz turn = some k') : Sound paths { m with kernel := k' } := by
  rcases Kernel.clockTurn_cases hk with rfl | ⟨-, hslot, rfl⟩ | ⟨hserve, p, l, hslot, hnext⟩
  · exact h
  · exact ⟨h.paths_eq, h.owned.tick hslot, fun p => (h.status p).other rfl rfl (SameLinks.refl _) rfl, h.fresh⟩
  · exact h.serve hslot (hguard hserve p l hslot) hnext

theorem apart_start (k : Kernel) (skb : SkBuff) (okfn : Okfn) (arr : ℕ) :
    Apart k.nextPkt k (k.start skb okfn arr) := by
  refine ⟨fun q hq => ?_, SameLinks.refl _, fun q hq => ?_, Nat.le_succ _⟩
  · show Function.update (Function.update k.pkts _ _) _ _ q = _
    rw [Function.update_of_ne hq, Function.update_of_ne hq]
  · show trace q (k.log ++ [.input k.nextSkb, .kmalloc k.nextPkt] ++ [.path k.nextPkt arr]) = _
    rw [trace_append, trace_append]
    simp [trace, Obs.about, hq.symm]

/-- The way of a packet that is let in begins. -/
theorem trace_start {k : Kernel} (hfresh : trace k.nextPkt k.log = []) (skb : SkBuff) (okfn : Okfn)
    (arr : ℕ) : trace k.nextPkt (k.start skb okfn arr).log = legs k.nextPkt arr [] := by
  show trace _ (k.log ++ [.input k.nextSkb, .kmalloc k.nextPkt] ++ [.path k.nextPkt arr]) = _
  rw [trace_append, trace_append, hfresh]
  simp [trace, Obs.about, legs]

/-- **An arrival** keeps the invariant. -/
theorem Sound.input (h : m.Sound paths) {skb : SkBuff} {kmallocOk : Bool} {okfn : Okfn}
    (hstep : m.step hz (.input skb kmallocOk okfn) = some m') : m'.Sound paths := by
  obtain ⟨r, henter, hstep⟩ := Option.bind_eq_some_iff.mp hstep
  have hnone := h.owned.fresh m.kernel.nextPkt (Nat.le_refl _)
  cases Kernel.entered_of_enter henter with
  | passed hhook =>
    cases hstep
    have hlog : ∀ q, trace q (m.kernel.log ++ [.input m.kernel.nextSkb] ++
        [.verdict m.kernel.nextSkb .accept]) = trace q m.kernel.log := by
      intro q
      rw [trace_append, trace_append]
      exact (List.append_nil _).trans (List.append_nil _)
    exact ⟨h.paths_eq, h.owned.passed hhook,
      fun p => (h.status p).other rfl rfl (SameLinks.refl _) (hlog p),
      fun p hp => (hlog p).trans (h.fresh p hp)⟩
  | noPath =>
    cases hstep
    have hlog : ∀ q, trace q (m.kernel.log ++ [.input m.kernel.nextSkb, .kmalloc m.kernel.nextPkt] ++
        [.kfree m.kernel.nextPkt] ++ [.verdict m.kernel.nextSkb .accept]) =
        trace q m.kernel.log := by
      intro q
      rw [trace_append, trace_append, trace_append]
      exact (List.append_nil _).trans ((List.append_nil _).trans (List.append_nil _))
    have hpkts : ((m.kernel.arrival skb okfn).kfreePkt m.kernel.nextPkt).pkts = m.kernel.pkts := by
      show Function.update (Function.update m.kernel.pkts _ _) _ none = m.kernel.pkts
      rw [Function.update_idem, ← hnone, Function.update_eq_self]
    refine ⟨h.paths_eq, h.owned.noPath skb okfn, fun p => (h.status p).other (congrFun hpkts p) rfl
      (SameLinks.refl _) (hlog p), fun p hp => (hlog p).trans (h.fresh p ?_)⟩
    exact (Nat.le_succ _).trans hp
  | @started arr hpath =>
    obtain ⟨r, hbegin, rfl⟩ := Option.map_eq_some_iff.mp hstep
    have hp := Kernel.holding_start m.kernel skb okfn arr
    have howned := h.owned.start skb okfn arr
    have hapart := apart_start m.kernel skb okfn arr
    have htrace := trace_start (h.fresh _ (Nat.le_refl _)) skb okfn arr
    have hlt : m.kernel.nextPkt < (m.kernel.start skb okfn arr).nextPkt := Nat.lt_succ_self _
    have hstart : ∀ {cur}, (m.kernel.start skb okfn arr).tab.readPath ⟨arr, 0⟩ = some cur →
        m.kernel.tab.StartsWith arr [] := by
      intro cur hread
      obtain ⟨cells, hcells, -⟩ := Option.bind_eq_some_iff.mp hread
      exact ⟨cells, hcells, List.nil_prefix⟩
    have hends : ∀ q, (m.hand q ∨ q = m.kernel.nextPkt) ∧ q ≠ m.kernel.nextPkt ↔
        m.hand q ∧ q ≠ m.kernel.nextPkt := fun q =>
      and_congr_left fun hq => or_iff_left hq
    have hstep := Kernel.beginStep_of_beginNexthop hp rfl hbegin
    cases hstep with
    | @forward path hpath hread =>
      cases hpath
      obtain ⟨cells, hcells, hpre⟩ := (hstart hread).next hread
      refine h.finish m.kernel.nextSkb ⟨fun q hq => (Function.update_of_ne hq _ _).trans
        (hapart.pkts q hq), SameLinks.refl _, fun q hq => ?_, Nat.le_succ _⟩
        ((howned.consume (Or.inr rfl) hp _).congrHand hends) hlt
        (.gone (Function.update_self _ _ _) (Function.update_self _ _ _)
          (Or.inr ⟨arr, [], Or.inr ⟨⟨cells, hcells, hpre⟩, ?_⟩⟩))
      · refine (trace_append q _ _).trans ?_
        rw [hapart.trace q hq]
        simp [trace, Obs.about, hq.symm]
      · refine (trace_append _ _ _).trans ((List.append_nil _).trans ?_)
        refine (trace_append _ _ _).trans ?_
        rw [htrace]
        simp [trace, Obs.about]
    | @remote path ptr hpath hread =>
      cases hpath
      refine h.finish m.kernel.nextSkb ⟨fun q hq => (Function.update_of_ne hq _ _).trans
        (hapart.pkts q hq), SameLinks.refl _, fun q hq => ?_, Nat.le_succ _⟩
        ((howned.consume (Or.inr rfl) hp _).congrHand hends) hlt
        (.gone (Function.update_self _ _ _) (Function.update_self _ _ _)
          (Or.inr ⟨arr, [], Or.inl ⟨hstart hread, ?_⟩⟩))
      · exact (trace_append q _ _).trans ((List.append_nil _).trans (hapart.trace q hq))
      · refine (trace_append _ _ _).trans ((List.append_nil _).trans ?_)
        exact (trace_append _ _ _).trans ((List.append_nil _).trans htrace)
    | @call path ptr hop hpath hread hhop hemulator =>
      cases hpath
      have hdraw : ((m.kernel.start skb okfn arr).drawRandom).OwnedBy fun q =>
          m.hand q ∨ q = m.kernel.nextPkt :=
        howned.congr rfl rfl rfl (Nat.le_refl _) (Nat.le_refl _) id
      refine h.resume m.kernel.nextSkb ⟨hapart.pkts, SameLinks.refl _, hapart.trace,
        Nat.le_succ _⟩ (hdraw.congrHand fun q => ?_) hp.read rfl (hstart hread) rfl hread
        ⟨hop, hhop, hemulator⟩ htrace hlt
      by_cases hq : q = m.kernel.nextPkt
      · simp [hq, Pc.offCalendar]
      · simp [hq]

theorem Sound.step (h : m.Sound paths) {move : Move} (hguard : m.NoEarlyServe move)
    (hstep : m.step hz move = some m') : m'.Sound paths := by
  cases move with
  | input skb kmallocOk okfn => exact h.input hstep
  | hook p =>
    unfold Machine.step at hstep
    dsimp only at hstep
    cases hc : m.calls p with
    | none =>
      rw [hc] at hstep
      cases hstep
      exact h
    | some c =>
      rw [hc] at hstep
      dsimp only at hstep
      split_ifs at hstep
      · cases hstep
        exact h
      · obtain ⟨r, hr, rfl⟩ := Option.map_eq_some_iff.mp hstep
        exact h.section hc hr
  | lockCalendar =>
    cases hstep
    exact ⟨h.paths_eq, h.owned, fun p => (h.status p).other rfl rfl (SameLinks.refl _) rfl, h.fresh⟩
  | clock turn =>
    unfold Machine.step at hstep
    dsimp only at hstep
    split_ifs at hstep with hlock
    · obtain ⟨k', hk', rfl⟩ := Option.map_eq_some_iff.mp hstep
      refine h.clock (fun hturn p l hslot => ?_) hk'
      subst hturn
      exact hguard hlock p l hslot
    · cases hstep
      exact h
  | unlockCalendar =>
    cases hstep
    exact ⟨h.paths_eq, h.owned, fun p => (h.status p).other rfl rfl (SameLinks.refl _) rfl, h.fresh⟩

/-! ## Every section completes -/

variable {P : Hop → Prop}

theorem onRoute_section {k : Kernel} (hP : Hop.Parametric P) (hr : k.OnRoute P)
    (hp : Holding k p pkt s) {path : PathPtr} (hpath : pkt.path = some path) {pc : Pc}
    (hread : k.tab.readPath path = some (some pc.hop)) {r : Kernel × Option Pc}
    (hstep : Kernel.SectionStep hz k p pkt s pc r) : r.1.OnRoute P := by
  obtain ⟨path', hs, hpath', hroute, hoff⟩ := hr.packet p pkt hp.read
  cases Option.some.inj (hpath.symm.trans hpath')
  cases hstep with
  | readTick => exact hr
  | @dropped ptr _ _ hop hop' _ _ hhop hemulate =>
    exact (hr.crossHop (p := p) hP hhop (sameParams_emulateHop hemulate).1).congr rfl rfl
  | @queued ptr _ _ hop hop' _ _ hhop hemulate =>
    have hsame := (sameParams_emulateHop hemulate).1
    have hcross := hr.crossHop (p := p) hP hhop hsame
    exact (hcross.setPkt { pkt with state := qBwDelay } path hpath
      (hroute.setHop hP hhop hsame) hoff p).congr rfl rfl
  | link => exact hr.congr rfl rfl
  | freed => exact hr.consume _ _ _
  | @moved _ _ path₁ hpath₁ _ =>
    cases Option.some.inj (hpath.symm.trans hpath₁)
    have hlt := (List.getElem?_eq_some_iff.mp (hroute.lt_of_readPath hoff hread)).1
    exact hr.setPkt (pkt.incr path) ⟨path.arr, path.off + 1⟩ rfl hroute hlt p

theorem onRoute_begin {k : Kernel} (hr : k.OnRoute P) {r : Kernel × Option Pc}
    (hstep : Kernel.BeginStep k p pkt s r) : r.1.OnRoute P := by
  cases hstep with
  | forward => exact hr.consume _ _ _
  | remote => exact hr.consume _ _ _
  | call => exact hr.congr rfl rfl

theorem onRoute_resume {r : Kernel × Option Pc} (hr : r.1.OnRoute P) :
    (m.resume p s r).kernel.OnRoute P := by
  obtain ⟨k, pc⟩ := r
  cases pc with
  | none => exact hr.congr rfl rfl
  | some pc => exact hr

/-- Sections and turns keep the packets on their routes. -/
theorem Sound.onRoute (hP : Hop.Parametric P) (h : m.Sound paths) (hr : m.kernel.OnRoute P)
    {move : Move} (hstep : m.step hz move = some m') : m'.kernel.OnRoute P := by
  cases move with
  | input skb kmallocOk okfn =>
    obtain ⟨r, henter, hstep⟩ := Option.bind_eq_some_iff.mp hstep
    have hnone := h.owned.fresh m.kernel.nextPkt (Nat.le_refl _)
    cases Kernel.entered_of_enter henter with
    | passed =>
      cases hstep
      exact hr.congr rfl rfl
    | noPath =>
      cases hstep
      refine hr.congr rfl ?_
      show Function.update (Function.update m.kernel.pkts _ _) _ none = m.kernel.pkts
      rw [Function.update_idem, ← hnone, Function.update_eq_self]
    | @started arr hpath =>
      obtain ⟨r, hbegin, rfl⟩ := Option.map_eq_some_iff.mp hstep
      have hp := Kernel.holding_start m.kernel skb okfn arr
      exact onRoute_resume (onRoute_begin (hr.start okfn hpath)
        (Kernel.beginStep_of_beginNexthop hp rfl hbegin))
  | hook p =>
    unfold Machine.step at hstep
    dsimp only at hstep
    cases hc : m.calls p with
    | none =>
      rw [hc] at hstep
      cases hstep
      exact hr
    | some c =>
      rw [hc] at hstep
      dsimp only at hstep
      split_ifs at hstep
      · cases hstep
        exact hr
      · obtain ⟨r, hsection, rfl⟩ := Option.map_eq_some_iff.mp hstep
        cases h.status p with
        | gone hpkt hcall => exact absurd (hcall.symm.trans hc) (by simp)
        | @onWay pkt path hs hpkt hpath hstart hlen hcall htrace =>
          obtain ⟨s, hp⟩ := h.holding hpkt
          exact onRoute_resume (onRoute_section hP hr hp hpath (hcall c hc).1
            (Kernel.sectionStep_of_callSection hp hsection))
  | lockCalendar =>
    cases hstep
    exact hr
  | clock turn =>
    unfold Machine.step at hstep
    dsimp only at hstep
    split_ifs at hstep
    · obtain ⟨k', hk', rfl⟩ := Option.map_eq_some_iff.mp hstep
      rcases Kernel.clockTurn_cases hk' with rfl | ⟨-, hslot, rfl⟩ | ⟨-, p, l, hslot, hnext⟩
      · exact hr
      · exact hr.congr rfl rfl
      · have hmem : p ∈ m.kernel.calendar := by
          rw [Kernel.calendar_listDel hslot]
          exact List.mem_cons_self
        obtain ⟨pkt, s, hp⟩ := h.owned.holding_of_mem hmem
        have hp' : Holding (m.kernel.listDel m.kernel.curSlot p) p pkt s := hp.of_eq rfl rfl
        have hnext := Kernel.nextHop_of_emulateNexthop hp'
          (h.owned.hook p (by rw [hp.read]; rfl)) hnext
        have hdel : (m.kernel.listDel m.kernel.curSlot p).OnRoute P := hr.congr rfl rfl
        exact hdel.nextHop hP hp'.read hnext
    · cases hstep
      exact hr
  | unlockCalendar =>
    cases hstep
    exact hr

theorem callSection_isSome (hz : ℕ) (hC : ∀ hop, P hop → hop.Crossable) (h : m.Sound paths)
    (hr : m.kernel.OnRoute P) {c : HookCall} (hc : m.calls p = some c) :
    (m.kernel.callSection hz p c.pc).isSome := by
  cases h.status p with
  | gone hpkt hcall => exact absurd (hcall.symm.trans hc) (by simp)
  | @onWay pkt path hs hpkt hpath hstart hlen hcall htrace =>
    obtain ⟨s, hp⟩ := h.holding hpkt
    obtain ⟨hread, hop, hhop, hemulator⟩ := hcall c hc
    generalize c.pc = pc at hread hhop
    cases pc with
    | readTick => rfl
    | cross ptr randomVal curtick =>
      obtain ⟨path', hs', hpath', hroute, hoff⟩ := hr.packet p pkt hpkt
      cases Option.some.inj (hpath.symm.trans hpath')
      have hget := hroute.lt_of_readPath hoff hread
      obtain ⟨hop', hhop', hPhop⟩ := hroute.hop _ (List.mem_of_getElem? hget)
      cases Option.some.inj (hhop.symm.trans hhop')
      unfold Kernel.callSection Kernel.hopSection
      dsimp only
      rw [hpkt, Option.bind_some, show m.kernel.tab.hops ptr = some hop from hhop,
        Option.bind_some, Option.isSome_map, Option.isSome_map]
      exact emulateHop_isSome hz pkt.info.len curtick randomVal (hC hop hPhop) hemulator
    | link => rfl
    | advance ptr ret =>
      unfold Kernel.callSection
      dsimp only
      rw [Option.isSome_map,
        Kernel.finishNexthop_eq hp hpath (show m.kernel.tab.hops ptr = some hop from hhop)]
      split_ifs <;> rfl

theorem beginNexthop_isSome {k : Kernel} (hr : k.OnRoute P) (hp : Holding k p pkt s)
    (hhook : k.ipRcvFinishHook.isSome) : (k.beginNexthop p).isSome := by
  obtain ⟨path, hs, hpath, hroute, hoff⟩ := hr.packet p pkt hp.read
  unfold Kernel.beginNexthop
  rw [hp.read, Option.bind_some, hpath, Option.bind_some, hroute.readPath hoff, Option.bind_some]
  cases hptr : hs[path.off]? with
  | none =>
    dsimp only
    rw [Kernel.forwardPacket_mnFreePkt_eq hp hhook]
    rfl
  | some ptr =>
    obtain ⟨hop, hhop, -⟩ := hroute.hop ptr (List.mem_of_getElem? hptr)
    dsimp only
    rw [hhop, Option.bind_some]
    split_ifs with hemulator
    · rw [Kernel.finishNexthop_eq hp hpath hhop, if_pos (Or.inl hemulator)]
      rfl
    · rfl

/-- **No fault.** With tables that serve the traffic, no section touches what is gone. -/
theorem Sound.step_isSome (hz : ℕ) (hC : ∀ hop, P hop → hop.Crossable) (h : m.Sound paths)
    (hr : m.kernel.OnRoute P) (move : Move) : (m.step hz move).isSome := by
  cases move with
  | input skb kmallocOk okfn =>
    obtain ⟨r, henter⟩ := Option.isSome_iff_exists.mp
      (Kernel.enter_isSome hr.routes skb kmallocOk okfn)
    unfold Machine.step
    dsimp only
    rw [henter, Option.bind_some]
    cases Kernel.entered_of_enter henter with
    | passed => rfl
    | noPath => rfl
    | @started arr hpath =>
      rw [Option.isSome_map]
      exact beginNexthop_isSome (hr.start okfn hpath)
        (Kernel.holding_start m.kernel skb okfn arr) rfl
  | hook p =>
    unfold Machine.step
    dsimp only
    cases hc : m.calls p with
    | none => rfl
    | some c =>
      dsimp only
      split_ifs
      · rfl
      · rw [Option.isSome_map]
        exact callSection_isSome hz hC h hr hc
  | lockCalendar => rfl
  | clock turn =>
    unfold Machine.step
    dsimp only
    split_ifs
    · rw [Option.isSome_map]
      cases turn with
      | tick => rfl
      | serve =>
        cases hslot : m.kernel.packetCalendar m.kernel.curSlot with
        | nil =>
          unfold Kernel.clockTurn Kernel.serve
          rw [hslot]
          rfl
        | cons p l =>
          have hmem : p ∈ m.kernel.calendar := by
            rw [Kernel.calendar_listDel hslot]
            exact List.mem_cons_self
          obtain ⟨pkt, s, hp⟩ := h.owned.holding_of_mem hmem
          rw [Kernel.clockTurn, Kernel.serve_of_cons hslot]
          exact Kernel.emulateNexthop_isSome hz hC (hr.congr rfl rfl) (hp.of_eq rfl rfl)
            (h.owned.hook p (by rw [hp.read]; rfl))
    · rfl
  | unlockCalendar => rfl

/-! ## Whole runs -/

/-- The packets in calls and on the calendar are there. -/
def NoneGone (m : Machine) : Prop :=
  ∀ p, (m.calls p).isSome ∨ p ∈ m.kernel.calendar → (m.kernel.pkts p).isSome

theorem Sound.noneGone (h : m.Sound paths) : m.NoneGone := by
  rintro p (hcall | hcal)
  · cases h.status p with
    | gone hpkt hnone =>
      rw [hnone] at hcall
      cases hcall
    | onWay hpkt =>
      rw [hpkt]
      rfl
  · obtain ⟨pkt, s, hp⟩ := h.owned.holding_of_mem hcal
    rw [hp.read]
    rfl

theorem sound_load (jiffies : ℕ) (random : ℕ → ℕ) (tab : PathTab) :
    (load jiffies random tab).Sound tab.pathArrs := by
  refine ⟨rfl, (Kernel.owned_load jiffies random tab).congrHand fun q => ?_,
    fun p => .gone rfl rfl (Or.inl rfl), fun p _ => rfl⟩
  constructor
  · intro hq
    cases hq
  · rintro ⟨c, hc, -⟩
    cases hc

/-- **Every hop once.** In every order of sections and turns in which no turn of the clock takes a
packet whose call has not advanced it, no step touches a packet that is gone, and every packet
crosses the hops of its path in order, each once, until it is dropped or forwarded. With tables
that serve the traffic, every step completes. -/
theorem traversed_of_noEarlyServe (hz jiffies : ℕ) (random : ℕ → ℕ) (tab : PathTab)
    {moves : List Move}
    (hguard : PartialRun.Guarded (step hz) NoEarlyServe (load jiffies random tab) moves) :
    (∀ m, PartialRun.run (step hz) (load jiffies random tab) moves = some m →
      m.NoneGone ∧ ∀ p, Traversed tab m.kernel.log p) ∧
    (tab.Routes Hop.Crossable →
      ∃ m, PartialRun.run (step hz) (load jiffies random tab) moves = some m) := by
  have hload := sound_load jiffies random tab
  constructor
  · intro m hrun
    have hm : m.Sound tab.pathArrs := PartialRun.run_invariant_guarded
      (fun _ _ _ h hg hstep => Sound.step h hg hstep) hguard hrun hload
    refine ⟨hm.noneGone, fun p => ?_⟩
    have htrav := (hm.status p).traversed
    unfold Traversed PathTab.StartsWith PathTab.IsWhole at htrav ⊢
    rw [hm.paths_eq] at htrav
    exact htrav
  · intro hroutes
    have hroute : (load jiffies random tab).kernel.OnRoute Hop.Crossable :=
      ⟨hroutes, fun p pkt hp => by cases hp⟩
    obtain ⟨m, hm, -⟩ := PartialRun.run_isSome_guarded
      (I := fun m => m.Sound tab.pathArrs ∧ m.kernel.OnRoute Hop.Crossable)
      (fun m move hI hg => by
        obtain ⟨m', hm'⟩ := Option.isSome_iff_exists.mp
          (hI.1.step_isSome hz (fun _ h => h) hI.2 move)
        exact ⟨m', hm', hI.1.step hg hm', hI.1.onRoute Hop.parametric_crossable hI.2 hm'⟩)
      hguard ⟨hload, hroute⟩
    exact ⟨m, hm⟩

/-- A packet arrives, and its call gets as far as `n` sections; then the clock runs for twelve
ticks. -/
def twelveTicks (n : ℕ) : List Move :=
  .input ⟨0x0a000000, 0x0a000001, 1500⟩ true 7 :: List.replicate n (.hook 0) ++
    .lockCalendar :: List.replicate 12 (.clock .tick)

/-- The call of the hook ends before the clock serves the packet. -/
theorem traversed_after_call :
    ∃ m, PartialRun.run (step 1000) (load 0 (fun _ => 0) PathTab.oneLink)
        (twelveTicks 4 ++ [.clock .serve]) = some m ∧
      Traversed PathTab.oneLink m.kernel.log 0 ∧ Obs.forward 0 ∈ m.kernel.log := by
  have hstate : (PartialRun.run (step 1000) (load 0 (fun _ => 0) PathTab.oneLink)
      (twelveTicks 4)).map (fun m => (m.kernel.packetCalendar m.kernel.curSlot, m.calls 0)) =
      some ([0], none) := by decide +kernel
  have hlog : (PartialRun.run (step 1000) (load 0 (fun _ => 0) PathTab.oneLink)
      (twelveTicks 4 ++ [.clock .serve])).map
        (fun m => decide (Obs.forward 0 ∈ m.kernel.log)) = some true := by decide +kernel
  have hguard : PartialRun.Guarded (step 1000) NoEarlyServe (load 0 (fun _ => 0) PathTab.oneLink)
      (twelveTicks 4 ++ [.clock .serve]) := by
    refine PartialRun.guarded_concat (PartialRun.guarded_of_forall (fun m => ?_) _)
      fun m hm _ p l hslot => ?_
    · simp [twelveTicks, NoEarlyServe]
    · rw [hm] at hstate
      obtain ⟨hcal, hcall⟩ := Prod.mk.inj (Option.some.inj hstate)
      cases hcal.symm.trans hslot
      exact hcall
  have hall := traversed_of_noEarlyServe 1000 0 (fun _ => 0) PathTab.oneLink hguard
  obtain ⟨m, hm, hforward⟩ := Option.map_eq_some_iff.mp hlog
  exact ⟨m, hm, (hall.1 m hm).2 0, of_decide_eq_true hforward⟩

/-- The clock serves the packet before the call has advanced it: it crosses its only hop twice. -/
theorem not_traversed_before_advance :
    ∃ m, PartialRun.run (step 1000) (load 0 (fun _ => 0) PathTab.oneLink)
        (twelveTicks 3 ++ [.clock .serve]) = some m ∧
      ¬ Traversed PathTab.oneLink m.kernel.log 0 := by
  have hlog : (PartialRun.run (step 1000) (load 0 (fun _ => 0) PathTab.oneLink)
      (twelveTicks 3 ++ [.clock .serve])).map (fun m => trace 0 m.kernel.log) =
      some [.path 0 4, .cross 0 ⟨0, 0⟩, .cross 0 ⟨0, 0⟩] := by decide +kernel
  obtain ⟨m, hm, htrace⟩ := Option.map_eq_some_iff.mp hlog
  refine ⟨m, hm, ?_⟩
  rintro (hnil | ⟨arr, hs, ⟨⟨cells, hcells, hpre⟩, hlegs⟩ | ⟨-, hlegs⟩⟩)
  · rw [htrace] at hnil
    cases hnil
  · -- the path of the packet has one hop
    obtain ⟨harr, hcross⟩ := List.cons.inj (htrace.symm.trans hlegs)
    cases harr
    cases hcells
    obtain ⟨rfl⟩ | ⟨a, rfl⟩ | ⟨a, b, hs', rfl⟩ : hs = [] ∨ (∃ a, hs = [a]) ∨
        ∃ a b hs', hs = a :: b :: hs' := by
      match hs with
      | [] => exact Or.inl rfl
      | [a] => exact Or.inr (Or.inl ⟨a, rfl⟩)
      | a :: b :: hs' => exact Or.inr (Or.inr ⟨a, b, hs', rfl⟩)
    · cases hcross
    · cases hcross
    · simp at hpre
  · have hlast := congrArg List.getLast? (htrace.symm.trans hlegs)
    rw [List.getLast?_append_of_ne_nil _ (by simp)] at hlast
    cases hlast

end Machine

end Linux

end Modelnet

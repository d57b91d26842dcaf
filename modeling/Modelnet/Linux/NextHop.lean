import Modelnet.Linux.IpModelnet

/-!
# What one call of `emulate_nexthop` does

For a packet struct that holds a live buffer and is not cached, `emulate_nexthop` has four
outcomes: the packet is forwarded, freed at a remote hop, dropped by a hop, or put on the
calendar one position further along its path (`NextHop`). Every invariant of the system is
derived from this case analysis.
-/

namespace Modelnet.Linux

open Modelnet

/-- The packet struct `p` holds the live buffer `s`. -/
structure Holding (k : Kernel) (p : PktId) (pkt : Packet) (s : SkbId) : Prop where
  read : k.pkts p = some pkt
  skb : pkt.skb = some s
  live : (k.skbs s).isSome
  id : pkt.info.id = 0

theorem Holding.of_eq {k k' : Kernel} {p : PktId} {pkt : Packet} {s : SkbId}
    (h : Holding k p pkt s) (hp : k'.pkts p = k.pkts p) (hs : k'.skbs s = k.skbs s) :
    Holding k' p pkt s := ⟨hp.trans h.read, h.skb, hs ▸ h.live, h.id⟩

theorem Holding.unique {k : Kernel} {p : PktId} {pkt pkt' : Packet} {s s' : SkbId}
    (h : Holding k p pkt s) (h' : Holding k p pkt' s') : pkt = pkt' ∧ s = s' := by
  have hpkt : pkt = pkt' := Option.some.inj (h.read.symm.trans h'.read)
  subst hpkt
  exact ⟨rfl, Option.some.inj (h.skb.symm.trans h'.skb)⟩

/-- The packet struct on the calendar after its next hop. -/
def Packet.advance (pkt : Packet) (path : PathPtr) : Packet :=
  { pkt with state := qBwDelay }.incr path

namespace Kernel

/-- The packet struct and its buffer are gone, with what the observer saw of it. -/
def consume (k : Kernel) (p : PktId) (s : SkbId) (seen : List Obs) : Kernel :=
  { k with
    skbs := Function.update k.skbs s none
    pkts := Function.update k.pkts p none
    log := k.log ++ seen }

def crossHop (k : Kernel) (p : PktId) (h : HopPtr) (hop : Hop) : Kernel :=
  { k.drawRandom with tab := k.tab.setHop h hop, log := k.log ++ [.cross p h] }

/-- The outcomes of `emulate_nexthop` for a packet that holds a buffer. -/
inductive NextHop (hz : ℕ) (k : Kernel) (p : PktId) (pkt : Packet) (s : SkbId) : Kernel → Prop where
  | forward {path : PathPtr} (hpath : pkt.path = some path)
      (hread : k.tab.readPath path = some none) (hhook : k.ipRcvFinishHook.isSome) :
      NextHop hz k p pkt s (k.consume p s [.okfn s, .forward p, .kfree p])
  | remote {path : PathPtr} {h : HopPtr} {hop : Hop} (hpath : pkt.path = some path)
      (hread : k.tab.readPath path = some (some h)) (hhop : k.tab.hops h = some hop)
      (hemulator : hop.emulator ≠ 0) :
      NextHop hz k p pkt s (k.consume p s [.kfreeSkb s, .kfree p])
  | dropped {path : PathPtr} {h : HopPtr} {hop hop' : Hop} {plr bw : Bool}
      (hpath : pkt.path = some path) (hread : k.tab.readPath path = some (some h))
      (hhop : k.tab.hops h = some hop) (hemulator : hop.emulator = 0)
      (hemulate : Linux.emulateHop hz hop pkt.info.len k.calendarTick (k.random 0) =
        some (hop', .dropped plr bw)) :
      NextHop hz k p pkt s ((k.crossHop p h hop').consume p s [.kfreeSkb s, .kfree p])
  | queued {path : PathPtr} {h : HopPtr} {hop hop' : Hop} {x : ℕ} {due : ℤ}
      (hpath : pkt.path = some path) (hread : k.tab.readPath path = some (some h))
      (hhop : k.tab.hops h = some hop) (hemulator : hop.emulator = 0)
      (hemulate : Linux.emulateHop hz hop pkt.info.len k.calendarTick (k.random 0) =
        some (hop', .queued x due)) :
      NextHop hz k p pkt s
        (((k.crossHop p h hop').setPkt p (pkt.advance path)).listAddTail p due)

variable {hz : ℕ} {k k' : Kernel} {p : PktId} {pkt : Packet} {s : SkbId}

theorem mnFreePkt_eq (h : Holding k p pkt s) :
    k.mnFreePkt p = some (k.consume p s [.kfreeSkb s, .kfree p]) := by
  obtain ⟨b, hb⟩ := Option.isSome_iff_exists.mp h.live
  unfold mnFreePkt kfreeSkb
  rw [h.read, Option.bind_some, h.skb]
  dsimp only
  rw [hb, Option.map_some, Option.map_some]
  unfold kfreePkt consume
  rw [List.append_assoc]
  rfl

theorem forwardPacket_mnFreePkt_eq (h : Holding k p pkt s) (hhook : k.ipRcvFinishHook.isSome) :
    ((k.forwardPacket p).bind fun k => k.mnFreePkt p) =
      some (k.consume p s [.okfn s, .forward p, .kfree p]) := by
  obtain ⟨b, hb⟩ := Option.isSome_iff_exists.mp h.live
  obtain ⟨f, hf⟩ := Option.isSome_iff_exists.mp hhook
  unfold forwardPacket
  rw [h.read, Option.bind_some, h.skb]
  dsimp only
  rw [hb, Option.bind_some, hf, Option.map_some, Option.bind_some]
  unfold mnFreePkt
  dsimp only
  rw [Function.update_self, Option.bind_some]
  dsimp only
  unfold kfreePkt consume
  dsimp only
  rw [Function.update_idem, List.append_assoc, ← hf]
  rfl

theorem finishNexthop_eq {path : PathPtr} {h : HopPtr} {hop : Hop} (hp : Holding k p pkt s)
    (hpath : pkt.path = some path) (hhop : k.tab.hops h = some hop) (ret : ℤ) :
    k.finishNexthop p h ret =
      if hop.emulator ≠ 0 ∨ ret = enobufs then some (k.consume p s [.kfreeSkb s, .kfree p])
      else some (k.setPkt p (pkt.incr path)) := by
  have hfree : (k.setPkt p (pkt.incr path)).mnFreePkt p =
      some (k.consume p s [.kfreeSkb s, .kfree p]) := by
    have hp' : Holding (k.setPkt p (pkt.incr path)) p (pkt.incr path) s :=
      ⟨Function.update_self _ _ _, hp.skb, hp.live, hp.id⟩
    rw [mnFreePkt_eq hp']
    unfold consume setPkt
    dsimp only
    rw [Function.update_idem]
  have hcached : ¬ ((pkt.incr path).cachehost = 0 ∧ (pkt.incr path).info.id ≠ 0) :=
    fun hc => hc.2 hp.id
  unfold finishNexthop
  rw [hp.read, Option.bind_some, hpath, Option.bind_some, hhop, Option.bind_some]
  dsimp only
  rw [hfree]
  by_cases hemulator : hop.emulator ≠ 0
  · rw [if_pos ⟨hcached, hemulator⟩, if_pos (Or.inl hemulator)]
  · rw [if_neg fun hc => hemulator hc.2]
    by_cases hret : ret = enobufs
    · rw [if_pos hret, if_pos (Or.inr hret)]
    · rw [if_neg hret, if_neg (not_or.mpr ⟨hemulator, hret⟩)]

/-- The whole of `emulate_hop` on a packet that holds a buffer. -/
theorem emulateHop_eq {h : HopPtr} {hop : Hop} (hp : Holding k p pkt s)
    (hhop : k.tab.hops h = some hop) :
    k.emulateHop hz p h =
      (Linux.emulateHop hz hop pkt.info.len k.calendarTick (k.random 0)).map fun r =>
        match r.2 with
        | .dropped _ _ => (k.crossHop p h r.1, enobufs)
        | .queued _ due =>
          (((k.crossHop p h r.1).setPkt p { pkt with state := qBwDelay }).listAddTail p due, 0) := by
  unfold emulateHop hopSection
  show Option.map _ ((k.pkts p).bind _) = _
  rw [hp.read, Option.bind_some]
  show Option.map _ ((k.tab.hops h).bind _) = _
  rw [hhop, Option.bind_some, Option.map_map]
  congr 1
  funext r
  rcases r with ⟨hop', ⟨plr, bw⟩ | ⟨x, due⟩⟩
  · rfl
  · rfl

theorem setPkt_listAddTail_setPkt (k : Kernel) (p : PktId) (a b : Packet) (due : ℤ) :
    ((k.setPkt p a).listAddTail p due).setPkt p b = (k.setPkt p b).listAddTail p due := by
  unfold setPkt listAddTail
  dsimp only
  rw [Function.update_idem]

/-- **Outcomes.** A call that completes has one of the four outcomes. -/
theorem nextHop_of_emulateNexthop (hp : Holding k p pkt s) (hhook : k.ipRcvFinishHook.isSome)
    (h : k.emulateNexthop hz p = some k') : NextHop hz k p pkt s k' := by
  unfold emulateNexthop at h
  rw [hp.read, Option.bind_some] at h
  obtain ⟨path, hpath, h⟩ := Option.bind_eq_some_iff.mp h
  obtain ⟨curhop, hread, h⟩ := Option.bind_eq_some_iff.mp h
  cases curhop with
  | none =>
    dsimp only at h
    rw [forwardPacket_mnFreePkt_eq hp hhook] at h
    cases h
    exact .forward hpath hread hhook
  | some ptr =>
    dsimp only at h
    obtain ⟨hop, hhop, h⟩ := Option.bind_eq_some_iff.mp h
    by_cases hemulator : hop.emulator ≠ 0
    · rw [if_pos hemulator, Option.bind_some, finishNexthop_eq hp hpath hhop,
        if_pos (Or.inl hemulator)] at h
      cases h
      exact .remote hpath hread hhop hemulator
    · rw [if_neg hemulator, emulateHop_eq hp hhop] at h
      rw [not_not] at hemulator
      obtain ⟨r, hr, h⟩ := Option.bind_eq_some_iff.mp h
      obtain ⟨⟨hop', out⟩, hemulate, rfl⟩ := Option.map_eq_some_iff.mp hr
      have hemulator' : hop'.emulator = 0 :=
        (sameParams_emulateHop hemulate).1.emulator.trans hemulator
      have hhop' : (k.crossHop p ptr hop').tab.hops ptr = some hop' := Function.update_self _ _ _
      cases out with
      | dropped plr bw =>
        have hp' : Holding (k.crossHop p ptr hop') p pkt s := ⟨hp.read, hp.skb, hp.live, hp.id⟩
        dsimp only at h
        rw [finishNexthop_eq hp' hpath hhop', if_pos (Or.inr rfl)] at h
        cases h
        exact .dropped hpath hread hhop hemulator hemulate
      | queued x due =>
        have hp' : Holding (((k.crossHop p ptr hop').setPkt p
            { pkt with state := qBwDelay }).listAddTail p due) p { pkt with state := qBwDelay } s :=
          ⟨Function.update_self _ _ _, hp.skb, hp.live, hp.id⟩
        dsimp only at h
        rw [finishNexthop_eq hp' hpath hhop', if_neg (by rw [hemulator']; decide),
          setPkt_listAddTail_setPkt] at h
        cases h
        exact .queued hpath hread hhop hemulator hemulate

end Kernel

end Modelnet.Linux

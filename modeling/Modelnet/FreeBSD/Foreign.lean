import Modelnet.FreeBSD.PacketCache

/-!
# Packets of other cores

What holds of every call, whatever the state of the core: no call makes a packet struct but
`malloc`, none changes the core that caches a packet, and none changes the `ttl` of a packet that is
not at home (`Keeps`). The faults of these calls are never those of the loop over a datagram
(`Fault.Local`).
-/

namespace Modelnet.FreeBSD

open Modelnet

/-- Not a fault of the loop over a datagram. -/
def Fault.Local (f : Fault) : Prop := f ≠ .copyPastEnd ∧ f ≠ .nullChain

theorem Fault.local_memory : Fault.Local .memory := ⟨by decide, by decide⟩

theorem Fault.local_freeCached (p : Addr) : Fault.Local (.freeCached p) :=
  ⟨by rintro ⟨⟩, by rintro ⟨⟩⟩

theorem Fault.local_uncacheAbsent (p : Addr) : Fault.Local (.uncacheAbsent p) :=
  ⟨by rintro ⟨⟩, by rintro ⟨⟩⟩

/-- For each packet struct, the record with which its packet came from another core. -/
abbrev Arrivals : Type := Addr → Option RemotePacket

namespace Arrivals

/-- A packet is handed on: one of this core, or one that is cached elsewhere. -/
def arrive (g : Arrivals) (p : Addr) (cachehost : BitVec 32) (info : RemotePacket) : Arrivals :=
  if cachehost = 0 then g else Function.update g p (some info)

variable (g : Arrivals) {p q : Addr} {cachehost : BitVec 32} (info : RemotePacket)

theorem arrive_home : g.arrive p 0 info = g := if_pos rfl

theorem arrive_self (p : Addr) (h : cachehost ≠ 0) : g.arrive p cachehost info p = some info := by
  unfold arrive
  rw [if_neg h, Function.update_self]

theorem arrive_of_ne (cachehost : BitVec 32) (h : q ≠ p) : g.arrive p cachehost info q = g q := by
  unfold arrive
  split_ifs
  · rfl
  · exact Function.update_of_ne h _ _

end Arrivals

namespace Core

/-- The structs of `c'` are structs of `c`, with their core, and with their `ttl` away from home. -/
def Keeps (c c' : Core) : Prop :=
  ∀ q pkt', c'.pkts q = some pkt' → ∃ pkt, c.pkts q = some pkt ∧
    pkt'.cachehost = pkt.cachehost ∧ (pkt.cachehost ≠ 0 → pkt'.info.ttl = pkt.info.ttl)

variable {c c' c'' : Core} {env : Env} {p q : Addr} {pkt pkt' : Packet}

theorem Keeps.refl (c : Core) : c.Keeps c := fun _ pkt h => ⟨pkt, h, rfl, fun _ => rfl⟩

theorem Keeps.trans (h : c.Keeps c') (h' : c'.Keeps c'') : c.Keeps c'' := by
  intro q pkt'' hq
  obtain ⟨pkt', hpkt', hhost', httl'⟩ := h' q pkt'' hq
  obtain ⟨pkt, hpkt, hhost, httl⟩ := h q pkt' hpkt'
  refine ⟨pkt, hpkt, hhost'.trans hhost, fun hforeign => ?_⟩
  rw [httl' (hhost ▸ hforeign), httl hforeign]

theorem Keeps.write (h : c.Keeps c') (hpkt : c.pkts p = some pkt)
    (hhost : pkt'.cachehost = pkt.cachehost)
    (httl : pkt.cachehost ≠ 0 → pkt'.info.ttl = pkt.info.ttl) : c.Keeps (c'.setPkt p pkt') := by
  intro q pkt₁ hq
  by_cases hqp : q = p
  · subst hqp
    rw [pkts_setPkt_self] at hq
    cases hq
    exact ⟨pkt, hpkt, hhost, httl⟩
  · rw [pkts_setPkt_of_ne c' pkt' hqp] at hq
    exact h q pkt₁ hq

theorem Keeps.setPkt (hpkt : c.pkts p = some pkt) (hhost : pkt'.cachehost = pkt.cachehost)
    (httl : pkt.cachehost ≠ 0 → pkt'.info.ttl = pkt.info.ttl) : c.Keeps (c.setPkt p pkt') :=
  (Keeps.refl c).write hpkt hhost httl

theorem Keeps.freePkt (c : Core) (p : Addr) : c.Keeps (c.freePkt p) := by
  intro q pkt hq
  by_cases hqp : q = p
  · subst hqp
    rw [pkts_freePkt_self] at hq
    cases hq
  · rw [pkts_freePkt_of_ne c hqp] at hq
    exact ⟨pkt, hq, rfl, fun _ => rfl⟩

/-! ## The macros and the calls, one by one -/

theorem keeps_mnFreePkt (c : Core) (p : Addr) : (c.mnFreePkt p).Yields Fault.Local c.Keeps := by
  unfold mnFreePkt
  split_ifs
  · exact Fault.local_freeCached p
  · exact (packet_yields Fault.local_memory c p).bind fun _ _ => Keeps.freePkt c p

theorem keeps_mnUncachePkt (c : Core) (p : Addr) :
    (c.mnUncachePkt p).Yields Fault.Local c.Keeps := by
  unfold mnUncachePkt
  split_ifs
  · refine (packet_yields Fault.local_memory c p).bind fun pkt hpkt => ?_
    have hset : c.Keeps (c.setPkt p { pkt with info := { pkt.info with id := 0 } }) :=
      Keeps.setPkt hpkt rfl fun _ => rfl
    exact hset
  · exact Fault.local_uncacheAbsent p

theorem keeps_uncacheIf (c : Core) (b : Prop) [Decidable b] (p : Addr) :
    (c.uncacheIf b p).Yields Fault.Local c.Keeps := by
  unfold uncacheIf
  split_ifs
  · exact keeps_mnUncachePkt c p
  · exact Keeps.refl c

theorem keeps_prepare (hpkt : c.pkts p = some pkt) :
    (c.prepare p pkt).Yields Fault.Local c.Keeps := by
  have haddrs : (ipAddrs pkt).Yields Fault.Local fun _ => True := by
    unfold ipAddrs
    split
    · exact Fault.local_memory
    · split_ifs
      · exact Fault.local_memory
      · trivial
  unfold prepare
  split_ifs with hhome
  · refine haddrs.bind fun a _ => ?_
    show Keeps c (if c.pcache = true then _ else _)
    split_ifs
    · exact Keeps.setPkt hpkt rfl fun hforeign => absurd hhome hforeign
    · exact Keeps.setPkt hpkt rfl fun hforeign => absurd hhome hforeign
  · exact Keeps.refl c

theorem keeps_takeChain (hpkt : c.pkts p = some pkt) :
    (c.takeChain p pkt).Yields Fault.Local c.Keeps := by
  unfold takeChain
  split_ifs
  · exact Keeps.refl c
  · exact Fault.local_memory
  · exact Keeps.setPkt hpkt rfl fun _ => rfl

theorem keeps_transmit (c : Core) (env : Env) (p : Addr) (ownerIp : BitVec 32) :
    (c.transmit env p ownerIp).Yields Fault.Local fun r => c.Keeps r.1 := by
  unfold transmit
  refine (packet_yields Fault.local_memory c p).bind fun pkt hpkt => ?_
  split_ifs
  · exact (Aggregates.remoteAggregate_yields Fault.local_memory _ _ _ _).bind fun _ _ =>
      Keeps.refl c
  · refine (keeps_takeChain hpkt).bind fun c₁ hc₁ => ?_
    exact (keeps_uncacheIf c₁ _ p).bind fun c₂ hc₂ => hc₁.trans hc₂
  · exact (keeps_uncacheIf c _ p).bind fun c₁ hc₁ => hc₁

theorem keeps_remoteHop (c : Core) (env : Env) (p : Addr) (ownerIp : BitVec 32) :
    (c.remoteHop env p ownerIp).Yields Fault.Local fun r => c.Keeps r.1 := by
  unfold remoteHop
  refine (packet_yields Fault.local_memory c p).bind fun pkt hpkt => ?_
  split_ifs
  · exact Keeps.refl c
  · refine (keeps_prepare hpkt).bind fun c₁ hc₁ => ?_
    refine (packet_yields Fault.local_memory c₁ p).bind fun pkt₁ _ => ?_
    split_ifs
    · exact hc₁
    · exact (keeps_transmit c₁ env p ownerIp).imp fun r hr => hc₁.trans hr

/-- A packet that is not at home leaves with the `ttl` of its struct. -/
def LeavesWith (c : Core) (p : Addr) (fate : Fate) : Prop :=
  ∀ toAddr host info cached, fate = .left toAddr host info cached →
    ∃ pkt, c.pkts p = some pkt ∧ host = pkt.cachehost ∧ (host ≠ 0 → info.ttl = pkt.info.ttl)

theorem LeavesWith.of_keeps (h : c.Keeps c') {fate : Fate} (hfate : c'.LeavesWith p fate) :
    c.LeavesWith p fate := by
  intro toAddr host info cached heq
  obtain ⟨pkt', hpkt', hhost', httl'⟩ := hfate toAddr host info cached heq
  obtain ⟨pkt, hpkt, hhost, httl⟩ := h p pkt' hpkt'
  refine ⟨pkt, hpkt, hhost'.trans hhost, fun hforeign => ?_⟩
  rw [httl' hforeign, httl fun hhome => hforeign (hhost'.trans (hhost.trans hhome))]

theorem leavesWith_fateOf (c : Core) (p : Addr) (ownerIp : BitVec 32) (err : ℤ) :
    (c.fateOf p ownerIp err).Yields Fault.Local (c.LeavesWith p) := by
  unfold fateOf
  refine (packet_yields Fault.local_memory c p).bind fun pkt hpkt => ?_
  show c.LeavesWith p (if err = 0 then _ else _)
  split_ifs
  · rintro _ _ _ _ ⟨⟩
    exact ⟨pkt, hpkt, rfl, fun _ => rfl⟩
  · rintro _ _ _ _ ⟨⟩

theorem keeps_forwardPacket (c : Core) (env : Env) (p : Addr) :
    (c.forwardPacket env p).Yields Fault.Local fun r => c.Keeps r.1 ∧ c.LeavesWith p r.2 := by
  unfold forwardPacket
  refine (packet_yields Fault.local_memory c p).bind fun pkt hpkt => ?_
  split
  · refine (keeps_remoteHop c env p _).bind fun r hr => ?_
    exact (leavesWith_fateOf r.1 p _ _).bind fun fate hfate => ⟨hr, hfate.of_keeps hr⟩
  · rename_i m hm
    by_cases hmbuf : pkt.cachehost ≠ 0 ∧ ¬ env.mbufOk
    · rw [if_pos hmbuf]
      exact ⟨Keeps.refl c, by rintro _ _ _ _ ⟨⟩⟩
    rw [if_neg hmbuf]
    by_cases hpullup : pkt.cachehost ≠ 0 ∧ ¬ env.pullupOk
    · rw [if_pos hpullup]
      exact Fault.local_memory
    · rw [if_neg hpullup]
      exact ⟨Keeps.setPkt hpkt rfl fun _ => rfl, by rintro _ _ _ _ ⟨⟩⟩

theorem keeps_dequeue (hpkt : c.pkts p = some pkt) :
    (c.dequeue p pkt).Yields Fault.Local c.Keeps := by
  refine (dequeue_yields Fault.local_memory hpkt).imp ?_
  rintro c' ⟨fdbk, xtHop, -, rfl⟩
  have hset : c.Keeps (c.setPkt p (pkt.setFdbk fdbk)) := Keeps.setPkt hpkt rfl fun _ => rfl
  exact hset

theorem keeps_finishNexthop (c : Core) (p : Addr) (emulator : BitVec 32) (dropped : Bool) :
    (c.finishNexthop p emulator dropped).Yields Fault.Local c.Keeps := by
  unfold finishNexthop
  refine (packet_yields Fault.local_memory c p).bind fun pkt hpkt => ?_
  have hset : c.Keeps (c.setPkt p pkt.incr) := Keeps.setPkt hpkt rfl fun _ => rfl
  show (ite _ _ _ : Except Fault Core).Yields _ _
  split_ifs
  · exact (keeps_mnFreePkt _ p).imp fun _ hc => hset.trans hc
  · exact (keeps_mnFreePkt _ p).imp fun _ hc => hset.trans hc
  · exact hset

theorem keeps_crossHop (c : Core) (env : Env) (p : Addr) (curhop : Option HopPtr) :
    (c.crossHop env p curhop).Yields Fault.Local fun r => c.Keeps r.1 ∧ c.LeavesWith p r.2 := by
  cases curhop with
  | none =>
    refine (keeps_forwardPacket c env p).bind fun r hr => ?_
    exact (keeps_mnFreePkt r.1 p).bind fun c₁ hc₁ => ⟨hr.1.trans hc₁, hr.2⟩
  | some h =>
    refine (hop_yields Fault.local_memory c h).bind fun hop hhop => ?_
    show (ite _ _ _ : Except Fault (Core × Fate)).Yields _ _
    split_ifs
    · refine (keeps_remoteHop c env p _).bind fun r hr => ?_
      refine (leavesWith_fateOf r.1 p _ _).bind fun fate hfate => ?_
      exact (keeps_finishNexthop r.1 p _ _).bind fun c₁ hc₁ =>
        ⟨hr.trans hc₁, hfate.of_keeps hr⟩
    · have hemulate : (c.emulateHop env p h).Yields Fault.Local fun r => c.Keeps r.1 := by
        cases hpkt : c.pkts p with
        | none =>
          unfold emulateHop packet
          rw [hpkt]
          exact Fault.local_memory
        | some pkt =>
          refine (emulateHop_yields Fault.local_memory hpkt h).imp ?_
          rintro r (⟨tab, plr, bw, rfl⟩ | ⟨tab, x, due, rfl⟩)
          · exact Keeps.refl c
          · have hset : c.Keeps (c.setPkt p { pkt with state := qBwDelay }) :=
              Keeps.setPkt hpkt rfl fun _ => rfl
            exact hset
      refine hemulate.bind fun r hr => ?_
      split
      · exact (keeps_finishNexthop r.1 p _ _).bind fun c₁ hc₁ =>
          ⟨hr.trans hc₁, by rintro _ _ _ _ ⟨⟩⟩
      · exact (keeps_finishNexthop r.1 p _ _).bind fun c₁ hc₁ =>
          ⟨hr.trans hc₁, by rintro _ _ _ _ ⟨⟩⟩

/-- **One call of `emulate_nexthop`**, whatever the state of the core. -/
theorem keeps_emulateNexthop (c : Core) (env : Env) (p : Addr) :
    (c.emulateNexthop env p).Yields Fault.Local fun r => c.Keeps r.1 ∧ c.LeavesWith p r.2 := by
  unfold emulateNexthop
  refine (packet_yields Fault.local_memory c p).bind fun pkt hpkt => ?_
  refine (readPath_yields Fault.local_memory c _).bind fun curhop _ => ?_
  show (ite _ _ _ : Except Fault (Core × Fate)).Yields _ _
  split_ifs
  · cases curhop with
    | none => exact Fault.local_memory
    | some h =>
      refine (hop_yields Fault.local_memory c h).bind fun hop _ => ?_
      show (ite _ _ _ : Except Fault (Core × Fate)).Yields _ _
      split_ifs
      · exact (keeps_mnFreePkt c p).bind fun c₁ hc₁ => ⟨hc₁, by rintro _ _ _ _ ⟨⟩⟩
      · exact keeps_crossHop c env p (some h)
  · refine (keeps_dequeue hpkt).bind fun c₁ hc₁ => ?_
    exact (keeps_crossHop c₁ env p curhop).imp fun r hr => ⟨hc₁.trans hr.1, hr.2.of_keeps hc₁⟩

theorem keeps_mcReunite (c : Core) (p : Addr) :
    (c.mcReunite p).Yields Fault.Local fun r => c.Keeps r.1 := by
  unfold mcReunite
  refine (packet_yields Fault.local_memory c p).bind fun pkt hpkt => ?_
  by_cases hexpire : pkt.info.expire ≤ c.now
  · rw [if_pos hexpire]
    exact Keeps.refl c
  rw [if_neg hexpire]
  by_cases hhop : pkt.info.hop = 0
  · rw [if_pos hhop]
    exact Keeps.refl c
  rw [if_neg hhop]
  refine (packet_yields Fault.local_memory c pkt.info.id).bind fun cached hcached => ?_
  split_ifs
  · exact Keeps.refl c
  · exact Fault.local_memory
  · refine (keeps_mnUncachePkt c _).bind fun c₁ hc₁ => ?_
    refine (keeps_mnFreePkt _ p).bind fun c₂ hc₂ => ?_
    refine Keeps.trans ?_ hc₂
    exact hc₁.write hcached rfl fun _ => rfl

theorem keeps_flushLoop (n : ℕ) (c : Core) : (flushLoop n c).Yields Fault.Local c.Keeps := by
  induction n generalizing c with
  | zero => exact Keeps.refl c
  | succ n ih =>
    unfold flushLoop
    cases c.mcPcache with
    | nil => exact Keeps.refl c
    | cons p rest =>
      refine (packet_yields Fault.local_memory c p).bind fun pkt hpkt => ?_
      show (ite _ _ _ : Except Fault Core).Yields _ _
      split_ifs
      · exact Keeps.refl c
      · refine (keeps_mnUncachePkt c p).bind fun c₁ hc₁ => ?_
        refine (keeps_mnFreePkt c₁ p).bind fun c₂ hc₂ => ?_
        exact (ih c₂).imp fun c₃ hc₃ => (hc₁.trans hc₂).trans hc₃

/-! ## Arrivals -/

/-- Every packet of another core has the `ttl` of the record with which it came. -/
def Follows (c : Core) (g : Arrivals) : Prop :=
  ∀ q pkt, c.pkts q = some pkt → pkt.cachehost ≠ 0 →
    ∃ rec, g q = some rec ∧ pkt.info.ttl = rec.ttl

variable {g : Arrivals} {t : Cursor.Taken}

theorem Follows.of_keeps (h : c.Follows g) (hkeeps : c.Keeps c') : c'.Follows g := by
  intro q pkt' hq hforeign
  obtain ⟨pkt, hpkt, hhost, httl⟩ := hkeeps q pkt' hq
  obtain ⟨rec, hrec, httl'⟩ := h q pkt hpkt (hhost ▸ hforeign)
  exact ⟨rec, hrec, (httl (hhost ▸ hforeign)).trans httl'⟩

theorem Follows.setPkt (h : c.Follows g) (p : Addr) (pkt : Packet) {info : RemotePacket}
    (httl : pkt.cachehost ≠ 0 → pkt.info.ttl = info.ttl) :
    (c.setPkt p pkt).Follows (g.arrive p pkt.cachehost info) := by
  intro q pkt' hq hforeign
  by_cases hqp : q = p
  · subst hqp
    rw [pkts_setPkt_self] at hq
    cases hq
    exact ⟨info, g.arrive_self info q hforeign, httl hforeign⟩
  · rw [pkts_setPkt_of_ne c pkt hqp] at hq
    rw [g.arrive_of_ne info _ hqp]
    exact h q pkt' hq hforeign

theorem follows_checkRecord (h : c.Follows g) (ipLen : ℕ) (p : Addr) (t : Cursor.Taken) :
    (c.checkRecord ipLen p t).Yields Fault.Local fun r =>
      (∀ err, r.2 = .rejected err → r.1.Follows g) ∧
        ∀ q host, r.2 = .handed q host → r.1.Follows (g.arrive q host t.info) := by
  have hrejected : ∀ (c' : Core) err, c'.Follows g →
      (∀ err', Verdict.rejected err = .rejected err' → c'.Follows g) ∧
        ∀ q host, Verdict.rejected err = .handed q host → c'.Follows (g.arrive q host t.info) :=
    fun c' err hc' => ⟨fun _ _ => hc', by rintro _ _ ⟨⟩⟩
  unfold checkRecord
  split_ifs
  · exact hrejected c _ h
  · exact hrejected c _ h
  refine (lookupPath_yields Fault.local_memory c _ _).bind fun path _ => ?_
  cases path with
  | none => exact hrejected c _ h
  | some path =>
    refine (readPath_yields Fault.local_memory c _).bind fun curhop _ => ?_
    cases curhop with
    | none => exact Fault.local_memory
    | some h₁ =>
      refine (hop_yields Fault.local_memory c h₁).bind fun hop _ => ?_
      have harrive : (c.arrive p t path hop.emulator).Follows (g.arrive p hop.emulator t.info) :=
        h.setPkt p _ fun _ => rfl
      show (ite _ _ _ : Except Fault (Core × Verdict)).Yields _ _
      by_cases hback : hop.emulator = 0 ∧ t.info.id ≠ 0
      · rw [if_pos hback]
        rw [hback.1, g.arrive_home] at harrive
        refine (keeps_mcReunite _ p).bind fun r hr => ?_
        have hreunite : r.1.Follows g := by
          refine harrive.of_keeps ?_
          rwa [hback.1] at hr
        show (∀ err, (if r.2.1 ≠ 0 then _ else _ : Verdict) = .rejected err → r.1.Follows g) ∧
          ∀ q host, (if r.2.1 ≠ 0 then _ else _ : Verdict) = .handed q host → _
        by_cases herr : r.2.1 ≠ 0
        · rw [if_pos herr]
          exact hrejected r.1 _ hreunite
        · rw [if_neg herr]
          refine ⟨by rintro _ ⟨⟩, ?_⟩
          rintro q host ⟨⟩
          rw [g.arrive_home]
          exact hreunite
      · rw [if_neg hback]
        refine ⟨by rintro _ ⟨⟩, ?_⟩
        rintro q host ⟨⟩
        exact harrive

end Core

end Modelnet.FreeBSD

import Modelnet.Lib.OnesComplement
import Modelnet.Linux.Input
import Modelnet.Client.Libipaddr

/-!
# Forced destinations on both ends

The client library of the sender turns the force bit of a destination on, `emulate_path` moves it
to the source, and the client library of the receiver hides it. No component recomputes a checksum:
the bit leaves one address word and enters the other at the same place, so that every
one's-complement sum over both addresses stays (`sum_rewrite`).
-/

namespace Modelnet

open Linux Client

/-- The fields of `struct iphdr` besides the addresses, and the options. -/
structure IpRest where
  version : BitVec 4
  ihl : BitVec 4
  tos : BitVec 8
  totLen : BitVec 16
  id : BitVec 16
  fragOff : BitVec 16
  ttl : BitVec 8
  protocol : BitVec 8
  check : BitVec 16
  options : List (BitVec 16)

/-- An IP datagram that carries a TCP or UDP segment with these ports. -/
structure Datagram where
  ip : SkBuff
  rest : IpRest
  sport : BitVec 16
  dport : BitVec 16

/-- The two ends of a connection, the local one first. -/
structure FourTuple where
  laddr : BitVec 32
  lport : BitVec 16
  faddr : BitVec 32
  fport : BitVec 16
  deriving DecidableEq

def addrWords (a : BitVec 32) : List (BitVec 16) := [a.extractLsb' 16 16, a.extractLsb' 0 16]

namespace Datagram

def headerWords (d : Datagram) : List (BitVec 16) :=
  [d.rest.version ++ d.rest.ihl ++ d.rest.tos, d.rest.totLen, d.rest.id, d.rest.fragOff,
    d.rest.ttl ++ d.rest.protocol, d.rest.check] ++
    (addrWords d.ip.saddr ++ addrWords d.ip.daddr) ++ d.rest.options

/-- The words of the TCP or UDP pseudo-header for a segment of `len` bytes. -/
def pseudoHeaderWords (d : Datagram) (len : BitVec 16) : List (BitVec 16) :=
  (addrWords d.ip.saddr ++ addrWords d.ip.daddr) ++ [0#8 ++ d.rest.protocol, len]

/-- The datagram after `emulate_path`. -/
def rewrite (d : Datagram) : Datagram := { d with ip := d.ip.rewrite }

/-- The connection of the socket that sends the datagram. -/
def sender (d : Datagram) : FourTuple := ⟨d.ip.saddr, d.sport, d.ip.daddr, d.dport⟩

/-- The connection that the datagram arrives on. -/
def receiver (d : Datagram) : FourTuple := ⟨d.ip.daddr, d.dport, d.ip.saddr, d.sport⟩

end Datagram

def Linux.SkBuff.swap (skb : SkBuff) : SkBuff :=
  { skb with saddr := skb.daddr, daddr := skb.saddr }

/-! ## Masks -/

section Masks

variable {w : ℕ} {m x s : BitVec w}

theorem and_not_or_and (x m : BitVec w) : (x &&& ~~~m) ||| (x &&& m) = x := by
  ext i hi
  simp only [BitVec.getElem_or, BitVec.getElem_and, BitVec.getElem_not]
  cases x[i] <;> cases m[i] <;> rfl

theorem and_not_and_and (x y m : BitVec w) : (x &&& ~~~m) &&& (y &&& m) = 0#w := by
  ext i hi
  simp only [BitVec.getElem_and, BitVec.getElem_not, BitVec.getElem_zero]
  cases x[i] <;> cases y[i] <;> cases m[i] <;> rfl

theorem and_not_of_and_eq_zero (h : s &&& m = 0#w) : s &&& ~~~m = s := by
  have hor := and_not_or_and s m
  rw [h, BitVec.or_zero] at hor
  exact hor

/-- The part of one word outside a mask and the part of another inside add up to their `or`. -/
theorem toNat_or_and (h : s &&& m = 0#w) (x : BitVec w) :
    (s ||| (x &&& m)).toNat = s.toNat + (x &&& m).toNat := by
  have hdisjoint : s &&& (x &&& m) = 0#w := by
    have hand := and_not_and_and s x m
    rw [and_not_of_and_eq_zero h] at hand
    exact hand
  rw [← BitVec.add_eq_or_of_and_eq_zero _ _ hdisjoint,
    BitVec.toNat_add_of_and_eq_zero hdisjoint]

theorem toNat_and_not_add (x m : BitVec w) :
    (x &&& ~~~m).toNat + (x &&& m).toNat = x.toNat := by
  have hdisjoint := and_not_and_and x x m
  rw [← BitVec.toNat_add_of_and_eq_zero hdisjoint, BitVec.add_eq_or_of_and_eq_zero _ _ hdisjoint,
    and_not_or_and]

end Masks

/-! ## Checksums -/

theorem total_addrWords (a : BitVec 32) :
    OnesComplement.total (addrWords a) = a.toNat / 65536 + a.toNat % 65536 := by
  have hlt := a.isLt
  unfold addrWords
  rw [OnesComplement.total_cons, OnesComplement.total_cons, OnesComplement.total_nil,
    BitVec.extractLsb'_toNat, BitVec.extractLsb'_toNat, Nat.shiftRight_eq_div_pow]
  omega

theorem and_modelForcebit (d : BitVec 32) :
    (d &&& modelForcebit).toNat = 0 ∨ (d &&& modelForcebit).toNat = 2 ^ 23 := by
  rw [show modelForcebit = BitVec.twoPow 32 23 by decide, BitVec.and_twoPow]
  split_ifs
  · exact Or.inr (by decide)
  · exact Or.inl rfl

/-- The force bit changes the total of the words of an address by its place in the upper word. -/
theorem total_addrWords_rewrite {skb : SkBuff} (h : skb.saddr &&& modelForcebit = 0) :
    OnesComplement.total (addrWords skb.rewrite.saddr ++ addrWords skb.rewrite.daddr) =
      OnesComplement.total (addrWords skb.saddr ++ addrWords skb.daddr) := by
  have hsaddr : skb.rewrite.saddr.toNat = skb.saddr.toNat + (skb.daddr &&& modelForcebit).toNat :=
    toNat_or_and h skb.daddr
  have hdaddr : skb.rewrite.daddr.toNat + (skb.daddr &&& modelForcebit).toNat = skb.daddr.toNat :=
    toNat_and_not_add skb.daddr modelForcebit
  rw [OnesComplement.total_append, OnesComplement.total_append, total_addrWords, total_addrWords,
    total_addrWords, total_addrWords]
  rcases and_modelForcebit skb.daddr with hbit | hbit
  · rw [hbit] at hsaddr hdaddr
    omega
  · rw [hbit] at hsaddr hdaddr
    omega

/-- **Checksums.** A one's-complement sum over both addresses is the same before and after. -/
theorem sum_rewrite {skb : SkBuff} (h : skb.saddr &&& modelForcebit = 0)
    (before after : List (BitVec 16)) :
    OnesComplement.sum
        (before ++ (addrWords skb.rewrite.saddr ++ addrWords skb.rewrite.daddr) ++ after) =
      OnesComplement.sum (before ++ (addrWords skb.saddr ++ addrWords skb.daddr) ++ after) := by
  refine OnesComplement.sum_congr (by decide) ?_
  rw [OnesComplement.total_append, OnesComplement.total_append, total_addrWords_rewrite h,
    ← OnesComplement.total_append, ← OnesComplement.total_append]

/-! ## There and back -/

/-- A buffer whose source has no force bit comes back swapped from a rewriting there and back. -/
theorem rewrite_swap_rewrite {skb : SkBuff} (h : skb.saddr &&& modelForcebit = 0#32) :
    skb.rewrite.swap.rewrite = skb.swap := by
  have hin : (skb.saddr ||| (skb.daddr &&& modelForcebit)) &&& modelForcebit =
      skb.daddr &&& modelForcebit := by
    rw [BitVec.and_or_distrib_right, h, BitVec.and_assoc, BitVec.and_self, BitVec.zero_or]
  have hout : (skb.saddr ||| (skb.daddr &&& modelForcebit)) &&& ~~~modelForcebit = skb.saddr := by
    rw [BitVec.and_or_distrib_right, and_not_of_and_eq_zero h, BitVec.and_assoc,
      show modelForcebit &&& ~~~modelForcebit = 0#32 from BitVec.and_not_self _, BitVec.and_zero,
      BitVec.or_zero]
  unfold SkBuff.rewrite SkBuff.swap
  dsimp only
  rw [hin, hout, and_not_or_and]

/-- The address of a virtual node: in 10/8, without the force bit. -/
structure IsNodeAddr (a : BitVec 32) : Prop where
  mnet : IsMnetIp a
  bit : a &&& modelForcebit = 0#32

variable {a b : BitVec 32}

theorem IsNodeAddr.isMnetIp_or (ha : IsNodeAddr a) : IsMnetIp (a ||| mnetMagicBit) := by
  unfold IsMnetIp
  rw [BitVec.and_or_distrib_right, show a &&& 0xff000000 = 0x0a000000 from ha.mnet]
  decide

theorem IsNodeAddr.or_and_not (ha : IsNodeAddr a) :
    (a ||| mnetMagicBit) &&& ~~~mnetMagicBit = a := by
  rw [BitVec.and_or_distrib_right, BitVec.and_not_self]
  exact BitVec.or_zero.trans (and_not_of_and_eq_zero ha.bit)

/-- `emulate_path` moves the force bit from the destination to the source. -/
theorem rewrite_forced {skb : SkBuff} (hsaddr : skb.saddr = a)
    (hdaddr : skb.daddr = b ||| mnetMagicBit) (hb : IsNodeAddr b) :
    skb.rewrite.saddr = a ||| mnetMagicBit ∧ skb.rewrite.daddr = b := by
  have hbit : (b ||| mnetMagicBit) &&& modelForcebit = modelForcebit := by
    rw [BitVec.and_or_distrib_right, hb.bit, BitVec.zero_or]
    decide
  constructor
  · show skb.saddr ||| (skb.daddr &&& modelForcebit) = _
    rw [hsaddr, hdaddr, hbit]
    rfl
  · show skb.daddr &&& ~~~modelForcebit = b
    rw [hdaddr]
    exact hb.or_and_not

/-! ## The client library -/

/-- The calls that name a destination. -/
inductive SendCall where
  | connect
  | sendto
  | sendmsg
  deriving DecidableEq

inductive ReportCall where
  | getpeername
  | recvfrom
  | recvmsg
  deriving DecidableEq

def SendCall.toKernel : SendCall → Process → Outcomes → ℕ → SockArg → SockArg
  | .connect, c, o, s, servAddr => (c.connect o s servAddr).2
  | .sendto, c, o, s, toAddr => (c.sendto o s toAddr).2
  | .sendmsg, c, o, s, name => (c.sendmsg o s name).2

/-- The address that the application gets. -/
def ReportCall.fromKernel : ReportCall → Process → SockArg → SockArg
  | .getpeername, c, name => c.getpeername name
  | .recvfrom, c, from_ => c.recvfrom from_
  | .recvmsg, c, name => c.recvmsg name

/-- The process is at the node `a` and forces destinations: `KEEP_DSTIP` is not set. -/
structure Forces (c : Process) (a : BitVec 32) : Prop where
  localip : c.mnLocalip = a
  keepDstip : c.mnKeepDstip = false

/-- The process at the node sends the datagram to the address `b`: some call names `b`, and the
kernel uses what the library hands it. -/
def Sends (c : Process) (d : Datagram) (b : BitVec 32) : Prop :=
  d.ip.saddr = c.mnLocalip ∧ ∃ (call : SendCall) (o : Outcomes) (s : ℕ) (arg : SockArg)
    (sa saKernel : SockaddrIn), arg.inet = some sa ∧ sa.addr = b ∧
      (call.toKernel c o s arg).inet = some saKernel ∧ d.ip.daddr = saKernel.addr

variable {A B c : Process} {d e : Datagram}

theorem Client.SockArg.inet_of_some {arg : SockArg} {sa sa' : SockaddrIn} (h : arg.inet = some sa)
    (hfamily : sa'.family = sa.family) : ({ arg with sa := some sa' } : SockArg).inet = some sa' := by
  have hsa := Option.filter_eq_some_iff.mp h
  have htest : sockaddrInSize ≤ arg.len ∧ sa.family = afInet := of_decide_eq_true hsa.2
  exact Option.filter_eq_some_iff.mpr
    ⟨rfl, decide_eq_true ⟨htest.1, hfamily.trans htest.2⟩⟩

theorem inet_toKernel {arg : SockArg} {sa : SockaddrIn} (h : arg.inet = some sa) :
    (c.toKernel arg).inet = some (c.forceDst sa) := by
  unfold Process.toKernel
  rw [h]
  refine SockArg.inet_of_some h ?_
  unfold Process.forceDst
  split_ifs <;> rfl

theorem inet_fromKernel {arg : SockArg} {sa : SockaddrIn} (h : arg.inet = some sa) :
    (c.fromKernel arg).inet = some (c.hideBit sa) := by
  unfold Process.fromKernel
  rw [h]
  refine SockArg.inet_of_some h ?_
  unfold Process.hideBit
  split_ifs <;> rfl

theorem forceDst_eq (hc : Forces c a) (ha : IsNodeAddr a) (hb : IsNodeAddr b) (hab : a ≠ b)
    {sa : SockaddrIn} (hsa : sa.addr = b) :
    c.forceDst sa = { sa with addr := b ||| mnetMagicBit } := by
  have hzero : c.mnLocalip ≠ 0 := by
    intro h
    have hmnet := ha.mnet
    rw [← hc.localip, h] at hmnet
    exact absurd hmnet (by decide)
  unfold Process.forceDst
  rw [if_pos ⟨by rw [hc.keepDstip]; decide, hsa ▸ hb.mnet, hzero⟩,
    if_pos (by rw [hsa, hc.localip]; exact hab.symm), hsa]

theorem hideBit_eq (hc : c.mnKeepDstip = false) (ha : IsNodeAddr a) {sa : SockaddrIn}
    (hsa : sa.addr = a ||| mnetMagicBit) : c.hideBit sa = { sa with addr := a } := by
  unfold Process.hideBit
  rw [if_pos ⟨by rw [hc]; decide, hsa ▸ ha.isMnetIp_or⟩, hsa, ha.or_and_not]

/-- A datagram to another node leaves with a forced destination. -/
theorem daddr_of_sends (hA : Forces A a) (ha : IsNodeAddr a) (hb : IsNodeAddr b) (hab : a ≠ b)
    (hd : Sends A d b) : d.ip.saddr = a ∧ d.ip.daddr = b ||| mnetMagicBit := by
  obtain ⟨hsaddr, call, o, s, arg, sa, saKernel, harg, hsa, hkernel, hdaddr⟩ := hd
  have hcall : call.toKernel A o s arg = A.toKernel arg := by cases call <;> rfl
  rw [hcall, inet_toKernel harg, forceDst_eq hA ha hb hab hsa] at hkernel
  cases hkernel
  exact ⟨hsaddr.trans hA.localip, hdaddr⟩

/-- The library of any node reports a forced source as the address of its node. -/
theorem inet_report (hc : c.mnKeepDstip = false) (ha : IsNodeAddr a) (call : ReportCall)
    {arg : SockArg} {sa : SockaddrIn} (harg : arg.inet = some sa)
    (hsa : sa.addr = a ||| mnetMagicBit) :
    (call.fromKernel c arg).inet = some { sa with addr := a } := by
  have hcall : call.fromKernel c arg = c.fromKernel arg := by cases call <;> rfl
  rw [hcall, inet_fromKernel harg, hideBit_eq hc ha hsa]

/-! ## The emulator -/

section Emulator

variable {hz : ℕ} {k k' : Kernel} {p : PktId} {t : SkbId} {ip : SkBuff}

theorem skbs_of_update_none {heap : SkbId → Option SkBuff} {s : SkbId}
    (h : Function.update heap s none t = some ip) : heap t = some ip := by
  by_cases hst : t = s
  · rw [hst, Function.update_self] at h
    cases h
  · rw [Function.update_of_ne hst] at h
    exact h

theorem skbs_of_mnFreePkt (h : k.mnFreePkt p = some k') (ht : k'.skbs t = some ip) :
    k.skbs t = some ip := by
  obtain ⟨pkt, -, h⟩ := Option.bind_eq_some_iff.mp h
  cases hskb : pkt.skb with
  | none =>
    rw [hskb] at h
    cases h
    exact ht
  | some s =>
    rw [hskb] at h
    obtain ⟨k₁, hfree, rfl⟩ := Option.map_eq_some_iff.mp h
    obtain ⟨b, -, rfl⟩ := Option.map_eq_some_iff.mp hfree
    exact skbs_of_update_none ht

theorem skbs_of_forwardPacket (h : k.forwardPacket p = some k') (ht : k'.skbs t = some ip) :
    k.skbs t = some ip := by
  obtain ⟨pkt, -, h⟩ := Option.bind_eq_some_iff.mp h
  cases hskb : pkt.skb with
  | none =>
    rw [hskb] at h
    cases h
    exact ht
  | some s =>
    rw [hskb] at h
    obtain ⟨b, -, h⟩ := Option.bind_eq_some_iff.mp h
    obtain ⟨f, -, rfl⟩ := Option.map_eq_some_iff.mp h
    exact skbs_of_update_none ht

theorem skbs_emulateHop {h : HopPtr} {r : Kernel × ℤ} (hr : k.emulateHop hz p h = some r) :
    r.1.skbs = k.skbs := by
  obtain ⟨⟨k₁, out⟩, hsection, rfl⟩ := Option.map_eq_some_iff.mp hr
  obtain ⟨pkt, -, hsection⟩ := Option.bind_eq_some_iff.mp hsection
  obtain ⟨hop, -, hsection⟩ := Option.bind_eq_some_iff.mp hsection
  obtain ⟨⟨hop', out'⟩, -, heq⟩ := Option.map_eq_some_iff.mp hsection
  cases out' <;> cases heq <;> rfl

theorem skbs_of_finishNexthop {h : HopPtr} {ret : ℤ} (hk : k.finishNexthop p h ret = some k')
    (ht : k'.skbs t = some ip) : k.skbs t = some ip := by
  obtain ⟨pkt, -, hk⟩ := Option.bind_eq_some_iff.mp hk
  obtain ⟨path, -, hk⟩ := Option.bind_eq_some_iff.mp hk
  obtain ⟨hop, -, hk⟩ := Option.bind_eq_some_iff.mp hk
  dsimp only at hk
  split_ifs at hk
  · have hbefore := skbs_of_mnFreePkt hk ht
    exact hbefore
  · have hbefore := skbs_of_mnFreePkt hk ht
    exact hbefore
  · cases hk
    exact ht

/-- `emulate_nexthop` gives buffers away or frees them, and changes no header. -/
theorem skbs_of_emulateNexthop (h : k.emulateNexthop hz p = some k') (ht : k'.skbs t = some ip) :
    k.skbs t = some ip := by
  obtain ⟨pkt, -, h⟩ := Option.bind_eq_some_iff.mp h
  obtain ⟨path, -, h⟩ := Option.bind_eq_some_iff.mp h
  obtain ⟨curhop, -, h⟩ := Option.bind_eq_some_iff.mp h
  cases curhop with
  | none =>
    obtain ⟨k₁, hforward, hfree⟩ := Option.bind_eq_some_iff.mp h
    exact skbs_of_forwardPacket hforward (skbs_of_mnFreePkt hfree ht)
  | some ptr =>
    obtain ⟨hop, -, h⟩ := Option.bind_eq_some_iff.mp h
    obtain ⟨r, hr, hfinish⟩ := Option.bind_eq_some_iff.mp h
    have hbefore := skbs_of_finishNexthop hfinish ht
    split_ifs at hr
    · cases hr
      exact hbefore
    · rw [skbs_emulateHop hr] at hbefore
      exact hbefore

/-- `emulate_path` stores the rewritten header before the path is looked up; what follows it is
`emulate_nexthop`. -/
theorem emulatePath_rewrites {pkt : Packet} {s : SkbId} {skb : SkBuff} {r : Kernel × ℤ}
    (hp : k.pkts p = some pkt) (hs : pkt.skb = some s) (hskb : k.skbs s = some skb)
    (h : k.emulatePath hz p = some r) :
    ∃ k₁ err, k₁.skbs s = some skb.rewrite ∧
      (if err ≠ 0 then some (k₁, err)
        else (k₁.emulateNexthop hz p).map fun k => (k, 0)) = some r := by
  rw [Kernel.emulatePath_eq] at h
  obtain ⟨⟨k₁, err⟩, hstart, hrest⟩ := Option.bind_eq_some_iff.mp h
  refine ⟨k₁, err, ?_, hrest⟩
  unfold Kernel.startPath at hstart
  rw [hp, Option.bind_some, hs, Option.bind_some, hskb, Option.bind_some] at hstart
  dsimp only at hstart
  split at hstart
  · cases hstart
    exact Function.update_self _ _ _
  · obtain ⟨cell, -, hcell⟩ := Option.bind_eq_some_iff.mp hstart
    cases cell <;> cases hcell <;> exact Function.update_self _ _ _

/-- A buffer that is still held after `emulate_path` has the rewritten header. -/
theorem skbs_of_emulatePath {pkt : Packet} {skb : SkBuff} {r : Kernel × ℤ}
    (hp : k.pkts p = some pkt) (hs : pkt.skb = some t) (hskb : k.skbs t = some skb)
    (h : k.emulatePath hz p = some r) (ht : r.1.skbs t = some ip) : ip = skb.rewrite := by
  obtain ⟨k₁, err, hk₁, hrest⟩ := emulatePath_rewrites hp hs hskb h
  have hheld : k₁.skbs t = some ip := by
    split_ifs at hrest
    · cases hrest
      exact ht
    · obtain ⟨k₂, hnext, rfl⟩ := Option.map_eq_some_iff.mp hrest
      exact skbs_of_emulateNexthop hnext ht
  exact Option.some.inj (hheld.symm.trans hk₁)

end Emulator

/-! ## Transparency -/

/-- The datagram `e` answers `d`: it swaps the ports, and goes from the process `B` to the address
`a` that its library reports, or, from a pure server, to the source that `d` arrived with. -/
def Answers (B : Process) (a : BitVec 32) (d e : Datagram) : Prop :=
  (Sends B e a ∨ e.ip.saddr = d.rewrite.ip.daddr ∧ e.ip.daddr = d.rewrite.ip.saddr) ∧
    e.sport = d.dport ∧ e.dport = d.sport

/-- What `emulate_path` and the libraries do to a datagram from `a` to `b` and an answer to it. -/
structure Exchange (a b : BitVec 32) (B : Process) (d e : Datagram) : Prop where
  forced : d.ip.daddr = b ||| mnetMagicBit
  saddr : d.rewrite.ip.saddr = a ||| mnetMagicBit
  daddr : d.rewrite.ip.daddr = b
  report : ∀ (call : ReportCall) (arg : SockArg) (sa : SockaddrIn), arg.inet = some sa →
    sa.addr = d.rewrite.ip.saddr → (call.fromKernel B arg).inet = some { sa with addr := a }
  answerSaddr : e.rewrite.ip.saddr = b ||| mnetMagicBit
  answerDaddr : e.rewrite.ip.daddr = a
  fourTuple : e.rewrite.receiver = d.sender

theorem exchange (ha : IsNodeAddr a) (hb : IsNodeAddr b) (hab : a ≠ b) (hA : Forces A a)
    (hB : Forces B b) (hd : Sends A d b) (he : Answers B a d e) : Exchange a b B d e := by
  obtain ⟨hdsaddr, hddaddr⟩ := daddr_of_sends hA ha hb hab hd
  obtain ⟨hsaddr, hdaddr⟩ := rewrite_forced hdsaddr hddaddr hb
  obtain ⟨hanswer, hsport, hdport⟩ := he
  have he' : e.ip.saddr = b ∧ e.ip.daddr = a ||| mnetMagicBit := by
    rcases hanswer with hsends | ⟨hes, hed⟩
    · exact daddr_of_sends hB hb ha hab.symm hsends
    · exact ⟨hes.trans hdaddr, hed.trans hsaddr⟩
  obtain ⟨hesaddr, hedaddr⟩ := rewrite_forced he'.1 he'.2 ha
  refine ⟨hddaddr, hsaddr, hdaddr, ?_, hesaddr, hedaddr, ?_⟩
  · intro call arg sa harg hsa
    exact inet_report hB.keepDstip ha call harg (hsa.trans hsaddr)
  · have hreceiver : e.rewrite.receiver = ⟨a, e.dport, b ||| mnetMagicBit, e.sport⟩ := by
      show (⟨e.rewrite.ip.daddr, e.dport, e.rewrite.ip.saddr, e.sport⟩ : FourTuple) = _
      rw [show e.rewrite.ip.daddr = a from hedaddr,
        show e.rewrite.ip.saddr = b ||| mnetMagicBit from hesaddr]
    rw [hreceiver, hsport, hdport]
    show _ = (⟨d.ip.saddr, d.sport, d.ip.daddr, d.dport⟩ : FourTuple)
    rw [hdsaddr, hddaddr]

theorem sum_headerWords_rewrite (h : d.ip.saddr &&& modelForcebit = 0#32) :
    OnesComplement.sum d.rewrite.headerWords = OnesComplement.sum d.headerWords :=
  sum_rewrite h _ _

theorem sum_pseudoHeaderWords_rewrite (h : d.ip.saddr &&& modelForcebit = 0#32) (len : BitVec 16)
    (segment : List (BitVec 16)) :
    OnesComplement.sum (d.rewrite.pseudoHeaderWords len ++ segment) =
      OnesComplement.sum (d.pseudoHeaderWords len ++ segment) := by
  have hsum := sum_rewrite h [] ([0#8 ++ d.rest.protocol, len] ++ segment)
  rw [List.nil_append, List.nil_append, ← List.append_assoc, ← List.append_assoc] at hsum
  exact hsum

/-- **Transparency.** For processes at two nodes that force destinations, the datagram arrives from
the forced source, is reported as coming from the node, and the answer arrives on the connection
of the sender. Whatever the addresses, a source without the force bit gets its own datagrams back
swapped, and no checksum changes; `emulate_path` stores just these addresses. -/
theorem rewriting_transparent (ha : IsNodeAddr a) (hb : IsNodeAddr b) (hab : a ≠ b)
    (hA : Forces A a) (hB : Forces B b) :
    (∀ d e, Sends A d b → Answers B a d e → Exchange a b B d e) ∧
    (∀ skb : SkBuff, skb.saddr &&& modelForcebit = 0#32 →
      skb.rewrite.swap.rewrite = skb.swap) ∧
    (∀ d : Datagram, d.ip.saddr &&& modelForcebit = 0#32 →
      OnesComplement.sum d.rewrite.headerWords = OnesComplement.sum d.headerWords ∧
      ∀ len segment, OnesComplement.sum (d.rewrite.pseudoHeaderWords len ++ segment) =
        OnesComplement.sum (d.pseudoHeaderWords len ++ segment)) ∧
    (∀ (hz : ℕ) (k : Kernel) (p : PktId) (pkt : Packet) (s : SkbId) (skb ip : SkBuff)
      (r : Kernel × ℤ), k.pkts p = some pkt → pkt.skb = some s → k.skbs s = some skb →
      k.emulatePath hz p = some r → r.1.skbs s = some ip → ip = skb.rewrite) :=
  ⟨fun _ _ hd he => exchange ha hb hab hA hB hd he, fun _ h => rewrite_swap_rewrite h,
    fun _ h => ⟨sum_headerWords_rewrite h, sum_pseudoHeaderWords_rewrite h⟩,
    fun _ _ _ _ _ _ _ _ hp hs hskb h ht => skbs_of_emulatePath hp hs hskb h ht⟩

/-- A request of 10.0.0.1 to 10.0.0.2 with this destination, and the answer. -/
def requestTo (daddr : BitVec 32) : Datagram where
  ip := { saddr := 0x0a000001, daddr := daddr, len := 28 }
  rest := { version := 4, ihl := 5, tos := 0, totLen := 28, id := 1, fragOff := 0, ttl := 64,
            protocol := 17, check := 0x65cd, options := [] }
  sport := 4000
  dport := 53

/-- The datagram that a pure server sends back. -/
def Datagram.answer (d : Datagram) : Datagram where
  ip := d.ip.swap
  rest := d.rest
  sport := d.dport
  dport := d.sport

theorem sends_requestTo :
    Sends (Process.init 0x0a000001 false) (requestTo 0x0a800002) 0x0a000002 :=
  ⟨rfl, .sendto, ⟨true, true, 0, true, 0, true, true⟩, 3, ⟨some ⟨afInet, 0x0a000002, 53⟩, 16⟩,
    ⟨afInet, 0x0a000002, 53⟩, ⟨afInet, 0x0a800002, 53⟩, rfl, rfl, rfl, rfl⟩

/-- Two nodes of one subnet, with a pure server at the second one. -/
theorem rewriting_transparent_neighbours :
    Exchange 0x0a000001 0x0a000002 (Process.init 0x0a000002 false) (requestTo 0x0a800002)
      (requestTo 0x0a800002).rewrite.answer ∧
    (requestTo 0x0a800002).ip.rewrite.swap.rewrite = (requestTo 0x0a800002).ip.swap ∧
    OnesComplement.sum (requestTo 0x0a800002).rewrite.headerWords =
      OnesComplement.sum (requestTo 0x0a800002).headerWords := by
  obtain ⟨hexchange, hswap, hsum, -⟩ := rewriting_transparent (a := 0x0a000001) (b := 0x0a000002)
    (A := Process.init 0x0a000001 false) (B := Process.init 0x0a000002 false)
    ⟨by decide, by decide⟩ ⟨by decide, by decide⟩ (by decide) ⟨rfl, rfl⟩ ⟨rfl, rfl⟩
  exact ⟨hexchange _ _ sends_requestTo ⟨Or.inr ⟨rfl, rfl⟩, rfl, rfl⟩, hswap _ (by decide),
    (hsum _ (by decide)).1⟩

end Modelnet

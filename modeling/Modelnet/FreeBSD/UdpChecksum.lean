import Modelnet.Lib.OnesComplement
import Modelnet.FreeBSD.Core
import Mathlib.Data.Nat.ModEq

/-!
# Datagrams between cores

`udp_send_out` puts a UDP header with a checksum in front of the records for another core, and
`udp_validate` checks it there, before `remote_input` takes the records off. The fields of the IP
header that routers write to are zero while the checksum is computed. `udp_rewrite.c` changes the
two ends of such a datagram.

Words in network order are held as numbers. `in_cksum` and `in_pseudo` are the kernel's.
-/

namespace Modelnet.FreeBSD

open OnesComplement

def ehostunreach : ℤ := 65

def ipprotoUdp : ℕ := 17

def ipDefTtl : Byte := 64

/-- `sizeof(struct udphdr)`. -/
def udphdrSize : ℕ := 8

/-- The bytes of a word, highest first. -/
def be16 (x : BitVec 16) : List Byte := [x.extractLsb' 8 8, x.extractLsb' 0 8]

/-- The two halves of an address, the network's first. -/
def addrHalves (a : BitVec 32) : List (BitVec 16) := [a.extractLsb' 16 16, a.extractLsb' 0 16]

/-- The words of bytes in network order; a zero follows a byte without a partner. -/
def netWords : List Byte → List (BitVec 16)
  | [] => []
  | [b] => [b ++ 0#8]
  | b :: c :: bs => (b ++ c) :: netWords bs

/-- `in_cksum` over the first `len` bytes. -/
def inCksum (m : List Byte) (len : ℕ) : BitVec 16 := ~~~sum (netWords (m.take len))

def inPseudo (a b c : BitVec 32) : BitVec 16 := sum (addrHalves a ++ addrHalves b ++ addrHalves c)

/-- A datagram in memory. `struct ipovly` lays the nine bytes of `ih_x1` over the fields up to
`ttl`, and `ih_len` over `ipSum`. -/
structure UdpDatagram where
  vhl : Byte
  tos : Byte
  ipLen : BitVec 16
  id : BitVec 16
  off : BitVec 16
  ttl : Byte
  pr : Byte
  ipSum : BitVec 16
  src : BitVec 32
  dst : BitVec 32
  sport : BitVec 16
  dport : BitVec 16
  ulen : BitVec 16
  uhSum : BitVec 16
  data : List Byte
  deriving DecidableEq, Repr

namespace UdpDatagram

def bytes (d : UdpDatagram) : List Byte :=
  [d.vhl, d.tos] ++ be16 d.ipLen ++ be16 d.id ++ be16 d.off ++ [d.ttl, d.pr] ++ be16 d.ipSum ++
    be32 d.src ++ be32 d.dst ++ be16 d.sport ++ be16 d.dport ++ be16 d.ulen ++ be16 d.uhSum ++
    d.data

/-- `ip->ip_hl << 2`. -/
def iphlen (d : UdpDatagram) : ℕ := d.vhl.toNat % 16 * 4

/-- `bzero` of `ih_x1`, and the UDP length in `ih_len`. -/
def overlay (d : UdpDatagram) : UdpDatagram :=
  { d with vhl := 0, tos := 0, ipLen := 0, id := 0, off := 0, ttl := 0, ipSum := d.ulen }

end UdpDatagram

/-- The checksum that is sent: 0 would say that there is none. -/
def sentSum (m : List Byte) (len : ℕ) : BitVec 16 :=
  if inCksum m len = 0 then 0xffff else inCksum m len

/-- `udp_send_out` up to `ip_output`. `mbuf` says whether `M_PREPEND` finds room, `ia` is the
address of the interface that the route goes out of. -/
def udpSendOut (udpcksum mbuf : Bool) (ia : Option (BitVec 32)) (dst : BitVec 32)
    (sport dport : BitVec 16) (m : List Byte) : Except ℤ UdpDatagram :=
  if !mbuf then .error enobufs
  else
    match ia with
    | none => .error ehostunreach
    | some src =>
      let pktLen := m.length + udpiphdrSize
      let uiLen := BitVec.ofNat 16 (pktLen - ipSize)
      let ui : UdpDatagram :=
        { vhl := 0, tos := 0, ipLen := 0, id := 0, off := 0, ttl := 0,
          pr := BitVec.ofNat 8 ipprotoUdp, ipSum := uiLen, src, dst, sport, dport,
          ulen := uiLen, uhSum := 0, data := m }
      let ui := if udpcksum then { ui with uhSum := sentSum ui.bytes pktLen } else ui
      .ok { ui with ipLen := BitVec.ofNat 16 pktLen, off := 0, tos := 0, ttl := ipDefTtl }

/-- `m_pkthdr.csum_flags` of a datagram that has been received, with `csum_data`. -/
inductive Csum
  /-- the interface has not looked at the checksum -/
  | none
  /-- `CSUM_DATA_VALID`: the sum of the segment -/
  | dataValid (data : BitVec 32)
  /-- with `CSUM_PSEUDO_HDR`: the sum of the segment and of its pseudo-header -/
  | pseudoHdr (data : BitVec 32)

/-- The datagram with what is computed in place of the checksum. -/
def Csum.compute (csum : Csum) (d : UdpDatagram) : UdpDatagram :=
  match csum with
  | .none =>
    { d with ipSum := d.ulen, uhSum := inCksum d.overlay.bytes (d.ulen.toNat + ipSize) }
  | .dataValid data =>
    { d with
      uhSum := inPseudo d.src d.dst
        (BitVec.ofNat 32 d.ulen.toNat + data + BitVec.ofNat 32 ipprotoUdp) ^^^ 0xffff }
  | .pseudoHdr data => { d with uhSum := data.setWidth 16 ^^^ 0xffff }

/-- `udp_validate`: the datagram as it is left, or none when it is bad and has been freed.
`ip_input` has dropped the headers that are too short, and `ip_len` is in the order of the host. -/
def udpValidate (csum : Csum) (d : UdpDatagram) : Option UdpDatagram :=
  if ipSize < d.iphlen then some d
  else if d.ipLen.toNat ≠ d.ulen.toNat ∧
      (d.ipLen.toNat < d.ulen.toNat ∨ d.ulen.toNat < udphdrSize) then none
  else if d.uhSum = 0 then some d
  else if (csum.compute d).uhSum = 0 then some (csum.compute d)
  else none

/-! ## The words under the checksum -/

theorem be16_append (x : BitVec 16) : x.extractLsb' 8 8 ++ x.extractLsb' 0 8 = x :=
  (BitVec.extractLsb'_append_extractLsb'_eq_extractLsb' rfl).trans BitVec.extractLsb'_eq_self

theorem netWords_be16 (x : BitVec 16) (bs : List Byte) :
    netWords (be16 x ++ bs) = x :: netWords bs :=
  congrArg (· :: netWords bs) (be16_append x)

theorem netWords_be32 (a : BitVec 32) (bs : List Byte) :
    netWords (be32 a ++ bs) = addrHalves a ++ netWords bs := by
  have hhi : a.extractLsb' 24 8 ++ a.extractLsb' 16 8 = a.extractLsb' 16 16 :=
    BitVec.extractLsb'_append_extractLsb'_eq_extractLsb' rfl
  have hlo : a.extractLsb' 8 8 ++ a.extractLsb' 0 8 = a.extractLsb' 0 16 :=
    BitVec.extractLsb'_append_extractLsb'_eq_extractLsb' rfl
  change (a.extractLsb' 24 8 ++ a.extractLsb' 16 8) ::
    (a.extractLsb' 8 8 ++ a.extractLsb' 0 8) :: netWords bs = _
  rw [hhi, hlo]
  rfl

namespace UdpDatagram

def pseudoWords (d : UdpDatagram) : List (BitVec 16) :=
  [0, 0, 0, 0, 0#8 ++ d.pr, d.ulen] ++ addrHalves d.src ++ addrHalves d.dst

/-- The words of the data that the UDP length speaks of. -/
def dataWords (d : UdpDatagram) : List (BitVec 16) :=
  netWords (d.data.take (d.ulen.toNat - udphdrSize))

def segment (d : UdpDatagram) : List (BitVec 16) :=
  [d.sport, d.dport, d.ulen, d.uhSum] ++ d.dataWords

/-- The words that the checksum of a datagram is about. -/
def covered (d : UdpDatagram) : List (BitVec 16) := d.pseudoWords ++ d.segment

/-- What stands in front of the checksum. -/
def front (d : UdpDatagram) : List (BitVec 16) := d.pseudoWords ++ [d.sport, d.dport, d.ulen]

theorem covered_eq (d : UdpDatagram) : d.covered = d.front ++ d.uhSum :: d.dataWords := by
  simp [covered, segment, front]

theorem netWords_overlay {d : UdpDatagram} (h : udphdrSize ≤ d.ulen.toNat) :
    netWords (d.overlay.bytes.take (d.ulen.toNat + ipSize)) = d.covered := by
  obtain ⟨n, hn⟩ := Nat.exists_eq_add_of_le' h
  have htake : d.overlay.bytes.take (n + udphdrSize + ipSize) =
      [0, 0] ++ (be16 0 ++ (be16 0 ++ (be16 0 ++ ([0, d.pr] ++ (be16 d.ulen ++ (be32 d.src ++
        (be32 d.dst ++ (be16 d.sport ++ (be16 d.dport ++ (be16 d.ulen ++ (be16 d.uhSum ++
          d.data.take n))))))))))) := rfl
  have hpair : ∀ (b c : Byte) (bs : List Byte), netWords ([b, c] ++ bs) = (b ++ c) :: netWords bs :=
    fun _ _ _ => rfl
  rw [hn, htake]
  simp only [hpair, netWords_be16, netWords_be32]
  rw [covered, segment, dataWords, hn, Nat.add_sub_cancel]
  rfl

/-- The checksum stands where the sum is taken with a zero. -/
theorem sentSum_overlay {d : UdpDatagram} (h : udphdrSize ≤ d.ulen.toNat) (hsum : d.uhSum = 0) :
    sentSum d.overlay.bytes (d.ulen.toNat + ipSize) = checkWord (d.front ++ d.dataWords) := by
  have hcongr : sum d.covered = sum (d.front ++ d.dataWords) := by
    apply sum_congr (by decide)
    rw [covered_eq, hsum, total_append, total_append, total_cons]
    exact congrArg _ (Nat.zero_add _)
  unfold sentSum inCksum checkWord
  rw [netWords_overlay h, hcongr]
  rfl

theorem passes_of_sealed {d : UdpDatagram} (h : d.uhSum = checkWord (d.front ++ d.dataWords)) :
    Passes d.covered := by
  rw [covered_eq, h]
  exact passes_checkWord (by decide) d.front d.dataWords

/-- A datagram whose checksum is looked at. -/
structure Checked (d : UdpDatagram) : Prop where
  noOptions : d.iphlen ≤ ipSize
  long : udphdrSize ≤ d.ulen.toNat
  fits : d.ulen.toNat ≤ d.ipLen.toNat
  summed : d.uhSum ≠ 0

end UdpDatagram

variable {d e : UdpDatagram} {csum : Csum}

theorem udpValidate_none (h : d.Checked) :
    udpValidate .none d =
      if Passes d.covered then some { d with ipSum := d.ulen, uhSum := 0 } else none := by
  have hlong := h.long
  have hfits := h.fits
  have hsum : (Csum.none.compute d).uhSum = ~~~sum d.covered :=
    congrArg (~~~sum ·) (UdpDatagram.netWords_overlay h.long)
  have hcompute : Csum.none.compute d = { d with ipSum := d.ulen, uhSum := ~~~sum d.covered } :=
    congrArg (fun x => { d with ipSum := d.ulen, uhSum := x }) hsum
  unfold udpValidate
  rw [if_neg (not_lt.mpr h.noOptions), if_neg (by omega), if_neg h.summed, hsum, hcompute]
  by_cases hpass : Passes d.covered
  · rw [if_pos hpass, (passes_iff_not d.covered).mpr hpass, if_pos rfl]
  · rw [if_neg hpass, if_neg fun hzero => hpass ((passes_iff_not d.covered).mp hzero)]

theorem udpValidate_none_isSome (h : d.Checked) :
    (udpValidate .none d).isSome ↔ Passes d.covered := by
  rw [udpValidate_none h]
  split_ifs with hpass
  · exact ⟨fun _ => hpass, fun _ => rfl⟩
  · exact ⟨nofun, fun h => absurd h hpass⟩

/-- Three bytes on their way to 10.0.0.2. -/
def probe : UdpDatagram where
  vhl := 0x45
  tos := 0
  ipLen := 31
  id := 7
  off := 0
  ttl := 61
  pr := 17
  ipSum := 0x1234
  src := 0x0a000001
  dst := 0x0a000002
  sport := 1000
  dport := 1000
  ulen := 11
  uhSum := 0xe003
  data := [1, 2, 3]

theorem checked_probe : probe.Checked := ⟨by decide, by decide, by decide, by decide⟩

/-! ## A word that changes -/

theorem total_ne_zero_of_mem {l : List (BitVec 16)} {x : BitVec 16} (h : x ∈ l) (hx : x ≠ 0) :
    total l ≠ 0 := by
  intro hzero
  obtain ⟨l₁, l₂, rfl⟩ := List.append_of_mem h
  rw [total_append, total_cons] at hzero
  exact hx (BitVec.eq_of_toNat_eq (by
    rw [show (0 : BitVec 16).toNat = 0 from rfl]
    omega))

theorem UdpDatagram.ulen_mem {l l' : List (BitVec 16)} {x : BitVec 16}
    (h : d.covered = l ++ x :: l') : d.ulen ∈ l ++ l' := by
  have hget : ∀ i, i ≠ l.length → d.covered[i]? = some d.ulen → d.ulen ∈ l ++ l' := by
    intro i hi hulen
    rw [h] at hulen
    rcases Nat.lt_or_gt_of_ne hi with hlt | hgt
    · rw [List.getElem?_append_left hlt] at hulen
      exact List.mem_append_left _ (List.mem_of_getElem? hulen)
    · obtain ⟨k, hk⟩ := Nat.exists_eq_add_of_lt hgt
      rw [List.getElem?_append_right hgt.le, hk, Nat.add_assoc, Nat.add_sub_cancel_left,
        List.getElem?_cons_succ] at hulen
      exact List.mem_append_right _ (List.mem_of_getElem? hulen)
  by_cases hlen : 5 = l.length
  · exact hget 12 (by omega) rfl
  · exact hget 5 hlen rfl

/-- Where a datagram that was accepted arrives with another word in one place, it is accepted
again only when the one word was 0 and the other the word of ones. -/
theorem udpValidate_word {l l' : List (BitVec 16)} {x y : BitVec 16} (hd : d.Checked)
    (he : e.Checked) (hcd : d.covered = l ++ x :: l') (hce : e.covered = l ++ y :: l')
    (h : (udpValidate .none d).isSome) :
    (udpValidate .none e).isSome ↔ y = x ∨ (x = 0 ∧ y = 0xffff) ∨ (x = 0xffff ∧ y = 0) := by
  have hlong := hd.long
  have hulen : d.ulen ≠ 0 := by
    rintro hzero
    rw [hzero] at hlong
    exact absurd hlong (by decide)
  have htotal := total_ne_zero_of_mem (UdpDatagram.ulen_mem hcd) hulen
  rw [udpValidate_none_isSome hd, hcd] at h
  rw [udpValidate_none_isSome he, hce]
  exact passes_change (by decide) y h htotal

theorem udpValidate_word_probe :
    (udpValidate .none { probe with data := [1, 3, 3] }).isSome ↔
      (259 : BitVec 16) = 258 ∨ ((258 : BitVec 16) = 0 ∧ (259 : BitVec 16) = 0xffff) ∨
        ((258 : BitVec 16) = 0xffff ∧ (259 : BitVec 16) = 0) :=
  udpValidate_word (l := [0, 0, 0, 0, 17, 11, 2560, 1, 2560, 2, 1000, 1000, 11, 0xe003])
    checked_probe ⟨by decide, by decide, by decide, by decide⟩
    (show probe.covered = _ ++ 258 :: [768] from rfl) rfl (by decide)

/-! ## Interfaces that add up the segment -/

/-- What an interface reports is what it has seen on the wire. -/
def Csum.Seen (d : UdpDatagram) : Csum → Prop
  | .none => True
  | .dataValid data => data.toNat = (sum d.segment).toNat
  | .pseudoHdr data => data.toNat = (sum d.covered).toNat

theorem total_addrHalves (a : BitVec 32) :
    total (addrHalves a) = a.toNat / 65536 + a.toNat % 65536 := by
  have hhi : (a.extractLsb' 16 16).toNat = a.toNat / 65536 := by
    rw [BitVec.extractLsb'_toNat, Nat.shiftRight_eq_div_pow]
    exact Nat.mod_eq_of_lt (by have := a.isLt; omega)
  have hlo : (a.extractLsb' 0 16).toNat = a.toNat % 65536 := by
    rw [BitVec.extractLsb'_toNat, Nat.shiftRight_zero]
  unfold addrHalves
  rw [total_cons, total_cons, total_nil, hhi, hlo, Nat.add_zero]

theorem xor_top_eq_zero (x : BitVec 16) : x ^^^ 0xffff = 0 ↔ x = BitVec.allOnes 16 := by
  rw [show (0xffff : BitVec 16) = BitVec.allOnes 16 from rfl]
  exact BitVec.xor_eq_zero_iff

/-- The check is the same whether the interface has added up the segment, the segment and the
pseudo-header, or nothing. -/
theorem udpValidate_csum (h : d.Checked) (hpr : d.pr = BitVec.ofNat 8 ipprotoUdp)
    (hcsum : csum.Seen d) : (udpValidate csum d).isSome ↔ (udpValidate .none d).isSome := by
  have hlong := h.long
  have hfits := h.fits
  rw [udpValidate_none_isSome h]
  have hvalidate : (udpValidate csum d).isSome ↔ (csum.compute d).uhSum = 0 := by
    unfold udpValidate
    rw [if_neg (not_lt.mpr h.noOptions), if_neg (by omega), if_neg h.summed]
    split_ifs with hzero
    · exact ⟨fun _ => hzero, fun _ => rfl⟩
    · exact ⟨nofun, fun h => absurd h hzero⟩
  rw [hvalidate]
  cases csum with
  | none =>
    rw [show (Csum.none.compute d).uhSum = ~~~sum d.covered from
      congrArg (~~~sum ·) (UdpDatagram.netWords_overlay h.long)]
    exact passes_iff_not d.covered
  | pseudoHdr data =>
    refine (xor_top_eq_zero _).trans ?_
    have hdata : data.setWidth 16 = sum d.covered := by
      apply BitVec.eq_of_toNat_eq
      rw [BitVec.toNat_setWidth, show data.toNat = _ from hcsum]
      exact Nat.mod_eq_of_lt (sum d.covered).isLt
    rw [hdata]
    rfl
  | dataValid data =>
    refine (xor_top_eq_zero _).trans ?_
    have hdata : data.toNat = reduce 16 (total d.segment) :=
      hcsum.trans (toNat_sum (by decide) _)
    have hle := reduce_le (w := 16) (by decide) (total d.segment)
    have hmod := reduce_mod (w := 16) (by decide) (total d.segment)
    have hulen := d.ulen.isLt
    set N := BitVec.ofNat 32 d.ulen.toNat + data + BitVec.ofNat 32 ipprotoUdp with hN
    have hnat : N.toNat = d.ulen.toNat + reduce 16 (total d.segment) + 17 := by
      rw [hN, BitVec.toNat_add, BitVec.toNat_add, BitVec.toNat_ofNat, BitVec.toNat_ofNat, hdata]
      unfold ipprotoUdp
      omega
    have hhalves := total_addrHalves N
    have hcovered : total d.covered = 17 + d.ulen.toNat + total (addrHalves d.src) +
        total (addrHalves d.dst) + total d.segment := by
      unfold UdpDatagram.covered UdpDatagram.pseudoWords
      rw [hpr, total_append, total_append, total_append]
      simp only [total_cons, total_nil]
      rw [show (0#8 ++ BitVec.ofNat 8 ipprotoUdp : BitVec 16).toNat = 17 from rfl,
        show (0 : BitVec 16).toNat = 0 from rfl]
      omega
    change Passes (addrHalves d.src ++ addrHalves d.dst ++ addrHalves N) ↔ _
    rw [passes_iff (by decide), passes_iff (by decide), hcovered, total_append, total_append,
      hhalves, hnat]
    simp only [Nat.reducePow, Nat.reduceSub] at hmod hle ⊢
    omega

theorem data_udpValidate (h : udpValidate csum d = some e) : e.data = d.data := by
  unfold udpValidate at h
  split_ifs at h
  · exact Option.some.inj h ▸ rfl
  · exact Option.some.inj h ▸ rfl
  · cases csum <;> exact Option.some.inj h ▸ rfl

/-- Two cores keep the same datagrams, with the same data, whatever their interfaces do. -/
theorem udpValidate_interfaces {csum' : Csum} (h : d.Checked)
    (hpr : d.pr = BitVec.ofNat 8 ipprotoUdp) (hcsum : csum.Seen d) (hcsum' : csum'.Seen d) :
    (udpValidate csum d).map UdpDatagram.data = (udpValidate csum' d).map UdpDatagram.data := by
  have hkeep : ∀ {c : Csum}, c.Seen d → (udpValidate c d).map UdpDatagram.data =
      if Passes d.covered then some d.data else none := by
    intro c hc
    have hsome := (udpValidate_csum h hpr hc).trans (udpValidate_none_isSome h)
    cases hval : udpValidate c d with
    | none =>
      rw [hval] at hsome
      rw [if_neg fun hpass => Bool.false_ne_true (hsome.mpr hpass)]
      rfl
    | some e =>
      rw [hval] at hsome
      rw [if_pos (hsome.mp rfl), Option.map_some, data_udpValidate hval]
  rw [hkeep hcsum, hkeep hcsum']

theorem udpValidate_interfaces_probe :
    (udpValidate (.dataValid 0xebe0) probe).map UdpDatagram.data =
      (udpValidate .none probe).map UdpDatagram.data :=
  udpValidate_interfaces (d := probe) checked_probe rfl
    (show (0xebe0 : BitVec 32).toNat = (sum probe.segment).toNat by decide) trivial

/-! ## From core to core -/

/-- A datagram on the other side of the network: what `ip_output`, the routers and `ip_input` do
not write to is as it was, and no option has been put in. -/
structure Arrives (d e : UdpDatagram) : Prop where
  noOptions : e.iphlen ≤ ipSize
  fits : e.ulen.toNat ≤ e.ipLen.toNat
  pr : e.pr = d.pr
  src : e.src = d.src
  dst : e.dst = d.dst
  sport : e.sport = d.sport
  dport : e.dport = d.dport
  ulen : e.ulen = d.ulen
  uhSum : e.uhSum = d.uhSum
  data : e.data = d.data

theorem Arrives.front (h : Arrives d e) : e.front = d.front := by
  unfold UdpDatagram.front UdpDatagram.pseudoWords
  rw [h.pr, h.ulen, h.src, h.dst, h.sport, h.dport]

theorem Arrives.dataWords (h : Arrives d e) : e.dataWords = d.dataWords := by
  unfold UdpDatagram.dataWords
  rw [h.data, h.ulen]

/-- A sealed datagram is taken off the network as it was, but for the header of the network. -/
theorem udpValidate_of_sealed (h : Arrives d e) (hlong : udphdrSize ≤ d.ulen.toNat)
    (hpr : d.pr = BitVec.ofNat 8 ipprotoUdp)
    (hsum : d.uhSum = 0 ∨ d.uhSum = checkWord (d.front ++ d.dataWords)) (hcsum : csum.Seen e) :
    ∃ e', udpValidate csum e = some e' ∧ e'.data = d.data := by
  have hsome : (udpValidate csum e).isSome := by
    by_cases hzero : e.uhSum = 0
    · have hlong' : udphdrSize ≤ e.ulen.toNat := h.ulen ▸ hlong
      have hfits := h.fits
      unfold udpValidate
      rw [if_neg (not_lt.mpr h.noOptions), if_neg (by omega), if_pos hzero]
      rfl
    · have hchecked : e.Checked := ⟨h.noOptions, h.ulen ▸ hlong, h.fits, hzero⟩
      have hseal : e.uhSum = checkWord (e.front ++ e.dataWords) := by
        rw [h.front, h.dataWords, h.uhSum]
        exact hsum.resolve_left (h.uhSum ▸ hzero)
      rw [udpValidate_csum hchecked (h.pr.trans hpr) hcsum, udpValidate_none_isSome hchecked]
      exact UdpDatagram.passes_of_sealed hseal
  obtain ⟨e', he'⟩ := Option.isSome_iff_exists.mp hsome
  exact ⟨e', he', (data_udpValidate he').trans h.data⟩

/-- Records that `udp_send_out` sends are never lost to the check of the checksum, whatever is done
to the header on the way and whether the interface takes part in the check. -/
theorem udpValidate_udpSendOut {udpcksum mbuf : Bool} {ia : Option (BitVec 32)} {dst : BitVec 32}
    {sport dport : BitVec 16} {m : List Byte}
    (hsend : udpSendOut udpcksum mbuf ia dst sport dport m = .ok d)
    (hm : m.length + udpiphdrSize < 2 ^ 16) (h : Arrives d e) (hcsum : csum.Seen e) :
    ∃ e', udpValidate csum e = some e' ∧ e'.data = m := by
  unfold udpSendOut at hsend
  cases mbuf with
  | false => cases hsend
  | true =>
    cases ia with
    | none => cases hsend
    | some src =>
      have hulen : (BitVec.ofNat 16 (m.length + udphdrSize)).toNat = m.length + udphdrSize := by
        rw [BitVec.toNat_ofNat]
        refine Nat.mod_eq_of_lt (lt_of_le_of_lt ?_ hm)
        exact Nat.add_le_add_left (by decide) _
      cases udpcksum with
      | false =>
        obtain rfl := Except.ok.inj hsend
        exact udpValidate_of_sealed h (hulen ▸ Nat.le_add_left _ _) rfl (.inl rfl) hcsum
      | true =>
        obtain rfl := Except.ok.inj hsend
        refine udpValidate_of_sealed h (hulen ▸ Nat.le_add_left _ _) rfl (.inr ?_) hcsum
        -- the datagram while its checksum is computed
        let ui : UdpDatagram :=
          ⟨0, 0, 0, 0, 0, 0, BitVec.ofNat 8 ipprotoUdp, BitVec.ofNat 16 (m.length + udphdrSize),
            src, dst, sport, dport, BitVec.ofNat 16 (m.length + udphdrSize), 0, m⟩
        have hsent : sentSum ui.bytes (ui.ulen.toNat + ipSize) =
            checkWord (ui.front ++ ui.dataWords) :=
          UdpDatagram.sentSum_overlay (d := ui) (hulen ▸ Nat.le_add_left _ _) rfl
        rw [show ui.ulen.toNat = m.length + udphdrSize from hulen] at hsent
        exact hsent

theorem udpValidate_udpSendOut_probe :
    ∃ e', udpValidate .none probe = some e' ∧ e'.data = [1, 2, 3] :=
  udpValidate_udpSendOut
    (show udpSendOut true true (some 0x0a000001) 0x0a000002 1000 1000 [1, 2, 3] = .ok _ from rfl)
    (by decide)
    ⟨by decide, by decide, rfl, rfl, rfl, rfl, rfl, rfl, rfl, rfl⟩ trivial

/-! ## Rewriting a datagram -/

/-- `udp_rewrite_word`, where `write` puts the new word in. `csumUdp` is `CSUM_UDP` among the flags:
then the interface will complete the checksum from the sum of a pseudo-header. -/
def udpRewriteWord (udpcksum csumUdp : Bool) (write : UdpDatagram → UdpDatagram)
    (d : UdpDatagram) : UdpDatagram :=
  write <|
    if d.uhSum ≠ 0 ∧ udpcksum = true ∧ csumUdp = true then
      { d with
        uhSum := inPseudo d.src d.dst
          ((BitVec.ofNat 16 (d.data.length + udphdrSize + ipprotoUdp)).setWidth 32) }
    else d

/-- A call of `udp_rewrite_src`, `udp_rewrite_dst` or `udp_rewrite_ports`. -/
inductive Rewrite
  | src (src : BitVec 32)
  | dst (dst : BitVec 32)
  | ports (sport dport : BitVec 16)

/-- The call on a datagram. A port of -1 stays as it is. -/
def udpRewrite (udpcksum csumUdp : Bool) (d : UdpDatagram) : Rewrite → UdpDatagram
  | .src src => udpRewriteWord udpcksum csumUdp (fun d => { d with src }) d
  | .dst dst => udpRewriteWord udpcksum csumUdp (fun d => { d with dst }) d
  | .ports sport dport =>
    let sport := if sport = -1 then d.sport else sport
    let dport := if dport = -1 then d.dport else dport
    udpRewriteWord udpcksum csumUdp (fun d => { d with sport, dport }) d

def udpRewriteSum (udpcksum : Bool) (d : UdpDatagram) : UdpDatagram :=
  if d.uhSum ≠ 0 ∧ udpcksum = true then
    { d with
      uhSum := sentSum { d.overlay with uhSum := 0 }.bytes (d.data.length + udpiphdrSize) }
  else d

/-- The words of the two ends. -/
def UdpDatagram.ends (d : UdpDatagram) : List (BitVec 16) :=
  addrHalves d.src ++ addrHalves d.dst ++ [d.sport, d.dport]

/-- The rewrites change the ends, and the checksum only for an interface to complete. -/
theorem foldl_udpRewrite (udpcksum csumUdp : Bool) (rs : List Rewrite) (d : UdpDatagram) :
    ∃ src dst sport dport uhSum,
      rs.foldl (udpRewrite udpcksum csumUdp) d = { d with src, dst, sport, dport, uhSum } ∧
        (csumUdp = false → uhSum = d.uhSum) := by
  induction rs generalizing d with
  | nil => exact ⟨_, _, _, _, _, rfl, fun _ => rfl⟩
  | cons r rs ih =>
    have hstep : ∃ src dst sport dport uhSum,
        udpRewrite udpcksum csumUdp d r = { d with src, dst, sport, dport, uhSum } ∧
          (csumUdp = false → uhSum = d.uhSum) := by
      cases r <;> unfold udpRewrite udpRewriteWord
      all_goals split_ifs with hflag
      all_goals first
        | exact ⟨_, _, _, _, _, rfl, fun hfalse => absurd (hfalse ▸ hflag.2.2) nofun⟩
        | exact ⟨_, _, _, _, _, rfl, fun _ => rfl⟩
    obtain ⟨src, dst, sport, dport, uhSum, hstep, hsum⟩ := hstep
    obtain ⟨src', dst', sport', dport', uhSum', hrun, hsum'⟩ :=
      ih { d with src, dst, sport, dport, uhSum }
    rw [List.foldl_cons, hstep, hrun]
    exact ⟨src', dst', sport', dport', uhSum', rfl,
      fun hfalse => (hsum' hfalse).trans (hsum hfalse)⟩

theorem udpRewriteSum_sealed (hlen : d.ulen.toNat = d.data.length + udphdrSize) :
    (udpRewriteSum true d).uhSum = 0 ∨
      (udpRewriteSum true d).uhSum = checkWord (d.front ++ d.dataWords) := by
  unfold udpRewriteSum
  split_ifs with hzero
  · have hlong : udphdrSize ≤ d.ulen.toNat := hlen ▸ Nat.le_add_left _ _
    have hsent := UdpDatagram.sentSum_overlay (d := { d with uhSum := 0 }) hlong rfl
    rw [show ({ d with uhSum := 0 } : UdpDatagram).ulen.toNat = _ from hlen] at hsent
    exact .inr hsent
  · exact .inl (by simpa using hzero)

/-- However a datagram has been rewritten, after `udp_rewrite_sum` it passes the check at the core
that it is sent to. -/
theorem udpValidate_udpRewriteSum {csumUdp : Bool} {rs : List Rewrite}
    (hlen : d.ulen.toNat = d.data.length + udphdrSize) (hpr : d.pr = BitVec.ofNat 8 ipprotoUdp)
    (h : Arrives (udpRewriteSum true (rs.foldl (udpRewrite true csumUdp) d)) e)
    (hcsum : csum.Seen e) : ∃ e', udpValidate csum e = some e' ∧ e'.data = d.data := by
  obtain ⟨src, dst, sport, dport, uhSum, hrun, -⟩ := foldl_udpRewrite true csumUdp rs d
  generalize rs.foldl (udpRewrite true csumUdp) d = g at h hrun
  have hulen : g.ulen = d.ulen := by rw [hrun]
  have hdata : g.data = d.data := by rw [hrun]
  have hpr' : g.pr = d.pr := by rw [hrun]
  have hframe : (udpRewriteSum true g).ulen = g.ulen ∧ (udpRewriteSum true g).pr = g.pr ∧
      (udpRewriteSum true g).data = g.data ∧ (udpRewriteSum true g).front = g.front ∧
        (udpRewriteSum true g).dataWords = g.dataWords := by
    unfold udpRewriteSum
    split_ifs <;> exact ⟨rfl, rfl, rfl, rfl, rfl⟩
  obtain ⟨hul, hp, hda, hfront, hwords⟩ := hframe
  have hsealed := udpRewriteSum_sealed (d := g) (by rw [hulen, hdata, hlen])
  rw [← hfront, ← hwords] at hsealed
  obtain ⟨e', he', hdata'⟩ := udpValidate_of_sealed h
    (by rw [hul, hulen, hlen]; exact Nat.le_add_left _ _) (hp.trans (hpr'.trans hpr)) hsealed hcsum
  exact ⟨e', he', hdata'.trans (hda.trans hdata)⟩

theorem udpValidate_udpRewriteSum_probe :
    ∃ e', udpValidate .none { probe with src := 0x0a000003, uhSum := 0xe001 } = some e' ∧
      e'.data = [1, 2, 3] :=
  udpValidate_udpRewriteSum (d := probe) (by decide) rfl
    (show Arrives (udpRewriteSum true ([.src 0x0a000003].foldl (udpRewrite true false) probe)) _
      from ⟨by decide, by decide, rfl, rfl, rfl, rfl, rfl, rfl, by decide, rfl⟩) trivial

/-- Without `udp_rewrite_sum` a rewritten datagram passes only when its new ends have the sum of the
old ones: `udp_rewrite_word` leaves the checksum alone. -/
theorem udpValidate_udpRewrite {udpcksum : Bool} (rs : List Rewrite) (h : d.Checked)
    (hsome : (udpValidate .none d).isSome) :
    (udpValidate .none (rs.foldl (udpRewrite udpcksum false) d)).isSome ↔
      total (rs.foldl (udpRewrite udpcksum false) d).ends ≡ total d.ends [MOD 65535] := by
  obtain ⟨src, dst, sport, dport, uhSum, hrun, hsum⟩ := foldl_udpRewrite udpcksum false rs d
  obtain rfl := hsum rfl
  rw [hrun]
  have hchecked : ({ d with src, dst, sport, dport, uhSum := d.uhSum } : UdpDatagram).Checked :=
    ⟨h.noOptions, h.long, h.fits, h.summed⟩
  have hsplit : ∀ e : UdpDatagram, total e.covered = total e.ends +
      ((0#8 ++ e.pr).toNat + e.ulen.toNat + e.ulen.toNat + e.uhSum.toNat + total e.dataWords) := by
    intro e
    unfold UdpDatagram.covered UdpDatagram.pseudoWords UdpDatagram.segment UdpDatagram.ends
    simp only [total_append, total_cons, total_nil]
    rw [show (0 : BitVec 16).toNat = 0 from rfl]
    omega
  set g : UdpDatagram := { d with src, dst, sport, dport, uhSum := d.uhSum }
  have hsplit_g : total g.covered = total g.ends +
      ((0#8 ++ d.pr).toNat + d.ulen.toNat + d.ulen.toNat + d.uhSum.toNat + total d.dataWords) :=
    hsplit g
  have hlong := h.long
  unfold udphdrSize at hlong
  rw [udpValidate_none_isSome h, passes_iff (by decide), hsplit d] at hsome
  rw [udpValidate_none_isSome hchecked, passes_iff (by decide), hsplit_g]
  unfold Nat.ModEq
  simp only [Nat.reducePow, Nat.reduceSub] at hsome ⊢
  omega

theorem udpValidate_udpRewrite_probe :
    (udpValidate .none ([.src 0x0a000003].foldl (udpRewrite true false) probe)).isSome ↔
      total ([.src 0x0a000003].foldl (udpRewrite true false) probe).ends ≡ total probe.ends
        [MOD 65535] :=
  udpValidate_udpRewrite [.src 0x0a000003] checked_probe (by decide)

end Modelnet.FreeBSD

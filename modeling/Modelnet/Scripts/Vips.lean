import Modelnet.Scripts.NodeTable
import Modelnet.Scripts.VirtualAddress

/-!
# Virtual addresses identify virtual nodes

`mkmodel` lays the subnets out in 10/8, one after the other, and `modelload` keeps the low 16 bits
of an address as the index of its node table. With `n` virtual nodes on `h` hosts this is right as
long as the subnets end below 2 ^ 16 (`Fits`); beyond that, two subnets share their indices.
-/

namespace Modelnet.Scripts

/-! ## The layout -/

def virtnodeCount (t : Topology) : ℕ :=
  ((List.range t.vertices.length).filter fun v => IsVirtnode t.vertices v).length

/-- The layout of `n` virtual nodes on `h` hosts stays within the node table. -/
def Fits (n h : ℕ) : Prop :=
  min n h * 2 ^ shiftFor n h ≤ 2 ^ 16 ∨ min n h = 1 ∧ n ≤ 2 ^ 16

instance (n h : ℕ) : Decidable (Fits n h) := inferInstanceAs (Decidable (_ ∨ _))

theorem length_dealtNodes {t : Topology} {g : Graph} (hg : readxmlgraph t = some g)
    (visits : Visits g) : (dealtNodes t.vertices visits.vertices).length = virtnodeCount t := by
  have hperm := visits.vertices_perm
  rw [(readxmlgraph_eq_some hg).1] at hperm
  exact (hperm.filter _).length_eq

theorem share_le_self (n h i : ℕ) : share n h i ≤ n := by
  have hdiv := Nat.div_add_mod n h
  unfold share
  by_cases hpos : 0 < h
  · have hle : 1 * (n / h) ≤ h * (n / h) := Nat.mul_le_mul_right _ hpos
    split_ifs <;> omega
  · obtain rfl : h = 0 := by omega
    rw [Nat.div_zero, Nat.mod_zero, Nat.zero_add]
    split_ifs <;> omega

theorem Fits.shift_le {n h : ℕ} (hfits : Fits n h) (hpos : 0 < min n h) : shiftFor n h ≤ 17 := by
  obtain hle | ⟨-, hn⟩ := hfits
  · have hpow : 2 ^ shiftFor n h ≤ 2 ^ 16 :=
      Nat.le_trans (Nat.le_mul_of_pos_left _ hpos) hle
    exact Nat.le_succ_of_le ((Nat.pow_le_pow_iff_right Nat.one_lt_two).mp hpow)
  · refine Nat.clog_le_of_le_pow ?_
    have hmost := share_le_self n h 0
    have heq := mostNodes_eq n (h := h) (by omega)
    unfold mostNodes at heq
    rw [← heq]
    omega

section Layout

variable (vertices : List Vertex) {h : ℕ} {l : List ℕ} {f : Filling}

/-- Where the layout fits, the offset of a node is below 2 ^ 16, except for the last of 2 ^ 16 nodes
in the only subnet. -/
theorem Dealt.offset_le (hf : Dealt h l f) (hfits : Fits l.length h) {i v : ℕ}
    (hv : v ∈ f.virtnode i) :
    i * 2 ^ shiftFor l.length h + place vertices f i v < 2 ^ 16 ∨
      i = 0 ∧ min l.length h = 1 ∧ l.length = 2 ^ 16 ∧ place vertices f i v = 2 ^ 16 := by
  have hi := hf.lt hv
  have hused : i < min l.length h := (hf.virtnode_ne_nil i).mp (List.ne_nil_of_mem hv)
  have hroom := hf.place_lt vertices hv
  obtain hle | ⟨hone, hn⟩ := hfits
  · left
    have hnext : (i + 1) * 2 ^ shiftFor l.length h ≤ 2 ^ 16 :=
      Nat.le_trans (Nat.mul_le_mul_right _ hused) hle
    rw [Nat.succ_mul] at hnext
    omega
  · have hzero : i = 0 := by omega
    subst hzero
    have hplace := place_le vertices hv
    rw [hf.length 0 hi] at hplace
    have hall := share_le_self l.length h 0
    by_cases hlast : place vertices f 0 v = 2 ^ 16
    · exact .inr ⟨rfl, hone, by omega, hlast⟩
    · exact .inl (by omega)

/-- Where the layout fits, the low 16 bits of the address tell the node. -/
theorem Dealt.offset_inj (hf : Dealt h l f) (hfits : Fits l.length h) {i j v w : ℕ}
    (hv : v ∈ f.virtnode i) (hw : w ∈ f.virtnode j)
    (heq : (i * 2 ^ shiftFor l.length h + place vertices f i v) % 2 ^ 16 =
      (j * 2 ^ shiftFor l.length h + place vertices f j w) % 2 ^ 16) : v = w := by
  have hpv := place_pos vertices f i v
  have hpw := place_pos vertices f j w
  obtain hlv | ⟨hi, hone, -, hlv⟩ := hf.offset_le vertices hfits hv
  · obtain hlw | ⟨hj, hone, -, hlw⟩ := hf.offset_le vertices hfits hw
    · rw [Nat.mod_eq_of_lt hlv, Nat.mod_eq_of_lt hlw] at heq
      have hroomv := hf.place_lt vertices hv
      have hroomw := hf.place_lt vertices hw
      have hij : i = j := by
        have hdiv := congrArg (· / 2 ^ shiftFor l.length h) heq
        have hpow : 0 < 2 ^ shiftFor l.length h := Nat.two_pow_pos _
        simp only [Nat.add_comm _ (place _ _ _ _), Nat.add_mul_div_right _ _ hpow,
          Nat.div_eq_of_lt (show place vertices f i v < 2 ^ shiftFor l.length h by omega),
          Nat.div_eq_of_lt (show place vertices f j w < 2 ^ shiftFor l.length h by omega)] at hdiv
        omega
      subst hij
      exact place_inj hv (Nat.add_left_cancel heq)
    · exfalso
      have hused := (hf.virtnode_ne_nil i).mp (List.ne_nil_of_mem hv)
      have hi : i = 0 := by omega
      subst hi hj
      rw [hlw] at heq
      omega
  · obtain hlw | ⟨hj, -, -, hlw⟩ := hf.offset_le vertices hfits hw
    · exfalso
      have hused := (hf.virtnode_ne_nil j).mp (List.ne_nil_of_mem hw)
      have hj : j = 0 := by omega
      subst hi hj
      rw [hlv] at heq
      omega
    · subst hi hj
      exact place_inj hv (hlv.trans hlw.symm)

theorem exists_place (hf : Dealt h l f) {i j : ℕ} (hj : j < (f.virtnode i).length) :
    ∃ v ∈ f.virtnode i, place vertices f i v = j + 1 := by
  have hperm := sortByVn_perm vertices (f.virtnode i)
  have hj' : j < (sortByVn vertices (f.virtnode i)).length := hperm.length_eq ▸ hj
  refine ⟨(sortByVn vertices (f.virtnode i))[j], hperm.mem_iff.mp (List.getElem_mem hj'), ?_⟩
  rw [place, List.Nodup.idxOf_getElem (hperm.nodup_iff.mpr (hf.nodup i))]

/-- Where the layout does not fit, the low 16 bits of the addresses of two nodes are the same. -/
theorem Dealt.collide (hf : Dealt h l f) (hfits : ¬ Fits l.length h) :
    ∃ i j v w, v ∈ f.virtnode i ∧ w ∈ f.virtnode j ∧ v ≠ w ∧
      (i * 2 ^ shiftFor l.length h + place vertices f i v) % 2 ^ 16 =
        (j * 2 ^ shiftFor l.length h + place vertices f j w) % 2 ^ 16 := by
  obtain ⟨hlarge, hmany⟩ := not_or.mp hfits
  by_cases hone : min l.length h = 1
  · -- one subnet with more nodes than the table has places
    have hmany : 2 ^ 16 < l.length := by
      by_contra hle
      exact hmany ⟨hone, Nat.le_of_not_lt hle⟩
    obtain rfl : h = 1 := by omega
    have hlength : (f.virtnode 0).length = l.length := by
      rw [hf.length 0 Nat.one_pos, share, Nat.div_one, Nat.mod_one, if_neg (Nat.lt_irrefl 0)]
      exact Nat.add_zero _
    obtain ⟨v, hv, hpv⟩ := exists_place vertices hf (i := 0) (j := 0) (by omega)
    obtain ⟨w, hw, hpw⟩ := exists_place vertices hf (i := 0) (j := 2 ^ 16) (by omega)
    refine ⟨0, 0, v, w, hv, hw, ?_, by rw [hpv, hpw]; omega⟩
    rintro rfl
    omega
  · -- the first subnet and the one that begins 2 ^ 16 addresses further on, or later
    generalize hs : shiftFor l.length h = s at hlarge ⊢
    have hd : 2 ^ (16 - s) * 2 ^ s % 2 ^ 16 = 0 := by
      refine Nat.mod_eq_zero_of_dvd ?_
      rw [← Nat.pow_add]
      exact Nat.pow_dvd_pow 2 (by omega)
    have hlt : 2 ^ (16 - s) < min l.length h := by
      by_cases hle : s ≤ 16
      · have hpow : 2 ^ (16 - s) * 2 ^ s = 2 ^ 16 := by rw [← Nat.pow_add, Nat.sub_add_cancel hle]
        refine Nat.lt_of_mul_lt_mul_right (a := 2 ^ s) ?_
        rw [hpow]
        exact Nat.lt_of_not_le hlarge
      · have hzero : min l.length h ≠ 0 := by
          intro h0
          rw [h0, Nat.zero_mul] at hlarge
          exact hlarge (Nat.zero_le _)
        rw [Nat.sub_eq_zero_of_le (by omega), Nat.pow_zero]
        omega
    have hfirst := List.length_pos_iff.mpr
      ((hf.virtnode_ne_nil 0).mpr (Nat.lt_of_le_of_lt (Nat.zero_le _) hlt))
    have hother := List.length_pos_iff.mpr ((hf.virtnode_ne_nil _).mpr hlt)
    obtain ⟨v, hv, hpv⟩ := exists_place vertices hf hfirst
    obtain ⟨w, hw, hpw⟩ := exists_place vertices hf hother
    refine ⟨0, 2 ^ (16 - s), v, w, hv, hw, ?_, by
      rw [hpv, hpw, Nat.zero_mul, Nat.add_mod, Nat.add_mod (2 ^ (16 - s) * 2 ^ s), hd,
        Nat.zero_mod]⟩
    rintro rfl
    have hsame := Option.some.inj
      (((hf.subnetOf v 0).mpr hv).symm.trans ((hf.subnetOf v _).mpr hw))
    exact absurd hsame.symm (Nat.pos_iff_ne_zero.mp (Nat.two_pow_pos (16 - s)))

end Layout

/-! ## The index of an address -/

theorem tableIndex_some (ip : BitVec 32) : tableIndex (some ip) = ip.toNat % 2 ^ 16 := by
  simp only [tableIndex, octet, BitVec.toNat_ushiftRight, Nat.shiftLeft_eq, Nat.shiftRight_eq_div_pow]
  omega

theorem toNat_and_mask (ip : BitVec 32) : (ip &&& nodemask).toNat = ip.toNat % 2 ^ 16 := by
  rw [BitVec.toNat_and]
  exact Nat.and_two_pow_sub_one_eq_mod ip.toNat 16

theorem vipAt_mod (s i j : ℕ) :
    (BitVec.ofNat 32 (vipAt s i j)).toNat % 2 ^ 16 = (i * 2 ^ s + j) % 2 ^ 16 := by
  rw [BitVec.toNat_ofNat, vipAt]
  omega

theorem vipAt_div {s : ℕ} (hs : s ≤ 17) (i : ℕ) {j : ℕ} (hj : j < 2 ^ s) :
    vipAt s i j / 2 ^ s * 2 ^ s = vipAt s i 0 ∧ vipAt s i j % 2 ^ s = j := by
  obtain ⟨c, hc⟩ : 2 ^ s ∣ 0xa000000 :=
    Nat.dvd_trans (Nat.pow_dvd_pow 2 hs) (by decide : 2 ^ 17 ∣ 0xa000000)
  have hsplit : vipAt s i j = 2 ^ s * (c + i) + j := by
    rw [vipAt, hc, Nat.mul_comm i, Nat.mul_add]
  have hpos := Nat.two_pow_pos s
  refine ⟨?_, ?_⟩
  · rw [hsplit, Nat.mul_add_div hpos, Nat.div_eq_of_lt hj, Nat.add_zero, vipAt, hc, Nat.mul_comm i,
      Nat.add_zero, ← Nat.mul_add, Nat.mul_comm]
  · rw [hsplit, Nat.mul_add_mod, Nat.mod_eq_of_lt hj]

theorem or_and_self (a b : BitVec 32) : (a ||| b) &&& b = b := by
  ext k hk
  simpa using Or.inr

/-! ## What the addresses are for -/

section Mkmodel

variable {t : Topology} {g : Graph} {m : Machines} {visits : Visits g}

/-- **The virtual addresses identify the virtual nodes**: each lies in its own subnet and is not one
of the special addresses, it is in 10/8 and its bit 23 is clear; no two are the same, and no two
subnets overlap. The node table has the number of the node at the index of its address, so that the
kernel looks up the path of the pair that is meant, and no other node has that number. -/
structure VipsIdentify (t : Topology) (m : Machines) (visits : Visits g) : Prop where
  placed : ∀ v, IsVirtnode t.vertices v → ∃ i net vip, (filling m visits).subnetOf v = some i ∧
    (addressing m visits).addr i = some net ∧ (addressing m visits).vip v = some vip ∧
    vip &&& net.vmask = net.vnet ∧ vip ≠ net.vnet ∧ vip ≠ net.vbcst ∧
    vip >>> 24 = 10 ∧ vip.getLsbD 23 = false
  distinct : ∀ v w, IsVirtnode t.vertices v → IsVirtnode t.vertices w →
    (addressing m visits).vip v = (addressing m visits).vip w → v = w
  disjoint : ∀ i j net net', i ≠ j → (addressing m visits).addr i = some net →
    (addressing m visits).addr j = some net' →
    ∀ ip, ip &&& net.vmask = net.vnet → ip &&& net'.vmask ≠ net'.vnet
  numbered : ∀ v vip, IsVirtnode t.vertices v → (addressing m visits).vip v = some vip →
    (loadnodetable (mkmodel t m visits) (vip &&& nodemask).toNat).toInt = vnOf t.vertices v
  intended : ∀ v w vip vip', IsVirtnode t.vertices v → IsVirtnode t.vertices w →
    (addressing m visits).vip v = some vip → (addressing m visits).vip w = some vip' →
    ∀ tab : PathTab, tab.nodetable = loadnodetable (mkmodel t m visits) → tab.pathtable.isSome →
    tab.lookupPath vip vip' = .cell (vnOf t.vertices v) (vnOf t.vertices w)
  own : ∀ v w, IsVirtnode t.vertices v → IsVirtnode t.vertices w →
    vnOf t.vertices v = vnOf t.vertices w → v = w

/-- **When they do**: the nodes have numbers of their own that fit into the table, each host that has
nodes has one with an edge, and the layout fits. -/
structure Identifiable (t : Topology) (m : Machines) (visits : Visits g) : Prop where
  own : ∀ v w, IsVirtnode t.vertices v → IsVirtnode t.vertices w →
    vnOf t.vertices v = vnOf t.vertices w → v = w
  vn_lt : ∀ v, IsVirtnode t.vertices v → vnOf t.vertices v < 2 ^ 31
  linked : ∀ v, IsVirtnode t.vertices v → ∃ e, (g.hash e).isSome ∧
    ((filling m visits).subnetOf e.1 = (filling m visits).subnetOf v ∨
      (filling m visits).subnetOf e.2 = (filling m visits).subnetOf v)
  fits : Fits (virtnodeCount t) m.hosts.length

theorem exists_subnet (hg : readxmlgraph t = some g) (hhosts : m.hosts ≠ []) {v : ℕ} :
    IsVirtnode t.vertices v ↔ ∃ i, v ∈ (filling m visits).virtnode i := by
  rw [← mem_dealtNodes hg visits]
  exact (dealt_filling hg visits hhosts).mem v

theorem addressed_addressing (hg : readxmlgraph t = some g) (visits : Visits g)
    (hhosts : m.hosts ≠ []) : Addressed t.vertices (filling m visits)
      (shiftFor (virtnodeCount t) m.hosts.length) (min (virtnodeCount t) m.hosts.length)
      m.hosts.length (addressing m visits) := by
  have hdealt := dealt_filling hg visits hhosts
  have hshift := hdealt.subnetshift (List.length_pos_iff.mpr hhosts)
  have haddressed := addressed_addressSubnets t.vertices hdealt hdealt.virtnode_ne_nil
  rw [hshift, length_dealtNodes hg visits] at haddressed
  unfold addressing
  rwa [(readxmlgraph_eq_some hg).1]

theorem addr_addressing (hg : readxmlgraph t = some g) (hhosts : m.hosts ≠ []) {i : ℕ}
    {net : SubnetAddr} (h : (addressing m visits).addr i = some net) :
    i < min (virtnodeCount t) m.hosts.length ∧
      net = netAt (shiftFor (virtnodeCount t) m.hosts.length) i := by
  rw [(addressed_addressing hg visits hhosts).addr i] at h
  obtain ⟨hi, hnet⟩ := Option.ite_none_right_eq_some.mp h
  exact ⟨by omega, (Option.some.inj hnet).symm⟩

theorem vip_addressing (hg : readxmlgraph t = some g) (hhosts : m.hosts ≠ []) {i v : ℕ}
    (hv : v ∈ (filling m visits).virtnode i) :
    (addressing m visits).addr i = some (netAt (shiftFor (virtnodeCount t) m.hosts.length) i) ∧
    (addressing m visits).vip v = some (BitVec.ofNat 32
      (vipAt (shiftFor (virtnodeCount t) m.hosts.length) i
        (place t.vertices (filling m visits) i v))) := by
  have hused := ((dealt_filling hg visits hhosts).virtnode_ne_nil i).mp (List.ne_nil_of_mem hv)
  rw [length_dealtNodes hg visits] at hused
  have haddressed := addressed_addressing hg visits hhosts
  have hi : i < min m.hosts.length (min (virtnodeCount t) m.hosts.length) := by omega
  exact ⟨by rw [haddressed.addr i, if_pos hi], by rw [haddressed.vip v i hv, if_pos hi]⟩

/-- Where the layout fits, the address of a node is as it should be. -/
theorem placed_netAt {s i j : ℕ} (hs : s ≤ 17) (hj : 0 < j) (hroom : j + 1 < 2 ^ s)
    (hoffset : i * 2 ^ s + j ≤ 2 ^ 16) :
    BitVec.ofNat 32 (vipAt s i j) &&& (netAt s i).vmask = (netAt s i).vnet ∧
    BitVec.ofNat 32 (vipAt s i j) ≠ (netAt s i).vnet ∧
    BitVec.ofNat 32 (vipAt s i j) ≠ (netAt s i).vbcst ∧
    BitVec.ofNat 32 (vipAt s i j) >>> 24 = 10 ∧
    (BitVec.ofNat 32 (vipAt s i j)).getLsbD 23 = false := by
  obtain ⟨hdiv, hmod⟩ := vipAt_div hs i (show j < 2 ^ s by omega)
  have hpow : 2 ^ s ≤ 2 ^ 17 := Nat.pow_le_pow_right Nat.two_pos hs
  have hlt : vipAt s i j < 0xa010001 := by unfold vipAt; omega
  refine ⟨?_, ?_, ?_, ?_, ?_⟩
  · rw [netAt, and_not_ones, hdiv]
  · intro heq
    have hnat := congrArg BitVec.toNat heq
    rw [netAt, toNat_vip (by omega), toNat_vip (by unfold vipAt at hlt ⊢; omega)] at hnat
    unfold vipAt at hnat
    omega
  · -- the bits of the host are not all set
    intro heq
    have hones := congrArg (· &&& BitVec.ofNat 32 (2 ^ s - 1)) heq
    simp only [netAt] at hones
    rw [and_ones, hmod, or_and_self] at hones
    have hnat := congrArg BitVec.toNat hones
    rw [toNat_vip (by omega), toNat_vip (by omega)] at hnat
    omega
  · apply BitVec.eq_of_toNat_eq
    rw [BitVec.toNat_ushiftRight, toNat_vip (by omega), Nat.shiftRight_eq_div_pow]
    show vipAt s i j / 2 ^ 24 = 10
    unfold vipAt at hlt ⊢
    omega
  · rw [BitVec.getLsbD, toNat_vip (by omega), Nat.testBit_eq_decide_div_mod_eq]
    unfold vipAt at hlt ⊢
    simp
    omega

theorem index_vip (hg : readxmlgraph t = some g) (hhosts : m.hosts ≠ []) {i v : ℕ}
    (hv : v ∈ (filling m visits).virtnode i) {vip : BitVec 32}
    (hvip : (addressing m visits).vip v = some vip) :
    (vip &&& nodemask).toNat = (i * 2 ^ shiftFor (virtnodeCount t) m.hosts.length +
      place t.vertices (filling m visits) i v) % 2 ^ 16 := by
  rw [(vip_addressing hg hhosts hv).2] at hvip
  cases hvip
  rw [toNat_and_mask, vipAt_mod]

theorem toInt_ofNat_vn {n : ℕ} (h : n < 2 ^ 31) : (Int32.ofNat n).toInt = n := by
  rw [Int32.toInt_ofNat']
  refine Int.bmod_eq_of_le ?_ ?_ <;> simp only [Int32.size] <;> omega

/-- The last node in the only subnet has the largest number. -/
theorem vnOf_le_of_last (vertices : List Vertex) {f : Filling} {i v w : ℕ}
    (hw : w ∈ f.virtnode i)
    (hlast : place vertices f i v = (f.virtnode i).length) : vnOf vertices w ≤ vnOf vertices v := by
  have hperm := sortByVn_perm vertices (f.virtnode i)
  have hsorted : (sortByVn vertices (f.virtnode i)).Pairwise fun a b =>
      vnOf vertices a ≤ vnOf vertices b := by
    have htotal : Std.Total fun a b => vnOf vertices a ≤ vnOf vertices b :=
      ⟨fun a b => Nat.le_total _ _⟩
    have htrans : IsTrans ℕ fun a b => vnOf vertices a ≤ vnOf vertices b :=
      ⟨fun a b c => Nat.le_trans⟩
    exact List.pairwise_insertionSort _ _
  have hwin : (sortByVn vertices (f.virtnode i)).idxOf w < (sortByVn vertices (f.virtnode i)).length :=
    List.idxOf_lt_length_of_mem (hperm.mem_iff.mpr hw)
  have hvin : (sortByVn vertices (f.virtnode i)).idxOf v < (sortByVn vertices (f.virtnode i)).length := by
    rw [hperm.length_eq, ← hlast]
    exact Nat.lt_succ_self _
  have hle : (sortByVn vertices (f.virtnode i)).idxOf w ≤ (sortByVn vertices (f.virtnode i)).idxOf v := by
    rw [hperm.length_eq, ← hlast] at hwin
    exact Nat.lt_succ_iff.mp hwin
  obtain hlt | heq := Nat.lt_or_eq_of_le hle
  · have hpair := List.pairwise_iff_getElem.mp hsorted _ _ hwin hvin hlt
    rwa [List.getElem_idxOf, List.getElem_idxOf] at hpair
  · rw [(List.idxOf_inj (hperm.mem_iff.mpr hw)).mp heq]

/-- Where the layout fits and the nodes have numbers of their own, each has its number in the
table. -/
theorem Identifiable.numbered (hg : readxmlgraph t = some g) (hhosts : m.hosts ≠ [])
    (hemuls : m.emuls ≠ []) (h : Identifiable t m visits) {v : ℕ} (hv : IsVirtnode t.vertices v)
    {vip : BitVec 32} (hvip : (addressing m visits).vip v = some vip) :
    (loadnodetable (mkmodel t m visits) (vip &&& nodemask).toNat).toInt = vnOf t.vertices v := by
  have hvertices := (readxmlgraph_eq_some hg).1
  have hdealt := dealt_filling hg visits hhosts
  have hfits : Fits (dealtNodes t.vertices visits.vertices).length m.hosts.length := by
    rw [length_dealtNodes hg visits]
    exact h.fits
  obtain ⟨i, hi⟩ := (exists_subnet hg hhosts).mp hv
  have hsubnet := (hdealt.subnetOf v i).mpr hi
  -- the host of the node is listed
  have hbound : ((assignment m visits).fwd i).isSome := by
    obtain ⟨e, he, hend⟩ := h.linked v hv
    rw [hsubnet] at hend
    exact (bound_iff i).mpr ⟨e, he, hend⟩
  have hlisted : ∀ {node : ModelVirtnode}, node ∈ (mkmodel t m visits).virtnodes →
      ∃ j w, ((assignment m visits).fwd j).isSome ∧ w ∈ (filling m visits).virtnode j ∧
        node = modelVirtnode t.vertices (addressing m visits) w := by
    intro node hnode
    rw [← hvertices]
    exact (mem_virtnodes hg hemuls).mp hnode
  have hmem : modelVirtnode t.vertices (addressing m visits) v ∈ (mkmodel t m visits).virtnodes := by
    rw [← hvertices]
    exact (mem_virtnodes hg hemuls).mpr ⟨i, v, hbound, hi, rfl⟩
  have hnode := vnArray_node hmem fun other hother hvn => by
    obtain ⟨j, w, -, hw, rfl⟩ := hlisted hother
    rw [h.own w v ((exists_subnet hg hhosts).mpr ⟨j, hw⟩) hv hvn]
  have hindex : ∀ {j w : ℕ}, w ∈ (filling m visits).virtnode j →
      tableIndex (modelVirtnode t.vertices (addressing m visits) w).vip =
        (j * 2 ^ shiftFor (virtnodeCount t) m.hosts.length +
          place t.vertices (filling m visits) j w) % 2 ^ 16 := by
    intro j w hw
    show tableIndex ((addressing m visits).vip w) = _
    rw [(vip_addressing hg hhosts hw).2, tableIndex_some, vipAt_mod]
  have htable := nodetableOf_eq hnode fun p hp hlen => by
    cases hother : (vnArray (mkmodel t m visits).virtnodes).node p with
    | some other =>
      obtain ⟨hin, hvn⟩ := vnArray_node_mem hother
      obtain ⟨j, w, -, hw, rfl⟩ := hlisted hin
      intro heq
      rw [hindex hw, hindex hi, ← length_dealtNodes hg visits] at heq
      have hsame := hdealt.offset_inj t.vertices hfits hw hi heq
      subst hsame
      exact absurd hvn (Nat.ne_of_lt hp)
    | none =>
      -- a hole is written to place 0, which only the last of 2 ^ 16 nodes has
      intro hzero
      obtain ⟨node, hnode', hle⟩ := lt_vnArray_length.mp hlen
      obtain ⟨j, w, -, hw, rfl⟩ := hlisted hnode'
      rw [hindex hi, ← length_dealtNodes hg visits] at hzero
      have hpos := place_pos t.vertices (filling m visits) i v
      obtain hlt | ⟨rfl, hone, hall, hlast⟩ := hdealt.offset_le t.vertices hfits hi
      · rw [Nat.mod_eq_of_lt hlt] at hzero
        omega
      · have hj := (hdealt.virtnode_ne_nil j).mp (List.ne_nil_of_mem hw)
        obtain rfl : j = 0 := by omega
        have hlength := place_le t.vertices hi
        rw [hdealt.length 0 (hdealt.lt hi)] at hlength
        have hshare := share_le_self (dealtNodes t.vertices visits.vertices).length m.hosts.length 0
        have hmax := vnOf_le_of_last t.vertices (v := v) hw (by
          rw [hdealt.length 0 (hdealt.lt hi)]
          omega)
        have hle' : p ≤ vnOf t.vertices w := hle
        have hp' : vnOf t.vertices v < p := hp
        omega
  have hplace : tableIndex (modelVirtnode t.vertices (addressing m visits) v).vip =
      (vip &&& nodemask).toNat := by
    show tableIndex ((addressing m visits).vip v) = _
    rw [hvip, tableIndex_some, toNat_and_mask]
  rw [hplace] at htable
  unfold loadnodetable
  rw [htable]
  exact toInt_ofNat_vn (h.vn_lt v hv)

theorem vipsIdentify_of_identifiable (hg : readxmlgraph t = some g) (hhosts : m.hosts ≠ [])
    (hemuls : m.emuls ≠ []) (h : Identifiable t m visits) : VipsIdentify t m visits := by
  have hdealt := dealt_filling hg visits hhosts
  have hfits : Fits (dealtNodes t.vertices visits.vertices).length m.hosts.length := by
    rw [length_dealtNodes hg visits]
    exact h.fits
  have hshift : 0 < min (virtnodeCount t) m.hosts.length →
      shiftFor (virtnodeCount t) m.hosts.length ≤ 17 := h.fits.shift_le
  have hoffset : ∀ {i v}, v ∈ (filling m visits).virtnode i →
      i * 2 ^ shiftFor (virtnodeCount t) m.hosts.length +
        place t.vertices (filling m visits) i v ≤ 2 ^ 16 := by
    intro i v hv
    rw [← length_dealtNodes hg visits]
    obtain hlt | ⟨rfl, -, -, hlast⟩ := hdealt.offset_le t.vertices hfits hv
    · exact Nat.le_of_lt hlt
    · rw [hlast, Nat.zero_mul, Nat.zero_add]
  have hnumbered : ∀ v vip, IsVirtnode t.vertices v → (addressing m visits).vip v = some vip →
      (loadnodetable (mkmodel t m visits) (vip &&& nodemask).toNat).toInt = vnOf t.vertices v :=
    fun v vip hv hvip => h.numbered hg hhosts hemuls hv hvip
  refine ⟨?_, ?_, ?_, hnumbered, ?_, h.own⟩
  · intro v hv
    obtain ⟨i, hi⟩ := (exists_subnet hg hhosts).mp hv
    obtain ⟨haddr, hvip⟩ := vip_addressing hg hhosts hi
    have hused := (hdealt.virtnode_ne_nil i).mp (List.ne_nil_of_mem hi)
    have hroom := hdealt.place_lt t.vertices hi
    rw [length_dealtNodes hg visits] at hused hroom
    exact ⟨i, _, _, (hdealt.subnetOf v i).mpr hi, haddr, hvip,
      placed_netAt (hshift (Nat.zero_lt_of_lt hused)) (place_pos _ _ _ _) hroom (hoffset hi)⟩
  · intro v w hv hw heq
    obtain ⟨i, hi⟩ := (exists_subnet hg hhosts).mp hv
    obtain ⟨j, hj⟩ := (exists_subnet hg hhosts).mp hw
    have hvip := (vip_addressing hg hhosts hi).2
    have hindex := index_vip hg hhosts hi hvip
    rw [index_vip hg hhosts hj (heq ▸ hvip), ← length_dealtNodes hg visits] at hindex
    exact (hdealt.offset_inj t.vertices hfits hj hi hindex).symm
  · intro i j net net' hne hi hj ip hip hip'
    obtain ⟨hused, rfl⟩ := addr_addressing hg hhosts hi
    obtain ⟨hused', rfl⟩ := addr_addressing hg hhosts hj
    have heq : BitVec.ofNat 32 (vipAt (shiftFor (virtnodeCount t) m.hosts.length) i 0) =
        BitVec.ofNat 32 (vipAt (shiftFor (virtnodeCount t) m.hosts.length) j 0) := hip.symm.trans hip'
    -- both networks begin below the end of the layout
    have hbelow : ∀ k, k < min (virtnodeCount t) m.hosts.length →
        k * 2 ^ shiftFor (virtnodeCount t) m.hosts.length ≤ 2 ^ 16 := by
      intro k hk
      rw [← length_dealtNodes hg visits] at hk
      obtain ⟨v, hv⟩ := List.exists_mem_of_ne_nil _ ((hdealt.virtnode_ne_nil k).mpr hk)
      exact Nat.le_trans (Nat.le_add_right _ _) (hoffset hv)
    have hi' := hbelow i hused
    have hj' := hbelow j hused'
    have hnat := congrArg BitVec.toNat heq
    rw [toNat_vip (by unfold vipAt; omega), toNat_vip (by unfold vipAt; omega)] at hnat
    unfold vipAt at hnat
    have hmul : i * 2 ^ shiftFor (virtnodeCount t) m.hosts.length =
        j * 2 ^ shiftFor (virtnodeCount t) m.hosts.length := by omega
    exact hne (Nat.eq_of_mul_eq_mul_right (Nat.two_pow_pos _) hmul)
  · intro v w vip vip' hv hw hvip hvip' tab htab hpaths
    have hnone : ¬ tab.pathtable.isNone = true := by
      rw [Option.isNone_iff_eq_none]
      exact Option.isSome_iff_ne_none.mp hpaths
    unfold PathTab.lookupPath
    simp only [htab, hnumbered v vip hv hvip, hnumbered w vip' hw hvip']
    rw [if_neg]
    rintro (hneg | hneg | hneg)
    exacts [by omega, by omega, hnone hneg]

theorem identifiable_of_vipsIdentify (hg : readxmlgraph t = some g) (hhosts : m.hosts ≠ [])
    (hemuls : m.emuls ≠ []) (h : VipsIdentify t m visits) : Identifiable t m visits := by
  have hvertices := (readxmlgraph_eq_some hg).1
  have hdealt := dealt_filling hg visits hhosts
  have hvirt : ∀ {i v}, v ∈ (filling m visits).virtnode i → IsVirtnode t.vertices v :=
    fun hv => (exists_subnet hg hhosts).mpr ⟨_, hv⟩
  have hfits : Fits (virtnodeCount t) m.hosts.length := by
    by_contra hnot
    rw [← length_dealtNodes hg visits] at hnot
    obtain ⟨i, j, v, w, hv, hw, hne, hsame⟩ := hdealt.collide t.vertices hnot
    rw [length_dealtNodes hg visits] at hsame
    have hvip := (vip_addressing hg hhosts hv).2
    have hvip' := (vip_addressing hg hhosts hw).2
    -- both nodes would have their numbers at the same place of the table
    have hnumber := h.numbered v _ (hvirt hv) hvip
    have hnumber' := h.numbered w _ (hvirt hw) hvip'
    rw [index_vip hg hhosts hv hvip] at hnumber
    rw [index_vip hg hhosts hw hvip', ← hsame, hnumber] at hnumber'
    exact hne (h.own v w (hvirt hv) (hvirt hw) (by omega))
  refine ⟨h.own, ?_, ?_, hfits⟩
  · intro v hv
    obtain ⟨i, hi⟩ := (exists_subnet hg hhosts).mp hv
    have hnumber := h.numbered v _ hv (vip_addressing hg hhosts hi).2
    generalize loadnodetable (mkmodel t m visits) _ = entry at hnumber
    have hlt := entry.toInt_lt
    omega
  · intro v hv
    obtain ⟨i, hi⟩ := (exists_subnet hg hhosts).mp hv
    rw [(hdealt.subnetOf v i).mpr hi]
    refine (bound_iff i).mp ?_
    have hvip := (vip_addressing hg hhosts hi).2
    have hindex := index_vip hg hhosts hi hvip
    have hnumber := h.numbered v _ hv hvip
    rw [hindex] at hnumber
    obtain hfree | ⟨hzero, hplace, hnodes⟩ | ⟨node, hnode, hplace, -⟩ :=
      nodetableOf_cases (mkmodel t m visits).virtnodes
        ((i * 2 ^ shiftFor (virtnodeCount t) m.hosts.length +
          place t.vertices (filling m visits) i v) % 2 ^ 16)
    · rw [loadnodetable, hfree] at hnumber
      have hneg : (-1 : Int32).toInt = -1 := by decide
      omega
    · -- a hole is written to place 0: some node of the only subnet is in the model
      obtain ⟨node, hnode⟩ := List.exists_mem_of_ne_nil _ hnodes
      obtain ⟨j, w, hbound, hw, -⟩ := (mem_virtnodes hg hemuls).mp hnode
      have hpos := place_pos t.vertices (filling m visits) i v
      rw [← length_dealtNodes hg visits] at hfits hplace
      obtain hlt | ⟨rfl, hone, -, -⟩ := hdealt.offset_le t.vertices hfits hi
      · rw [Nat.mod_eq_of_lt hlt] at hplace
        omega
      · have hj := (hdealt.virtnode_ne_nil j).mp (List.ne_nil_of_mem hw)
        obtain rfl : j = 0 := by omega
        exact hbound
    · -- a node that is in the model has this place of the table: it is the node itself
      obtain ⟨j, w, hbound, hw, rfl⟩ := (mem_virtnodes hg hemuls).mp hnode
      have hplace' : tableIndex ((addressing m visits).vip w) = _ := hplace
      rw [(vip_addressing hg hhosts hw).2, tableIndex_some, vipAt_mod,
        ← length_dealtNodes hg visits] at hplace'
      rw [← length_dealtNodes hg visits] at hfits
      obtain rfl := hdealt.offset_inj t.vertices hfits hw hi hplace'
      obtain rfl : j = i := Option.some.inj
        (((hdealt.subnetOf w j).mpr hw).symm.trans ((hdealt.subnetOf w i).mpr hi))
      exact hbound

/-- **The virtual addresses identify the virtual nodes exactly if the layout fits**, each host with
nodes has one with an edge, and the nodes have numbers of their own. -/
theorem vipsIdentify_iff (hg : readxmlgraph t = some g) (visits : Visits g) (hhosts : m.hosts ≠ [])
    (hemuls : m.emuls ≠ []) : VipsIdentify t m visits ↔ Identifiable t m visits :=
  ⟨identifiable_of_vipsIdentify hg hhosts hemuls, vipsIdentify_of_identifiable hg hhosts hemuls⟩

end Mkmodel

theorem vipsIdentify_twoNodes :
    VipsIdentify twoNodes ⟨["moe", "curly"], ["larry"]⟩ twoNodesVisits := by
  have hbelow : ∀ v, IsVirtnode twoNodes.vertices v → v = 0 ∨ v = 1 := by
    intro v hv
    match v with
    | 0 => exact .inl rfl
    | 1 => exact .inr rfl
    | v + 2 => cases hv
  refine (vipsIdentify_iff readxmlgraph_twoNodes twoNodesVisits (by decide) (by decide)).mpr
    ⟨?_, ?_, ?_, by decide⟩
  · intro v w hv hw
    obtain rfl | rfl := hbelow v hv <;> obtain rfl | rfl := hbelow w hw <;> decide
  · intro v hv
    obtain rfl | rfl := hbelow v hv <;> decide
  · intro v hv
    obtain rfl | rfl := hbelow v hv
    · exact ⟨(0, 1), rfl, .inl rfl⟩
    · exact ⟨(1, 0), rfl, .inl rfl⟩

/-- A ring of `n` virtual nodes. -/
def ring (n : ℕ) : Topology where
  vertices := (List.range n).map fun i => ⟨i, "virtnode", i⟩
  edges := (List.range n).map fun i => ⟨i, i, (i + 1) % n, "ring", .none⟩
  specs := fun _ => ⟨some 1000, some 10, some 0, some 10, none⟩

theorem ring_vertices {n v : ℕ} (hv : v < n) :
    (ring n).vertices[v]? = some ⟨v, "virtnode", v⟩ := by
  simp [ring, hv]

theorem isVirtnode_ring {n v : ℕ} : IsVirtnode (ring n).vertices v ↔ v < n := by
  constructor
  · intro h
    obtain ⟨vertex, hvertex, -⟩ := Option.map_eq_some_iff.mp h
    simpa [ring] using (List.getElem?_eq_some_iff.mp hvertex).1
  · intro hv
    rw [IsVirtnode, ring_vertices hv]
    rfl

theorem virtnodeCount_ring (n : ℕ) : virtnodeCount (ring n) = n := by
  have hall : (List.range n).filter (fun v => IsVirtnode (ring n).vertices v) = List.range n := by
    refine List.filter_eq_self.mpr fun v hv => ?_
    exact decide_eq_true (isVirtnode_ring.mpr (List.mem_range.mp hv))
  have hlength : (ring n).vertices.length = n := by simp [ring]
  rw [virtnodeCount, hlength, hall, List.length_range]

theorem nodebyid_ring {n v : ℕ} (hv : v < n) : nodebyid (ring n).vertices v = some v := by
  have hmem : (⟨v, "virtnode", v⟩ : Vertex) ∈ (ring n).vertices :=
    List.mem_of_getElem? (ring_vertices hv)
  obtain ⟨w, hw⟩ := Option.isSome_iff_exists.mp (nodebyid_isSome hmem)
  obtain ⟨vertex, hvertex, hidx⟩ := nodebyid_eq_some hw
  have hlt : w < n := by simpa [ring] using (List.getElem?_eq_some_iff.mp hvertex).1
  rw [ring_vertices hlt] at hvertex
  cases hvertex
  rw [hw, show w = v from hidx]

/-- 16385 virtual nodes on as many hosts: the last subnet has the same places in the node table as
the first one. -/
theorem vips_collide : ¬ ∀ (t : Topology) (g : Graph) (m : Machines) (visits : Visits g),
    readxmlgraph t = some g → m.hosts ≠ [] → m.emuls ≠ [] →
    (∀ v w, IsVirtnode t.vertices v → IsVirtnode t.vertices w →
      vnOf t.vertices v = vnOf t.vertices w → v = w) →
    (∀ v, IsVirtnode t.vertices v → ∃ w, (g.hash (v, w)).isSome) →
    VipsIdentify t m visits := by
  intro h
  generalize hn : 16385 = n at *
  have hnext : ∀ i, (i + 1) % n < n := fun i => Nat.mod_lt _ (by omega)
  have hends : ∀ edge ∈ (ring n).edges, (nodebyid (ring n).vertices edge.src).isSome ∧
      (nodebyid (ring n).vertices edge.dst).isSome := by
    intro edge hedge
    obtain ⟨i, hi, rfl⟩ := List.mem_map.mp hedge
    exact ⟨by rw [nodebyid_ring (List.mem_range.mp hi)]; rfl,
      by rw [nodebyid_ring (hnext i)]; rfl⟩
  obtain ⟨g, hg⟩ := exists_readxmlgraph hends
  obtain ⟨visits⟩ := nonempty_visits hg
  have hhosts : List.replicate n "host" ≠ [] := by
    rw [← hn]
    exact List.cons_ne_nil _ _
  have hvips := h (ring n) g ⟨List.replicate n "host", ["larry"]⟩ visits hg hhosts (by simp) ?_ ?_
  · have hfits := (identifiable_of_vipsIdentify hg hhosts (by simp) hvips).fits
    rw [virtnodeCount_ring, List.length_replicate, ← hn] at hfits
    exact absurd hfits (by decide)
  · intro v w hv hw hvn
    rw [vnOf, vnOf, ring_vertices (isVirtnode_ring.mp hv), ring_vertices (isVirtnode_ring.mp hw)]
      at hvn
    exact hvn
  · intro v hv
    have hlt := isVirtnode_ring.mp hv
    have hedge : (⟨v, v, (v + 1) % n, "ring", .none⟩ : Edge) ∈ (ring n).edges :=
      List.mem_map.mpr ⟨v, List.mem_range.mpr hlt, rfl⟩
    exact ⟨(v + 1) % n, hash_isSome hg hedge (nodebyid_ring hlt) (nodebyid_ring (hnext v))⟩

end Modelnet.Scripts

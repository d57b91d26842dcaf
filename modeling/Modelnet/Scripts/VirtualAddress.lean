import Mathlib.Data.Nat.Bitwise
import Mathlib.Data.Nat.Log
import Modelnet.Scripts.Dealing

/-!
# Virtual addresses

Where `mkmodel` puts the subnets and their nodes. With shift `s`, subnet `i` begins at
`10.0.0.0 + i * 2 ^ s`, and its nodes follow in the order of their numbers (`vip_addressing`). The
shift leaves room for the two special addresses of the largest subnet (`le_two_pow_subnetshift`).
-/

namespace Modelnet.Scripts

/-! ## The size of a subnet -/

theorem growShift_spec {size : ℕ} (turns shift : ℕ) (hlow : shift = 1 ∨ 2 ^ (shift - 1) < size)
    (hpos : 1 ≤ shift) (hturns : size ≤ 2 ^ (shift + turns)) :
    (growShift size turns shift = 1 ∨ 2 ^ (growShift size turns shift - 1) < size) ∧
      1 ≤ growShift size turns shift ∧ size ≤ 2 ^ growShift size turns shift := by
  induction turns generalizing shift with
  | zero => exact ⟨hlow, hpos, hturns⟩
  | succ turns ih =>
    rw [growShift, Nat.one_shiftLeft]
    split_ifs with hlt
    · refine ih (shift + 1) (.inr ?_) (Nat.le_add_left 1 shift) ?_
      · rwa [Nat.add_sub_cancel]
      · rwa [Nat.add_assoc, Nat.add_comm 1 turns]
    · exact ⟨hlow, hpos, Nat.le_of_not_lt hlt⟩

/-- **The shift is the smallest one with room for `size` addresses**, but at least 1. -/
theorem subnetshift_eq {size : ℕ} (hsize : 2 ≤ size) : subnetshift size = Nat.clog 2 size := by
  obtain ⟨hlow, hpos, hle⟩ := growShift_spec size 1 (.inl rfl) Nat.le.refl
    (Nat.le_of_lt (Nat.lt_of_lt_of_le Nat.lt_two_pow_self
      (Nat.pow_le_pow_right (by decide) (Nat.le_add_left size 1))))
  refine Nat.le_antisymm ?_ (Nat.clog_le_of_le_pow hle)
  obtain hone | hlt := hlow
  · rw [subnetshift, hone]
    exact Nat.clog_pos Nat.one_lt_two hsize
  · have hlog := (Nat.lt_clog_iff_pow_lt Nat.one_lt_two).mpr hlt
    unfold subnetshift
    omega

/-! ## The addresses of the nodes of a subnet -/

theorem numberNodes_eq {l : List ℕ} (hl : l.Nodup) (vip : ℕ → Option (BitVec 32)) (ip v : ℕ) :
    numberNodes vip ip l v =
      if v ∈ l then some (BitVec.ofNat 32 (ip + l.idxOf v + 1)) else vip v := by
  induction l generalizing vip ip with
  | nil => rfl
  | cons w l ih =>
    obtain ⟨hw, hl⟩ := List.nodup_cons.mp hl
    rw [numberNodes, ih hl]
    by_cases hv : v = w
    · subst hv
      simp [hw]
    · rw [List.idxOf_cons_ne _ (Ne.symm hv), Function.update_of_ne hv]
      simp only [List.mem_cons, hv, false_or]
      congr 3
      omega

theorem sortByVn_perm (vertices : List Vertex) (nodes : List ℕ) :
    (sortByVn vertices nodes).Perm nodes := List.perm_insertionSort _ nodes

/-- The place of a node in its subnet, from 1 on. -/
def place (vertices : List Vertex) (f : Filling) (i v : ℕ) : ℕ :=
  (sortByVn vertices (f.virtnode i)).idxOf v + 1

/-- The address of the node in place `j` of subnet `i`, before it is packed. -/
def vipAt (shift i j : ℕ) : ℕ := 0xa000000 + i * 2 ^ shift + j

/-- The network of subnet `i`. -/
def netAt (shift i : ℕ) : SubnetAddr where
  vnet := BitVec.ofNat 32 (vipAt shift i 0)
  subnetbits := 32 - shift
  vmask := ~~~BitVec.ofNat 32 (2 ^ shift - 1)
  vbcst := BitVec.ofNat 32 (vipAt shift i 0) ||| BitVec.ofNat 32 (2 ^ shift - 1)

/-- The addresses given out after the first `n` subnets. -/
structure Addressed (vertices : List Vertex) (f : Filling) (shift used n : ℕ) (a : Addressing) :
    Prop where
  idx : a.idx = min n used
  addr : ∀ i, a.addr i = if i < min n used then some (netAt shift i) else none
  vip : ∀ v i, v ∈ f.virtnode i → a.vip v =
    if i < min n used then some (BitVec.ofNat 32 (vipAt shift i (place vertices f i v))) else none

theorem Addressed.next {vertices : List Vertex} {h : ℕ} {l : List ℕ} {f : Filling}
    (hf : Dealt h l f) {shift used n : ℕ} (hused : f.virtnode n ≠ [] ↔ n < used) {a : Addressing}
    (ha : Addressed vertices f shift used n a) :
    Addressed vertices f shift used (n + 1) (addressSubnet vertices f shift a n) := by
  unfold addressSubnet
  split_ifs with hempty
  · have hle : used ≤ n := Nat.le_of_not_lt fun hlt => hused.mpr hlt hempty
    have hmin : min (n + 1) used = min n used := by omega
    exact ⟨by rw [hmin]; exact ha.idx, by rw [hmin]; exact ha.addr, by rw [hmin]; exact ha.vip⟩
  · have hlt : n < used := hused.mp hempty
    have hidx : a.idx = n := by rw [ha.idx]; omega
    have hmin : min (n + 1) used = n + 1 := by omega
    have hold : min n used = n := by omega
    have hperm := sortByVn_perm vertices (f.virtnode n)
    have hip : 0xa000000 + a.idx <<< shift = vipAt shift n 0 := by
      rw [hidx, Nat.shiftLeft_eq, vipAt, Nat.add_zero]
    refine ⟨?_, ?_, ?_⟩
    · show a.idx + 1 = _
      rw [hmin, hidx]
    · intro i
      rw [hmin]
      by_cases hi : i = n
      · subst hi
        simp only [Function.update_self, Nat.lt_succ_self, if_true, hip, Nat.one_shiftLeft, netAt,
          BitVec.not_not]
      · have hiff : i < n + 1 ↔ i < n := by omega
        simp only [Function.update_of_ne hi, ha.addr i, hold, hiff]
    · intro v i hv
      show numberNodes a.vip (0xa000000 + a.idx <<< shift) _ v = _
      rw [numberNodes_eq (hperm.nodup_iff.mpr (hf.nodup n)), hmin, hip]
      by_cases hi : i = n
      · subst hi
        rw [if_pos (hperm.mem_iff.mpr hv), if_pos (Nat.lt_succ_self i)]
        rfl
      · have hother : v ∉ f.virtnode n := fun hn =>
          hi (Option.some.inj (((hf.subnetOf v i).mpr hv).symm.trans ((hf.subnetOf v n).mpr hn)))
        have hiff : i < n + 1 ↔ i < n := by omega
        rw [if_neg (hperm.mem_iff.not.mpr hother), ha.vip v i hv, hold]
        simp only [hiff]

theorem addressed_addressSubnets (vertices : List Vertex) {h : ℕ} {l : List ℕ} {f : Filling}
    (hf : Dealt h l f) {used : ℕ} (hused : ∀ i, f.virtnode i ≠ [] ↔ i < used) :
    Addressed vertices f (subnetshift (f.maxsubnet + 2)) used h (addressSubnets vertices f h) := by
  unfold addressSubnets
  generalize subnetshift (f.maxsubnet + 2) = shift
  have hloop : ∀ n, Addressed vertices f shift used n ((List.range n).foldl
      (addressSubnet vertices f shift) ⟨0, fun _ => none, fun _ => none⟩) := by
    intro n
    induction n with
    | zero => exact ⟨by simp, by simp, by simp⟩
    | succ n ih =>
      rw [List.range_succ, List.foldl_append]
      exact ih.next hf (hused n)
  exact hloop h

theorem Dealt.virtnode_ne_nil {h : ℕ} {l : List ℕ} {f : Filling} (hf : Dealt h l f) (i : ℕ) :
    f.virtnode i ≠ [] ↔ i < min l.length h := by
  rw [← List.length_pos_iff]
  by_cases hi : i < h
  · rw [hf.length i hi, share_pos hi]
    omega
  · rw [hf.unused i (Nat.le_of_not_lt hi)]
    simp
    omega

/-- The most nodes in a subnet, of `n` nodes on `h` hosts. -/
def mostNodes (n h : ℕ) : ℕ := share n h 0

theorem mostNodes_eq (n : ℕ) {h : ℕ} (hpos : 0 < h) : mostNodes n h = (n + h - 1) / h := by
  have hdiv := Nat.div_add_mod n h
  have hr := Nat.mod_lt n hpos
  unfold mostNodes share
  symm
  rw [Nat.div_eq_iff hpos]
  split_ifs with h0
  · rw [Nat.add_mul, Nat.mul_comm (n / h) h]
    omega
  · rw [Nat.add_zero, Nat.mul_comm (n / h) h]
    omega

/-- The shift that `mkmodel` comes to for `n` virtual nodes on `h` hosts: room for the most nodes in
a subnet and the two special addresses. -/
def shiftFor (n h : ℕ) : ℕ := Nat.clog 2 ((n + h - 1) / h + 2)

theorem Dealt.subnetshift {h : ℕ} (hpos : 0 < h) {l : List ℕ} {f : Filling} (hf : Dealt h l f) :
    Scripts.subnetshift (f.maxsubnet + 2) = shiftFor l.length h := by
  rw [subnetshift_eq (Nat.le_add_left 2 _), hf.maxsubnet, shiftFor, ← mostNodes_eq _ hpos]
  rfl

theorem place_pos (vertices : List Vertex) (f : Filling) (i v : ℕ) : 0 < place vertices f i v :=
  Nat.succ_pos _

theorem place_le (vertices : List Vertex) {f : Filling} {i v : ℕ} (hv : v ∈ f.virtnode i) :
    place vertices f i v ≤ (f.virtnode i).length := by
  have hperm := sortByVn_perm vertices (f.virtnode i)
  rw [place, ← hperm.length_eq]
  exact List.idxOf_lt_length_of_mem (hperm.mem_iff.mpr hv)

theorem place_inj {vertices : List Vertex} {f : Filling} {i v w : ℕ} (hv : v ∈ f.virtnode i)
    (h : place vertices f i v = place vertices f i w) : v = w := by
  have hperm := sortByVn_perm vertices (f.virtnode i)
  exact (List.idxOf_inj (hperm.mem_iff.mpr hv)).mp (Nat.succ.inj h)

/-- There is room for the nodes of a subnet between its special addresses. -/
theorem Dealt.place_lt (vertices : List Vertex) {h : ℕ} {l : List ℕ} {f : Filling}
    (hf : Dealt h l f) {i v : ℕ} (hv : v ∈ f.virtnode i) :
    place vertices f i v + 1 < 2 ^ shiftFor l.length h := by
  have hi := hf.lt hv
  have hle := place_le vertices hv
  rw [hf.length i hi] at hle
  have hmost := share_le l.length h i
  have hroom := Nat.le_pow_clog Nat.one_lt_two ((l.length + h - 1) / h + 2)
  rw [← mostNodes_eq _ (Nat.zero_lt_of_lt hi)] at hroom
  rw [shiftFor, ← mostNodes_eq _ (Nat.zero_lt_of_lt hi)]
  unfold mostNodes at hroom ⊢
  omega

/-! ## Addresses as bit vectors -/

theorem toNat_vip {n : ℕ} (h : n < 2 ^ 32) : (BitVec.ofNat 32 n).toNat = n :=
  Nat.mod_eq_of_lt h

theorem and_ones (n s : ℕ) :
    BitVec.ofNat 32 n &&& BitVec.ofNat 32 (2 ^ s - 1) = BitVec.ofNat 32 (n % 2 ^ s) := by
  rw [← BitVec.ofNat_and, Nat.and_two_pow_sub_one_eq_mod]

theorem and_not_ones (n s : ℕ) : BitVec.ofNat 32 n &&& ~~~BitVec.ofNat 32 (2 ^ s - 1) =
    BitVec.ofNat 32 (n / 2 ^ s * 2 ^ s) := by
  refine BitVec.eq_of_getLsbD_eq fun b hb => ?_
  have hlow : (n / 2 ^ s * 2 ^ s).testBit b = (decide (s ≤ b) && n.testBit b) := by
    rw [← Nat.shiftRight_eq_div_pow, ← Nat.shiftLeft_eq, Nat.testBit_shiftLeft,
      Nat.testBit_shiftRight]
    by_cases hs : s ≤ b
    · rw [Nat.add_sub_cancel' hs]
    · simp [hs]
  rw [BitVec.getLsbD_and, BitVec.getLsbD_not, BitVec.getLsbD_ofNat, BitVec.getLsbD_ofNat,
    BitVec.getLsbD_ofNat, hlow, Nat.testBit_two_pow_sub_one]
  by_cases hs : s ≤ b
  · simp [hb, hs]
  · simp [hb, hs, Nat.lt_of_not_le hs]

end Modelnet.Scripts

import Mathlib.Data.List.Induction
import Modelnet.Scripts.Mkmodel

/-!
# Dealing out the virtual nodes

The loop of `mkmodel` over the vertices deals the virtual nodes out to the subnets in turn: after `n`
nodes on `h` hosts, subnet `i` has `share n h i` of them, and the first subnet has the most
(`Dealt`).
-/

namespace Modelnet.Scripts

/-- What subnet `i` gets of `n` nodes on `h` hosts. -/
def share (n h i : ℕ) : ℕ := n / h + if i < n % h then 1 else 0

theorem share_succ {n h i : ℕ} (hi : i < h) :
    share (n + 1) h i = share n h i + if i = n % h then 1 else 0 := by
  have hpos : 0 < h := Nat.zero_lt_of_lt hi
  have hr := Nat.mod_lt n hpos
  have hdiv := Nat.div_add_mod n h
  by_cases hlast : n % h + 1 = h
  · -- the last subnet completes the round
    have hround : n + 1 = h * (n / h + 1) := by
      rw [Nat.mul_succ]
      omega
    have hmod : (n + 1) % h = 0 := by rw [hround]; exact Nat.mul_mod_right h _
    have hquot : (n + 1) / h = n / h + 1 := by
      rw [hround]
      exact Nat.mul_div_cancel_left _ hpos
    unfold share
    rw [hmod, hquot]
    split_ifs <;> omega
  · have hmod : (n + 1) % h = n % h + 1 := by
      rw [Nat.add_mod, Nat.mod_eq_of_lt (show 1 < h by omega), Nat.mod_eq_of_lt (by omega)]
    have hquot : (n + 1) / h = n / h := by
      have hdiv' := Nat.div_add_mod (n + 1) h
      rw [hmod] at hdiv'
      exact Nat.eq_of_mul_eq_mul_left hpos (by omega)
    unfold share
    rw [hmod, hquot]
    split_ifs <;> omega

theorem share_le (n h i : ℕ) : share n h i ≤ share n h 0 := by
  unfold share
  split_ifs <;> omega

theorem share_pos {n h i : ℕ} (hi : i < h) : 0 < share n h i ↔ i < n := by
  have hdiv := Nat.div_add_mod n h
  unfold share
  by_cases hq : n / h = 0
  · rw [hq, Nat.mul_zero, Nat.zero_add] at hdiv
    rw [hq, hdiv]
    split_ifs <;> omega
  · have hle : h * 1 ≤ h * (n / h) := Nat.mul_le_mul_left h (Nat.pos_of_ne_zero hq)
    constructor
    · intro
      omega
    · intro
      exact Nat.lt_of_lt_of_le (Nat.pos_of_ne_zero hq) (Nat.le_add_right _ _)

/-- **The subnets after the nodes of `l`** have been dealt out. -/
structure Dealt (h : ℕ) (l : List ℕ) (f : Filling) : Prop where
  turn : f.subnetidx = l.length % h
  subnetOf : ∀ v i, f.subnetOf v = some i ↔ v ∈ f.virtnode i
  mem : ∀ v, v ∈ l ↔ ∃ i, v ∈ f.virtnode i
  nodup : ∀ i, (f.virtnode i).Nodup
  intNodes : ∀ i, f.intNodes i = (f.virtnode i).length
  length : ∀ i, i < h → (f.virtnode i).length = share l.length h i
  unused : ∀ i, h ≤ i → f.virtnode i = []
  maxsubnet : f.maxsubnet = share l.length h 0

theorem dealt_empty (h : ℕ) : Dealt h [] Filling.empty where
  turn := (Nat.zero_mod h).symm
  subnetOf := by simp [Filling.empty]
  mem := by simp [Filling.empty]
  nodup := fun _ => List.nodup_nil
  intNodes := fun _ => rfl
  length := fun i _ => by simp [Filling.empty, share]
  unused := fun _ _ => rfl
  maxsubnet := by simp [Filling.empty, share]

theorem Dealt.push {h : ℕ} (hpos : 0 < h) {l : List ℕ} {f : Filling} (hf : Dealt h l f) {v : ℕ}
    (hv : v ∉ l) : Dealt h (l ++ [v]) (f.push h v) := by
  have hturn : f.subnetidx < h := hf.turn ▸ Nat.mod_lt _ hpos
  have hfresh : ∀ i, v ∉ f.virtnode i := fun i hi => hv ((hf.mem v).mpr ⟨i, hi⟩)
  have hmem : ∀ w i, w ∈ (f.push h v).virtnode i ↔
      w ∈ f.virtnode i ∨ w = v ∧ i = f.subnetidx := by
    intro w i
    by_cases hi : i = f.subnetidx
    · subst hi
      simp [Filling.push]
    · simp [Filling.push, hi]
  have hlength : ∀ i, ((f.push h v).virtnode i).length =
      (f.virtnode i).length + if i = f.subnetidx then 1 else 0 := by
    intro i
    by_cases hi : i = f.subnetidx
    · subst hi
      simp [Filling.push]
    · simp [Filling.push, hi]
  have hshare : ∀ i, i < h → share (l ++ [v]).length h i =
      share l.length h i + if i = f.subnetidx then 1 else 0 := by
    intro i hi
    rw [List.length_append, List.length_singleton, share_succ hi, hf.turn]
  refine ⟨?_, ?_, ?_, ?_, ?_, ?_, ?_, ?_⟩
  · show (f.subnetidx + 1) % h = _
    rw [hf.turn, List.length_append, List.length_singleton, Nat.mod_add_mod]
  · intro w i
    rw [hmem]
    by_cases hw : w = v
    · subst hw
      simp [Filling.push, hfresh i, eq_comm]
    · simp [Filling.push, hw, hf.subnetOf w i]
  · intro w
    simp only [hmem, List.mem_append, List.mem_singleton, hf.mem w]
    constructor
    · rintro (⟨i, hi⟩ | hw)
      exacts [⟨i, .inl hi⟩, ⟨f.subnetidx, .inr ⟨hw, rfl⟩⟩]
    · rintro ⟨i, hi | ⟨hw, -⟩⟩
      exacts [.inl ⟨i, hi⟩, .inr hw]
  · intro i
    by_cases hi : i = f.subnetidx
    · subst hi
      simpa [Filling.push, List.nodup_append] using
        ⟨hf.nodup _, fun a ha hav => hfresh _ (hav ▸ ha)⟩
    · simpa [Filling.push, hi] using hf.nodup i
  · intro i
    rw [hlength, ← hf.intNodes]
    by_cases hi : i = f.subnetidx
    · subst hi
      simp [Filling.push]
    · simp [Filling.push, hi]
  · intro i hi
    rw [hlength, hf.length i hi, hshare i hi]
  · intro i hi
    have hne : i ≠ f.subnetidx := by omega
    simpa [Filling.push, hne] using hf.unused i hi
  · rw [hshare 0 hpos]
    have hnodes : Function.update f.intNodes f.subnetidx (f.intNodes f.subnetidx + 1)
        f.subnetidx = share l.length h f.subnetidx + 1 := by
      rw [Function.update_self, hf.intNodes, hf.length _ hturn]
    simp only [Filling.push, hnodes, hf.maxsubnet]
    by_cases h0 : 0 = f.subnetidx
    · rw [← h0, if_pos (Nat.lt_succ_self _), if_pos rfl]
    · rw [if_neg h0, if_neg]
      · rfl
      -- the first subnet is one node ahead of the one whose turn it is
      have hahead : share l.length h f.subnetidx + 1 ≤ share l.length h 0 := by
        unfold share
        rw [← hf.turn]
        split_ifs <;> omega
      omega

/-- The virtual nodes in the order in which they are visited. -/
def dealtNodes (vertices : List Vertex) (order : List ℕ) : List ℕ :=
  order.filter fun v => IsVirtnode vertices v

theorem dealt_foldl {h : ℕ} (hpos : 0 < h) {l : List ℕ} (hl : l.Nodup) :
    Dealt h l (l.foldl (Filling.push h) Filling.empty) := by
  induction l using List.reverseRecOn with
  | nil => exact dealt_empty h
  | append_singleton l v ih =>
    obtain ⟨hinit, -, hdisj⟩ := List.nodup_append.mp hl
    rw [List.foldl_append, List.foldl_cons, List.foldl_nil]
    exact (ih hinit).push hpos fun hv => hdisj v hv v (List.mem_singleton_self v) rfl

theorem dealt_fillSubnets {vertices : List Vertex} {h : ℕ} (hpos : 0 < h) {order : List ℕ}
    (horder : order.Nodup) :
    Dealt h (dealtNodes vertices order) (fillSubnets vertices h order) := by
  have hfill : fillSubnets vertices h order =
      (dealtNodes vertices order).foldl (Filling.push h) Filling.empty := by
    rw [dealtNodes, List.foldl_filter]
    simp [fillSubnets]
  rw [hfill]
  exact dealt_foldl hpos (horder.filter _)

theorem dealt_filling {t : Topology} {g : Graph} (hg : readxmlgraph t = some g)
    (visits : Visits g) {m : Machines} (hhosts : m.hosts ≠ []) :
    Dealt m.hosts.length (dealtNodes t.vertices visits.vertices) (filling m visits) := by
  rw [← (readxmlgraph_eq_some hg).1]
  exact dealt_fillSubnets (List.length_pos_iff.mpr hhosts)
    (visits.vertices_perm.nodup_iff.mpr List.nodup_range)

theorem mem_dealtNodes {t : Topology} {g : Graph} (hg : readxmlgraph t = some g)
    (visits : Visits g) {v : ℕ} :
    v ∈ dealtNodes t.vertices visits.vertices ↔ IsVirtnode t.vertices v := by
  rw [dealtNodes, List.mem_filter, visits.vertices_perm.mem_iff, List.mem_range, decide_eq_true_iff]
  refine and_iff_right_of_imp fun hv => ?_
  rw [(readxmlgraph_eq_some hg).1]
  obtain ⟨vertex, hvertex, -⟩ := Option.map_eq_some_iff.mp hv
  exact (List.getElem?_eq_some_iff.mp hvertex).1

theorem Dealt.lt {h : ℕ} {l : List ℕ} {f : Filling} (hf : Dealt h l f) {v i : ℕ}
    (hv : v ∈ f.virtnode i) : i < h := by
  by_contra hi
  rw [hf.unused i (Nat.le_of_not_lt hi)] at hv
  cases hv

end Modelnet.Scripts

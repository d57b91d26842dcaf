import Modelnet.Scripts.FirstHop

/-!
# The node table

What `modelload` writes into the node table. Only the hosts that some emulator lists are in the
model, and a host is listed exactly if one of its nodes has an edge (`bound_iff`). The table has the
number of a node at the place of its address, unless a node or a hole that comes later in the array
of the nodes is written to the same place (`nodetableOf_eq`).
-/

namespace Modelnet.Scripts

/-! ## The hosts that are listed -/

theorem bindEnd_isSome (a : Assignment) (fwd : ℕ) (subnet : Option ℕ) (i : ℕ) :
    ((bindEnd a fwd subnet).fwd i).isSome ↔ (a.fwd i).isSome ∨ subnet = some i := by
  cases subnet with
  | none => simp [bindEnd]
  | some subnet =>
    show ((bind a fwd subnet).fwd i).isSome ↔ _
    rw [bind_fwd]
    split_ifs with hi
    · simp [hi]
    · simp [Ne.symm hi]

theorem assignHop_isSome (fwdcnt : ℕ) (subnetOf : ℕ → Option ℕ) (a : Assignment) (e : ℕ × ℕ)
    (edge : Edge) (i : ℕ) : ((assignHop fwdcnt subnetOf a e edge).fwd i).isSome ↔
      (a.fwd i).isSome ∨ subnetOf e.1 = some i ∨ subnetOf e.2 = some i := by
  unfold assignHop
  extract_lets known fwd a₁ a₂
  show (a₂.fwd i).isSome ↔ _
  simp only [a₂, bindEnd_isSome, a₁, or_assoc]

section Mkmodel

variable {t : Topology} {g : Graph} {m : Machines} {visits : Visits g}

/-- **A host is listed exactly if one of its nodes has an edge.** -/
theorem bound_iff (i : ℕ) : ((assignment m visits).fwd i).isSome ↔
    ∃ e, (g.hash e).isSome ∧
      ((filling m visits).subnetOf e.1 = some i ∨ (filling m visits).subnetOf e.2 = some i) := by
  have hloop : ∀ (order : List (ℕ × ℕ)) (a : Assignment), (∀ e ∈ order, (g.hash e).isSome) →
      (((order.foldl (assignEdge g m.emuls.length (filling m visits).subnetOf) a).fwd i).isSome ↔
        (a.fwd i).isSome ∨ ∃ e ∈ order,
          (filling m visits).subnetOf e.1 = some i ∨ (filling m visits).subnetOf e.2 = some i) := by
    intro order
    induction order with
    | nil => simp
    | cons e order ih =>
      intro a hedges
      obtain ⟨edge, hedge⟩ := Option.isSome_iff_exists.mp (hedges e List.mem_cons_self)
      rw [List.foldl_cons, ih _ fun e' he' => hedges e' (List.mem_cons_of_mem e he'), assignEdge,
        hedge, assignHop_isSome]
      simp only [List.mem_cons, exists_eq_or_imp, or_assoc]
  have hall := hloop visits.edges ⟨fun _ => none, fun _ => [], 0, []⟩
    fun e he => (visits.mem_edges e).mp he
  simp only [visits.mem_edges] at hall
  simpa [assignment, assignEdges] using hall

/-- The virtual nodes of the model: those of the hosts that are listed. -/
theorem mem_virtnodes (hg : readxmlgraph t = some g) (hemuls : m.emuls ≠ [])
    {node : ModelVirtnode} : node ∈ (mkmodel t m visits).virtnodes ↔
      ∃ i v, ((assignment m visits).fwd i).isSome ∧ v ∈ (filling m visits).virtnode i ∧
        node = modelVirtnode g.vertices (addressing m visits) v := by
  have hassigned := assigned_assignment hg visits hemuls
  have hhost : ∀ k i, i ∈ (assignment m visits).host k ↔ (assignment m visits).fwd i = some k := by
    intro k i
    rw [← List.one_le_count_iff, hassigned.count]
    split_ifs with h <;> simp [h]
  simp only [Model.virtnodes, List.mem_flatMap]
  constructor
  · rintro ⟨emul, he, host, hh, hnode⟩
    rw [(mem_emul.mp he).2] at hh
    obtain ⟨i, hi, rfl⟩ := List.mem_map.mp hh
    obtain ⟨v, hv, rfl⟩ := List.mem_map.mp hnode
    exact ⟨i, v, Option.isSome_of_eq_some ((hhost _ i).mp hi), hv, rfl⟩
  · rintro ⟨i, v, hi, hv, rfl⟩
    obtain ⟨k, hk⟩ := Option.isSome_iff_exists.mp hi
    have hlt := hassigned.fwd_lt i k hk
    exact ⟨_, emul_mem (List.getElem?_eq_getElem hlt), modelHost m visits i,
      List.mem_map_of_mem ((hhost k i).mpr hk), List.mem_map_of_mem hv⟩

end Mkmodel

/-! ## The array of the nodes -/

theorem vnArray_node_mem {nodes : List ModelVirtnode} {p : ℕ} {node : ModelVirtnode}
    (h : (vnArray nodes).node p = some node) : node ∈ nodes ∧ node.vn = p := by
  unfold vnArray at h
  induction nodes using List.reverseRecOn with
  | nil => cases h
  | append_singleton nodes last ih =>
    rw [List.foldl_append] at h
    by_cases hp : p = last.vn
    · subst hp
      simp only [List.foldl_cons, List.foldl_nil, VnArray.put, Function.update_self,
        Option.some.injEq] at h
      subst h
      exact ⟨List.mem_append_right _ (List.mem_singleton_self _), rfl⟩
    · simp only [List.foldl_cons, List.foldl_nil, VnArray.put, Function.update_of_ne hp] at h
      obtain ⟨hmem, hvn⟩ := ih h
      exact ⟨List.mem_append_left _ hmem, hvn⟩

/-- Where no two nodes have the same number, the array has each of them in its place. -/
theorem vnArray_node {nodes : List ModelVirtnode} {node : ModelVirtnode} (hmem : node ∈ nodes)
    (hvn : ∀ other ∈ nodes, other.vn = node.vn → other = node) :
    (vnArray nodes).node node.vn = some node := by
  have hsome : ((vnArray nodes).node node.vn).isSome := by
    clear hvn
    unfold vnArray
    induction nodes using List.reverseRecOn with
    | nil => cases hmem
    | append_singleton nodes last ih =>
      rw [List.foldl_append]
      by_cases hp : node.vn = last.vn
      · simp [VnArray.put, hp]
      · simp only [List.foldl_cons, List.foldl_nil, VnArray.put, Function.update_of_ne hp]
        obtain hmem | hmem := List.mem_append.mp hmem
        · exact ih hmem
        · exact absurd (congrArg ModelVirtnode.vn (List.mem_singleton.mp hmem)) hp
  obtain ⟨other, hother⟩ := Option.isSome_iff_exists.mp hsome
  obtain ⟨hin, hsame⟩ := vnArray_node_mem hother
  rw [hother, hvn other hin hsame]

theorem lt_vnArray_length {nodes : List ModelVirtnode} {p : ℕ} :
    p < (vnArray nodes).length ↔ ∃ node ∈ nodes, p ≤ node.vn := by
  unfold vnArray
  induction nodes using List.reverseRecOn with
  | nil => simp
  | append_singleton nodes last ih =>
    rw [List.foldl_append]
    simp only [List.foldl_cons, List.foldl_nil, VnArray.put, lt_sup_iff, ih, List.mem_append,
      List.mem_singleton, Nat.lt_succ_iff]
    constructor
    · rintro (⟨node, hnode, hle⟩ | hle)
      exacts [⟨node, .inl hnode, hle⟩, ⟨last, .inr rfl, hle⟩]
    · rintro ⟨node, hnode | rfl, hle⟩
      exacts [.inl ⟨node, hnode, hle⟩, .inr hle]

/-! ## The table -/

/-- **What the table holds** where a node is written: its number, if no later place of the array is
written there. -/
theorem nodetableOf_eq {nodes : List ModelVirtnode} {node : ModelVirtnode}
    (hnode : (vnArray nodes).node node.vn = some node)
    (hlater : ∀ p, node.vn < p → p < (vnArray nodes).length →
      match (vnArray nodes).node p with
      | some other => tableIndex other.vip ≠ tableIndex node.vip
      | none => tableIndex node.vip ≠ 0) :
    nodetableOf nodes (tableIndex node.vip) = Int32.ofNat node.vn := by
  have hin : node.vn < (vnArray nodes).length :=
    lt_vnArray_length.mpr ⟨node, (vnArray_node_mem hnode).1, Nat.le_refl _⟩
  have hloop : ∀ n, node.vn + 1 ≤ n → n ≤ (vnArray nodes).length →
      (List.range n).foldl (addNode (vnArray nodes).node) (fun _ => -1) (tableIndex node.vip) =
        Int32.ofNat node.vn := by
    intro n hn
    induction n, hn using Nat.le_induction with
    | base =>
      intro _
      rw [List.range_succ, List.foldl_append]
      simp [addNode, hnode]
    | succ n hn ih =>
      intro hle
      have hwrite := hlater n hn hle
      rw [List.range_succ, List.foldl_append, List.foldl_cons, List.foldl_nil, addNode]
      cases hp : (vnArray nodes).node n with
      | none =>
        simp only [hp] at hwrite ⊢
        rw [Function.update_of_ne hwrite]
        exact ih (Nat.le_of_succ_le hle)
      | some other =>
        simp only [hp] at hwrite ⊢
        rw [Function.update_of_ne (Ne.symm hwrite)]
        exact ih (Nat.le_of_succ_le hle)
  exact hloop _ hin Nat.le.refl

/-- Whatever the table holds comes from a node that is written there, from a hole, or is -1. -/
theorem nodetableOf_cases (nodes : List ModelVirtnode) (x : ℕ) :
    nodetableOf nodes x = -1 ∨ (nodetableOf nodes x = 0 ∧ x = 0 ∧ nodes ≠ []) ∨
      ∃ node ∈ nodes, tableIndex node.vip = x ∧ nodetableOf nodes x = Int32.ofNat node.vn := by
  have hloop : ∀ (order : List ℕ) (table : ℕ → Int32),
      (∀ p ∈ order, p < (vnArray nodes).length) →
      (table x = -1 ∨ (table x = 0 ∧ x = 0 ∧ nodes ≠ []) ∨
        ∃ node ∈ nodes, tableIndex node.vip = x ∧ table x = Int32.ofNat node.vn) →
      (order.foldl (addNode (vnArray nodes).node) table x = -1 ∨
        (order.foldl (addNode (vnArray nodes).node) table x = 0 ∧ x = 0 ∧ nodes ≠ []) ∨
        ∃ node ∈ nodes, tableIndex node.vip = x ∧
          order.foldl (addNode (vnArray nodes).node) table x = Int32.ofNat node.vn) := by
    intro order
    induction order with
    | nil => exact fun _ _ h => h
    | cons p order ih =>
      intro table horder htable
      refine ih _ (fun q hq => horder q (List.mem_cons_of_mem p hq)) ?_
      unfold addNode
      cases hp : (vnArray nodes).node p with
      | none =>
        by_cases hx : x = 0
        · subst hx
          obtain ⟨node, hnode, -⟩ := lt_vnArray_length.mp (horder p List.mem_cons_self)
          exact .inr (.inl ⟨Function.update_self _ _ _, rfl, List.ne_nil_of_mem hnode⟩)
        · simpa only [Function.update_of_ne hx] using htable
      | some node =>
        by_cases hx : x = tableIndex node.vip
        · subst hx
          exact .inr (.inr ⟨node, (vnArray_node_mem hp).1, rfl, Function.update_self _ _ _⟩)
        · simpa only [Function.update_of_ne hx] using htable
  exact hloop _ _ (fun p hp => List.mem_range.mp hp) (.inl rfl)

end Modelnet.Scripts

import Modelnet.Scripts.Dealing
import Modelnet.Scripts.Modelload

/-!
# First hops

A host is listed under one emulator, the one that its subnet is bound to, and every edge that leaves
a virtual node of the host is assigned to this emulator: an edge takes the emulator that the subnet
of its source is bound to, and if there is none, the subnet is bound to the emulator that the edge
takes. So this holds for any order in which the edges are visited.
-/

namespace Modelnet.Scripts

/-! ## Binding -/

theorem bind_fwd (a : Assignment) (fwd subnet j : ℕ) :
    (bind a fwd subnet).fwd j =
      if j = subnet then some ((a.fwd subnet).getD fwd) else a.fwd j := by
  unfold bind
  split_ifs with hj
  · subst hj
    cases h : a.fwd j <;> simp [h]
  · cases a.fwd subnet <;> simp [hj]

@[simp] theorem bind_next (a : Assignment) (fwd subnet : ℕ) :
    (bind a fwd subnet).next = a.next := by
  unfold bind
  cases a.fwd subnet <;> rfl

@[simp] theorem bind_hops (a : Assignment) (fwd subnet : ℕ) :
    (bind a fwd subnet).hops = a.hops := by
  unfold bind
  cases a.fwd subnet <;> rfl

@[simp] theorem bindEnd_next (a : Assignment) (fwd : ℕ) (subnet : Option ℕ) :
    (bindEnd a fwd subnet).next = a.next := by
  cases subnet <;> simp [bindEnd]

@[simp] theorem bindEnd_hops (a : Assignment) (fwd : ℕ) (subnet : Option ℕ) :
    (bindEnd a fwd subnet).hops = a.hops := by
  cases subnet <;> simp [bindEnd]

theorem bindEnd_keeps {a : Assignment} {i k : ℕ} (h : a.fwd i = some k) (fwd : ℕ)
    (subnet : Option ℕ) : (bindEnd a fwd subnet).fwd i = some k := by
  cases subnet with
  | none => exact h
  | some subnet =>
    show (bind a fwd subnet).fwd i = some k
    rw [bind_fwd]
    split_ifs with hi
    · subst hi
      simp [h]
    · exact h

/-- A subnet that is bound to nothing else is bound to the emulator. -/
theorem bindEnd_binds {a : Assignment} {i fwd : ℕ} (h : ∀ k, a.fwd i = some k → k = fwd) :
    (bindEnd a fwd (some i)).fwd i = some fwd := by
  show (bind a fwd i).fwd i = some fwd
  rw [bind_fwd, if_pos rfl]
  cases hi : a.fwd i with
  | none => rfl
  | some k => rw [h k hi, Option.getD_some]

/-- The hosts are listed as their subnets are bound. -/
structure Listed (fwdcnt : ℕ) (a : Assignment) : Prop where
  count : ∀ k i, (a.host k).count i = if a.fwd i = some k then 1 else 0
  fwd_lt : ∀ i k, a.fwd i = some k → k < fwdcnt

theorem Listed.bind {fwdcnt : ℕ} {a : Assignment} (h : Listed fwdcnt a) {fwd : ℕ}
    (hfwd : fwd < fwdcnt) (subnet : ℕ) : Listed fwdcnt (bind a fwd subnet) := by
  cases hs : a.fwd subnet with
  | some k =>
    have heq : Scripts.bind a fwd subnet = a := by
      unfold Scripts.bind
      rw [hs]
    rwa [heq]
  | none =>
    have heq : Scripts.bind a fwd subnet =
        { a with
          fwd := Function.update a.fwd subnet (some fwd)
          host := Function.update a.host fwd (a.host fwd ++ [subnet]) } := by
      unfold Scripts.bind
      rw [hs]
    rw [heq]
    refine ⟨?_, ?_⟩
    · intro k i
      have hold := h.count k i
      by_cases hi : i = subnet
      · subst hi
        rw [hs, if_neg (by simp)] at hold
        by_cases hk : k = fwd
        · subst hk
          simp [hold]
        · simp [hk, Ne.symm hk, hold]
      · by_cases hk : k = fwd
        · subst hk
          simp [hi, Ne.symm hi, hold]
        · simp [hi, hk, hold]
    · intro i k hik
      by_cases hi : i = subnet
      · subst hi
        simp only [Function.update_self, Option.some.injEq] at hik
        exact hik ▸ hfwd
      · exact h.fwd_lt i k (by simpa [hi] using hik)

theorem Listed.bindEnd {fwdcnt : ℕ} {a : Assignment} (h : Listed fwdcnt a) {fwd : ℕ}
    (hfwd : fwd < fwdcnt) (subnet : Option ℕ) : Listed fwdcnt (bindEnd a fwd subnet) := by
  cases subnet with
  | none => exact h
  | some subnet => exact h.bind hfwd subnet

/-! ## The loop over the edges -/

/-- What holds whenever the loop turns: the hosts are listed as their subnets are bound, and an edge
that leaves a virtual node is assigned to the emulator of its subnet. -/
structure Assigned (fwdcnt : ℕ) (nodes subnetOf : ℕ → Option ℕ) (a : Assignment) : Prop
    extends Listed fwdcnt a where
  next_lt : a.next < fwdcnt
  firstHop : ∀ hop ∈ a.hops, ∀ v i, nodes hop.edge.src = some v → subnetOf v = some i →
    a.fwd i = some hop.intEmul

theorem Assigned.assignHop {fwdcnt : ℕ} {nodes subnetOf : ℕ → Option ℕ} {a : Assignment}
    (h : Assigned fwdcnt nodes subnetOf a) {e : ℕ × ℕ} {edge : Edge}
    (hsrc : nodes edge.src = some e.1) :
    Assigned fwdcnt nodes subnetOf (assignHop fwdcnt subnetOf a e edge) := by
  have hpos : 0 < fwdcnt := Nat.zero_lt_of_lt h.next_lt
  unfold Scripts.assignHop
  extract_lets known fwd a₁ a₂
  have hfwd : fwd < fwdcnt := by
    show known.getD a.next < fwdcnt
    cases hknown : known with
    | none => exact h.next_lt
    | some k =>
      obtain hk | ⟨-, hk⟩ := (Option.orElse_eq_some _ _ _).mp hknown
      · obtain ⟨i, -, hi⟩ := Option.bind_eq_some_iff.mp hk
        exact h.fwd_lt i k hi
      · obtain ⟨i, -, hi⟩ := Option.bind_eq_some_iff.mp hk
        exact h.fwd_lt i k hi
  have hlisted : Listed fwdcnt a₂ :=
    (Listed.bindEnd (a := a₁) ⟨h.count, h.fwd_lt⟩ hfwd _).bindEnd hfwd _
  have hkeeps : ∀ i k, a.fwd i = some k → a₂.fwd i = some k := fun i k hi =>
    bindEnd_keeps (bindEnd_keeps (a := a₁) hi fwd _) fwd _
  refine ⟨⟨hlisted.count, hlisted.fwd_lt⟩, ?_, ?_⟩
  · show a₂.next < fwdcnt
    rw [show a₂.next = a₁.next by simp [a₂]]
    exact Nat.mod_lt _ hpos
  · intro hop hmem v i hv hi
    obtain hold | hnew := List.mem_append.mp hmem
    · have hold' : hop ∈ a.hops := by simpa [a₂, a₁] using hold
      exact hkeeps i _ (h.firstHop hop hold' v i hv hi)
    · obtain rfl := List.mem_singleton.mp hnew
      obtain rfl : e.1 = v := Option.some.inj (hsrc.symm.trans hv)
      -- the subnet of the source is bound to the emulator of the edge, now or before
      show a₂.fwd i = some fwd
      have hsource : (bindEnd a₁ fwd (subnetOf e.1)).fwd i = some fwd := by
        rw [hi]
        refine bindEnd_binds fun k hk => ?_
        have hknown : known = some k := by
          have hfst : (subnetOf e.1).bind a.fwd = some k := by
            rw [hi]
            exact hk
          show ((subnetOf e.1).bind a.fwd <|> (subnetOf e.2).bind a.fwd) = some k
          rw [hfst]
          rfl
        show k = known.getD a.next
        rw [hknown]
        rfl
      exact bindEnd_keeps hsource fwd _

theorem Assigned.assignEdge {t : Topology} {g : Graph} (hg : readxmlgraph t = some g)
    {fwdcnt : ℕ} {subnetOf : ℕ → Option ℕ} {a : Assignment}
    (h : Assigned fwdcnt (nodebyid t.vertices) subnetOf a) (e : ℕ × ℕ) :
    Assigned fwdcnt (nodebyid t.vertices) subnetOf (assignEdge g fwdcnt subnetOf a e) := by
  unfold Scripts.assignEdge
  cases he : g.hash e with
  | none => exact h
  | some edge => exact h.assignHop (hash_eq_some hg he).2.1

theorem assigned_assignment {t : Topology} {g : Graph} (hg : readxmlgraph t = some g)
    (visits : Visits g) {m : Machines} (hemuls : m.emuls ≠ []) :
    Assigned m.emuls.length (nodebyid t.vertices) (filling m visits).subnetOf
      (assignment m visits) := by
  refine List.foldlRecOn visits.edges _ ?_ fun a h e _ => h.assignEdge hg e
  refine ⟨⟨?_, ?_⟩, List.length_pos_iff.mpr hemuls, ?_⟩
  · simp
  · rintro _ _ ⟨⟩
  · rintro _ ⟨⟩

/-! ## The model -/

section Mkmodel

variable {t : Topology} {g : Graph} {m : Machines} {visits : Visits g}

/-- The emulators of the model are those of the machines file. -/
theorem mem_emul {emul : ModelEmul} :
    emul ∈ (mkmodel t m visits).emul ↔ m.emuls[emul.intIdx]? = some emul.hostname ∧
      emul.host = ((assignment m visits).host emul.intIdx).map (modelHost m visits) := by
  simp only [mkmodel, List.mem_map, Prod.exists, List.mem_zipIdx_iff_getElem?]
  constructor
  · rintro ⟨hostname, k, hk, rfl⟩
    exact ⟨hk, rfl⟩
  · rintro ⟨hk, hhost⟩
    refine ⟨emul.hostname, emul.intIdx, hk, ?_⟩
    rw [← hhost]

theorem emul_mem {k : ℕ} {hostname : String} (hk : m.emuls[k]? = some hostname) :
    ⟨hostname, k, ((assignment m visits).host k).map (modelHost m visits)⟩ ∈
      (mkmodel t m visits).emul :=
  mem_emul.mpr ⟨hk, rfl⟩

theorem map_number (hosts : List ℕ) :
    (hosts.map (modelHost m visits)).map ModelHost.number = hosts := by
  rw [List.map_map]
  exact List.map_id hosts

theorem emulName_mkmodel {k : ℕ} {hostname : String} (hk : m.emuls[k]? = some hostname) :
    emulName (mkmodel t m visits) k = hostname := by
  have hfold : ∀ (emuls : List ModelEmul) (fwds : ℕ → Option String),
      (∀ emul ∈ emuls, m.emuls[emul.intIdx]? = some emul.hostname) →
      fwds k = some hostname ∨ (∃ emul ∈ emuls, emul.intIdx = k) →
      emuls.foldl addFwd fwds k = some hostname := by
    intro emuls
    induction emuls with
    | nil => simp
    | cons emul emuls ih =>
      intro fwds hnames hknown
      refine ih _ (fun e he => hnames e (List.mem_cons_of_mem _ he)) ?_
      by_cases heq : k = emul.intIdx
      · subst heq
        left
        rw [addFwd, Function.update_self, ← hk, hnames emul List.mem_cons_self]
      · rw [addFwd, Function.update_of_ne heq]
        refine hknown.imp_right ?_
        rintro ⟨e, he, hidx⟩
        obtain rfl | he := List.mem_cons.mp he
        · exact absurd hidx.symm heq
        · exact ⟨e, he, hidx⟩
  unfold emulName
  rw [hfold _ _ ?_ (.inr ?_), Option.getD_some]
  · intro emul he
    exact (mem_emul.mp he).1
  · exact ⟨_, emul_mem hk, rfl⟩

/-- **First hops are local**: every virtual node has a host; a host is listed once, under the
emulator that its subnet is bound to, and nowhere else; an edge that leaves a virtual node is
assigned to the emulator of its host, and as it is loaded there, the emulator is its owner. -/
structure FirstHopsLocal (t : Topology) (m : Machines) (visits : Visits g) : Prop where
  hosted : ∀ v, IsVirtnode t.vertices v →
    ∃ i, i < m.hosts.length ∧ (filling m visits).subnetOf v = some i
  bound : ∀ i k, (assignment m visits).fwd i = some k →
    ∃ emul ∈ (mkmodel t m visits).emul, emul.intIdx = k
  listed : ∀ i, ∀ emul ∈ (mkmodel t m visits).emul, (emul.host.map ModelHost.number).count i =
    if (assignment m visits).fwd i = some emul.intIdx then 1 else 0
  firstHop : ∀ hop ∈ (mkmodel t m visits).hops, ∀ v i,
    nodebyid t.vertices hop.edge.src = some v → (filling m visits).subnetOf v = some i →
    (assignment m visits).fwd i = some hop.intEmul
  owned : ∀ hop ∈ (mkmodel t m visits).hops, ∀ v i,
    nodebyid t.vertices hop.edge.src = some v → (filling m visits).subnetOf v = some i →
    ∀ emul ∈ (mkmodel t m visits).emul, i ∈ emul.host.map ModelHost.number →
    ∀ resolve, hopOwner resolve emul.hostname (mkmodel t m visits) hop = 0

/-- **First hops are local**, for every topology, all machines and any order of the visits. -/
theorem firstHops_local (hg : readxmlgraph t = some g) (visits : Visits g)
    (hhosts : m.hosts ≠ []) (hemuls : m.emuls ≠ []) : FirstHopsLocal t m visits := by
  have hassigned := assigned_assignment hg visits hemuls
  have hdealt := dealt_filling hg visits hhosts
  have hlisted : ∀ i, ∀ emul ∈ (mkmodel t m visits).emul,
      (emul.host.map ModelHost.number).count i =
        if (assignment m visits).fwd i = some emul.intIdx then 1 else 0 := by
    intro i emul he
    rw [(mem_emul.mp he).2, map_number]
    exact hassigned.count emul.intIdx i
  refine ⟨?_, ?_, hlisted, hassigned.firstHop, ?_⟩
  · intro v hv
    obtain ⟨i, hi⟩ := (hdealt.mem v).mp ((mem_dealtNodes hg visits).mpr hv)
    exact ⟨i, hdealt.lt hi, (hdealt.subnetOf v i).mpr hi⟩
  · intro i k hik
    exact ⟨_, emul_mem (List.getElem?_eq_getElem (hassigned.fwd_lt i k hik)), rfl⟩
  · intro hop hhop v i hv hi emul he hmem resolve
    -- the emulator that lists the host is the one that the edge is assigned to
    have hcount := List.one_le_count_iff.mpr hmem
    rw [hlisted i emul he] at hcount
    have hfwd : (assignment m visits).fwd i = some emul.intIdx := by
      by_contra hne
      rw [if_neg hne] at hcount
      exact absurd hcount (by decide)
    have hemul : hop.intEmul = emul.intIdx :=
      Option.some.inj ((hassigned.firstHop hop hhop v i hv hi).symm.trans hfwd)
    unfold hopOwner
    rw [hemul, emulName_mkmodel (mem_emul.mp he).1]
    exact if_pos rfl

end Mkmodel

/-- Two virtual nodes with an edge each way. -/
def twoNodes : Topology where
  vertices := [⟨0, "virtnode", 0⟩, ⟨1, "virtnode", 1⟩]
  edges := [⟨0, 1, 0, "client-client", .none⟩, ⟨1, 0, 1, "client-client", .none⟩]
  specs := fun _ => ⟨some 500, some 100, some 0, some 10, none⟩

def twoNodesGraph : Graph where
  vertices := twoNodes.vertices
  hash := Function.update
    (Function.update (fun _ => none) (1, 0) (some ⟨0, 1, 0, "client-client", .none⟩))
    (0, 1) (some ⟨1, 0, 1, "client-client", .none⟩)

theorem readxmlgraph_twoNodes : readxmlgraph twoNodes = some twoNodesGraph := rfl

/-- The second vertex and the edge from it come first. -/
def twoNodesVisits : Visits twoNodesGraph where
  vertices := [1, 0]
  vertices_perm := by decide
  edges := [(1, 0), (0, 1)]
  edges_nodup := by decide
  mem_edges := by
    intro e
    by_cases h₁ : e = (0, 1)
    · simp [h₁, twoNodesGraph]
    · by_cases h₂ : e = (1, 0) <;> simp [h₁, h₂, twoNodesGraph]

theorem firstHops_local_twoNodes :
    FirstHopsLocal twoNodes ⟨["moe", "curly"], ["larry"]⟩ twoNodesVisits :=
  firstHops_local readxmlgraph_twoNodes twoNodesVisits (by decide) (by decide)

end Modelnet.Scripts

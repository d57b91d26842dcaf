import Modelnet.Lib.NumberedTrees
import Modelnet.Tools.Routes

/-!
# `hiergen`

`hiergen` generates trees with clients at the bottom. `genTree` divides its leaves among the
children of a vertex, as many as the root of their number says, in shares that differ by at most
one; at the last level but one there is a child for every leaf. So every tree gets all of its
clients, at the depth that is asked for (`genTree_placesClients`).
-/

namespace Modelnet.Tools

variable {D : Type}

/-- The graph, the least and greatest level of a client, and what has been put out as an error. -/
structure GenState (D : Type) where
  g : GraphData D
  minHeight : ℕ
  maxHeight : ℕ
  errors : List String

/-- `subleaves` of a child. -/
def share (leaves branching i : ℕ) : ℕ :=
  if i < leaves % branching then leaves / branching + 1 else leaves / branching

/-- The end of `genTree`, for `level >= height`. -/
def genClient (subtree : Int32) (level leaves : ℕ) (s : GenState D) : Option ℕ × GenState D :=
  if leaves > 1 then
    (none, { s with
      errors := s.errors ++ ["Got to bottom, but leaves=" ++ toString leaves ++ "!!"] })
  else
    let n := s.g.myVertices.length
    let g := ((s.g.addVertex.setInteger n (str "subtree") subtree).setString n (str "role")
      (str "virtnode"))
    (some n, { s with
      g := g
      maxHeight := if level > s.maxHeight then level else s.maxHeight
      minHeight := if level < s.minHeight then level else s.minHeight })

/-- The body of the loop over the children; `gen` is the call of `genTree` for the next level. -/
def growChild (root : ℕ) (role : Str) (gen : ℕ → GenState D → Option ℕ × GenState D)
    (leaves branching : ℕ) (s : GenState D) (i : ℕ) : GenState D :=
  let s := { s with g := s.g.setString root (str "role") role }
  match gen (share leaves branching i) s with
  | (none, s) => s
  | (some child, s) => { s with g := s.g.addEdge root child }

/-- `genTree`, with `height - level` for the height; `b` is `(int) pow(leaves, 1.0/(height-level))`,
and `none` is `vertex::nil`. -/
def genLevels (b : ℕ → ℕ → ℕ) (subtree : Int32) :
    ℕ → ℕ → ℕ → GenState D → Option ℕ × GenState D
  | 0, level, leaves, s => if leaves = 0 then (none, s) else genClient subtree level leaves s
  | levels + 1, level, leaves, s =>
    if leaves = 0 then (none, s)
    else
      let root := s.g.myVertices.length
      let branching := b leaves (levels + 1)
      let role := if levels + 1 = 1 then str "stub" else str "transit"
      (some root, (List.range branching).foldl
        (growChild root role (genLevels b subtree levels (level + 1)) leaves branching)
        { s with g := s.g.addVertex })

def genTree (b : ℕ → ℕ → ℕ) (height leaves level : ℕ) (subtree : Int32) (s : GenState D) :
    Option ℕ × GenState D :=
  genLevels b subtree (height - level) level leaves s

/-- The body of the loop over the trees, with `rootList`; `none` where a tree is empty. -/
def plantTree (b : ℕ → ℕ → ℕ) (clients trees height : ℕ) (s : GenState D × List ℕ) (tree : ℕ) :
    Option (GenState D × List ℕ) :=
  match genTree b height (share clients trees tree) 1 (Int32.ofNat tree) s.1 with
  | (none, _) => none
  | (some subTree, s') =>
    let g := s.2.foldl (fun g root => g.addEdge root subTree) s'.g
    let role := if height = 1 then str "stub" else str "transit"
    some ({ s' with g := g.setString subTree (str "role") role }, s.2 ++ [subTree])

def clientCount (g : GraphData D) : ℕ := (List.range g.myVertices.length).countP g.isVirtnode

/-! ## What is claimed -/

def Edge.ends (e : Edge D) : ℕ × ℕ := (e.source, e.target)

/-- The edges that have been added to a graph. -/
def newEdges (g g' : GraphData D) : List (ℕ × ℕ) :=
  (g'.myEdges.drop g.myEdges.length).map Edge.ends

/-- The vertices that have been added to a graph. -/
def newVertices (g g' : GraphData D) : List ℕ :=
  List.range' g.myVertices.length (g'.myVertices.length - g.myVertices.length)

/-- The number of new clients below a vertex. -/
noncomputable def clientsBelow (g g' : GraphData D) (v : ℕ) : ℕ :=
  Set.ncard {w | w ∈ newVertices g g' ∧ g'.isVirtnode w ∧ ∃ k, Down (newEdges g g') k v w}

/-- A tree with its clients at one depth has been added, and nothing else. -/
structure PlacesClients (depth leaves : ℕ) (s s' : GenState D) (root : Option ℕ) : Prop where
  root_eq : root = some s.g.myVertices.length
  vertices_kept : s'.g.myVertices.take s.g.myVertices.length = s.g.myVertices
  edges_kept : s'.g.myEdges.take s.g.myEdges.length = s.g.myEdges
  clients : (newVertices s.g s'.g).countP s'.g.isVirtnode = leaves
  depth_eq : ∀ v ∈ newVertices s.g s'.g, s'.g.isVirtnode v →
    ∀ k, Down (newEdges s.g s'.g) k s.g.myVertices.length v ↔ k = depth
  count_edges : (newEdges s.g s'.g).length + 1 = (newVertices s.g s'.g).length
  ends : ∀ e ∈ newEdges s.g s'.g, e.1 ∈ newVertices s.g s'.g ∧ e.2 ∈ newVertices s.g s'.g
  no_parent : ∀ e ∈ newEdges s.g s'.g, e.2 ≠ s.g.myVertices.length
  one_parent : ∀ v ∈ newVertices s.g s'.g, v ≠ s.g.myVertices.length →
    ((newEdges s.g s'.g).map Prod.snd).count v = 1
  connected : ∀ v ∈ newVertices s.g s'.g,
    ∃ k, Down (newEdges s.g s'.g) k s.g.myVertices.length v
  fair : ∀ u v w, (u, v) ∈ newEdges s.g s'.g → (u, w) ∈ newEdges s.g s'.g →
    clientsBelow s.g s'.g v ≤ clientsBelow s.g s'.g w + 1
  no_error : s'.errors = s.errors

/-! ## Shares -/

theorem sum_share_take (leaves branching i : ℕ) :
    ((List.range i).map (share leaves branching)).sum =
      i * (leaves / branching) + min i (leaves % branching) := by
  induction i with
  | zero => simp
  | succ i ih =>
    rw [List.range_succ, List.map_append, List.sum_append, ih, List.map_singleton,
      List.sum_singleton, share, Nat.succ_mul]
    split_ifs <;> omega

theorem sum_share {leaves branching : ℕ} (hb : 0 < branching) :
    ((List.range branching).map (share leaves branching)).sum = leaves := by
  rw [sum_share_take, min_eq_right (Nat.mod_lt leaves hb).le, Nat.div_add_mod]

theorem share_pos {leaves branching : ℕ} (hb : 0 < branching) (hle : branching ≤ leaves) (i : ℕ) :
    1 ≤ share leaves branching i := by
  have hdiv := Nat.div_pos hle hb
  rw [share]
  split_ifs <;> omega

theorem share_self {leaves : ℕ} (h : 0 < leaves) (i : ℕ) : share leaves leaves i = 1 := by
  rw [share, Nat.mod_self, if_neg (Nat.not_lt_zero i), Nat.div_self h]

theorem share_bounds (leaves branching i : ℕ) : leaves / branching ≤ share leaves branching i ∧
    share leaves branching i ≤ leaves / branching + 1 := by
  rw [share]
  split_ifs <;> omega

/-! ## What is added -/

/-- What has been added: a tree with its marked vertices, which are the clients. -/
structure Grew (depth leaves : ℕ) (s s' : GenState D) (es : List (ℕ × ℕ)) (ls : List ℕ) : Prop where
  tree : NumberedTree es ls s.g.myVertices.length s'.g.myVertices.length
  depth : NumberedTree.MarksAt es ls s.g.myVertices.length depth
  length : ls.length = leaves
  vertices : s'.g.myVertices.take s.g.myVertices.length = s.g.myVertices
  edges : s'.g.myEdges.take s.g.myEdges.length = s.g.myEdges
  newEdges : newEdges s.g s'.g = es
  marks : ∀ v, s.g.myVertices.length ≤ v → v < s'.g.myVertices.length →
    (s'.g.isVirtnode v ↔ v ∈ ls)
  errors : s'.errors = s.errors

section

variable {g g' : GraphData D} {s s' : GenState D} {v n : ℕ}

theorem isVirtnode_of_take (h : g'.myVertices.take g.myVertices.length = g.myVertices)
    (hv : v < g.myVertices.length) : g'.isVirtnode v = g.isVirtnode v := by
  have heq : g'.myVertices[v]? = g.myVertices[v]? := by
    rw [← List.getElem?_take_of_lt hv, h]
  rw [GraphData.isVirtnode, GraphData.isVirtnode, GraphData.vertexAttr, GraphData.vertexAttr, heq]

theorem isVirtnode_of_vertexAttr {v' : ℕ}
    (h : (g'.vertexAttr v').getString (str "role") = (g.vertexAttr v).getString (str "role")) :
    g'.isVirtnode v' = g.isVirtnode v := by
  unfold GraphData.isVirtnode
  rw [h]

theorem isVirtnode_addVertex : g.addVertex.isVirtnode g.myVertices.length = false := by
  have hattr : g.addVertex.vertexAttr g.myVertices.length = ∅ := by
    simp [GraphData.vertexAttr, GraphData.addVertex]
  rw [GraphData.isVirtnode, hattr, getString_empty]
  decide

theorem isVirtnode_setString_self {role : Str} (hv : v < g.myVertices.length) :
    (g.setString v (str "role") role).isVirtnode v = decide (role = str "virtnode") := by
  simp [GraphData.isVirtnode, GraphData.vertexAttr, GraphData.setString, AttributeMap.getString,
    AttributeMap.setString, hv]

theorem isVirtnode_setString_of_ne {key s : Str} (hn : v ≠ n) :
    (g.setString v key s).isVirtnode n = g.isVirtnode n := by
  refine isVirtnode_of_vertexAttr ?_
  simp [GraphData.vertexAttr, GraphData.setString, hn]

@[simp] theorem length_setString {key s : Str} :
    (g.setString v key s).myVertices.length = g.myVertices.length := List.length_modify _ _ _

@[simp] theorem length_setInteger {key : Str} {i : Int32} :
    (g.setInteger v key i).myVertices.length = g.myVertices.length := List.length_modify _ _ _

theorem take_modify {α : Type*} (f : α → α) (l : List α) (v : ℕ) :
    (l.modify v f).take v = l.take v := by
  ext i : 1
  rcases lt_or_ge i v with hlt | hge
  · rw [List.getElem?_take_of_lt hlt, List.getElem?_take_of_lt hlt,
      List.getElem?_modify_ne _ _ hlt.ne']
  · rw [List.getElem?_take_eq_none hge, List.getElem?_take_eq_none hge]

theorem eq_append_drop {α : Type*} {l l' : List α} (h : l'.take l.length = l) :
    l' = l ++ l'.drop l.length := by
  conv_lhs => rw [← List.take_append_drop l.length l', h]

end

section

variable {s s₁ s₂ : GenState D} {es fs : List (ℕ × ℕ)} {ls ms : List ℕ} {d m n : ℕ}

theorem grew_addVertex (d : ℕ) (s : GenState D) :
    Grew d 0 s { s with g := s.g.addVertex } [] [] where
  tree := by
    simpa [GraphData.addVertex] using NumberedTree.single s.g.myVertices.length
  depth := fun w hw => absurd hw List.not_mem_nil
  length := rfl
  vertices := List.take_left
  edges := List.take_length
  newEdges := by simp [Tools.newEdges, GraphData.addVertex]
  marks := by
    intro v hv hlt
    obtain rfl : v = s.g.myVertices.length := by
      simp only [GraphData.addVertex, List.length_append, List.length_singleton] at hlt
      omega
    rw [isVirtnode_addVertex]
    simp
  errors := rfl

theorem Grew.setString {role : Str} (h : Grew d n s s₁ es ls) (hrole : role ≠ str "virtnode")
    (hroot : s.g.myVertices.length ∉ ls) :
    Grew d n s { s₁ with g := s₁.g.setString s.g.myVertices.length (str "role") role } es ls where
  tree := by
    rw [length_setString]
    exact h.tree
  depth := h.depth
  length := h.length
  vertices := by
    rw [GraphData.setString, take_modify]
    exact h.vertices
  edges := h.edges
  newEdges := h.newEdges
  marks := by
    intro v hv hlt
    rw [length_setString] at hlt
    by_cases heq : s.g.myVertices.length = v
    · subst heq
      rw [isVirtnode_setString_self hlt]
      simp [hrole, hroot]
    · rw [isVirtnode_setString_of_ne heq]
      exact h.marks v hv hlt
  errors := h.errors

theorem Grew.adopt (h : Grew (d + 1) n s s₁ es ls) (h' : Grew d m s₁ s₂ fs ms) :
    Grew (d + 1) (n + m) s
      { s₂ with g := s₂.g.addEdge s.g.myVertices.length s₁.g.myVertices.length }
      (es ++ fs ++ [(s.g.myVertices.length, s₁.g.myVertices.length)]) (ls ++ ms) where
  tree := .adopt h.tree h'.tree
  depth := .adopt h.tree h'.tree h.depth h'.depth
  length := by rw [List.length_append, h.length, h'.length]
  vertices := by
    have hle := h.tree.lt.le
    have htake := congrArg (List.take s.g.myVertices.length) h'.vertices
    rw [List.take_take, min_eq_left hle, h.vertices] at htake
    exact htake
  edges := by
    have h₁ := eq_append_drop h.edges
    have h₂ := eq_append_drop h'.edges
    rw [h₁, List.append_assoc] at h₂
    show (s₂.g.myEdges ++ _).take _ = _
    rw [h₂, List.append_assoc]
    exact List.take_left
  newEdges := by
    have h₁ := eq_append_drop h.edges
    have h₂ := eq_append_drop h'.edges
    have h₃ : (s₂.g.addEdge s.g.myVertices.length s₁.g.myVertices.length).myEdges =
        s.g.myEdges ++ (s₁.g.myEdges.drop s.g.myEdges.length ++
          s₂.g.myEdges.drop s₁.g.myEdges.length ++
          [⟨s.g.myVertices.length, s₁.g.myVertices.length, ∅⟩]) := by
      rw [← List.append_assoc, ← List.append_assoc, ← h₁, ← h₂]
      rfl
    rw [Tools.newEdges, h₃, List.drop_left, List.map_append, List.map_append, ← Tools.newEdges,
      ← Tools.newEdges, h.newEdges, h'.newEdges]
    rfl
  marks := by
    intro v hv hlt
    have hlt' : v < s₂.g.myVertices.length := hlt
    show s₂.g.isVirtnode v ↔ _
    rw [List.mem_append]
    rcases lt_or_ge v s₁.g.myVertices.length with hv₁ | hv₁
    · have hnotMem : v ∉ ms := fun hmem => absurd (h'.tree.mem_marks hmem).1 (not_le.mpr hv₁)
      rw [isVirtnode_of_take h'.vertices hv₁, h.marks v hv hv₁, or_iff_left hnotMem]
    · have hnotMem : v ∉ ls := fun hmem => absurd (h.tree.mem_marks hmem).2 (not_lt.mpr hv₁)
      rw [h'.marks v hv₁ hlt', or_iff_right hnotMem]
  errors := h'.errors.trans h.errors

/-- What has been added while the root gets its children, with `q` or `q + 1` clients each. -/
structure Growing (d n q : ℕ) (s s₁ : GenState D) (es : List (ℕ × ℕ)) (ls : List ℕ) : Prop
    extends Grew (d + 1) n s s₁ es ls where
  fair : NumberedTree.Fair es ls s.g.myVertices.length q
  root : s.g.myVertices.length ∉ ls

theorem growing_addVertex (d q : ℕ) (s : GenState D) :
    Growing d 0 q s { s with g := s.g.addVertex } [] [] where
  toGrew := grew_addVertex (d + 1) s
  fair := ⟨fun _ h => absurd h List.not_mem_nil, fun _ _ _ _ h => absurd h List.not_mem_nil⟩
  root := List.not_mem_nil

theorem Growing.growChild {role : Str} {gen : ℕ → GenState D → Option ℕ × GenState D}
    {leaves branching i : ℕ} (h : Growing d n (leaves / branching) s s₁ es ls)
    (hrole : role ≠ str "virtnode")
    (hgen : ∀ s : GenState D, ∃ s' fs ms,
      gen (share leaves branching i) s = (some s.g.myVertices.length, s') ∧
        Grew d (share leaves branching i) s s' fs ms ∧ NumberedTree.Balanced fs ms) :
    ∃ es ls, Growing d (n + share leaves branching i) (leaves / branching) s
      (growChild s.g.myVertices.length role gen leaves branching s₁ i) es ls := by
  have hset := h.setString hrole h.root
  obtain ⟨s₂, fs, ms, hs₂, hgrew, hbalanced⟩ :=
    hgen { s₁ with g := s₁.g.setString s.g.myVertices.length (str "role") role }
  have hstep : Tools.growChild s.g.myVertices.length role gen leaves branching s₁ i =
      { s₂ with g := s₂.g.addEdge s.g.myVertices.length s₁.g.myVertices.length } := by
    rw [Tools.growChild, hs₂, length_setString]
  have hbounds := share_bounds leaves branching i
  rw [← hgrew.length] at hbounds
  have hadopt := hset.adopt hgrew
  have htree := hgrew.tree
  rw [length_setString] at hadopt htree
  rw [hstep]
  refine ⟨es ++ fs ++ [(s.g.myVertices.length, s₁.g.myVertices.length)], ls ++ ms, hadopt,
    h.fair.adopt h.tree htree hbalanced hbounds.1 hbounds.2, fun hmem => ?_⟩
  rcases List.mem_append.mp hmem with hmem | hmem
  · exact h.root hmem
  · exact absurd h.tree.lt (not_lt.mpr (htree.mem_marks hmem).1)

theorem growing_foldl {role : Str} {gen : ℕ → GenState D → Option ℕ × GenState D}
    {leaves branching : ℕ} (hrole : role ≠ str "virtnode")
    (hgen : ∀ i < branching, ∀ s : GenState D, ∃ s' fs ms,
      gen (share leaves branching i) s = (some s.g.myVertices.length, s') ∧
        Grew d (share leaves branching i) s s' fs ms ∧ NumberedTree.Balanced fs ms)
    (s : GenState D) {i : ℕ} (hi : i ≤ branching) :
    ∃ es ls, Growing d ((List.range i).map (share leaves branching)).sum (leaves / branching) s
      ((List.range i).foldl (growChild s.g.myVertices.length role gen leaves branching)
        { s with g := s.g.addVertex }) es ls := by
  induction i with
  | zero => exact ⟨[], [], growing_addVertex d _ s⟩
  | succ i ih =>
    obtain ⟨es, ls, h⟩ := ih (by omega)
    have hnext := h.growChild hrole (hgen i (by omega))
    rw [List.range_succ, List.foldl_append, List.map_append, List.sum_append, List.map_singleton,
      List.sum_singleton, List.foldl_cons, List.foldl_nil]
    exact hnext

theorem grew_genClient (subtree : Int32) (level : ℕ) (s : GenState D) :
    ∃ s', genClient subtree level 1 s = (some s.g.myVertices.length, s') ∧
      Grew 0 1 s s' [] [s.g.myVertices.length] := by
  refine ⟨_, rfl, ?_, fun w hw k => ?_, rfl, ?_, List.take_length, ?_, fun v hv hlt => ?_, rfl⟩
  · simpa [GraphData.addVertex] using NumberedTree.marked s.g.myVertices.length
  · rw [List.mem_singleton.mp hw]
    constructor
    · intro h
      cases h with
      | refl => rfl
      | step he _ => exact absurd he List.not_mem_nil
    · rintro rfl
      exact .refl _
  · simp only [GraphData.setString, GraphData.setInteger, take_modify]
    exact List.take_left
  · simp [Tools.newEdges, GraphData.setString, GraphData.setInteger, GraphData.addVertex]
  · have heq : v = s.g.myVertices.length := by
      simp only [length_setString, length_setInteger, GraphData.addVertex, List.length_append,
        List.length_singleton] at hlt
      omega
    subst heq
    rw [isVirtnode_setString_self (by simp [GraphData.addVertex])]
    simp

/-- **What `genTree` adds**, if there is one leaf at most at the bottom. -/
theorem grew_genLevels {b : ℕ → ℕ → ℕ} (hb : ∀ leaves levels, 1 ≤ leaves → 1 ≤ levels →
      1 ≤ b leaves levels ∧ b leaves levels ≤ leaves)
    (hone : ∀ leaves, 1 ≤ leaves → b leaves 1 = leaves) (subtree : Int32) (levels level : ℕ)
    {leaves : ℕ} (hleaves : 1 ≤ leaves) (hbottom : levels = 0 → leaves = 1) (s : GenState D) :
    ∃ s' es ls, genLevels b subtree levels level leaves s = (some s.g.myVertices.length, s') ∧
      Grew levels leaves s s' es ls ∧ NumberedTree.Balanced es ls := by
  induction levels generalizing level leaves s with
  | zero =>
    obtain rfl := hbottom rfl
    obtain ⟨s', hs', hgrew⟩ := grew_genClient subtree level s
    exact ⟨s', _, _, hs', hgrew, fun _ _ _ h => absurd h List.not_mem_nil⟩
  | succ levels ih =>
    obtain ⟨hpos, hle⟩ := hb leaves (levels + 1) hleaves (Nat.succ_pos levels)
    have hrole : (if levels + 1 = 1 then str "stub" else str "transit") ≠ str "virtnode" := by
      split_ifs <;> decide
    -- with one level left there is a child for each leaf
    have hgen : ∀ i < b leaves (levels + 1), ∀ s : GenState D, ∃ s' fs ms,
        genLevels b subtree levels (level + 1) (share leaves (b leaves (levels + 1)) i) s =
            (some s.g.myVertices.length, s') ∧
          Grew levels (share leaves (b leaves (levels + 1)) i) s s' fs ms ∧
            NumberedTree.Balanced fs ms := by
      refine fun i _ s => ih (level + 1) (share_pos hpos hle i) (fun hzero => ?_) s
      rw [hzero, zero_add, hone leaves hleaves]
      exact share_self hleaves i
    obtain ⟨es, ls, h⟩ := growing_foldl hrole hgen s le_rfl
    have hgrew := h.toGrew
    rw [sum_share hpos] at hgrew
    refine ⟨_, es, ls, ?_, hgrew, h.fair.balanced⟩
    rw [genLevels, if_neg (by omega)]

theorem Grew.mem_newVertices (h : Grew d n s s₁ es ls) {v : ℕ} : v ∈ newVertices s.g s₁.g ↔
    s.g.myVertices.length ≤ v ∧ v < s₁.g.myVertices.length := by
  have hlt := h.tree.lt
  rw [newVertices, List.mem_range'_1]
  omega

theorem Grew.countP_newVertices (h : Grew d n s s₁ es ls) :
    (newVertices s.g s₁.g).countP s₁.g.isVirtnode = n := by
  have hnodup : (newVertices s.g s₁.g).Nodup := List.nodup_range'
  have hperm : ((newVertices s.g s₁.g).filter s₁.g.isVirtnode).Perm ls := by
    refine (List.perm_ext_iff_of_nodup (hnodup.filter _) h.tree.marks_nodup).mpr fun v => ?_
    rw [List.mem_filter, h.mem_newVertices]
    constructor
    · rintro ⟨⟨hv, hlt⟩, hclient⟩
      exact (h.marks v hv hlt).mp hclient
    · intro hv
      obtain ⟨hle, hlt⟩ := h.tree.mem_marks hv
      exact ⟨⟨hle, hlt⟩, (h.marks v hle hlt).mpr hv⟩
  rw [List.countP_eq_length_filter, hperm.length_eq, h.length]

theorem Grew.clientsBelow_eq (h : Grew d n s s₁ es ls) (v : ℕ) :
    clientsBelow s.g s₁.g v = NumberedTree.marksBelow es ls v := by
  refine congrArg Set.ncard (Set.ext fun w => ?_)
  simp only [Set.mem_ofPred_eq, h.newEdges, h.mem_newVertices, ← and_assoc]
  refine and_congr_left fun _ => ⟨fun hw => (h.marks w hw.1.1 hw.1.2).mp hw.2, fun hw => ?_⟩
  have hmem := h.tree.mem_marks hw
  exact ⟨hmem, (h.marks w hmem.1 hmem.2).mpr hw⟩

theorem Grew.placesClients (h : Grew d n s s₁ es ls) (hbalanced : NumberedTree.Balanced es ls) :
    PlacesClients d n s s₁ (some s.g.myVertices.length) := by
  have hlt := h.tree.lt
  have htargets := h.tree.targets
  refine ⟨rfl, h.vertices, h.edges, h.countP_newVertices, fun v hv hclient => ?_, ?_,
    fun e he => ?_, fun e he => ?_, fun v hv hne => ?_, fun v hv => ?_, fun u v w hv hw => ?_,
    h.errors⟩
  · rw [h.mem_newVertices] at hv
    rw [h.newEdges]
    exact h.depth v ((h.marks v hv.1 hv.2).mp hclient)
  · have hlength := htargets.length_eq
    rw [List.length_map, List.length_range'] at hlength
    rw [h.newEdges, hlength, newVertices, List.length_range']
    omega
  · rw [h.newEdges] at he
    obtain ⟨hu, huv, hv⟩ := h.tree.mem_edges he
    rw [h.mem_newVertices, h.mem_newVertices]
    exact ⟨⟨hu, huv.trans hv⟩, ⟨hu.trans huv.le, hv⟩⟩
  · rw [h.newEdges] at he
    obtain ⟨hu, huv, -⟩ := h.tree.mem_edges he
    omega
  · rw [h.mem_newVertices] at hv
    rw [h.newEdges, htargets.count_eq]
    refine List.count_eq_one_of_mem List.nodup_range' ?_
    rw [List.mem_range'_1]
    omega
  · rw [h.mem_newVertices] at hv
    rw [h.newEdges]
    exact h.tree.exists_down hv.1 hv.2
  · rw [h.newEdges] at hv hw
    rw [h.clientsBelow_eq, h.clientsBelow_eq]
    exact hbalanced u v w hv hw

end

/-- **Every tree gets its clients**, at one depth and in fair shares. -/
theorem genTree_placesClients {b : ℕ → ℕ → ℕ} (hb : ∀ leaves levels, 1 ≤ leaves → 1 ≤ levels →
      1 ≤ b leaves levels ∧ b leaves levels ≤ leaves)
    (hone : ∀ leaves, 1 ≤ leaves → b leaves 1 = leaves) {height leaves : ℕ} (hheight : 2 ≤ height)
    (hleaves : 1 ≤ leaves) (subtree : Int32) (s : GenState D) :
    PlacesClients (height - 1) leaves s (genTree b height leaves 1 subtree s).2
      (genTree b height leaves 1 subtree s).1 := by
  obtain ⟨s', es, ls, hs', hgrew, hbalanced⟩ :=
    grew_genLevels hb hone subtree (height - 1) 1 hleaves (by omega) s
  rw [genTree, hs']
  exact hgrew.placesClients hbalanced

/-- Half as many children as leaves, and all of them at the end. -/
def halves (leaves levels : ℕ) : ℕ := if levels = 1 then leaves else (leaves + 1) / 2

theorem halves_bounds (leaves levels : ℕ) (h : 1 ≤ leaves) (_ : 1 ≤ levels) :
    1 ≤ halves leaves levels ∧ halves leaves levels ≤ leaves := by
  unfold halves
  split_ifs <;> omega

/-- Five clients at depth 2, with three children for the root. -/
theorem fiveClients_placed :
    PlacesClients (3 - 1) 5 (⟨∅, 1000000, 0, []⟩ : GenState Unit)
      (genTree halves 3 5 1 0 ⟨∅, 1000000, 0, []⟩).2
      (genTree halves 3 5 1 0 (⟨∅, 1000000, 0, []⟩ : GenState Unit)).1 :=
  genTree_placesClients halves_bounds (fun _ _ => if_pos rfl) (by decide) (by decide) 0 _

/-! ## All trees -/

section

variable {g : GraphData D} {s s₁ : GenState D} {es : List (ℕ × ℕ)} {ls : List ℕ} {d n : ℕ}

theorem Grew.clientCount_eq (h : Grew d n s s₁ es ls) :
    clientCount s₁.g = clientCount s.g + n := by
  have hlt := h.tree.lt
  have hrange : List.range s₁.g.myVertices.length =
      List.range s.g.myVertices.length ++ newVertices s.g s₁.g := by
    have happend := List.range'_append_1 (s := 0) (m := s.g.myVertices.length)
      (n := s₁.g.myVertices.length - s.g.myVertices.length)
    rw [zero_add, Nat.add_sub_of_le hlt.le] at happend
    rw [newVertices, List.range_eq_range', List.range_eq_range', happend]
  have hkept : (List.range s.g.myVertices.length).countP s₁.g.isVirtnode = clientCount s.g := by
    refine List.countP_congr fun v hv => ?_
    rw [isVirtnode_of_take h.vertices (List.mem_range.mp hv)]
  rw [clientCount, hrange, List.countP_append, hkept, h.countP_newVertices]

theorem Grew.root_notMem (h : Grew (d + 1) n s s₁ es ls) : s.g.myVertices.length ∉ ls := by
  intro hmem
  exact absurd ((h.depth _ hmem 0).mp (.refl _)) (by omega)

theorem myVertices_foldl_addEdge (roots : List ℕ) (subTree : ℕ) (g : GraphData D) :
    (roots.foldl (fun g root => g.addEdge root subTree) g).myVertices = g.myVertices := by
  induction roots generalizing g with
  | nil => rfl
  | cons root roots ih => exact ih (g.addEdge root subTree)

theorem clientCount_of_myVertices {g' : GraphData D} (h : g'.myVertices = g.myVertices) :
    clientCount g' = clientCount g := by
  have hrole (v : ℕ) : g'.isVirtnode v = g.isVirtnode v := by
    refine isVirtnode_of_vertexAttr ?_
    unfold GraphData.vertexAttr
    rw [h]
  rw [clientCount, h]
  exact List.countP_congr fun v _ => by rw [hrole]

variable {b : ℕ → ℕ → ℕ} (hb : ∀ leaves levels, 1 ≤ leaves → 1 ≤ levels →
    1 ≤ b leaves levels ∧ b leaves levels ≤ leaves)
  (hone : ∀ leaves, 1 ≤ leaves → b leaves 1 = leaves) {clients trees height : ℕ}
  (hheight : 2 ≤ height) (htrees : 1 ≤ trees) (hclients : trees ≤ clients)

include hb hone hheight htrees hclients

theorem exists_plantTree (s : GenState D × List ℕ) (tree : ℕ) :
    ∃ s', plantTree b clients trees height s tree = some s' ∧
      clientCount s'.1.g = clientCount s.1.g + share clients trees tree := by
  obtain ⟨levels, rfl⟩ : ∃ levels, height = levels + 2 := ⟨height - 2, by omega⟩
  obtain ⟨s₁, es, ls, hs₁, hgrew, -⟩ := grew_genLevels hb hone (Int32.ofNat tree) (levels + 1) 1
    (share_pos htrees hclients tree) (fun h => absurd h (Nat.succ_ne_zero levels)) s.1
  have hrole : (if levels + 2 = 1 then str "stub" else str "transit") ≠ str "virtnode" := by
    split_ifs <;> decide
  have hset := hgrew.setString hrole hgrew.root_notMem
  rw [plantTree, genTree, show levels + 2 - 1 = levels + 1 from rfl, hs₁]
  refine ⟨_, rfl, ?_⟩
  rw [← hset.clientCount_eq]
  refine clientCount_of_myVertices ?_
  simp only [GraphData.setString, myVertices_foldl_addEdge]

/-- **All clients are placed.** -/
theorem clientCount_forest (s : GenState D × List ℕ) :
    ∃ s', (List.range trees).foldlM (plantTree b clients trees height) s = some s' ∧
      clientCount s'.1.g = clientCount s.1.g + clients := by
  have hrun : ∀ i, ∃ s', (List.range i).foldlM (plantTree b clients trees height) s = some s' ∧
      clientCount s'.1.g =
        clientCount s.1.g + ((List.range i).map (share clients trees)).sum := by
    intro i
    induction i with
    | zero => exact ⟨s, rfl, by simp⟩
    | succ i ih =>
      obtain ⟨s₁, hs₁, hcount₁⟩ := ih
      obtain ⟨s₂, hs₂, hcount₂⟩ :=
        exists_plantTree hb hone hheight htrees hclients s₁ i
      refine ⟨s₂, ?_, ?_⟩
      · rw [List.range_succ, List.foldlM_append, hs₁]
        simpa using hs₂
      · rw [hcount₂, hcount₁, List.range_succ, List.map_append, List.sum_append, List.map_singleton,
          List.sum_singleton, Nat.add_assoc]
  obtain ⟨s', hs', hcount⟩ := hrun trees
  rw [sum_share htrees] at hcount
  exact ⟨s', hs', hcount⟩

end

end Modelnet.Tools

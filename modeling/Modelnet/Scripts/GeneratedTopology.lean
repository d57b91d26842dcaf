import Mathlib.Algebra.Field.Rat
import Mathlib.Data.Nat.Pairing
import Modelnet.Scripts.Inet2xml

/-!
# Generated topologies

What `inet2xml` makes of a graph: the virtual nodes hang on their gateways by one link each, and
where the graph has no two links between the same vertices, the hops of every route that `allpairs`
prints are hops of the model that `mkmodel` makes. The draws for the stubs come to an end where
there are vertices for them.
-/

namespace Modelnet.Scripts

def kindLink (gates : List ℕ) (l : InetLink) : KindLink :=
  ⟨l.src, l.dst, if l.src ∈ gates ∨ l.dst ∈ gates then "stub-transit" else "transit-transit"⟩

section

variable {args : InetArgs} {vertcnt fuel : ℕ} {links : List InetLink} {parms : ℕ → ParmDraws}
  {s : Stream' ℚ} {t : Topology} {gates owner : List ℕ}

theorem gateway_iff {i virtnodes : ℕ} :
    ((builtVertices vertcnt gates virtnodes)[i]?).map Vertex.role = some "gateway" ↔
      i < vertcnt ∧ i ∈ gates := by
  rw [getElem?_builtVertices]
  by_cases hi : i < vertcnt
  · by_cases hgate : i ∈ gates <;> simp [hi, hgate]
  · by_cases hv : i < vertcnt + virtnodes <;> simp [hi, hv]

theorem of_isVirtnode_built {v virtnodes : ℕ}
    (h : IsVirtnode (builtVertices vertcnt gates virtnodes) v) :
    vertcnt ≤ v ∧ v < vertcnt + virtnodes ∧
      vnOf (builtVertices vertcnt gates virtnodes) v = v - vertcnt := by
  unfold IsVirtnode at h
  unfold vnOf
  rw [getElem?_builtVertices] at h ⊢
  split_ifs at h ⊢ with hlt hgate hv
  · simp at h
  · simp at h
  · exact ⟨not_lt.mp hlt, hv, rfl⟩
  · cases h

theorem foldl_addLink (hgates : ∀ gate ∈ gates, gate < vertcnt) {g : Generated} {ls : List KindLink}
    (hvertices : g.vertices = builtVertices vertcnt gates owner.length)
    (hedges : g.edges = twoWay ls) (links : List InetLink) :
    (links.foldl Generated.addLink g).vertices = g.vertices ∧
      (links.foldl Generated.addLink g).edges = twoWay (ls ++ links.map (kindLink gates)) := by
  induction links generalizing g ls with
  | nil => exact ⟨rfl, by rw [List.map_nil, List.append_nil]; exact hedges⟩
  | cons l links ih =>
    have hadd : g.addLink l = g.pushLink l.src l.dst (kindLink gates l).specs := by
      have hgate : ∀ i, (i < vertcnt ∧ i ∈ gates) ↔ i ∈ gates :=
        fun i => ⟨And.right, fun h => ⟨hgates i h, h⟩⟩
      unfold Generated.addLink kindLink
      simp only [hvertices, gateway_iff, hgate]
    have hpush : (g.addLink l).edges = twoWay (ls ++ [kindLink gates l]) := by
      rw [hadd]
      exact Generated.edges_pushLink hedges (kindLink gates l)
    obtain ⟨hv, he⟩ := ih (g := g.addLink l) hvertices hpush
    exact ⟨hv, by rw [List.foldl_cons, he, List.append_assoc]; rfl⟩

theorem inet2xml_eq_some (h : inet2xml args vertcnt links parms s fuel = some t) :
    0 < args.stubcnt ∧ ∃ gates owner,
      StubsDealt vertcnt args.vncnt (nodesPerStub args.vncnt args.stubcnt) args.stubcnt gates
          owner ∧
        t.vertices = builtVertices vertcnt gates owner.length ∧
        t.edges = (twoWay (stubLinks vertcnt owner ++ links.map (kindLink gates))).map
          (args.draw parms) := by
  unfold inet2xml at h
  split_ifs at h with hdie
  obtain ⟨r, hr, rfl⟩ := Option.map_eq_some_iff.mp h
  obtain ⟨-, gates, owner, hdealt, hbuilt⟩ := addStubs args.stubcnt hr
  obtain ⟨hv, he⟩ := foldl_addLink hdealt.lt hbuilt.vertices hbuilt.edges links
  exact ⟨by omega, gates, owner, hdealt, hv.trans hbuilt.vertices, congrArg _ he⟩

/-- The number of virtual nodes: that asked for, and a whole share for every stub behind the one
that reached it. -/
theorem virtnodes_inet2xml (h : inet2xml args vertcnt links parms s fuel = some t) :
    let share := (args.vncnt + args.stubcnt - 1) / args.stubcnt
    (t.vertices.countP fun v => v.role = "virtnode") =
        args.vncnt + share * (args.stubcnt - (args.vncnt + share - 1) / share) ∧
      ((t.vertices.countP fun v => v.role = "virtnode") = args.vncnt ↔
        args.vncnt = 0 ∨ share * (args.stubcnt - 1) < args.vncnt) := by
  obtain ⟨hpos, gates, owner, hdealt, hvertices, -⟩ := inet2xml_eq_some h
  have hcount : (t.vertices.countP fun v => v.role = "virtnode") = owner.length := by
    rw [hvertices]
    unfold builtVertices
    rw [List.countP_append, List.countP_map, List.countP_map,
      List.countP_eq_zero.mpr (fun i _ => by dsimp only [Function.comp]; split_ifs <;> decide),
      List.countP_eq_length.mpr (fun _ _ => by rfl), List.length_range, Nat.zero_add]
  have hvirtnodes := virtnodesAfter_stubs args.vncnt hpos
  dsimp only at hvirtnodes ⊢
  rw [hcount, hdealt.virtnodes, hvirtnodes]
  refine ⟨rfl, ?_⟩
  generalize hshare : (args.vncnt + args.stubcnt - 1) / args.stubcnt = share
  rcases Nat.eq_zero_or_pos args.vncnt with hzero | hvncnt
  · have hnone : share = 0 := by
      rw [← hshare, hzero, Nat.zero_add]
      exact Nat.div_eq_of_lt (by omega)
    rw [hnone]
    simp [hzero]
  · have hsome : 0 < share := by
      rw [← hshare]
      exact Nat.div_pos (by omega) hpos
    have hceil := Nat.le_div_iff_mul_le (x := args.stubcnt) (y := args.vncnt + share - 1) hsome
    obtain ⟨stubs, hstubs⟩ := Nat.exists_eq_succ_of_ne_zero hpos.ne'
    rw [hstubs, Nat.succ_mul, Nat.mul_comm] at hceil
    rw [hstubs, Nat.succ_sub_one]
    constructor
    · intro heq
      have hmul : share * (stubs.succ - (args.vncnt + share - 1) / share) = 0 := by omega
      rcases Nat.mul_eq_zero.mp hmul with hbad | hsub
      · omega
      · exact .inr (by have := hceil.mp (Nat.sub_eq_zero_iff_le.mp hsub); omega)
    · rintro (hbad | hlt)
      · omega
      · rw [Nat.sub_eq_zero_of_le (hceil.mpr (by omega)), Nat.mul_zero, Nat.add_zero]

/-- Nine virtual nodes among four stubs. -/
def nineAmongFour : InetArgs := ⟨9, 4, fun _ => .none, fun _ => none, fun _ => none⟩

def rowOfFour : List InetLink := [⟨0, 1⟩, ⟨1, 2⟩, ⟨2, 3⟩]

/-- Draws that find the vertices of the row one after the other. -/
def rowDraws : Stream' ℚ := fun n => [0, 1 / 5, 1 / 5, 1 / 4].getD n 0

/-- The topology with nine virtual nodes among the four vertices of the row. -/
def rowTopology : Option Topology :=
  inet2xml nineAmongFour 4 rowOfFour (fun _ => ⟨0, 0, 0, 0⟩) rowDraws 1

theorem exists_rowTopology : ∃ t, rowTopology = some t :=
  Option.isSome_iff_exists.mp (by decide +kernel)

/-- Twelve virtual nodes where nine were asked for. -/
theorem virtnodes_rowTopology : ∃ t, rowTopology = some t ∧
    (t.vertices.countP fun v => v.role = "virtnode") = 12 := by
  obtain ⟨t, ht⟩ := exists_rowTopology
  exact ⟨t, ht, (virtnodes_inet2xml ht).1⟩

/-! ## The edges -/

theorem draw_eq (args : InetArgs) (parms : ℕ → ParmDraws) (e : Edge) :
    ∃ params, args.draw parms e = { e with params } := by
  unfold InetArgs.draw
  split
  · exact ⟨_, rfl⟩
  · exact ⟨e.params, rfl⟩

@[simp] theorem draw_idx (e : Edge) : (args.draw parms e).idx = e.idx := by
  obtain ⟨params, heq⟩ := draw_eq args parms e
  rw [heq]

@[simp] theorem draw_src (e : Edge) : (args.draw parms e).src = e.src := by
  obtain ⟨params, heq⟩ := draw_eq args parms e
  rw [heq]

@[simp] theorem draw_dst (e : Edge) : (args.draw parms e).dst = e.dst := by
  obtain ⟨params, heq⟩ := draw_eq args parms e
  rw [heq]

@[simp] theorem draw_specs (e : Edge) : (args.draw parms e).specs = e.specs := by
  obtain ⟨params, heq⟩ := draw_eq args parms e
  rw [heq]

theorem mem_twoWay {ls : List KindLink} {e : Edge} : e ∈ twoWay ls ↔
    ∃ k l, ls[k]? = some l ∧ (e = ⟨2 * k, l.src, l.dst, l.specs, .none⟩ ∨
      e = ⟨2 * k + 1, l.dst, l.src, l.specs, .none⟩) := by
  unfold twoWay
  simp only [List.mem_flatMap, Prod.exists, List.mem_zipIdx_iff_getElem?, List.mem_cons,
    List.not_mem_nil, or_false]
  exact exists_comm

theorem idx_twoWay (ls : List KindLink) :
    (twoWay ls).map Edge.idx = List.range (2 * ls.length) := by
  induction ls using List.reverseRecOn with
  | nil => rfl
  | append_singleton ls l ih =>
    rw [twoWay_concat, List.map_append, ih, List.length_append, List.length_singleton,
      show 2 * (ls.length + 1) = 2 * ls.length + 1 + 1 by omega, List.range_succ, List.range_succ,
      List.append_assoc]
    rfl

/-- The ends of both directions. -/
def KindLink.ends (l : KindLink) : List (ℕ × ℕ) := [(l.src, l.dst), (l.dst, l.src)]

theorem ends_twoWay (ls : List KindLink) :
    (twoWay ls).map (fun e => (e.src, e.dst)) = ls.flatMap KindLink.ends := by
  induction ls using List.reverseRecOn with
  | nil => rfl
  | append_singleton ls l ih =>
    rw [twoWay_concat, List.map_append, ih, List.flatMap_append]
    rfl

theorem getElem?_stubLinks (vertcnt : ℕ) (owner : List ℕ) (k : ℕ) :
    (stubLinks vertcnt owner)[k]? =
      (owner[k]?).map fun gate => ⟨vertcnt + k, gate, "client-stub"⟩ := by
  unfold stubLinks
  rw [List.getElem?_map, List.getElem?_zipIdx, Option.map_map]
  simp [Function.comp_def]

/-- A vertex hangs on another one by one link. -/
def HangsOn (t : Topology) (v gate : ℕ) : Prop :=
  ∃ up ∈ t.edges, ∃ down ∈ t.edges, (up.src = v ∧ up.dst = gate ∧ up.specs = "client-stub") ∧
    (down.src = gate ∧ down.dst = v ∧ down.specs = "client-stub") ∧
    ∀ e ∈ t.edges, (e.src = v → e = up) ∧ (e.dst = v → e = down)

/-- The links of the graph are between its vertices. -/
def LinksWithin (vertcnt : ℕ) (links : List InetLink) : Prop :=
  ∀ l ∈ links, l.src < vertcnt ∧ l.dst < vertcnt

instance (vertcnt : ℕ) (links : List InetLink) : Decidable (LinksWithin vertcnt links) :=
  inferInstanceAs (Decidable (∀ l ∈ links, _ ∧ _))

theorem edge_of_virtnode (hlinks : LinksWithin vertcnt links)
    (howner : ∀ gate ∈ owner, gate < vertcnt) {k : ℕ} {e : Edge}
    (he : e ∈ twoWay (stubLinks vertcnt owner ++ links.map (kindLink gates)))
    (hend : e.src = vertcnt + k ∨ e.dst = vertcnt + k) :
    ∃ gate, owner[k]? = some gate ∧ gate < vertcnt ∧
      (e = ⟨2 * k, vertcnt + k, gate, "client-stub", .none⟩ ∨
        e = ⟨2 * k + 1, gate, vertcnt + k, "client-stub", .none⟩) := by
  obtain ⟨j, l, hl, he⟩ := mem_twoWay.mp he
  rw [List.getElem?_append] at hl
  split_ifs at hl with hj
  · rw [getElem?_stubLinks] at hl
    obtain ⟨gate, hgate, rfl⟩ := Option.map_eq_some_iff.mp hl
    have hlt := howner gate (List.mem_of_getElem? hgate)
    have hjk : j = k := by
      rcases he with rfl | rfl <;> dsimp only at hend <;> omega
    subst hjk
    exact ⟨gate, hgate, hlt, he⟩
  · rw [List.getElem?_map] at hl
    obtain ⟨l', hl', rfl⟩ := Option.map_eq_some_iff.mp hl
    obtain ⟨hsrc, hdst⟩ := hlinks l' (List.mem_of_getElem? hl')
    rcases he with rfl | rfl <;> simp only [kindLink] at hend <;> omega

theorem countP_gateway (hnodup : gates.Nodup) (hlt : ∀ gate ∈ gates, gate < vertcnt)
    (virtnodes : ℕ) :
    ((builtVertices vertcnt gates virtnodes).countP fun v => v.role = "gateway") =
      gates.length := by
  have hperm : ((List.range vertcnt).filter fun i => i ∈ gates).Perm gates := by
    rw [List.perm_ext_iff_of_nodup (List.nodup_range.filter _) hnodup]
    intro i
    rw [List.mem_filter, List.mem_range, decide_eq_true_eq]
    exact ⟨And.right, fun hi => ⟨hlt i hi, hi⟩⟩
  unfold builtVertices
  rw [List.countP_append, ← hperm.length_eq, ← List.countP_eq_length_filter, List.countP_map,
    List.countP_map]
  have hvirtnodes : (List.range virtnodes).countP ((fun v : Vertex => v.role = "gateway") ∘
      fun k => ⟨vertcnt + k, "virtnode", k⟩) = 0 :=
    List.countP_eq_zero.mpr fun _ _ => by simp
  rw [hvirtnodes, Nat.add_zero]
  refine List.countP_congr fun i _ => ?_
  by_cases hi : i ∈ gates <;> simp [hi]

theorem hangsOn_owner (hlinks : LinksWithin vertcnt links)
    (howner : ∀ gate ∈ owner, gate < vertcnt)
    (hedges : t.edges = (twoWay (stubLinks vertcnt owner ++ links.map (kindLink gates))).map
      (args.draw parms)) {k gate : ℕ} (hgate : owner[k]? = some gate) :
    HangsOn t (vertcnt + k) gate := by
  have hk : (stubLinks vertcnt owner ++ links.map (kindLink gates))[k]? =
      some ⟨vertcnt + k, gate, "client-stub"⟩ := by
    have hlt := (List.getElem?_eq_some_iff.mp hgate).1
    rw [List.getElem?_append_left (by rw [length_stubLinks]; exact hlt), getElem?_stubLinks, hgate]
    rfl
  have hup := mem_twoWay.mpr ⟨k, _, hk, .inl rfl⟩
  have hdown := mem_twoWay.mpr ⟨k, _, hk, .inr rfl⟩
  have hgatelt := howner gate (List.mem_of_getElem? hgate)
  rw [HangsOn, hedges]
  refine ⟨_, List.mem_map_of_mem hup, _, List.mem_map_of_mem hdown, by simp, by simp, ?_⟩
  intro e he
  obtain ⟨e', he', rfl⟩ := List.mem_map.mp he
  rw [draw_src, draw_dst]
  constructor
  · intro hsrc
    obtain ⟨gate', hgate', -, rfl | rfl⟩ := edge_of_virtnode hlinks howner he' (.inl hsrc)
    · rw [Option.some.inj (hgate.symm.trans hgate')]
    · dsimp only at hsrc
      rw [Option.some.inj (hgate'.symm.trans hgate)] at hsrc
      omega
  · intro hdst
    obtain ⟨gate', hgate', -, rfl | rfl⟩ := edge_of_virtnode hlinks howner he' (.inr hdst)
    · dsimp only at hdst
      rw [Option.some.inj (hgate'.symm.trans hgate)] at hdst
      omega
    · rw [Option.some.inj (hgate.symm.trans hgate')]

/-- Every vertex has its place as its index, the stubs are the gateways, and a virtual node hangs on
one of them. -/
theorem stubs_inet2xml (h : inet2xml args vertcnt links parms s fuel = some t)
    (hlinks : LinksWithin vertcnt links) :
    (∀ (i : ℕ) (v : Vertex), t.vertices[i]? = some v → v.idx = i) ∧
      (t.vertices.countP fun v => v.role = "gateway") = args.stubcnt ∧
      ∀ v, IsVirtnode t.vertices v → vnOf t.vertices v + vertcnt = v ∧
        ∃ gate, (t.vertices[gate]?).map Vertex.role = some "gateway" ∧ HangsOn t v gate := by
  obtain ⟨-, gates, owner, hdealt, hvertices, hedges⟩ := inet2xml_eq_some h
  have howner : ∀ gate ∈ owner, gate < vertcnt := fun gate hgate =>
    hdealt.lt gate (hdealt.owned gate hgate)
  refine ⟨?_, ?_, ?_⟩
  · intro i v hv
    rw [hvertices, getElem?_builtVertices] at hv
    split_ifs at hv <;> exact Option.some.inj hv ▸ rfl
  · rw [hvertices, countP_gateway hdealt.nodup hdealt.lt, hdealt.length]
  · intro v hv
    obtain ⟨hle, hlt, hvn⟩ := of_isVirtnode_built (hvertices ▸ hv)
    obtain ⟨k, rfl⟩ := Nat.exists_eq_add_of_le hle
    have hk : k < owner.length := by omega
    have hmem : owner[k] ∈ owner := List.getElem_mem hk
    refine ⟨?_, owner[k], ?_, ?_⟩
    · rw [hvertices, hvn]
      omega
    · rw [hvertices, gateway_iff]
      exact ⟨howner _ hmem, hdealt.owned _ hmem⟩
    · exact hangsOn_owner hlinks howner hedges (List.getElem?_eq_getElem hk)

theorem stubs_rowTopology : ∃ t, rowTopology = some t ∧ ∀ v, IsVirtnode t.vertices v →
    ∃ gate, (t.vertices[gate]?).map Vertex.role = some "gateway" ∧ HangsOn t v gate := by
  obtain ⟨t, ht⟩ := exists_rowTopology
  exact ⟨t, ht, fun v hv => ((stubs_inet2xml ht (by decide)).2.2 v hv).2⟩

/-! ## The routes -/

/-- No two links of the graph have the same ends, and none begins where it ends. -/
def SimpleLinks (links : List InetLink) : Prop :=
  (links.flatMap fun l => [(l.src, l.dst), (l.dst, l.src)]).Nodup

instance (links : List InetLink) : Decidable (SimpleLinks links) :=
  inferInstanceAs (Decidable (List.Nodup _))

theorem mem_ends_stubLinks {p : ℕ × ℕ} (h : p ∈ (stubLinks vertcnt owner).flatMap KindLink.ends) :
    ∃ k gate, owner[k]? = some gate ∧ (p = (vertcnt + k, gate) ∨ p = (gate, vertcnt + k)) := by
  obtain ⟨l, hl, hp⟩ := List.mem_flatMap.mp h
  obtain ⟨k, hk⟩ := List.mem_iff_getElem?.mp hl
  rw [getElem?_stubLinks] at hk
  obtain ⟨gate, hgate, rfl⟩ := Option.map_eq_some_iff.mp hk
  refine ⟨k, gate, hgate, ?_⟩
  simpa [KindLink.ends] using hp

theorem nodup_ends_stubLinks (howner : ∀ gate ∈ owner, gate < vertcnt) :
    ((stubLinks vertcnt owner).flatMap KindLink.ends).Nodup := by
  induction owner using List.reverseRecOn with
  | nil => exact List.nodup_nil
  | append_singleton owner gate ih =>
    have hgate := howner gate (List.mem_append_right _ (List.mem_singleton_self gate))
    have hfirst : ∀ gate ∈ owner, gate < vertcnt := fun gate h =>
      howner gate (List.mem_append_left _ h)
    rw [stubLinks_concat, List.flatMap_append, List.flatMap_singleton, List.nodup_append]
    refine ⟨ih hfirst, ?_, ?_⟩
    · have hne : vertcnt + owner.length ≠ gate := by omega
      simp [KindLink.ends, hne]
    · rintro p hp q hq rfl
      obtain ⟨k, gate', hgate', hp⟩ := mem_ends_stubLinks hp
      have hk := (List.getElem?_eq_some_iff.mp hgate').1
      have hlt := hfirst gate' (List.mem_of_getElem? hgate')
      simp only [KindLink.ends, List.mem_cons, List.not_mem_nil, or_false] at hq
      rcases hp with rfl | rfl <;> simp only [Prod.mk.injEq] at hq <;> omega

theorem nodup_ends (hlinks : LinksWithin vertcnt links) (hsimple : SimpleLinks links)
    (howner : ∀ gate ∈ owner, gate < vertcnt) :
    ((twoWay (stubLinks vertcnt owner ++ links.map (kindLink gates))).map
      fun e => (e.src, e.dst)).Nodup := by
  rw [ends_twoWay, List.flatMap_append, List.nodup_append]
  refine ⟨nodup_ends_stubLinks howner, ?_, ?_⟩
  · rw [List.flatMap_map]
    exact hsimple
  · rintro p hp q hq rfl
    obtain ⟨k, gate, hgate, hp⟩ := mem_ends_stubLinks hp
    rw [List.flatMap_map, List.mem_flatMap] at hq
    obtain ⟨l, hl, hq⟩ := hq
    have hwithin := hlinks l hl
    simp only [kindLink, KindLink.ends, List.mem_cons, List.not_mem_nil, or_false] at hq
    rcases hp with rfl | rfl <;> simp only [Prod.mk.injEq] at hq <;> omega

theorem kept_of_nodup (h : (t.edges.map fun e => (e.src, e.dst)).Nodup) {e : Edge}
    (he : e ∈ t.edges) : Kept t e := by
  unfold Kept lastEdge
  cases hfind : t.edges.reverse.find? fun e' => e'.src = e.src ∧ e'.dst = e.dst with
  | none =>
    have hnone := List.find?_eq_none.mp hfind e (List.mem_reverse.mpr he)
    simp at hnone
  | some e' =>
    have hends : e'.src = e.src ∧ e'.dst = e.dst := by simpa using List.find?_some hfind
    have hmem := List.mem_reverse.mp (List.mem_of_find?_eq_some hfind)
    rw [List.inj_on_of_nodup_map h hmem he (Prod.ext hends.1 hends.2)]

theorem ends_lt (hlinks : LinksWithin vertcnt links) (howner : ∀ gate ∈ owner, gate < vertcnt)
    {e : Edge} (he : e ∈ twoWay (stubLinks vertcnt owner ++ links.map (kindLink gates))) :
    e.src < vertcnt + owner.length ∧ e.dst < vertcnt + owner.length := by
  have hends : (e.src, e.dst) ∈ (stubLinks vertcnt owner ++ links.map (kindLink gates)).flatMap
      KindLink.ends := by
    rw [← ends_twoWay]
    exact List.mem_map_of_mem he
  rw [List.flatMap_append, List.mem_append, List.flatMap_map] at hends
  rcases hends with hstub | hlink
  · obtain ⟨k, gate, hgate, hp⟩ := mem_ends_stubLinks hstub
    have hk := (List.getElem?_eq_some_iff.mp hgate).1
    have hlt := howner gate (List.mem_of_getElem? hgate)
    rcases hp with hp | hp <;> simp only [Prod.mk.injEq] at hp <;> omega
  · obtain ⟨l, hl, hp⟩ := List.mem_flatMap.mp hlink
    have hwithin := hlinks l hl
    simp only [kindLink, KindLink.ends, List.mem_cons, List.not_mem_nil, or_false,
      Prod.mk.injEq] at hp
    omega

theorem nodebyid_built {i virtnodes : ℕ} (hi : i < vertcnt + virtnodes) :
    (nodebyid (builtVertices vertcnt gates virtnodes) i).isSome := by
  have hvertex : ∃ v, (builtVertices vertcnt gates virtnodes)[i]? = some v ∧ v.idx = i := by
    rw [getElem?_builtVertices]
    by_cases hlt : i < vertcnt
    · exact ⟨_, if_pos hlt, rfl⟩
    · exact ⟨_, (if_neg hlt).trans (if_pos hi), rfl⟩
  obtain ⟨v, hv, hidx⟩ := hvertex
  rw [← hidx]
  exact nodebyid_isSome (List.mem_of_getElem? hv)

/-- `mkmodel` reads the topology of a simple graph, and whatever shortest paths `allpairs` finds
there, its routes only use hops of that model, under which their parameters are loaded. -/
theorem routesModelled_inet2xml (h : inet2xml args vertcnt links parms s fuel = some t)
    (hlinks : LinksWithin vertcnt links) (hsimple : SimpleLinks links) :
    ∃ g, readxmlgraph t = some g ∧ ∀ sp m, RoutesModelled t sp m g := by
  obtain ⟨-, gates, owner, hdealt, hvertices, hedges⟩ := inet2xml_eq_some h
  have howner : ∀ gate ∈ owner, gate < vertcnt := fun gate hgate =>
    hdealt.lt gate (hdealt.owned gate hgate)
  have hidx : (t.edges.map Edge.idx).Nodup := by
    have hdraw : Edge.idx ∘ args.draw parms = Edge.idx := funext fun e => draw_idx e
    rw [hedges, List.map_map, hdraw, idx_twoWay]
    exact List.nodup_range
  have hends : (t.edges.map fun e => (e.src, e.dst)).Nodup := by
    have hpairs : ((twoWay (stubLinks vertcnt owner ++ links.map (kindLink gates))).map
        fun e => (e.src, e.dst)).Nodup := nodup_ends hlinks hsimple howner
    rw [hedges, List.map_map]
    simpa [Function.comp_def] using hpairs
  obtain ⟨g, hg⟩ : ∃ g, readxmlgraph t = some g := by
    refine exists_readxmlgraph fun e he => ?_
    rw [hedges] at he
    obtain ⟨e', he', rfl⟩ := List.mem_map.mp he
    obtain ⟨hsrc, hdst⟩ := ends_lt hlinks howner he'
    rw [draw_src, draw_dst, hvertices]
    exact ⟨nodebyid_built hsrc, nodebyid_built hdst⟩
  refine ⟨g, hg, fun sp m => (routesModelled_iff hg sp m).mpr fun x y _ e he => ?_⟩
  exact represented_of_kept hidx (kept_of_nodup hends (List.mem_of_find?_eq_some he))

theorem routesModelled_rowTopology : ∃ t, rowTopology = some t ∧
    ∃ g, readxmlgraph t = some g ∧ ∀ sp m, RoutesModelled t sp m g := by
  obtain ⟨t, ht⟩ := exists_rowTopology
  exact ⟨t, ht, routesModelled_inet2xml ht (by decide) (by decide)⟩

/-! ## The end of the draws -/

/-- Draws for every place of every list keep coming. -/
def EveryPlace (s : Stream' ℚ) : Prop :=
  ∀ n i : ℕ, i < n → Draws.Recurs (fun rand => ((n : ℚ) * rand).floor.toNat = i) s

theorem EveryPlace.of_isRest {rest : Stream' ℚ} (h : EveryPlace s) (hrest : Draws.IsRest rest s) :
    EveryPlace rest :=
  fun n i hi => (h n i hi).of_isRest hrest

theorem Generated.Built.recurs_drawTransit {g : Generated} (h : g.Built vertcnt gates owner)
    (hlt : gates.length < vertcnt) (hs : EveryPlace s) :
    Draws.Recurs (fun rand => (g.drawTransit rand).isSome) s := by
  obtain ⟨i, hi, hgate⟩ : ∃ i, i < vertcnt ∧ i ∉ gates := by
    by_contra hall
    have hsub : List.range vertcnt ⊆ gates := by
      intro i hi
      by_contra hgate
      exact hall ⟨i, List.mem_range.mp hi, hgate⟩
    have hle := (List.subperm_of_subset List.nodup_range hsub).length_le
    rw [List.length_range] at hle
    omega
  refine (hs g.vertices.length i ?_).mono fun rand hrand => ?_
  · rw [h.length_vertices]
    omega
  · unfold Generated.drawTransit
    dsimp only
    rw [hrand, if_pos]
    · rfl
    · rw [h.vertices, getElem?_builtVertices, if_pos hi, if_neg hgate]
      rfl

theorem ends_addStubs (vncnt turns : ℕ) (hs : EveryPlace s) {stubs : ℕ} (hle : stubs ≤ vertcnt) :
    Draws.Ends (fun fuel => (List.range stubs).foldlM
        (fun r _ => Generated.addStub vncnt turns fuel r) (Generated.init vertcnt, s)) fun r =>
      Draws.IsRest r.2 s ∧ ∃ gates owner, StubsDealt vertcnt vncnt turns stubs gates owner ∧
        r.1.Built vertcnt gates owner := by
  induction stubs with
  | zero =>
    exact Draws.Ends.pure
      ⟨Draws.IsRest.refl s, [], [], ⟨List.nodup_nil, nofun, rfl, nofun, rfl⟩, .init vertcnt⟩
  | succ stubs ih =>
    have hlast : (fun fuel => (List.range (stubs + 1)).foldlM
          (fun r _ => Generated.addStub vncnt turns fuel r) (Generated.init vertcnt, s)) =
        fun fuel => ((List.range stubs).foldlM (fun r _ => Generated.addStub vncnt turns fuel r)
          (Generated.init vertcnt, s)).bind (Generated.addStub vncnt turns fuel) := by
      funext fuel
      rw [List.range_succ, List.foldlM_append]
      simp only [List.foldlM_cons, List.foldlM_nil, bind_pure]
      rfl
    rw [hlast]
    refine (ih (by omega)).bind ?_
    rintro ⟨g, rest⟩ ⟨hrest, gates, owner, hdealt, hbuilt⟩
    have hrecurs := hbuilt.recurs_drawTransit (by rw [hdealt.length]; omega) (hs.of_isRest hrest)
    obtain ⟨fuel, d, hd, ⟨rand, hrand⟩, hrest'⟩ := Draws.ends_accept hrecurs
    obtain ⟨hlt, hgate⟩ := hbuilt.of_drawTransit hrand
    exact ⟨fuel, _, fun fuel' hle => congrArg (Option.map _) (hd fuel' hle), hrest'.trans hrest,
      _, _, hdealt.step hlt hgate, (hbuilt.makeGateway hlt).fillStub d.1 turns⟩

/-- `inet2xml` comes to an end exactly if it is asked for some stubs, and for no more of them than
there are vertices. -/
theorem inet2xml_ends (hs : EveryPlace s) :
    (∃ fuel t, ∀ fuel', fuel ≤ fuel' → inet2xml args vertcnt links parms s fuel' = some t) ↔
      0 < args.stubcnt ∧ args.stubcnt ≤ vertcnt := by
  constructor
  · rintro ⟨fuel, t, h⟩
    have h := h fuel le_rfl
    unfold inet2xml at h
    split_ifs at h with hdie
    omega
  · rintro ⟨hpos, hle⟩
    obtain ⟨fuel, r, hrun, -⟩ := ends_addStubs args.vncnt
      (nodesPerStub args.vncnt args.stubcnt) hs hle
    have hdie : ¬ (vertcnt < args.stubcnt ∨ args.stubcnt = 0) := by omega
    exact ⟨fuel, _, fun fuel' hfuel =>
      (if_neg hdie).trans (congrArg (Option.map _) (hrun fuel' hfuel))⟩

end

/-- Every fraction again and again. -/
def everyFraction : Stream' ℚ := fun k => (k.unpair.1.unpair.2 : ℚ) / k.unpair.1.unpair.1

theorem everyPlace_everyFraction : EveryPlace everyFraction := by
  intro n i hi m
  refine ⟨Nat.pair (Nat.pair n i) m, Nat.right_le_pair _ m, ?_⟩
  have hn : (n : ℚ) ≠ 0 := Nat.cast_ne_zero.mpr (Nat.ne_zero_of_lt hi)
  show ((n : ℚ) * everyFraction (Nat.pair (Nat.pair n i) m)).floor.toNat = i
  unfold everyFraction
  rw [Nat.unpair_pair, Nat.unpair_pair, mul_div_cancel₀ _ hn]
  rfl

theorem inet2xml_ends_everyFraction : ∃ fuel t, ∀ fuel', fuel ≤ fuel' →
    inet2xml nineAmongFour 4 rowOfFour (fun _ => ⟨0, 0, 0, 0⟩) everyFraction fuel' = some t :=
  (inet2xml_ends everyPlace_everyFraction).mpr (by decide)

end Modelnet.Scripts

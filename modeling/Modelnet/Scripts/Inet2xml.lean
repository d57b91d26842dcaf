import Mathlib.Data.List.Range
import Modelnet.Lib.Draws
import Modelnet.Scripts.Allpairs

/-!
# `inet2xml`

`inet2xml` makes a topology file of a generated graph. It draws vertices of the graph until it has
the stubs that were asked for, puts virtual nodes behind each of them, and then takes over the links
of the graph. Links are written in both directions, the second one right behind the first.

The virtual nodes are dealt out in equal shares, rounded up, and the loop over a share stops when
the number that was asked for is reached. The loop over the stubs goes on then, so that a later stub
gets a whole share again (`virtnodes_inet2xml`).
-/

namespace Modelnet.Scripts

structure InetLink where
  src : ℕ
  dst : ℕ

/-- The arguments, and the parameters that belong to them. -/
structure InetArgs where
  vncnt : ℕ
  stubcnt : ℕ
  dflt : String → HopParams
  minspec : String → Option HopParams
  maxspec : String → Option HopParams

/-- The random numbers for the parameters of an edge. -/
structure ParmDraws where
  kbps : ℚ
  delayms : ℚ
  plr : ℚ
  qlen : ℚ

/-- The topology while it is made; `vn` is the number of the next virtual node. -/
structure Generated where
  vertices : List Vertex
  edges : List Edge
  vn : ℕ

namespace Generated

/-- The vertices of the graph. -/
def init (vertcnt : ℕ) : Generated where
  vertices := (List.range vertcnt).map fun idx => ⟨idx, "transit", 0⟩
  edges := []
  vn := 0

/-- Both directions of a link. -/
def pushLink (g : Generated) (src dst : ℕ) (specs : String) : Generated :=
  { g with
    edges := g.edges ++ [⟨g.edges.length, src, dst, specs, .none⟩,
      ⟨g.edges.length + 1, dst, src, specs, .none⟩] }

/-- A virtual node behind a gateway. -/
def addVirtnode (gate : ℕ) (g : Generated) : Generated :=
  let idx := g.vertices.length
  let g := g.pushLink idx gate "client-stub"
  { g with vertices := g.vertices ++ [⟨idx, "virtnode", g.vn⟩], vn := g.vn + 1 }

/-- The loop over the share of a stub. -/
def fillStub (vncnt gate : ℕ) : ℕ → Generated → Generated
  | 0, g => g
  | turns + 1, g =>
    let g := g.addVirtnode gate
    if g.vn = vncnt then g else fillStub vncnt gate turns g

def makeGateway (gate : ℕ) (g : Generated) : Generated :=
  { g with vertices := g.vertices.modify gate fun v => { v with role := "gateway" } }

/-- `$vertices[@vertices*rand]`, unless it has a role already. -/
def drawTransit (g : Generated) (rand : ℚ) : Option ℕ :=
  let i := (g.vertices.length * rand).floor.toNat
  if (g.vertices[i]?).map Vertex.role = some "transit" then some i else none

def addStub (vncnt turns fuel : ℕ) (r : Generated × Stream' ℚ) : Option (Generated × Stream' ℚ) :=
  (Draws.accept r.1.drawTransit fuel r.2).map fun d =>
    ((r.1.makeGateway d.1).fillStub vncnt d.1 turns, d.2)

def addLink (g : Generated) (l : InetLink) : Generated :=
  let gateway := fun v => (g.vertices[v]?).map Vertex.role = some "gateway"
  g.pushLink l.src l.dst
    (if gateway l.src ∨ gateway l.dst then "stub-transit" else "transit-transit")

end Generated

/-- The turns of the loop over `0..$nodesperstub`. -/
def nodesPerStub (vncnt stubcnt : ℕ) : ℕ :=
  if vncnt % stubcnt = 0 then vncnt / stubcnt else vncnt / stubcnt + 1

/-- `(($max->{$parm}-$min->{$parm})*rand)+$min->{$parm}`. -/
def drawParm (lo hi rand : ℚ) : ℚ := (hi - lo) * rand + lo

def drawInt (lo hi : ℤ) (rand : ℚ) : ℤ := (drawParm lo hi rand).num.tdiv (drawParm lo hi rand).den

/-- The parameters of an edge whose kind has bounds. -/
def drawParams (lo hi : HopParams) (d : ParmDraws) : HopParams where
  kbps := lo.kbps.map fun x => drawParm x (hi.kbps.getD 0) d.kbps
  delayms := lo.delayms.map fun x => drawInt x (hi.delayms.getD 0) d.delayms
  plr := lo.plr.map fun x => drawParm x (hi.plr.getD 0) d.plr
  qlen := lo.qlen.map fun x => drawInt x (hi.qlen.getD 0) d.qlen
  xtq := none

/-- An edge with its own parameters, if its kind has both bounds. -/
def InetArgs.draw (args : InetArgs) (parms : ℕ → ParmDraws) (edge : Edge) : Edge :=
  match args.minspec edge.specs, args.maxspec edge.specs with
  | some lo, some hi => { edge with params := drawParams lo hi (parms edge.idx) }
  | _, _ => edge

/-- `inet2xml` on a graph, but for its option `-l`. The draws `s` are those for the stubs; `parms`
are the ones after them, in whatever order the parameters come. -/
def inet2xml (args : InetArgs) (vertcnt : ℕ) (links : List InetLink) (parms : ℕ → ParmDraws)
    (s : Stream' ℚ) (fuel : ℕ) : Option Topology :=
  if vertcnt < args.stubcnt ∨ args.stubcnt = 0 then none
  else
    let turns := nodesPerStub args.vncnt args.stubcnt
    ((List.range args.stubcnt).foldlM (fun r _ => Generated.addStub args.vncnt turns fuel r)
      (Generated.init vertcnt, s)).map fun r =>
        let g := links.foldl Generated.addLink r.1
        { vertices := g.vertices
          edges := g.edges.map (args.draw parms)
          specs := args.dflt }

/-! ## What the stubs leave -/

/-- The vertices of the graph, some of them gateways, and the virtual nodes. -/
def builtVertices (vertcnt : ℕ) (gates : List ℕ) (virtnodes : ℕ) : List Vertex :=
  ((List.range vertcnt).map fun i => ⟨i, if i ∈ gates then "gateway" else "transit", 0⟩) ++
    (List.range virtnodes).map fun k => ⟨vertcnt + k, "virtnode", k⟩

structure KindLink where
  src : ℕ
  dst : ℕ
  specs : String

/-- Both directions of the links, one behind the other. -/
def twoWay (ls : List KindLink) : List Edge :=
  ls.zipIdx.flatMap fun p =>
    [⟨2 * p.2, p.1.src, p.1.dst, p.1.specs, .none⟩,
      ⟨2 * p.2 + 1, p.1.dst, p.1.src, p.1.specs, .none⟩]

/-- The links of the virtual nodes to their gateways. -/
def stubLinks (vertcnt : ℕ) (owner : List ℕ) : List KindLink :=
  owner.zipIdx.map fun p => ⟨vertcnt + p.2, p.1, "client-stub"⟩

/-- A topology with gateways, and with a virtual node for each entry of `owner`, its gateway. -/
structure Generated.Built (vertcnt : ℕ) (gates owner : List ℕ) (g : Generated) : Prop where
  vertices : g.vertices = builtVertices vertcnt gates owner.length
  edges : g.edges = twoWay (stubLinks vertcnt owner)
  vn : g.vn = owner.length

@[simp] theorem length_twoWay (ls : List KindLink) : (twoWay ls).length = 2 * ls.length := by
  unfold twoWay
  rw [List.length_flatMap]
  simp [Nat.mul_comm]

theorem twoWay_concat (ls : List KindLink) (l : KindLink) :
    twoWay (ls ++ [l]) = twoWay ls ++ [⟨2 * ls.length, l.src, l.dst, l.specs, .none⟩,
      ⟨2 * ls.length + 1, l.dst, l.src, l.specs, .none⟩] := by
  unfold twoWay
  rw [List.zipIdx_append, List.flatMap_append]
  simp

theorem Generated.edges_pushLink {g : Generated} {ls : List KindLink} (h : g.edges = twoWay ls)
    (l : KindLink) : (g.pushLink l.src l.dst l.specs).edges = twoWay (ls ++ [l]) := by
  unfold Generated.pushLink
  rw [h, length_twoWay, twoWay_concat]

@[simp] theorem length_stubLinks (vertcnt : ℕ) (owner : List ℕ) :
    (stubLinks vertcnt owner).length = owner.length := by
  simp [stubLinks]

theorem stubLinks_concat (vertcnt : ℕ) (owner : List ℕ) (gate : ℕ) :
    stubLinks vertcnt (owner ++ [gate]) =
      stubLinks vertcnt owner ++ [⟨vertcnt + owner.length, gate, "client-stub"⟩] := by
  unfold stubLinks
  rw [List.zipIdx_append, List.map_append]
  simp

theorem getElem?_builtVertices (vertcnt : ℕ) (gates : List ℕ) (virtnodes i : ℕ) :
    (builtVertices vertcnt gates virtnodes)[i]? =
      if i < vertcnt then some ⟨i, if i ∈ gates then "gateway" else "transit", 0⟩
      else if i < vertcnt + virtnodes then some ⟨i, "virtnode", i - vertcnt⟩
      else none := by
  unfold builtVertices
  rw [List.getElem?_append, List.length_map, List.length_range]
  by_cases hi : i < vertcnt
  · simp [hi]
  rw [if_neg hi, if_neg hi]
  by_cases hv : i < vertcnt + virtnodes
  · rw [if_pos hv, List.getElem?_map, List.getElem?_range (by omega), Option.map_some,
      Nat.add_sub_cancel' (not_lt.mp hi)]
  · rw [if_neg hv, List.getElem?_map, List.getElem?_eq_none (by rw [List.length_range]; omega),
      Option.map_none]

section Stubs

variable {vertcnt vncnt : ℕ} {gates owner : List ℕ} {g : Generated} {gate : ℕ}

theorem Generated.Built.init (vertcnt : ℕ) : (Generated.init vertcnt).Built vertcnt [] [] where
  vertices := by simp [Generated.init, builtVertices]
  edges := rfl
  vn := rfl

theorem Generated.Built.length_vertices (h : g.Built vertcnt gates owner) :
    g.vertices.length = vertcnt + owner.length := by
  rw [h.vertices]
  simp [builtVertices]

theorem Generated.Built.addVirtnode (h : g.Built vertcnt gates owner) (gate : ℕ) :
    (g.addVirtnode gate).Built vertcnt gates (owner ++ [gate]) where
  vertices := by
    simp only [Generated.addVirtnode, Generated.pushLink, h.length_vertices, h.vn]
    unfold builtVertices
    rw [h.vertices, List.length_append, List.length_singleton, List.range_succ, List.map_append,
      ← List.append_assoc]
    rfl
  edges := by
    rw [stubLinks_concat, ← Generated.edges_pushLink h.edges]
    simp only [Generated.addVirtnode, h.length_vertices]
  vn := by
    simp only [Generated.addVirtnode, Generated.pushLink, h.vn, List.length_append,
      List.length_singleton]

/-- How many virtual nodes a stub gets when there are `vn`. -/
def stubShare (vncnt turns vn : ℕ) : ℕ :=
  if vn < vncnt ∧ vncnt ≤ vn + turns then vncnt - vn else turns

theorem Generated.Built.fillStub (h : g.Built vertcnt gates owner) (gate turns : ℕ) :
    (g.fillStub vncnt gate turns).Built vertcnt gates
      (owner ++ List.replicate (stubShare vncnt turns owner.length) gate) := by
  induction turns generalizing g owner with
  | zero =>
    have hshare : stubShare vncnt 0 owner.length = 0 := by
      unfold stubShare
      split_ifs <;> omega
    rw [hshare, List.replicate_zero, List.append_nil]
    exact h
  | succ turns ih =>
    have hadd := h.addVirtnode gate
    unfold Generated.fillStub
    dsimp only
    have hvn := hadd.vn
    rw [List.length_append, List.length_singleton] at hvn
    rw [hvn]
    split_ifs with hlast
    · have hshare : stubShare vncnt (turns + 1) owner.length = 1 := by
        unfold stubShare
        rw [if_pos (by omega)]
        omega
      rw [hshare]
      exact hadd
    · have hshare : stubShare vncnt (turns + 1) owner.length =
          stubShare vncnt turns (owner ++ [gate]).length + 1 := by
        unfold stubShare
        rw [List.length_append, List.length_singleton]
        split_ifs <;> omega
      have hrest := ih hadd
      rw [hshare, List.replicate_succ, ← List.singleton_append, ← List.append_assoc]
      exact hrest

theorem Generated.Built.makeGateway (h : g.Built vertcnt gates owner) (hgate : gate < vertcnt) :
    (g.makeGateway gate).Built vertcnt (gates ++ [gate]) owner where
  vertices := by
    refine List.ext_getElem? fun i => ?_
    show (g.vertices.modify gate _)[i]? = _
    rw [List.getElem?_modify, h.vertices, getElem?_builtVertices, getElem?_builtVertices]
    by_cases heq : gate = i
    · subst heq
      simp [hgate]
    · simp [heq, Ne.symm heq]
  edges := h.edges
  vn := h.vn

/-- A vertex that is drawn is one of the graph and no gateway yet. -/
theorem Generated.Built.of_drawTransit (h : g.Built vertcnt gates owner) {rand : ℚ}
    (hdraw : g.drawTransit rand = some gate) : gate < vertcnt ∧ gate ∉ gates := by
  unfold Generated.drawTransit at hdraw
  dsimp only at hdraw
  rw [h.vertices] at hdraw
  split_ifs at hdraw with hrole
  rw [Option.some.inj hdraw, getElem?_builtVertices] at hrole
  split_ifs at hrole with hlt hgate hv
  · simp at hrole
  · exact ⟨hlt, hgate⟩
  · simp at hrole
  · cases hrole

theorem Generated.Built.addStub (h : g.Built vertcnt gates owner) {turns fuel : ℕ} {s : Stream' ℚ}
    {r : Generated × Stream' ℚ} (hstub : Generated.addStub vncnt turns fuel (g, s) = some r) :
    ∃ gate, gate < vertcnt ∧ gate ∉ gates ∧ Draws.IsRest r.2 s ∧
      r.1.Built vertcnt (gates ++ [gate])
        (owner ++ List.replicate (stubShare vncnt turns owner.length) gate) := by
  obtain ⟨d, hd, rfl⟩ := Option.map_eq_some_iff.mp hstub
  obtain ⟨⟨rand, hrand⟩, hrest⟩ := Draws.of_accept hd
  obtain ⟨hlt, hgate⟩ := h.of_drawTransit hrand
  exact ⟨d.1, hlt, hgate, hrest, (h.makeGateway hlt).fillStub d.1 turns⟩

/-- The virtual nodes behind the first stubs. -/
def virtnodesAfter (vncnt turns : ℕ) : ℕ → ℕ
  | 0 => 0
  | j + 1 => virtnodesAfter vncnt turns j + stubShare vncnt turns (virtnodesAfter vncnt turns j)

/-- Some stubs, and the gateways of the virtual nodes. -/
structure StubsDealt (vertcnt vncnt turns stubs : ℕ) (gates owner : List ℕ) : Prop where
  nodup : gates.Nodup
  lt : ∀ gate ∈ gates, gate < vertcnt
  length : gates.length = stubs
  owned : ∀ gate ∈ owner, gate ∈ gates
  virtnodes : owner.length = virtnodesAfter vncnt turns stubs

theorem StubsDealt.step {turns stubs : ℕ} (h : StubsDealt vertcnt vncnt turns stubs gates owner)
    (hlt : gate < vertcnt) (hgate : gate ∉ gates) :
    StubsDealt vertcnt vncnt turns (stubs + 1) (gates ++ [gate])
      (owner ++ List.replicate (stubShare vncnt turns owner.length) gate) where
  nodup := by
    rw [List.nodup_append]
    refine ⟨h.nodup, List.nodup_singleton _, fun x hx y hy => ?_⟩
    rw [List.mem_singleton.mp hy]
    rintro rfl
    exact hgate hx
  lt x hx := by
    rcases List.mem_append.mp hx with hx | hx
    · exact h.lt x hx
    · rw [List.mem_singleton.mp hx]
      exact hlt
  length := by rw [List.length_append, h.length, List.length_singleton]
  owned x hx := by
    rcases List.mem_append.mp hx with hx | hx
    · exact List.mem_append_left _ (h.owned x hx)
    · rw [(List.mem_replicate.mp hx).2]
      exact List.mem_append_right _ (List.mem_singleton_self gate)
  virtnodes := by
    rw [List.length_append, List.length_replicate, h.virtnodes]
    rfl

theorem addStubs {turns fuel : ℕ} {s : Stream' ℚ} (stubs : ℕ) {r : Generated × Stream' ℚ}
    (h : (List.range stubs).foldlM (fun r _ => Generated.addStub vncnt turns fuel r)
      (Generated.init vertcnt, s) = some r) :
    Draws.IsRest r.2 s ∧ ∃ gates owner, StubsDealt vertcnt vncnt turns stubs gates owner ∧
      r.1.Built vertcnt gates owner := by
  induction stubs generalizing r with
  | zero =>
    cases h
    exact ⟨Draws.IsRest.refl s, [], [], ⟨List.nodup_nil, nofun, rfl, nofun, rfl⟩, .init vertcnt⟩
  | succ stubs ih =>
    rw [List.range_succ, List.foldlM_append] at h
    obtain ⟨r', hr', h⟩ := Option.bind_eq_some_iff.mp h
    simp only [List.foldlM_cons, List.foldlM_nil, bind_pure] at h
    obtain ⟨hrest, gates, owner, hdealt, hbuilt⟩ := ih hr'
    obtain ⟨gate, hlt, hgate, hrest', hbuilt'⟩ := hbuilt.addStub h
    exact ⟨hrest'.trans hrest, _, _, hdealt.step hlt hgate, hbuilt'⟩

end Stubs

/-! ## How many virtual nodes there are -/

theorem nodesPerStub_eq {vncnt stubcnt : ℕ} (h : 0 < stubcnt) :
    nodesPerStub vncnt stubcnt = (vncnt + stubcnt - 1) / stubcnt := by
  have hdiv := Nat.div_add_mod vncnt stubcnt
  have hmod := Nat.mod_lt vncnt h
  unfold nodesPerStub
  split_ifs with hzero
  · symm
    refine Nat.div_eq_of_lt_le ?_ ?_
    · rw [Nat.mul_comm]
      omega
    · rw [Nat.succ_mul, Nat.mul_comm]
      omega
  · symm
    refine Nat.div_eq_of_lt_le ?_ ?_
    · rw [Nat.add_mul, Nat.one_mul, Nat.mul_comm]
      omega
    · rw [Nat.succ_mul, Nat.succ_mul, Nat.mul_comm]
      omega

/-- The number that was asked for, and a whole share for each stub after the one that reached it. -/
theorem virtnodesAfter_eq {vncnt turns : ℕ} (h : 0 < turns) (j : ℕ) :
    virtnodesAfter vncnt turns j =
      if turns * j ≤ vncnt then turns * j
      else vncnt + turns * (j - (vncnt + turns - 1) / turns) := by
  induction j with
  | zero => simp [virtnodesAfter]
  | succ j ih =>
    unfold virtnodesAfter stubShare
    rw [ih, Nat.mul_succ]
    by_cases hle : turns * j ≤ vncnt
    · rw [if_pos hle]
      by_cases hlt : vncnt < turns * j + turns
      · have hceil : (vncnt + turns - 1) / turns = if turns * j < vncnt then j + 1 else j := by
          split_ifs with hless
          · refine Nat.div_eq_of_lt_le ?_ ?_
            · rw [Nat.succ_mul, Nat.mul_comm]
              omega
            · rw [Nat.succ_mul, Nat.succ_mul, Nat.mul_comm]
              omega
          · refine Nat.div_eq_of_lt_le ?_ ?_
            · rw [Nat.mul_comm]
              omega
            · rw [Nat.succ_mul, Nat.mul_comm]
              omega
        rw [if_neg (show ¬turns * j + turns ≤ vncnt by omega), hceil]
        split_ifs <;> simp <;> omega
      · rw [if_pos (show turns * j + turns ≤ vncnt by omega)]
        split_ifs <;> omega
    · have hceil : (vncnt + turns - 1) / turns ≤ j := by
        refine Nat.le_of_lt_succ (Nat.div_lt_of_lt_mul ?_)
        rw [Nat.mul_succ]
        omega
      rw [if_neg hle, if_neg (show ¬turns * j + turns ≤ vncnt by omega), if_neg (by omega),
        Nat.succ_sub hceil, Nat.mul_succ, Nat.add_assoc]

theorem virtnodesAfter_zero (vncnt j : ℕ) : virtnodesAfter vncnt 0 j = 0 := by
  induction j with
  | zero => rfl
  | succ j ih =>
    unfold virtnodesAfter stubShare
    rw [ih]
    split_ifs <;> omega

theorem virtnodesAfter_stubs (vncnt : ℕ) {stubcnt : ℕ} (h : 0 < stubcnt) :
    let share := (vncnt + stubcnt - 1) / stubcnt
    virtnodesAfter vncnt (nodesPerStub vncnt stubcnt) stubcnt =
      vncnt + share * (stubcnt - (vncnt + share - 1) / share) := by
  rw [nodesPerStub_eq h]
  dsimp only
  generalize hshare : (vncnt + stubcnt - 1) / stubcnt = share
  have hdiv := Nat.div_add_mod (vncnt + stubcnt - 1) stubcnt
  have hmod := Nat.mod_lt (vncnt + stubcnt - 1) h
  rw [hshare] at hdiv
  have hcomm := Nat.mul_comm share stubcnt
  have hcover : vncnt ≤ share * stubcnt := by omega
  rcases Nat.eq_zero_or_pos share with rfl | hpos
  · rw [virtnodesAfter_zero]
    omega
  · rw [virtnodesAfter_eq hpos]
    split_ifs with hle
    · have hceil : (vncnt + share - 1) / share = stubcnt := by
        refine Nat.div_eq_of_lt_le ?_ ?_
        · omega
        · rw [Nat.succ_mul]
          omega
      rw [hceil, Nat.sub_self, Nat.mul_zero, Nat.add_zero]
      omega
    · rfl

end Modelnet.Scripts

import Mathlib.Data.List.Sort
import Modelnet.Scripts.Topology

/-!
# `mkmodel`

`mkmodel` deals the virtual nodes out to the hosts, one subnet for each host, gives the subnets and
their nodes addresses in 10/8, and then goes once over the edges: an edge gets the emulator that the
subnet of one of its ends is bound to, or the next one in turn, and the subnets of its ends are bound
to this emulator unless they are bound already. A host is listed under the emulator that its subnet
is bound to. Hosts, subnets and emulators are numbers here; the host of a subnet has its number.
-/

namespace Modelnet.Scripts

/-- The machines file: the names of the hosts and of the emulators. -/
structure Machines where
  hosts : List String
  emuls : List String

/-- `$vertex->{role} eq 'virtnode'`. -/
def IsVirtnode (vertices : List Vertex) (v : ℕ) : Prop :=
  vertices[v]?.map Vertex.role = some "virtnode"

instance (vertices : List Vertex) (v : ℕ) : Decidable (IsVirtnode vertices v) :=
  inferInstanceAs (Decidable (_ = _))

/-- `int_vn` of a vertex. -/
def vnOf (vertices : List Vertex) (v : ℕ) : ℕ := (vertices[v]?.map Vertex.vn).getD 0

/-! ## Virtual nodes and hosts -/

/-- The subnets while the virtual nodes are dealt out. -/
structure Filling where
  subnetOf : ℕ → Option ℕ
  virtnode : ℕ → List ℕ
  intNodes : ℕ → ℕ
  maxsubnet : ℕ
  subnetidx : ℕ

def Filling.empty : Filling := ⟨fun _ => none, fun _ => [], fun _ => 0, 0, 0⟩

/-- A virtual node goes to the subnet whose turn it is. -/
def Filling.push (hostcnt : ℕ) (f : Filling) (v : ℕ) : Filling :=
  let intNodes := Function.update f.intNodes f.subnetidx (f.intNodes f.subnetidx + 1)
  { subnetOf := Function.update f.subnetOf v (some f.subnetidx)
    virtnode := Function.update f.virtnode f.subnetidx (f.virtnode f.subnetidx ++ [v])
    intNodes := intNodes
    maxsubnet := if f.maxsubnet < intNodes f.subnetidx then f.maxsubnet + 1 else f.maxsubnet
    subnetidx := (f.subnetidx + 1) % hostcnt }

/-- The loop over the vertices. -/
def fillSubnets (vertices : List Vertex) (hostcnt : ℕ) (order : List ℕ) : Filling :=
  order.foldl
    (fun f v => if IsVirtnode vertices v then f.push hostcnt v else f) Filling.empty

/-! ## Addresses -/

/-- The loop of `subnetshift`, with the number of turns that it may take. -/
def growShift (size : ℕ) : ℕ → ℕ → ℕ
  | 0, shift => shift
  | turns + 1, shift => if 1 <<< shift < size then growShift size turns (shift + 1) else shift

def subnetshift (size : ℕ) : ℕ := growShift size size 1

/-- The network, its mask and its broadcast address. -/
structure SubnetAddr where
  vnet : BitVec 32
  subnetbits : ℤ
  vmask : BitVec 32
  vbcst : BitVec 32

/-- The addresses given out so far, and the number of the next network. -/
structure Addressing where
  idx : ℕ
  addr : ℕ → Option SubnetAddr
  vip : ℕ → Option (BitVec 32)

/-- The nodes of a subnet get the addresses after `ip`. -/
def numberNodes (vip : ℕ → Option (BitVec 32)) (ip : ℕ) : List ℕ → ℕ → Option (BitVec 32)
  | [] => vip
  | vn :: vns => numberNodes (Function.update vip vn (some (BitVec.ofNat 32 (ip + 1)))) (ip + 1) vns

/-- `sort {$a->{int_vn} <=> $b->{int_vn}}`. -/
def sortByVn (vertices : List Vertex) (nodes : List ℕ) : List ℕ :=
  nodes.insertionSort fun a b => vnOf vertices a ≤ vnOf vertices b

/-- The body of the loop over the subnets. Subnets without nodes are passed over. -/
def addressSubnet (vertices : List Vertex) (f : Filling) (shift : ℕ) (a : Addressing) (i : ℕ) :
    Addressing :=
  if f.virtnode i = [] then a
  else
    let ip := 0xa000000 + a.idx <<< shift
    let net := BitVec.ofNat 32 ip
    let mask := ~~~BitVec.ofNat 32 (1 <<< shift - 1)
    { idx := a.idx + 1
      addr := Function.update a.addr i (some ⟨net, 32 - shift, mask, net ||| ~~~mask⟩)
      vip := numberNodes a.vip ip (sortByVn vertices (f.virtnode i)) }

/-- The loop over the subnets. -/
def addressSubnets (vertices : List Vertex) (f : Filling) (hostcnt : ℕ) : Addressing :=
  -- room for the addresses of the network and of the broadcast
  let shift := subnetshift (f.maxsubnet + 2)
  (List.range hostcnt).foldl (addressSubnet vertices f shift) ⟨0, fun _ => none, fun _ => none⟩

/-! ## Edges and emulators -/

structure ModelHop where
  edge : Edge
  intEmul : ℕ
  deriving DecidableEq

/-- The emulator that each subnet is bound to, the hosts listed under each emulator, the emulator
whose turn it is, and the hops. -/
structure Assignment where
  fwd : ℕ → Option ℕ
  host : ℕ → List ℕ
  next : ℕ
  hops : List ModelHop

def bind (a : Assignment) (fwd subnet : ℕ) : Assignment :=
  match a.fwd subnet with
  | some _ => a
  | none =>
    { a with
      fwd := Function.update a.fwd subnet (some fwd)
      host := Function.update a.host fwd (a.host fwd ++ [subnet]) }

/-- `bind` for the subnet of a vertex; a vertex that is no virtual node has none. -/
def bindEnd (a : Assignment) (fwd : ℕ) : Option ℕ → Assignment
  | some subnet => bind a fwd subnet
  | none => a

/-- The body of the loop over the edges, for an edge of the graph. -/
def assignHop (fwdcnt : ℕ) (subnetOf : ℕ → Option ℕ) (a : Assignment) (e : ℕ × ℕ) (edge : Edge) :
    Assignment :=
  let known := (subnetOf e.1).bind a.fwd <|> (subnetOf e.2).bind a.fwd
  let fwd := known.getD a.next
  let a := { a with next := (if known.isSome then a.next else a.next + 1) % fwdcnt }
  let a := bindEnd (bindEnd a fwd (subnetOf e.1)) fwd (subnetOf e.2)
  { a with hops := a.hops ++ [⟨edge, fwd⟩] }

/-- The body of the loop over the edges. -/
def assignEdge (g : Graph) (fwdcnt : ℕ) (subnetOf : ℕ → Option ℕ) (a : Assignment) (e : ℕ × ℕ) :
    Assignment :=
  match g.hash e with
  | some edge => assignHop fwdcnt subnetOf a e edge
  | none => a

/-- The loop over the edges. -/
def assignEdges (g : Graph) (fwdcnt : ℕ) (subnetOf : ℕ → Option ℕ) (order : List (ℕ × ℕ)) :
    Assignment :=
  order.foldl (assignEdge g fwdcnt subnetOf) ⟨fun _ => none, fun _ => [], 0, []⟩

/-! ## The model -/

structure ModelVirtnode where
  idx : ℕ
  vn : ℕ
  vip : Option (BitVec 32)

structure ModelSubnet where
  intEmul : ℕ
  intNodes : ℕ
  addr : Option SubnetAddr
  virtnode : List ModelVirtnode

/-- A `host` element, with its number in the machines file. -/
structure ModelHost where
  number : ℕ
  hostname : String
  subnet : ModelSubnet

structure ModelEmul where
  hostname : String
  intIdx : ℕ
  host : List ModelHost

/-- What `mkmodel` prints. -/
structure Model where
  specs : String → HopParams
  hops : List ModelHop
  emul : List ModelEmul

def modelVirtnode (vertices : List Vertex) (a : Addressing) (v : ℕ) : ModelVirtnode where
  idx := (vertices[v]?.map Vertex.idx).getD 0
  vn := vnOf vertices v
  vip := a.vip v

/-- The element of a subnet. The emulators are dealt out to the subnets in turn first. -/
def modelSubnet (vertices : List Vertex) (fwdcnt : ℕ) (f : Filling) (a : Addressing) (i : ℕ) :
    ModelSubnet where
  intEmul := i % fwdcnt
  intNodes := f.intNodes i
  addr := a.addr i
  virtnode := (f.virtnode i).map (modelVirtnode vertices a)

section Mkmodel

variable (t : Topology) (m : Machines) {g : Graph} (visits : Visits g)

def filling : Filling := fillSubnets g.vertices m.hosts.length visits.vertices

def addressing : Addressing :=
  addressSubnets g.vertices (filling m visits) m.hosts.length

/-- The emulators that `mkmodel` decides on. -/
def assignment : Assignment :=
  assignEdges g m.emuls.length (filling m visits).subnetOf visits.edges

/-- The element of a host, with its subnet. -/
def modelHost (i : ℕ) : ModelHost where
  number := i
  hostname := m.hosts.getD i ""
  subnet := modelSubnet g.vertices m.emuls.length (filling m visits) (addressing m visits) i

/-- `mkmodel`, for the graph that `readxmlgraph` has read. -/
def mkmodel : Model where
  specs := t.specs
  hops := (assignment m visits).hops
  emul := m.emuls.zipIdx.map fun (hostname, k) =>
    ⟨hostname, k, ((assignment m visits).host k).map (modelHost m visits)⟩

end Mkmodel

end Modelnet.Scripts

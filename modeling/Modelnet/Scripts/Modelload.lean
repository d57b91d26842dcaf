import Modelnet.Hop
import Modelnet.PathTab
import Modelnet.Scripts.Mkmodel

/-!
# `modelload`

`modelload` reads a model on the machine of an emulator and writes the hop table and the node table
of the kernel. Numbers are packed into 32 bits (`pack "L"`); what no element of the file fills in an
array is packed as 0. `gethostbyname` is the function `resolve`.
-/

namespace Modelnet.Scripts

/-- `int` of a number, packed. -/
def packL (x : ℚ) : Int32 := Int32.ofInt (x.num.tdiv x.den)

/-! ## The hop table -/

/-- The parameters of a hop: its own, and those of its class where it has none. -/
def HopParams.orSpecs (own specs : HopParams) : HopParams where
  kbps := own.kbps <|> specs.kbps
  delayms := own.delayms <|> specs.delayms
  plr := own.plr <|> specs.plr
  qlen := own.qlen <|> specs.qlen
  xtq := own.xtq <|> specs.xtq

/-- The record of a hop with these parameters; `int_xtq` is 0 where it is missing. -/
def HopParams.record (p : HopParams) (owner : BitVec 32) : SysctlHop where
  bandwidth := packL (p.kbps.getD 0)
  delay := packL (p.delayms.getD 0)
  plr := packL (0x7fffffff * p.plr.getD 0)
  qsize := packL (p.qlen.getD 0)
  emulator := owner
  xtqType := packL (p.xtq.getD 0)

def zeroRecord : SysctlHop := HopParams.none.record 0

/-- `$fwds[$fwd->{int_idx}] = $fwd`, of which only the name is used. -/
def addFwd (fwds : ℕ → Option String) (emul : ModelEmul) : ℕ → Option String :=
  Function.update fwds emul.intIdx (some emul.hostname)

/-- `$fwds[k]->{hostname}`. -/
def emulName (model : Model) (k : ℕ) : String :=
  (model.emul.foldl addFwd (fun _ => none) k).getD ""

def ipaddr (resolve : String → BitVec 32) (name : String) : BitVec 32 :=
  if name = "" then 0 else resolve name

/-- The owner field of a hop on the machine `hostname`. -/
def hopOwner (resolve : String → BitVec 32) (hostname : String) (model : Model) (hop : ModelHop) :
    BitVec 32 :=
  let owner := ipaddr resolve (emulName model hop.intEmul)
  if ipaddr resolve hostname = owner then 0 else owner

def hopRecord (resolve : String → BitVec 32) (hostname : String) (model : Model) (hop : ModelHop) :
    SysctlHop :=
  (hop.edge.params.orSpecs (model.specs hop.edge.specs)).record
    (hopOwner resolve hostname model hop)

/-- `@hoptable`: its length, and its records. -/
structure HopTable where
  length : ℕ
  record : ℕ → SysctlHop

/-- The slice of `@hoptable` for a hop is filled. -/
def HopTable.fill (tab : HopTable) (idx : ℕ) (r : SysctlHop) : HopTable where
  length := max tab.length (idx + 1)
  record := Function.update tab.record idx r

@[simp] theorem HopTable.fill_record_self (tab : HopTable) (idx : ℕ) (r : SysctlHop) :
    (tab.fill idx r).record idx = r := Function.update_self ..

theorem HopTable.fill_record_ne (tab : HopTable) {idx i : ℕ} (h : i ≠ idx) (r : SysctlHop) :
    (tab.fill idx r).record i = tab.record i := Function.update_of_ne h ..

def loadhoptable (resolve : String → BitVec 32) (hostname : String) (model : Model) : HopTable :=
  model.hops.foldl
    (fun tab hop => tab.fill hop.edge.idx (hopRecord resolve hostname model hop))
    ⟨0, fun _ => zeroRecord⟩

/-! ## The node table -/

/-- The virtual nodes in the order of the file. -/
def Model.virtnodes (model : Model) : List ModelVirtnode :=
  model.emul.flatMap fun emul => emul.host.flatMap fun host => host.subnet.virtnode

/-- `@virtnodes`: its length, and what it holds. -/
structure VnArray where
  length : ℕ
  node : ℕ → Option ModelVirtnode

/-- `$virtnodes[$virtnode->{int_vn}] = $virtnode`. -/
def VnArray.put (a : VnArray) (node : ModelVirtnode) : VnArray where
  length := max a.length (node.vn + 1)
  node := Function.update a.node node.vn (some node)

/-- The array of all virtual nodes. -/
def vnArray (nodes : List ModelVirtnode) : VnArray :=
  nodes.foldl VnArray.put ⟨0, fun _ => none⟩

/-- One of the four numbers of a dotted address. -/
def octet (ip : BitVec 32) (i : ℕ) : ℕ := (ip >>> (24 - 8 * i)).toNat % 256

/-- `($octets[2]<<8)+$octets[3]`; without an address both are 0. -/
def tableIndex : Option (BitVec 32) → ℕ
  | some vip => octet vip 2 <<< 8 + octet vip 3
  | none => 0

/-- The body of the loop over `@virtnodes`, which also passes over the places that hold nothing. -/
def addNode (node : ℕ → Option ModelVirtnode) (table : ℕ → Int32) (i : ℕ) : ℕ → Int32 :=
  match node i with
  | some vn => Function.update table (tableIndex vn.vip) (Int32.ofNat vn.vn)
  | none => Function.update table 0 0

/-- The node table that `loadpathtable` writes. -/
def nodetableOf (nodes : List ModelVirtnode) : ℕ → Int32 :=
  (List.range (vnArray nodes).length).foldl (addNode (vnArray nodes).node) fun _ => -1

def loadnodetable (model : Model) : ℕ → Int32 := nodetableOf model.virtnodes

end Modelnet.Scripts

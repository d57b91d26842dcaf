import Modelnet.Hop

/-!
# The tables

The variables of `mn_pathtable.c`, the same in both modules: the node table, the hop table, and
the table of paths, with the memory behind them. A hop is addressed by the block of its table and
an index; a position of a path by the block of its array and an offset. Reading a freed block or
outside a block is a fault (`none`). Addresses are in host order, so that `ntohl` is the identity
and the masks are the unswapped constants.
-/

namespace Modelnet

/-- `hoptable + idx`, for the table allocated in block `tab`. -/
structure HopPtr where
  tab : ℕ
  idx : ℤ
  deriving DecidableEq, Repr

/-- A position in the path array allocated in block `arr`. -/
structure PathPtr where
  arr : ℕ
  off : ℕ
  deriving DecidableEq, Repr

/-- The memory behind `pathtable`: the block of the array of rows, the blocks of the rows allocated
so far, and the cells, `dim` in a row. A cell is the block of a path array or null. -/
structure PathRows where
  base : ℕ
  rows : List ℕ
  dim : ℕ
  cell : ℕ → ℕ → Option ℕ

/-- The tables and the blocks they point to. Blocks are numbered in the order of their allocation;
`freed` lists the blocks given back. -/
structure PathTab where
  nodetable : ℕ → Int32
  hopcount : ℤ
  hoptable : Option ℕ
  nodecount : ℤ
  pathtable : Option PathRows
  hops : HopPtr → Option Hop
  pathArrs : ℕ → Option (List (Option HopPtr))
  nextBlock : ℕ
  freed : List ℕ

def nodemask : BitVec 32 := 0xffff

/-- The tables of a module just loaded. -/
def PathTab.empty : PathTab where
  nodetable := fun _ => 0
  hopcount := 0
  hoptable := none
  nodecount := 0
  pathtable := none
  hops := fun _ => none
  pathArrs := fun _ => none
  nextBlock := 0
  freed := []

/-- What `lookup_path` does: give up, or read a cell of `pathtable`. -/
inductive Lookup where
  | noPath
  | cell (row col : ℤ)
  deriving DecidableEq, Repr

namespace PathTab

/-- The choice made by `lookup_path`. -/
def lookupPath (t : PathTab) (src dst : BitVec 32) : Lookup :=
  let srcid := (t.nodetable (src &&& nodemask).toNat).toInt
  let dstid := (t.nodetable (dst &&& nodemask).toNat).toInt
  if srcid = -1 ∨ dstid = -1 ∨ t.pathtable.isNone then .noPath else .cell srcid dstid

/-- `pathtable[row][col]`. -/
def readCell (t : PathTab) (row col : ℤ) : Option (Option ℕ) :=
  t.pathtable.bind fun rows =>
    if 0 ≤ row ∧ row < rows.dim ∧ 0 ≤ col ∧ col < rows.dim then
      some (rows.cell row.toNat col.toNat)
    else none

/-- `*path`: a hop, or the null that ends the path. -/
def readPath (t : PathTab) (path : PathPtr) : Option (Option HopPtr) :=
  (t.pathArrs path.arr).bind fun cells => cells[path.off]?

def setHop (t : PathTab) (h : HopPtr) (hop : Hop) : PathTab :=
  { t with hops := Function.update t.hops h (some hop) }

end PathTab

end Modelnet

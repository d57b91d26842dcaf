import Modelnet.PathTab

/-!
# Changing the tables

What the handlers of `mn_pathtable.c` have in common in both modules, with the outcome of every
allocation as an argument: freeing the paths, freeing the hops, resizing the path table, loading a
hop table, and storing a path. An allocation of a negative size is one of a huge unsigned size
and fails.
-/

namespace Modelnet

/-! ## Byte-wise writes to the node table -/

/-- Byte `j` of an `int`. -/
def int32Byte (x : Int32) (j : ℕ) : BitVec 8 := x.toBitVec.extractLsb' (8 * j) 8

/-- The `int` of four bytes. -/
def int32OfBytes (b : ℕ → BitVec 8) : Int32 := ⟨⟨b 3 ++ b 2 ++ b 1 ++ b 0⟩⟩

/-- `EFAULT`, `EINVAL` and `ENOMEM`. -/
def efault : ℤ := 14

def einval : ℤ := 22

def enomem : ℤ := 12

/-- What a handler returns, with the cell of `pathtable` that it has written. -/
structure Handled where
  tab : PathTab
  ret : ℤ
  written : Option (ℤ × ℤ)

namespace PathTab

/-- `memcpy(((void *)nodetable) + pos, bytes)`. -/
def writeNodetable (t : PathTab) (pos : ℕ) (bytes : List (BitVec 8)) : PathTab :=
  { t with
    nodetable := fun n => int32OfBytes fun j =>
      if pos ≤ 4 * n + j then (bytes[4 * n + j - pos]?).getD (int32Byte (t.nodetable n) j)
      else int32Byte (t.nodetable n) j }

/-! ## Blocks -/

/-- A block is allocated: `t.nextBlock`. -/
def alloc (t : PathTab) : PathTab := { t with nextBlock := t.nextBlock + 1 }

def kfree (t : PathTab) (b : ℕ) : PathTab :=
  { t with pathArrs := Function.update t.pathArrs b none, freed := t.freed ++ [b] }

/-! ## Freeing -/

/-- The path arrays in the cells below `n`, row by row. -/
def pathBlocks (rows : PathRows) (n : ℕ) : List ℕ :=
  (List.range n).flatMap fun i => (List.range n).filterMap fun j => rows.cell i j

def freePath (t : PathTab) : PathTab :=
  let t := match t.pathtable with
    | some rows =>
      if t.nodecount ≠ 0 then
        let n := t.nodecount.toNat
        (((pathBlocks rows n).foldl kfree t |> (rows.rows.take n).foldl kfree)).kfree rows.base
      else t
    | none => t
  { t with pathtable := none, nodecount := 0 }

/-- `uninit_paths`. The hops go with the two arrays of each of them. -/
def uninitPaths (t : PathTab) : PathTab :=
  let t := t.freePath
  let t := match t.hoptable with
    | some b =>
      { t with hops := fun ptr => if ptr.tab = b then none else t.hops ptr, freed := t.freed ++ [b] }
    | none => t
  { t with hoptable := none, hopcount := 0 }

/-! ## Resizing the path table -/

/-- The loop over the rows; `m` of them are left. A failure frees what `nodecount = i - 1` covers. -/
def allocRows (rowOk : ℕ → Bool) : ℕ → PathTab → PathRows → PathTab × Bool
  | 0, t, rows => ({ t with pathtable := some rows }, true)
  | m + 1, t, rows =>
    let i := rows.rows.length
    if rowOk i then
      allocRows rowOk m t.alloc { rows with rows := rows.rows ++ [t.nextBlock] }
    else (freePath { t with pathtable := some rows, nodecount := i - 1 }, false)

/-- The old table is freed and one of `newcount` rows allocated. -/
def resize (t : PathTab) (newcount : ℤ) (tableOk : Bool) (rowOk : ℕ → Bool) : PathTab × Bool :=
  let t := { t.freePath with nodecount := newcount }
  if tableOk && decide (0 ≤ newcount) then
    allocRows rowOk newcount.toNat t.alloc
      { base := t.nextBlock, rows := [], dim := newcount.toNat, cell := fun _ _ => none }
  else (t.freePath, false)

/-! ## Loading a hop table -/

/-- The loop over the hops from hop `i` on; `m` of them are left. -/
def loadHops (hz b : ℕ) (hops : ℕ → SysctlHop) (exittickOk slotlenOk : ℕ → Bool) :
    ℕ → ℕ → PathTab → PathTab × Bool
  | 0, _, t => (t, true)
  | m + 1, i, t =>
    let hop := Hop.zero.configure hz i (hops i)
    if exittickOk i && decide (0 ≤ hop.qsize) then
      let hop := { hop with exittickAlloc := true }
      if slotlenOk i && decide (0 ≤ hop.qsize) then
        loadHops hz b hops exittickOk slotlenOk m (i + 1)
          (t.setHop ⟨b, i⟩ { hop with slotlenAlloc := true })
      else (t.setHop ⟨b, i⟩ hop, false)
    else (t.setHop ⟨b, i⟩ hop, false)

/-- The old tables are freed, and a zeroed table of `hopcount` hops is allocated and loaded. -/
def loadHoptable (hz : ℕ) (t : PathTab) (hopcount : ℤ) (hops : ℕ → SysctlHop) (tableOk : Bool)
    (exittickOk slotlenOk : ℕ → Bool) : PathTab × Bool :=
  let t := t.uninitPaths
  if tableOk then
    let b := t.nextBlock
    loadHops hz b hops exittickOk slotlenOk hopcount.toNat 0
      { t.alloc with
        hoptable := some b
        hopcount := hopcount
        hops := fun ptr => if ptr.tab = b ∧ 0 ≤ ptr.idx ∧ ptr.idx < hopcount then some Hop.zero
          else t.hops ptr }
  else (t, false)

/-! ## Storing a path -/

/-- `pathtable[row][col] = v`. A write outside of the table does not change the tables (what it
does change is not modelled). -/
def writeCell (t : PathTab) (row col : ℤ) (v : Option ℕ) : PathTab :=
  match t.pathtable with
  | some rows =>
    if 0 ≤ row ∧ row < rows.dim ∧ 0 ≤ col ∧ col < rows.dim then
      { t with
        pathtable := some { rows with
          cell := fun i j => if i = row.toNat ∧ j = col.toNat then v else rows.cell i j } }
    else t
  | none => t

/-- The contents of a path array: `hoptable + h` for each index, and the null. -/
def pathCells (hoptab : ℕ) (hops : List Int32) : List (Option HopPtr) :=
  hops.map (fun h => some ⟨hoptab, h.toInt⟩) ++ [none]

/-- A path array for the hop indices is allocated, stored in the cell and filled. A path that was
there is not freed. -/
def storePath (t : PathTab) (hoptab : ℕ) (srcNode dstNode : ℤ) (hops : List Int32)
    (pathOk : Bool) : PathTab × Bool :=
  if pathOk then
    let arr := t.nextBlock
    ({ t.alloc with
        pathArrs := Function.update t.pathArrs arr (some (pathCells hoptab hops)) }.writeCell
      srcNode dstNode (some arr), true)
  else (t.writeCell srcNode dstNode none, false)

end PathTab

end Modelnet

import Modelnet.Linux.PathTable
import Modelnet.FreeBSD.PathTable
import Modelnet.Lib.Run

/-!
# Index safety of the tables

The tables are safe when every lookup and every store hits a cell of `pathtable` and every hop of
a path is one of `hoptable` (`PathTab.Safe`, `Handled.Safe`). The handlers do not see to it: the
entries of the node table and the hop indices are not checked, and `src_node` and `dst_node` are
compared with `nodecount` by `>`, and not with 0. The tables stay safe exactly when the writes
themselves are within bounds (`InBounds`).
-/

namespace Modelnet

open PartialRun

/-- The entries of a node table are -1 or below `n`. -/
def NodesBelow (nodetable : ℕ → Int32) (n : ℤ) : Prop :=
  ∀ i < 0x10000, (nodetable i).toInt = -1 ∨ 0 ≤ (nodetable i).toInt ∧ (nodetable i).toInt < n

namespace PathTab

/-- A row or a column of `pathtable`. -/
def IsNode (t : PathTab) (i : ℤ) : Prop := 0 ≤ i ∧ i < t.nodecount

/-- `hoptable + h` is a hop. -/
def IsHop (t : PathTab) (h : ℤ) : Prop := 0 ≤ h ∧ h < t.hopcount

/-- Lookups index `pathtable` within bounds, and the paths in it name hops of `hoptable`. -/
structure Safe (t : PathTab) : Prop where
  lookup : ∀ src dst row col, t.lookupPath src dst = .cell row col → t.IsNode row ∧ t.IsNode col
  hops : ∀ row col arr cells, t.readCell row col = some (some arr) → t.pathArrs arr = some cells →
    ∀ ptr, some ptr ∈ cells → t.hoptable = some ptr.tab ∧ t.IsHop ptr.idx

/-- `pathtable` is `nodecount` by `nodecount`. -/
def Square (t : PathTab) : Prop := ∀ rows, t.pathtable = some rows → (rows.dim : ℤ) = t.nodecount

variable {t : PathTab}

theorem safe_of_none (h : t.pathtable = none) : t.Safe ∧ t.Square := by
  refine ⟨⟨fun src dst row col hl => ?_, fun row col arr cells hr => ?_⟩, fun rows hr => ?_⟩
  · unfold lookupPath at hl
    dsimp only at hl
    rw [if_pos (Or.inr (Or.inr (by rw [h]; rfl)))] at hl
    cases hl
  · unfold readCell at hr
    rw [h] at hr
    cases hr
  · rw [h] at hr
    cases hr

theorem toNat_and_nodemask {i : ℕ} (h : i < 0x10000) :
    (BitVec.ofNat 32 i &&& nodemask).toNat = i := by
  rw [BitVec.toNat_and, BitVec.toNat_ofNat, Nat.mod_eq_of_lt (h.trans (by decide))]
  show i &&& (2 ^ 16 - 1) = i
  rw [Nat.and_two_pow_sub_one_eq_mod, Nat.mod_eq_of_lt h]

/-- **Lookups** are within bounds when the node table is. -/
theorem lookup_safe_iff {rows : PathRows} (h : t.pathtable = some rows) :
    (∀ src dst row col, t.lookupPath src dst = .cell row col → t.IsNode row ∧ t.IsNode col) ↔
      NodesBelow t.nodetable t.nodecount := by
  have hsome : t.pathtable.isNone = false := by rw [h]; rfl
  constructor
  · intro hl i hi
    refine or_iff_not_imp_left.mpr fun hne => ?_
    have hself := hl (BitVec.ofNat 32 i) (BitVec.ofNat 32 i) (t.nodetable i).toInt
      (t.nodetable i).toInt
    refine (hself ?_).1
    unfold lookupPath
    rw [toNat_and_nodemask hi, if_neg]
    rw [hsome]
    simp [hne]
  · intro hn src dst row col hl
    have hbelow : ∀ a : BitVec 32, (a &&& nodemask).toNat < 0x10000 := by
      intro a
      have hmask : nodemask.toNat < 2 ^ 16 := by decide
      rw [BitVec.toNat_and]
      exact Nat.and_lt_two_pow _ hmask
    unfold lookupPath at hl
    dsimp only at hl
    split_ifs at hl with hno
    rw [not_or, not_or] at hno
    obtain ⟨rfl, rfl⟩ := Lookup.cell.inj hl
    exact ⟨(hn _ (hbelow src)).resolve_left hno.1, (hn _ (hbelow dst)).resolve_left hno.2.1⟩

theorem Safe.nodesBelow (h : t.Safe) (hsome : t.pathtable.isSome) :
    NodesBelow t.nodetable t.nodecount := by
  obtain ⟨rows, hrows⟩ := Option.isSome_iff_exists.mp hsome
  exact (lookup_safe_iff hrows).mp h.lookup

/-- Safety of a table whose paths are known to be right is a matter of its node table. -/
theorem safe_iff_nodesBelow (hhops : ∀ row col arr cells, t.readCell row col = some (some arr) →
      t.pathArrs arr = some cells → ∀ ptr, some ptr ∈ cells →
        t.hoptable = some ptr.tab ∧ t.IsHop ptr.idx) :
    t.Safe ↔ (t.pathtable.isSome → NodesBelow t.nodetable t.nodecount) := by
  refine ⟨Safe.nodesBelow, fun h => ?_⟩
  cases hrows : t.pathtable with
  | none => exact (safe_of_none hrows).1
  | some rows => exact ⟨(lookup_safe_iff hrows).mpr (h (by rw [hrows]; rfl)), hhops⟩

/-! ## The node table -/

theorem writeNodetable_safe_iff (h : t.Safe) (pos : ℕ) (bytes : List (BitVec 8)) :
    (t.writeNodetable pos bytes).Safe ↔
      (t.pathtable.isSome → NodesBelow (t.writeNodetable pos bytes).nodetable t.nodecount) :=
  safe_iff_nodesBelow (t := t.writeNodetable pos bytes) h.hops

/-! ## Resizing -/

theorem freePath_frame (t : PathTab) :
    t.freePath.pathtable = none ∧ t.freePath.nodetable = t.nodetable ∧
      t.freePath.hoptable = t.hoptable ∧ t.freePath.hopcount = t.hopcount ∧
      t.freePath.hops = t.hops := by
  have hfold : ∀ (bs : List ℕ) (t : PathTab), (bs.foldl kfree t).nodetable = t.nodetable ∧
      (bs.foldl kfree t).hoptable = t.hoptable ∧ (bs.foldl kfree t).hopcount = t.hopcount ∧
      (bs.foldl kfree t).hops = t.hops := by
    intro bs
    induction bs with
    | nil => exact fun t => ⟨rfl, rfl, rfl, rfl⟩
    | cons b bs ih => exact fun t => ih (t.kfree b)
  unfold freePath
  cases t.pathtable with
  | none => exact ⟨rfl, rfl, rfl, rfl, rfl⟩
  | some rows =>
    dsimp only
    by_cases hn : t.nodecount ≠ 0
    · rw [if_pos hn]
      obtain ⟨h1, h2, h3, h4⟩ := hfold (pathBlocks rows t.nodecount.toNat) t
      obtain ⟨h5, h6, h7, h8⟩ := hfold (rows.rows.take t.nodecount.toNat)
        ((pathBlocks rows t.nodecount.toNat).foldl kfree t)
      exact ⟨rfl, h5.trans h1, h6.trans h2, h7.trans h3, h8.trans h4⟩
    · rw [if_neg hn]
      exact ⟨rfl, rfl, rfl, rfl, rfl⟩

theorem allocRows_of_ok {rowOk : ℕ → Bool} {m : ℕ} {t' : PathTab} {rows : PathRows}
    (h : allocRows rowOk m t rows = (t', true)) :
    (∃ rows', t'.pathtable = some rows' ∧ rows'.dim = rows.dim ∧ rows'.cell = rows.cell) ∧
      t'.nodetable = t.nodetable ∧ t'.nodecount = t.nodecount := by
  induction m generalizing t rows with
  | zero =>
    cases h
    exact ⟨⟨rows, rfl, rfl, rfl⟩, rfl, rfl⟩
  | succ m ih =>
    unfold allocRows at h
    dsimp only at h
    split_ifs at h with hok
    · obtain ⟨hrows, hnodes, hcount⟩ := ih h
      exact ⟨hrows, hnodes, hcount⟩
    · exact absurd (Prod.mk.inj h).2 (by decide)

theorem resize_of_ok {newcount : ℤ} {tableOk : Bool} {rowOk : ℕ → Bool} {t' : PathTab}
    (h : t.resize newcount tableOk rowOk = (t', true)) :
    (∃ rows, t'.pathtable = some rows ∧ (rows.dim : ℤ) = newcount ∧ ∀ i j, rows.cell i j = none) ∧
      t'.nodetable = t.nodetable ∧ t'.nodecount = newcount := by
  obtain ⟨-, hnodes, -⟩ := freePath_frame t
  unfold resize at h
  dsimp only at h
  split_ifs at h with hok
  · rw [Bool.and_eq_true, decide_eq_true_iff] at hok
    obtain ⟨⟨rows, hrows, hdim, hcell⟩, hnodes', hcount⟩ := allocRows_of_ok h
    refine ⟨⟨rows, hrows, ?_, fun i j => ?_⟩, hnodes'.trans hnodes, hcount⟩
    · rw [hdim]
      exact Int.toNat_of_nonneg hok.2
    · rw [hcell]
  · exact absurd (Prod.mk.inj h).2 (by decide)

theorem resize_safe_iff {newcount : ℤ} {tableOk : Bool} {rowOk : ℕ → Bool} {t' : PathTab}
    (h : t.resize newcount tableOk rowOk = (t', true)) :
    (t'.Safe ↔ NodesBelow t.nodetable newcount) ∧ t'.Square := by
  obtain ⟨⟨rows, hrows, hdim, hcell⟩, hnodes, hcount⟩ := resize_of_ok h
  constructor
  · rw [safe_iff_nodesBelow fun row col arr cells hread => ?_, hnodes, hcount]
    · exact ⟨fun h => h (by rw [hrows]; rfl), fun h _ => h⟩
    · unfold readCell at hread
      rw [hrows, Option.bind_some] at hread
      split_ifs at hread
      rw [hcell] at hread
      cases hread
  · intro rows' hrows'
    rw [← Option.some.inj (hrows.symm.trans hrows'), hcount]
    exact hdim

/-! ## Loading hops -/

theorem loadHops_pathtable {hz b : ℕ} {hops : ℕ → SysctlHop} {exittickOk slotlenOk : ℕ → Bool}
    {m i : ℕ} : (loadHops hz b hops exittickOk slotlenOk m i t).1.pathtable = t.pathtable := by
  induction m generalizing i t with
  | zero => rfl
  | succ m ih =>
    unfold loadHops
    dsimp only
    split_ifs
    · rw [ih]
      rfl
    · rfl
    · rfl

theorem loadHoptable_pathtable (hz : ℕ) (t : PathTab) (hopcount : ℤ) (hops : ℕ → SysctlHop)
    (tableOk : Bool) (exittickOk slotlenOk : ℕ → Bool) :
    (t.loadHoptable hz hopcount hops tableOk exittickOk slotlenOk).1.pathtable = none := by
  have huninit : t.uninitPaths.pathtable = none := by
    obtain ⟨hnone, -⟩ := freePath_frame t
    unfold uninitPaths
    dsimp only
    split <;> exact hnone
  unfold loadHoptable
  dsimp only
  split_ifs
  · rw [loadHops_pathtable]
    exact huninit
  · exact huninit

/-! ## Storing a path -/

theorem mem_pathCells {hoptab : ℕ} {hops : List Int32} {ptr : HopPtr} :
    some ptr ∈ pathCells hoptab hops ↔ ∃ h ∈ hops, ptr = ⟨hoptab, h.toInt⟩ := by
  unfold pathCells
  simp [eq_comm]

/-- **Storing a path** within the table leaves it safe exactly when its hops are hops. -/
theorem storePath_safe_iff {hoptab : ℕ} {srcNode dstNode : ℤ} {hops : List Int32}
    {pathOk : Bool} (hhop : t.hoptable = some hoptab) (hsome : t.pathtable.isSome)
    (hsafe : t.Safe) (hsquare : t.Square) (hsrc : t.IsNode srcNode) (hdst : t.IsNode dstNode)
    (h : (t.alloc.storePath hoptab srcNode dstNode hops pathOk).2 = true) :
    let t' := (t.alloc.storePath hoptab srcNode dstNode hops pathOk).1.kfree t.nextBlock
    (t'.Safe ↔ ∀ h ∈ hops, t.IsHop h.toInt) ∧ t'.Square := by
  intro t'
  obtain ⟨rows, hrows⟩ := Option.isSome_iff_exists.mp hsome
  have hdim := hsquare rows hrows
  have hin : 0 ≤ srcNode ∧ srcNode < rows.dim ∧ 0 ≤ dstNode ∧ dstNode < rows.dim := by
    unfold IsNode at hsrc hdst
    omega
  have ht : t' = { t.alloc.alloc with
      pathArrs := Function.update t.pathArrs (t.nextBlock + 1) (some (pathCells hoptab hops))
      pathtable := some { rows with
        cell := fun i j => if i = srcNode.toNat ∧ j = dstNode.toNat then some (t.nextBlock + 1)
          else rows.cell i j } }.kfree t.nextBlock := by
    have hpath : pathOk = true := by
      unfold storePath at h
      split_ifs at h with hpath
      exact hpath
    unfold t' storePath writeCell
    dsimp only
    rw [if_pos hpath, show t.alloc.alloc.pathtable = some rows from hrows]
    dsimp only
    rw [if_pos hin]
    rfl
  rw [ht]
  clear_value t'
  refine ⟨⟨fun hsafe' => ?_, fun hops_ok => ⟨?_, ?_⟩⟩, fun rows' hrows' => ?_⟩
  · intro x hx
    have hptr : some (HopPtr.mk hoptab x.toInt) ∈ pathCells hoptab hops :=
      mem_pathCells.mpr ⟨x, hx, rfl⟩
    refine (hsafe'.hops srcNode dstNode (t.nextBlock + 1) (pathCells hoptab hops) ?_ ?_ _ hptr).2
    · unfold readCell kfree
      dsimp only
      rw [Option.bind_some, if_pos hin]
      dsimp only
      rw [if_pos ⟨rfl, rfl⟩]
    · unfold kfree
      dsimp only
      rw [Function.update_of_ne (Nat.succ_ne_self _), Function.update_self]
  · exact (lookup_safe_iff (t := _) rfl).mpr (hsafe.nodesBelow hsome)
  · intro row col arr cells hread hcells ptr hptr
    unfold kfree at hcells
    dsimp only at hcells
    have harr : arr ≠ t.nextBlock := by
      rintro rfl
      rw [Function.update_self] at hcells
      cases hcells
    rw [Function.update_of_ne harr] at hcells
    by_cases hnewarr : arr = t.nextBlock + 1
    · rw [hnewarr, Function.update_self] at hcells
      cases hcells
      obtain ⟨x, hx, rfl⟩ := mem_pathCells.mp hptr
      exact ⟨hhop, hops_ok x hx⟩
    · rw [Function.update_of_ne hnewarr] at hcells
      refine hsafe.hops row col arr cells ?_ hcells ptr hptr
      unfold readCell kfree at hread
      dsimp only at hread
      rw [Option.bind_some] at hread
      dsimp only at hread
      unfold readCell
      rw [hrows, Option.bind_some]
      split_ifs at hread with hrange hcell
      · exact absurd (Option.some.inj (Option.some.inj hread)).symm hnewarr
      · rw [if_pos hrange]
        exact hread
  · cases hrows'
    exact hdim

end PathTab

/-! ## Accepted writes -/

/-- The cell that a handler writes lies within the table, and it leaves the tables safe. -/
structure Handled.Safe (t : PathTab) (r : Handled) : Prop where
  written : ∀ row col, r.written = some (row, col) → t.IsNode row ∧ t.IsNode col
  tab : r.tab.Safe

/-- The tables after a write that the handler accepts. -/
def accept {ω : Type*} (handle : PathTab → ω → Handled) (t : PathTab) (w : ω) : Option PathTab :=
  let r := handle t w
  if r.ret = 0 then some r.tab else none

def SafeRun {ω : Type*} (handle : PathTab → ω → Handled) (ws : List ω) : Prop :=
  Guarded (accept handle) (fun t w => (handle t w).Safe t) PathTab.empty ws

/-- Source, destination and hops of a path are what they should be. -/
def PathTab.PathInBounds (t : PathTab) (srcNode dstNode : ℤ) (hops : List Int32) : Prop :=
  t.IsNode srcNode ∧ t.IsNode dstNode ∧ ∀ h ∈ hops, t.IsHop h.toInt

section Handled

variable {t t' : PathTab}

theorem Handled.safe_iff_of_none : (Handled.mk t' 0 none).Safe t ↔ t'.Safe :=
  ⟨Handled.Safe.tab, fun h => ⟨fun _ _ hw => (nomatch hw), h⟩⟩

theorem Handled.safe_iff_of_storePath {hoptab : ℕ} {srcNode dstNode : ℤ} {hops : List Int32}
    (hhop : t.hoptable = some hoptab) (hsome : t.pathtable.isSome) (hsafe : t.Safe)
    (hsquare : t.Square) {pathOk : Bool}
    (h : (t.alloc.storePath hoptab srcNode dstNode hops pathOk).2 = true) :
    let t' := (t.alloc.storePath hoptab srcNode dstNode hops pathOk).1.kfree t.nextBlock
    ((Handled.mk t' 0 (some (srcNode, dstNode))).Safe t ↔ t.PathInBounds srcNode dstNode hops) ∧
      (t.PathInBounds srcNode dstNode hops → t'.Square) := by
  have hstore := fun hsrc hdst => PathTab.storePath_safe_iff hhop hsome hsafe hsquare hsrc hdst h
  refine ⟨⟨fun hr => ?_, fun ⟨hsrc, hdst, hops_ok⟩ => ⟨fun row col hw => ?_, ?_⟩⟩,
    fun ⟨hsrc, hdst, _⟩ => (hstore hsrc hdst).2⟩
  · obtain ⟨hsrc, hdst⟩ := hr.written _ _ rfl
    exact ⟨hsrc, hdst, (hstore hsrc hdst).1.mp hr.tab⟩
  · obtain ⟨rfl, rfl⟩ := Prod.mk.inj (Option.some.inj hw)
    exact ⟨hsrc, hdst⟩
  · exact (hstore hsrc hdst).1.mpr hops_ok

/-- **Runs of a module** whose accepted writes are safe exactly under `InBounds`. -/
theorem safeRun_iff {ω : Type*} {handle : PathTab → ω → Handled} {InBounds : PathTab → ω → Prop}
    (hstep : ∀ t w, t.Safe → t.Square → (handle t w).ret = 0 →
      ((handle t w).Safe t ↔ InBounds t w) ∧ (InBounds t w → (handle t w).tab.Square))
    {ws : List ω} (hrun : run (accept handle) PathTab.empty ws = some t) :
    SafeRun handle ws ↔ Guarded (accept handle) InBounds PathTab.empty ws := by
  refine guarded_iff_of_run (I := fun t => t.Safe ∧ t.Square) (fun t w t' hI hacc => ?_)
    (PathTab.safe_of_none rfl) hrun
  unfold accept at hacc
  dsimp only at hacc
  split_ifs at hacc with hret
  obtain rfl := Option.some.inj hacc
  obtain ⟨hiff, hsquare⟩ := hstep t w hI.1 hI.2 hret
  exact ⟨hiff, fun hsafe => ⟨hsafe.tab, hsquare (hiff.mp hsafe)⟩⟩

end Handled

/-! ## The Linux module -/

namespace Linux

/-- What the handlers leave to the writer: node table entries below `nodecount`, and paths within
the tables. -/
def InBounds (t : PathTab) : TableWrite → Prop
  | .nodetable w => t.pathtable.isSome →
      NodesBelow (t.writeNodetable w.ppos w.buffer).nodetable t.nodecount
  | .nodecount w => w.Resizes t → NodesBelow t.nodetable (w.newcount t)
  | .hoptable _ => True
  | .pathentry w => t.PathInBounds w.srcNode.toInt w.dstNode.toInt w.path

variable {hz : ℕ} {t : PathTab}

theorem procNodecount_safe_iff {w : NodecountWrite} (hsafe : t.Safe) (hsquare : t.Square)
    (h : (procNodecount t w).ret = 0) :
    ((procNodecount t w).Safe t ↔ InBounds t (.nodecount w)) ∧ (procNodecount t w).tab.Square := by
  by_cases hresize : w.Resizes t
  · rw [procNodecount_of_resizes hresize] at h ⊢
    dsimp only at h ⊢
    split_ifs at h with hok
    · obtain ⟨hiff, hsquare'⟩ := PathTab.resize_safe_iff (Prod.ext rfl hok)
      rw [if_pos hok, Handled.safe_iff_of_none, hiff]
      exact ⟨⟨fun hn _ => hn, fun hn => hn hresize⟩, hsquare'⟩
    · exact absurd h neg_error_ne_zero.2.2
  · rw [procNodecount_of_not_resizes hresize, Handled.safe_iff_of_none]
    exact ⟨⟨fun _ hw => absurd hw hresize, fun _ => hsafe⟩, hsquare⟩

theorem procHophandle_safe {w : HoptableWrite} (h : (procHophandle hz t w).ret = 0) :
    (procHophandle hz t w).Safe t ∧ (procHophandle hz t w).tab.Square := by
  by_cases hloads : w.Loads
  · rw [procHophandle_of_loads hloads] at h ⊢
    dsimp only at h ⊢
    split_ifs at h with hok
    · rw [if_pos hok, Handled.safe_iff_of_none]
      exact PathTab.safe_of_none (PathTab.loadHoptable_pathtable hz t.alloc _ _ _ _ _)
    · exact absurd h neg_error_ne_zero.2.2
  · exact absurd h (procHophandle_of_not_loads hloads).1

theorem procPathentry_safe_iff {w : PathentryWrite} (hsafe : t.Safe) (hsquare : t.Square)
    (h : (procPathentry t w).ret = 0) :
    ((procPathentry t w).Safe t ↔ InBounds t (.pathentry w)) ∧
      (InBounds t (.pathentry w) → (procPathentry t w).tab.Square) := by
  by_cases hstores : w.Stores t
  · obtain ⟨hoptab, hhop, heq⟩ := procPathentry_of_stores hstores
    rw [heq] at h ⊢
    dsimp only at h ⊢
    split_ifs at h with hok
    · rw [if_pos hok]
      exact Handled.safe_iff_of_storePath hhop hstores.pathtable hsafe hsquare hok
    · exact absurd h neg_error_ne_zero.2.2
  · exact absurd h (procPathentry_of_not_stores hstores).1

theorem handle_safe_iff {w : TableWrite} (hsafe : t.Safe) (hsquare : t.Square)
    (h : (handle hz t w).ret = 0) :
    ((handle hz t w).Safe t ↔ InBounds t w) ∧ (InBounds t w → (handle hz t w).tab.Square) := by
  cases w with
  | nodetable w =>
    rw [handle, procNodetable_of_ret h, Handled.safe_iff_of_none]
    exact ⟨PathTab.writeNodetable_safe_iff hsafe _ _, fun _ => hsquare⟩
  | nodecount w =>
    obtain ⟨hiff, hsquare'⟩ := procNodecount_safe_iff hsafe hsquare h
    exact ⟨hiff, fun _ => hsquare'⟩
  | hoptable w =>
    obtain ⟨hsafe', hsquare'⟩ := procHophandle_safe h
    exact ⟨⟨fun _ => trivial, fun _ => hsafe'⟩, fun _ => hsquare'⟩
  | pathentry w => exact procPathentry_safe_iff hsafe hsquare h

end Linux

/-! ## The FreeBSD module -/

namespace FreeBSD

/-- What the handlers leave to the writer, as in the Linux module. -/
def InBounds (t : PathTab) : TableWrite → Prop
  | .nodetable w => w.outError = 0 ∧ w.newptr → t.pathtable.isSome →
      NodesBelow (t.writeNodetable 0 (w.buffer.take (4 * 0x10000))).nodetable t.nodecount
  | .nodecount w => w.error = 0 ∧ w.newptr → w.newcount.toInt ≠ t.nodecount →
      NodesBelow t.nodetable w.newcount.toInt
  | .hoptable _ => True
  | .pathentry w => w.error = 0 ∧ w.newptr →
      t.PathInBounds w.srcNode.toInt w.dstNode.toInt w.path

variable {hz : ℕ} {t : PathTab}

theorem error_ne_zero : einval ≠ 0 ∧ enomem ≠ 0 := by decide

theorem not_writes {e : ℤ} {newptr : Bool} (h : e ≠ 0 ∨ ¬ newptr) : ¬ (e = 0 ∧ newptr) :=
  fun hw => h.elim (fun he => he hw.1) fun hn => hn hw.2

theorem writes {e : ℤ} {newptr : Bool} (h : ¬ (e ≠ 0 ∨ ¬ newptr)) : e = 0 ∧ newptr := by
  rwa [not_or, not_not, not_not] at h

theorem sysctlNodetable_safe_iff {w : NodetableWrite} (hsafe : t.Safe) (hsquare : t.Square)
    (h : (sysctlNodetable t w).ret = 0) :
    ((sysctlNodetable t w).Safe t ↔ InBounds t (.nodetable w)) ∧
      (sysctlNodetable t w).tab.Square := by
  unfold sysctlNodetable at h ⊢
  dsimp only at h ⊢
  split_ifs at h ⊢ with hread hlen hin
  · rw [show w.outError = 0 from h, Handled.safe_iff_of_none]
    exact ⟨⟨fun _ hw => absurd hw (not_writes hread), fun _ => hsafe⟩, hsquare⟩
  · exact absurd h error_ne_zero.1
  · exact absurd h hin
  · rw [Handled.safe_iff_of_none, PathTab.writeNodetable_safe_iff hsafe]
    exact ⟨⟨fun hn _ => hn, fun hn => hn (writes hread)⟩, hsquare⟩

theorem sysctlNodecount_safe_iff {w : NodecountWrite} (hsafe : t.Safe) (hsquare : t.Square)
    (h : (sysctlNodecount t w).ret = 0) :
    ((sysctlNodecount t w).Safe t ↔ InBounds t (.nodecount w)) ∧
      (sysctlNodecount t w).tab.Square := by
  unfold sysctlNodecount at h ⊢
  dsimp only at h ⊢
  split_ifs at h ⊢ with hread hne hok
  · rw [show w.error = 0 from h, Handled.safe_iff_of_none]
    exact ⟨⟨fun _ hw => absurd hw (not_writes hread), fun _ => hsafe⟩, hsquare⟩
  · obtain ⟨hiff, hsquare'⟩ := PathTab.resize_safe_iff (Prod.ext rfl hok)
    rw [Handled.safe_iff_of_none, hiff]
    exact ⟨⟨fun hn _ _ => hn, fun hn => hn (writes hread) hne⟩, hsquare'⟩
  · exact absurd h error_ne_zero.2
  · rw [Handled.safe_iff_of_none]
    exact ⟨⟨fun _ _ hw => absurd hw hne, fun _ => hsafe⟩, hsquare⟩

theorem sysctlHophandle_safe {w : HoptableWrite} (hsafe : t.Safe) (hsquare : t.Square)
    (h : (sysctlHophandle hz t w).ret = 0) :
    (sysctlHophandle hz t w).Safe t ∧ (sysctlHophandle hz t w).tab.Square := by
  unfold sysctlHophandle at h ⊢
  dsimp only at h ⊢
  split_ifs at h ⊢ with hread hold hops hok
  · exact ⟨⟨fun _ _ hw => (nomatch hw), hsafe⟩, hsquare⟩
  · exact ⟨⟨fun _ _ hw => (nomatch hw), hsafe⟩, hsquare⟩
  · have hnone := PathTab.loadHoptable_pathtable hz t.alloc w.hopcount.toInt w.hops w.tableOk
      w.exittickOk w.slotlenOk
    obtain ⟨hsafe', hsquare'⟩ := PathTab.safe_of_none (t := PathTab.kfree _ t.nextBlock) hnone
    exact ⟨⟨fun _ _ hw => (nomatch hw), hsafe'⟩, hsquare'⟩
  · exact absurd h error_ne_zero.2
  · exact absurd h error_ne_zero.2

theorem sysctlPathentry_safe_iff {w : PathentryWrite} (hsafe : t.Safe) (hsquare : t.Square)
    (h : (sysctlPathentry t w).ret = 0) :
    ((sysctlPathentry t w).Safe t ↔ InBounds t (.pathentry w)) ∧
      (InBounds t (.pathentry w) → (sysctlPathentry t w).tab.Square) := by
  obtain ⟨heinval, henomem⟩ := error_ne_zero
  unfold sysctlPathentry at h ⊢
  by_cases hread : w.error ≠ 0 ∨ ¬ w.newptr
  · rw [if_pos hread]
    exact ⟨⟨fun _ hw => absurd hw (not_writes hread),
      fun _ => ⟨fun _ _ hw => (nomatch hw), hsafe⟩⟩, fun _ => hsquare⟩
  rw [if_neg hread] at h ⊢
  cases hhop : t.hoptable with
  | none =>
    rw [hhop] at h
    exact absurd h heinval
  | some hoptab =>
    rw [hhop] at h
    dsimp only at h ⊢
    split_ifs at h ⊢ with hpath hnodes hops hok
    · exact absurd h heinval
    · exact absurd h heinval
    · obtain ⟨hiff, hsquare'⟩ := Handled.safe_iff_of_storePath hhop
        (Option.isNone_eq_false_iff.mp (Bool.eq_false_iff.mpr hpath)) hsafe hsquare hok
      rw [hiff]
      exact ⟨⟨fun hb _ => hb, fun hb => hb (writes hread)⟩, fun hb => hsquare' (hb (writes hread))⟩
    · exact absurd h henomem
    · exact absurd h henomem

theorem handle_safe_iff {w : TableWrite} (hsafe : t.Safe) (hsquare : t.Square)
    (h : (handle hz t w).ret = 0) :
    ((handle hz t w).Safe t ↔ InBounds t w) ∧ (InBounds t w → (handle hz t w).tab.Square) := by
  cases w with
  | nodetable w =>
    obtain ⟨hiff, hsquare'⟩ := sysctlNodetable_safe_iff hsafe hsquare h
    exact ⟨hiff, fun _ => hsquare'⟩
  | nodecount w =>
    obtain ⟨hiff, hsquare'⟩ := sysctlNodecount_safe_iff hsafe hsquare h
    exact ⟨hiff, fun _ => hsquare'⟩
  | hoptable w =>
    obtain ⟨hsafe', hsquare'⟩ := sysctlHophandle_safe hsafe hsquare h
    exact ⟨⟨fun _ => trivial, fun _ => hsafe'⟩, fun _ => hsquare'⟩
  | pathentry w => exact sysctlPathentry_safe_iff hsafe hsquare h

end FreeBSD

/-! ## Both modules -/

/-- **Index safety.** In both modules the accepted writes keep every lookup, every store and every
hop of a path within bounds exactly when each of them was itself within bounds. -/
theorem safeRun_iff_inBounds (hz : ℕ) :
    (∀ ws t, run (accept (Linux.handle hz)) PathTab.empty ws = some t →
      (SafeRun (Linux.handle hz) ws ↔
        Guarded (accept (Linux.handle hz)) Linux.InBounds PathTab.empty ws)) ∧
    ∀ ws t, run (accept (FreeBSD.handle hz)) PathTab.empty ws = some t →
      (SafeRun (FreeBSD.handle hz) ws ↔
        Guarded (accept (FreeBSD.handle hz)) FreeBSD.InBounds PathTab.empty ws) :=
  ⟨fun _ _ => safeRun_iff fun _ _ => Linux.handle_safe_iff,
    fun _ _ => safeRun_iff fun _ _ => FreeBSD.handle_safe_iff⟩

/-- A hop table of one hop, room for two nodes, and a path over the hop to node 0. -/
def Linux.writesFrom (srcNode : Int32) : List Linux.TableWrite :=
  [.hoptable ⟨true, 0, 12, true, 1, true, fun _ => ⟨8000, 1, 0, 2, 0, 0⟩, true, true,
      fun _ => true, fun _ => true⟩,
    .nodecount ⟨true, some 2, true, fun _ => true⟩,
    .pathentry ⟨true, 20, true, srcNode, 0, 1, true, fun _ => 0, true, true⟩]

/-- The same for the FreeBSD module. -/
def FreeBSD.writesFrom (srcNode : Int32) : List FreeBSD.TableWrite :=
  [.hoptable ⟨0, true, false, 1, true, fun _ => ⟨8000, 1, 0, 2, 0, 0⟩, true, fun _ => true,
      fun _ => true, 0⟩,
    .nodecount ⟨0, true, 2, true, fun _ => true⟩,
    .pathentry ⟨0, true, false, 0, srcNode, 0, 1, true, fun _ => 0, true⟩]

/-- The theorem on a path from node 1. -/
theorem safeRun_of_node_one :
    SafeRun (Linux.handle 1000) (Linux.writesFrom 1) ∧
      SafeRun (FreeBSD.handle 1000) (FreeBSD.writesFrom 1) := by
  have hlinux : (run (accept (Linux.handle 1000)) PathTab.empty (Linux.writesFrom 1)).isSome := by
    decide
  have hfreebsd :
      (run (accept (FreeBSD.handle 1000)) PathTab.empty (FreeBSD.writesFrom 1)).isSome := by
    decide
  have hnodes : NodesBelow (fun _ => 0) 2 :=
    fun _ _ => Or.inr (show 0 ≤ (0 : Int32).toInt ∧ (0 : Int32).toInt < 2 by decide)
  have hops : ∀ h ∈ (List.range 1).map fun _ => (0 : Int32), 0 ≤ h.toInt ∧ h.toInt < 1 := by
    intro h hh
    obtain ⟨i, -, rfl⟩ := List.mem_map.mp hh
    decide
  obtain ⟨t, ht⟩ := Option.isSome_iff_exists.mp hlinux
  obtain ⟨t', ht'⟩ := Option.isSome_iff_exists.mp hfreebsd
  constructor
  · refine ((safeRun_iff_inBounds 1000).1 _ t ht).mpr
      ⟨trivial, fun t₁ h₁ => ⟨fun _ => ?_, fun t₂ h₂ => ⟨?_, fun t₃ _ => trivial⟩⟩⟩
    · cases h₁
      exact hnodes
    · cases h₁
      cases h₂
      exact ⟨⟨by decide, by decide⟩, ⟨by decide, by decide⟩, hops⟩
  · refine ((safeRun_iff_inBounds 1000).2 _ t' ht').mpr
      ⟨trivial, fun t₁ h₁ => ⟨fun _ _ => ?_, fun t₂ h₂ => ⟨fun _ => ?_, fun t₃ _ => trivial⟩⟩⟩
    · cases h₁
      exact hnodes
    · cases h₁
      cases h₂
      exact ⟨⟨by decide, by decide⟩, ⟨by decide, by decide⟩, hops⟩

/-- A path from node 2 is accepted when there are two nodes, and written outside of the table. -/
theorem not_safeRun_of_node_two :
    (run (accept (Linux.handle 1000)) PathTab.empty (Linux.writesFrom 2)).isSome ∧
      ¬ SafeRun (Linux.handle 1000) (Linux.writesFrom 2) := by
  refine ⟨by decide, fun h => ?_⟩
  obtain ⟨-, h₁⟩ := h
  obtain ⟨-, h₂⟩ := h₁ _ rfl
  obtain ⟨hsafe, -⟩ := h₂ _ rfl
  obtain ⟨⟨-, hlt⟩, -⟩ := hsafe.written 2 0 rfl
  revert hlt
  decide

end Modelnet

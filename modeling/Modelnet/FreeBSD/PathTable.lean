import Modelnet.PathTable

/-!
# `mn_pathtable.c`, FreeBSD module

The sysctl handlers that change the tables; they differ from those of the Linux module in what
they check of the request. `newptr` says whether the request writes. Allocations with `M_WAITOK`
return a block or do not return, so the outcomes that the code tests for are arguments here too.
The queueing disciplines that `xtq_install` and `xtq_uninstall` attach to the hops are left out.
-/

namespace Modelnet.FreeBSD

open Modelnet PathTab

/-- A request for `nodetable`. `outError` is that of copying the old table out, `inError` that of
copying the new one in, of which `copied` bytes arrive. -/
structure NodetableWrite where
  outError : ℤ
  newptr : Bool
  buffer : List (BitVec 8)
  inError : ℤ
  copied : ℕ

/-- `SYSCTL_OPAQUE` of `nodetable`: the table is written as a whole. -/
def sysctlNodetable (t : PathTab) (w : NodetableWrite) : Handled :=
  if w.outError ≠ 0 ∨ ¬ w.newptr then ⟨t, w.outError, none⟩
  else if w.buffer.length < 4 * 0x10000 then ⟨t, einval, none⟩
  else
    let table := w.buffer.take (4 * 0x10000)
    if w.inError ≠ 0 then ⟨t.writeNodetable 0 (table.take w.copied), w.inError, none⟩
    else ⟨t.writeNodetable 0 table, 0, none⟩

/-- A call of `sysctl_nodecount`; `error` is that of `sysctl_handle_int`. -/
structure NodecountWrite where
  error : ℤ
  newptr : Bool
  newcount : Int32
  tableOk : Bool
  rowOk : ℕ → Bool

def sysctlNodecount (t : PathTab) (w : NodecountWrite) : Handled :=
  if w.error ≠ 0 ∨ ¬ w.newptr then ⟨t, w.error, none⟩
  else if w.newcount.toInt ≠ t.nodecount then
    let r := t.resize w.newcount.toInt w.tableOk w.rowOk
    ⟨r.1, if r.2 then 0 else enomem, none⟩
  else ⟨t, 0, none⟩

/-- A call of `sysctl_hophandle`; `error` is that of `SYSCTL_IN`, `outError` that of the
`SYSCTL_OUT` that ends it. -/
structure HoptableWrite where
  error : ℤ
  newptr : Bool
  oldptr : Bool
  hopcount : Int32
  hopsOk : Bool
  hops : ℕ → SysctlHop
  tableOk : Bool
  exittickOk : ℕ → Bool
  slotlenOk : ℕ → Bool
  outError : ℤ

/-- `sysctl_hophandle`. The result of `copyin` is not looked at. -/
def sysctlHophandle (hz : ℕ) (t : PathTab) (w : HoptableWrite) : Handled :=
  if w.error ≠ 0 ∨ ¬ w.newptr then ⟨t, if w.oldptr then w.error else w.outError, none⟩
  else if ¬ (w.hopsOk ∧ 0 ≤ w.hopcount.toInt) then ⟨t, enomem, none⟩
  else
    let r := t.alloc.loadHoptable hz w.hopcount.toInt w.hops w.tableOk w.exittickOk w.slotlenOk
    if r.2 then ⟨r.1.kfree t.nextBlock, w.outError, none⟩ else ⟨r.1, enomem, none⟩

/-- A call of `sysctl_pathentry`; `error` is that of `SYSCTL_IN`, `outError` that of the
`SYSCTL_OUT` that answers a request it does not carry out. -/
structure PathentryWrite where
  error : ℤ
  newptr : Bool
  oldptr : Bool
  outError : ℤ
  srcNode : Int32
  dstNode : Int32
  pathlen : Int32
  hopsOk : Bool
  hops : ℕ → Int32
  pathOk : Bool

def PathentryWrite.path (w : PathentryWrite) : List Int32 :=
  (List.range w.pathlen.toInt.toNat).map w.hops

def sysctlPathentry (t : PathTab) (w : PathentryWrite) : Handled :=
  if w.error ≠ 0 ∨ ¬ w.newptr then ⟨t, if w.oldptr then w.error else w.outError, none⟩
  else match t.hoptable with
    | none => ⟨t, einval, none⟩
    | some hoptab =>
      if t.pathtable.isNone then ⟨t, einval, none⟩
      else if w.srcNode.toInt > t.nodecount ∨ w.dstNode.toInt > t.nodecount then ⟨t, einval, none⟩
      else if ¬ (w.hopsOk ∧ 0 ≤ w.pathlen.toInt) then ⟨t, enomem, none⟩
      else
        let r := t.alloc.storePath hoptab w.srcNode.toInt w.dstNode.toInt w.path w.pathOk
        let written := some (w.srcNode.toInt, w.dstNode.toInt)
        if r.2 then ⟨r.1.kfree t.nextBlock, 0, written⟩ else ⟨r.1, enomem, written⟩

/-- A write to one of the four nodes. -/
inductive TableWrite where
  | nodetable (w : NodetableWrite)
  | nodecount (w : NodecountWrite)
  | hoptable (w : HoptableWrite)
  | pathentry (w : PathentryWrite)

def handle (hz : ℕ) (t : PathTab) : TableWrite → Handled
  | .nodetable w => sysctlNodetable t w
  | .nodecount w => sysctlNodecount t w
  | .hoptable w => sysctlHophandle hz t w
  | .pathentry w => sysctlPathentry t w

end Modelnet.FreeBSD

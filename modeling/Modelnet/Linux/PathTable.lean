import Modelnet.PathTable

/-!
# `mn_pathtable.c`, Linux module

The handlers of `/proc/sys/modelnet` that change the tables. Each takes the record of a write: the
arguments of the handler, what is copied from user memory and whether that succeeds, and the
outcomes of the allocations. They return 0 or a negative error.
-/

namespace Modelnet.Linux

open Modelnet PathTab

/-- A call of `proc_nodetable`; the length is that of the buffer. A failing `copy_from_user` copies
only `copied` bytes and fills the rest with zeros. -/
structure NodetableWrite where
  write : Bool
  ppos : ℕ
  buffer : List (BitVec 8)
  copied : Option ℕ

def procNodetable (t : PathTab) (w : NodetableWrite) : Handled :=
  if w.ppos + w.buffer.length > 4 * 0x10000 then ⟨t, -einval, none⟩
  else if ¬ w.write then ⟨t, -einval, none⟩
  else match w.copied with
    | none => ⟨t.writeNodetable w.ppos w.buffer, 0, none⟩
    | some n =>
      ⟨t.writeNodetable w.ppos (w.buffer.take n ++ List.replicate (w.buffer.length - n) 0), -efault,
        none⟩

/-- A call of `proc_nodecount`; `value` is what `proc_dointvec` reads from the buffer, if it reads
a number. -/
structure NodecountWrite where
  write : Bool
  value : Option Int32
  tableOk : Bool
  rowOk : ℕ → Bool

/-- The node count after `proc_dointvec`. -/
def NodecountWrite.newcount (w : NodecountWrite) (t : PathTab) : ℤ :=
  (w.value.map Int32.toInt).getD t.nodecount

def procNodecount (t : PathTab) (w : NodecountWrite) : Handled :=
  if ¬ w.write then ⟨t, 0, none⟩
  else if t.nodecount ≠ w.newcount t then
    let r := t.resize (w.newcount t) w.tableOk w.rowOk
    ⟨r.1, if r.2 then 0 else -enomem, none⟩
  else ⟨t, 0, none⟩

def sizeofSysctlHoptable : ℕ := 12

/-- A call of `proc_hophandle`. -/
structure HoptableWrite where
  write : Bool
  ppos : ℕ
  lenp : ℕ
  tabCopied : Bool
  hopcount : Int32
  hopsOk : Bool
  hops : ℕ → SysctlHop
  hopsCopied : Bool
  tableOk : Bool
  exittickOk : ℕ → Bool
  slotlenOk : ℕ → Bool

/-- `proc_hophandle`. A `vmalloc` of size 0 fails, as one of a negative size does. -/
def procHophandle (hz : ℕ) (t : PathTab) (w : HoptableWrite) : Handled :=
  if ¬ w.write then ⟨t, -einval, none⟩
  else if w.ppos ≠ 0 then ⟨t, -efault, none⟩
  else if w.lenp ≠ sizeofSysctlHoptable then ⟨t, -einval, none⟩
  else if ¬ w.tabCopied then ⟨t, -efault, none⟩
  else if ¬ (w.hopsOk ∧ 0 < w.hopcount.toInt) then ⟨t, -enomem, none⟩
  else if ¬ w.hopsCopied then ⟨t.alloc, -efault, none⟩
  else
    let r := t.alloc.loadHoptable hz w.hopcount.toInt w.hops w.tableOk w.exittickOk w.slotlenOk
    if r.2 then ⟨r.1.kfree t.nextBlock, 0, none⟩ else ⟨r.1, -enomem, none⟩

def sizeofSysctlPathentry : ℕ := 20

/-- A call of `proc_pathentry`. -/
structure PathentryWrite where
  write : Bool
  lenp : ℕ
  entryCopied : Bool
  srcNode : Int32
  dstNode : Int32
  pathlen : Int32
  hopsOk : Bool
  hops : ℕ → Int32
  hopsCopied : Bool
  pathOk : Bool

def PathentryWrite.path (w : PathentryWrite) : List Int32 :=
  (List.range w.pathlen.toInt.toNat).map w.hops

def procPathentry (t : PathTab) (w : PathentryWrite) : Handled :=
  if ¬ w.write then ⟨t, -einval, none⟩
  else if w.lenp < sizeofSysctlPathentry then ⟨t, -einval, none⟩
  else if ¬ w.entryCopied then ⟨t, -efault, none⟩
  else match t.hoptable with
    | none => ⟨t, -einval, none⟩
    | some hoptab =>
      if t.pathtable.isNone then ⟨t, -einval, none⟩
      else if w.srcNode.toInt > t.nodecount ∨ w.dstNode.toInt > t.nodecount then ⟨t, -einval, none⟩
      else if ¬ (w.hopsOk ∧ 0 ≤ w.pathlen.toInt) then ⟨t, -enomem, none⟩
      else if ¬ w.hopsCopied then ⟨t.alloc, -efault, none⟩
      else
        let r := t.alloc.storePath hoptab w.srcNode.toInt w.dstNode.toInt w.path w.pathOk
        let written := some (w.srcNode.toInt, w.dstNode.toInt)
        if r.2 then ⟨r.1.kfree t.nextBlock, 0, written⟩ else ⟨r.1, -enomem, written⟩

/-- A write to one of the four files. -/
inductive TableWrite where
  | nodetable (w : NodetableWrite)
  | nodecount (w : NodecountWrite)
  | hoptable (w : HoptableWrite)
  | pathentry (w : PathentryWrite)

def handle (hz : ℕ) (t : PathTab) : TableWrite → Handled
  | .nodetable w => procNodetable t w
  | .nodecount w => procNodecount t w
  | .hoptable w => procHophandle hz t w
  | .pathentry w => procPathentry t w

/-! ## What the handlers do -/

variable {hz : ℕ} {t : PathTab}

theorem neg_error_ne_zero : -einval ≠ 0 ∧ -efault ≠ 0 ∧ -enomem ≠ 0 := by decide

theorem procNodetable_of_ret {w : NodetableWrite} (h : (procNodetable t w).ret = 0) :
    procNodetable t w = ⟨t.writeNodetable w.ppos w.buffer, 0, none⟩ := by
  obtain ⟨heinval, hefault, -⟩ := neg_error_ne_zero
  unfold procNodetable at h ⊢
  split_ifs at h ⊢ with hlen hwrite
  · exact absurd h heinval
  · cases hcopied : w.copied with
    | none => rfl
    | some n =>
      rw [hcopied] at h
      exact absurd h hefault
  · exact absurd h heinval

/-- A write that resizes the path table. -/
def NodecountWrite.Resizes (t : PathTab) (w : NodecountWrite) : Prop :=
  w.write ∧ t.nodecount ≠ w.newcount t

theorem procNodecount_of_resizes {w : NodecountWrite} (h : w.Resizes t) :
    procNodecount t w =
      let r := t.resize (w.newcount t) w.tableOk w.rowOk
      ⟨r.1, if r.2 then 0 else -enomem, none⟩ := by
  unfold procNodecount
  rw [if_neg (not_not.mpr h.1), if_pos h.2]

theorem procNodecount_of_not_resizes {w : NodecountWrite} (h : ¬ w.Resizes t) :
    procNodecount t w = ⟨t, 0, none⟩ := by
  unfold procNodecount
  split_ifs with hwrite hne
  · exact absurd ⟨hwrite, hne⟩ h
  · rfl
  · rfl

/-- A write that gets as far as loading a hop table. -/
structure HoptableWrite.Loads (w : HoptableWrite) : Prop where
  write : w.write
  ppos : w.ppos = 0
  lenp : w.lenp = sizeofSysctlHoptable
  tabCopied : w.tabCopied
  hops : w.hopsOk ∧ 0 < w.hopcount.toInt
  hopsCopied : w.hopsCopied

theorem procHophandle_of_loads {w : HoptableWrite} (h : w.Loads) :
    procHophandle hz t w =
      let r := t.alloc.loadHoptable hz w.hopcount.toInt w.hops w.tableOk w.exittickOk w.slotlenOk
      if r.2 then ⟨r.1.kfree t.nextBlock, 0, none⟩ else ⟨r.1, -enomem, none⟩ := by
  unfold procHophandle
  rw [if_neg (not_not.mpr h.write), if_neg (not_not.mpr h.ppos), if_neg (not_not.mpr h.lenp),
    if_neg (not_not.mpr h.tabCopied), if_neg (not_not.mpr h.hops),
    if_neg (not_not.mpr h.hopsCopied)]

theorem procHophandle_of_not_loads {w : HoptableWrite} (h : ¬ w.Loads) :
    (procHophandle hz t w).ret ≠ 0 ∧
      ((procHophandle hz t w).tab = t ∨ (procHophandle hz t w).tab = t.alloc) := by
  obtain ⟨heinval, hefault, henomem⟩ := neg_error_ne_zero
  unfold procHophandle
  dsimp only
  split_ifs with hwrite hppos hlenp htab hops hcopied hok
  · exact ⟨hefault, Or.inl rfl⟩
  · exact ⟨heinval, Or.inl rfl⟩
  · exact absurd ⟨hwrite, not_not.mp hppos, not_not.mp hlenp, htab, hops, hcopied⟩ h
  · exact absurd ⟨hwrite, not_not.mp hppos, not_not.mp hlenp, htab, hops, hcopied⟩ h
  · exact ⟨hefault, Or.inr rfl⟩
  · exact ⟨henomem, Or.inl rfl⟩
  · exact ⟨hefault, Or.inl rfl⟩
  · exact ⟨heinval, Or.inl rfl⟩

/-- A write that gets as far as storing a path. -/
structure PathentryWrite.Stores (t : PathTab) (w : PathentryWrite) : Prop where
  write : w.write
  lenp : sizeofSysctlPathentry ≤ w.lenp
  entryCopied : w.entryCopied
  hoptable : t.hoptable.isSome
  pathtable : t.pathtable.isSome
  nodes : w.srcNode.toInt ≤ t.nodecount ∧ w.dstNode.toInt ≤ t.nodecount
  hops : w.hopsOk ∧ 0 ≤ w.pathlen.toInt
  hopsCopied : w.hopsCopied

theorem procPathentry_of_stores {w : PathentryWrite} (h : w.Stores t) :
    ∃ hoptab, t.hoptable = some hoptab ∧ procPathentry t w =
      let r := t.alloc.storePath hoptab w.srcNode.toInt w.dstNode.toInt w.path w.pathOk
      let written := some (w.srcNode.toInt, w.dstNode.toInt)
      if r.2 then ⟨r.1.kfree t.nextBlock, 0, written⟩ else ⟨r.1, -enomem, written⟩ := by
  obtain ⟨hoptab, hhop⟩ := Option.isSome_iff_exists.mp h.hoptable
  have hpath : ¬ t.pathtable.isNone := by
    rw [Option.isNone_eq_false_iff.mpr h.pathtable]
    exact Bool.false_ne_true
  refine ⟨hoptab, hhop, ?_⟩
  unfold procPathentry
  rw [if_neg (not_not.mpr h.write), if_neg (Nat.not_lt.mpr h.lenp),
    if_neg (not_not.mpr h.entryCopied), hhop]
  dsimp only
  rw [if_neg hpath, if_neg (not_or.mpr ⟨not_lt.mpr h.nodes.1, not_lt.mpr h.nodes.2⟩),
    if_neg (not_not.mpr h.hops), if_neg (not_not.mpr h.hopsCopied)]

theorem procPathentry_of_not_stores {w : PathentryWrite} (h : ¬ w.Stores t) :
    (procPathentry t w).ret ≠ 0 ∧
      ((procPathentry t w).tab = t ∨ (procPathentry t w).tab = t.alloc) := by
  obtain ⟨heinval, hefault, henomem⟩ := neg_error_ne_zero
  unfold procPathentry
  cases hhop : t.hoptable with
  | none =>
    dsimp only
    split_ifs
    · exact ⟨heinval, Or.inl rfl⟩
    · exact ⟨heinval, Or.inl rfl⟩
    · exact ⟨hefault, Or.inl rfl⟩
    · exact ⟨heinval, Or.inl rfl⟩
  | some hoptab =>
    have hsome : t.hoptable.isSome := by rw [hhop]; rfl
    dsimp only
    split_ifs with hwrite hlenp hentry hpath hnodes hops hcopied hok
    · exact ⟨heinval, Or.inl rfl⟩
    · exact ⟨heinval, Or.inl rfl⟩
    · exact ⟨heinval, Or.inl rfl⟩
    · rw [not_or, not_lt, not_lt] at hnodes
      exact absurd ⟨hwrite, not_lt.mp hlenp, hentry, hsome,
        Option.isNone_eq_false_iff.mp (Bool.eq_false_iff.mpr hpath), hnodes, hops, hcopied⟩ h
    · rw [not_or, not_lt, not_lt] at hnodes
      exact absurd ⟨hwrite, not_lt.mp hlenp, hentry, hsome,
        Option.isNone_eq_false_iff.mp (Bool.eq_false_iff.mpr hpath), hnodes, hops, hcopied⟩ h
    · exact ⟨hefault, Or.inr rfl⟩
    · exact ⟨henomem, Or.inl rfl⟩
    · exact ⟨hefault, Or.inl rfl⟩
    · exact ⟨heinval, Or.inl rfl⟩

end Modelnet.Linux

import Modelnet.FailedResize

/-!
# The memory of the paths

Path arrays are the blocks that hold the cells of a path. The table shows its memory (`Shown`) when
the arrays in use are those in its cells, each in one cell. Freeing the table leaves no array
behind when it showed all of them before; storing a path adds an array, and the array that was in
the cell stays in use.
-/

namespace Modelnet

namespace PathTab

/-- A path array was allocated in the block and not freed. -/
def LivePath (t : PathTab) (b : ℕ) : Prop := t.Live b ∧ (t.pathArrs b).isSome

/-- The live path arrays are those in the cells of `pathtable`, each in one cell. -/
structure Shown (t : PathTab) : Prop where
  live_iff : ∀ b, t.LivePath b ↔ t.Installed b
  once : ∀ i j i' j' b, t.readCell i j = some (some b) → t.readCell i' j' = some (some b) →
    i = i' ∧ j = j'

/-- The path arrays are those in the cells. -/
def Exact (t : PathTab) : Prop := ∀ b, (t.pathArrs b).isSome ↔ t.Installed b

variable {t t' : PathTab} {b : ℕ}

/-! ## Cells and blocks -/

theorem readCell_eq_some {i j : ℤ} (h : t.readCell i j = some (some b)) :
    ∃ rows, t.pathtable = some rows ∧ (0 ≤ i ∧ i < rows.dim ∧ 0 ≤ j ∧ j < rows.dim) ∧
      rows.cell i.toNat j.toNat = some b := by
  unfold readCell at h
  obtain ⟨rows, hrows, h⟩ := Option.bind_eq_some_iff.mp h
  split_ifs at h with hin
  exact ⟨rows, hrows, hin, Option.some.inj h⟩

theorem Ledger.live (h : t.Ledger) (hb : t.Installed b) : t.Live b := by
  obtain ⟨i, j, hread⟩ := hb
  obtain ⟨rows, hrows, -, hcell⟩ := readCell_eq_some hread
  exact (h.table rows hrows).cell _ _ b hcell

theorem Ledger.once (h : t.Ledger) {i j i' j' : ℤ} (hread : t.readCell i j = some (some b))
    (hread' : t.readCell i' j' = some (some b)) : i = i' ∧ j = j' := by
  obtain ⟨rows, hrows, hin, hcell⟩ := readCell_eq_some hread
  obtain ⟨rows', hrows', hin', hcell'⟩ := readCell_eq_some hread'
  cases Option.some.inj (hrows.symm.trans hrows')
  obtain ⟨hi, hj⟩ := (h.table rows hrows).distinct.inj _ _ _ _ b hcell hcell'
  omega

theorem Ledger.shown (h : t.Ledger) (hexact : t.Exact) : t.Shown where
  live_iff b := ⟨fun hb => (hexact b).mp hb.2, fun hb => ⟨h.live hb, (hexact b).mpr hb⟩⟩
  once _ _ _ _ _ hread hread' := h.once hread hread'

theorem exact_empty : PathTab.empty.Exact := fun _ =>
  iff_of_false Bool.false_ne_true (not_installed_of_none rfl)

theorem exact_of_none (harrs : ∀ b, t.pathArrs b = none) (hcells : ∀ b, ¬ t.Installed b) :
    t.Exact := fun b =>
  iff_of_false (by rw [harrs]; exact Bool.false_ne_true) (hcells b)

theorem Exact.congr (h : t.Exact) (harrs : t'.pathArrs = t.pathArrs)
    (htable : t'.pathtable = t.pathtable) : t'.Exact := by
  intro b
  rw [harrs, h b]
  unfold Installed readCell
  rw [htable]

/-! ## Freeing the table -/

theorem pathArrs_foldl_kfree (bs : List ℕ) (t : PathTab) :
    (bs.foldl kfree t).pathArrs b = if b ∈ bs then none else t.pathArrs b := by
  induction bs generalizing t with
  | nil => rfl
  | cons c bs ih =>
    rw [List.foldl_cons, ih]
    by_cases hb : b ∈ bs
    · rw [if_pos hb, if_pos (List.mem_cons_of_mem c hb)]
    · rw [if_neg hb]
      by_cases hc : b = c
      · subst hc
        rw [if_pos List.mem_cons_self]
        exact Function.update_self _ _ _
      · rw [if_neg fun hm => (List.mem_cons.mp hm).elim hc hb]
        exact Function.update_of_ne hc _ _

/-- An array that is left was there before, and in no cell that was freed. -/
theorem pathArrs_freePath (h : (t.freePath.pathArrs b).isSome) :
    (t.pathArrs b).isSome ∧ ∀ rows, t.pathtable = some rows → t.nodecount ≠ 0 →
      b ∉ pathBlocks rows t.nodecount.toNat := by
  unfold freePath at h
  cases hrows : t.pathtable with
  | none =>
    rw [hrows] at h
    exact ⟨h, fun _ hc => (nomatch hc)⟩
  | some rows =>
    rw [hrows] at h
    dsimp only at h
    split_ifs at h with hcount
    · -- neither the array of rows nor a row nor one of the paths
      have hbase : b ≠ rows.base := by
        rintro rfl
        dsimp only [kfree] at h
        rw [Function.update_self] at h
        cases h
      dsimp only [kfree] at h
      rw [Function.update_of_ne hbase, pathArrs_foldl_kfree] at h
      split_ifs at h with hrow
      · cases h
      · rw [pathArrs_foldl_kfree] at h
        split_ifs at h with hpath
        · cases h
        · refine ⟨h, fun rows' hrows' _ => ?_⟩
          cases hrows'
          exact hpath
    · exact ⟨h, fun _ _ hne => absurd hne hcount⟩

/-- **Freeing the table** frees every array that a cell shows. -/
theorem Ledger.pathArrs_freePath (h : t.Ledger) (hexact : t.Exact) (b : ℕ) :
    t.freePath.pathArrs b = none := by
  by_contra hne
  obtain ⟨hold, hfreed⟩ := PathTab.pathArrs_freePath (Option.isSome_iff_ne_none.mpr hne)
  obtain ⟨i, j, hread⟩ := (hexact b).mp hold
  obtain ⟨rows, hrows, hin, hcell⟩ := readCell_eq_some hread
  have hdim := (h.table rows hrows).dim
  refine hfreed rows hrows (by omega) (mem_pathBlocks.mpr ?_)
  exact ⟨i.toNat, by omega, j.toNat, by omega, hcell⟩

theorem pathArrs_freePath_of_none (h : ∀ b, t.pathArrs b = none) (b : ℕ) :
    t.freePath.pathArrs b = none := by
  by_contra hne
  have hold := (PathTab.pathArrs_freePath (Option.isSome_iff_ne_none.mpr hne)).1
  rw [h] at hold
  cases hold

/-! ## Resizing and loading -/

/-- After a resizing, with success or not, there are no arrays and no paths. -/
theorem Ledger.exact_resize (h : t.Ledger) (hexact : t.Exact) (newcount : ℤ) (tableOk : Bool)
    (rowOk : ℕ → Bool) : (t.resize newcount tableOk rowOk).1.Exact := by
  have hfree := h.pathArrs_freePath hexact
  refine exact_of_none (fun b => ?_) (resize_frame t newcount tableOk rowOk).1
  rcases resize_cases t newcount tableOk rowOk with heq | ⟨-, heq⟩ | ⟨i, -, heq⟩
  · rw [heq]
    exact pathArrs_freePath_of_none hfree b
  · rw [heq]
    exact hfree b
  · rw [heq]
    exact pathArrs_freePath_of_none (t := { t.withRows newcount i with nodecount := i - 1 }) hfree b

theorem pathArrs_uninitPaths (t : PathTab) : t.uninitPaths.pathArrs = t.freePath.pathArrs := by
  unfold uninitPaths
  dsimp only
  cases t.freePath.hoptable <;> rfl

/-- After a load, with success or not, there are no arrays and no paths. -/
theorem Ledger.exact_load (h : t.Ledger) (hexact : t.Exact) (hz : ℕ) (l : HopLoad) :
    (t.load hz l).1.Exact := by
  have hnone := loadHoptable_pathtable hz t l.hopcount l.hops l.tableOk l.exittickOk l.slotlenOk
  have hold : ∀ b, t.uninitPaths.pathArrs b = none := fun b => by
    rw [pathArrs_uninitPaths]
    exact h.pathArrs_freePath hexact b
  refine exact_of_none (fun b => ?_) fun b => not_installed_of_none hnone
  by_cases hok : l.tableOk = true
  · unfold PathTab.load loadHoptable
    dsimp only
    rw [if_pos hok]
    exact (congrFun (keeps_loadHops _ _ _ _ _ _ _ _).pathArrs b).trans (hold b)
  · rw [t.load_of_not_tableOk hok]
    exact hold b

/-- What was freed before the load, with the old tables, was allocated before it. -/
theorem Ledger.freed_load_lt (h : t.Ledger) (ht : t.Tidy) (hz : ℕ) (l : HopLoad) :
    ∀ b ∈ (t.alloc.load hz l).1.freed, b < t.nextBlock := by
  have hun := (h.uninitPaths ht).freed
  rw [ht.uninitPaths.2.2.2] at hun
  -- the allocation before it makes no difference to what is freed
  have hpath : t.alloc.freePath.freed = t.freePath.freed := by
    cases hrows : t.pathtable with
    | none =>
      rw [freed_freePath_of_none hrows, freed_freePath_of_none (t := t.alloc) hrows]
      rfl
    | some rows =>
      rw [PathTab.freed_freePath hrows, PathTab.freed_freePath (t := t.alloc) hrows]
      rfl
  have hfreed : t.alloc.uninitPaths.freed = t.uninitPaths.freed := by
    have hhop := (freePath_frame t).2.2.1
    have hhop' : t.alloc.freePath.hoptable = t.hoptable := (freePath_frame t.alloc).2.2.1
    unfold PathTab.uninitPaths
    dsimp only
    rw [hhop, hhop']
    cases t.hoptable with
    | none => exact hpath
    | some b => exact congrArg (· ++ [b]) hpath
  have hload : (t.alloc.load hz l).1.freed = t.alloc.uninitPaths.freed := by
    by_cases hok : l.tableOk = true
    · unfold PathTab.load loadHoptable
      dsimp only
      rw [if_pos hok, loadHops_freed]
      rfl
    · rw [t.alloc.load_of_not_tableOk hok]
  rw [hload, hfreed]
  exact hun

/-! ## Storing a path -/

theorem writeCell_freed (t : PathTab) (row col : ℤ) (v : Option ℕ) :
    (t.writeCell row col v).freed = t.freed := by
  unfold writeCell
  cases t.pathtable with
  | none => rfl
  | some rows =>
    dsimp only
    split_ifs <;> rfl

section Store

variable (t) (hoptab : ℕ) (srcNode dstNode : ℤ) (hops : List Int32) (pathOk : Bool)

/-- The tables after `storePath`, with the buffer of the hops in block `t.nextBlock`. -/
def stored : PathTab :=
  let r := t.alloc.storePath hoptab srcNode dstNode hops pathOk
  if r.2 then r.1.kfree t.nextBlock else r.1

theorem freed_stored :
    (t.stored hoptab srcNode dstNode hops pathOk).freed =
      if pathOk then t.freed ++ [t.nextBlock] else t.freed := by
  cases pathOk with
  | true => exact congrArg (· ++ [t.nextBlock]) (writeCell_freed _ srcNode dstNode _)
  | false => exact writeCell_freed t.alloc srcNode dstNode none

theorem pathArrs_stored (b : ℕ) :
    (t.stored hoptab srcNode dstNode hops pathOk).pathArrs b =
      if pathOk then
        if b = t.nextBlock then none
        else if b = t.nextBlock + 1 then some (pathCells hoptab hops) else t.pathArrs b
      else t.pathArrs b := by
  cases pathOk with
  | true =>
    have harrs := (writeCell_frame { t.alloc.alloc with
      pathArrs := Function.update t.pathArrs (t.nextBlock + 1) (some (pathCells hoptab hops)) }
      srcNode dstNode (some (t.nextBlock + 1))).1
    show Function.update (writeCell _ _ _ _).pathArrs t.nextBlock none b = _
    rw [if_pos rfl]
    by_cases hb : b = t.nextBlock
    · rw [if_pos hb, hb, Function.update_self]
    · rw [if_neg hb, Function.update_of_ne hb]
      refine (congrFun harrs b).trans ?_
      by_cases hb' : b = t.nextBlock + 1
      · rw [if_pos hb', hb']
        exact Function.update_self _ _ _
      · rw [if_neg hb']
        exact Function.update_of_ne hb' _ _
  | false => exact congrFun (writeCell_frame t.alloc srcNode dstNode none).1 b

theorem readCell_stored (i j : ℤ) :
    (t.stored hoptab srcNode dstNode hops pathOk).readCell i j =
      if i = srcNode ∧ j = dstNode then
        (t.readCell i j).map fun _ => if pathOk then some (t.nextBlock + 1) else none
      else t.readCell i j :=
  (storePath_frame t hoptab srcNode dstNode hops pathOk).1 i j

variable {t hoptab srcNode dstNode hops pathOk}

/-- What is installed afterwards: the new array, and what the other cells held. -/
theorem installed_stored :
    (t.stored hoptab srcNode dstNode hops pathOk).Installed b ↔
      (pathOk = true ∧ (t.readCell srcNode dstNode).isSome ∧ b = t.nextBlock + 1) ∨
      ∃ i j, ¬ (i = srcNode ∧ j = dstNode) ∧ t.readCell i j = some (some b) := by
  constructor
  · rintro ⟨i, j, hread⟩
    rw [readCell_stored] at hread
    by_cases hij : i = srcNode ∧ j = dstNode
    · obtain ⟨rfl, rfl⟩ := hij
      rw [if_pos ⟨rfl, rfl⟩] at hread
      obtain ⟨c, hc, hb⟩ := Option.map_eq_some_iff.mp hread
      cases pathOk with
      | true => exact Or.inl ⟨rfl, by rw [hc]; rfl, (Option.some.inj hb).symm⟩
      | false => cases hb
    · rw [if_neg hij] at hread
      exact Or.inr ⟨i, j, hij, hread⟩
  · rintro (⟨rfl, hcell, rfl⟩ | ⟨i, j, hij, hread⟩)
    · obtain ⟨c, hc⟩ := Option.isSome_iff_exists.mp hcell
      refine ⟨srcNode, dstNode, ?_⟩
      rw [readCell_stored, if_pos ⟨rfl, rfl⟩, hc]
      rfl
    · refine ⟨i, j, ?_⟩
      rw [readCell_stored, if_neg hij]
      exact hread

/-- The cell holds no path, and there is a cell if there is a path to put into it. -/
def Vacant (t : PathTab) (srcNode dstNode : ℤ) (pathOk : Bool) : Prop :=
  (∀ b, t.readCell srcNode dstNode ≠ some (some b)) ∧
    (pathOk = true → (t.readCell srcNode dstNode).isSome)

theorem Ledger.exact_stored (h : t.Ledger) (hexact : t.Exact)
    (hvacant : t.Vacant srcNode dstNode pathOk) :
    (t.stored hoptab srcNode dstNode hops pathOk).Exact := by
  intro b
  have hlt : (t.pathArrs b).isSome → b < t.nextBlock := fun hb =>
    (h.live ((hexact b).mp hb)).1
  -- what was installed is in one of the other cells
  have hother : t.Installed b ↔
      ∃ i j, ¬ (i = srcNode ∧ j = dstNode) ∧ t.readCell i j = some (some b) := by
    constructor
    · rintro ⟨i, j, hread⟩
      refine ⟨i, j, ?_, hread⟩
      rintro ⟨rfl, rfl⟩
      exact hvacant.1 b hread
    · rintro ⟨i, j, -, hread⟩
      exact ⟨i, j, hread⟩
  rw [installed_stored, ← hother, pathArrs_stored, ← hexact b]
  cases pathOk with
  | true =>
    rw [if_pos rfl]
    split_ifs with hb hb'
    · refine iff_of_false Bool.false_ne_true ?_
      rintro (⟨-, -, hb'⟩ | harr)
      · omega
      · exact absurd (hlt harr) (by omega)
    · exact iff_of_true rfl (Or.inl ⟨rfl, hvacant.2 rfl, hb'⟩)
    · exact ⟨Or.inr, fun hor => hor.resolve_left fun hnew => hb' hnew.2.2⟩
  | false =>
    exact ⟨Or.inr, fun hor => hor.resolve_left fun hnew => Bool.false_ne_true hnew.1⟩

/-- **A path stored elsewhere**: over another one, or outside of the table. -/
theorem Ledger.not_shown_stored (h : t.Ledger) (hexact : t.Exact)
    (hvacant : ¬ t.Vacant srcNode dstNode pathOk) :
    ¬ (t.stored hoptab srcNode dstNode hops pathOk).Shown := by
  intro hshown
  have hnext : pathOk = true →
      (t.stored hoptab srcNode dstNode hops pathOk).nextBlock = t.nextBlock + 2 := fun hok =>
    ((storePath_frame t hoptab srcNode dstNode hops pathOk).2.2.2.2.2.1 hok).1
  have hle : t.nextBlock < (t.stored hoptab srcNode dstNode hops pathOk).nextBlock :=
    (storePath_frame t hoptab srcNode dstNode hops pathOk).2.2.2.2.2.2
  -- a block whose array is there and which was not freed
  have hlive : ∀ b, ((t.stored hoptab srcNode dstNode hops pathOk).pathArrs b).isSome →
      b < (t.stored hoptab srcNode dstNode hops pathOk).nextBlock → b ∉ t.freed → b ≠ t.nextBlock →
      (t.stored hoptab srcNode dstNode hops pathOk).Installed b := by
    intro b harr hb hfreed hne
    refine (hshown.live_iff b).mp ⟨⟨hb, ?_⟩, harr⟩
    rw [freed_stored]
    split_ifs
    · exact fun hm => (List.mem_append.mp hm).elim hfreed fun hm =>
        hne (List.mem_singleton.mp hm)
    · exact hfreed
  refine hvacant ⟨fun b hread => ?_, fun hok => ?_⟩
  · -- the path that was in the cell
    have hinst : t.Installed b := ⟨srcNode, dstNode, hread⟩
    obtain ⟨hb, hfreed⟩ := h.live hinst
    have harr : ((t.stored hoptab srcNode dstNode hops pathOk).pathArrs b).isSome := by
      have hold := (hexact b).mpr hinst
      rw [pathArrs_stored, if_neg (by omega : ¬ b = t.nextBlock),
        if_neg (by omega : ¬ b = t.nextBlock + 1), ite_self]
      exact hold
    rcases installed_stored.mp (hlive b harr (hb.trans hle) hfreed (by omega)) with
      ⟨-, -, hnew⟩ | ⟨i, j, hij, hread'⟩
    · omega
    · exact hij (h.once hread' hread)
  · -- the new path
    subst hok
    have hfresh : t.nextBlock + 1 ∉ t.freed := fun hm => absurd (h.freed _ hm) (by omega)
    have harr : ((t.stored hoptab srcNode dstNode hops true).pathArrs (t.nextBlock + 1)).isSome := by
      rw [pathArrs_stored, if_pos rfl, if_neg (by omega : ¬ t.nextBlock + 1 = t.nextBlock),
        if_pos rfl]
      rfl
    rcases installed_stored.mp (hlive _ harr (by rw [hnext rfl]; omega) hfresh (by omega)) with
      ⟨-, hcell, -⟩ | ⟨i, j, -, hread⟩
    · exact hcell
    · exact absurd (h.live ⟨i, j, hread⟩).1 (by omega)

end Store

end PathTab

end Modelnet

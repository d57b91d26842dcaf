import Modelnet.IndexSafety

/-!
# What the path table points to

A path that can be taken lies in an array that a cell of `pathtable` points to, and names elements
of the hop table. `PathTab.Intact` says this of all the cells. Freeing and loading leave no path
behind, and storing a path of hops keeps the others, except for the one in the cell it overwrites.
-/

namespace Modelnet

namespace PathTab

/-- `hoptable + i`, for a hop of the hop table. -/
structure Element (t : PathTab) (h : HopPtr) : Prop where
  table : t.hoptable = some h.tab
  index : t.IsHop h.idx
  live : (t.hops h).isSome

/-- A cell of `pathtable` points to the array in block `arr`. -/
def Installed (t : PathTab) (arr : ℕ) : Prop := ∃ row col, t.readCell row col = some (some arr)

/-- The block `arr` holds the hops `hs` and a null. -/
structure IsPath (t : PathTab) (arr : ℕ) (hs : List HopPtr) : Prop where
  cells : t.pathArrs arr = some (hs.map some ++ [none])
  element : ∀ h ∈ hs, t.Element h

/-- The cells point to paths, in blocks already allocated, and the hop table has its hops. -/
structure Intact (t : PathTab) : Prop where
  path : ∀ arr, t.Installed arr → ∃ hs, t.IsPath arr hs
  fresh : ∀ arr, t.Installed arr → arr < t.nextBlock
  live : ∀ b, t.hoptable = some b → ∀ i, t.IsHop i → (t.hops ⟨b, i⟩).isSome

/-- `path` is a position of an installed path. -/
def OnPath (t : PathTab) (path : PathPtr) : Prop :=
  t.Installed path.arr ∧ ∃ hs, t.IsPath path.arr hs ∧ path.off ≤ hs.length

variable {t t' : PathTab} {arr : ℕ} {path : PathPtr}

theorem Intact.onPath (h : t.Intact) (harr : t.Installed arr) : t.OnPath ⟨arr, 0⟩ := by
  obtain ⟨hs, hpath⟩ := h.path arr harr
  exact ⟨harr, hs, hpath, Nat.zero_le _⟩

theorem OnPath.advance (h : t.OnPath path) {ptr : HopPtr}
    (hread : t.readPath path = some (some ptr)) : t.OnPath ⟨path.arr, path.off + 1⟩ := by
  obtain ⟨hinst, hs, hpath, hoff⟩ := h
  refine ⟨hinst, hs, hpath, Nat.lt_of_le_of_ne hoff fun heq => ?_⟩
  unfold readPath at hread
  rw [hpath.cells, Option.bind_some, heq, List.getElem?_append_right (by simp), List.length_map,
    Nat.sub_self] at hread
  cases hread

/-! ## Tables with the same paths -/

/-- `t'` has the paths and the hops of `t`. -/
structure Keeps (t t' : PathTab) : Prop where
  pathtable : t'.pathtable = t.pathtable
  pathArrs : t'.pathArrs = t.pathArrs
  hoptable : t'.hoptable = t.hoptable
  hopcount : t'.hopcount = t.hopcount
  hops : ∀ h, (t.hops h).isSome → (t'.hops h).isSome
  nextBlock : t.nextBlock ≤ t'.nextBlock

theorem Keeps.refl (t : PathTab) : t.Keeps t :=
  ⟨rfl, rfl, rfl, rfl, fun _ h => h, Nat.le_refl _⟩

theorem keeps_alloc (t : PathTab) : t.Keeps t.alloc :=
  ⟨rfl, rfl, rfl, rfl, fun _ h => h, Nat.le_succ _⟩

theorem keeps_writeNodetable (t : PathTab) (pos : ℕ) (bytes : List (BitVec 8)) :
    t.Keeps (t.writeNodetable pos bytes) :=
  ⟨rfl, rfl, rfl, rfl, fun _ h => h, Nat.le_refl _⟩

theorem keeps_setHop (t : PathTab) (ptr : HopPtr) (hop : Hop) : t.Keeps (t.setHop ptr hop) := by
  refine ⟨rfl, rfl, rfl, rfl, fun h hlive => ?_, Nat.le_refl _⟩
  by_cases heq : h = ptr
  · subst heq
    show (Function.update t.hops h (some hop) h).isSome
    rw [Function.update_self]
    rfl
  · show (Function.update t.hops ptr (some hop) h).isSome
    rw [Function.update_of_ne heq]
    exact hlive

theorem Element.congr {h : HopPtr} (helem : t.Element h) (hhop : t'.hoptable = t.hoptable)
    (hcount : t'.hopcount = t.hopcount) (hlive : (t.hops h).isSome → (t'.hops h).isSome) :
    t'.Element h := by
  refine ⟨hhop.trans helem.table, ?_, hlive helem.live⟩
  unfold IsHop
  rw [hcount]
  exact helem.index

theorem Keeps.installed (h : t.Keeps t') : t'.Installed arr ↔ t.Installed arr := by
  unfold Installed readCell
  rw [h.pathtable]

theorem Keeps.isPath (h : t.Keeps t') {hs : List HopPtr} (hpath : t.IsPath arr hs) :
    t'.IsPath arr hs :=
  ⟨(congrFun h.pathArrs arr).trans hpath.cells,
    fun ptr hptr => (hpath.element ptr hptr).congr h.hoptable h.hopcount (h.hops ptr)⟩

theorem Keeps.onPath (h : t.Keeps t') (hpath : t.OnPath path) : t'.OnPath path := by
  obtain ⟨hinst, hs, hpath, hoff⟩ := hpath
  exact ⟨h.installed.mpr hinst, hs, h.isPath hpath, hoff⟩

theorem Keeps.intact (h : t.Keeps t') (hint : t.Intact) : t'.Intact := by
  refine ⟨fun arr harr => ?_, fun arr harr => ?_, fun b hb i hi => ?_⟩
  · obtain ⟨hs, hpath⟩ := hint.path arr (h.installed.mp harr)
    exact ⟨hs, h.isPath hpath⟩
  · exact (hint.fresh arr (h.installed.mp harr)).trans_le h.nextBlock
  · unfold IsHop at hi
    rw [h.hopcount] at hi
    exact h.hops _ (hint.live b (h.hoptable.symm.trans hb) i hi)

/-! ## Tables without paths -/

theorem not_installed_of_none (h : t.pathtable = none) : ¬ t.Installed arr := by
  rintro ⟨row, col, hread⟩
  unfold readCell at hread
  rw [h] at hread
  cases hread

theorem intact_of_not_installed (h : ∀ arr, ¬ t.Installed arr)
    (hlive : ∀ b, t.hoptable = some b → ∀ i, t.IsHop i → (t.hops ⟨b, i⟩).isSome) : t.Intact :=
  ⟨fun arr harr => absurd harr (h arr), fun arr harr => absurd harr (h arr), hlive⟩

theorem Intact.kfree (h : t.Intact) {b : ℕ} (hb : ¬ t.Installed b) : (t.kfree b).Intact := by
  refine ⟨fun arr harr => ?_, h.fresh, h.live⟩
  obtain ⟨hs, hpath⟩ := h.path arr harr
  have hne : arr ≠ b := fun heq => hb (heq ▸ harr)
  exact ⟨hs, (Function.update_of_ne hne _ _).trans hpath.cells,
    fun ptr hptr => (hpath.element ptr hptr).congr rfl rfl id⟩

theorem intact_empty : PathTab.empty.Intact :=
  intact_of_not_installed (fun _ => not_installed_of_none rfl) fun b hb => by cases hb

/-- Allocating rows, with success or not, leaves the hops alone and stores no path. -/
theorem allocRows_frame (rowOk : ℕ → Bool) (m : ℕ) (t : PathTab) (rows : PathRows)
    (hcell : ∀ i j, rows.cell i j = none) :
    (∀ arr, ¬ (allocRows rowOk m t rows).1.Installed arr) ∧
      (allocRows rowOk m t rows).1.hoptable = t.hoptable ∧
      (allocRows rowOk m t rows).1.hopcount = t.hopcount ∧
      (allocRows rowOk m t rows).1.hops = t.hops := by
  induction m generalizing t rows with
  | zero =>
    refine ⟨fun arr harr => ?_, rfl, rfl, rfl⟩
    obtain ⟨row, col, hread⟩ := harr
    unfold readCell allocRows at hread
    dsimp only at hread
    rw [Option.bind_some] at hread
    split_ifs at hread
    rw [hcell] at hread
    cases hread
  | succ m ih =>
    unfold allocRows
    dsimp only
    split_ifs with hok
    · exact ih t.alloc _ hcell
    · obtain ⟨hnone, -, hhop, hcount, hops⟩ :=
        freePath_frame { t with pathtable := some rows, nodecount := rows.rows.length - 1 }
      exact ⟨fun _ => not_installed_of_none hnone, hhop, hcount, hops⟩

theorem resize_frame (t : PathTab) (newcount : ℤ) (tableOk : Bool) (rowOk : ℕ → Bool) :
    (∀ arr, ¬ (t.resize newcount tableOk rowOk).1.Installed arr) ∧
      (t.resize newcount tableOk rowOk).1.hoptable = t.hoptable ∧
      (t.resize newcount tableOk rowOk).1.hopcount = t.hopcount ∧
      (t.resize newcount tableOk rowOk).1.hops = t.hops := by
  obtain ⟨-, -, hhop, hcount, hops⟩ := freePath_frame t
  unfold resize
  dsimp only
  split_ifs with hok
  · obtain ⟨hinst, hhop', hcount', hops'⟩ := allocRows_frame rowOk newcount.toNat
      (alloc { t.freePath with nodecount := newcount })
      ⟨t.freePath.nextBlock, [], newcount.toNat, fun _ _ => none⟩ fun _ _ => rfl
    exact ⟨hinst, hhop'.trans hhop, hcount'.trans hcount, hops'.trans hops⟩
  · obtain ⟨hnone, -, hhop', hcount', hops'⟩ :=
      freePath_frame { t.freePath with nodecount := newcount }
    exact ⟨fun _ => not_installed_of_none hnone, hhop'.trans hhop, hcount'.trans hcount,
      hops'.trans hops⟩

theorem Intact.resize (h : t.Intact) (newcount : ℤ) (tableOk : Bool) (rowOk : ℕ → Bool) :
    (t.resize newcount tableOk rowOk).1.Intact := by
  obtain ⟨hinst, hhop, hcount, hops⟩ := resize_frame t newcount tableOk rowOk
  refine intact_of_not_installed hinst fun b hb i hi => ?_
  unfold IsHop at hi
  rw [hcount] at hi
  rw [hops]
  exact h.live b (hhop.symm.trans hb) i hi

theorem keeps_loadHops (hz b : ℕ) (hops : ℕ → SysctlHop) (exittickOk slotlenOk : ℕ → Bool)
    (m i : ℕ) (t : PathTab) : t.Keeps (loadHops hz b hops exittickOk slotlenOk m i t).1 := by
  induction m generalizing i t with
  | zero => exact Keeps.refl t
  | succ m ih =>
    unfold loadHops
    dsimp only
    split_ifs
    · have hset := keeps_setHop t ⟨b, i⟩ { Hop.zero.configure hz i (hops i) with
        exittickAlloc := true, slotlenAlloc := true }
      have hrest := ih (i + 1) (t.setHop ⟨b, i⟩ { Hop.zero.configure hz i (hops i) with
        exittickAlloc := true, slotlenAlloc := true })
      exact ⟨hrest.pathtable.trans hset.pathtable, hrest.pathArrs.trans hset.pathArrs,
        hrest.hoptable.trans hset.hoptable, hrest.hopcount.trans hset.hopcount,
        fun h hlive => hrest.hops h (hset.hops h hlive), hset.nextBlock.trans hrest.nextBlock⟩
    · exact keeps_setHop t _ _
    · exact keeps_setHop t _ _

/-- A hop table that is loaded, with success or not, has its hops. -/
theorem intact_loadHoptable (hz : ℕ) (t : PathTab) (hopcount : ℤ) (hops : ℕ → SysctlHop)
    (tableOk : Bool) (exittickOk slotlenOk : ℕ → Bool) :
    (t.loadHoptable hz hopcount hops tableOk exittickOk slotlenOk).1.Intact := by
  have hnone := loadHoptable_pathtable hz t hopcount hops tableOk exittickOk slotlenOk
  refine intact_of_not_installed (fun _ => not_installed_of_none hnone) ?_
  unfold loadHoptable
  dsimp only
  split_ifs
  · intro b hb i hi
    have hkeeps := keeps_loadHops hz t.uninitPaths.nextBlock hops exittickOk slotlenOk
      hopcount.toNat 0 { t.uninitPaths.alloc with
        hoptable := some t.uninitPaths.nextBlock
        hopcount := hopcount
        hops := fun ptr => if ptr.tab = t.uninitPaths.nextBlock ∧ 0 ≤ ptr.idx ∧ ptr.idx < hopcount
          then some Hop.zero else t.uninitPaths.hops ptr }
    unfold IsHop at hi
    rw [hkeeps.hoptable] at hb
    rw [hkeeps.hopcount] at hi
    cases hb
    refine hkeeps.hops _ ?_
    dsimp only at hi ⊢
    rw [if_pos ⟨rfl, hi⟩]
    rfl
  · intro b hb
    cases hb

/-! ## Storing a path -/

theorem writeCell_frame (t : PathTab) (row col : ℤ) (v : Option ℕ) :
    (t.writeCell row col v).pathArrs = t.pathArrs ∧
      (t.writeCell row col v).hoptable = t.hoptable ∧
      (t.writeCell row col v).hopcount = t.hopcount ∧ (t.writeCell row col v).hops = t.hops ∧
      (t.writeCell row col v).nextBlock = t.nextBlock := by
  unfold writeCell
  cases t.pathtable with
  | none => exact ⟨rfl, rfl, rfl, rfl, rfl⟩
  | some rows =>
    dsimp only
    split_ifs <;> exact ⟨rfl, rfl, rfl, rfl, rfl⟩

/-- A cell that was written holds what was written, and the others what they held. -/
theorem readCell_writeCell (t : PathTab) (row col i j : ℤ) (v : Option ℕ) :
    (t.writeCell row col v).readCell i j =
      if i = row ∧ j = col then (t.readCell i j).map fun _ => v else t.readCell i j := by
  unfold writeCell readCell
  cases hrows : t.pathtable with
  | none =>
    dsimp only
    rw [hrows]
    split_ifs <;> rfl
  | some rows =>
    dsimp only
    rw [Option.bind_some]
    by_cases hin : 0 ≤ row ∧ row < rows.dim ∧ 0 ≤ col ∧ col < rows.dim
    · rw [if_pos hin, Option.bind_some]
      dsimp only
      by_cases heq : i = row ∧ j = col
      · obtain ⟨rfl, rfl⟩ := heq
        rw [if_pos hin, if_pos ⟨rfl, rfl⟩, if_pos hin, if_pos ⟨rfl, rfl⟩]
        rfl
      · rw [if_neg heq]
        split_ifs with hrange hcell
        · exact absurd (by omega) heq
        · rfl
        · rfl
    · rw [if_neg hin, hrows, Option.bind_some]
      by_cases heq : i = row ∧ j = col
      · obtain ⟨rfl, rfl⟩ := heq
        rw [if_neg hin, if_pos ⟨rfl, rfl⟩]
        rfl
      · rw [if_neg heq]

/-- What storing a path does, with success or not: the cell points to the path or to nothing, and
no other array that was allocated changes. -/
theorem storePath_frame (t : PathTab) (hoptab : ℕ) (srcNode dstNode : ℤ) (hops : List Int32)
    (pathOk : Bool) :
    let r := t.alloc.storePath hoptab srcNode dstNode hops pathOk
    let t' := if r.2 then r.1.kfree t.nextBlock else r.1
    (∀ i j, t'.readCell i j = if i = srcNode ∧ j = dstNode then
      (t.readCell i j).map fun _ => if pathOk then some (t.nextBlock + 1) else none
      else t.readCell i j) ∧
    t'.hoptable = t.hoptable ∧ t'.hopcount = t.hopcount ∧ t'.hops = t.hops ∧
    (∀ arr < t.nextBlock, t'.pathArrs arr = t.pathArrs arr) ∧
    (pathOk → t'.nextBlock = t.nextBlock + 2 ∧
      t'.pathArrs (t.nextBlock + 1) = some (pathCells hoptab hops)) ∧
    t.nextBlock < t'.nextBlock := by
  intro r t'
  cases pathOk with
  | true =>
    obtain ⟨harrs, hhop, hcount, hops', hnext⟩ := writeCell_frame
      { t.alloc.alloc with
        pathArrs := Function.update t.pathArrs (t.nextBlock + 1) (some (pathCells hoptab hops)) }
      srcNode dstNode (some (t.nextBlock + 1))
    refine ⟨fun i j => readCell_writeCell _ srcNode dstNode i j _, hhop, hcount, hops', ?_, ?_, ?_⟩
    · intro arr harr
      have hkfree : t'.pathArrs arr = r.1.pathArrs arr := Function.update_of_ne (by omega) _ _
      have hstore : r.1.pathArrs arr = Function.update t.pathArrs _ _ arr := congrFun harrs arr
      rw [hkfree, hstore, Function.update_of_ne (by omega)]
    · have hkfree : t'.pathArrs (t.nextBlock + 1) = r.1.pathArrs (t.nextBlock + 1) :=
        Function.update_of_ne (by omega) _ _
      have hstore : r.1.pathArrs (t.nextBlock + 1) = Function.update t.pathArrs _ _ _ :=
        congrFun harrs _
      rw [hkfree, hstore, Function.update_self]
      exact fun _ => ⟨hnext, rfl⟩
    · have hnext' : t'.nextBlock = t.nextBlock + 2 := hnext
      omega
  | false =>
    obtain ⟨harrs, hhop, hcount, hops', hnext⟩ := writeCell_frame t.alloc srcNode dstNode none
    refine ⟨fun i j => readCell_writeCell _ srcNode dstNode i j _, hhop, hcount, hops', ?_, ?_, ?_⟩
    · exact fun arr _ => congrFun harrs arr
    · exact fun h => by cases h
    · exact Nat.lt_of_lt_of_eq (Nat.lt_succ_self _) hnext.symm

/-- **Storing a path** of hops keeps the tables intact, and every path but the one in the cell. -/
theorem Intact.storePath {hoptab : ℕ} {hops : List Int32} (h : t.Intact)
    (hhop : t.hoptable = some hoptab) (srcNode dstNode : ℤ) (hin : ∀ x ∈ hops, t.IsHop x.toInt)
    (pathOk : Bool) :
    let r := t.alloc.storePath hoptab srcNode dstNode hops pathOk
    let t' := if r.2 then r.1.kfree t.nextBlock else r.1
    t'.Intact ∧ ∀ path, t.OnPath path → t.readCell srcNode dstNode ≠ some (some path.arr) →
      t'.OnPath path := by
  intro r t'
  obtain ⟨hread, hhop', hcount, hops', harrs, hnew, hnext⟩ :=
    storePath_frame t hoptab srcNode dstNode hops pathOk
  have helem : ∀ ptr, t.Element ptr → t'.Element ptr := fun ptr hptr =>
    hptr.congr hhop' hcount fun hlive => by rw [hops']; exact hlive
  have hold : ∀ arr hs, t.Installed arr → t.IsPath arr hs → t'.IsPath arr hs :=
    fun arr hs hinst hpath => ⟨(harrs arr (h.fresh arr hinst)).trans hpath.cells,
      fun ptr hptr => helem ptr (hpath.element ptr hptr)⟩
  -- an array is installed in the cell, or was installed before
  have hinst : ∀ arr, t'.Installed arr → t.Installed arr ∨ pathOk = true ∧ arr = t.nextBlock + 1 := by
    rintro arr ⟨i, j, hcell⟩
    rw [hread] at hcell
    split_ifs at hcell with heq hok
    · obtain ⟨c, -, hc⟩ := Option.map_eq_some_iff.mp hcell
      exact Or.inr ⟨hok, (Option.some.inj hc).symm⟩
    · obtain ⟨c, -, hc⟩ := Option.map_eq_some_iff.mp hcell
      cases hc
    · exact Or.inl ⟨i, j, hcell⟩
  refine ⟨⟨fun arr harr => ?_, fun arr harr => ?_, fun b hb i hi => ?_⟩, ?_⟩
  · rcases hinst arr harr with hinst | ⟨hok, rfl⟩
    · obtain ⟨hs, hpath⟩ := h.path arr hinst
      exact ⟨hs, hold arr hs hinst hpath⟩
    · refine ⟨hops.map fun x => ⟨hoptab, x.toInt⟩, ?_, fun ptr hptr => ?_⟩
      · rw [(hnew hok).2, List.map_map]
        rfl
      · obtain ⟨x, hx, rfl⟩ := List.mem_map.mp hptr
        exact helem _ ⟨hhop, hin x hx, h.live hoptab hhop _ (hin x hx)⟩
  · rcases hinst arr harr with hinst | ⟨hok, rfl⟩
    · exact (h.fresh arr hinst).trans hnext
    · rw [(hnew hok).1]
      exact Nat.lt_succ_self _
  · unfold IsHop at hi
    rw [hcount] at hi
    rw [hops']
    exact h.live b (hhop'.symm.trans hb) i hi
  · rintro path ⟨⟨i, j, hcell⟩, hs, hpath, hoff⟩ hne
    refine ⟨⟨i, j, ?_⟩, hs, hold _ hs ⟨i, j, hcell⟩ hpath, hoff⟩
    rw [hread, if_neg]
    · exact hcell
    · rintro ⟨rfl, rfl⟩
      exact hne hcell

end PathTab

end Modelnet

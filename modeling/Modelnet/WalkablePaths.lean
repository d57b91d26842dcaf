import Modelnet.PathWalk
import Modelnet.PathStorage

/-!
# Paths that can be walked

A path array holds its hops and a null behind them (`Walkable`), so that a packet reads a hop at
every position below the length of its path, the null at the length, and nothing beyond. Freeing,
resizing and loading leave arrays alone or free them; storing a path adds one for as many hops as
its `pathlen` says.
-/

namespace Modelnet

namespace PathTab

def pathlen (t : PathTab) (arr : ℕ) : ℕ := t.hopsFrom ⟨arr, 0⟩

/-- A position of a path: one of its hops, or the null behind them. -/
def Within (t : PathTab) (path : PathPtr) : Prop :=
  (t.pathArrs path.arr).isSome ∧ path.off ≤ t.pathlen path.arr

/-- Arrays hold hops and a null, fewer hops than an `int` counts, and the cells of `pathtable` point
to arrays. -/
structure Walkable (t : PathTab) : Prop where
  shape : ∀ arr cells, t.pathArrs arr = some cells →
    ∃ hs : List HopPtr, cells = hs.map some ++ [none] ∧ hs.length < 2 ^ 31
  present : ∀ arr, t.Installed arr → (t.pathArrs arr).isSome

/-- No array is new or has changed. -/
def Fewer (t t' : PathTab) : Prop :=
  ∀ arr cells, t'.pathArrs arr = some cells → t.pathArrs arr = some cells

variable {t t' t'' : PathTab} {arr : ℕ} {path : PathPtr} {hs : List HopPtr}

/-! ## Positions -/

theorem pathlen_eq (h : t.pathArrs arr = some (hs.map some ++ [none])) : t.pathlen arr = hs.length := by
  unfold pathlen hopsFrom
  have htake : (hs.map some ++ [none]).takeWhile Option.isSome = hs.map some := by
    rw [List.takeWhile_append_of_pos, List.takeWhile_cons_of_neg (by simp), List.append_nil]
    intro cell hcell
    obtain ⟨h, -, rfl⟩ := List.mem_map.mp hcell
    rfl
  rw [h, Option.map_some, Option.getD_some, List.drop_zero, htake, List.length_map]

theorem pathCells_eq (hoptab : ℕ) (hops : List Int32) :
    pathCells hoptab hops = (hops.map fun h => (⟨hoptab, h.toInt⟩ : HopPtr)).map some ++ [none] := by
  rw [List.map_map]
  rfl

theorem pathlen_congr (h : t'.pathArrs = t.pathArrs) : t'.pathlen arr = t.pathlen arr :=
  congrFun (hopsFrom_congr h) _

namespace Walkable

theorem pathlen_lt (h : t.Walkable) (arr : ℕ) : t.pathlen arr < 2 ^ 31 := by
  cases hcells : t.pathArrs arr with
  | none =>
    have hzero : t.pathlen arr = 0 := by
      unfold pathlen hopsFrom
      rw [hcells]
      rfl
    omega
  | some cells =>
    obtain ⟨hs, rfl, hlen⟩ := h.shape arr cells hcells
    rwa [pathlen_eq hcells]

theorem readPath (h : t.Walkable) (path : PathPtr) (hsome : (t.pathArrs path.arr).isSome) :
    (path.off < t.pathlen path.arr → ∃ ptr, t.readPath path = some (some ptr)) ∧
      (path.off = t.pathlen path.arr → t.readPath path = some none) ∧
      (t.pathlen path.arr < path.off → t.readPath path = none) := by
  obtain ⟨cells, hcells⟩ := Option.isSome_iff_exists.mp hsome
  obtain ⟨hs, rfl, -⟩ := h.shape path.arr cells hcells
  rw [pathlen_eq hcells]
  unfold PathTab.readPath
  rw [hcells, Option.bind_some]
  refine ⟨fun hlt => ⟨hs[path.off], ?_⟩, fun heq => ?_, fun hgt => ?_⟩
  · rw [List.getElem?_append_left (by simpa using hlt), List.getElem?_map,
      List.getElem?_eq_getElem hlt, Option.map_some]
  · rw [List.getElem?_append_right (by simp [heq]), List.length_map, heq, Nat.sub_self]
    rfl
  · rw [List.getElem?_eq_none]
    rw [List.length_append, List.length_map, List.length_singleton]
    exact hgt

theorem within_of_readPath (h : t.Walkable) {cell : Option HopPtr}
    (hread : t.readPath path = some cell) : t.Within path := by
  obtain ⟨cells, hcells, -⟩ := readPath_eq_some hread
  have hsome : (t.pathArrs path.arr).isSome := Option.isSome_of_eq_some hcells
  refine ⟨hsome, Nat.le_of_not_lt fun hgt => ?_⟩
  rw [(h.readPath path hsome).2.2 hgt] at hread
  cases hread

theorem lt_of_readPath (h : t.Walkable) {ptr : HopPtr}
    (hread : t.readPath path = some (some ptr)) : path.off < t.pathlen path.arr := by
  have hin := h.within_of_readPath hread
  refine Nat.lt_of_le_of_ne hin.2 fun heq => ?_
  rw [(h.readPath path hin.1).2.1 heq] at hread
  cases hread

/-! ## Changes of the tables -/

theorem congr (h : t.Walkable) (harrs : t'.pathArrs = t.pathArrs)
    (htable : t'.pathtable = t.pathtable) : t'.Walkable := by
  refine ⟨fun arr cells hcells => h.shape arr cells ?_, fun arr harr => ?_⟩
  · rw [← harrs]
    exact hcells
  · rw [harrs]
    refine h.present arr ?_
    unfold Installed readCell at harr ⊢
    rwa [← htable]

end Walkable

theorem walkable_empty : PathTab.empty.Walkable where
  shape _ _ hcells := nomatch hcells
  present _ harr := absurd harr (not_installed_of_none rfl)

theorem Fewer.refl (t : PathTab) : t.Fewer t := fun _ _ h => h

theorem Fewer.trans (h : t.Fewer t') (h' : t'.Fewer t'') : t.Fewer t'' := fun arr cells hcells =>
  h arr cells (h' arr cells hcells)

theorem fewer_of_eq (h : t'.pathArrs = t.pathArrs) : t.Fewer t' := fun arr cells hcells => by
  rw [← h]
  exact hcells

theorem fewer_kfree (t : PathTab) (b : ℕ) : t.Fewer (t.kfree b) := by
  intro arr cells hcells
  by_cases harr : arr = b
  · have hnone : (t.kfree b).pathArrs arr = none := by
      rw [harr]
      exact Function.update_self _ _ _
    rw [hnone] at hcells
    cases hcells
  · exact (Function.update_of_ne harr _ _).symm.trans hcells

theorem fewer_foldl_kfree (bs : List ℕ) (t : PathTab) : t.Fewer (bs.foldl kfree t) := by
  intro arr cells hcells
  rw [pathArrs_foldl_kfree] at hcells
  split_ifs at hcells
  exact hcells

theorem fewer_freePath (t : PathTab) : t.Fewer t.freePath := by
  unfold freePath
  cases t.pathtable with
  | none => exact Fewer.refl t
  | some rows =>
    dsimp only
    split_ifs
    · exact ((fewer_foldl_kfree _ t).trans (fewer_foldl_kfree _ _)).trans (fewer_kfree _ _)
    · exact Fewer.refl t

theorem fewer_resize (t : PathTab) (newcount : ℤ) (tableOk : Bool) (rowOk : ℕ → Bool) :
    t.Fewer (t.resize newcount tableOk rowOk).1 := by
  rcases resize_cases t newcount tableOk rowOk with heq | ⟨-, heq⟩ | ⟨i, -, heq⟩
  · rw [heq]
    exact (fewer_freePath t).trans (fewer_freePath { t.freePath with nodecount := newcount })
  · rw [heq]
    exact fewer_freePath t
  · rw [heq]
    exact (fewer_freePath t).trans
      (fewer_freePath { t.withRows newcount i with nodecount := i - 1 })

theorem fewer_load (t : PathTab) (hz : ℕ) (l : HopLoad) : t.Fewer (t.load hz l).1 := by
  have hun : t.Fewer t.uninitPaths := (fewer_freePath t).trans
    (fewer_of_eq (pathArrs_uninitPaths t))
  by_cases hok : l.tableOk = true
  · refine hun.trans (fewer_of_eq ?_)
    unfold PathTab.load loadHoptable
    dsimp only
    rw [if_pos hok]
    exact (keeps_loadHops _ _ _ _ _ _ _ _).pathArrs
  · rw [t.load_of_not_tableOk hok]
    exact hun

namespace Walkable

theorem of_fewer (h : t.Walkable) (hfewer : t.Fewer t') (hnone : ∀ arr, ¬ t'.Installed arr) :
    t'.Walkable :=
  ⟨fun arr cells hcells => h.shape arr cells (hfewer arr cells hcells),
    fun arr harr => absurd harr (hnone arr)⟩

theorem resize (h : t.Walkable) (newcount : ℤ) (tableOk : Bool) (rowOk : ℕ → Bool) :
    (t.resize newcount tableOk rowOk).1.Walkable :=
  h.of_fewer (fewer_resize t newcount tableOk rowOk) (resize_frame t newcount tableOk rowOk).1

theorem load (h : t.Walkable) (hz : ℕ) (l : HopLoad) : (t.load hz l).1.Walkable :=
  h.of_fewer (fewer_load t hz l) fun _ => not_installed_of_none
    (loadHoptable_pathtable hz t l.hopcount l.hops l.tableOk l.exittickOk l.slotlenOk)

theorem kfree (h : t.Walkable) {b : ℕ} (hb : ¬ t.Installed b) : (t.kfree b).Walkable := by
  refine ⟨fun arr cells hcells => h.shape arr cells (fewer_kfree t b arr cells hcells), ?_⟩
  intro arr harr
  have harr : t.Installed arr := harr
  have hne : arr ≠ b := fun heq => hb (heq ▸ harr)
  rw [show (t.kfree b).pathArrs arr = t.pathArrs arr from Function.update_of_ne hne _ _]
  exact h.present arr harr

/-- **A stored path**: an array of its hops and a null, or no array. -/
theorem stored (h : t.Walkable) (hl : t.Ledger) (hoptab : ℕ) (srcNode dstNode : ℤ)
    {hops : List Int32} (hlen : hops.length < 2 ^ 31) (pathOk : Bool) :
    (t.stored hoptab srcNode dstNode hops pathOk).Walkable := by
  refine ⟨fun arr cells hcells => ?_, fun arr harr => ?_⟩
  · rw [pathArrs_stored] at hcells
    split_ifs at hcells
    · cases hcells
      refine ⟨hops.map fun h => ⟨hoptab, h.toInt⟩, pathCells_eq hoptab hops, ?_⟩
      rwa [List.length_map]
    · exact h.shape arr cells hcells
    · exact h.shape arr cells hcells
  · rw [pathArrs_stored]
    rcases installed_stored.mp harr with ⟨rfl, -, rfl⟩ | ⟨i, j, -, hread⟩
    · rw [if_pos rfl, if_neg (Nat.succ_ne_self _), if_pos rfl]
      rfl
    · -- an array in another cell is neither the buffer nor the new array
      have hinst : t.Installed arr := ⟨i, j, hread⟩
      have hlt := (hl.live hinst).1
      have hne : ¬ arr = t.nextBlock := by omega
      have hne' : ¬ arr = t.nextBlock + 1 := by omega
      rw [if_neg hne, if_neg hne', ite_self]
      exact h.present arr hinst

end Walkable

end PathTab

end Modelnet

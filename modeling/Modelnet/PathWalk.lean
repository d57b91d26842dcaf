import Modelnet.PathArrays

/-!
# Walking along a path

A path array ends with a null. The hops from a position on are those up to the null; a step over
one of them leaves one hop less.
-/

namespace Modelnet

namespace PathTab

/-- The number of hops from a position of a path on, up to the null that ends it. -/
def hopsFrom (t : PathTab) (path : PathPtr) : ℕ :=
  ((t.pathArrs path.arr).map fun cells =>
    ((cells.drop path.off).takeWhile Option.isSome).length).getD 0

variable {t t' : PathTab} {path : PathPtr}

theorem hopsFrom_congr (h : t'.pathArrs = t.pathArrs) : t'.hopsFrom = t.hopsFrom := by
  funext path
  unfold hopsFrom
  rw [h]

theorem readPath_eq_some {cell : Option HopPtr} (h : t.readPath path = some cell) :
    ∃ cells, t.pathArrs path.arr = some cells ∧ cells[path.off]? = some cell :=
  Option.bind_eq_some_iff.mp h

theorem hopsFrom_of_readPath {ptr : HopPtr} (h : t.readPath path = some (some ptr)) :
    t.hopsFrom path = t.hopsFrom ⟨path.arr, path.off + 1⟩ + 1 := by
  obtain ⟨cells, hcells, hcell⟩ := readPath_eq_some h
  obtain ⟨hlt, hget⟩ := List.getElem?_eq_some_iff.mp hcell
  unfold hopsFrom
  dsimp only
  rw [hcells, Option.map_some, Option.map_some, Option.getD_some, Option.getD_some,
    List.drop_eq_getElem_cons hlt, hget, List.takeWhile_cons_of_pos rfl, List.length_cons]

theorem hopsFrom_le {cells : List (Option HopPtr)} (h : t.pathArrs path.arr = some cells) :
    t.hopsFrom path ≤ cells.length - path.off := by
  unfold hopsFrom
  rw [h, Option.map_some, Option.getD_some, ← List.length_drop]
  exact (List.takeWhile_sublist _).length_le

end PathTab

end Modelnet

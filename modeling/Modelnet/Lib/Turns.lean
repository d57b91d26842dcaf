import Mathlib.Data.Finset.Card
import Mathlib.Data.List.Rotate

/-!
# Taking turns

The members of a list take turns, around and around, and a group is the set of those that come after
a place. A group of all of them is as large as groups get (`Turns.card_group_le`), and so the least
number of turns for so many different ones is at most the length of the list, unless there are too
few (`Turns.le_card_group_turns`).
-/

namespace Turns

variable {α : Type*} [DecidableEq α] (xs : List α)

/-- The next `k` members after a place. -/
def group (place k : ℕ) : Finset α := ((xs.rotate (place + 1)).take k).toFinset

/-- How many turns it takes from a place until there are so many different ones. -/
def turns (want place : ℕ) : ℕ :=
  ((List.range xs.length).find? fun k => want ≤ (group xs place k).card).getD xs.length

variable {xs} {want place k : ℕ}

@[simp] theorem group_zero : group xs place 0 = ∅ := by simp [group]

theorem group_length : group xs place xs.length = xs.toFinset := by
  ext x
  rw [group, List.take_of_length_le (List.length_rotate xs _).le, List.mem_toFinset,
    List.mem_rotate, List.mem_toFinset]

theorem group_subset : group xs place k ⊆ xs.toFinset := by
  intro x hx
  rw [group, List.mem_toFinset] at hx
  exact List.mem_toFinset.mpr (List.mem_rotate.mp (List.mem_of_mem_take hx))

theorem card_group_le : (group xs place k).card ≤ xs.toFinset.card :=
  Finset.card_le_card group_subset

theorem group_succ {x : α} (hk : k < xs.length) (hx : xs[(place + (k + 1)) % xs.length]? = some x) :
    group xs place (k + 1) = insert x (group xs place k) := by
  have hrotate : (xs.rotate (place + 1))[k]? = some x := by
    rw [List.getElem?_rotate hk, ← hx]
    congr 2
    omega
  ext y
  rw [group, group, List.take_add_one, hrotate, Finset.mem_insert]
  simp only [Option.toList_some, List.toFinset_append, Finset.mem_union, List.mem_toFinset,
    List.mem_singleton]
  exact or_comm

theorem turns_le : turns xs want place ≤ xs.length := by
  unfold turns
  cases h : (List.range xs.length).find? fun k => want ≤ (group xs place k).card with
  | none => exact le_rfl
  | some k => exact (List.mem_range.mp (List.mem_of_find?_eq_some h)).le

theorem card_group_lt (hk : k < turns xs want place) : (group xs place k).card < want := by
  have hlt : k < xs.length := hk.trans_le turns_le
  unfold turns at hk
  cases h : (List.range xs.length).find? fun k => want ≤ (group xs place k).card with
  | none => simpa using List.find?_range_eq_none.mp h k hlt
  | some n =>
    rw [h] at hk
    simpa using (List.find?_range_eq_some.mp h).2.2 k hk

theorem le_card_group_turns (h : want ≤ xs.toFinset.card) :
    want ≤ (group xs place (turns xs want place)).card := by
  unfold turns
  cases hfind : (List.range xs.length).find? fun k => want ≤ (group xs place k).card with
  | none => rwa [Option.getD_none, group_length]
  | some k => simpa using (List.find?_range_eq_some.mp hfind).1

end Turns

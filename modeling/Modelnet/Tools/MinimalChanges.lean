import Mathlib.Algebra.Order.Ring.Int
import Mathlib.Data.Set.Finite.Basic
import Modelnet.Lib.Rows
import Modelnet.Tools.Assigndiff

/-!
# The changes that `assigndiff` leaves

`assigndiff` promises to number the parts so that the fewest pipes change. It does not look for the
best numbering, but lets one part after the other take the number that is best for it, the largest
part first. A number that is a little better for a large part may be much better for a smaller one,
and then there are more changes than necessary. The changes are as few as possible if and only if
the numbers have prices that make each part content with what it takes (`minimalChanges_iff`).
-/

namespace Modelnet.Tools

variable {D : Type} {asg1 asg2 : List ℤ}

/-- How many pipes have another owner than the one that `f` gives to their part. -/
def changed (asg1 asg2 : List ℤ) (f : ℤ → ℤ) : ℕ :=
  (asg1.zip asg2).countP fun asg => asg.1 ≠ f asg.2

/-- The relabelled owners differ from the first ones no more often than with any permutation of the
parts. -/
def MinimalChanges (asg1 asg2 relabelled : List ℤ) : Prop :=
  ∀ σ : ℤ → ℤ, Set.BijOn σ {part | part ∈ asg2} {part | part ∈ asg2} →
    (asg1.zip relabelled).countP (fun asg => asg.1 ≠ asg.2) ≤ changed asg1 asg2 σ

/-! ## The table of the overlaps -/

/-- How many pipes of `part2` belong to `part1` in the first graph. -/
def overlap (asg1 asg2 : List ℤ) (part2 part1 : ℤ) : ℕ :=
  (asg1.zip asg2).countP fun asg => asg.2 = part2 ∧ asg.1 = part1

/-- The part has more pipes than the other one, or as many and the larger number. -/
def Precedes (asg2 : List ℤ) (part part' : ℤ) : Prop :=
  asg2.count part' < asg2.count part ∨ asg2.count part' = asg2.count part ∧ part' < part

/-- The part has more in common with `part1`, or as much and `part1` is not the larger number. -/
def Closer (asg1 asg2 : List ℤ) (part2 part1 part1' : ℤ) : Prop :=
  overlap asg1 asg2 part2 part1' < overlap asg1 asg2 part2 part1 ∨
    overlap asg1 asg2 part2 part1' = overlap asg1 asg2 part2 part1 ∧ part1 ≤ part1'

instance (part2 part1 part1' : ℤ) : Decidable (Closer asg1 asg2 part2 part1 part1') :=
  inferInstanceAs (Decidable (_ ∨ _))

/-- Each part has another number, no part is closer to the number of a part that it precedes, and
with the prices none has more in common with another number than with its own. -/
structure PricedNumbers (asg1 asg2 : List ℤ) (number price : ℤ → ℤ) : Prop where
  bijOn : Set.BijOn number {part | part ∈ asg2} {part | part ∈ asg2}
  closer : ∀ part ∈ asg2, ∀ part' ∈ asg2, Precedes asg2 part part' →
    Closer asg1 asg2 part (number part) (number part')
  best : ∀ part ∈ asg2, ∀ part1 ∈ asg2, (overlap asg1 asg2 part part1 : ℤ) - price part1 ≤
    overlap asg1 asg2 part (number part) - price (number part)

/-- If each part is closest to a number of its own, the prices are 0. -/
theorem pricedNumbers_of_closest {number : ℤ → ℤ}
    (hbij : Set.BijOn number {part | part ∈ asg2} {part | part ∈ asg2})
    (hclosest : ∀ part ∈ asg2, ∀ part1 ∈ asg2, Closer asg1 asg2 part (number part) part1) :
    PricedNumbers asg1 asg2 number fun _ => 0 := by
  refine ⟨hbij, fun part hpart part' hpart' _ => hclosest part hpart _ (hbij.mapsTo hpart'),
    fun part hpart part1 hpart1 => ?_⟩
  rcases hclosest part hpart part1 hpart1 with hlt | ⟨heq, -⟩
  · exact sub_le_sub_right (Nat.cast_le.mpr hlt.le) 0
  · rw [heq]

theorem mismatches_add_overlap (asg1 asg2 : List ℤ) (part2 part1 : ℤ) :
    mismatches asg1 asg2 part2 part1 + overlap asg1 asg2 part2 part1 =
      (asg1.zip asg2).countP fun asg => asg.2 = part2 := by
  unfold mismatches overlap
  induction asg1.zip asg2 with
  | nil => rfl
  | cons asg l ih =>
    simp only [List.countP_cons, ← ih]
    by_cases h2 : asg.2 = part2
    · by_cases h1 : asg.1 = part1
      · simp [h1, h2, add_assoc]
      · simp [h1, h2, add_right_comm]
    · simp [h2]

theorem closer_iff {part2 part1 part1' : ℤ} : Closer asg1 asg2 part2 part1 part1' ↔
    Matching.Rather (mismatches asg1 asg2 part2) part1 part1' := by
  have h1 := mismatches_add_overlap asg1 asg2 part2 part1
  have h1' := mismatches_add_overlap asg1 asg2 part2 part1'
  unfold Closer Matching.Rather
  refine or_congr ?_ (and_congr_left' ?_) <;> omega

/-! ## The queue -/

theorem getD_find?_sizesOf (part : ℤ) :
    ((sizesOf asg2).find? part).getD 0 = asg2.count part := by
  have h (partSizes : SortedMap ℤ ℕ) : ((asg2.foldl countPipe partSizes).find? part).getD 0 =
      (partSizes.find? part).getD 0 + asg2.count part := by
    induction asg2 generalizing partSizes with
    | nil => rfl
    | cons asg asg2 ih =>
      rw [List.foldl_cons, ih, List.count_cons, countPipe]
      by_cases heq : part = asg
      · subst heq
        simp [add_right_comm, add_assoc]
      · rw [SortedMap.find?_insert_of_ne _ _ heq]
        simp [Ne.symm heq]
  rw [sizesOf, h]
  simp

theorem Precedes.asymm {part part' : ℤ} (h : Precedes asg2 part part') :
    ¬Precedes asg2 part' part := by
  unfold Precedes at *
  omega

theorem pairwise_partsQueue : (partsQueue (sizesOf asg2)).Pairwise (Precedes asg2) := by
  have hnodup : (partsQueue (sizesOf asg2)).Nodup := partsQueue_nodup
  unfold partsQueue at hnodup ⊢
  set entries := ((sizesOf asg2).entries.map fun entry => (entry.2, entry.1)).insertionSort
    fun a b => toLex b ≤ toLex a with hentries
  have hsorted : entries.Pairwise fun a b => toLex b ≤ toLex a := List.pairwise_insertionSort _ _
  have hcount : ∀ e ∈ entries, asg2.count e.2 = e.1 := by
    intro e he
    rw [hentries, List.mem_insertionSort, List.mem_map] at he
    obtain ⟨entry, hentry, rfl⟩ := he
    rw [← getD_find?_sizesOf, SortedMap.find?_eq_some.mpr hentry]
    rfl
  refine List.pairwise_map.mpr (((List.pairwise_map.mp hnodup).and hsorted).imp_of_mem ?_)
  rintro e e' he he' ⟨hne, hle⟩
  rw [Prod.Lex.toLex_le_toLex] at hle
  unfold Precedes
  rw [hcount e he, hcount e' he']
  omega

theorem pairwise_partsQueue_iff {R : ℤ → ℤ → Prop} : (partsQueue (sizesOf asg2)).Pairwise R ↔
    ∀ part ∈ asg2, ∀ part' ∈ asg2, Precedes asg2 part part' → R part part' := by
  constructor
  · intro h part hpart part' hpart'
    have hback : (partsQueue (sizesOf asg2)).Pairwise
        (flip fun part part' => Precedes asg2 part part' → R part part') :=
      pairwise_partsQueue.imp fun hprec hprec' => absurd hprec' hprec.asymm
    have hfront : (partsQueue (sizesOf asg2)).Pairwise
        fun part part' => Precedes asg2 part part' → R part part' :=
      h.imp fun {_ _} hR => (fun _ => hR)
    exact hfront.forall_of_forall_of_flip (fun part _ hprec => absurd hprec hprec.asymm) hback
      (mem_partsQueue.mpr hpart) (mem_partsQueue.mpr hpart')
  · intro h
    refine pairwise_partsQueue.imp_of_mem fun hpart hpart' hprec => ?_
    exact h _ (mem_partsQueue.mp hpart) _ (mem_partsQueue.mp hpart') hprec

/-! ## The fewest changes -/

theorem changed_eq (f : ℤ → ℤ) :
    (asg1.zip (asg2.map f)).countP (fun asg => asg.1 ≠ asg.2) = changed asg1 asg2 f := by
  rw [List.zip_map_right, List.countP_map, changed]
  rfl

theorem sum_mismatches (f : ℤ → ℤ) :
    ∑ part ∈ asg2.toFinset, mismatches asg1 asg2 part (f part) = changed asg1 asg2 f := by
  have hqueue : asg2.toFinset = (partsQueue (sizesOf asg2)).toFinset := by
    ext part
    rw [List.mem_toFinset, List.mem_toFinset, mem_partsQueue]
  rw [hqueue, List.sum_toFinset _ partsQueue_nodup]
  unfold mismatches
  rw [List.sum_countP_comm fun part (asg : ℤ × ℤ) => decide (asg.2 = part ∧ asg.1 ≠ f part),
    changed, ← List.sum_indicator]
  refine congrArg List.sum (List.map_congr_left fun asg hasg => ?_)
  have hmem := mem_partsQueue.mpr (List.of_mem_zip hasg).2
  by_cases heq : asg.1 = f asg.2
  · rw [List.countP_eq_zero.mpr]
    · simp [heq]
    · rintro part -
      simp only [decide_eq_true_eq, not_and, not_not]
      rintro rfl
      exact heq
  · rw [← List.count_eq_one_of_mem partsQueue_nodup hmem, if_pos (by simpa using heq), List.count]
    refine List.countP_congr fun part _ => ?_
    simp only [decide_eq_true_eq, beq_iff_eq]
    constructor
    · exact fun h => h.1.symm
    · rintro rfl
      exact ⟨rfl, heq⟩

/-- The mismatches are the fewest if and only if there are prices at which each part does best with
its own number. -/
theorem minimalChanges_map_iff {f : ℤ → ℤ}
    (hf : Set.BijOn f {part | part ∈ asg2} {part | part ∈ asg2}) :
    MinimalChanges asg1 asg2 (asg2.map f) ↔ ∃ price : ℤ → ℤ, ∀ part ∈ asg2, ∀ part1 ∈ asg2,
      (overlap asg1 asg2 part part1 : ℤ) - price part1 ≤
        overlap asg1 asg2 part (f part) - price (f part) := by
  have hset : {part | part ∈ asg2} = (asg2.toFinset : Set ℤ) := by
    ext part
    simp
  have hcast : ∀ g : ℤ → ℤ, ∑ part ∈ asg2.toFinset, (mismatches asg1 asg2 part (g part) : ℤ) =
      (changed asg1 asg2 g : ℤ) := by
    intro g
    rw [← sum_mismatches, Nat.cast_sum]
  have hiff := Matching.sum_le_iff_exists_supports
    (m := fun part part1 => (mismatches asg1 asg2 part part1 : ℤ)) (hset ▸ hf)
  simp only [hcast, Nat.cast_le, ← hset] at hiff
  rw [MinimalChanges, changed_eq, hiff]
  refine exists_congr fun price => ?_
  simp only [Matching.Supports, List.mem_toFinset]
  refine forall₂_congr fun part _ => forall₂_congr fun part1 _ => ?_
  have hf' := mismatches_add_overlap asg1 asg2 part (f part)
  have h1 := mismatches_add_overlap asg1 asg2 part part1
  omega

/-! ## The numbers that are taken -/

/-- With the same parts in both graphs some number matches. -/
theorem not_noneMatches_of_parts (hparts : ∀ part, part ∈ asg1 ↔ part ∈ asg2) :
    ¬NoneMatches asg1 asg2 := by
  rintro ⟨hn, part, -, hall, hnotMem⟩
  obtain ⟨x, hx⟩ := List.exists_mem_of_length_pos (l := asg2) (by omega)
  exact hnotMem ((hparts part).mpr (hall x hx ▸ hx))

def newNumber (asg1 asg2 : List ℤ) : ℤ → ℤ :=
  relabel (makeRevperm (makePerm asg1 asg2 (sizesOf asg2)))

section

variable (hlen : asg1.length = asg2.length) (hlt : asg2.length < 2 ^ 31)
  (h : ¬NoneMatches asg1 asg2)

include hlen hlt h

theorem newNumber_eq_iff {part part1 : ℤ} (hpart : part ∈ asg2) :
    newNumber asg1 asg2 part = part1 ↔ (part, part1) ∈ rounds asg1 asg2 := by
  rw [newNumber, relabel_eq_iff (permutes_makePerm hlen hlt h) hpart, find?_makePerm hlen hlt h]

theorem rounds_eq_map : rounds asg1 asg2 =
    (partsQueue (sizesOf asg2)).map fun part => (part, newNumber asg1 asg2 part) := by
  have hfst : (rounds asg1 asg2).map Prod.fst = partsQueue (sizesOf asg2) :=
    Matching.map_fst_greedy
  rw [← hfst, List.map_map]
  refine (List.map_id _).symm.trans (List.map_congr_left fun e he => ?_)
  have hmem : e.1 ∈ asg2 := by
    rw [← mem_partsQueue, ← hfst]
    exact List.mem_map_of_mem he
  exact Prod.ext rfl ((newNumber_eq_iff hlen hlt h hmem).mpr he).symm

theorem bijOn_newNumber :
    Set.BijOn (newNumber asg1 asg2) {part | part ∈ asg2} {part | part ∈ asg2} := by
  have hperm := permutes_makePerm hlen hlt h
  have hfind : ∀ part ∈ asg2, (makePerm asg1 asg2 (sizesOf asg2)).find?
      (newNumber asg1 asg2 part) = some part := fun part hpart =>
    (relabel_eq_iff hperm hpart).mp rfl
  have hmaps : Set.MapsTo (newNumber asg1 asg2) {part | part ∈ asg2} {part | part ∈ asg2} := by
    intro part hpart
    refine (hperm.keys _).mp ?_
    rw [hfind part hpart]
    rfl
  refine (Set.Finite.injOn_iff_bijOn_of_mapsTo (List.finite_toSet asg2) hmaps).mp ?_
  intro part hpart part' hpart' heq
  have hsome := hfind part hpart
  rw [heq, hfind part' hpart'] at hsome
  exact (Option.some.inj hsome).symm

/-- No part is closer to the number that a later part gets. -/
theorem pairwise_newNumber : (partsQueue (sizesOf asg2)).Pairwise fun part part' =>
    Closer asg1 asg2 part (newNumber asg1 asg2 part) (newNumber asg1 asg2 part') := by
  have hrounds := (picks_of_matches hlen hlt h (partsQueue (sizesOf asg2))).greedy_pairwise
    length_partsQueue.le
  rw [← rounds, rounds_eq_map hlen hlt h, List.pairwise_map] at hrounds
  exact hrounds.imp closer_iff.mpr

/-- Numbers of which no part is closer to that of a later one are those that the parts get. -/
theorem newNumber_eq {number : ℤ → ℤ}
    (hbij : Set.BijOn number {part | part ∈ asg2} {part | part ∈ asg2})
    (hcloser : (partsQueue (sizesOf asg2)).Pairwise fun part part' =>
      Closer asg1 asg2 part (number part) (number part')) :
    ∀ part ∈ asg2, newNumber asg1 asg2 part = number part := by
  have hfree : ∀ part, part ∈ (partNumbers (sizesOf asg2)).toFinset ↔ part ∈ asg2 := by simp
  have hgreedy := (picks_of_matches hlen hlt h (partsQueue (sizesOf asg2))).greedy_eq
    partsQueue_nodup (f := number) ?_ ?_ ?_ (hcloser.imp closer_iff.mp)
  · intro part hpart
    rw [newNumber_eq_iff hlen hlt h hpart, rounds, hgreedy]
    exact List.mem_map.mpr ⟨part, mem_partsQueue.mpr hpart, rfl⟩
  · intro part hpart part' hpart'
    exact hbij.injOn (mem_partsQueue.mp hpart) (mem_partsQueue.mp hpart')
  · intro part hpart
    exact (hfree _).mpr (hbij.mapsTo (mem_partsQueue.mp hpart))
  · intro part1 hpart1
    obtain ⟨part, hpart, heq⟩ := hbij.surjOn ((hfree _).mp hpart1)
    exact ⟨part, mem_partsQueue.mpr hpart, heq⟩

theorem minimalChanges_newNumber_iff :
    MinimalChanges asg1 asg2 (asg2.map (newNumber asg1 asg2)) ↔
      ∃ number price, PricedNumbers asg1 asg2 number price := by
  have hbij := bijOn_newNumber hlen hlt h
  rw [minimalChanges_map_iff hbij]
  constructor
  · rintro ⟨price, hbest⟩
    refine ⟨newNumber asg1 asg2, price, hbij, ?_, hbest⟩
    exact pairwise_partsQueue_iff.mp (pairwise_newNumber hlen hlt h)
  · rintro ⟨number, price, hpriced⟩
    refine ⟨price, fun part hpart part1 hpart1 => ?_⟩
    rw [newNumber_eq hlen hlt h hpriced.bijOn (pairwise_partsQueue_iff.mpr hpriced.closer) part
      hpart]
    exact hpriced.best part hpart part1 hpart1

end

theorem asg2_assigndiff {g1 g2 : GraphData D} (h1 : ∀ e ∈ g1.myEdges, e.owner.isSome)
    (h2 : ∀ e ∈ g2.myEdges, e.owner.isSome) (hlen : g1.myEdges.length = g2.myEdges.length) :
    ∃ perm r, assigndiff g1 g2 = .ok (perm, r) ∧ r.asg2 = g2.owners.map
      (newNumber g1.owners g2.owners) := by
  obtain ⟨entrypipes, heq, -⟩ := assigndiff_eq h1 h2 hlen
  exact ⟨_, _, heq, asg2_reportPipes (by rw [length_owners h1, length_owners h2, hlen])⟩

/-- **The changes are as few as possible** if and only if there are numbers with prices: no part has
more in common with the number of a part that it precedes, nor, less the prices, with any other. -/
theorem minimalChanges_iff {g1 g2 : MNGraph D} (h1 : ∀ e ∈ g1.myEdges, e.owner.isSome)
    (h2 : ∀ e ∈ g2.myEdges, e.owner.isSome) (hlen : g1.myEdges.length = g2.myEdges.length)
    (hparts : ∀ part, part ∈ g1.owners ↔ part ∈ g2.owners) :
    (∃ perm r, assigndiff g1.toGraphData g2.toGraphData = .ok (perm, r) ∧
        MinimalChanges g1.owners g2.owners r.asg2) ↔
      ∃ number price, PricedNumbers g1.owners g2.owners number price := by
  have hlen' : g1.owners.length = g2.owners.length := by
    rw [length_owners h1, length_owners h2, hlen]
  have hlt : g2.owners.length < 2 ^ 31 := by
    rw [length_owners h2]
    exact g2.built.edges_lt
  obtain ⟨perm, r, heq, hasg2⟩ := asg2_assigndiff h1 h2 hlen
  rw [← minimalChanges_newNumber_iff hlen' hlt (not_noneMatches_of_parts hparts), ← hasg2]
  constructor
  · rintro ⟨perm', r', heq', hmin⟩
    rw [heq] at heq'
    cases heq'
    exact hmin
  · exact fun hmin => ⟨perm, r, heq, hmin⟩

theorem bijOn_swap {parts : List ℤ} (h : ∀ part, part ∈ parts ↔ part = 0 ∨ part = 1) :
    Set.BijOn (fun part => 1 - part) {part | part ∈ parts} {part | part ∈ parts} := by
  have hmaps : ∀ part, part = 0 ∨ part = 1 → 1 - part = 0 ∨ 1 - part = (1 : ℤ) := by omega
  simp only [h]
  refine ⟨hmaps, fun part _ part' _ heq => by simpa using heq, fun part hpart => ?_⟩
  exact ⟨1 - part, hmaps part hpart, by simp⟩

/-- The part of three pipes keeps two of them, and that of two pipes both. -/
theorem crossedParts_minimal :
    ∃ perm r, assigndiff (ownedPipes [0, 0, 1, 1, 1]) (ownedPipes [1, 1, 0, 0, 1]) =
      .ok (perm, r) ∧ MinimalChanges (ownedPipes [0, 0, 1, 1, 1]).owners
        (ownedPipes [1, 1, 0, 0, 1]).owners r.asg2 := by
  have hparts : ∀ part, part ∈ [1, 1, 0, 0, 1].map Int32.toInt ↔ part = 0 ∨ part = 1 := by
    intro part
    simp only [List.map_cons, List.map_nil, List.mem_cons]
    tauto
  refine (@minimalChanges_iff Unit (ownedGraph [0, 0, 1, 1, 1] (by decide))
    (ownedGraph [1, 1, 0, 0, 1] (by decide)) isSome_owner_ownedPipes isSome_owner_ownedPipes rfl
    fun part => ?_).mpr ⟨fun part => 1 - part, fun _ => 0, ?_⟩
  · simp only [ownedGraph_toGraphData, owners_ownedPipes, List.map_cons, List.map_nil,
      List.mem_cons]
    tauto
  · rw [ownedGraph_toGraphData, ownedGraph_toGraphData, owners_ownedPipes, owners_ownedPipes]
    refine pricedNumbers_of_closest (bijOn_swap hparts) fun part hpart part1 hpart1 => ?_
    rcases (hparts part).mp hpart with rfl | rfl <;>
      rcases (hparts part1).mp hpart1 with rfl | rfl <;>
      decide

/-- The part of three pipes keeps two of them with 0, but that of two pipes would keep both. -/
theorem greedyParts_not_minimal :
    ¬∃ perm r, assigndiff (ownedPipes [0, 0, 1, 0, 0]) (ownedPipes [0, 0, 0, 1, 1]) =
      .ok (perm, r) ∧ MinimalChanges (ownedPipes [0, 0, 1, 0, 0]).owners
        (ownedPipes [0, 0, 0, 1, 1]).owners r.asg2 := by
  rintro ⟨perm, r, hresult, hmin⟩
  obtain ⟨perm', r', heq, hasg2⟩ := @asg2_assigndiff Unit (ownedPipes [0, 0, 1, 0, 0])
    (ownedPipes [0, 0, 0, 1, 1]) isSome_owner_ownedPipes isSome_owner_ownedPipes rfl
  rw [hresult] at heq
  cases heq
  rw [hasg2, owners_ownedPipes, owners_ownedPipes] at hmin
  have hswap := hmin (fun part => 1 - part) (bijOn_swap fun part => by simp)
  revert hswap
  decide

end Modelnet.Tools

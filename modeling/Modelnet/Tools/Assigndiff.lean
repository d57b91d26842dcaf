import Mathlib.Data.List.Sort
import Mathlib.Data.Prod.Lex
import Modelnet.Lib.Matching
import Modelnet.Tools.Routes

/-!
# `assigndiff`

`assigndiff` compares the owners of the pipes in two files. It gives each part of the second one the
number of a part of the first one, the largest part first: the number for which the fewest of its
pipes have changed, of those that are left. The candidates are the parts of the second file, and the
search for the best one starts from `INT_MAX` mismatches and -1. So with `INT_MAX` pipes that are all
of one part, and none of which it had before, no candidate is better and the part gets -1. In all
other cases the map is a bijection, and what is printed is right (`reportsChanges_iff`).
-/

namespace Modelnet.Tools

variable {D : Type}

/-- The integer `emul` of an edge, if it has one. -/
def Edge.owner (e : Edge D) : Option ℤ := (e.attr.myInts.find? (str "emul")).map Int32.toInt

structure SecondGraph where
  asg2 : List ℤ
  partSizes : SortedMap ℤ ℕ
  entrypipes : Finset ℕ

/-- The loop over the edges of the first graph. -/
def readFirst (g1 : GraphData D) : Except String (List ℤ) :=
  g1.myEdges.mapM fun e1 =>
    match e1.owner with
    | none => .error "error: graph1 is missing assignments."
    | some asg => .ok asg

/-- `if (!partSizes.count(asg)) partSizes[asg]=0; partSizes[asg]++;` -/
def countPipe (partSizes : SortedMap ℤ ℕ) (asg : ℤ) : SortedMap ℤ ℕ :=
  partSizes.insert asg ((partSizes.find? asg).getD 0 + 1)

/-- The body of the loop over the edges of the second graph, for an edge and its index. -/
def readSecondEdge (asg1 : List ℤ) (g2 : GraphData D) (s : SecondGraph) (e2 : Edge D × ℕ) :
    Except String SecondGraph :=
  match e2.1.owner with
  -- the text says graph1 for this graph too
  | none => .error "error: graph1 is missing assignments."
  | some asg =>
    if asg1.length ≤ e2.2 then
      .error ("error: graph2 has pipe " ++ toString e2.2 ++ " and graph1 doesn't.")
    else
      .ok {
        asg2 := s.asg2 ++ [asg]
        partSizes := countPipe s.partSizes asg
        entrypipes :=
          if (g2.outEdges e2.1.source).length = 1 then insert e2.2 s.entrypipes else s.entrypipes }

/-- The loop over the edges of the second graph. -/
def readSecond (asg1 : List ℤ) (g2 : GraphData D) : Except String SecondGraph :=
  g2.myEdges.zipIdx.foldlM (readSecondEdge asg1 g2) ⟨[], ∅, ∅⟩

section

variable (asg1 asg2 : List ℤ) (partSizes : SortedMap ℤ ℕ)

/-- How many pipes of `part2` do not belong to `part1` in the first graph. -/
def mismatches (part2 part1 : ℤ) : ℕ :=
  (asg1.zip asg2).countP fun asg => asg.2 = part2 ∧ asg.1 ≠ part1

/-- The body of the loop over the candidates, with `bestscore` and `bestpart`. -/
def tryPart (perm : SortedMap ℤ ℤ) (part2 : ℤ) (best : ℕ × ℤ) (part1 : ℤ) : ℕ × ℤ :=
  if (perm.find? part1).isSome then best
  else if mismatches asg1 asg2 part2 part1 < best.1 then
    (mismatches asg1 asg2 part2 part1, part1)
  else best

def partNumbers : List ℤ := partSizes.entries.map Prod.fst

/-- A turn of the loop that makes `perm`. -/
def choosePart (perm : SortedMap ℤ ℤ) (part2 : ℤ) : SortedMap ℤ ℤ :=
  let best := (partNumbers partSizes).foldl (tryPart asg1 asg2 perm part2) (2 ^ 31 - 1, -1)
  perm.insert best.2 part2

/-- What comes out of the queue `parts`: the largest part first, and of two parts of one size the
one with the larger number. -/
def partsQueue : List ℤ :=
  ((partSizes.entries.map fun entry => (entry.2, entry.1)).insertionSort
    fun a b => toLex b ≤ toLex a).map Prod.snd

def makePerm : SortedMap ℤ ℤ :=
  (partsQueue partSizes).foldl (choosePart asg1 asg2 partSizes) ∅

end

def makeRevperm (perm : SortedMap ℤ ℤ) : SortedMap ℤ ℤ :=
  perm.entries.foldl (fun revperm asgEntry => revperm.insert asgEntry.2 asgEntry.1) ∅

/-- What is put out: lines of a pipe and its two owners, and the numbers of the last line; `asg2`
has the owners that the pipes have got. -/
structure Changes where
  asg2 : List ℤ
  lines : List (ℕ × ℤ × ℤ)
  changes : ℕ
  pipes : ℕ
  tries : ℕ

/-- The body of the last loop, for the owners of a pipe and its number. -/
def reportPipe (revperm : SortedMap ℤ ℤ) (entrypipes : Finset ℕ) (r : Changes)
    (pipe : (ℤ × ℤ) × ℕ) : Changes :=
  let ((asg1, asg2), nr) := pipe
  let asg2 := (revperm.find? asg2).getD asg2
  let r := { r with asg2 := r.asg2 ++ [asg2], pipes := r.pipes + 1 }
  if asg2 ≠ asg1 then
    if nr ∈ entrypipes then { r with tries := r.tries + 1 }
    else { r with lines := r.lines ++ [(nr, asg1, asg2)], changes := r.changes + 1 }
  else r

/-- The last loop. -/
def reportPipes (revperm : SortedMap ℤ ℤ) (entrypipes : Finset ℕ) (asg1 asg2 : List ℤ) : Changes :=
  (asg1.zip asg2).zipIdx.foldl (reportPipe revperm entrypipes) ⟨[], [], 0, 0, 0⟩

/-- `main`: `perm`, and what is put out. -/
def assigndiff (g1 g2 : GraphData D) : Except String (SortedMap ℤ ℤ × Changes) := do
  let asg1 ← readFirst g1
  let s ← readSecond asg1 g2
  let perm := makePerm asg1 s.asg2 s.partSizes
  .ok (perm, reportPipes (makeRevperm perm) s.entrypipes asg1 s.asg2)

/-! ## What is claimed -/

def GraphData.owners (g : GraphData D) : List ℤ := g.myEdges.filterMap Edge.owner

def GraphData.IsEntryPipe (g : GraphData D) (nr : ℕ) : Prop :=
  (g.outEdges (g.source nr)).length = 1

/-- The map is a bijection of the parts. -/
structure Permutes (parts : List ℤ) (perm : SortedMap ℤ ℤ) : Prop where
  keys : ∀ part1, (perm.find? part1).isSome ↔ part1 ∈ parts
  values : ∀ part1 part2, perm.find? part1 = some part2 → part2 ∈ parts
  injective : ∀ part1 part1' part2,
    perm.find? part1 = some part2 → perm.find? part1' = some part2 → part1 = part1'
  onto : ∀ part2 ∈ parts, ∃ part1, perm.find? part1 = some part2

/-- The parts get numbers by a bijection, and what is printed is what has changed. -/
structure ReportsChanges (asg1 asg2 : List ℤ) (entry : ℕ → Prop) (perm : SortedMap ℤ ℤ)
    (lines : List (ℕ × ℤ × ℤ)) : Prop extends Permutes asg2 perm where
  once : (lines.map Prod.fst).Nodup
  mem_lines : ∀ nr owner1 owner2, (nr, owner1, owner2) ∈ lines ↔
    asg1[nr]? = some owner1 ∧ (∃ part2, asg2[nr]? = some part2 ∧ perm.find? owner2 = some part2) ∧
      owner1 ≠ owner2 ∧ ¬entry nr
  permuted : ∀ σ : ℤ → ℤ, Set.BijOn σ {part | part ∈ asg1} {part | part ∈ asg1} →
    asg2 = asg1.map σ → lines = []

/-! ## What is read -/

theorem readFirst_eq {g : GraphData D} (h : ∀ e ∈ g.myEdges, e.owner.isSome) :
    readFirst g = .ok g.owners := by
  rw [readFirst, GraphData.owners]
  generalize g.myEdges = es at h
  induction es with
  | nil => rfl
  | cons e es ih =>
    obtain ⟨asg, hasg⟩ := Option.isSome_iff_exists.mp (h e List.mem_cons_self)
    rw [List.mapM_cons, ih fun f hf => h f (List.mem_cons_of_mem e hf),
      List.filterMap_cons_some hasg, hasg]
    rfl

def sizesOf (asg2 : List ℤ) : SortedMap ℤ ℕ := asg2.foldl countPipe ∅

theorem foldlM_readSecondEdge {asg1 : List ℤ} {g2 : GraphData D} {es : List (Edge D)} {k : ℕ}
    (h : ∀ e ∈ es, e.owner.isSome) (hlen : k + es.length ≤ asg1.length) (s : SecondGraph) :
    ∃ entrypipes, (es.zipIdx k).foldlM (readSecondEdge asg1 g2) s =
        .ok ⟨s.asg2 ++ es.filterMap Edge.owner,
          (es.filterMap Edge.owner).foldl countPipe s.partSizes, entrypipes⟩ ∧
      ∀ nr, nr ∈ entrypipes ↔ nr ∈ s.entrypipes ∨
        ∃ e, (e, nr) ∈ es.zipIdx k ∧ (g2.outEdges e.source).length = 1 := by
  induction es generalizing k s with
  | nil => exact ⟨s.entrypipes, by simp [pure, Except.pure], by simp⟩
  | cons e es ih =>
    obtain ⟨asg, hasg⟩ := Option.isSome_iff_exists.mp (h e List.mem_cons_self)
    have hlt : ¬asg1.length ≤ k := by
      rw [List.length_cons] at hlen
      omega
    have hstep : readSecondEdge asg1 g2 s (e, k) = .ok ⟨s.asg2 ++ [asg], countPipe s.partSizes asg,
        if (g2.outEdges e.source).length = 1 then insert k s.entrypipes else s.entrypipes⟩ := by
      rw [readSecondEdge, hasg]
      exact if_neg hlt
    obtain ⟨entrypipes, heq, hmem⟩ := ih (k := k + 1) (fun f hf => h f (List.mem_cons_of_mem e hf))
      (by rw [List.length_cons] at hlen; omega) ⟨s.asg2 ++ [asg], countPipe s.partSizes asg,
        if (g2.outEdges e.source).length = 1 then insert k s.entrypipes else s.entrypipes⟩
    refine ⟨entrypipes, ?_, fun nr => ?_⟩
    · rw [List.zipIdx_cons, List.foldlM_cons, hstep, List.filterMap_cons_some hasg]
      simpa [bind, Except.bind] using heq
    · rw [hmem, List.zipIdx_cons]
      constructor
      · rintro (hnr | ⟨f, hf, hsource⟩)
        · split_ifs at hnr with hone
          · rcases Finset.mem_insert.mp hnr with rfl | hnr
            · exact Or.inr ⟨e, List.mem_cons_self, hone⟩
            · exact Or.inl hnr
          · exact Or.inl hnr
        · exact Or.inr ⟨f, List.mem_cons_of_mem _ hf, hsource⟩
      · rintro (hnr | ⟨f, hf, hsource⟩)
        · refine Or.inl ?_
          split_ifs
          · exact Finset.mem_insert_of_mem hnr
          · exact hnr
        · rcases List.mem_cons.mp hf with heq | hf
          · obtain ⟨rfl, rfl⟩ := Prod.mk.inj heq
            rw [if_pos hsource]
            exact Or.inl (Finset.mem_insert_self _ _)
          · exact Or.inr ⟨f, hf, hsource⟩

theorem readSecond_eq {asg1 : List ℤ} {g2 : GraphData D} (h : ∀ e ∈ g2.myEdges, e.owner.isSome)
    (hlen : g2.myEdges.length ≤ asg1.length) :
    ∃ entrypipes, readSecond asg1 g2 = .ok ⟨g2.owners, sizesOf g2.owners, entrypipes⟩ ∧
      ∀ nr < g2.myEdges.length, nr ∈ entrypipes ↔ g2.IsEntryPipe nr := by
  obtain ⟨entrypipes, heq, hmem⟩ :=
    foldlM_readSecondEdge (k := 0) h (by rwa [zero_add]) ⟨[], ∅, ∅⟩
  refine ⟨entrypipes, heq, fun nr hnr => ?_⟩
  have hsource : g2.source nr = g2.myEdges[nr].source := by
    rw [GraphData.source, List.getElem?_eq_getElem hnr]
    rfl
  rw [hmem, GraphData.IsEntryPipe, hsource]
  simp [List.mem_zipIdx_iff_getElem?, List.getElem?_eq_getElem hnr]

/-! ## The parts -/

theorem mem_partNumbers {partSizes : SortedMap ℤ ℕ} {part : ℤ} :
    part ∈ partNumbers partSizes ↔ (partSizes.find? part).isSome := by
  rw [partNumbers, List.mem_map, Option.isSome_iff_exists]
  constructor
  · rintro ⟨e, he, rfl⟩
    exact ⟨e.2, SortedMap.find?_eq_some.mpr he⟩
  · rintro ⟨n, hn⟩
    exact ⟨(part, n), SortedMap.find?_eq_some.mp hn, rfl⟩

theorem partNumbers_sorted (partSizes : SortedMap ℤ ℕ) :
    (partNumbers partSizes).Pairwise (· ≤ ·) :=
  List.pairwise_map.mpr (partSizes.sorted.imp le_of_lt)

theorem partNumbers_nodup (partSizes : SortedMap ℤ ℕ) : (partNumbers partSizes).Nodup :=
  List.pairwise_map.mpr (partSizes.sorted.imp ne_of_lt)

theorem mem_partNumbers_countPipe {partSizes : SortedMap ℤ ℕ} {asg part : ℤ} :
    part ∈ partNumbers (countPipe partSizes asg) ↔ part = asg ∨ part ∈ partNumbers partSizes := by
  rw [mem_partNumbers, mem_partNumbers, countPipe]
  by_cases heq : part = asg
  · subst heq
    simp
  · rw [SortedMap.find?_insert_of_ne _ _ heq]
    simp [heq]

@[simp] theorem mem_partNumbers_sizesOf {asg2 : List ℤ} {part : ℤ} :
    part ∈ partNumbers (sizesOf asg2) ↔ part ∈ asg2 := by
  have h (partSizes : SortedMap ℤ ℕ) : part ∈ partNumbers (asg2.foldl countPipe partSizes) ↔
      part ∈ partNumbers partSizes ∨ part ∈ asg2 := by
    induction asg2 generalizing partSizes with
    | nil => simp
    | cons asg asg2 ih =>
      rw [List.foldl_cons, ih, mem_partNumbers_countPipe, List.mem_cons]
      tauto
  rw [sizesOf, h]
  simp [partNumbers]

theorem partsQueue_perm (partSizes : SortedMap ℤ ℕ) :
    (partsQueue partSizes).Perm (partNumbers partSizes) := by
  have h := (List.perm_insertionSort (fun a b : ℕ × ℤ => toLex b ≤ toLex a)
    (partSizes.entries.map fun entry => (entry.2, entry.1))).map Prod.snd
  rw [List.map_map] at h
  exact h

/-! ## The choices -/

section

variable {asg1 asg2 : List ℤ} {partSizes : SortedMap ℤ ℕ} {perm : SortedMap ℤ ℤ} {part1 part2 : ℤ}
  {free : Finset ℤ}

/-- The candidate that a part takes of those that are left. -/
def pickPart (asg1 asg2 numbers : List ℤ) (part2 : ℤ) (free : Finset ℤ) : ℤ :=
  ((numbers.filter (· ∈ free)).foldl (Matching.better (mismatches asg1 asg2 part2))
    (2 ^ 31 - 1, -1)).2

theorem foldl_tryPart (numbers : List ℤ) (best : ℕ × ℤ) :
    numbers.foldl (tryPart asg1 asg2 perm part2) best =
      (numbers.filter fun part1 => (perm.find? part1).isNone).foldl
        (Matching.better (mismatches asg1 asg2 part2)) best := by
  rw [List.foldl_filter]
  congr 1
  funext best part1
  rw [tryPart, Matching.better]
  cases perm.find? part1 <;> simp

theorem choosePart_eq
    (hfree : ∀ part1, part1 ∈ free ↔ part1 ∈ partNumbers partSizes ∧ perm.find? part1 = none) :
    choosePart asg1 asg2 partSizes perm part2 =
      perm.insert (pickPart asg1 asg2 (partNumbers partSizes) part2 free) part2 := by
  have hfilter : ((partNumbers partSizes).filter fun part1 => (perm.find? part1).isNone) =
      (partNumbers partSizes).filter (· ∈ free) := by
    refine List.filter_congr fun part1 hpart1 => ?_
    rw [Bool.eq_iff_iff]
    simp [hfree, hpart1]
  rw [choosePart, foldl_tryPart, hfilter, pickPart]

theorem find?_foldl_choosePart {parts : List ℤ}
    (h : Matching.Picks (mismatches asg1 asg2) (pickPart asg1 asg2 (partNumbers partSizes)) parts
      free)
    (hcard : parts.length ≤ free.card)
    (hfree : ∀ part1, part1 ∈ free ↔ part1 ∈ partNumbers partSizes ∧ perm.find? part1 = none) :
    (parts.foldl (choosePart asg1 asg2 partSizes) perm).find? part1 = some part2 ↔
      perm.find? part1 = some part2 ∨ (part2, part1) ∈
        Matching.greedy (pickPart asg1 asg2 (partNumbers partSizes)) parts free := by
  induction parts generalizing perm free with
  | nil => simp [Matching.greedy]
  | cons part parts ih =>
    have hmem := h.head_mem hcard
    obtain ⟨hnumber, hnone⟩ := (hfree _).mp hmem
    rw [List.foldl_cons, choosePart_eq hfree, ih h.tail (h.card_erase hcard), Matching.greedy,
      List.mem_cons]
    · by_cases heq : part1 = pickPart asg1 asg2 (partNumbers partSizes) part free
      · rw [heq, SortedMap.find?_insert_self, hnone]
        simp [eq_comm]
      · rw [SortedMap.find?_insert_of_ne _ _ heq]
        simp [heq]
    · intro x
      rw [Finset.mem_erase, hfree]
      by_cases heq : x = pickPart asg1 asg2 (partNumbers partSizes) part free
      · rw [heq, SortedMap.find?_insert_self]
        simp
      · rw [SortedMap.find?_insert_of_ne _ _ heq]
        simp [heq]

/-- The parts pick the best candidates, if these have fewer mismatches than the search starts
with, or there is only the one that it starts with. -/
theorem picks_pickPart {parts numbers : List ℤ} (hsorted : numbers.Pairwise (· ≤ ·))
    (h : ∀ part2 ∈ parts, ∀ part1 ∈ numbers, mismatches asg1 asg2 part2 part1 < 2 ^ 31 - 1 ∨
      ∀ part ∈ numbers, part = -1) :
    Matching.Picks (mismatches asg1 asg2) (pickPart asg1 asg2 numbers) parts numbers.toFinset := by
  have hcases : ∀ part2 ∈ parts, ∀ C ⊆ numbers.toFinset, C.Nonempty →
      pickPart asg1 asg2 numbers part2 C ∈ C ∧ ∀ part1 ∈ C,
        Matching.Rather (mismatches asg1 asg2 part2) (pickPart asg1 asg2 numbers part2 C)
          part1 := by
    intro part2 hpart2 C hC hne
    have hnumbers : ∀ part1 ∈ C, part1 ∈ numbers := fun part1 h => List.mem_toFinset.mp (hC h)
    have hleft : (numbers.filter (· ∈ C)).Pairwise (· ≤ ·) := hsorted.filter _
    rcases Matching.foldl_better (mismatches asg1 asg2 part2) hleft (2 ^ 31 - 1, -1) with
      ⟨heq, hle⟩ | ⟨hmem, -, hrather⟩
    · have hminus : ∀ part1 ∈ C, part1 = -1 := by
        intro part1 hpart1
        have hlarge : 2 ^ 31 - 1 ≤ mismatches asg1 asg2 part2 part1 :=
          hle part1 (List.mem_filter.mpr ⟨hnumbers part1 hpart1, by simpa using hpart1⟩)
        rcases h part2 hpart2 part1 (hnumbers part1 hpart1) with hless | hall
        · exact absurd hless (not_lt.mpr hlarge)
        · exact hall part1 (hnumbers part1 hpart1)
      obtain ⟨part, hpart⟩ := hne
      rw [pickPart, heq]
      refine ⟨hminus part hpart ▸ hpart, fun part1 hpart1 => Or.inr ?_⟩
      rw [hminus part1 hpart1]
      exact ⟨rfl, le_rfl⟩
    · refine ⟨of_decide_eq_true (List.mem_filter.mp hmem).2, fun part1 hpart1 => ?_⟩
      exact hrather part1 (List.mem_filter.mpr ⟨hnumbers part1 hpart1, by simpa using hpart1⟩)
  exact ⟨fun a ha C hC hne => (hcases a ha C hC hne).1,
    fun a ha C hC b hb => (hcases a ha C hC ⟨b, hb⟩).2 b hb⟩

/-! ## The mismatches -/

theorem mismatches_le : mismatches asg1 asg2 part2 part1 ≤ asg2.length := by
  refine List.countP_le_length.trans ?_
  rw [List.length_zip]
  exact min_le_right _ _

theorem mismatches_eq_zero : mismatches asg1 asg2 part2 part1 = 0 ↔
    ∀ asg ∈ asg1.zip asg2, asg.2 = part2 → asg.1 = part1 := by
  simp [mismatches, List.countP_eq_zero]

/-- Where nothing matches there is only one part, which has been no owner. -/
theorem eq_of_mismatches (hlen : asg1.length = asg2.length)
    (h : mismatches asg1 asg2 part2 part1 = asg2.length) :
    (∀ asg ∈ asg2, asg = part2) ∧ part1 ∉ asg1 := by
  have hzip : (asg1.zip asg2).length = asg2.length := by
    rw [List.length_zip, hlen, min_self]
  have hall : ∀ asg ∈ asg1.zip asg2, asg.2 = part2 ∧ asg.1 ≠ part1 := by
    rw [mismatches, ← hzip, List.countP_eq_length] at h
    simpa using h
  have hfst := List.map_fst_zip hlen.le
  have hsnd := List.map_snd_zip hlen.ge
  constructor
  · intro asg hasg
    rw [← hsnd] at hasg
    obtain ⟨e, he, rfl⟩ := List.mem_map.mp hasg
    exact (hall e he).1
  · intro hpart1
    rw [← hfst] at hpart1
    obtain ⟨e, he, heq⟩ := List.mem_map.mp hpart1
    exact (hall e he).2 heq

/-- `INT_MAX` pipes, all of one part that has not been the owner of any. -/
def NoneMatches (asg1 asg2 : List ℤ) : Prop :=
  asg2.length = 2 ^ 31 - 1 ∧ ∃ part ≠ -1, (∀ asg ∈ asg2, asg = part) ∧ part ∉ asg1

theorem picks_of_matches (hlen : asg1.length = asg2.length) (hlt : asg2.length < 2 ^ 31)
    (h : ¬NoneMatches asg1 asg2) (parts : List ℤ) :
    Matching.Picks (mismatches asg1 asg2) (pickPart asg1 asg2 (partNumbers (sizesOf asg2))) parts
      (partNumbers (sizesOf asg2)).toFinset := by
  refine picks_pickPart (partNumbers_sorted _) fun part2 _ part1 hpart1 => ?_
  by_contra! hcon
  obtain ⟨hlarge, part, hpart, hne⟩ := hcon
  have hle : mismatches asg1 asg2 part2 part1 ≤ asg2.length := mismatches_le
  have hn : asg2.length = 2 ^ 31 - 1 := by omega
  have heq : mismatches asg1 asg2 part2 part1 = asg2.length := by omega
  obtain ⟨hall, hnotMem⟩ := eq_of_mismatches hlen heq
  have hpart1' := hall part1 (mem_partNumbers_sizesOf.mp hpart1)
  have hpart' := hall part (mem_partNumbers_sizesOf.mp hpart)
  exact h ⟨hn, part, hne, fun asg hasg => (hall asg hasg).trans hpart'.symm,
    hpart'.trans hpart1'.symm ▸ hnotMem⟩

/-! ## The map -/

def rounds (asg1 asg2 : List ℤ) : List (ℤ × ℤ) :=
  Matching.greedy (pickPart asg1 asg2 (partNumbers (sizesOf asg2))) (partsQueue (sizesOf asg2))
    (partNumbers (sizesOf asg2)).toFinset

theorem length_partsQueue : (partsQueue (sizesOf asg2)).length =
    (partNumbers (sizesOf asg2)).toFinset.card := by
  rw [List.toFinset_card_of_nodup (partNumbers_nodup _), (partsQueue_perm _).length_eq]

theorem mem_partsQueue : part2 ∈ partsQueue (sizesOf asg2) ↔ part2 ∈ asg2 := by
  rw [(partsQueue_perm _).mem_iff, mem_partNumbers_sizesOf]

theorem partsQueue_nodup : (partsQueue (sizesOf asg2)).Nodup :=
  (partsQueue_perm _).nodup_iff.mpr (partNumbers_nodup _)

/-- **The rounds give the map.** -/
theorem find?_makePerm (hlen : asg1.length = asg2.length) (hlt : asg2.length < 2 ^ 31)
    (h : ¬NoneMatches asg1 asg2) :
    (makePerm asg1 asg2 (sizesOf asg2)).find? part1 = some part2 ↔
      (part2, part1) ∈ rounds asg1 asg2 := by
  have hfree : ∀ part1, part1 ∈ (partNumbers (sizesOf asg2)).toFinset ↔
      part1 ∈ partNumbers (sizesOf asg2) ∧ (∅ : SortedMap ℤ ℤ).find? part1 = none := by simp
  rw [makePerm, find?_foldl_choosePart (picks_of_matches hlen hlt h _) length_partsQueue.le hfree]
  simp [rounds]

theorem permutes_makePerm (hlen : asg1.length = asg2.length) (hlt : asg2.length < 2 ^ 31)
    (h : ¬NoneMatches asg1 asg2) : Permutes asg2 (makePerm asg1 asg2 (sizesOf asg2)) := by
  have hpicks := picks_of_matches hlen hlt h (partsQueue (sizesOf asg2))
  have hfst : (rounds asg1 asg2).map Prod.fst = partsQueue (sizesOf asg2) :=
    Matching.map_fst_greedy
  have hvalues : ∀ e ∈ rounds asg1 asg2, e.1 ∈ asg2 := by
    intro e he
    rw [← mem_partsQueue, ← hfst]
    exact List.mem_map_of_mem he
  refine ⟨fun part1 => ?_, fun part1 part2 hfind => ?_, fun part1 part1' part2 hfind hfind' => ?_,
    fun part2 hpart2 => ?_⟩
  · rw [Option.isSome_iff_exists, ← mem_partNumbers_sizesOf, ← List.mem_toFinset]
    constructor
    · rintro ⟨part2, hfind⟩
      exact hpicks.greedy_mem length_partsQueue.le ((find?_makePerm hlen hlt h).mp hfind)
    · intro hmem
      obtain ⟨e, he, rfl⟩ := hpicks.greedy_onto length_partsQueue hmem
      exact ⟨e.1, (find?_makePerm hlen hlt h).mpr he⟩
  · exact hvalues _ ((find?_makePerm hlen hlt h).mp hfind)
  · have hnodup : ((rounds asg1 asg2).map Prod.fst).Nodup := hfst ▸ partsQueue_nodup
    have heq := List.inj_on_of_nodup_map hnodup ((find?_makePerm hlen hlt h).mp hfind)
      ((find?_makePerm hlen hlt h).mp hfind') rfl
    exact (Prod.mk.inj heq).2
  · rw [← mem_partsQueue, ← hfst] at hpart2
    obtain ⟨e, he, rfl⟩ := List.mem_map.mp hpart2
    exact ⟨e.2, (find?_makePerm hlen hlt h).mpr he⟩

theorem mem_map_permuted {σ : ℤ → ℤ}
    (hσ : Set.BijOn σ {part | part ∈ asg1} {part | part ∈ asg1}) :
    part1 ∈ asg1.map σ ↔ part1 ∈ asg1 := by
  have himage := Set.ext_iff.mp hσ.image_eq part1
  simpa using himage

/-- The rounds for an assignment with permuted parts: each part gets the number that it had. -/
theorem rounds_permuted {σ : ℤ → ℤ}
    (hσ : Set.BijOn σ {part | part ∈ asg1} {part | part ∈ asg1})
    (hpicks : Matching.Picks (mismatches asg1 (asg1.map σ))
      (pickPart asg1 (asg1.map σ) (partNumbers (sizesOf (asg1.map σ))))
      (partsQueue (sizesOf (asg1.map σ))) (partNumbers (sizesOf (asg1.map σ))).toFinset)
    (hround : (part2, part1) ∈ rounds asg1 (asg1.map σ)) : part1 ∈ asg1 ∧ σ part1 = part2 := by
  set f := Function.invFunOn σ {part | part ∈ asg1} with hf
  have hexists : ∀ part ∈ asg1, f part ∈ asg1 ∧ σ (f part) = part := fun part hpart =>
    ⟨Function.invFunOn_mem (hσ.surjOn hpart), Function.invFunOn_eq (hσ.surjOn hpart)⟩
  have hmem : ∀ part, part ∈ partsQueue (sizesOf (asg1.map σ)) → part ∈ asg1 := fun part hpart =>
    (mem_map_permuted hσ).mp (mem_partsQueue.mp hpart)
  have hrounds := hpicks.greedy_exact partsQueue_nodup (f := f) ?_ ?_ ?_
  · rw [rounds, hrounds] at hround
    obtain ⟨part, hpart, heq⟩ := List.mem_map.mp hround
    obtain ⟨rfl, rfl⟩ := Prod.mk.inj heq
    exact hexists part (hmem part hpart)
  · intro a ha a' ha' heq
    rw [← (hexists a (hmem a ha)).2, ← (hexists a' (hmem a' ha')).2, heq]
  · intro a ha
    rw [List.mem_toFinset, mem_partNumbers_sizesOf, mem_map_permuted hσ]
    exact (hexists a (hmem a ha)).1
  · intro a ha b _
    obtain ⟨hfa, hσa⟩ := hexists a (hmem a ha)
    rw [mismatches_eq_zero, ← List.map_prod_left_eq_zip]
    constructor
    · intro hzero
      exact (hzero (f a, σ (f a)) (List.mem_map_of_mem hfa) hσa).symm
    · rintro rfl asg hasg heq
      obtain ⟨part, hpart, rfl⟩ := List.mem_map.mp hasg
      exact hσ.injOn hpart hfa (heq.trans hσa.symm)

theorem find?_foldl_swap {es : List (ℤ × ℤ)} (hes : (es.map Prod.snd).Nodup) (m : SortedMap ℤ ℤ) :
    (es.foldl (fun revperm asgEntry => revperm.insert asgEntry.2 asgEntry.1) m).find? part2 =
      some part1 ↔ (part1, part2) ∈ es ∨ m.find? part2 = some part1 ∧ ∀ e ∈ es, e.2 ≠ part2 := by
  induction es generalizing m with
  | nil => simp
  | cons e es ih =>
    obtain ⟨hnotMem, hrest⟩ := List.nodup_cons.mp hes
    rw [List.foldl_cons, ih hrest, List.mem_cons, List.forall_mem_cons]
    by_cases heq : e.2 = part2
    · subst heq
      have hother : ∀ part, (part, e.2) ∉ es := fun part hmem =>
        hnotMem (List.mem_map.mpr ⟨_, hmem, rfl⟩)
      have hne : ∀ e' ∈ es, e'.2 ≠ e.2 := fun e' he' heq => hother e'.1 (heq ▸ he')
      simp only [hother, SortedMap.find?_insert_self, false_or, or_false, ne_eq, not_true_eq_false,
        false_and, and_false, Option.some_inj]
      exact ⟨fun h => Prod.ext h.1.symm rfl, fun h => ⟨(congrArg Prod.fst h).symm, hne⟩⟩
    · rw [SortedMap.find?_insert_of_ne _ _ (Ne.symm heq)]
      have hfst : (part1, part2) ≠ e := fun h => heq (congrArg Prod.snd h).symm
      simp [hfst, heq]

theorem find?_makeRevperm {parts : List ℤ} (h : Permutes parts perm) :
    (makeRevperm perm).find? part2 = some part1 ↔ perm.find? part1 = some part2 := by
  have hnodup : (perm.entries.map Prod.snd).Nodup := by
    refine List.Nodup.map_on (fun e he e' he' heq => ?_) (perm.sorted.imp fun hlt heq => ?_)
    · have hfst := h.injective e.1 e'.1 e.2 (SortedMap.find?_eq_some.mpr he)
        (SortedMap.find?_eq_some.mpr (heq ▸ he'))
      exact Prod.ext hfst heq
    · exact hlt.ne (congrArg Prod.fst heq)
  rw [makeRevperm, find?_foldl_swap hnodup, ← SortedMap.find?_eq_some]
  simp

end

/-! ## What is printed -/

section

variable {revperm : SortedMap ℤ ℤ} {entrypipes : Finset ℕ}

/-- The owner that a pipe gets. -/
def relabel (revperm : SortedMap ℤ ℤ) (asg2 : ℤ) : ℤ := (revperm.find? asg2).getD asg2

def lineOf (revperm : SortedMap ℤ ℤ) (entrypipes : Finset ℕ) (pipe : (ℤ × ℤ) × ℕ) :
    Option (ℕ × ℤ × ℤ) :=
  if relabel revperm pipe.1.2 ≠ pipe.1.1 ∧ pipe.2 ∉ entrypipes then
    some (pipe.2, pipe.1.1, relabel revperm pipe.1.2)
  else none

theorem foldl_reportPipe (pipes : List ((ℤ × ℤ) × ℕ)) (r : Changes) :
    (pipes.foldl (reportPipe revperm entrypipes) r).asg2 =
        r.asg2 ++ pipes.map (fun pipe => relabel revperm pipe.1.2) ∧
      (pipes.foldl (reportPipe revperm entrypipes) r).lines =
        r.lines ++ pipes.filterMap (lineOf revperm entrypipes) := by
  induction pipes generalizing r with
  | nil => simp
  | cons pipe pipes ih =>
    have hstep : (reportPipe revperm entrypipes r pipe).asg2 =
          r.asg2 ++ [relabel revperm pipe.1.2] ∧
        (reportPipe revperm entrypipes r pipe).lines =
          r.lines ++ (lineOf revperm entrypipes pipe).toList := by
      obtain ⟨⟨asg1, asg2⟩, nr⟩ := pipe
      rw [reportPipe, lineOf]
      dsimp only [relabel]
      split_ifs <;> simp_all
    obtain ⟨hasg2, hlines⟩ := ih (reportPipe revperm entrypipes r pipe)
    rw [List.foldl_cons, hasg2, hlines, hstep.1, hstep.2]
    constructor
    · simp
    · cases hline : lineOf revperm entrypipes pipe with
      | none =>
        rw [List.filterMap_cons_none hline]
        simp
      | some line =>
        rw [List.filterMap_cons_some hline]
        simp

variable {asg1 asg2 : List ℤ}

theorem asg2_reportPipes (hlen : asg1.length = asg2.length) :
    (reportPipes revperm entrypipes asg1 asg2).asg2 = asg2.map (relabel revperm) := by
  rw [reportPipes, (foldl_reportPipe _ _).1, List.nil_append]
  conv_rhs => rw [← List.map_snd_zip hlen.ge, ← List.zipIdx_map_fst 0 (asg1.zip asg2)]
  rw [List.map_map, List.map_map]
  rfl

theorem mem_lines_reportPipes {nr : ℕ} {owner1 owner2 : ℤ} :
    (nr, owner1, owner2) ∈ (reportPipes revperm entrypipes asg1 asg2).lines ↔
      asg1[nr]? = some owner1 ∧ (∃ part2, asg2[nr]? = some part2 ∧ relabel revperm part2 = owner2) ∧
        owner1 ≠ owner2 ∧ nr ∉ entrypipes := by
  rw [reportPipes, (foldl_reportPipe _ _).2, List.nil_append, List.mem_filterMap]
  constructor
  · rintro ⟨⟨⟨asg1', asg2'⟩, nr'⟩, hmem, hline⟩
    rw [List.mem_zipIdx_iff_getElem?, List.getElem?_zip_eq_some] at hmem
    unfold lineOf at hline
    split_ifs at hline with hcond
    obtain ⟨rfl, h⟩ := Prod.mk.inj (Option.some.inj hline)
    obtain ⟨rfl, rfl⟩ := Prod.mk.inj h
    exact ⟨hmem.1, ⟨asg2', hmem.2, rfl⟩, hcond.1.symm, hcond.2⟩
  · rintro ⟨h1, ⟨part2, h2, rfl⟩, hne, hentry⟩
    refine ⟨((owner1, part2), nr), ?_, if_pos ⟨hne.symm, hentry⟩⟩
    rw [List.mem_zipIdx_iff_getElem?, List.getElem?_zip_eq_some]
    exact ⟨h1, h2⟩

theorem once_reportPipes :
    ((reportPipes revperm entrypipes asg1 asg2).lines.map Prod.fst).Nodup := by
  rw [reportPipes, (foldl_reportPipe _ _).2, List.nil_append]
  have hindices : ((asg1.zip asg2).zipIdx.map Prod.snd).Nodup := by
    rw [List.zipIdx_map_snd]
    exact List.nodup_range'
  refine List.pairwise_map.mpr (List.pairwise_filterMap.mpr ?_)
  refine (List.pairwise_map.mp hindices).imp fun hne line hline line' hline' => ?_
  unfold lineOf at hline hline'
  split_ifs at hline hline'
  cases hline
  cases hline'
  exact hne

end

/-! ## What comes out -/

section

variable {asg1 asg2 : List ℤ} {perm : SortedMap ℤ ℤ} {part1 part2 : ℤ}

theorem relabel_eq_iff (h : Permutes asg2 perm) (hpart2 : part2 ∈ asg2) :
    relabel (makeRevperm perm) part2 = part1 ↔ perm.find? part1 = some part2 := by
  obtain ⟨part, hpart⟩ := h.onto part2 hpart2
  rw [relabel, (find?_makeRevperm h).mpr hpart, Option.getD_some]
  constructor
  · rintro rfl
    exact hpart
  · exact fun hfind => h.injective _ _ _ hpart hfind

theorem length_owners {g : GraphData D} (h : ∀ e ∈ g.myEdges, e.owner.isSome) :
    g.owners.length = g.myEdges.length := List.filterMap_length_eq_length.mpr h

theorem assigndiff_eq {g1 g2 : GraphData D} (h1 : ∀ e ∈ g1.myEdges, e.owner.isSome)
    (h2 : ∀ e ∈ g2.myEdges, e.owner.isSome) (hlen : g1.myEdges.length = g2.myEdges.length) :
    ∃ entrypipes, assigndiff g1 g2 = .ok (makePerm g1.owners g2.owners (sizesOf g2.owners),
        reportPipes (makeRevperm (makePerm g1.owners g2.owners (sizesOf g2.owners))) entrypipes
          g1.owners g2.owners) ∧
      ∀ nr < g2.myEdges.length, nr ∈ entrypipes ↔ g2.IsEntryPipe nr := by
  have hle : g2.myEdges.length ≤ g1.owners.length := by rw [length_owners h1, hlen]
  obtain ⟨entrypipes, heq, hmem⟩ := readSecond_eq h2 hle
  refine ⟨entrypipes, ?_, hmem⟩
  rw [assigndiff, readFirst_eq h1]
  simp only [bind, Except.bind, heq]

theorem reportsChanges_of_matches {entrypipes : Finset ℕ} {entry : ℕ → Prop}
    (hlen : asg1.length = asg2.length) (hlt : asg2.length < 2 ^ 31) (h : ¬NoneMatches asg1 asg2)
    (hentry : ∀ nr < asg2.length, nr ∈ entrypipes ↔ entry nr) :
    ReportsChanges asg1 asg2 entry (makePerm asg1 asg2 (sizesOf asg2))
      (reportPipes (makeRevperm (makePerm asg1 asg2 (sizesOf asg2))) entrypipes asg1 asg2).lines := by
  have hperm := permutes_makePerm hlen hlt h
  have hlines : ∀ nr owner1 owner2, (nr, owner1, owner2) ∈ (reportPipes
      (makeRevperm (makePerm asg1 asg2 (sizesOf asg2))) entrypipes asg1 asg2).lines ↔
      asg1[nr]? = some owner1 ∧ (∃ part2, asg2[nr]? = some part2 ∧
        (makePerm asg1 asg2 (sizesOf asg2)).find? owner2 = some part2) ∧
        owner1 ≠ owner2 ∧ ¬entry nr := by
    intro nr owner1 owner2
    rw [mem_lines_reportPipes]
    refine and_congr_right fun h1 => and_congr (exists_congr fun part2 => and_congr_right fun h2 =>
      relabel_eq_iff hperm (List.mem_of_getElem? h2)) (and_congr_right fun _ => not_congr ?_)
    exact hentry nr (hlen ▸ (List.getElem?_eq_some_iff.mp h1).1)
  refine ⟨hperm, once_reportPipes, hlines, fun σ hσ heq => ?_⟩
  subst heq
  refine List.eq_nil_iff_forall_not_mem.mpr fun ⟨nr, owner1, owner2⟩ hmem => ?_
  obtain ⟨h1, ⟨part2, h2, hfind⟩, hne, -⟩ := (hlines nr owner1 owner2).mp hmem
  have hround := (find?_makePerm hlen hlt h).mp hfind
  obtain ⟨hmem2, rfl⟩ := rounds_permuted hσ (picks_of_matches hlen hlt h _) hround
  rw [List.getElem?_map, h1, Option.map_some] at h2
  exact hne (hσ.injOn (List.mem_of_getElem? h1) hmem2 (Option.some.inj h2))

theorem find?_makePerm_of_noneMatches (hlen : asg1.length = asg2.length) (h : NoneMatches asg1 asg2) :
    ((makePerm asg1 asg2 (sizesOf asg2)).find? (-1)).isSome ∧ (-1 : ℤ) ∉ asg2 := by
  obtain ⟨hn, part, hpart, hall, hnotMem⟩ := h
  have hmem : ∀ asg, asg ∈ asg2 ↔ asg = part := by
    refine fun asg => ⟨hall asg, ?_⟩
    rintro rfl
    obtain ⟨x, hx⟩ := List.exists_mem_of_length_pos (l := asg2) (by omega)
    exact hall x hx ▸ hx
  have hnumbers : partNumbers (sizesOf asg2) = [part] := by
    refine List.perm_singleton.mp ((List.perm_ext_iff_of_nodup (partNumbers_nodup _)
      (List.nodup_singleton _)).mpr fun asg => ?_)
    rw [mem_partNumbers_sizesOf, hmem, List.mem_singleton]
  have hqueue : partsQueue (sizesOf asg2) = [part] :=
    List.perm_singleton.mp (hnumbers ▸ partsQueue_perm (sizesOf asg2))
  have hzip : (asg1.zip asg2).length = 2 ^ 31 - 1 := by
    rw [List.length_zip, hlen, min_self, hn]
  have hmismatches : mismatches asg1 asg2 part part = 2 ^ 31 - 1 := by
    rw [← hzip, mismatches, List.countP_eq_length]
    intro asg hasg
    have hmem1 : asg.1 ∈ asg1 := (List.of_mem_zip hasg).1
    have hmem2 : asg.2 ∈ asg2 := (List.of_mem_zip hasg).2
    exact decide_eq_true ⟨hall _ hmem2, ne_of_mem_of_not_mem hmem1 hnotMem⟩
  have hbest : tryPart asg1 asg2 ∅ part (2 ^ 31 - 1, -1) part = (2 ^ 31 - 1, -1) := by
    rw [tryPart, hmismatches]
    simp
  refine ⟨?_, fun hminus => hpart (hall _ hminus).symm⟩
  rw [makePerm, hqueue, List.foldl_cons, List.foldl_nil, choosePart, hnumbers, List.foldl_cons,
    List.foldl_nil, hbest]
  simp

theorem not_noneMatches {g1 g2 : GraphData D} {entry : ℕ → Prop}
    (h1 : ∀ e ∈ g1.myEdges, e.owner.isSome) (h2 : ∀ e ∈ g2.myEdges, e.owner.isSome)
    (hlen : g1.myEdges.length = g2.myEdges.length) {r : Changes}
    (hresult : assigndiff g1 g2 = .ok (perm, r))
    (h : ReportsChanges g1.owners g2.owners entry perm r.lines) :
    ¬NoneMatches g1.owners g2.owners := by
  intro hnone
  obtain ⟨entrypipes, heq, -⟩ := assigndiff_eq h1 h2 hlen
  rw [heq] at hresult
  cases hresult
  obtain ⟨hsome, hnotMem⟩ :=
    find?_makePerm_of_noneMatches (by rw [length_owners h1, length_owners h2, hlen]) hnone
  exact hnotMem ((h.keys (-1)).mp hsome)

/-- **The parts are permuted and the changes are printed** if and only if something matches, or
there are fewer than `INT_MAX` pipes. -/
theorem reportsChanges_iff {g1 g2 : MNGraph D} (h1 : ∀ e ∈ g1.myEdges, e.owner.isSome)
    (h2 : ∀ e ∈ g2.myEdges, e.owner.isSome) (hlen : g1.myEdges.length = g2.myEdges.length) :
    (∃ perm r, assigndiff g1.toGraphData g2.toGraphData = .ok (perm, r) ∧
        ReportsChanges g1.owners g2.owners g2.IsEntryPipe perm r.lines) ↔
      ¬NoneMatches g1.owners g2.owners := by
  constructor
  · rintro ⟨perm, r, hresult, h⟩
    exact not_noneMatches h1 h2 hlen hresult h
  · intro h
    obtain ⟨entrypipes, heq, hmem⟩ := assigndiff_eq h1 h2 hlen
    refine ⟨_, _, heq, reportsChanges_of_matches ?_ ?_ h ?_⟩
    · rw [length_owners h1, length_owners h2, hlen]
    · rw [length_owners h2]
      exact g2.built.edges_lt
    · rwa [length_owners h2]

end

/-! ## Pipes between two vertices -/

/-- Pipes with the given owners, side by side. -/
def ownedPipes (asg : List Int32) : GraphData Unit :=
  { (∅ : GraphData Unit) with
    myVertices := [∅, ∅]
    myEdges := asg.map fun i => ⟨0, 1, (∅ : AttributeMap Unit).setInteger (str "emul") i⟩ }

theorem isSome_owner_ownedPipes {asg : List Int32} : ∀ e ∈ (ownedPipes asg).myEdges,
    e.owner.isSome := by
  intro e he
  obtain ⟨i, -, rfl⟩ := List.mem_map.mp he
  simp [Edge.owner, AttributeMap.setInteger]

@[simp] theorem owners_ownedPipes (asg : List Int32) :
    (ownedPipes asg).owners = asg.map Int32.toInt := by
  rw [GraphData.owners, ownedPipes, List.filterMap_map, ← List.filterMap_eq_map]
  refine List.filterMap_congr fun i _ => ?_
  simp [Edge.owner, AttributeMap.setInteger]

@[simp] theorem length_ownedPipes (asg : List Int32) :
    (ownedPipes asg).myEdges.length = asg.length := List.length_map _

def ownedGraph (asg : List Int32) (h : asg.length < 2 ^ 31) : MNGraph Unit where
  toGraphData := ownedPipes asg
  built := by
    refine ⟨fun e he => ?_, fun e he => ?_, by simp [ownedPipes], by simpa using h⟩ <;>
      obtain ⟨i, -, rfl⟩ := List.mem_map.mp he <;> simp [ownedPipes]

@[simp] theorem ownedGraph_toGraphData {asg : List Int32} (h : asg.length < 2 ^ 31) :
    (ownedGraph asg h).toGraphData = ownedPipes asg := rfl

/-- Two parts change their numbers and a pipe moves. -/
theorem swappedParts_reported :
    (∃ perm r, assigndiff (ownedPipes [0, 0, 1, 1]) (ownedPipes [1, 1, 0, 1]) = .ok (perm, r) ∧
      ReportsChanges (ownedPipes [0, 0, 1, 1]).owners (ownedPipes [1, 1, 0, 1]).owners
        (ownedPipes [1, 1, 0, 1]).IsEntryPipe perm r.lines) :=
  (@reportsChanges_iff Unit (ownedGraph [0, 0, 1, 1] (by decide))
    (ownedGraph [1, 1, 0, 1] (by decide)) isSome_owner_ownedPipes isSome_owner_ownedPipes rfl).mpr
    fun h => absurd h.1 (by simp)

theorem length_replicate_lt (i : Int32) : (List.replicate (2 ^ 31 - 1) i).length < 2 ^ 31 := by
  rw [List.length_replicate]
  exact Nat.sub_one_lt (by decide)

/-- `INT_MAX` pipes of part 0 that all go to part 1. -/
theorem fullGraph_misreported :
    ¬∃ perm r, assigndiff (ownedGraph _ (length_replicate_lt 0)).toGraphData
        (ownedGraph _ (length_replicate_lt 1)).toGraphData = .ok (perm, r) ∧
      ReportsChanges (ownedGraph _ (length_replicate_lt 0)).owners
        (ownedGraph _ (length_replicate_lt 1)).owners
        (ownedGraph _ (length_replicate_lt 1)).IsEntryPipe perm r.lines := by
  rintro ⟨perm, r, hresult, h⟩
  refine not_noneMatches isSome_owner_ownedPipes isSome_owner_ownedPipes ?_ hresult h ?_
  · rw [length_ownedPipes, length_ownedPipes, List.length_replicate, List.length_replicate]
  · rw [owners_ownedPipes, owners_ownedPipes]
    refine ⟨by rw [List.length_map, List.length_replicate], 1, by decide, fun asg hasg => ?_,
      fun hmem => ?_⟩
    · obtain ⟨i, hi, rfl⟩ := List.mem_map.mp hasg
      rw [List.eq_of_mem_replicate hi]
      rfl
    · obtain ⟨i, hi, heq⟩ := List.mem_map.mp hmem
      rw [List.eq_of_mem_replicate hi] at heq
      exact absurd heq (by decide)

end Modelnet.Tools

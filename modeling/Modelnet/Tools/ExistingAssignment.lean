import Mathlib.Data.Finset.Card
import Mathlib.Data.List.Nodup
import Modelnet.Tools.Routes

/-!
# Existing assignments

`existing_assignment` reads the cores that the edges of a graph have already. It is to number their
names in the order in which they come up, but gives a name the next number when the name is known
already, not when it is new: new names get 0, and a name gets another number each time it comes up
again. So what is read is what was written only where at most one pair of edges has one name
(`existingAssign_iff`).
-/

namespace Modelnet.Tools

variable {D : Type}

/-- The variables of `assign`; `assigns` for the edges that have been read. -/
structure ExistingState where
  coreNames : SortedMap Str ℤ
  coreNum : ℤ
  assigns : List ℤ

/-- The name of the core of an edge. -/
def Edge.emul (e : Edge D) : Option Str := e.attr.myStrings.find? (str "emul")

section

variable (parts : ℕ)

/-- The body of the loop, for an edge with a name; `none` for `exit(1)`. -/
def readCore (s : ExistingState) (asg : Str) : Option ExistingState :=
  let s :=
    if (s.coreNames.find? asg).isSome then
      { s with coreNames := s.coreNames.insert asg s.coreNum, coreNum := s.coreNum + 1 }
    else s
  -- a name that is not in the map is entered with 0
  let coreNames :=
    if (s.coreNames.find? asg).isSome then s.coreNames else s.coreNames.insert asg 0
  let core := (coreNames.find? asg).getD 0
  if core > parts - 1 then none
  else some { s with coreNames := coreNames, assigns := s.assigns ++ [core] }

/-- The body of the loop. -/
def readEdge (s : ExistingState) (e : Edge D) : Option ExistingState :=
  match e.emul with
  | none => none
  | some asg => readCore parts s asg

/-- `existing_assignment::assign`: the cores of the edges. -/
def existingAssign (g : GraphData D) : Option (List ℤ) :=
  (g.myEdges.foldlM (readEdge parts) ⟨∅, 0, []⟩).map ExistingState.assigns

end

/-! ## What is claimed -/

/-- How many other names come up before a name. -/
def namesBefore (names : List Str) (asg : Str) : ℕ := (names.take (names.idxOf asg)).toFinset.card

/-- The names are numbered in the order in which they come up, if the parts are enough for them. -/
structure NumbersNames (parts : ℕ) (names : List Str) (cores : Option (List ℤ)) : Prop where
  exits : cores = none ↔ parts < names.toFinset.card
  length : ∀ cs, cores = some cs → cs.length = names.length
  same : ∀ cs, cores = some cs → ∀ i < names.length, ∀ j < names.length,
    cs[i]? = cs[j]? ↔ names[i]? = names[j]?
  numbered : ∀ cs, cores = some cs → ∀ (i : ℕ) (asg : Str), names[i]? = some asg →
    cs[i]? = some (namesBefore names asg : ℤ)

/-! ## What the loop does -/

/-- How often a name comes up again. -/
def repeats (names : List Str) : ℕ := names.length - names.toFinset.card

theorem card_le_length (names : List Str) : names.toFinset.card ≤ names.length :=
  List.toFinset_card_le names

theorem repeats_concat (names : List Str) (asg : Str) :
    repeats (names ++ [asg]) = repeats names + if asg ∈ names then 1 else 0 := by
  have hle := card_le_length names
  have hset : (names ++ [asg]).toFinset = insert asg names.toFinset := by
    ext x
    simp
  rw [repeats, repeats, hset, List.length_append, List.length_singleton]
  split_ifs with hmem
  · rw [Finset.insert_eq_of_mem (by simpa using hmem)]
    omega
  · rw [Finset.card_insert_of_notMem (by simpa using hmem)]
    omega

/-- What the names get: 0 when they are new, and then the number of repetitions before. -/
def coresOf (names : List Str) : List ℤ :=
  (List.range names.length).map fun i =>
    if names[i]? ∈ (names.take i).map some then (repeats (names.take i) : ℤ) else 0

theorem coresOf_concat (names : List Str) (asg : Str) : coresOf (names ++ [asg]) =
    coresOf names ++ [if asg ∈ names then (repeats names : ℤ) else 0] := by
  rw [coresOf, coresOf, List.length_append, List.length_singleton, List.range_succ, List.map_append,
    List.map_singleton]
  congr 1
  · refine List.map_congr_left fun i hi => ?_
    have hlt := List.mem_range.mp hi
    rw [List.getElem?_append_left hlt, List.take_append_of_le_length hlt.le]
  · simp

variable {parts : ℕ} {s : ExistingState} {asg : Str}

theorem readCore_known (h : (s.coreNames.find? asg).isSome) : readCore parts s asg =
    if s.coreNum > parts - 1 then none
    else some ⟨s.coreNames.insert asg s.coreNum, s.coreNum + 1, s.assigns ++ [s.coreNum]⟩ := by
  simp [readCore, h]

theorem readCore_new (h : ¬(s.coreNames.find? asg).isSome) : readCore parts s asg =
    if 0 > (parts : ℤ) - 1 then none
    else some ⟨s.coreNames.insert asg 0, s.coreNum, s.assigns ++ [0]⟩ := by
  simp [readCore, h]

theorem isSome_find?_insert (m : SortedMap Str ℤ) (asg x : Str) (v : ℤ) :
    ((m.insert asg v).find? x).isSome ↔ (m.find? x).isSome ∨ x = asg := by
  by_cases hx : x = asg
  · subst hx
    simp
  · rw [m.find?_insert_of_ne v hx]
    simp [hx]

/-- The loop is still going after some names. -/
structure ReadNames (parts : ℕ) (names : List Str) (s : ExistingState) : Prop where
  assigns : s.assigns = coresOf names
  coreNum : s.coreNum = repeats names
  known : ∀ asg, (s.coreNames.find? asg).isSome ↔ asg ∈ names
  pos : names ≠ [] → 0 < parts
  le : repeats names ≤ parts

theorem ReadNames.readCore {names : List Str} (h : ReadNames parts names s) (asg : Str) :
    (∃ s', readCore parts s asg = some s' ∧ ReadNames parts (names ++ [asg]) s') ∨
      readCore parts s asg = none ∧ (parts = 0 ∨ parts < repeats (names ++ [asg])) := by
  have hrepeats := repeats_concat names asg
  have hcores := coresOf_concat names asg
  have hknown : ∀ v x, ((s.coreNames.insert asg v).find? x).isSome ↔ x ∈ names ++ [asg] := by
    intro v x
    rw [isSome_find?_insert, h.known x]
    simp
  by_cases hmem : asg ∈ names
  · rw [if_pos hmem] at hrepeats hcores
    rw [readCore_known ((h.known asg).mpr hmem), h.coreNum]
    split_ifs with hmany
    · exact Or.inr ⟨rfl, Or.inr (by omega)⟩
    · exact Or.inl ⟨_, rfl, by rw [hcores, h.assigns], by rw [hrepeats]; rfl, hknown _,
        fun _ => by omega, by omega⟩
  · rw [if_neg hmem] at hrepeats hcores
    rw [readCore_new (mt (h.known asg).mp hmem)]
    split_ifs with hmany
    · exact Or.inr ⟨rfl, Or.inl (by omega)⟩
    · exact Or.inl ⟨_, rfl, by rw [hcores, h.assigns], by rw [hrepeats, h.coreNum]; rfl, hknown _,
        fun _ => by omega, hrepeats ▸ h.le⟩

/-- **The loop** is still going after some names, or too many names have come up again. -/
theorem foldlM_readCore (parts : ℕ) (names : List Str) :
    (∃ s, names.foldlM (Tools.readCore parts) ⟨∅, 0, []⟩ = some s ∧ ReadNames parts names s) ∨
      names.foldlM (Tools.readCore parts) ⟨∅, 0, []⟩ = none ∧ names ≠ [] ∧
        (parts = 0 ∨ parts < repeats names) := by
  induction names using List.reverseRecOn with
  | nil => exact Or.inl ⟨_, rfl, rfl, rfl, by simp, by simp, Nat.zero_le _⟩
  | append_singleton names asg ih =>
    rw [List.foldlM_append]
    rcases ih with ⟨s, hs, h⟩ | ⟨hnone, hne, hmany⟩
    · rw [hs]
      rcases h.readCore asg with ⟨s', hs', h'⟩ | ⟨hnone, hmany⟩
      · exact Or.inl ⟨s', by simpa using hs', h'⟩
      · exact Or.inr ⟨by simpa using hnone, by simp, hmany⟩
    · rw [hnone]
      have := repeats_concat names asg
      exact Or.inr ⟨rfl, by simp, by omega⟩

/-- The names of a graph whose edges all have one. -/
def GraphData.emuls (g : GraphData D) : List Str := g.myEdges.map fun e => e.emul.getD []

theorem foldlM_readEdge {es : List (Edge D)} (hemul : ∀ e ∈ es, e.emul.isSome)
    (s : ExistingState) : es.foldlM (readEdge parts) s =
      (es.map fun e => e.emul.getD []).foldlM (readCore parts) s := by
  induction es generalizing s with
  | nil => rfl
  | cons e es ih =>
    obtain ⟨asg, hasg⟩ := Option.isSome_iff_exists.mp (hemul e List.mem_cons_self)
    have hedge : readEdge parts s e = readCore parts s asg := by rw [readEdge, hasg]
    rw [List.map_cons, List.foldlM_cons, List.foldlM_cons, hedge, hasg, Option.getD_some]
    congr 1
    funext s'
    exact ih (fun f hf => hemul f (List.mem_cons_of_mem e hf)) s'

theorem existingAssign_cases (parts : ℕ) {g : GraphData D}
    (hemul : ∀ e ∈ g.myEdges, e.emul.isSome) :
    existingAssign parts g = some (coresOf g.emuls) ∧ (g.emuls ≠ [] → 0 < parts) ∧
        repeats g.emuls ≤ parts ∨
      existingAssign parts g = none ∧ g.emuls ≠ [] ∧ (parts = 0 ∨ parts < repeats g.emuls) := by
  rw [existingAssign, foldlM_readEdge hemul, ← GraphData.emuls]
  rcases foldlM_readCore parts g.emuls with ⟨s, hs, h⟩ | ⟨hnone, hne, hmany⟩
  · exact Or.inl ⟨by rw [hs, Option.map_some, h.assigns], h.pos, h.le⟩
  · exact Or.inr ⟨by rw [hnone, Option.map_none], hne, hmany⟩

/-! ## When it is right -/

theorem getElem?_coresOf {names : List Str} {i : ℕ} (hi : i < names.length) :
    (coresOf names)[i]? = some (if names[i]? ∈ (names.take i).map some
      then (repeats (names.take i) : ℤ) else 0) := by
  rw [coresOf, List.getElem?_map, List.getElem?_range hi, Option.map_some]

theorem getElem?_coresOf_idxOf {names : List Str} (hmem : asg ∈ names) :
    (coresOf names)[names.idxOf asg]? = some 0 := by
  have hlt := List.idxOf_lt_length_of_mem hmem
  rw [getElem?_coresOf hlt, if_neg]
  rw [List.getElem?_eq_getElem hlt, List.getElem_idxOf]
  intro hbefore
  obtain ⟨x, hx, hxasg⟩ := List.mem_map.mp hbefore
  rw [Option.some.inj hxasg, List.mem_take_iff_idxOf_lt hmem] at hx
  exact lt_irrefl _ hx

/-- Cores that name the edges give all of them one name, and there are at most two edges. -/
theorem le_two_of_numbersNames {names : List Str} (hne : names ≠ [])
    (h : NumbersNames parts names (some (coresOf names))) :
    names.toFinset.card = 1 ∧ names.length ≤ 2 := by
  obtain ⟨x, rest, rfl⟩ := List.exists_cons_of_ne_nil hne
  have hall : ∀ y ∈ x :: rest, y = x := by
    intro y hy
    have hlt := List.idxOf_lt_length_of_mem hy
    have hzero := getElem?_coresOf_idxOf hy
    have hfirst := getElem?_coresOf_idxOf (List.mem_cons_self : x ∈ x :: rest)
    have hsame := (h.same _ rfl _ hlt _ (List.idxOf_lt_length_of_mem List.mem_cons_self)).mp
      (hzero.trans hfirst.symm)
    rwa [List.getElem?_eq_getElem hlt, List.getElem_idxOf, List.idxOf_cons_self,
      List.getElem?_cons_zero, Option.some.injEq] at hsame
  have hset : (x :: rest).toFinset = {x} := by
    ext y
    rw [List.mem_toFinset, Finset.mem_singleton]
    exact ⟨hall y, fun hy => hy ▸ List.mem_cons_self⟩
  refine ⟨by rw [hset, Finset.card_singleton], ?_⟩
  match rest with
  | [] | [_] => simp
  | y :: z :: rest =>
    exfalso
    obtain rfl := hall y (by simp)
    obtain rfl := hall z (by simp)
    have hsame := (h.same _ rfl 2 (by simp) 0 (by simp)).mpr rfl
    rw [getElem?_coresOf (by simp), getElem?_coresOf (by simp)] at hsame
    simp [repeats] at hsame

theorem numbersNames_of_le_two {names : List Str} (hparts : 0 < parts)
    (hcard : names.toFinset.card = 1) (hlength : names.length ≤ 2) :
    NumbersNames parts names (some (coresOf names)) := by
  obtain ⟨x, hx⟩ := Finset.card_eq_one.mp hcard
  have hall : ∀ y ∈ names, y = x := fun y hy => by simpa [hx] using List.mem_toFinset.mpr hy
  have hzero : ∀ i < names.length, names[i]? = some x ∧ (coresOf names)[i]? = some 0 := by
    intro i hi
    refine ⟨by rw [List.getElem?_eq_getElem hi, hall _ (List.getElem_mem hi)], ?_⟩
    rw [getElem?_coresOf hi]
    match i, hi with
    | 0, _ => simp
    | 1, _ =>
      match names with
      | y :: names => simp [repeats]
    | i + 2, hi => omega
  refine ⟨?_, ?_, ?_, ?_⟩
  · simp only [hcard, reduceCtorEq, false_iff]
    omega
  · rintro cs ⟨⟩
    simp [coresOf]
  · rintro cs ⟨⟩ i hi j hj
    rw [(hzero i hi).1, (hzero i hi).2, (hzero j hj).1, (hzero j hj).2]
    simp
  · rintro cs ⟨⟩ i asg hasg
    obtain ⟨hi, rfl⟩ := List.getElem?_eq_some_iff.mp hasg
    have hidx : names.idxOf names[i] = 0 := by
      rw [hall _ (List.getElem_mem hi)]
      cases names with
      | nil => simp at hi
      | cons y names => rw [hall y List.mem_cons_self, List.idxOf_cons_self]
    rw [(hzero i hi).2, namesBefore, hidx]
    rfl

/-- **The numbers are right** if and only if there is nothing to read, no part, one name on at most
two edges, or both too many names and too many repetitions. -/
theorem existingAssign_iff (parts : ℕ) {g : GraphData D} (hemul : ∀ e ∈ g.myEdges, e.emul.isSome) :
    NumbersNames parts g.emuls (existingAssign parts g) ↔
      g.emuls = [] ∨ parts = 0 ∨ g.emuls.toFinset.card = 1 ∧ g.emuls.length ≤ 2 ∨
        parts < g.emuls.toFinset.card ∧ parts < repeats g.emuls := by
  rcases existingAssign_cases parts hemul with ⟨hcores, hpos, hle⟩ | ⟨hnone, hne, hmany⟩
  · rw [hcores]
    constructor
    · intro h
      by_cases hne : g.emuls = []
      · exact Or.inl hne
      · exact Or.inr (Or.inr (Or.inl (le_two_of_numbersNames hne h)))
    · rintro (hempty | hzero | ⟨hcard, hlength⟩ | ⟨-, hmany⟩)
      · rw [hempty]
        exact ⟨by simp, by simp [coresOf], by simp, by simp⟩
      · have hempty : g.emuls = [] := by
          by_contra hne
          exact (hpos hne).ne' hzero
        rw [hempty]
        exact ⟨by simp, by simp [coresOf], by simp, by simp⟩
      · refine numbersNames_of_le_two (hpos ?_) hcard hlength
        rintro hempty
        simp [hempty] at hcard
      · omega
  · rw [hnone]
    have hcard : 0 < g.emuls.toFinset.card := by
      obtain ⟨x, hx⟩ := List.exists_mem_of_ne_nil _ hne
      exact Finset.card_pos.mpr ⟨x, List.mem_toFinset.mpr hx⟩
    have hexits : NumbersNames parts g.emuls none ↔ parts < g.emuls.toFinset.card :=
      ⟨fun h => h.exits.mp rfl, fun h => ⟨by simp [h], by simp, by simp, by simp⟩⟩
    rw [hexits]
    constructor
    · intro hlt
      rcases hmany with hzero | hmany
      · exact Or.inr (Or.inl hzero)
      · exact Or.inr (Or.inr (Or.inr ⟨hlt, hmany⟩))
    · rintro (hempty | hzero | ⟨hcard, hlength⟩ | ⟨hlt, -⟩)
      · exact absurd hempty hne
      · omega
      · unfold repeats at hmany
        omega
      · exact hlt

/-- Two edges with cores. -/
def namedCores (a b : String) : GraphData Unit :=
  let on (core : String) : AttributeMap Unit :=
    (∅ : AttributeMap Unit).setString (str "emul") (str core)
  { (∅ : GraphData Unit) with
    myVertices := [∅, ∅], myEdges := [⟨0, 1, on a⟩, ⟨1, 0, on b⟩] }

theorem namedCores_read : NumbersNames 3 (namedCores "a" "a").emuls
    (existingAssign 3 (namedCores "a" "a")) :=
  (existingAssign_iff 3 (by decide +kernel)).mpr
    (Or.inr (Or.inr (Or.inl ⟨by decide +kernel, by decide⟩)))

/-- Two cores are read as one. -/
theorem namedCores_misread : ¬NumbersNames 2 (namedCores "a" "b").emuls
    (existingAssign 2 (namedCores "a" "b")) := by
  have hcores : existingAssign 2 (namedCores "a" "b") = some [0, 0] := by decide +kernel
  have hnames : (namedCores "a" "b").emuls[0]? ≠ (namedCores "a" "b").emuls[1]? := by
    decide +kernel
  rw [hcores]
  intro h
  exact hnames ((h.same _ rfl 0 (by decide) 1 (by decide)).mp rfl)

end Modelnet.Tools

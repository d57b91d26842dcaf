import Mathlib.Data.List.Nodup
import Mathlib.Data.List.Perm.Basic
import Mathlib.Data.Set.Card

/-!
# Numbered trees

A recursive procedure that builds a tree takes the next number for a vertex, builds the subtrees one
after the other, and enters the edge to each of them when it is there. So the vertices of a subtree
have consecutive numbers, and the tree grows by adopting subtrees with larger numbers
(`NumberedTree`). Below a vertex of an adopted subtree everything stays as it was (`down_adopted`,
`down_kept`), so that facts about depths and about the numbers of marked vertices are kept.
-/

/-- The way from one vertex down to another, with the number of its edges. -/
inductive Down (es : List (ℕ × ℕ)) : ℕ → ℕ → ℕ → Prop
  | refl (u : ℕ) : Down es 0 u u
  | step {k u v w : ℕ} : (u, v) ∈ es → Down es k v w → Down es (k + 1) u w

theorem Down.mono {es es' : List (ℕ × ℕ)} (hsub : ∀ e ∈ es, e ∈ es') {k u w : ℕ}
    (h : Down es k u w) : Down es' k u w := by
  induction h with
  | refl u => exact .refl u
  | step he _ ih => exact .step (hsub _ he) ih

/-- The edges and marked vertices of a tree with the numbers from `lo` to `hi - 1` and the root
`lo`. -/
inductive NumberedTree : List (ℕ × ℕ) → List ℕ → ℕ → ℕ → Prop
  | single (lo : ℕ) : NumberedTree [] [] lo (lo + 1)
  | marked (lo : ℕ) : NumberedTree [] [lo] lo (lo + 1)
  | adopt {es fs : List (ℕ × ℕ)} {ls ms : List ℕ} {lo mid hi : ℕ} :
    NumberedTree es ls lo mid → NumberedTree fs ms mid hi →
      NumberedTree (es ++ fs ++ [(lo, mid)]) (ls ++ ms) lo hi

namespace NumberedTree

variable {es fs : List (ℕ × ℕ)} {ls ms : List ℕ} {lo mid hi k u v w : ℕ}

/-! ## The numbers -/

theorem lt (h : NumberedTree es ls lo hi) : lo < hi := by
  induction h with
  | single lo => exact Nat.lt_succ_self lo
  | marked lo => exact Nat.lt_succ_self lo
  | adopt _ _ ihes ihfs => exact ihes.trans ihfs

theorem mem_edges (h : NumberedTree es ls lo hi) (he : (u, v) ∈ es) : lo ≤ u ∧ u < v ∧ v < hi := by
  induction h with
  | single lo => exact absurd he List.not_mem_nil
  | marked lo => exact absurd he List.not_mem_nil
  | adopt hes hfs ihes ihfs =>
    have hlt := hes.lt
    have hlt' := hfs.lt
    rcases List.mem_append.mp he with he | he
    · rcases List.mem_append.mp he with he | he
      · obtain ⟨h1, h2, h3⟩ := ihes he
        exact ⟨h1, h2, h3.trans hlt'⟩
      · obtain ⟨h1, h2, h3⟩ := ihfs he
        exact ⟨hlt.le.trans h1, h2, h3⟩
    · obtain ⟨rfl, rfl⟩ := Prod.mk.inj (List.mem_singleton.mp he)
      exact ⟨le_rfl, hlt, hlt'⟩

theorem mem_marks (h : NumberedTree es ls lo hi) (hu : u ∈ ls) : lo ≤ u ∧ u < hi := by
  induction h with
  | single lo => exact absurd hu List.not_mem_nil
  | marked lo =>
    rw [List.mem_singleton.mp hu]
    exact ⟨le_rfl, Nat.lt_succ_self lo⟩
  | adopt hes hfs ihes ihfs =>
    rcases List.mem_append.mp hu with hu | hu
    · exact ⟨(ihes hu).1, (ihes hu).2.trans hfs.lt⟩
    · exact ⟨hes.lt.le.trans (ihfs hu).1, (ihfs hu).2⟩

theorem marks_nodup (h : NumberedTree es ls lo hi) : ls.Nodup := by
  induction h with
  | single lo => exact List.nodup_nil
  | marked lo => exact List.nodup_singleton lo
  | adopt hes hfs ihes ihfs =>
    refine List.nodup_append.mpr ⟨ihes, ihfs, fun u hu v hv heq => ?_⟩
    have hu' := (hes.mem_marks hu).2
    have hv' := (hfs.mem_marks hv).1
    omega

/-- **Every vertex but the root has one parent.** -/
theorem targets (h : NumberedTree es ls lo hi) :
    (es.map Prod.snd).Perm (List.range' (lo + 1) (hi - lo - 1)) := by
  induction h with
  | single lo => simp
  | marked lo => simp
  | @adopt es fs ls ms lo mid hi hes hfs ihes ihfs =>
    have hlt := hes.lt
    have hlt' := hfs.lt
    have hsplit : List.range' (lo + 1) (hi - lo - 1) = List.range' (lo + 1) (mid - lo - 1) ++
        (mid :: List.range' (mid + 1) (hi - mid - 1)) := by
      rw [← List.range'_succ, show hi - lo - 1 = (mid - lo - 1) + (hi - mid - 1 + 1) by omega,
        ← List.range'_append_1, show lo + 1 + (mid - lo - 1) = mid by omega]
    rw [hsplit, List.map_append, List.map_append, List.map_singleton, List.append_assoc]
    refine ihes.append ?_
    exact (List.perm_append_comm.trans (ihfs.cons mid))

/-! ## Ways down -/

theorem down_mem (h : NumberedTree es ls lo hi) (hdown : Down es k u w) (hu : u < hi) :
    u ≤ w ∧ w < hi := by
  induction hdown with
  | refl u => exact ⟨le_rfl, hu⟩
  | step he _ ih =>
    obtain ⟨-, hlt, hv⟩ := h.mem_edges he
    obtain ⟨hle, hw⟩ := ih hv
    exact ⟨hlt.le.trans hle, hw⟩

section

variable (hes : NumberedTree es ls lo mid) (hfs : NumberedTree fs ms mid hi)

include hes hfs

theorem down_adopted (hu : mid ≤ u) : Down (es ++ fs ++ [(lo, mid)]) k u w ↔ Down fs k u w := by
  constructor
  · intro h
    induction h with
    | refl u => exact .refl u
    | step he _ ih =>
      have hlt := hes.lt
      rcases List.mem_append.mp he with he | he
      · rcases List.mem_append.mp he with he | he
        · have := hes.mem_edges he
          omega
        · exact .step he (ih (hu.trans (hfs.mem_edges he).2.1.le))
      · obtain ⟨rfl, rfl⟩ := Prod.mk.inj (List.mem_singleton.mp he)
        omega
  · exact Down.mono fun e he => by simp [he]

/-- Below another vertex than the root nothing changes either. -/
theorem down_kept (hu : lo < u) (hu' : u < mid) :
    Down (es ++ fs ++ [(lo, mid)]) k u w ↔ Down es k u w := by
  constructor
  · intro h
    induction h with
    | refl u => exact .refl u
    | step he _ ih =>
      rcases List.mem_append.mp he with he | he
      · rcases List.mem_append.mp he with he | he
        · obtain ⟨-, hlt, hv⟩ := hes.mem_edges he
          exact .step he (ih (hu.trans hlt) hv)
        · have := hfs.mem_edges he
          omega
      · obtain ⟨rfl, rfl⟩ := Prod.mk.inj (List.mem_singleton.mp he)
        omega
  · exact Down.mono fun e he => by simp [he]

/-- Below the root the adopted tree is one edge further down. -/
theorem down_root : Down (es ++ fs ++ [(lo, mid)]) k lo w ↔
    Down es k lo w ∨ ∃ j, k = j + 1 ∧ Down fs j mid w := by
  constructor
  · intro h
    cases h with
    | refl => exact Or.inl (.refl lo)
    | step he h =>
      rcases List.mem_append.mp he with he | he
      · rcases List.mem_append.mp he with he | he
        · obtain ⟨-, hlt, hv⟩ := hes.mem_edges he
          exact Or.inl (.step he ((down_kept hes hfs hlt hv).mp h))
        · have := hfs.mem_edges he
          have := hes.lt
          omega
      · obtain ⟨-, rfl⟩ := Prod.mk.inj (List.mem_singleton.mp he)
        exact Or.inr ⟨_, rfl, (down_adopted hes hfs le_rfl).mp h⟩
  · rintro (h | ⟨j, rfl, h⟩)
    · exact h.mono fun e he => by simp [he]
    · exact .step (by simp) ((down_adopted hes hfs le_rfl).mpr h)

end

/-- **The root leads everywhere.** -/
theorem exists_down (h : NumberedTree es ls lo hi) (hw : lo ≤ w) (hw' : w < hi) :
    ∃ k, Down es k lo w := by
  induction h with
  | single lo =>
    obtain rfl : w = lo := by omega
    exact ⟨0, .refl w⟩
  | marked lo =>
    obtain rfl : w = lo := by omega
    exact ⟨0, .refl w⟩
  | @adopt es fs ls ms lo mid hi hes hfs ihes ihfs =>
    rcases lt_or_ge w mid with hlt | hge
    · obtain ⟨k, hk⟩ := ihes hw hlt
      exact ⟨k, (down_root hes hfs).mpr (Or.inl hk)⟩
    · obtain ⟨k, hk⟩ := ihfs hge hw'
      exact ⟨k + 1, (down_root hes hfs).mpr (Or.inr ⟨k, rfl, hk⟩)⟩

/-! ## Depths -/

/-- The marked vertices are all `d` edges below the root. -/
def MarksAt (es : List (ℕ × ℕ)) (ls : List ℕ) (lo d : ℕ) : Prop :=
  ∀ w ∈ ls, ∀ k, Down es k lo w ↔ k = d

theorem MarksAt.adopt (hes : NumberedTree es ls lo mid) (hfs : NumberedTree fs ms mid hi) {d : ℕ}
    (h : MarksAt es ls lo (d + 1)) (h' : MarksAt fs ms mid d) :
    MarksAt (es ++ fs ++ [(lo, mid)]) (ls ++ ms) lo (d + 1) := by
  intro w hw k
  rw [down_root hes hfs]
  rcases List.mem_append.mp hw with hw | hw
  · have hfar : ¬∃ j, k = j + 1 ∧ Down fs j mid w := by
      rintro ⟨j, -, hdown⟩
      have hge := (hfs.down_mem hdown hfs.lt).1
      have hlt := (hes.mem_marks hw).2
      omega
    rw [or_iff_left hfar, h w hw]
  · have hnear : ¬Down es k lo w := by
      intro hdown
      have hlt := (hes.down_mem hdown hes.lt).2
      have hge := (hfs.mem_marks hw).1
      omega
    rw [or_iff_right hnear]
    simp only [h' w hw]
    constructor
    · rintro ⟨j, rfl, rfl⟩
      rfl
    · rintro rfl
      exact ⟨d, rfl, rfl⟩

/-! ## Marked vertices below a vertex -/

/-- The number of marked vertices below a vertex. -/
noncomputable def marksBelow (es : List (ℕ × ℕ)) (ls : List ℕ) (u : ℕ) : ℕ :=
  Set.ncard {w | w ∈ ls ∧ ∃ k, Down es k u w}

theorem marksBelow_root (h : NumberedTree es ls lo hi) : marksBelow es ls lo = ls.length := by
  have hall : {w | w ∈ ls ∧ ∃ k, Down es k lo w} = (ls.toFinset : Set ℕ) := by
    ext w
    simp only [Set.mem_ofPred_eq, List.coe_toFinset, and_iff_left_iff_imp]
    exact fun hw => h.exists_down (h.mem_marks hw).1 (h.mem_marks hw).2
  rw [marksBelow, hall, Set.ncard_coe_finset, List.toFinset_card_of_nodup h.marks_nodup]

section

variable (hes : NumberedTree es ls lo mid) (hfs : NumberedTree fs ms mid hi)

include hes hfs

theorem marksBelow_adopted (hu : mid ≤ u) (hu' : u < hi) :
    marksBelow (es ++ fs ++ [(lo, mid)]) (ls ++ ms) u = marksBelow fs ms u := by
  refine congrArg Set.ncard (Set.ext fun w => ?_)
  simp only [Set.mem_ofPred_eq, down_adopted hes hfs hu, List.mem_append]
  constructor
  · rintro ⟨hw | hw, k, hdown⟩
    · have hge := (hfs.down_mem hdown hu').1
      have hlt := (hes.mem_marks hw).2
      omega
    · exact ⟨hw, k, hdown⟩
  · rintro ⟨hw, hdown⟩
    exact ⟨Or.inr hw, hdown⟩

theorem marksBelow_kept (hu : lo < u) (hu' : u < mid) :
    marksBelow (es ++ fs ++ [(lo, mid)]) (ls ++ ms) u = marksBelow es ls u := by
  refine congrArg Set.ncard (Set.ext fun w => ?_)
  simp only [Set.mem_ofPred_eq, down_kept hes hfs hu hu', List.mem_append]
  constructor
  · rintro ⟨hw | hw, k, hdown⟩
    · exact ⟨hw, k, hdown⟩
    · have hlt := (hes.down_mem hdown hu').2
      have hge := (hfs.mem_marks hw).1
      omega
  · rintro ⟨hw, hdown⟩
    exact ⟨Or.inl hw, hdown⟩

end

/-- Children of one vertex differ by at most one. -/
def Balanced (es : List (ℕ × ℕ)) (ls : List ℕ) : Prop :=
  ∀ u v w, (u, v) ∈ es → (u, w) ∈ es → marksBelow es ls v ≤ marksBelow es ls w + 1

/-- The children of the root have `q` or `q + 1` marked vertices, and those of the other vertices
differ by at most one. -/
structure Fair (es : List (ℕ × ℕ)) (ls : List ℕ) (lo q : ℕ) : Prop where
  root : ∀ v, (lo, v) ∈ es → q ≤ marksBelow es ls v ∧ marksBelow es ls v ≤ q + 1
  below : ∀ u v w, u ≠ lo → (u, v) ∈ es → (u, w) ∈ es →
    marksBelow es ls v ≤ marksBelow es ls w + 1

theorem Fair.balanced {q : ℕ} (h : Fair es ls lo q) : Balanced es ls := by
  intro u v w hv hw
  by_cases hu : u = lo
  · subst hu
    exact (h.root v hv).2.trans (Nat.succ_le_succ (h.root w hw).1)
  · exact h.below u v w hu hv hw

theorem Fair.adopt (hes : NumberedTree es ls lo mid) (hfs : NumberedTree fs ms mid hi) {q : ℕ}
    (h : Fair es ls lo q) (h' : Balanced fs ms) (hq : q ≤ ms.length) (hq' : ms.length ≤ q + 1) :
    Fair (es ++ fs ++ [(lo, mid)]) (ls ++ ms) lo q := by
  have hkept {u v : ℕ} (he : (u, v) ∈ es) :
      marksBelow (es ++ fs ++ [(lo, mid)]) (ls ++ ms) v = marksBelow es ls v := by
    obtain ⟨hu, hlt, hv⟩ := hes.mem_edges he
    exact marksBelow_kept hes hfs (hu.trans_lt hlt) hv
  have hadopted {u v : ℕ} (he : (u, v) ∈ fs) :
      marksBelow (es ++ fs ++ [(lo, mid)]) (ls ++ ms) v = marksBelow fs ms v := by
    obtain ⟨hu, hlt, hv⟩ := hfs.mem_edges he
    exact marksBelow_adopted hes hfs (hu.trans hlt.le) hv
  have hroot : marksBelow (es ++ fs ++ [(lo, mid)]) (ls ++ ms) mid = ms.length := by
    rw [marksBelow_adopted hes hfs le_rfl hfs.lt, hfs.marksBelow_root]
  constructor
  · intro v he
    rcases List.mem_append.mp he with he | he
    · rcases List.mem_append.mp he with he | he
      · rw [hkept he]
        exact h.root v he
      · have := (hfs.mem_edges he).1
        have := hes.lt
        omega
    · obtain ⟨-, rfl⟩ := Prod.mk.inj (List.mem_singleton.mp he)
      rw [hroot]
      exact ⟨hq, hq'⟩
  · intro u v w hu hv hw
    have hsource {x : ℕ} (he : (u, x) ∈ es ++ fs ++ [(lo, mid)]) : (u, x) ∈ es ∨ (u, x) ∈ fs := by
      rcases List.mem_append.mp he with he | he
      · exact List.mem_append.mp he
      · exact absurd (Prod.mk.inj (List.mem_singleton.mp he)).1 hu
    rcases hsource hv with hv | hv <;> rcases hsource hw with hw | hw
    · rw [hkept hv, hkept hw]
      exact h.below u v w hu hv hw
    · have := hes.mem_edges hv
      have := hfs.mem_edges hw
      omega
    · have := hfs.mem_edges hv
      have := hes.mem_edges hw
      omega
    · rw [hadopted hv, hadopted hw]
      exact h' u v w hv hw

end NumberedTree

import Modelnet.PathArrays
import Modelnet.Linux.EmulateHop
import Modelnet.FreeBSD.EmulateHop

/-!
# The hops of the installed table

Hops come from the loading loop of the hop table and from nowhere else; crossings and changes of
parameters write them back. What a load leaves, with success or not, is a matter of its records
and of the outcomes of its allocations (`HopLoad.loaded`). So a property of hops that crossings
do not change holds of all hops in a reachable state exactly when the last load establishes it
(`allHops_run_iff`).
-/

namespace Modelnet

open PartialRun

/-! ## A load -/

/-- What is loaded: the records, and the outcomes of the allocations. -/
structure HopLoad where
  hopcount : ℤ
  hops : ℕ → SysctlHop
  tableOk : Bool
  exittickOk : ℕ → Bool
  slotlenOk : ℕ → Bool

namespace HopLoad

/-- Both arrays of hop `i` can be allocated. -/
structure ArraysOk (l : HopLoad) (i : ℕ) : Prop where
  exittick : l.exittickOk i = true
  slotlen : l.slotlenOk i = true
  qsize : 0 ≤ (l.hops i).qsize.toInt

instance (l : HopLoad) (i : ℕ) : Decidable (l.ArraysOk i) :=
  decidable_of_iff (l.exittickOk i = true ∧ l.slotlenOk i = true ∧ 0 ≤ (l.hops i).qsize.toInt)
    ⟨fun ⟨h₁, h₂, h₃⟩ => ⟨h₁, h₂, h₃⟩, fun ⟨h₁, h₂, h₃⟩ => ⟨h₁, h₂, h₃⟩⟩

/-- Hop `i` after its turn of the loop. -/
def turn (l : HopLoad) (hz i : ℕ) : Hop :=
  { Hop.zero.configure hz i (l.hops i) with
    exittickAlloc := l.exittickOk i && decide (0 ≤ (l.hops i).qsize.toInt)
    slotlenAlloc :=
      l.exittickOk i && (l.slotlenOk i && decide (0 ≤ (l.hops i).qsize.toInt)) }

/-- Hop `i` of the table afterwards: the loop ends with the first turn that fails. -/
def loaded (l : HopLoad) (hz i : ℕ) : Hop :=
  if ∀ j < i, l.ArraysOk j then l.turn hz i else Hop.zero

/-- Every hop of the table satisfies `P` afterwards. -/
def All (l : HopLoad) (hz : ℕ) (P : Hop → Prop) : Prop :=
  l.tableOk = true → ∀ i : ℕ, (i : ℤ) < l.hopcount → P (l.loaded hz i)

theorem turn_of_arraysOk {l : HopLoad} {i : ℕ} (h : l.ArraysOk i) (hz : ℕ) :
    l.turn hz i = Hop.install hz i (l.hops i) := by
  unfold turn Hop.install
  rw [h.exittick, h.slotlen, decide_eq_true h.qsize]
  rfl

end HopLoad

namespace PathTab

/-- `loadHoptable` on the arguments of a load. -/
def load (t : PathTab) (hz : ℕ) (l : HopLoad) : PathTab × Bool :=
  t.loadHoptable hz l.hopcount l.hops l.tableOk l.exittickOk l.slotlenOk

/-- All hops in memory satisfy `P`. -/
def AllHops (P : Hop → Prop) (t : PathTab) : Prop := ∀ ptr hop, t.hops ptr = some hop → P hop

/-- The hops in memory are those of the installed table, which lies in a block of its own. -/
structure Tidy (t : PathTab) : Prop where
  hops : ∀ ptr hop, t.hops ptr = some hop → t.hoptable = some ptr.tab
  hoptable : ∀ b, t.hoptable = some b → b < t.nextBlock

variable {t t' : PathTab} {hz b : ℕ} {P : Hop → Prop}

theorem tidy_empty : PathTab.empty.Tidy :=
  ⟨fun _ _ h => (nomatch h), fun _ h => (nomatch h)⟩

theorem allHops_empty (P : Hop → Prop) : PathTab.empty.AllHops P := fun _ _ h => (nomatch h)

/-- Nothing happens to the hops. -/
structure SameHops (t t' : PathTab) : Prop where
  hops : t'.hops = t.hops
  hoptable : t'.hoptable = t.hoptable
  hopcount : t'.hopcount = t.hopcount
  nextBlock : t.nextBlock ≤ t'.nextBlock

theorem SameHops.refl (t : PathTab) : t.SameHops t := ⟨rfl, rfl, rfl, Nat.le_refl _⟩

theorem SameHops.trans {t'' : PathTab} (h : t.SameHops t') (h' : t'.SameHops t'') :
    t.SameHops t'' :=
  ⟨h'.hops.trans h.hops, h'.hoptable.trans h.hoptable, h'.hopcount.trans h.hopcount,
    h.nextBlock.trans h'.nextBlock⟩

theorem SameHops.tidy (h : t.SameHops t') (ht : t.Tidy) : t'.Tidy where
  hops ptr hop hhop := h.hoptable.trans (ht.hops ptr hop (h.hops ▸ hhop))
  hoptable b hb := (ht.hoptable b (h.hoptable ▸ hb)).trans_le h.nextBlock

theorem SameHops.allHops_iff (h : t.SameHops t') : t'.AllHops P ↔ t.AllHops P := by
  unfold AllHops
  rw [h.hops]

/-! ## The loop -/

theorem loadHops_succ (l : HopLoad) (hz b m i : ℕ) (t : PathTab) :
    loadHops hz b l.hops l.exittickOk l.slotlenOk (m + 1) i t =
      if l.ArraysOk i then
        loadHops hz b l.hops l.exittickOk l.slotlenOk m (i + 1) (t.setHop ⟨b, i⟩ (l.turn hz i))
      else (t.setHop ⟨b, i⟩ (l.turn hz i), false) := by
  have hq : (Hop.zero.configure hz i (l.hops i)).qsize = (l.hops i).qsize.toInt := rfl
  rw [loadHops]
  dsimp only
  rw [hq]
  by_cases hex : (l.exittickOk i && decide (0 ≤ (l.hops i).qsize.toInt)) = true
  · rw [if_pos hex]
    by_cases hsl : (l.slotlenOk i && decide (0 ≤ (l.hops i).qsize.toInt)) = true
    · have hex' := hex
      have hsl' := hsl
      rw [Bool.and_eq_true, decide_eq_true_iff] at hex' hsl'
      have hok : l.ArraysOk i := ⟨hex'.1, hsl'.1, hex'.2⟩
      rw [if_pos hsl, if_pos hok, l.turn_of_arraysOk hok]
      rfl
    · have hfail : ¬ l.ArraysOk i := fun h =>
        hsl (by rw [h.slotlen, decide_eq_true h.qsize]; rfl)
      rw [if_neg hsl, if_neg hfail]
      unfold HopLoad.turn
      rw [hex, Bool.eq_false_iff.mpr hsl, Bool.and_false]
      rfl
  · have hfail : ¬ l.ArraysOk i := fun h =>
      hex (by rw [h.exittick, decide_eq_true h.qsize]; rfl)
    have hex' := Bool.eq_false_iff.mpr hex
    rw [if_neg hex, if_neg hfail]
    unfold HopLoad.turn
    rw [Bool.and_left_comm, hex', Bool.and_false]
    rfl

/-- **The loop over the hops** writes hop `k` when the turns before it succeed. -/
theorem loadHops_hops (l : HopLoad) (hz b m i : ℕ) (t : PathTab) (k : ℕ) :
    (loadHops hz b l.hops l.exittickOk l.slotlenOk m i t).1.hops ⟨b, k⟩ =
      if i ≤ k ∧ k < i + m ∧ ∀ j, i ≤ j → j < k → l.ArraysOk j then some (l.turn hz k)
      else t.hops ⟨b, k⟩ := by
  induction m generalizing i t with
  | zero =>
    rw [if_neg fun h => absurd h.2.1 (by omega)]
    rfl
  | succ m ih =>
    have hset (hop : Hop) : (t.setHop ⟨b, i⟩ hop).hops ⟨b, k⟩ =
        if k = i then some hop else t.hops ⟨b, k⟩ := by
      unfold setHop
      dsimp only
      by_cases hk : k = i
      · rw [if_pos hk, hk, Function.update_self]
      · rw [if_neg hk, Function.update_of_ne fun h => hk (by injection h with _ h; exact_mod_cast h)]
    rw [loadHops_succ]
    by_cases hok : l.ArraysOk i
    · rw [if_pos hok, ih, hset]
      by_cases hk : k = i
      · rw [if_pos hk, if_neg fun h => absurd h.1 (by omega),
          if_pos ⟨by omega, by omega, fun j hj hjk => by omega⟩, hk]
      · rw [if_neg hk]
        refine if_congr ⟨?_, ?_⟩ rfl rfl
        · rintro ⟨hle, hlt, hall⟩
          refine ⟨by omega, by omega, fun j hj hjk => ?_⟩
          rcases Nat.eq_or_lt_of_le hj with rfl | hj
          · exact hok
          · exact hall j hj hjk
        · rintro ⟨hle, hlt, hall⟩
          exact ⟨by omega, by omega, fun j hj hjk => hall j (by omega) hjk⟩
    · rw [if_neg hok, hset]
      by_cases hk : k = i
      · rw [if_pos hk, if_pos ⟨by omega, by omega, fun j hj hjk => by omega⟩, hk]
      · rw [if_neg hk, if_neg fun h => hok (h.2.2 i (Nat.le_refl i) (by omega))]

theorem loadHops_hops_of_ne (l : HopLoad) (hz b m i : ℕ) (t : PathTab) {ptr : HopPtr}
    (h : ∀ k : ℕ, ptr ≠ ⟨b, k⟩) :
    (loadHops hz b l.hops l.exittickOk l.slotlenOk m i t).1.hops ptr = t.hops ptr := by
  have hset (hop : Hop) (i : ℕ) (t : PathTab) : (t.setHop ⟨b, i⟩ hop).hops ptr = t.hops ptr :=
    Function.update_of_ne (h i) _ _
  induction m generalizing i t with
  | zero => rfl
  | succ m ih =>
    rw [loadHops_succ]
    split_ifs
    · rw [ih, hset]
    · exact hset _ _ _

theorem loadHops_snd (l : HopLoad) (hz b m i : ℕ) (t : PathTab) :
    (loadHops hz b l.hops l.exittickOk l.slotlenOk m i t).2 = true ↔
      ∀ j, i ≤ j → j < i + m → l.ArraysOk j := by
  induction m generalizing i t with
  | zero => exact ⟨fun _ j hj hj' => absurd hj' (by omega), fun _ => rfl⟩
  | succ m ih =>
    rw [loadHops_succ]
    split_ifs with hok
    · rw [ih]
      constructor
      · intro hall j hj hjm
        rcases Nat.eq_or_lt_of_le hj with rfl | hj
        · exact hok
        · exact hall j hj (by omega)
      · exact fun hall j hj hjm => hall j (by omega) (by omega)
    · exact ⟨fun h => (nomatch h), fun hall => absurd (hall i (Nat.le_refl i) (by omega)) hok⟩

/-! ## What a load leaves -/

theorem nextBlock_foldl_kfree (bs : List ℕ) (t : PathTab) :
    (bs.foldl kfree t).nextBlock = t.nextBlock := by
  induction bs generalizing t with
  | nil => rfl
  | cons b bs ih => exact ih (t.kfree b)

theorem freePath_nextBlock (t : PathTab) : t.freePath.nextBlock = t.nextBlock := by
  unfold freePath
  cases t.pathtable with
  | none => rfl
  | some rows =>
    dsimp only
    split_ifs
    · exact (nextBlock_foldl_kfree _ _).trans (nextBlock_foldl_kfree _ _)
    · rfl

theorem Tidy.uninitPaths (ht : t.Tidy) :
    t.uninitPaths.hops = (fun _ => none) ∧ t.uninitPaths.hoptable = none ∧
      t.uninitPaths.hopcount = 0 ∧ t.uninitPaths.nextBlock = t.nextBlock := by
  obtain ⟨-, -, hhop, -, hops⟩ := freePath_frame t
  have hnext := freePath_nextBlock t
  have hgone : t.uninitPaths.hops = fun _ => none := by
    funext ptr
    have hold : t.hops ptr = none ∨ t.hoptable = some ptr.tab := by
      cases hptr : t.hops ptr with
      | none => exact Or.inl rfl
      | some hop => exact Or.inr (ht.hops ptr hop hptr)
    unfold PathTab.uninitPaths
    dsimp only
    rw [hhop]
    cases htab : t.hoptable with
    | none => exact (congrFun hops ptr).trans (hold.resolve_right (by simp [htab]))
    | some b =>
      dsimp only
      by_cases hptr : ptr.tab = b
      · rw [if_pos hptr]
      · rw [if_neg hptr, hops]
        exact hold.resolve_right (by rw [htab]; simpa using fun h => hptr h.symm)
  refine ⟨hgone, rfl, rfl, ?_⟩
  unfold PathTab.uninitPaths
  dsimp only
  cases t.freePath.hoptable with
  | none => exact hnext
  | some b => exact hnext

theorem loadHops_nextBlock (l : HopLoad) (hz b m i : ℕ) (t : PathTab) :
    (loadHops hz b l.hops l.exittickOk l.slotlenOk m i t).1.nextBlock = t.nextBlock := by
  induction m generalizing i t with
  | zero => rfl
  | succ m ih =>
    rw [loadHops_succ]
    split_ifs
    · exact ih _ _
    · rfl

theorem hops_of_zeroed (l : HopLoad) (hz : ℕ) (k : ℕ) (h : t.hops = fun ptr =>
      if ptr.tab = b ∧ 0 ≤ ptr.idx ∧ ptr.idx < l.hopcount then some Hop.zero else none) :
    (loadHops hz b l.hops l.exittickOk l.slotlenOk l.hopcount.toNat 0 t).1.hops ⟨b, k⟩ =
      if (k : ℤ) < l.hopcount then some (l.loaded hz k) else none := by
  rw [loadHops_hops, h]
  unfold HopLoad.loaded
  dsimp only
  by_cases hk : (k : ℤ) < l.hopcount
  · rw [if_pos hk]
    by_cases hall : ∀ j < k, l.ArraysOk j
    · rw [if_pos ⟨by omega, by omega, fun j _ => hall j⟩, if_pos hall]
    · rw [if_neg fun hc => hall fun j hj => hc.2.2 j (Nat.zero_le j) hj,
        if_pos ⟨rfl, by omega, hk⟩, if_neg hall]
  · have hk' : ¬ k < 0 + l.hopcount.toNat := by omega
    rw [if_neg fun hc => hk' hc.2.1, if_neg fun hc => hk hc.2.2, if_neg hk]

theorem load_of_not_tableOk (t : PathTab) {l : HopLoad} (h : ¬ l.tableOk = true) :
    t.load hz l = (t.uninitPaths, false) := by
  unfold load loadHoptable
  dsimp only
  rw [if_neg h]

/-- **What a load leaves**, with success or not: the new table with its hops. -/
structure Holds (t : PathTab) (hz : ℕ) (l : HopLoad) (b : ℕ) : Prop where
  hops : ∀ ptr hop, t.hops ptr = some hop ↔
    ∃ i : ℕ, (i : ℤ) < l.hopcount ∧ ptr = ⟨b, i⟩ ∧ hop = l.loaded hz i
  hoptable : t.hoptable = some b
  hopcount : t.hopcount = l.hopcount

theorem Tidy.load_of_tableOk (ht : t.Tidy) (hz : ℕ) {l : HopLoad} (h : l.tableOk = true) :
    (t.load hz l).1.Holds hz l t.nextBlock ∧ (t.load hz l).1.nextBlock = t.nextBlock + 1 ∧
      ((t.load hz l).2 = true ↔ ∀ j < l.hopcount.toNat, l.ArraysOk j) := by
  obtain ⟨hgone, -, -, hnext⟩ := ht.uninitPaths
  have hload : t.load hz l = loadHops hz t.uninitPaths.nextBlock l.hops l.exittickOk l.slotlenOk
      l.hopcount.toNat 0 { t.uninitPaths.alloc with
        hoptable := some t.uninitPaths.nextBlock
        hopcount := l.hopcount
        hops := fun ptr => if ptr.tab = t.uninitPaths.nextBlock ∧ 0 ≤ ptr.idx ∧
          ptr.idx < l.hopcount then some Hop.zero else t.uninitPaths.hops ptr } := by
    unfold load loadHoptable
    dsimp only
    rw [if_pos h]
  rw [hnext, hgone] at hload
  have hkeeps := keeps_loadHops hz t.nextBlock l.hops l.exittickOk l.slotlenOk l.hopcount.toNat 0
    { t.uninitPaths.alloc with
      hoptable := some t.nextBlock
      hopcount := l.hopcount
      hops := fun ptr => if ptr.tab = t.nextBlock ∧ 0 ≤ ptr.idx ∧ ptr.idx < l.hopcount then
        some Hop.zero else none }
  rw [← hload] at hkeeps
  refine ⟨⟨fun ptr hop => ?_, hkeeps.hoptable, hkeeps.hopcount⟩, ?_, ?_⟩
  · rw [hload]
    by_cases hptr : ∃ k : ℕ, ptr = ⟨t.nextBlock, k⟩
    · obtain ⟨k, rfl⟩ := hptr
      rw [hops_of_zeroed l hz k rfl]
      constructor
      · intro heq
        split_ifs at heq with hk
        exact ⟨k, hk, rfl, (Option.some.inj heq).symm⟩
      · rintro ⟨i, hi, hptr, rfl⟩
        have hik : (k : ℤ) = i := congrArg HopPtr.idx hptr
        obtain rfl : k = i := by exact_mod_cast hik
        rw [if_pos hi]
    · rw [loadHops_hops_of_ne _ _ _ _ _ _ fun k hk => hptr ⟨k, hk⟩]
      dsimp only
      constructor
      · intro heq
        split_ifs at heq with hidx
        refine absurd ⟨ptr.idx.toNat, ?_⟩ hptr
        obtain ⟨tab, idx⟩ := ptr
        obtain ⟨rfl, hidx, -⟩ := hidx
        rw [Int.toNat_of_nonneg hidx]
      · rintro ⟨i, -, heq, -⟩
        exact absurd ⟨i, heq⟩ hptr
  · rw [hload, loadHops_nextBlock]
    exact congrArg (· + 1) hnext
  · rw [hload, loadHops_snd]
    exact ⟨fun hall j hj => hall j (Nat.zero_le j) (by omega), fun hall j _ hj => hall j (by omega)⟩

theorem Tidy.load (ht : t.Tidy) (hz : ℕ) (l : HopLoad) : (t.load hz l).1.Tidy := by
  by_cases hok : l.tableOk = true
  · obtain ⟨hholds, hnext, -⟩ := ht.load_of_tableOk hz hok
    refine ⟨fun ptr hop hhop => ?_, fun b hb => ?_⟩
    · obtain ⟨i, -, rfl, -⟩ := (hholds.hops ptr hop).mp hhop
      exact hholds.hoptable
    · rw [hholds.hoptable] at hb
      cases hb
      omega
  · rw [t.load_of_not_tableOk hok]
    obtain ⟨hgone, hnone, -, -⟩ := ht.uninitPaths
    refine ⟨fun ptr hop hhop => ?_, fun b hb => ?_⟩
    · rw [hgone] at hhop
      cases hhop
    · rw [hnone] at hb
      cases hb

/-- **What a load establishes** of all hops. -/
theorem Tidy.allHops_load_iff (ht : t.Tidy) (l : HopLoad) :
    (t.load hz l).1.AllHops P ↔ l.All hz P := by
  by_cases hok : l.tableOk = true
  · obtain ⟨hholds, -, -⟩ := ht.load_of_tableOk hz hok
    constructor
    · exact fun hall _ i hi => hall _ _ ((hholds.hops ⟨t.nextBlock, i⟩ _).mpr ⟨i, hi, rfl, rfl⟩)
    · intro hall ptr hop hhop
      obtain ⟨i, hi, -, rfl⟩ := (hholds.hops ptr hop).mp hhop
      exact hall hok i hi
  · rw [t.load_of_not_tableOk hok]
    refine ⟨fun _ h => absurd h hok, fun _ ptr hop hhop => ?_⟩
    rw [ht.uninitPaths.1] at hhop
    cases hhop

end PathTab

/-! ## Runs of a module -/

namespace PathTab

variable {t t' : PathTab} {hz : ℕ} {P : Hop → Prop} {R : Hop → Hop → Prop}

/-- A step that loads no table: it leaves the hops alone, or writes one of them back. -/
inductive HopsStep (R : Hop → Hop → Prop) (t : PathTab) : PathTab → Prop where
  | same {t' : PathTab} (h : t.SameHops t') : HopsStep R t t'
  | set {ptr : HopPtr} {hop hop' : Hop} (hhop : t.hops ptr = some hop) (hR : R hop hop') :
      HopsStep R t (t.setHop ptr hop')

theorem HopsStep.tidy (h : HopsStep R t t') (ht : t.Tidy) : t'.Tidy := by
  cases h with
  | same h => exact h.tidy ht
  | @set ptr hop hop' hhop _ =>
    refine ⟨fun q hop₁ h₁ => ?_, ht.hoptable⟩
    by_cases hq : q = ptr
    · rw [hq]
      exact ht.hops ptr hop hhop
    · exact ht.hops q hop₁ ((Function.update_of_ne hq _ _).symm.trans h₁)

theorem HopsStep.allHops (h : HopsStep R t t') (hR : ∀ a b, R a b → P a → P b)
    (ht : t.AllHops P) : t'.AllHops P := by
  cases h with
  | same h => exact h.allHops_iff.mpr ht
  | @set ptr hop hop' hhop hab =>
    intro q hop₁ h₁
    by_cases hq : q = ptr
    · subst hq
      have hself : (t.setHop q hop').hops q = some hop' := Function.update_self _ _ _
      cases Option.some.inj (hself.symm.trans h₁)
      exact hR hop hop' hab (ht q hop hhop)
    · exact ht q hop₁ ((Function.update_of_ne hq _ _).symm.trans h₁)

/-- A property that the step neither takes from a hop nor gives it. -/
theorem HopsStep.allHops_iff (h : HopsStep R t t') (hR : ∀ a b, R a b → (P b ↔ P a)) :
    t'.AllHops P ↔ t.AllHops P := by
  refine ⟨fun ht => ?_, h.allHops fun a b hab => (hR a b hab).mpr⟩
  cases h with
  | same h => exact h.allHops_iff.mp ht
  | @set ptr hop hop' hhop hab =>
    intro q hop₁ h₁
    by_cases hq : q = ptr
    · subst hq
      cases Option.some.inj (hhop.symm.trans h₁)
      exact (hR hop hop' hab).mp (ht q hop' (Function.update_self _ _ _))
    · exact ht q hop₁ ((Function.update_of_ne hq _ _).trans h₁)

end PathTab

section Runs

variable {ε : Type} {hz : ℕ} {step : PathTab → ε → Option PathTab} {hopLoad : ε → Option HopLoad}
  {P : Hop → Prop} {R : Hop → Hop → Prop} {es : List ε} {t : PathTab}

/-- What the steps of a module do to the hops: they load a table, or write a hop back. -/
structure StepsHops (hz : ℕ) (step : PathTab → ε → Option PathTab)
    (hopLoad : ε → Option HopLoad) (R : Hop → Hop → Prop) : Prop where
  load : ∀ t e t' l, hopLoad e = some l → step t e = some t' →
    ∃ t₁, t.SameHops t₁ ∧ (t₁.load hz l).1.SameHops t'
  other : ∀ t e t', hopLoad e = none → step t e = some t' → t.HopsStep R t'

def lastLoad (hopLoad : ε → Option HopLoad) (es : List ε) : Option HopLoad :=
  (es.filterMap hopLoad).getLast?

theorem lastLoad_concat (es : List ε) (e : ε) :
    lastLoad hopLoad (es ++ [e]) = (hopLoad e).or (lastLoad hopLoad es) := by
  unfold lastLoad
  cases he : hopLoad e with
  | none => simp [he]
  | some l => simp [he]

theorem StepsHops.tidy_step (h : StepsHops hz step hopLoad R) {e : ε} {t' : PathTab}
    (ht : t.Tidy) (hstep : step t e = some t') : t'.Tidy := by
  cases he : hopLoad e with
  | none => exact (h.other t e t' he hstep).tidy ht
  | some l =>
    obtain ⟨t₁, hsame, hload⟩ := h.load t e t' l he hstep
    exact hload.tidy ((hsame.tidy ht).load hz l)

theorem StepsHops.tidy (h : StepsHops hz step hopLoad R)
    (hrun : run step PathTab.empty es = some t) : t.Tidy :=
  run_invariant (fun _ _ _ ht hstep => h.tidy_step ht hstep) hrun PathTab.tidy_empty

/-- **What every load establishes** and no step takes away holds of all hops. -/
theorem StepsHops.allHops (h : StepsHops hz step hopLoad R) (hload : ∀ l : HopLoad, l.All hz P)
    (hR : ∀ a b, R a b → P a → P b) (hrun : run step PathTab.empty es = some t) :
    t.AllHops P := by
  refine (run_invariant (I := fun t => t.Tidy ∧ t.AllHops P) (fun t e t' ht hstep => ?_) hrun
    ⟨PathTab.tidy_empty, PathTab.allHops_empty P⟩).2
  cases he : hopLoad e with
  | none =>
    have hother := h.other t e t' he hstep
    exact ⟨hother.tidy ht.1, hother.allHops hR ht.2⟩
  | some l =>
    obtain ⟨t₁, hsame, hloaded⟩ := h.load t e t' l he hstep
    have ht₁ := hsame.tidy ht.1
    exact ⟨hloaded.tidy (ht₁.load hz l),
      hloaded.allHops_iff.mpr ((ht₁.allHops_load_iff l).mpr (hload l))⟩

/-- **The last load decides.** A property that steps neither take from a hop nor give it holds of
all hops exactly when the last load of the run establishes it. -/
theorem StepsHops.allHops_iff (h : StepsHops hz step hopLoad R)
    (hR : ∀ a b, R a b → (P b ↔ P a)) (hrun : run step PathTab.empty es = some t) :
    t.AllHops P ↔ ∀ l, lastLoad hopLoad es = some l → l.All hz P := by
  induction es using List.reverseRecOn generalizing t with
  | nil =>
    cases hrun
    exact ⟨fun _ l hl => (nomatch hl), fun _ => PathTab.allHops_empty P⟩
  | append_singleton es e ih =>
    rw [run_concat] at hrun
    obtain ⟨t₀, hrun₀, hstep⟩ := Option.bind_eq_some_iff.mp hrun
    rw [lastLoad_concat]
    cases he : hopLoad e with
    | none =>
      rw [(h.other t₀ e t he hstep).allHops_iff hR]
      exact ih hrun₀
    | some l =>
      obtain ⟨t₁, hsame, hloaded⟩ := h.load t₀ e t l he hstep
      rw [hloaded.allHops_iff, (hsame.tidy (h.tidy hrun₀)).allHops_load_iff]
      exact ⟨fun hl l' hl' => by cases hl'; exact hl, fun hl => hl l rfl⟩

end Runs

/-! ## The Linux module -/

namespace PathTab

variable {t t' : PathTab}

theorem sameHops_alloc (t : PathTab) : t.SameHops t.alloc := ⟨rfl, rfl, rfl, Nat.le_succ _⟩

theorem sameHops_kfree (t : PathTab) (b : ℕ) : t.SameHops (t.kfree b) :=
  ⟨rfl, rfl, rfl, Nat.le_refl _⟩

theorem allocRows_nextBlock_le (rowOk : ℕ → Bool) (m : ℕ) (t : PathTab) (rows : PathRows) :
    t.nextBlock ≤ (allocRows rowOk m t rows).1.nextBlock := by
  induction m generalizing t rows with
  | zero => exact Nat.le_refl _
  | succ m ih =>
    unfold allocRows
    dsimp only
    split_ifs
    · exact (Nat.le_succ _).trans (ih t.alloc _)
    · exact (freePath_nextBlock
        { t with pathtable := some rows, nodecount := rows.rows.length - 1 }).ge

theorem sameHops_resize (t : PathTab) (newcount : ℤ) (tableOk : Bool) (rowOk : ℕ → Bool) :
    t.SameHops (t.resize newcount tableOk rowOk).1 := by
  obtain ⟨-, hhop, hcount, hops⟩ := resize_frame t newcount tableOk rowOk
  refine ⟨hops, hhop, hcount, ?_⟩
  have hfree := freePath_nextBlock t
  unfold resize
  dsimp only
  split_ifs
  · have hrows := allocRows_nextBlock_le rowOk newcount.toNat
      (alloc { t.freePath with nodecount := newcount })
      ⟨t.freePath.nextBlock, [], newcount.toNat, fun _ _ => none⟩
    exact (hfree.ge.trans (Nat.le_succ _)).trans hrows
  · exact hfree.ge.trans (freePath_nextBlock _).ge

theorem sameHops_storePath (t : PathTab) (hoptab : ℕ) (srcNode dstNode : ℤ) (hops : List Int32)
    (pathOk : Bool) :
    let r := t.alloc.storePath hoptab srcNode dstNode hops pathOk
    t.SameHops (if r.2 then r.1.kfree t.nextBlock else r.1) := by
  obtain ⟨-, hhop, hcount, hops', -, -, hnext⟩ :=
    storePath_frame t hoptab srcNode dstNode hops pathOk
  exact ⟨hops', hhop, hcount, hnext.le⟩

end PathTab

namespace Linux

open PathTab

def HoptableWrite.load (w : HoptableWrite) : HopLoad where
  hopcount := w.hopcount.toInt
  hops := w.hops
  tableOk := w.tableOk
  exittickOk := w.exittickOk
  slotlenOk := w.slotlenOk

instance (w : HoptableWrite) : Decidable w.Loads :=
  decidable_of_iff (w.write ∧ w.ppos = 0 ∧ w.lenp = sizeofSysctlHoptable ∧ w.tabCopied ∧
      (w.hopsOk ∧ 0 < w.hopcount.toInt) ∧ w.hopsCopied)
    ⟨fun ⟨h₁, h₂, h₃, h₄, h₅, h₆⟩ => ⟨h₁, h₂, h₃, h₄, h₅, h₆⟩,
      fun ⟨h₁, h₂, h₃, h₄, h₅, h₆⟩ => ⟨h₁, h₂, h₃, h₄, h₅, h₆⟩⟩

/-- What happens to the tables: a packet crosses a hop, or one of the files is written. -/
inductive TableEvent where
  | packet (ptr : HopPtr) (c : Call)
  | write (w : TableWrite)

def tableStep (hz : ℕ) (t : PathTab) : TableEvent → Option PathTab
  | .packet ptr c => (t.hops ptr).bind fun hop =>
      (emulateHop hz hop c.len c.tick c.randomVal).map fun r => t.setHop ptr r.1
  | .write w => some (handle hz t w).tab

def TableEvent.hopLoad : TableEvent → Option HopLoad
  | .write (.hoptable w) => if w.Loads then some w.load else none
  | _ => none

/-- A crossing took the one hop to the other. -/
def Crossed (hz : ℕ) (hop hop' : Hop) : Prop :=
  ∃ (c : Call) (out : Outcome), emulateHop hz hop c.len c.tick c.randomVal = some (hop', out)

theorem Crossed.sameParams {hz : ℕ} {hop hop' : Hop} (h : Crossed hz hop hop') :
    hop.SameParams hop' := by
  obtain ⟨c, out, h⟩ := h
  exact (sameParams_emulateHop h).1

theorem sameHops_procNodetable (t : PathTab) (w : NodetableWrite) :
    t.SameHops (procNodetable t w).tab := by
  unfold procNodetable
  split_ifs
  · exact SameHops.refl t
  · cases w.copied with
    | none => exact ⟨rfl, rfl, rfl, Nat.le_refl _⟩
    | some n => exact ⟨rfl, rfl, rfl, Nat.le_refl _⟩
  · exact SameHops.refl t

theorem sameHops_of_rejected {t t' : PathTab} (h : t' = t ∨ t' = t.alloc) : t.SameHops t' := by
  rcases h with rfl | rfl
  · exact SameHops.refl _
  · exact sameHops_alloc t

theorem stepsHops (hz : ℕ) : StepsHops hz (tableStep hz) TableEvent.hopLoad (Crossed hz) where
  load t e t' l he hstep := by
    unfold TableEvent.hopLoad at he
    split at he
    · split_ifs at he with hloads
      cases he
      cases hstep
      refine ⟨t.alloc, sameHops_alloc t, ?_⟩
      rw [handle, procHophandle_of_loads hloads]
      dsimp only
      split_ifs
      · exact sameHops_kfree _ _
      · exact SameHops.refl _
    · cases he
  other t e t' he hstep := by
    cases e with
    | packet ptr c =>
      obtain ⟨hop, hhop, h⟩ := Option.bind_eq_some_iff.mp hstep
      obtain ⟨⟨hop', out⟩, hemulate, rfl⟩ := Option.map_eq_some_iff.mp h
      exact .set hhop ⟨c, out, hemulate⟩
    | write w =>
      cases hstep
      refine .same ?_
      cases w with
      | nodetable w => exact sameHops_procNodetable t w
      | nodecount w =>
        by_cases hresize : w.Resizes t
        · rw [handle, procNodecount_of_resizes hresize]
          exact sameHops_resize _ _ _ _
        · rw [handle, procNodecount_of_not_resizes hresize]
          exact SameHops.refl t
      | hoptable w =>
        by_cases hloads : w.Loads
        · rw [TableEvent.hopLoad, if_pos hloads] at he
          cases he
        · exact sameHops_of_rejected (procHophandle_of_not_loads hloads).2
      | pathentry w =>
        by_cases hstores : w.Stores t
        · obtain ⟨hoptab, -, heq⟩ := procPathentry_of_stores hstores
          have hsame := sameHops_storePath t hoptab w.srcNode.toInt w.dstNode.toInt w.path w.pathOk
          rw [handle, heq]
          dsimp only at hsame ⊢
          split_ifs at hsame ⊢ <;> exact hsame
        · exact sameHops_of_rejected (procPathentry_of_not_stores hstores).2

end Linux

/-! ## The FreeBSD module -/

namespace FreeBSD

open PathTab

def HoptableWrite.load (w : HoptableWrite) : HopLoad where
  hopcount := w.hopcount.toInt
  hops := w.hops
  tableOk := w.tableOk
  exittickOk := w.exittickOk
  slotlenOk := w.slotlenOk

/-- A write that gets as far as loading a hop table. -/
def HoptableWrite.Loads (w : HoptableWrite) : Prop :=
  (w.error = 0 ∧ w.newptr) ∧ w.hopsOk ∧ 0 ≤ w.hopcount.toInt

instance (w : HoptableWrite) : Decidable w.Loads := inferInstanceAs (Decidable (_ ∧ _))

/-- What happens to the tables: a packet crosses a hop, the parameters of a hop are changed, or one
of the other nodes is written. -/
inductive TableEvent where
  | packet (ptr : HopPtr) (c : Call)
  | hopmod (hopidx : Int32) (r : SysctlHop)
  | write (w : TableWrite)

def tableStep (hz : ℕ) (t : PathTab) : TableEvent → Option PathTab
  | .packet ptr c => (t.hops ptr).bind fun hop =>
      (emulateHop hz hop c.len c.tick c.randomVal).map fun r => t.setHop ptr r.1
  | .hopmod hopidx r =>
    if t.hopcount ≤ hopidx.toInt then some t
    else t.hoptable.bind fun b => (t.hops ⟨b, hopidx.toInt⟩).map fun hop =>
      t.setHop ⟨b, hopidx.toInt⟩ (sysctlHopmod hz hop r)
  | .write w => some (handle hz t w).tab

def TableEvent.hopLoad : TableEvent → Option HopLoad
  | .write (.hoptable w) => if w.Loads then some w.load else none
  | _ => none

/-- A crossing or a change of parameters took the one hop to the other. -/
def Changed (hz : ℕ) (hop hop' : Hop) : Prop :=
  (∃ (c : Call) (out : Outcome), emulateHop hz hop c.len c.tick c.randomVal = some (hop', out)) ∨
    ∃ r, hop' = sysctlHopmod hz hop r

theorem Changed.ring {hz : ℕ} {hop hop' : Hop} (h : Changed hz hop hop') :
    hop'.qsize = hop.qsize ∧ hop'.exittickAlloc = hop.exittickAlloc ∧
      hop'.slotlenAlloc = hop.slotlenAlloc := by
  rcases h with ⟨c, out, h⟩ | ⟨r, rfl⟩
  · have hsame := ((crosses_emulateHop (c := c) h).sameParams (onlyFragment_bwDelay hz)).1
    exact ⟨hsame.qsize, hsame.exittickAlloc, hsame.slotlenAlloc⟩
  · exact ⟨rfl, rfl, rfl⟩

theorem sysctlHophandle_of_loads {hz : ℕ} {t : PathTab} {w : HoptableWrite} (h : w.Loads) :
    sysctlHophandle hz t w =
      let r := t.alloc.load hz w.load
      if r.2 then ⟨r.1.kfree t.nextBlock, w.outError, none⟩ else ⟨r.1, enomem, none⟩ := by
  unfold sysctlHophandle
  rw [if_neg fun hc => not_writes hc h.1, if_neg (not_not.mpr h.2)]
  rfl

theorem sysctlHophandle_of_not_loads {hz : ℕ} {t : PathTab} {w : HoptableWrite}
    (h : ¬ w.Loads) : (sysctlHophandle hz t w).tab = t := by
  unfold sysctlHophandle
  by_cases hw : w.error ≠ 0 ∨ ¬ w.newptr
  · rw [if_pos hw]
  · rw [if_neg hw, if_pos fun hops => h ⟨writes hw, hops⟩]

theorem sameHops_sysctlNodetable (t : PathTab) (w : NodetableWrite) :
    t.SameHops (sysctlNodetable t w).tab := by
  unfold sysctlNodetable
  dsimp only
  split_ifs
  · exact SameHops.refl t
  · exact SameHops.refl t
  · exact ⟨rfl, rfl, rfl, Nat.le_refl _⟩
  · exact ⟨rfl, rfl, rfl, Nat.le_refl _⟩

theorem sameHops_sysctlNodecount (t : PathTab) (w : NodecountWrite) :
    t.SameHops (sysctlNodecount t w).tab := by
  unfold sysctlNodecount
  dsimp only
  split_ifs
  · exact SameHops.refl t
  · exact sameHops_resize _ _ _ _
  · exact sameHops_resize _ _ _ _
  · exact SameHops.refl t

theorem sameHops_sysctlPathentry (t : PathTab) (w : PathentryWrite) :
    t.SameHops (sysctlPathentry t w).tab := by
  unfold sysctlPathentry
  cases t.hoptable with
  | none =>
    dsimp only
    split_ifs <;> exact SameHops.refl t
  | some hoptab =>
    have hsame := sameHops_storePath t hoptab w.srcNode.toInt w.dstNode.toInt w.path w.pathOk
    dsimp only at hsame ⊢
    split_ifs at hsame ⊢
    all_goals first | exact SameHops.refl t | exact hsame

theorem stepsHops (hz : ℕ) : StepsHops hz (tableStep hz) TableEvent.hopLoad (Changed hz) where
  load t e t' l he hstep := by
    unfold TableEvent.hopLoad at he
    split at he
    · split_ifs at he with hloads
      cases he
      cases hstep
      refine ⟨t.alloc, sameHops_alloc t, ?_⟩
      rw [handle, sysctlHophandle_of_loads hloads]
      dsimp only
      split_ifs
      · exact sameHops_kfree _ _
      · exact SameHops.refl _
    · cases he
  other t e t' he hstep := by
    cases e with
    | packet ptr c =>
      obtain ⟨hop, hhop, h⟩ := Option.bind_eq_some_iff.mp hstep
      obtain ⟨⟨hop', out⟩, hemulate, rfl⟩ := Option.map_eq_some_iff.mp h
      exact .set hhop (Or.inl ⟨c, out, hemulate⟩)
    | hopmod hopidx r =>
      unfold tableStep at hstep
      dsimp only at hstep
      split_ifs at hstep
      · cases hstep
        exact .same (SameHops.refl _)
      · obtain ⟨b, -, h⟩ := Option.bind_eq_some_iff.mp hstep
        obtain ⟨hop, hhop, rfl⟩ := Option.map_eq_some_iff.mp h
        exact .set hhop (Or.inr ⟨r, rfl⟩)
    | write w =>
      cases hstep
      refine .same ?_
      cases w with
      | nodetable w => exact sameHops_sysctlNodetable t w
      | nodecount w => exact sameHops_sysctlNodecount t w
      | hoptable w =>
        by_cases hloads : w.Loads
        · rw [TableEvent.hopLoad, if_pos hloads] at he
          cases he
        · rw [handle, sysctlHophandle_of_not_loads hloads]
          exact SameHops.refl t
      | pathentry w => exact sameHops_sysctlPathentry t w

end FreeBSD

end Modelnet

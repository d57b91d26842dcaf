import Modelnet.HopTable

/-!
# A load that fails

`proc_hophandle` frees the old tables and builds the new one in place. Up to the allocation of the
table a failure leaves the old tables or none. When the arrays of a hop cannot be allocated the
handler just returns: the new table stays installed, with this hop half built and the hops behind
it zeroed.
-/

namespace Modelnet.Linux

open Modelnet PartialRun PathTab

/-! ## What a failure may leave -/

/-- The state before the write; a block may have been allocated in vain. -/
def Untouched (t t' : PathTab) : Prop := { t' with nextBlock := t.nextBlock } = t

/-- No paths, and no hop table. -/
structure Emptied (t : PathTab) : Prop where
  pathtable : t.pathtable = none
  nodecount : t.nodecount = 0
  hoptable : t.hoptable = none
  hopcount : t.hopcount = 0
  hops : ∀ ptr, t.hops ptr = none

/-- A write that returns an error leaves the tables untouched or empty. -/
def FailsClean (hz : ℕ) (t : PathTab) (w : HoptableWrite) : Prop :=
  (procHophandle hz t w).ret ≠ 0 →
    Untouched t (procHophandle hz t w).tab ∨ Emptied (procHophandle hz t w).tab

/-- The hop has both arrays of its ring. -/
structure HasArrays (hop : Hop) : Prop where
  exittick : hop.exittickAlloc = true
  slotlen : hop.slotlenAlloc = true

/-- Every array can be allocated, once there is a table. -/
def Complete (l : HopLoad) : Prop :=
  l.tableOk = true → ∀ i : ℕ, (i : ℤ) < l.hopcount → l.ArraysOk i

variable {hz : ℕ} {t : PathTab}

theorem Untouched.hoptable {t' : PathTab} (h : Untouched t t') : t'.hoptable = t.hoptable := by
  have hfield := congrArg PathTab.hoptable h
  exact hfield

/-! ## The arrays of the hops -/

theorem hasArrays_turn_iff {l : HopLoad} {i : ℕ} : HasArrays (l.turn hz i) ↔ l.ArraysOk i := by
  constructor
  · rintro ⟨hex, hsl⟩
    have hex' : (l.exittickOk i && decide (0 ≤ (l.hops i).qsize.toInt)) = true := hex
    have hsl' : (l.exittickOk i && (l.slotlenOk i && decide (0 ≤ (l.hops i).qsize.toInt))) = true :=
      hsl
    simp only [Bool.and_eq_true, decide_eq_true_iff] at hex' hsl'
    exact ⟨hex'.1, hsl'.2.1, hex'.2⟩
  · intro hok
    rw [l.turn_of_arraysOk hok]
    exact ⟨rfl, rfl⟩

theorem all_hasArrays_iff {l : HopLoad} : l.All hz HasArrays ↔ Complete l := by
  have hzero : ¬ HasArrays Hop.zero := fun h => by cases h.exittick
  unfold HopLoad.All HopLoad.loaded Complete
  constructor
  · intro hall hok i hi
    have hi' := hall hok i hi
    split_ifs at hi' with hbefore
    · exact hasArrays_turn_iff.mp hi'
    · exact absurd hi' hzero
  · intro hall hok i hi
    rw [if_pos fun j hj => hall hok j (by omega)]
    exact hasArrays_turn_iff.mpr (hall hok i hi)

theorem hasArrays_of_crossed {hop hop' : Hop} (h : Crossed hz hop hop') :
    HasArrays hop' ↔ HasArrays hop := by
  have hsame := h.sameParams
  exact ⟨fun ⟨h₁, h₂⟩ => ⟨hsame.exittickAlloc ▸ h₁, hsame.slotlenAlloc ▸ h₂⟩,
    fun ⟨h₁, h₂⟩ => ⟨hsame.exittickAlloc.trans h₁, hsame.slotlenAlloc.trans h₂⟩⟩

/-! ## The exits of the handler -/

theorem failsClean_of_not_loads {w : HoptableWrite} (h : ¬ w.Loads) : FailsClean hz t w := by
  intro _
  refine Or.inl ?_
  unfold Untouched
  have htab : (procHophandle hz t w).tab = t ∨ (procHophandle hz t w).tab = t.alloc :=
    (procHophandle_of_not_loads h).2
  rcases htab with htab | htab
  · rw [htab]
  · rw [htab]
    rfl

theorem procHophandle_eq (t : PathTab) {w : HoptableWrite} (h : w.Loads) :
    procHophandle hz t w = if (t.alloc.load hz w.load).2 = true then
      ⟨(t.alloc.load hz w.load).1.kfree t.nextBlock, 0, none⟩
      else ⟨(t.alloc.load hz w.load).1, -enomem, none⟩ := by
  rw [procHophandle_of_loads h]
  rfl

theorem emptied_uninitPaths (ht : t.Tidy) : Emptied t.uninitPaths := by
  obtain ⟨hgone, hhop, hcount, -⟩ := ht.uninitPaths
  have hfree : t.freePath.pathtable = none ∧ t.freePath.nodecount = 0 := ⟨rfl, rfl⟩
  refine ⟨?_, ?_, hhop, hcount, fun ptr => congrFun hgone ptr⟩
  · unfold PathTab.uninitPaths
    dsimp only
    cases t.freePath.hoptable <;> exact hfree.1
  · unfold PathTab.uninitPaths
    dsimp only
    cases t.freePath.hoptable <;> exact hfree.2

theorem failsClean_of_not_tableOk (ht : t.Tidy) {w : HoptableWrite} (h : w.Loads)
    (hok : ¬ w.tableOk = true) : FailsClean hz t w := by
  intro _
  have hload : t.alloc.load hz w.load = (t.alloc.uninitPaths, false) :=
    t.alloc.load_of_not_tableOk hok
  rw [procHophandle_eq t h, hload]
  exact Or.inr (emptied_uninitPaths ((sameHops_alloc t).tidy ht))

/-- **The exits in the loop** leave the new table, which is neither the old one nor none. -/
theorem failsClean_iff_complete (ht : t.Tidy) {w : HoptableWrite} (h : w.Loads)
    (hok : w.tableOk = true) : FailsClean hz t w ↔ Complete w.load := by
  have ht' := (sameHops_alloc t).tidy ht
  obtain ⟨hholds, -, hsnd⟩ := ht'.load_of_tableOk hz (show w.load.tableOk = true from hok)
  have hdone : (t.alloc.load hz w.load).2 = true ↔ Complete w.load := by
    rw [hsnd]
    exact ⟨fun hall _ i hi => hall i (by omega), fun hall j hj => hall hok j (by omega)⟩
  unfold FailsClean
  rw [procHophandle_eq t h]
  by_cases hc : Complete w.load
  · rw [if_pos (hdone.mpr hc)]
    exact ⟨fun _ => hc, fun _ hret => absurd rfl hret⟩
  · rw [if_neg fun h => hc (hdone.mp h)]
    refine ⟨fun hclean => ?_, fun h => absurd h hc⟩
    rcases hclean neg_error_ne_zero.2.2 with hsame | hempty
    · have hlt := ht.hoptable _ (hsame.hoptable.symm.trans hholds.hoptable)
      exact absurd hlt (Nat.not_lt.mpr (Nat.le_succ _))
    · cases hholds.hoptable.symm.trans hempty.hoptable

/-- **Failed loads.** In every reachable state, a write to the hop table that fails leaves the
tables untouched or empty exactly when it is not the arrays of a hop that cannot be allocated; and
every hop has both arrays of its ring exactly when the last load had them all. -/
theorem failsClean_iff (hz : ℕ) {es : List TableEvent} {t : PathTab}
    (hrun : run (tableStep hz) PathTab.empty es = some t) :
    (∀ w : HoptableWrite, FailsClean hz t w ↔ (w.Loads → Complete w.load)) ∧
      (t.AllHops HasArrays ↔
        ∀ l, lastLoad TableEvent.hopLoad es = some l → Complete l) := by
  have ht := (stepsHops hz).tidy hrun
  refine ⟨fun w => ?_, ?_⟩
  · by_cases hloads : w.Loads
    · by_cases hok : w.tableOk = true
      · rw [failsClean_iff_complete ht hloads hok]
        exact ⟨fun h _ => h, fun h => h hloads⟩
      · exact ⟨fun _ _ hok' => absurd hok' hok,
          fun _ => failsClean_of_not_tableOk ht hloads hok⟩
    · exact ⟨fun _ h => absurd h hloads, fun _ => failsClean_of_not_loads hloads⟩
  · rw [(stepsHops hz).allHops_iff (fun _ _ => hasArrays_of_crossed) hrun]
    exact forall₂_congr fun l _ => all_hasArrays_iff

/-! ## The second hop of two -/

/-- Two records; the arrays of a hop can be allocated as `arrayOk` says. -/
def loadTwo (arrayOk : ℕ → Bool) : HoptableWrite :=
  ⟨true, 0, 12, true, 2, true, fun _ => ⟨8000, 10, 0, 10, 0, 0⟩, true, true, arrayOk, arrayOk⟩

theorem failsClean_loadTwo : FailsClean 100 PathTab.empty (loadTwo fun _ => true) :=
  ((failsClean_iff 100 (show run (tableStep 100) PathTab.empty [] = _ from rfl)).1 _).mpr fun _ _ _ _ =>
    ⟨rfl, rfl, show 0 ≤ (10 : Int32).toInt by decide⟩

/-- The arrays of the second hop cannot be allocated: the table is installed all the same, with a
hop that has none. -/
theorem not_failsClean_loadTwo : ¬ FailsClean 100 PathTab.empty (loadTwo fun i => i = 0) ∧
    ∃ hop, (procHophandle 100 PathTab.empty (loadTwo fun i => i = 0)).tab.hops ⟨1, 1⟩ = some hop ∧
      hop.qsize = 10 ∧ ¬ HasArrays hop := by
  have htab : (procHophandle 100 PathTab.empty (loadTwo fun i => i = 0)).tab.hoptable = some 1 := by
    decide +kernel
  have hret : (procHophandle 100 PathTab.empty (loadTwo fun i => i = 0)).ret ≠ 0 := by
    decide +kernel
  have hhop : ((procHophandle 100 PathTab.empty (loadTwo fun i => i = 0)).tab.hops ⟨1, 1⟩).map
      (fun hop => (hop.qsize, hop.exittickAlloc)) = some (10, false) := by decide +kernel
  constructor
  · intro hclean
    rcases hclean hret with hsame | hempty
    · cases htab.symm.trans hsame.hoptable
    · cases htab.symm.trans hempty.hoptable
  · obtain ⟨hop, h, heq⟩ := Option.map_eq_some_iff.mp hhop
    obtain ⟨hq, hex⟩ := Prod.mk.inj heq
    exact ⟨hop, h, hq, fun ha => by rw [ha.exittick] at hex; cases hex⟩

end Modelnet.Linux

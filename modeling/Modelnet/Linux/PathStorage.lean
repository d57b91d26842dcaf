import Modelnet.PathStorage
import Modelnet.Linux.FailedLoad

/-!
# Path storage under the handlers

`proc_hophandle` and `proc_pathentry` copy the hops into a temporary buffer first. They free it at
their last line and at none of the exits before it, and `proc_pathentry` writes the new array over
the pointer to the old one. So the table shows all path arrays, and no buffer is left, as long as
the writes that allocate a buffer run to the end and paths go into empty cells (`Orderly`).
-/

namespace Modelnet.Linux

open Modelnet PartialRun PathTab

/-- The write gets as far as allocating the buffer of the records. -/
structure HoptableWrite.Buffers (w : HoptableWrite) : Prop where
  write : w.write
  ppos : w.ppos = 0
  lenp : w.lenp = sizeofSysctlHoptable
  tabCopied : w.tabCopied
  hops : w.hopsOk ∧ 0 < w.hopcount.toInt

/-- The write gets as far as allocating the buffer of the hop indices. -/
structure PathentryWrite.Buffers (t : PathTab) (w : PathentryWrite) : Prop where
  write : w.write
  lenp : sizeofSysctlPathentry ≤ w.lenp
  entryCopied : w.entryCopied
  hoptable : t.hoptable.isSome
  pathtable : t.pathtable.isSome
  nodes : w.srcNode.toInt ≤ t.nodecount ∧ w.dstNode.toInt ≤ t.nodecount
  hops : w.hopsOk ∧ 0 ≤ w.pathlen.toInt

/-- The temporary buffer that the handler of the write allocates. An allocation of size 0 is no
block. -/
def TableEvent.Temporary (t : PathTab) (b : ℕ) : TableEvent → Prop
  | .write (.hoptable w) => w.Buffers ∧ b = t.nextBlock
  | .write (.pathentry w) => w.Buffers t ∧ 0 < w.pathlen.toInt ∧ b = t.nextBlock
  | _ => False

/-- After the event the table shows its path arrays, and the temporary buffer of the handler has
been freed. -/
def ShowsStorage (hz : ℕ) (t : PathTab) (e : TableEvent) : Prop :=
  ∀ t', tableStep hz t e = some t' → t'.Shown ∧ ∀ b, e.Temporary t b → b ∈ t'.freed

/-- A write that allocates a buffer runs to the end: the copy and the allocations behind it succeed.
The path goes into an empty cell of the table. -/
def Orderly (t : PathTab) : TableEvent → Prop
  | .write (.hoptable w) => w.Buffers →
      w.hopsCopied ∧ w.tableOk ∧ ∀ j < w.hopcount.toInt.toNat, w.load.ArraysOk j
  | .write (.pathentry w) => w.Buffers t →
      (0 < w.pathlen.toInt → w.hopsCopied ∧ w.pathOk) ∧
        (w.hopsCopied → t.Vacant w.srcNode.toInt w.dstNode.toInt w.pathOk)
  | _ => True

variable {hz : ℕ} {t t' : PathTab} {b : ℕ}

/-- What holds of the tables between two events. -/
structure Stored (t : PathTab) : Prop where
  tidy : t.Tidy
  ledger : t.Ledger
  exact : t.Exact

theorem stored_empty : Stored PathTab.empty := ⟨tidy_empty, ledger_empty, exact_empty⟩

theorem Stored.nextBlock_not_mem (h : Stored t) : t.nextBlock ∉ t.freed := fun hm =>
  absurd (h.ledger.freed _ hm) (Nat.lt_irrefl _)

/-! ## The handlers up to the buffer -/

theorem HoptableWrite.loads_iff {w : HoptableWrite} : w.Loads ↔ w.Buffers ∧ w.hopsCopied := by
  constructor
  · rintro ⟨h₁, h₂, h₃, h₄, h₅, h₆⟩
    exact ⟨⟨h₁, h₂, h₃, h₄, h₅⟩, h₆⟩
  · rintro ⟨⟨h₁, h₂, h₃, h₄, h₅⟩, h₆⟩
    exact ⟨h₁, h₂, h₃, h₄, h₅, h₆⟩

theorem PathentryWrite.stores_iff {w : PathentryWrite} :
    w.Stores t ↔ w.Buffers t ∧ w.hopsCopied := by
  constructor
  · rintro ⟨h₁, h₂, h₃, h₄, h₅, h₆, h₇, h₈⟩
    exact ⟨⟨h₁, h₂, h₃, h₄, h₅, h₆, h₇⟩, h₈⟩
  · rintro ⟨⟨h₁, h₂, h₃, h₄, h₅, h₆, h₇⟩, h₈⟩
    exact ⟨h₁, h₂, h₃, h₄, h₅, h₆, h₇, h₈⟩

/-- What is turned down leaves the arrays and what is freed alone. -/
theorem Stored.exact_of_rejected (h : Stored t) (hrej : t' = t ∨ t' = t.alloc) :
    t'.Exact ∧ t'.freed = t.freed := by
  rcases hrej with rfl | rfl
  · exact ⟨h.exact, rfl⟩
  · exact ⟨h.exact.congr rfl rfl, rfl⟩

/-! ## The hop table -/

/-- A load, with success or not, leaves no paths; the buffer is freed when it succeeds. -/
theorem Stored.procHophandle (h : Stored t) (hz : ℕ) {w : HoptableWrite} (hbuf : w.Buffers) :
    (procHophandle hz t w).tab.Exact ∧ (t.nextBlock ∈ (procHophandle hz t w).tab.freed ↔
      w.hopsCopied ∧ w.tableOk ∧ ∀ j < w.hopcount.toInt.toNat, w.load.ArraysOk j) := by
  by_cases hcopied : w.hopsCopied
  · have hloads : w.Loads := HoptableWrite.loads_iff.mpr ⟨hbuf, hcopied⟩
    have htidy := (sameHops_alloc t).tidy h.tidy
    have hexact := h.ledger.alloc.exact_load (h.exact.congr rfl rfl) hz w.load
    have hfreed := h.ledger.freed_load_lt h.tidy hz w.load
    have hsnd : (t.alloc.load hz w.load).2 = true ↔
        w.tableOk = true ∧ ∀ j < w.hopcount.toInt.toNat, w.load.ArraysOk j := by
      by_cases hok : w.tableOk = true
      · obtain ⟨-, -, hsnd⟩ := htidy.load_of_tableOk hz (show w.load.tableOk = true from hok)
        rw [hsnd, and_iff_right hok]
        rfl
      · rw [t.alloc.load_of_not_tableOk (show ¬ w.load.tableOk = true from hok)]
        exact iff_of_false Bool.false_ne_true fun hc => hok hc.1
    rw [procHophandle_eq t hloads, and_iff_right hcopied, ← hsnd]
    split_ifs with hok
    · have hnone := (h.ledger.alloc.load htidy hz w.load).2.1
      refine ⟨exact_of_none (fun b => ?_) fun b => not_installed_of_none hnone,
        iff_of_true (List.mem_append_right _ List.mem_cons_self) hok⟩
      -- the arrays were gone before the buffer was freed
      have hgone : (t.alloc.load hz w.load).1.pathArrs b = none := by
        by_contra hne
        exact not_installed_of_none hnone ((hexact b).mp (Option.isSome_iff_ne_none.mpr hne))
      by_cases hb : b = t.nextBlock
      · rw [hb]
        exact Function.update_self _ _ _
      · exact (Function.update_of_ne hb _ _).trans hgone
    · exact ⟨hexact, iff_of_false (fun hm => absurd (hfreed _ hm) (Nat.lt_irrefl _)) hok⟩
  · have hloads : ¬ w.Loads := fun hloads => hcopied (HoptableWrite.loads_iff.mp hloads).2
    have hrej : (Linux.procHophandle hz t w).tab = t ∨ (Linux.procHophandle hz t w).tab = t.alloc :=
      (procHophandle_of_not_loads hloads).2
    obtain ⟨hexact, hfreed⟩ := h.exact_of_rejected hrej
    refine ⟨hexact, iff_of_false ?_ fun hc => hcopied hc.1⟩
    rw [hfreed]
    exact h.nextBlock_not_mem

/-! ## A path -/

theorem procPathentry_tab {w : PathentryWrite} (h : w.Stores t) :
    ∃ hoptab, (procPathentry t w).tab =
      t.stored hoptab w.srcNode.toInt w.dstNode.toInt w.path w.pathOk := by
  obtain ⟨hoptab, -, heq⟩ := procPathentry_of_stores h
  refine ⟨hoptab, ?_⟩
  rw [heq]
  unfold stored
  dsimp only
  split_ifs <;> rfl

theorem Stored.mem_freed_procPathentry (h : Stored t) {w : PathentryWrite} (hbuf : w.Buffers t) :
    t.nextBlock ∈ (procPathentry t w).tab.freed ↔ w.hopsCopied ∧ w.pathOk := by
  by_cases hcopied : w.hopsCopied
  · obtain ⟨hoptab, htab⟩ := procPathentry_tab (PathentryWrite.stores_iff.mpr ⟨hbuf, hcopied⟩)
    rw [htab, freed_stored, and_iff_right hcopied]
    split_ifs with hok
    · exact iff_of_true (List.mem_append_right _ List.mem_cons_self) hok
    · exact iff_of_false h.nextBlock_not_mem hok
  · have hstores : ¬ w.Stores t := fun hs => hcopied (PathentryWrite.stores_iff.mp hs).2
    rw [(h.exact_of_rejected (procPathentry_of_not_stores hstores).2).2]
    exact iff_of_false h.nextBlock_not_mem fun hc => hcopied hc.1

/-- A path is shown exactly if it goes into an empty cell. -/
theorem Stored.procPathentry (h : Stored t) {w : PathentryWrite} (hbuf : w.Buffers t) :
    let t' := (procPathentry t w).tab
    let vacant := w.hopsCopied → t.Vacant w.srcNode.toInt w.dstNode.toInt w.pathOk
    (vacant → t'.Exact) ∧ (t'.Shown → vacant) := by
  intro t' vacant
  by_cases hcopied : w.hopsCopied
  · obtain ⟨hoptab, htab⟩ := procPathentry_tab (PathentryWrite.stores_iff.mpr ⟨hbuf, hcopied⟩)
    refine ⟨fun hvacant => ?_, fun hshown _ => ?_⟩
    · show (Linux.procPathentry t w).tab.Exact
      rw [htab]
      exact h.ledger.exact_stored h.exact (hvacant hcopied)
    · have hshown' : (Linux.procPathentry t w).tab.Shown := hshown
      rw [htab] at hshown'
      by_contra hvacant
      exact h.ledger.not_shown_stored h.exact hvacant hshown'
  · have hstores : ¬ w.Stores t := fun hs => hcopied (PathentryWrite.stores_iff.mp hs).2
    exact ⟨fun _ => (h.exact_of_rejected (procPathentry_of_not_stores hstores).2).1,
      fun _ hc => absurd hc hcopied⟩

/-! ## One event -/

/-- **Step lemma.** An orderly event leaves the tables stored. -/
theorem Stored.step (h : Stored t) {e : TableEvent} (horderly : Orderly t e)
    (hstep : tableStep hz t e = some t') : Stored t' := by
  have htidy := (stepsHops hz).tidy_step h.tidy hstep
  cases e with
  | packet ptr c =>
    obtain ⟨hop, -, hstep⟩ := Option.bind_eq_some_iff.mp hstep
    obtain ⟨r, -, rfl⟩ := Option.map_eq_some_iff.mp hstep
    exact ⟨htidy, h.ledger.congr rfl rfl rfl (Nat.le_refl _), h.exact.congr rfl rfl⟩
  | write w =>
    cases hstep
    refine ⟨htidy, ledger_handle h.tidy h.ledger w, ?_⟩
    cases w with
    | nodetable w =>
      rw [handle]
      unfold procNodetable
      split_ifs
      · exact h.exact
      · cases w.copied with
        | none => exact h.exact.congr rfl rfl
        | some n => exact h.exact.congr rfl rfl
      · exact h.exact
    | nodecount w =>
      by_cases hresize : w.Resizes t
      · rw [handle, procNodecount_of_resizes hresize]
        exact h.ledger.exact_resize h.exact _ _ _
      · rw [handle, procNodecount_of_not_resizes hresize]
        exact h.exact
    | hoptable w =>
      by_cases hbuf : w.Buffers
      · exact (h.procHophandle hz hbuf).1
      · have hloads : ¬ w.Loads := fun hl => hbuf (HoptableWrite.loads_iff.mp hl).1
        exact (h.exact_of_rejected (procHophandle_of_not_loads hloads).2).1
    | pathentry w =>
      by_cases hbuf : w.Buffers t
      · exact (h.procPathentry hbuf).1 (horderly hbuf).2
      · have hstores : ¬ w.Stores t := fun hs => hbuf (PathentryWrite.stores_iff.mp hs).1
        exact (h.exact_of_rejected (procPathentry_of_not_stores hstores).2).1

theorem Stored.mem_freed (h : Stored t) {e : TableEvent} (horderly : Orderly t e)
    (hstep : tableStep hz t e = some t') (htemp : e.Temporary t b) : b ∈ t'.freed := by
  cases e with
  | packet ptr c => exact htemp.elim
  | write w =>
    cases hstep
    cases w with
    | nodetable w => exact htemp.elim
    | nodecount w => exact htemp.elim
    | hoptable w =>
      obtain ⟨hbuf, rfl⟩ := htemp
      exact (h.procHophandle hz hbuf).2.mpr (horderly hbuf)
    | pathentry w =>
      obtain ⟨hbuf, hlen, rfl⟩ := htemp
      exact (h.mem_freed_procPathentry hbuf).mpr ((horderly hbuf).1 hlen)

theorem Stored.orderly (h : Stored t) {e : TableEvent} (hshows : ShowsStorage hz t e) :
    Orderly t e := by
  cases e with
  | packet ptr c => trivial
  | write w =>
    cases w with
    | nodetable w => trivial
    | nodecount w => trivial
    | hoptable w =>
      intro hbuf
      obtain ⟨-, hfreed⟩ := hshows _ rfl
      exact (h.procHophandle hz hbuf).2.mp (hfreed _ ⟨hbuf, rfl⟩)
    | pathentry w =>
      intro hbuf
      obtain ⟨hshown, hfreed⟩ := hshows _ rfl
      exact ⟨fun hlen => (h.mem_freed_procPathentry hbuf).mp (hfreed _ ⟨hbuf, hlen, rfl⟩),
        (h.procPathentry hbuf).2 hshown⟩

theorem Stored.showsStorage_iff (h : Stored t) (hz : ℕ) (e : TableEvent) :
    ShowsStorage hz t e ↔ Orderly t e := by
  refine ⟨h.orderly, fun horderly t' hstep => ?_⟩
  have hstored := h.step horderly hstep
  exact ⟨hstored.ledger.shown hstored.exact, fun b => h.mem_freed horderly hstep⟩

/-! ## Runs -/

/-- **Path storage.** In a run of writes to the tables, with success or not, and of packets crossing
hops, the live path arrays are after each event those in the cells of `pathtable`, each in one
cell, and the temporary buffer of the handler is freed, exactly if the writes of the run are
orderly. -/
theorem guarded_showsStorage_iff (hz : ℕ) (es : List TableEvent) :
    Guarded (tableStep hz) (ShowsStorage hz) PathTab.empty es ↔
      Guarded (tableStep hz) Orderly PathTab.empty es :=
  guarded_iff_of_invariant
    (fun _ _ _ h hshows hstep => h.step (h.orderly hshows) hstep)
    (fun _ e h => h.showsStorage_iff hz e) stored_empty

/-! ## Two paths for one cell -/

/-- A hop table with one link and one node. -/
def oneLink : List TableEvent :=
  [.write (.hoptable ⟨true, 0, 12, true, 1, true, fun _ => ⟨8000, 10, 0, 10, 0, 0⟩, true, true,
    fun _ => true, fun _ => true⟩),
    .write (.nodecount ⟨true, some 1, true, fun _ => true⟩)]

/-- The path over the link from the node to itself; the copy of the hops may fail. -/
def selfPath (hopsCopied : Bool) : TableEvent :=
  .write (.pathentry ⟨true, 20, true, 0, 0, 1, true, fun _ => 0, hopsCopied, true⟩)

/-- The path is loaded twice: the first array stays allocated, and no cell points to it. -/
theorem not_guarded_showsStorage_overwrite :
    ¬ Guarded (tableStep 1000) (ShowsStorage 1000) PathTab.empty
      (oneLink ++ [selfPath true, selfPath true]) := by
  intro hguarded
  have hsome : (run (tableStep 1000) PathTab.empty (oneLink ++ [selfPath true])).isSome := by
    decide +kernel
  obtain ⟨t, ht⟩ := Option.isSome_iff_exists.mp hsome
  rw [show oneLink ++ [selfPath true, selfPath true] = (oneLink ++ [selfPath true]) ++
    [selfPath true] from rfl] at hguarded
  obtain ⟨hshown, -⟩ := (hguarded.last ht) _ rfl
  -- block 5 holds the first array, block 7 the second one
  have hstate : ((run (tableStep 1000) PathTab.empty (oneLink ++ [selfPath true])).bind fun t =>
      (tableStep 1000 t (selfPath true)).map fun t' => ((t'.pathArrs 5).isSome,
        decide (5 < t'.nextBlock ∧ 5 ∉ t'.freed),
        t'.pathtable.map fun rows => (rows.dim, rows.cell 0 0))) =
      some (true, true, some (1, some 7)) := by decide +kernel
  rw [ht] at hstate
  obtain ⟨harr, hrest⟩ := Prod.mk.inj (Option.some.inj hstate)
  obtain ⟨hlive, htable⟩ := Prod.mk.inj hrest
  have hlive' : 5 < _ ∧ 5 ∉ _ := of_decide_eq_true hlive
  obtain ⟨i, j, hread⟩ := (hshown.live_iff 5).mp ⟨hlive', harr⟩
  obtain ⟨rows, hrows, hin, hcell⟩ := readCell_eq_some hread
  rw [hrows] at htable
  obtain ⟨hdim, hzero⟩ := Prod.mk.inj (Option.some.inj htable)
  have hi : i.toNat = 0 := by omega
  have hj : j.toNat = 0 := by omega
  rw [hi, hj, hzero] at hcell
  cases hcell

/-- The hops of the path cannot be copied: their buffer, in block 4, is never freed. -/
theorem not_guarded_showsStorage_copyFails :
    ¬ Guarded (tableStep 1000) (ShowsStorage 1000) PathTab.empty (oneLink ++ [selfPath false]) := by
  intro hguarded
  have hsome : (run (tableStep 1000) PathTab.empty oneLink).isSome := by decide +kernel
  obtain ⟨t, ht⟩ := Option.isSome_iff_exists.mp hsome
  obtain ⟨-, hfreed⟩ := (hguarded.last ht) _ rfl
  have hstate : (run (tableStep 1000) PathTab.empty oneLink).map (fun t =>
      (t.nextBlock, t.nodecount, t.hoptable.isSome, t.pathtable.isSome,
        (procPathentry t ⟨true, 20, true, 0, 0, 1, true, fun _ => 0, false, true⟩).tab.freed)) =
      some (4, 1, true, true, [0]) := by decide +kernel
  rw [ht] at hstate
  simp only [Option.map_some, Option.some.injEq, Prod.mk.injEq] at hstate
  obtain ⟨hnext, hcount, hhop, hpath, hlist⟩ := hstate
  have htemp : (selfPath false).Temporary t 4 := by
    refine ⟨⟨rfl, by decide, rfl, hhop, hpath, ?_, rfl, by decide⟩, by decide, hnext.symm⟩
    rw [hcount]
    decide
  have hmem : 4 ∈ (procPathentry t
      ⟨true, 20, true, 0, 0, 1, true, fun _ => 0, false, true⟩).tab.freed := hfreed 4 htemp
  rw [hlist] at hmem
  exact absurd hmem (by decide)

end Modelnet.Linux

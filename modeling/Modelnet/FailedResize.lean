import Modelnet.HopTable
import Mathlib.Data.List.Nodup
import Mathlib.Data.Nat.Find

/-!
# A resizing that fails

`proc_nodecount` and `sysctl_nodecount` free the old table and allocate the new one row by row.
When row `i` cannot be allocated they set `nodecount` to `i - 1` and call `free_path`, which frees
that many rows, and nothing at all when the count is 0. Rows `0 .. i - 1` exist, so the last of
them is lost, and with `i = 1` the array of rows too. Blocks are told apart by their numbers; in
every reachable state those of the table are in use and no block is freed twice (`Ledger`).
-/

namespace Modelnet

open PartialRun

/-! ## The blocks of a table -/

/-- The blocks that a table takes: its paths, its rows and the array of rows. -/
def PathRows.blocks (rows : PathRows) : List ℕ :=
  PathTab.pathBlocks rows rows.dim ++ (rows.rows ++ [rows.base])

/-- Different pointers point to different blocks. -/
structure PathRows.Distinct (rows : PathRows) : Prop where
  nodup : (rows.rows ++ [rows.base]).Nodup
  cell : ∀ i j b, rows.cell i j = some b → b ∉ rows.rows ++ [rows.base]
  inj : ∀ i j i' j' b, rows.cell i j = some b → rows.cell i' j' = some b → i = i' ∧ j = j'

namespace PathTab

theorem mem_pathBlocks {rows : PathRows} {n b : ℕ} :
    b ∈ pathBlocks rows n ↔ ∃ i < n, ∃ j < n, rows.cell i j = some b := by
  simp [pathBlocks, List.mem_flatMap, List.mem_filterMap]

theorem nodup_pathBlocks {rows : PathRows} (h : rows.Distinct) (n : ℕ) :
    (pathBlocks rows n).Nodup := by
  unfold pathBlocks
  rw [List.nodup_flatMap]
  refine ⟨fun i _ => List.nodup_range.filterMap fun j j' b hb hb' =>
    (h.inj i j i j' b hb hb').2, ?_⟩
  refine List.nodup_range.imp fun {i i'} hne b hb hb' => hne ?_
  obtain ⟨j, -, hj⟩ := List.mem_filterMap.mp hb
  obtain ⟨j', -, hj'⟩ := List.mem_filterMap.mp hb'
  exact (h.inj i j i' j' b hj hj').1

theorem pathBlocks_of_none {rows : PathRows} (h : ∀ i j, rows.cell i j = none) (n : ℕ) :
    pathBlocks rows n = [] :=
  List.eq_nil_iff_forall_not_mem.mpr fun b hb => by
    obtain ⟨i, -, j, -, hcell⟩ := mem_pathBlocks.mp hb
    rw [h] at hcell
    cases hcell

end PathTab

theorem PathRows.Distinct.nodup_blocks {rows : PathRows} (h : rows.Distinct) :
    rows.blocks.Nodup := by
  refine List.nodup_append'.mpr ⟨PathTab.nodup_pathBlocks h _, h.nodup, fun b hb => ?_⟩
  obtain ⟨i, -, j, -, hcell⟩ := PathTab.mem_pathBlocks.mp hb
  exact h.cell i j b hcell

/-! ## The ledger -/

namespace PathTab

/-- The block was allocated and not freed. -/
def Live (t : PathTab) (b : ℕ) : Prop := b < t.nextBlock ∧ b ∉ t.freed

/-- The blocks of the table are in use, and the table has the size that `nodecount` says. -/
structure Backed (t : PathTab) (rows : PathRows) : Prop where
  distinct : rows.Distinct
  row : ∀ b ∈ rows.rows ++ [rows.base], t.Live b
  cell : ∀ i j b, rows.cell i j = some b → t.Live b
  dim : (rows.dim : ℤ) = t.nodecount
  length : rows.rows.length = rows.dim

/-- What is freed was allocated, and the table is backed. -/
structure Ledger (t : PathTab) : Prop where
  freed : ∀ b ∈ t.freed, b < t.nextBlock
  table : ∀ rows, t.pathtable = some rows → t.Backed rows

variable {t t' : PathTab} {hz b : ℕ}

theorem ledger_empty : PathTab.empty.Ledger :=
  ⟨fun _ hb => (nomatch hb), fun _ h => (nomatch h)⟩

/-- Without a table all that matters is that blocks are freed after their allocation. -/
theorem ledger_of_none (h : t.pathtable = none) (hfreed : ∀ b ∈ t.freed, b < t.nextBlock) :
    t.Ledger :=
  ⟨hfreed, fun rows hrows => by rw [h] at hrows; cases hrows⟩

/-- The tables and the blocks are the same, but for blocks allocated for something else. -/
theorem Ledger.congr (h : t.Ledger) (htable : t'.pathtable = t.pathtable)
    (hcount : t'.nodecount = t.nodecount) (hfreed : t'.freed = t.freed)
    (hnext : t.nextBlock ≤ t'.nextBlock) : t'.Ledger := by
  have hlive : ∀ b, t.Live b → t'.Live b := fun b hb =>
    ⟨hb.1.trans_le hnext, hfreed ▸ hb.2⟩
  refine ⟨fun b hb => (h.freed b (hfreed ▸ hb)).trans_le hnext, fun rows hrows => ?_⟩
  obtain ⟨hdistinct, hrow, hcell, hdim, hlen⟩ := h.table rows (htable ▸ hrows)
  exact ⟨hdistinct, fun b hb => hlive b (hrow b hb), fun i j b hb => hlive b (hcell i j b hb),
    hdim.trans hcount.symm, hlen⟩

theorem Ledger.alloc (h : t.Ledger) : t.alloc.Ledger := h.congr rfl rfl rfl (Nat.le_succ _)

theorem Ledger.kfree (h : t.Ledger) (hb : b < t.nextBlock)
    (hnot : ∀ rows, t.pathtable = some rows →
      b ∉ rows.rows ++ [rows.base] ∧ ∀ i j, rows.cell i j ≠ some b) : (t.kfree b).Ledger := by
  have hlive : ∀ b', b' ≠ b → t.Live b' → (t.kfree b).Live b' := fun b' hne hb' =>
    ⟨hb'.1, fun hc => by
      rcases List.mem_append.mp hc with hc | hc
      · exact hb'.2 hc
      · exact hne (List.mem_singleton.mp hc)⟩
  refine ⟨fun b' hb' => ?_, fun rows hrows => ?_⟩
  · rcases List.mem_append.mp hb' with hb' | hb'
    · exact h.freed b' hb'
    · exact List.mem_singleton.mp hb' ▸ hb
  · obtain ⟨hdistinct, hrow, hcell, hdim, hlen⟩ := h.table rows hrows
    obtain ⟨hnotrow, hnotcell⟩ := hnot rows hrows
    exact ⟨hdistinct, fun b' hb' => hlive b' (fun heq => hnotrow (heq ▸ hb')) (hrow b' hb'),
      fun i j b' hb' => hlive b' (fun heq => hnotcell i j (heq ▸ hb')) (hcell i j b' hb'), hdim,
      hlen⟩

/-! ## Freeing the paths -/

theorem freed_foldl_kfree (bs : List ℕ) (t : PathTab) :
    (bs.foldl PathTab.kfree t).freed = t.freed ++ bs := by
  induction bs generalizing t with
  | nil => simp
  | cons b bs ih =>
    rw [List.foldl_cons, ih]
    simp [PathTab.kfree]

/-- **What `free_path` frees.** -/
theorem freed_freePath {rows : PathRows} (h : t.pathtable = some rows) :
    t.freePath.freed = t.freed ++ if t.nodecount ≠ 0 then
      pathBlocks rows t.nodecount.toNat ++ (rows.rows.take t.nodecount.toNat ++ [rows.base])
      else [] := by
  unfold freePath
  rw [h]
  dsimp only
  split_ifs
  · show (List.foldl PathTab.kfree _ _).freed ++ [rows.base] = _
    rw [freed_foldl_kfree, freed_foldl_kfree]
    simp
  · simp

theorem freed_freePath_of_none (h : t.pathtable = none) : t.freePath.freed = t.freed := by
  unfold freePath
  rw [h]

/-- The whole table is freed, unless it has no nodes. -/
theorem Ledger.freed_freePath (h : t.Ledger) {rows : PathRows} (hrows : t.pathtable = some rows) :
    t.freePath.freed = t.freed ++ if t.nodecount ≠ 0 then rows.blocks else [] := by
  obtain ⟨-, -, -, hdim, hlen⟩ := h.table rows hrows
  have hn : t.nodecount.toNat = rows.dim := by omega
  rw [PathTab.freed_freePath hrows, hn, PathRows.blocks, List.take_of_length_le (Nat.le_of_eq hlen)]

theorem Ledger.freePath (h : t.Ledger) : t.freePath.Ledger := by
  refine ledger_of_none rfl fun b hb => ?_
  rw [freePath_nextBlock]
  cases hrows : t.pathtable with
  | none =>
    rw [freed_freePath_of_none hrows] at hb
    exact h.freed b hb
  | some rows =>
    obtain ⟨-, hrow, hcell, -, -⟩ := h.table rows hrows
    rw [h.freed_freePath hrows] at hb
    split_ifs at hb
    · rcases List.mem_append.mp hb with hb | hb
      · exact h.freed b hb
      · rcases List.mem_append.mp hb with hb | hb
        · obtain ⟨i, -, j, -, hb⟩ := mem_pathBlocks.mp hb
          exact (hcell i j b hb).1
        · exact (hrow b hb).1
    · rw [List.append_nil] at hb
      exact h.freed b hb

/-! ## Allocating the rows -/

/-- The table with `i` rows, in the blocks from `t.nextBlock` on. -/
def newRows (t : PathTab) (newcount : ℤ) (i : ℕ) : PathRows where
  base := t.nextBlock
  rows := List.range' (t.nextBlock + 1) i
  dim := newcount.toNat
  cell := fun _ _ => none

/-- The tables once `i` rows of the new table exist. -/
def withRows (t : PathTab) (newcount : ℤ) (i : ℕ) : PathTab :=
  { t.freePath with
    nodecount := newcount
    nextBlock := t.nextBlock + 1 + i
    pathtable := some (t.newRows newcount i) }

theorem distinct_newRows (t : PathTab) (newcount : ℤ) (i : ℕ) :
    (t.newRows newcount i).Distinct where
  nodup := by
    refine List.nodup_append'.mpr ⟨List.nodup_range', List.nodup_singleton _, fun b hb hb' => ?_⟩
    have hrange := (List.mem_range'_1.mp hb).1
    have heq : b = t.nextBlock := List.mem_singleton.mp hb'
    omega
  cell _ _ _ h := by cases h
  inj _ _ _ _ _ h := by cases h

theorem allocRows_succ (t : PathTab) (newcount : ℤ) (rowOk : ℕ → Bool) (m i : ℕ) :
    allocRows rowOk (m + 1) { t.withRows newcount i with pathtable := none }
        (t.newRows newcount i) =
      if rowOk i = true then
        allocRows rowOk m { t.withRows newcount (i + 1) with pathtable := none }
          (t.newRows newcount (i + 1))
      else (freePath { t.withRows newcount i with nodecount := i - 1 }, false) := by
  have hlen : (t.newRows newcount i).rows.length = i := List.length_range'
  have hrows : t.newRows newcount (i + 1) =
      { t.newRows newcount i with
        rows := (t.newRows newcount i).rows ++ [(t.withRows newcount i).nextBlock] } := by
    unfold newRows withRows
    dsimp only
    rw [List.range'_concat, Nat.one_mul]
  rw [allocRows]
  dsimp only
  rw [hlen, hrows]
  rfl

theorem allocRows_ok {t : PathTab} {newcount : ℤ} {rowOk : ℕ → Bool} {m i : ℕ}
    (hok : ∀ j, i ≤ j → j < i + m → rowOk j = true) :
    allocRows rowOk m { t.withRows newcount i with pathtable := none } (t.newRows newcount i) =
      (t.withRows newcount (i + m), true) := by
  induction m generalizing i with
  | zero => rfl
  | succ m ih =>
    rw [allocRows_succ, if_pos (hok i (Nat.le_refl i) (by omega)),
      ih fun j hj hjm => hok j (by omega) (by omega), Nat.add_right_comm, Nat.add_assoc]

theorem allocRows_fail {t : PathTab} {newcount : ℤ} {rowOk : ℕ → Bool} {m i k : ℕ} (hik : i ≤ k)
    (hkm : k < i + m) (hok : ∀ j, i ≤ j → j < k → rowOk j = true) (hfail : ¬ rowOk k = true) :
    allocRows rowOk m { t.withRows newcount i with pathtable := none } (t.newRows newcount i) =
      (freePath { t.withRows newcount k with nodecount := k - 1 }, false) := by
  induction m generalizing i with
  | zero => omega
  | succ m ih =>
    rw [allocRows_succ]
    rcases Nat.eq_or_lt_of_le hik with rfl | hlt
    · rw [if_neg hfail]
    · rw [if_pos (hok i (Nat.le_refl i) hlt)]
      exact ih hlt (by omega) fun j hj hjk => hok j (by omega) hjk

theorem resize_of_no_table {newcount : ℤ} {tableOk : Bool} {rowOk : ℕ → Bool}
    (h : ¬ (tableOk = true ∧ 0 ≤ newcount)) :
    t.resize newcount tableOk rowOk =
      (freePath { t.freePath with nodecount := newcount }, false) := by
  unfold resize
  dsimp only
  rw [if_neg (by rwa [Bool.and_eq_true, decide_eq_true_iff])]

theorem resize_of_table {newcount : ℤ} {tableOk : Bool} (rowOk : ℕ → Bool)
    (h : tableOk = true ∧ 0 ≤ newcount) :
    t.resize newcount tableOk rowOk = allocRows rowOk newcount.toNat
      { t.withRows newcount 0 with pathtable := none } (t.newRows newcount 0) := by
  have hnext := freePath_nextBlock t
  unfold resize
  dsimp only
  rw [if_pos (by rw [Bool.and_eq_true, decide_eq_true_iff]; exact h)]
  unfold PathTab.alloc withRows newRows
  dsimp only
  rw [hnext]
  rfl

/-- What is left when all rows can be allocated, and when row `i` is the first that cannot. -/
theorem resize_cases (t : PathTab) (newcount : ℤ) (tableOk : Bool) (rowOk : ℕ → Bool) :
    (t.resize newcount tableOk rowOk).1 = freePath { t.freePath with nodecount := newcount } ∨
    (0 ≤ newcount ∧ (t.resize newcount tableOk rowOk).1 = t.withRows newcount newcount.toNat) ∨
    ∃ i : ℕ, (i : ℤ) < newcount ∧ (t.resize newcount tableOk rowOk).1 =
      freePath { t.withRows newcount i with nodecount := i - 1 } := by
  by_cases htable : tableOk = true ∧ 0 ≤ newcount
  · rw [resize_of_table rowOk htable]
    by_cases hall : ∀ j < newcount.toNat, rowOk j = true
    · refine Or.inr (Or.inl ⟨htable.2, ?_⟩)
      rw [allocRows_ok fun j _ hj => hall j (by omega), Nat.zero_add]
    · push Not at hall
      have hex : ∃ i, i < newcount.toNat ∧ ¬ rowOk i = true := hall
      classical
      refine Or.inr (Or.inr ⟨Nat.find hex, ?_, ?_⟩)
      · have := (Nat.find_spec hex).1
        omega
      · rw [allocRows_fail (Nat.zero_le _) (by have := (Nat.find_spec hex).1; omega)
          (fun j _ hj => ?_) (Nat.find_spec hex).2]
        by_contra hno
        exact Nat.find_min hex hj ⟨hj.trans (Nat.find_spec hex).1, hno⟩
  · exact Or.inl (congrArg Prod.fst (resize_of_no_table htable))

/-! ## The ledger over the handlers -/

theorem Ledger.withRows (h : t.Ledger) (newcount : ℤ) (i : ℕ) (hi : newcount = i) :
    (t.withRows newcount i).Ledger := by
  have hfree := h.freePath
  have hnext := freePath_nextBlock t
  have hlive : ∀ b, t.nextBlock ≤ b → b < t.nextBlock + 1 + i → (t.withRows newcount i).Live b :=
    fun b hle hlt => ⟨hlt, fun hc => absurd (hfree.freed b hc) (by omega)⟩
  refine ⟨fun b hb => ?_, fun rows hrows => ?_⟩
  · have hlt := hfree.freed b hb
    show b < t.nextBlock + 1 + i
    omega
  · cases hrows
    refine ⟨distinct_newRows t newcount i, fun b hb => ?_, fun _ _ _ hc => (nomatch hc), ?_, ?_⟩
    · rcases List.mem_append.mp hb with hb | hb
      · have hrange := List.mem_range'_1.mp hb
        exact hlive b (by omega) (by omega)
      · rw [List.mem_singleton.mp hb]
        exact hlive _ (Nat.le_refl _) (by show t.nextBlock < t.nextBlock + 1 + i; omega)
    · show ((newcount.toNat : ℕ) : ℤ) = newcount
      omega
    · show (List.range' (t.nextBlock + 1) i).length = newcount.toNat
      rw [List.length_range']
      omega

/-- What the cleanup after row `i` frees: the array of rows and the rows before row `i - 1`, but
nothing when that is row 0. -/
theorem freed_freePath_withRows (t : PathTab) (newcount : ℤ) (i : ℕ) :
    (freePath { t.withRows newcount i with nodecount := i - 1 }).freed =
      t.freePath.freed ++ if i = 1 then [] else
        List.range' (t.nextBlock + 1) (i - 1) ++ [t.nextBlock] := by
  rw [@freed_freePath _ (t.newRows newcount i) rfl, pathBlocks_of_none fun _ _ => rfl]
  have htake : ((i : ℤ) - 1).toNat = i - 1 := by omega
  have hrows : (t.newRows newcount i).rows.take (i - 1) =
      List.range' (t.nextBlock + 1) (i - 1) := by
    show (List.range' (t.nextBlock + 1) i).take (i - 1) = _
    exact List.take_range'_of_length_ge (Nat.sub_le i 1)
  show t.freePath.freed ++ (if (i : ℤ) - 1 ≠ 0 then _ else _) = _
  dsimp only
  rw [htake, hrows, List.nil_append]
  by_cases hi : i = 1
  · rw [if_pos hi, if_neg (by omega)]
  · rw [if_neg hi, if_pos (by omega)]
    rfl

theorem Ledger.resize (h : t.Ledger) (newcount : ℤ) (tableOk : Bool) (rowOk : ℕ → Bool) :
    (t.resize newcount tableOk rowOk).1.Ledger := by
  have hfree := h.freePath
  have hnext := freePath_nextBlock t
  rcases resize_cases t newcount tableOk rowOk with heq | ⟨hle, heq⟩ | ⟨i, -, heq⟩
  · rw [heq]
    exact ledger_of_none rfl hfree.freed
  · rw [heq]
    exact h.withRows newcount _ (Int.toNat_of_nonneg hle).symm
  · rw [heq]
    refine ledger_of_none rfl fun b hb => ?_
    rw [freePath_nextBlock]
    show b < t.nextBlock + 1 + i
    rw [freed_freePath_withRows] at hb
    rcases List.mem_append.mp hb with hb | hb
    · have hlt := hfree.freed b hb
      omega
    · split_ifs at hb
      · cases hb
      · rcases List.mem_append.mp hb with hb | hb
        · have hrange := List.mem_range'_1.mp hb
          omega
        · rw [List.mem_singleton.mp hb]
          omega

theorem Ledger.uninitPaths (h : t.Ledger) (ht : t.Tidy) : t.uninitPaths.Ledger := by
  obtain ⟨-, -, hhop, -, -⟩ := freePath_frame t
  have hfree := h.freePath
  have hnext := freePath_nextBlock t
  unfold PathTab.uninitPaths
  dsimp only
  rw [hhop]
  cases htab : t.hoptable with
  | none => exact ledger_of_none rfl hfree.freed
  | some b =>
    refine ledger_of_none rfl fun b' hb' => ?_
    show b' < t.freePath.nextBlock
    rcases List.mem_append.mp hb' with hb' | hb'
    · exact hfree.freed b' hb'
    · rw [List.mem_singleton.mp hb', hnext]
      exact ht.hoptable b htab

theorem loadHops_freed (l : HopLoad) (hz b m i : ℕ) (t : PathTab) :
    (loadHops hz b l.hops l.exittickOk l.slotlenOk m i t).1.freed = t.freed := by
  induction m generalizing i t with
  | zero => rfl
  | succ m ih =>
    rw [loadHops_succ]
    split_ifs
    · exact ih _ _
    · rfl

theorem Ledger.load (h : t.Ledger) (ht : t.Tidy) (hz : ℕ) (l : HopLoad) :
    (t.load hz l).1.Ledger ∧ (t.load hz l).1.pathtable = none ∧
      t.nextBlock ≤ (t.load hz l).1.nextBlock := by
  have hun := h.uninitPaths ht
  obtain ⟨-, -, -, hnext⟩ := ht.uninitPaths
  have hnone := loadHoptable_pathtable hz t l.hopcount l.hops l.tableOk l.exittickOk l.slotlenOk
  by_cases hok : l.tableOk = true
  · obtain ⟨-, hnext', -⟩ := ht.load_of_tableOk hz hok
    refine ⟨ledger_of_none hnone fun b hb => ?_, hnone, by omega⟩
    have hfreed : (t.load hz l).1.freed = t.uninitPaths.freed := by
      unfold PathTab.load loadHoptable
      dsimp only
      rw [if_pos hok, loadHops_freed]
      rfl
    rw [hfreed] at hb
    have hlt := hun.freed b hb
    omega
  · have hnone' : (t.load hz l).1.pathtable = none := hnone
    rw [t.load_of_not_tableOk hok] at hnone' ⊢
    exact ⟨hun, hnone', hnext.ge⟩

/-- A load that ends well frees the buffer of the records. -/
theorem Ledger.loadFrom (h : t.Ledger) (ht : t.Tidy) (hz : ℕ) (l : HopLoad) :
    let r := t.alloc.load hz l
    Ledger (if r.2 then r.1.kfree t.nextBlock else r.1) := by
  obtain ⟨hload, hnone, hle⟩ := h.alloc.load ((sameHops_alloc t).tidy ht) hz l
  dsimp only
  split_ifs
  · refine hload.kfree (Nat.lt_of_lt_of_le (Nat.lt_succ_self t.nextBlock) hle) fun rows hrows => ?_
    rw [hnone] at hrows
    cases hrows
  · exact hload

/-- A block is none of the table's. -/
def Unused (t : PathTab) (b : ℕ) : Prop :=
  ∀ rows, t.pathtable = some rows →
    b ∉ rows.rows ++ [rows.base] ∧ ∀ i j, rows.cell i j ≠ some b

theorem Ledger.unused (h : t.Ledger) (hb : t.nextBlock ≤ b) : t.Unused b := by
  intro rows hrows
  obtain ⟨-, hrow, hcell, -, -⟩ := h.table rows hrows
  exact ⟨fun hc => absurd (hrow b hc).1 (by omega),
    fun i j hc => absurd (hcell i j b hc).1 (by omega)⟩

theorem Ledger.writeCell (h : t.Ledger) (row col : ℤ) {v : Option ℕ}
    (hv : ∀ b, v = some b → t.Live b ∧ t.Unused b) : (t.writeCell row col v).Ledger := by
  unfold PathTab.writeCell
  cases hrows : t.pathtable with
  | none => exact h
  | some rows =>
    dsimp only
    split_ifs
    · obtain ⟨⟨hnodup, hcellrow, hinj⟩, hrow, hcell, hdim, hlen⟩ := h.table rows hrows
      -- a cell of the new table holds `v` or what it held
      have hnew : ∀ i j b,
          (if i = row.toNat ∧ j = col.toNat then v else rows.cell i j) = some b →
          (i = row.toNat ∧ j = col.toNat ∧ v = some b) ∨ rows.cell i j = some b := by
        intro i j b hb
        split_ifs at hb with hij
        · exact Or.inl ⟨hij.1, hij.2, hb⟩
        · exact Or.inr hb
      refine ⟨h.freed, fun rows' hrows' => ?_⟩
      cases hrows'
      refine ⟨⟨hnodup, fun i j b hb => ?_, fun i j i' j' b hb hb' => ?_⟩, hrow,
        fun i j b hb => ?_, hdim, hlen⟩
      · rcases hnew i j b hb with ⟨-, -, hvb⟩ | hb
        · exact ((hv b hvb).2 rows hrows).1
        · exact hcellrow i j b hb
      · rcases hnew i j b hb with ⟨hi, hj, hvb⟩ | hold
        · rcases hnew i' j' b hb' with ⟨hi', hj', -⟩ | hold'
          · exact ⟨hi.trans hi'.symm, hj.trans hj'.symm⟩
          · exact absurd hold' (((hv b hvb).2 rows hrows).2 i' j')
        · rcases hnew i' j' b hb' with ⟨-, -, hvb⟩ | hold'
          · exact absurd hold (((hv b hvb).2 rows hrows).2 i j)
          · exact hinj i j i' j' b hold hold'
      · rcases hnew i j b hb with ⟨-, -, hvb⟩ | hb
        · exact (hv b hvb).1
        · exact hcell i j b hb
    · exact h

theorem writeCell_unused (row col : ℤ) {v : Option ℕ} (h : t.Unused b) (hv : v ≠ some b) :
    (t.writeCell row col v).Unused b := by
  intro rows' hrows'
  unfold PathTab.writeCell at hrows'
  cases hrows : t.pathtable with
  | none =>
    rw [hrows] at hrows'
    cases hrows.symm.trans hrows'
  | some rows =>
    obtain ⟨hnotrow, hnotcell⟩ := h rows hrows
    rw [hrows] at hrows'
    dsimp only at hrows'
    split_ifs at hrows'
    · cases hrows'
      refine ⟨hnotrow, fun i j => ?_⟩
      dsimp only
      split_ifs
      · exact hv
      · exact hnotcell i j
    · exact h rows' hrows'

/-- **Storing a path** puts the block of the path into the cell and frees the buffer. -/
theorem Ledger.storePath (h : t.Ledger) (hoptab : ℕ) (srcNode dstNode : ℤ) (hops : List Int32)
    (pathOk : Bool) :
    let r := t.alloc.storePath hoptab srcNode dstNode hops pathOk
    Ledger (if r.2 then r.1.kfree t.nextBlock else r.1) := by
  cases pathOk with
  | false => exact h.alloc.writeCell srcNode dstNode fun b hb => (nomatch hb)
  | true =>
    have hstart : Ledger { t.alloc.alloc with
        pathArrs := Function.update t.pathArrs (t.nextBlock + 1) (some (pathCells hoptab hops)) } :=
      h.alloc.alloc.congr rfl rfl rfl (Nat.le_refl _)
    have hfresh : t.nextBlock + 1 ∉ t.freed := fun hc => absurd (h.freed _ hc) (by omega)
    have hcell := hstart.writeCell srcNode dstNode (v := some (t.nextBlock + 1)) fun b hb => by
      cases hb
      exact ⟨⟨Nat.lt_succ_self _, hfresh⟩, h.unused (Nat.le_succ _)⟩
    obtain ⟨-, -, -, -, hnext⟩ := writeCell_frame { t.alloc.alloc with
      pathArrs := Function.update t.pathArrs (t.nextBlock + 1) (some (pathCells hoptab hops)) }
      srcNode dstNode (some (t.nextBlock + 1))
    refine hcell.kfree (b := t.nextBlock) ?_ ?_
    · rw [hnext]
      show t.nextBlock < t.nextBlock + 1 + 1
      omega
    · refine writeCell_unused srcNode dstNode (h.unused (Nat.le_refl _)) fun hc => ?_
      have heq : t.nextBlock + 1 = t.nextBlock := Option.some.inj hc
      omega

end PathTab

/-! ## The ledger over runs -/

namespace Linux

open PathTab

theorem ledger_handle {hz : ℕ} {t : PathTab} (ht : t.Tidy) (h : t.Ledger) (w : TableWrite) :
    (handle hz t w).tab.Ledger := by
  have hrejected : ∀ t' : PathTab, t' = t ∨ t' = t.alloc → t'.Ledger := by
    rintro t' (rfl | rfl)
    · exact h
    · exact h.alloc
  cases w with
  | nodetable w =>
    rw [handle]
    unfold procNodetable
    split_ifs
    · exact h
    · cases w.copied with
      | none => exact h.congr rfl rfl rfl (Nat.le_refl _)
      | some n => exact h.congr rfl rfl rfl (Nat.le_refl _)
    · exact h
  | nodecount w =>
    by_cases hresize : w.Resizes t
    · rw [handle, procNodecount_of_resizes hresize]
      exact h.resize _ _ _
    · rw [handle, procNodecount_of_not_resizes hresize]
      exact h
  | hoptable w =>
    by_cases hloads : w.Loads
    · have hload := h.loadFrom ht hz w.load
      rw [handle, procHophandle_of_loads hloads]
      dsimp only at hload ⊢
      split_ifs at hload ⊢ with hok hok' hok'
      · exact hload
      · exact absurd hok hok'
      · exact absurd hok' hok
      · exact hload
    · exact hrejected _ (procHophandle_of_not_loads hloads).2
  | pathentry w =>
    by_cases hstores : w.Stores t
    · obtain ⟨hoptab, -, heq⟩ := procPathentry_of_stores hstores
      have hstore := h.storePath hoptab w.srcNode.toInt w.dstNode.toInt w.path w.pathOk
      rw [handle, heq]
      dsimp only at hstore ⊢
      split_ifs at hstore ⊢ <;> exact hstore
    · exact hrejected _ (procPathentry_of_not_stores hstores).2

theorem ledger_of_run {hz : ℕ} {es : List TableEvent} {t : PathTab}
    (hrun : run (tableStep hz) PathTab.empty es = some t) : t.Ledger := by
  refine (run_invariant (I := fun t => t.Tidy ∧ t.Ledger) (fun t e t' ht hstep => ?_) hrun
    ⟨tidy_empty, ledger_empty⟩).2
  refine ⟨(stepsHops hz).tidy_step ht.1 hstep, ?_⟩
  cases e with
  | packet ptr c =>
    obtain ⟨hop, -, hstep⟩ := Option.bind_eq_some_iff.mp hstep
    obtain ⟨r, -, rfl⟩ := Option.map_eq_some_iff.mp hstep
    exact ht.2.congr rfl rfl rfl (Nat.le_refl _)
  | write w =>
    cases hstep
    exact ledger_handle ht.1 ht.2 w

end Linux
namespace FreeBSD

open PathTab

theorem ledger_handle {hz : ℕ} {t : PathTab} (ht : t.Tidy) (h : t.Ledger) (w : TableWrite) :
    (handle hz t w).tab.Ledger := by
  cases w with
  | nodetable w =>
    rw [handle]
    unfold sysctlNodetable
    dsimp only
    split_ifs
    · exact h
    · exact h
    · exact h.congr rfl rfl rfl (Nat.le_refl _)
    · exact h.congr rfl rfl rfl (Nat.le_refl _)
  | nodecount w =>
    rw [handle]
    unfold sysctlNodecount
    dsimp only
    by_cases hw : w.error ≠ 0 ∨ ¬ w.newptr
    · rw [if_pos hw]
      exact h
    · rw [if_neg hw]
      by_cases hne : w.newcount.toInt ≠ t.nodecount
      · rw [if_pos hne]
        exact h.resize _ _ _
      · rw [if_neg hne]
        exact h
  | hoptable w =>
    by_cases hloads : w.Loads
    · have hload := h.loadFrom ht hz w.load
      rw [handle, sysctlHophandle_of_loads hloads]
      dsimp only at hload ⊢
      split_ifs at hload ⊢ <;> exact hload
    · rw [handle, sysctlHophandle_of_not_loads hloads]
      exact h
  | pathentry w =>
    rw [handle]
    unfold sysctlPathentry
    cases hhop : t.hoptable with
    | none =>
      dsimp only
      split_ifs <;> exact h
    | some hoptab =>
      have hstore := h.storePath hoptab w.srcNode.toInt w.dstNode.toInt w.path w.pathOk
      dsimp only at hstore ⊢
      split_ifs at hstore ⊢
      all_goals first | exact h | exact hstore

theorem ledger_of_run {hz : ℕ} {es : List TableEvent} {t : PathTab}
    (hrun : run (tableStep hz) PathTab.empty es = some t) : t.Ledger := by
  refine (run_invariant (I := fun t => t.Tidy ∧ t.Ledger) (fun t e t' ht hstep => ?_) hrun
    ⟨tidy_empty, ledger_empty⟩).2
  refine ⟨(stepsHops hz).tidy_step ht.1 hstep, ?_⟩
  cases e with
  | packet ptr c =>
    obtain ⟨hop, -, hstep⟩ := Option.bind_eq_some_iff.mp hstep
    obtain ⟨r, -, rfl⟩ := Option.map_eq_some_iff.mp hstep
    exact ht.2.congr rfl rfl rfl (Nat.le_refl _)
  | hopmod hopidx r =>
    unfold tableStep at hstep
    dsimp only at hstep
    split_ifs at hstep
    · cases hstep
      exact ht.2
    · obtain ⟨b, -, hstep⟩ := Option.bind_eq_some_iff.mp hstep
      obtain ⟨hop, -, rfl⟩ := Option.map_eq_some_iff.mp hstep
      exact ht.2.congr rfl rfl rfl (Nat.le_refl _)
  | write w =>
    cases hstep
    exact ledger_handle ht.1 ht.2 w

end FreeBSD

/-! ## Row `i` cannot be allocated -/

/-- What the old table takes. `zeroBlock` says whether an allocation of size 0 is a block, as it is
for `malloc` but not for `kmalloc`. -/
def PathTab.oldBlocks (zeroBlock : Bool) (t : PathTab) : List ℕ :=
  match t.pathtable with
  | some rows => if t.nodecount ≠ 0 ∨ zeroBlock then rows.blocks else []
  | none => []

/-- The array of rows and rows `0 .. i - 1`. -/
def PathTab.newBlocks (t : PathTab) (i : ℕ) : List ℕ := List.range' t.nextBlock (i + 1)

/-- The handler has failed: there is no table, and each of the blocks was freed once. -/
structure PathTab.Released (t' : PathTab) (blocks : List ℕ) : Prop where
  pathtable : t'.pathtable = none
  nodecount : t'.nodecount = 0
  freed : ∀ b ∈ blocks, t'.freed.count b = 1

/-- Row `i` is the first that cannot be allocated. -/
structure FailsAt (newcount : ℤ) (tableOk : Bool) (rowOk : ℕ → Bool) (i : ℕ) : Prop where
  table : tableOk = true
  row : (i : ℤ) < newcount
  before : ∀ j < i, rowOk j = true
  fails : ¬ rowOk i = true

namespace PathTab

variable {t : PathTab} {newcount : ℤ} {tableOk : Bool} {rowOk : ℕ → Bool} {i : ℕ}

theorem resize_of_failsAt (h : FailsAt newcount tableOk rowOk i) :
    t.resize newcount tableOk rowOk =
      (freePath { t.withRows newcount i with nodecount := i - 1 }, false) := by
  have hrow := h.row
  rw [resize_of_table rowOk ⟨h.table, by omega⟩]
  exact allocRows_fail (Nat.zero_le i) (by omega) (fun j _ hj => h.before j hj) h.fails

/-- The blocks of the old table are freed once, unless it has no nodes. -/
theorem Ledger.count_oldBlocks (hl : t.Ledger) {zeroBlock : Bool} {b : ℕ}
    (hb : b ∈ t.oldBlocks zeroBlock) :
    b < t.nextBlock ∧ t.freePath.freed.count b = if t.nodecount ≠ 0 then 1 else 0 := by
  cases hrows : t.pathtable with
  | none =>
    unfold oldBlocks at hb
    rw [hrows] at hb
    cases hb
  | some rows =>
    obtain ⟨hdistinct, hrow, hcell, -, -⟩ := hl.table rows hrows
    unfold oldBlocks at hb
    rw [hrows] at hb
    dsimp only at hb
    split_ifs at hb
    · have hlive : t.Live b := by
        rcases List.mem_append.mp hb with hb | hb
        · obtain ⟨j, -, k, -, hb⟩ := mem_pathBlocks.mp hb
          exact hcell j k b hb
        · exact hrow b hb
      refine ⟨hlive.1, ?_⟩
      rw [hl.freed_freePath hrows, List.count_append, List.count_eq_zero_of_not_mem hlive.2]
      split_ifs
      · rw [List.count_eq_one_of_mem hdistinct.nodup_blocks hb]
      · rw [List.count_nil]
    · cases hb

/-- **What the cleanup frees.** Everything, when the first row fails and the old table had nodes or
took no block. -/
theorem Ledger.released_iff (hl : t.Ledger) (h : FailsAt newcount tableOk rowOk i)
    (zeroBlock : Bool) :
    (t.resize newcount tableOk rowOk).1.Released (t.oldBlocks zeroBlock ++ t.newBlocks i) ↔
      i = 0 ∧ ¬ (zeroBlock = true ∧ t.pathtable.isSome ∧ t.nodecount = 0) := by
  have hfreed := freed_freePath_withRows t newcount i
  rw [resize_of_failsAt h]
  dsimp only
  -- the blocks of the new table were not freed with the old one
  have hnew : ∀ b, t.nextBlock ≤ b → t.freePath.freed.count b = 0 := fun b hb =>
    List.count_eq_zero_of_not_mem fun hc => by
      have hlt := hl.freePath.freed b hc
      rw [freePath_nextBlock] at hlt
      omega
  constructor
  · intro hrel
    have hi : i = 0 := by
      by_contra hi
      -- row `i - 1` is lost
      have hlost := hrel.freed (t.nextBlock + i) (List.mem_append_right _
        (List.mem_range'_1.mpr ⟨by omega, by omega⟩))
      rw [hfreed, List.count_append, hnew _ (by omega), Nat.zero_add] at hlost
      have hnot : t.nextBlock + i ∉
          if i = 1 then [] else List.range' (t.nextBlock + 1) (i - 1) ++ [t.nextBlock] := by
        intro hc
        split_ifs at hc
        · cases hc
        · rcases List.mem_append.mp hc with hc | hc
          · have hrange := List.mem_range'_1.mp hc
            omega
          · have heq := List.mem_singleton.mp hc
            omega
      rw [List.count_eq_zero_of_not_mem hnot] at hlost
      cases hlost
    refine ⟨hi, ?_⟩
    rintro ⟨hzero, hsome, hcount⟩
    obtain ⟨rows, hrows⟩ := Option.isSome_iff_exists.mp hsome
    have hbase : rows.base ∈ t.oldBlocks zeroBlock := by
      unfold oldBlocks
      rw [hrows]
      dsimp only
      rw [if_pos (Or.inr hzero)]
      exact List.mem_append_right _ (List.mem_append_right _ (List.mem_singleton_self _))
    obtain ⟨hlt, hcountb⟩ := hl.count_oldBlocks hbase
    have hlost := hrel.freed rows.base (List.mem_append_left _ hbase)
    rw [hfreed, List.count_append, hcountb, if_neg (not_not.mpr hcount), hi,
      if_neg (by omega), Nat.zero_add] at hlost
    have heq : rows.base = t.nextBlock := by
      have hmem := List.count_pos_iff.mp (hlost ▸ Nat.one_pos)
      exact List.mem_singleton.mp hmem
    omega
  · rintro ⟨rfl, hzero⟩
    refine ⟨rfl, rfl, fun b hb => ?_⟩
    rw [hfreed, List.count_append, if_neg (by omega)]
    show t.freePath.freed.count b + [t.nextBlock].count b = 1
    rcases List.mem_append.mp hb with hb | hb
    · obtain ⟨hlt, hcount⟩ := hl.count_oldBlocks hb
      have hnodes : t.nodecount ≠ 0 := by
        intro hnodes
        cases hrows : t.pathtable with
        | none =>
          unfold oldBlocks at hb
          rw [hrows] at hb
          cases hb
        | some rows =>
          unfold oldBlocks at hb
          rw [hrows] at hb
          dsimp only at hb
          split_ifs at hb with hor
          · exact hzero ⟨hor.resolve_left (not_not.mpr hnodes), by rw [hrows]; rfl, hnodes⟩
          · cases hb
      rw [hcount, if_pos hnodes,
        List.count_eq_zero_of_not_mem fun hc => by
          have heq := List.mem_singleton.mp hc
          omega]
    · have hrange := List.mem_range'_1.mp hb
      obtain rfl : b = t.nextBlock := by omega
      rw [hnew _ (Nat.le_refl _), List.count_singleton_self]

end PathTab

/-! ## Both handlers -/

theorem Linux.procNodecount_of_failsAt {t : PathTab} {w : Linux.NodecountWrite}
    (hw : w.Resizes t) {i : ℕ} (h : FailsAt (w.newcount t) w.tableOk w.rowOk i) :
    Linux.procNodecount t w = ⟨(t.resize (w.newcount t) w.tableOk w.rowOk).1, -enomem, none⟩ := by
  have hfalse := congrArg Prod.snd (PathTab.resize_of_failsAt (t := t) h)
  rw [Linux.procNodecount_of_resizes hw]
  dsimp only at hfalse ⊢
  rw [if_neg (by rw [hfalse]; decide)]

/-- A request that resizes the path table. -/
def FreeBSD.NodecountWrite.Resizes (t : PathTab) (w : FreeBSD.NodecountWrite) : Prop :=
  (w.error = 0 ∧ w.newptr) ∧ w.newcount.toInt ≠ t.nodecount

theorem FreeBSD.sysctlNodecount_of_failsAt {t : PathTab} {w : FreeBSD.NodecountWrite}
    (hw : w.Resizes t) {i : ℕ} (h : FailsAt w.newcount.toInt w.tableOk w.rowOk i) :
    FreeBSD.sysctlNodecount t w =
      ⟨(t.resize w.newcount.toInt w.tableOk w.rowOk).1, enomem, none⟩ := by
  have hfalse := congrArg Prod.snd (PathTab.resize_of_failsAt (t := t) h)
  unfold FreeBSD.sysctlNodecount
  rw [if_neg fun hc => FreeBSD.not_writes hc hw.1, if_pos hw.2]
  dsimp only at hfalse ⊢
  rw [if_neg (by rw [hfalse]; decide)]

/-- **Failed resizings.** In every reachable state of either module, a change of the node count
whose row `i` cannot be allocated returns `ENOMEM`, without a table; it has freed every block of
the old table and of the new one exactly once just when `i` is 0 and, in the FreeBSD module, the
old table is not one of no nodes. -/
theorem released_iff_first_row (hz i : ℕ) :
    (∀ es t w, run (Linux.tableStep hz) PathTab.empty es = some t →
      Linux.NodecountWrite.Resizes t w → FailsAt (w.newcount t) w.tableOk w.rowOk i →
      (Linux.procNodecount t w).ret = -enomem ∧
        ((Linux.procNodecount t w).tab.Released (t.oldBlocks false ++ t.newBlocks i) ↔ i = 0)) ∧
    (∀ es t w, run (FreeBSD.tableStep hz) PathTab.empty es = some t →
      FreeBSD.NodecountWrite.Resizes t w → FailsAt w.newcount.toInt w.tableOk w.rowOk i →
      (FreeBSD.sysctlNodecount t w).ret = enomem ∧
        ((FreeBSD.sysctlNodecount t w).tab.Released (t.oldBlocks true ++ t.newBlocks i) ↔
          i = 0 ∧ ¬ (t.pathtable.isSome ∧ t.nodecount = 0))) := by
  refine ⟨fun es t w hrun hw h => ?_, fun es t w hrun hw h => ?_⟩
  · rw [Linux.procNodecount_of_failsAt hw h]
    refine ⟨rfl, ((Linux.ledger_of_run hrun).released_iff h false).trans ?_⟩
    exact ⟨fun h => h.1, fun h => ⟨h, fun hc => Bool.false_ne_true hc.1⟩⟩
  · rw [FreeBSD.sysctlNodecount_of_failsAt hw h]
    refine ⟨rfl, ((FreeBSD.ledger_of_run hrun).released_iff h true).trans ?_⟩
    exact and_congr_right fun _ => not_congr ⟨fun h => h.2, fun h => ⟨rfl, h⟩⟩

/-! ## Four nodes -/

/-- Four nodes, with rows up to row `i`. -/
def Linux.fourNodes (i : ℕ) : Linux.NodecountWrite := ⟨true, some 4, true, fun j => j < i⟩

/-- Four nodes, with rows up to row `i`. -/
def FreeBSD.fourNodes (i : ℕ) : FreeBSD.NodecountWrite := ⟨0, true, 4, true, fun j => j < i⟩

theorem failsAt_fourNodes {i : ℕ} (hi : i < 4) :
    FailsAt ((4 : Int32).toInt) true (fun j => decide (j < i)) i := by
  have hfour : (4 : Int32).toInt = 4 := by decide
  exact ⟨rfl, by rw [hfour]; omega, fun j hj => decide_eq_true hj, by simp⟩

/-- Without the first row everything is freed. -/
theorem released_fourNodes :
    (Linux.procNodecount PathTab.empty (Linux.fourNodes 0)).tab.Released [0] ∧
      (FreeBSD.sysctlNodecount PathTab.empty (FreeBSD.fourNodes 0)).tab.Released [0] := by
  obtain ⟨hlinux, hfreebsd⟩ := released_iff_first_row 100 0
  constructor
  · exact ((hlinux [] PathTab.empty (Linux.fourNodes 0) rfl ⟨rfl, by decide⟩
      (failsAt_fourNodes (i := 0) (by decide))).2).mpr rfl
  · exact ((hfreebsd [] PathTab.empty (FreeBSD.fourNodes 0) rfl ⟨⟨rfl, rfl⟩, by decide⟩
      (failsAt_fourNodes (i := 0) (by decide))).2).mpr ⟨rfl, fun h => by cases h.1⟩

/-- Without the second, nothing is freed; without the fourth, the third is not. -/
theorem not_released_fourNodes :
    (Linux.procNodecount PathTab.empty (Linux.fourNodes 1)).tab.freed = [] ∧
      (Linux.procNodecount PathTab.empty (Linux.fourNodes 3)).tab.freed = [1, 2, 0] ∧
      ¬ (Linux.procNodecount PathTab.empty (Linux.fourNodes 1)).tab.Released [0, 1] ∧
      ¬ (FreeBSD.sysctlNodecount PathTab.empty (FreeBSD.fourNodes 1)).tab.Released [0, 1] := by
  have hlinux : (Linux.procNodecount PathTab.empty (Linux.fourNodes 1)).tab.freed = [] := by
    decide +kernel
  have hfreebsd : (FreeBSD.sysctlNodecount PathTab.empty (FreeBSD.fourNodes 1)).tab.freed = [] := by
    decide +kernel
  refine ⟨hlinux, by decide +kernel, fun h => ?_, fun h => ?_⟩
  · have hcount := h.freed 0 List.mem_cons_self
    rw [hlinux] at hcount
    cases hcount
  · have hcount := h.freed 0 List.mem_cons_self
    rw [hfreebsd] at hcount
    cases hcount

end Modelnet

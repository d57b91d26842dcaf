import Mathlib.Data.List.Pairwise
import Mathlib.Order.Lattice

/-!
# Maps as sorted lists

A map is the list of its entries in the order of their keys, each key once. Two maps with the same
entries are equal, so a map that is written out in order and inserted again entry by entry comes
back as it was (`foldl_insert_entries`).
-/

/-- A map from keys to values, listed by ascending keys. -/
@[ext] structure SortedMap (κ ν : Type*) [LinearOrder κ] where
  entries : List (κ × ν)
  sorted : entries.Pairwise fun a b => a.1 < b.1

namespace SortedMap

variable {κ ν : Type*} [LinearOrder κ]

/-! ## Insertion -/

/-- The entries after `k` has been set to `v`. -/
def insertEntry (k : κ) (v : ν) : List (κ × ν) → List (κ × ν)
  | [] => [(k, v)]
  | e :: es =>
    if k < e.1 then (k, v) :: e :: es
    else if k = e.1 then (k, v) :: es
    else e :: insertEntry k v es

theorem mem_insertEntry {k : κ} {v : ν} {es : List (κ × ν)} {e : κ × ν}
    (h : e ∈ insertEntry k v es) : e = (k, v) ∨ e ∈ es := by
  induction es with
  | nil => exact .inl (List.mem_singleton.mp h)
  | cons e' es ih =>
    unfold insertEntry at h
    split_ifs at h with hlt heq
    · exact List.mem_cons.mp h
    · rcases List.mem_cons.mp h with h | h
      · exact .inl h
      · exact .inr (List.mem_cons_of_mem _ h)
    · rcases List.mem_cons.mp h with h | h
      · exact .inr (h ▸ List.mem_cons_self)
      · exact (ih h).imp_right (List.mem_cons_of_mem _)

theorem pairwise_insertEntry (k : κ) (v : ν) {es : List (κ × ν)}
    (hes : es.Pairwise fun a b => a.1 < b.1) :
    (insertEntry k v es).Pairwise fun a b => a.1 < b.1 := by
  induction es with
  | nil => exact List.pairwise_singleton _ _
  | cons e es ih =>
    have hrest := List.pairwise_cons.mp hes
    unfold insertEntry
    split_ifs with hlt heq
    · refine List.pairwise_cons.mpr ⟨fun e' he' => ?_, hes⟩
      rcases List.mem_cons.mp he' with rfl | he'
      · exact hlt
      · exact lt_trans hlt (hrest.1 e' he')
    · exact List.pairwise_cons.mpr ⟨fun e' he' => heq ▸ hrest.1 e' he', hrest.2⟩
    · refine List.pairwise_cons.mpr ⟨fun e' he' => ?_, ih hrest.2⟩
      rcases mem_insertEntry he' with rfl | he'
      · exact lt_of_le_of_ne (not_lt.mp hlt) (Ne.symm heq)
      · exact hrest.1 e' he'

/-- The map without entries. -/
instance : EmptyCollection (SortedMap κ ν) := ⟨⟨[], List.Pairwise.nil⟩⟩

def insert (m : SortedMap κ ν) (k : κ) (v : ν) : SortedMap κ ν :=
  ⟨insertEntry k v m.entries, pairwise_insertEntry k v m.sorted⟩

def find? (m : SortedMap κ ν) (k : κ) : Option ν := (m.entries.find? fun e => e.1 = k).map Prod.snd

@[simp] theorem entries_empty : (∅ : SortedMap κ ν).entries = [] := rfl

@[simp] theorem find?_empty (k : κ) : (∅ : SortedMap κ ν).find? k = none := rfl

instance [DecidableEq ν] : DecidableEq (SortedMap κ ν) := fun m m' =>
  decidable_of_iff (m.entries = m'.entries) SortedMap.ext_iff.symm

/-! ## Values -/

theorem unique {m : SortedMap κ ν} {k : κ} {v v' : ν} (h : (k, v) ∈ m.entries)
    (h' : (k, v') ∈ m.entries) : v = v' := by
  obtain ⟨es, hes⟩ := m
  dsimp only at h h'
  induction es with
  | nil => exact absurd h List.not_mem_nil
  | cons e es ih =>
    obtain ⟨hhead, htail⟩ := List.pairwise_cons.mp hes
    rcases List.mem_cons.mp h with rfl | h <;> rcases List.mem_cons.mp h' with heq | h'
    · exact (Prod.mk.inj heq).2.symm
    · exact absurd (hhead _ h') (lt_irrefl _)
    · exact absurd (hhead _ h) (heq ▸ lt_irrefl _)
    · exact ih htail h h'

theorem find?_eq_some {m : SortedMap κ ν} {k : κ} {v : ν} :
    m.find? k = some v ↔ (k, v) ∈ m.entries := by
  unfold find?
  constructor
  · intro h
    obtain ⟨e, he, rfl⟩ := Option.map_eq_some_iff.mp h
    have hk : e.1 = k := by simpa using List.find?_some he
    exact hk ▸ List.mem_of_find?_eq_some he
  · intro h
    cases hfind : m.entries.find? fun e => e.1 = k with
    | none => simpa using List.find?_eq_none.mp hfind _ h
    | some e =>
      have hk : e.1 = k := by simpa using List.find?_some hfind
      have he : (k, e.2) ∈ m.entries := hk ▸ List.mem_of_find?_eq_some hfind
      exact congrArg some (m.unique he h)

theorem find?_eq_none {m : SortedMap κ ν} {k : κ} :
    m.find? k = none ↔ ∀ e ∈ m.entries, e.1 ≠ k := by
  simp [find?, List.find?_eq_none]

theorem mem_insert_self (m : SortedMap κ ν) (k : κ) (v : ν) : (k, v) ∈ (m.insert k v).entries := by
  show (k, v) ∈ insertEntry k v m.entries
  induction m.entries with
  | nil => exact List.mem_singleton_self _
  | cons e es ih =>
    unfold insertEntry
    split_ifs with hlt heq
    · exact List.mem_cons_self
    · exact List.mem_cons_self
    · exact List.mem_cons_of_mem _ ih

theorem mem_insert_of_ne {m : SortedMap κ ν} {k : κ} {v : ν} {e : κ × ν} (he : e ∈ m.entries)
    (hne : e.1 ≠ k) : e ∈ (m.insert k v).entries := by
  show e ∈ insertEntry k v m.entries
  obtain ⟨es, hes⟩ := m
  dsimp only at he ⊢
  clear hes
  induction es with
  | nil => exact absurd he List.not_mem_nil
  | cons e' es ih =>
    unfold insertEntry
    split_ifs with hlt heq
    · exact List.mem_cons_of_mem _ he
    · rcases List.mem_cons.mp he with rfl | he
      · exact absurd heq.symm hne
      · exact List.mem_cons_of_mem _ he
    · rcases List.mem_cons.mp he with rfl | he
      · exact List.mem_cons_self
      · exact List.mem_cons_of_mem _ (ih he)

theorem mem_insert {m : SortedMap κ ν} {k : κ} {v : ν} {e : κ × ν} :
    e ∈ (m.insert k v).entries ↔ e = (k, v) ∨ e ∈ m.entries ∧ e.1 ≠ k := by
  constructor
  · intro h
    by_cases hk : e.1 = k
    · subst hk
      exact .inl (Prod.ext rfl (unique h (m.mem_insert_self e.1 v)))
    · rcases mem_insertEntry h with rfl | h
      · exact absurd rfl hk
      · exact .inr ⟨h, hk⟩
  · rintro (rfl | ⟨h, hk⟩)
    · exact m.mem_insert_self k v
    · exact mem_insert_of_ne h hk

@[simp] theorem find?_insert_self (m : SortedMap κ ν) (k : κ) (v : ν) :
    (m.insert k v).find? k = some v := find?_eq_some.mpr (m.mem_insert_self k v)

theorem find?_insert_of_ne (m : SortedMap κ ν) {k k' : κ} (v : ν) (hne : k' ≠ k) :
    (m.insert k v).find? k' = m.find? k' := by
  ext v'
  rw [find?_eq_some, find?_eq_some, mem_insert]
  constructor
  · rintro (h | h)
    · exact absurd (Prod.mk.inj h).1 hne
    · exact h.1
  · exact fun h => .inr ⟨h, hne⟩

/-! ## Order -/

theorem entries_insert_of_lt {m : SortedMap κ ν} {k : κ} {v : ν} (h : ∀ e ∈ m.entries, e.1 < k) :
    (m.insert k v).entries = m.entries ++ [(k, v)] := by
  show insertEntry k v m.entries = _
  obtain ⟨es, hes⟩ := m
  dsimp only at h ⊢
  clear hes
  induction es with
  | nil => rfl
  | cons e es ih =>
    have he := h e List.mem_cons_self
    unfold insertEntry
    rw [if_neg (not_lt_of_gt he), if_neg he.ne', ih fun e' he' => h e' (List.mem_cons_of_mem _ he'),
      List.cons_append]

@[simp] theorem insert_insert (m : SortedMap κ ν) (k : κ) (v v' : ν) :
    (m.insert k v).insert k v' = m.insert k v' := by
  apply SortedMap.ext
  show insertEntry k v' (insertEntry k v m.entries) = insertEntry k v' m.entries
  induction m.entries with
  | nil => simp [insertEntry]
  | cons e es ih =>
    rw [insertEntry.eq_def k v, insertEntry.eq_def k v' (e :: es)]
    dsimp only
    split_ifs with hlt heq
    · simp [insertEntry]
    · simp [insertEntry]
    · rw [insertEntry, if_neg hlt, if_neg heq, ih]

theorem entries_foldl_insert (l : List (κ × ν)) (m : SortedMap κ ν)
    (h : (m.entries ++ l).Pairwise fun a b => a.1 < b.1) :
    (l.foldl (fun m e => m.insert e.1 e.2) m).entries = m.entries ++ l := by
  induction l generalizing m with
  | nil => simp
  | cons e l ih =>
    have hlt : ∀ e' ∈ m.entries, e'.1 < e.1 := fun e' he' =>
      (List.pairwise_append.mp h).2.2 e' he' e List.mem_cons_self
    have hstep := entries_insert_of_lt (v := e.2) hlt
    rw [List.foldl_cons, ih (m.insert e.1 e.2) (by rw [hstep]; simpa using h), hstep]
    simp

/-- **Written out and read back**, a map is the same. -/
theorem foldl_insert_entries (m : SortedMap κ ν) :
    m.entries.foldl (fun m e => m.insert e.1 e.2) ∅ = m :=
  SortedMap.ext (entries_foldl_insert m.entries ∅ m.sorted)

end SortedMap

import Mathlib.Data.List.Basic
import Mathlib.Data.Int.ModEq
import Mathlib.Algebra.Order.Group.Unbundled.Int
import Mathlib.Logic.Function.Basic
import Mathlib.Tactic.SplitIfs

/-!
# Timing wheels

A timing wheel of `n` slots files an entry due at time `T` in the slot `T mod n`. At time `now`
it serves the slot `now mod n` from its front, and moves to `now + 1` when that slot is empty.

`Law` relates the slots to the history of insertions and removals: for every time `T`, what was
removed at `T`, followed by what the slot of `T` still holds while `T` lies in the window
`[now, now + n)`, is what was inserted for `T`, in the order of insertion. The law survives
every insertion into the window, every removal from the served slot and every move to the next
time. Times are integers, so that a due time before the origin is an ordinary time.
-/

namespace TimingWheel

variable {α : Type*}

/-- The slot of time `T`. -/
def index (n : ℕ) (T : ℤ) : ℕ := (T % n).toNat

/-- `T` lies in the window of times the wheel can tell apart. -/
def InWindow (n : ℕ) (now T : ℤ) : Prop := now ≤ T ∧ T < now + n

instance (n : ℕ) (now T : ℤ) : Decidable (InWindow n now T) :=
  inferInstanceAs (Decidable (_ ∧ _))

/-- The entries of a history recorded for time `T`, in order. -/
def entriesAt (T : ℤ) (history : List (ℤ × α)) : List α :=
  (history.filter fun e => e.1 = T).map Prod.snd

/-- The entries that still wait for time `T`. -/
def pending (n : ℕ) (slots : ℕ → List α) (now T : ℤ) : List α :=
  if InWindow n now T then slots (index n T) else []

/-- Removed at `T`, then still waiting for `T`, is what was inserted for `T`. -/
def Law (n : ℕ) (slots : ℕ → List α) (now : ℤ) (inserted removed : List (ℤ × α)) : Prop :=
  ∀ T, entriesAt T removed ++ pending n slots now T = entriesAt T inserted

/-- Two times of one window share a slot only when they are equal. -/
theorem eq_of_index_eq {n : ℕ} {now T U : ℤ} (hn : 0 < n) (hT : InWindow n now T)
    (hU : InWindow n now U) (h : index n T = index n U) : T = U := by
  unfold InWindow at hT hU
  unfold index at h
  have hT0 := Int.emod_nonneg T (b := (n : ℤ)) (by omega)
  have hU0 := Int.emod_nonneg U (b := (n : ℤ)) (by omega)
  have hmod : T % n = U % n := by omega
  have hdvd : (n : ℤ) ∣ T - U := Int.ModEq.dvd hmod.symm
  have hzero := Int.eq_zero_of_abs_lt_dvd hdvd (by rw [abs_lt]; omega)
  omega

/-- A window holds one time of every slot: the slot of `T` is next served at `T` itself. -/
theorem le_of_index_eq {n : ℕ} {now T U : ℤ} (hn : 0 < n) (hT : InWindow n now T)
    (hU : now ≤ U) (h : index n U = index n T) : T ≤ U := by
  rcases lt_or_ge U (now + n) with hlt | hge
  · exact le_of_eq (eq_of_index_eq hn ⟨hU, hlt⟩ hT h).symm
  · unfold InWindow at hT; omega

@[simp] theorem entriesAt_nil (T : ℤ) : entriesAt T ([] : List (ℤ × α)) = [] := rfl

theorem entriesAt_concat_self (T : ℤ) (h : List (ℤ × α)) (a : α) :
    entriesAt T (h ++ [(T, a)]) = entriesAt T h ++ [a] := by
  simp [entriesAt]

theorem entriesAt_concat_of_ne {T U : ℤ} (hne : U ≠ T) (h : List (ℤ × α)) (a : α) :
    entriesAt T (h ++ [(U, a)]) = entriesAt T h := by
  simp [entriesAt, hne]

theorem pending_of_mem {n : ℕ} {now T : ℤ} (h : InWindow n now T) (slots : ℕ → List α) :
    pending n slots now T = slots (index n T) := if_pos h

theorem pending_of_not_mem {n : ℕ} {now T : ℤ} (h : ¬ InWindow n now T) (slots : ℕ → List α) :
    pending n slots now T = [] := if_neg h

/-- Writing the slot of `U` leaves the entries of the other times of the window alone. -/
theorem pending_update_of_ne {n : ℕ} {now T U : ℤ} (hn : 0 < n) (hU : InWindow n now U)
    (hne : U ≠ T) (slots : ℕ → List α) (l : List α) :
    pending n (Function.update slots (index n U) l) now T = pending n slots now T := by
  unfold pending
  split_ifs with hT
  · rw [Function.update_of_ne fun he => hne (eq_of_index_eq hn hU hT he.symm)]
  · rfl

theorem pending_update_self {n : ℕ} {now U : ℤ} (hU : InWindow n now U) (slots : ℕ → List α)
    (l : List α) : pending n (Function.update slots (index n U) l) now U = l := by
  rw [pending_of_mem hU, Function.update_self]

theorem Law.empty {n : ℕ} {slots : ℕ → List α} {now : ℤ} (h : ∀ i, slots i = []) :
    Law n slots now [] [] := by
  intro T
  unfold pending
  split_ifs <;> simp [h]

variable {n : ℕ} {slots : ℕ → List α} {now : ℤ} {inserted removed : List (ℤ × α)}

/-- **Insertion** of an entry due inside the window, at the back of its slot. -/
theorem Law.insert (hn : 0 < n) (h : Law n slots now inserted removed) {U : ℤ}
    (hU : InWindow n now U) (a : α) :
    Law n (Function.update slots (index n U) (slots (index n U) ++ [a])) now
      (inserted ++ [(U, a)]) removed := by
  intro T
  by_cases hT : U = T
  · subst hT
    rw [pending_update_self hU, entriesAt_concat_self, ← h U, pending_of_mem hU,
      List.append_assoc]
  · rw [pending_update_of_ne hn hU hT, entriesAt_concat_of_ne hT, h T]

theorem inWindow_now (hn : 0 < n) (now : ℤ) : InWindow n now now := by
  unfold InWindow; omega

/-- **Removal** of the front of the served slot. -/
theorem Law.remove (hn : 0 < n) (h : Law n slots now inserted removed) {a : α} {l : List α}
    (hslot : slots (index n now) = a :: l) :
    Law n (Function.update slots (index n now) l) now inserted (removed ++ [(now, a)]) := by
  intro T
  have hnow := inWindow_now hn now
  by_cases hT : now = T
  · subst hT
    rw [pending_update_self hnow, entriesAt_concat_self, ← h now, pending_of_mem hnow, hslot,
      List.append_assoc, List.singleton_append]
  · rw [pending_update_of_ne hn hnow hT, entriesAt_concat_of_ne hT, h T]

/-- **Next time**, once the served slot is empty. -/
theorem Law.tick (hn : 0 < n) (h : Law n slots now inserted removed)
    (hslot : slots (index n now) = []) : Law n slots (now + 1) inserted removed := by
  intro T
  rw [← h T]
  congr 1
  have hnow := inWindow_now hn now
  by_cases hT : InWindow n now T <;> by_cases hT' : InWindow n (now + 1) T
  · rw [pending_of_mem hT, pending_of_mem hT']
  · -- `T` leaves the window: it is `now`, whose slot is empty
    have hTn : T = now := by unfold InWindow at hT hT'; omega
    rw [pending_of_not_mem hT', pending_of_mem hT, hTn, hslot]
  · -- `T` enters the window: it is `now + n`, which shares the slot of `now`
    have hTn : T = now + n := by unfold InWindow at hT hT'; omega
    have hidx : index n T = index n now := by
      unfold index; rw [hTn, Int.add_emod_right]
    rw [pending_of_mem hT', pending_of_not_mem hT, hidx, hslot]
  · rw [pending_of_not_mem hT, pending_of_not_mem hT']

/-! ## The agenda -/

/-- The entries of the `m` slots from time `t` on, in the order in which they are served. -/
def blocks (n : ℕ) (slots : ℕ → List α) : ℕ → ℤ → List (ℤ × α)
  | 0, _ => []
  | m + 1, t => (slots (index n t)).map (fun a => (t, a)) ++ blocks n slots m (t + 1)

/-- All entries of the wheel with the times of the window they stand for, in the order in which
they are served. -/
def agenda (n : ℕ) (slots : ℕ → List α) (now : ℤ) : List (ℤ × α) := blocks n slots n now

theorem mem_blocks {n m : ℕ} {slots : ℕ → List α} {t : ℤ} {e : ℤ × α} :
    e ∈ blocks n slots m t ↔ t ≤ e.1 ∧ e.1 < t + m ∧ e.2 ∈ slots (index n e.1) := by
  induction m generalizing t with
  | zero =>
    simp only [blocks, List.not_mem_nil, false_iff]
    omega
  | succ m ih =>
    unfold blocks
    rw [List.mem_append, List.mem_map, ih]
    constructor
    · rintro (⟨a, ha, rfl⟩ | ⟨h1, h2, h3⟩)
      · exact ⟨le_refl _, by simp only; omega, ha⟩
      · exact ⟨by omega, by omega, h3⟩
    · rintro ⟨h1, h2, h3⟩
      rcases h1.eq_or_lt with heq | hlt
      · exact Or.inl ⟨e.2, heq ▸ h3, Prod.ext heq rfl⟩
      · exact Or.inr ⟨by omega, by omega, h3⟩

theorem mem_agenda {e : ℤ × α} :
    e ∈ agenda n slots now ↔ InWindow n now e.1 ∧ e.2 ∈ slots (index n e.1) := by
  unfold agenda InWindow
  rw [mem_blocks, and_assoc]

theorem blocks_concat (n : ℕ) (slots : ℕ → List α) (m : ℕ) (t : ℤ) :
    blocks n slots (m + 1) t =
      blocks n slots m t ++ (slots (index n (t + m))).map fun a => (t + m, a) := by
  induction m generalizing t with
  | zero => simp [blocks]
  | succ m ih =>
    rw [blocks, ih (t + 1), ← List.append_assoc, blocks]
    rw [show t + 1 + (m : ℤ) = t + ((m + 1 : ℕ) : ℤ) by omega]

theorem blocks_update_of_lt {n m : ℕ} {t U : ℤ} (hn : 0 < n) (hU : U < t) (hm : t + m ≤ U + n)
    (slots : ℕ → List α) (l : List α) :
    blocks n (Function.update slots (index n U) l) m t = blocks n slots m t := by
  induction m generalizing t with
  | zero => rfl
  | succ m ih =>
    unfold blocks
    rw [ih (by omega) (by omega), Function.update_of_ne fun he => ?_]
    have := eq_of_index_eq hn ⟨by omega, by omega⟩ (inWindow_now hn U) he
    omega

theorem agenda_cons (hn : 0 < n) {a : α} {l : List α} (hslot : slots (index n now) = a :: l) :
    agenda n slots now = (now, a) :: agenda n (Function.update slots (index n now) l) now := by
  obtain ⟨m, rfl⟩ : ∃ m, n = m + 1 := ⟨n - 1, by omega⟩
  unfold agenda
  rw [blocks, blocks, hslot, Function.update_self,
    blocks_update_of_lt hn (by omega) (by omega)]
  rfl

/-- The agenda does not change when an empty slot is passed. -/
theorem agenda_tick (hn : 0 < n) (hslot : slots (index n now) = []) :
    agenda n slots (now + 1) = agenda n slots now := by
  obtain ⟨m, rfl⟩ : ∃ m, n = m + 1 := ⟨n - 1, by omega⟩
  have hidx : index (m + 1) (now + 1 + m) = index (m + 1) now := by
    unfold index
    rw [show now + 1 + (m : ℤ) = now + ((m + 1 : ℕ) : ℤ) by omega, Int.add_emod_right]
  unfold agenda
  rw [blocks_concat, hidx, hslot, blocks, hslot]
  simp

theorem blocks_insert {n m : ℕ} {t U : ℤ} (hn : 0 < n) (hmn : m ≤ n) (ht : t ≤ U)
    (hm : U < t + m) (slots : ℕ → List α) (a : α) :
    ∃ before after, blocks n slots m t = before ++ after ∧
      blocks n (Function.update slots (index n U) (slots (index n U) ++ [a])) m t =
        before ++ (U, a) :: after ∧ (∀ e ∈ before, e.1 ≤ U) ∧ ∀ e ∈ after, U < e.1 := by
  induction m generalizing t with
  | zero => omega
  | succ m ih =>
    rcases ht.eq_or_lt with rfl | hlt
    · refine ⟨(slots (index n t)).map fun a => (t, a), blocks n slots m (t + 1), rfl, ?_,
        fun e he => ?_, fun e he => ?_⟩
      · rw [blocks, Function.update_self, blocks_update_of_lt hn (by omega) (by omega)]
        simp
      · obtain ⟨b, -, rfl⟩ := List.mem_map.mp he
        exact le_refl _
      · have := (mem_blocks.mp he).1
        omega
    · obtain ⟨before, after, h1, h2, h3, h4⟩ := ih (by omega) (t := t + 1) (by omega) (by omega)
      have hne : index n t ≠ index n U := fun he => by
        have := eq_of_index_eq hn (inWindow_now hn t) ⟨by omega, by omega⟩ he
        omega
      refine ⟨(slots (index n t)).map (fun a => (t, a)) ++ before, after, ?_, ?_, fun e he => ?_, h4⟩
      · rw [blocks, h1, List.append_assoc]
      · rw [blocks, h2, Function.update_of_ne hne, List.append_assoc]
      · rcases List.mem_append.mp he with he | he
        · obtain ⟨b, -, rfl⟩ := List.mem_map.mp he
          exact hlt.le
        · exact h3 e he

/-- **An insertion into the window** goes behind everything due no later. -/
theorem agenda_insert (hn : 0 < n) {U : ℤ} (hU : InWindow n now U) (slots : ℕ → List α) (a : α) :
    ∃ before after, agenda n slots now = before ++ after ∧
      agenda n (Function.update slots (index n U) (slots (index n U) ++ [a])) now =
        before ++ (U, a) :: after ∧ (∀ e ∈ before, e.1 ≤ U) ∧ ∀ e ∈ after, U < e.1 :=
  blocks_insert hn (Nat.le_refl n) hU.1 hU.2 slots a

theorem exists_inWindow (hn : 0 < n) (now T : ℤ) :
    ∃ U, InWindow n now U ∧ index n U = index n T := by
  have h0 := Int.emod_nonneg (T - now) (b := (n : ℤ)) (by omega)
  have h1 := Int.emod_lt_of_pos (T - now) (b := (n : ℤ)) (by omega)
  refine ⟨now + (T - now) % n, ⟨by omega, by omega⟩, ?_⟩
  unfold index
  rw [Int.add_emod_emod, show now + (T - now) = T by omega]

theorem agenda_insert_perm (hn : 0 < n) (T : ℤ) (slots : ℕ → List α) (now : ℤ) (a : α) :
    ((agenda n (Function.update slots (index n T) (slots (index n T) ++ [a])) now).map
      Prod.snd).Perm (a :: (agenda n slots now).map Prod.snd) := by
  obtain ⟨U, hU, hidx⟩ := exists_inWindow hn now T
  obtain ⟨before, after, h1, h2, -, -⟩ := agenda_insert hn hU slots a
  rw [← hidx, h2, h1, List.map_append, List.map_append, List.map_cons]
  exact List.perm_middle

/-- Once the time has passed `T`, everything inserted for `T` has been removed at `T`. -/
theorem Law.removed_of_lt (h : Law n slots now inserted removed) {T : ℤ} (hT : T < now) :
    entriesAt T removed = entriesAt T inserted := by
  have hw : ¬ InWindow n now T := by unfold InWindow; omega
  rw [← h T, pending_of_not_mem hw, List.append_nil]

end TimingWheel

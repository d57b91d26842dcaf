import Mathlib.Data.List.Basic
import Mathlib.Data.List.Range
import Mathlib.Data.Nat.ModEq
import Mathlib.Logic.Function.Basic
import Mathlib.Tactic.SplitIfs

/-!
# Ring buffers

A ring of `n` slots is a map `f : ℕ → α` read at the slots below `n`. The entry at position `i`
counted from `head` sits in the slot `(head + i) % n`. `Represents z f n head q` says that the
ring holds exactly the list `q`, oldest entry first, and that every other slot holds the blank
value `z`. Writing the slot after the last entry appends to the list (`Represents.push`);
blanking the head slot and stepping the head, with a comparison instead of a division, removes
the oldest entry (`Represents.pop`).
-/

namespace RingBuffer

variable {α : Type*}

/-- The slot of position `i`. -/
def slot (n head i : ℕ) : ℕ := (head + i) % n

/-- The head after one step, wrapped by comparison. -/
def advance (n head : ℕ) : ℕ := if head + 1 = n then 0 else head + 1

/-- The entries at the first `k` positions, oldest first. -/
def contents (f : ℕ → α) (n head k : ℕ) : List α := (List.range k).map fun i => f (slot n head i)

theorem slot_lt {n : ℕ} (hn : 0 < n) (head i : ℕ) : slot n head i < n := Nat.mod_lt _ hn

theorem slot_zero {n head : ℕ} (h : head < n) : slot n head 0 = head := by
  unfold slot; rw [Nat.add_zero, Nat.mod_eq_of_lt h]

/-- Positions below the size of the ring sit in different slots. -/
theorem slot_inj {n head i j : ℕ} (hi : i < n) (hj : j < n)
    (h : slot n head i = slot n head j) : i = j := by
  have hmod : i ≡ j [MOD n] := Nat.ModEq.add_left_cancel' head h
  rw [Nat.ModEq, Nat.mod_eq_of_lt hi, Nat.mod_eq_of_lt hj] at hmod
  exact hmod

theorem exists_slot_eq {n head s : ℕ} (hhead : head < n) (hs : s < n) :
    ∃ i < n, slot n head i = s := by
  unfold slot
  rcases Nat.lt_or_ge s head with hlt | hge
  · refine ⟨s + n - head, by omega, ?_⟩
    rw [show head + (s + n - head) = s + n by omega, Nat.add_mod_right, Nat.mod_eq_of_lt hs]
  · exact ⟨s - head, by omega, by rw [Nat.add_sub_cancel' hge, Nat.mod_eq_of_lt hs]⟩

theorem advance_lt {n head : ℕ} (h : head < n) : advance n head < n := by
  unfold advance
  split_ifs with hn
  · exact Nat.zero_lt_of_lt h
  · exact Nat.lt_of_le_of_ne h hn

theorem slot_advance (n head i : ℕ) :
    slot n (advance n head) i = slot n head (i + 1) := by
  unfold slot advance
  split_ifs with hn
  · rw [show head + (i + 1) = n + i by omega, Nat.add_mod_left, Nat.zero_add]
  · rw [show head + 1 + i = head + (i + 1) by omega]

@[simp] theorem length_contents (f : ℕ → α) (n head k : ℕ) :
    (contents f n head k).length = k := by
  simp [contents]

theorem contents_congr {f g : ℕ → α} {n head k : ℕ}
    (h : ∀ i < k, f (slot n head i) = g (slot n head i)) :
    contents f n head k = contents g n head k :=
  List.map_congr_left fun i hi => h i (List.mem_range.mp hi)

theorem contents_succ (f : ℕ → α) (n head k : ℕ) :
    contents f n head (k + 1) = contents f n head k ++ [f (slot n head k)] := by
  simp [contents, List.range_succ]

theorem contents_cons (f : ℕ → α) {n head : ℕ} (h : head < n) (k : ℕ) :
    contents f n head (k + 1) = f head :: contents f n (advance n head) k := by
  unfold contents
  rw [List.range_succ_eq_map, List.map_cons, slot_zero h, List.map_map]
  congr 1
  exact List.map_congr_left fun i _ => by rw [Function.comp_apply, slot_advance]

theorem getElem_contents (f : ℕ → α) (n head k : ℕ) {i : ℕ}
    (hi : i < (contents f n head k).length) :
    (contents f n head k)[i] = f (slot n head i) := by
  simp [contents]

/-- The ring of `n` slots with this head holds `q` and is blank elsewhere. -/
structure Represents (z : α) (f : ℕ → α) (n head : ℕ) (q : List α) : Prop where
  head_lt : head < n
  length_le : q.length ≤ n
  contents_eq : contents f n head q.length = q
  blank : ∀ i, q.length ≤ i → i < n → f (slot n head i) = z

variable {z : α} {f : ℕ → α} {n head : ℕ} {q : List α}

namespace Represents

theorem pos (h : Represents z f n head q) : 0 < n := Nat.zero_lt_of_lt h.head_lt

theorem getElem (h : Represents z f n head q) {i : ℕ} (hi : i < q.length) :
    f (slot n head i) = q[i] := by
  have hc := getElem_contents f n head q.length (i := i) (by rw [length_contents]; exact hi)
  rw [← hc]
  simp only [h.contents_eq]

theorem head_eq {a : α} (h : Represents z f n head (a :: q)) : f head = a := by
  have h0 := h.getElem (i := 0) (Nat.zero_lt_succ _)
  rwa [slot_zero h.head_lt] at h0

/-- The entry before the first free position is the newest one. -/
theorem last_eq {a : α} (h : Represents z f n head (q ++ [a])) :
    f (slot n head q.length) = a := by
  rw [h.getElem (i := q.length) (by simp)]
  simp

theorem congr {g : ℕ → α} (hfg : ∀ i, f i = g i) (h : Represents z f n head q) :
    Represents z g n head q := by
  have : f = g := funext hfg
  exact this ▸ h

theorem empty (hf : ∀ i < n, f i = z) (h : head < n) : Represents z f n head [] where
  head_lt := h
  length_le := Nat.zero_le _
  contents_eq := rfl
  blank _ _ _ := hf _ (slot_lt (Nat.zero_lt_of_lt h) _ _)

/-- **Push.** Writing the first free slot of a ring with room appends the entry. -/
theorem push (h : Represents z f n head q) (hroom : q.length < n) (a : α) :
    Represents z (Function.update f (slot n head q.length) a) n head (q ++ [a]) where
  head_lt := h.head_lt
  length_le := by rw [List.length_append]; exact hroom
  contents_eq := by
    rw [List.length_append, List.length_singleton, contents_succ, Function.update_self]
    congr 1
    rw [← h.contents_eq, length_contents]
    refine contents_congr fun i hi => ?_
    have hne : slot n head i ≠ slot n head q.length := fun he => by
      have := slot_inj (by omega) hroom he
      omega
    rw [Function.update_of_ne hne]
  blank i hi hin := by
    rw [List.length_append, List.length_singleton] at hi
    have hne : slot n head i ≠ slot n head q.length := fun he => by
      have := slot_inj hin hroom he
      omega
    rw [Function.update_of_ne hne]
    exact h.blank i (by omega) hin

/-- **Pop.** Blanking the head slot and stepping the head removes the oldest entry. -/
theorem pop {a : α} (h : Represents z f n head (a :: q)) :
    Represents z (Function.update f head z) n (advance n head) q := by
  have hlen : q.length + 1 ≤ n := h.length_le
  have hne : ∀ i, i + 1 < n → slot n head (i + 1) ≠ head := fun i hi he => by
    have := slot_inj (i := i + 1) (j := 0) hi (by omega) (by rw [he, slot_zero h.head_lt])
    omega
  refine ⟨advance_lt h.head_lt, by omega, ?_, fun i hi hin => ?_⟩
  · have hc := h.contents_eq
    rw [List.length_cons, contents_cons f h.head_lt] at hc
    rw [← (List.cons.inj hc).2, length_contents]
    refine contents_congr fun i hi => ?_
    rw [slot_advance, Function.update_of_ne (hne i (by omega))]
  · rw [slot_advance]
    rcases Nat.lt_or_ge (i + 1) n with hlt | hge
    · rw [Function.update_of_ne (hne i hlt)]
      exact h.blank (i + 1) (by simp; omega) hlt
    · -- position `n - 1` of the shorter list is the slot just vacated
      have hi1 : i + 1 = n := by omega
      have : slot n head (i + 1) = head := by
        unfold slot
        rw [hi1, Nat.add_mod_right, Nat.mod_eq_of_lt h.head_lt]
      rw [this, Function.update_self]

end Represents

end RingBuffer

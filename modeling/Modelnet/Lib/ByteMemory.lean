import Mathlib.Data.List.Basic
import Mathlib.Data.List.GetD
import Mathlib.Logic.Function.Basic

/-!
# Byte-addressed memory

A buffer is a function from addresses to bytes. Blocks of bytes are read and written as lists; a
read depends on the bytes of its range only, and a block that has just been written is read back.
-/

/-- The bytes of a buffer. -/
abbrev ByteMemory := ℕ → UInt8

namespace ByteMemory

/-- The `n` bytes from `off` on. -/
def read (m : ByteMemory) (off n : ℕ) : List UInt8 := (List.range n).map fun i => m (off + i)

/-- The block `bs` is written at `off`. -/
def write (m : ByteMemory) (off : ℕ) (bs : List UInt8) : ByteMemory := fun i =>
  if off ≤ i ∧ i < off + bs.length then bs.getD (i - off) 0 else m i

variable {m m' : ByteMemory} {off n k : ℕ} {bs : List UInt8}

@[simp] theorem length_read (m : ByteMemory) (off n : ℕ) : (m.read off n).length = n := by
  simp [read]

@[simp] theorem read_zero (m : ByteMemory) (off : ℕ) : m.read off 0 = [] := rfl

theorem read_append (m : ByteMemory) (off n k : ℕ) :
    m.read off n ++ m.read (off + n) k = m.read off (n + k) := by
  unfold read
  rw [List.range_add, List.map_append, List.map_map]
  simp [Function.comp_def, Nat.add_assoc]

theorem read_congr (h : ∀ i, off ≤ i → i < off + n → m' i = m i) :
    m'.read off n = m.read off n := by
  apply List.map_congr_left
  intro i hi
  have hlt := List.mem_range.mp hi
  exact h (off + i) (Nat.le_add_right _ _) (Nat.add_lt_add_left hlt off)

theorem drop_read (m : ByteMemory) (off n k : ℕ) :
    (m.read off (k + n)).drop k = m.read (off + k) n := by
  rw [← read_append, List.drop_append_of_le_length (by simp), List.drop_of_length_le (by simp),
    List.nil_append]

theorem getElem_read (m : ByteMemory) (off n i : ℕ) (h : i < (m.read off n).length) :
    (m.read off n)[i] = m (off + i) := by
  simp [read]

theorem write_apply (m : ByteMemory) {i : ℕ} (h : i < bs.length) :
    m.write off bs (off + i) = bs[i] := by
  unfold write
  rw [if_pos ⟨Nat.le_add_right _ _, Nat.add_lt_add_left h off⟩, Nat.add_sub_cancel_left,
    List.getD_eq_getElem _ _ h]

theorem read_write (m : ByteMemory) (off : ℕ) (bs : List UInt8) :
    (m.write off bs).read off bs.length = bs := by
  apply List.ext_getElem (by simp)
  intro i h₁ h₂
  rw [getElem_read, write_apply m h₂]

theorem write_of_lt (m : ByteMemory) {i : ℕ} (h : i < off) : m.write off bs i = m i := by
  unfold write
  rw [if_neg fun hin => absurd hin.1 (Nat.not_le.mpr h)]

theorem read_write_of_le (m : ByteMemory) {a : ℕ} (h : a + n ≤ off) :
    (m.write off bs).read a n = m.read a n :=
  read_congr fun _ _ hlt => write_of_lt m (Nat.lt_of_lt_of_le hlt h)

theorem read_write_of_ge (m : ByteMemory) {a : ℕ} (h : off + bs.length ≤ a) :
    (m.write off bs).read a n = m.read a n := by
  refine read_congr fun i hle _ => ?_
  unfold write
  rw [if_neg fun hin => absurd (Nat.le_trans h hle) (Nat.not_le.mpr hin.2)]

/-- A block behind the one that is read may be written byte by byte. -/
theorem read_update_of_le (m : ByteMemory) {a i : ℕ} (h : a + n ≤ i) (b : UInt8) :
    ByteMemory.read (Function.update m i b) a n = m.read a n :=
  read_congr fun _ _ hlt => Function.update_of_ne (Nat.ne_of_lt (Nat.lt_of_lt_of_le hlt h)) _ _

theorem read_update (m : ByteMemory) (off n i : ℕ) (b : UInt8) :
    ByteMemory.read (Function.update m (off + i) b) off n = (m.read off n).set i b := by
  apply List.ext_getElem (by simp)
  intro j h₁ h₂
  rw [getElem_read, List.getElem_set, getElem_read]
  by_cases hj : i = j
  · subst hj
    rw [if_pos rfl]
    exact Function.update_self _ _ _
  · rw [if_neg hj]
    exact Function.update_of_ne (by omega) _ _

theorem read_modify (m : ByteMemory) (off n i : ℕ) (f : UInt8 → UInt8) :
    ByteMemory.read (Function.update m (off + i) (f (m (off + i)))) off n =
      (m.read off n).modify i f := by
  rw [read_update]
  apply List.ext_getElem (by simp)
  intro j h₁ h₂
  rw [List.getElem_set, List.getElem_modify, getElem_read]
  by_cases hj : i = j
  · rw [if_pos hj, if_pos hj, hj]
  · rw [if_neg hj, if_neg hj]

end ByteMemory

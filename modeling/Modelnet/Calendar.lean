import Modelnet.Lib.Wheel

/-!
# The packet calendar

A circular array of `SCHEDLEN` packet lists, one for each clock tick. A packet due at tick `due`
is filed in the slot `due & SCHEDMASK`, whatever the width of the unsigned tick counter, so the
calendar is a timing wheel of `SCHEDLEN` slots.
-/

namespace Modelnet

def schedBits : ℕ := 14

/-- `SCHEDLEN`: the number of slots in the scheduling array. -/
def schedLen : ℕ := 2 ^ schedBits

def schedMask : ℕ := schedLen - 1

def calendarSlot (due : ℤ) : ℕ := TimingWheel.index schedLen due

theorem schedLen_pos : 0 < schedLen := by decide

theorem calendarSlot_lt (due : ℤ) : calendarSlot due < schedLen := by
  unfold calendarSlot TimingWheel.index
  have hpos : (0 : ℤ) < schedLen := Int.natCast_pos.mpr schedLen_pos
  have hnonneg := Int.emod_nonneg due hpos.ne'
  have hlt := Int.emod_lt_of_pos due hpos
  omega

/-- The mask of the source takes the residue, in every word of at least `SCHEDBITS` bits. -/
theorem land_schedMask {w : ℕ} (hw : schedBits ≤ w) (due : ℤ) :
    (BitVec.ofInt w due &&& BitVec.ofNat w schedMask).toNat = calendarSlot due := by
  have hpow : schedLen ≤ 2 ^ w := Nat.pow_le_pow_right (by decide) hw
  have hpos : schedMask < schedLen := by decide
  have hdvd : ((schedLen : ℕ) : ℤ) ∣ ((2 ^ w : ℕ) : ℤ) :=
    Int.natCast_dvd_natCast.mpr (pow_dvd_pow 2 hw)
  have hnonneg : 0 ≤ due % ((2 ^ w : ℕ) : ℤ) := Int.emod_nonneg _ (Int.natCast_ne_zero.mpr (Nat.two_pow_pos w).ne')
  rw [BitVec.toNat_and, BitVec.toNat_ofInt, BitVec.toNat_ofNat,
    Nat.mod_eq_of_lt (hpos.trans_le hpow)]
  show (due % ((2 ^ w : ℕ) : ℤ)).toNat &&& (2 ^ schedBits - 1) = (due % ((schedLen : ℕ) : ℤ)).toNat
  rw [Nat.and_two_pow_sub_one_eq_mod, ← Int.emod_emod_of_dvd due hdvd,
    Int.toNat_emod hnonneg (Int.natCast_nonneg _)]
  rfl

end Modelnet

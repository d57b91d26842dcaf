import Modelnet.Lib.Lagged
import Modelnet.Linux.Kernel
import Mathlib.Tactic.NormNum

/-!
# Random bits

`random_seed` and `random_bits` of `ip_modelnet.c`: the generator behind the packet loss and the
rounding of delays. The words are kept in one array and regenerated in place, in three ranges of
indices. This file compares the generator with the recurrence of MT19937 on an infinite sequence.
Words have 32 bits; the arithmetic in `unsigned long` is cut to them by the assignments.
-/

namespace Modelnet.Linux

open Modelnet

def mersN : ℕ := 624

def mersM : ℕ := 397

def mersR : ℕ := 31

def mersU : ℕ := 11

def mersS : ℕ := 7

def mersT : ℕ := 15

def mersL : ℕ := 18

def mersA : BitVec 32 := 0x9908B0DF

def mersB : BitVec 32 := 0x9D2C5680

def mersC : BitVec 32 := 0xEFC60000

def lowerMask : BitVec 32 := (1#32 <<< mersR) - 1

def upperMask : BitVec 32 := (-1#32) <<< mersR

def mag01 (i : BitVec 32) : BitVec 32 := if i = 0 then 0 else mersA

/-- `mt` and `mti`. -/
structure Mersenne where
  mt : ℕ → BitVec 32
  mti : ℕ

namespace Mersenne

/-- One turn of the loop of `random_seed`. -/
def seedWord (i : ℕ) (mt : ℕ → BitVec 32) : BitVec 32 :=
  1812433253#32 * (mt (i - 1) ^^^ mt (i - 1) >>> 30) + BitVec.ofNat 32 i

def randomSeed (s : Mersenne) (seed : BitVec 32) : Mersenne where
  mt := (List.range' 1 (mersN - 1)).foldl (fun mt i => Function.update mt i (seedWord i mt))
    (Function.update s.mt 0 seed)
  mti := mersN

/-- The word that is written in place of `word`, with the word behind it and the one ahead. -/
def newWord (word next ahead : BitVec 32) : BitVec 32 :=
  let y := (word &&& upperMask) ||| (next &&& lowerMask)
  ahead ^^^ (y >>> 1) ^^^ mag01 (y &&& 1)

/-- The first loop of `random_bits`: the word ahead is an old one. -/
def generateLow (mt : ℕ → BitVec 32) : ℕ → BitVec 32 :=
  (List.range' 0 (mersN - mersM)).foldl (fun mt kk =>
    Function.update mt kk (newWord (mt kk) (mt (kk + 1)) (mt (kk + mersM)))) mt

/-- The second loop: the word ahead is a new one. -/
def generateHigh (mt : ℕ → BitVec 32) : ℕ → BitVec 32 :=
  (List.range' (mersN - mersM) (mersM - 1)).foldl (fun mt kk =>
    Function.update mt kk (newWord (mt kk) (mt (kk + 1)) (mt (kk + mersM - mersN)))) mt

/-- The lines behind the loops: the next word is a new one, too. -/
def generateLast (mt : ℕ → BitVec 32) : ℕ → BitVec 32 :=
  Function.update mt (mersN - 1) (newWord (mt (mersN - 1)) (mt 0) (mt (mersM - 1)))

/-- The lines of `random_bits` that generate `MERS_N` words at one time. -/
def generate (mt : ℕ → BitVec 32) : ℕ → BitVec 32 := generateLast (generateHigh (generateLow mt))

def temper (y : BitVec 32) : BitVec 32 :=
  let y := y ^^^ y >>> mersU
  let y := y ^^^ (y <<< mersS &&& mersB)
  let y := y ^^^ (y <<< mersT &&& mersC)
  y ^^^ y >>> mersL

def randomBits (s : Mersenne) : BitVec 32 × Mersenne :=
  let s := if mersN ≤ s.mti then { mt := generate s.mt, mti := 0 } else s
  (temper (s.mt s.mti), { s with mti := s.mti + 1 })

/-- The generator after `n` calls of `random_bits`. -/
def after (s : Mersenne) : ℕ → Mersenne
  | 0 => s
  | n + 1 => (s.after n).randomBits.2

/-- The values that `random_bits` is going to return. -/
def stream (s : Mersenne) (n : ℕ) : BitVec 32 := (s.after n).randomBits.1

end Mersenne

/-! ## The recurrence -/

/-- The upper bit of one word and the 31 lower bits of the next. -/
def spliced (u l : BitVec 32) : BitVec 32 := u.extractLsb' 31 1 ++ l.extractLsb' 0 31

/-- The linear map of the recurrence. -/
def twist (y : BitVec 32) : BitVec 32 := (y >>> 1) ^^^ if y.getLsbD 0 then mersA else 0

/-- **MT19937**: the infinite sequence of words that a seed starts. -/
def mersSeq (seed : BitVec 32) : ℕ → BitVec 32
  | 0 => seed
  | i + 1 =>
    if i + 1 < 624 then
      1812433253#32 * (mersSeq seed i ^^^ mersSeq seed i >>> 30) + BitVec.ofNat 32 (i + 1)
    else mersSeq seed (i + 1 - 624 + 397) ^^^
      twist (spliced (mersSeq seed (i + 1 - 624)) (mersSeq seed (i + 1 - 624 + 1)))
termination_by i => i
decreasing_by all_goals omega

variable {seed : BitVec 32}

theorem mersSeq_zero : mersSeq seed 0 = seed := by rw [mersSeq]

theorem mersSeq_seed {i : ℕ} (hi : 0 < i) (hlt : i < mersN) :
    mersSeq seed i = 1812433253#32 * (mersSeq seed (i - 1) ^^^ mersSeq seed (i - 1) >>> 30) +
      BitVec.ofNat 32 i := by
  obtain ⟨i, rfl⟩ := Nat.exists_eq_succ_of_ne_zero hi.ne'
  rw [mersSeq, if_pos (show i + 1 < 624 from hlt)]
  rfl

theorem mersSeq_add (k : ℕ) :
    mersSeq seed (k + mersN) = mersSeq seed (k + mersM) ^^^
      twist (spliced (mersSeq seed k) (mersSeq seed (k + 1))) := by
  show mersSeq seed ((k + 623) + 1) = _
  rw [mersSeq, if_neg (by omega), show k + 623 + 1 - 624 = k by omega]
  rfl

/-! ## One word -/

theorem getLsbD_lowerMask (i : ℕ) : lowerMask.getLsbD i = decide (i < 31) := by
  have hmask : lowerMask = (BitVec.allOnes 31).setWidth 32 := by decide
  rw [hmask, BitVec.getLsbD_setWidth, BitVec.getLsbD_allOnes]
  by_cases hi : i < 31 <;> simp [hi]
  omega

theorem getLsbD_upperMask (i : ℕ) : upperMask.getLsbD i = decide (i = 31) := by
  have hmask : upperMask = BitVec.twoPow 32 31 := by decide
  rw [hmask, BitVec.getLsbD_twoPow]
  by_cases hi : i = 31 <;> simp [hi]
  omega

theorem getLsbD_spliced (u l : BitVec 32) {i : ℕ} (hi : i < 32) :
    (spliced u l).getLsbD i = if i < 31 then l.getLsbD i else u.getLsbD i := by
  have happend : (u.extractLsb' 31 1 ++ l.extractLsb' 0 31 : BitVec 32).getLsbD i = _ :=
    BitVec.getLsbD_append
  unfold spliced
  rw [happend]
  by_cases hlow : i < 31
  · simp [hlow]
  · have htop : i = 31 := by omega
    simp [htop]

/-- The masks of the source splice two words. -/
theorem masks_eq (u l : BitVec 32) : (u &&& upperMask) ||| (l &&& lowerMask) = spliced u l := by
  apply BitVec.eq_of_getLsbD_eq
  intro i hi
  rw [BitVec.getLsbD_or, BitVec.getLsbD_and, BitVec.getLsbD_and, getLsbD_lowerMask,
    getLsbD_upperMask, getLsbD_spliced u l hi]
  by_cases hlow : i < 31
  · simp [hlow, hlow.ne]
  · have htop : i = 31 := by omega
    simp [htop]

theorem mag01_eq (y : BitVec 32) : mag01 (y &&& 1) = if y.getLsbD 0 then mersA else 0 := by
  have hbit : y &&& 1 = (BitVec.ofBool (y.getLsbD 0)).setWidth 32 :=
    BitVec.and_one_eq_setWidth_ofBool_getLsbD
  unfold mag01
  rw [hbit]
  cases y.getLsbD 0 <;> rfl

theorem newWord_eq (word next ahead : BitVec 32) :
    Mersenne.newWord word next ahead = ahead ^^^ twist (spliced word next) := by
  unfold Mersenne.newWord twist
  dsimp only
  rw [masks_eq, mag01_eq, BitVec.xor_assoc]

theorem mersSeq_recurrence (seed : BitVec 32) :
    Lagged.Recurrence mersN mersM Mersenne.newWord (mersSeq seed) := by
  intro k
  rw [newWord_eq, mersSeq_add]

/-! ## The array -/

namespace Mersenne

variable {s : Mersenne} {mt : ℕ → BitVec 32} {b : ℕ}

/-- The array holds the words from `b` on. -/
def Holds (seed : BitVec 32) (b : ℕ) (mt : ℕ → BitVec 32) : Prop :=
  Lagged.Window mersN (mersSeq seed) b 0 mt

theorem seedLoop (seed : BitVec 32) (mt : ℕ → BitVec 32) {count : ℕ} (hcount : count < mersN) :
    ∀ i ≤ count, (List.range' 1 count).foldl (fun mt i => Function.update mt i (seedWord i mt))
      (Function.update mt 0 seed) i = mersSeq seed i := by
  induction count with
  | zero =>
    intro i hi
    cases Nat.le_zero.mp hi
    exact (Function.update_self ..).trans mersSeq_zero.symm
  | succ count ih =>
    intro i hi
    have hwords := ih (Nat.lt_of_succ_lt hcount)
    rw [List.range'_1_concat, List.foldl_concat]
    by_cases hlast : i = 1 + count
    · subst hlast
      rw [Function.update_self, seedWord, mersSeq_seed (by omega) (by omega),
        hwords (1 + count - 1) (by omega)]
    · rw [Function.update_of_ne hlast]
      exact hwords i (by omega)

theorem holds_randomSeed (s : Mersenne) (seed : BitVec 32) :
    Holds seed 0 (s.randomSeed seed).mt := by
  have hwords := seedLoop seed s.mt (show mersN - 1 < mersN by decide)
  refine Lagged.window_zero.mpr fun i hi => ?_
  rw [Nat.zero_add]
  unfold randomSeed
  dsimp only
  exact hwords i (Nat.le_pred_of_lt hi)

/-- The first `j` words have been replaced by those a block further on. -/
def Replaced (seed : BitVec 32) (b j : ℕ) (mt : ℕ → BitVec 32) : Prop :=
  Lagged.Window mersN (mersSeq seed) b j mt

/-- The new word at `k`, with its neighbours around the end of the array. -/
theorem Replaced.next {k : ℕ} (h : Replaced seed b k mt) (hk : k < mersN) :
    newWord (mt k) (mt ((k + 1) % mersN)) (mt ((k + mersM) % mersN)) =
      mersSeq seed (b + mersN + k) :=
  Lagged.Window.next h (mersSeq_recurrence seed) hk (by decide) (by decide)

theorem Replaced.generateLow (h : Replaced seed b 0 mt) :
    Replaced seed b (mersN - mersM) (generateLow mt) := by
  have hrange : 0 + (mersN - mersM) = mersN - mersM := Nat.zero_add _
  rw [← hrange]
  refine Lagged.Window.foldl _ h fun k a _ hk ha => ?_
  have hk' : k + mersM < mersN := by unfold mersN mersM at *; omega
  have hnext := Replaced.next ha (Nat.lt_of_le_of_lt (Nat.le_add_right k mersM) hk')
  rwa [Nat.mod_eq_of_lt hk', Nat.mod_eq_of_lt (by unfold mersN mersM at *; omega)] at hnext

theorem Replaced.generateHigh (h : Replaced seed b (mersN - mersM) mt) :
    Replaced seed b (mersN - 1) (generateHigh mt) := by
  have hrange : mersN - mersM + (mersM - 1) = mersN - 1 := by decide
  rw [← hrange]
  refine Lagged.Window.foldl _ h fun k a hlo hk ha => ?_
  have hk' : k + 1 < mersN := by unfold mersN mersM at *; omega
  have hwrap : (k + mersM) % mersN = k + mersM - mersN := by unfold mersN mersM at *; omega
  have hnext := Replaced.next ha (Nat.lt_of_succ_lt hk')
  rwa [Nat.mod_eq_of_lt hk', hwrap] at hnext

theorem Replaced.generateLast (h : Replaced seed b (mersN - 1) mt) :
    Replaced seed b mersN (generateLast mt) := by
  have hlast : mersN - 1 + 1 = mersN := by decide
  have hnext := h.next (by decide)
  have hwrap : (mersN - 1 + mersM) % mersN = mersM - 1 := by decide
  rw [hlast, Nat.mod_self, hwrap] at hnext
  exact hlast ▸ Lagged.Window.step h hnext

/-- **One block.** The three ranges replace every word by the one a block further on. -/
theorem Holds.generate (h : Holds seed b mt) : Holds seed (b + mersN) (generate mt) :=
  Lagged.Window.full (Replaced.generateLast (Replaced.generateHigh (Replaced.generateLow h)))

/-! ## Draws -/

/-- The generator is going to return the words from `n` on. -/
structure At (seed : BitVec 32) (n : ℕ) (s : Mersenne) : Prop where
  full : s.mti ≤ mersN
  holds : ∃ b, b + s.mti = n ∧ Holds seed b s.mt

theorem at_randomSeed (s : Mersenne) (seed : BitVec 32) : At seed mersN (s.randomSeed seed) where
  full := Nat.le_refl _
  holds := ⟨0, Nat.zero_add _, holds_randomSeed s seed⟩

/-- A word that has been generated is tempered and passed. -/
theorem randomBits_of_lt {n : ℕ} (hmti : s.mti < mersN) (hb : b + s.mti = n)
    (h : Holds seed b s.mt) :
    temper (s.mt s.mti) = temper (mersSeq seed n) ∧
      At seed (n + 1) { s with mti := s.mti + 1 } := by
  refine ⟨?_, hmti, b, ?_, h⟩
  · rw [Lagged.window_zero.mp h s.mti hmti, hb]
  · dsimp only
    omega

theorem At.randomBits {n : ℕ} (h : At seed n s) :
    s.randomBits.1 = temper (mersSeq seed n) ∧ At seed (n + 1) s.randomBits.2 := by
  obtain ⟨hfull, b, hb, hholds⟩ := h
  unfold Mersenne.randomBits
  by_cases hmti : mersN ≤ s.mti
  · simp only [if_pos hmti]
    have hmti' : s.mti = mersN := Nat.le_antisymm hfull hmti
    have hb' : b + mersN + 0 = n := by rw [Nat.add_zero, ← hmti', hb]
    have hpos : 0 < mersN := by decide
    have hblock : Holds seed (b + mersN) (generate s.mt) := hholds.generate
    have hdraw := randomBits_of_lt (s := ⟨generate s.mt, 0⟩) hpos hb' hblock
    dsimp only at hdraw
    exact hdraw
  · simp only [if_neg hmti]
    exact randomBits_of_lt (Nat.lt_of_not_le hmti) hb hholds

theorem At.after {n : ℕ} (h : At seed n s) (i : ℕ) : At seed (n + i) (s.after i) := by
  induction i with
  | zero => exact h
  | succ i ih => exact ih.randomBits.2

/-! ## The values of the kernel -/

theorem after_randomBits (s : Mersenne) (n : ℕ) : s.randomBits.2.after n = s.after (n + 1) := by
  induction n with
  | zero => rfl
  | succ n ih =>
    show (s.randomBits.2.after n).randomBits.2 = (s.after (n + 1)).randomBits.2
    rw [ih]

/-- A kernel whose values come from the generator draws as the generator does. -/
theorem drawRandom_stream {k : Kernel} (h : k.random = fun n => (s.stream n).toNat) :
    k.random 0 = s.randomBits.1.toNat ∧
      k.drawRandom.random = fun n => (s.randomBits.2.stream n).toNat := by
  refine ⟨by rw [h]; rfl, ?_⟩
  funext n
  show k.random (n + 1) = _
  rw [h]
  unfold stream
  rw [after_randomBits]

/-- **The generator is MT19937**: after `random_seed`, the values of `random_bits` are the tempered
words of the recurrence, without a gap at the borders of the blocks. -/
theorem stream_randomSeed (s : Mersenne) (seed : BitVec 32) (n : ℕ) :
    (s.randomSeed seed).stream n = temper (mersSeq seed (mersN + n)) :=
  ((at_randomSeed s seed).after n).randomBits.1

end Mersenne

end Modelnet.Linux

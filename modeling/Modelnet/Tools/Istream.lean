import Modelnet.Tools.GraphText

/-!
# Integers from a stream

`in >> i` skips white space and reads the longest number there is. Without a digit, or with a number
that is no `int`, the stream fails, and every later extraction fails too. So what a program gets
from a stream by extracting one `int` after the other is a list, whatever it does in between.
-/

namespace Modelnet.Tools

/-- A value of type `int`. -/
def IsInt (z : ℤ) : Prop := -2 ^ 31 ≤ z ∧ z < 2 ^ 31

instance (z : ℤ) : Decidable (IsInt z) := inferInstanceAs (Decidable (_ ∧ _))

/-- The digits at the front of the text as a number with the given sign. -/
def extractNumber (neg : Bool) (cs : List Char) : Option (ℤ × List Char) :=
  let digits := cs.takeWhile Char.isDigit
  let n : ℤ := Nat.ofDigitChars 10 digits 0
  let z := if neg then -n else n
  if digits ≠ [] ∧ IsInt z then some (z, cs.dropWhile Char.isDigit) else none

/-- `in >> i` for an `int`. `none` is a stream that has failed. -/
def extractInt (cs : List Char) : Option (ℤ × List Char) :=
  match cs.dropWhile isspace with
  | '-' :: rest => extractNumber true rest
  | '+' :: rest => extractNumber false rest
  | rest => extractNumber false rest

/-- `n` extractions, as far as they succeed. -/
def extractLoop : ℕ → List Char → List ℤ
  | 0, _ => []
  | n + 1, cs =>
    match extractInt cs with
    | none => []
    | some (z, rest) => z :: extractLoop n rest

/-- All integers that successive extractions give. -/
def ints (cs : List Char) : List ℤ := extractLoop cs.length cs

/-! ## One extraction -/

variable {cs rest : List Char} {z : ℤ}

theorem length_extractNumber {neg : Bool} (h : extractNumber neg cs = some (z, rest)) :
    IsInt z ∧ rest.length < cs.length := by
  unfold extractNumber at h
  dsimp only at h
  obtain ⟨hok, heq⟩ := Option.ite_none_right_eq_some.mp h
  cases heq
  refine ⟨hok.2, ?_⟩
  have hlen := congrArg List.length (List.takeWhile_append_dropWhile (p := Char.isDigit) (l := cs))
  have hpos := List.length_pos_iff.mpr hok.1
  rw [List.length_append] at hlen
  omega

/-- An extraction gives an `int` and takes at least one character. -/
theorem length_extractInt (h : extractInt cs = some (z, rest)) :
    IsInt z ∧ rest.length < cs.length := by
  have hle := (List.dropWhile_sublist (l := cs) isspace).length_le
  unfold extractInt at h
  split at h
  · next heq =>
    obtain ⟨hz, hlt⟩ := length_extractNumber h
    rw [heq, List.length_cons] at hle
    exact ⟨hz, by omega⟩
  · next heq =>
    obtain ⟨hz, hlt⟩ := length_extractNumber h
    rw [heq, List.length_cons] at hle
    exact ⟨hz, by omega⟩
  · obtain ⟨hz, hlt⟩ := length_extractNumber h
    exact ⟨hz, by omega⟩

theorem extractInt_space {c : Char} (hc : isspace c = true) (cs : List Char) :
    extractInt (c :: cs) = extractInt cs := by
  unfold extractInt
  rw [List.dropWhile_cons, if_pos hc]

theorem extractNumber_toDigits (neg : Bool) (n : ℕ) {c : Char} (hc : c.isDigit = false)
    (rest : List Char) : extractNumber neg (Nat.toDigits 10 n ++ c :: rest) =
      if IsInt (if neg then -(n : ℤ) else n) then
        some (if neg then -(n : ℤ) else n, c :: rest) else none := by
  have hdigit : ∀ d ∈ Nat.toDigits 10 n, d.isDigit = true := fun d hd =>
    Nat.isDigit_of_mem_toDigits (by decide) (by decide) hd
  have htake : (Nat.toDigits 10 n ++ c :: rest).takeWhile Char.isDigit = Nat.toDigits 10 n := by
    rw [List.takeWhile_append_of_pos hdigit, List.takeWhile_cons, hc]
    exact List.append_nil _
  have hdrop : (Nat.toDigits 10 n ++ c :: rest).dropWhile Char.isDigit = c :: rest := by
    rw [List.dropWhile_append_of_pos hdigit, List.dropWhile_cons, hc]
    rfl
  have hne : Nat.toDigits 10 n ≠ [] := Nat.toDigits_ne_nil
  unfold extractNumber
  dsimp only
  rw [htake, hdrop, Nat.ofDigitChars_ten_toDigits]
  refine if_congr (and_iff_right hne) rfl rfl

/-- **An integer is extracted as it was printed** if it is an `int`, and the stream fails if it is
not. -/
theorem extractInt_printInt (z : ℤ) {c : Char} (hc : c.isDigit = false) (rest : List Char) :
    extractInt (printInt z ++ c :: rest) = if IsInt z then some (z, c :: rest) else none := by
  unfold printInt
  by_cases hneg : z < 0
  · rw [if_pos hneg, List.cons_append]
    have hspace : isspace '-' = false := by decide
    have hz : -((z.natAbs : ℕ) : ℤ) = z := by omega
    unfold extractInt
    rw [List.dropWhile_cons, hspace, if_neg Bool.false_ne_true]
    show extractNumber true (Nat.toDigits 10 z.natAbs ++ c :: rest) = _
    rw [extractNumber_toDigits true _ hc, if_pos rfl, hz]
  · rw [if_neg hneg]
    -- the first digit is neither white space nor a sign
    obtain ⟨d, ds, hds⟩ := List.exists_cons_of_ne_nil (Nat.toDigits_ne_nil (n := z.natAbs) (b := 10))
    have hdigit : d.isDigit = true :=
      Nat.isDigit_of_mem_toDigits (by decide) (by decide) (hds ▸ List.mem_cons_self)
    have hspace : isspace d = false := isspace_of_isDigit hdigit
    have hminus : d ≠ '-' := by rintro rfl; exact absurd hdigit (by decide)
    have hplus : d ≠ '+' := by rintro rfl; exact absurd hdigit (by decide)
    have hz : ((z.natAbs : ℕ) : ℤ) = z := by omega
    have hnumber := extractNumber_toDigits false z.natAbs hc rest
    rw [if_neg Bool.false_ne_true, hz] at hnumber
    rw [← hnumber, hds]
    unfold extractInt
    rw [List.cons_append, List.dropWhile_cons, hspace, if_neg Bool.false_ne_true]
    split
    · next h => exact absurd (List.cons.inj h).1 hminus
    · next h => exact absurd (List.cons.inj h).1 hplus
    · rfl

/-! ## All extractions -/

theorem extractLoop_eq {n m : ℕ} (hn : cs.length ≤ n) (hm : cs.length ≤ m) :
    extractLoop n cs = extractLoop m cs := by
  induction n generalizing m cs with
  | zero =>
    have hnil : cs = [] := List.length_eq_zero_iff.mp (by omega)
    subst hnil
    cases m <;> rfl
  | succ n ih =>
    cases m with
    | zero =>
      have hnil : cs = [] := List.length_eq_zero_iff.mp (by omega)
      subst hnil
      rfl
    | succ m =>
      rw [extractLoop, extractLoop]
      cases h : extractInt cs with
      | none => rfl
      | some r =>
        have hlt := (length_extractInt h).2
        exact congrArg (r.1 :: ·) (ih (by omega) (by omega))

theorem ints_of_none (h : extractInt cs = none) : ints cs = [] := by
  unfold ints
  cases cs with
  | nil => rfl
  | cons c cs => rw [List.length_cons, extractLoop, h]

theorem ints_of_some (h : extractInt cs = some (z, rest)) : ints cs = z :: ints rest := by
  have hlt := (length_extractInt h).2
  obtain ⟨n, hn⟩ := Nat.exists_eq_add_of_lt (Nat.zero_lt_of_lt hlt)
  rw [Nat.zero_add] at hn
  unfold ints
  rw [hn, extractLoop, h]
  exact congrArg (z :: ·) (extractLoop_eq (by omega) (Nat.le_refl _))

theorem ints_space {c : Char} (hc : isspace c = true) (cs : List Char) :
    ints (c :: cs) = ints cs := by
  cases h : extractInt cs with
  | none => rw [ints_of_none h, ints_of_none ((extractInt_space hc cs).trans h)]
  | some r => rw [ints_of_some h, ints_of_some ((extractInt_space hc cs).trans h)]

theorem isInt_of_mem_ints {x : ℤ} (h : x ∈ ints cs) : IsInt x := by
  unfold ints at h
  generalize cs.length = n at h
  induction n generalizing cs with
  | zero => exact absurd h List.not_mem_nil
  | succ n ih =>
    rw [extractLoop] at h
    cases hc : extractInt cs with
    | none => rw [hc] at h; exact absurd h List.not_mem_nil
    | some r =>
      rw [hc] at h
      rcases List.mem_cons.mp h with rfl | h
      · exact (length_extractInt hc).1
      · exact ih h

theorem ints_printInt (z : ℤ) {c : Char} (hc : c.isDigit = false) (rest : List Char) :
    ints (printInt z ++ c :: rest) = (z :: ints (c :: rest)).takeWhile (IsInt ·) := by
  have hall : (ints (c :: rest)).takeWhile (IsInt ·) = ints (c :: rest) :=
    List.takeWhile_eq_self_iff.mpr fun x hx => decide_eq_true (isInt_of_mem_ints hx)
  have hextract := extractInt_printInt z hc rest
  rw [List.takeWhile_cons]
  by_cases hz : IsInt z
  · rw [if_pos hz] at hextract
    rw [if_pos (decide_eq_true hz), hall, ints_of_some hextract]
  · rw [if_neg hz] at hextract
    rw [if_neg (by rwa [decide_eq_true_iff]), ints_of_none hextract]

/-- Integers, each behind a blank. -/
def blankInts (zs : List ℤ) : List Char := zs.flatMap fun z => ' ' :: printInt z

theorem takeWhile_append_takeWhile {α : Type*} (p : α → Bool) (xs ys : List α) :
    (xs ++ ys.takeWhile p).takeWhile p = (xs ++ ys).takeWhile p := by
  induction xs with
  | nil => exact List.takeWhile_idem
  | cons x xs ih =>
    rw [List.cons_append, List.cons_append, List.takeWhile_cons, ih, List.takeWhile_cons]

theorem ints_blankInts (zs : List ℤ) (rest : List Char) :
    ints (blankInts zs ++ '\n' :: rest) = (zs ++ ints rest).takeWhile (IsInt ·) := by
  induction zs with
  | nil =>
    show ints ('\n' :: rest) = (ints rest).takeWhile (IsInt ·)
    rw [ints_space (by decide)]
    exact (List.takeWhile_eq_self_iff.mpr fun x hx => decide_eq_true (isInt_of_mem_ints hx)).symm
  | cons z zs ih =>
    obtain ⟨c, cs, hcs, hc⟩ : ∃ c cs, blankInts zs ++ '\n' :: rest = c :: cs ∧ c.isDigit = false := by
      cases zs with
      | nil => exact ⟨_, _, rfl, by decide⟩
      | cons z' zs => exact ⟨_, _, rfl, by decide⟩
    have htext : blankInts (z :: zs) ++ '\n' :: rest = ' ' :: (printInt z ++ c :: cs) := by
      rw [← hcs]
      simp [blankInts]
    rw [htext, ints_space (by decide), ints_printInt z hc, ← hcs, ih, List.cons_append,
      List.takeWhile_cons, List.takeWhile_idem, List.takeWhile_cons]

/-- The same without the blank at the beginning of the line. -/
theorem ints_line (z : ℤ) (zs : List ℤ) (rest : List Char) :
    ints (printInt z ++ blankInts zs ++ '\n' :: rest) =
      (z :: zs ++ ints rest).takeWhile (IsInt ·) := by
  have hblank : isspace ' ' = true := by decide
  rw [← ints_blankInts, ← ints_space hblank]
  simp [blankInts]

end Modelnet.Tools

import Mathlib.Algebra.Order.Field.Rat
import Mathlib.Data.List.DropRight
import Mathlib.Tactic.FieldSimp
import Mathlib.Tactic.NormNum
import Mathlib.Tactic.Ring
import Modelnet.Tools.Istream

/-!
# `makedynamic`

`makedynamic` reads a list of clients with their stages: the client, how many stages it has, and for
each of them the time when it starts, the number of its targets and the targets. All of these are
extracted from one stream, so nothing tells where a line ends. The vector of the targets and the
time are those of one variable, and are overwritten. Times are decimal fractions of four digits,
printed and read without loss, so a `double` is a rational number here.
-/

namespace Modelnet.Tools

/-! ## Times -/

/-- The value of the digits after the point. -/
def fraction (digits : List Char) : ℚ := Nat.ofDigitChars 10 digits 0 / 10 ^ digits.length

/-- The four digits of a number of ten-thousandths. -/
def fourDigits (k : ℕ) : List Char :=
  [(k / 1000 % 10).digitChar, (k / 100 % 10).digitChar, (k / 10 % 10).digitChar,
    (k % 10).digitChar]

/-- What `<<` writes for a number of ten-thousandths below 1: no zeros at the end. -/
def printTime (k : ℕ) : List Char :=
  if k = 0 then ['0'] else '0' :: '.' :: (fourDigits k).rdropWhile (· = '0')

/-- The digits around the point as a number with the given sign. -/
def extractFraction (neg : Bool) (cs : List Char) : Option (ℚ × List Char) :=
  let digits := cs.takeWhile Char.isDigit
  let n : ℚ := Nat.ofDigitChars 10 digits 0
  let (q, decimals, rest) :=
    match cs.dropWhile Char.isDigit with
    | '.' :: rest =>
      (n + fraction (rest.takeWhile Char.isDigit), rest.takeWhile Char.isDigit,
        rest.dropWhile Char.isDigit)
    | rest => (n, [], rest)
  if digits ++ decimals = [] then none else some (if neg then -q else q, rest)

/-- `in >> d` for a `double`; exponents are left out. -/
def extractDouble (cs : List Char) : Option (ℚ × List Char) :=
  match cs.dropWhile isspace with
  | '-' :: rest => extractFraction true rest
  | '+' :: rest => extractFraction false rest
  | rest => extractFraction false rest

/-! ## The loop -/

structure CommStage where
  targets : List ℤ
  when : ℚ
  deriving DecidableEq

/-- What an extraction that fails leaves in its variable, from its value and the input, which
depends on the library, and what is in a variable that has not been set. -/
structure Leftover where
  int : ℤ → Option (List Char) → ℤ
  double : ℚ → Option (List Char) → ℚ
  unset : ℤ

/-- The stream, `none` when it has failed, with the variable `stage` and the map `stages`. -/
structure CommMap where
  input : Option (List Char)
  stage : CommStage
  stages : SortedMap ℤ (List CommStage)

section

variable (left : Leftover)

/-- `commMapFile >> i`. -/
def readInt (i : ℤ) : Option (List Char) → ℤ × Option (List Char)
  | none => (left.int i none, none)
  | some cs =>
    match extractInt cs with
    | none => (left.int i (some cs), none)
    | some (i, rest) => (i, some rest)

/-- `commMapFile >> d`. -/
def readDouble (d : ℚ) : Option (List Char) → ℚ × Option (List Char)
  | none => (left.double d none, none)
  | some cs =>
    match extractDouble cs with
    | none => (left.double d (some cs), none)
    | some (d, rest) => (d, some rest)

/-- `while (n>0) commMapFile >> stage.targets[--n];` -/
def readTargets : ℕ → List ℤ → Option (List Char) → List ℤ × Option (List Char)
  | 0, targets, input => (targets, input)
  | n + 1, targets, input =>
    let (target, input) := readInt left (targets[n]?.getD 0) input
    readTargets n (targets.set n target) input

def resize (targets : List ℤ) (n : ℕ) : List ℤ :=
  targets.take n ++ List.replicate (n - targets.length) 0

/-- The body of the loop over the stages, with `n`; `none` where `resize` throws. -/
def readStage (sender n : ℤ) (c : CommMap) : Option CommMap :=
  let (when, input) := readDouble left c.stage.when c.input
  let (n, input) := readInt left n input
  if n < 0 then none
  else
    let (targets, input) := readTargets left n.toNat (resize c.stage.targets n.toNat) input
    let stage : CommStage := ⟨targets, when⟩
    some ⟨input, stage, c.stages.insert sender ((c.stages.find? sender).getD [] ++ [stage])⟩

/-- The loop over the stages; `n` is 0 after the first one. -/
def readStages (sender : ℤ) : ℕ → ℤ → CommMap → Option CommMap
  | 0, _, c => some c
  | m + 1, n, c => (readStage left sender n c).bind (readStages sender m 0)

/-- The body of the loop over the lines, after the sender; `none` where a negative number of stages
makes the loop go on until there is no memory. -/
def readSender (sender : ℤ) (c : CommMap) : Option CommMap :=
  let (m, input) := readInt left left.unset c.input
  if m < 0 then none else readStages left sender m.toNat left.unset { c with input := input }

/-- The loop over the lines, for so many of them at most. -/
def readCommLines : ℕ → CommMap → Option CommMap
  | 0, _ => none
  | fuel + 1, c =>
    match c.input.bind extractInt with
    | none => some c
    | some (sender, rest) =>
      (readSender left sender { c with input := some rest }).bind (readCommLines fuel)

/-- The stages that are read from a file. -/
def readCommMap (stage : CommStage) (file : List Char) : Option (SortedMap ℤ (List CommStage)) :=
  (readCommLines left (file.length + 1) ⟨some file, stage, ∅⟩).map CommMap.stages

end

/-! ## Times are read as they are printed -/

theorem fraction_append_zero (digits : List Char) (n : ℕ) :
    fraction (digits ++ List.replicate n '0') = fraction digits := by
  rw [fraction, fraction, Nat.ofDigitChars_append, Nat.ofDigitChars_replicate_zero,
    List.length_append, List.length_replicate, pow_add]
  push_cast
  field_simp

theorem fraction_rdropWhile (digits : List Char) :
    fraction (digits.rdropWhile (· = '0')) = fraction digits := by
  induction digits using List.reverseRecOn with
  | nil => rfl
  | append_singleton digits d ih =>
    by_cases hd : d = '0'
    · subst hd
      rw [List.rdropWhile_concat_pos _ _ _ (by simp), ih]
      exact (fraction_append_zero digits 1).symm
    · rw [List.rdropWhile_concat_neg _ _ _ (by simpa using hd)]

theorem fraction_fourDigits {k : ℕ} (hk : k < 10000) : fraction (fourDigits k) = k / 10000 := by
  have hmod (n : ℕ) : n % 10 < 10 := Nat.mod_lt _ (by decide)
  have hdigits : Nat.ofDigitChars 10 (fourDigits k) 0 = k := by
    unfold fourDigits
    rw [Nat.ofDigitChars_cons_digitChar_of_lt_ten (hmod _),
      Nat.ofDigitChars_cons_digitChar_of_lt_ten (hmod _),
      Nat.ofDigitChars_cons_digitChar_of_lt_ten (hmod _),
      Nat.ofDigitChars_cons_digitChar_of_lt_ten (hmod _), Nat.ofDigitChars_nil]
    omega
  rw [fraction, hdigits]
  norm_num [fourDigits]

theorem isDigit_fourDigits (k : ℕ) : ∀ d ∈ fourDigits k, d.isDigit = true := by
  have hdigit (n : ℕ) : (n % 10).digitChar.isDigit = true := by
    rw [Nat.isDigit_digitChar]
    exact decide_eq_true (Nat.mod_lt n (by decide))
  intro d hd
  simp only [fourDigits, List.mem_cons, List.not_mem_nil, or_false] at hd
  rcases hd with rfl | rfl | rfl | rfl <;> exact hdigit _

theorem takeWhile_isDigit {digits : List Char} (h : ∀ d ∈ digits, d.isDigit = true) {c : Char}
    (hc : c.isDigit = false) (rest : List Char) :
    (digits ++ c :: rest).takeWhile Char.isDigit = digits ∧
      (digits ++ c :: rest).dropWhile Char.isDigit = c :: rest := by
  rw [List.takeWhile_append_of_pos h, List.dropWhile_append_of_pos h, List.takeWhile_cons, hc,
    List.dropWhile_cons, hc]
  exact ⟨List.append_nil _, rfl⟩

theorem extractDouble_space {c : Char} (hc : isspace c = true) (cs : List Char) :
    extractDouble (c :: cs) = extractDouble cs := by
  unfold extractDouble
  rw [List.dropWhile_cons, if_pos hc]

/-- **A time is read as it was printed.** -/
theorem extractDouble_printTime {k : ℕ} (hk : k < 10000) (rest : List Char) :
    extractDouble (printTime k ++ ' ' :: rest) = some ((k : ℚ) / 10000, ' ' :: rest) := by
  by_cases hzero : k = 0
  · subst hzero
    simp [printTime, extractDouble, extractFraction, isspace, Nat.ofDigitChars]
  · have hdigits : ∀ d ∈ (fourDigits k).rdropWhile (· = '0'), d.isDigit = true := fun d hd =>
      isDigit_fourDigits k d ((List.rdropWhile_prefix _ _).subset hd)
    have hzeros : ∀ d ∈ ['0'], d.isDigit = true := List.forall_mem_singleton.mpr rfl
    obtain ⟨htake, hdrop⟩ := takeWhile_isDigit hdigits (c := ' ') (by decide) rest
    obtain ⟨htake', hdrop'⟩ := takeWhile_isDigit hzeros (c := '.') (by decide)
      ((fourDigits k).rdropWhile (· = '0') ++ ' ' :: rest)
    rw [List.singleton_append] at htake' hdrop'
    rw [printTime, if_neg hzero]
    show extractFraction false
      ('0' :: '.' :: ((fourDigits k).rdropWhile (· = '0') ++ ' ' :: rest)) = _
    unfold extractFraction
    rw [htake', hdrop']
    simp [htake, hdrop, fraction_rdropWhile, fraction_fourDigits hk, Nat.ofDigitChars]

/-! ## Numbers one after the other -/

/-- Numbers, with a blank behind each. -/
def tokens (zs : List ℤ) : List Char := zs.flatMap fun z => printInt z ++ [' ']

theorem tokens_cons_append (z : ℤ) (zs : List ℤ) (rest : List Char) :
    tokens (z :: zs) ++ rest = printInt z ++ ' ' :: (tokens zs ++ rest) := by
  simp [tokens]

section

variable {left : Leftover} {z : ℤ} {rest : List Char}

theorem extractInt_token (hz : IsInt z) : extractInt (printInt z ++ ' ' :: rest) =
    some (z, ' ' :: rest) := by
  rw [extractInt_printInt z (by decide), if_pos hz]

theorem extractInt_blank_token (hz : IsInt z) : extractInt (' ' :: (printInt z ++ ' ' :: rest)) =
    some (z, ' ' :: rest) := by
  rw [extractInt_space (by decide), extractInt_token hz]

theorem readInt_of_extractInt {cs : List Char} (h : extractInt cs = some (z, rest)) (i : ℤ) :
    readInt left i (some cs) = (z, some rest) := by
  rw [readInt, h]

theorem readInt_token (hz : IsInt z) (i : ℤ) :
    readInt left i (some (' ' :: (printInt z ++ ' ' :: rest))) = (z, some (' ' :: rest)) :=
  readInt_of_extractInt (extractInt_blank_token hz) i

/-- The targets come in the order of the text, from the end of the vector. -/
theorem readTargets_tokens {zs : List ℤ} (hzs : ∀ z ∈ zs, IsInt z) {targets : List ℤ}
    (hlen : zs.length ≤ targets.length) :
    readTargets left zs.length targets (some (' ' :: (tokens zs ++ rest))) =
      (zs.reverse ++ targets.drop zs.length, some (' ' :: rest)) := by
  induction zs generalizing targets with
  | nil => simp [readTargets, tokens]
  | cons z zs ih =>
    have hlt : zs.length < targets.length := hlen
    have hset : zs.length ≤ (targets.set zs.length z).length := by
      rw [List.length_set]
      exact hlt.le
    have hdrop : (targets.set zs.length z).drop zs.length = z :: targets.drop (zs.length + 1) := by
      rw [List.drop_set, if_neg (lt_irrefl _), Nat.sub_self, List.drop_eq_getElem_cons hlt]
      rfl
    rw [tokens_cons_append, List.length_cons, readTargets,
      readInt_token (hzs z List.mem_cons_self)]
    dsimp only
    rw [ih (fun x hx => hzs x (List.mem_cons_of_mem _ hx)) hset, hdrop, List.reverse_cons,
      List.append_assoc]
    rfl

theorem length_readTargets (n : ℕ) (targets : List ℤ) (input : Option (List Char)) :
    (readTargets left n targets input).1.length = targets.length := by
  induction n generalizing targets input with
  | zero => rfl
  | succ n ih =>
    rw [readTargets]
    dsimp only
    rw [ih, List.length_set]

theorem length_resize (targets : List ℤ) (n : ℕ) : (resize targets n).length = n := by
  rw [resize, List.length_append, List.length_take, List.length_replicate]
  omega

theorem readStage_tokens {sender n : ℤ} {c : CommMap} {cs cs' : List Char} {zs : List ℤ} {w : ℚ}
    (hinput : c.input = some cs) (hwhen : extractDouble cs = some (w, cs'))
    (hn : extractInt cs' = some ((zs.length : ℤ), ' ' :: (tokens zs ++ rest)))
    (hzs : ∀ z ∈ zs, IsInt z) :
    readStage left sender n c = some ⟨some (' ' :: rest), ⟨zs.reverse, w⟩,
      c.stages.insert sender ((c.stages.find? sender).getD [] ++ [⟨zs.reverse, w⟩])⟩ := by
  have hresize := length_resize c.stage.targets zs.length
  rw [readStage, hinput, readDouble, hwhen]
  dsimp only
  rw [readInt_of_extractInt hn]
  dsimp only
  rw [if_neg (not_lt.mpr (Int.natCast_nonneg _)), Int.toNat_natCast,
    readTargets_tokens hzs hresize.ge, List.drop_of_length_le hresize.le, List.append_nil]

end

/-! ## Stages are only added -/

/-- No client has fewer stages, and those that it has stay. -/
def Extends (stages stages' : SortedMap ℤ (List CommStage)) : Prop :=
  ∀ id, (stages.find? id).getD [] <+: (stages'.find? id).getD []

section

variable {left : Leftover} {c c' : CommMap} {sender n : ℤ}

theorem Extends.trans {s s' s'' : SortedMap ℤ (List CommStage)} (h : Extends s s')
    (h' : Extends s' s'') : Extends s s'' := fun id => (h id).trans (h' id)

theorem extends_insert (stages : SortedMap ℤ (List CommStage)) (sender : ℤ) (stage : CommStage) :
    Extends stages (stages.insert sender ((stages.find? sender).getD [] ++ [stage])) := by
  intro id
  by_cases hid : id = sender
  · subst hid
    rw [SortedMap.find?_insert_self, Option.getD_some]
    exact List.prefix_append _ _
  · rw [SortedMap.find?_insert_of_ne _ _ hid]

theorem exists_of_readStage {w : ℚ} {input : Option (List Char)} {m : ℤ}
    {input' : Option (List Char)} (hwhen : readDouble left c.stage.when c.input = (w, input))
    (hn : readInt left n input = (m, input')) (h : readStage left sender n c = some c') :
    0 ≤ m ∧ ∃ targets, targets.length = m.toNat ∧
      c'.stages = c.stages.insert sender ((c.stages.find? sender).getD [] ++ [⟨targets, w⟩]) := by
  rw [readStage, hwhen] at h
  dsimp only at h
  rw [hn] at h
  dsimp only at h
  split_ifs at h with hneg
  cases h
  exact ⟨not_lt.mp hneg, _, by rw [length_readTargets, length_resize], rfl⟩

theorem extends_readStage (h : readStage left sender n c = some c') :
    Extends c.stages c'.stages := by
  obtain ⟨-, targets, -, heq⟩ := exists_of_readStage rfl rfl h
  rw [heq]
  exact extends_insert _ _ _

theorem extends_readStages {m : ℕ} (h : readStages left sender m n c = some c') :
    Extends c.stages c'.stages := by
  induction m generalizing n c with
  | zero =>
    cases h
    exact fun _ => List.prefix_rfl
  | succ m ih =>
    obtain ⟨c₁, h₁, h₂⟩ := Option.bind_eq_some_iff.mp h
    exact (extends_readStage h₁).trans (ih h₂)

theorem extends_readCommLines {fuel : ℕ} (h : readCommLines left fuel c = some c') :
    Extends c.stages c'.stages := by
  induction fuel generalizing c with
  | zero => cases h
  | succ fuel ih =>
    rw [readCommLines] at h
    split at h
    · cases h
      exact fun _ => List.prefix_rfl
    · obtain ⟨c₁, h₁, h₂⟩ := Option.bind_eq_some_iff.mp h
      rw [readSender] at h₁
      dsimp only at h₁
      split_ifs at h₁
      exact (extends_readStages h₁).trans (ih h₂)

end

end Modelnet.Tools

import Mathlib.Data.Int.Interval
import Modelnet.Tools.DynamicTargets

/-!
# Lists of random targets are not read back

A line of the mode `dynrandom` lacks the number of the second targets, and its end. So the least one
of these targets is taken for their number, and the number of the next client for the last one of
them. The first client has its targets only if there is one of them, which is 1 (`second_eq`). Then
the second line is read from its second number on, and the second client has no stages whatever has
been drawn for it (`false_of_shifted`). With the mode `dynsubtree` this says when a list is read
back (`isReadBack_iff`).
-/

namespace Modelnet.Tools

variable {D : Type}

/-! ## What is drawn -/

theorem drawOther_bounds {n i : ℕ} (hi : i < n) (draw : ℕ) :
    -1 ≤ drawOther n i draw ∧ drawOther n i draw < n ∧ drawOther n i draw ≠ i := by
  have hlt : draw % n < n := Nat.mod_lt _ (by omega)
  unfold drawOther
  dsimp only
  split_ifs <;> omega

section

variable {rand : ℕ → ℕ} {targetCount fuel n i : ℕ}

def Drawn (n : ℕ) (i : ℤ) (targets : Finset ℤ) : Prop := ∀ t ∈ targets, -1 ≤ t ∧ t < n ∧ t ≠ i

theorem Drawn.insert {targets : Finset ℤ} (h : Drawn n i targets) (hi : i < n) (draw : ℕ) :
    Drawn n i (insert (drawOther n i draw) targets) := by
  intro t ht
  rcases Finset.mem_insert.mp ht with rfl | ht
  · exact drawOther_bounds hi draw
  · exact h t ht

theorem drawTargets_spec (hi : i < n) {targets1 targets2 : Finset ℤ} (h1 : Drawn n i targets1)
    (h2 : Drawn n i targets2) {draws : ℕ} {r : Finset ℤ × Finset ℤ × ℕ}
    (h : drawTargets rand targetCount n i fuel targets1 targets2 draws = some r) :
    Drawn n i r.1 ∧ Drawn n i r.2.1 ∧ targetCount ≤ r.2.1.card := by
  induction fuel generalizing targets1 targets2 draws with
  | zero =>
    rw [drawTargets] at h
    split_ifs at h with hless
    cases h
    exact ⟨h1, h2, by dsimp only; omega⟩
  | succ fuel ih =>
    rw [drawTargets] at h
    split_ifs at h with hless
    · exact ih (h1.insert hi _) (h2.insert hi _) h
    · cases h
      exact ⟨h1, h2, by dsimp only; omega⟩

theorem card_drawTargets {draws : ℕ} {r : Finset ℤ × Finset ℤ × ℕ} (hcount : targetCount ≤ 1)
    (h : drawTargets rand targetCount n i fuel ∅ ∅ draws = some r) :
    r.1.card = targetCount ∧ r.2.1.card = targetCount := by
  rcases Nat.le_one_iff_eq_zero_or_eq_one.mp hcount with rfl | rfl
  · cases fuel <;> cases h <;> exact ⟨rfl, rfl⟩
  · rcases fuel with _ | fuel
    · cases h
    · cases fuel <;> cases h <;> exact ⟨rfl, rfl⟩

/-- A line of `randomDynamicTargets`, of `n` clients. -/
structure RandomLine (targetCount n i : ℕ) (l : TargetLine) : Prop where
  id : l.id = i
  drawn1 : Drawn n i l.targets1
  drawn2 : Drawn n i l.targets2
  time : l.switchTime < 10000
  le_card : targetCount ≤ l.targets2.card
  card : targetCount ≤ 1 → l.targets1.card = targetCount ∧ l.targets2.card = targetCount

theorem exists_of_randomTurn {s s' : ℕ × List TargetLine} (hi : i < n)
    (h : randomTurn rand targetCount fuel n s i = some s') :
    ∃ l, RandomLine targetCount n i l ∧ s'.2 = s.2 ++ [l] := by
  obtain ⟨r, hr, h⟩ := Option.bind_eq_some_iff.mp h
  have hempty : Drawn n i ∅ := fun t ht => absurd ht (Finset.notMem_empty t)
  obtain ⟨h1, h2, hle⟩ := drawTargets_spec hi hempty hempty hr
  cases h
  exact ⟨⟨i, r.1, rand r.2.2 % 10000, r.2.1⟩,
    ⟨rfl, h1, h2, Nat.mod_lt _ (by decide), hle, fun hcount => card_drawTargets hcount hr⟩, rfl⟩

theorem randomLines_of_foldlM {m : ℕ} (hm : m ≤ n) {s : ℕ × List TargetLine}
    (h : (List.range m).foldlM (randomTurn rand targetCount fuel n) (0, []) = some s) :
    s.2.length = m ∧ ∀ i < m, ∃ l, s.2[i]? = some l ∧ RandomLine targetCount n i l := by
  induction m generalizing s with
  | zero =>
    cases h
    exact ⟨rfl, fun i hi => absurd hi (Nat.not_lt_zero i)⟩
  | succ m ih =>
    rw [List.range_succ] at h
    simp only [List.foldlM_append, List.foldlM_cons, List.foldlM_nil, bind_pure] at h
    obtain ⟨s', hs', h⟩ := Option.bind_eq_some_iff.mp h
    obtain ⟨hlen, hlines⟩ := ih (by omega) hs'
    obtain ⟨l', hl', heq⟩ := exists_of_randomTurn (by omega) h
    rw [heq]
    refine ⟨by rw [List.length_append, hlen]; rfl, fun i hi => ?_⟩
    rcases Nat.lt_succ_iff_lt_or_eq.mp hi with hlt | rfl
    · rw [List.getElem?_append_left (by omega)]
      exact hlines i hlt
    · rw [← hlen, List.getElem?_concat_length, hlen]
      exact ⟨l', rfl, hl'⟩

theorem randomLines_of_randomDynamicTargets {lines : List TargetLine}
    (h : randomDynamicTargets rand targetCount fuel n = some lines) :
    lines.length = n ∧ ∀ i < n, ∃ l, lines[i]? = some l ∧ RandomLine targetCount n i l := by
  obtain ⟨s, hs, rfl⟩ := Option.map_eq_some_iff.mp h
  exact randomLines_of_foldlM le_rfl hs

end

/-! ## Lines without the number of the second targets -/

/-- A line after its number. -/
def randomTail (l : TargetLine) (rest : List Char) : List Char :=
  ' ' :: (printInt 2 ++ ' ' :: (printTime 0 ++ ' ' :: (printInt l.targets1.card ++
    ' ' :: (setText l.targets1 ++ (printTime l.switchTime ++ ' ' :: ' ' ::
      (setText l.targets2 ++ rest))))))

theorem randomLine_append (l : TargetLine) (rest : List Char) :
    randomLine l ++ rest = printInt l.id ++ randomTail l rest := by
  have htwo : printInt 2 = ['2'] := by decide
  have hzero : printTime 0 = ['0'] := rfl
  simp [randomLine, randomTail, htwo, hzero]

section

variable {left : Leftover} {c c' : CommMap} {sender m n : ℤ} {fuel : ℕ} {rest : List Char}

/-- What happens with the number of a client and the one after it. -/
theorem exists_of_readCommLines {stage : CommStage} {stages : SortedMap ℤ (List CommStage)}
    {cs cs' : List Char} (hsender : extractInt cs = some (sender, cs'))
    {input : Option (List Char)} (hm : readInt left left.unset (some cs') = (m, input))
    (h : readCommLines left fuel ⟨some cs, stage, stages⟩ = some c') :
    0 ≤ m ∧ ∃ fuel', (readStages left sender m.toNat left.unset ⟨input, stage, stages⟩).bind
      (readCommLines left fuel') = some c' := by
  rcases fuel with _ | fuel
  · cases h
  · rw [readCommLines, Option.bind_some, hsender] at h
    dsimp only at h
    rw [readSender, hm] at h
    dsimp only at h
    split_ifs at h with hneg
    · cases h
    · exact ⟨not_lt.mp hneg, fuel, h⟩

theorem eq_of_readCommLines (hinput : c.input = none) (h : readCommLines left fuel c = some c') :
    c' = c := by
  rcases fuel with _ | fuel
  · cases h
  · rw [readCommLines, hinput] at h
    exact (Option.some.inj h).symm

theorem exists_readStage (hm : 0 < m)
    (h : (readStages left sender m.toNat n c).bind (readCommLines left fuel) = some c') :
    ∃ c₁, readStage left sender n c = some c₁ ∧ Extends c₁.stages c'.stages := by
  obtain ⟨k, hk⟩ := Nat.exists_eq_succ_of_ne_zero (show m.toNat ≠ 0 by omega)
  obtain ⟨c₂, hc₂, h⟩ := Option.bind_eq_some_iff.mp h
  rw [hk] at hc₂
  obtain ⟨c₁, hc₁, hc₂⟩ := Option.bind_eq_some_iff.mp hc₂
  exact ⟨c₁, hc₁, (extends_readStages hc₂).trans (extends_readCommLines h)⟩

end

/-! ## The stages of a client with a line -/

section

variable {lines : List TargetLine} {stages : SortedMap ℤ (List CommStage)} {numbers : List ℤ}
  {l : TargetLine} {s s' : CommStage} {more : List CommStage}

theorem TargetsRead.card_first (h : TargetsRead numbers lines stages) (hl : l ∈ lines)
    (hstart : s :: more <+: (stages.find? l.id).getD []) :
    s.targets.length = l.targets1.card := by
  obtain ⟨s1, s2, heq, h1, -⟩ := h.two l hl
  rw [heq, List.cons_prefix_cons] at hstart
  rw [hstart.1, ← Multiset.coe_card, h1.targets]
  rfl

theorem TargetsRead.targets_second (h : TargetsRead numbers lines stages) (hl : l ∈ lines)
    (hstart : s :: s' :: more <+: (stages.find? l.id).getD []) :
    (s'.targets : Multiset ℤ) = l.targets2.val := by
  obtain ⟨s1, s2, heq, -, h2⟩ := h.two l hl
  rw [heq, List.cons_prefix_cons, List.cons_prefix_cons] at hstart
  rw [hstart.2.1, h2.targets]

theorem TargetsRead.length_le (h : TargetsRead numbers lines stages) (hl : l ∈ lines)
    (hstart : more <+: (stages.find? l.id).getD []) : more.length ≤ 2 := by
  obtain ⟨s1, s2, heq, -, -⟩ := h.two l hl
  rw [heq] at hstart
  exact hstart.length_le

theorem TargetsRead.ne_nil (h : TargetsRead numbers lines stages) (hl : l ∈ lines) :
    (stages.find? l.id).getD [] ≠ [] := by
  obtain ⟨s1, s2, heq, -, -⟩ := h.two l hl
  rw [heq]
  exact List.cons_ne_nil _ _

end

/-! ## The first line -/

theorem Drawn.card_le {n i : ℕ} {targets : Finset ℤ} (h : Drawn n i targets) (hi : i < n) :
    targets.card ≤ n := by
  have hsubset : targets ⊆ (Finset.Ico (-1) (n : ℤ)).erase i := by
    intro t ht
    obtain ⟨h1, h2, h3⟩ := h t ht
    exact Finset.mem_erase.mpr ⟨h3, Finset.mem_Ico.mpr ⟨h1, h2⟩⟩
  have hle := Finset.card_le_card hsubset
  rw [Finset.card_erase_of_mem (Finset.mem_Ico.mpr (by omega)), Int.card_Ico] at hle
  omega

theorem Drawn.isInt {n i : ℕ} {targets : Finset ℤ} (h : Drawn n i targets) (hn : n < 2 ^ 31) :
    ∀ t ∈ targets, IsInt t := by
  intro t ht
  obtain ⟨h1, h2, -⟩ := h t ht
  constructor <;> omega

section

variable {left : Leftover} {c' : CommMap} {fuel targetCount n i : ℕ} {rest : List Char}
  {lines : List TargetLine} {numbers : List ℤ} {l : TargetLine} {stage : CommStage}
  {stages : SortedMap ℤ (List CommStage)}

/-- The stream before the second stage of a line. -/
def secondText (l : TargetLine) (rest : List Char) : List Char :=
  ' ' :: (printTime l.switchTime ++ ' ' :: ' ' :: (setText l.targets2 ++ rest))

theorem extractDouble_secondText (hl : RandomLine targetCount n i l) :
    extractDouble (secondText l rest) =
      some ((l.switchTime : ℚ) / 10000, ' ' :: ' ' :: (setText l.targets2 ++ rest)) := by
  rw [secondText, extractDouble_space (by decide), extractDouble_printTime hl.time]

/-- The first stage of a line is read, and the second one is next. -/
theorem exists_second (hl : RandomLine targetCount n i l) (hi : i < n) (hn : n < 2 ^ 31)
    (hnone : stages.find? l.id = none) {cs : List Char}
    (hcs : extractInt cs = some (l.id, randomTail l rest))
    (h : readCommLines left fuel ⟨some cs, stage, stages⟩ = some c') :
    ∃ fuel' s c₂, readStage left l.id 0 ⟨some (secondText l rest), s,
      stages.insert l.id [s]⟩ = some c₂ ∧ readCommLines left fuel' c₂ = some c' := by
  have htwo : readInt left left.unset (some (randomTail l rest)) = (2, some (' ' :: (printTime 0 ++
      ' ' :: (printInt l.targets1.card ++ ' ' :: (setText l.targets1 ++ _))))) :=
    readInt_token (by decide) _
  have hcard : IsInt l.targets1.card := by
    have := hl.drawn1.card_le hi
    constructor <;> omega
  obtain ⟨-, fuel', h⟩ := exists_of_readCommLines hcs htwo h
  obtain ⟨c₂, hc₂, h⟩ := Option.bind_eq_some_iff.mp h
  obtain ⟨c₁, hc₁, hc₂⟩ := Option.bind_eq_some_iff.mp hc₂
  rw [readStage_setText rfl (by rw [extractDouble_space (by decide),
    extractDouble_printTime (by decide)]) hcard (hl.drawn1.isInt hn)] at hc₁
  cases hc₁
  obtain ⟨c₃, hc₃, hc₂⟩ := Option.bind_eq_some_iff.mp hc₂
  cases hc₂
  rw [hnone] at hc₃
  exact ⟨fuel', _, c₂, hc₃, h⟩

theorem extractInt_twoBlanks (cs : List Char) : extractInt (' ' :: ' ' :: cs) = extractInt cs := by
  rw [extractInt_space (by decide), extractInt_space (by decide)]

/-- The first number after the time is taken for the number of the second targets. -/
theorem eq_card_of_second (hl : RandomLine targetCount n i l) (hmem : l ∈ lines)
    (hback : TargetsRead numbers lines c'.stages) {m : ℤ} {cs : List Char}
    (hm : extractInt (setText l.targets2 ++ rest) = some (m, cs)) {s : CommStage} {c₂ : CommMap}
    (h₂ : readStage left l.id 0 ⟨some (secondText l rest), s, stages.insert l.id [s]⟩ = some c₂)
    (h : readCommLines left fuel c₂ = some c') : m = l.targets2.card := by
  have hwhen : readDouble left s.when (some (secondText l rest)) = ((l.switchTime : ℚ) / 10000,
      some (' ' :: ' ' :: (setText l.targets2 ++ rest))) := by
    rw [readDouble, extractDouble_secondText hl]
  have hn : readInt left 0 (some (' ' :: ' ' :: (setText l.targets2 ++ rest))) = (m, some cs) :=
    readInt_of_extractInt (by rw [extractInt_twoBlanks, hm]) 0
  obtain ⟨hnonneg, targets, hlen, hstages⟩ := exists_of_readStage hwhen hn h₂
  have hstart := extends_readCommLines h l.id
  rw [hstages, SortedMap.find?_insert_self, SortedMap.find?_insert_self] at hstart
  have hcard := congrArg Multiset.card (hback.targets_second hmem hstart)
  rw [Multiset.coe_card, hlen, Finset.card_val] at hcard
  omega

/-- The number of the next client is taken for the last one of the second targets. -/
theorem second_eq (hl : RandomLine targetCount n i l) (hn : n < 2 ^ 31) (hmem : l ∈ lines)
    (hback : TargetsRead numbers lines c'.stages) {x : ℤ} (hx : IsInt x) (hpos : 0 < x)
    {tail : List Char} {s : CommStage} {c₂ : CommMap}
    (h₂ : readStage left l.id 0
      ⟨some (secondText l (printInt x ++ ' ' :: tail)), s, stages.insert l.id [s]⟩ = some c₂)
    (h : readCommLines left fuel c₂ = some c') :
    x = l.targets2.card ∧ x ∈ l.targets2 ∧ c₂.input = some (' ' :: tail) ∧
      ∃ s', c₂.stages = (stages.insert l.id [s]).insert l.id [s, s'] := by
  cases hsort : ascending l.targets2 with
  | nil =>
    have hempty : l.targets2.card = 0 := by
      rw [← length_ascending, hsort, List.length_nil]
    have htext : extractInt (setText l.targets2 ++ (printInt x ++ ' ' :: tail)) =
        some (x, ' ' :: tail) := by
      rw [setText, hsort]
      exact extractInt_token hx
    have hcard := eq_card_of_second hl hmem hback htext h₂ h
    omega
  | cons u us =>
    have hint : ∀ t ∈ u :: us, IsInt t := by
      intro t ht
      rw [← hsort] at ht
      exact hl.drawn2.isInt hn t (mem_ascending.mp ht)
    have htext : setText l.targets2 ++ (printInt x ++ ' ' :: tail) =
        printInt u ++ ' ' :: (tokens (us ++ [x]) ++ tail) := by
      rw [setText, hsort]
      simp [tokens]
    have hu : extractInt (setText l.targets2 ++ (printInt x ++ ' ' :: tail)) =
        some (u, ' ' :: (tokens (us ++ [x]) ++ tail)) := by
      rw [htext]
      exact extractInt_token (hint u List.mem_cons_self)
    have hcard := eq_card_of_second hl hmem hback hu h₂ h
    have hlen : l.targets2.card = (us ++ [x]).length := by
      rw [← length_ascending, hsort, List.length_append]
      rfl
    rw [hcard, hlen] at hu
    have hzs : ∀ z ∈ us ++ [x], IsInt z := by
      intro z hz
      rcases List.mem_append.mp hz with hz | hz
      · exact hint z (List.mem_cons_of_mem _ hz)
      · rwa [List.mem_singleton.mp hz]
    rw [readStage_tokens rfl (extractDouble_secondText hl) (by rw [extractInt_twoBlanks, hu])
      hzs] at h₂
    cases h₂
    have hstart := extends_readCommLines h l.id
    rw [SortedMap.find?_insert_self, SortedMap.find?_insert_self] at hstart
    -- the targets that are read have `x` where the generated ones have `u`
    have htargets : x ::ₘ (us : Multiset ℤ) = l.targets2.val := by
      rw [← hback.targets_second hmem hstart, Multiset.coe_reverse, ← Multiset.coe_add, add_comm]
      rfl
    have hxu : x = u := by
      rw [← coe_ascending, hsort, ← Multiset.cons_coe,
        Multiset.cons_inj_left] at htargets
      exact htargets
    refine ⟨hxu.trans hcard, ?_, rfl, ⟨(us ++ [x]).reverse, (l.switchTime : ℚ) / 10000⟩, ?_⟩
    · rw [← Finset.mem_val, ← htargets]
      exact Multiset.mem_cons_self x _
    · rw [SortedMap.find?_insert_self]
      rfl

/-! ## The lines after it -/

theorem exists_of_noStages {sender : ℤ} {cs cs' : List Char} {input : Option (List Char)}
    (hsender : extractInt cs = some (sender, cs'))
    (hm : readInt left left.unset (some cs') = (0, input))
    (h : readCommLines left fuel ⟨some cs, stage, stages⟩ = some c') :
    ∃ fuel', readCommLines left fuel' ⟨input, stage, stages⟩ = some c' := by
  obtain ⟨-, fuel', h⟩ := exists_of_readCommLines hsender hm h
  exact ⟨fuel', h⟩

theorem extractInt_printTime_zero :
    extractInt (' ' :: (printTime 0 ++ ' ' :: rest)) = some (0, ' ' :: rest) := by
  have hzero : printTime 0 = printInt 0 := by decide
  rw [hzero]
  exact extractInt_blank_token (by decide)

theorem extractInt_printTime (rest : List Char) {k : ℕ} (hk : k ≠ 0) : ∃ cs,
    extractInt (' ' :: (printTime k ++ rest)) = some (0, '.' :: cs) := by
  have hzero : printInt 0 = ['0'] := by decide
  have hdot := extractInt_printInt 0 (c := '.') (by decide)
    ((fourDigits k).rdropWhile (· = '0') ++ rest)
  rw [hzero, if_pos (by decide)] at hdot
  refine ⟨(fourDigits k).rdropWhile (· = '0') ++ rest, ?_⟩
  rw [extractInt_space (by decide), printTime, if_neg hk]
  exact hdot

theorem extractInt_dot (cs : List Char) : extractInt ('.' :: cs) = none := by
  simp [extractInt, isspace, extractNumber]

/-- Where a client has two stages and no other line may follow it, reading its number again leads
to no stage. -/
theorem eq_zero_of_again (hmem : l ∈ lines) (hback : TargetsRead numbers lines c'.stages)
    (htwo : ((stages.find? l.id).getD []).length = 2) {cs cs' : List Char}
    (hsender : extractInt cs = some (l.id, cs')) {m : ℤ} {input : Option (List Char)}
    (hm : readInt left left.unset (some cs') = (m, input))
    (h : readCommLines left fuel ⟨some cs, stage, stages⟩ = some c') : m = 0 := by
  obtain ⟨hnonneg, fuel', h⟩ := exists_of_readCommLines hsender hm h
  by_contra hne
  obtain ⟨c₁, hc₁, hextends⟩ := exists_readStage (by omega) h
  obtain ⟨-, targets, -, heq⟩ := exists_of_readStage rfl rfl hc₁
  have hstart := hextends l.id
  rw [heq, SortedMap.find?_insert_self, Option.getD_some] at hstart
  have hle := hback.length_le hmem hstart
  rw [List.length_append, htwo, List.length_singleton] at hle
  omega

/-- A client with one second target, which is not its own number, cannot have its line where the
number of its first targets is taken for it. -/
theorem eq_zero_of_shifted (hl : RandomLine targetCount n i l) (hmem : l ∈ lines)
    (hback : TargetsRead numbers lines c'.stages) (hnone : stages.find? l.id = none) {b : ℤ}
    (hb : IsInt b) (hcard : l.targets1.card = 1) (hne : b ≠ 1) {cs cs' : List Char}
    (hsender : extractInt cs = some (l.id, cs')) {m : ℤ}
    (hm : extractInt cs' = some (m, ' ' :: (printTime l.switchTime ++ ' ' :: ' ' ::
      (printInt b ++ ' ' :: rest))))
    (h : readCommLines left fuel ⟨some cs, stage, stages⟩ = some c') : m = 0 := by
  obtain ⟨hnonneg, fuel', h⟩ := exists_of_readCommLines hsender (readInt_of_extractInt hm _) h
  by_contra hne'
  obtain ⟨c₁, hc₁, hextends⟩ := exists_readStage (by omega) h
  have hwhen : readDouble left stage.when (some (' ' :: (printTime l.switchTime ++ ' ' :: ' ' ::
      (printInt b ++ ' ' :: rest)))) = ((l.switchTime : ℚ) / 10000,
        some (' ' :: ' ' :: (printInt b ++ ' ' :: rest))) := by
    rw [readDouble, extractDouble_space (by decide), extractDouble_printTime hl.time]
  have hn : readInt left left.unset (some (' ' :: ' ' :: (printInt b ++ ' ' :: rest))) =
      (b, some (' ' :: rest)) :=
    readInt_of_extractInt (by rw [extractInt_twoBlanks, extractInt_token hb]) _
  obtain ⟨hb0, targets, hlen, heq⟩ := exists_of_readStage hwhen hn hc₁
  have hstart := hextends l.id
  rw [heq, SortedMap.find?_insert_self, hnone] at hstart
  have hfirst := hback.card_first hmem hstart
  rw [hlen, hcard] at hfirst
  omega

theorem setText_singleton (t : ℤ) : setText {t} ++ rest = printInt t ++ ' ' :: rest := by
  simp [setText, tokens]

theorem readTargets_end (targets : List ℤ) :
    (readTargets left 1 targets (some [' '])).2 = none := by
  have hend : extractInt [' '] = none := by decide
  rw [readTargets, readInt, hend]
  rfl

theorem input_of_second (hl : RandomLine targetCount n i l) (htargets : l.targets2 = {1})
    {s : CommStage} {c₂ : CommMap}
    (h₂ : readStage left l.id 0 ⟨some (secondText l []), s, stages.insert l.id [s]⟩ = some c₂) :
    c₂.input = none ∧ ∃ s', c₂.stages = (stages.insert l.id [s]).insert l.id [s, s'] := by
  have hone : extractInt (' ' :: ' ' :: (setText l.targets2 ++ [])) = some (1, [' ']) := by
    rw [extractInt_twoBlanks, htargets, setText_singleton]
    exact extractInt_token (by decide)
  rw [readStage, readDouble, extractDouble_secondText hl] at h₂
  dsimp only at h₂
  rw [readInt_of_extractInt hone] at h₂
  dsimp only at h₂
  rw [if_neg (by decide)] at h₂
  cases h₂
  dsimp only
  rw [SortedMap.find?_insert_self]
  constructor
  · exact readTargets_end _
  · exact ⟨_, rfl⟩

end

/-! ## The three first clients -/

theorem exists_of_getElem? {lines : List TargetLine} {l0 l1 l2 : TargetLine}
    (h0 : lines[0]? = some l0) (h1 : lines[1]? = some l1) (h2 : lines[2]? = some l2) :
    ∃ more, lines = l0 :: l1 :: l2 :: more := by
  obtain _ | ⟨x, _ | ⟨y, _ | ⟨z, more⟩⟩⟩ := lines <;> cases h0 <;> cases h1 <;> cases h2
  exact ⟨more, rfl⟩

section

variable {left : Leftover} {rand : ℕ → ℕ} {stage : CommStage} {c' : CommMap}
  {stages : SortedMap ℤ (List CommStage)} {targetCount fuel n : ℕ} {lines more : List TargetLine}
  {numbers : List ℤ} {l0 l1 l2 : TargetLine} {rest : List Char}

/-- The end of the stream, or of the reading, comes before the second client has a stage. -/
theorem false_of_end (hmem : l1 ∈ lines) (hback : TargetsRead numbers lines c'.stages)
    (hnone : stages.find? l1.id = none)
    (h : readCommLines left fuel ⟨none, stage, stages⟩ = some c') : False := by
  obtain rfl := eq_of_readCommLines rfl h
  exact hback.ne_nil hmem (by rw [hnone]; rfl)

theorem false_of_third (hl : RandomLine targetCount n 2 l2) (hn : n < 2 ^ 31) (htwo : 2 < n)
    (hcard : l2.targets2.card = 1) (hmem : l2 ∈ lines) (hmem1 : l1 ∈ lines) (hid1 : l1.id = 1)
    (hback : TargetsRead numbers lines c'.stages) (hnone : stages.find? l1.id = none)
    (hnone2 : stages.find? l2.id = none)
    (hrest : rest = [] ∨ ∃ tail, rest = printInt 3 ++ ' ' :: tail)
    (h : readCommLines left fuel ⟨some (' ' :: (printInt l2.id ++ randomTail l2 rest)), stage,
      stages⟩ = some c') : False := by
  have hid2 : l2.id = 2 := hl.id
  have hsender : extractInt (' ' :: (printInt l2.id ++ randomTail l2 rest)) =
      some (l2.id, randomTail l2 rest) := by
    rw [hid2]
    exact extractInt_blank_token (by decide)
  obtain ⟨fuel', s, c₂, h₂, hrun⟩ := exists_second hl htwo hn hnone2 hsender h
  rcases hrest with rfl | ⟨tail, rfl⟩
  · obtain ⟨b, hb⟩ := Finset.card_eq_one.mp hcard
    have hbint : IsInt b := hl.drawn2.isInt hn b (by simp [hb])
    have htext : extractInt (setText l2.targets2 ++ []) = some (b, [' ']) := by
      rw [hb, setText_singleton]
      exact extractInt_token hbint
    have hone := eq_card_of_second hl hmem hback htext h₂ hrun
    rw [hcard] at hone
    subst hone
    obtain ⟨hinput, s', hstages⟩ := input_of_second hl hb h₂
    obtain rfl := eq_of_readCommLines hinput hrun
    refine hback.ne_nil hmem1 ?_
    have hne : l1.id ≠ l2.id := by omega
    rw [hstages, SortedMap.find?_insert_of_ne _ _ hne, SortedMap.find?_insert_of_ne _ _ hne, hnone]
    rfl
  · obtain ⟨hthree, -⟩ := second_eq hl hn hmem hback (by decide) (by decide) h₂ hrun
    omega

/-- The line of the second client, read with its first target as the number of its stages. -/
theorem false_of_shifted (hl : RandomLine targetCount n 1 l1) (hl2 : RandomLine targetCount n 2 l2)
    (hn : n < 2 ^ 31) (htwo : 2 < n) (hcard1 : l1.targets1.card = 1)
    (hcard2 : l1.targets2.card = 1) (hcard : l2.targets2.card = 1) (hmem0 : l0 ∈ lines)
    (hmem1 : l1 ∈ lines) (hmem2 : l2 ∈ lines) (hid0 : l0.id = 0)
    (hback : TargetsRead numbers lines c'.stages)
    (hlen : ((stages.find? l0.id).getD []).length = 2) (hnone : stages.find? l1.id = none)
    (hnone2 : stages.find? l2.id = none)
    (hrest : rest = [] ∨ ∃ tail, rest = printInt 3 ++ ' ' :: tail)
    (h : readCommLines left fuel ⟨some (' ' :: (printInt l1.targets1.card ++
      ' ' :: (setText l1.targets1 ++ (printTime l1.switchTime ++ ' ' :: ' ' ::
        (setText l1.targets2 ++ (printInt l2.id ++ randomTail l2 rest)))))), stage, stages⟩ =
          some c') : False := by
  obtain ⟨a, ha⟩ := Finset.card_eq_one.mp hcard1
  obtain ⟨b, hb⟩ := Finset.card_eq_one.mp hcard2
  have haint : IsInt a := hl.drawn1.isInt hn a (by simp [ha])
  have hbint : IsInt b := hl.drawn2.isInt hn b (by simp [hb])
  have hb1 : b ≠ 1 := (hl.drawn2 b (by simp [hb])).2.2
  have hid1 : l1.id = 1 := hl.id
  have hsender (cs : List Char) : extractInt (' ' :: (printInt ((1 : ℕ) : ℤ) ++ ' ' :: cs)) =
      some (l1.id, ' ' :: cs) := by
    rw [hid1]
    exact extractInt_blank_token (by decide)
  rw [hcard1, ha, setText_singleton, hb, setText_singleton] at h
  have hzero := eq_zero_of_shifted hl hmem1 hback hnone hbint hcard1 hb1 (hsender _)
    (extractInt_blank_token haint) h
  subst hzero
  obtain ⟨fuel₁, h⟩ := exists_of_noStages (hsender _) (readInt_token (by decide) _) h
  by_cases htime : l1.switchTime = 0
  · -- the time 0 is taken for the first client, and `b` for the number of its stages
    rw [htime] at h
    have hagain : extractInt (' ' :: (printTime 0 ++ ' ' :: ' ' :: (printInt b ++ ' ' ::
        (printInt l2.id ++ randomTail l2 rest)))) = some (l0.id, ' ' :: ' ' :: (printInt b ++ ' ' ::
          (printInt l2.id ++ randomTail l2 rest))) := by
      rw [hid0]
      exact extractInt_printTime_zero
    have hb : readInt left left.unset (some (' ' :: ' ' :: (printInt b ++ ' ' ::
        (printInt l2.id ++ randomTail l2 rest)))) =
          (b, some (' ' :: (printInt l2.id ++ randomTail l2 rest))) :=
      readInt_of_extractInt (by rw [extractInt_twoBlanks, extractInt_token hbint]) _
    have hzero := eq_zero_of_again hmem0 hback hlen hagain hb h
    subst hzero
    obtain ⟨fuel₂, h⟩ := exists_of_noStages hagain hb h
    exact false_of_third hl2 hn htwo hcard hmem2 hmem1 hid1 hback hnone hnone2 hrest h
  · -- the digits of the time are no number of stages
    obtain ⟨cs, hcs⟩ := extractInt_printTime (' ' :: ' ' :: (printInt b ++ ' ' ::
      (printInt l2.id ++ randomTail l2 rest))) htime
    rw [← hid0] at hcs
    have hdot : readInt left left.unset (some ('.' :: cs)) =
        (left.int left.unset (some ('.' :: cs)), none) := by
      rw [readInt, extractInt_dot]
    have hzero := eq_zero_of_again hmem0 hback hlen hcs hdot h
    rw [hzero] at hdot
    obtain ⟨fuel₂, h⟩ := exists_of_noStages hcs hdot h
    exact false_of_end hmem1 hback hnone h

/-- **No list of the mode `dynrandom` is read back.** -/
theorem not_targetsRead_dynrandom (hthree : 3 ≤ n) (hn : n < 2 ^ 31)
    (hlines : randomDynamicTargets rand targetCount fuel n = some lines)
    (hread : readCommMap left stage (lines.flatMap randomLine) = some stages) :
    ¬TargetsRead numbers lines stages := by
  intro hback
  obtain ⟨hlen, hrandom⟩ := randomLines_of_randomDynamicTargets hlines
  obtain ⟨c', h, rfl⟩ := Option.map_eq_some_iff.mp hread
  obtain ⟨l0, h0, hl0⟩ := hrandom 0 (by omega)
  obtain ⟨l1, h1, hl1⟩ := hrandom 1 (by omega)
  obtain ⟨l2, h2, hl2⟩ := hrandom 2 (by omega)
  obtain ⟨more, rfl⟩ : ∃ more, lines = l0 :: l1 :: l2 :: more := exists_of_getElem? h0 h1 h2
  have hmem0 : l0 ∈ l0 :: l1 :: l2 :: more := by simp
  have hmem1 : l1 ∈ l0 :: l1 :: l2 :: more := by simp
  have hmem2 : l2 ∈ l0 :: l1 :: l2 :: more := by simp
  have hid0 : l0.id = 0 := hl0.id
  have hid1 : l1.id = 1 := hl1.id
  have hid2 : l2.id = 2 := hl2.id
  have hrest : more.flatMap randomLine = [] ∨
      ∃ tail, more.flatMap randomLine = printInt 3 ++ ' ' :: tail := by
    rcases more with _ | ⟨l3, more⟩
    · exact Or.inl rfl
    · obtain ⟨l, heq, hl⟩ := hrandom 3 (by rw [← hlen]; simp)
      cases heq
      have hid3 : l3.id = 3 := hl.id
      rw [List.flatMap_cons, randomLine_append, hid3]
      exact Or.inr ⟨_, rfl⟩
  rw [List.flatMap_cons, List.flatMap_cons, List.flatMap_cons, randomLine_append,
    randomLine_append, randomLine_append, hid1] at h
  -- the first client takes the number of the second one for its target
  obtain ⟨fuel₀, s, c₂, h₂, h⟩ := exists_second hl0 (by omega) hn rfl
    (by rw [hid0]; exact extractInt_token (by decide)) h
  have htail := h₂
  rw [randomTail] at htail
  obtain ⟨hcard, -, hinput, s', hstages⟩ :=
    second_eq hl0 hn hmem0 hback (by decide) (by decide) htail h
  have hcount : targetCount = 1 := by
    have hle := hl0.le_card
    have heq := hl0.card (by omega)
    omega
  obtain ⟨hcard1, hcard2⟩ := hl1.card hcount.le
  obtain ⟨-, hcard3⟩ := hl2.card hcount.le
  rw [hcount] at hcard1 hcard2 hcard3
  obtain ⟨input, stage₂, stages₂⟩ := c₂
  dsimp only at hinput hstages
  subst hinput hstages
  obtain ⟨fuel₁, h⟩ := exists_of_noStages (extractInt_blank_token (by decide))
    (readInt_of_extractInt extractInt_printTime_zero _) h
  have hne1 : l1.id ≠ l0.id := by omega
  have hne2 : l2.id ≠ l0.id := by omega
  refine false_of_shifted hl1 hl2 hn (by omega) hcard1 hcard2 hcard3 hmem0 hmem1 hmem2 hid0 hback
    ?_ ?_ ?_ hrest h
  · rw [SortedMap.find?_insert_self]
    rfl
  · rw [SortedMap.find?_insert_of_ne _ _ hne1, SortedMap.find?_insert_of_ne _ _ hne1]
    rfl
  · rw [SortedMap.find?_insert_of_ne _ _ hne2, SortedMap.find?_insert_of_ne _ _ hne2]
    rfl

end

/-! ## Both modes -/

theorem length_markClients (g : GraphData D) :
    (markClients g).myVertices.length = g.myVertices.length := by
  rw [markClients]
  generalize List.range g.myVertices.length = vs
  induction vs using List.reverseRecOn with
  | nil => rfl
  | append_singleton vs v ih =>
    rw [List.foldl_append, List.foldl_cons, List.foldl_nil]
    split_ifs
    · rw [GraphData.setString, List.length_modify, ih]
    · exact ih

theorem length_targetClients_le (g : GraphData D) :
    (targetClients g).length ≤ g.myVertices.length := by
  rw [targetClients, List.length_map]
  exact (List.length_filter_le _ _).trans (List.length_range).le

theorem isInt_vn {g : GraphData D} : ∀ id ∈ (targetClients g).map TargetClient.vn, IsInt id := by
  intro id hid
  obtain ⟨v, hv, rfl⟩ := List.mem_map.mp hid
  obtain ⟨i, -, rfl⟩ := List.mem_map.mp hv
  exact ⟨Int32.le_toInt _, Int32.toInt_lt _⟩

/-- **A list of targets is read back** if and only if it is one of the mode `dynsubtree` and each
client with a line is served. -/
theorem isReadBack_iff (g : MNGraph D) (left : Leftover) (stage : CommStage) (mode : DynamicMode)
    (rand : ℕ → ℕ) (targetCount : ℕ)
    (hclients : 3 ≤ (targetClients (markClients g.toGraphData)).length)
    (htrees : mode = .dynsubtree →
      2 ≤ subTreeCount (targetClients (markClients g.toGraphData))) :
    IsReadBack left stage mode rand (targetClients (markClients g.toGraphData)) targetCount ↔
      mode = .dynsubtree ∧
        Served rand (targetClients (markClients g.toGraphData)) targetCount := by
  have hlen : (targetClients (markClients g.toGraphData)).length < 2 ^ 31 := by
    refine (length_targetClients_le _).trans_lt ?_
    rw [length_markClients]
    exact g.built.vertices_lt
  cases mode with
  | dynrandom =>
    refine iff_of_false ?_ fun h => DynamicMode.noConfusion h.1
    rintro ⟨fuel, lines, stages, hlines, hread, hback⟩
    exact not_targetsRead_dynrandom hclients hlen hlines hread hback
  | dynsubtree =>
    rw [isReadBack_dynsubtree_iff left stage isInt_vn hlen (htrees rfl)]
    exact (and_iff_right rfl).symm

def subtreeVertex (vn subtree : Int32) : AttributeMap Unit :=
  ((∅ : AttributeMap Unit).setInteger (str "vn") vn).setInteger (str "subtree") subtree

/-- Three clients at a router, each of them in a subtree of its own. -/
def threeSubtrees : MNGraph Unit where
  myVertices := [subtreeVertex 0 0, subtreeVertex 1 1, subtreeVertex 2 2, ∅]
  myEdges := [⟨0, 3, ∅⟩, ⟨1, 3, ∅⟩, ⟨2, 3, ∅⟩, ⟨3, 0, ∅⟩, ⟨3, 1, ∅⟩, ⟨3, 2, ∅⟩]
  mySpecs := ∅
  built := by
    refine ⟨?_, ?_, by decide, by decide⟩ <;> decide

theorem targetClients_threeSubtrees :
    targetClients (markClients threeSubtrees.toGraphData) = [⟨0, 0⟩, ⟨1, 1⟩, ⟨2, 2⟩] := by
  decide

def zeroLeft : Leftover := ⟨fun _ _ => 0, fun _ _ => 0, 0⟩

/-- The third client has targets in the two other subtrees. -/
theorem isReadBack_threeSubtrees : IsReadBack zeroLeft ⟨[], 0⟩ .dynsubtree (fun _ => 0)
    (targetClients (markClients threeSubtrees.toGraphData)) 1 := by
  have hclients := targetClients_threeSubtrees
  refine (isReadBack_iff threeSubtrees zeroLeft ⟨[], 0⟩ .dynsubtree (fun _ => 0) 1 ?_ ?_).mpr
    ⟨rfl, served_of_nodup ?_⟩
  · rw [hclients]
    decide
  · rw [hclients]
    decide
  · rw [hclients]
    decide

/-- Three clients with a target each are not read back. -/
theorem not_isReadBack_dynrandom :
    (∃ fuel lines, generate .dynrandom (fun _ => 2)
      (targetClients (markClients threeSubtrees.toGraphData)) 1 fuel = some lines) ∧
    ¬IsReadBack zeroLeft ⟨[], 0⟩ .dynrandom (fun _ => 2)
      (targetClients (markClients threeSubtrees.toGraphData)) 1 := by
  rw [targetClients_threeSubtrees]
  refine ⟨⟨1, _, rfl⟩, ?_⟩
  rintro ⟨fuel, lines, stages, hlines, hread, hback⟩
  exact not_targetsRead_dynrandom (by decide) (by decide) hlines hread hback

end Modelnet.Tools

import Modelnet.Lib.Turns
import Modelnet.Tools.Gentargets

/-!
# Lists of targets of subtrees are read back

The targets of a client are the group of clients whose turn it is in a subtree, and a group is
found if the subtree has enough different numbers (`takeTurns_groupPlace`). A line of the mode
`dynsubtree` says all that `makedynamic` has to know (`readSender_lineTail`), and its stages are
added to those of its client. So the stages are those of the lines if the clients with a line have
different numbers (`targetsRead_iff`), which the topology need not give them.
-/

namespace Modelnet.Tools

variable {D : Type}

/-! ## The groups of targets -/

section

variable {ids : List ℤ} {want place k : ℕ}

theorem le_card_group_iff (h : want ≤ ids.toFinset.card) (hk : k ≤ Turns.turns ids want place) :
    want ≤ (Turns.group ids place k).card ↔ k = Turns.turns ids want place := by
  constructor
  · intro hwant
    by_contra hne
    exact absurd hwant (Turns.card_group_lt (lt_of_le_of_ne hk hne)).not_ge
  · rintro rfl
    exact Turns.le_card_group_turns h

theorem takeTurns_group (h : want ≤ ids.toFinset.card) (fuel : ℕ)
    (hk : k ≤ Turns.turns ids want place) :
    takeTurns ids want fuel (Turns.group ids place k) ((place + k) % ids.length) =
      if Turns.turns ids want place ≤ k + fuel then
        some (Turns.group ids place (Turns.turns ids want place),
          (place + Turns.turns ids want place) % ids.length)
      else none := by
  induction fuel generalizing k with
  | zero =>
    rw [takeTurns, Nat.add_zero]
    by_cases heq : k = Turns.turns ids want place
    · rw [if_pos ((le_card_group_iff h hk).mpr heq), if_pos heq.ge, heq]
    · rw [if_neg ((le_card_group_iff h hk).not.mpr heq), if_neg (by omega)]
  | succ fuel ih =>
    rw [takeTurns]
    by_cases heq : k = Turns.turns ids want place
    · rw [if_pos ((le_card_group_iff h hk).mpr heq), if_pos (by omega), heq]
    · have hlt : k < Turns.turns ids want place := lt_of_le_of_ne hk heq
      have hlen : k < ids.length := hlt.trans_le Turns.turns_le
      have hnext : ((place + k) % ids.length + 1) % ids.length =
          (place + (k + 1)) % ids.length := by
        rw [Nat.mod_add_mod, add_assoc]
      have hmod : (place + (k + 1)) % ids.length < ids.length := Nat.mod_lt _ (by omega)
      rw [if_neg ((le_card_group_iff h hk).not.mpr heq)]
      dsimp only
      rw [hnext, List.getElem?_eq_getElem hmod, Option.getD_some,
        ← Turns.group_succ hlen (List.getElem?_eq_getElem hmod), ih (k := k + 1) hlt,
        Nat.add_right_comm, Nat.add_assoc]

theorem takeTurns_eq_none (hids : ids ≠ []) (h : ids.toFinset.card < want) (fuel : ℕ)
    {targets : Finset ℤ} (htargets : targets ⊆ ids.toFinset) (t : ℕ) :
    takeTurns ids want fuel targets t = none := by
  have hnot {targets : Finset ℤ} (htargets : targets ⊆ ids.toFinset) : ¬want ≤ targets.card :=
    fun hwant => absurd (hwant.trans (Finset.card_le_card htargets)) (by omega)
  induction fuel generalizing targets t with
  | zero => rw [takeTurns, if_neg (hnot htargets)]
  | succ fuel ih =>
    have hmod : (t + 1) % ids.length < ids.length :=
      Nat.mod_lt _ (List.length_pos_of_ne_nil hids)
    rw [takeTurns, if_neg (hnot htargets)]
    dsimp only
    rw [List.getElem?_eq_getElem hmod]
    refine ih (Finset.insert_subset ?_ htargets) _
    exact List.mem_toFinset.mpr (List.getElem_mem hmod)

def groupPlace (ids : List ℤ) (want : ℕ) : ℕ → ℕ
  | 0 => 0
  | j + 1 => (groupPlace ids want j + Turns.turns ids want (groupPlace ids want j)) % ids.length

/-- The group whose turn it is after so many groups. -/
def groupTargets (ids : List ℤ) (want j : ℕ) : Finset ℤ :=
  Turns.group ids (groupPlace ids want j) (Turns.turns ids want (groupPlace ids want j))

theorem groupPlace_mod (j : ℕ) : groupPlace ids want j % ids.length = groupPlace ids want j := by
  cases j with
  | zero => exact Nat.zero_mod _
  | succ j => exact Nat.mod_mod _ _

theorem groupTargets_subset (j : ℕ) : groupTargets ids want j ⊆ ids.toFinset := Turns.group_subset

theorem takeTurns_groupPlace (h : want ≤ ids.toFinset.card) (fuel j : ℕ) :
    takeTurns ids want fuel ∅ (groupPlace ids want j) =
      if Turns.turns ids want (groupPlace ids want j) ≤ fuel then
        some (groupTargets ids want j, groupPlace ids want (j + 1))
      else none := by
  have hgroup := takeTurns_group h fuel (Nat.zero_le (Turns.turns ids want (groupPlace ids want j)))
  rwa [Turns.group_zero, Nat.add_zero, groupPlace_mod, Nat.zero_add] at hgroup

theorem takeTurns_groupPlace_of_length (h : want ≤ ids.toFinset.card) {fuel : ℕ}
    (hfuel : ids.length ≤ fuel) (j : ℕ) :
    takeTurns ids want fuel ∅ (groupPlace ids want j) =
      some (groupTargets ids want j, groupPlace ids want (j + 1)) := by
  rw [takeTurns_groupPlace h, if_pos (Turns.turns_le.trans hfuel)]

theorem eq_of_takeTurns {fuel j : ℕ} {r : Finset ℤ × ℕ} (hlen : want ≤ ids.length)
    (h : takeTurns ids want fuel ∅ (groupPlace ids want j) = some r) :
    want ≤ ids.toFinset.card ∧ r = (groupTargets ids want j, groupPlace ids want (j + 1)) := by
  have hcard : want ≤ ids.toFinset.card := by
    by_contra hnot
    have hids : ids ≠ [] := by
      rintro rfl
      exact hnot hlen
    rw [takeTurns_eq_none hids (not_le.mp hnot) fuel (Finset.empty_subset _)] at h
    cases h
  rw [takeTurns_groupPlace hcard] at h
  split_ifs at h
  exact ⟨hcard, (Option.some.inj h).symm⟩

end

/-! ## The lines of `subtreeDynamicTargets` -/

section

variable (rand : ℕ → ℕ) (clients : List TargetClient) (targetCount : ℕ)

/-- A client in one of the two subtrees gets no line. -/
def InTargets (v : TargetClient) : Prop :=
  v.subtree = firstSubtree rand clients ∨ v.subtree = secondSubtree rand clients

instance (v : TargetClient) : Decidable (InTargets rand clients v) :=
  inferInstanceAs (Decidable (_ ∨ _))

/-- The numbers of the clients outside the two subtrees, among some of the clients. -/
def outsiders (vs : List TargetClient) : List ℤ :=
  (vs.filter fun v => ¬InTargets rand clients v).map TargetClient.vn

/-- How many targets there are to be in a subtree. -/
def wanted (ids : List ℤ) : ℕ := min targetCount ids.length

/-- The line of a client, which is the next one after so many lines. -/
def groupLine (j : ℕ) (id : ℤ) : TargetLine where
  id := id
  targets1 :=
    let ids := subTree clients (firstSubtree rand clients)
    groupTargets ids (wanted targetCount ids) j
  switchTime := rand (2 + j) % 10000
  targets2 :=
    let ids := subTree clients (secondSubtree rand clients)
    groupTargets ids (wanted targetCount ids) j

/-- What the loop has come to after some of the clients. -/
def subtreeStateAfter (vs : List TargetClient) : SubtreeState :=
  let ids1 := subTree clients (firstSubtree rand clients)
  let ids2 := subTree clients (secondSubtree rand clients)
  let ids := outsiders rand clients vs
  ⟨groupPlace ids1 (wanted targetCount ids1) ids.length,
    groupPlace ids2 (wanted targetCount ids2) ids.length, 2 + ids.length,
    ids.mapIdx (groupLine rand clients targetCount)⟩

/-- A subtree has enough different numbers. -/
def HasEnough (ids : List ℤ) : Prop := wanted targetCount ids ≤ ids.toFinset.card

variable {rand clients targetCount} {fuel : ℕ} {vs : List TargetClient} {v : TargetClient}

theorem outsiders_append_of_mem (hv : InTargets rand clients v) :
    outsiders rand clients (vs ++ [v]) = outsiders rand clients vs := by
  simp [outsiders, hv]

theorem outsiders_append_of_not_mem (hv : ¬InTargets rand clients v) :
    outsiders rand clients (vs ++ [v]) = outsiders rand clients vs ++ [v.vn] := by
  simp [outsiders, hv]

theorem subtreeTurn_of_mem (hv : InTargets rand clients v) :
    subtreeTurn rand clients targetCount fuel (subtreeStateAfter rand clients targetCount vs) v =
      some (subtreeStateAfter rand clients targetCount (vs ++ [v])) := by
  rw [subtreeTurn, if_pos (show _ ∨ _ from hv), subtreeStateAfter, subtreeStateAfter,
    outsiders_append_of_mem hv]

/-- The state after a client that gets the two groups whose turn it is. -/
theorem subtreeStateAfter_append (hv : ¬InTargets rand clients v) :
    subtreeStateAfter rand clients targetCount (vs ++ [v]) =
      let ids1 := subTree clients (firstSubtree rand clients)
      let ids2 := subTree clients (secondSubtree rand clients)
      let s := subtreeStateAfter rand clients targetCount vs
      let j := (outsiders rand clients vs).length
      ⟨groupPlace ids1 (wanted targetCount ids1) (j + 1),
        groupPlace ids2 (wanted targetCount ids2) (j + 1), s.draws + 1,
        s.lines ++ [⟨v.vn, groupTargets ids1 (wanted targetCount ids1) j, rand s.draws % 10000,
          groupTargets ids2 (wanted targetCount ids2) j⟩]⟩ := by
  rw [subtreeStateAfter, outsiders_append_of_not_mem hv, List.length_append, List.mapIdx_concat]
  rfl

theorem subtreeTurn_of_hasEnough (hv : ¬InTargets rand clients v)
    (h1 : HasEnough targetCount (subTree clients (firstSubtree rand clients)))
    (h2 : HasEnough targetCount (subTree clients (secondSubtree rand clients)))
    (hfuel1 : (subTree clients (firstSubtree rand clients)).length ≤ fuel)
    (hfuel2 : (subTree clients (secondSubtree rand clients)).length ≤ fuel) :
    subtreeTurn rand clients targetCount fuel (subtreeStateAfter rand clients targetCount vs) v =
      some (subtreeStateAfter rand clients targetCount (vs ++ [v])) := by
  have ht1 := takeTurns_groupPlace_of_length h1 hfuel1 (outsiders rand clients vs).length
  have ht2 := takeTurns_groupPlace_of_length h2 hfuel2 (outsiders rand clients vs).length
  rw [subtreeTurn, if_neg (show ¬(_ ∨ _) from hv), subtreeStateAfter_append hv]
  unfold wanted at ht1 ht2
  show (takeTurns _ _ _ _ (groupPlace _ (wanted _ _) _)).bind _ = _
  unfold wanted
  rw [ht1, Option.bind_some]
  show (takeTurns _ _ _ _ (groupPlace _ (wanted _ _) _)).bind _ = _
  unfold wanted
  rw [ht2, Option.bind_some]

theorem eq_of_subtreeTurn {s : SubtreeState} (hv : ¬InTargets rand clients v)
    (h : subtreeTurn rand clients targetCount fuel
      (subtreeStateAfter rand clients targetCount vs) v = some s) :
    HasEnough targetCount (subTree clients (firstSubtree rand clients)) ∧
      HasEnough targetCount (subTree clients (secondSubtree rand clients)) ∧
        s = subtreeStateAfter rand clients targetCount (vs ++ [v]) := by
  rw [subtreeTurn, if_neg (show ¬(_ ∨ _) from hv)] at h
  obtain ⟨r1, hr1, h⟩ := Option.bind_eq_some_iff.mp h
  obtain ⟨r2, hr2, h⟩ := Option.bind_eq_some_iff.mp h
  obtain ⟨h1, rfl⟩ := eq_of_takeTurns (min_le_right _ _) hr1
  obtain ⟨h2, rfl⟩ := eq_of_takeTurns (min_le_right _ _) hr2
  cases h
  exact ⟨h1, h2, (subtreeStateAfter_append hv).symm⟩

variable (rand clients targetCount) in
/-- If there is a line, both subtrees have enough different numbers. -/
def EnoughFor (vs : List TargetClient) : Prop :=
  outsiders rand clients vs ≠ [] →
    HasEnough targetCount (subTree clients (firstSubtree rand clients)) ∧
      HasEnough targetCount (subTree clients (secondSubtree rand clients))

theorem foldlM_subtreeTurn (h : EnoughFor rand clients targetCount vs)
    (hfuel1 : (subTree clients (firstSubtree rand clients)).length ≤ fuel)
    (hfuel2 : (subTree clients (secondSubtree rand clients)).length ≤ fuel) :
    vs.foldlM (subtreeTurn rand clients targetCount fuel) ⟨0, 0, 2, []⟩ =
      some (subtreeStateAfter rand clients targetCount vs) := by
  induction vs using List.reverseRecOn with
  | nil => rfl
  | append_singleton vs v ih =>
    simp only [List.foldlM_append, List.foldlM_cons, List.foldlM_nil, bind_pure]
    by_cases hv : InTargets rand clients v
    · rw [EnoughFor, outsiders_append_of_mem hv] at h
      rw [ih h]
      exact subtreeTurn_of_mem hv
    · obtain ⟨h1, h2⟩ := h (by simp [outsiders_append_of_not_mem hv])
      rw [ih fun _ => ⟨h1, h2⟩]
      exact subtreeTurn_of_hasEnough hv h1 h2 hfuel1 hfuel2

theorem eq_of_foldlM_subtreeTurn {s : SubtreeState}
    (h : vs.foldlM (subtreeTurn rand clients targetCount fuel) ⟨0, 0, 2, []⟩ = some s) :
    EnoughFor rand clients targetCount vs ∧
      s = subtreeStateAfter rand clients targetCount vs := by
  induction vs using List.reverseRecOn generalizing s with
  | nil =>
    cases h
    exact ⟨fun hne => absurd rfl hne, rfl⟩
  | append_singleton vs v ih =>
    simp only [List.foldlM_append, List.foldlM_cons, List.foldlM_nil, bind_pure] at h
    obtain ⟨s', hs', h⟩ := Option.bind_eq_some_iff.mp h
    obtain ⟨henough, rfl⟩ := ih hs'
    by_cases hv : InTargets rand clients v
    · rw [subtreeTurn_of_mem hv] at h
      cases h
      rw [EnoughFor, outsiders_append_of_mem hv]
      exact ⟨henough, rfl⟩
    · obtain ⟨h1, h2, rfl⟩ := eq_of_subtreeTurn hv h
      exact ⟨fun _ => ⟨h1, h2⟩, rfl⟩

variable (rand clients targetCount) in
/-- A line for each of the clients outside the two subtrees. -/
def subtreeLines : List TargetLine :=
  (outsiders rand clients clients).mapIdx (groupLine rand clients targetCount)

/-- **The lines of `subtreeDynamicTargets`**, for which there have to be enough numbers. -/
theorem subtreeDynamicTargets_eq_some_iff (htrees : 2 ≤ subTreeCount clients)
    {lines : List TargetLine} :
    (∃ fuel, subtreeDynamicTargets rand clients targetCount fuel = some lines) ↔
      EnoughFor rand clients targetCount clients ∧
        lines = subtreeLines rand clients targetCount := by
  have hcount : ¬subTreeCount clients ≤ 1 := by omega
  constructor
  · rintro ⟨fuel, h⟩
    rw [subtreeDynamicTargets, if_neg hcount] at h
    obtain ⟨s, hs, rfl⟩ := Option.map_eq_some_iff.mp h
    obtain ⟨henough, rfl⟩ := eq_of_foldlM_subtreeTurn hs
    exact ⟨henough, rfl⟩
  · rintro ⟨henough, rfl⟩
    refine ⟨max (subTree clients (firstSubtree rand clients)).length
      (subTree clients (secondSubtree rand clients)).length, ?_⟩
    rw [subtreeDynamicTargets, if_neg hcount,
      foldlM_subtreeTurn henough (le_max_left _ _) (le_max_right _ _)]
    rfl

end

/-! ## Reading lines of `subtreeDynamicTargets` -/

/-- A stage with a set of targets, which the vector has in descending order. -/
def targetStage (targets : Finset ℤ) (k : ℕ) : CommStage where
  targets := (ascending targets).reverse
  when := k / 10000

def lineStages (l : TargetLine) : List CommStage :=
  [targetStage l.targets1 0, targetStage l.targets2 l.switchTime]

/-- `stages[sender].push_back(stage)`, for the stages of a line. -/
def pushLine (stages : SortedMap ℤ (List CommStage)) (l : TargetLine) :
    SortedMap ℤ (List CommStage) :=
  let stages := stages.insert l.id ((stages.find? l.id).getD [] ++ [targetStage l.targets1 0])
  stages.insert l.id ((stages.find? l.id).getD [] ++ [targetStage l.targets2 l.switchTime])

/-- The numbers of a line are numbers that can be read. -/
structure Printable (l : TargetLine) : Prop where
  id : IsInt l.id
  card1 : IsInt l.targets1.card
  mem1 : ∀ t ∈ l.targets1, IsInt t
  time : l.switchTime < 10000
  card2 : IsInt l.targets2.card
  mem2 : ∀ t ∈ l.targets2, IsInt t

section

variable {left : Leftover} {l : TargetLine} {lines : List TargetLine} {rest : List Char}

theorem readStage_setText {sender n : ℤ} {c : CommMap} {cs : List Char} {targets : Finset ℤ}
    {k : ℕ} (hinput : c.input = some cs)
    (hwhen : extractDouble cs = some ((k : ℚ) / 10000,
      ' ' :: (printInt targets.card ++ ' ' :: (setText targets ++ rest))))
    (hcard : IsInt targets.card) (hmem : ∀ t ∈ targets, IsInt t) :
    readStage left sender n c = some ⟨some (' ' :: rest), targetStage targets k,
      c.stages.insert sender ((c.stages.find? sender).getD [] ++ [targetStage targets k])⟩ := by
  refine readStage_tokens hinput hwhen ?_ fun t ht => hmem t (mem_ascending.mp ht)
  rw [length_ascending]
  exact extractInt_blank_token hcard

def lineTail (l : TargetLine) (rest : List Char) : List Char :=
  ' ' :: (printInt 2 ++ ' ' :: ("0.0".toList ++ ' ' :: (printInt l.targets1.card ++
    ' ' :: (setText l.targets1 ++ (printTime l.switchTime ++ ' ' :: (printInt l.targets2.card ++
      ' ' :: (setText l.targets2 ++ '\n' :: rest)))))))

theorem subtreeLine_append (l : TargetLine) (rest : List Char) :
    subtreeLine l ++ rest = printInt l.id ++ lineTail l rest := by
  have htwo : printInt 2 = ['2'] := by decide
  simp [subtreeLine, lineTail, htwo]

theorem extractDouble_zero : extractDouble (' ' :: ("0.0".toList ++ ' ' :: rest)) =
    some (((0 : ℕ) : ℚ) / 10000, ' ' :: rest) := by
  simp [extractDouble, extractFraction, isspace, fraction, Nat.ofDigitChars]

/-- **A line is read as its two stages.** -/
theorem readSender_lineTail (hl : Printable l) {c : CommMap}
    (hinput : c.input = some (lineTail l rest)) :
    ∃ stage, readSender left l.id c =
      some ⟨some (' ' :: '\n' :: rest), stage, pushLine c.stages l⟩ := by
  have htime : extractDouble (' ' :: (printTime l.switchTime ++ ' ' :: (printInt l.targets2.card ++
      ' ' :: (setText l.targets2 ++ '\n' :: rest)))) = some ((l.switchTime : ℚ) / 10000,
        ' ' :: (printInt l.targets2.card ++ ' ' :: (setText l.targets2 ++ '\n' :: rest))) := by
    rw [extractDouble_space (by decide), extractDouble_printTime hl.time]
  refine ⟨targetStage l.targets2 l.switchTime, ?_⟩
  rw [readSender, hinput, lineTail, readInt_token (by decide)]
  dsimp only
  rw [if_neg (by decide)]
  show (readStage left l.id _ _).bind _ = _
  rw [readStage_setText rfl extractDouble_zero hl.card1 hl.mem1, Option.bind_some]
  show (readStage left l.id _ _).bind _ = _
  rw [readStage_setText rfl htime hl.card2 hl.mem2]
  rfl

theorem extractInt_blanks {pre : List Char} (hpre : ∀ x ∈ pre, isspace x = true) (cs : List Char) :
    extractInt (pre ++ cs) = extractInt cs := by
  induction pre with
  | nil => rfl
  | cons x pre ih =>
    rw [List.cons_append, extractInt_space (hpre x List.mem_cons_self)]
    exact ih fun y hy => hpre y (List.mem_cons_of_mem _ hy)

theorem readCommLines_subtreeLines (hlines : ∀ l ∈ lines, Printable l) {fuel : ℕ}
    (hfuel : lines.length < fuel) {pre : List Char} (hpre : ∀ x ∈ pre, isspace x = true)
    (stage : CommStage) (stages : SortedMap ℤ (List CommStage)) :
    ((readCommLines left fuel ⟨some (pre ++ lines.flatMap subtreeLine), stage, stages⟩).map
      CommMap.stages) = some (lines.foldl pushLine stages) := by
  induction lines generalizing fuel pre stage stages with
  | nil =>
    obtain ⟨fuel, rfl⟩ := Nat.exists_eq_succ_of_ne_zero (Nat.ne_zero_of_lt hfuel)
    have hnone : extractInt [] = none := by decide
    rw [readCommLines, Option.bind_some, List.flatMap_nil, extractInt_blanks hpre, hnone]
    rfl
  | cons l lines ih =>
    obtain ⟨fuel, rfl⟩ := Nat.exists_eq_succ_of_ne_zero (Nat.ne_zero_of_lt hfuel)
    obtain ⟨hl, hlines⟩ := List.forall_mem_cons.mp hlines
    have hid : extractInt (pre ++ (l :: lines).flatMap subtreeLine) =
        some (l.id, lineTail l (lines.flatMap subtreeLine)) := by
      rw [extractInt_blanks hpre, List.flatMap_cons, subtreeLine_append]
      exact extractInt_token hl.id
    obtain ⟨stage', hread⟩ : ∃ stage', readSender left l.id
        ⟨some (lineTail l (lines.flatMap subtreeLine)), stage, stages⟩ =
          some ⟨some (' ' :: '\n' :: lines.flatMap subtreeLine), stage', pushLine stages l⟩ :=
      readSender_lineTail hl rfl
    rw [readCommLines, Option.bind_some, hid]
    dsimp only
    rw [hread, Option.bind_some]
    have hblank : ∀ x ∈ [' ', '\n'], isspace x = true := by simp [isspace]
    exact ih hlines (Nat.lt_of_succ_lt_succ hfuel) hblank stage' (pushLine stages l)

theorem length_le_length_subtreeLines (lines : List TargetLine) :
    lines.length ≤ (lines.flatMap subtreeLine).length := by
  induction lines with
  | nil => exact Nat.zero_le _
  | cons l lines ih =>
    have hpos : 1 ≤ (subtreeLine l).length := by
      rw [subtreeLine, List.length_append]
      exact Nat.le_add_left 1 _
    rw [List.flatMap_cons, List.length_append, List.length_cons]
    omega

theorem readCommMap_subtreeLines (hlines : ∀ l ∈ lines, Printable l) (stage : CommStage) :
    readCommMap left stage (lines.flatMap subtreeLine) = some (lines.foldl pushLine ∅) := by
  have hblank : ∀ x ∈ ([] : List Char), isspace x = true := List.forall_mem_nil _
  exact readCommLines_subtreeLines hlines (Nat.lt_succ_of_le (length_le_length_subtreeLines lines))
    hblank stage ∅

end

/-! ## What is to be read -/

/-- A stage with the given start and set of targets. -/
structure Matches (stage : CommStage) (when : ℚ) (targets : Finset ℤ) : Prop where
  when : stage.when = when
  targets : (stage.targets : Multiset ℤ) = targets.val

/-- The targets of a line are clients other than its own one. -/
def ValidLine (numbers : List ℤ) (l : TargetLine) : Prop :=
  ∀ t ∈ l.targets1 ∪ l.targets2, t ∈ numbers ∧ t ≠ l.id

/-- Each client with a line has its two stages, and no other one has a stage. -/
structure TargetsRead (numbers : List ℤ) (lines : List TargetLine)
    (stages : SortedMap ℤ (List CommStage)) : Prop where
  two : ∀ l ∈ lines, ∃ s1 s2, (stages.find? l.id).getD [] = [s1, s2] ∧
    Matches s1 0 l.targets1 ∧ Matches s2 ((l.switchTime : ℚ) / 10000) l.targets2
  valid : ∀ l ∈ lines, ValidLine numbers l
  others : ∀ id ∉ lines.map TargetLine.id, (stages.find? id).getD [] = []

theorem matches_targetStage (targets : Finset ℤ) (k : ℕ) :
    Matches (targetStage targets k) ((k : ℚ) / 10000) targets where
  when := rfl
  targets := by
    rw [targetStage, ← Multiset.coe_reverse, List.reverse_reverse]
    exact coe_ascending _

section

variable {l : TargetLine} {lines : List TargetLine} {stages : SortedMap ℤ (List CommStage)} {id : ℤ}

theorem find?_pushLine_self : ((pushLine stages l).find? l.id).getD [] =
    (stages.find? l.id).getD [] ++ lineStages l := by
  simp [pushLine, lineStages]

theorem find?_pushLine_of_ne (h : id ≠ l.id) : (pushLine stages l).find? id = stages.find? id := by
  rw [pushLine, SortedMap.find?_insert_of_ne _ _ h, SortedMap.find?_insert_of_ne _ _ h]

/-- A client has the stages of its lines, in their order. -/
theorem find?_foldl_pushLine : ((lines.foldl pushLine stages).find? id).getD [] =
    (stages.find? id).getD [] ++ (lines.filter fun l => l.id = id).flatMap lineStages := by
  induction lines generalizing stages with
  | nil => simp
  | cons l lines ih =>
    rw [List.foldl_cons, ih]
    by_cases hid : l.id = id
    · subst hid
      rw [find?_pushLine_self, List.filter_cons_of_pos (by simp), List.flatMap_cons,
        List.append_assoc]
    · rw [find?_pushLine_of_ne (Ne.symm hid), List.filter_cons_of_neg (by simpa using hid)]

theorem length_lineStages : (lines.flatMap lineStages).length = 2 * lines.length := by
  induction lines with
  | nil => rfl
  | cons l lines ih =>
    rw [List.flatMap_cons, List.length_append, ih, List.length_cons]
    simp only [lineStages, List.length_cons, List.length_nil]
    omega

theorem count_id : (lines.map TargetLine.id).count id =
    (lines.filter fun l => l.id = id).length := by
  rw [List.count_eq_countP, List.countP_map, List.countP_eq_length_filter]
  rfl

theorem filter_id (hnodup : (lines.map TargetLine.id).Nodup) (hl : l ∈ lines) :
    (lines.filter fun l' => l'.id = l.id) = [l] := by
  have hlen := List.count_eq_one_of_mem hnodup (List.mem_map_of_mem hl)
  rw [count_id, List.length_eq_one_iff] at hlen
  obtain ⟨l', heq⟩ := hlen
  have hmem : l ∈ lines.filter fun l' => l'.id = l.id := List.mem_filter.mpr ⟨hl, by simp⟩
  rw [heq, List.mem_singleton] at hmem
  rw [heq, hmem]

/-- **The lines are read back** if and only if they are of different clients and valid. -/
theorem targetsRead_iff {numbers : List ℤ} : TargetsRead numbers lines (lines.foldl pushLine ∅) ↔
    (lines.map TargetLine.id).Nodup ∧ ∀ l ∈ lines, ValidLine numbers l := by
  have hstages (id : ℤ) : ((lines.foldl pushLine ∅).find? id).getD [] =
      (lines.filter fun l => l.id = id).flatMap lineStages := find?_foldl_pushLine
  constructor
  · intro h
    refine ⟨List.nodup_iff_count_le_one.mpr fun id => ?_, h.valid⟩
    by_cases hid : id ∈ lines.map TargetLine.id
    · obtain ⟨l, hl, rfl⟩ := List.mem_map.mp hid
      obtain ⟨s1, s2, heq, -, -⟩ := h.two l hl
      have hlen := congrArg List.length ((hstages l.id).symm.trans heq)
      rw [length_lineStages] at hlen
      rw [count_id]
      exact (Nat.eq_of_mul_eq_mul_left Nat.two_pos hlen).le
    · rw [List.count_eq_zero_of_not_mem hid]
      exact Nat.zero_le 1
  · rintro ⟨hnodup, hvalid⟩
    refine ⟨fun l hl => ?_, hvalid, fun id hid => ?_⟩
    · refine ⟨targetStage l.targets1 0, targetStage l.targets2 l.switchTime, ?_, ?_,
        matches_targetStage _ _⟩
      · rw [hstages, filter_id hnodup hl]
        rfl
      · simpa using matches_targetStage l.targets1 0
    · rw [hstages, List.filter_eq_nil_iff.mpr, List.flatMap_nil]
      intro l hl hlid
      exact hid (List.mem_map.mpr ⟨l, hl, by simpa using hlid⟩)

end

/-! ## The mode `dynsubtree` -/

/-- A list is made, it can be read, and it is read back. -/
def IsReadBack (left : Leftover) (stage : CommStage) (mode : DynamicMode) (rand : ℕ → ℕ)
    (clients : List TargetClient) (targetCount : ℕ) : Prop :=
  ∃ fuel lines stages, generate mode rand clients targetCount fuel = some lines ∧
    readCommMap left stage (listText mode lines) = some stages ∧
      TargetsRead (clientNumbers mode clients) lines stages

/-- The clients outside the two subtrees have different numbers, both subtrees have enough
different ones, and no client gets its own number when a subtree takes turns. -/
structure Served (rand : ℕ → ℕ) (clients : List TargetClient) (targetCount : ℕ) : Prop where
  distinct : (outsiders rand clients clients).Nodup
  enough : EnoughFor rand clients targetCount clients
  others : ∀ j id, (outsiders rand clients clients)[j]? = some id →
    ∀ subtree ∈ [firstSubtree rand clients, secondSubtree rand clients],
      id ∉ groupTargets (subTree clients subtree)
        (wanted targetCount (subTree clients subtree)) j

section

variable {rand : ℕ → ℕ} {clients : List TargetClient} {targetCount : ℕ}

theorem map_id_subtreeLines : (subtreeLines rand clients targetCount).map TargetLine.id =
    outsiders rand clients clients := by
  apply List.ext_getElem?
  intro j
  rw [subtreeLines, List.getElem?_map, List.getElem?_mapIdx, Option.map_map]
  exact Option.map_id'

theorem mem_subtreeLines {l : TargetLine} : l ∈ subtreeLines rand clients targetCount ↔
    ∃ j id, (outsiders rand clients clients)[j]? = some id ∧
      groupLine rand clients targetCount j id = l := by
  rw [subtreeLines, List.mem_iff_getElem?]
  simp only [List.getElem?_mapIdx, Option.map_eq_some_iff]

theorem mem_vn_of_mem_subTree {subtree id : ℤ} (h : id ∈ subTree clients subtree) :
    id ∈ clients.map TargetClient.vn := by
  obtain ⟨v, hv, rfl⟩ := List.mem_map.mp h
  exact List.mem_map_of_mem (List.mem_of_mem_filter hv)

theorem length_subTree_le (subtree : ℤ) : (subTree clients subtree).length ≤ clients.length := by
  rw [subTree, List.length_map]
  exact List.length_filter_le _ _

theorem mem_vn_of_mem_groupTargets {subtree t : ℤ} {want j : ℕ}
    (h : t ∈ groupTargets (subTree clients subtree) want j) : t ∈ clients.map TargetClient.vn :=
  mem_vn_of_mem_subTree (List.mem_toFinset.mp (groupTargets_subset j h))

theorem card_groupTargets_le {subtree : ℤ} {want j : ℕ} :
    (groupTargets (subTree clients subtree) want j).card ≤ clients.length :=
  Turns.card_group_le.trans ((List.toFinset_card_le _).trans (length_subTree_le subtree))

theorem validLine_groupLine_iff {j : ℕ} {id : ℤ} :
    ValidLine (clients.map TargetClient.vn) (groupLine rand clients targetCount j id) ↔
      ∀ subtree ∈ [firstSubtree rand clients, secondSubtree rand clients],
        id ∉ groupTargets (subTree clients subtree)
          (wanted targetCount (subTree clients subtree)) j := by
  constructor
  · intro h subtree hsubtree hid
    rcases List.mem_pair.mp hsubtree with rfl | rfl
    · exact (h id (Finset.mem_union_left _ hid)).2 rfl
    · exact (h id (Finset.mem_union_right _ hid)).2 rfl
  · intro h t ht
    rcases Finset.mem_union.mp ht with ht | ht
    · refine ⟨mem_vn_of_mem_groupTargets ht, ?_⟩
      rintro rfl
      exact h _ (by simp) ht
    · refine ⟨mem_vn_of_mem_groupTargets ht, ?_⟩
      rintro rfl
      exact h _ (by simp) ht

theorem printable_groupLine (hvn : ∀ id ∈ clients.map TargetClient.vn, IsInt id)
    (hlen : clients.length < 2 ^ 31) {j : ℕ} {id : ℤ} (hid : id ∈ outsiders rand clients clients) :
    Printable (groupLine rand clients targetCount j id) := by
  have hcard {subtree : ℤ} {want : ℕ} :
      IsInt (groupTargets (subTree clients subtree) want j).card := by
    have hle : (groupTargets (subTree clients subtree) want j).card ≤ clients.length :=
      card_groupTargets_le
    constructor <;> omega
  obtain ⟨v, hv, rfl⟩ := List.mem_map.mp hid
  exact
    { id := hvn _ (List.mem_map_of_mem (List.mem_of_mem_filter hv))
      card1 := hcard
      mem1 := fun t ht => hvn t (mem_vn_of_mem_groupTargets ht)
      time := Nat.mod_lt _ (by decide)
      card2 := hcard
      mem2 := fun t ht => hvn t (mem_vn_of_mem_groupTargets ht) }

theorem served_of_nodup (hnodup : (clients.map TargetClient.vn).Nodup) :
    Served rand clients targetCount where
  distinct := hnodup.sublist (List.Sublist.map _ (List.filter_sublist))
  enough := by
    have hids (subtree : ℤ) : HasEnough targetCount (subTree clients subtree) := by
      have hsub : (subTree clients subtree).Nodup :=
        hnodup.sublist (List.Sublist.map _ (List.filter_sublist))
      rw [HasEnough, List.toFinset_card_of_nodup hsub]
      exact min_le_right _ _
    exact fun _ => ⟨hids _, hids _⟩
  others := by
    intro j id hid subtree hsubtree htarget
    obtain ⟨v, hv, rfl⟩ := List.mem_map.mp (List.mem_of_getElem? hid)
    obtain ⟨w, hw, heq⟩ := List.mem_map.mp (List.mem_toFinset.mp (groupTargets_subset j htarget))
    obtain ⟨hv, hout⟩ := List.mem_filter.mp hv
    obtain ⟨hw, hin⟩ := List.mem_filter.mp hw
    obtain rfl := List.inj_on_of_nodup_map hnodup hw hv heq
    have hsame : w.subtree = subtree := by simpa using hin
    have hnot : ¬InTargets rand clients w := by simpa using hout
    rcases List.mem_pair.mp hsubtree with rfl | rfl
    · exact hnot (Or.inl hsame)
    · exact hnot (Or.inr hsame)

theorem isReadBack_dynsubtree_iff (left : Leftover) (stage : CommStage)
    (hvn : ∀ id ∈ clients.map TargetClient.vn, IsInt id) (hlen : clients.length < 2 ^ 31)
    (htrees : 2 ≤ subTreeCount clients) :
    IsReadBack left stage .dynsubtree rand clients targetCount ↔
      Served rand clients targetCount := by
  have hread :
      readCommMap left stage ((subtreeLines rand clients targetCount).flatMap subtreeLine) =
        some ((subtreeLines rand clients targetCount).foldl pushLine ∅) := by
    refine readCommMap_subtreeLines (fun l hl => ?_) stage
    obtain ⟨j, id, hid, rfl⟩ := mem_subtreeLines.mp hl
    exact printable_groupLine hvn hlen (List.mem_of_getElem? hid)
  constructor
  · rintro ⟨fuel, lines, stages, hlines, hstages, hback⟩
    obtain ⟨henough, rfl⟩ := (subtreeDynamicTargets_eq_some_iff htrees).mp ⟨fuel, hlines⟩
    obtain rfl := Option.some.inj (hread.symm.trans hstages)
    obtain ⟨hnodup, hvalid⟩ := targetsRead_iff.mp hback
    rw [map_id_subtreeLines] at hnodup
    refine ⟨hnodup, henough, fun j id hid => ?_⟩
    exact validLine_groupLine_iff.mp (hvalid _ (mem_subtreeLines.mpr ⟨j, id, hid, rfl⟩))
  · intro h
    obtain ⟨fuel, hlines⟩ := (subtreeDynamicTargets_eq_some_iff htrees).mpr ⟨h.enough, rfl⟩
    refine ⟨fuel, _, _, hlines, hread, targetsRead_iff.mpr ⟨?_, fun l hl => ?_⟩⟩
    · rw [map_id_subtreeLines]
      exact h.distinct
    · obtain ⟨j, id, hid, rfl⟩ := mem_subtreeLines.mp hl
      exact validLine_groupLine_iff.mpr (h.others j id hid)

end

end Modelnet.Tools

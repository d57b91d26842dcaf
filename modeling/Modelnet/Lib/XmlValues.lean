import Modelnet.Lib.Xml

/-!
# Where attribute values come from

Every value that a reader finds has been read off a stretch of the text, piece by piece: a character
that stands for itself, white space, or a reference. A reference is longer than what it stands for
(`Decodes.exists_longer`), which is what makes it impossible that texts with `&` in them are all read
back as they were written (`not_mem_amp_of_read_back`). A tag keeps its name and the attributes that
it has until it ends (`lex_within`).
-/

namespace Xml

/-! ## Pieces -/

/-- A piece of a value and the character it is read as. -/
inductive Piece : List Char → Char → Prop
  | char {c : Char} : isChar c → c ≠ '<' → c ≠ '&' → isSpace c = false → Piece [c] c
  | space {c : Char} : isSpace c → Piece [c] ' '
  | lineBreak : Piece ['\r', '\n'] ' '
  | ref {body : List Char} {c : Char} :
    (∀ d ∈ body, isNameChar d ∨ d = '#') → Piece ('&' :: body ++ [';']) c

/-- A text is read as a value. -/
def Decodes (raw value : List Char) : Prop :=
  ∃ pieces : List (List Char × Char), (∀ p ∈ pieces, Piece p.1 p.2) ∧
    raw = pieces.flatMap Prod.fst ∧ value = pieces.map Prod.snd

theorem decodes_nil : Decodes [] [] := ⟨[], by simp, rfl, rfl⟩

theorem Decodes.push {raw value piece : List Char} {c : Char} (h : Decodes raw value)
    (hp : Piece piece c) : Decodes (raw ++ piece) (value ++ [c]) := by
  obtain ⟨pieces, hpieces, rfl, rfl⟩ := h
  refine ⟨pieces ++ [(piece, c)], fun p hmem => ?_, by simp, by simp⟩
  rcases List.mem_append.mp hmem with hmem | hmem
  · exact hpieces p hmem
  · rw [List.mem_singleton.mp hmem]
    exact hp

theorem Piece.isPlain {raw : List Char} {c : Char} (h : Piece raw c) (hamp : '&' ∉ raw) :
    isPlain c := by
  cases h with
  | char hchar hlt hne hspace =>
    refine isPlain_iff.mpr ⟨hchar, hlt, hne, ?_, ?_, ?_⟩ <;>
      (rintro rfl; exact absurd hspace (by decide))
  | space => decide
  | lineBreak => decide
  | ref => exact absurd List.mem_cons_self hamp

theorem Decodes.isPlain {raw value : List Char} (h : Decodes raw value) (hamp : '&' ∉ raw) :
    ∀ c ∈ value, isPlain c := by
  obtain ⟨pieces, hpieces, rfl, rfl⟩ := h
  intro c hc
  obtain ⟨p, hp, rfl⟩ := List.mem_map.mp hc
  exact (hpieces p hp).isPlain fun hmem => hamp (List.mem_flatMap.mpr ⟨p, hp, hmem⟩)

/-- What is read from a text without references is in the text, or white space. -/
theorem Piece.mem_or_eq {raw : List Char} {c : Char} (h : Piece raw c) (hamp : '&' ∉ raw) :
    c ∈ raw ∨ c = ' ' := by
  cases h with
  | char => exact .inl (List.mem_singleton_self _)
  | space => exact .inr rfl
  | lineBreak => exact .inr rfl
  | ref => exact absurd List.mem_cons_self hamp

theorem Decodes.mem_or_eq {raw value : List Char} (h : Decodes raw value) (hamp : '&' ∉ raw) :
    ∀ c ∈ value, c ∈ raw ∨ c = ' ' := by
  obtain ⟨pieces, hpieces, rfl, rfl⟩ := h
  intro c hc
  obtain ⟨p, hp, rfl⟩ := List.mem_map.mp hc
  refine ((hpieces p hp).mem_or_eq fun hmem => hamp ?_).imp_left fun hmem => ?_
  · exact List.mem_flatMap.mpr ⟨p, hp, hmem⟩
  · exact List.mem_flatMap.mpr ⟨p, hp, hmem⟩

/-! ## Sources -/

/-- A name whose characters are in the text. -/
structure NameIn (text name : List Char) : Prop where
  isName : isName name
  subset : name ⊆ text

/-- A name, and a value that is read off a stretch of the text. -/
def Sourced (text : List Char) (a : Attr) : Prop :=
  NameIn text a.name ∧ ∃ raw, raw <:+: text ∧ Decodes raw a.value

/-- The same for the attributes of a tag. -/
def SourcedTag (text : List Char) (t : Tag) : Prop :=
  NameIn text t.name ∧ ∀ a ∈ t.attrs, Sourced text a

/-- What the reader has in its hands, after it has read a text. -/
def SourcedState (text : List Char) : State → Prop
  | .startTag name => NameIn text name
  | .inTag tag _ => SourcedTag text tag
  | .emptyTag tag => SourcedTag text tag
  | .attName tag name => SourcedTag text tag ∧ NameIn text name
  | .attEq tag name => SourcedTag text tag ∧ NameIn text name
  | .attQuote tag name => SourcedTag text tag ∧ NameIn text name
  | .attValue tag name _ value cr => SourcedTag text tag ∧ NameIn text name ∧
      ∃ raw, raw <:+ text ∧ Decodes raw value ∧ (cr → ∃ raw' value',
        raw = raw' ++ ['\r'] ∧ value = value' ++ [' '] ∧ Decodes raw' value')
  | .attRef tag name _ value body => SourcedTag text tag ∧ NameIn text name ∧
      (∀ d ∈ body, isNameChar d ∨ d = '#') ∧
      ∃ raw, raw ++ '&' :: body <:+ text ∧ Decodes raw value
  | _ => True

theorem NameIn.mono {text name : List Char} (h : NameIn text name) (more : List Char) :
    NameIn (text ++ more) name := ⟨h.isName, fun _ hc => List.mem_append_left _ (h.subset hc)⟩

theorem nameIn_singleton {c : Char} (h : isNameStart c) (text : List Char) :
    NameIn (text ++ [c]) [c] := ⟨by simp [isName, h], List.subset_append_right _ _⟩

theorem NameIn.push {text name : List Char} {c : Char} (h : NameIn text name)
    (hc : isNameChar c) : NameIn (text ++ [c]) (name ++ [c]) := by
  refine ⟨isName_append h.isName (by simpa using hc), fun d hd => ?_⟩
  rcases List.mem_append.mp hd with hd | hd
  · exact List.mem_append_left _ (h.subset hd)
  · exact List.mem_append_right _ hd

theorem Sourced.mono {text : List Char} {a : Attr} (h : Sourced text a) (more : List Char) :
    Sourced (text ++ more) a := by
  obtain ⟨hname, raw, hraw, hdec⟩ := h
  exact ⟨hname.mono more, raw, hraw.trans (List.prefix_append _ _).isInfix, hdec⟩

theorem SourcedTag.mono {text : List Char} {t : Tag} (h : SourcedTag text t) (more : List Char) :
    SourcedTag (text ++ more) t := ⟨h.1.mono more, fun a ha => (h.2 a ha).mono more⟩

theorem SourcedTag.push {text : List Char} {t : Tag} {a : Attr} (h : SourcedTag text t)
    (ha : Sourced text a) : SourcedTag text (t.push a) := by
  refine ⟨h.1, fun b hb => ?_⟩
  rcases List.mem_append.mp hb with hb | hb
  · exact h.2 b hb
  · rw [List.mem_singleton.mp hb]
    exact ha

theorem sourcedTag_of_nameIn {text name : List Char} (h : NameIn text name) :
    SourcedTag text ⟨name, []⟩ := ⟨h, fun _ ha => absurd ha List.not_mem_nil⟩

structure SourcedResult (text : List Char) (r : State × List Token) : Prop where
  state : SourcedState text r.1
  tokens : ∀ t ∈ r.2, ∀ tag, t.tag? = some tag → SourcedTag text tag

theorem SourcedResult.quiet {text : List Char} {s : State} {ts : List Token}
    (h : SourcedState text s) (hts : ∀ t ∈ ts, t.tag? = none) : SourcedResult text (s, ts) :=
  ⟨h, fun t ht tag htag => absurd ((hts t ht).symm.trans htag) (by simp)⟩

theorem SourcedResult.tag {text : List Char} {t : Token} {tag : Tag} (n : ℕ)
    (h : SourcedTag text tag) (ht : t.tag? = some tag) : SourcedResult text (.content n, [t]) := by
  refine ⟨trivial, fun t' ht' tag' htag => ?_⟩
  rw [List.mem_singleton.mp ht', ht] at htag
  exact Option.some.inj htag ▸ h

theorem sourced_tagEnd {text : List Char} {tag : Tag} {c : Char} {r : State × List Token}
    (h : SourcedTag text tag) (hr : tagEnd tag c = some r) : SourcedResult text r := by
  unfold tagEnd at hr
  split_ifs at hr
  · obtain rfl := Option.some.inj hr
    exact .quiet h (by simp)
  · obtain rfl := Option.some.inj hr
    exact .tag 0 h rfl

/-- One character more of a value, of a reference in it, or of what is around it. -/
theorem sourced_attValue {text : List Char} {tag : Tag} {name : List Char} {quote : Char}
    {value : List Char} {cr : Bool} {c : Char} {r : State × List Token} (hchar : isChar c)
    (h : SourcedState text (.attValue tag name quote value cr))
    (hr : next (.attValue tag name quote value cr) c = some r) :
    SourcedResult (text ++ [c]) r := by
  obtain ⟨htag, hname, raw, hraw, hdec, hcr⟩ := h
  have htag' := htag.mono [c]
  have hraw' : raw ++ [c] <:+ text ++ [c] := by
    obtain ⟨before, rfl⟩ := hraw
    exact ⟨before, by simp⟩
  simp only [next] at hr
  split_ifs at hr with hquote hlt hamp hbreak hspace
  · obtain rfl := Option.some.inj hr
    refine .quiet (htag'.push ⟨hname.mono [c], raw, ?_, hdec⟩) (by simp)
    exact hraw.isInfix.trans (List.prefix_append _ _).isInfix
  · obtain rfl := Option.some.inj hr
    exact .quiet ⟨htag', hname.mono [c], by simp, raw, hamp ▸ hraw', hdec⟩ (by simp)
  · obtain rfl := Option.some.inj hr
    obtain ⟨raw', value', rfl, rfl, hdec'⟩ := hcr hbreak.1
    refine .quiet ⟨htag', hname.mono [c], _, hraw', ?_, by simp⟩ (by simp)
    have hpush := hdec'.push .lineBreak
    simpa [hbreak.2] using hpush
  · obtain rfl := Option.some.inj hr
    refine .quiet ⟨htag', hname.mono [c], _, hraw', hdec.push (.space hspace), fun h => ?_⟩ (by simp)
    exact ⟨raw, value, by rw [of_decide_eq_true h], rfl, hdec⟩
  · obtain rfl := Option.some.inj hr
    refine .quiet ⟨htag', hname.mono [c], _, hraw', hdec.push ?_, by simp⟩ (by simp)
    exact .char hchar hlt hamp (by simpa using hspace)

theorem sourced_attRef {text : List Char} {tag : Tag} {name : List Char} {quote : Char}
    {value body : List Char} {c : Char} {r : State × List Token}
    (h : SourcedState text (.attRef tag name quote value body))
    (hr : next (.attRef tag name quote value body) c = some r) :
    SourcedResult (text ++ [c]) r := by
  obtain ⟨htag, hname, hbody, raw, hraw, hdec⟩ := h
  have htag' := htag.mono [c]
  have hraw' : raw ++ ('&' :: body ++ [c]) <:+ text ++ [c] := by
    obtain ⟨before, rfl⟩ := hraw
    exact ⟨before, by simp⟩
  simp only [next] at hr
  split_ifs at hr with hsemi hbodyc
  · obtain ⟨d, -, rfl⟩ := Option.map_eq_some_iff.mp hr
    refine .quiet ⟨htag', hname.mono [c], _, hraw', hdec.push ?_, by simp⟩ (by simp)
    exact hsemi ▸ .ref hbody
  · obtain rfl := Option.some.inj hr
    refine .quiet ⟨htag', hname.mono [c], fun d hd => ?_, raw, hraw', hdec⟩ (by simp)
    rcases List.mem_append.mp hd with hd | hd
    · exact hbody d hd
    · exact List.mem_singleton.mp hd ▸ hbodyc

theorem sourced_next {text : List Char} {s : State} {c : Char} {r : State × List Token}
    (hchar : isChar c) (h : SourcedState text s) (hr : next s c = some r) :
    SourcedResult (text ++ [c]) r := by
  cases s with
  | startTag name =>
    simp only [next] at hr
    split_ifs at hr with hname
    · obtain rfl := Option.some.inj hr
      exact .quiet (NameIn.push h hname) (by simp)
    · obtain rfl := Option.some.inj hr
      exact .quiet (sourcedTag_of_nameIn (NameIn.mono h [c])) (by simp)
    · exact sourced_tagEnd (sourcedTag_of_nameIn (NameIn.mono h [c])) hr
  | inTag tag spaced =>
    simp only [next] at hr
    split_ifs at hr with hspace hname
    · obtain rfl := Option.some.inj hr
      exact .quiet (SourcedTag.mono h [c]) (by simp)
    · obtain rfl := Option.some.inj hr
      exact .quiet ⟨SourcedTag.mono h [c], nameIn_singleton hname.2 text⟩ (by simp)
    · exact sourced_tagEnd (SourcedTag.mono h [c]) hr
  | emptyTag tag =>
    simp only [next] at hr
    split_ifs at hr
    obtain rfl := Option.some.inj hr
    exact .tag 0 (SourcedTag.mono h [c]) rfl
  | attName tag name =>
    simp only [next] at hr
    split_ifs at hr with hname <;> obtain rfl := Option.some.inj hr
    · exact .quiet ⟨h.1.mono [c], h.2.push hname⟩ (by simp)
    · exact .quiet ⟨h.1.mono [c], h.2.mono [c]⟩ (by simp)
    · exact .quiet ⟨h.1.mono [c], h.2.mono [c]⟩ (by simp)
  | attEq tag name =>
    simp only [next] at hr
    split_ifs at hr <;> obtain rfl := Option.some.inj hr <;>
      exact .quiet ⟨h.1.mono [c], h.2.mono [c]⟩ (by simp)
  | attQuote tag name =>
    simp only [next] at hr
    split_ifs at hr <;> obtain rfl := Option.some.inj hr
    · exact .quiet ⟨h.1.mono [c], h.2.mono [c]⟩ (by simp)
    · exact .quiet ⟨h.1.mono [c], h.2.mono [c], [], List.nil_suffix, decodes_nil, by simp⟩ (by simp)
  | attValue tag name quote value cr => exact sourced_attValue hchar h hr
  | attRef tag name quote value body => exact sourced_attRef h hr
  | markup =>
    simp only [next] at hr
    split_ifs at hr with _ _ _ hname <;> obtain rfl := Option.some.inj hr
    · exact .quiet trivial (by simp)
    · exact .quiet trivial (by simp)
    · exact .quiet trivial (by simp)
    · exact .quiet (nameIn_singleton hname text) (by simp)
  | contentRef body =>
    simp only [next] at hr
    split_ifs at hr
    · obtain ⟨d, -, rfl⟩ := Option.map_eq_some_iff.mp hr
      exact .quiet trivial (by simp [Token.tag?])
    · obtain rfl := Option.some.inj hr
      exact .quiet trivial (by simp)
  -- nothing of a tag is read here
  | _ =>
    simp only [next] at hr
    split_ifs at hr <;> obtain rfl := Option.some.inj hr <;>
      exact .quiet trivial (by simp [Token.tag?])

/-- **Sources**: every attribute that is found has been read off the text. -/
theorem sourced_lex {text more : List Char} {l l' : Lexer} (hs : SourcedState text l.state)
    (hts : ∀ t ∈ l.tokens, ∀ tag, t.tag? = some tag → SourcedTag text tag)
    (hlex : lex l more = some l') :
    SourcedState (text ++ more) l'.state ∧
      ∀ t ∈ l'.tokens, ∀ tag, t.tag? = some tag → SourcedTag (text ++ more) tag := by
  induction more generalizing text l with
  | nil =>
    obtain rfl := Option.some.inj hlex
    simpa using ⟨hs, hts⟩
  | cons c more ih =>
    rw [lex_cons] at hlex
    obtain ⟨l₁, hstep, hrest⟩ := Option.bind_eq_some_iff.mp hlex
    unfold step at hstep
    split_ifs at hstep with hchar
    obtain ⟨r, hr, rfl⟩ := Option.map_eq_some_iff.mp hstep
    have hresult := sourced_next hchar hs hr
    have hrun := ih hresult.state (fun t ht tag htag => ?_) hrest
    · simpa using hrun
    · rcases List.mem_append.mp ht with ht | ht
      · exact (hts t ht tag htag).mono [c]
      · exact hresult.tokens t ht tag htag

/-! ## References -/

/-- A stretch of text that begins with `&` and is not ended by quotes. -/
structure RefRun (w : List Char) : Prop where
  head : w.head? = some '&'
  quot : Char.ofNat 34 ∉ w

/-- Such stretches of a text lie within one of the values. -/
def RefsWithin (values : List (List Char)) (text : List Char) : Prop :=
  ∀ w, RefRun w → w <:+: text → ∃ v ∈ values, w <:+: v

theorem RefRun.mem {w : List Char} (h : RefRun w) : '&' ∈ w := List.mem_of_mem_head? h.head

variable {values : List (List Char)} {a b : List Char}

theorem refsWithin_of_not_mem (h : '&' ∉ a) : RefsWithin values a :=
  fun _ hw hwhole => absurd (hwhole.subset hw.mem) h

theorem refsWithin_of_mem {v : List Char} (h : v ∈ values) : RefsWithin values v :=
  fun _ _ hwhole => ⟨v, h, hwhole⟩

theorem RefsWithin.append_left (h : '&' ∉ a) (hb : RefsWithin values b) :
    RefsWithin values (a ++ b) := by
  intro w hw hwhole
  rcases List.infix_append_iff.mp hwhole with hwhole | hwhole | ⟨t, s, rfl, ht, hs⟩
  · exact absurd (hwhole.subset hw.mem) h
  · exact hb w hw hwhole
  · cases t with
    | nil => exact hb s (by simpa using hw) hs.isInfix
    | cons c t =>
      obtain rfl : c = '&' := by simpa using hw.head
      exact absurd (ht.subset List.mem_cons_self) h

theorem RefsWithin.append_quot (ha : RefsWithin values a) (hb : RefsWithin values b) :
    RefsWithin values (a ++ Char.ofNat 34 :: b) := by
  intro w hw hwhole
  rcases List.infix_append_iff.mp hwhole with hwhole | hwhole | ⟨t, s, rfl, ht, hs⟩
  · exact ha w hw hwhole
  · rcases List.infix_cons_iff.mp hwhole with hlead | hwhole
    · cases w with
      | nil => exact absurd hw.mem List.not_mem_nil
      | cons c w =>
        obtain rfl := (List.cons_prefix_cons.mp hlead).1
        exact absurd List.mem_cons_self hw.quot
    · exact hb w hw hwhole
  · cases s with
    | nil => exact ha (t ++ []) hw (by simpa using ht.isInfix)
    | cons c s =>
      obtain rfl := (List.cons_prefix_cons.mp hs).1
      exact absurd (List.mem_append_right t List.mem_cons_self) hw.quot

/-- An attribute whose value is one of the values, or has no `&`. -/
structure Item.Known (values : List (List Char)) (i : Item) : Prop where
  name : isName i.attr.name
  space : ∀ c ∈ i.space, isSpace c
  value : '&' ∉ i.attr.value ∨ i.attr.value ∈ values

theorem RefsWithin.item {i : Item} (hi : i.Known values) (hb : RefsWithin values b) :
    RefsWithin values (i.text ++ b) := by
  have htext : i.text ++ b = (i.attr.name ++ '=' :: i.space ++ [Char.ofNat 34]) ++
      (i.attr.value ++ Char.ofNat 34 :: ([' '] ++ b)) := by simp [Item.text]
  rw [htext]
  refine .append_left ?_ (.append_quot ?_ (.append_left (by decide) hb))
  · have hname := not_mem_of_isName hi.name (c := '&') (by decide)
    have hspace : '&' ∉ i.space := fun h => absurd (hi.space _ h) (by decide)
    simp [hname, hspace]
  · exact hi.value.elim refsWithin_of_not_mem refsWithin_of_mem

theorem RefsWithin.flatMap {α : Type*} {f : α → List Char} {l : List α}
    (hl : ∀ x ∈ l, ∀ b, RefsWithin values b → RefsWithin values (f x ++ b))
    (hb : RefsWithin values b) : RefsWithin values (l.flatMap f ++ b) := by
  induction l with
  | nil => simpa using hb
  | cons x l ih =>
    rw [List.flatMap_cons, List.append_assoc]
    exact hl x List.mem_cons_self _ (ih fun y hy => hl y (List.mem_cons_of_mem _ hy))

theorem length_le_of_pieces {pieces : List (List Char × Char)}
    (h : ∀ p ∈ pieces, Piece p.1 p.2) : pieces.length ≤ (pieces.flatMap Prod.fst).length := by
  induction pieces with
  | nil => simp
  | cons p pieces ih =>
    have hrest := ih fun q hq => h q (List.mem_cons_of_mem _ hq)
    have hone : 1 ≤ p.1.length := by
      obtain ⟨raw, c⟩ := p
      have hpc : Piece raw c := h _ List.mem_cons_self
      cases hpc <;> simp
    simp only [List.flatMap_cons, List.length_append, List.length_cons]
    omega

theorem Decodes.exists_longer {raw value w : List Char} (h : Decodes raw value) {f : Char → Char}
    (hf : ∀ c ∈ raw, f c = c) (hspace : f ' ' = ' ') (hw : RefRun w) (hwhole : w <:+: value.map f) :
    ∃ w', RefRun w' ∧ w' <:+: raw ∧ w.length < w'.length := by
  obtain ⟨pieces, hpieces, rfl, rfl⟩ := h
  rw [List.map_map, List.infix_map_iff] at hwhole
  obtain ⟨run, hrun, rfl⟩ := hwhole
  have hpiece : ∀ p ∈ run, Piece p.1 p.2 := fun p hp => hpieces p (hrun.subset hp)
  have hraw := hrun.flatMap Prod.fst
  have hfix : ∀ c ∈ run.flatMap Prod.fst, f c = c := fun c hc => hf c (hraw.subset hc)
  -- quotes would be read as quotes
  have hquot : Char.ofNat 34 ∉ run.flatMap Prod.fst := by
    intro hmem
    obtain ⟨p, hp, hc⟩ := List.mem_flatMap.mp hmem
    obtain ⟨raw, c⟩ := p
    have hpc : Piece raw c := hpiece _ hp
    cases hpc with
    | char =>
      obtain rfl := List.mem_singleton.mp hc
      exact hw.quot (List.mem_map.mpr ⟨_, hp, hfix _ hmem⟩)
    | space hs =>
      obtain rfl := List.mem_singleton.mp hc
      exact absurd hs (by decide)
    | lineBreak => exact absurd hc (by decide)
    | @ref body _ hbody =>
      have hc : Char.ofNat 34 ∈ body := by simpa using hc
      rcases hbody _ hc with h | h <;> exact absurd h (by decide)
  cases run with
  | nil => exact absurd hw.mem List.not_mem_nil
  | cons p run =>
    obtain ⟨raw, c⟩ := p
    have hhead : f c = '&' := by simpa using hw.head
    have hone : run.length ≤ (run.flatMap Prod.fst).length :=
      length_le_of_pieces fun q hq => hpiece q (List.mem_cons_of_mem _ hq)
    have hpc : Piece raw c := hpiece _ List.mem_cons_self
    cases hpc with
    | char _ _ hne =>
      rw [hfix c (by simp)] at hhead
      exact absurd hhead hne
    | space => exact absurd (hspace.symm.trans hhead) (by decide)
    | lineBreak => exact absurd (hspace.symm.trans hhead) (by decide)
    | ref =>
      refine ⟨_, ⟨rfl, hquot⟩, hraw, ?_⟩
      simp only [List.flatMap_cons, List.length_append, List.length_cons, List.length_map]
      omega

/-- **References do not come back.** Where every value is read, somewhere in the text, as it stands
in the text, no value has `&` in it: it would have been read off a longer stretch with `&`, which
would again lie within a value. -/
theorem not_mem_amp_of_read_back {text : List Char} {f : Char → Char} (hf : ∀ c ∈ text, f c = c)
    (hspace : f ' ' = ' ') (hwithin : RefsWithin values text)
    (hread : ∀ v ∈ values, ∃ raw value, raw <:+: text ∧ Decodes raw value ∧ value.map f = v) :
    ∀ v ∈ values, '&' ∉ v := by
  intro v hv hamp
  have hlong : ∀ n : ℕ, ∃ w, RefRun w ∧ n < w.length ∧ ∃ v ∈ values, w <:+: v := by
    intro n
    induction n with
    | zero =>
      obtain ⟨s, t, rfl⟩ := List.append_of_mem hamp
      exact ⟨['&'], ⟨rfl, by decide⟩, by decide, _, hv, ⟨s, t, by simp⟩⟩
    | succ n ih =>
      obtain ⟨w, hw, hlen, v', hv', hwhole⟩ := ih
      obtain ⟨raw, value, hraw, hdec, rfl⟩ := hread v' hv'
      obtain ⟨w', hw', hwhole', hlonger⟩ :=
        hdec.exists_longer (fun c hc => hf c (hraw.subset hc)) hspace hw hwhole
      exact ⟨w', hw', by omega, hwithin w' hw' (hwhole'.trans hraw)⟩
  obtain ⟨w, -, hlen, v', hv', hwhole⟩ := hlong values.flatten.length
  have hle := (hwhole.trans (List.infix_of_mem_flatten hv')).length_le
  omega

/-! ## A tag that is being read -/

/-- The same name, and more attributes. -/
def Extends (t u : Tag) : Prop := u.name = t.name ∧ t.attrs <+: u.attrs

theorem Extends.push {t u : Tag} (h : Extends t u) (a : Attr) : Extends t (u.push a) :=
  ⟨h.1, h.2.trans (List.prefix_append _ _)⟩

/-- The reader is in a tag that extends `t`. -/
def Within (t : Tag) : State → Prop
  | .inTag u _ => Extends t u
  | .emptyTag u => Extends t u
  | .attName u _ => Extends t u
  | .attEq u _ => Extends t u
  | .attQuote u _ => Extends t u
  | .attValue u _ quote _ _ => Extends t u ∧ quote ≠ '<'
  | .attRef u _ quote _ _ => Extends t u ∧ quote ≠ '<'
  | _ => False

/-- A character in a tag leaves the reader in the tag, or ends it. -/
inductive WithinResult (t : Tag) (c : Char) : State × List Token → Prop
  | stay {s : State} : c ≠ '<' → Within t s → WithinResult t c (s, [])
  | leave {tok : Token} {u : Tag} :
    c = '>' → Extends t u → tok.tag? = some u → WithinResult t c (.content 0, [tok])

theorem within_tagEnd {t u : Tag} {c : Char} {r : State × List Token} (h : Extends t u)
    (hr : tagEnd u c = some r) : WithinResult t c r := by
  unfold tagEnd at hr
  split_ifs at hr with hslash hgt <;> obtain rfl := Option.some.inj hr
  · exact .stay (by rw [hslash]; decide) h
  · exact .leave hgt h rfl

theorem within_next {t : Tag} {s : State} {c : Char} {r : State × List Token} (h : Within t s)
    (hr : next s c = some r) : WithinResult t c r := by
  have hname {d : Char} (hd : isNameChar d) : d ≠ '<' := ne_of_isNameChar hd (by decide)
  have hspace {d : Char} (hd : isSpace d) : d ≠ '<' := by rintro rfl; exact absurd hd (by decide)
  cases s with
  | inTag u spaced =>
    simp only [next] at hr
    split_ifs at hr with hs hn
    · obtain rfl := Option.some.inj hr
      exact .stay (hspace hs) h
    · obtain rfl := Option.some.inj hr
      exact .stay (hname (isNameChar_of_isNameStart hn.2)) h
    · exact within_tagEnd h hr
  | emptyTag u =>
    simp only [next] at hr
    split_ifs at hr with hgt
    obtain rfl := Option.some.inj hr
    exact .leave hgt h rfl
  | attName u name =>
    simp only [next] at hr
    split_ifs at hr with hn hs heq <;> obtain rfl := Option.some.inj hr
    · exact .stay (hname hn) h
    · exact .stay (hspace hs) h
    · exact .stay (by rw [heq]; decide) h
  | attEq u name =>
    simp only [next] at hr
    split_ifs at hr with hs heq <;> obtain rfl := Option.some.inj hr
    · exact .stay (hspace hs) h
    · exact .stay (by rw [heq]; decide) h
  | attQuote u name =>
    simp only [next] at hr
    split_ifs at hr with hs hq <;> obtain rfl := Option.some.inj hr
    · exact .stay (hspace hs) h
    · have hne : c ≠ '<' := by rcases hq with rfl | rfl <;> decide
      exact .stay hne ⟨h, hne⟩
  | attValue u name quote value cr =>
    simp only [next] at hr
    split_ifs at hr with hq hlt hamp hbreak hs <;> obtain rfl := Option.some.inj hr
    · exact .stay (hq ▸ h.2) (h.1.push _)
    all_goals exact .stay hlt h
  | attRef u name quote value body =>
    simp only [next] at hr
    split_ifs at hr with hsemi hb
    · obtain ⟨d, -, rfl⟩ := Option.map_eq_some_iff.mp hr
      exact .stay (by rw [hsemi]; decide) h
    · obtain rfl := Option.some.inj hr
      refine .stay ?_ h
      rcases hb with hb | rfl
      · exact hname hb
      · decide
  | _ => exact absurd h not_false

theorem lex_content {text : List Char} (hlt : '<' ∉ text) (hamp : '&' ∉ text) {n : ℕ}
    {ts : List Token} {l : Lexer} (h : lex ⟨.content n, ts⟩ text = some l) :
    ∃ m k, l = ⟨.content m, ts ++ List.replicate k .text⟩ := by
  induction text generalizing n ts with
  | nil => exact ⟨n, 0, by simpa using (Option.some.inj h).symm⟩
  | cons c text ih =>
    rw [lex_cons] at h
    obtain ⟨l₁, hstep, hrest⟩ := Option.bind_eq_some_iff.mp h
    have hlt' : c ≠ '<' := fun hc => hlt (hc ▸ List.mem_cons_self)
    have hamp' : c ≠ '&' := fun hc => hamp (hc ▸ List.mem_cons_self)
    have hl₁ : ∃ m k, l₁ = ⟨.content m, ts ++ List.replicate k .text⟩ := by
      simp only [step, next, if_neg hlt', if_neg hamp'] at hstep
      split_ifs at hstep <;> simp only [Option.map_some, Option.map_none, Option.some.injEq] at hstep
      · exact ⟨_, 0, hstep.symm⟩
      · exact ⟨_, 1, hstep.symm⟩
      · exact absurd hstep (by simp)
      · exact ⟨_, 1, hstep.symm⟩
    obtain ⟨m, k, rfl⟩ := hl₁
    obtain ⟨m', k', rfl⟩ := ih (fun h => hlt (List.mem_cons_of_mem _ h))
      (fun h => hamp (List.mem_cons_of_mem _ h)) hrest
    exact ⟨m', k + k', by rw [List.append_assoc, List.replicate_append_replicate]⟩

/-- Where the reader is after a stretch of text without markup that begins in a tag: in the tag, or
in content after it. -/
theorem lex_within {t : Tag} {s : State} {ts : List Token} {text : List Char} {l : Lexer}
    (hs : Within t s) (hlt : '<' ∉ text) (hamp : '&' ∉ text) (h : lex ⟨s, ts⟩ text = some l) :
    (Within t l.state ∧ l.tokens = ts) ∨ '>' ∈ text ∧ ∃ m k tok u, Extends t u ∧
      tok.tag? = some u ∧ l = ⟨.content m, ts ++ tok :: List.replicate k .text⟩ := by
  induction text generalizing s with
  | nil => exact .inl ((Option.some.inj h) ▸ ⟨hs, rfl⟩)
  | cons c text ih =>
    rw [lex_cons] at h
    obtain ⟨l₁, hstep, hrest⟩ := Option.bind_eq_some_iff.mp h
    have hlt' : '<' ∉ text := fun h => hlt (List.mem_cons_of_mem _ h)
    have hamp' : '&' ∉ text := fun h => hamp (List.mem_cons_of_mem _ h)
    unfold step at hstep
    split_ifs at hstep
    obtain ⟨r, hr, rfl⟩ := Option.map_eq_some_iff.mp hstep
    cases within_next hs hr with
    | stay _ hstay =>
      rw [List.append_nil] at hrest
      exact (ih hstay hlt' hamp' hrest).imp_right fun h => ⟨List.mem_cons_of_mem _ h.1, h.2⟩
    | @leave tok u hc hext htag =>
      obtain ⟨m, k, rfl⟩ := lex_content hlt' hamp' hrest
      exact .inr ⟨hc ▸ List.mem_cons_self, m, k, tok, u, hext, htag, by simp⟩

theorem exists_of_lex_within {t : Tag} {s : State} {ts : List Token} {text spaces rest : List Char}
    {l : Lexer} (hs : Within t s) (hlt : '<' ∉ text) (hamp : '&' ∉ text)
    (hspaces : ∀ c ∈ spaces, isSpace c)
    (h : lex ⟨s, ts⟩ (text ++ (spaces ++ '<' :: rest)) = some l) :
    ∃ m k tok u, Extends t u ∧ tok.tag? = some u ∧
      lex ⟨s, ts⟩ text = some ⟨.content m, ts ++ tok :: List.replicate k .text⟩ := by
  rw [lex_append] at h
  obtain ⟨l₁, hl₁, h⟩ := Option.bind_eq_some_iff.mp h
  rcases lex_within hs hlt hamp hl₁ with ⟨hwithin, -⟩ | ⟨-, m, k, tok, u, hext, htag, rfl⟩
  · -- white space does not end the tag, and there is no `<` in it
    have hnone {c : Char} (hc : isSpace c = false) : c ∉ spaces := fun hmem => by
      rw [hspaces c hmem] at hc
      exact absurd hc (by decide)
    rw [lex_append] at h
    obtain ⟨l₂, hl₂, h⟩ := Option.bind_eq_some_iff.mp h
    rcases lex_within hwithin (hnone rfl) (hnone rfl) hl₂ with ⟨hwithin', -⟩ | ⟨hgt, -⟩
    · rw [lex_cons] at h
      obtain ⟨l₃, hstep, -⟩ := Option.bind_eq_some_iff.mp h
      unfold step at hstep
      split_ifs at hstep
      obtain ⟨r, hr, -⟩ := Option.map_eq_some_iff.mp hstep
      cases within_next hwithin' hr with
      | stay hne => exact absurd rfl hne
      | leave hc => exact absurd hc (by decide)
    · exact absurd hgt (hnone rfl)
  · exact ⟨m, k, tok, u, hext, htag, hl₁⟩

/-! ## Elements as they are written -/

/-- An element without content: attributes that are known to be read as they stand, further ones,
and what ends the tag. -/
structure Elem where
  name : List Char
  fixed : List Item
  items : List Item
  tail : List Char

namespace Elem

/-- `<name a="x" b="y" />`. -/
def text (e : Elem) : List Char :=
  '<' :: e.name ++ [' '] ++ e.fixed.flatMap Item.text ++ e.items.flatMap Item.text ++ e.tail

def tag (e : Elem) : Tag := ⟨e.name, e.fixed.map Item.attr ++ e.items.map Item.attr⟩

/-- Names are names, values are plain, and only the further attributes may have quotes in their
values. -/
structure Ok (e : Elem) : Prop where
  name : isName e.name
  fixed : ∀ i ∈ e.fixed, i.Ok
  items : ∀ i ∈ e.items, i.Ok
  quot : ∀ i ∈ e.fixed, Char.ofNat 34 ∉ i.attr.value
  tail : '<' ∉ e.tail ∧ '&' ∉ e.tail

/-- A tag that the element may be read as: the first value with quotes is cut short. -/
structure ReadAs (e : Elem) (u : Tag) : Prop where
  name : u.name = e.name
  fixed : e.fixed.map Item.attr <+: u.attrs
  cut : (∃ i ∈ e.items, Char.ofNat 34 ∈ i.attr.value) →
    ∃ i ∈ e.items, Char.ofNat 34 ∈ i.attr.value ∧
      ∃ v, v <+: i.attr.value ∧ v ≠ i.attr.value ∧ ⟨i.attr.name, v⟩ ∈ u.attrs

end Elem

theorem Item.Ok.ne {i : Item} (hi : i.Ok) : ∀ c ∈ i.text, c ≠ '<' ∧ c ≠ '&' := by
  intro c hc
  simp only [Item.text, List.append_assoc, List.cons_append, List.mem_append, List.mem_cons] at hc
  rcases hc with hc | rfl | hc | rfl | hc | rfl | rfl | hc
  · have hname := isNameChar_of_mem hi.name hc
    exact ⟨ne_of_isNameChar hname (by decide), ne_of_isNameChar hname (by decide)⟩
  · decide
  · have hspace := hi.space c hc
    exact ⟨by rintro rfl; exact absurd hspace (by decide), by rintro rfl; exact absurd hspace (by decide)⟩
  · decide
  · have hvalue := isPlain_iff.mp (hi.value c hc)
    exact ⟨hvalue.2.1, hvalue.2.2.1⟩
  · decide
  · decide
  · exact absurd hc List.not_mem_nil

theorem ne_of_mem_items {items : List Item} (hitems : ∀ i ∈ items, i.Ok) :
    ∀ c ∈ items.flatMap Item.text, c ≠ '<' ∧ c ≠ '&' := by
  intro c hc
  obtain ⟨i, hi, hc⟩ := List.mem_flatMap.mp hc
  exact (hitems i hi).ne c hc

theorem not_mem_of_ne {text : List Char} (h : ∀ c ∈ text, c ≠ '<' ∧ c ≠ '&') :
    '<' ∉ text ∧ '&' ∉ text := ⟨fun hmem => (h _ hmem).1 rfl, fun hmem => (h _ hmem).2 rfl⟩

theorem exists_first {α : Type*} {p : α → Prop} {l : List α} (h : ∃ a ∈ l, p a) :
    ∃ good a rest, l = good ++ a :: rest ∧ (∀ b ∈ good, ¬ p b) ∧ p a := by
  induction l with
  | nil => exact absurd h (by simp)
  | cons b l ih =>
    by_cases hb : p b
    · exact ⟨[], b, l, rfl, by simp, hb⟩
    · obtain ⟨a, ha, hp⟩ := h
      have ha' : a ∈ l := (List.mem_cons.mp ha).resolve_left fun h => hb (h ▸ hp)
      obtain ⟨good, a', rest, rfl, hgood, hp'⟩ := ih ⟨a, ha', hp⟩
      refine ⟨b :: good, a', rest, rfl, fun c hc => ?_, hp'⟩
      rcases List.mem_cons.mp hc with rfl | hc
      · exact hb
      · exact hgood c hc

/-- The reader at the end of the attributes that are read as they stand, before the first value with
quotes in it, if there is one. -/
theorem exists_within_of_elem {e : Elem} (he : e.Ok) (n : ℕ) (ts : List Token) :
    ∃ (s : State) (t : Tag) (text : List Char), Within t s ∧ e.ReadAs t ∧
      '<' ∉ text ∧ '&' ∉ text ∧
      ∀ rest, lex ⟨.content n, ts⟩ (e.text ++ rest) = lex ⟨s, ts⟩ (text ++ rest) := by
  obtain ⟨name, fixed, items, tail⟩ := e
  obtain ⟨hname, hfixed, hitems, hquot, htail⟩ := he
  dsimp only at hname hfixed hitems hquot htail
  have hstart := lex_startTag hname n ts
  have hfix : lex ⟨.inTag ⟨name, []⟩ true, ts⟩ (fixed.flatMap Item.text) =
      some ⟨.inTag ⟨name, fixed.map Item.attr⟩ true, ts⟩ := lex_items hfixed hquot ⟨name, []⟩ ts
  by_cases hbad : ∃ i ∈ items, Char.ofNat 34 ∈ i.attr.value
  · obtain ⟨good, i, rest, rfl, hgood, hi⟩ := exists_first hbad
    obtain ⟨v, r, hv, hvquot⟩ : ∃ v r, i.attr.value = v ++ Char.ofNat 34 :: r ∧ Char.ofNat 34 ∉ v := by
      obtain ⟨v, c, r, hv, hvq, rfl⟩ := exists_first (p := fun c => c = Char.ofNat 34) ⟨_, hi, rfl⟩
      exact ⟨v, r, hv, fun hmem => hvq _ hmem rfl⟩
    have hok : i.Ok := hitems i (by simp)
    have hplain : ∀ c ∈ v, isPlain c ∧ c ≠ Char.ofNat 34 := fun c hc =>
      ⟨hok.value c (by simp [hv, hc]), fun h => hvquot (h ▸ hc)⟩
    have hgoods := lex_items (fun j hj => hitems j (by simp [hj])) hgood
      ⟨name, fixed.map Item.attr⟩ ts
    have hcut := lex_attr (a := ⟨i.attr.name, v⟩) hok.name hok.space hplain
      ⟨name, fixed.map Item.attr ++ good.map Item.attr⟩ ts
    have hmore : ∀ c ∈ r ++ [Char.ofNat 34, ' '] ++ rest.flatMap Item.text ++ tail,
        c ≠ '<' ∧ c ≠ '&' := by
      intro c hc
      simp only [List.append_assoc, List.mem_append] at hc
      rcases hc with hc | hc | hc | hc
      · have hvalue := isPlain_iff.mp (hok.value c (by simp [hv, hc]))
        exact ⟨hvalue.2.1, hvalue.2.2.1⟩
      · simp only [List.mem_cons, List.not_mem_nil, or_false] at hc
        rcases hc with rfl | rfl <;> decide
      · exact ne_of_mem_items (fun j hj => hitems j (by simp [hj])) c hc
      · exact ⟨fun h => htail.1 (h ▸ hc), fun h => htail.2 (h ▸ hc)⟩
    refine ⟨.inTag (Tag.push ⟨name, fixed.map Item.attr ++ good.map Item.attr⟩
        ⟨i.attr.name, v⟩) false, _, r ++ [Char.ofNat 34, ' '] ++ rest.flatMap Item.text ++ tail,
      ⟨rfl, List.prefix_refl _⟩, ⟨rfl, ?_, fun _ => ⟨i, by simp, hi, v, ?_, ?_, ?_⟩⟩,
      (not_mem_of_ne hmore).1, (not_mem_of_ne hmore).2, fun after => ?_⟩
    · rw [Tag.push, List.append_assoc]
      exact List.prefix_append _ _
    · exact ⟨_, hv.symm⟩
    · intro h
      rw [hv] at h
      exact absurd (congrArg List.length h) (by simp)
    · simp [Tag.push]
    · have htext : Elem.text ⟨name, fixed, good ++ i :: rest, tail⟩ ++ after =
          '<' :: name ++ [' '] ++ (fixed.flatMap Item.text ++ (good.flatMap Item.text ++
            (i.attr.name ++ '=' :: i.space ++ Char.ofNat 34 :: v ++ [Char.ofNat 34] ++
              (r ++ [Char.ofNat 34, ' '] ++ rest.flatMap Item.text ++ tail ++ after)))) := by
        simp [Elem.text, Item.text, hv]
      rw [htext, lex_append_of_eq hstart, lex_append_of_eq hfix, lex_append_of_eq hgoods,
        lex_append_of_eq hcut]
  · have hgood : ∀ i ∈ items, Char.ofNat 34 ∉ i.attr.value := fun i hi h => hbad ⟨i, hi, h⟩
    have hall := lex_items hitems hgood ⟨name, fixed.map Item.attr⟩ ts
    refine ⟨.inTag ⟨name, fixed.map Item.attr ++ items.map Item.attr⟩ true, _, tail,
      ⟨rfl, List.prefix_refl _⟩, ⟨rfl, List.prefix_append _ _, fun h => absurd h hbad⟩,
      htail.1, htail.2, fun after => ?_⟩
    have htext : Elem.text ⟨name, fixed, items, tail⟩ ++ after = '<' :: name ++ [' '] ++
        (fixed.flatMap Item.text ++ (items.flatMap Item.text ++ (tail ++ after))) := by
      simp [Elem.text]
    rw [htext, lex_append_of_eq hstart, lex_append_of_eq hfix, lex_append_of_eq hall]

theorem Elem.ReadAs.extend {e : Elem} {t u : Tag} (h : e.ReadAs t) (hext : Extends t u) :
    e.ReadAs u := by
  refine ⟨hext.1.trans h.name, h.fixed.trans hext.2, fun hbad => ?_⟩
  obtain ⟨i, hi, hquot, v, hv, hne, hmem⟩ := h.cut hbad
  exact ⟨i, hi, hquot, v, hv, hne, hext.2.subset hmem⟩

/-- **An element as it is read**, when more markup follows: one tag, with what the first quotes in
a value leave of it, and perhaps some text. -/
theorem exists_of_lex_elem {e : Elem} (he : e.Ok) {spaces rest : List Char} {n : ℕ}
    {ts : List Token} {l : Lexer} (hspaces : ∀ c ∈ spaces, isSpace c)
    (h : lex ⟨.content n, ts⟩ (e.text ++ (spaces ++ '<' :: rest)) = some l) :
    ∃ m k tok u, e.ReadAs u ∧ tok.tag? = some u ∧
      lex ⟨.content n, ts⟩ e.text = some ⟨.content m, ts ++ tok :: List.replicate k .text⟩ := by
  obtain ⟨s, t, text, hwithin, hread, hlt, hamp, hlex⟩ := exists_within_of_elem he n ts
  rw [hlex] at h
  obtain ⟨m, k, tok, u, hext, htag, hend⟩ := exists_of_lex_within hwithin hlt hamp hspaces h
  refine ⟨m, k, tok, u, hread.extend hext, htag, ?_⟩
  rw [← List.append_nil e.text, hlex, List.append_nil, hend]

theorem lex_content_spaces {spaces : List Char} (h : ∀ c ∈ spaces, isSpace c) (n : ℕ)
    (ts : List Token) : ∃ m, lex ⟨.content n, ts⟩ spaces = some ⟨.content m, ts⟩ := by
  cases spaces with
  | nil => exact ⟨n, rfl⟩
  | cons c spaces =>
    have hspace {d : Char} (hd : isSpace d) (n : ℕ) : next (.content n) d = some (.content 0, []) := by
      have hlt : d ≠ '<' := by rintro rfl; exact absurd hd (by decide)
      have hamp : d ≠ '&' := by rintro rfl; exact absurd hd (by decide)
      simp [next, hlt, hamp, hd]
    have hone := lex_one ts (isChar_of_isSpace (h c List.mem_cons_self))
      (hspace (h c List.mem_cons_self) n)
    have hrest := lex_run (s := fun _ => .content 0) (p := fun d => isSpace d)
      (fun _ => isChar_of_isSpace) (fun _ d hd => hspace hd 0) ts [] spaces
      (fun d hd => h d (List.mem_cons_of_mem _ hd))
    rw [List.append_nil] at hone
    exact ⟨0, by rw [← List.singleton_append, lex_append_of_eq hone, hrest]⟩

/-- Elements one after the other, each with white space before it. -/
def elemsText (indent : List Char) (es : List Elem) : List Char :=
  es.flatMap fun e => indent ++ e.text

/-- Elements whose attributes are known hold no reference outside the values. -/
theorem RefsWithin.elems {indent : List Char} {es : List Elem} (hindent : '&' ∉ indent)
    (hes : ∀ e ∈ es, isName e.name ∧ (∀ i ∈ e.fixed, i.Known values) ∧
      (∀ i ∈ e.items, i.Known values) ∧ '&' ∉ e.tail)
    (hb : RefsWithin values b) : RefsWithin values (elemsText indent es ++ b) := by
  refine .flatMap (fun e he c hc => ?_) hb
  obtain ⟨hname, hfixed, hitems, htail⟩ := hes e he
  have htext : indent ++ e.text ++ c = (indent ++ '<' :: e.name ++ [' ']) ++
      (e.fixed.flatMap Item.text ++ (e.items.flatMap Item.text ++ (e.tail ++ c))) := by
    simp [Elem.text]
  rw [htext]
  refine .append_left ?_ (.flatMap (fun i hi _ => .item (hfixed i hi))
    (.flatMap (fun i hi _ => .item (hitems i hi)) (.append_left htail hc)))
  have hamp := not_mem_of_isName hname (c := '&') (by decide)
  simp [hindent, hamp]

/-- The tokens that are not text. -/
def markup (ts : List Token) : List Token := ts.filter (· ≠ .text)

@[simp] theorem markup_append (ts ts' : List Token) : markup (ts ++ ts') = markup ts ++ markup ts' :=
  List.filter_append _ _

@[simp] theorem markup_replicate (k : ℕ) : markup (List.replicate k .text) = [] := by
  simp [markup]

theorem markup_cons_of_tag {tok : Token} {u : Tag} (h : tok.tag? = some u) (ts : List Token) :
    markup (tok :: ts) = tok :: markup ts := by
  have hne : tok ≠ .text := by rintro rfl; exact absurd h (by simp [Token.tag?])
  simp [markup, hne]

theorem flatMap_events_markup (ts : List Token) :
    (markup ts).flatMap Token.events = ts.flatMap Token.events := by
  induction ts with
  | nil => rfl
  | cons t ts ih =>
    unfold markup at ih ⊢
    rw [List.filter_cons]
    split_ifs with ht
    · rw [List.flatMap_cons, List.flatMap_cons, ih]
    · obtain rfl : t = .text := by simpa using ht
      rw [ih, List.flatMap_cons]
      rfl

theorem countP_markup {q : Token → Bool} (hq : q .text = false) (ts : List Token) :
    (markup ts).countP q = ts.countP q := by
  unfold markup
  rw [List.countP_filter]
  refine List.countP_congr fun t _ => ?_
  by_cases ht : t = .text
  · simp [ht, hq]
  · simp [ht]

/-- A tag that an element may be read as, in a token. -/
def Elem.ReadIn (e : Elem) (tok : Token) : Prop := ∃ u, tok.tag? = some u ∧ e.ReadAs u

/-- Where no element is left open, each is read as one without content. -/
theorem exists_empties {es : List Elem} {toks : List Token} (h : List.Forall₂ Elem.ReadIn es toks)
    (hcount : toks.countP (fun t => t matches .start _) = 0) :
    ∃ us, toks = us.map .empty ∧ List.Forall₂ Elem.ReadAs es us := by
  induction h with
  | nil => exact ⟨[], rfl, .nil⟩
  | @cons e tok es toks hread _ ih =>
    obtain ⟨u, htag, hu⟩ := hread
    rw [List.countP_cons] at hcount
    obtain ⟨us, rfl, hus⟩ := ih (by omega)
    cases tok with
    | start tag => exact absurd hcount (by simp)
    | empty tag => exact ⟨tag :: us, rfl, .cons (Option.some.inj htag ▸ hu) hus⟩
    | close name => exact absurd htag (by simp [Token.tag?])
    | text => exact absurd htag (by simp [Token.tag?])

theorem exists_of_lex_elems {indent spaces rest : List Char} {es : List Elem} {n : ℕ}
    {ts : List Token} {l : Lexer} (hes : ∀ e ∈ es, e.Ok) (hindent : ∀ c ∈ indent, isSpace c)
    (hspaces : ∀ c ∈ spaces, isSpace c)
    (h : lex ⟨.content n, ts⟩ (elemsText indent es ++ (spaces ++ '<' :: rest)) = some l) :
    ∃ m toks, lex ⟨.content n, ts⟩ (elemsText indent es) = some ⟨.content m, ts ++ toks⟩ ∧
      List.Forall₂ Elem.ReadIn es (markup toks) := by
  induction es generalizing n ts with
  | nil => exact ⟨n, [], by simp [elemsText], List.Forall₂.nil⟩
  | cons e es ih =>
    have htext : elemsText indent (e :: es) = indent ++ (e.text ++ elemsText indent es) := by
      simp [elemsText]
    obtain ⟨m₀, hm₀⟩ := lex_content_spaces hindent n ts
    rw [htext, List.append_assoc, List.append_assoc, lex_append_of_eq hm₀] at h
    -- the next markup is that of the next element or what follows the last one
    have hnext : ∃ spaces' rest', (∀ c ∈ spaces', isSpace c) ∧
        elemsText indent es ++ (spaces ++ '<' :: rest) = spaces' ++ '<' :: rest' := by
      cases es with
      | nil => exact ⟨spaces, rest, hspaces, by simp [elemsText]⟩
      | cons e' es => exact ⟨indent, _, hindent, by simp [elemsText, Elem.text]; rfl⟩
    obtain ⟨spaces', rest', hspaces', hnext⟩ := hnext
    have h' := h
    rw [hnext] at h'
    obtain ⟨m₁, k, tok, u, hread, htag, helem⟩ :=
      exists_of_lex_elem (hes e List.mem_cons_self) hspaces' h'
    rw [lex_append_of_eq helem] at h
    obtain ⟨m, toks, hrest, hall⟩ := ih (fun e' he' => hes e' (List.mem_cons_of_mem _ he')) h
    refine ⟨m, tok :: List.replicate k .text ++ toks, ?_, ?_⟩
    · rw [htext, lex_append_of_eq hm₀, lex_append_of_eq helem, hrest, List.append_assoc]
    · rw [List.cons_append, markup_cons_of_tag htag, markup_append, markup_replicate, List.nil_append]
      exact .cons ⟨u, htag, hread⟩ hall

/-- What ends an empty element, in a tag. -/
def EndsEmpty (tail : List Char) : Prop :=
  ∀ (t : Tag) (ts : List Token), ∃ m, lex ⟨.inTag t true, ts⟩ tail = some ⟨.content m, ts ++ [.empty t]⟩

theorem lex_elem {e : Elem} (he : e.Ok) (hquot : ∀ i ∈ e.items, Char.ofNat 34 ∉ i.attr.value)
    (hend : EndsEmpty e.tail) (n : ℕ) (ts : List Token) :
    ∃ m, lex ⟨.content n, ts⟩ e.text = some ⟨.content m, ts ++ [.empty e.tag]⟩ := by
  have hfix : lex ⟨.inTag ⟨e.name, []⟩ true, ts⟩ (e.fixed.flatMap Item.text) =
      some ⟨.inTag ⟨e.name, e.fixed.map Item.attr⟩ true, ts⟩ :=
    lex_items he.fixed he.quot ⟨e.name, []⟩ ts
  have hall := lex_items he.items hquot ⟨e.name, e.fixed.map Item.attr⟩ ts
  obtain ⟨m, hm⟩ := hend e.tag ts
  refine ⟨m, ?_⟩
  have htext : e.text = '<' :: e.name ++ [' '] ++ (e.fixed.flatMap Item.text ++
      (e.items.flatMap Item.text ++ e.tail)) := by simp [Elem.text]
  rw [htext, lex_append_of_eq (lex_startTag he.name n ts), lex_append_of_eq hfix,
    lex_append_of_eq hall]
  exact hm

/-- Elements without quotes in their values are read as they are meant. -/
theorem lex_elems {indent : List Char} {es : List Elem} (hes : ∀ e ∈ es, e.Ok)
    (hquot : ∀ e ∈ es, ∀ i ∈ e.items, Char.ofNat 34 ∉ i.attr.value)
    (hend : ∀ e ∈ es, EndsEmpty e.tail) (hindent : ∀ c ∈ indent, isSpace c) (n : ℕ)
    (ts : List Token) : ∃ m, lex ⟨.content n, ts⟩ (elemsText indent es) =
      some ⟨.content m, ts ++ (es.map Elem.tag).map .empty⟩ := by
  induction es generalizing n ts with
  | nil => exact ⟨n, by simp [elemsText]⟩
  | cons e es ih =>
    obtain ⟨m₀, hm₀⟩ := lex_content_spaces hindent n ts
    obtain ⟨m₁, hm₁⟩ := lex_elem (hes e List.mem_cons_self) (hquot e List.mem_cons_self)
      (hend e List.mem_cons_self) m₀ ts
    obtain ⟨m, hm⟩ := ih (fun e' he' => hes e' (List.mem_cons_of_mem _ he'))
      (fun e' he' => hquot e' (List.mem_cons_of_mem _ he'))
      (fun e' he' => hend e' (List.mem_cons_of_mem _ he')) m₁ (ts ++ [.empty e.tag])
    have htext : elemsText indent (e :: es) = indent ++ (e.text ++ elemsText indent es) := by
      simp [elemsText]
    exact ⟨m, by rw [htext, lex_append_of_eq hm₀, lex_append_of_eq hm₁, hm]; simp⟩

end Xml

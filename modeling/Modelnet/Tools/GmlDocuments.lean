import Modelnet.Tools.GmlParser

/-!
# Which files are GML documents

A document is a list of pairs, as tokens, and the end of the file. The parser accepts exactly the
documents. On any other file it stops at the first token with which no document goes on, and the
kind of the error says which token that was.
-/

namespace Modelnet.Tools.Gml

variable {D : Type}

namespace Pairs

/-- The keys of the pairs, as the file has them. -/
def keys : Pairs D → List (List Char)
  | null => []
  | garbage => []
  | int key _ next => key :: next.keys
  | double key _ next => key :: next.keys
  | string key _ next => key :: next.keys
  | list key l next => key :: (l.keys ++ next.keys)

/-- `GML_free_list`, with the strings that it frees. It must not follow a `next` that was never
set. -/
def freeList : Pairs D → Option (List (List Char))
  | null => some []
  | garbage => none
  | int _ _ next => next.freeList
  | double _ _ next => next.freeList
  | string _ s next => next.freeList.map (s :: ·)
  | list _ l next => l.freeList.bind fun strings => next.freeList.map (strings ++ ·)

theorem freeList_isSome (l : Pairs D) : l.freeList.isSome ↔ l.Linked := by
  induction l with
  | null => simp [freeList, Linked]
  | garbage => simp [freeList, Linked]
  | int _ _ _ ih => exact ih
  | double _ _ _ ih => exact ih
  | string _ _ _ ih => simpa only [freeList, Option.isSome_map, Linked] using ih
  | list _ l next ihl ihn =>
    simp only [freeList, Linked, ← ihl, ← ihn]
    cases l.freeList <;> simp

theorem fileEnd_notMem_tokens (l : Pairs D) : .fileEnd ∉ l.tokens := by
  induction l with
  | null => simp [tokens]
  | garbage => simp [tokens]
  | int _ _ _ ih => simpa [tokens] using ih
  | double _ _ _ ih => simpa [tokens] using ih
  | string _ _ _ ih => simpa [tokens] using ih
  | list _ _ _ ihl ihn => simpa [tokens] using ⟨ihl, ihn⟩

/-- Two lists are the same when their tokens are, up to a token that is not a key. -/
theorem eq_of_tokens_append {l l' : Pairs D} {ts ts' : List (Token D)} (hl : l.Linked)
    (hl' : l'.Linked) (hts : ∀ key, ts.head? ≠ some (.key key))
    (hts' : ∀ key, ts'.head? ≠ some (.key key)) (h : l.tokens ++ ts = l'.tokens ++ ts') :
    l = l' ∧ ts = ts' := by
  induction l generalizing l' ts ts' with
  | null =>
    cases l' with
    | null => exact ⟨rfl, h⟩
    | garbage => exact hl'.elim
    | _ => exact (hts _ (congrArg List.head? h)).elim
  | garbage => exact hl.elim
  | int key i next ih =>
    cases l' with
    | null => exact (hts' key (congrArg List.head? h.symm)).elim
    | garbage => exact hl'.elim
    | int key' i' next' =>
      simp only [tokens, List.cons_append, List.cons.injEq, Token.key.injEq, Token.int.injEq] at h
      obtain ⟨hnext, heq⟩ := @ih next' ts ts' hl hl' hts hts' h.2.2
      exact ⟨by rw [h.1, h.2.1, hnext], heq⟩
    | _ => simp [tokens] at h
  | double key d next ih =>
    cases l' with
    | null => exact (hts' key (congrArg List.head? h.symm)).elim
    | garbage => exact hl'.elim
    | double key' d' next' =>
      simp only [tokens, List.cons_append, List.cons.injEq, Token.key.injEq,
        Token.double.injEq] at h
      obtain ⟨hnext, heq⟩ := @ih next' ts ts' hl hl' hts hts' h.2.2
      exact ⟨by rw [h.1, h.2.1, hnext], heq⟩
    | _ => simp [tokens] at h
  | string key s next ih =>
    cases l' with
    | null => exact (hts' key (congrArg List.head? h.symm)).elim
    | garbage => exact hl'.elim
    | string key' s' next' =>
      simp only [tokens, List.cons_append, List.cons.injEq, Token.key.injEq,
        Token.string.injEq] at h
      obtain ⟨hnext, heq⟩ := @ih next' ts ts' hl hl' hts hts' h.2.2
      exact ⟨by rw [h.1, h.2.1, hnext], heq⟩
    | _ => simp [tokens] at h
  | list key l next ihl ihn =>
    cases l' with
    | null => exact (hts' key (congrArg List.head? h.symm)).elim
    | garbage => exact hl'.elim
    | list key' m next' =>
      simp only [tokens, List.cons_append, List.append_assoc, List.cons.injEq,
        Token.key.injEq] at h
      obtain ⟨hlist, hrest⟩ := @ihl m _ _ hl.1 hl'.1 (by simp) (by simp) h.2.2
      obtain ⟨hnext, heq⟩ := @ihn next' ts ts' hl.2 hl'.2 hts hts' (List.cons.inj hrest).2
      exact ⟨by rw [h.1, hlist, hnext], heq⟩
    | _ => simp [tokens] at h

end Pairs

/-! ## Pairs without a list -/

section Atom

variable {key : List Char} {t : Token D} {pair : Pairs D → Pairs D}

theorem atom_tokens (h : atom key t = some pair) (l : Pairs D) :
    (pair l).tokens = .key key :: t :: l.tokens := by
  cases t <;> cases h <;> rfl

theorem atom_linked (h : atom key t = some pair) (l : Pairs D) : (pair l).Linked ↔ l.Linked := by
  cases t <;> cases h <;> rfl

theorem atom_keys (h : atom key t = some pair) (l : Pairs D) : (pair l).keys = key :: l.keys := by
  cases t <;> cases h <;> rfl

end Atom

/-! ## What is accepted -/

variable {atof : List Char → D} {opened : Bool} {keys : List (List Char)} {src last : Source}
  {r : Parsed D} {l : Pairs D}

/-- Without an error the parser has read the tokens of its list and what closes them. -/
theorem Reads.sound (h : Reads atof opened keys src r) (hok : r.err = none) :
    r.list.Linked ∧ Scans atof src (r.list.tokens ++ [closing opened]) r.src ∧
      r.keyList = r.list.keys.foldl internKey keys := by
  induction h with
  | close hscan => exact ⟨trivial, .one hscan, rfl⟩
  | noKey => cases hok
  | noValue => cases hok
  | @atom opened keys src mid next key t pair rest hkey hvalue hatom _ ih =>
    obtain ⟨hlink, hscans, hkeys⟩ := ih hok
    refine ⟨(atom_linked hatom _).mpr hlink, ?_, ?_⟩
    · rw [Parsed.cons, atom_tokens hatom]
      exact .cons hkey (.cons hvalue hscans)
    · rw [Parsed.cons, atom_keys hatom]
      exact hkeys
  | badList _ _ _ herr => rw [show _ = none from hok] at herr; cases herr
  | @list opened keys src mid next key inner rest hkey hopen _ herr _ ihl ihn =>
    obtain ⟨hlinkl, hscansl, hkeysl⟩ := ihl herr
    obtain ⟨hlinkn, hscansn, hkeysn⟩ := ihn hok
    refine ⟨⟨hlinkl, hlinkn⟩, ?_, ?_⟩
    · have hall := Scans.cons hkey (.cons hopen (hscansl.append hscansn))
      rw [List.append_assoc] at hall
      simpa only [Parsed.cons, Pairs.tokens, List.cons_append, List.append_assoc,
        List.nil_append, closing, if_true] using hall
    · rw [Parsed.cons, Pairs.keys, List.foldl_cons, List.foldl_append, ← hkeysl]
      exact hkeysn

/-! ## Where the parser stops -/

/-- A place in a document: how many brackets are open, and whether a key waits for its value. -/
structure Place where
  depth : ℕ
  behindKey : Bool

/-- A token that is not the last one leads to the next place. -/
def Place.next : Place → Token D → Option Place
  | ⟨d, false⟩, .key _ => some ⟨d, true⟩
  | ⟨d + 1, false⟩, .rBracket => some ⟨d, false⟩
  | ⟨d, true⟩, .int _ => some ⟨d, false⟩
  | ⟨d, true⟩, .double _ => some ⟨d, false⟩
  | ⟨d, true⟩, .string _ => some ⟨d, false⟩
  | ⟨d, true⟩, .lBracket => some ⟨d + 1, false⟩
  | _, _ => none

/-- The tokens lead from one place to another. -/
def Place.Leads (p : Place) (ts : List (Token D)) (q : Place) : Prop :=
  ts.foldlM Place.next p = some q

/-- No document has the token at this place. -/
def Place.Refuses (p : Place) (t : Token D) : Prop :=
  p.next t = none ∧ ¬(t = .fileEnd ∧ p = ⟨0, false⟩)

namespace Place

variable {p q s : Place} {t : Token D} {ts ts' : List (Token D)}

theorem Leads.cons (h : p.next t = some q) (h' : q.Leads ts s) : p.Leads (t :: ts) s := by
  unfold Leads at *
  rw [List.foldlM_cons, h]
  exact h'

theorem leads_append : p.Leads (ts ++ ts') s ↔ ∃ q, p.Leads ts q ∧ q.Leads ts' s := by
  unfold Leads
  rw [List.foldlM_append]
  exact Option.bind_eq_some_iff

theorem Leads.append (h : p.Leads ts q) (h' : q.Leads ts' s) : p.Leads (ts ++ ts') s :=
  leads_append.mpr ⟨q, h, h'⟩

theorem leads_nil : p.Leads ([] : List (Token D)) q ↔ p = q := by
  unfold Leads
  exact Option.some_inj

theorem leads_singleton : p.Leads [t] q ↔ p.next t = some q := by
  unfold Leads
  simp only [List.foldlM_cons, List.foldlM_nil, bind_pure]

theorem leads_tokens (hl : l.Linked) (d : ℕ) : Leads ⟨d, false⟩ l.tokens ⟨d, false⟩ := by
  induction l generalizing d with
  | null => exact leads_nil.mpr rfl
  | garbage => exact hl.elim
  | int _ _ _ ih => exact .cons rfl (.cons rfl (ih hl d))
  | double _ _ _ ih => exact .cons rfl (.cons rfl (ih hl d))
  | string _ _ _ ih => exact .cons rfl (.cons rfl (ih hl d))
  | list _ _ _ ihl ihn =>
    exact .cons rfl (.cons rfl ((ihl hl.1 (d + 1)).append (.cons rfl (ihn hl.2 d))))

end Place

/-- The tokens are the beginning of a document. -/
def Begins (ts : List (Token D)) : Prop := ∃ l : Pairs D, l.Linked ∧ ts <+: l.tokens ++ [.fileEnd]

section Begins

variable {t : Token D} {ts ts' : List (Token D)} {p : Place}

theorem Begins.of_le (h : Begins ts') (hp : ts <+: ts') : Begins ts := by
  obtain ⟨l, hl, hts⟩ := h
  exact ⟨l, hl, hp.trans hts⟩

theorem not_begins (hlead : Place.Leads ⟨0, false⟩ ts p) (href : p.Refuses t) :
    ¬Begins (ts ++ [t]) := by
  rintro ⟨l, hl, rest, hrest⟩
  have hrun := Place.leads_tokens hl 0
  rcases List.eq_nil_or_concat rest with rfl | ⟨rest, last, rfl⟩
  · rw [List.append_nil] at hrest
    obtain ⟨rfl, ht⟩ := List.append_inj' hrest rfl
    cases ht
    have hp : p = ⟨0, false⟩ := Option.some_inj.mp (hlead.symm.trans hrun)
    exact href.2 ⟨rfl, hp⟩
  · rw [List.concat_eq_append, ← List.append_assoc] at hrest
    obtain ⟨heq, -⟩ := List.append_inj' hrest rfl
    rw [← heq, Place.leads_append] at hrun
    obtain ⟨q, hq, -⟩ := hrun
    obtain ⟨p', hp', hnext⟩ := Place.leads_append.mp hq
    have hp : p = p' := Option.some_inj.mp (hlead.symm.trans hp')
    rw [Place.leads_singleton, ← hp, href.1] at hnext
    cases hnext

end Begins

/-- An error of the parser: the tokens up to it, the place they lead to, and the one it refused. -/
structure Stuck (atof : List Char → D) (d : ℕ) (src : Source) (r : Parsed D) (e : GmlError)
    (ts : List (Token D)) (t : Token D) (p : Place) : Prop where
  scans : Scans atof src (ts ++ [t]) r.src
  leads : Place.Leads ⟨d, false⟩ ts p
  refuses : p.Refuses t
  err : e = t.fault p.behindKey r.src
  extends_ : ∃ (l : Pairs D) (tail : List (Token D)), l.Linked ∧ ts ++ tail = l.tokens
  le_depth : d ≤ p.depth
  linked : r.list.Linked ↔ p.depth = d

theorem Reads.stuck {e : GmlError} (h : Reads atof opened keys src r) (herr : r.err = some e)
    (d : ℕ) (hd : opened = true ↔ 0 < d) : ∃ ts t p, Stuck atof d src r e ts t p := by
  induction h generalizing d with
  | close => cases herr
  | @noKey opened keys src last t hscan hclose hkey =>
    cases herr
    refine ⟨[], t, ⟨d, false⟩, .one hscan, Place.leads_nil.mpr rfl, ⟨?_, ?_⟩, rfl,
      ⟨.null, [], trivial, rfl⟩, le_rfl, by simp [Pairs.Linked]⟩
    · cases t with
      | key key => exact absurd rfl (hkey key)
      | rBracket =>
        cases opened with
        | true => exact absurd rfl hclose
        | false =>
          have hzero : d = 0 := by simpa using hd
          rw [hzero]
          rfl
      | _ => simp [Place.next]
    · rintro ⟨rfl, hp⟩
      cases opened with
      | true => simp [(Place.mk.inj hp).1] at hd
      | false => exact absurd rfl hclose
  | @noValue opened keys src mid last key t hkey hscan hatom hlist =>
    cases herr
    refine ⟨[.key key], t, ⟨d, true⟩, .cons hkey (.one hscan), Place.leads_singleton.mpr rfl,
      ⟨?_, by simp⟩, rfl, ⟨.int key 0 .null, [.int 0], trivial, rfl⟩, le_rfl,
      by simp [Pairs.Linked]⟩
    cases t with
    | int => cases hatom
    | double => cases hatom
    | string => cases hatom
    | lBracket => exact absurd rfl hlist
    | _ => rfl
  | @atom opened keys src mid next key t pair rest hkey hvalue hatom _ ih =>
    obtain ⟨ts, bad, p, hs⟩ := ih herr d hd
    obtain ⟨l, tail, hl, htail⟩ := hs.extends_
    refine ⟨.key key :: t :: ts, bad, p, .cons hkey (.cons hvalue hs.scans), ?_, hs.refuses,
      hs.err, ⟨pair l, tail, (atom_linked hatom l).mpr hl, ?_⟩, hs.le_depth,
      (atom_linked hatom _).trans hs.linked⟩
    · exact .cons rfl (.cons (by cases t <;> cases hatom <;> rfl) hs.leads)
    · rw [atom_tokens hatom, List.cons_append, List.cons_append, htail]
  | @badList opened keys src mid next key inner hkey hopen _ _ ih =>
    obtain ⟨ts, bad, p, hs⟩ := ih herr (d + 1) (by simp)
    obtain ⟨l, tail, hl, htail⟩ := hs.extends_
    have hdepth := hs.le_depth
    refine ⟨.key key :: .lBracket :: ts, bad, p, .cons hkey (.cons hopen hs.scans),
      .cons rfl (.cons rfl hs.leads), hs.refuses, hs.err,
      ⟨.list key l .null, tail ++ [.rBracket], ⟨hl, trivial⟩, ?_⟩, by omega, ?_⟩
    · simp only [List.cons_append, Pairs.tokens, ← List.append_assoc, htail]
    · simp only [Pairs.Linked, and_false, false_iff]
      omega
  | @list opened keys src mid next key inner rest hkey hopen hinner herr' _ _ ihn =>
    obtain ⟨hlink, hscans, -⟩ := hinner.sound herr'
    obtain ⟨ts, bad, p, hs⟩ := ihn herr d hd
    obtain ⟨l, tail, hl, htail⟩ := hs.extends_
    refine ⟨.key key :: .lBracket :: (inner.list.tokens ++ .rBracket :: ts), bad, p, ?_,
      .cons rfl (.cons rfl ((Place.leads_tokens hlink (d + 1)).append (.cons rfl hs.leads))),
      hs.refuses, hs.err, ⟨.list key inner.list l, tail, ⟨hlink, hl⟩, ?_⟩, hs.le_depth, ?_⟩
    · have hall := Scans.cons hkey (.cons hopen (hscans.append hs.scans))
      simpa only [closing, List.append_assoc, List.cons_append, List.nil_append, if_true,
        Parsed.cons] using hall
    · simp only [List.cons_append, Pairs.tokens, List.append_assoc, htail]
    · simpa only [Parsed.cons, Pairs.Linked, hlink, true_and] using hs.linked

theorem Stuck.begins {d : ℕ} {e : GmlError} {ts : List (Token D)} {t : Token D} {p : Place}
    (h : Stuck atof d src r e ts t p) : Begins ts ∧ .fileEnd ∉ ts := by
  obtain ⟨l, tail, hl, htail⟩ := h.extends_
  refine ⟨⟨l, hl, tail ++ [.fileEnd], by rw [← List.append_assoc, htail]⟩, fun hmem => ?_⟩
  refine l.fileEnd_notMem_tokens ?_
  rw [← htail]
  exact List.mem_append_left tail hmem

/-- Where a reading stops at a token that no document has there, it is no reading of a document. -/
theorem not_document {ts : List (Token D)} {t : Token D} {last' : Source} (hl : l.Linked)
    (hs : Scans atof src (l.tokens ++ [.fileEnd]) last) (hs' : Scans atof src (ts ++ [t]) last')
    (hend : .fileEnd ∉ ts) (hbad : ¬Begins (ts ++ [t])) : False := by
  rcases hs.comparable hs' with hp | hp
  · rcases List.prefix_concat_iff.mp hp with heq | hp
    · exact hbad ⟨l, hl, by rw [← heq]⟩
    · exact hend (hp.subset (by simp))
  · exact hbad ⟨l, hl, hp⟩

/-- The parser accepts the tokens of a list of pairs and the end, and then it returns that list. -/
theorem gmlParser_of_scans (hl : l.Linked) (hs : Scans atof src (l.tokens ++ [.fileEnd]) last) :
    ∃ keys, gmlParser atof src = some ⟨l, none, keys, last⟩ := by
  obtain ⟨r, hr, hreads⟩ := gmlParser_isSome atof src
  cases herr : r.err with
  | some e =>
    obtain ⟨ts, t, p, hstuck⟩ := hreads.stuck herr 0 (by simp)
    exact (not_document hl hs hstuck.scans hstuck.begins.2
      (not_begins hstuck.leads hstuck.refuses)).elim
  | none =>
    obtain ⟨hl', hs', -⟩ := hreads.sound herr
    have hlen : ∀ {m m' : Pairs D}, m.tokens ++ [.fileEnd] <+: m'.tokens ++ [.fileEnd] →
        m.tokens ++ [.fileEnd] = m'.tokens ++ [.fileEnd] := by
      intro m m' hp
      rcases List.prefix_concat_iff.mp hp with heq | hp
      · exact heq
      · exact (m'.fileEnd_notMem_tokens (hp.subset (by simp))).elim
    have heq : l.tokens ++ [.fileEnd] = r.list.tokens ++ [.fileEnd] :=
      (hs.comparable hs').elim hlen fun hp => (hlen hp).symm
    have hlist := (Pairs.eq_of_tokens_append hl hl' (by simp) (by simp) heq).1
    have hlast : last = r.src := hs.unique (heq ▸ hs')
    refine ⟨r.keyList, ?_⟩
    rw [hr, hlist, hlast, ← herr]

/-- The last token is a key. -/
def endsWithKey (ts : List (Token D)) : Bool :=
  match ts.getLast? with
  | some (.key _) => true
  | _ => false

theorem Place.behindKey_of_leads {ts : List (Token D)} {p : Place}
    (h : Place.Leads ⟨0, false⟩ ts p) : p.behindKey = endsWithKey ts := by
  rcases List.eq_nil_or_concat ts with rfl | ⟨ts, t, rfl⟩
  · rw [← Place.leads_nil.mp h]
    rfl
  · rw [List.concat_eq_append] at h ⊢
    obtain ⟨q, -, hq⟩ := Place.leads_append.mp h
    rw [Place.leads_singleton] at hq
    unfold endsWithKey
    rw [List.getLast?_concat]
    obtain ⟨d, b⟩ := q
    cases b <;> cases t <;> first | (cases hq; rfl) | (cases d <;> cases hq <;> rfl)

/-- The parser fails exactly at the first token with which no document goes on. -/
theorem gmlParser_fails_iff (atof : List Char → D) (src last : Source) (e : GmlError) :
    (∃ l keys, gmlParser atof src = some ⟨l, some e, keys, last⟩) ↔
      ∃ ts t, Scans atof src (ts ++ [t]) last ∧ .fileEnd ∉ ts ∧ Begins ts ∧ ¬Begins (ts ++ [t]) ∧
        e = t.fault (endsWithKey ts) last := by
  constructor
  · rintro ⟨l, keys, h⟩
    obtain ⟨ts, t, p, hs⟩ := (Reads.of_parserLoop h).stuck rfl 0 (by simp)
    have hkey := Place.behindKey_of_leads hs.leads
    exact ⟨ts, t, hs.scans, hs.begins.2, hs.begins.1, not_begins hs.leads hs.refuses,
      by rw [← hkey]; exact hs.err⟩
  · rintro ⟨ts, t, hs, hend, hbegin, hbad, rfl⟩
    obtain ⟨r, hr, hreads⟩ := gmlParser_isSome atof src
    cases herr : r.err with
    | none =>
      obtain ⟨hl, hs', -⟩ := hreads.sound herr
      exact (not_document hl hs' hs hend hbad).elim
    | some e =>
      obtain ⟨ts', t', p, hstuck⟩ := hreads.stuck herr 0 (by simp)
      have hbad' := not_begins hstuck.leads hstuck.refuses
      have heq : ts ++ [t] = ts' ++ [t'] := by
        rcases hs.comparable hstuck.scans with hp | hp
        · rcases List.prefix_concat_iff.mp hp with heq | hp
          · exact heq
          · exact (hbad (hstuck.begins.1.of_le hp)).elim
        · rcases List.prefix_concat_iff.mp hp with heq | hp
          · exact heq.symm
          · exact (hbad' (hbegin.of_le hp)).elim
      have hlast : last = r.src := hs.unique (heq ▸ hstuck.scans)
      obtain ⟨rfl, ht⟩ := List.append_inj' heq rfl
      cases ht
      refine ⟨r.list, r.keyList, ?_⟩
      rw [hr, hlast, ← Place.behindKey_of_leads hstuck.leads, ← hstuck.err, ← herr]

/-! ## The memory of a parse -/

/-- The string that the scanner allocated for a value. -/
def Token.string? : Token D → Option (List Char)
  | .string s => some s
  | _ => none

def Token.isLBracket : Token D → Bool
  | .lBracket => true
  | _ => false

def Token.isRBracket : Token D → Bool
  | .rBracket => true
  | _ => false

theorem Pairs.freeList_eq (hl : l.Linked) :
    l.freeList = some (l.tokens.filterMap Token.string?) := by
  induction l with
  | null => rfl
  | garbage => exact hl.elim
  | int _ _ _ ih => exact ih hl
  | double _ _ _ ih => exact ih hl
  | string _ _ _ ih =>
    rw [freeList, ih hl]
    rfl
  | list _ _ _ ihl ihn =>
    rw [freeList, ihl hl.1, ihn hl.2, Option.bind_some, Option.map_some, tokens,
      List.filterMap_cons_none rfl, List.filterMap_cons_none rfl, List.filterMap_append,
      List.filterMap_cons_none rfl]

theorem Place.depth_of_leads {ts : List (Token D)} {p q : Place} (h : p.Leads ts q) :
    q.depth + ts.countP Token.isRBracket = p.depth + ts.countP Token.isLBracket := by
  induction ts generalizing p with
  | nil => rw [Place.leads_nil.mp h]; simp
  | cons t ts ih =>
    obtain ⟨mid, hmid, hrest⟩ := Place.leads_append.mp (show p.Leads ([t] ++ ts) q from h)
    rw [Place.leads_singleton] at hmid
    have hts := ih hrest
    obtain ⟨d, b⟩ := p
    rw [List.countP_cons, List.countP_cons]
    cases b <;> cases t <;> first | cases hmid | (cases d <;> cases hmid)
    all_goals simp [Token.isLBracket, Token.isRBracket] at hts ⊢
    all_goals omega

theorem nodup_internKey {keys : List (List Char)} (h : keys.Nodup) (key : List Char) :
    (internKey keys key).Nodup := by
  unfold internKey
  split_ifs with hmem
  · exact h
  · exact List.nodup_cons.mpr ⟨fun hkey => hmem (List.contains_iff_mem.mpr hkey), h⟩

theorem mem_internKey {keys : List (List Char)} {key k : List Char} :
    k ∈ internKey keys key ↔ k ∈ keys ∨ k = key := by
  unfold internKey
  split_ifs with hmem
  · exact ⟨.inl, fun h => h.elim id fun hk => hk ▸ List.contains_iff_mem.mp hmem⟩
  · rw [List.mem_cons, or_comm]

theorem foldl_internKey (ks keys : List (List Char)) (h : keys.Nodup) :
    (ks.foldl internKey keys).Nodup ∧
      ∀ k, k ∈ ks.foldl internKey keys ↔ k ∈ keys ∨ k ∈ ks := by
  induction ks generalizing keys with
  | nil => simpa using h
  | cons key ks ih =>
    obtain ⟨hnodup, hmem⟩ := ih _ (nodup_internKey h key)
    refine ⟨hnodup, fun k => ?_⟩
    rw [List.foldl_cons, hmem, mem_internKey, List.mem_cons, or_assoc]

/-- Of a document `GML_free_list` frees every string once, and every key once with `key_list`. After
an error it follows a link that was never set exactly when brackets were open in front of the token
that the parser refused. -/
theorem freeList_gmlParser (atof : List Char → D) (src : Source) :
    ∃ r, gmlParser atof src = some r ∧
      (r.err = none → r.list.freeList = some (r.list.tokens.filterMap Token.string?) ∧
        r.keyList.Nodup ∧ ∀ key, key ∈ r.keyList ↔ key ∈ r.list.keys) ∧
      (r.err.isSome → ∃ ts t, Scans atof src (ts ++ [t]) r.src ∧
        (r.list.freeList.isSome ↔ ts.countP Token.isLBracket = ts.countP Token.isRBracket)) := by
  obtain ⟨r, hr, hreads⟩ := gmlParser_isSome atof src
  refine ⟨r, hr, fun hok => ?_, fun herr => ?_⟩
  · obtain ⟨hl, -, hkeys⟩ := hreads.sound hok
    obtain ⟨hnodup, hmem⟩ := foldl_internKey r.list.keys [] List.nodup_nil
    rw [← hkeys] at hnodup hmem
    exact ⟨Pairs.freeList_eq hl, hnodup, fun key => (hmem key).trans (by simp)⟩
  · obtain ⟨e, he⟩ := Option.isSome_iff_exists.mp herr
    obtain ⟨ts, t, p, hs⟩ := hreads.stuck he 0 (by simp)
    refine ⟨ts, t, hs.scans, ?_⟩
    rw [Pairs.freeList_isSome, hs.linked]
    have hdepth := Place.depth_of_leads hs.leads
    dsimp only at hdepth
    omega

end Modelnet.Tools.Gml

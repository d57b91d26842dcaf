import Mathlib.Data.List.TakeWhile
import Modelnet.Tools.GmlDocuments

/-!
# The text of a GML document

The grammar of the files that the parser accepts, character by character: between the tokens there
are blanks, which are white space and comments. Behind a key there is white space or an opening
bracket, behind a number white space, a closing bracket or the end.
-/

namespace Modelnet.Tools.Gml

variable {D : Type}

/-! ## Blanks -/

/-- White space and comments. -/
inductive Blank : List Char → Prop
  | nil : Blank []
  | space {c : Char} {cs : List Char} : isspace c = true → Blank cs → Blank (c :: cs)
  | comment {body cs : List Char} :
    '\n' ∉ body → Blank cs → Blank ('#' :: (body ++ '\n' :: cs))

/-- Blanks in front of the end of the file, where the last comment needs no end. -/
inductive LastBlank : List Char → Prop
  | blank {b : List Char} : Blank b → LastBlank b
  | comment {b body : List Char} : Blank b → '\n' ∉ body → LastBlank (b ++ '#' :: body)

variable {b cs : List Char} {c : Char} {line column : ℕ}

theorem isspace_newline : isspace '\n' = true := by decide

theorem not_isspace_hash : ¬isspace '#' = true := by decide

theorem skipBlank_comment {body : List Char} (hb : '\n' ∉ body) (cs : List Char)
    (line column : ℕ) :
    skipBlank true (body ++ '\n' :: cs) line column = skipBlank false cs (line + 1) 1 := by
  induction body with
  | nil => simp [skipBlank]
  | cons c body ih =>
    rw [List.mem_cons, not_or] at hb
    obtain ⟨hc, hbody⟩ := hb
    rw [List.cons_append, skipBlank, if_neg (Ne.symm hc)]
    exact ih hbody

theorem skipBlank_openComment {body : List Char} (hb : '\n' ∉ body) (line column : ℕ) :
    (skipBlank true body line column).1 = none := by
  induction body with
  | nil => rfl
  | cons c body ih =>
    rw [List.mem_cons, not_or] at hb
    obtain ⟨hc, hbody⟩ := hb
    rw [skipBlank, if_neg (Ne.symm hc)]
    exact ih hbody

theorem skipBlank_append (hb : Blank b) (cs : List Char) (line column : ℕ) :
    ∃ line' column', skipBlank false (b ++ cs) line column = skipBlank false cs line' column' := by
  induction hb generalizing line column with
  | nil => exact ⟨line, column, rfl⟩
  | @space c b hc _ ih =>
    rw [List.cons_append, skipBlank]
    split_ifs
    · exact ih _ _
    · exact ih _ _
  | @comment body b hbody _ ih =>
    rw [List.cons_append, skipBlank, if_neg (by decide), if_neg not_isspace_hash, if_pos rfl,
      List.append_assoc, List.cons_append, skipBlank_comment hbody]
    exact ih _ _

/-- The first character of a token. -/
def startsToken (c : Char) : Bool := !isspace c && c ≠ '#'

theorem skipBlank_token (hc : startsToken c) (cs : List Char) (line column : ℕ) :
    skipBlank false (c :: cs) line column = (some c, ⟨cs, line, column + 1⟩) := by
  simp only [startsToken, Bool.and_eq_true, Bool.not_eq_true', decide_eq_true_eq] at hc
  have hnew : c ≠ '\n' := by
    rintro rfl
    exact absurd isspace_newline (by simp [hc.1])
  rw [skipBlank, if_neg hnew, if_neg (by simp [hc.1]), if_neg hc.2]

theorem blank_of_skipBlank {mid : Source}
    (h : skipBlank false cs line column = (some c, mid)) :
    ∃ b, Blank b ∧ cs = b ++ c :: mid.rest ∧ startsToken c := by
  have hgen : ∀ comment, skipBlank comment cs line column = (some c, mid) →
      if comment then ∃ body b, '\n' ∉ body ∧ Blank b ∧ cs = body ++ '\n' :: (b ++ c :: mid.rest) ∧
        startsToken c
      else ∃ b, Blank b ∧ cs = b ++ c :: mid.rest ∧ startsToken c := by
    clear h
    intro comment h
    fun_induction skipBlank comment cs line column with
    | case1 => cases h
    | case2 => cases h
    | case3 cs line column ih =>
      obtain ⟨b, hb, heq, hstart⟩ : ∃ b, Blank b ∧ cs = b ++ c :: mid.rest ∧ _ := ih h
      exact ⟨[], b, List.not_mem_nil, hb, by rw [heq]; rfl, hstart⟩
    | case4 c' cs line column hc ih =>
      obtain ⟨body, b, hbody, hb, heq, hstart⟩ : ∃ body b, '\n' ∉ body ∧ Blank b ∧ _ ∧ _ := ih h
      refine ⟨c' :: body, b, ?_, hb, by rw [heq]; rfl, hstart⟩
      rw [List.mem_cons, not_or]
      exact ⟨Ne.symm hc, hbody⟩
    | case5 cs line column ih =>
      obtain ⟨b, hb, heq, hstart⟩ : ∃ b, Blank b ∧ cs = b ++ c :: mid.rest ∧ _ := ih h
      exact ⟨'\n' :: b, .space isspace_newline hb, by rw [heq]; rfl, hstart⟩
    | case6 c' cs line column _ hc ih =>
      obtain ⟨b, hb, heq, hstart⟩ : ∃ b, Blank b ∧ cs = b ++ c :: mid.rest ∧ _ := ih h
      exact ⟨c' :: b, .space hc hb, by rw [heq]; rfl, hstart⟩
    | case7 cs line column _ _ ih =>
      obtain ⟨body, b, hbody, hb, heq, hstart⟩ : ∃ body b, '\n' ∉ body ∧ Blank b ∧ _ ∧ _ := ih h
      exact ⟨'#' :: (body ++ '\n' :: b), .comment hbody hb, by rw [heq]; simp, hstart⟩
    | case8 c' cs line column _ hspace hhash =>
      cases h
      exact ⟨[], .nil, rfl, by simp [startsToken, hspace, hhash]⟩
  simpa using hgen false h

theorem LastBlank.space (hc : isspace c = true) (h : LastBlank cs) : LastBlank (c :: cs) := by
  cases h with
  | blank hb => exact .blank (.space hc hb)
  | @comment b body hb hbody => exact .comment (b := c :: b) (.space hc hb) hbody

theorem LastBlank.afterComment {body : List Char} (hbody : '\n' ∉ body) (h : LastBlank cs) :
    LastBlank ('#' :: (body ++ '\n' :: cs)) := by
  cases h with
  | blank hb => exact .blank (.comment hbody hb)
  | @comment b last hb hlast =>
    have h' := LastBlank.comment (Blank.comment hbody hb) hlast
    rwa [List.cons_append, List.append_assoc] at h'

theorem lastBlank_of_skipBlank (h : (skipBlank false cs line column).1 = none) : LastBlank cs := by
  have hgen : ∀ comment, (skipBlank comment cs line column).1 = none →
      if comment then '\n' ∉ cs ∨ ∃ body b, '\n' ∉ body ∧ LastBlank b ∧ cs = body ++ '\n' :: b
      else LastBlank cs := by
    clear h
    intro comment h
    fun_induction skipBlank comment cs line column with
    | case1 => exact .blank .nil
    | case2 => exact .inl List.not_mem_nil
    | case3 cs line column ih => exact .inr ⟨[], cs, List.not_mem_nil, ih h, rfl⟩
    | case4 c' cs line column hc ih =>
      have hnot : ∀ body, '\n' ∉ body → '\n' ∉ c' :: body := by
        intro body hbody
        rw [List.mem_cons, not_or]
        exact ⟨Ne.symm hc, hbody⟩
      have hrest : '\n' ∉ cs ∨ ∃ body b, '\n' ∉ body ∧ LastBlank b ∧ cs = body ++ '\n' :: b := ih h
      rcases hrest with hcs | ⟨body, b, hbody, hb, rfl⟩
      · exact .inl (hnot cs hcs)
      · exact .inr ⟨c' :: body, b, hnot body hbody, hb, rfl⟩
    | case5 cs line column ih => exact LastBlank.space isspace_newline (ih h)
    | case6 c' cs line column _ hc ih => exact LastBlank.space hc (ih h)
    | case7 cs line column _ _ ih =>
      have hrest : '\n' ∉ cs ∨ ∃ body b, '\n' ∉ body ∧ LastBlank b ∧ cs = body ++ '\n' :: b := ih h
      rcases hrest with hcs | ⟨body, b, hbody, hb, rfl⟩
      · exact LastBlank.comment .nil hcs
      · exact hb.afterComment hbody
    | case8 => cases h
  exact hgen false h

theorem skipBlank_lastBlank (h : LastBlank cs) (line column : ℕ) :
    (skipBlank false cs line column).1 = none := by
  cases h with
  | blank hb =>
    obtain ⟨line', column', heq⟩ := skipBlank_append hb [] line column
    rw [List.append_nil] at heq
    rw [heq]
    rfl
  | @comment b body hb hbody =>
    obtain ⟨line', column', heq⟩ := skipBlank_append hb ('#' :: body) line column
    rw [heq, skipBlank, if_neg (by decide), if_neg not_isspace_hash, if_pos rfl]
    exact skipBlank_openComment hbody _ _

/-! ## Strings -/

/-- The text between the quotes, and the characters that it puts into the buffer. A reference that
the string ends in is dropped but for its ampersand. -/
inductive Spells : List Char → List Char → Prop
  | nil : Spells [] []
  | plain {c : Char} {text s : List Char} :
    c ≠ quote → c ≠ '&' → Spells text s → Spells (c :: text) (c :: s)
  | ref {name text s : List Char} :
    quote ∉ name → ';' ∉ name → Spells text s →
      Spells ('&' :: (name ++ ';' :: text)) (isoChar ('&' :: name) :: s)
  | openRef {name : List Char} : quote ∉ name → ';' ∉ name → Spells ('&' :: name) ['&']

theorem quote_ne_amp : quote ≠ '&' := by decide

theorem quote_ne_semicolon : quote ≠ ';' := by decide

theorem stringLoop_name {name : List Char} (hq : quote ∉ name) (hs : ';' ∉ name)
    (body read tail : List Char) (line column : ℕ) :
    stringLoop (D := D) (some body) read (name ++ tail) line column =
      stringLoop (some (body ++ name)) read tail line column := by
  induction name generalizing body with
  | nil => rw [List.append_nil, List.nil_append]
  | cons c name ih =>
    rw [List.mem_cons, not_or] at hq hs
    rw [List.cons_append, stringLoop, if_neg (Ne.symm hq.1), if_neg (Ne.symm hs.1), ih hq.2 hs.2,
      List.append_assoc]
    rfl

/-- The scanner reads what the text between the quotes spells. -/
theorem Spells.stringLoop {text s : List Char} (h : Spells text s) (read cs : List Char)
    (line column : ℕ) : ∃ line' column',
      stringLoop (D := D) none read (text ++ quote :: cs) line column =
        (.string (cString (read ++ s)), ⟨cs, line', column'⟩) := by
  induction h generalizing read line column with
  | nil =>
    refine ⟨line, column, ?_⟩
    rw [List.nil_append, Gml.stringLoop, if_pos rfl, List.append_nil]
  | @plain c text s hq ha _ ih =>
    rw [List.cons_append, Gml.stringLoop, if_neg hq, if_neg ha]
    simp only [List.append_cons read c s]
    split_ifs
    · exact ih _ _ _
    · exact ih _ _ _
  | @ref name text s hq hs _ ih =>
    obtain ⟨line', column', heq⟩ := ih (read ++ [isoChar ('&' :: name)]) line (column + 1)
    refine ⟨line', column', ?_⟩
    rw [List.cons_append, Gml.stringLoop, if_neg (Ne.symm quote_ne_amp), if_pos rfl,
      List.append_assoc, List.cons_append, stringLoop_name hq hs, Gml.stringLoop,
      if_neg (Ne.symm quote_ne_semicolon), if_pos rfl,
      List.append_cons read (isoChar ('&' :: name)) s]
    exact heq
  | @openRef name hq hs =>
    refine ⟨line, column + 1, ?_⟩
    rw [List.cons_append, Gml.stringLoop, if_neg (Ne.symm quote_ne_amp), if_pos rfl,
      stringLoop_name hq hs, Gml.stringLoop, if_pos rfl]

/-- What the rest of a string is, in front of a character or inside a reference. -/
def SpellsRest (ref : Option (List Char)) (read cs rest s : List Char) : Prop :=
  match ref with
  | none => ∃ text chars, Spells text chars ∧ cs = text ++ quote :: rest ∧
      s = cString (read ++ chars)
  | some body => ∃ name, quote ∉ name ∧ ';' ∉ name ∧
      (cs = name ++ quote :: rest ∧ s = cString (read ++ ['&']) ∨
        ∃ text chars, Spells text chars ∧ cs = name ++ ';' :: (text ++ quote :: rest) ∧
          s = cString (read ++ isoChar (body ++ name) :: chars))

theorem spellsRest_of_stringLoop {ref : Option (List Char)} {read s : List Char} {src : Source}
    (h : stringLoop (D := D) ref read cs line column = (.string s, src)) :
    SpellsRest ref read cs src.rest s := by
  fun_induction stringLoop (D := D) ref read cs line column with
  | case1 => cases h
  | case2 read cs line column =>
    cases h
    exact ⟨[], [], .nil, rfl, by rw [List.append_nil]⟩
  | case3 read cs line column _ ih =>
    obtain ⟨name, hq, hs, ⟨rfl, rfl⟩ | ⟨text, chars, hspell, rfl, rfl⟩⟩ := ih h
    · exact ⟨'&' :: name, ['&'], .openRef hq hs, rfl, rfl⟩
    · exact ⟨'&' :: (name ++ ';' :: text), _, .ref hq hs hspell, by simp, rfl⟩
  | case4 read c cs line column newline hq ha hnew ih =>
    obtain ⟨text, chars, hspell, rfl, rfl⟩ := ih h
    exact ⟨c :: text, c :: chars, .plain hq ha hspell, rfl, by rw [List.append_cons read c chars]⟩
  | case5 read c cs line column newline hq ha hnew ih =>
    obtain ⟨text, chars, hspell, rfl, rfl⟩ := ih h
    exact ⟨c :: text, c :: chars, .plain hq ha hspell, rfl, by rw [List.append_cons read c chars]⟩
  | case6 => cases h
  | case7 body read cs line column =>
    cases h
    exact ⟨[], List.not_mem_nil, List.not_mem_nil, .inl ⟨rfl, rfl⟩⟩
  | case8 body read cs line column _ ih =>
    obtain ⟨text, chars, hspell, rfl, rfl⟩ := ih h
    exact ⟨[], List.not_mem_nil, List.not_mem_nil, .inr ⟨text, chars, hspell, rfl, by simp⟩⟩
  | case9 body read c cs line column hq hs ih =>
    obtain ⟨name, hqn, hsn, hrest⟩ := ih h
    refine ⟨c :: name, ?_, ?_, ?_⟩
    · rw [List.mem_cons, not_or]
      exact ⟨Ne.symm hq, hqn⟩
    · rw [List.mem_cons, not_or]
      exact ⟨Ne.symm hs, hsn⟩
    · rcases hrest with ⟨rfl, rfl⟩ | ⟨text, chars, hspell, rfl, rfl⟩
      · exact .inl ⟨rfl, rfl⟩
      · exact .inr ⟨text, chars, hspell, rfl, by simp⟩

-- Without it the characters of a list are looked for among all characters.
scoped instance decidableForallChar (p : Char → Prop) [DecidablePred p] (s : List Char) :
    Decidable (∀ c ∈ s, p c) :=
  List.decidableBAll p s

/-- A name of ASCII characters that is read as the character. -/
def Names (name : List Char) (c : Char) : Prop :=
  isoChar ('&' :: name) = c ∧ quote ∉ name ∧ ';' ∉ name ∧ ∀ x ∈ name, x.toNat < 128

instance (name : List Char) (c : Char) : Decidable (Names name c) :=
  inferInstanceAs (Decidable (_ ∧ _))

theorem names_gmlTable : ∀ i : Fin 96,
    Names (gmlTable.getD i []).tail.dropLast (Char.ofNat (i + 160)) := by
  decide +kernel

theorem names_quote : Names "quot".toList quote := by decide

theorem names_amp : Names "amp".toList '&' := by decide

theorem Names.spells {name text s : List Char} {c : Char} (h : Names name c) (hs : Spells text s) :
    Spells ('&' :: (name ++ ';' :: text)) (c :: s) := by
  obtain ⟨rfl, hq, hsemi, -⟩ := h
  exact .ref hq hsemi hs

/-- Every character of ISO-8859-1 that is no control character of the upper half can be written in
ASCII. -/
theorem exists_spells {s : List Char}
    (hs : ∀ c ∈ s, c.toNat < 128 ∨ 160 ≤ c.toNat ∧ c.toNat < 256) :
    ∃ text, (∀ x ∈ text, x.toNat < 128) ∧ Spells text s := by
  induction s with
  | nil => exact ⟨[], by simp, .nil⟩
  | cons c s ih =>
    obtain ⟨text, hascii, hspell⟩ := ih fun x hx => hs x (List.mem_cons_of_mem _ hx)
    have hnamed : ∀ name, Names name c →
        ∃ text, (∀ x ∈ text, x.toNat < 128) ∧ Spells text (c :: s) := by
      intro name hname
      refine ⟨'&' :: (name ++ ';' :: text), ?_, hname.spells hspell⟩
      simp only [List.mem_cons, List.mem_append]
      rintro x (rfl | hx | rfl | hx)
      · decide
      · exact hname.2.2.2 x hx
      · decide
      · exact hascii x hx
    by_cases hq : c = quote
    · exact hnamed _ (hq ▸ names_quote)
    by_cases ha : c = '&'
    · exact hnamed _ (ha ▸ names_amp)
    rcases hs c List.mem_cons_self with hlow | ⟨hlo, hhi⟩
    · refine ⟨c :: text, ?_, .plain hq ha hspell⟩
      simp only [List.mem_cons]
      rintro x (rfl | hx)
      · exact hlow
      · exact hascii x hx
    · have htable := names_gmlTable ⟨c.toNat - 160, by omega⟩
      rw [show c.toNat - 160 + 160 = c.toNat by omega, Char.ofNat_toNat] at htable
      exact hnamed _ htable

/-! ## Documents -/

/-- The text of a list of tokens. -/
inductive Layout (atof : List Char → D) : List (Token D) → List Char → Prop
  | done {b : List Char} : LastBlank b → Layout atof [] b
  | lBracket {b cs : List Char} {ts : List (Token D)} :
    Blank b → Layout atof ts cs → Layout atof (.lBracket :: ts) (b ++ '[' :: cs)
  | rBracket {b cs : List Char} {ts : List (Token D)} :
    Blank b → Layout atof ts cs → Layout atof (.rBracket :: ts) (b ++ ']' :: cs)
  | string {b text s cs : List Char} {ts : List (Token D)} :
    Blank b → Spells text s → Layout atof ts cs →
      Layout atof (.string (cString s) :: ts) (b ++ quote :: (text ++ quote :: cs))
  | key {b word cs : List Char} {c : Char} {ts : List (Token D)} :
    Blank b → startsKey c → (∀ x ∈ word, inKey x) → cs.head?.any endsKey → Layout atof ts cs →
      Layout atof (.key (c :: word) :: ts) (b ++ c :: (word ++ cs))
  | number {b word cs : List Char} {c : Char} {ts : List (Token D)} :
    Blank b → startsNumber c → (∀ x ∈ word, inNumber x) → (c :: word).length < initialSize →
      (∀ x ∈ cs.head?, ¬inNumber x) → Layout atof ts cs →
      Layout atof (numberToken atof (c :: word) :: ts) (b ++ c :: (word ++ cs))

variable {atof : List Char → D} {ts : List (Token D)} {t : Token D} {src mid last : Source}

theorem Blank.tail (h : Blank (c :: b)) (hc : isspace c = true) : Blank b := by
  cases h with
  | space _ h => exact h
  | comment => exact (not_isspace_hash hc).elim

theorem Layout.space (hc : isspace c = true) (h : Layout atof ts cs) :
    Layout atof ts (c :: cs) := by
  cases h with
  | done hb => exact .done (hb.space hc)
  | lBracket hb h => exact .lBracket (.space hc hb) h
  | rBracket hb h => exact .rBracket (.space hc hb) h
  | string hb hs h => exact .string (.space hc hb) hs h
  | key hb h1 h2 h3 h => exact .key (.space hc hb) h1 h2 h3 h
  | number hb h1 h2 h3 h4 h => exact .number (.space hc hb) h1 h2 h3 h4 h

theorem startsToken_of_startsKey (h : startsKey c) : startsToken c ∧ ¬startsNumber c := by
  simp only [startsKey, startsToken, startsNumber, isspace, Xml.isAlpha_iff, Char.isDigit,
    ge_iff_le, UInt32.le_iff_toNat_le, Bool.or_eq_true, Bool.and_eq_true, Bool.not_eq_true',
    decide_eq_true_eq,
    ← Char.toNat_inj, Char.reduceVal, UInt32.reduceToNat, Char.reduceToNat,
    show c.val.toNat = c.toNat from rfl, Bool.or_eq_false_iff, Bool.and_eq_false_iff,
    decide_eq_false_iff_not, ne_eq] at h ⊢
  omega

theorem startsToken_of_startsNumber (h : startsNumber c) : startsToken c ∧ inNumber c := by
  simp only [startsNumber, startsToken, inNumber, isspace, Char.isDigit, ge_iff_le,
    UInt32.le_iff_toNat_le, Bool.or_eq_true, Bool.and_eq_true, Bool.not_eq_true', decide_eq_true_eq,
    ← Char.toNat_inj, Char.reduceVal, UInt32.reduceToNat, Char.reduceToNat,
    show c.val.toNat = c.toNat from rfl, Bool.or_eq_false_iff, Bool.and_eq_false_iff,
    decide_eq_false_iff_not, ne_eq] at h ⊢
  omega

/-- A token is no error and not the end of the file. -/
def Token.Proper : Token D → Prop
  | .fileEnd => False
  | .error _ => False
  | _ => True

theorem scanner_skip (atof : List Char → D) (hb : Blank b) (cs : List Char) (line column : ℕ) :
    ∃ line' column', scanner atof ⟨b ++ cs, line, column⟩ = scanner atof ⟨cs, line', column'⟩ := by
  obtain ⟨line', column', heq⟩ := skipBlank_append hb cs line column
  refine ⟨line', column', ?_⟩
  unfold scanner
  rw [heq]

/-- Behind a word that ends well at most one white space is missing. -/
theorem behind_rest (src : Source) (bracket : Char) (count : ℕ) (cs : List Char)
    (h : ∀ x ∈ cs.head?, x = bracket ∨ isspace x = true) :
    (src.behind bracket count cs).rest = cs ∨
      ∃ w, isspace w = true ∧ cs = w :: (src.behind bracket count cs).rest := by
  cases cs with
  | nil => exact .inl rfl
  | cons w cs =>
    simp only [Source.behind]
    split_ifs with hnew hbracket
    · exact .inr ⟨w, by rw [hnew]; exact isspace_newline, rfl⟩
    · exact .inl rfl
    · exact .inr ⟨w, (h w rfl).resolve_left hbracket, rfl⟩

theorem not_inKey_of_endsKey (h : endsKey c) : ¬inKey c := by
  simp only [endsKey, inKey, isspace, Char.isAlphanum, Xml.isAlpha_iff, Char.isDigit, ge_iff_le,
    UInt32.le_iff_toNat_le, Bool.or_eq_true, Bool.and_eq_true, decide_eq_true_eq,
    ← Char.toNat_inj, Char.reduceVal, UInt32.reduceToNat, Char.reduceToNat,
    show c.val.toNat = c.toNat from rfl] at h ⊢
  omega

theorem takeWhile_word {p : Char → Bool} {word : List Char} (hw : ∀ x ∈ word, p x)
    (hcs : ∀ x ∈ cs.head?, ¬p x) :
    (word ++ cs).takeWhile p = word ∧ (word ++ cs).dropWhile p = cs := by
  have hstop : cs.takeWhile p = [] ∧ cs.dropWhile p = cs := by
    cases cs with
    | nil => exact ⟨rfl, rfl⟩
    | cons x cs =>
      have hx : ¬p x := hcs x rfl
      exact ⟨List.takeWhile_cons_of_neg hx, List.dropWhile_cons_of_neg hx⟩
  exact ⟨by rw [List.takeWhile_append_of_pos hw, hstop.1, List.append_nil],
    by rw [List.dropWhile_append_of_pos hw, hstop.2]⟩

theorem scanner_key (atof : List Char → D) {word : List Char} (hc : startsKey c)
    (hw : ∀ x ∈ word, inKey x) (hcs : cs.head?.any endsKey) (line column : ℕ) :
    scanner atof ⟨c :: (word ++ cs), line, column⟩ =
      (.key (c :: word),
        Source.behind ⟨word ++ cs, line, column + 1⟩ '[' (c :: word).length cs) := by
  obtain ⟨htoken, hnumber⟩ := startsToken_of_startsKey hc
  have hstop : ∀ x ∈ cs.head?, ¬inKey x := by
    intro x hx
    rw [Option.mem_def.mp hx] at hcs
    exact not_inKey_of_endsKey hcs
  obtain ⟨htake, hdrop⟩ := takeWhile_word hw hstop
  unfold scanner
  rw [skipBlank_token htoken]
  simp only [if_neg hnumber, if_pos hc, scanKey, htake, hdrop, if_pos hcs]

theorem scanner_number (atof : List Char → D) {word : List Char} (hc : startsNumber c)
    (hw : ∀ x ∈ word, inNumber x) (hlen : (c :: word).length < initialSize)
    (hcs : ∀ x ∈ cs.head?, ¬inNumber x) (line column : ℕ) :
    scanner atof ⟨c :: (word ++ cs), line, column⟩ =
      (numberToken atof (c :: word),
        Source.behind ⟨word ++ cs, line, column + 1⟩ ']' (c :: word).length cs) := by
  obtain ⟨htoken, -⟩ := startsToken_of_startsNumber hc
  obtain ⟨htake, hdrop⟩ := takeWhile_word hw hcs
  unfold scanner
  rw [skipBlank_token htoken]
  simp only [if_pos hc, scanNumber, htake, hdrop, if_neg (not_le.mpr hlen)]

theorem scanner_string (atof : List Char → D) {text s : List Char} (hs : Spells text s)
    (cs : List Char) (line column : ℕ) : ∃ line' column',
      scanner atof ⟨quote :: (text ++ quote :: cs), line, column⟩ =
        (.string (cString s), ⟨cs, line', column'⟩) := by
  obtain ⟨line', column', heq⟩ := hs.stringLoop (D := D) [] cs line (column + 1 + 1)
  refine ⟨line', column', ?_⟩
  unfold scanner
  rw [skipBlank_token (by decide)]
  simp only [if_neg (show ¬startsNumber quote by decide), if_neg (show ¬startsKey quote by decide),
    if_neg (show ¬quote = '[' by decide), if_neg (show ¬quote = ']' by decide), if_true]
  exact heq

/-- Every string over these characters has a text in ASCII that the scanner reads back, up to the
first zero byte. -/
theorem scanner_ascii (atof : List Char → D) {s : List Char}
    (hs : ∀ c ∈ s, c.toNat < 128 ∨ 160 ≤ c.toNat ∧ c.toNat < 256) :
    ∃ text, (∀ x ∈ text, x.toNat < 128) ∧ ∀ cs line column, ∃ line' column',
      scanner atof ⟨quote :: (text ++ quote :: cs), line, column⟩ =
        (.string (cString s), ⟨cs, line', column'⟩) := by
  obtain ⟨text, hascii, hspell⟩ := exists_spells hs
  exact ⟨text, hascii, fun cs line column => scanner_string atof hspell cs line column⟩

theorem scanner_ascii_example :
    ∃ text, (∀ x ∈ text, x.toNat < 128) ∧ ∀ cs line column, ∃ line' column',
      scanner strtol ⟨quote :: (text ++ quote :: cs), line, column⟩ =
        (.string ['Z', Char.ofNat 252, quote], ⟨cs, line', column'⟩) :=
  scanner_ascii strtol (s := ['Z', Char.ofNat 252, quote]) (by decide)

theorem Layout.tail (h : Layout atof ts (c :: cs)) (hc : isspace c = true) : Layout atof ts cs := by
  have hsplit : ∀ {b tail : List Char} {x : Char}, Blank b → ¬isspace x = true →
      c :: cs = b ++ x :: tail → ∃ b', Blank b' ∧ cs = b' ++ x :: tail := by
    intro b tail x hb hx heq
    cases b with
    | nil =>
      rw [List.nil_append, List.cons.injEq] at heq
      exact (hx (heq.1 ▸ hc)).elim
    | cons y b =>
      rw [List.cons_append, List.cons.injEq] at heq
      obtain ⟨rfl, rfl⟩ := heq
      exact ⟨b, hb.tail hc, rfl⟩
  have hspace : ∀ {x : Char}, startsToken x → ¬isspace x = true := by
    intro x hx
    simp only [startsToken, Bool.and_eq_true, Bool.not_eq_true'] at hx
    simp [hx.1]
  generalize heq : c :: cs = file at h
  cases h with
  | done hb =>
    cases hb with
    | blank hb =>
      subst heq
      exact .done (.blank (hb.tail hc))
    | comment hb hbody =>
      obtain ⟨b', hb', rfl⟩ := hsplit hb (by decide) heq
      exact .done (.comment hb' hbody)
  | lBracket hb h =>
    obtain ⟨b', hb', rfl⟩ := hsplit hb (by decide) heq
    exact .lBracket hb' h
  | rBracket hb h =>
    obtain ⟨b', hb', rfl⟩ := hsplit hb (by decide) heq
    exact .rBracket hb' h
  | string hb hs h =>
    obtain ⟨b', hb', rfl⟩ := hsplit hb (by decide) heq
    exact .string hb' hs h
  | key hb h1 h2 h3 h =>
    obtain ⟨b', hb', rfl⟩ := hsplit hb (hspace (startsToken_of_startsKey h1).1) heq
    exact .key hb' h1 h2 h3 h
  | number hb h1 h2 h3 h4 h =>
    obtain ⟨b', hb', rfl⟩ := hsplit hb (hspace (startsToken_of_startsNumber h1).1) heq
    exact .number hb' h1 h2 h3 h4 h

/-- The text of tokens is scanned to these tokens. -/
theorem Layout.scans (h : Layout atof ts cs) (line column : ℕ) :
    ∃ last, Scans atof ⟨cs, line, column⟩ (ts ++ [.fileEnd]) last := by
  induction ts generalizing cs line column with
  | nil =>
    cases h with
    | done hb =>
      have hnone := skipBlank_lastBlank hb line column
      refine ⟨(skipBlank false cs line column).2, .one ?_⟩
      unfold scanner
      rcases hskip : skipBlank false cs line column with ⟨_ | c, mid⟩
      · rfl
      · rw [hskip] at hnone
        cases hnone
  | cons t ts ih =>
    cases h with
    | @lBracket b cs _ hb h =>
      obtain ⟨line', column', heq⟩ := scanner_skip atof hb ('[' :: cs) line column
      obtain ⟨last, hlast⟩ := ih h line' (column' + 1)
      exact ⟨last, .cons (heq.trans rfl) hlast⟩
    | @rBracket b cs _ hb h =>
      obtain ⟨line', column', heq⟩ := scanner_skip atof hb (']' :: cs) line column
      obtain ⟨last, hlast⟩ := ih h line' (column' + 1)
      exact ⟨last, .cons (heq.trans rfl) hlast⟩
    | @string b text s cs _ hb hs h =>
      obtain ⟨line', column', heq⟩ :=
        scanner_skip atof hb (quote :: (text ++ quote :: cs)) line column
      obtain ⟨line'', column'', hstring⟩ := scanner_string atof hs cs line' column'
      obtain ⟨last, hlast⟩ := ih h line'' column''
      exact ⟨last, .cons (heq.trans hstring) hlast⟩
    | @key b word cs c _ hb hc hw hcs h =>
      obtain ⟨line', column', heq⟩ := scanner_skip atof hb (c :: (word ++ cs)) line column
      have hkey := scanner_key atof hc hw hcs line' column'
      have hrest : Layout atof ts
          (Source.behind ⟨word ++ cs, line', column' + 1⟩ '[' (c :: word).length cs).rest := by
        rcases behind_rest ⟨word ++ cs, line', column' + 1⟩ '[' (c :: word).length cs
          (fun x hx => by
            rw [Option.mem_def.mp hx] at hcs
            simpa [endsKey] using hcs) with hall | ⟨w, hspace, hw⟩
        · rw [hall]; exact h
        · exact (hw ▸ h).tail hspace
      obtain ⟨last, hlast⟩ := ih hrest _ _
      exact ⟨last, .cons (heq.trans hkey) hlast⟩
    | @number b word cs c _ hb hc hw hlen hcs h =>
      obtain ⟨line', column', heq⟩ := scanner_skip atof hb (c :: (word ++ cs)) line column
      have hnumber := scanner_number atof hc hw hlen hcs line' column'
      have hrest : Layout atof ts
          (Source.behind ⟨word ++ cs, line', column' + 1⟩ ']' (c :: word).length cs).rest := by
        rcases behind_rest ⟨word ++ cs, line', column' + 1⟩ ']' (c :: word).length cs
          (fun x hx => by
            have hstop := hcs x hx
            simp only [inNumber, Bool.and_eq_true, Bool.not_eq_true', decide_eq_true_eq,
              not_and_or, Bool.not_eq_false, not_not, ne_eq] at hstop
            exact hstop.symm) with hall | ⟨w, hspace, hw⟩
        · rw [hall]; exact h
        · exact (hw ▸ h).tail hspace
      obtain ⟨last, hlast⟩ := ih hrest _ _
      exact ⟨last, .cons (heq.trans hnumber) hlast⟩

theorem numberToken_proper (atof : List Char → D) (word : List Char) :
    (numberToken atof word).Proper := by
  unfold numberToken
  split_ifs <;> trivial

theorem stringLoop_result (ref : Option (List Char)) (read cs : List Char) (line column : ℕ) :
    (∃ s, (stringLoop (D := D) ref read cs line column).1 = .string s) ∨
      ∃ e, (stringLoop (D := D) ref read cs line column).1 = .error e := by
  fun_induction stringLoop (D := D) ref read cs line column with
  | case1 => exact .inr ⟨_, rfl⟩
  | case2 => exact .inl ⟨_, rfl⟩
  | case3 _ _ _ _ _ ih => exact ih
  | case4 _ _ _ _ _ _ _ _ _ ih => exact ih
  | case5 _ _ _ _ _ _ _ _ _ ih => exact ih
  | case6 => exact .inr ⟨_, rfl⟩
  | case7 => exact .inl ⟨_, rfl⟩
  | case8 _ _ _ _ _ _ ih => exact ih
  | case9 _ _ _ _ _ _ _ _ ih => exact ih

theorem lastBlank_of_scanner (h : scanner atof src = (.fileEnd, mid)) : LastBlank src.rest := by
  unfold scanner at h
  rcases hskip : skipBlank false src.rest src.line src.column with ⟨_ | c, src'⟩
  · exact lastBlank_of_skipBlank (congrArg Prod.fst hskip)
  · rw [hskip] at h
    dsimp only at h
    split_ifs at h
    · unfold scanNumber at h
      dsimp only at h
      split_ifs at h
      · cases h
      · have hproper := numberToken_proper atof (c :: src'.rest.takeWhile inNumber)
        rw [(Prod.mk.inj h).1] at hproper
        exact hproper.elim
    · unfold scanKey at h
      dsimp only at h
      split_ifs at h <;> cases h
    · cases h
    · cases h
    · rcases stringLoop_result (D := D) none [] src'.rest src'.line (src'.column + 1) with
        ⟨s, hs⟩ | ⟨e, hs⟩ <;> rw [h] at hs <;> cases hs
    · cases h

theorem layout_of_scanner (ht : t.Proper) (h : scanner atof src = (t, mid))
    (hrest : Layout atof ts mid.rest) : Layout atof (t :: ts) src.rest := by
  unfold scanner at h
  rcases hskip : skipBlank false src.rest src.line src.column with ⟨_ | c, src'⟩
  · rw [hskip] at h
    cases h
    exact ht.elim
  · obtain ⟨b, hb, hcs, -⟩ := blank_of_skipBlank hskip
    rw [hskip] at h
    rw [hcs]
    dsimp only at h
    split_ifs at h with hnumber hkey hopen hclose hquote
    · unfold scanNumber at h
      dsimp only at h
      split_ifs at h with hlong
      · cases h
        exact ht.elim
      · cases h
        have hstop : ∀ x ∈ (src'.rest.dropWhile inNumber).head?, ¬inNumber x := by
          intro x hx hin
          have hhead := List.head?_dropWhile_not inNumber src'.rest
          rw [Option.mem_def.mp hx] at hhead
          simp [hin] at hhead
        have hlayout : Layout atof ts (src'.rest.dropWhile inNumber) := by
          rcases behind_rest src' ']' (c :: src'.rest.takeWhile inNumber).length
            (src'.rest.dropWhile inNumber) (fun x hx => by
              have hx' := hstop x hx
              simp only [inNumber, Bool.and_eq_true, Bool.not_eq_true', decide_eq_true_eq,
                not_and_or, Bool.not_eq_false, not_not, ne_eq] at hx'
              exact hx'.symm) with hall | ⟨w, hspace, hw⟩
          · rw [← hall]; exact hrest
          · rw [hw]; exact hrest.space hspace
        have hnum := Layout.number hb hnumber (fun x hx => List.mem_takeWhile_imp hx)
          (not_le.mp hlong) hstop hlayout
        rwa [List.takeWhile_append_dropWhile] at hnum
    · unfold scanKey at h
      dsimp only at h
      split_ifs at h with hend
      · cases h
        have hlayout : Layout atof ts (src'.rest.dropWhile inKey) := by
          rcases behind_rest src' '[' (c :: src'.rest.takeWhile inKey).length
            (src'.rest.dropWhile inKey) (fun x hx => by
              rw [Option.mem_def.mp hx] at hend
              simpa [endsKey] using hend) with hall | ⟨w, hspace, hw⟩
          · rw [← hall]; exact hrest
          · rw [hw]; exact hrest.space hspace
        have hword : Layout atof (.key (c :: src'.rest.takeWhile inKey) :: ts)
            (b ++ c :: (src'.rest.takeWhile inKey ++ src'.rest.dropWhile inKey)) :=
          .key hb hkey (fun x hx => List.mem_takeWhile_imp hx) hend hlayout
        rwa [List.takeWhile_append_dropWhile] at hword
      · cases h
        exact ht.elim
    · cases h
      rw [hopen]
      exact .lBracket hb hrest
    · cases h
      rw [hclose]
      exact .rBracket hb hrest
    · rcases stringLoop_result (D := D) none [] src'.rest src'.line (src'.column + 1) with
        ⟨s, hs⟩ | ⟨e, hs⟩
      · rw [h] at hs
        dsimp only at hs
        rw [hs] at h ⊢
        obtain ⟨text, chars, hspell, htext, rfl⟩ := spellsRest_of_stringLoop h
        rw [hquote, htext]
        exact .string hb hspell hrest
      · rw [h] at hs
        dsimp only at hs
        rw [hs] at ht
        exact ht.elim
    · cases h
      exact ht.elim

/-- What is scanned without an error is the text of its tokens. -/
theorem layout_of_scans (ht : ∀ t ∈ ts, t.Proper) (h : Scans atof src (ts ++ [.fileEnd]) last) :
    Layout atof ts src.rest := by
  induction ts generalizing src with
  | nil =>
    cases h with
    | cons hscan _ => exact .done (lastBlank_of_scanner hscan)
  | cons t ts ih =>
    cases h with
    | cons hscan h =>
      exact layout_of_scanner (ht t List.mem_cons_self) hscan
        (ih (fun t' ht' => ht t' (List.mem_cons_of_mem _ ht')) h)

theorem Pairs.tokens_proper (l : Pairs D) : ∀ t ∈ l.tokens, t.Proper := by
  induction l with
  | null => simp [tokens]
  | garbage => simp [tokens]
  | int _ _ _ ih => simpa [tokens, Token.Proper] using ih
  | double _ _ _ ih => simpa [tokens, Token.Proper] using ih
  | string _ _ _ ih => simpa [tokens, Token.Proper] using ih
  | list _ l next ihl ihn =>
    simp only [tokens, List.mem_cons, List.mem_append]
    rintro t (rfl | rfl | ht | rfl | ht)
    · trivial
    · trivial
    · exact ihl t ht
    · trivial
    · exact ihn t ht

/-- The parser accepts a file exactly when the file is the text of a list of pairs, and then it
returns that list. -/
theorem gmlParser_accepts_iff (atof : List Char → D) (file : List Char) (l : Pairs D) :
    (∃ keys last, gmlParser atof (.init file) = some ⟨l, none, keys, last⟩) ↔
      l.Linked ∧ Layout atof l.tokens file := by
  constructor
  · rintro ⟨keys, last, h⟩
    obtain ⟨hl, hs, -⟩ := (Reads.of_parserLoop h).sound rfl
    have hlayout := layout_of_scans l.tokens_proper hs
    exact ⟨hl, hlayout⟩
  · rintro ⟨hl, hlayout⟩
    obtain ⟨last, hs⟩ := hlayout.scans 1 1
    obtain ⟨keys, hparse⟩ := gmlParser_of_scans hl hs
    exact ⟨keys, last, hparse⟩

end Modelnet.Tools.Gml

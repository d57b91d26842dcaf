import Mathlib.Data.List.Infix
import Mathlib.Data.List.Nodup

/-!
# XML documents

A processor for documents without a document type declaration. The text is read character by
character: `next` says what a character does in each state of a tag, a comment, a reference and so
on, and the tags come out as tokens. Tags are then matched against each other, which gives the
events that a SAX handler sees. Validity is not checked, and what namespaces demand of the names of
an element is a parameter.
-/

namespace Xml

/-! ## Characters -/

/-- `Char`. -/
def isChar (c : Char) : Bool :=
  c = '\t' || c = '\n' || c = '\r' || (' ' ≤ c && c.toNat ≠ 0xFFFE && c.toNat ≠ 0xFFFF)

/-- `S`. -/
def isSpace (c : Char) : Bool := c = ' ' || c = '\t' || c = '\n' || c = '\r'

/-- The code point lies between two others. -/
def inRange (c : Char) (lo hi : ℕ) : Bool := lo ≤ c.toNat && c.toNat ≤ hi

/-- `NameStartChar`. -/
def isNameStart (c : Char) : Bool :=
  c = ':' || c = '_' || c.isAlpha || inRange c 0xC0 0xD6 || inRange c 0xD8 0xF6 ||
    inRange c 0xF8 0x2FF || inRange c 0x370 0x37D || inRange c 0x37F 0x1FFF ||
    inRange c 0x200C 0x200D || inRange c 0x2070 0x218F || inRange c 0x2C00 0x2FEF ||
    inRange c 0x3001 0xD7FF || inRange c 0xF900 0xFDCF || inRange c 0xFDF0 0xFFFD ||
    inRange c 0x10000 0xEFFFF

/-- `NameChar`. -/
def isNameChar (c : Char) : Bool :=
  isNameStart c || c = '-' || c = '.' || c.isDigit || c.toNat = 0xB7 || inRange c 0x300 0x36F ||
    inRange c 0x203F 0x2040

/-- `Name`. -/
def isName : List Char → Bool
  | [] => false
  | c :: cs => isNameStart c && cs.all isNameChar

theorem isChar_of_toNat {c : Char} (h : 32 ≤ c.toNat) (h1 : c.toNat ≠ 0xFFFE)
    (h2 : c.toNat ≠ 0xFFFF) : isChar c := by
  have hle : ' ' ≤ c := h
  simp [isChar, hle, h1, h2]

theorem isAlpha_iff {c : Char} :
    c.isAlpha ↔ 65 ≤ c.toNat ∧ c.toNat ≤ 90 ∨ 97 ≤ c.toNat ∧ c.toNat ≤ 122 := by
  delta Char.isAlpha Char.isUpper Char.isLower
  simp [UInt32.le_iff_toNat_le]

theorem isChar_of_isNameChar {c : Char} (h : isNameChar c) : isChar c := by
  have hval : c.val.toNat = c.toNat := rfl
  have hbounds : 32 ≤ c.toNat ∧ c.toNat ≠ 0xFFFE ∧ c.toNat ≠ 0xFFFF := by
    simp only [isNameChar, isNameStart, inRange, isAlpha_iff, Char.isDigit, ge_iff_le,
      UInt32.le_iff_toNat_le, Bool.or_eq_true, Bool.and_eq_true, decide_eq_true_eq, hval,
      ← Char.toNat_inj, Char.reduceVal, UInt32.reduceToNat, Char.reduceToNat] at h
    omega
  exact isChar_of_toNat hbounds.1 hbounds.2.1 hbounds.2.2

theorem isNameChar_of_isNameStart {c : Char} (h : isNameStart c) : isNameChar c := by
  simp [isNameChar, h]

theorem isChar_of_isSpace {c : Char} (h : isSpace c) : isChar c := by
  simp only [isSpace, Bool.or_eq_true, decide_eq_true_eq] at h
  rcases h with ((rfl | rfl) | rfl) | rfl <;> decide

/-! ## References -/

def digitValue (c : Char) : ℕ :=
  if c.isDigit then c.toNat - 48
  else if 'a' ≤ c ∧ c ≤ 'f' then c.toNat - 87
  else if 'A' ≤ c ∧ c ≤ 'F' then c.toNat - 55
  else 16

/-- `CharRef`: the character with the given number. -/
def charRef (base : ℕ) (digits : List Char) : Option Char :=
  if digits ≠ [] ∧ digits.all (digitValue · < base) then
    let n := digits.foldl (fun n c => base * n + digitValue c) 0
    if n.isValidChar ∧ isChar (Char.ofNat n) then some (Char.ofNat n) else none
  else none

/-- What stands between `&` and `;`. -/
def reference : List Char → Option Char
  | ['l', 't'] => some '<'
  | ['g', 't'] => some '>'
  | ['a', 'm', 'p'] => some '&'
  | ['q', 'u', 'o', 't'] => some (Char.ofNat 34)
  | ['a', 'p', 'o', 's'] => some (Char.ofNat 39)
  | '#' :: 'x' :: digits => charRef 16 digits
  | '#' :: digits => charRef 10 digits
  | _ => none

/-! ## Tags -/

structure Attr where
  name : List Char
  value : List Char
  deriving DecidableEq, Repr

/-- The name and the attributes of an element. -/
structure Tag where
  name : List Char
  attrs : List Attr
  deriving DecidableEq, Repr

def Tag.push (t : Tag) (a : Attr) : Tag := { t with attrs := t.attrs ++ [a] }

/-- What the text is cut into. Of what only the content of an element can hold, `text` is left. -/
inductive Token
  | start (tag : Tag)
  | empty (tag : Tag)
  | close (name : List Char)
  | text
  deriving DecidableEq, Repr

/-- Where in the markup the reader is, with what it has read there. -/
inductive State
  | content (brackets : ℕ)
  | contentRef (body : List Char)
  | markup
  | bang (read : List Char)
  | comment (dashes : ℕ)
  | cdata (brackets : ℕ)
  | pi (target : List Char)
  | piData (question : Bool)
  | piEnd
  | endTag (name : List Char)
  | endTagSpace (name : List Char)
  | startTag (name : List Char)
  | inTag (tag : Tag) (spaced : Bool)
  | emptyTag (tag : Tag)
  | attName (tag : Tag) (name : List Char)
  | attEq (tag : Tag) (name : List Char)
  | attQuote (tag : Tag) (name : List Char)
  | attValue (tag : Tag) (name : List Char) (quote : Char) (value : List Char) (cr : Bool)
  | attRef (tag : Tag) (name : List Char) (quote : Char) (value body : List Char)
  deriving DecidableEq, Repr

/-- A character that ends a start tag or begins `/>`. -/
def tagEnd (tag : Tag) (c : Char) : Option (State × List Token) :=
  if c = '/' then some (.emptyTag tag, [])
  else if c = '>' then some (.content 0, [.start tag])
  else none

/-- What a character does; `none` where the document is not well-formed. -/
def next : State → Char → Option (State × List Token)
  | .content n, c =>
    if c = '<' then some (.markup, [])
    else if c = '&' then some (.contentRef [], [])
    else if isSpace c then some (.content 0, [])
    else if c = ']' then some (.content (min 2 (n + 1)), [.text])
    else if c = '>' ∧ n = 2 then none
    else some (.content 0, [.text])
  | .contentRef body, c =>
    if c = ';' then (reference body).map fun _ => (.content 0, [.text])
    else if isNameChar c ∨ c = '#' then some (.contentRef (body ++ [c]), [])
    else none
  | .markup, c =>
    if c = '/' then some (.endTag [], [])
    else if c = '!' then some (.bang [], [])
    else if c = '?' then some (.pi [], [])
    else if isNameStart c then some (.startTag [c], [])
    else none
  | .bang read, c =>
    if read ++ [c] = "--".toList then some (.comment 0, [])
    else if read ++ [c] = "[CDATA[".toList then some (.cdata 0, [.text])
    else if read ++ [c] <+: "--".toList ∨ read ++ [c] <+: "[CDATA[".toList then
      some (.bang (read ++ [c]), [])
    else none
  | .comment n, c =>
    if n = 2 then if c = '>' then some (.content 0, []) else none
    else some (.comment (if c = '-' then n + 1 else 0), [])
  | .cdata n, c =>
    if c = '>' ∧ n = 2 then some (.content 0, [])
    else some (.cdata (if c = ']' then min 2 (n + 1) else 0), [])
  | .pi target, c =>
    if target = [] then if isNameStart c then some (.pi [c], []) else none
    else if isNameChar c then some (.pi (target ++ [c]), [])
    else if target.map Char.toLower = "xml".toList then none
    else if isSpace c then some (.piData false, [])
    else if c = '?' then some (.piEnd, [])
    else none
  | .piData question, c =>
    if c = '>' ∧ question then some (.content 0, []) else some (.piData (c = '?'), [])
  | .piEnd, c => if c = '>' then some (.content 0, []) else none
  | .endTag name, c =>
    if name = [] then if isNameStart c then some (.endTag [c], []) else none
    else if isNameChar c then some (.endTag (name ++ [c]), [])
    else if isSpace c then some (.endTagSpace name, [])
    else if c = '>' then some (.content 0, [.close name])
    else none
  | .endTagSpace name, c =>
    if isSpace c then some (.endTagSpace name, [])
    else if c = '>' then some (.content 0, [.close name])
    else none
  | .startTag name, c =>
    if isNameChar c then some (.startTag (name ++ [c]), [])
    else if isSpace c then some (.inTag ⟨name, []⟩ true, [])
    else tagEnd ⟨name, []⟩ c
  | .inTag tag spaced, c =>
    if isSpace c then some (.inTag tag true, [])
    else if spaced ∧ isNameStart c then some (.attName tag [c], [])
    else tagEnd tag c
  | .emptyTag tag, c => if c = '>' then some (.content 0, [.empty tag]) else none
  | .attName tag name, c =>
    if isNameChar c then some (.attName tag (name ++ [c]), [])
    else if isSpace c then some (.attEq tag name, [])
    else if c = '=' then some (.attQuote tag name, [])
    else none
  | .attEq tag name, c =>
    if isSpace c then some (.attEq tag name, [])
    else if c = '=' then some (.attQuote tag name, [])
    else none
  | .attQuote tag name, c =>
    if isSpace c then some (.attQuote tag name, [])
    else if c = Char.ofNat 34 ∨ c = Char.ofNat 39 then some (.attValue tag name c [] false, [])
    else none
  -- a line break of two characters is one space in a value
  | .attValue tag name quote value cr, c =>
    if c = quote then some (.inTag (tag.push ⟨name, value⟩) false, [])
    else if c = '<' then none
    else if c = '&' then some (.attRef tag name quote value [], [])
    else if cr ∧ c = '\n' then some (.attValue tag name quote value false, [])
    else if isSpace c then some (.attValue tag name quote (value ++ [' ']) (c = '\r'), [])
    else some (.attValue tag name quote (value ++ [c]) false, [])
  | .attRef tag name quote value body, c =>
    if c = ';' then (reference body).map fun r => (.attValue tag name quote (value ++ [r]) false, [])
    else if isNameChar c ∨ c = '#' then some (.attRef tag name quote value (body ++ [c]), [])
    else none

/-- The reader, with the tokens that it has found. -/
structure Lexer where
  state : State
  tokens : List Token
  deriving DecidableEq

def step (l : Lexer) (c : Char) : Option Lexer :=
  if isChar c then (next l.state c).map fun r => ⟨r.1, l.tokens ++ r.2⟩ else none

def lex (l : Lexer) (text : List Char) : Option Lexer := text.foldlM step l

/-! ## Elements -/

/-- What a handler sees. -/
inductive Event
  | start (tag : Tag)
  | stop (name : List Char)
  deriving DecidableEq, Repr

/-- What namespaces demand of an element inside others. They demand nothing of names without a
prefix. -/
structure NamespaceRules where
  ok : List Tag → Tag → Bool
  plain : ∀ (outer : List Tag) (tag : Tag), ':' ∉ tag.name →
    (∀ a ∈ tag.attrs, ':' ∉ a.name ∧ a.name ≠ "xmlns".toList) → ok outer tag

/-- The elements that are open, the innermost first, whether the outermost one has ended, and the
events so far. -/
structure Nest where
  stack : List Tag
  closed : Bool
  events : List Event
  deriving DecidableEq

/-- No attribute is given twice, and the namespaces are content. -/
def admits (ns : NamespaceRules) (outer : List Tag) (tag : Tag) : Bool :=
  (tag.attrs.map Attr.name).Nodup && ns.ok outer tag

/-- A token at its place. -/
def nestStep (ns : NamespaceRules) (n : Nest) : Token → Option Nest
  | .start tag =>
    if n.closed ∨ !admits ns n.stack tag then none
    else some { n with stack := tag :: n.stack, events := n.events ++ [.start tag] }
  | .empty tag =>
    if n.closed ∨ !admits ns n.stack tag then none
    else some { n with
      closed := n.stack.isEmpty
      events := n.events ++ [.start tag, .stop tag.name] }
  | .close name =>
    match n.stack with
    | [] => none
    | tag :: outer =>
      if tag.name = name then
        some { stack := outer, closed := outer.isEmpty, events := n.events ++ [.stop name] }
      else none
  | .text => if n.stack = [] then none else some n

/-- The declaration of a document in ISO-8859-1. -/
def xmlDecl : List Char := "<?xml version=\"1.0\" encoding=\"ISO-8859-1\"?>".toList

/-- The events of a text that is well-formed. -/
def contentEvents (ns : NamespaceRules) (text : List Char) : Option (List Event) := do
  let l ← lex ⟨.content 0, []⟩ text
  let n ← l.tokens.foldlM (nestStep ns) ⟨[], false, []⟩
  match l.state with
  | .content _ => if n.closed then some n.events else none
  | _ => none

/-- The events of a document that is well-formed. -/
def events (ns : NamespaceRules) (text : List Char) : Option (List Event) :=
  if xmlDecl <+: text then contentEvents ns (text.drop xmlDecl.length) else none

/-! ## Reading a text in parts -/

@[simp] theorem lex_nil (l : Lexer) : lex l [] = some l := rfl

theorem lex_cons (l : Lexer) (c : Char) (text : List Char) :
    lex l (c :: text) = (step l c).bind fun l' => lex l' text := by
  simp [lex, List.foldlM_cons]

theorem lex_append (l : Lexer) (a b : List Char) :
    lex l (a ++ b) = (lex l a).bind fun l' => lex l' b := by
  simp [lex, List.foldlM_append]

theorem lex_cons_of_eq {l l' : Lexer} {c : Char} (h : step l c = some l') (text : List Char) :
    lex l (c :: text) = lex l' text := by rw [lex_cons, h, Option.bind_some]

theorem lex_append_of_eq {l l' : Lexer} {a : List Char} (h : lex l a = some l') (b : List Char) :
    lex l (a ++ b) = lex l' b := by rw [lex_append, h, Option.bind_some]

theorem lex_tokens (s : State) (ts : List Token) (text : List Char) :
    lex ⟨s, ts⟩ text = (lex ⟨s, []⟩ text).map fun l => ⟨l.state, ts ++ l.tokens⟩ := by
  induction text generalizing s ts with
  | nil => simp
  | cons c text ih =>
    rw [lex_cons, lex_cons]
    unfold step
    split_ifs
    · cases next s c with
      | none => rfl
      | some r =>
        simp only [Option.map_some, Option.bind_some, List.nil_append]
        rw [ih r.1 (ts ++ r.2), ih r.1 r.2, Option.map_map]
        simp [Function.comp_def]
    · rfl

theorem lex_one {s s' : State} {ts' : List Token} {c : Char} (ts : List Token) (hchar : isChar c)
    (hnext : next s c = some (s', ts')) : lex ⟨s, ts⟩ [c] = some ⟨s', ts ++ ts'⟩ := by
  rw [lex_cons, step, if_pos hchar, hnext]
  rfl

/-- A run of characters that all do the same to the part of the state that grows. -/
theorem lex_run {s : List Char → State} {p : Char → Prop} (hp : ∀ c, p c → isChar c)
    (hnext : ∀ (read : List Char) (c : Char), p c → next (s read) c = some (s (read ++ [c]), []))
    (ts : List Token) (read text : List Char) (h : ∀ c ∈ text, p c) :
    lex ⟨s read, ts⟩ text = some ⟨s (read ++ text), ts⟩ := by
  induction text generalizing read with
  | nil => simp
  | cons c text ih =>
    have hc := h c List.mem_cons_self
    have hone := lex_one ts (hp c hc) (hnext read c hc)
    rw [List.append_nil] at hone
    rw [← List.singleton_append, lex_append_of_eq hone,
      ih _ fun d hd => h d (List.mem_cons_of_mem _ hd), List.append_assoc]

/-! ## Names -/

theorem isName_cons {c : Char} {cs : List Char} :
    isName (c :: cs) ↔ isNameStart c ∧ ∀ d ∈ cs, isNameChar d := by
  simp [isName]

theorem ne_nil_of_isName {name : List Char} (h : isName name) : name ≠ [] := by
  rintro rfl
  exact absurd h (by decide)

theorem isNameChar_of_mem {name : List Char} (h : isName name) {c : Char} (hc : c ∈ name) :
    isNameChar c := by
  cases name with
  | nil => exact absurd hc List.not_mem_nil
  | cons d cs =>
    have hname := isName_cons.mp h
    rcases List.mem_cons.mp hc with rfl | hc
    · exact isNameChar_of_isNameStart hname.1
    · exact hname.2 c hc

theorem isName_append {name cs : List Char} (h : isName name) (hcs : ∀ c ∈ cs, isNameChar c) :
    isName (name ++ cs) := by
  cases name with
  | nil => exact absurd h (by decide)
  | cons d ds =>
    have hname := isName_cons.mp h
    refine isName_cons.mpr ⟨hname.1, fun c hc => ?_⟩
    rcases List.mem_append.mp hc with hc | hc
    · exact hname.2 c hc
    · exact hcs c hc

theorem not_mem_of_isName {name : List Char} (h : isName name) {c : Char}
    (hc : isNameChar c = false) : c ∉ name := fun hmem => by
  rw [isNameChar_of_mem h hmem] at hc
  exact absurd hc (by decide)

theorem ne_of_isNameChar {c d : Char} (hc : isNameChar c) (hd : isNameChar d = false) : c ≠ d := by
  rintro rfl
  rw [hc] at hd
  exact absurd hd (by decide)

/-! ## Tags -/

/-- The characters that a value keeps as they are, whichever quotes it stands in. -/
def isPlain (c : Char) : Bool :=
  isChar c && c ≠ '<' && c ≠ '&' && c ≠ '\t' && c ≠ '\n' && c ≠ '\r'

theorem isPlain_iff {c : Char} :
    isPlain c ↔ isChar c ∧ c ≠ '<' ∧ c ≠ '&' ∧ c ≠ '\t' ∧ c ≠ '\n' ∧ c ≠ '\r' := by
  simp [isPlain, and_assoc]

theorem eq_of_isSpace_of_isPlain {c : Char} (hs : isSpace c) (hc : isPlain c) : c = ' ' := by
  obtain ⟨-, -, -, htab, hlf, hcr⟩ := isPlain_iff.mp hc
  simpa [isSpace, htab, hlf, hcr] using hs

theorem lex_startTag {name : List Char} (h : isName name) (n : ℕ) (ts : List Token) :
    lex ⟨.content n, ts⟩ ('<' :: name ++ [' ']) = some ⟨.inTag ⟨name, []⟩ true, ts⟩ := by
  cases name with
  | nil => exact absurd h (by decide)
  | cons c cs =>
    obtain ⟨hc, hcs⟩ := isName_cons.mp h
    have hc' := isNameChar_of_isNameStart hc
    have hopen : step ⟨.content n, ts⟩ '<' = some ⟨.markup, ts⟩ := by simp [step, next, isChar]
    have hfirst : step ⟨.markup, ts⟩ c = some ⟨.startTag [c], ts⟩ := by
      simp [step, next, isChar_of_isNameChar hc', hc, ne_of_isNameChar hc' (d := '/') (by decide),
        ne_of_isNameChar hc' (d := '!') (by decide), ne_of_isNameChar hc' (d := '?') (by decide)]
    have hrest : lex ⟨.startTag [c], ts⟩ cs = some ⟨.startTag (c :: cs), ts⟩ :=
      lex_run (p := fun d => isNameChar d) (fun _ => isChar_of_isNameChar)
        (fun read d hd => by simp [next, hd]) ts [c] cs hcs
    have hspace : step ⟨.startTag (c :: cs), ts⟩ ' ' = some ⟨.inTag ⟨c :: cs, []⟩ true, ts⟩ := by
      simp [step, next, isChar, isSpace, show isNameChar ' ' = false by decide]
    rw [List.cons_append, List.cons_append, lex_cons_of_eq hopen, lex_cons_of_eq hfirst,
      lex_append_of_eq hrest, lex_cons_of_eq hspace, lex_nil]

/-- `name="value"`, with white space before the value. The value is read up to the quote. -/
theorem lex_attr {a : Attr} {space : List Char} (hname : isName a.name)
    (hspace : ∀ c ∈ space, isSpace c) (hvalue : ∀ c ∈ a.value, isPlain c ∧ c ≠ Char.ofNat 34)
    (tag : Tag) (ts : List Token) :
    lex ⟨.inTag tag true, ts⟩
        (a.name ++ '=' :: space ++ Char.ofNat 34 :: a.value ++ [Char.ofNat 34]) =
      some ⟨.inTag (tag.push a) false, ts⟩ := by
  obtain ⟨name, value⟩ := a
  cases name with
  | nil => exact absurd rfl (ne_nil_of_isName hname)
  | cons c cs =>
    obtain ⟨hc, hcs⟩ := isName_cons.mp hname
    have hc' := isNameChar_of_isNameStart hc
    have hfirst : step ⟨.inTag tag true, ts⟩ c = some ⟨.attName tag [c], ts⟩ := by
      have hns : isSpace c = false := by
        simp [isSpace, ne_of_isNameChar hc' (d := ' ') (by decide),
          ne_of_isNameChar hc' (d := '\t') (by decide), ne_of_isNameChar hc' (d := '\n') (by decide),
          ne_of_isNameChar hc' (d := '\r') (by decide)]
      simp [step, next, isChar_of_isNameChar hc', hc, hns]
    have hrest : lex ⟨.attName tag [c], ts⟩ cs = some ⟨.attName tag (c :: cs), ts⟩ :=
      lex_run (p := fun d => isNameChar d) (fun _ => isChar_of_isNameChar)
        (fun read d hd => by simp [next, hd]) ts [c] cs hcs
    have heq : step ⟨.attName tag (c :: cs), ts⟩ '=' = some ⟨.attQuote tag (c :: cs), ts⟩ := by
      simp [step, next, isChar, isSpace, show isNameChar '=' = false by decide]
    have hspaces : lex ⟨.attQuote tag (c :: cs), ts⟩ space =
        some ⟨.attQuote tag (c :: cs), ts⟩ :=
      lex_run (s := fun _ => .attQuote tag (c :: cs)) (p := fun d => isSpace d)
        (fun _ => isChar_of_isSpace) (fun read d hd => by simp [next, hd]) ts [] space hspace
    have hopen : step ⟨.attQuote tag (c :: cs), ts⟩ (Char.ofNat 34) =
        some ⟨.attValue tag (c :: cs) (Char.ofNat 34) [] false, ts⟩ := by
      simp [step, next, isChar, isSpace]
    have hchars : lex ⟨.attValue tag (c :: cs) (Char.ofNat 34) [] false, ts⟩ value =
        some ⟨.attValue tag (c :: cs) (Char.ofNat 34) value false, ts⟩ := by
      refine lex_run (s := fun read => .attValue tag (c :: cs) (Char.ofNat 34) read false)
        (p := fun d => isPlain d ∧ d ≠ Char.ofNat 34) (fun d hd => (isPlain_iff.mp hd.1).1)
        (fun read d hd => ?_) ts [] value hvalue
      obtain ⟨-, hlt, hamp, -⟩ := isPlain_iff.mp hd.1
      by_cases hs : isSpace d
      · simp [next, eq_of_isSpace_of_isPlain hs hd.1]
      · simp [next, hd.2, hlt, hamp, hs]
    have hclose : step ⟨.attValue tag (c :: cs) (Char.ofNat 34) value false, ts⟩ (Char.ofNat 34) =
        some ⟨.inTag (tag.push ⟨c :: cs, value⟩) false, ts⟩ := by
      simp [step, next, isChar]
    simp only [List.append_assoc, List.cons_append]
    rw [lex_cons_of_eq hfirst, lex_append_of_eq hrest, lex_cons_of_eq heq,
      lex_append_of_eq hspaces, lex_cons_of_eq hopen, lex_append_of_eq hchars,
      lex_cons_of_eq hclose, lex_nil]

theorem lex_inTag_space (tag : Tag) (spaced : Bool) (ts : List Token) :
    lex ⟨.inTag tag spaced, ts⟩ [' '] = some ⟨.inTag tag true, ts⟩ := by
  simp [lex_cons, step, next, isChar, isSpace]

/-- An attribute as it is written, with white space before its value and after it. -/
structure Item where
  space : List Char
  attr : Attr

/-- `name="value" `. -/
def Item.text (i : Item) : List Char :=
  i.attr.name ++ '=' :: i.space ++ Char.ofNat 34 :: i.attr.value ++ [Char.ofNat 34, ' ']

/-- The name is a name, and the value has nothing in it that is not read as it is, the quotes
apart. -/
structure Item.Ok (i : Item) : Prop where
  name : isName i.attr.name
  space : ∀ c ∈ i.space, isSpace c
  value : ∀ c ∈ i.attr.value, isPlain c

theorem lex_item {i : Item} (hi : i.Ok) (hquot : Char.ofNat 34 ∉ i.attr.value) (tag : Tag)
    (ts : List Token) :
    lex ⟨.inTag tag true, ts⟩ i.text = some ⟨.inTag (tag.push i.attr) true, ts⟩ := by
  have hattr := lex_attr hi.name hi.space
    (fun c hc => ⟨hi.value c hc, fun h => hquot (h ▸ hc)⟩) tag ts
  have htext : i.text = i.attr.name ++ '=' :: i.space ++ Char.ofNat 34 :: i.attr.value ++
      [Char.ofNat 34] ++ [' '] := by simp [Item.text]
  rw [htext, lex_append_of_eq hattr, lex_inTag_space]

theorem lex_items {items : List Item} (hitems : ∀ i ∈ items, i.Ok)
    (hquot : ∀ i ∈ items, Char.ofNat 34 ∉ i.attr.value) (tag : Tag) (ts : List Token) :
    lex ⟨.inTag tag true, ts⟩ (items.flatMap Item.text) =
      some ⟨.inTag ⟨tag.name, tag.attrs ++ items.map Item.attr⟩ true, ts⟩ := by
  induction items generalizing tag with
  | nil => simp
  | cons i items ih =>
    have hi := lex_item (hitems i List.mem_cons_self) (hquot i List.mem_cons_self) tag ts
    rw [List.flatMap_cons, lex_append_of_eq hi,
      ih (fun j hj => hitems j (List.mem_cons_of_mem _ hj))
        (fun j hj => hquot j (List.mem_cons_of_mem _ hj))]
    simp [Tag.push]

/-! ## Matching tags -/

def Token.events : Token → List Event
  | .start tag => [.start tag]
  | .empty tag => [.start tag, .stop tag.name]
  | .close name => [.stop name]
  | .text => []

/-- The tag of a token that begins an element. -/
def Token.tag? : Token → Option Tag
  | .start tag => some tag
  | .empty tag => some tag
  | _ => none

variable {ns : NamespaceRules}

theorem nest_empties (tags : List Tag) (n : Nest) (hopen : n.closed = false) (hstack : n.stack ≠ []) :
    (tags.map Token.empty).foldlM (nestStep ns) n =
      if ∀ t ∈ tags, admits ns n.stack t then
        some { n with events := n.events ++ tags.flatMap fun t => (Token.empty t).events }
      else none := by
  induction tags generalizing n with
  | nil => simp
  | cons t tags ih =>
    have hempty : n.stack.isEmpty = false := by simpa using hstack
    rw [List.map_cons, List.foldlM_cons]
    by_cases ht : admits ns n.stack t
    · have hstep : nestStep ns n (.empty t) =
          some { n with events := n.events ++ (Token.empty t).events } := by
        simp [nestStep, hopen, ht, hempty, Token.events]
      rw [hstep]
      show List.foldlM (nestStep ns) _ _ = _
      rw [ih { n with events := n.events ++ (Token.empty t).events } hopen hstack]
      simp [ht]
    · have hstep : nestStep ns n (.empty t) = none := by simp [nestStep, ht]
      rw [hstep, if_neg fun hall => ht (hall t List.mem_cons_self)]
      rfl

/-- What a run over tokens keeps: the open elements count, an end of the document has none open,
and the events are those of the tokens, all of whose tags give no attribute twice. -/
structure Nested (tokens : List Token) (n : Nest) : Prop where
  balance : tokens.countP (fun t => t matches .start _) =
    n.stack.length + tokens.countP (fun t => t matches .close _)
  closed : n.closed → n.stack = []
  events : n.events = tokens.flatMap Token.events
  nodup : ∀ t ∈ tokens, ∀ tag, t.tag? = some tag → (tag.attrs.map Attr.name).Nodup

theorem Nested.step {tokens : List Token} {n n' : Nest} {t : Token} (h : Nested tokens n)
    (hstep : nestStep ns n t = some n') : Nested (tokens ++ [t]) n' := by
  have hbalance := h.balance
  have hevents := h.events
  have hnodup (htag : ∀ tag, t.tag? = some tag → (tag.attrs.map Attr.name).Nodup) :
      ∀ t' ∈ tokens ++ [t], ∀ tag, t'.tag? = some tag → (tag.attrs.map Attr.name).Nodup := by
    intro t' ht'
    rcases List.mem_append.mp ht' with ht' | ht'
    · exact h.nodup t' ht'
    · rw [List.mem_singleton.mp ht']
      exact htag
  cases t with
  | start tag =>
    simp only [nestStep] at hstep
    split_ifs at hstep with hbad
    obtain rfl := Option.some.inj hstep
    have hadmits : admits ns n.stack tag := by simpa using (not_or.mp hbad).2
    refine ⟨?_, fun hc => absurd hc (not_or.mp hbad).1, ?_, hnodup fun tag' htag => ?_⟩
    · simp [List.countP_append, hbalance]
      omega
    · simp [hevents, Token.events]
    · obtain rfl := Option.some.inj htag
      simpa using (Bool.and_eq_true_iff.mp hadmits).1
  | empty tag =>
    simp only [nestStep] at hstep
    split_ifs at hstep with hbad
    obtain rfl := Option.some.inj hstep
    have hadmits : admits ns n.stack tag := by simpa using (not_or.mp hbad).2
    refine ⟨?_, fun hc => by simpa using hc, ?_, hnodup fun tag' htag => ?_⟩
    · simp [List.countP_append, hbalance]
    · simp [hevents, Token.events]
    · obtain rfl := Option.some.inj htag
      simpa using (Bool.and_eq_true_iff.mp hadmits).1
  | close name =>
    simp only [nestStep] at hstep
    split at hstep
    · exact absurd hstep (by simp)
    · next tag outer hstack =>
      split_ifs at hstep with hname
      obtain rfl := Option.some.inj hstep
      rw [hstack] at hbalance
      refine ⟨?_, fun hc => by simpa using hc, ?_, hnodup fun tag' htag => absurd htag (by simp [Token.tag?])⟩
      · simp [List.countP_append, hbalance]
        omega
      · simp [hevents, Token.events]
  | text =>
    simp only [nestStep] at hstep
    split_ifs at hstep with hstack
    obtain rfl := Option.some.inj hstep
    refine ⟨?_, h.closed, ?_, hnodup fun tag' htag => absurd htag (by simp [Token.tag?])⟩
    · simp [List.countP_append, hbalance]
    · simp [hevents, Token.events]

theorem Nested.run {tokens more : List Token} {n n' : Nest} (h : Nested tokens n)
    (hrun : more.foldlM (nestStep ns) n = some n') : Nested (tokens ++ more) n' := by
  induction more generalizing tokens n with
  | nil => simpa using (Option.some.inj hrun) ▸ h
  | cons t more ih =>
    rw [List.foldlM_cons] at hrun
    obtain ⟨n₁, hstep, hrest⟩ := Option.bind_eq_some_iff.mp hrun
    simpa using ih (h.step hstep) hrest

theorem nested_nil : Nested [] ⟨[], false, []⟩ :=
  ⟨rfl, fun h => absurd h (by decide), rfl, fun _ ht => absurd ht List.not_mem_nil⟩

/-- **A well-formed document**: its tokens begin as many elements as they end, and no attribute is
given twice. -/
theorem exists_tokens_of_events {text : List Char} {evs : List Event}
    (h : events ns text = some evs) : ∃ (rest : List Char) (m : ℕ) (tokens : List Token),
      text = xmlDecl ++ rest ∧ lex ⟨.content 0, []⟩ rest = some ⟨.content m, tokens⟩ ∧
      evs = tokens.flatMap Token.events ∧
      tokens.countP (fun t => t matches .start _) = tokens.countP (fun t => t matches .close _) ∧
      ∀ t ∈ tokens, ∀ tag, t.tag? = some tag → (tag.attrs.map Attr.name).Nodup := by
  unfold events at h
  split_ifs at h with hdecl
  obtain ⟨rest, rfl⟩ := hdecl
  rw [List.drop_left] at h
  obtain ⟨⟨s, tokens⟩, hlex, h⟩ := Option.bind_eq_some_iff.mp h
  obtain ⟨n, hnest, h⟩ := Option.bind_eq_some_iff.mp h
  dsimp only at h hnest
  obtain ⟨m, rfl⟩ : ∃ m, s = .content m := by
    cases s with
    | content m => exact ⟨m, rfl⟩
    | _ => exact absurd h (by simp)
  dsimp only at h
  split_ifs at h with hclosed
  have hn := nested_nil.run hnest
  refine ⟨rest, m, tokens, rfl, hlex, ?_, ?_, hn.nodup⟩
  · rw [← Option.some.inj h, hn.events]
    rfl
  · have hbalance := hn.balance
    rw [hn.closed hclosed] at hbalance
    simpa using hbalance

end Xml

import Modelnet.Tools.Mngraph

/-!
# Tokens of a GML file

`gml_scanner.cpp` cuts a file into keys, numbers, strings and brackets. A number ends at white space
or a closing bracket, a key at white space or an opening one, and the white space is read with them.
Inside a string `&name;` stands for a character of ISO-8859-1. Line and column are counted for the
messages only. The buffers, which grow as needed, are left out.
-/

namespace Modelnet.Tools.Gml

/-- `GML_error_value` without `GML_OK`. -/
inductive ErrorValue
  | unexpected
  | wrongSyntax
  | prematureEof
  | tooManyDigits
  | openBracket
  | tooManyBrackets
  deriving DecidableEq, Repr

structure GmlError where
  errNum : ErrorValue
  line : ℕ
  column : ℕ
  deriving DecidableEq, Repr

inductive Token (D : Type)
  | key (string : List Char)
  | int (integer : ℤ)
  | double (floating : D)
  | string (string : List Char)
  | lBracket
  | rBracket
  | fileEnd
  | error (err : GmlError)
  deriving DecidableEq, Repr

/-- What is left of the file, `GML_line` and `GML_column`. -/
structure Source where
  rest : List Char
  line : ℕ
  column : ℕ
  deriving DecidableEq, Repr

/-- `GML_init` in front of a file. -/
def Source.init (file : List Char) : Source := ⟨file, 1, 1⟩

variable {D : Type}

/-! ## Characters of a string -/

/-- The quote around a string. -/
def quote : Char := Char.ofNat 34

/-- A C string in a buffer ends at the first zero byte. -/
def cString (buffer : List Char) : List Char := buffer.takeWhile (· ≠ Char.ofNat 0)

/-- `GML_table`, the names of the characters from 160 on. -/
def gmlTable : List (List Char) :=
  ["&nbsp;", "&iexcl;", "&cent;", "&pound;", "&curren;", "&yen;", "&brvbar;", "&sect;", "&uml;",
    "&copy;", "&ordf;", "&laquo;", "&not;", "&shy;", "&reg;", "&macr;", "&deg;", "&plusmn;",
    "&sup2;", "&sup3;", "&acute;", "&micro;", "&para;", "&middot;", "&cedil;", "&sup1;", "&ordm;",
    "&raquo;", "&frac14;", "&frac12;", "&frac34;", "&iquest;", "&Agrave;", "&Aacute;", "&Acirc;",
    "&Atilde;", "&Auml;", "&Aring;", "&AElig;", "&Ccedil;", "&Egrave;", "&Eacute;", "&Ecirc;",
    "&Euml;", "&Igrave;", "&Iacute;", "&Icirc;", "&Iuml;", "&ETH;", "&Ntilde;", "&Ograve;",
    "&Oacute;", "&Ocirc;", "&Otilde;", "&Ouml;", "&times;", "&Oslash;", "&Ugrave;", "&Uacute;",
    "&Ucirc;", "&Uuml;", "&Yacute;", "&THORN;", "&szlig;", "&agrave;", "&aacute;", "&acirc;",
    "&atilde;", "&auml;", "&aring;", "&aelig;", "&ccedil;", "&egrave;", "&eacute;", "&ecirc;",
    "&euml;", "&igrave;", "&iacute;", "&icirc;", "&iuml;", "&eth;", "&ntilde;", "&ograve;",
    "&oacute;", "&ocirc;", "&otilde;", "&ouml;", "&divide;", "&oslash;", "&ugrave;", "&uacute;",
    "&ucirc;", "&uuml;", "&yacute;", "&thorn;", "&yuml;"].map String.toList

/-- `GML_search_ISO`: `str` is compared with the beginning of each name. -/
def searchIso (str : List Char) : Char :=
  if str.isPrefixOf "&quot;".toList then quote
  else if str.isPrefixOf "&amp;".toList then '&'
  else if str.isPrefixOf "&lt;".toList then '<'
  else if str.isPrefixOf "&gt;".toList then '>'
  else
    match gmlTable.findIdx? (str.isPrefixOf ·) with
    | some i => Char.ofNat (i + 160)
    | none => '&'

/-- The character for the `body` in front of a semicolon, of which `ISO_buffer` holds at most 8. -/
def isoChar (body : List Char) : Char := if body.length < 8 then searchIso (body ++ [';']) else '&'

/-! ## The scanner -/

/-- White space and comments in front of a token and its first character. Behind a comment the
scanner starts anew. -/
def skipBlank : Bool → List Char → ℕ → ℕ → Option Char × Source
  | false, [], line, column => (none, ⟨[], line, column + 1⟩)
  | true, [], line, _ => (none, ⟨[], line + 1, 2⟩)
  | true, c :: cs, line, column =>
    if c = '\n' then skipBlank false cs (line + 1) 1 else skipBlank true cs line column
  | false, c :: cs, line, column =>
    if c = '\n' then skipBlank false cs (line + 1) 1
    else if isspace c then skipBlank false cs line (column + 1)
    else if c = '#' then skipBlank true cs line (column + 1)
    else (some c, ⟨cs, line, column + 1⟩)

/-- Behind a word: the character that ends it is read with it, except for a bracket. -/
def Source.behind (src : Source) (bracket : Char) (count : ℕ) : List Char → Source
  | [] => ⟨[], src.line, src.column + count⟩
  | c :: cs =>
    if c = '\n' then ⟨cs, src.line + 1, 1⟩
    else ⟨if c = bracket then c :: cs else cs, src.line, src.column + count⟩

def startsNumber (c : Char) : Bool := c.isDigit || c = '.' || c = '+' || c = '-'

def inNumber (c : Char) : Bool := !isspace c && c ≠ ']'

def initialSize : ℕ := 1024

/-- The value of a number; `atof` is the library's. -/
def numberToken (atof : List Char → D) (word : List Char) : Token D :=
  if '.' ∈ word ∨ 'E' ∈ word then .double (atof (cString word)) else .int (strtol (cString word))

/-- A number that begins with `c`. -/
def scanNumber (atof : List Char → D) (c : Char) (src : Source) : Token D × Source :=
  let word := c :: src.rest.takeWhile inNumber
  if initialSize ≤ word.length then
    (.error ⟨.tooManyDigits, src.line, src.column + (initialSize - 1)⟩,
      { src with rest := src.rest.drop (initialSize - 1) })
  else (numberToken atof word, src.behind ']' word.length (src.rest.dropWhile inNumber))

def startsKey (c : Char) : Bool := c.isAlpha || c = '_'

def inKey (c : Char) : Bool := c.isAlphanum || c = '_'

def endsKey (c : Char) : Bool := c = '[' || isspace c

/-- A key that begins with `c`. -/
def scanKey (c : Char) (src : Source) : Token D × Source :=
  let word := c :: src.rest.takeWhile inKey
  let after := src.behind '[' word.length (src.rest.dropWhile inKey)
  if (src.rest.dropWhile inKey).head?.any endsKey then (.key word, after)
  else (.error ⟨.unexpected, after.line, after.column + word.length⟩, after)

/-- The loop over a string. With `none` in front of a character of the string, with `some body`
behind `body` of a reference; `read` has what the buffer holds. A new line counts where the loop
reads on, so not as the first character and not in a reference. -/
def stringLoop : Option (List Char) → List Char → List Char → ℕ → ℕ → Token D × Source
  | none, read, [], line, column =>
    -- only the first character can be the end of the file, and it goes into the buffer
    let count := max read.length 1
    let column := if read = [] then column + 1 else column
    (.error ⟨.prematureEof, line, column + count⟩, ⟨[], line, column⟩)
  | none, read, c :: cs, line, column =>
    let newline := c = '\n' ∧ read ≠ []
    if c = quote then (.string (cString read), ⟨cs, line, column⟩)
    else if c = '&' then stringLoop (some [c]) read cs line column
    else if newline then stringLoop none (read ++ [c]) cs (line + 1) 2
    else stringLoop none (read ++ [c]) cs line (column + 1)
  | some _, read, [], line, column =>
    (.error ⟨.prematureEof, line, column + 1 + (read.length + 1)⟩, ⟨[], line, column + 1⟩)
  | some body, read, c :: cs, line, column =>
    if c = quote then (.string (cString (read ++ ['&'])), ⟨cs, line, column + 1⟩)
    else if c = ';' then stringLoop none (read ++ [isoChar body]) cs line (column + 1)
    else stringLoop (some (body ++ [c])) read cs line column

def scanner (atof : List Char → D) (src : Source) : Token D × Source :=
  match skipBlank false src.rest src.line src.column with
  | (none, src) => (.fileEnd, src)
  | (some c, src) =>
    if startsNumber c then scanNumber atof c src
    else if startsKey c then scanKey c src
    else if c = '[' then (.lBracket, src)
    else if c = ']' then (.rBracket, src)
    else if c = quote then stringLoop none [] src.rest src.line (src.column + 1)
    else (.error ⟨.unexpected, src.line, src.column⟩, src)

/-! ## How far the scanner reads -/

variable {cs : List Char} {src : Source}

theorem skipBlank_none {comment : Bool} {line column : ℕ}
    (h : (skipBlank comment cs line column).1 = none) :
    (skipBlank comment cs line column).2.rest = [] := by
  fun_induction skipBlank comment cs line column <;> simp_all

theorem length_skipBlank {comment : Bool} {line column : ℕ} {c : Char}
    (h : (skipBlank comment cs line column).1 = some c) :
    (skipBlank comment cs line column).2.rest.length < cs.length := by
  fun_induction skipBlank comment cs line column <;> simp_all <;> omega

theorem length_behind (bracket : Char) (count : ℕ) (cs : List Char) :
    (src.behind bracket count cs).rest.length ≤ cs.length := by
  cases cs with
  | nil => exact le_rfl
  | cons c cs =>
    simp only [Source.behind]
    split_ifs <;> simp

theorem length_stringLoop (ref : Option (List Char)) (read cs : List Char) (line column : ℕ) :
    (stringLoop (D := D) ref read cs line column).2.rest.length ≤ cs.length := by
  fun_induction stringLoop (D := D) ref read cs line column <;> simp_all <;> omega

/-- Each token takes at least one character, but for the end of the file. -/
theorem length_scanner (atof : List Char → D) (src : Source) :
    (scanner atof src).1 = .fileEnd ∧ (scanner atof src).2.rest = [] ∨
      (scanner atof src).2.rest.length < src.rest.length := by
  unfold scanner
  rcases hblank : skipBlank false src.rest src.line src.column with ⟨_ | c, mid⟩
  · have hnil := skipBlank_none (congrArg Prod.fst hblank)
    rw [hblank] at hnil
    exact .inl ⟨rfl, hnil⟩
  · have hlt := length_skipBlank (congrArg Prod.fst hblank)
    rw [hblank] at hlt
    right
    dsimp only at hlt ⊢
    have hdrop (p : Char → Bool) := (List.dropWhile_sublist (l := mid.rest) p).length_le
    split_ifs
    · unfold scanNumber
      dsimp only
      split_ifs
      · exact lt_of_le_of_lt (by simp) hlt
      · exact lt_of_le_of_lt ((length_behind _ _ _).trans (hdrop _)) hlt
    · unfold scanKey
      dsimp only
      split_ifs <;> exact lt_of_le_of_lt ((length_behind _ _ _).trans (hdrop _)) hlt
    · exact hlt
    · exact hlt
    · exact lt_of_le_of_lt (length_stringLoop _ _ _ _ _) hlt
    · exact hlt

end Modelnet.Tools.Gml

import Modelnet.Tools.GmlScanner

/-!
# Pairs of a GML file

`gml_parser.cpp` reads a list of keys with their values, where a value may be a list in brackets
again. On an error it returns the pairs before it. Where the error is inside brackets, the pair of
the brackets has no `next` yet: its memory has been allocated and nothing more.
-/

namespace Modelnet.Tools.Gml

/-- `GML_pair` with what its `next` points to. `garbage` is a `next` that was never set. -/
inductive Pairs (D : Type)
  | null
  | garbage
  | int (key : List Char) (integer : ℤ) (next : Pairs D)
  | double (key : List Char) (floating : D) (next : Pairs D)
  | string (key : List Char) (string : List Char) (next : Pairs D)
  | list (key : List Char) (list : Pairs D) (next : Pairs D)
  deriving DecidableEq, Repr

/-- What a call returns: the list, the error in `stat`, `stat->key_list`, and where it stopped. -/
structure Parsed (D : Type) where
  list : Pairs D
  err : Option GmlError
  keyList : List (List Char)
  src : Source
  deriving DecidableEq, Repr

variable {D : Type}

/-- A key goes to the front of `stat->key_list` unless it is there. -/
def internKey (keys : List (List Char)) (key : List Char) : List (List Char) :=
  if keys.contains key then keys else key :: keys

/-- An error of the parser is where the scanner stopped. -/
def Source.fails (src : Source) (errNum : ErrorValue) : GmlError := ⟨errNum, src.line, src.column⟩

/-- The pair in front of what the next turns of the loop make. -/
def Parsed.cons (pair : Pairs D → Pairs D) (rest : Parsed D) : Parsed D :=
  { rest with list := pair rest.list }

/-- `GML_parser`, one turn of its loop for each unit of fuel. -/
def parserLoop (atof : List Char → D) :
    ℕ → Bool → List (List Char) → Source → Option (Parsed D)
  | 0, _, _, _ => none
  | n + 1, opened, keys, src =>
    match scanner atof src with
    | (.fileEnd, src) =>
      some ⟨.null, if opened then some (src.fails .openBracket) else none, keys, src⟩
    | (.rBracket, src) =>
      some ⟨.null, if opened then none else some (src.fails .tooManyBrackets), keys, src⟩
    | (.error err, src) => some ⟨.null, some err, keys, src⟩
    | (.key key, src) =>
      let keys := internKey keys key
      match scanner atof src with
      | (.int i, src) => (parserLoop atof n opened keys src).map (Parsed.cons (.int key i))
      | (.double d, src) => (parserLoop atof n opened keys src).map (Parsed.cons (.double key d))
      | (.string s, src) => (parserLoop atof n opened keys src).map (Parsed.cons (.string key s))
      | (.lBracket, src) =>
        (parserLoop atof n true keys src).bind fun inner =>
          match inner.err with
          | some _ => some { inner with list := .list key inner.list .garbage }
          | none =>
            (parserLoop atof n opened inner.keyList inner.src).map
              (Parsed.cons (.list key inner.list))
      | (.error err, src) => some ⟨.null, some err, keys, src⟩
      | (_, src) => some ⟨.null, some (src.fails .wrongSyntax), keys, src⟩
    | (_, src) => some ⟨.null, some (src.fails .wrongSyntax), keys, src⟩

/-- `GML_parser` on a whole file, with an empty `key_list`. -/
def gmlParser (atof : List Char → D) (src : Source) : Option (Parsed D) :=
  parserLoop atof (src.rest.length + 1) false [] src

/-! ## Documents -/

namespace Pairs

/-- Every `next` is set. -/
def Linked : Pairs D → Prop
  | null => True
  | garbage => False
  | int _ _ next => next.Linked
  | double _ _ next => next.Linked
  | string _ _ next => next.Linked
  | list _ l next => l.Linked ∧ next.Linked

def tokens : Pairs D → List (Token D)
  | null => []
  | garbage => []
  | int key i next => .key key :: .int i :: next.tokens
  | double key d next => .key key :: .double d :: next.tokens
  | string key s next => .key key :: .string s :: next.tokens
  | list key l next => .key key :: .lBracket :: (l.tokens ++ .rBracket :: next.tokens)

end Pairs

/-- Reading on from `src` gives these tokens. -/
inductive Scans (atof : List Char → D) : Source → List (Token D) → Source → Prop
  | nil (src : Source) : Scans atof src [] src
  | cons {src mid last : Source} {t : Token D} {ts : List (Token D)} :
    scanner atof src = (t, mid) → Scans atof mid ts last → Scans atof src (t :: ts) last

/-- The token behind the last pair. -/
def closing (opened : Bool) : Token D := if opened then .rBracket else .fileEnd

namespace Scans

variable {atof : List Char → D} {src mid last : Source} {t : Token D} {ts ts' : List (Token D)}

theorem one (h : scanner atof src = (t, mid)) : Scans atof src [t] mid := .cons h (.nil mid)

theorem append (h : Scans atof src ts mid) (h' : Scans atof mid ts' last) :
    Scans atof src (ts ++ ts') last := by
  induction h with
  | nil => exact h'
  | cons hs _ ih => exact .cons hs (ih h')

theorem of_append (h : Scans atof src (ts ++ ts') last) :
    ∃ mid, Scans atof src ts mid ∧ Scans atof mid ts' last := by
  induction ts generalizing src with
  | nil => exact ⟨src, .nil src, h⟩
  | cons t ts ih =>
    cases h with
    | cons hs h =>
      obtain ⟨mid, h1, h2⟩ := ih h
      exact ⟨mid, .cons hs h1, h2⟩

theorem unique {last' : Source} (h : Scans atof src ts last) (h' : Scans atof src ts last') :
    last = last' := by
  induction h with
  | nil => cases h'; rfl
  | cons hs _ ih =>
    cases h' with
    | cons hs' h' =>
      rw [hs] at hs'
      cases hs'
      exact ih h'

/-- Of two readings from one place the shorter is the beginning of the longer. -/
theorem comparable {last' : Source} (h : Scans atof src ts last) (h' : Scans atof src ts' last') :
    ts <+: ts' ∨ ts' <+: ts := by
  induction h generalizing ts' with
  | nil => exact .inl List.nil_prefix
  | cons hs _ ih =>
    cases h' with
    | nil => exact .inr List.nil_prefix
    | cons hs' h' =>
      rw [hs] at hs'
      cases hs'
      exact (ih h').imp (List.cons_prefix_cons.mpr ⟨rfl, ·⟩) (List.cons_prefix_cons.mpr ⟨rfl, ·⟩)

end Scans

/-! ## What a call does -/

/-- The pair for a value that is not a list. -/
def atom (key : List Char) : Token D → Option (Pairs D → Pairs D)
  | .int i => some (.int key i)
  | .double d => some (.double key d)
  | .string s => some (.string key s)
  | _ => none

/-- The error for a token that fits nowhere: a message of the scanner, or where it stopped. -/
def Token.fault (behindKey : Bool) (src : Source) : Token D → GmlError
  | .error err => err
  | .fileEnd => src.fails (if behindKey then .wrongSyntax else .openBracket)
  | .rBracket => src.fails (if behindKey then .wrongSyntax else .tooManyBrackets)
  | _ => src.fails .wrongSyntax

/-- The parser reads from `src` with these results. -/
inductive Reads (atof : List Char → D) : Bool → List (List Char) → Source → Parsed D → Prop
  | close {opened : Bool} {keys : List (List Char)} {src last : Source} :
    scanner atof src = (closing opened, last) → Reads atof opened keys src ⟨.null, none, keys, last⟩
  | noKey {opened : Bool} {keys : List (List Char)} {src last : Source} {t : Token D} :
    scanner atof src = (t, last) → t ≠ closing opened → (∀ key, t ≠ .key key) →
      Reads atof opened keys src ⟨.null, some (t.fault false last), keys, last⟩
  | noValue {opened : Bool} {keys : List (List Char)} {src mid last : Source} {key : List Char}
      {t : Token D} :
    scanner atof src = (.key key, mid) → scanner atof mid = (t, last) → atom key t = none →
      t ≠ .lBracket →
      Reads atof opened keys src ⟨.null, some (t.fault true last), internKey keys key, last⟩
  | atom {opened : Bool} {keys : List (List Char)} {src mid next : Source} {key : List Char}
      {t : Token D} {pair : Pairs D → Pairs D} {rest : Parsed D} :
    scanner atof src = (.key key, mid) → scanner atof mid = (t, next) → atom key t = some pair →
      Reads atof opened (internKey keys key) next rest → Reads atof opened keys src (rest.cons pair)
  | badList {opened : Bool} {keys : List (List Char)} {src mid next : Source} {key : List Char}
      {inner : Parsed D} :
    scanner atof src = (.key key, mid) → scanner atof mid = (.lBracket, next) →
      Reads atof true (internKey keys key) next inner → inner.err.isSome →
      Reads atof opened keys src { inner with list := .list key inner.list .garbage }
  | list {opened : Bool} {keys : List (List Char)} {src mid next : Source} {key : List Char}
      {inner rest : Parsed D} :
    scanner atof src = (.key key, mid) → scanner atof mid = (.lBracket, next) →
      Reads atof true (internKey keys key) next inner → inner.err = none →
      Reads atof opened inner.keyList inner.src rest →
      Reads atof opened keys src (rest.cons (.list key inner.list))

variable {atof : List Char → D} {opened : Bool} {keys : List (List Char)} {src last : Source}
  {n : ℕ} {r : Parsed D}

theorem Reads.of_parserLoop (h : parserLoop atof n opened keys src = some r) :
    Reads atof opened keys src r := by
  induction n generalizing opened keys src r with
  | zero => cases h
  | succ n ih =>
    unfold parserLoop at h
    rcases hscan : scanner atof src with ⟨t, mid⟩
    rw [hscan] at h
    cases t with
    | key key =>
      rcases hvalue : scanner atof mid with ⟨t, next⟩
      simp only [hvalue] at h
      cases t with
      | int i =>
        obtain ⟨rest, hrest, rfl⟩ := Option.map_eq_some_iff.mp h
        exact .atom hscan hvalue rfl (ih hrest)
      | double d =>
        obtain ⟨rest, hrest, rfl⟩ := Option.map_eq_some_iff.mp h
        exact .atom hscan hvalue rfl (ih hrest)
      | string s =>
        obtain ⟨rest, hrest, rfl⟩ := Option.map_eq_some_iff.mp h
        exact .atom hscan hvalue rfl (ih hrest)
      | lBracket =>
        obtain ⟨inner, hinner, h⟩ := Option.bind_eq_some_iff.mp h
        cases herr : inner.err with
        | some e =>
          rw [herr] at h
          cases h
          rw [← herr]
          exact .badList hscan hvalue (ih hinner) (by rw [herr]; rfl)
        | none =>
          rw [herr] at h
          obtain ⟨rest, hrest, rfl⟩ := Option.map_eq_some_iff.mp h
          exact .list hscan hvalue (ih hinner) herr (ih hrest)
      | _ =>
        cases h
        exact .noValue hscan hvalue rfl (by simp)
    | fileEnd =>
      cases h
      cases opened with
      | false => exact .close hscan
      | true => exact .noKey hscan (by simp [closing]) (by simp)
    | rBracket =>
      cases h
      cases opened with
      | false => exact .noKey hscan (by simp [closing]) (by simp)
      | true => exact .close hscan
    | _ =>
      cases h
      exact .noKey hscan (by cases opened <;> simp [closing]) (by simp)

/-- With fuel for every character the parser comes to an end. -/
theorem parserLoop_isSome (hn : src.rest.length < n) :
    ∃ r, parserLoop atof n opened keys src = some r ∧ r.src.rest.length ≤ src.rest.length := by
  induction n generalizing opened keys src with
  | zero => omega
  | succ n ih =>
    have hscan := length_scanner atof src
    unfold parserLoop
    rcases hfirst : scanner atof src with ⟨t, mid⟩
    rw [hfirst] at hscan
    cases t with
    | key key =>
      have hmid : mid.rest.length < src.rest.length := by simpa using hscan
      have hvalue := length_scanner atof mid
      rcases hsecond : scanner atof mid with ⟨t, next⟩
      rw [hsecond] at hvalue
      have hnext : next.rest.length ≤ mid.rest.length := by
        rcases hvalue with ⟨-, hnil⟩ | hlt
        · rw [hnil]; exact Nat.zero_le _
        · exact hlt.le
      obtain ⟨rest, hrest, hlast⟩ :=
        @ih opened (internKey keys key) next (by omega)
      simp only [hsecond]
      cases t with
      | lBracket =>
        obtain ⟨inner, hinner, hin⟩ :=
          @ih true (internKey keys key) next (by omega)
        obtain ⟨rest, hrest, hlast⟩ := @ih opened inner.keyList inner.src (by omega)
        simp only [hinner, Option.bind_some]
        cases herr : inner.err with
        | some e => exact ⟨_, rfl, by dsimp only; omega⟩
        | none =>
          exact ⟨rest.cons (.list key inner.list), by simp only [hrest, Option.map_some],
            hlast.trans (by omega)⟩
      | int i =>
        exact ⟨rest.cons (.int key i), by simp only [hrest, Option.map_some],
          hlast.trans (by omega)⟩
      | double d =>
        exact ⟨rest.cons (.double key d), by simp only [hrest, Option.map_some],
          hlast.trans (by omega)⟩
      | string s =>
        exact ⟨rest.cons (.string key s), by simp only [hrest, Option.map_some],
          hlast.trans (by omega)⟩
      | _ => exact ⟨_, rfl, by dsimp only; omega⟩
    | fileEnd =>
      rcases hscan with ⟨-, hnil⟩ | hlt
      · exact ⟨_, rfl, by rw [hnil]; exact Nat.zero_le _⟩
      · exact ⟨_, rfl, hlt.le⟩
    | _ => exact ⟨_, rfl, (hscan.resolve_left (by simp)).le⟩

theorem gmlParser_isSome (atof : List Char → D) (src : Source) :
    ∃ r, gmlParser atof src = some r ∧ Reads atof false [] src r := by
  obtain ⟨r, hr, -⟩ :=
    @parserLoop_isSome D atof false [] src (src.rest.length + 1) (Nat.lt_succ_self _)
  exact ⟨r, hr, .of_parserLoop hr⟩

end Modelnet.Tools.Gml

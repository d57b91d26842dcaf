import Modelnet.Lib.Leda
import Modelnet.Tools.GmlText
import Modelnet.Tools.GraphText
import Modelnet.Tools.Istream

/-!
# Graphs in GML files

`gmlp.cpp` makes a graph of the pairs that the parser returns. Each node and each edge has integers,
doubles, strings and children under names of their own. `Attributes::write` writes all but the
children, and what it writes is read back. The dictionaries and the graph are those of LEDA.
-/

namespace Modelnet.Tools.Gml

/-- What is done with a `double`; `print` is `<<` on the stream that the file is written to. -/
structure DoubleFormat (D : Type) where
  atof : List Char → D
  ofInt : ℤ → D
  toInt : D → ℤ
  print : D → List Char

/-- `Attributes`, over the types of its dictionaries. -/
structure Attributes (Ints Doubles Strings Children : Type) where
  theInts : Ints
  theDoubles : Doubles
  theStrings : Strings
  theChildren : Children

/-- The types of LEDA at which `dictionary` and `GRAPH` are used. -/
structure LedaTypes (D : Type) where
  Ints : Type
  Doubles : Type
  Strings : Type
  Children : Type
  Ids : Type
  Node : Type
  Graph : Type
  ints : Leda.Dictionary Ints (List Char) ℤ
  doubles : Leda.Dictionary Doubles (List Char) D
  strings : Leda.Dictionary Strings (List Char) (List Char)
  children : Leda.Dictionary Children (List Char) (Attributes Ints Doubles Strings Children)
  ids : Leda.Dictionary Ids ℤ Node
  graph : Leda.Graph Graph Node (Attributes Ints Doubles Strings Children)

variable {D : Type}

namespace LedaTypes

/-- The attributes of a node or an edge. -/
abbrev Atts (L : LedaTypes D) : Type := Attributes L.Ints L.Doubles L.Strings L.Children

/-- All of them do what the manual says. -/
structure Lawful (L : LedaTypes D) : Prop where
  ints : L.ints.Lawful
  doubles : L.doubles.Lawful
  strings : L.strings.Lawful
  children : L.children.Lawful
  ids : L.ids.Lawful
  graph : L.graph.Lawful

end LedaTypes

variable (num : DoubleFormat D) (L : LedaTypes D)

namespace Attributes

/-- `Attributes()`. -/
def init : L.Atts := ⟨L.ints.empty, L.doubles.empty, L.strings.empty, L.children.empty⟩

/-- `atts.i(name) = i`. -/
def setInt (atts : L.Atts) (name : List Char) (i : ℤ) : L.Atts :=
  { atts with theInts := L.ints.assign 0 atts.theInts name i }

/-- `atts.d(name) = d`. -/
def setDouble (atts : L.Atts) (name : List Char) (d : D) : L.Atts :=
  { atts with theDoubles := L.doubles.assign (num.ofInt 0) atts.theDoubles name d }

/-- `atts.s(name) = s`. -/
def setString (atts : L.Atts) (name s : List Char) : L.Atts :=
  { atts with theStrings := L.strings.assign [] atts.theStrings name s }

/-- `atts.c(name)`, which is empty at first. -/
def c (atts : L.Atts) (name : List Char) : L.Atts :=
  (L.children.lookup atts.theChildren name).getD (init L)

/-- A change of `atts.c(name)`. -/
def setChild (atts : L.Atts) (name : List Char) (child : L.Atts) : L.Atts :=
  { atts with theChildren := L.children.assign (init L) atts.theChildren name child }

end Attributes

/-! ## Reading -/

/-- What `add_attributes` puts where `idp`, `srcp` and `dstp` point. -/
structure Ends where
  id : ℤ
  source : ℤ
  target : ℤ
  deriving DecidableEq, Repr

/-- The values in front of a call. -/
def Ends.unset : Ends := ⟨-1, -1, -1⟩

def addAttributes : L.Atts → Ends → Pairs D → L.Atts × Ends
  | atts, ends, .null => (atts, ends)
  | atts, ends, .garbage => (atts, ends)
  | atts, ends, .int key i next =>
    if key = "id".toList then addAttributes atts { ends with id := i } next
    else if key = "source".toList then addAttributes atts { ends with source := i } next
    else if key = "target".toList then addAttributes atts { ends with target := i } next
    else if key = "plr".toList then addAttributes (atts.setDouble num L key (num.ofInt i)) ends next
    else addAttributes (atts.setInt L key i) ends next
  | atts, ends, .double key d next =>
    if key = "bw".toList then addAttributes (atts.setInt L key (num.toInt d)) ends next
    else if key = "lat".toList then addAttributes (atts.setInt L key (num.toInt d)) ends next
    else addAttributes (atts.setDouble num L key d) ends next
  | atts, ends, .string key s next =>
    if key = "parameter".toList then addAttributes atts ends next
    else addAttributes (atts.setString L key s) ends next
  | atts, ends, .list key l next =>
    addAttributes (atts.setChild L key (addAttributes (atts.c L key) .unset l).1) ends next

/-- What `parse` keeps while it goes over the pairs of the graph; `cerr` is what it has printed. -/
structure Reading where
  graph : L.Graph
  nodes : L.Ids
  directed : ℤ
  warned : Bool
  cerr : List String

variable {L}

/-- A message that is printed once. -/
def Reading.warn (st : Reading L) (message : List String) : Reading L :=
  if st.warned then st else { st with warned := true, cerr := st.cerr ++ message }

/-- What is printed for a node without an id. -/
def noId : List String := ["Warning: found node(s) with no id"]

/-- What is printed for an edge without one of its nodes. -/
def badEnds (ends : Ends) : List String :=
  ["Warning: ignoring edges with invalid endpoints",
    "  source = " ++ toString ends.source ++ ", target = " ++ toString ends.target]

/-- A list with the key `node`. -/
def Reading.addNode (st : Reading L) (l : Pairs D) : Reading L :=
  let (v, g) := L.graph.newNode st.graph (.init L)
  let (atts, ends) := addAttributes num L (L.graph.inf g v) .unset l
  let st := { st with graph := L.graph.assign g v atts }
  if 0 ≤ ends.id then { st with nodes := L.ids.insert st.nodes ends.id v } else st.warn noId

/-- The loop over the nodes. -/
def addNodes : Reading L → Pairs D → Reading L
  | st, .null => st
  | st, .garbage => st
  | st, .int key i next =>
    addNodes (if key = "directed".toList then { st with directed := i } else st) next
  | st, .double _ _ next => addNodes st next
  | st, .string _ _ next => addNodes st next
  | st, .list key l next =>
    addNodes (if key = "node".toList then st.addNode num l else st) next

/-- The node with an id. -/
def Reading.lookup (st : Reading L) (id : ℤ) : Option L.Node :=
  if 0 ≤ id then L.ids.lookup st.nodes id else none

/-- A list with the key `edge`. -/
def Reading.addEdge (st : Reading L) (l : Pairs D) : Reading L :=
  let (atts, ends) := addAttributes num L (.init L) .unset l
  match st.lookup ends.source, st.lookup ends.target with
  | some src, some dst => { st with graph := L.graph.newEdge st.graph src dst atts }
  | _, _ => st.warn (badEnds ends)

/-- The loop over the edges. -/
def addEdges : Reading L → Pairs D → Reading L
  | st, .null => st
  | st, .garbage => st
  | st, .int _ _ next => addEdges st next
  | st, .double _ _ next => addEdges st next
  | st, .string _ _ next => addEdges st next
  | st, .list key l next =>
    addEdges (if key = "edge".toList then st.addEdge num l else st) next

def findGraph : Pairs D → Option (Pairs D)
  | .null => none
  | .garbage => none
  | .int _ _ next => findGraph next
  | .double _ _ next => findGraph next
  | .string _ _ next => findGraph next
  | .list key l next => if key = "graph".toList then some l else findGraph next

/-- What is printed behind the place of an error. -/
def ErrorValue.message : ErrorValue → String
  | .unexpected => "unexpected character"
  | .wrongSyntax => "bad syntax"
  | .prematureEof => "premature end-of-file"
  | .tooManyDigits => "number has too many digits"
  | .openBracket => "open brackets left and end-of-file"
  | .tooManyBrackets => "too many closing brackets"

def GmlError.message (err : GmlError) (filename : String) : List String :=
  ["Parse error in " ++ filename ++ " (line " ++ toString err.line ++ ", column " ++
    toString err.column ++ ")", "  >> " ++ err.errNum.message]

/-- What `parse` returns, the graph that it leaves and what it prints on `cerr`. -/
structure Outcome (L : LedaTypes D) where
  ok : Bool
  graph : L.Graph
  cerr : List String

/-- The conversion of the pairs of a graph. -/
def convert (g : L.Graph) (l : Pairs D) : Outcome L :=
  let g := L.graph.makeDirected (L.graph.clear g)
  let st := addNodes num ⟨g, L.ids.empty, 0, false, []⟩ l
  let st := addEdges num { st with warned := false } l
  ⟨true, if st.directed = 0 then L.graph.makeUndirected st.graph else st.graph, st.cerr⟩

def raitnerParse (filename : String) (file : List Char) (g : L.Graph) : Option (Outcome L) :=
  (gmlParser num.atof (.init file)).map fun r =>
    match r.err with
    | some err => ⟨false, g, err.message filename⟩
    | none =>
      match findGraph r.list with
      | none => ⟨false, g, ["File does not contain a graph: " ++ filename]⟩
      | some l => convert num g l

/-! ## Writing -/

/-- `out << TAB << key << " " << value << "\n"`. -/
def printAttribute (key value : List Char) : List Char :=
  "    ".toList ++ (key ++ ' ' :: (value ++ ['\n']))

def Attributes.write (atts : L.Atts) : List Char :=
  ((L.ints.items atts.theInts).flatMap fun e => printAttribute e.1 (printInt e.2)) ++
    (((L.doubles.items atts.theDoubles).flatMap fun e => printAttribute e.1 (num.print e.2)) ++
      (L.strings.items atts.theStrings).flatMap fun e =>
        printAttribute e.1 (quote :: (e.2 ++ [quote])))

/-! ## Attributes as pairs -/

/-- A key as the scanner reads it. -/
def IsKey : List Char → Prop
  | [] => False
  | c :: word => startsKey c ∧ ∀ x ∈ word, inKey x

variable {num}

/-- The text of a double is a number that is no integer, and it is read as the double. -/
structure DoubleFormat.ReadsBack (num : DoubleFormat D) (d : D) : Prop where
  starts : ∀ c ∈ (num.print d).head?, startsNumber c
  inside : ∀ c ∈ num.print d, inNumber c
  point : '.' ∈ num.print d ∨ 'E' ∈ num.print d
  short : (num.print d).length < initialSize
  atof : num.atof (cString (num.print d)) = d

namespace Attributes

/-- The names are keys, and none means something else to `add_attributes`. -/
structure Plain (atts : L.Atts) : Prop where
  intKeys : ∀ e ∈ L.ints.items atts.theInts, IsKey e.1 ∧ e.1 ≠ "id".toList ∧
    e.1 ≠ "source".toList ∧ e.1 ≠ "target".toList ∧ e.1 ≠ "plr".toList
  doubleKeys : ∀ e ∈ L.doubles.items atts.theDoubles, IsKey e.1 ∧ e.1 ≠ "bw".toList ∧
    e.1 ≠ "lat".toList
  stringKeys : ∀ e ∈ L.strings.items atts.theStrings, IsKey e.1 ∧ e.1 ≠ "parameter".toList

/-- The values are read as they are written; strings have no quote, no ampersand and no zero
byte. -/
structure Printable (num : DoubleFormat D) (atts : L.Atts) : Prop where
  ints : ∀ e ∈ L.ints.items atts.theInts, IsInt e.2
  doubles : ∀ e ∈ L.doubles.items atts.theDoubles, num.ReadsBack e.2
  strings : ∀ e ∈ L.strings.items atts.theStrings, quote ∉ e.2 ∧ '&' ∉ e.2 ∧ Char.ofNat 0 ∉ e.2

/-- The same integers, doubles and strings under all names, and no children. -/
structure CopyOf (atts atts' : L.Atts) : Prop where
  ints : ∀ name, L.ints.lookup atts.theInts name = L.ints.lookup atts'.theInts name
  doubles : ∀ name, L.doubles.lookup atts.theDoubles name = L.doubles.lookup atts'.theDoubles name
  strings : ∀ name, L.strings.lookup atts.theStrings name = L.strings.lookup atts'.theStrings name
  children : ∀ name, L.children.lookup atts.theChildren name = none

/-- The attributes in the order in which they are written. -/
def pairs (atts : L.Atts) (next : Pairs D) : Pairs D :=
  (L.ints.items atts.theInts).foldr (fun e next => .int e.1 e.2 next)
    ((L.doubles.items atts.theDoubles).foldr (fun e next => .double e.1 e.2 next)
      ((L.strings.items atts.theStrings).foldr (fun e next => .string e.1 e.2 next) next))

variable {atts : L.Atts} {ends : Ends} {next : Pairs D}

theorem addAttributes_ints (es : List (List Char × ℤ))
    (h : ∀ e ∈ es, e.1 ≠ "id".toList ∧ e.1 ≠ "source".toList ∧ e.1 ≠ "target".toList ∧
      e.1 ≠ "plr".toList) :
    addAttributes num L atts ends (es.foldr (fun e next => .int e.1 e.2 next) next) =
      addAttributes num L { atts with
        theInts := es.foldl (fun d e => L.ints.assign 0 d e.1 e.2) atts.theInts } ends next := by
  induction es generalizing atts with
  | nil => rfl
  | cons e es ih =>
    obtain ⟨hid, hsrc, hdst, hplr⟩ := h e List.mem_cons_self
    rw [List.foldr_cons, addAttributes, if_neg hid, if_neg hsrc, if_neg hdst, if_neg hplr,
      ih fun e' he' => h e' (List.mem_cons_of_mem _ he')]
    rfl

theorem addAttributes_doubles (es : List (List Char × D))
    (h : ∀ e ∈ es, e.1 ≠ "bw".toList ∧ e.1 ≠ "lat".toList) :
    addAttributes num L atts ends (es.foldr (fun e next => .double e.1 e.2 next) next) =
      addAttributes num L { atts with
        theDoubles := es.foldl (fun d e => L.doubles.assign (num.ofInt 0) d e.1 e.2)
          atts.theDoubles } ends next := by
  induction es generalizing atts with
  | nil => rfl
  | cons e es ih =>
    obtain ⟨hbw, hlat⟩ := h e List.mem_cons_self
    rw [List.foldr_cons, addAttributes, if_neg hbw, if_neg hlat,
      ih fun e' he' => h e' (List.mem_cons_of_mem _ he')]
    rfl

theorem addAttributes_strings (es : List (List Char × List Char))
    (h : ∀ e ∈ es, e.1 ≠ "parameter".toList) :
    addAttributes num L atts ends (es.foldr (fun e next => .string e.1 e.2 next) next) =
      addAttributes num L { atts with
        theStrings := es.foldl (fun d e => L.strings.assign [] d e.1 e.2) atts.theStrings }
        ends next := by
  induction es generalizing atts with
  | nil => rfl
  | cons e es ih =>
    rw [List.foldr_cons, addAttributes, if_neg (h e List.mem_cons_self),
      ih fun e' he' => h e' (List.mem_cons_of_mem _ he')]
    rfl

/-- Read from their pairs, attributes are the same but for the children. -/
theorem addAttributes_pairs (hL : L.Lawful) (h : atts.Plain) (ends : Ends) :
    ∃ copy, addAttributes num L (init L) ends (atts.pairs .null) = (copy, ends) ∧
      copy.CopyOf atts := by
  unfold pairs
  rw [addAttributes_ints _ fun e he => (h.intKeys e he).2,
    addAttributes_doubles _ fun e he => (h.doubleKeys e he).2,
    addAttributes_strings _ fun e he => (h.stringKeys e he).2]
  exact ⟨_, rfl, hL.ints.lookup_refill 0 _, hL.doubles.lookup_refill _ _,
    hL.strings.lookup_refill [] _, hL.children.lookup_empty⟩

theorem linked_pairs (hnext : next.Linked) : (atts.pairs next).Linked := by
  have hfold : ∀ {α : Type} (f : α → Pairs D → Pairs D) (es : List α) (next : Pairs D),
      (∀ a l, l.Linked → (f a l).Linked) → next.Linked → (es.foldr f next).Linked := by
    intro α f es next hf hl
    induction es with
    | nil => exact hl
    | cons a es ih => exact hf a _ ih
  exact hfold _ _ _ (fun _ _ h => h) (hfold _ _ _ (fun _ _ h => h)
    (hfold _ _ _ (fun _ _ h => h) hnext))

end Attributes

/-! ## The text of attributes -/

section Text

variable {atof : List Char → D} {atts : L.Atts} {next : Pairs D} {ts : List (Token D)} {t : Token D}
  {key value rest : List Char}

theorem blank_spaces (n : ℕ) : Blank (List.replicate n ' ') := by
  induction n with
  | zero => exact .nil
  | succ n ih => exact .space (by decide) ih

/-- A line with a key and a value is laid out as the two tokens. -/
theorem layout_printAttribute (hkey : IsKey key)
    (h : Layout atof (t :: ts) (' ' :: (value ++ '\n' :: rest))) :
    Layout atof (.key key :: t :: ts) (printAttribute key value ++ rest) := by
  cases key with
  | nil => exact hkey.elim
  | cons c word =>
    have hlayout := Layout.key (blank_spaces 4) hkey.1 hkey.2 rfl h
    simpa [printAttribute] using hlayout

/-- A word that the scanner takes for a number. -/
def IsNumber (word : List Char) : Prop :=
  (∀ c ∈ word.head?, startsNumber c) ∧ (∀ c ∈ word, inNumber c) ∧ word ≠ [] ∧
    word.length < initialSize

theorem layout_number (hword : IsNumber value) (h : Layout atof ts rest) :
    Layout atof (numberToken atof value :: ts) (' ' :: (value ++ '\n' :: rest)) := by
  obtain ⟨hhead, hin, hne, hlen⟩ := hword
  cases value with
  | nil => exact absurd rfl hne
  | cons c word =>
    exact .number (blank_spaces 1) (hhead c rfl)
      (fun x hx => hin x (List.mem_cons_of_mem _ hx)) hlen
      (by simp [inNumber, isspace_newline]) (.space isspace_newline h)

theorem layout_quoted (hstring : quote ∉ value ∧ '&' ∉ value ∧ Char.ofNat 0 ∉ value)
    (h : Layout atof ts rest) :
    Layout atof (.string value :: ts) (' ' :: ((quote :: (value ++ [quote])) ++ '\n' :: rest)) := by
  have hspell : ∀ s : List Char, quote ∉ s → '&' ∉ s → Spells s s := by
    intro s hq ha
    induction s with
    | nil => exact .nil
    | cons c s ih =>
      rw [List.mem_cons, not_or] at hq ha
      exact .plain (Ne.symm hq.1) (Ne.symm ha.1) (ih hq.2 ha.2)
  have hlayout := Layout.string (blank_spaces 1) (hspell value hstring.1 hstring.2.1)
    (h.space isspace_newline)
  have hvalue : cString value = value := by
    refine List.takeWhile_eq_self_iff.mpr fun c hc => ?_
    simpa using fun heq : c = Char.ofNat 0 => hstring.2.2 (heq ▸ hc)
  rw [hvalue] at hlayout
  simpa using hlayout

theorem toNat_of_mem_printInt {i : ℤ} {c : Char} (hc : c ∈ printInt i) :
    c.isDigit ∨ c = '-' := by
  have hdigits : ∀ c ∈ Nat.toDigits 10 i.natAbs, c.isDigit ∨ c = '-' := fun c hc =>
    .inl (Nat.isDigit_of_mem_toDigits (by decide) (by decide) hc)
  unfold printInt at hc
  split_ifs at hc
  · rcases List.mem_cons.mp hc with rfl | hc
    · exact .inr rfl
    · exact hdigits c hc
  · exact hdigits c hc

theorem length_printInt {i : ℤ} (hi : IsInt i) : (printInt i).length < initialSize := by
  have hlen : (Nat.toDigits 10 i.natAbs).length ≤ 11 := by
    refine (Nat.length_toDigits_le_iff (by decide) (by decide)).mpr ?_
    unfold IsInt at hi
    omega
  unfold printInt initialSize
  split_ifs
  · rw [List.length_cons]
    omega
  · omega

theorem isNumber_printInt {i : ℤ} (hi : IsInt i) : IsNumber (printInt i) := by
  refine ⟨fun c hc => ?_, fun c hc => ?_, ?_, length_printInt hi⟩
  · rcases toNat_of_mem_printInt (List.mem_of_mem_head? hc) with h | rfl
    · simp [startsNumber, h]
    · decide
  · rcases toNat_of_mem_printInt hc with h | rfl
    · have hne : c ≠ ']' := by rintro rfl; exact absurd h (by decide)
      simp [inNumber, isspace_of_isDigit h, hne]
    · decide
  · unfold printInt
    split_ifs
    · exact List.cons_ne_nil _ _
    · exact Nat.toDigits_ne_nil

theorem numberToken_printInt {i : ℤ} (hi : IsInt i) : numberToken atof (printInt i) = .int i := by
  have hnot : ∀ x : Char, ¬x.isDigit → x ≠ '-' → x ∉ printInt i := fun x hx hne hmem =>
    (toNat_of_mem_printInt hmem).elim hx hne
  have hword : cString (printInt i) = printInt i := by
    refine List.takeWhile_eq_self_iff.mpr fun c hc => ?_
    simpa using fun heq : c = Char.ofNat 0 =>
      hnot (Char.ofNat 0) (by decide) (by decide) (heq ▸ hc)
  unfold numberToken
  rw [if_neg (not_or.mpr ⟨hnot '.' (by decide) (by decide), hnot 'E' (by decide) (by decide)⟩),
    hword, strtol_printInt hi.1 hi.2]

theorem DoubleFormat.ReadsBack.isNumber {d : D} (h : num.ReadsBack d) : IsNumber (num.print d) := by
  refine ⟨h.starts, h.inside, ?_, h.short⟩
  intro hnil
  rcases h.point with hmem | hmem <;> rw [hnil] at hmem <;> exact List.not_mem_nil hmem

theorem DoubleFormat.ReadsBack.numberToken {d : D} (h : num.ReadsBack d) :
    numberToken num.atof (num.print d) = .double d := by
  unfold Gml.numberToken
  rw [if_pos h.point, h.atof]

/-- What `write` puts out is laid out as the pairs of the attributes. -/
theorem layout_write (h : atts.Plain) (hp : atts.Printable num)
    (hrest : Layout num.atof next.tokens rest) :
    Layout num.atof (atts.pairs next).tokens (atts.write num ++ rest) := by
  have hstrings : ∀ es : List (List Char × List Char), (∀ e ∈ es, IsKey e.1 ∧ quote ∉ e.2 ∧
      '&' ∉ e.2 ∧ Char.ofNat 0 ∉ e.2) →
      Layout num.atof (es.foldr (fun e next => .string e.1 e.2 next) next).tokens
        ((es.flatMap fun e => printAttribute e.1 (quote :: (e.2 ++ [quote]))) ++ rest) := by
    intro es hes
    induction es with
    | nil => exact hrest
    | cons e es ih =>
      obtain ⟨hkey, hstring⟩ := hes e List.mem_cons_self
      rw [List.flatMap_cons, List.append_assoc]
      exact layout_printAttribute hkey
        (layout_quoted hstring (ih fun e' he' => hes e' (List.mem_cons_of_mem _ he')))
  have hdoubles : ∀ (es : List (List Char × D)) (next : Pairs D) (rest : List Char),
      (∀ e ∈ es, IsKey e.1 ∧ num.ReadsBack e.2) → Layout num.atof next.tokens rest →
      Layout num.atof (es.foldr (fun e next => .double e.1 e.2 next) next).tokens
        ((es.flatMap fun e => printAttribute e.1 (num.print e.2)) ++ rest) := by
    intro es next rest hes hrest
    induction es with
    | nil => exact hrest
    | cons e es ih =>
      obtain ⟨hkey, hread⟩ := hes e List.mem_cons_self
      have hnumber := layout_number hread.isNumber
        (ih fun e' he' => hes e' (List.mem_cons_of_mem _ he'))
      rw [hread.numberToken] at hnumber
      rw [List.flatMap_cons, List.append_assoc]
      exact layout_printAttribute hkey hnumber
  have hints : ∀ (es : List (List Char × ℤ)) (next : Pairs D) (rest : List Char),
      (∀ e ∈ es, IsKey e.1 ∧ IsInt e.2) → Layout num.atof next.tokens rest →
      Layout num.atof (es.foldr (fun e next => .int e.1 e.2 next) next).tokens
        ((es.flatMap fun e => printAttribute e.1 (printInt e.2)) ++ rest) := by
    intro es next rest hes hrest
    induction es with
    | nil => exact hrest
    | cons e es ih =>
      obtain ⟨hkey, hint⟩ := hes e List.mem_cons_self
      have hnumber := layout_number (isNumber_printInt hint)
        (ih fun e' he' => hes e' (List.mem_cons_of_mem _ he'))
      rw [numberToken_printInt hint] at hnumber
      rw [List.flatMap_cons, List.append_assoc]
      exact layout_printAttribute hkey hnumber
  unfold Attributes.pairs Attributes.write
  rw [List.append_assoc, List.append_assoc]
  exact hints _ _ _ (fun e he => ⟨(h.intKeys e he).1, hp.ints e he⟩) (hdoubles _ _ _
    (fun e he => ⟨(h.doubleKeys e he).1, hp.doubles e he⟩) (hstrings _ fun e he =>
      ⟨(h.stringKeys e he).1, hp.strings e he⟩))

/-- What `Attributes::write` puts out is read as the same attributes without the children. -/
theorem addAttributes_write (hL : L.Lawful) (h : atts.Plain) (hp : atts.Printable num) :
    ∃ l keys last copy,
      gmlParser num.atof (.init (atts.write num)) = some ⟨l, none, keys, last⟩ ∧
        addAttributes num L (.init L) .unset l = (copy, .unset) ∧ copy.CopyOf atts := by
  have hdone : Layout num.atof (.null : Pairs D).tokens [] := .done (.blank .nil)
  have hlayout := layout_write h hp hdone
  rw [List.append_nil] at hlayout
  obtain ⟨last, hs⟩ := hlayout.scans 1 1
  obtain ⟨keys, hparse⟩ := gmlParser_of_scans (Attributes.linked_pairs (by trivial)) hs
  obtain ⟨copy, hread, hcopy⟩ := Attributes.addAttributes_pairs hL h .unset
  exact ⟨_, keys, last, copy, hparse, hread, hcopy⟩

/-- A dictionary of children is a list. -/
inductive Children (D : Type)
  | mk (entries : List (List Char × Attributes (SortedMap (List Char) ℤ)
      (SortedMap (List Char) D) (SortedMap (List Char) (List Char)) (Children D)))

def Children.entries : Children D → List (List Char × Attributes (SortedMap (List Char) ℤ)
    (SortedMap (List Char) D) (SortedMap (List Char) (List Char)) (Children D))
  | ⟨entries⟩ => entries

/-- Dictionaries in the order of their keys and graphs with numbered nodes. -/
def sortedTypes (D : Type) : LedaTypes D where
  Ints := SortedMap (List Char) ℤ
  Doubles := SortedMap (List Char) D
  Strings := SortedMap (List Char) (List Char)
  Children := Children D
  Ids := SortedMap ℤ ℕ
  Node := ℕ
  Graph := Leda.Graph.Numbered (Attributes (SortedMap (List Char) ℤ) (SortedMap (List Char) D)
    (SortedMap (List Char) (List Char)) (Children D))
  ints := .sorted ℤ
  doubles := .sorted D
  strings := .sorted (List Char)
  children := (Leda.Dictionary.listed _ _).wrap .mk Children.entries
  ids := .sorted ℕ
  graph := .numbered ⟨∅, ∅, ∅, ⟨[]⟩⟩

theorem sortedTypes_lawful (D : Type) : (sortedTypes D).Lawful where
  ints := Leda.Dictionary.sorted_lawful ℤ
  doubles := Leda.Dictionary.sorted_lawful D
  strings := Leda.Dictionary.sorted_lawful (List Char)
  children := (Leda.Dictionary.listed_lawful _ _).wrap fun _ => rfl
  ids := Leda.Dictionary.sorted_lawful ℕ
  graph := Leda.Graph.numbered_lawful _

/-- Doubles without a fraction, on a stream with `showpoint`. -/
def wholeDoubles : DoubleFormat ℤ where
  atof := strtol
  ofInt := id
  toInt := id
  print i := printInt i ++ ".00000".toList

def linkAttributes : (sortedTypes ℤ).Atts :=
  let atts := Attributes.setInt (sortedTypes ℤ) (.init _) "bw".toList 1000
  let atts := atts.setDouble wholeDoubles (sortedTypes ℤ) "plr".toList 0
  atts.setString (sortedTypes ℤ) "type".toList "stub-transit".toList

theorem addAttributes_linkAttributes :
    ∃ l keys last copy,
      gmlParser strtol (.init (linkAttributes.write wholeDoubles)) = some ⟨l, none, keys, last⟩ ∧
        addAttributes wholeDoubles (sortedTypes ℤ) (.init _) .unset l = (copy, .unset) ∧
          copy.CopyOf linkAttributes := by
  have hints : (sortedTypes ℤ).ints.items linkAttributes.theInts = [("bw".toList, 1000)] := rfl
  have hdoubles : (sortedTypes ℤ).doubles.items linkAttributes.theDoubles =
      [("plr".toList, 0)] := rfl
  have hstrings : (sortedTypes ℤ).strings.items linkAttributes.theStrings =
      [("type".toList, "stub-transit".toList)] := rfl
  have hplain : linkAttributes.Plain := by
    constructor
    · rw [hints, List.forall_mem_singleton]
      exact ⟨⟨by decide, by decide⟩, by decide, by decide, by decide, by decide⟩
    · rw [hdoubles, List.forall_mem_singleton]
      exact ⟨⟨by decide, by decide⟩, by decide, by decide⟩
    · rw [hstrings, List.forall_mem_singleton]
      exact ⟨⟨by decide, by decide⟩, by decide⟩
  have hprint : linkAttributes.Printable wholeDoubles := by
    constructor
    · rw [hints, List.forall_mem_singleton]
      decide
    · rw [hdoubles, List.forall_mem_singleton]
      exact ⟨by rintro c ⟨⟩; decide, by decide, by decide, by decide, by decide⟩
    · rw [hstrings, List.forall_mem_singleton]
      decide
  exact addAttributes_write (sortedTypes_lawful ℤ) hplain hprint

end Text

end Modelnet.Tools.Gml

import Mathlib.Data.Char
import Mathlib.Data.List.Lex
import Modelnet.Lib.SortedMap
import Modelnet.Lib.Xml
import Mathlib.Algebra.Group.Int.Defs
import Mathlib.Algebra.Group.Nat.Defs

/-!
# Topology files

`mngraph.cpp` writes a graph as XML and reads it again with a SAX handler. Vertices, edges and specs
carry attributes of three types; the type of an integer or a double is a prefix of its name in the
file. The writer puts strings between quotes as they are. The handler puts a vertex at the index in
the file and an edge at the end, and takes every element inside `specs` for the attributes of a
label. Adjacency lists follow from the edges in their order and are left out.
-/

namespace Modelnet.Tools

/-! ## Strings and numbers -/

/-- A byte of a C++ string, as the character that it is in ISO-8859-1. -/
abbrev Latin1 : Type := {c : Char // c.toNat < 256}

/-- `string`. -/
abbrev Str : Type := List Latin1

/-- The characters that a string is in the file. -/
def text (s : Str) : List Char := s.map Subtype.val

/-- An `int` or the index of an iterator, as `<<` writes it. -/
def printInt (i : ℤ) : List Char :=
  if i < 0 then '-' :: Nat.toDigits 10 i.natAbs else Nat.toDigits 10 i.natAbs

def isspace (c : Char) : Bool := c = ' ' || (9 ≤ c.toNat && c.toNat ≤ 13)

/-- `strtol(s,0,10)`, with a `long` of 32 bits. -/
def strtol (s : List Char) : ℤ :=
  let number (digits : List Char) : ℕ := Nat.ofDigitChars 10 (digits.takeWhile Char.isDigit) 0
  match s.dropWhile isspace with
  | '-' :: rest => max (-number rest) (-2 ^ 31)
  | '+' :: rest => min (number rest) (2 ^ 31 - 1)
  | rest => min (number rest) (2 ^ 31 - 1)

/-- A character of a number. -/
def isNumeral (c : Char) : Bool := c.isAlphanum || c = '+' || c = '-' || c = '.'

/-- What comes from outside: how doubles are written and read, what the parser demands of names with
a prefix, and the byte that the native code page has for a character that is not in ISO-8859-1. -/
structure Platform (D : Type) where
  print : D → List Char
  strtod : List Char → D
  strtod_print : ∀ d, strtod (print d) = d
  print_numeral : ∀ d, ∀ c ∈ print d, isNumeral c
  namespaces : Xml.NamespaceRules
  substitute : Char → Latin1

variable {D : Type}

/-! ## The graph -/

structure AttributeMap (D : Type) where
  myStrings : SortedMap Str Str
  myInts : SortedMap Str Int32
  myDoubles : SortedMap Str D
  deriving DecidableEq

namespace AttributeMap

/-- No attributes. -/
instance : EmptyCollection (AttributeMap D) := ⟨⟨∅, ∅, ∅⟩⟩

def setString (am : AttributeMap D) (key s : Str) : AttributeMap D :=
  { am with myStrings := am.myStrings.insert key s }

def setInteger (am : AttributeMap D) (key : Str) (i : Int32) : AttributeMap D :=
  { am with myInts := am.myInts.insert key i }

def setDouble (am : AttributeMap D) (key : Str) (d : D) : AttributeMap D :=
  { am with myDoubles := am.myDoubles.insert key d }

def keys (am : AttributeMap D) : List Str :=
  am.myStrings.entries.map Prod.fst ++ am.myInts.entries.map Prod.fst ++
    am.myDoubles.entries.map Prod.fst

end AttributeMap

/-- An edge, with the indices of its ends. -/
structure Edge (D : Type) where
  source : ℕ
  target : ℕ
  attr : AttributeMap D
  deriving DecidableEq

/-- The members of an `MNGraph`. -/
@[ext] structure GraphData (D : Type) where
  myVertices : List (AttributeMap D)
  myEdges : List (Edge D)
  mySpecs : SortedMap Str (AttributeMap D)
  deriving DecidableEq

namespace GraphData

/-- `MNGraph()`. -/
instance : EmptyCollection (GraphData D) := ⟨⟨[], [], ∅⟩⟩

def addVertex (g : GraphData D) : GraphData D := { g with myVertices := g.myVertices ++ [∅] }

def addEdge (g : GraphData D) (src target : ℕ) : GraphData D :=
  { g with myEdges := g.myEdges ++ [⟨src, target, ∅⟩] }

/-- The ends of the edges are vertices, and all indices are an `int`. -/
structure Built (g : GraphData D) : Prop where
  source_lt : ∀ e ∈ g.myEdges, e.source < g.myVertices.length
  target_lt : ∀ e ∈ g.myEdges, e.target < g.myVertices.length
  vertices_lt : g.myVertices.length < 2 ^ 31
  edges_lt : g.myEdges.length < 2 ^ 31

theorem Built.addVertex {g : GraphData D} (hg : g.Built) (h : g.myVertices.length + 1 < 2 ^ 31) :
    g.addVertex.Built := by
  refine ⟨fun e he => ?_, fun e he => ?_, ?_, hg.edges_lt⟩
  · have := hg.source_lt e he
    simp [GraphData.addVertex]
    omega
  · have := hg.target_lt e he
    simp [GraphData.addVertex]
    omega
  · simpa [GraphData.addVertex] using h

theorem Built.addEdge {g : GraphData D} (hg : g.Built) {src target : ℕ}
    (hsrc : src < g.myVertices.length) (htarget : target < g.myVertices.length)
    (h : g.myEdges.length + 1 < 2 ^ 31) : (g.addEdge src target).Built := by
  refine ⟨fun e he => ?_, fun e he => ?_, hg.vertices_lt, by simpa [GraphData.addEdge] using h⟩ <;>
    rcases List.mem_append.mp he with he | he
  · exact hg.source_lt e he
  · rw [List.mem_singleton.mp he]
    exact hsrc
  · exact hg.target_lt e he
  · rw [List.mem_singleton.mp he]
    exact htarget

end GraphData

/-- `MNGraph`: what `addVertex` and `addEdge` can build. -/
structure MNGraph (D : Type) extends GraphData D where
  built : toGraphData.Built

/-! ## The writer -/

def printAttrib (pre : String) (name : Str) (val : List Char) : List Char :=
  pre.toList ++ text name ++ "= \"".toList ++ val ++ "\" ".toList

def printAttribs (p : Platform D) (am : AttributeMap D) : List Char :=
  (am.myStrings.entries.flatMap fun e => printAttrib "" e.1 (text e.2)) ++
    (am.myInts.entries.flatMap fun e => printAttrib "int_" e.1 (printInt e.2.toInt)) ++
    am.myDoubles.entries.flatMap fun e => printAttrib "dbl_" e.1 (p.print e.2)

def printEdge (p : Platform D) (e : Edge D) (index : ℕ) : List Char :=
  "\t\t<edge int_src=\"".toList ++ printInt e.source ++ "\" int_dst=\"".toList ++
    printInt e.target ++ "\" int_idx=\"".toList ++ printInt index ++ "\" ".toList ++
    printAttribs p e.attr ++ "/>\n".toList

def printVertex (p : Platform D) (am : AttributeMap D) (index : ℕ) : List Char :=
  "\t\t<vertex int_idx=\"".toList ++ printInt index ++ "\" ".toList ++ printAttribs p am ++
    "/>\n".toList

def printSpecs (p : Platform D) (label : Str) (am : AttributeMap D) : List Char :=
  "\t\t<".toList ++ text label ++ " ".toList ++ printAttribs p am ++ " />\n".toList

def writeGraphXML (p : Platform D) (g : GraphData D) : List Char :=
  "<?xml version=\"1.0\" encoding=\"ISO-8859-1\"?>\n".toList ++ "<topology>\n".toList ++
    "\t<vertices>\n".toList ++
    (g.myVertices.zipIdx.flatMap fun v => printVertex p v.1 v.2) ++
    "\t</vertices>\n".toList ++ "\t<edges>\n".toList ++
    (g.myEdges.zipIdx.flatMap fun e => printEdge p e.1 e.2) ++
    "\t</edges>\n".toList ++ "\t<specs>\n".toList ++
    (g.mySpecs.entries.flatMap fun s => printSpecs p s.1 s.2) ++
    "\t</specs>\n".toList ++ "</topology>\n".toList

/-! ## The reader -/

/-- `XMLString::transcode`, to a code page of one byte a character that extends ISO-8859-1. -/
def transcode (p : Platform D) (s : List Char) : Str :=
  s.map fun c => if h : c.toNat < 256 then ⟨c, h⟩ else p.substitute c

def addAttribute (p : Platform D) (name val : Str) (am : AttributeMap D) : AttributeMap D :=
  if (text name).take 4 = "int_".toList then
    am.setInteger (name.drop 4) (Int32.ofInt (strtol (text val)))
  else if (text name).take 4 = "dbl_".toList then
    am.setDouble (name.drop 4) (p.strtod (text val))
  else am.setString name val

structure MNGraphHandler (D : Type) where
  myGraph : GraphData D
  inSpecs : Bool

namespace MNGraphHandler

/-- `addSpecs`. The label gets its map with its first attribute. -/
def addSpecs (p : Platform D) (h : MNGraphHandler D) (label : Str) (attrs : List Xml.Attr) :
    MNGraphHandler D :=
  attrs.foldl (fun h a =>
    let specs := h.myGraph.mySpecs
    let am := addAttribute p (transcode p a.name) (transcode p a.value)
      ((specs.find? label).getD ∅)
    { h with myGraph := { h.myGraph with mySpecs := specs.insert label am } }) h

/-- `while (myGraph.vertexCount() <= idx) myGraph.addVertex();` -/
def grow (vs : List (AttributeMap D)) (idx : ℕ) : List (AttributeMap D) :=
  vs ++ List.replicate (idx + 1 - vs.length) ∅

/-- An attribute of a vertex: its index, or one of its map. -/
def vertexAttr (p : Platform D) (s : Int32 × AttributeMap D) (a : Xml.Attr) :
    Int32 × AttributeMap D :=
  let name := transcode p a.name
  let val := transcode p a.value
  if text name = "int_idx".toList then (Int32.ofInt (strtol (text val)), s.2)
  else (s.1, addAttribute p name val s.2)

/-- `addVertex`. It throws without an index; with another negative index it writes outside the
vector, and with `INT_MAX` the count never gets there. -/
def addVertex (p : Platform D) (h : MNGraphHandler D) (attrs : List Xml.Attr) :
    Option (MNGraphHandler D) :=
  let (idx, am) := attrs.foldl (vertexAttr p) (-1, ∅)
  if idx.toInt < 0 ∨ idx.toInt = 2 ^ 31 - 1 then none
  else
    let vs := (grow h.myGraph.myVertices idx.toInt.toNat).set idx.toInt.toNat am
    some { h with myGraph := { h.myGraph with myVertices := vs } }

/-- An attribute of an edge: its source, its target, its index, which is not used, or one of its
map. -/
def edgeAttr (p : Platform D) (s : Int32 × Int32 × AttributeMap D) (a : Xml.Attr) :
    Int32 × Int32 × AttributeMap D :=
  let name := transcode p a.name
  let val := transcode p a.value
  if text name = "int_src".toList then (Int32.ofInt (strtol (text val)), s.2)
  else if text name = "int_dst".toList then (s.1, Int32.ofInt (strtol (text val)), s.2.2)
  else if text name = "int_idx".toList then s
  else (s.1, s.2.1, addAttribute p name val s.2.2)

/-- `addEdge`. It throws without a source or a target. -/
def addEdge (p : Platform D) (h : MNGraphHandler D) (attrs : List Xml.Attr) :
    Option (MNGraphHandler D) :=
  let (source, target, am) := attrs.foldl (edgeAttr p) (-1, -1, ∅)
  let last := max source.toInt target.toInt
  if source.toInt < 0 ∨ target.toInt < 0 ∨ last = 2 ^ 31 - 1 then none
  else
    let vs := grow h.myGraph.myVertices last.toNat
    let e : Edge D := ⟨source.toInt.toNat, target.toInt.toNat, am⟩
    some { h with
      myGraph := { h.myGraph with myVertices := vs, myEdges := h.myGraph.myEdges ++ [e] } }

def startElement (p : Platform D) (h : MNGraphHandler D) (tag : Xml.Tag) :
    Option (MNGraphHandler D) :=
  let label := transcode p tag.name
  if h.inSpecs then some (h.addSpecs p label tag.attrs)
  else if text label = "vertex".toList then h.addVertex p tag.attrs
  else if text label = "edge".toList then h.addEdge p tag.attrs
  else if text label = "specs".toList then some { h with inSpecs := true }
  else some h

def endElement (p : Platform D) (h : MNGraphHandler D) (name : List Char) : MNGraphHandler D :=
  if h.inSpecs ∧ text (transcode p name) = "specs".toList then { h with inSpecs := false } else h

/-- An event of the parser; `none` where an exception ends the run. -/
def handle (p : Platform D) (h : MNGraphHandler D) : Xml.Event → Option (MNGraphHandler D)
  | .start tag => h.startElement p tag
  | .stop name => some (h.endElement p name)

end MNGraphHandler

/-- `readGraphXML` into an empty graph; `none` where it does not return `true`. There is no document
type, so nothing is fatal but what is not well-formed. -/
def readGraphXML (p : Platform D) (file : List Char) : Option (GraphData D) := do
  let events ← Xml.events p.namespaces file
  let h ← events.foldlM (MNGraphHandler.handle p) ⟨∅, false⟩
  some h.myGraph

end Modelnet.Tools

import Mathlib.Data.List.TakeWhile
import Modelnet.Lib.XmlValues
import Modelnet.Tools.Mngraph

/-!
# The text of a topology

The file that `writeGraphXML` puts out is a list of elements in each of three parents
(`writeGraphXML_eq`). Names and numbers are read as they were written, so all that can go wrong in
an element is in its strings, and all that can go wrong in a string is `<`, `&`, quotes and control
characters.
-/

namespace Modelnet.Tools

variable {D : Type} {p : Platform D}

/-! ## Numbers -/

theorem ofDigitChars_takeWhile (n : ℕ) :
    Nat.ofDigitChars 10 ((Nat.toDigits 10 n).takeWhile Char.isDigit) 0 = n := by
  have hdigit : ∀ c ∈ Nat.toDigits 10 n, c.isDigit = true := fun c hc =>
    Nat.isDigit_of_mem_toDigits (by decide) (by decide) hc
  rw [List.takeWhile_eq_self_iff.mpr hdigit, Nat.ofDigitChars_ten_toDigits]

theorem isDigit_iff {c : Char} : c.isDigit ↔ 48 ≤ c.toNat ∧ c.toNat ≤ 57 :=
  Char.isDigit_iff_toNat

theorem isspace_of_isDigit {c : Char} (h : c.isDigit = true) : isspace c = false := by
  have hc := isDigit_iff.mp h
  have hne : c ≠ ' ' := by rintro rfl; exact absurd h (by decide)
  simp [isspace, hne]
  omega

/-- **An `int` is read as it was written.** -/
theorem strtol_printInt {i : ℤ} (hlo : -2 ^ 31 ≤ i) (hhi : i < 2 ^ 31) : strtol (printInt i) = i := by
  unfold printInt
  split_ifs with hneg
  · have hspace : isspace '-' = false := by decide
    simp only [strtol, List.dropWhile_cons, hspace, Bool.false_eq_true, if_false,
      ofDigitChars_takeWhile]
    omega
  · -- the first digit is neither white space nor a sign
    obtain ⟨c, cs, hcs⟩ := List.exists_cons_of_ne_nil (Nat.toDigits_ne_nil (n := i.natAbs) (b := 10))
    have hdigit : c.isDigit = true :=
      Nat.isDigit_of_mem_toDigits (by decide) (by decide) (hcs ▸ List.mem_cons_self)
    have hspace := isspace_of_isDigit hdigit
    have hminus : c ≠ '-' := by rintro rfl; exact absurd hdigit (by decide)
    have hplus : c ≠ '+' := by rintro rfl; exact absurd hdigit (by decide)
    have hvalue := ofDigitChars_takeWhile i.natAbs
    rw [hcs] at hvalue ⊢
    simp only [strtol, List.dropWhile_cons, hspace, Bool.false_eq_true, if_false]
    split
    · next h => exact absurd (List.cons.inj h).1 hminus
    · next h => exact absurd (List.cons.inj h).1 hplus
    · rw [hvalue]
      omega

theorem isNumeral_printInt (i : ℤ) : ∀ c ∈ printInt i, isNumeral c := by
  have hdigits : ∀ c ∈ Nat.toDigits 10 i.natAbs, isNumeral c := fun c hc => by
    have hdigit := Nat.isDigit_of_mem_toDigits (by decide) (by decide) hc
    simp [isNumeral, Char.isAlphanum, hdigit]
  unfold printInt
  split_ifs
  · exact fun c hc => (List.mem_cons.mp hc).elim (fun h => by rw [h]; decide) (hdigits c)
  · exact hdigits

theorem toNat_of_isNumeral {c : Char} (h : isNumeral c) : 43 ≤ c.toNat ∧ c.toNat < 123 := by
  have hval : c.val.toNat = c.toNat := rfl
  simp only [isNumeral, Char.isAlphanum, Xml.isAlpha_iff, Char.isDigit, ge_iff_le,
    UInt32.le_iff_toNat_le, Bool.or_eq_true, Bool.and_eq_true, decide_eq_true_eq, hval,
    ← Char.toNat_inj, Char.reduceVal, UInt32.reduceToNat, Char.reduceToNat] at h
  omega

/-! ## Characters -/

/-- A character that comes back from a value between quotes. -/
def Survives (c : Char) : Prop := Xml.isPlain c ∧ c ≠ Char.ofNat 34

theorem survives_of_isNumeral {c : Char} (h : isNumeral c) : Survives c := by
  have hc := toNat_of_isNumeral h
  have hne {d : Char} (hd : isNumeral d = false) : c ≠ d := by
    rintro rfl
    rw [h] at hd
    exact absurd hd (by decide)
  exact ⟨Xml.isPlain_iff.mpr ⟨Xml.isChar_of_toNat (by omega) (by omega) (by omega), hne (by decide),
    hne (by decide), hne (by decide), hne (by decide), hne (by decide)⟩, hne (by decide)⟩

theorem survives_printInt (i : ℤ) : ∀ c ∈ printInt i, Survives c := fun c hc =>
  survives_of_isNumeral (isNumeral_printInt i c hc)

theorem survives_print (d : D) : ∀ c ∈ p.print d, Survives c := fun c hc =>
  survives_of_isNumeral (p.print_numeral d c hc)

theorem text_injective : Function.Injective text := List.map_injective_iff.mpr Subtype.val_injective

@[simp] theorem transcode_text (s : Str) : transcode p (text s) = s := by
  unfold transcode text
  rw [List.map_map]
  conv_rhs => rw [← List.map_id s]
  exact List.map_congr_left fun c _ => by simp [c.2]

@[simp] theorem transcode_append (a b : List Char) :
    transcode p (a ++ b) = transcode p a ++ transcode p b := List.map_append

/-- All characters are in ISO-8859-1. -/
def IsLatin (cs : List Char) : Prop := ∀ c ∈ cs, c.toNat < 256

instance : DecidablePred IsLatin := fun cs => List.decidableBAll (fun c : Char => c.toNat < 256) cs

theorem text_transcode {cs : List Char} (h : IsLatin cs) :
    text (transcode p cs) = cs := by
  unfold transcode text
  rw [List.map_map]
  conv_rhs => rw [← List.map_id cs]
  exact List.map_congr_left fun c hc => by simp [h c hc]

theorem toNat_of_mem_text {s : Str} {c : Char} (h : c ∈ text s) : c.toNat < 256 := by
  obtain ⟨d, -, rfl⟩ := List.mem_map.mp h
  exact d.2

theorem text_transcode_numeral {cs : List Char} (h : ∀ c ∈ cs, isNumeral c) :
    text (transcode p cs) = cs :=
  text_transcode fun c hc => by
    have := toNat_of_isNumeral (h c hc)
    omega

/-! ## Elements -/

def attribItem (pre : String) (name : Str) (val : List Char) : Xml.Item :=
  ⟨[' '], ⟨pre.toList ++ text name, val⟩⟩

def attribItems (p : Platform D) (am : AttributeMap D) : List Xml.Item :=
  (am.myStrings.entries.map fun e => attribItem "" e.1 (text e.2)) ++
    (am.myInts.entries.map fun e => attribItem "int_" e.1 (printInt e.2.toInt)) ++
    am.myDoubles.entries.map fun e => attribItem "dbl_" e.1 (p.print e.2)

/-- An index, which is written without white space before the value. -/
def indexItem (name : String) (i : ℕ) : Xml.Item := ⟨[], ⟨name.toList, printInt i⟩⟩

def vertexElem (p : Platform D) (am : AttributeMap D) (index : ℕ) : Xml.Elem where
  name := "vertex".toList
  fixed := [indexItem "int_idx" index]
  items := attribItems p am
  tail := "/>\n".toList

def edgeElem (p : Platform D) (e : Edge D) (index : ℕ) : Xml.Elem where
  name := "edge".toList
  fixed := [indexItem "int_src" e.source, indexItem "int_dst" e.target, indexItem "int_idx" index]
  items := attribItems p e.attr
  tail := "/>\n".toList

def specsElem (p : Platform D) (label : Str) (am : AttributeMap D) : Xml.Elem where
  name := text label
  fixed := []
  items := attribItems p am
  tail := " />\n".toList

namespace GraphData

def vertexElems (p : Platform D) (g : GraphData D) : List Xml.Elem :=
  g.myVertices.zipIdx.map fun v => vertexElem p v.1 v.2

def edgeElems (p : Platform D) (g : GraphData D) : List Xml.Elem :=
  g.myEdges.zipIdx.map fun e => edgeElem p e.1 e.2

def specsElems (p : Platform D) (g : GraphData D) : List Xml.Elem :=
  g.mySpecs.entries.map fun s => specsElem p s.1 s.2

/-- All elements that have attributes of the graph. -/
def elems (p : Platform D) (g : GraphData D) : List Xml.Elem :=
  g.vertexElems p ++ g.edgeElems p ++ g.specsElems p

def maps (g : GraphData D) : List (AttributeMap D) :=
  g.myVertices ++ g.myEdges.map Edge.attr ++ g.mySpecs.entries.map Prod.snd

end GraphData

theorem printAttrib_eq (pre : String) (name : Str) (val : List Char) :
    printAttrib pre name val = (attribItem pre name val).text := by
  simp [printAttrib, attribItem, Xml.Item.text]

theorem printAttribs_eq (am : AttributeMap D) :
    printAttribs p am = (attribItems p am).flatMap Xml.Item.text := by
  simp [printAttribs, attribItems, printAttrib_eq, List.flatMap_map]

def indent : List Char := "\t\t".toList

theorem printVertex_eq (am : AttributeMap D) (index : ℕ) :
    printVertex p am index = indent ++ (vertexElem p am index).text := by
  have hopen : "\t\t<vertex int_idx=\"".toList =
      indent ++ '<' :: ("vertex".toList ++ ' ' :: ("int_idx".toList ++ ['=', Char.ofNat 34])) := by
    decide
  have hclose : "\" ".toList = [Char.ofNat 34, ' '] := by decide
  unfold printVertex
  simp only [hopen, hclose, printAttribs_eq, vertexElem, Xml.Elem.text, indexItem, Xml.Item.text, List.append_assoc,
    List.cons_append, List.nil_append, List.flatMap_cons, List.flatMap_nil]

theorem printEdge_eq (e : Edge D) (index : ℕ) :
    printEdge p e index = indent ++ (edgeElem p e index).text := by
  have hopen : "\t\t<edge int_src=\"".toList =
      indent ++ '<' :: ("edge".toList ++ ' ' :: ("int_src".toList ++ ['=', Char.ofNat 34])) := by
    decide
  have hdst : "\" int_dst=\"".toList =
      Char.ofNat 34 :: ' ' :: ("int_dst".toList ++ ['=', Char.ofNat 34]) := by decide
  have hidx : "\" int_idx=\"".toList =
      Char.ofNat 34 :: ' ' :: ("int_idx".toList ++ ['=', Char.ofNat 34]) := by decide
  have hclose : "\" ".toList = [Char.ofNat 34, ' '] := by decide
  unfold printEdge
  simp only [hopen, hdst, hidx, hclose, printAttribs_eq, edgeElem, Xml.Elem.text, indexItem, Xml.Item.text, List.append_assoc,
    List.cons_append, List.nil_append, List.flatMap_cons, List.flatMap_nil]

theorem printSpecs_eq (label : Str) (am : AttributeMap D) :
    printSpecs p label am = indent ++ (specsElem p label am).text := by
  simp [printSpecs, specsElem, Xml.Elem.text, indent, printAttribs_eq]

/-- **The file**: a declaration, and three lists of elements. -/
theorem writeGraphXML_eq (g : GraphData D) :
    writeGraphXML p g = Xml.xmlDecl ++ ("\n<topology>\n\t<vertices>\n".toList ++
      (Xml.elemsText indent (g.vertexElems p) ++ ("\t</vertices>\n\t<edges>\n".toList ++
      (Xml.elemsText indent (g.edgeElems p) ++ ("\t</edges>\n\t<specs>\n".toList ++
      (Xml.elemsText indent (g.specsElems p) ++ "\t</specs>\n</topology>\n".toList)))))) := by
  have hhead : "<?xml version=\"1.0\" encoding=\"ISO-8859-1\"?>\n".toList ++ "<topology>\n".toList ++
      "\t<vertices>\n".toList = Xml.xmlDecl ++ "\n<topology>\n\t<vertices>\n".toList := by decide
  have hedges : "\t</vertices>\n".toList ++ "\t<edges>\n".toList =
      "\t</vertices>\n\t<edges>\n".toList := by decide
  have hspecs : "\t</edges>\n".toList ++ "\t<specs>\n".toList = "\t</edges>\n\t<specs>\n".toList := by
    decide
  have hend : "\t</specs>\n".toList ++ "</topology>\n".toList = "\t</specs>\n</topology>\n".toList := by
    decide
  rw [← hedges, ← hspecs, ← hend]
  unfold writeGraphXML
  rw [hhead]
  simp only [Xml.elemsText, GraphData.vertexElems, GraphData.edgeElems, GraphData.specsElems,
    List.flatMap_map, printVertex_eq, printEdge_eq, printSpecs_eq, List.append_assoc]

/-! ## Names and values -/

/-- A key that can be the name of an attribute of its type, next to the attributes that the writer
adds. -/
structure KeyOk (k : Str) : Prop where
  name : Xml.isName (text k)
  notInt : ¬ "int_".toList <+: text k
  notDbl : ¬ "dbl_".toList <+: text k
  reserved : text k ∉ ["idx".toList, "src".toList, "dst".toList]

/-- All keys of attributes are such. -/
def GraphData.KeysOk (g : GraphData D) : Prop := ∀ am ∈ g.maps, ∀ k ∈ am.keys, KeyOk k

theorem attribItems_cases {am : AttributeMap D} {i : Xml.Item} (hi : i ∈ attribItems p am) :
    (∃ e ∈ am.myStrings.entries, i = attribItem "" e.1 (text e.2)) ∨
      (∃ e ∈ am.myInts.entries, i = attribItem "int_" e.1 (printInt e.2.toInt)) ∨
      ∃ e ∈ am.myDoubles.entries, i = attribItem "dbl_" e.1 (p.print e.2) := by
  rcases List.mem_append.mp hi with hi | hi
  · rcases List.mem_append.mp hi with hi | hi
    · obtain ⟨e, he, rfl⟩ := List.mem_map.mp hi
      exact .inl ⟨e, he, rfl⟩
    · obtain ⟨e, he, rfl⟩ := List.mem_map.mp hi
      exact .inr (.inl ⟨e, he, rfl⟩)
  · obtain ⟨e, he, rfl⟩ := List.mem_map.mp hi
    exact .inr (.inr ⟨e, he, rfl⟩)

theorem mem_keys_of_string {am : AttributeMap D} {e : Str × Str} (he : e ∈ am.myStrings.entries) :
    e.1 ∈ am.keys :=
  List.mem_append_left _ (List.mem_append_left _ (List.mem_map.mpr ⟨e, he, rfl⟩))

theorem mem_keys_of_int {am : AttributeMap D} {e : Str × Int32} (he : e ∈ am.myInts.entries) :
    e.1 ∈ am.keys :=
  List.mem_append_left _ (List.mem_append_right _ (List.mem_map.mpr ⟨e, he, rfl⟩))

theorem mem_keys_of_double {am : AttributeMap D} {e : Str × D} (he : e ∈ am.myDoubles.entries) :
    e.1 ∈ am.keys := List.mem_append_right _ (List.mem_map.mpr ⟨e, he, rfl⟩)

theorem isName_prefixed {pre : String} {k : Str} (hk : KeyOk k)
    (hpre : pre.toList = [] ∨ Xml.isName pre.toList) : Xml.isName (pre.toList ++ text k) := by
  rcases hpre with hpre | hpre
  · rw [hpre]
    exact hk.name
  · exact Xml.isName_append hpre fun c hc => Xml.isNameChar_of_mem hk.name hc

/-- The name of every attribute is a name, and its value is a number or one of the strings. -/
theorem attribItems_name {am : AttributeMap D} (hkeys : ∀ k ∈ am.keys, KeyOk k) {i : Xml.Item}
    (hi : i ∈ attribItems p am) : Xml.isName i.attr.name ∧ (∀ c ∈ i.space, Xml.isSpace c) ∧
      ((∀ c ∈ i.attr.value, Survives c) ∨
        ∃ e ∈ am.myStrings.entries, i = attribItem "" e.1 (text e.2)) := by
  have hspace : ∀ c ∈ [' '], Xml.isSpace c := List.forall_mem_singleton.mpr (by decide)
  rcases attribItems_cases hi with ⟨e, he, rfl⟩ | ⟨e, he, rfl⟩ | ⟨e, he, rfl⟩
  · exact ⟨isName_prefixed (hkeys _ (mem_keys_of_string he)) (.inl (by decide)), hspace,
      .inr ⟨e, he, rfl⟩⟩
  · exact ⟨isName_prefixed (hkeys _ (mem_keys_of_int he)) (.inr (by decide)), hspace,
      .inl (survives_printInt _)⟩
  · exact ⟨isName_prefixed (hkeys _ (mem_keys_of_double he)) (.inr (by decide)), hspace,
      .inl (survives_print _)⟩

/-- No markup, references or control characters in the strings. -/
def PlainStrings (am : AttributeMap D) : Prop :=
  ∀ e ∈ am.myStrings.entries, ∀ c ∈ text e.2, Xml.isPlain c

theorem attribItems_ok {am : AttributeMap D} (hkeys : ∀ k ∈ am.keys, KeyOk k)
    (hplain : PlainStrings am) : ∀ i ∈ attribItems p am, i.Ok := by
  intro i hi
  obtain ⟨hname, hspace, hvalue⟩ := attribItems_name hkeys hi
  refine ⟨hname, hspace, fun c hc => ?_⟩
  rcases hvalue with hvalue | ⟨e, he, rfl⟩
  · exact (hvalue c hc).1
  · exact hplain e he c hc

theorem indexItem_ok {name : String} (h : Xml.isName name.toList) (i : ℕ) : (indexItem name i).Ok :=
  ⟨h, fun _ hc => absurd hc List.not_mem_nil, fun c hc => (survives_printInt (i : ℤ) c hc).1⟩

theorem quot_indexItem (name : String) (i : ℕ) : Char.ofNat 34 ∉ (indexItem name i).attr.value :=
  fun h => (survives_printInt (i : ℤ) _ h).2 rfl

theorem vertexElem_ok {am : AttributeMap D} (hkeys : ∀ k ∈ am.keys, KeyOk k)
    (hplain : PlainStrings am) (index : ℕ) : (vertexElem p am index).Ok where
  name := show Xml.isName "vertex".toList by decide
  fixed i hi := by
    rw [List.mem_singleton.mp hi]
    exact indexItem_ok (by decide) index
  items := attribItems_ok hkeys hplain
  quot i hi := by
    rw [List.mem_singleton.mp hi]
    exact quot_indexItem _ _
  tail := show '<' ∉ "/>\n".toList ∧ '&' ∉ "/>\n".toList by decide

theorem edgeElem_ok {e : Edge D} (hkeys : ∀ k ∈ e.attr.keys, KeyOk k)
    (hplain : PlainStrings e.attr) (index : ℕ) : (edgeElem p e index).Ok where
  name := show Xml.isName "edge".toList by decide
  fixed i hi := by
    simp only [edgeElem, List.mem_cons, List.not_mem_nil, or_false] at hi
    rcases hi with rfl | rfl | rfl <;> exact indexItem_ok (by decide) _
  items := attribItems_ok hkeys hplain
  quot i hi := by
    simp only [edgeElem, List.mem_cons, List.not_mem_nil, or_false] at hi
    rcases hi with rfl | rfl | rfl <;> exact quot_indexItem _ _
  tail := show '<' ∉ "/>\n".toList ∧ '&' ∉ "/>\n".toList by decide

theorem specsElem_ok {label : Str} (hlabel : Xml.isName (text label)) {am : AttributeMap D}
    (hkeys : ∀ k ∈ am.keys, KeyOk k) (hplain : PlainStrings am) : (specsElem p label am).Ok where
  name := hlabel
  fixed i hi := absurd hi List.not_mem_nil
  items := attribItems_ok hkeys hplain
  quot i hi := absurd hi List.not_mem_nil
  tail := show '<' ∉ " />\n".toList ∧ '&' ∉ " />\n".toList by decide

namespace GraphData

variable {g : GraphData D}

theorem mem_maps_of_vertex {am : AttributeMap D} (h : am ∈ g.myVertices) : am ∈ g.maps :=
  List.mem_append_left _ (List.mem_append_left _ h)

theorem mem_maps_of_edge {e : Edge D} (h : e ∈ g.myEdges) : e.attr ∈ g.maps :=
  List.mem_append_left _ (List.mem_append_right _ (List.mem_map.mpr ⟨e, h, rfl⟩))

theorem mem_maps_of_specs {s : Str × AttributeMap D} (h : s ∈ g.mySpecs.entries) : s.2 ∈ g.maps :=
  List.mem_append_right _ (List.mem_map.mpr ⟨s, h, rfl⟩)

/-- All labels of specs are names. -/
def LabelsOk (g : GraphData D) : Prop := ∀ s ∈ g.mySpecs.entries, Xml.isName (text s.1)

/-- Every element of the file is one of a vertex, an edge or a label. -/
theorem elems_cases {q : Xml.Elem → Prop} (hvertex : ∀ am ∈ g.myVertices, ∀ i, q (vertexElem p am i))
    (hedge : ∀ e ∈ g.myEdges, ∀ i, q (edgeElem p e i))
    (hspecs : ∀ s ∈ g.mySpecs.entries, q (specsElem p s.1 s.2)) : ∀ e ∈ g.elems p, q e := by
  intro e he
  rcases List.mem_append.mp he with he | he
  · rcases List.mem_append.mp he with he | he
    · obtain ⟨v, hv, rfl⟩ := List.mem_map.mp he
      exact hvertex v.1 (List.fst_mem_of_mem_zipIdx hv) v.2
    · obtain ⟨d, hd, rfl⟩ := List.mem_map.mp he
      exact hedge d.1 (List.fst_mem_of_mem_zipIdx hd) d.2
  · obtain ⟨s, hs, rfl⟩ := List.mem_map.mp he
    exact hspecs s hs

theorem elems_ok (hkeys : g.KeysOk) (hlabels : g.LabelsOk) (hplain : ∀ am ∈ g.maps, PlainStrings am) :
    ∀ e ∈ g.elems p, e.Ok :=
  elems_cases
    (fun am ham i => vertexElem_ok (hkeys am (mem_maps_of_vertex ham))
      (hplain am (mem_maps_of_vertex ham)) i)
    (fun _ he i => edgeElem_ok (hkeys _ (mem_maps_of_edge he)) (hplain _ (mem_maps_of_edge he)) i)
    (fun s hs => specsElem_ok (hlabels s hs) (hkeys _ (mem_maps_of_specs hs))
      (hplain _ (mem_maps_of_specs hs)))

/-- The strings of the graph, as they stand in the file. -/
def values (g : GraphData D) : List (List Char) :=
  g.maps.flatMap fun am => am.myStrings.entries.map fun e => text e.2

theorem mem_values {am : AttributeMap D} (ham : am ∈ g.maps) {e : Str × Str}
    (he : e ∈ am.myStrings.entries) : text e.2 ∈ g.values :=
  List.mem_flatMap.mpr ⟨am, ham, List.mem_map.mpr ⟨e, he, rfl⟩⟩

theorem known_attribItems (hkeys : g.KeysOk) {am : AttributeMap D} (ham : am ∈ g.maps) :
    ∀ i ∈ attribItems p am, i.Known g.values := by
  intro i hi
  obtain ⟨hname, hspace, hvalue⟩ := attribItems_name (hkeys am ham) hi
  refine ⟨hname, hspace, ?_⟩
  rcases hvalue with hvalue | ⟨e, he, rfl⟩
  · exact .inl fun hamp => (Xml.isPlain_iff.mp (hvalue _ hamp).1).2.2.1 rfl
  · exact .inr (mem_values ham he)

theorem known_indexItem {name : String} (h : Xml.isName name.toList) (i : ℕ) :
    (indexItem name i).Known g.values :=
  ⟨h, fun _ hc => absurd hc List.not_mem_nil, .inl fun hamp =>
    (Xml.isPlain_iff.mp (survives_printInt (i : ℤ) _ hamp).1).2.2.1 rfl⟩

theorem refsWithin_writeGraphXML (hkeys : g.KeysOk) (hlabels : g.LabelsOk) :
    Xml.RefsWithin g.values (writeGraphXML p g) := by
  have helems : ∀ e ∈ g.elems p, Xml.isName e.name ∧ (∀ i ∈ e.fixed, i.Known g.values) ∧
      (∀ i ∈ e.items, i.Known g.values) ∧ '&' ∉ e.tail := by
    refine elems_cases (fun am ham i => ?_) (fun e he i => ?_) (fun s hs => ?_)
    · refine ⟨show Xml.isName "vertex".toList by decide, fun j hj => ?_,
        known_attribItems hkeys (mem_maps_of_vertex ham), show '&' ∉ "/>\n".toList by decide⟩
      rw [List.mem_singleton.mp hj]
      exact known_indexItem (by decide) i
    · refine ⟨show Xml.isName "edge".toList by decide, fun j hj => ?_,
        known_attribItems hkeys (mem_maps_of_edge he), show '&' ∉ "/>\n".toList by decide⟩
      simp only [edgeElem, List.mem_cons, List.not_mem_nil, or_false] at hj
      rcases hj with rfl | rfl | rfl <;> exact known_indexItem (by decide) _
    · exact ⟨hlabels s hs, fun j hj => absurd hj List.not_mem_nil,
        known_attribItems hkeys (mem_maps_of_specs hs), show '&' ∉ " />\n".toList by decide⟩
  have hindent : '&' ∉ indent := by decide
  rw [writeGraphXML_eq]
  refine .append_left (by decide) (.append_left (by decide) (.elems hindent (fun e he => ?_)
    (.append_left (by decide) (.elems hindent (fun e he => ?_) (.append_left (by decide)
      (.elems hindent (fun e he => ?_) (Xml.refsWithin_of_not_mem (by decide))))))))
  · exact helems e (List.mem_append_left _ (List.mem_append_left _ he))
  · exact helems e (List.mem_append_left _ (List.mem_append_right _ he))
  · exact helems e (List.mem_append_right _ he)

end GraphData

/-! ## Encoding -/

theorem isLatin_append {a b : List Char} : IsLatin (a ++ b) ↔ IsLatin a ∧ IsLatin b := by
  simp only [IsLatin, List.mem_append, or_imp, forall_and]

theorem isLatin_flatMap {α : Type} {f : α → List Char} {l : List α} (h : ∀ x, IsLatin (f x)) :
    IsLatin (l.flatMap f) := by
  intro c hc
  obtain ⟨x, -, hx⟩ := List.mem_flatMap.mp hc
  exact h x c hx

theorem isLatin_text (s : Str) : IsLatin (text s) := fun _ hc => toNat_of_mem_text hc

theorem isLatin_of_isNumeral {cs : List Char} (h : ∀ c ∈ cs, isNumeral c) : IsLatin cs :=
  fun c hc => by
    have := toNat_of_isNumeral (h c hc)
    omega

theorem isLatin_printInt (i : ℤ) : IsLatin (printInt i) :=
  isLatin_of_isNumeral (isNumeral_printInt i)

theorem isLatin_printAttrib {pre : String} (hpre : IsLatin pre.toList) (name : Str) {val : List Char}
    (hval : IsLatin val) : IsLatin (printAttrib pre name val) := by
  unfold printAttrib
  simp only [isLatin_append]
  exact ⟨⟨⟨⟨hpre, isLatin_text name⟩, by decide⟩, hval⟩, by decide⟩

theorem isLatin_printAttribs (am : AttributeMap D) : IsLatin (printAttribs p am) := by
  unfold printAttribs
  simp only [isLatin_append]
  refine ⟨⟨isLatin_flatMap fun e => ?_, isLatin_flatMap fun e => ?_⟩, isLatin_flatMap fun e => ?_⟩
  · exact isLatin_printAttrib (by decide) _ (isLatin_text _)
  · exact isLatin_printAttrib (by decide) _ (isLatin_printInt _)
  · exact isLatin_printAttrib (by decide) _ (isLatin_of_isNumeral (p.print_numeral _))

theorem isLatin_printVertex (am : AttributeMap D) (index : ℕ) : IsLatin (printVertex p am index) := by
  unfold printVertex
  simp only [isLatin_append]
  exact ⟨⟨⟨⟨by decide, isLatin_printInt _⟩, by decide⟩, isLatin_printAttribs am⟩, by decide⟩

theorem isLatin_printEdge (e : Edge D) (index : ℕ) : IsLatin (printEdge p e index) := by
  unfold printEdge
  simp only [isLatin_append]
  exact ⟨⟨⟨⟨⟨⟨⟨⟨by decide, isLatin_printInt _⟩, by decide⟩, isLatin_printInt _⟩, by decide⟩,
    isLatin_printInt _⟩, by decide⟩, isLatin_printAttribs e.attr⟩, by decide⟩

theorem isLatin_printSpecs (label : Str) (am : AttributeMap D) : IsLatin (printSpecs p label am) := by
  unfold printSpecs
  simp only [isLatin_append]
  exact ⟨⟨⟨⟨by decide, isLatin_text label⟩, by decide⟩, isLatin_printAttribs am⟩, by decide⟩

theorem isLatin_writeGraphXML (g : GraphData D) : IsLatin (writeGraphXML p g) := by
  have hvertices := isLatin_flatMap (l := g.myVertices.zipIdx)
    fun v => isLatin_printVertex (p := p) v.1 v.2
  have hedges := isLatin_flatMap (l := g.myEdges.zipIdx) fun e => isLatin_printEdge (p := p) e.1 e.2
  have hspecs := isLatin_flatMap (l := g.mySpecs.entries)
    fun s => isLatin_printSpecs (p := p) s.1 s.2
  unfold writeGraphXML
  simp only [isLatin_append]
  exact ⟨⟨⟨⟨⟨⟨⟨⟨⟨⟨⟨by decide, by decide⟩, by decide⟩, hvertices⟩, by decide⟩, by decide⟩, hedges⟩,
    by decide⟩, by decide⟩, hspecs⟩, by decide⟩, by decide⟩

end Modelnet.Tools

import Modelnet.Lib.XmlValues
import Modelnet.Tools.GraphText

/-!
# What the handler makes of the elements

Whatever the document is, a string of the graph that is read is the value of an attribute, and a
label is the name of an element (`From.run`). Where the elements begin as the writer begins them,
each vertex and each edge goes to its index; inside `specs` each element goes to its label, until an
element named `specs` ends.
-/

namespace Modelnet.Tools

variable {D : Type} {p : Platform D}

/-! ## Attributes -/

/-- The attributes of an element, added to a map. -/
def attribMap (p : Platform D) (attrs : List Xml.Attr) (am : AttributeMap D) : AttributeMap D :=
  attrs.foldl (fun am a => addAttribute p (transcode p a.name) (transcode p a.value) am) am

@[simp] theorem attribMap_nil (am : AttributeMap D) : attribMap p [] am = am := rfl

@[simp] theorem attribMap_cons (a : Xml.Attr) (attrs : List Xml.Attr) (am : AttributeMap D) :
    attribMap p (a :: attrs) am =
      attribMap p attrs (addAttribute p (transcode p a.name) (transcode p a.value) am) := rfl

theorem attribMap_append (attrs attrs' : List Xml.Attr) (am : AttributeMap D) :
    attribMap p (attrs ++ attrs') am = attribMap p attrs' (attribMap p attrs am) :=
  List.foldl_append

/-- A string is set where the name has no prefix of a type, and nothing else is done to strings. -/
theorem myStrings_addAttribute (name val : Str) (am : AttributeMap D) :
    (addAttribute p name val am).myStrings =
      if "int_".toList <+: text name ∨ "dbl_".toList <+: text name then am.myStrings
      else am.myStrings.insert name val := by
  have htake {pre : List Char} (hlen : pre.length = 4) : (text name).take 4 = pre ↔ pre <+: text name := by
    rw [List.prefix_iff_eq_take, hlen, eq_comm]
  unfold addAttribute
  by_cases hint : "int_".toList <+: text name
  · rw [if_pos ((htake (by decide)).mpr hint), if_pos (.inl hint)]
    rfl
  · rw [if_neg (mt (htake (by decide)).mp hint)]
    by_cases hdbl : "dbl_".toList <+: text name
    · rw [if_pos ((htake (by decide)).mpr hdbl), if_pos (.inr hdbl)]
      rfl
    · rw [if_neg (mt (htake (by decide)).mp hdbl), if_neg (not_or.mpr ⟨hint, hdbl⟩)]
      rfl

/-- An attribute that no other one follows under its name is there at the end. -/
theorem find?_attribMap_of_not_mem {attrs : List Xml.Attr} {k : Str}
    (h : k ∉ attrs.map fun a => transcode p a.name) (am : AttributeMap D) :
    (attribMap p attrs am).myStrings.find? k = am.myStrings.find? k := by
  induction attrs generalizing am with
  | nil => rfl
  | cons a attrs ih =>
    rw [List.map_cons, List.mem_cons, not_or] at h
    rw [attribMap_cons, ih h.2, myStrings_addAttribute]
    split_ifs
    · rfl
    · exact SortedMap.find?_insert_of_ne _ _ h.1

theorem find?_attribMap {attrs : List Xml.Attr} {a : Xml.Attr} {k : Str}
    (hnodup : (attrs.map fun a => transcode p a.name).Nodup) (ha : a ∈ attrs)
    (hname : a.name = text k) (hk : KeyOk k) (am : AttributeMap D) :
    (attribMap p attrs am).myStrings.find? k = some (transcode p a.value) := by
  induction attrs generalizing am with
  | nil => exact absurd ha List.not_mem_nil
  | cons b attrs ih =>
    rw [List.map_cons, List.nodup_cons] at hnodup
    rw [attribMap_cons]
    rcases List.mem_cons.mp ha with rfl | ha
    · have hkey : transcode p a.name = k := by rw [hname, transcode_text]
      rw [hkey] at hnodup ⊢
      rw [find?_attribMap_of_not_mem hnodup.1, myStrings_addAttribute,
        if_neg (not_or.mpr ⟨hk.notInt, hk.notDbl⟩), SortedMap.find?_insert_self]
    · exact ih hnodup.2 ha _

/-! ## Where strings and labels come from -/

/-- The strings of a map are values of attributes. -/
def StringsFrom (p : Platform D) (tags : List Xml.Tag) (am : AttributeMap D) : Prop :=
  ∀ e ∈ am.myStrings.entries, ∃ t ∈ tags, ∃ a ∈ t.attrs, transcode p a.value = e.2

/-- The strings of a graph are values of attributes, and its labels are names of elements. -/
structure From (p : Platform D) (tags : List Xml.Tag) (g : GraphData D) : Prop where
  strings : ∀ am ∈ g.maps, StringsFrom p tags am
  labels : ∀ s ∈ g.mySpecs.entries, ∃ t ∈ tags, transcode p t.name = s.1

theorem stringsFrom_empty (tags : List Xml.Tag) : StringsFrom p tags ∅ :=
  fun _ he => absurd he List.not_mem_nil

theorem StringsFrom.mono {tags : List Xml.Tag} {am : AttributeMap D} (h : StringsFrom p tags am)
    (more : List Xml.Tag) : StringsFrom p (tags ++ more) am := by
  intro e he
  obtain ⟨t, ht, a, ha, hval⟩ := h e he
  exact ⟨t, List.mem_append_left _ ht, a, ha, hval⟩

theorem StringsFrom.addAttribute {tags : List Xml.Tag} {am : AttributeMap D}
    (h : StringsFrom p tags am) {t : Xml.Tag} (ht : t ∈ tags) {a : Xml.Attr} (ha : a ∈ t.attrs) :
    StringsFrom p tags (addAttribute p (transcode p a.name) (transcode p a.value) am) := by
  intro e he
  rw [myStrings_addAttribute] at he
  split_ifs at he
  · exact h e he
  · rcases SortedMap.mem_insert.mp he with rfl | ⟨he, -⟩
    · exact ⟨t, ht, a, ha, rfl⟩
    · exact h e he

theorem mem_maps {g : GraphData D} {am : AttributeMap D} : am ∈ g.maps ↔
    am ∈ g.myVertices ∨ (∃ e ∈ g.myEdges, e.attr = am) ∨ ∃ s ∈ g.mySpecs.entries, s.2 = am := by
  simp only [GraphData.maps, List.mem_append, List.mem_map, or_assoc]

theorem From.mono {tags : List Xml.Tag} {g : GraphData D} (h : From p tags g)
    (more : List Xml.Tag) : From p (tags ++ more) g := by
  refine ⟨fun am ham => (h.strings am ham).mono more, fun s hs => ?_⟩
  obtain ⟨t, ht, hname⟩ := h.labels s hs
  exact ⟨t, List.mem_append_left _ ht, hname⟩

/-- A fold over the attributes of a tag that adds some of them to a map keeps where strings are
from. -/
theorem stringsFrom_foldl {σ : Type} {f : σ → Xml.Attr → σ} (am : σ → AttributeMap D)
    (hf : ∀ (s : σ) (a : Xml.Attr), am (f s a) = am s ∨
      am (f s a) = Tools.addAttribute p (transcode p a.name) (transcode p a.value) (am s))
    {tags : List Xml.Tag} {t : Xml.Tag} (ht : t ∈ tags) (attrs : List Xml.Attr)
    (hattrs : attrs ⊆ t.attrs) {s : σ} (hs : StringsFrom p tags (am s)) :
    StringsFrom p tags (am (attrs.foldl f s)) := by
  induction attrs generalizing s with
  | nil => exact hs
  | cons a attrs ih =>
    obtain ⟨ha, hattrs⟩ := List.cons_subset.mp hattrs
    refine ih hattrs ?_
    rcases hf s a with h | h <;> rw [h]
    · exact hs
    · exact hs.addAttribute ht ha

namespace MNGraphHandler

theorem mem_grow {vs : List (AttributeMap D)} {idx : ℕ} {am : AttributeMap D}
    (h : am ∈ grow vs idx) : am ∈ vs ∨ am = ∅ :=
  (List.mem_append.mp h).imp_right List.eq_of_mem_replicate

theorem from_addVertex {tags : List Xml.Tag} {h h' : MNGraphHandler D} {t : Xml.Tag}
    (hfrom : From p tags h.myGraph) (ht : t ∈ tags) (hadd : h.addVertex p t.attrs = some h') :
    From p tags h'.myGraph := by
  unfold addVertex at hadd
  split at hadd
  next idx am hfold =>
  split_ifs at hadd with hbad
  obtain rfl := Option.some.inj hadd
  have ham : StringsFrom p tags am := by
    have hstrings := stringsFrom_foldl (p := p) (f := vertexAttr p) Prod.snd (s := (-1, ∅))
      (fun s a => by unfold vertexAttr; dsimp only; split_ifs <;> simp) ht t.attrs
      (List.Subset.refl _) (stringsFrom_empty tags)
    rw [hfold] at hstrings
    exact hstrings
  refine ⟨fun am' ham' => ?_, hfrom.labels⟩
  rcases mem_maps.mp ham' with hv | hrest
  · rcases List.mem_or_eq_of_mem_set hv with hv | rfl
    · rcases mem_grow hv with hv | rfl
      · exact hfrom.strings am' (GraphData.mem_maps_of_vertex hv)
      · exact stringsFrom_empty tags
    · exact ham
  · exact hfrom.strings am' (mem_maps.mpr (.inr hrest))

theorem from_addEdge {tags : List Xml.Tag} {h h' : MNGraphHandler D} {t : Xml.Tag}
    (hfrom : From p tags h.myGraph) (ht : t ∈ tags) (hadd : h.addEdge p t.attrs = some h') :
    From p tags h'.myGraph := by
  unfold addEdge at hadd
  split at hadd
  next source target am hfold =>
  dsimp only at hadd
  split_ifs at hadd with hbad
  obtain rfl := Option.some.inj hadd
  have ham : StringsFrom p tags am := by
    have hstrings := stringsFrom_foldl (p := p) (f := edgeAttr p) (fun s => s.2.2)
      (s := (-1, -1, ∅)) (fun s a => by unfold edgeAttr; dsimp only; split_ifs <;> simp) ht t.attrs
      (List.Subset.refl _) (stringsFrom_empty tags)
    rw [hfold] at hstrings
    exact hstrings
  refine ⟨fun am' ham' => ?_, hfrom.labels⟩
  rcases mem_maps.mp ham' with hv | ⟨e, he, rfl⟩ | hspecs
  · rcases mem_grow hv with hv | rfl
    · exact hfrom.strings am' (GraphData.mem_maps_of_vertex hv)
    · exact stringsFrom_empty tags
  · rcases List.mem_append.mp he with he | he
    · exact hfrom.strings _ (GraphData.mem_maps_of_edge he)
    · rw [List.mem_singleton.mp he]
      exact ham
  · exact hfrom.strings am' (mem_maps.mpr (.inr (.inr hspecs)))

theorem from_addSpecs {tags : List Xml.Tag} {t : Xml.Tag} (ht : t ∈ tags) (attrs : List Xml.Attr)
    (hattrs : attrs ⊆ t.attrs) {h : MNGraphHandler D} (hfrom : From p tags h.myGraph) :
    From p tags (h.addSpecs p (transcode p t.name) attrs).myGraph := by
  induction attrs generalizing h with
  | nil => exact hfrom
  | cons a attrs ih =>
    obtain ⟨ha, hattrs⟩ := List.cons_subset.mp hattrs
    refine ih hattrs ⟨fun am ham => ?_, fun s hs => ?_⟩
    · rcases mem_maps.mp ham with hv | he | ⟨s, hs, rfl⟩
      · exact hfrom.strings am (mem_maps.mpr (.inl hv))
      · exact hfrom.strings am (mem_maps.mpr (.inr (.inl he)))
      · rcases SortedMap.mem_insert.mp hs with rfl | ⟨hs, -⟩
        · refine StringsFrom.addAttribute ?_ ht ha
          cases hfind : h.myGraph.mySpecs.find? (transcode p t.name) with
          | none => exact stringsFrom_empty tags
          | some am =>
            exact hfrom.strings am (GraphData.mem_maps_of_specs (SortedMap.find?_eq_some.mp hfind))
        · exact hfrom.strings _ (GraphData.mem_maps_of_specs hs)
    · rcases SortedMap.mem_insert.mp hs with rfl | ⟨hs, -⟩
      · exact ⟨t, ht, rfl⟩
      · exact hfrom.labels s hs

end MNGraphHandler

/-- The elements that begin in a list of events. -/
def startTags (evs : List Xml.Event) : List Xml.Tag :=
  evs.filterMap fun
    | .start tag => some tag
    | .stop _ => none

theorem From.handle {tags : List Xml.Tag} {h h' : MNGraphHandler D} {ev : Xml.Event}
    (hfrom : From p tags h.myGraph) (hhandle : h.handle p ev = some h') :
    From p (tags ++ startTags [ev]) h'.myGraph := by
  cases ev with
  | start tag =>
    have hmono := hfrom.mono [tag]
    have htag : tag ∈ tags ++ [tag] := List.mem_append_right _ (List.mem_singleton_self _)
    unfold MNGraphHandler.handle MNGraphHandler.startElement at hhandle
    dsimp only at hhandle
    split_ifs at hhandle
    · obtain rfl := Option.some.inj hhandle
      exact MNGraphHandler.from_addSpecs htag tag.attrs (List.Subset.refl _) hmono
    · exact MNGraphHandler.from_addVertex hmono htag hhandle
    · exact MNGraphHandler.from_addEdge hmono htag hhandle
    · obtain rfl := Option.some.inj hhandle
      exact hmono
    · obtain rfl := Option.some.inj hhandle
      exact hmono
  | stop name =>
    obtain rfl := Option.some.inj hhandle
    have hgraph : (h.endElement p name).myGraph = h.myGraph := by
      unfold MNGraphHandler.endElement
      split_ifs <;> rfl
    rw [hgraph]
    exact hfrom.mono []

/-- **Provenance**: in any document, the strings that are read are values of attributes, and the
labels are names of elements. -/
theorem From.run {tags : List Xml.Tag} {evs : List Xml.Event} {h h' : MNGraphHandler D}
    (hfrom : From p tags h.myGraph) (hrun : evs.foldlM (MNGraphHandler.handle p) h = some h') :
    From p (tags ++ startTags evs) h'.myGraph := by
  induction evs generalizing tags h with
  | nil =>
    obtain rfl := Option.some.inj hrun
    simpa [startTags] using hfrom
  | cons ev evs ih =>
    rw [List.foldlM_cons] at hrun
    obtain ⟨h₁, hstep, hrest⟩ := Option.bind_eq_some_iff.mp hrun
    have hrec := ih (hfrom.handle hstep) hrest
    have htags : startTags (ev :: evs) = startTags [ev] ++ startTags evs := by
      rw [← List.singleton_append]
      exact List.filterMap_append
    rw [htags, ← List.append_assoc]
    exact hrec

theorem from_empty : From p [] (∅ : GraphData D) :=
  ⟨fun _ ham => absurd ham List.not_mem_nil, fun _ hs => absurd hs List.not_mem_nil⟩

/-! ## Elements at their places -/

/-- The names of the attributes, as the handler compares them. -/
def attrNames (p : Platform D) (attrs : List Xml.Attr) : List (List Char) :=
  attrs.map fun a => text (transcode p a.name)

theorem text_transcode_index (name : String) (i : ℕ) (h : IsLatin name.toList) :
    text (transcode p (indexItem name i).attr.name) = name.toList := text_transcode h

theorem toInt_read_index {i : ℕ} (hi : i < 2 ^ 31) :
    (Int32.ofInt (strtol (text (transcode p (printInt i))))).toInt = i := by
  rw [text_transcode_numeral (isNumeral_printInt _), strtol_printInt (by omega) (by omega)]
  exact Int32.toInt_ofInt_of_le (by omega) (by omega)

namespace MNGraphHandler

theorem grow_length (vs : List (AttributeMap D)) : grow vs vs.length = vs ++ [∅] := by
  simp [grow]

theorem grow_of_lt {vs : List (AttributeMap D)} {i : ℕ} (h : i < vs.length) : grow vs i = vs := by
  simp [grow, Nat.sub_eq_zero_of_le h]

theorem foldl_vertexAttr {attrs : List Xml.Attr} (h : "int_idx".toList ∉ attrNames p attrs)
    (s : Int32 × AttributeMap D) :
    attrs.foldl (vertexAttr p) s = (s.1, attribMap p attrs s.2) := by
  induction attrs generalizing s with
  | nil => rfl
  | cons a attrs ih =>
    rw [attrNames, List.map_cons, List.mem_cons, not_or] at h
    have hstep : vertexAttr p s a =
        (s.1, Tools.addAttribute p (transcode p a.name) (transcode p a.value) s.2) :=
      if_neg (Ne.symm h.1)
    rw [List.foldl_cons, hstep, ih h.2, attribMap_cons]

theorem foldl_edgeAttr {attrs : List Xml.Attr} (hsrc : "int_src".toList ∉ attrNames p attrs)
    (hdst : "int_dst".toList ∉ attrNames p attrs) (hidx : "int_idx".toList ∉ attrNames p attrs)
    (s : Int32 × Int32 × AttributeMap D) :
    attrs.foldl (edgeAttr p) s = (s.1, s.2.1, attribMap p attrs s.2.2) := by
  induction attrs generalizing s with
  | nil => rfl
  | cons a attrs ih =>
    rw [attrNames, List.map_cons, List.mem_cons, not_or] at hsrc hdst hidx
    have hstep : edgeAttr p s a =
        (s.1, s.2.1, Tools.addAttribute p (transcode p a.name) (transcode p a.value) s.2.2) := by
      unfold edgeAttr
      dsimp only
      rw [if_neg (Ne.symm hsrc.1), if_neg (Ne.symm hdst.1), if_neg (Ne.symm hidx.1)]
    rw [List.foldl_cons, hstep, ih hsrc.2 hdst.2 hidx.2, attribMap_cons]

theorem vertexAttr_idx (s : Int32 × AttributeMap D) (i : ℕ) :
    vertexAttr p s (indexItem "int_idx" i).attr =
      (Int32.ofInt (strtol (text (transcode p (printInt i)))), s.2) := by
  unfold vertexAttr
  dsimp only
  rw [if_pos (text_transcode_index "int_idx" i (by decide))]
  rfl

theorem addVertex_next {h : MNGraphHandler D} {rest : List Xml.Attr}
    (hlt : h.myGraph.myVertices.length + 1 < 2 ^ 31)
    (hrest : "int_idx".toList ∉ attrNames p rest) :
    h.addVertex p ((indexItem "int_idx" h.myGraph.myVertices.length).attr :: rest) =
      some { h with myGraph := { h.myGraph with
        myVertices := h.myGraph.myVertices ++ [attribMap p rest ∅] } } := by
  have hidx := toInt_read_index (p := p) (i := h.myGraph.myVertices.length) (by omega)
  unfold addVertex
  rw [List.foldl_cons, vertexAttr_idx, foldl_vertexAttr hrest]
  dsimp only
  rw [hidx, if_neg (by omega), Int.toNat_natCast, grow_length, List.set_append_right _ _ le_rfl,
    Nat.sub_self]
  rfl

theorem edgeAttr_src (s : Int32 × Int32 × AttributeMap D) (i : ℕ) :
    edgeAttr p s (indexItem "int_src" i).attr =
      (Int32.ofInt (strtol (text (transcode p (printInt i)))), s.2) := by
  unfold edgeAttr
  dsimp only
  rw [if_pos (text_transcode_index "int_src" i (by decide))]
  rfl

theorem edgeAttr_dst (s : Int32 × Int32 × AttributeMap D) (i : ℕ) :
    edgeAttr p s (indexItem "int_dst" i).attr =
      (s.1, Int32.ofInt (strtol (text (transcode p (printInt i)))), s.2.2) := by
  have hname := text_transcode_index (p := p) "int_dst" i (by decide)
  unfold edgeAttr
  dsimp only
  rw [if_neg (by rw [hname]; decide), if_pos hname]
  rfl

theorem edgeAttr_idx (s : Int32 × Int32 × AttributeMap D) (i : ℕ) :
    edgeAttr p s (indexItem "int_idx" i).attr = s := by
  have hname := text_transcode_index (p := p) "int_idx" i (by decide)
  unfold edgeAttr
  dsimp only
  rw [if_neg (by rw [hname]; decide), if_neg (by rw [hname]; decide), if_pos hname]

theorem addEdge_next {h : MNGraphHandler D} {src dst idx : ℕ} {rest : List Xml.Attr}
    (hlt : h.myGraph.myVertices.length < 2 ^ 31) (hs : src < h.myGraph.myVertices.length)
    (hd : dst < h.myGraph.myVertices.length) (hsrc : "int_src".toList ∉ attrNames p rest)
    (hdst : "int_dst".toList ∉ attrNames p rest) (hidx : "int_idx".toList ∉ attrNames p rest) :
    h.addEdge p ((indexItem "int_src" src).attr :: (indexItem "int_dst" dst).attr ::
        (indexItem "int_idx" idx).attr :: rest) =
      some { h with myGraph := { h.myGraph with
        myEdges := h.myGraph.myEdges ++ [⟨src, dst, attribMap p rest ∅⟩] } } := by
  have hread_src := toInt_read_index (p := p) (i := src) (by omega)
  have hread_dst := toInt_read_index (p := p) (i := dst) (by omega)
  have hfirst : [(indexItem "int_src" src).attr, (indexItem "int_dst" dst).attr,
      (indexItem "int_idx" idx).attr].foldl (edgeAttr p) (-1, -1, ∅) =
      (Int32.ofInt (strtol (text (transcode p (printInt src)))),
        Int32.ofInt (strtol (text (transcode p (printInt dst)))), ∅) := by
    rw [List.foldl_cons, List.foldl_cons, List.foldl_cons, List.foldl_nil, edgeAttr_src,
      edgeAttr_dst, edgeAttr_idx]
  unfold addEdge
  rw [show ∀ a b c : Xml.Attr, a :: b :: c :: rest = [a, b, c] ++ rest from fun _ _ _ => rfl,
    List.foldl_append, hfirst, foldl_edgeAttr hsrc hdst hidx]
  dsimp only
  have hmax : (max (src : ℤ) dst).toNat < h.myGraph.myVertices.length := by omega
  rw [hread_src, hread_dst, if_neg (by omega), Int.toNat_natCast, Int.toNat_natCast,
    grow_of_lt hmax]

/-- The attributes of one label, set. -/
def setSpecs (h : MNGraphHandler D) (label : Str) (am : AttributeMap D) : MNGraphHandler D :=
  { h with myGraph := { h.myGraph with mySpecs := h.myGraph.mySpecs.insert label am } }

/-- A label gets the attributes of its element, if it has any. -/
theorem addSpecs_eq (h : MNGraphHandler D) (label : Str) (attrs : List Xml.Attr) :
    h.addSpecs p label attrs = if attrs = [] then h else
      h.setSpecs label (attribMap p attrs ((h.myGraph.mySpecs.find? label).getD ∅)) := by
  induction attrs generalizing h with
  | nil => rfl
  | cons a attrs ih =>
    have hcons : h.addSpecs p label (a :: attrs) =
        (h.setSpecs label (Tools.addAttribute p (transcode p a.name) (transcode p a.value)
          ((h.myGraph.mySpecs.find? label).getD ∅))).addSpecs p label attrs := rfl
    rw [hcons, ih, if_neg (List.cons_ne_nil _ _)]
    split_ifs with hnil
    · rw [hnil, attribMap_cons, attribMap_nil]
    · simp [setSpecs]

end MNGraphHandler

/-! ## Runs over elements without content -/

/-- The events of elements without content. -/
def emptyEvents (us : List Xml.Tag) : List Xml.Event := us.flatMap fun u => (Xml.Token.empty u).events

/-- The handler over elements without content. -/
def runEmpties (p : Platform D) (h : MNGraphHandler D) (us : List Xml.Tag) :
    Option (MNGraphHandler D) := (emptyEvents us).foldlM (MNGraphHandler.handle p) h

@[simp] theorem runEmpties_nil (h : MNGraphHandler D) : runEmpties p h [] = some h := rfl

theorem runEmpties_append (h : MNGraphHandler D) (us us' : List Xml.Tag) :
    runEmpties p h (us ++ us') = (runEmpties p h us).bind fun h' => runEmpties p h' us' := by
  simp [runEmpties, emptyEvents, List.foldlM_append]

theorem runEmpties_cons (h : MNGraphHandler D) (u : Xml.Tag) (us : List Xml.Tag) :
    runEmpties p h (u :: us) = (h.startElement p u).bind fun h' =>
      runEmpties p (h'.endElement p u.name) us := by
  simp [runEmpties, emptyEvents, Xml.Token.events, MNGraphHandler.handle, List.foldlM_cons]

namespace MNGraphHandler

theorem endElement_of_outside {h : MNGraphHandler D} (hin : h.inSpecs = false) (name : List Char) :
    h.endElement p name = h := if_neg fun hc => absurd (hin.symm.trans hc.1) (by decide)

theorem startElement_vertex {h : MNGraphHandler D} (hin : h.inSpecs = false) {u : Xml.Tag}
    (hname : u.name = "vertex".toList) : h.startElement p u = h.addVertex p u.attrs := by
  have hlabel : text (transcode p u.name) = "vertex".toList := by
    rw [hname]
    exact text_transcode (by decide)
  unfold startElement
  dsimp only
  rw [if_neg (by simp [hin]), if_pos hlabel]

theorem startElement_edge {h : MNGraphHandler D} (hin : h.inSpecs = false) {u : Xml.Tag}
    (hname : u.name = "edge".toList) : h.startElement p u = h.addEdge p u.attrs := by
  have hlabel : text (transcode p u.name) = "edge".toList := by
    rw [hname]
    exact text_transcode (by decide)
  unfold startElement
  dsimp only
  rw [if_neg (by simp [hin]), if_neg (by rw [hlabel]; decide), if_pos hlabel]

end MNGraphHandler

theorem runEmpties_outside {h h₁ : MNGraphHandler D} {u : Xml.Tag}
    (hstart : h.startElement p u = some h₁) (hin : h₁.inSpecs = false) (us : List Xml.Tag) :
    runEmpties p h (u :: us) = runEmpties p h₁ us := by
  rw [runEmpties_cons, hstart, Option.bind_some, MNGraphHandler.endElement_of_outside hin]

/-- What follows the first attributes in a list of names without repetition has none of their
names. -/
theorem not_mem_attrNames_rest {fixed rest : List Xml.Attr}
    (hnodup : (attrNames p (fixed ++ rest)).Nodup) {a : Xml.Attr} (ha : a ∈ fixed) :
    text (transcode p a.name) ∉ attrNames p rest := by
  rw [attrNames, List.map_append] at hnodup
  exact fun hmem => (List.nodup_append.mp hnodup).2.2 _ (List.mem_map.mpr ⟨a, ha, rfl⟩) _ hmem rfl

theorem runEmpties_vertices {vs : List (AttributeMap D)} {us : List Xml.Tag} {k : ℕ}
    {h : MNGraphHandler D}
    (hall : List.Forall₂ (fun v u => (vertexElem p v.1 v.2).ReadAs u) (vs.zipIdx k) us)
    (hnodup : ∀ u ∈ us, (attrNames p u.attrs).Nodup) (hk : h.myGraph.myVertices.length = k)
    (hlt : k + vs.length < 2 ^ 31) (hin : h.inSpecs = false) :
    runEmpties p h us = some { h with myGraph := { h.myGraph with
      myVertices := h.myGraph.myVertices ++ us.map fun u => attribMap p (u.attrs.drop 1) ∅ } } := by
  induction vs generalizing us k h with
  | nil =>
    obtain rfl := List.forall₂_nil_left_iff.mp hall
    simp
  | cons v vs ih =>
    rw [List.zipIdx_cons] at hall
    obtain ⟨u, us', hread, hrest, rfl⟩ := List.forall₂_cons_left_iff.mp hall
    obtain ⟨rest, hattrs⟩ := hread.fixed
    have hattrs' : u.attrs = (indexItem "int_idx" k).attr :: rest := hattrs.symm
    have hnot : "int_idx".toList ∉ attrNames p rest := by
      have hu := hnodup u List.mem_cons_self
      rw [← hattrs] at hu
      have hnot := not_mem_attrNames_rest hu (List.mem_singleton_self _)
      rwa [text_transcode_index "int_idx" k (by decide)] at hnot
    rw [List.length_cons] at hlt
    have hstart : h.startElement p u = some { h with myGraph := { h.myGraph with
        myVertices := h.myGraph.myVertices ++ [attribMap p (u.attrs.drop 1) ∅] } } := by
      rw [MNGraphHandler.startElement_vertex hin hread.name, hattrs', ← hk]
      exact MNGraphHandler.addVertex_next (by omega) hnot
    rw [runEmpties_outside hstart hin]
    refine (ih hrest (fun u hu => hnodup u (List.mem_cons_of_mem _ hu)) (by simp [hk]) (by omega)
      (by exact hin)).trans ?_
    simp

/-- Edges that are read one after the other, when their ends are there. -/
theorem runEmpties_edges {es : List (Edge D)} {us : List Xml.Tag} {k : ℕ} {h : MNGraphHandler D}
    (hall : List.Forall₂ (fun e u => (edgeElem p e.1 e.2).ReadAs u) (es.zipIdx k) us)
    (hnodup : ∀ u ∈ us, (attrNames p u.attrs).Nodup) (hlt : h.myGraph.myVertices.length < 2 ^ 31)
    (hsrc : ∀ e ∈ es, e.source < h.myGraph.myVertices.length)
    (hdst : ∀ e ∈ es, e.target < h.myGraph.myVertices.length) (hin : h.inSpecs = false) :
    runEmpties p h us = some { h with myGraph := { h.myGraph with
      myEdges := h.myGraph.myEdges ++
        List.zipWith (fun e u => ⟨e.source, e.target, attribMap p (u.attrs.drop 3) ∅⟩) es us } } := by
  induction es generalizing us k h with
  | nil =>
    obtain rfl := List.forall₂_nil_left_iff.mp hall
    simp
  | cons e es ih =>
    rw [List.zipIdx_cons] at hall
    obtain ⟨u, us', hread, hrest, rfl⟩ := List.forall₂_cons_left_iff.mp hall
    obtain ⟨rest, hattrs⟩ := hread.fixed
    have hattrs' : u.attrs = (indexItem "int_src" e.source).attr ::
        (indexItem "int_dst" e.target).attr :: (indexItem "int_idx" k).attr :: rest := hattrs.symm
    have hu := hnodup u List.mem_cons_self
    rw [← hattrs] at hu
    have hnot_src := not_mem_attrNames_rest hu (a := (indexItem "int_src" e.source).attr)
      (by simp [edgeElem])
    have hnot_dst := not_mem_attrNames_rest hu (a := (indexItem "int_dst" e.target).attr)
      (by simp [edgeElem])
    have hnot_idx := not_mem_attrNames_rest hu (a := (indexItem "int_idx" k).attr)
      (by simp [edgeElem])
    rw [text_transcode_index _ _ (by decide)] at hnot_src hnot_dst hnot_idx
    have hstart : h.startElement p u = some { h with myGraph := { h.myGraph with
        myEdges := h.myGraph.myEdges ++
          [⟨e.source, e.target, attribMap p (u.attrs.drop 3) ∅⟩] } } := by
      rw [MNGraphHandler.startElement_edge hin hread.name, hattrs']
      exact MNGraphHandler.addEdge_next hlt (hsrc e List.mem_cons_self) (hdst e List.mem_cons_self)
        hnot_src hnot_dst hnot_idx
    rw [runEmpties_outside hstart hin]
    refine (ih hrest (fun u hu => hnodup u (List.mem_cons_of_mem _ hu)) (by exact hlt)
      (by exact fun e' he' => hsrc e' (List.mem_cons_of_mem _ he'))
      (by exact fun e' he' => hdst e' (List.mem_cons_of_mem _ he')) (by exact hin)).trans ?_
    simp

/-! ## Specs -/

/-- One element inside `specs`. -/
def readSpecs (p : Platform D) (m : SortedMap Str (AttributeMap D)) (u : Xml.Tag) :
    SortedMap Str (AttributeMap D) :=
  if u.attrs = [] then m
  else m.insert (transcode p u.name) (attribMap p u.attrs ((m.find? (transcode p u.name)).getD ∅))

def EndsSpecs (p : Platform D) (u : Xml.Tag) : Prop := text (transcode p u.name) = "specs".toList

/-- An element inside `specs`, and whether the specs end with it. -/
theorem runEmpties_inside {h : MNGraphHandler D} (hin : h.inSpecs = true) (u : Xml.Tag)
    (us : List Xml.Tag) : ∃ h₁ : MNGraphHandler D,
      h₁.myGraph = { h.myGraph with mySpecs := readSpecs p h.myGraph.mySpecs u } ∧
      (h₁.inSpecs = true ↔ ¬ EndsSpecs p u) ∧
      runEmpties p h (u :: us) = runEmpties p h₁ us := by
  refine ⟨(h.addSpecs p (transcode p u.name) u.attrs).endElement p u.name, ?_, ?_, ?_⟩
  · rw [MNGraphHandler.addSpecs_eq]
    unfold MNGraphHandler.endElement readSpecs
    split_ifs <;> rfl
  · have hspecs : (h.addSpecs p (transcode p u.name) u.attrs).inSpecs = true := by
      rw [MNGraphHandler.addSpecs_eq]
      split_ifs <;> exact hin
    unfold MNGraphHandler.endElement EndsSpecs
    by_cases hend : text (transcode p u.name) = "specs".toList
    · rw [if_pos ⟨hspecs, hend⟩]
      exact ⟨fun h => absurd h (by simp), fun h => absurd hend h⟩
    · rw [if_neg fun h => hend h.2]
      exact ⟨fun _ => hend, fun _ => hspecs⟩
  · rw [runEmpties_cons]
    unfold MNGraphHandler.startElement
    dsimp only
    rw [if_pos hin, Option.bind_some]

theorem runEmpties_specs {us : List Xml.Tag} (hus : ∀ u ∈ us, ¬ EndsSpecs p u)
    {h : MNGraphHandler D} (hin : h.inSpecs = true) : runEmpties p h us =
      some { h with myGraph := { h.myGraph with
        mySpecs := us.foldl (readSpecs p) h.myGraph.mySpecs } } := by
  induction us generalizing h with
  | nil => rfl
  | cons u us ih =>
    obtain ⟨h₁, hgraph, hin₁, hrun⟩ := runEmpties_inside (p := p) hin u us
    have hin' : h₁.inSpecs = true := hin₁.mpr (hus u List.mem_cons_self)
    rw [hrun, ih (fun u hu => hus u (List.mem_cons_of_mem _ hu)) hin', hgraph, hin', hin]
    rfl

theorem mySpecs_of_runEmpties_outside {us : List Xml.Tag} (hus : ∀ u ∈ us, ¬ EndsSpecs p u)
    {h h' : MNGraphHandler D} (hin : h.inSpecs = false) (hrun : runEmpties p h us = some h') :
    h'.myGraph.mySpecs = h.myGraph.mySpecs := by
  induction us generalizing h with
  | nil =>
    obtain rfl := Option.some.inj hrun
    rfl
  | cons u us ih =>
    rw [runEmpties_cons] at hrun
    obtain ⟨h₁, hstart, hrest⟩ := Option.bind_eq_some_iff.mp hrun
    have hstep : h₁.myGraph.mySpecs = h.myGraph.mySpecs ∧ h₁.inSpecs = false := by
      unfold MNGraphHandler.startElement at hstart
      dsimp only at hstart
      rw [if_neg (by simp [hin])] at hstart
      split_ifs at hstart with hv he hs
      · unfold MNGraphHandler.addVertex at hstart
        dsimp only at hstart
        split_ifs at hstart
        obtain rfl := Option.some.inj hstart
        exact ⟨rfl, hin⟩
      · unfold MNGraphHandler.addEdge at hstart
        dsimp only at hstart
        split_ifs at hstart
        obtain rfl := Option.some.inj hstart
        exact ⟨rfl, hin⟩
      · exact absurd hs (hus u List.mem_cons_self)
      · obtain rfl := Option.some.inj hstart
        exact ⟨rfl, hin⟩
    rw [MNGraphHandler.endElement_of_outside hstep.2] at hrest
    rw [ih (fun u hu => hus u (List.mem_cons_of_mem _ hu)) hstep.2 hrest, hstep.1]

theorem mem_foldl_readSpecs {us : List Xml.Tag} {m : SortedMap Str (AttributeMap D)}
    (hnodup : (us.map fun u => transcode p u.name).Nodup)
    (hnew : ∀ u ∈ us, m.find? (transcode p u.name) = none) {e : Str × AttributeMap D}
    (he : e ∈ (us.foldl (readSpecs p) m).entries) : e ∈ m.entries ∨
      ∃ u ∈ us, u.attrs ≠ [] ∧ e = (transcode p u.name, attribMap p u.attrs ∅) := by
  induction us generalizing m with
  | nil => exact .inl he
  | cons u us ih =>
    rw [List.map_cons, List.nodup_cons] at hnodup
    have hfind : m.find? (transcode p u.name) = none := hnew u List.mem_cons_self
    have hnew' : ∀ v ∈ us, (readSpecs p m u).find? (transcode p v.name) = none := by
      intro v hv
      unfold readSpecs
      split_ifs
      · exact hnew v (List.mem_cons_of_mem _ hv)
      · have hne : transcode p v.name ≠ transcode p u.name := fun h =>
          hnodup.1 (h ▸ List.mem_map.mpr ⟨v, hv, rfl⟩)
        rw [SortedMap.find?_insert_of_ne _ _ hne]
        exact hnew v (List.mem_cons_of_mem _ hv)
    rcases ih hnodup.2 hnew' he with he | ⟨v, hv, hattrs, rfl⟩
    · unfold readSpecs at he
      split_ifs at he with hnil
      · exact .inl he
      · rw [hfind] at he
        rcases SortedMap.mem_insert.mp he with rfl | ⟨he, -⟩
        · exact .inr ⟨u, List.mem_cons_self, hnil, rfl⟩
        · exact .inl he
    · exact .inr ⟨v, List.mem_cons_of_mem _ hv, hattrs, rfl⟩

end Modelnet.Tools

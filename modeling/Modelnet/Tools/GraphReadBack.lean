import Modelnet.Tools.GraphRoundTrip

/-!
# When a topology comes back

A graph comes back as it was exactly when (`readGraphXML_writeGraphXML_iff`) its strings have no
`<`, `&`, quotes or control characters, its labels are names, each of which has an attribute, and
none of which comes after `specs`, and namespaces admit its names.

1. Reading back rules out `&`: a reference is longer than what it stands for, so a string with `&`
   that comes back needs a longer one (`Xml.not_mem_amp_of_read_back`). Without references a value
   has no markup and no control characters.
2. Without markup in the values, each element is read as one tag under its own name, with the first
   value that has quotes cut short. Everything else in the graph follows from the element at its
   place, so the cut is seen.
3. Without quotes, the elements are read as they were meant.
-/

namespace Modelnet.Tools

variable {D : Type} {p : Platform D}

/-! ## Labels that are read -/

/-- Nothing comes after the label that ends the specs. -/
def SpecsLast (p : Platform D) (us : List Xml.Tag) : Prop :=
  ∀ us₁ u us₂, us = us₁ ++ u :: us₂ → EndsSpecs p u → us₂ = []

theorem runEmpties_of_specsLast {us : List Xml.Tag} (hlast : SpecsLast p us) (g : GraphData D) :
    (runEmpties p ⟨g, true⟩ us).map MNGraphHandler.myGraph =
      some { g with mySpecs := us.foldl (readSpecs p) g.mySpecs } := by
  by_cases hend : ∃ u ∈ us, EndsSpecs p u
  · obtain ⟨us₁, u, us₂, rfl, hus₁, hu⟩ := Xml.exists_first hend
    obtain rfl := hlast us₁ u us₂ rfl hu
    obtain ⟨h₁, hgraph, -, hrun⟩ := runEmpties_inside (p := p)
      (h := ⟨{ g with mySpecs := us₁.foldl (readSpecs p) g.mySpecs }, true⟩) rfl u []
    rw [runEmpties_append, runEmpties_specs hus₁ rfl, Option.bind_some, hrun, runEmpties_nil,
      Option.map_some, hgraph, List.foldl_append]
    rfl
  · rw [runEmpties_specs (fun u hu h => hend ⟨u, hu, h⟩) rfl]
    rfl

theorem mySpecs_of_runEmpties {us : List Xml.Tag} {g g' : GraphData D}
    (hnodup : (us.map fun u => transcode p u.name).Nodup)
    (hrun : (runEmpties p ⟨g, true⟩ us).map MNGraphHandler.myGraph = some g') :
    ∃ us₁ us₂, us = us₁ ++ us₂ ∧ g'.mySpecs = us₁.foldl (readSpecs p) g.mySpecs ∧
      (us₂ = [] → SpecsLast p us) := by
  by_cases hend : ∃ u ∈ us, EndsSpecs p u
  · obtain ⟨us₁, u, us₂, rfl, hus₁, hu⟩ := Xml.exists_first hend
    obtain ⟨h₁, hgraph, hin, hinside⟩ := runEmpties_inside (p := p)
      (h := ⟨{ g with mySpecs := us₁.foldl (readSpecs p) g.mySpecs }, true⟩) rfl u us₂
    have hin₁ : h₁.inSpecs = false := by
      cases hval : h₁.inSpecs with
      | false => rfl
      | true => exact absurd hu (hin.mp hval)
    -- no other label is `specs`
    have hus₂ : ∀ v ∈ us₂, ¬ EndsSpecs p v := by
      intro v hv hends
      rw [List.map_append, List.map_cons] at hnodup
      have hcons := (List.nodup_append.mp hnodup).2.1
      refine (List.nodup_cons.mp hcons).1 (List.mem_map.mpr ⟨v, hv, ?_⟩)
      exact text_injective (hends.trans hu.symm)
    rw [runEmpties_append, runEmpties_specs hus₁ rfl, Option.bind_some, hinside] at hrun
    obtain ⟨h', hrest, rfl⟩ := Option.map_eq_some_iff.mp hrun
    refine ⟨us₁ ++ [u], us₂, by simp, ?_, fun hnil => ?_⟩
    · rw [mySpecs_of_runEmpties_outside hus₂ hin₁ hrest, hgraph, List.foldl_append]
      rfl
    · subst hnil
      intro as v bs heq hv
      rcases List.eq_nil_or_concat bs with rfl | ⟨bs, b, rfl⟩
      · rfl
      · rw [List.concat_eq_append, ← List.cons_append, ← List.append_assoc] at heq
        have hmem : v ∈ us₁ := by
          rw [(List.append_inj' heq rfl).1]
          simp
        exact absurd hv (hus₁ v hmem)
  · have hus : ∀ u ∈ us, ¬ EndsSpecs p u := fun u hu h => hend ⟨u, hu, h⟩
    rw [runEmpties_specs hus rfl, Option.map_some] at hrun
    obtain rfl := Option.some.inj hrun
    exact ⟨us, [], by simp, rfl, fun _ as v bs heq hv => absurd hv (hus v (by simp [heq]))⟩

/-- An element of a label, with its attributes. -/
structure SpecsRead (p : Platform D) (s : Str × AttributeMap D) (u : Xml.Tag) : Prop where
  attrs : u.attrs ≠ []
  map : s.2 = attribMap p u.attrs ∅

theorem labels_eq {entries : List (Str × AttributeMap D)} {us : List Xml.Tag}
    (hnames : List.Forall₂ (fun s u => u.name = text s.1) entries us) :
    (us.map fun u => transcode p u.name) = entries.map Prod.fst := by
  induction hnames with
  | nil => rfl
  | cons hname _ ih => rw [List.map_cons, List.map_cons, ih, hname, transcode_text]

/-- Where the labels up to some element are those of the graph, the element is the last one, and
each label has attributes. -/
theorem specsRead_of_foldl {specs : SortedMap Str (AttributeMap D)} {us₁ us₂ : List Xml.Tag}
    (hnames : List.Forall₂ (fun s u => u.name = text s.1) specs.entries (us₁ ++ us₂))
    (hfold : specs = us₁.foldl (readSpecs p) ∅) :
    us₂ = [] ∧ List.Forall₂ (SpecsRead p) specs.entries (us₁ ++ us₂) := by
  have hnodup : ((us₁ ++ us₂).map fun u => transcode p u.name).Nodup := by
    rw [labels_eq hnames]
    exact keys_nodup specs
  have hnodup₁ : (us₁.map fun u => transcode p u.name).Nodup := by
    rw [List.map_append] at hnodup
    exact (List.nodup_append.mp hnodup).1
  obtain ⟨hlen, hname⟩ := List.forall₂_iff_zip.mp hnames
  have hread {s : Str × AttributeMap D} {u : Xml.Tag} (hs : s ∈ specs.entries)
      (hu : u ∈ us₁ ++ us₂) (hsu : u.name = text s.1) : u ∈ us₁ ∧ SpecsRead p s u := by
    have hs' := hs
    rw [hfold] at hs'
    rcases mem_foldl_readSpecs hnodup₁ (fun _ _ => rfl) hs' with hs' | ⟨v, hv, hattrs, rfl⟩
    · exact absurd hs' List.not_mem_nil
    · have huv : v = u := by
        refine List.inj_on_of_nodup_map hnodup (List.mem_append_left _ hv) hu ?_
        rw [hsu, transcode_text]
      exact huv ▸ ⟨hv, hattrs, rfl⟩
  constructor
  · refine List.eq_nil_iff_forall_not_mem.mpr fun w hw => ?_
    have hmem : transcode p w.name ∈ specs.entries.map Prod.fst := by
      rw [← labels_eq hnames]
      exact List.mem_map.mpr ⟨w, List.mem_append_right _ hw, rfl⟩
    obtain ⟨s, hs, hlabel⟩ := List.mem_map.mp hmem
    have hs' := hs
    rw [hfold] at hs'
    rcases mem_foldl_readSpecs hnodup₁ (fun _ _ => rfl) hs' with hs' | ⟨v, hv, -, rfl⟩
    · exact absurd hs' List.not_mem_nil
    · rw [List.map_append] at hnodup
      exact (List.nodup_append.mp hnodup).2.2 _ (List.mem_map.mpr ⟨v, hv, rfl⟩) _
        (List.mem_map.mpr ⟨w, hw, rfl⟩) hlabel
  · refine List.forall₂_iff_zip.mpr ⟨hlen, fun hmem => ?_⟩
    obtain ⟨hs, hu⟩ := List.of_mem_zip hmem
    exact (hread hs hu (hname hmem)).2

theorem foldl_readSpecs {entries : List (Str × AttributeMap D)} {us : List Xml.Tag}
    (hnames : List.Forall₂ (fun s u => u.name = text s.1) entries us)
    (hread : List.Forall₂ (SpecsRead p) entries us) (hnodup : (entries.map Prod.fst).Nodup)
    {m : SortedMap Str (AttributeMap D)} (hnew : ∀ s ∈ entries, m.find? s.1 = none) :
    us.foldl (readSpecs p) m = entries.foldl (fun m e => m.insert e.1 e.2) m := by
  induction hread generalizing m with
  | nil => rfl
  | @cons s u entries us hsu _ ih =>
    obtain ⟨hname, hnames⟩ := List.forall₂_cons.mp hnames
    rw [List.map_cons, List.nodup_cons] at hnodup
    have hstep : readSpecs p m u = m.insert s.1 s.2 := by
      unfold readSpecs
      rw [if_neg hsu.attrs, hname, transcode_text, hnew s List.mem_cons_self, hsu.map]
      rfl
    rw [List.foldl_cons, List.foldl_cons, hstep]
    refine ih hnames hnodup.2 fun s' hs' => ?_
    have hne : s'.1 ≠ s.1 := fun h => hnodup.1 (h ▸ List.mem_map.mpr ⟨s', hs', rfl⟩)
    rw [SortedMap.find?_insert_of_ne _ _ hne]
    exact hnew s' (List.mem_cons_of_mem _ hs')

/-- **Specs**: what is read of elements with the labels of a graph are its specs exactly when each
has its attributes, and there are some, and none comes after `specs`. -/
theorem runEmpties_specs_iff {g g' : GraphData D} (hg : g.mySpecs = ∅) {us : List Xml.Tag}
    (hnames : List.Forall₂ (fun s u => u.name = text s.1) g'.mySpecs.entries us) :
    (runEmpties p ⟨g, true⟩ us).map MNGraphHandler.myGraph = some g' ↔
      List.Forall₂ (SpecsRead p) g'.mySpecs.entries us ∧ SpecsLast p us ∧
        g' = { g with mySpecs := g'.mySpecs } := by
  have hnodup : (us.map fun u => transcode p u.name).Nodup := by
    rw [labels_eq hnames]
    exact keys_nodup g'.mySpecs
  constructor
  · intro hrun
    obtain ⟨us₁, us₂, rfl, hspecs, hlast⟩ := mySpecs_of_runEmpties hnodup hrun
    rw [hg] at hspecs
    obtain ⟨rfl, hread⟩ := specsRead_of_foldl hnames hspecs
    refine ⟨hread, hlast rfl, ?_⟩
    rw [runEmpties_of_specsLast (hlast rfl), hg, List.append_nil, ← hspecs] at hrun
    exact (Option.some.inj hrun).symm
  · rintro ⟨hread, hlast, hgraph⟩
    rw [runEmpties_of_specsLast hlast, hg,
      foldl_readSpecs hnames hread (keys_nodup g'.mySpecs) (fun _ _ => rfl),
      SortedMap.foldl_insert_entries]
    exact congrArg some hgraph.symm

/-! ## The frame in the text -/

/-- The file after its declaration. -/
def body (p : Platform D) (g : GraphData D) : List Char :=
  "\n<topology>\n\t<vertices>\n".toList ++
    (Xml.elemsText indent (g.vertexElems p) ++ ("\t</vertices>\n\t<edges>\n".toList ++
    (Xml.elemsText indent (g.edgeElems p) ++ ("\t</edges>\n\t<specs>\n".toList ++
    (Xml.elemsText indent (g.specsElems p) ++ "\t</specs>\n</topology>\n".toList)))))

theorem writeGraphXML_body (g : GraphData D) : writeGraphXML p g = Xml.xmlDecl ++ body p g :=
  writeGraphXML_eq g

theorem isSpace_indent : ∀ c ∈ indent, Xml.isSpace c := by simp [indent, Xml.isSpace]

theorem isSpace_tab : ∀ c ∈ ['\t'], Xml.isSpace c := by simp [Xml.isSpace]

/-- Each element of a file without markup in its values is one tag. -/
theorem exists_of_lex_body {g : GraphData D} (hok : ∀ e ∈ g.elems p, e.Ok) {l : Xml.Lexer}
    (h : Xml.lex ⟨.content 0, []⟩ (body p g) = some l) : ∃ vs es ss,
      Xml.markup l.tokens = frame vs es ss ∧ List.Forall₂ Xml.Elem.ReadIn (g.vertexElems p) vs ∧
      List.Forall₂ Xml.Elem.ReadIn (g.edgeElems p) es ∧
      List.Forall₂ Xml.Elem.ReadIn (g.specsElems p) ss := by
  have hvertices_end (cs : List Char) : "\t</vertices>\n\t<edges>\n".toList ++ cs =
      ['\t'] ++ '<' :: ("/vertices>\n\t<edges>\n".toList ++ cs) := rfl
  have hedges_end (cs : List Char) : "\t</edges>\n\t<specs>\n".toList ++ cs =
      ['\t'] ++ '<' :: ("/edges>\n\t<specs>\n".toList ++ cs) := rfl
  have hspecs_end : "\t</specs>\n</topology>\n".toList =
      ['\t'] ++ '<' :: "/specs>\n</topology>\n".toList := by decide
  unfold body at h
  rw [Xml.lex_append_of_eq lex_head] at h
  have h' := h
  rw [hvertices_end] at h'
  obtain ⟨m₁, vs, hvs, hallv⟩ := Xml.exists_of_lex_elems
    (fun e he => hok e (List.mem_append_left _ (List.mem_append_left _ he))) isSpace_indent
    isSpace_tab h'
  rw [Xml.lex_append_of_eq hvs, Xml.lex_append_of_eq (lex_vertices_end _ _)] at h
  have h' := h
  rw [hedges_end] at h'
  obtain ⟨m₂, es, hes, halle⟩ := Xml.exists_of_lex_elems
    (fun e he => hok e (List.mem_append_left _ (List.mem_append_right _ he))) isSpace_indent
    isSpace_tab h'
  rw [Xml.lex_append_of_eq hes, Xml.lex_append_of_eq (lex_edges_end _ _)] at h
  have h' := h
  rw [hspecs_end] at h'
  obtain ⟨m₃, ss, hss, halls⟩ := Xml.exists_of_lex_elems
    (fun e he => hok e (List.mem_append_right _ he)) isSpace_indent isSpace_tab h'
  rw [Xml.lex_append_of_eq hss, lex_specs_end] at h
  obtain rfl := Option.some.inj h
  refine ⟨_, _, _, ?_, hallv, halle, halls⟩
  simp [frame, block, Xml.markup]

/-- Elements without quotes in their values are read as they are meant. -/
theorem lex_body {g : GraphData D} (hok : ∀ e ∈ g.elems p, e.Ok)
    (hquot : ∀ e ∈ g.elems p, ∀ i ∈ e.items, Char.ofNat 34 ∉ i.attr.value)
    (hend : ∀ e ∈ g.elems p, Xml.EndsEmpty e.tail) :
    Xml.lex ⟨.content 0, []⟩ (body p g) = some ⟨.content 0,
      frame (((g.vertexElems p).map Xml.Elem.tag).map .empty)
        (((g.edgeElems p).map Xml.Elem.tag).map .empty)
        (((g.specsElems p).map Xml.Elem.tag).map .empty)⟩ := by
  have hvertices {e : Xml.Elem} (he : e ∈ g.vertexElems p) : e ∈ g.elems p :=
    List.mem_append_left _ (List.mem_append_left _ he)
  have hedges {e : Xml.Elem} (he : e ∈ g.edgeElems p) : e ∈ g.elems p :=
    List.mem_append_left _ (List.mem_append_right _ he)
  have hspecs {e : Xml.Elem} (he : e ∈ g.specsElems p) : e ∈ g.elems p :=
    List.mem_append_right _ he
  unfold body
  rw [Xml.lex_append_of_eq lex_head]
  obtain ⟨m₁, hvs⟩ := Xml.lex_elems (fun e he => hok e (hvertices he))
    (fun e he => hquot e (hvertices he)) (fun e he => hend e (hvertices he)) isSpace_indent 0
    [.start (bare "topology"), .start (bare "vertices")]
  rw [Xml.lex_append_of_eq hvs, Xml.lex_append_of_eq (lex_vertices_end _ _)]
  obtain ⟨m₂, hes⟩ := Xml.lex_elems (fun e he => hok e (hedges he))
    (fun e he => hquot e (hedges he)) (fun e he => hend e (hedges he)) isSpace_indent 0
    ([.start (bare "topology"), .start (bare "vertices")] ++
      ((g.vertexElems p).map Xml.Elem.tag).map .empty ++
      [.close "vertices".toList, .start (bare "edges")])
  rw [Xml.lex_append_of_eq hes, Xml.lex_append_of_eq (lex_edges_end _ _)]
  obtain ⟨m₃, hss⟩ := Xml.lex_elems (fun e he => hok e (hspecs he))
    (fun e he => hquot e (hspecs he)) (fun e he => hend e (hspecs he)) isSpace_indent 0
    ([.start (bare "topology"), .start (bare "vertices")] ++
      ((g.vertexElems p).map Xml.Elem.tag).map .empty ++
      [.close "vertices".toList, .start (bare "edges")] ++
      ((g.edgeElems p).map Xml.Elem.tag).map .empty ++
      [.close "edges".toList, .start (bare "specs")])
  rw [Xml.lex_append_of_eq hss, lex_specs_end]
  simp [frame, block]

theorem endsEmpty_of_mem {g : GraphData D} : ∀ e ∈ g.elems p, Xml.EndsEmpty e.tail := by
  have hend (t : Xml.Tag) (ts : List Xml.Token) :
      Xml.lex ⟨.inTag t true, ts⟩ "/>\n".toList = some ⟨.content 0, ts ++ [.empty t]⟩ := by
    rw [Xml.lex_tokens]
    rfl
  have hend' (t : Xml.Tag) (ts : List Xml.Token) :
      Xml.lex ⟨.inTag t true, ts⟩ " />\n".toList = some ⟨.content 0, ts ++ [.empty t]⟩ := by
    rw [Xml.lex_tokens]
    rfl
  exact GraphData.elems_cases (fun _ _ _ t ts => ⟨0, hend t ts⟩) (fun _ _ _ t ts => ⟨0, hend t ts⟩)
    (fun _ _ t ts => ⟨0, hend' t ts⟩)

/-! ## Elements that are not left open -/

theorem countP_close {es : List Xml.Elem} {toks : List Xml.Token}
    (h : List.Forall₂ Xml.Elem.ReadIn es toks) :
    toks.countP (fun t => t matches .close _) = 0 := by
  induction h with
  | nil => rfl
  | @cons e tok es toks hread _ ih =>
    obtain ⟨u, htag, -⟩ := hread
    rw [List.countP_cons, ih]
    cases tok with
    | close name => exact absurd htag (by simp [Xml.Token.tag?])
    | _ => rfl

/-- Where as many elements begin as end, none of those in the frame is left open. -/
theorem countP_start_of_frame {vs es ss : List Xml.Token}
    (hclose : ∀ ts ∈ [vs, es, ss], ts.countP (fun t => t matches .close _) = 0)
    (hbalance : (frame vs es ss).countP (fun t => t matches .start _) =
      (frame vs es ss).countP (fun t => t matches .close _)) :
    ∀ ts ∈ [vs, es, ss], ts.countP (fun t => t matches .start _) = 0 := by
  simp only [List.mem_cons, List.not_mem_nil, or_false, forall_eq_or_imp, forall_eq] at hclose ⊢
  simp only [frame, block, List.countP_cons, List.countP_append, List.countP_nil, hclose] at hbalance
  simp at hbalance
  omega

/-! ## What is read of the elements -/

/-- The tags that the elements of a file are read as. -/
structure ReadBack (p : Platform D) (g : GraphData D) (vs es ss : List Xml.Tag) : Prop where
  vertices : List.Forall₂ Xml.Elem.ReadAs (g.vertexElems p) vs
  edges : List.Forall₂ Xml.Elem.ReadAs (g.edgeElems p) es
  specs : List.Forall₂ Xml.Elem.ReadAs (g.specsElems p) ss
  nodup : ∀ u ∈ vs ++ es ++ ss, (attrNames p u.attrs).Nodup

/-- What the attributes of the tags must make. -/
structure Remade (p : Platform D) (g : GraphData D) (vs es ss : List Xml.Tag) : Prop where
  vertices : g.myVertices = vs.map fun u => attribMap p (u.attrs.drop 1) ∅
  edges : g.myEdges = List.zipWith
    (fun e u => ⟨e.source, e.target, attribMap p (u.attrs.drop 3) ∅⟩) g.myEdges es
  specs : List.Forall₂ (SpecsRead p) g.mySpecs.entries ss
  last : SpecsLast p ss

/-- **The handler over the file**: it ends with the graph exactly when the attributes make it. -/
theorem handle_frame_iff {g : GraphData D} (hg : g.Built) {vs es ss : List Xml.Tag}
    (hread : ReadBack p g vs es ss) :
    (((frame (vs.map .empty) (es.map .empty) (ss.map .empty)).flatMap Xml.Token.events).foldlM
      (MNGraphHandler.handle p) ⟨∅, false⟩).map MNGraphHandler.myGraph = some g ↔
      Remade p g vs es ss := by
  have hlen : vs.length = g.myVertices.length := by
    simpa [GraphData.vertexElems] using hread.vertices.length_eq.symm
  have hvs := runEmpties_vertices (p := p) (h := ⟨∅, false⟩) (k := 0)
    (List.forall₂_map_left_iff.mp hread.vertices)
    (fun u hu => hread.nodup u (by simp [hu])) rfl (by simpa using hg.vertices_lt) rfl
  have hes := runEmpties_edges (p := p) (k := 0)
    (h := ⟨⟨vs.map fun u => attribMap p (u.attrs.drop 1) ∅, [], ∅⟩, false⟩)
    (List.forall₂_map_left_iff.mp hread.edges) (fun u hu => hread.nodup u (by simp [hu]))
    (by simpa [hlen] using hg.vertices_lt) (by simpa [hlen] using hg.source_lt)
    (by simpa [hlen] using hg.target_lt) rfl
  have hnames : List.Forall₂ (fun s u => u.name = text s.1) g.mySpecs.entries ss :=
    (List.forall₂_map_left_iff.mp hread.specs).imp fun _ _ h => h.name
  rw [handle_frame hvs rfl hes rfl]
  refine (runEmpties_specs_iff rfl hnames).trans ⟨?_, fun h => ⟨h.specs, h.last, ?_⟩⟩
  · rintro ⟨hspecs, hlast, hgraph⟩
    exact ⟨congrArg GraphData.myVertices hgraph, congrArg GraphData.myEdges hgraph, hspecs, hlast⟩
  · exact GraphData.ext h.vertices h.edges rfl

/-! ## Quotes -/


theorem prefix_indexItem {name : String} {i : ℕ} (h : "int_".toList <+: name.toList) :
    "int_".toList <+: (indexItem name i).attr.name := h

theorem not_mem_quot_of_vertices {ams : List (AttributeMap D)} {us : List Xml.Tag} {k : ℕ}
    (hread : List.Forall₂ (fun v u => (vertexElem p v.1 v.2).ReadAs u) (ams.zipIdx k) us)
    (hnodup : ∀ u ∈ us, (attrNames p u.attrs).Nodup)
    (hmaps : ams = us.map fun u => attribMap p (u.attrs.drop 1) ∅)
    (hkeys : ∀ am ∈ ams, ∀ k ∈ am.keys, KeyOk k) :
    ∀ am ∈ ams, ∀ i ∈ attribItems p am, Char.ofNat 34 ∉ i.attr.value := by
  induction ams generalizing us k with
  | nil => exact fun _ h => absurd h List.not_mem_nil
  | cons am ams ih =>
    rw [List.zipIdx_cons] at hread
    obtain ⟨u, us', hu, hrest, rfl⟩ := List.forall₂_cons_left_iff.mp hread
    obtain ⟨hmap, hmaps⟩ := List.cons.inj hmaps
    intro am' ham'
    rcases List.mem_cons.mp ham' with rfl | ham'
    · refine ReadMap.not_mem_quot (e := vertexElem p am' k)
        ⟨hu, hnodup u List.mem_cons_self, hmap⟩ rfl (fun i hi => ?_) (hkeys _ List.mem_cons_self)
      rw [List.mem_singleton.mp hi]
      exact prefix_indexItem (by decide)
    · exact ih hrest (fun u hu => hnodup u (List.mem_cons_of_mem _ hu)) hmaps
        (fun am h => hkeys am (List.mem_cons_of_mem _ h)) am' ham'

theorem not_mem_quot_of_edges {es : List (Edge D)} {us : List Xml.Tag} {k : ℕ}
    (hread : List.Forall₂ (fun e u => (edgeElem p e.1 e.2).ReadAs u) (es.zipIdx k) us)
    (hnodup : ∀ u ∈ us, (attrNames p u.attrs).Nodup)
    (hmaps : es = List.zipWith
      (fun e u => ⟨e.source, e.target, attribMap p (u.attrs.drop 3) ∅⟩) es us)
    (hkeys : ∀ e ∈ es, ∀ k ∈ e.attr.keys, KeyOk k) :
    ∀ e ∈ es, ∀ i ∈ attribItems p e.attr, Char.ofNat 34 ∉ i.attr.value := by
  induction es generalizing us k with
  | nil => exact fun _ h => absurd h List.not_mem_nil
  | cons e es ih =>
    rw [List.zipIdx_cons] at hread
    obtain ⟨u, us', hu, hrest, rfl⟩ := List.forall₂_cons_left_iff.mp hread
    obtain ⟨hmap, hmaps⟩ := List.cons.inj hmaps
    intro e' he'
    rcases List.mem_cons.mp he' with rfl | he'
    · refine ReadMap.not_mem_quot (e := edgeElem p e' k)
        ⟨hu, hnodup u List.mem_cons_self, congrArg Edge.attr hmap⟩ rfl (fun i hi => ?_)
        (hkeys _ List.mem_cons_self)
      simp only [edgeElem, List.mem_cons, List.not_mem_nil, or_false] at hi
      rcases hi with rfl | rfl | rfl <;> exact prefix_indexItem (by decide)
    · exact ih hrest (fun u hu => hnodup u (List.mem_cons_of_mem _ hu)) hmaps
        (fun e h => hkeys e (List.mem_cons_of_mem _ h)) e' he'

theorem not_mem_quot_of_specs {entries : List (Str × AttributeMap D)} {us : List Xml.Tag}
    (hread : List.Forall₂ (fun s u => (specsElem p s.1 s.2).ReadAs u) entries us)
    (hnodup : ∀ u ∈ us, (attrNames p u.attrs).Nodup)
    (hmaps : List.Forall₂ (SpecsRead p) entries us)
    (hkeys : ∀ s ∈ entries, ∀ k ∈ s.2.keys, KeyOk k) :
    ∀ s ∈ entries, ∀ i ∈ attribItems p s.2, Char.ofNat 34 ∉ i.attr.value := by
  induction hmaps with
  | nil => exact fun _ h => absurd h List.not_mem_nil
  | @cons s u entries us hsu _ ih =>
    obtain ⟨hu, hrest⟩ := List.forall₂_cons.mp hread
    intro s' hs'
    rcases List.mem_cons.mp hs' with rfl | hs'
    · exact ReadMap.not_mem_quot (e := specsElem p s'.1 s'.2)
        ⟨hu, hnodup u List.mem_cons_self, hsu.map⟩ rfl (fun i hi => absurd hi List.not_mem_nil)
        (hkeys _ List.mem_cons_self)
    · exact ih hrest (fun u hu => hnodup u (List.mem_cons_of_mem _ hu))
        (fun s h => hkeys s (List.mem_cons_of_mem _ h)) s' hs'

/-- A graph that is made again has no quotes in its strings. -/
theorem Remade.not_mem_quot {g : GraphData D} {vs es ss : List Xml.Tag} (h : Remade p g vs es ss)
    (hread : ReadBack p g vs es ss) (hkeys : g.KeysOk) :
    ∀ e ∈ g.elems p, ∀ i ∈ e.items, Char.ofNat 34 ∉ i.attr.value := by
  refine GraphData.elems_cases (fun am ham _ => ?_) (fun e he _ => ?_) (fun s hs => ?_)
  · exact not_mem_quot_of_vertices (List.forall₂_map_left_iff.mp hread.vertices)
      (fun u hu => hread.nodup u (by simp [hu])) h.vertices
      (fun am ham => hkeys am (GraphData.mem_maps_of_vertex ham)) am ham
  · exact not_mem_quot_of_edges (List.forall₂_map_left_iff.mp hread.edges)
      (fun u hu => hread.nodup u (by simp [hu])) h.edges
      (fun e he => hkeys _ (GraphData.mem_maps_of_edge he)) e he
  · exact not_mem_quot_of_specs (List.forall₂_map_left_iff.mp hread.specs)
      (fun u hu => hread.nodup u (by simp [hu])) h.specs
      (fun s hs => hkeys _ (GraphData.mem_maps_of_specs hs)) s hs

/-! ## What must hold -/

/-- The character that the handler sees for one of the file. -/
def seen (p : Platform D) (c : Char) : Char :=
  (if h : c.toNat < 256 then (⟨c, h⟩ : Latin1) else p.substitute c).val

theorem text_transcode_eq_map (cs : List Char) : text (transcode p cs) = cs.map (seen p) :=
  List.map_map

theorem seen_of_lt {c : Char} (h : c.toNat < 256) : seen p c = c := by simp [seen, h]

/-- A file that is read: its tokens, what the handler makes of their events, and where they come
from. -/
structure ReadTokens (p : Platform D) (g r : GraphData D) (tokens : List Xml.Token) : Prop where
  lex : ∃ m, Xml.lex ⟨.content 0, []⟩ (body p g) = some ⟨.content m, tokens⟩
  run : ((tokens.flatMap Xml.Token.events).foldlM (MNGraphHandler.handle p) ⟨∅, false⟩).map
    MNGraphHandler.myGraph = some r
  balance : tokens.countP (fun t => t matches .start _) = tokens.countP (fun t => t matches .close _)
  nodup : ∀ t ∈ tokens, ∀ tag, t.tag? = some tag → (tag.attrs.map Xml.Attr.name).Nodup
  sourced : ∀ t ∈ tokens, ∀ tag, t.tag? = some tag → Xml.SourcedTag (writeGraphXML p g) tag

theorem exists_readTokens {g r : GraphData D} (h : readGraphXML p (writeGraphXML p g) = some r) :
    ∃ tokens, ReadTokens p g r tokens := by
  obtain ⟨evs, hevs, hhandler⟩ := Option.bind_eq_some_iff.mp h
  obtain ⟨h', hrun, hgraph⟩ := Option.bind_eq_some_iff.mp hhandler
  obtain ⟨rest, m, tokens, htext, hlex, rfl, hbalance, hnodup⟩ := Xml.exists_tokens_of_events hevs
  obtain rfl : body p g = rest := List.append_cancel_left ((writeGraphXML_body g).symm.trans htext)
  refine ⟨tokens, ⟨m, hlex⟩, ?_, hbalance, hnodup, ?_⟩
  · rw [hrun, Option.map_some]
    exact hgraph
  · rw [writeGraphXML_body]
    have hstart : Xml.SourcedState Xml.xmlDecl (.content 0) := trivial
    exact (Xml.sourced_lex (l := ⟨.content 0, []⟩) hstart
      (fun _ ht => absurd ht List.not_mem_nil) hlex).2

theorem startTags_flatMap_events (tokens : List Xml.Token) :
    startTags (tokens.flatMap Xml.Token.events) = tokens.filterMap Xml.Token.tag? := by
  induction tokens with
  | nil => rfl
  | cons t tokens ih =>
    have happend : startTags ((t :: tokens).flatMap Xml.Token.events) =
        startTags t.events ++ startTags (tokens.flatMap Xml.Token.events) := by
      rw [List.flatMap_cons]
      exact List.filterMap_append
    rw [happend, ih]
    cases t <;> rfl

namespace ReadTokens

variable {g r : GraphData D} {tokens : List Xml.Token}

/-- Every string that is read is a value in the file, and every label the name of an element. -/
theorem from_tags (h : ReadTokens p g r tokens) : From p (tokens.filterMap Xml.Token.tag?) r := by
  obtain ⟨h', hrun, rfl⟩ := Option.map_eq_some_iff.mp h.run
  have hfrom := from_empty.run (h := ⟨∅, false⟩) hrun
  rwa [List.nil_append, startTags_flatMap_events] at hfrom

theorem sourced_of_mem (h : ReadTokens p g r tokens) {t : Xml.Tag}
    (ht : t ∈ tokens.filterMap Xml.Token.tag?) : Xml.SourcedTag (writeGraphXML p g) t := by
  obtain ⟨tok, htok, htag⟩ := List.mem_filterMap.mp ht
  exact h.sourced tok htok t htag

theorem text_transcode_name {name : List Char} (h : Xml.NameIn (writeGraphXML p g) name) :
    text (transcode p name) = name :=
  text_transcode fun c hc => isLatin_writeGraphXML g c (h.subset hc)

theorem labelsOk (h : ReadTokens p g r tokens) : r.LabelsOk := by
  intro s hs
  obtain ⟨t, ht, hname⟩ := h.from_tags.labels s hs
  have hnameIn := (h.sourced_of_mem ht).1
  rw [← hname, text_transcode_name hnameIn]
  exact hnameIn.isName

theorem exists_decodes (h : ReadTokens p g r tokens) {v : List Char} (hv : v ∈ r.values) :
    ∃ raw value, raw <:+: writeGraphXML p g ∧ Xml.Decodes raw value ∧ value.map (seen p) = v := by
  obtain ⟨am, ham, hv⟩ := List.mem_flatMap.mp hv
  obtain ⟨e, he, rfl⟩ := List.mem_map.mp hv
  obtain ⟨t, ht, a, ha, hval⟩ := h.from_tags.strings am ham e he
  obtain ⟨-, raw, hraw, hdec⟩ := (h.sourced_of_mem ht).2 a ha
  exact ⟨raw, a.value, hraw, hdec, by rw [← text_transcode_eq_map, hval]⟩

/-- **No references**: a graph that comes back has no `&` in its file. -/
theorem not_mem_amp (h : ReadTokens p g g tokens) (hkeys : g.KeysOk) : '&' ∉ writeGraphXML p g := by
  have hwithin := GraphData.refsWithin_writeGraphXML (p := p) hkeys h.labelsOk
  have hvalues := Xml.not_mem_amp_of_read_back
    (fun c hc => seen_of_lt (p := p) (isLatin_writeGraphXML g c hc)) (seen_of_lt (by decide)) hwithin
    fun v hv => h.exists_decodes hv
  intro hamp
  obtain ⟨s, t, htext⟩ := List.append_of_mem hamp
  obtain ⟨v, hv, hwhole⟩ := hwithin ['&'] ⟨rfl, by decide⟩ ⟨s, t, by simp [htext]⟩
  exact hvalues v hv (hwhole.subset (List.mem_singleton_self _))

theorem plainStrings (h : ReadTokens p g g tokens) (hkeys : g.KeysOk) :
    ∀ am ∈ g.maps, PlainStrings am := by
  intro am ham e he c hc
  obtain ⟨raw, value, hraw, hdec, hval⟩ := h.exists_decodes (GraphData.mem_values ham he)
  have hamp : '&' ∉ raw := fun hmem => h.not_mem_amp hkeys (hraw.subset hmem)
  rw [← hval] at hc
  obtain ⟨d, hd, rfl⟩ := List.mem_map.mp hc
  have hlatin : d.toNat < 256 := by
    rcases hdec.mem_or_eq hamp d hd with hmem | rfl
    · exact isLatin_writeGraphXML g d (hraw.subset hmem)
    · decide
  rw [seen_of_lt hlatin]
  exact hdec.isPlain hamp d hd

/-- Without markup in the values, each element is read as one without content. -/
theorem exists_readBack (h : ReadTokens p g g tokens) (hg : g.Built) (hkeys : g.KeysOk) :
    ∃ vs es ss, ReadBack p g vs es ss ∧ Remade p g vs es ss := by
  obtain ⟨m, hlex⟩ := h.lex
  have hok := GraphData.elems_ok (p := p) hkeys h.labelsOk (h.plainStrings hkeys)
  obtain ⟨vs, es, ss, hmarkup, hvs, hes, hss⟩ := exists_of_lex_body hok hlex
  dsimp only at hmarkup
  have hbalance := h.balance
  rw [← Xml.countP_markup rfl tokens, ← Xml.countP_markup (q := fun t => t matches .close _) rfl
    tokens, hmarkup] at hbalance
  have hcloses : ∀ ts ∈ [vs, es, ss], ts.countP (fun t => t matches .close _) = 0 := by
    simp only [List.mem_cons, List.not_mem_nil, or_false, forall_eq_or_imp, forall_eq]
    exact ⟨countP_close hvs, countP_close hes, countP_close hss⟩
  have hstarts := countP_start_of_frame hcloses hbalance
  obtain ⟨vs, rfl, hvs'⟩ := Xml.exists_empties hvs (hstarts _ (by simp))
  obtain ⟨es, rfl, hes'⟩ := Xml.exists_empties hes (hstarts _ (by simp))
  obtain ⟨ss, rfl, hss'⟩ := Xml.exists_empties hss (hstarts _ (by simp))
  have hmem : ∀ u ∈ vs ++ es ++ ss, Xml.Token.empty u ∈ tokens := by
    intro u hu
    have hframe : Xml.Token.empty u ∈ Xml.markup tokens := by
      rw [hmarkup]
      simpa [frame, block, or_assoc] using hu
    exact List.mem_of_mem_filter hframe
  have hread : ReadBack p g vs es ss := by
    refine ⟨hvs', hes', hss', fun u hu => ?_⟩
    have hnames : attrNames p u.attrs = u.attrs.map Xml.Attr.name :=
      List.map_congr_left fun a ha =>
        text_transcode_name ((h.sourced _ (hmem u hu) u rfl).2 a ha).1
    rw [hnames]
    exact h.nodup _ (hmem u hu) u rfl
  refine ⟨vs, es, ss, hread, (handle_frame_iff hg hread).mp ?_⟩
  rw [← hmarkup, Xml.flatMap_events_markup]
  exact h.run

end ReadTokens

/-! ## Elements as they are meant -/

section Tags

variable {g : GraphData D}

theorem readAs_tag {e : Xml.Elem} (h : ∀ i ∈ e.items, Char.ofNat 34 ∉ i.attr.value) :
    e.ReadAs e.tag :=
  ⟨rfl, List.prefix_append _ _, fun ⟨i, hi, hquot⟩ => absurd hquot (h i hi)⟩

theorem isLatin_name {am : AttributeMap D} {i : Xml.Item} (hi : i ∈ attribItems p am) :
    IsLatin i.attr.name := by
  rcases attribItems_cases hi with ⟨e, -, rfl⟩ | ⟨e, -, rfl⟩ | ⟨e, -, rfl⟩ <;>
    exact isLatin_append.mpr ⟨by decide, isLatin_text _⟩

/-- The names of attributes that are meant, as the handler sees them. -/
theorem attrNames_items {items : List Xml.Item} (h : ∀ i ∈ items, IsLatin i.attr.name) :
    attrNames p (items.map Xml.Item.attr) = items.map fun i => i.attr.name := by
  unfold attrNames
  rw [List.map_map]
  exact List.map_congr_left fun i hi => text_transcode (h i hi)

theorem nodup_fixed_items {am : AttributeMap D} (names : List (List Char))
    (hkeys : ∀ k ∈ am.keys, KeyOk k) (hnodup : (names.map ("int_".toList ++ ·)).Nodup)
    (hnames : names ⊆ ["idx".toList, "src".toList, "dst".toList]) :
    (names.map ("int_".toList ++ ·) ++ (attribItems p am).map fun i => i.attr.name).Nodup := by
  refine List.nodup_append.mpr ⟨hnodup, nodup_attribItems hkeys, ?_⟩
  rintro a ha b hb rfl
  obtain ⟨name, hname, rfl⟩ := List.mem_map.mp ha
  exact not_mem_attribItems hkeys (hnames hname) hb

theorem nodup_attrNames (hkeys : g.KeysOk) :
    ∀ e ∈ g.elems p, (attrNames p e.tag.attrs).Nodup := by
  have hattrs {e : Xml.Elem} (hfixed : ∀ i ∈ e.fixed, IsLatin i.attr.name)
      (hitems : ∀ i ∈ e.items, IsLatin i.attr.name) : attrNames p e.tag.attrs =
        (e.fixed.map fun i => i.attr.name) ++ e.items.map fun i => i.attr.name := by
    rw [← attrNames_items (p := p) hfixed, ← attrNames_items (p := p) hitems]
    exact List.map_append
  refine GraphData.elems_cases (fun am ham i => ?_) (fun e he i => ?_) (fun s hs => ?_)
  · rw [hattrs (fun j hj => ?_) (fun j hj => isLatin_name hj)]
    · exact nodup_fixed_items ["idx".toList]
        (hkeys am (GraphData.mem_maps_of_vertex ham)) (by decide) (by decide)
    · rw [List.mem_singleton.mp hj]
      exact show IsLatin "int_idx".toList by decide
  · rw [hattrs (fun j hj => ?_) (fun j hj => isLatin_name hj)]
    · exact nodup_fixed_items ["src".toList, "dst".toList, "idx".toList]
        (hkeys _ (GraphData.mem_maps_of_edge he)) (by decide) (by decide)
    · simp only [edgeElem, List.mem_cons, List.not_mem_nil, or_false] at hj
      rcases hj with rfl | rfl | rfl
      · exact show IsLatin "int_src".toList by decide
      · exact show IsLatin "int_dst".toList by decide
      · exact show IsLatin "int_idx".toList by decide
  · rw [hattrs (fun j hj => absurd hj List.not_mem_nil) (fun j hj => isLatin_name hj)]
    exact nodup_attribItems (hkeys _ (GraphData.mem_maps_of_specs hs))

theorem readBack_tags (hkeys : g.KeysOk)
    (hquot : ∀ e ∈ g.elems p, ∀ i ∈ e.items, Char.ofNat 34 ∉ i.attr.value) :
    ReadBack p g ((g.vertexElems p).map Xml.Elem.tag) ((g.edgeElems p).map Xml.Elem.tag)
      ((g.specsElems p).map Xml.Elem.tag) := by
  have hall {es : List Xml.Elem} (hes : ∀ e ∈ es, e ∈ g.elems p) :
      List.Forall₂ Xml.Elem.ReadAs es (es.map Xml.Elem.tag) :=
    List.forall₂_map_right_iff.mpr (List.forall₂_same.mpr fun e he => readAs_tag (hquot e (hes e he)))
  refine ⟨hall fun e he => ?_, hall fun e he => ?_, hall fun e he => ?_, fun u hu => ?_⟩
  · exact List.mem_append_left _ (List.mem_append_left _ he)
  · exact List.mem_append_left _ (List.mem_append_right _ he)
  · exact List.mem_append_right _ he
  · rw [← List.map_append, ← List.map_append] at hu
    obtain ⟨e, he, rfl⟩ := List.mem_map.mp hu
    exact nodup_attrNames hkeys e he

theorem attribItems_eq_nil {am : AttributeMap D} : attribItems p am = [] ↔ am = ∅ := by
  constructor
  · intro h
    simp only [attribItems, List.append_eq_nil_iff, List.map_eq_nil_iff] at h
    obtain ⟨⟨⟨ss, hss⟩, ⟨is, his⟩, ⟨ds, hds⟩⟩, ⟨rfl, rfl⟩, rfl⟩ := am, h
    rfl
  · rintro rfl
    rfl

theorem vertices_of_tags (hkeys : g.KeysOk) : g.myVertices =
    ((g.vertexElems p).map Xml.Elem.tag).map fun u => attribMap p (u.attrs.drop 1) ∅ := by
  unfold GraphData.vertexElems
  rw [List.map_map, List.map_map]
  conv_lhs => rw [← List.zipIdx_map_fst 0 g.myVertices]
  refine List.map_congr_left fun v hv => ?_
  have hv' := GraphData.mem_maps_of_vertex (g := g) (List.fst_mem_of_mem_zipIdx hv)
  exact (attribMap_attribItems (p := p) (hkeys v.1 hv')).symm

theorem zipWith_edgeElems {es : List (Edge D)} (hkeys : ∀ e ∈ es, ∀ k ∈ e.attr.keys, KeyOk k)
    (k : ℕ) : List.zipWith (fun e (u : Xml.Tag) =>
      (⟨e.source, e.target, attribMap p (u.attrs.drop 3) ∅⟩ : Edge D)) es
      ((es.zipIdx k).map fun e => (edgeElem p e.1 e.2).tag) = es := by
  induction es generalizing k with
  | nil => rfl
  | cons e es ih =>
    have hmap := attribMap_attribItems (p := p) (hkeys e List.mem_cons_self)
    rw [List.zipIdx_cons, List.map_cons, List.zipWith_cons_cons,
      ih (fun e' he' => hkeys e' (List.mem_cons_of_mem _ he'))]
    exact congrArg (fun am => (⟨e.source, e.target, am⟩ : Edge D) :: es) hmap

theorem edges_of_tags (hkeys : g.KeysOk) : g.myEdges = List.zipWith
    (fun e u => ⟨e.source, e.target, attribMap p (u.attrs.drop 3) ∅⟩) g.myEdges
      ((g.edgeElems p).map Xml.Elem.tag) := by
  unfold GraphData.edgeElems
  rw [List.map_map]
  exact (zipWith_edgeElems (fun e he => hkeys _ (GraphData.mem_maps_of_edge he)) 0).symm

theorem specsRead_tags_iff (hkeys : g.KeysOk) :
    List.Forall₂ (SpecsRead p) g.mySpecs.entries ((g.specsElems p).map Xml.Elem.tag) ↔
      ∀ s ∈ g.mySpecs.entries, s.2 ≠ ∅ := by
  unfold GraphData.specsElems
  rw [List.map_map, List.forall₂_map_right_iff, List.forall₂_same]
  refine forall₂_congr fun s hs => ⟨fun h hempty => h.attrs ?_, fun h => ⟨fun hnil => h ?_, ?_⟩⟩
  · exact List.map_eq_nil_iff.mpr (attribItems_eq_nil.mpr hempty)
  · exact attribItems_eq_nil.mp (List.map_eq_nil_iff.mp hnil)
  · exact (attribMap_attribItems (hkeys _ (GraphData.mem_maps_of_specs hs))).symm

end Tags

/-! ## When it comes back -/

/-- What of a graph a file can hold. -/
structure Holdable (p : Platform D) (g : GraphData D) : Prop where
  strings : ∀ am ∈ g.maps, ∀ e ∈ am.myStrings.entries, ∀ c ∈ text e.2, Survives c
  labels : g.LabelsOk
  attributed : ∀ s ∈ g.mySpecs.entries, s.2 ≠ ∅
  last : ∀ s ∈ g.mySpecs.entries, text s.1 = "specs".toList → ∀ s' ∈ g.mySpecs.entries, s'.1 ≤ s.1
  admitted : Admitted p.namespaces ((g.vertexElems p).map Xml.Elem.tag)
    ((g.edgeElems p).map Xml.Elem.tag) ((g.specsElems p).map Xml.Elem.tag)

theorem specsLast_tags_iff {g : GraphData D} : SpecsLast p ((g.specsElems p).map Xml.Elem.tag) ↔
    ∀ s ∈ g.mySpecs.entries, text s.1 = "specs".toList → ∀ s' ∈ g.mySpecs.entries, s'.1 ≤ s.1 := by
  have hends (s : Str × AttributeMap D) :
      EndsSpecs p (specsElem p s.1 s.2).tag ↔ text s.1 = "specs".toList := by
    unfold EndsSpecs
    rw [show transcode p (specsElem p s.1 s.2).tag.name = s.1 from transcode_text s.1]
  have hsorted := g.mySpecs.sorted
  unfold GraphData.specsElems
  rw [List.map_map]
  constructor
  · intro hlast s hs hspecs s' hs'
    obtain ⟨as, bs, heq⟩ := List.append_of_mem hs
    have hnil := hlast (as.map fun s => (specsElem p s.1 s.2).tag) (specsElem p s.1 s.2).tag
      (bs.map fun s => (specsElem p s.1 s.2).tag) (by rw [heq, List.map_append]; rfl)
      ((hends s).mpr hspecs)
    rw [List.map_eq_nil_iff.mp hnil] at heq
    rw [heq] at hs' hsorted
    rcases List.mem_append.mp hs' with hs' | hs'
    · exact le_of_lt ((List.pairwise_append.mp hsorted).2.2 s' hs' s (List.mem_singleton_self _))
    · rw [List.mem_singleton.mp hs']
  · intro hle us₁ u us₂ heq hu
    obtain ⟨as, rest, hentries, rfl, hrest⟩ := List.map_eq_append_iff.mp heq
    obtain ⟨s, bs, rfl, rfl, rfl⟩ := List.map_eq_cons_iff.mp hrest
    have hs : s ∈ g.mySpecs.entries := by simp [hentries]
    refine List.map_eq_nil_iff.mpr (List.eq_nil_iff_forall_not_mem.mpr fun s' hs' => ?_)
    have hlt : s.1 < s'.1 := by
      rw [hentries] at hsorted
      exact (List.pairwise_cons.mp (List.pairwise_append.mp hsorted).2.1).1 s' hs'
    exact absurd (hle s hs ((hends s).mp hu) s' (by simp [hentries, hs'])) (not_le.mpr hlt)

/-- A file without markup and quotes in its values is read as it was meant, where its names are
admitted. -/
theorem readGraphXML_iff_of_not_mem_quot {g : GraphData D} (hg : g.Built) (hkeys : g.KeysOk)
    (hok : ∀ e ∈ g.elems p, e.Ok)
    (hquot : ∀ e ∈ g.elems p, ∀ i ∈ e.items, Char.ofNat 34 ∉ i.attr.value) :
    readGraphXML p (writeGraphXML p g) = some g ↔
      Admitted p.namespaces ((g.vertexElems p).map Xml.Elem.tag)
        ((g.edgeElems p).map Xml.Elem.tag) ((g.specsElems p).map Xml.Elem.tag) ∧
      (∀ s ∈ g.mySpecs.entries, s.2 ≠ ∅) ∧ SpecsLast p ((g.specsElems p).map Xml.Elem.tag) := by
  set vs := (g.vertexElems p).map Xml.Elem.tag
  set es := (g.edgeElems p).map Xml.Elem.tag
  set ss := (g.specsElems p).map Xml.Elem.tag
  have hlex := lex_body hok hquot endsEmpty_of_mem
  have hremade : Remade p g vs es ss ↔
      (∀ s ∈ g.mySpecs.entries, s.2 ≠ ∅) ∧ SpecsLast p ss := by
    refine ⟨fun h => ⟨(specsRead_tags_iff hkeys).mp h.specs, h.last⟩, fun h => ⟨?_, ?_, ?_, h.2⟩⟩
    · exact vertices_of_tags hkeys
    · exact edges_of_tags hkeys
    · exact (specsRead_tags_iff hkeys).mpr h.1
  rw [← hremade, ← handle_frame_iff hg (readBack_tags hkeys hquot)]
  unfold readGraphXML Xml.events
  rw [writeGraphXML_body, if_pos (List.prefix_append _ _), List.drop_left]
  unfold Xml.contentEvents
  rw [hlex]
  show (do
      let events ← (do
        let n ← (frame (vs.map .empty) (es.map .empty) (ss.map .empty)).foldlM
          (Xml.nestStep p.namespaces) ⟨[], false, []⟩
        if n.closed then some n.events else none)
      let h ← events.foldlM (MNGraphHandler.handle p) ⟨∅, false⟩
      some h.myGraph) = some g ↔ _
  cases hnest : (frame (vs.map .empty) (es.map .empty) (ss.map .empty)).foldlM
      (Xml.nestStep p.namespaces) ⟨[], false, []⟩ with
  | none =>
    have hnot : ¬ Admitted p.namespaces vs es ss := fun hadm =>
      absurd (hnest.symm.trans (nest_frame.mpr ⟨hadm, rfl⟩)) (by simp)
    exact ⟨fun h => absurd h (by simp), fun h => absurd h.1 hnot⟩
  | some n =>
    obtain ⟨hadm, rfl⟩ := nest_frame.mp hnest
    rw [and_iff_right hadm, Option.map_eq_some_iff]
    show (List.foldlM (MNGraphHandler.handle p) ⟨∅, false⟩ _).bind (fun h => some h.myGraph) =
      some g ↔ _
    exact Option.bind_eq_some_iff.trans (exists_congr fun h => and_congr_right fun _ =>
      ⟨Option.some.inj, congrArg some⟩)

theorem exists_elem {g : GraphData D} {am : AttributeMap D} (h : am ∈ g.maps) :
    ∃ e ∈ g.elems p, e.items = attribItems p am := by
  rcases mem_maps.mp h with hv | ⟨e, he, rfl⟩ | ⟨s, hs, rfl⟩
  · obtain ⟨i, hi⟩ := List.mem_iff_getElem?.mp hv
    exact ⟨vertexElem p am i, List.mem_append_left _ (List.mem_append_left _
      (List.mem_map.mpr ⟨(am, i), List.mem_zipIdx_iff_getElem?.mpr hi, rfl⟩)), rfl⟩
  · obtain ⟨i, hi⟩ := List.mem_iff_getElem?.mp he
    exact ⟨edgeElem p e i, List.mem_append_left _ (List.mem_append_right _
      (List.mem_map.mpr ⟨(e, i), List.mem_zipIdx_iff_getElem?.mpr hi, rfl⟩)), rfl⟩
  · exact ⟨specsElem p s.1 s.2, List.mem_append_right _ (List.mem_map.mpr ⟨s, hs, rfl⟩), rfl⟩

theorem not_mem_quot_iff {g : GraphData D} (hkeys : g.KeysOk) :
    (∀ e ∈ g.elems p, ∀ i ∈ e.items, Char.ofNat 34 ∉ i.attr.value) ↔
      ∀ am ∈ g.maps, ∀ e ∈ am.myStrings.entries, Char.ofNat 34 ∉ text e.2 := by
  constructor
  · intro h am ham e he
    obtain ⟨el, hel, hitems⟩ := exists_elem (p := p) ham
    refine h el hel (attribItem "" e.1 (text e.2)) ?_
    rw [hitems]
    exact List.mem_append_left _ (List.mem_append_left _ (List.mem_map.mpr ⟨e, he, rfl⟩))
  · intro h
    have hitems : ∀ am ∈ g.maps, ∀ i ∈ attribItems p am, Char.ofNat 34 ∉ i.attr.value := by
      intro am ham i hi hmem
      rcases (attribItems_name (hkeys am ham) hi).2.2 with hvalue | ⟨e, he, rfl⟩
      · exact (hvalue _ hmem).2 rfl
      · exact h am ham e he hmem
    exact GraphData.elems_cases (fun am ham _ => hitems am (GraphData.mem_maps_of_vertex ham))
      (fun e he _ => hitems _ (GraphData.mem_maps_of_edge he))
      (fun s hs => hitems _ (GraphData.mem_maps_of_specs hs))

/-- **Reading back**: a graph is read back from its file exactly when the file can hold it. -/
theorem readGraphXML_writeGraphXML_iff (p : Platform D) (g : MNGraph D)
    (hkeys : g.KeysOk) : readGraphXML p (writeGraphXML p g.toGraphData) = some g.toGraphData ↔
      Holdable p g.toGraphData := by
  constructor
  · intro h
    obtain ⟨tokens, htokens⟩ := exists_readTokens h
    obtain ⟨vs, es, ss, hread, hremade⟩ := htokens.exists_readBack g.built hkeys
    have hplain := htokens.plainStrings hkeys
    have hquot := hremade.not_mem_quot hread hkeys
    have hok := GraphData.elems_ok (p := p) hkeys htokens.labelsOk hplain
    obtain ⟨hadm, hattributed, hlast⟩ :=
      (readGraphXML_iff_of_not_mem_quot g.built hkeys hok hquot).mp h
    refine ⟨fun am ham e he c hc => ⟨hplain am ham e he c hc, ?_⟩, htokens.labelsOk, hattributed,
      specsLast_tags_iff.mp hlast, hadm⟩
    rintro rfl
    exact (not_mem_quot_iff hkeys).mp hquot am ham e he hc
  · intro h
    have hok := GraphData.elems_ok (p := p) hkeys h.labels
      fun am ham e he c hc => (h.strings am ham e he c hc).1
    refine (readGraphXML_iff_of_not_mem_quot g.built hkeys hok ?_).mpr
      ⟨h.admitted, h.attributed, specsLast_tags_iff.mpr h.last⟩
    exact (not_mem_quot_iff hkeys).mpr fun am ham e he hmem => (h.strings am ham e he _ hmem).2 rfl

/-! ## A stub network -/

/-- Whole numbers for doubles, and no names with a prefix. -/
def wholeNumbers : Platform Int32 where
  print d := printInt d.toInt
  strtod s := Int32.ofInt (strtol s)
  strtod_print d := by
    rw [strtol_printInt (by simpa using d.le_toInt) (by simpa using d.toInt_lt), Int32.ofInt_toInt]
  print_numeral d := isNumeral_printInt d.toInt
  namespaces := {
    ok := fun _ tag => ':' ∉ tag.name ∧ ∀ a ∈ tag.attrs, ':' ∉ a.name ∧ a.name ≠ "xmlns".toList
    plain := fun _ _ hname hattrs => by simpa using ⟨hname, hattrs⟩ }
  substitute _ := ⟨'?', by decide⟩

/-- A string of the program. -/
def literal (s : String) : Str := transcode wholeNumbers s.toList

/-- A gateway and a client, and the specs of the link between them. -/
def stub (role : String) : MNGraph Int32 where
  myVertices := [(∅ : AttributeMap Int32).setString (literal "role") (literal role),
    (∅ : AttributeMap Int32).setInteger (literal "vn") 1]
  myEdges := [⟨0, 1, (∅ : AttributeMap Int32).setString (literal "specs") (literal "client-stub")⟩]
  mySpecs := (∅ : SortedMap Str (AttributeMap Int32)).insert (literal "client-stub")
    ((∅ : AttributeMap Int32).setDouble (literal "kbps") 10000)
  built := ⟨by simp, by simp, by simp, by simp⟩

instance : DecidablePred KeyOk := fun k => decidable_of_iff
  (Xml.isName (text k) ∧ ¬ "int_".toList <+: text k ∧ ¬ "dbl_".toList <+: text k ∧
    text k ∉ ["idx".toList, "src".toList, "dst".toList])
  ⟨fun ⟨name, notInt, notDbl, reserved⟩ => ⟨name, notInt, notDbl, reserved⟩,
    fun h => ⟨h.name, h.notInt, h.notDbl, h.reserved⟩⟩

instance (g : GraphData Int32) : Decidable g.KeysOk :=
  inferInstanceAs (Decidable (∀ am ∈ g.maps, ∀ k ∈ am.keys, KeyOk k))

instance : DecidablePred Survives := fun _ => inferInstanceAs (Decidable (_ ∧ _))

instance (cs : List Char) : Decidable (∀ c ∈ cs, Survives c) := List.decidableBAll _ _

theorem stub_read_back : readGraphXML wholeNumbers
    (writeGraphXML wholeNumbers (stub "gateway").toGraphData) =
      some (stub "gateway").toGraphData :=
  (readGraphXML_writeGraphXML_iff wholeNumbers (stub "gateway") (by decide +kernel)).mpr
    { strings := by decide +kernel
      labels := by unfold GraphData.LabelsOk; decide +kernel
      attributed := by decide +kernel
      last := by decide +kernel
      admitted := ⟨by decide +kernel, by decide +kernel, by decide +kernel⟩ }

/-- With `&` in a string, the file is not well-formed. -/
theorem stub_amp_not_read_back : ¬ ∀ g : MNGraph Int32, g.KeysOk →
    readGraphXML wholeNumbers (writeGraphXML wholeNumbers g.toGraphData) = some g.toGraphData := by
  intro h
  have hread := h (stub "R&D") (by decide +kernel)
  exact absurd hread (by decide +kernel)

end Modelnet.Tools

import Modelnet.Tools.GraphRead

/-!
# The elements of a file in the handler

The attributes of a map, read one after the other, make the map (`attribMap_attribItems`), and an
element whose attributes make its map has no quotes in its strings (`ReadMap.not_mem_quot`). The
elements stand in a frame, which the processor accepts when it admits them (`nest_frame`) and which
the handler goes through from the vertices to the specs (`handle_frame`).
-/

namespace Modelnet.Tools

variable {D : Type} {p : Platform D}

/-! ## Attributes that are read as they were meant -/

theorem addAttribute_string {k : Str} (hk : KeyOk k) (s : Str) (am : AttributeMap D) :
    addAttribute p k s am = am.setString k s := by
  have htake {pre : List Char} (hlen : pre.length = 4) (hpre : ¬ pre <+: text k) :
      (text k).take 4 ≠ pre := fun h => hpre (by rw [List.prefix_iff_eq_take, hlen, h])
  unfold addAttribute
  rw [if_neg (htake (by decide) hk.notInt), if_neg (htake (by decide) hk.notDbl)]

theorem text_append (a b : Str) : text (a ++ b) = text a ++ text b := List.map_append

theorem transcode_prefixed (pre : String) (k : Str) (h : IsLatin pre.toList)
    (hlen : pre.toList.length = 4) :
    (text (transcode p (pre.toList ++ text k))).take 4 = pre.toList ∧
      (transcode p (pre.toList ++ text k)).drop 4 = k := by
  have hlen' : (transcode p pre.toList).length = 4 := by simpa [transcode] using hlen
  rw [transcode_append, transcode_text]
  constructor
  · rw [text_append, text_transcode h, List.take_left' hlen]
  · rw [List.drop_left' hlen']

theorem addAttribute_int (k : Str) (i : Int32) (am : AttributeMap D) :
    addAttribute p (transcode p ("int_".toList ++ text k)) (transcode p (printInt i.toInt)) am =
      am.setInteger k i := by
  obtain ⟨htake, hdrop⟩ := transcode_prefixed (p := p) "int_" k (by decide) (by decide)
  have hread : strtol (text (transcode p (printInt i.toInt))) = i.toInt := by
    rw [text_transcode_numeral (isNumeral_printInt _)]
    exact strtol_printInt (by simpa using i.le_toInt) (by simpa using i.toInt_lt)
  unfold addAttribute
  rw [if_pos htake, hdrop, hread, Int32.ofInt_toInt]

theorem addAttribute_double (k : Str) (d : D) (am : AttributeMap D) :
    addAttribute p (transcode p ("dbl_".toList ++ text k)) (transcode p (p.print d)) am =
      am.setDouble k d := by
  obtain ⟨htake, hdrop⟩ := transcode_prefixed (p := p) "dbl_" k (by decide) (by decide)
  unfold addAttribute
  rw [if_neg (by rw [htake]; decide), if_pos htake, hdrop,
    text_transcode_numeral (p.print_numeral d), p.strtod_print]

theorem attribMap_map {α : Type} {f : α → Xml.Attr} {put : AttributeMap D → α → AttributeMap D}
    {l : List α} (h : ∀ x ∈ l, ∀ am, addAttribute p (transcode p (f x).name)
      (transcode p (f x).value) am = put am x) (am : AttributeMap D) :
    attribMap p (l.map f) am = l.foldl put am := by
  induction l generalizing am with
  | nil => rfl
  | cons x l ih =>
    rw [List.map_cons, attribMap_cons, h x List.mem_cons_self, List.foldl_cons]
    exact ih (fun y hy => h y (List.mem_cons_of_mem _ hy)) _

/-- **The attributes of a map make the map.** -/
theorem attribMap_attribItems {am : AttributeMap D} (hkeys : ∀ k ∈ am.keys, KeyOk k) :
    attribMap p ((attribItems p am).map Xml.Item.attr) ∅ = am := by
  have hstrings (l : List (Str × Str)) (m : AttributeMap D) :
      l.foldl (fun m e => m.setString e.1 e.2) m =
        { m with myStrings := l.foldl (fun m e => m.insert e.1 e.2) m.myStrings } := by
    induction l generalizing m with
    | nil => rfl
    | cons e l ih => exact ih _
  have hints (l : List (Str × Int32)) (m : AttributeMap D) :
      l.foldl (fun m e => m.setInteger e.1 e.2) m =
        { m with myInts := l.foldl (fun m e => m.insert e.1 e.2) m.myInts } := by
    induction l generalizing m with
    | nil => rfl
    | cons e l ih => exact ih _
  have hdoubles (l : List (Str × D)) (m : AttributeMap D) :
      l.foldl (fun m e => m.setDouble e.1 e.2) m =
        { m with myDoubles := l.foldl (fun m e => m.insert e.1 e.2) m.myDoubles } := by
    induction l generalizing m with
    | nil => rfl
    | cons e l ih => exact ih _
  have hput_string : ∀ e ∈ am.myStrings.entries, ∀ m : AttributeMap D,
      addAttribute p (transcode p (attribItem "" e.1 (text e.2)).attr.name)
        (transcode p (attribItem "" e.1 (text e.2)).attr.value) m = m.setString e.1 e.2 := by
    intro e he m
    show addAttribute p (transcode p ("".toList ++ text e.1)) (transcode p (text e.2)) m = _
    rw [show "".toList = [] from rfl, List.nil_append, transcode_text, transcode_text]
    exact addAttribute_string (hkeys _ (mem_keys_of_string he)) _ _
  have hput_int : ∀ e ∈ am.myInts.entries, ∀ m : AttributeMap D,
      addAttribute p (transcode p (attribItem "int_" e.1 (printInt e.2.toInt)).attr.name)
        (transcode p (attribItem "int_" e.1 (printInt e.2.toInt)).attr.value) m =
          m.setInteger e.1 e.2 := fun e _ m => addAttribute_int e.1 e.2 m
  have hput_double : ∀ e ∈ am.myDoubles.entries, ∀ m : AttributeMap D,
      addAttribute p (transcode p (attribItem "dbl_" e.1 (p.print e.2)).attr.name)
        (transcode p (attribItem "dbl_" e.1 (p.print e.2)).attr.value) m =
          m.setDouble e.1 e.2 := fun e _ m => addAttribute_double e.1 e.2 m
  have hread_strings := (attribMap_map hput_string ∅).trans (hstrings am.myStrings.entries ∅)
  have hread_ints (m : AttributeMap D) :=
    (attribMap_map hput_int m).trans (hints am.myInts.entries m)
  have hread_doubles (m : AttributeMap D) :=
    (attribMap_map hput_double m).trans (hdoubles am.myDoubles.entries m)
  simp only [attribItems, List.map_append, List.map_map, Function.comp_def, attribMap_append]
  rw [hread_strings, hread_ints, hread_doubles]
  show AttributeMap.mk _ _ _ = am
  congr 1
  · exact SortedMap.foldl_insert_entries am.myStrings
  · exact SortedMap.foldl_insert_entries am.myInts
  · exact SortedMap.foldl_insert_entries am.myDoubles

/-! ## Names of attributes -/

theorem keys_nodup {ν : Type} (m : SortedMap Str ν) : (m.entries.map Prod.fst).Nodup :=
  List.pairwise_map.mpr (m.sorted.imp fun h => ne_of_lt h)

theorem map_name_attribItems (am : AttributeMap D) :
    (attribItems p am).map (fun i => i.attr.name) =
      am.myStrings.entries.map (fun e => text e.1) ++
        am.myInts.entries.map (fun e => "int_".toList ++ text e.1) ++
        am.myDoubles.entries.map fun e => "dbl_".toList ++ text e.1 := by
  simp only [attribItems, List.map_append, List.map_map]
  rfl

theorem nodup_attribItems {am : AttributeMap D} (hkeys : ∀ k ∈ am.keys, KeyOk k) :
    ((attribItems p am).map fun i => i.attr.name).Nodup := by
  have hpre {ν : Type} (pre : List Char) (m : SortedMap Str ν) :
      (m.entries.map fun e => pre ++ text e.1).Nodup := by
    rw [show (fun e : Str × ν => pre ++ text e.1) = (fun k => pre ++ text k) ∘ Prod.fst from rfl,
      ← List.map_map]
    exact (keys_nodup m).map fun a b h => text_injective (List.append_cancel_left h)
  rw [map_name_attribItems]
  refine List.nodup_append.mpr ⟨List.nodup_append.mpr ⟨hpre [] am.myStrings, hpre _ am.myInts, ?_⟩,
    hpre _ am.myDoubles, ?_⟩
  · rintro a ha b hb rfl
    obtain ⟨e, he, rfl⟩ := List.mem_map.mp ha
    obtain ⟨e', -, heq⟩ := List.mem_map.mp hb
    exact (hkeys _ (mem_keys_of_string he)).notInt ⟨_, heq⟩
  · rintro a ha b hb rfl
    obtain ⟨e', -, heq⟩ := List.mem_map.mp hb
    rcases List.mem_append.mp ha with ha | ha
    · obtain ⟨e, he, rfl⟩ := List.mem_map.mp ha
      exact (hkeys _ (mem_keys_of_string he)).notDbl ⟨_, heq⟩
    · obtain ⟨e, -, rfl⟩ := List.mem_map.mp ha
      exact absurd (congrArg List.head? heq) (by simp)

theorem not_mem_attribItems {am : AttributeMap D} (hkeys : ∀ k ∈ am.keys, KeyOk k)
    {name : List Char} (hname : name ∈ ["idx".toList, "src".toList, "dst".toList]) :
    "int_".toList ++ name ∉ (attribItems p am).map fun i => i.attr.name := by
  rw [map_name_attribItems]
  intro hmem
  rcases List.mem_append.mp hmem with hmem | hmem
  · rcases List.mem_append.mp hmem with hmem | hmem
    · obtain ⟨e, he, heq⟩ := List.mem_map.mp hmem
      exact (hkeys _ (mem_keys_of_string he)).notInt ⟨_, heq.symm⟩
    · obtain ⟨e, he, heq⟩ := List.mem_map.mp hmem
      exact (hkeys _ (mem_keys_of_int he)).reserved (List.append_cancel_left heq ▸ hname)
  · obtain ⟨e, -, heq⟩ := List.mem_map.mp hmem
    exact absurd (congrArg List.head? heq) (by simp)

/-! ## The frame of the document -/

/-- An element without attributes. -/
def bare (name : String) : Xml.Tag := ⟨name.toList, []⟩

/-- The tokens of an element that holds others. -/
def block (parent : String) (ts : List Xml.Token) : List Xml.Token :=
  .start (bare parent) :: (ts ++ [.close parent.toList])

/-- The tokens of a topology with the given vertices, edges and specs. -/
def frame (vs es ss : List Xml.Token) : List Xml.Token :=
  .start (bare "topology") :: (block "vertices" vs ++ (block "edges" es ++ (block "specs" ss ++
    [.close "topology".toList])))

theorem lex_tab (n : ℕ) (ts : List Xml.Token) (rest : List Char) :
    Xml.lex ⟨.content n, ts⟩ ('\t' :: rest) = Xml.lex ⟨.content 0, ts⟩ rest :=
  Xml.lex_cons_of_eq (by simp [Xml.step, Xml.next, Xml.isChar, Xml.isSpace]) rest

theorem lex_piece (piece : List Char) {toks : List Xml.Token}
    (h : Xml.lex ⟨.content 0, []⟩ piece = some ⟨.content 0, toks⟩) (n : ℕ) (ts : List Xml.Token) :
    Xml.lex ⟨.content n, ts⟩ ('\t' :: piece) = some ⟨.content 0, ts ++ toks⟩ := by
  rw [lex_tab, Xml.lex_tokens, h]
  rfl

theorem lex_head : Xml.lex ⟨.content 0, []⟩ "\n<topology>\n\t<vertices>\n".toList =
    some ⟨.content 0, [.start (bare "topology"), .start (bare "vertices")]⟩ := by decide +kernel

theorem lex_vertices_end (n : ℕ) (ts : List Xml.Token) :
    Xml.lex ⟨.content n, ts⟩ "\t</vertices>\n\t<edges>\n".toList =
      some ⟨.content 0, ts ++ [.close "vertices".toList, .start (bare "edges")]⟩ :=
  lex_piece "</vertices>\n\t<edges>\n".toList (by decide +kernel) n ts

theorem lex_edges_end (n : ℕ) (ts : List Xml.Token) :
    Xml.lex ⟨.content n, ts⟩ "\t</edges>\n\t<specs>\n".toList =
      some ⟨.content 0, ts ++ [.close "edges".toList, .start (bare "specs")]⟩ :=
  lex_piece "</edges>\n\t<specs>\n".toList (by decide +kernel) n ts

theorem lex_specs_end (n : ℕ) (ts : List Xml.Token) :
    Xml.lex ⟨.content n, ts⟩ "\t</specs>\n</topology>\n".toList =
      some ⟨.content 0, ts ++ [.close "specs".toList, .close "topology".toList]⟩ :=
  lex_piece "</specs>\n</topology>\n".toList (by decide +kernel) n ts

/-- The elements around those of a list. -/
def outer (parent : String) : List Xml.Tag := [bare parent, bare "topology"]

/-- The constraints on the names in a whole document. -/
structure Admitted (ns : Xml.NamespaceRules) (vs es ss : List Xml.Tag) : Prop where
  vertices : ∀ t ∈ vs, Xml.admits ns (outer "vertices") t
  edges : ∀ t ∈ es, Xml.admits ns (outer "edges") t
  specs : ∀ t ∈ ss, Xml.admits ns (outer "specs") t

theorem admits_bare (ns : Xml.NamespaceRules) (tags : List Xml.Tag) {name : String}
    (h : ':' ∉ name.toList) : Xml.admits ns tags (bare name) := by
  have hns := ns.plain tags (bare name) h fun _ ha => absurd ha List.not_mem_nil
  simp [Xml.admits, bare] at hns ⊢
  exact hns

theorem nestStep_start_bare (ns : Xml.NamespaceRules) {n : Xml.Nest} (hopen : n.closed = false)
    {name : String} (h : ':' ∉ name.toList) : Xml.nestStep ns n (.start (bare name)) =
      some { n with stack := bare name :: n.stack, events := n.events ++ [.start (bare name)] } := by
  simp [Xml.nestStep, hopen, admits_bare ns n.stack h]

theorem nestStep_close (ns : Xml.NamespaceRules) {n : Xml.Nest} {name : String} {tags : List Xml.Tag}
    (hstack : n.stack = bare name :: tags) : Xml.nestStep ns n (.close name.toList) =
      some { stack := tags, closed := tags.isEmpty, events := n.events ++ [.stop name.toList] } := by
  simp [Xml.nestStep, hstack, bare]

theorem nest_cons {ns : Xml.NamespaceRules} {n n' : Xml.Nest} {t : Xml.Token}
    (h : Xml.nestStep ns n t = some n') (ts : List Xml.Token) :
    (t :: ts).foldlM (Xml.nestStep ns) n = ts.foldlM (Xml.nestStep ns) n' := by
  rw [List.foldlM_cons, h]
  rfl

/-- A block goes on exactly when its elements are admitted. -/
theorem nest_block {ns : Xml.NamespaceRules} {n : Xml.Nest} (hopen : n.closed = false)
    (hstack : n.stack = [bare "topology"]) {parent : String} (hparent : ':' ∉ parent.toList)
    (us : List Xml.Tag) (more : List Xml.Token) :
    (block parent (us.map .empty) ++ more).foldlM (Xml.nestStep ns) n =
      if ∀ t ∈ us, Xml.admits ns (outer parent) t then
        more.foldlM (Xml.nestStep ns)
          { n with events := n.events ++ (block parent (us.map .empty)).flatMap Xml.Token.events }
      else none := by
  obtain ⟨stack, closed, events⟩ := n
  dsimp only at hopen hstack
  subst hopen hstack
  have hempties : (us.map Xml.Token.empty).foldlM (Xml.nestStep ns)
      ⟨outer parent, false, events ++ [.start (bare parent)]⟩ = _ := Xml.nest_empties us
    ⟨outer parent, false, events ++ [.start (bare parent)]⟩ rfl (by simp [outer])
  unfold block
  rw [List.cons_append, nest_cons (nestStep_start_bare ns rfl hparent), List.append_assoc,
    List.foldlM_append]
  by_cases hall : ∀ t ∈ us, Xml.admits ns (outer parent) t
  · have hpass := hempties.trans (if_pos hall)
    unfold outer at hpass
    rw [if_pos hall, hpass]
    show List.foldlM (Xml.nestStep ns) _ ([.close parent.toList] ++ more) = _
    rw [List.singleton_append, nest_cons (nestStep_close ns rfl)]
    simp [Xml.Token.events, List.flatMap_map]
  · have hfail := hempties.trans (if_neg hall)
    unfold outer at hfail
    rw [if_neg hall, hfail]
    rfl

/-- The frame is well-formed exactly when its elements are admitted. -/
theorem nest_frame {ns : Xml.NamespaceRules} {vs es ss : List Xml.Tag} {n : Xml.Nest} :
    (frame (vs.map .empty) (es.map .empty) (ss.map .empty)).foldlM (Xml.nestStep ns)
        ⟨[], false, []⟩ = some n ↔
      Admitted ns vs es ss ∧ n = ⟨[], true, (frame (vs.map .empty) (es.map .empty)
        (ss.map .empty)).flatMap Xml.Token.events⟩ := by
  have hstart : Xml.nestStep ns ⟨[], false, []⟩ (.start (bare "topology")) =
      some ⟨[bare "topology"], false, [.start (bare "topology")]⟩ :=
    nestStep_start_bare ns rfl (by decide)
  unfold frame
  rw [nest_cons hstart, nest_block rfl rfl (by decide)]
  by_cases hv : ∀ t ∈ vs, Xml.admits ns (outer "vertices") t
  swap
  · rw [if_neg hv]
    exact ⟨fun h => absurd h (by simp), fun h => absurd h.1.vertices hv⟩
  rw [if_pos hv, nest_block rfl rfl (by decide)]
  by_cases he : ∀ t ∈ es, Xml.admits ns (outer "edges") t
  swap
  · rw [if_neg he]
    exact ⟨fun h => absurd h (by simp), fun h => absurd h.1.edges he⟩
  rw [if_pos he, nest_block rfl rfl (by decide)]
  by_cases hs : ∀ t ∈ ss, Xml.admits ns (outer "specs") t
  swap
  · rw [if_neg hs]
    exact ⟨fun h => absurd h (by simp), fun h => absurd h.1.specs hs⟩
  rw [if_pos hs, nest_cons (nestStep_close ns rfl), List.foldlM_nil]
  constructor
  · intro h
    refine ⟨⟨hv, he, hs⟩, ?_⟩
    rw [← Option.some.inj h]
    simp [Xml.Token.events]
  · rintro ⟨-, rfl⟩
    simp [Xml.Token.events]

/-! ## The handler over the frame -/

theorem startElement_bare {h : MNGraphHandler D} (hin : h.inSpecs = false) (name : String)
    (hlatin : IsLatin name.toList) (hvertex : name.toList ≠ "vertex".toList)
    (hedge : name.toList ≠ "edge".toList) (hspecs : name.toList ≠ "specs".toList) :
    h.startElement p (bare name) = some h := by
  have hlabel : text (transcode p (bare name).name) = name.toList := text_transcode hlatin
  unfold MNGraphHandler.startElement
  dsimp only
  rw [if_neg (by simp [hin]), hlabel, if_neg hvertex, if_neg hedge, if_neg hspecs]

theorem startElement_specs {h : MNGraphHandler D} (hin : h.inSpecs = false) :
    h.startElement p (bare "specs") = some { h with inSpecs := true } := by
  have hlabel : text (transcode p (bare "specs").name) = "specs".toList :=
    text_transcode (by decide)
  unfold MNGraphHandler.startElement
  dsimp only
  rw [if_neg (by simp [hin]), hlabel, if_neg (by decide), if_neg (by decide), if_pos rfl]

theorem handle_block {h h' : MNGraphHandler D} {parent : String} {us : List Xml.Tag}
    (hstart : h.startElement p (bare parent) = some h) (hrun : runEmpties p h us = some h')
    (hin : h'.inSpecs = false) (more : List Xml.Event) :
    ((block parent (us.map .empty)).flatMap Xml.Token.events ++ more).foldlM
        (MNGraphHandler.handle p) h = more.foldlM (MNGraphHandler.handle p) h' := by
  have hevents : (block parent (us.map .empty)).flatMap Xml.Token.events ++ more =
      .start (bare parent) :: (emptyEvents us ++ (.stop parent.toList :: more)) := by
    simp [block, emptyEvents, Xml.Token.events, List.flatMap_map]
  have hstop : MNGraphHandler.handle p h' (.stop parent.toList) = some h' :=
    congrArg some (MNGraphHandler.endElement_of_outside hin _)
  unfold runEmpties at hrun
  rw [hevents, List.foldlM_cons, show MNGraphHandler.handle p h (.start (bare parent)) = some h
    from hstart]
  show List.foldlM (MNGraphHandler.handle p) h _ = _
  rw [List.foldlM_append, hrun]
  show List.foldlM (MNGraphHandler.handle p) h' (.stop parent.toList :: more) = _
  rw [List.foldlM_cons, hstop]
  rfl

/-- The whole frame: vertices, edges, and then the specs. -/
theorem handle_frame {vs es ss : List Xml.Tag} {h₁ h₂ : MNGraphHandler D}
    (hvs : runEmpties p ⟨∅, false⟩ vs = some h₁) (hin₁ : h₁.inSpecs = false)
    (hes : runEmpties p h₁ es = some h₂) (hin₂ : h₂.inSpecs = false) :
    (((frame (vs.map .empty) (es.map .empty) (ss.map .empty)).flatMap Xml.Token.events).foldlM
      (MNGraphHandler.handle p) ⟨∅, false⟩).map MNGraphHandler.myGraph =
      (runEmpties p { h₂ with inSpecs := true } ss).map MNGraphHandler.myGraph := by
  have htopology : MNGraphHandler.handle p (⟨∅, false⟩ : MNGraphHandler D)
      (.start (bare "topology")) = some ⟨∅, false⟩ :=
    startElement_bare (p := p) (h := ⟨∅, false⟩) rfl "topology" (by decide) (by decide) (by decide)
      (by decide)
  have hvertices := startElement_bare (p := p) (h := ⟨∅, false⟩) rfl "vertices" (by decide)
    (by decide) (by decide) (by decide)
  have hedges := startElement_bare (p := p) hin₁ "edges" (by decide) (by decide) (by decide)
    (by decide)
  have hevents : (frame (vs.map .empty) (es.map .empty) (ss.map .empty)).flatMap
      Xml.Token.events = .start (bare "topology") ::
        ((block "vertices" (vs.map .empty)).flatMap Xml.Token.events ++
          ((block "edges" (es.map .empty)).flatMap Xml.Token.events ++
            (.start (bare "specs") :: (emptyEvents ss ++
              [.stop "specs".toList, .stop "topology".toList])))) := by
    simp [frame, block, emptyEvents, Xml.Token.events, List.flatMap_map]
  have hspecs : MNGraphHandler.handle p h₂ (.start (bare "specs")) =
      some { h₂ with inSpecs := true } := startElement_specs hin₂
  rw [hevents, List.foldlM_cons, htopology]
  show Option.map _ (List.foldlM (MNGraphHandler.handle p) ⟨∅, false⟩ _) = _
  rw [handle_block hvertices hvs hin₁, handle_block hedges hes hin₂, List.foldlM_cons, hspecs]
  show Option.map _ (List.foldlM (MNGraphHandler.handle p) { h₂ with inSpecs := true } _) = _
  rw [List.foldlM_append]
  unfold runEmpties
  cases List.foldlM (MNGraphHandler.handle p) { h₂ with inSpecs := true } (emptyEvents ss) with
  | none => rfl
  | some h =>
    show Option.map _ (some ((h.endElement p "specs".toList).endElement p "topology".toList)) = _
    have hgraph (h : MNGraphHandler D) (name : List Char) :
        (h.endElement p name).myGraph = h.myGraph := by
      unfold MNGraphHandler.endElement
      split_ifs <;> rfl
    rw [Option.map_some, Option.map_some, hgraph, hgraph]

/-! ## Each element at its place -/

/-- An element that was read as `u`, whose attributes after those that are fixed make `am`. -/
structure ReadMap (p : Platform D) (e : Xml.Elem) (am : AttributeMap D) (u : Xml.Tag) : Prop where
  read : e.ReadAs u
  nodup : (attrNames p u.attrs).Nodup
  map : am = attribMap p (u.attrs.drop e.fixed.length) ∅

/-- **A cut is seen**: where the attributes of an element make the map that was written, no string
has quotes. -/
theorem ReadMap.not_mem_quot {e : Xml.Elem} {am : AttributeMap D} {u : Xml.Tag}
    (h : ReadMap p e am u) (hitems : e.items = attribItems p am)
    (hfixed : ∀ i ∈ e.fixed, "int_".toList <+: i.attr.name) (hkeys : ∀ k ∈ am.keys, KeyOk k) :
    ∀ i ∈ e.items, Char.ofNat 34 ∉ i.attr.value := by
  intro j hj hquot
  obtain ⟨i, hi, hquot, v, hlead, hne, hmem⟩ := h.read.cut ⟨j, hj, hquot⟩
  rw [hitems] at hi
  rcases (attribItems_name hkeys hi).2.2 with hvalue | ⟨⟨k, s⟩, he, rfl⟩
  · exact (hvalue _ hquot).2 rfl
  have hk := hkeys _ (mem_keys_of_string he)
  have hname : (attribItem "" k (text s)).attr.name = text k := rfl
  dsimp only at hmem hk
  rw [hname] at hmem
  obtain ⟨rest, hrest⟩ := h.read.fixed
  have hdrop : u.attrs.drop e.fixed.length = rest := by
    rw [← hrest, List.drop_left' (by simp)]
  have hmem' : ⟨text k, v⟩ ∈ rest := by
    rw [← hrest] at hmem
    refine (List.mem_append.mp hmem).resolve_left fun hfix => ?_
    obtain ⟨i, hi, heq⟩ := List.mem_map.mp hfix
    exact hk.notInt (show text k = i.attr.name by rw [heq] ▸ hfixed i hi)
  have hnodup : (rest.map fun a => text (transcode p a.name)).Nodup := by
    have hall := h.nodup
    rw [← hrest, attrNames, List.map_append] at hall
    exact (List.nodup_append.mp hall).2.1
  have hfind := find?_attribMap (p := p) (List.Nodup.of_map text (by rwa [List.map_map])) hmem' rfl
    hk ∅
  have hmap := h.map
  rw [hdrop] at hmap
  rw [← hmap, SortedMap.find?_eq_some.mpr he] at hfind
  have hs : s = transcode p v := Option.some.inj hfind
  have hlatin : IsLatin v := fun c hc => toNat_of_mem_text (hlead.subset hc)
  exact hne ((text_transcode hlatin).symm.trans (congrArg text hs.symm))

end Modelnet.Tools

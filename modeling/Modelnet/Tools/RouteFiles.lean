import Modelnet.Tools.GraphReadBack
import Modelnet.Tools.Istream
import Modelnet.Tools.Routes

/-!
# Route files

Two programs print paths and two read them. `allpairs` prints the numbers of the virtual nodes as
`int_vnsrc` and `int_vndst`, and what it prints is read back by both readers. `routes` prints the
indices of the vertices as `vnsrc` and `vndst`: with such a path the `RoutesReader` of `buildflows`
exits, and `loadpathtable` of `modelload` passes over the line. So the routes of a topology are read
back only if there are none (`routesAgree_iff`).
-/

namespace Modelnet.Tools

variable {D : Type}

/-! ## What is printed -/

/-- A `path` element: two numbers under their names, and the hops with a blank behind each. -/
def printPath (first second ending : String) (a b : ℤ) (hops : List ℕ) : List Char :=
  "  <path ".toList ++ first.toList ++ "=\"".toList ++ printInt a ++ "\" ".toList ++
    second.toList ++ "=\"".toList ++ printInt b ++ "\" hops=\"".toList ++
    (hops.flatMap fun hop => printInt hop ++ " ".toList) ++ "\"".toList ++ ending.toList

/-- The file around the elements. -/
def printFile (paths : List (List Char)) : List Char :=
  "<?xml version=\"1.0\" encoding=\"ISO-8859-1\"?>\n".toList ++ "<allpairs>\n".toList ++
    paths.flatten ++ "</allpairs>\n".toList

/-- A path between virtual nodes, with their numbers. -/
structure VnPath where
  vnsrc : ℤ
  vndst : ℤ
  hops : List ℕ
  deriving DecidableEq, Repr

/-- A path of `routes.cpp`. -/
def RoutePath.print (path : RoutePath) : List Char :=
  printPath "vnsrc" "vndst" "/>\n" path.src path.dst path.hops

def VnPath.print (path : VnPath) : List Char :=
  printPath "int_vndst" "int_vnsrc" " />\n" path.vndst path.vnsrc path.hops

def printRoutes (paths : List RoutePath) : List Char := printFile (paths.map RoutePath.print)

def printAllpairs (paths : List VnPath) : List Char := printFile (paths.map VnPath.print)

/-! ## `RoutesReader` -/

/-- What the reader fills: the highest pipe, and the routing table, where a pair without an entry
has the empty route. -/
structure Routing where
  numPipes : ℤ
  routingTable : ℤ → ℤ → List ℤ

/-- The value of a key in the map that `startElement` makes of the attributes. -/
def attrValue (p : Platform D) (attrs : List Xml.Attr) (key : String) : Option (List Char) :=
  (attrs.reverse.find? fun a => text (transcode p a.name) = key.toList).map fun a =>
    text (transcode p a.value)

/-- `RoutesReader::onElement`; `none` where it exits. -/
def onElement (p : Platform D) (requested : ℤ → ℤ → Bool) (r : Routing) (tag : Xml.Tag) :
    Option Routing :=
  if text (transcode p tag.name) ≠ "path".toList then some r
  else
    match attrValue p tag.attrs "int_vnsrc", attrValue p tag.attrs "int_vndst",
      attrValue p tag.attrs "hops" with
    | some vnsrc, some vndst, some hops =>
      let src := strtol vnsrc
      let dst := strtol vndst
      if requested src dst then
        let route := ints hops
        some ⟨route.foldl max r.numPipes,
          Function.update r.routingTable src (Function.update (r.routingTable src) dst route)⟩
      else some r
    | _, _, _ => none

def readEvent (p : Platform D) (requested : ℤ → ℤ → Bool) (r : Routing) :
    Xml.Event → Option Routing
  | .start tag => onElement p requested r tag
  | .stop _ => some r

/-- `readRoutes`; a file that is not well-formed is an error exit. -/
def readRoutes (p : Platform D) (requested : ℤ → ℤ → Bool) (file : List Char) :
    Option Routing := do
  let events ← Xml.events p.namespaces file
  events.foldlM (readEvent p requested) ⟨0, fun _ _ => []⟩

/-! ## `loadpathtable` -/

/-- What a pattern gives at the first place where it matches. -/
def leftmost {α : Type} (here : List Char → Option α) : List Char → Option α
  | [] => here []
  | c :: s => here (c :: s) <|> leftmost here s

/-- A pattern of ordinary characters; what comes behind it. -/
def matchText (pattern : List Char) (s : List Char) : Option (List Char) :=
  if pattern.isPrefixOf s then some (s.drop pattern.length) else none

/-- `key="(\d+)"`. -/
def quotedNumber (key : String) (s : List Char) : Option (List Char) :=
  (matchText (key.toList ++ "=\"".toList) s).bind fun rest =>
    let digits := rest.takeWhile Char.isDigit
    if digits ≠ [] ∧ (rest.dropWhile Char.isDigit).head? = some (Char.ofNat 34) then some digits
    else none

/-- `key="(.+)"`, up to the last quote. -/
def quotedText (key : String) (s : List Char) : Option (List Char) :=
  (matchText (key.toList ++ "=\"".toList) s).bind fun rest =>
    let value := ((rest.reverse.dropWhile (· ≠ Char.ofNat 34)).drop 1).reverse
    if value ≠ [] then some value else none

/-- `split ' '`. -/
def words (s : List Char) : List (List Char) := (s.splitOnP isspace).filter (· ≠ [])

/-- An unsigned number, as `pack "L"` takes it; 0 where there is none. -/
def packNumber (s : List Char) : UInt32 :=
  UInt32.ofNat (Nat.ofDigitChars 10 (s.takeWhile Char.isDigit) 0)

/-- What is written to `pathentry`. -/
structure PathEntry where
  vnsrc : UInt32
  vndst : UInt32
  path : List UInt32
  deriving DecidableEq, Repr

/-- The body of the loop over the lines of `$pathfile`. -/
def pathEntry (line : List Char) : Option PathEntry :=
  (leftmost (matchText "int_vndst".toList) line).map fun _ =>
    let vndst := leftmost (quotedNumber "int_vndst") line
    let vnsrc := leftmost (quotedNumber "int_vnsrc") line
    let hopstring := leftmost (quotedText "hops") line
    ⟨packNumber (vnsrc.getD []), packNumber (vndst.getD []),
      (words (hopstring.getD [])).map packNumber⟩

/-- What `loadpathtable` writes to `pathentry` for a file of routes. -/
def loadpathtable (file : List Char) : List PathEntry := (file.splitOn '\n').filterMap pathEntry

/-! ## Agreement -/

def VnPath.entry (path : VnPath) : PathEntry :=
  ⟨UInt32.ofInt path.vnsrc, UInt32.ofInt path.vndst, path.hops.map UInt32.ofNat⟩

/-- Both readers find the hops of each path under the numbers of its virtual nodes, the
`RoutesReader` when all pairs are requested. -/
structure RoutesReadBack (p : Platform D) (file : List Char) (paths : List VnPath) : Prop where
  routesReader : ∃ r, readRoutes p (fun _ _ => true) file = some r ∧
    ∀ path ∈ paths, r.routingTable path.vnsrc path.vndst = path.hops.map Int.ofNat
  loadpathtable : ∀ path ∈ paths, path.entry ∈ loadpathtable file

/-- The number of a virtual node, which `allpairs` and `mkmodel` use. -/
def GraphData.vn (g : GraphData D) (v : ℕ) : ℤ := ((g.vertexAttr v).getInteger (str "vn")).toInt

/-- A path with the numbers of its virtual nodes. -/
def RoutePath.vnPath (g : GraphData D) (path : RoutePath) : VnPath :=
  ⟨g.vn path.src, g.vn path.dst, path.hops⟩

/-- `routes` comes to an end, and what it prints is read back. -/
def RoutesAgree (p : Platform D) (g : GraphData D) : Prop :=
  ∃ fuel paths, routes g fuel = some paths ∧
    RoutesReadBack p (printRoutes paths) (paths.map (RoutePath.vnPath g))

/-! ## The elements of a file -/

section

variable {p : Platform D}

def numberItem (name : String) (z : ℤ) : Xml.Item := ⟨[], ⟨name.toList, printInt z⟩⟩

def hopsText (hops : List ℕ) : List Char := hops.flatMap fun hop => printInt hop ++ " ".toList

/-- The tag of `printPath`. -/
def pathTag (first second : String) (a b : ℤ) (hops : List ℕ) : Xml.Tag :=
  ⟨"path".toList, [⟨first.toList, printInt a⟩, ⟨second.toList, printInt b⟩,
    ⟨"hops".toList, hopsText hops⟩]⟩

theorem printPath_eq (first second ending : String) (a b : ℤ) (hops : List ℕ) :
    printPath first second ending a b hops =
      [' ', ' '] ++ (('<' :: "path".toList ++ [' ']) ++ ((numberItem first a).text ++
        ((numberItem second b).text ++ (("hops".toList ++ '=' :: [] ++ Char.ofNat 34 ::
          hopsText hops ++ [Char.ofNat 34]) ++ ending.toList)))) := by
  have hopen : "  <path ".toList = [' ', ' '] ++ ('<' :: "path".toList ++ [' ']) := by decide
  have hvalue : "=\"".toList = ['=', Char.ofNat 34] := by decide
  have hclose : "\" ".toList = [Char.ofNat 34, ' '] := by decide
  have hhops : "\" hops=\"".toList =
      Char.ofNat 34 :: ' ' :: ("hops".toList ++ ['=', Char.ofNat 34]) := by decide
  have hquot : "\"".toList = [Char.ofNat 34] := by decide
  unfold printPath
  simp only [hopen, hvalue, hclose, hhops, hquot, numberItem, Xml.Item.text, hopsText,
    List.append_assoc, List.cons_append, List.nil_append]

theorem survives_hopsText (hops : List ℕ) : ∀ c ∈ hopsText hops, Survives c := by
  intro c hc
  obtain ⟨hop, -, hc⟩ := List.mem_flatMap.mp hc
  rcases List.mem_append.mp hc with hc | hc
  · exact survives_printInt _ c hc
  · obtain rfl : c = ' ' := by simpa using hc
    exact by decide

theorem numberItem_ok {name : String} (h : Xml.isName name.toList) (z : ℤ) :
    (numberItem name z).Ok where
  name := h
  space := by simp [numberItem]
  value c hc := (survives_printInt z c hc).1

theorem lex_number {name : String} (h : Xml.isName name.toList) (z : ℤ) (tag : Xml.Tag)
    (ts : List Xml.Token) : Xml.lex ⟨.inTag tag true, ts⟩ (numberItem name z).text =
      some ⟨.inTag (tag.push (numberItem name z).attr) true, ts⟩ :=
  Xml.lex_item (numberItem_ok h z) (fun hmem => (survives_printInt z _ hmem).2 rfl) tag ts

/-- **A path is read as the element that it is.** -/
theorem lex_printPath {first second ending : String} (hfirst : Xml.isName first.toList)
    (hsecond : Xml.isName second.toList)
    (hend : ∀ t ts, ∃ m, Xml.lex ⟨.inTag t false, ts⟩ ending.toList =
      some ⟨.content m, ts ++ [.empty t]⟩) (a b : ℤ) (hops : List ℕ) (n : ℕ)
    (ts : List Xml.Token) : ∃ m, Xml.lex ⟨.content n, ts⟩ (printPath first second ending a b hops) =
      some ⟨.content m, ts ++ [.empty (pathTag first second a b hops)]⟩ := by
  have hblank : ∀ c ∈ [' ', ' '], Xml.isSpace c = true := by
    intro c hc
    obtain rfl : c = ' ' := by simpa using hc
    decide
  obtain ⟨m₀, hspaces⟩ := Xml.lex_content_spaces hblank n ts
  have hname : Xml.isName "path".toList := by decide
  have hkey : Xml.isName "hops".toList := by decide
  have hhops (tag : Xml.Tag) : Xml.lex ⟨.inTag tag true, ts⟩
      ("hops".toList ++ '=' :: [] ++ Char.ofNat 34 :: hopsText hops ++ [Char.ofNat 34]) =
        some ⟨.inTag (tag.push ⟨"hops".toList, hopsText hops⟩) false, ts⟩ :=
    Xml.lex_attr (a := ⟨"hops".toList, hopsText hops⟩) hkey (fun _ h => absurd h List.not_mem_nil)
      (survives_hopsText hops) tag ts
  obtain ⟨m, hm⟩ := hend (pathTag first second a b hops) ts
  refine ⟨m, ?_⟩
  rw [printPath_eq, Xml.lex_append_of_eq hspaces,
    Xml.lex_append_of_eq (Xml.lex_startTag hname m₀ ts),
    Xml.lex_append_of_eq (lex_number hfirst a _ ts),
    Xml.lex_append_of_eq (lex_number hsecond b _ ts),
    Xml.lex_append_of_eq (hhops _)]
  exact hm

/-! ## The events of a file -/

/-- The element around the paths. -/
def allpairsTag : Xml.Tag := ⟨"allpairs".toList, []⟩

theorem lex_lines {α : Type*} {line : α → List Char} {tag : α → Xml.Tag}
    (hline : ∀ x n ts, ∃ m, Xml.lex ⟨.content n, ts⟩ (line x) =
      some ⟨.content m, ts ++ [.empty (tag x)]⟩) (xs : List α) (n : ℕ) (ts : List Xml.Token) :
    ∃ m, Xml.lex ⟨.content n, ts⟩ (xs.map line).flatten =
      some ⟨.content m, ts ++ (xs.map tag).map .empty⟩ := by
  induction xs generalizing n ts with
  | nil => exact ⟨n, by simp⟩
  | cons x xs ih =>
    obtain ⟨m₀, hm₀⟩ := hline x n ts
    obtain ⟨m, hm⟩ := ih m₀ (ts ++ [.empty (tag x)])
    refine ⟨m, ?_⟩
    rw [List.map_cons, List.flatten_cons, Xml.lex_append_of_eq hm₀, hm]
    simp

theorem admits_plain {ns : Xml.NamespaceRules} {outer : List Xml.Tag} {tag : Xml.Tag}
    (hname : ':' ∉ tag.name) (hnodup : (tag.attrs.map Xml.Attr.name).Nodup)
    (hattrs : ∀ name ∈ tag.attrs.map Xml.Attr.name, ':' ∉ name ∧ name ≠ "xmlns".toList) :
    Xml.admits ns outer tag = true := by
  have hok := ns.plain outer tag hname fun a ha => hattrs a.name (List.mem_map_of_mem ha)
  simp [Xml.admits, hnodup, hok]

theorem admits_pathTag {ns : Xml.NamespaceRules} {outer : List Xml.Tag} {first second : String}
    (hnodup : [first.toList, second.toList, "hops".toList].Nodup)
    (hnames : ∀ name ∈ [first.toList, second.toList, "hops".toList],
      ':' ∉ name ∧ name ≠ "xmlns".toList) (a b : ℤ) (hops : List ℕ) :
    Xml.admits ns outer (pathTag first second a b hops) = true := by
  have hname : ':' ∉ "path".toList := by decide
  exact admits_plain hname hnodup hnames

theorem nest_elements {ns : Xml.NamespaceRules} {tags : List Xml.Tag}
    (hadmits : ∀ t ∈ tags, Xml.admits ns [allpairsTag] t = true) :
    (Xml.Token.start allpairsTag :: tags.map .empty ++ [Xml.Token.close allpairsTag.name]).foldlM
      (Xml.nestStep ns) ⟨[], false, []⟩ = some ⟨[], true, Xml.Event.start allpairsTag ::
        (tags.flatMap fun t => (Xml.Token.empty t).events) ++
          [Xml.Event.stop allpairsTag.name]⟩ := by
  have hroot : Xml.nestStep ns ⟨[], false, []⟩ (.start allpairsTag) =
      some ⟨[allpairsTag], false, [.start allpairsTag]⟩ := by
    have hadm : Xml.admits ns [] allpairsTag = true :=
      admits_plain (by decide) List.nodup_nil fun _ h => absurd h List.not_mem_nil
    simp [Xml.nestStep, hadm]
  have hall := @Xml.nest_empties ns tags ⟨[allpairsTag], false, [.start allpairsTag]⟩ rfl (by simp)
  rw [if_pos hadmits] at hall
  rw [List.cons_append, List.foldlM_cons, hroot]
  simp only [Option.bind_eq_bind, Option.bind_some, List.foldlM_append, hall]
  simp [Xml.nestStep]

/-- **The events of a file of empty elements.** -/
theorem events_printFile {ns : Xml.NamespaceRules} {α : Type*} {line : α → List Char}
    {tag : α → Xml.Tag} (hline : ∀ x n ts, ∃ m, Xml.lex ⟨.content n, ts⟩ (line x) =
      some ⟨.content m, ts ++ [.empty (tag x)]⟩)
    (hadmits : ∀ x, Xml.admits ns [allpairsTag] (tag x) = true) (xs : List α) :
    Xml.events ns (printFile (xs.map line)) = some (Xml.Event.start allpairsTag ::
      ((xs.map tag).flatMap fun t => (Xml.Token.empty t).events) ++
        [Xml.Event.stop allpairsTag.name]) := by
  have htext : printFile (xs.map line) = Xml.xmlDecl ++ ("\n<allpairs>\n".toList ++
      ((xs.map line).flatten ++ "</allpairs>\n".toList)) := by
    have hdecl : "<?xml version=\"1.0\" encoding=\"ISO-8859-1\"?>\n".toList ++
        "<allpairs>\n".toList = Xml.xmlDecl ++ "\n<allpairs>\n".toList := by decide
    unfold printFile
    rw [hdecl]
    simp only [List.append_assoc]
  have hhead : Xml.lex ⟨.content 0, []⟩ "\n<allpairs>\n".toList =
      some ⟨.content 0, [.start allpairsTag]⟩ := rfl
  have htail (m : ℕ) (ts : List Xml.Token) : Xml.lex ⟨.content m, ts⟩ "</allpairs>\n".toList =
      some ⟨.content 0, ts ++ [.close allpairsTag.name]⟩ := by
    rw [Xml.lex_tokens]
    rfl
  obtain ⟨m, hbody⟩ := lex_lines hline xs 0 [.start allpairsTag]
  unfold Xml.events
  rw [htext, if_pos (List.prefix_append _ _), List.drop_left]
  unfold Xml.contentEvents
  rw [Xml.lex_append_of_eq hhead, Xml.lex_append_of_eq hbody, htail]
  have hall : ∀ t ∈ xs.map tag, Xml.admits ns [allpairsTag] t = true := by
    intro t ht
    obtain ⟨x, -, rfl⟩ := List.mem_map.mp ht
    exact hadmits x
  have hnest := nest_elements hall
  simp only [Option.bind_eq_bind, Option.bind_some, List.singleton_append, hnest]
  rfl

/-! ## What the readers find -/

theorem isLatin_hopsText (hops : List ℕ) : IsLatin (hopsText hops) := by
  intro c hc
  obtain ⟨hop, -, hc⟩ := List.mem_flatMap.mp hc
  rcases List.mem_append.mp hc with hc | hc
  · have := toNat_of_isNumeral (isNumeral_printInt _ c hc)
    omega
  · obtain rfl : c = ' ' := by simpa using hc
    exact by decide

theorem attrValue_pathTag {first second : String} (hfirst : IsLatin first.toList)
    (hsecond : IsLatin second.toList) (a b : ℤ) (hops : List ℕ) (key : String) :
    attrValue p (pathTag first second a b hops).attrs key =
      if "hops".toList = key.toList then some (hopsText hops)
      else if second.toList = key.toList then some (printInt b)
      else if first.toList = key.toList then some (printInt a)
      else none := by
  have hhops : IsLatin "hops".toList := by decide
  unfold attrValue pathTag
  generalize "hops".toList = third at hhops ⊢
  simp only [List.reverse_cons, List.reverse_nil, List.nil_append, List.cons_append,
    List.find?_cons, List.find?_nil, text_transcode hhops, text_transcode hsecond,
    text_transcode hfirst]
  by_cases h : third = key.toList
  · simp [h, text_transcode (isLatin_hopsText hops)]
  · by_cases h' : second.toList = key.toList
    · simp [h, h', text_transcode_numeral (isNumeral_printInt b)]
    · by_cases h'' : first.toList = key.toList
      · simp [h, h', h'', text_transcode_numeral (isNumeral_printInt a)]
      · simp [h, h', h'']

theorem onElement_allpairsTag (requested : ℤ → ℤ → Bool) (r : Routing) :
    onElement p requested r allpairsTag = some r := by
  have hlatin : IsLatin allpairsTag.name := by decide
  unfold onElement
  rw [text_transcode hlatin, if_pos (by decide)]

/-- **A path of `routes` ends the reader.** -/
theorem onElement_route (requested : ℤ → ℤ → Bool) (r : Routing) (a b : ℤ) (hops : List ℕ) :
    onElement p requested r (pathTag "vnsrc" "vndst" a b hops) = none := by
  have hlatin : IsLatin "path".toList := by decide
  have hname : text (transcode p (pathTag "vnsrc" "vndst" a b hops).name) = "path".toList :=
    text_transcode hlatin
  have hsrc : attrValue p (pathTag "vnsrc" "vndst" a b hops).attrs "int_vnsrc" = none := by
    rw [attrValue_pathTag (by decide) (by decide), if_neg (by decide), if_neg (by decide),
      if_neg (by decide)]
  unfold onElement
  rw [if_neg (not_not.mpr hname), hsrc]

end

/-! ## Agreement -/

section

variable {p : Platform D} {g : GraphData D}

theorem lex_route (path : RoutePath) (n : ℕ) (ts : List Xml.Token) :
    ∃ m, Xml.lex ⟨.content n, ts⟩ path.print = some ⟨.content m,
      ts ++ [.empty (pathTag "vnsrc" "vndst" path.src path.dst path.hops)]⟩ := by
  refine lex_printPath (by decide) (by decide) (fun t ts => ⟨0, ?_⟩) _ _ _ n ts
  rw [Xml.lex_tokens]
  rfl

theorem events_printRoutes (ns : Xml.NamespaceRules) (paths : List RoutePath) :
    Xml.events ns (printRoutes paths) = some (Xml.Event.start allpairsTag ::
      ((paths.map fun path => pathTag "vnsrc" "vndst" path.src path.dst path.hops).flatMap
        fun t => (Xml.Token.empty t).events) ++ [Xml.Event.stop allpairsTag.name]) :=
  events_printFile lex_route
    (fun path => admits_pathTag (by decide) (by decide) path.src path.dst path.hops) paths

/-- The reader comes to the end of the file only if it has no path. -/
theorem readRoutes_printRoutes (requested : ℤ → ℤ → Bool) (paths : List RoutePath) :
    readRoutes p requested (printRoutes paths) =
      if paths = [] then some ⟨0, fun _ _ => []⟩ else none := by
  unfold readRoutes
  rw [events_printRoutes]
  simp only [Option.bind_eq_bind, Option.bind_some, List.cons_append, List.foldlM_cons, readEvent,
    onElement_allpairsTag]
  cases paths with
  | nil => rfl
  | cons path paths =>
    rw [if_neg (List.cons_ne_nil _ _)]
    simp only [List.map_cons, List.flatMap_cons, Xml.Token.events, List.cons_append,
      List.foldlM_cons, readEvent, onElement_route]
    rfl

theorem routesReadBack_iff (paths : List RoutePath) (vnPaths : List VnPath)
    (hlen : paths = [] ↔ vnPaths = []) :
    RoutesReadBack p (printRoutes paths) vnPaths ↔ paths = [] := by
  constructor
  · intro h
    obtain ⟨r, hr, -⟩ := h.routesReader
    rw [readRoutes_printRoutes] at hr
    exact (Option.ite_none_right_eq_some.mp hr).1
  · intro hnil
    rw [hlen.mp hnil]
    refine ⟨⟨⟨0, fun _ _ => []⟩, ?_, fun _ h => absurd h List.not_mem_nil⟩,
      fun _ h => absurd h List.not_mem_nil⟩
    rw [readRoutes_printRoutes, if_pos hnil]

/-- **Routes.** What `routes` prints is read back if and only if it prints nothing: no edge leads to
a virtual node while there is another one. -/
theorem routesAgree_iff (p : Platform D) (g : MNGraph D) :
    RoutesAgree p g.toGraphData ↔ ¬ ∃ src dst, g.isVirtnode src ∧ g.isVirtnode dst ∧ src ≠ dst ∧
      ∃ e ∈ g.myEdges, e.target = dst := by
  have hedge : ∀ dst, (∃ e < g.myEdges.length, g.target e = dst) ↔
      ∃ e ∈ g.myEdges, e.target = dst := by
    intro dst
    rw [List.exists_mem_iff_getElem]
    refine exists_congr fun e => ?_
    unfold GraphData.target
    constructor
    · rintro ⟨he, heq⟩
      rw [List.getElem?_eq_getElem he] at heq
      exact ⟨he, heq⟩
    · rintro ⟨he, heq⟩
      refine ⟨he, ?_⟩
      rw [List.getElem?_eq_getElem he]
      exact heq
  constructor
  · rintro ⟨fuel, paths, hpaths, hread⟩ ⟨src, dst, hsrc, hdst, hne, he⟩
    rw [routesReadBack_iff _ _ List.map_eq_nil_iff.symm] at hread
    have hmem := (mem_targets g.built).mpr ⟨hdst, hne.symm, (hedge dst).mpr he⟩
    obtain ⟨path, hpath, -⟩ := exists_mem_routes hpaths hsrc hmem
    rw [hread] at hpath
    exact List.not_mem_nil hpath
  · intro hnone
    refine ⟨0, [], routes_of_no_targets fun src hsrc => ?_,
      (routesReadBack_iff _ _ List.map_eq_nil_iff.symm).mpr rfl⟩
    refine List.eq_nil_iff_forall_not_mem.mpr fun dst hdst => hnone ?_
    obtain ⟨hvirt, hne, he⟩ := (mem_targets g.built).mp hdst
    exact ⟨src, dst, (List.mem_filter.mp hsrc).2, hvirt, hne.symm, (hedge dst).mp he⟩

end

/-! ## Two nodes -/

/-- Two virtual nodes and an edge from one to the other. -/
def oneWay : MNGraph Int32 where
  myVertices :=
    [((∅ : AttributeMap Int32).setString (str "role") (str "virtnode")).setInteger (str "vn") 0,
      ((∅ : AttributeMap Int32).setString (str "role") (str "virtnode")).setInteger (str "vn") 1]
  myEdges := [⟨0, 1, ∅⟩]
  mySpecs := ∅
  built := ⟨by simp, by simp, by simp, by simp⟩

/-- The path over the edge is printed, and not read back. -/
theorem not_routesAgree_oneWay : routes oneWay.toGraphData 1 = some [⟨0, 1, [0]⟩] ∧
    loadpathtable (printRoutes [⟨0, 1, [0]⟩]) = [] ∧
    ¬ RoutesAgree wholeNumbers oneWay.toGraphData := by
  refine ⟨by decide +kernel, by decide +kernel, ?_⟩
  rintro ⟨fuel, paths, hpaths, hread⟩
  rw [routesReadBack_iff _ _ List.map_eq_nil_iff.symm] at hread
  have htarget : 1 ∈ targets oneWay.toGraphData 0 := by decide +kernel
  obtain ⟨path, hpath, -⟩ := exists_mem_routes hpaths (by decide +kernel) htarget
  rw [hread] at hpath
  exact List.not_mem_nil hpath

end Modelnet.Tools

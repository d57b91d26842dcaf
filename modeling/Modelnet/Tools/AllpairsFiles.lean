import Modelnet.Tools.RouteFiles

/-!
# Route files of `allpairs`

What `allpairs` prints is read back by `RoutesReader` and by `loadpathtable`, as long as numbers and
hops are of type `int` and no pair has two paths (`routesReadBack_printAllpairs`). The reader of
`buildflows` gets the attributes by their names; `modelload` finds them in the line with patterns,
each of which matches where its key stands and nowhere before.
-/

namespace Modelnet.Tools

variable {D : Type} {p : Platform D}

/-- The numbers of a path are not negative, and are of type `int`. There is a hop. -/
structure VnPath.Ok (path : VnPath) : Prop where
  vnsrc : 0 ≤ path.vnsrc ∧ path.vnsrc < 2 ^ 31
  vndst : 0 ≤ path.vndst ∧ path.vndst < 2 ^ 31
  hops : ∀ hop ∈ path.hops, hop < 2 ^ 31
  hops_ne : path.hops ≠ []

/-! ## `RoutesReader` -/

theorem ints_hopsText {hops : List ℕ} (h : ∀ hop ∈ hops, hop < 2 ^ 31) :
    ints (hopsText hops) = hops.map Int.ofNat := by
  induction hops with
  | nil => rfl
  | cons hop hops ih =>
    have hrest := ih fun x hx => h x (List.mem_cons_of_mem _ hx)
    have hlt := h hop List.mem_cons_self
    have htext : hopsText (hop :: hops) = printInt hop ++ ' ' :: hopsText hops := by
      simp [hopsText]
    have hall : ∀ z ∈ (hop : ℤ) :: hops.map Int.ofNat, decide (IsInt z) = true := by
      intro z hz
      obtain ⟨x, hx, rfl⟩ := List.mem_map.mp (show z ∈ (hop :: hops).map Int.ofNat from hz)
      have := h x hx
      have hcast : Int.ofNat x = x := rfl
      exact decide_eq_true ⟨by omega, by omega⟩
    rw [htext, ints_printInt _ (by decide), ints_space (by decide), hrest,
      List.takeWhile_eq_self_iff.mpr hall]
    rfl

def Routing.add (r : Routing) (path : VnPath) : Routing where
  numPipes := (path.hops.map Int.ofNat).foldl max r.numPipes
  routingTable := Function.update r.routingTable path.vnsrc
    (Function.update (r.routingTable path.vnsrc) path.vndst (path.hops.map Int.ofNat))

theorem onElement_allpairs {path : VnPath} (h : path.Ok) (r : Routing) :
    onElement p (fun _ _ => true) r
      (pathTag "int_vndst" "int_vnsrc" path.vndst path.vnsrc path.hops) = some (r.add path) := by
  have hlatin : IsLatin "path".toList := by decide
  have hname : text (transcode p (pathTag "int_vndst" "int_vnsrc" path.vndst path.vnsrc
      path.hops).name) = "path".toList := text_transcode hlatin
  have hfirst : IsLatin "int_vndst".toList := by decide
  have hsecond : IsLatin "int_vnsrc".toList := by decide
  have hattr := attrValue_pathTag (p := p) hfirst hsecond path.vndst path.vnsrc path.hops
  obtain ⟨hsrcpos, hsrclt⟩ := h.vnsrc
  obtain ⟨hdstpos, hdstlt⟩ := h.vndst
  have hsrc := hattr "int_vnsrc"
  have hdst := hattr "int_vndst"
  have hhops := hattr "hops"
  rw [if_neg (by decide), if_pos rfl] at hsrc
  rw [if_neg (by decide), if_neg (by decide), if_pos rfl] at hdst
  rw [if_pos rfl] at hhops
  unfold onElement
  rw [if_neg (not_not.mpr hname), hsrc, hdst, hhops]
  dsimp only
  rw [if_pos rfl, strtol_printInt (by omega) hsrclt, strtol_printInt (by omega) hdstlt,
    ints_hopsText h.hops]
  rfl

theorem routingTable_add (r : Routing) (path : VnPath) (s d : ℤ) :
    (r.add path).routingTable s d =
      if s = path.vnsrc ∧ d = path.vndst then path.hops.map Int.ofNat else r.routingTable s d := by
  unfold Routing.add
  dsimp only
  by_cases hs : s = path.vnsrc
  · subst hs
    rw [Function.update_self]
    by_cases hd : d = path.vndst
    · subst hd
      rw [Function.update_self, if_pos ⟨rfl, rfl⟩]
    · rw [Function.update_of_ne hd, if_neg fun h => hd h.2]
  · rw [Function.update_of_ne hs, if_neg fun h => hs h.1]

/-- No pair has two paths. -/
def OnePathEach (paths : List VnPath) : Prop :=
  paths.Pairwise fun a b => ¬ (a.vnsrc = b.vnsrc ∧ a.vndst = b.vndst)

theorem routingTable_foldl_of_ne {paths : List VnPath} {s d : ℤ}
    (h : ∀ path ∈ paths, ¬ (s = path.vnsrc ∧ d = path.vndst)) (r : Routing) :
    (paths.foldl Routing.add r).routingTable s d = r.routingTable s d := by
  induction paths generalizing r with
  | nil => rfl
  | cons path paths ih =>
    rw [List.foldl_cons, ih fun b hb => h b (List.mem_cons_of_mem _ hb), routingTable_add,
      if_neg (h path List.mem_cons_self)]

theorem routingTable_foldl {paths : List VnPath} (hpaths : OnePathEach paths) (r : Routing)
    {path : VnPath} (h : path ∈ paths) :
    (paths.foldl Routing.add r).routingTable path.vnsrc path.vndst = path.hops.map Int.ofNat := by
  induction paths generalizing r with
  | nil => exact absurd h List.not_mem_nil
  | cons first paths ih =>
    obtain ⟨hfirst, hrest⟩ := List.pairwise_cons.mp hpaths
    rcases List.mem_cons.mp h with rfl | h
    · rw [List.foldl_cons, routingTable_foldl_of_ne hfirst, routingTable_add, if_pos ⟨rfl, rfl⟩]
    · exact ih hrest _ h

theorem foldlM_paths {paths : List VnPath} (h : ∀ path ∈ paths, path.Ok) (r : Routing)
    (rest : List Xml.Event) :
    (((paths.map fun path => pathTag "int_vndst" "int_vnsrc" path.vndst path.vnsrc
        path.hops).flatMap fun t => (Xml.Token.empty t).events) ++ rest).foldlM
          (readEvent p fun _ _ => true) r =
      rest.foldlM (readEvent p fun _ _ => true) (paths.foldl Routing.add r) := by
  induction paths generalizing r with
  | nil => rfl
  | cons path paths ih =>
    have hread := onElement_allpairs (p := p) (h path List.mem_cons_self) r
    have hrest := ih (fun b hb => h b (List.mem_cons_of_mem _ hb)) (r.add path)
    rw [List.map_cons, List.flatMap_cons, Xml.Token.events, List.append_assoc, List.foldl_cons,
      ← hrest]
    simp only [List.cons_append, List.nil_append, List.foldlM_cons, readEvent, hread,
      Option.bind_eq_bind, Option.bind_some]

/-- **The table that `buildflows` reads.** -/
theorem readRoutes_printAllpairs {paths : List VnPath} (h : ∀ path ∈ paths, path.Ok) :
    readRoutes p (fun _ _ => true) (printAllpairs paths) =
      some (paths.foldl Routing.add ⟨0, fun _ _ => []⟩) := by
  have hline : ∀ (path : VnPath) n ts, ∃ m, Xml.lex ⟨.content n, ts⟩ path.print = some ⟨.content m,
      ts ++ [.empty (pathTag "int_vndst" "int_vnsrc" path.vndst path.vnsrc path.hops)]⟩ := by
    intro path n ts
    refine lex_printPath (by decide) (by decide) (fun t ts => ⟨0, ?_⟩) _ _ _ n ts
    rw [Xml.lex_tokens]
    rfl
  have hadmits (path : VnPath) : Xml.admits p.namespaces [allpairsTag]
      (pathTag "int_vndst" "int_vnsrc" path.vndst path.vnsrc path.hops) = true :=
    admits_pathTag (by decide) (by decide) path.vndst path.vnsrc path.hops
  unfold readRoutes printAllpairs
  rw [events_printFile hline hadmits paths]
  simp only [Option.bind_eq_bind, Option.bind_some, List.cons_append, List.foldlM_cons, readEvent,
    onElement_allpairsTag]
  rw [foldlM_paths h]
  rfl

/-! ## `loadpathtable` -/

/-- A pattern does not match where another character stands. -/
theorem leftmost_skip {α : Type} {here : List Char → Option α} {k : Char}
    (hhere : ∀ c s, c ≠ k → here (c :: s) = none) {a : List Char} (ha : k ∉ a) (s : List Char) :
    leftmost here (a ++ s) = leftmost here s := by
  induction a with
  | nil => rfl
  | cons c a ih =>
    have hc : c ≠ k := fun heq => ha (heq ▸ List.mem_cons_self)
    rw [List.cons_append, leftmost, hhere _ _ hc, ih fun hmem => ha (List.mem_cons_of_mem _ hmem)]
    rfl

theorem leftmost_of_some {α : Type} {here : List Char → Option α} {s : List Char} {x : α}
    (h : here s = some x) : leftmost here s = some x := by
  cases s with
  | nil => exact h
  | cons c s => rw [leftmost, h]; rfl

theorem leftmost_of_none {α : Type} {here : List Char → Option α} {c : Char} {s : List Char}
    (h : here (c :: s) = none) : leftmost here (c :: s) = leftmost here s := by
  rw [leftmost, h]
  rfl

theorem matchText_append (pattern s : List Char) : matchText pattern (pattern ++ s) = some s := by
  unfold matchText
  rw [if_pos (List.isPrefixOf_iff_prefix.mpr (List.prefix_append _ _)), List.drop_left]

theorem matchText_cons_of_ne {c k : Char} (h : c ≠ k) (pattern s : List Char) :
    matchText (k :: pattern) (c :: s) = none := by
  unfold matchText
  rw [if_neg]
  intro hpre
  exact h (List.cons_prefix_cons.mp (List.isPrefixOf_iff_prefix.mp hpre)).1.symm

theorem quotedNumber_skip (key : String) {k : Char} {ks : List Char} (hkey : key.toList = k :: ks)
    (c : Char) (s : List Char) (h : c ≠ k) : quotedNumber key (c :: s) = none := by
  unfold quotedNumber
  rw [hkey, List.cons_append, matchText_cons_of_ne h]
  rfl

theorem quotedText_skip (key : String) {k : Char} {ks : List Char} (hkey : key.toList = k :: ks)
    (c : Char) (s : List Char) (h : c ≠ k) : quotedText key (c :: s) = none := by
  unfold quotedText
  rw [hkey, List.cons_append, matchText_cons_of_ne h]
  rfl

theorem isDigit_of_mem_toDigits {n : ℕ} : ∀ c ∈ Nat.toDigits 10 n, c.isDigit = true := fun _ hc =>
  Nat.isDigit_of_mem_toDigits (by decide) (by decide) hc

theorem quotedNumber_toDigits (key : String) (n : ℕ) (rest : List Char) :
    quotedNumber key (key.toList ++ "=\"".toList ++ (Nat.toDigits 10 n ++ Char.ofNat 34 :: rest)) =
      some (Nat.toDigits 10 n) := by
  have hquot : (Char.ofNat 34).isDigit = false := by decide
  unfold quotedNumber
  rw [matchText_append, Option.bind_some]
  dsimp only
  rw [List.takeWhile_append_of_pos isDigit_of_mem_toDigits,
    List.dropWhile_append_of_pos isDigit_of_mem_toDigits, List.takeWhile_cons, List.dropWhile_cons,
    hquot]
  simp [Nat.toDigits_ne_nil]

theorem quotedText_last (key : String) {value rest : List Char} (hne : value ≠ [])
    (hrest : Char.ofNat 34 ∉ rest) :
    quotedText key (key.toList ++ "=\"".toList ++ (value ++ Char.ofNat 34 :: rest)) =
      some value := by
  have hdrop : (value ++ Char.ofNat 34 :: rest).reverse.dropWhile (· ≠ Char.ofNat 34) =
      Char.ofNat 34 :: value.reverse := by
    have hall : ∀ c ∈ rest.reverse, decide (c ≠ Char.ofNat 34) = true := by
      intro c hc
      refine decide_eq_true ?_
      rintro rfl
      exact hrest (List.mem_reverse.mp hc)
    rw [List.reverse_append, List.reverse_cons, List.append_assoc,
      List.dropWhile_append_of_pos hall]
    simp
  unfold quotedText
  rw [matchText_append, Option.bind_some]
  dsimp only
  rw [hdrop, List.drop_one, List.tail_cons, List.reverse_reverse, if_pos hne]

theorem packNumber_toDigits (n : ℕ) : packNumber (Nat.toDigits 10 n) = UInt32.ofNat n := by
  unfold packNumber
  rw [ofDigitChars_takeWhile]

theorem words_hopsText (hops : List ℕ) : words (hopsText hops) = hops.map (Nat.toDigits 10) := by
  induction hops with
  | nil => rfl
  | cons hop hops ih =>
    have htext : hopsText (hop :: hops) = Nat.toDigits 10 hop ++ ' ' :: hopsText hops := by
      simp [hopsText, printInt]
    have hdigits : ∀ c ∈ Nat.toDigits 10 hop, isspace c = false := fun c hc =>
      isspace_of_isDigit (isDigit_of_mem_toDigits c hc)
    unfold words at ih ⊢
    rw [htext, List.splitOnP_append_cons_of_forall_mem hdigits ' ' (by decide),
      List.filter_cons_of_pos (by simp), ih, List.map_cons]

/-- The line of a path, with its numbers and hops as texts. -/
def pathLine (vndst vnsrc hops : List Char) : List Char :=
  "  <path ".toList ++ ("int_vndst".toList ++ "=\"".toList ++ (vndst ++ Char.ofNat 34 ::
    (" ".toList ++ ("int_vnsrc".toList ++ "=\"".toList ++ (vnsrc ++ Char.ofNat 34 ::
      (" ".toList ++ ("hops".toList ++ "=\"".toList ++ (hops ++ Char.ofNat 34 ::
        " />".toList))))))))

theorem print_eq {path : VnPath} (h : path.Ok) : path.print =
    pathLine (Nat.toDigits 10 path.vndst.natAbs) (Nat.toDigits 10 path.vnsrc.natAbs)
      (hopsText path.hops) ++ ['\n'] := by
  have hclose : "\" ".toList = Char.ofNat 34 :: " ".toList := by decide
  have hhops : "\" hops=\"".toList =
      Char.ofNat 34 :: (" ".toList ++ ("hops".toList ++ "=\"".toList)) := by decide
  have hend : " />\n".toList = " />".toList ++ ['\n'] := by decide
  have hquot : "\"".toList = [Char.ofNat 34] := by decide
  unfold VnPath.print printPath pathLine hopsText printInt
  rw [if_neg (not_lt.mpr h.vndst.1), if_neg (not_lt.mpr h.vnsrc.1), hclose, hhops, hend, hquot]
  simp only [List.append_assoc, List.cons_append, List.nil_append]

section

variable (d s : ℕ) (hops : List ℕ)

theorem leftmost_vndst : leftmost (quotedNumber "int_vndst")
    (pathLine (Nat.toDigits 10 d) (Nat.toDigits 10 s) (hopsText hops)) =
      some (Nat.toDigits 10 d) := by
  unfold pathLine
  rw [leftmost_skip (quotedNumber_skip "int_vndst" (k := 'i') rfl) (by decide)]
  exact leftmost_of_some (quotedNumber_toDigits _ _ _)

theorem not_mem_toDigits {c : Char} (hc : c.isDigit = false) (n : ℕ) : c ∉ Nat.toDigits 10 n :=
  fun hmem => by
    rw [isDigit_of_mem_toDigits c hmem] at hc
    exact absurd hc (by decide)

theorem leftmost_vnsrc : leftmost (quotedNumber "int_vnsrc")
    (pathLine (Nat.toDigits 10 d) (Nat.toDigits 10 s) (hopsText hops)) =
      some (Nat.toDigits 10 s) := by
  have hskip := fun c t => quotedNumber_skip "int_vnsrc" (k := 'i') rfl c t
  have hkey : "int_vndst".toList = 'i' :: "nt_vndst".toList := by decide
  have hother (t : List Char) :
      quotedNumber "int_vnsrc" ('i' :: ("nt_vndst".toList ++ t)) = none := rfl
  have hdigits := not_mem_toDigits (c := 'i') (by decide) d
  unfold pathLine
  rw [leftmost_skip hskip (by decide), hkey]
  simp only [List.cons_append, List.append_assoc]
  rw [leftmost_of_none (hother _), leftmost_skip hskip (by decide), leftmost_skip hskip (by decide),
    leftmost_skip hskip hdigits, ← List.singleton_append, leftmost_skip hskip (by decide),
    leftmost_skip hskip (by decide)]
  have hhere := quotedNumber_toDigits "int_vnsrc" s
    (" ".toList ++ ("hops".toList ++ "=\"".toList ++ (hopsText hops ++ Char.ofNat 34 ::
      " />".toList)))
  simp only [List.append_assoc] at hhere
  exact leftmost_of_some hhere

theorem leftmost_hops (hne : hops ≠ []) : leftmost (quotedText "hops")
    (pathLine (Nat.toDigits 10 d) (Nat.toDigits 10 s) (hopsText hops)) = some (hopsText hops) := by
  have hskip := fun c t => quotedText_skip "hops" (k := 'h') rfl c t
  have hopen : "  <path ".toList = "  <pat".toList ++ 'h' :: " ".toList := by decide
  have hother (t : List Char) : quotedText "hops" ('h' :: (" ".toList ++ t)) = none := rfl
  have hd := not_mem_toDigits (c := 'h') (by decide) d
  have hs := not_mem_toDigits (c := 'h') (by decide) s
  have htext : hopsText hops ≠ [] := by
    obtain ⟨hop, rest, rfl⟩ := List.exists_cons_of_ne_nil hne
    simp [hopsText]
  unfold pathLine
  rw [hopen]
  simp only [List.cons_append, List.append_assoc]
  rw [leftmost_skip hskip (by decide), leftmost_of_none (hother _),
    leftmost_skip hskip (by decide), leftmost_skip hskip (by decide),
    leftmost_skip hskip (by decide), leftmost_skip hskip hd, ← List.singleton_append,
    leftmost_skip hskip (by decide), leftmost_skip hskip (by decide),
    leftmost_skip hskip (by decide), leftmost_skip hskip (by decide), leftmost_skip hskip hs,
    ← List.singleton_append, leftmost_skip hskip (by decide), leftmost_skip hskip (by decide)]
  have hrest : Char.ofNat 34 ∉ " />".toList := by decide
  have hhere := quotedText_last "hops" htext hrest
  simp only [List.append_assoc] at hhere
  exact leftmost_of_some hhere

theorem newline_not_mem_pathLine :
    '\n' ∉ pathLine (Nat.toDigits 10 d) (Nat.toDigits 10 s) (hopsText hops) := by
  have hd := not_mem_toDigits (c := '\n') (by decide) d
  have hs := not_mem_toDigits (c := '\n') (by decide) s
  have hhops : '\n' ∉ hopsText hops := fun hmem =>
    absurd (survives_hopsText hops _ hmem).1 (by decide)
  unfold pathLine
  simp only [List.mem_append, List.mem_cons, hd, hs, hhops, false_or]
  decide

theorem pathEntry_pathLine (hne : hops ≠ []) :
    pathEntry (pathLine (Nat.toDigits 10 d) (Nat.toDigits 10 s) (hopsText hops)) =
      some ⟨UInt32.ofNat s, UInt32.ofNat d, hops.map UInt32.ofNat⟩ := by
  have hmatch (t : List Char) :
      leftmost (matchText "int_vndst".toList) ("  <path ".toList ++ ("int_vndst".toList ++ t)) =
        some t := by
    have hskip (c : Char) (t : List Char) (h : c ≠ 'i') :
        matchText "int_vndst".toList (c :: t) = none := matchText_cons_of_ne h _ t
    rw [leftmost_skip hskip (by decide)]
    exact leftmost_of_some (matchText_append _ t)
  unfold pathEntry
  rw [leftmost_vndst, leftmost_vnsrc, leftmost_hops d s hops hne]
  unfold pathLine
  rw [List.append_assoc, hmatch]
  simp [packNumber_toDigits, words_hopsText, Function.comp_def]

end

theorem loadpathtable_line {a : List Char} (h : '\n' ∉ a) (s : List Char) :
    loadpathtable (a ++ '\n' :: s) = (pathEntry a).toList ++ loadpathtable s := by
  unfold loadpathtable
  rw [List.splitOn_append_cons_self_of_not_mem h, List.filterMap_cons]
  cases pathEntry a <;> rfl

theorem ofInt_natAbs {z : ℤ} (h : 0 ≤ z) : UInt32.ofInt z = UInt32.ofNat z.natAbs := by
  obtain ⟨n, rfl⟩ := Int.eq_ofNat_of_zero_le h
  rw [Int.natAbs_natCast]
  refine UInt32.toNat_inj.mp ?_
  simp [UInt32.ofInt]
  omega

theorem loadpathtable_print {path : VnPath} (h : path.Ok) (s : List Char) :
    loadpathtable (path.print ++ s) = path.entry :: loadpathtable s := by
  rw [print_eq h, List.append_assoc, List.singleton_append,
    loadpathtable_line (newline_not_mem_pathLine _ _ _), pathEntry_pathLine _ _ _ h.hops_ne]
  unfold VnPath.entry
  rw [ofInt_natAbs h.vnsrc.1, ofInt_natAbs h.vndst.1]
  rfl

/-- **What `modelload` writes.** -/
theorem loadpathtable_printAllpairs {paths : List VnPath} (h : ∀ path ∈ paths, path.Ok) :
    loadpathtable (printAllpairs paths) = paths.map VnPath.entry := by
  have hopen : "<?xml version=\"1.0\" encoding=\"ISO-8859-1\"?>\n".toList ++
      "<allpairs>\n".toList = Xml.xmlDecl ++ '\n' :: ("<allpairs>".toList ++ ['\n']) := by decide
  have hclose : "</allpairs>\n".toList = "</allpairs>".toList ++ ['\n'] := by decide
  have hbody : loadpathtable ((paths.map VnPath.print).flatten ++ "</allpairs>\n".toList) =
      paths.map VnPath.entry := by
    induction paths with
    | nil =>
      show loadpathtable "</allpairs>\n".toList = []
      rw [hclose, loadpathtable_line (by decide)]
      rfl
    | cons path paths ih =>
      rw [List.map_cons, List.flatten_cons, List.append_assoc,
        loadpathtable_print (h path List.mem_cons_self),
        ih fun b hb => h b (List.mem_cons_of_mem _ hb), List.map_cons]
  unfold printAllpairs printFile
  rw [hopen]
  simp only [List.append_assoc, List.cons_append, List.nil_append]
  rw [loadpathtable_line (by decide), loadpathtable_line (by decide), hbody]
  rfl

/-- **Routes of `allpairs` are read back.** -/
theorem routesReadBack_printAllpairs {paths : List VnPath} (h : ∀ path ∈ paths, path.Ok)
    (hpaths : OnePathEach paths) : RoutesReadBack p (printAllpairs paths) paths where
  routesReader := ⟨_, readRoutes_printAllpairs h, fun _ hpath => routingTable_foldl hpaths _ hpath⟩
  loadpathtable path hpath := by
    rw [loadpathtable_printAllpairs h]
    exact List.mem_map_of_mem hpath

end Modelnet.Tools

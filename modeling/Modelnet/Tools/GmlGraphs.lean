import Modelnet.Tools.Gmlp

/-!
# The graph of a GML document

`raitner_parser::parse` makes two passes over the pairs of the graph, one for the nodes and one for
the edges. Whatever order they come in, the nodes are those of the file in their order, the edges
join the last nodes with their ids, and each has the attributes that its own list gives: the last
value of every name, with the lists of a name taken together.
-/

namespace Modelnet.Tools.Gml

variable {D : Type} {num : DoubleFormat D} {L : LedaTypes D}

/-! ## The lists of a document -/

namespace Pairs

def listsUnder (name : List Char) : Pairs D → List (Pairs D)
  | null => []
  | garbage => []
  | int _ _ next => next.listsUnder name
  | double _ _ next => next.listsUnder name
  | string _ _ next => next.listsUnder name
  | list key l next => if key = name then l :: next.listsUnder name else next.listsUnder name

def lastInt (name : List Char) : Pairs D → Option ℤ
  | null => none
  | garbage => none
  | int key i next => (next.lastInt name).or (if key = name then some i else none)
  | double _ _ next => next.lastInt name
  | string _ _ next => next.lastInt name
  | list _ _ next => next.lastInt name

/-- A value with its key. -/
inductive Entry (D : Type)
  | int (key : List Char) (integer : ℤ)
  | double (key : List Char) (floating : D)
  | string (key : List Char) (string : List Char)
  | list (key : List Char) (list : Pairs D)

def entries : Pairs D → List (Entry D)
  | null => []
  | garbage => []
  | int key i next => .int key i :: next.entries
  | double key d next => .double key d :: next.entries
  | string key s next => .string key s :: next.entries
  | list key l next => .list key l :: next.entries

namespace Entry

/-- The integer that an entry gives to a name. -/
def intFor (num : DoubleFormat D) (name : List Char) : Entry D → Option ℤ
  | int key i =>
    if key = name ∧ key ≠ "id".toList ∧ key ≠ "source".toList ∧ key ≠ "target".toList ∧
      key ≠ "plr".toList then some i else none
  | double key d =>
    if key = name ∧ (key = "bw".toList ∨ key = "lat".toList) then some (num.toInt d) else none
  | _ => none

/-- The double that an entry gives to a name. -/
def doubleFor (num : DoubleFormat D) (name : List Char) : Entry D → Option D
  | int key i => if key = name ∧ key = "plr".toList then some (num.ofInt i) else none
  | double key d =>
    if key = name ∧ key ≠ "bw".toList ∧ key ≠ "lat".toList then some d else none
  | _ => none

/-- The string that an entry gives to a name. -/
def stringFor (name : List Char) : Entry D → Option (List Char)
  | string key s => if key = name ∧ key ≠ "parameter".toList then some s else none
  | _ => none

/-- The list that an entry gives to a name. -/
def listFor (name : List Char) : Entry D → Option (Pairs D)
  | list key l => if key = name then some l else none
  | _ => none

end Entry

end Pairs

namespace Attributes

/-- The attributes that some entries give: the last value of each name, and the lists of a name
together. -/
inductive GivenBy (num : DoubleFormat D) : List (Pairs.Entry D) → L.Atts → Prop
  | mk {es : List (Pairs.Entry D)} {atts : L.Atts}
    (ints : ∀ name, L.ints.lookup atts.theInts name = es.reverse.findSome? (·.intFor num name))
    (doubles : ∀ name,
      L.doubles.lookup atts.theDoubles name = es.reverse.findSome? (·.doubleFor num name))
    (strings : ∀ name,
      L.strings.lookup atts.theStrings name = es.reverse.findSome? (·.stringFor name))
    (childless : ∀ name, L.children.lookup atts.theChildren name = none ↔
      es.filterMap (·.listFor name) = [])
    (children : ∀ name child, L.children.lookup atts.theChildren name = some child →
      GivenBy num ((es.filterMap (·.listFor name)).flatMap Pairs.entries) child) :
    GivenBy num es atts

variable {num : DoubleFormat D} {es : List (Pairs.Entry D)} {e : Pairs.Entry D}
  {atts atts' : L.Atts}

theorem findSome?_concat {α : Type} (f : Pairs.Entry D → Option α) :
    (es ++ [e]).reverse.findSome? f = (f e).or (es.reverse.findSome? f) := by
  rw [List.reverse_append, List.reverse_singleton, List.singleton_append, List.findSome?_cons]
  cases f e <;> rfl

theorem givenBy_init (hL : L.Lawful) : (init L).GivenBy num [] := by
  have hnone : ∀ name, L.children.lookup (init L).theChildren name = none :=
    hL.children.lookup_empty
  refine ⟨hL.ints.lookup_empty, hL.doubles.lookup_empty, hL.strings.lookup_empty,
    fun name => iff_of_true (hnone name) rfl, fun name child h => ?_⟩
  rw [hnone name] at h
  exact absurd h (by simp)

theorem GivenBy.value (h : atts.GivenBy num es) (hlist : ∀ name, e.listFor name = none)
    (hints : ∀ name, L.ints.lookup atts'.theInts name =
      (e.intFor num name).or (L.ints.lookup atts.theInts name))
    (hdoubles : ∀ name, L.doubles.lookup atts'.theDoubles name =
      (e.doubleFor num name).or (L.doubles.lookup atts.theDoubles name))
    (hstrings : ∀ name, L.strings.lookup atts'.theStrings name =
      (e.stringFor name).or (L.strings.lookup atts.theStrings name))
    (hchildren : atts'.theChildren = atts.theChildren) : atts'.GivenBy num (es ++ [e]) := by
  obtain ⟨ints, doubles, strings, childless, children⟩ := h
  have hsame : ∀ name, (es ++ [e]).filterMap (·.listFor name) = es.filterMap (·.listFor name) := by
    intro name
    rw [List.filterMap_append, List.filterMap_cons_none (hlist name), List.filterMap_nil,
      List.append_nil]
  constructor
  · exact fun name => by rw [hints, ints, findSome?_concat]
  · exact fun name => by rw [hdoubles, doubles, findSome?_concat]
  · exact fun name => by rw [hstrings, strings, findSome?_concat]
  · exact fun name => by rw [hchildren, hsame, childless]
  · intro name child hchild
    rw [hsame]
    exact children name child (hchildren ▸ hchild)

theorem GivenBy.child (hL : L.Lawful) {key : List Char} {l : Pairs D} {child : L.Atts}
    (h : atts.GivenBy num es)
    (hchild : ∀ es, (atts.c L key).GivenBy num es → child.GivenBy num (es ++ l.entries)) :
    (atts.setChild L key child).GivenBy num (es ++ [.list key l]) := by
  obtain ⟨ints, doubles, strings, childless, children⟩ := h
  have hlists : ∀ name, (es ++ [Pairs.Entry.list key l]).filterMap (·.listFor name) =
      es.filterMap (·.listFor name) ++ if key = name then [l] else [] := by
    intro name
    rw [List.filterMap_append, List.filterMap_cons, Pairs.Entry.listFor]
    split_ifs <;> rfl
  have hlookup : ∀ name, L.children.lookup (atts.setChild L key child).theChildren name =
      if name = key then some child else L.children.lookup atts.theChildren name :=
    fun name => hL.children.lookup_assign _ _ _ _ name
  have hold : (atts.c L key).GivenBy num
      ((es.filterMap (·.listFor key)).flatMap Pairs.entries) := by
    unfold c
    cases hfound : L.children.lookup atts.theChildren key with
    | none =>
      rw [(childless key).mp hfound]
      exact givenBy_init hL
    | some old => exact children key old hfound
  constructor
  · exact fun name => by rw [findSome?_concat, ← ints]; rfl
  · exact fun name => by rw [findSome?_concat, ← doubles]; rfl
  · exact fun name => by rw [findSome?_concat, ← strings]; rfl
  · intro name
    rw [hlookup, hlists]
    by_cases hkey : name = key
    · simp [hkey]
    · rw [if_neg hkey, if_neg (Ne.symm hkey), List.append_nil, childless]
  · intro name child' hchild'
    rw [hlookup] at hchild'
    rw [hlists]
    by_cases hkey : name = key
    · rw [if_pos hkey] at hchild'
      subst hkey
      obtain rfl := Option.some.inj hchild'
      simpa using hchild _ hold
    · rw [if_neg hkey] at hchild'
      rw [if_neg (Ne.symm hkey), List.append_nil]
      exact children name child' hchild'

theorem GivenBy.skip (h : atts.GivenBy num es) (hints : ∀ name, e.intFor num name = none)
    (hdoubles : ∀ name, e.doubleFor num name = none) (hstrings : ∀ name, e.stringFor name = none)
    (hlist : ∀ name, e.listFor name = none) : atts.GivenBy num (es ++ [e]) :=
  h.value hlist (fun name => by rw [hints, Option.none_or])
    (fun name => by rw [hdoubles, Option.none_or]) (fun name => by rw [hstrings, Option.none_or])
    rfl

theorem GivenBy.setInt (hL : L.Lawful) (h : atts.GivenBy num es) {key : List Char} {i : ℤ}
    (hints : ∀ name, e.intFor num name = if name = key then some i else none)
    (hdoubles : ∀ name, e.doubleFor num name = none) (hstrings : ∀ name, e.stringFor name = none)
    (hlist : ∀ name, e.listFor name = none) : (atts.setInt L key i).GivenBy num (es ++ [e]) := by
  refine h.value hlist (fun name => ?_) (fun name => by rw [hdoubles, Option.none_or]; rfl)
    (fun name => by rw [hstrings, Option.none_or]; rfl) rfl
  rw [hints]
  refine (hL.ints.lookup_assign _ _ _ _ name).trans ?_
  split_ifs <;> rfl

theorem GivenBy.setDouble (hL : L.Lawful) (h : atts.GivenBy num es) {key : List Char} {d : D}
    (hints : ∀ name, e.intFor num name = none)
    (hdoubles : ∀ name, e.doubleFor num name = if name = key then some d else none)
    (hstrings : ∀ name, e.stringFor name = none) (hlist : ∀ name, e.listFor name = none) :
    (atts.setDouble num L key d).GivenBy num (es ++ [e]) := by
  refine h.value hlist (fun name => by rw [hints, Option.none_or]; rfl) (fun name => ?_)
    (fun name => by rw [hstrings, Option.none_or]; rfl) rfl
  rw [hdoubles]
  refine (hL.doubles.lookup_assign _ _ _ _ name).trans ?_
  split_ifs <;> rfl

theorem GivenBy.setString (hL : L.Lawful) (h : atts.GivenBy num es) {key s : List Char}
    (hints : ∀ name, e.intFor num name = none) (hdoubles : ∀ name, e.doubleFor num name = none)
    (hstrings : ∀ name, e.stringFor name = if name = key then some s else none)
    (hlist : ∀ name, e.listFor name = none) :
    (atts.setString L key s).GivenBy num (es ++ [e]) := by
  refine h.value hlist (fun name => by rw [hints, Option.none_or]; rfl)
    (fun name => by rw [hdoubles, Option.none_or]; rfl) (fun name => ?_) rfl
  rw [hstrings]
  refine (hL.strings.lookup_assign _ _ _ _ name).trans ?_
  split_ifs <;> rfl

theorem ite_name {α : Type} {p : Prop} [Decidable p] (hp : p) (key name : List Char) (x : α) :
    (if key = name ∧ p then some x else none) = if name = key then some x else none := by
  by_cases hname : name = key
  · rw [if_pos ⟨hname.symm, hp⟩, if_pos hname]
  · rw [if_neg fun h => hname h.1.symm, if_neg hname]

/-- **The last values.** `add_attributes` adds what the entries of the list give. -/
theorem GivenBy.addAttributes (hL : L.Lawful) (h : atts.GivenBy num es) (ends : Ends)
    (l : Pairs D) : (addAttributes num L atts ends l).1.GivenBy num (es ++ l.entries) := by
  induction l generalizing atts es ends with
  | null => exact (List.append_nil es).symm ▸ h
  | garbage => exact (List.append_nil es).symm ▸ h
  | int key i next ih =>
    have hnone (hplr : key ≠ "plr".toList) (name : List Char) :
        (Pairs.Entry.int key i).doubleFor num name = none := if_neg fun h => hplr h.2
    rw [Pairs.entries, ← List.singleton_append, ← List.append_assoc]
    unfold Gml.addAttributes
    split_ifs with hid hsrc hdst hplr <;> refine ih ?_ _
    · exact h.skip (fun _ => if_neg fun h => h.2.1 hid) (hnone (by rw [hid]; decide))
        (fun _ => rfl) fun _ => rfl
    · exact h.skip (fun _ => if_neg fun h => h.2.2.1 hsrc) (hnone (by rw [hsrc]; decide))
        (fun _ => rfl) fun _ => rfl
    · exact h.skip (fun _ => if_neg fun h => h.2.2.2.1 hdst) (hnone (by rw [hdst]; decide))
        (fun _ => rfl) fun _ => rfl
    · exact h.setDouble hL (fun _ => if_neg fun h => h.2.2.2.2 hplr)
        (fun name => ite_name hplr key name _) (fun _ => rfl) fun _ => rfl
    · exact h.setInt hL (fun name => ite_name ⟨hid, hsrc, hdst, hplr⟩ key name i) (hnone hplr)
        (fun _ => rfl) fun _ => rfl
  | double key d next ih =>
    rw [Pairs.entries, ← List.singleton_append, ← List.append_assoc]
    unfold Gml.addAttributes
    split_ifs with hbw hlat <;> refine ih ?_ _
    · exact h.setInt hL (fun name => ite_name (.inl hbw) key name _)
        (fun _ => if_neg fun h => h.2.1 hbw) (fun _ => rfl) fun _ => rfl
    · exact h.setInt hL (fun name => ite_name (.inr hlat) key name _)
        (fun _ => if_neg fun h => h.2.2 hlat) (fun _ => rfl) fun _ => rfl
    · exact h.setDouble hL (fun _ => if_neg fun h => h.2.elim hbw hlat)
        (fun name => ite_name ⟨hbw, hlat⟩ key name d) (fun _ => rfl) fun _ => rfl
  | string key s next ih =>
    rw [Pairs.entries, ← List.singleton_append, ← List.append_assoc]
    unfold Gml.addAttributes
    split_ifs with hparam <;> refine ih ?_ _
    · exact h.skip (fun _ => rfl) (fun _ => rfl) (fun _ => if_neg fun h => h.2 hparam) fun _ => rfl
    · exact h.setString hL (fun _ => rfl) (fun _ => rfl)
        (fun name => ite_name hparam key name s) fun _ => rfl
  | list key l next ihl ih =>
    rw [Pairs.entries, ← List.singleton_append, ← List.append_assoc]
    exact ih (h.child hL fun es hes => ihl hes .unset) ends

theorem addAttributes_ends (atts : L.Atts) (ends : Ends) (l : Pairs D) :
    (Gml.addAttributes num L atts ends l).2 =
      ⟨(l.lastInt "id".toList).getD ends.id, (l.lastInt "source".toList).getD ends.source,
        (l.lastInt "target".toList).getD ends.target⟩ := by
  induction l generalizing atts ends with
  | null => rfl
  | garbage => rfl
  | int key i next ih =>
    have hor (o o' : Option ℤ) (x : ℤ) : (o.or o').getD x = o.getD (o'.getD x) := by
      cases o <;> rfl
    unfold Gml.addAttributes Pairs.lastInt
    simp only [hor]
    by_cases hid : key = "id".toList
    · subst hid
      rw [if_pos rfl, ih]
      rfl
    rw [if_neg hid, if_neg hid]
    by_cases hsrc : key = "source".toList
    · subst hsrc
      rw [if_pos rfl, ih]
      rfl
    rw [if_neg hsrc, if_neg hsrc]
    by_cases hdst : key = "target".toList
    · subst hdst
      rw [if_pos rfl, ih]
      rfl
    rw [if_neg hdst, if_neg hdst]
    split_ifs <;> exact ih _ _
  | double key d next ih =>
    unfold Gml.addAttributes
    split_ifs <;> exact ih _ _
  | string key s next ih =>
    unfold Gml.addAttributes
    split_ifs <;> exact ih _ _
  | list key l next _ ih => exact ih _ _

end Attributes

section Graph

variable (num L)

def attributesOf (l : Pairs D) : L.Atts := (addAttributes num L (.init L) .unset l).1

/-- The ids that a list gives. -/
def endsOf (l : Pairs D) : Ends := (addAttributes num L (.init L) .unset l).2

def nodeWarnings (ns : List (Pairs D)) : List String :=
  if ns.any fun n => (endsOf num L n).id < 0 then noId else []

variable {L}

def lastNode (named : List (L.Node × ℤ)) (id : ℤ) : Option L.Node :=
  if 0 ≤ id then (named.reverse.find? fun e => e.2 = id).map Prod.fst else none

/-- The edge of a list, if there are nodes with its two ids. -/
def edgeOf (named : List (L.Node × ℤ)) (l : Pairs D) : Option (L.Node × L.Node × L.Atts) :=
  (lastNode named (endsOf num L l).source).bind fun src =>
    (lastNode named (endsOf num L l).target).map fun dst => (src, dst, attributesOf num L l)

/-- What is printed for the edges, about the first one that is left out. -/
def edgeWarnings (named : List (L.Node × ℤ)) (es : List (Pairs D)) : List String :=
  ((es.find? fun e => (edgeOf num named e).isNone).map fun e => badEnds (endsOf num L e)).getD []

/-- The nodes of a graph with the ids that their lists give. -/
def namedNodes (g : L.Graph) (ns : List (Pairs D)) : List (L.Node × ℤ) :=
  ((L.graph.listing g).nodes.map Prod.fst).zip (ns.map fun n => (endsOf num L n).id)

/-- What `parse` makes of the pairs `l` of a graph. LEDA decides about self-loops of a graph that is
not directed. -/
structure Outcome.Shows (out : Outcome L) (l : Pairs D) : Prop where
  ok : out.ok = true
  distinct : ((L.graph.listing out.graph).nodes.map Prod.fst).Nodup
  nodes : (L.graph.listing out.graph).nodes.map Prod.snd =
    (l.listsUnder "node".toList).map (attributesOf num L)
  attributes : ∀ n ∈ l.listsUnder "node".toList ++ l.listsUnder "edge".toList,
    (attributesOf num L n).GivenBy num n.entries
  ends : ∀ n ∈ l.listsUnder "node".toList ++ l.listsUnder "edge".toList,
    endsOf num L n = ⟨(n.lastInt "id".toList).getD (-1), (n.lastInt "source".toList).getD (-1),
      (n.lastInt "target".toList).getD (-1)⟩
  directed : (L.graph.listing out.graph).directed =
    decide ((l.lastInt "directed".toList).getD 0 ≠ 0)
  edges :
    let joined := (l.listsUnder "edge".toList).filterMap
      (edgeOf num (namedNodes num out.graph (l.listsUnder "node".toList)))
    (L.graph.listing out.graph).directed ∨ (∀ e ∈ joined, e.1 ≠ e.2.1) →
      (L.graph.listing out.graph).edges = joined
  cerr : out.cerr = nodeWarnings num L (l.listsUnder "node".toList) ++
    edgeWarnings num (namedNodes num out.graph (l.listsUnder "node".toList))
      (l.listsUnder "edge".toList)

/-- The state when the lists `ns` have been seen under `node`. -/
structure Reading.Tabled (st : Reading L) (ns : List (Pairs D)) : Prop where
  attributes : (L.graph.listing st.graph).nodes.map Prod.snd = ns.map (attributesOf num L)
  distinct : ((L.graph.listing st.graph).nodes.map Prod.fst).Nodup
  lookup : ∀ id, st.lookup id = lastNode (namedNodes num st.graph ns) id
  edges : (L.graph.listing st.graph).edges = []
  directed : (L.graph.listing st.graph).directed = true
  warned : st.warned = ns.any fun n => (endsOf num L n).id < 0
  cerr : st.cerr = nodeWarnings num L ns

variable {num} {st : Reading L} {ns es : List (Pairs D)}

theorem lastNode_concat (named : List (L.Node × ℤ)) (v : L.Node) (i id : ℤ) :
    lastNode (named ++ [(v, i)]) id =
      if 0 ≤ id ∧ i = id then some v else lastNode named id := by
  unfold lastNode
  rw [List.reverse_append, List.reverse_singleton, List.singleton_append, List.find?_cons]
  by_cases hi : i = id <;> by_cases hid : 0 ≤ id <;> simp [hi, hid]

theorem mem_of_lastNode {named : List (L.Node × ℤ)} {id : ℤ} {v : L.Node}
    (h : lastNode named id = some v) : v ∈ named.map Prod.fst := by
  unfold lastNode at h
  split_ifs at h
  obtain ⟨e, he, rfl⟩ := Option.map_eq_some_iff.mp h
  exact List.mem_map_of_mem (List.mem_reverse.mp (List.mem_of_find?_eq_some he))

namespace Reading

@[simp] theorem warn_graph (st : Reading L) (message : List String) :
    (st.warn message).graph = st.graph := by
  unfold warn
  split <;> rfl

@[simp] theorem warn_nodes (st : Reading L) (message : List String) :
    (st.warn message).nodes = st.nodes := by
  unfold warn
  split <;> rfl

@[simp] theorem warn_directed (st : Reading L) (message : List String) :
    (st.warn message).directed = st.directed := by
  unfold warn
  split <;> rfl

@[simp] theorem warn_warned (st : Reading L) (message : List String) :
    (st.warn message).warned = true := by
  unfold warn
  split
  · assumption
  · rfl

theorem warn_cerr (st : Reading L) (message : List String) :
    (st.warn message).cerr = if st.warned then st.cerr else st.cerr ++ message := by
  unfold warn
  split <;> rfl

/-- The graph with the node of a list. -/
def graphWith (num : DoubleFormat D) (st : Reading L) (l : Pairs D) : L.Graph :=
  L.graph.assign (L.graph.newNode st.graph (.init L)).2 (L.graph.newNode st.graph (.init L)).1
    (attributesOf num L l)

theorem addNode_eq (hL : L.Lawful) (st : Reading L) (l : Pairs D) :
    st.addNode num l =
      if 0 ≤ (endsOf num L l).id then
        { st with
          graph := st.graphWith num l
          nodes := L.ids.insert st.nodes (endsOf num L l).id
            (L.graph.newNode st.graph (.init L)).1 }
      else { st with graph := st.graphWith num l }.warn noId := by
  unfold addNode graphWith attributesOf endsOf
  dsimp only
  rw [hL.graph.inf_newNode]

theorem listing_addNode (hL : L.Lawful) (st : Reading L) (l : Pairs D) :
    L.graph.listing (st.addNode num l).graph =
      { L.graph.listing st.graph with
        nodes := (L.graph.listing st.graph).nodes ++
          [((L.graph.newNode st.graph (.init L)).1, attributesOf num L l)] } := by
  have hgraph : (st.addNode num l).graph = st.graphWith num l := by
    rw [addNode_eq hL]
    split
    · rfl
    · rw [warn_graph]
  rw [hgraph]
  exact hL.graph.listing_assign_newNode _ _ _

theorem nodes_addNode (hL : L.Lawful) (st : Reading L) (l : Pairs D) :
    (st.addNode num l).nodes =
      if 0 ≤ (endsOf num L l).id then
        L.ids.insert st.nodes (endsOf num L l).id (L.graph.newNode st.graph (.init L)).1
      else st.nodes := by
  rw [addNode_eq hL]
  split
  · rfl
  · rw [warn_nodes]

theorem lookup_addNode (hL : L.Lawful) (st : Reading L) (l : Pairs D) (id : ℤ) :
    (st.addNode num l).lookup id =
      if 0 ≤ id ∧ (endsOf num L l).id = id then some (L.graph.newNode st.graph (.init L)).1
      else st.lookup id := by
  unfold lookup
  rw [nodes_addNode hL]
  by_cases hid : 0 ≤ id
  · rw [if_pos hid, if_pos hid]
    by_cases heq : (endsOf num L l).id = id
    · rw [heq, if_pos hid, hL.ids.lookup_insert, if_pos rfl, if_pos ⟨hid, rfl⟩]
    · rw [if_neg fun h : 0 ≤ id ∧ _ => heq h.2]
      split
      · rw [hL.ids.lookup_insert, if_neg (Ne.symm heq)]
      · rfl
  · rw [if_neg hid, if_neg hid, if_neg fun h => hid h.1]

theorem printed_addNode (hL : L.Lawful) (st : Reading L) (l : Pairs D) :
    (st.addNode num l).warned = (st.warned || decide ((endsOf num L l).id < 0)) ∧
      (st.addNode num l).cerr =
        if 0 ≤ (endsOf num L l).id ∨ st.warned then st.cerr else st.cerr ++ noId := by
  rw [addNode_eq hL]
  by_cases hpos : 0 ≤ (endsOf num L l).id
  · simp [hpos]
  · rw [if_neg hpos, warn_cerr, warn_warned]
    simp [hpos, not_le.mp hpos]

theorem addNode_directed (hL : L.Lawful) (st : Reading L) (l : Pairs D) :
    (st.addNode num l).directed = st.directed := by
  rw [addNode_eq hL]
  split
  · rfl
  · rw [warn_directed]

theorem Tabled.addNode (hL : L.Lawful) (h : st.Tabled num ns) (l : Pairs D) :
    (st.addNode num l).Tabled num (ns ++ [l]) := by
  have hlisting : L.graph.listing (st.addNode num l).graph = _ := listing_addNode hL st l
  constructor
  · rw [hlisting, List.map_append, List.map_append, h.attributes]
    rfl
  · rw [hlisting, List.map_append]
    exact List.concat_eq_append ▸ h.distinct.concat (hL.graph.fresh _ _)
  · intro id
    have hlen : ((L.graph.listing st.graph).nodes.map Prod.fst).length =
        (ns.map fun n => (endsOf num L n).id).length := by
      have := congrArg List.length h.attributes
      simpa using this
    unfold namedNodes
    rw [lookup_addNode hL, hlisting, List.map_append, List.map_append, List.zip_append hlen]
    exact (h.lookup id ▸ (lastNode_concat _ _ _ _).symm)
  · rw [hlisting]
    exact h.edges
  · rw [hlisting]
    exact h.directed
  · rw [(printed_addNode hL st l).1, h.warned, List.any_append]
    simp
  · rw [(printed_addNode hL st l).2, h.cerr, h.warned]
    unfold nodeWarnings
    rw [List.any_append]
    by_cases hpos : 0 ≤ (endsOf num L l).id <;>
      cases ns.any fun n => (endsOf num L n).id < 0 <;> simp [hpos]

/-- All lists under `node`, from any place of the list on. -/
theorem Tabled.addNodes (hL : L.Lawful) (h : st.Tabled num ns) (l : Pairs D) :
    (addNodes num st l).Tabled num (ns ++ l.listsUnder "node".toList) ∧
      (Gml.addNodes num st l).directed = (l.lastInt "directed".toList).getD st.directed := by
  induction l generalizing st ns with
  | null => exact ⟨(List.append_nil ns).symm ▸ h, rfl⟩
  | garbage => exact ⟨(List.append_nil ns).symm ▸ h, rfl⟩
  | int key i next ih =>
    rw [Gml.addNodes, Pairs.listsUnder, Pairs.lastInt]
    split_ifs with hkey
    · have hset : Tabled num { st with directed := i } ns :=
        ⟨h.attributes, h.distinct, h.lookup, h.edges, h.directed, h.warned, h.cerr⟩
      obtain ⟨htabled, hdir⟩ := ih hset
      refine ⟨htabled, hdir.trans ?_⟩
      cases next.lastInt "directed".toList <;> rfl
    · rw [Option.or_none]
      exact ih h
  | double _ _ _ ih => exact ih h
  | string _ _ _ ih => exact ih h
  | list key l next _ ih =>
    rw [Gml.addNodes, Pairs.listsUnder, Pairs.lastInt]
    split_ifs with hkey
    · obtain ⟨htabled, hdir⟩ := ih (h.addNode hL l)
      rw [List.append_assoc] at htabled
      exact ⟨htabled, by rw [hdir, addNode_directed hL]⟩
    · exact ih h

/-- What the loop over the edges has made of `start` when the lists `es` have been seen. -/
structure Joined (num : DoubleFormat D) (start : Reading L) (named : List (L.Node × ℤ))
    (es : List (Pairs D)) (st : Reading L) : Prop where
  listing : L.graph.listing st.graph =
    { L.graph.listing start.graph with edges := es.filterMap (edgeOf num named) }
  nodes : st.nodes = start.nodes
  directed : st.directed = start.directed
  warned : st.warned = es.any fun e => (edgeOf num named e).isNone
  cerr : st.cerr = start.cerr ++ edgeWarnings num named es

variable {start : Reading L} {named : List (L.Node × ℤ)}

theorem addEdge_eq (hlookup : ∀ id, st.lookup id = lastNode named id) (e : Pairs D) :
    st.addEdge num e = (edgeOf num named e).elim (st.warn (badEnds (endsOf num L e))) fun edge =>
      { st with graph := L.graph.newEdge st.graph edge.1 edge.2.1 edge.2.2 } := by
  have hread : addAttributes num L (.init L) .unset e =
      (attributesOf num L e, endsOf num L e) := rfl
  unfold addEdge edgeOf
  rw [hread]
  dsimp only
  rw [hlookup, hlookup]
  cases lastNode named (endsOf num L e).source with
  | none => rfl
  | some src =>
    cases lastNode named (endsOf num L e).target with
    | none => rfl
    | some dst => rfl

theorem edgeWarnings_concat (e : Pairs D) :
    edgeWarnings num named (es ++ [e]) =
      if (edgeOf num named e).isNone ∧ ¬es.any (fun e => (edgeOf num named e).isNone) then
        badEnds (endsOf num L e)
      else edgeWarnings num named es := by
  have hany : es.any (fun e => (edgeOf num named e).isNone) =
      (es.find? fun e => (edgeOf num named e).isNone).isSome := by
    rw [Bool.eq_iff_iff, List.any_eq_true, List.find?_isSome]
  unfold edgeWarnings
  rw [List.find?_append, hany]
  cases es.find? fun e => (edgeOf num named e).isNone with
  | none => cases hedge : edgeOf num named e <;> simp [hedge]
  | some first => simp

theorem ends_of_edgeOf {e : Pairs D} {src dst : L.Node} {atts : L.Atts}
    (h : edgeOf num named e = some (src, dst, atts)) :
    src ∈ named.map Prod.fst ∧ dst ∈ named.map Prod.fst := by
  obtain ⟨src', hsrc, h⟩ := Option.bind_eq_some_iff.mp h
  obtain ⟨dst', hdst, heq⟩ := Option.map_eq_some_iff.mp h
  obtain ⟨rfl, hrest⟩ := Prod.mk.inj heq
  obtain ⟨rfl, -⟩ := Prod.mk.inj hrest
  exact ⟨mem_of_lastNode hsrc, mem_of_lastNode hdst⟩

theorem Joined.addEdge (hL : L.Lawful) (hlookup : ∀ id, start.lookup id = lastNode named id)
    (hnamed : named.map Prod.fst ⊆ (L.graph.listing start.graph).nodes.map Prod.fst)
    (h : Joined num start named es st) (e : Pairs D) :
    Joined num start named (es ++ [e]) (st.addEdge num e) := by
  have hst : ∀ id, st.lookup id = lastNode named id := by
    intro id
    rw [← hlookup id]
    unfold lookup
    rw [h.nodes]
  rw [addEdge_eq hst]
  cases hedge : edgeOf num named e with
  | none =>
    rw [Option.elim_none]
    constructor
    · rw [warn_graph, h.listing, List.filterMap_append]
      simp [hedge]
    · rw [warn_nodes, h.nodes]
    · rw [warn_directed, h.directed]
    · rw [warn_warned, List.any_append]
      simp [hedge]
    · rw [warn_cerr, h.cerr, h.warned, edgeWarnings_concat, hedge]
      cases hany : es.any fun e => (edgeOf num named e).isNone with
      | true => simp
      | false =>
        have hfind : es.find? (fun e => (edgeOf num named e).isNone) = none := by
          simpa [List.find?_eq_none] using hany
        simp [edgeWarnings, hfind]
  | some edge =>
    obtain ⟨src, dst, atts⟩ := edge
    obtain ⟨hsrc, hdst⟩ := ends_of_edgeOf hedge
    rw [Option.elim_some]
    have hmem : ∀ v ∈ named.map Prod.fst, v ∈ (L.graph.listing st.graph).nodes.map Prod.fst := by
      rw [h.listing]
      exact fun v hv => hnamed hv
    constructor
    · dsimp only
      rw [hL.graph.newEdge _ _ _ _ (hmem src hsrc) (hmem dst hdst), h.listing,
        List.filterMap_append]
      simp [hedge]
    · exact h.nodes
    · exact h.directed
    · rw [List.any_append, ← h.warned]
      simp [hedge]
    · rw [edgeWarnings_concat, hedge]
      simpa using h.cerr

theorem Joined.addEdges (hL : L.Lawful) (hlookup : ∀ id, start.lookup id = lastNode named id)
    (hnamed : named.map Prod.fst ⊆ (L.graph.listing start.graph).nodes.map Prod.fst)
    (h : Joined num start named es st) (l : Pairs D) :
    Joined num start named (es ++ l.listsUnder "edge".toList) (addEdges num st l) := by
  induction l generalizing st es with
  | null => exact (List.append_nil es).symm ▸ h
  | garbage => exact (List.append_nil es).symm ▸ h
  | int _ _ _ ih => exact ih h
  | double _ _ _ ih => exact ih h
  | string _ _ _ ih => exact ih h
  | list key l next _ ih =>
    rw [Gml.addEdges, Pairs.listsUnder]
    split_ifs with hkey
    · have hnext := ih (h.addEdge hL hlookup hnamed l)
      rwa [List.append_assoc] at hnext
    · exact ih h

end Reading

theorem tabled_clear (hL : L.Lawful) (g : L.Graph) :
    Reading.Tabled num ⟨L.graph.makeDirected (L.graph.clear g), L.ids.empty, 0, false, []⟩ [] := by
  have hnodes : (L.graph.listing (L.graph.makeDirected (L.graph.clear g))).nodes = [] := by
    rw [hL.graph.makeDirected, hL.graph.nodes_clear]
  constructor
  · rw [hnodes]
    rfl
  · rw [hnodes]
    exact List.nodup_nil
  · intro id
    unfold Reading.lookup lastNode namedNodes
    rw [hnodes, hL.ids.lookup_empty]
    rfl
  · rw [hL.graph.makeDirected, hL.graph.edges_clear]
  · rw [hL.graph.makeDirected]
  · rfl
  · rfl

theorem convert_shows (hL : L.Lawful) (g : L.Graph) (l : Pairs D) :
    (convert num g l).Shows num l := by
  have hclear : Reading.Tabled num _ [] := tabled_clear hL g
  obtain ⟨htabled, hdir⟩ := hclear.addNodes hL l
  unfold convert
  dsimp only
  generalize addNodes num ⟨L.graph.makeDirected (L.graph.clear g), L.ids.empty, 0, false, []⟩ l =
    st at htabled hdir ⊢
  rw [List.nil_append] at htabled
  have hnamed : (namedNodes num st.graph (l.listsUnder "node".toList)).map Prod.fst =
      (L.graph.listing st.graph).nodes.map Prod.fst := by
    refine List.map_fst_zip (le_of_eq ?_)
    simpa using congrArg List.length htabled.attributes
  have hstart : Reading.Joined num { st with warned := false }
      (namedNodes num st.graph (l.listsUnder "node".toList)) [] { st with warned := false } := by
    refine ⟨?_, rfl, rfl, rfl, (List.append_nil _).symm⟩
    exact Leda.Listing.ext rfl htabled.edges rfl
  have hlookup : ∀ id, Reading.lookup { st with warned := false } id =
      lastNode (namedNodes num st.graph (l.listsUnder "node".toList)) id := htabled.lookup
  have hjoined := hstart.addEdges hL hlookup (fun _ hv => hnamed ▸ hv) l
  rw [List.nil_append] at hjoined
  generalize addEdges num { st with warned := false } l = last at hjoined ⊢
  have hlast : last.directed = (l.lastInt "directed".toList).getD 0 := hjoined.directed.trans hdir
  -- what `make_undirected` does at the end leaves the nodes
  have hnodes : (L.graph.listing (if last.directed = 0 then L.graph.makeUndirected last.graph
      else last.graph)).nodes = (L.graph.listing st.graph).nodes := by
    split
    · rw [hL.graph.nodes_makeUndirected, hjoined.listing]
    · rw [hjoined.listing]
  have hnamedLast : namedNodes num (if last.directed = 0 then L.graph.makeUndirected last.graph
      else last.graph) (l.listsUnder "node".toList) =
        namedNodes num st.graph (l.listsUnder "node".toList) := by
    unfold namedNodes
    rw [hnodes]
  have hdirected : (L.graph.listing (if last.directed = 0 then L.graph.makeUndirected last.graph
      else last.graph)).directed = decide ((l.lastInt "directed".toList).getD 0 ≠ 0) := by
    rw [← hlast]
    split_ifs with hzero
    · rw [hL.graph.directed_makeUndirected, hzero]
      rfl
    · rw [hjoined.listing, decide_eq_true hzero]
      exact htabled.directed
  constructor
  · rfl
  · rw [hnodes]
    exact htabled.distinct
  · rw [hnodes]
    exact htabled.attributes
  · exact fun n _ => (Attributes.givenBy_init hL).addAttributes hL .unset n
  · exact fun n _ => Attributes.addAttributes_ends _ .unset n
  · exact hdirected
  · dsimp only
    rw [hnamedLast, hdirected, ← hlast]
    intro h
    split_ifs with hzero
    · have hloops := h.resolve_left (by simp [hzero])
      rw [hL.graph.makeUndirected _ (by rw [hjoined.listing]; exact hloops), hjoined.listing]
    · rw [hjoined.listing]
  · rw [hnamedLast, hjoined.cerr]
    exact congrArg (· ++ _) htabled.cerr

/-- However its document is laid out in the file, a graph is read as its lists say. -/
theorem raitnerParse_shows (hL : L.Lawful) {doc : Pairs D} {file : List Char} (hdoc : doc.Linked)
    (hfile : Layout num.atof doc.tokens file) (filename : String) (g : L.Graph) :
    ∃ out, raitnerParse num filename file g = some out ∧
      match findGraph doc with
      | none => out = ⟨false, g, ["File does not contain a graph: " ++ filename]⟩
      | some l => out.Shows num l := by
  obtain ⟨last, hs⟩ := hfile.scans 1 1
  obtain ⟨keys, hparse⟩ := gmlParser_of_scans hdoc hs
  unfold raitnerParse
  rw [show Source.init file = ⟨file, 1, 1⟩ from rfl, hparse, Option.map_some]
  dsimp only
  cases findGraph doc with
  | none => exact ⟨_, rfl, rfl⟩
  | some l => exact ⟨convert num g l, rfl, convert_shows hL g l⟩

/-- The next `n` tokens. -/
def readTokens (atof : List Char → D) : ℕ → Source → List (Token D) × Source
  | 0, src => ([], src)
  | n + 1, src =>
    let (t, src) := scanner atof src
    let (ts, last) := readTokens atof n src
    (t :: ts, last)

theorem scans_readTokens (atof : List Char → D) (n : ℕ) (src : Source) :
    Scans atof src (readTokens atof n src).1 (readTokens atof n src).2 := by
  induction n generalizing src with
  | zero => exact .nil src
  | succ n ih => exact .cons rfl (ih _)

/-- Two nodes and an edge. -/
def edgePairs : Pairs ℤ :=
  .int "directed".toList 1 (.list "node".toList (.int "id".toList 7 .null)
    (.list "edge".toList (.int "source".toList 7 (.int "target".toList 3 .null))
      (.list "node".toList (.int "id".toList 3 .null) .null)))

def edgeFile : List Char :=
  ("graph [ directed 1 node [ id 7 ] # the edge\n" ++
    "edge [ source 7 target 3 ] node [ id 3 ] ]").toList

/-- The graph in front of the call. -/
def noNodes : (sortedTypes ℤ).Graph := Leda.Graph.Numbered.mk [] [] true

theorem raitnerParse_edgeFile :
    ∃ out : Outcome (sortedTypes ℤ),
      raitnerParse wholeDoubles "edge.gml" edgeFile noNodes = some out ∧
        out.Shows wholeDoubles edgePairs := by
  have htokens : readTokens strtol 23 (.init edgeFile) =
      ((Pairs.list "graph".toList edgePairs .null).tokens ++ [.fileEnd], ⟨[], 2, 44⟩) := by
    decide +kernel
  have hscans := scans_readTokens strtol 23 (.init edgeFile)
  rw [htokens] at hscans
  have hlayout := layout_of_scans (Pairs.tokens_proper _) hscans
  have hlinked : (Pairs.list "graph".toList edgePairs .null).Linked :=
    ⟨⟨trivial, trivial, trivial, trivial⟩, trivial⟩
  exact raitnerParse_shows (sortedTypes_lawful ℤ) hlinked hlayout "edge.gml" noNodes

end Graph

end Modelnet.Tools.Gml

import Modelnet.Lib.SortedMap

/-!
# Dictionaries and graphs of LEDA

The types `dictionary` and `GRAPH` of the library are known by what its manual says of their
operations. A dictionary is what `lookup` finds in it, and `forall_items` visits each of its items
once, in an order of its own. A graph is a list of nodes and a list of edges, each with an
information, and new ones come at the end.
-/

namespace Leda

/-! ## Dictionaries -/

/-- The operations of a dictionary. `change` is `dic[it] = v` at the item of a key, and `items` are
the items as `forall_items` visits them. -/
structure Dictionary (T κ ν : Type) where
  empty : T
  lookup : T → κ → Option ν
  insert : T → κ → ν → T
  change : T → κ → ν → T
  items : T → List (κ × ν)

namespace Dictionary

variable {T κ ν : Type} [DecidableEq κ]

/-- What the manual says of a dictionary. -/
structure Lawful (dic : Dictionary T κ ν) : Prop where
  lookup_empty : ∀ k, dic.lookup dic.empty k = none
  lookup_insert : ∀ d k v k',
    dic.lookup (dic.insert d k v) k' = if k' = k then some v else dic.lookup d k'
  lookup_change : ∀ d k v k', (dic.lookup d k).isSome →
    dic.lookup (dic.change d k v) k' = if k' = k then some v else dic.lookup d k'
  mem_items : ∀ d k v, (k, v) ∈ dic.items d ↔ dic.lookup d k = some v
  nodup_items : ∀ d, ((dic.items d).map Prod.fst).Nodup

/-- `dic[it] = v` where `it` is the item of `k`, which is inserted with `zero` when it is not
there. -/
def assign (dic : Dictionary T κ ν) (zero : ν) (d : T) (k : κ) (v : ν) : T :=
  match dic.lookup d k with
  | none => dic.change (dic.insert d k zero) k v
  | some _ => dic.change d k v

variable {dic : Dictionary T κ ν}

theorem Lawful.lookup_assign (h : dic.Lawful) (zero : ν) (d : T) (k : κ) (v : ν) (k' : κ) :
    dic.lookup (dic.assign zero d k v) k' = if k' = k then some v else dic.lookup d k' := by
  unfold assign
  split
  · rw [h.lookup_change _ _ _ _ (by rw [h.lookup_insert, if_pos rfl]; rfl), h.lookup_insert]
    split_ifs <;> rfl
  · next hfound => exact h.lookup_change _ _ _ _ (by rw [hfound]; rfl)

theorem Lawful.lookup_foldl_assign (h : dic.Lawful) (zero : ν) (es : List (κ × ν)) (d : T) (k : κ)
    (hes : (es.map Prod.fst).Nodup) :
    dic.lookup (es.foldl (fun d e => dic.assign zero d e.1 e.2) d) k =
      ((es.find? fun e => e.1 = k).map Prod.snd).or (dic.lookup d k) := by
  induction es generalizing d with
  | nil => rfl
  | cons e es ih =>
    rw [List.map_cons, List.nodup_cons] at hes
    rw [List.foldl_cons, ih _ hes.2, h.lookup_assign, List.find?_cons]
    by_cases hk : e.1 = k
    · -- the key does not come again
      have hnone : es.find? (fun e => e.1 = k) = none := by
        refine List.find?_eq_none.mpr fun e' he' => ?_
        have hne : e'.1 ≠ e.1 := fun heq => hes.1 (heq ▸ List.mem_map_of_mem he')
        simpa [← hk] using hne
      rw [hnone, if_pos hk.symm, decide_eq_true hk]
      rfl
    · rw [if_neg (Ne.symm hk), decide_eq_false hk]

/-- **Visited and inserted again**, the items give the same dictionary, in any order of theirs. -/
theorem Lawful.lookup_refill (h : dic.Lawful) (zero : ν) (d : T) (k : κ) :
    dic.lookup ((dic.items d).foldl (fun d e => dic.assign zero d e.1 e.2) dic.empty) k =
      dic.lookup d k := by
  rw [h.lookup_foldl_assign zero _ _ k (h.nodup_items d), h.lookup_empty, Option.or_none]
  cases hfind : (dic.items d).find? fun e => e.1 = k with
  | none =>
    cases hlookup : dic.lookup d k with
    | none => rfl
    | some v =>
      have hmem := (h.mem_items d k v).mpr hlookup
      exact absurd (List.find?_eq_none.mp hfind _ hmem) (by simp)
  | some e =>
    have hk : e.1 = k := by simpa using List.find?_some hfind
    exact ((h.mem_items d k e.2).mp (hk ▸ List.mem_of_find?_eq_some hfind)).symm

/-- A dictionary that is kept in the order of its keys. -/
def sorted {κ : Type} [LinearOrder κ] (ν : Type) : Dictionary (SortedMap κ ν) κ ν where
  empty := ∅
  lookup := SortedMap.find?
  insert := SortedMap.insert
  change := SortedMap.insert
  items := SortedMap.entries

theorem sorted_lawful {κ : Type} [LinearOrder κ] [DecidableEq κ] (ν : Type) :
    (sorted ν : Dictionary (SortedMap κ ν) κ ν).Lawful := by
  have hinsert : ∀ (d : SortedMap κ ν) k v k',
      (d.insert k v).find? k' = if k' = k then some v else d.find? k' := by
    intro d k v k'
    split_ifs with hk
    · rw [hk, SortedMap.find?_insert_self]
    · exact d.find?_insert_of_ne v hk
  refine ⟨fun _ => rfl, hinsert, fun d k v k' _ => hinsert d k v k',
    fun _ _ _ => SortedMap.find?_eq_some.symm, fun d => ?_⟩
  exact List.pairwise_map.mpr (d.sorted.imp ne_of_lt)

/-- The items that are found in a list with several items for a key: the first of each. -/
def firsts (d : List (κ × ν)) : List (κ × ν) :=
  d.foldr (fun e es => e :: es.filter fun e' => e'.1 ≠ e.1) []

/-- A dictionary that is a list, with new items in front. -/
def listed (κ ν : Type) [DecidableEq κ] : Dictionary (List (κ × ν)) κ ν where
  empty := []
  lookup d k := (d.find? fun e => e.1 = k).map Prod.snd
  insert d k v := (k, v) :: d
  change d k v := (k, v) :: d
  items := firsts

theorem listed_lawful (κ ν : Type) [DecidableEq κ] : (listed κ ν).Lawful := by
  have hinsert : ∀ (d : List (κ × ν)) k v k', (listed κ ν).lookup ((k, v) :: d) k' =
      if k' = k then some v else (listed κ ν).lookup d k' := by
    intro d k v k'
    simp only [listed, List.find?_cons, eq_comm (a := k)]
    by_cases hk : k' = k <;> simp [hk]
  refine ⟨fun _ => rfl, hinsert, fun d k v k' _ => hinsert d k v k', fun d k v => ?_, fun d => ?_⟩
  · induction d with
    | nil => simp [listed, firsts]
    | cons e d ih =>
      obtain ⟨j, w⟩ := e
      have hitems : (listed κ ν).items ((j, w) :: d) =
        (j, w) :: ((listed κ ν).items d).filter fun e' => e'.1 ≠ j := rfl
      rw [hitems, hinsert, List.mem_cons, List.mem_filter, ih]
      by_cases hk : k = j <;> simp [hk, eq_comm]
  · induction d with
    | nil => exact List.nodup_nil
    | cons e d ih =>
      refine List.nodup_cons.mpr ⟨fun hmem => ?_, ih.sublist (List.filter_sublist.map _)⟩
      obtain ⟨e', he', heq⟩ := List.mem_map.mp hmem
      simpa [heq] using (List.mem_filter.mp he').2

/-- The same dictionary in another type. -/
def wrap {T' : Type} (dic : Dictionary T κ ν) (put : T → T') (get : T' → T) :
    Dictionary T' κ ν where
  empty := put dic.empty
  lookup d := dic.lookup (get d)
  insert d k v := put (dic.insert (get d) k v)
  change d k v := put (dic.change (get d) k v)
  items d := dic.items (get d)

theorem Lawful.wrap {T' : Type} (h : dic.Lawful) {put : T → T'} {get : T' → T}
    (hget : ∀ d, get (put d) = d) : (dic.wrap put get).Lawful where
  lookup_empty k := by simpa only [Dictionary.wrap, hget] using h.lookup_empty k
  lookup_insert d k v k' := by simpa only [Dictionary.wrap, hget] using h.lookup_insert _ k v k'
  lookup_change d k v k' hk := by
    simpa only [Dictionary.wrap, hget] using h.lookup_change _ k v k' hk
  mem_items d k v := h.mem_items _ k v
  nodup_items d := h.nodup_items _

end Dictionary

/-! ## Graphs -/

/-- The nodes and the edges of a graph in their order, with their information, and whether it is
directed. -/
@[ext] structure Listing (V ι : Type) where
  nodes : List (V × ι)
  edges : List (V × V × ι)
  directed : Bool
  deriving DecidableEq, Repr

/-- The operations of a `GRAPH`. `inf` and `assign` read and write `g[v]`. -/
structure Graph (G V ι : Type) where
  listing : G → Listing V ι
  clear : G → G
  makeDirected : G → G
  makeUndirected : G → G
  newNode : G → ι → V × G
  inf : G → V → ι
  assign : G → V → ι → G
  newEdge : G → V → V → ι → G

namespace Graph

variable {G V ι : Type}

/-- What the manual says of a graph. It does not say what becomes of self-loops in
`make_undirected`. -/
structure Lawful (gr : Graph G V ι) : Prop where
  nodes_clear : ∀ g, (gr.listing (gr.clear g)).nodes = []
  edges_clear : ∀ g, (gr.listing (gr.clear g)).edges = []
  makeDirected : ∀ g, gr.listing (gr.makeDirected g) = { gr.listing g with directed := true }
  makeUndirected : ∀ g, (∀ e ∈ (gr.listing g).edges, e.1 ≠ e.2.1) →
    gr.listing (gr.makeUndirected g) = { gr.listing g with directed := false }
  nodes_makeUndirected : ∀ g, (gr.listing (gr.makeUndirected g)).nodes = (gr.listing g).nodes
  directed_makeUndirected : ∀ g, (gr.listing (gr.makeUndirected g)).directed = false
  newNode : ∀ g x, gr.listing (gr.newNode g x).2 =
    { gr.listing g with nodes := (gr.listing g).nodes ++ [((gr.newNode g x).1, x)] }
  fresh : ∀ g x, (gr.newNode g x).1 ∉ (gr.listing g).nodes.map Prod.fst
  inf : ∀ g v x, (v, x) ∈ (gr.listing g).nodes → gr.inf g v = x
  assign : ∀ g v x y l l', (gr.listing g).nodes = l ++ (v, y) :: l' →
    gr.listing (gr.assign g v x) = { gr.listing g with nodes := l ++ (v, x) :: l' }
  newEdge : ∀ g v w x, v ∈ (gr.listing g).nodes.map Prod.fst →
    w ∈ (gr.listing g).nodes.map Prod.fst → gr.listing (gr.newEdge g v w x) =
      { gr.listing g with edges := (gr.listing g).edges ++ [(v, w, x)] }

variable {gr : Graph G V ι}

theorem Lawful.listing_assign_newNode (h : gr.Lawful) (g : G) (x y : ι) :
    gr.listing (gr.assign (gr.newNode g x).2 (gr.newNode g x).1 y) =
      { gr.listing g with nodes := (gr.listing g).nodes ++ [((gr.newNode g x).1, y)] } := by
  have hnodes : (gr.listing (gr.newNode g x).2).nodes =
      (gr.listing g).nodes ++ ((gr.newNode g x).1, x) :: [] := by rw [h.newNode]
  rw [h.assign _ _ y x _ [] hnodes, h.newNode]

theorem Lawful.inf_newNode (h : gr.Lawful) (g : G) (x : ι) :
    gr.inf (gr.newNode g x).2 (gr.newNode g x).1 = x := by
  refine h.inf _ _ _ ?_
  rw [h.newNode]
  exact List.mem_append_right _ (List.mem_singleton_self _)

/-- A graph whose nodes are their places in the list of their information. -/
structure Numbered (ι : Type) where
  nodes : List ι
  edges : List (ℕ × ℕ × ι)
  directed : Bool
  deriving DecidableEq, Repr

/-- Graphs with numbered nodes; `nowhere` is read at a number that no node has. -/
def numbered {ι : Type} (nowhere : ι) : Graph (Numbered ι) ℕ ι where
  listing g := ⟨g.nodes.zipIdx.map Prod.swap, g.edges, g.directed⟩
  clear _ := ⟨[], [], true⟩
  makeDirected g := { g with directed := true }
  makeUndirected g := { g with directed := false }
  newNode g x := (g.nodes.length, { g with nodes := g.nodes ++ [x] })
  inf g v := g.nodes.getD v nowhere
  assign g v x := { g with nodes := g.nodes.set v x }
  newEdge g v w x := { g with edges := g.edges ++ [(v, w, x)] }

theorem numbered_lawful {ι : Type} (nowhere : ι) : (numbered nowhere).Lawful where
  nodes_clear _ := rfl
  edges_clear _ := rfl
  makeDirected _ := rfl
  makeUndirected _ _ := rfl
  nodes_makeUndirected _ := rfl
  directed_makeUndirected _ := rfl
  newNode g x := by simp [numbered, List.zipIdx_append]
  fresh g x := by simp [numbered, List.mem_zipIdx_iff_getElem?]
  inf g v x h := by
    obtain ⟨e, he, heq⟩ := List.mem_map.mp h
    have hget : g.nodes[v]? = some x := by
      obtain ⟨rfl, rfl⟩ := Prod.mk.inj heq
      exact List.mem_zipIdx_iff_getElem?.mp he
    simp [numbered, hget]
  assign g v x y l l' h := by
    have hl : g.nodes.zipIdx.map Prod.swap = l ++ (v, y) :: l' := h
    have hv : v = l.length := by
      have hget : (g.nodes.zipIdx.map Prod.swap)[l.length]? = some (v, y) := by simp [hl]
      obtain ⟨z, -, hz⟩ : ∃ z, g.nodes[l.length]? = some z ∧ (l.length, z) = (v, y) := by
        simpa using hget
      exact (Prod.mk.inj hz).1.symm
    have hset : (g.nodes.set v x).zipIdx.map Prod.swap =
        (g.nodes.zipIdx.map Prod.swap).set v (v, x) := by
      refine List.ext_getElem (by simp) fun i hi hi' => ?_
      simp only [List.getElem_map, List.getElem_zipIdx, Nat.zero_add, Prod.swap_prod_mk,
        List.getElem_set]
      split_ifs with hi
      · rw [hi]
      · rfl
    have hnodes : (g.nodes.set v x).zipIdx.map Prod.swap = l ++ (v, x) :: l' := by
      rw [hset, hl, hv, List.set_append_right _ _ le_rfl, Nat.sub_self, List.set_cons_zero]
    exact congrArg (Listing.mk · g.edges g.directed) hnodes
  newEdge _ _ _ _ _ _ := rfl

end Graph

end Leda

import Modelnet.Tools.Routes

/-!
# Mirror edges

`calculateMirrors` goes through the edges in their order and gives an edge without a mirror the
first edge that leads back, and this one the edge, also if it has a mirror already. So the first
edge of a direction ends up with the last one that leads back, and every other edge with the first
one (`calculateMirrors_eq`): mirrors come in pairs only if as many edges lead back as lead forth, and
not more than two of them (`calculateMirrors_pairs_iff`).
-/

namespace Modelnet.Tools

variable {D : Type}

/-- The body of the loop of `calculateMirrors`. -/
def mirrorEdge (g : GraphData D) (mirrors : ℕ → Option ℕ) (e : ℕ) : ℕ → Option ℕ :=
  if mirrors e ≠ none then mirrors
  else
    match (g.outEdges (g.target e)).find? fun e1 => g.target e1 = g.source e with
    | some e1 => Function.update (Function.update mirrors e (some e1)) e1 (some e)
    | none => mirrors

/-- `calculateMirrors`; `none` for nil. -/
def calculateMirrors (g : GraphData D) : ℕ → Option ℕ :=
  (List.range g.myEdges.length).foldl (mirrorEdge g) fun _ => none

/-! ## What is claimed -/

namespace GraphData

variable (g : GraphData D)

/-- The edges from one vertex to another. -/
def between (u v : ℕ) : List ℕ :=
  (List.range g.myEdges.length).filter fun e => g.source e = u ∧ g.target e = v

/-- The edges that lead back. -/
def reverses (e : ℕ) : List ℕ := g.between (g.target e) (g.source e)

/-- The edges that lead where an edge does. -/
def parallels (e : ℕ) : List ℕ := g.between (g.source e) (g.target e)

/-- Where an edge has a way back, as many edges lead back as lead forth, and at most two. -/
def PairedWays : Prop :=
  ∀ e < g.myEdges.length, g.reverses e ≠ [] →
    (g.reverses e).length = (g.parallels e).length ∧ (g.reverses e).length ≤ 2

end GraphData

/-- Edges have a mirror if they can, with the ends exchanged, and are the mirrors of their
mirrors. -/
structure MirrorsPair (g : GraphData D) (mirrors : ℕ → Option ℕ) : Prop where
  exchanged : ∀ e < g.myEdges.length, g.reverses e ≠ [] →
    ∃ e1 < g.myEdges.length, mirrors e = some e1 ∧ g.source e1 = g.target e ∧
      g.target e1 = g.source e
  involutive : ∀ e < g.myEdges.length, ∀ e1, mirrors e = some e1 → mirrors e1 = some e

/-! ## The edges of a direction -/

section

variable {g : GraphData D} {u v e f : ℕ}

theorem mem_between : e ∈ g.between u v ↔
    e < g.myEdges.length ∧ g.source e = u ∧ g.target e = v := by
  simp [GraphData.between]

theorem nodup_between : (g.between u v).Nodup := List.nodup_range.filter _

theorem mem_reverses : f ∈ g.reverses e ↔
    f < g.myEdges.length ∧ g.source f = g.target e ∧ g.target f = g.source e := mem_between

theorem mem_parallels : f ∈ g.parallels e ↔
    f < g.myEdges.length ∧ g.source f = g.source e ∧ g.target f = g.target e := mem_between

/-- The search for a mirror finds the first edge that leads back. -/
theorem find?_outEdges :
    (g.outEdges (g.target e)).find? (fun e1 => g.target e1 = g.source e) =
      (g.reverses e).head? := by
  rw [GraphData.outEdges, GraphData.reverses, GraphData.between, List.find?_filter,
    List.head?_filter]
  congr 1
  funext f
  simp

theorem head?_between : (g.between u v).head? = some f ↔
    f ∈ g.between u v ∧ ∀ e ∈ g.between u v, f ≤ e := by
  rw [GraphData.between, List.head?_filter, List.find?_range_eq_some]
  simp only [decide_eq_true_eq, List.mem_range, Bool.not_eq_true', decide_eq_false_iff_not,
    List.mem_filter]
  constructor
  · rintro ⟨hf, hlt, hmin⟩
    refine ⟨⟨hlt, hf⟩, fun e he => ?_⟩
    by_contra hef
    exact hmin e (by omega) he.2
  · rintro ⟨⟨hlt, hf⟩, hmin⟩
    refine ⟨hf, hlt, fun j hj hends => ?_⟩
    have := hmin j ⟨by omega, hends⟩
    omega

variable (g) in
/-- The last edge of a direction among the first ones of the graph. -/
def GraphData.lastBefore (k u v : ℕ) : Option ℕ :=
  ((List.range k).filter fun e => g.source e = u ∧ g.target e = v).getLast?

theorem lastBefore_zero : g.lastBefore 0 u v = none := rfl

theorem lastBefore_succ (k : ℕ) : g.lastBefore (k + 1) u v =
    if g.source k = u ∧ g.target k = v then some k else g.lastBefore k u v := by
  unfold GraphData.lastBefore
  rw [List.range_succ, List.filter_append]
  split_ifs with hk
  · simp [hk]
  · simp [hk]

theorem lastBefore_eq_none {k : ℕ} : g.lastBefore k u v = none ↔
    ∀ e < k, ¬(g.source e = u ∧ g.target e = v) := by
  simp [GraphData.lastBefore]

theorem lastBefore_length : g.lastBefore g.myEdges.length u v = (g.between u v).getLast? := rfl

end

/-! ## The loop -/

section

variable {g : GraphData D}

/-- The mirror of an edge when the loop has gone through the first edges. -/
def mirrorAfter (g : GraphData D) (k e : ℕ) : Option ℕ :=
  if (g.parallels e).head? = some e then
    (g.lastBefore k (g.target e) (g.source e)).or
      (if g.lastBefore k (g.source e) (g.target e) = none then none else (g.reverses e).head?)
  else if e < k then (g.reverses e).head? else none

variable {k e f : ℕ}

theorem reverses_eq_parallels (hs : g.source f = g.target e) (ht : g.target f = g.source e) :
    g.reverses e = g.parallels f := by
  rw [GraphData.reverses, GraphData.parallels, hs, ht]

theorem reverses_congr (hs : g.source f = g.source e) (ht : g.target f = g.target e) :
    g.reverses f = g.reverses e := by
  rw [GraphData.reverses, GraphData.reverses, hs, ht]

/-- The loop has not seen a direction before its first edge. -/
theorem lastBefore_first (hfirst : (g.parallels k).head? = some k) :
    g.lastBefore k (g.source k) (g.target k) = none := by
  refine lastBefore_eq_none.mpr fun e he hends => ?_
  obtain ⟨hk, hmin⟩ := head?_between.mp hfirst
  have := hmin e (mem_between.mpr ⟨he.trans (mem_between.mp hk).1, hends⟩)
  omega

/-- An edge that is not the first one of its direction has no mirror before its turn. -/
theorem mirrorAfter_self (hfirst : (g.parallels k).head? ≠ some k) : mirrorAfter g k k = none := by
  simp [mirrorAfter, hfirst]

/-- A turn changes nothing for an edge that is neither its own nor that of the first edge that leads
back. -/
theorem mirrorAfter_succ (hk : k < g.myEdges.length) (hek : e ≠ k)
    (hback : (g.parallels e).head? = some e →
      ¬(g.source k = g.target e ∧ g.target k = g.source e)) :
    mirrorAfter g (k + 1) e = mirrorAfter g k e := by
  by_cases hfirst : (g.parallels e).head? = some e
  · have hseen : g.lastBefore (k + 1) (g.source e) (g.target e) = none ↔
        g.lastBefore k (g.source e) (g.target e) = none := by
      rw [lastBefore_succ]
      split_ifs with hends
      · have hle : e ≤ k := (head?_between.mp hfirst).2 k (mem_between.mpr ⟨hk, hends⟩)
        have hlast : g.lastBefore k (g.source e) (g.target e) ≠ none := fun hlast =>
          lastBefore_eq_none.mp hlast e (by omega) ⟨rfl, rfl⟩
        simp [hlast]
      · rfl
    have hlast := lastBefore_succ (g := g) (u := g.target e) (v := g.source e) k
    rw [if_neg (hback hfirst)] at hlast
    simp only [mirrorAfter, hfirst, if_true, hseen, hlast]
  · have hlt : e < k + 1 ↔ e < k := by omega
    simp only [mirrorAfter, hfirst, if_false, hlt]

theorem mirrorAfter_eq_none (hk : k ≤ g.myEdges.length) (hempty : g.reverses e = []) :
    mirrorAfter g k e = none := by
  have hlast : g.lastBefore k (g.target e) (g.source e) = none := by
    refine lastBefore_eq_none.mpr fun f hf hends => ?_
    have hmem : f ∈ g.reverses e := mem_between.mpr ⟨by omega, hends⟩
    simp [hempty] at hmem
  simp [mirrorAfter, hempty, hlast]

theorem mirrorAfter_no_reverse (hk : k < g.myEdges.length)
    (hhead : (g.reverses k).head? = none) : mirrorAfter g (k + 1) = mirrorAfter g k := by
  funext e
  by_cases hek : e = k
  · subst hek
    have hempty : g.reverses e = [] := List.head?_eq_none_iff.mp hhead
    rw [mirrorAfter_eq_none hk hempty, mirrorAfter_eq_none (Nat.le_of_lt hk) hempty]
  · apply mirrorAfter_succ hk hek
    intro hfirst hends
    rw [reverses_eq_parallels hends.2.symm hends.1.symm, hfirst] at hhead
    contradiction

theorem mirrorAfter_of_back (hhead : (g.reverses k).head? = some e) :
    mirrorAfter g (k + 1) e = some k := by
  obtain ⟨-, hs, ht⟩ := mem_between.mp (head?_between.mp hhead).1
  rw [mirrorAfter, if_pos (by rwa [← reverses_eq_parallels hs ht]), lastBefore_succ,
    if_pos ⟨ht.symm, hs.symm⟩, Option.some_or]

theorem mirrorAfter_of_turn (hhead : (g.reverses k).head? = some f)
    (hnone : mirrorAfter g k k = none) (hkf : k ≠ f) : mirrorAfter g (k + 1) k = some f := by
  by_cases hfirst : (g.parallels k).head? = some k
  · -- the edge is no loop, which would lead back itself
    have hloop : ¬(g.source k = g.target k ∧ g.target k = g.source k) := by
      rintro ⟨h, -⟩
      rw [reverses_eq_parallels h h.symm, hfirst] at hhead
      exact hkf (Option.some.inj hhead)
    rw [mirrorAfter, if_pos hfirst, Option.or_eq_none_iff] at hnone
    have hself : g.lastBefore (k + 1) (g.source k) (g.target k) = some k := by
      rw [lastBefore_succ, if_pos ⟨rfl, rfl⟩]
    have hlast : g.lastBefore (k + 1) (g.target k) (g.source k) = none := by
      rw [lastBefore_succ, if_neg hloop, hnone.1]
    simp [mirrorAfter, hfirst, hself, hlast, hhead]
  · rw [mirrorAfter, if_neg hfirst, if_pos (by omega), hhead]

/-- An edge with a mirror before its turn is the first one of its direction, and no loop. -/
theorem exists_lastBefore (hsome : mirrorAfter g k k ≠ none) :
    (g.parallels k).head? = some k ∧
      ∃ b, g.lastBefore k (g.target k) (g.source k) = some b ∧
        ¬(g.source k = g.target k ∧ g.target k = g.source k) := by
  have hfirst : (g.parallels k).head? = some k := by
    by_contra hfirst
    exact hsome (mirrorAfter_self hfirst)
  have hnone := lastBefore_first hfirst
  have hlast : mirrorAfter g k k = g.lastBefore k (g.target k) (g.source k) := by
    simp [mirrorAfter, hfirst, hnone]
  obtain ⟨b, hb⟩ := Option.ne_none_iff_exists'.mp hsome
  refine ⟨hfirst, b, hlast ▸ hb, fun hloop => hsome ?_⟩
  rw [← hloop.1] at hnone
  rw [hlast, ← hloop.1, hnone]

theorem mirrorEdge_mirrorAfter (hk : k < g.myEdges.length) :
    mirrorEdge g (mirrorAfter g k) k = mirrorAfter g (k + 1) := by
  unfold mirrorEdge
  rw [find?_outEdges]
  by_cases hnone : mirrorAfter g k k = none
  · rw [if_neg (not_not.mpr hnone)]
    cases hhead : (g.reverses k).head? with
    | none => exact (mirrorAfter_no_reverse hk hhead).symm
    | some b =>
      dsimp only
      funext e
      by_cases heb : e = b
      · subst heb
        rw [Function.update_self, mirrorAfter_of_back hhead]
      · rw [Function.update_of_ne heb]
        by_cases hek : e = k
        · subst hek
          rw [Function.update_self, mirrorAfter_of_turn hhead hnone heb]
        · rw [Function.update_of_ne hek, mirrorAfter_succ hk hek]
          intro hfirst hends
          rw [reverses_eq_parallels hends.2.symm hends.1.symm, hfirst] at hhead
          exact heb (Option.some.inj hhead)
  · rw [if_pos hnone]
    obtain ⟨hfirst, b, hlast, hloop⟩ := exists_lastBefore hnone
    funext e
    by_cases hek : e = k
    · subst hek
      have hlast' : g.lastBefore (e + 1) (g.target e) (g.source e) = some b := by
        rw [lastBefore_succ, if_neg hloop, hlast]
      simp [mirrorAfter, hfirst, hlast, hlast']
    · by_cases hback : (g.parallels e).head? = some e ∧ g.source k = g.target e ∧
          g.target k = g.source e
      · obtain ⟨hfirst', hs, ht⟩ := hback
        have hsucc : g.lastBefore (k + 1) (g.target e) (g.source e) = some k := by
          rw [lastBefore_succ, if_pos ⟨hs, ht⟩]
        have hk' : g.lastBefore k (g.target e) (g.source e) = none := by
          rw [← hs, ← ht, lastBefore_first hfirst]
        have hhead : (g.reverses e).head? = some k := by
          rw [reverses_eq_parallels hs ht, hfirst]
        rw [ht, hs] at hlast
        simp [mirrorAfter, hfirst', hsucc, hk', hhead, hlast]
      · exact (mirrorAfter_succ hk hek fun hfirst' hends => hback ⟨hfirst', hends⟩).symm

variable (g) in
/-- The mirrors when the loop has gone through the first edges. -/
theorem foldl_mirrorEdge {k : ℕ} (hk : k ≤ g.myEdges.length) :
    (List.range k).foldl (mirrorEdge g) (fun _ => none) = mirrorAfter g k := by
  induction k with
  | zero =>
    funext e
    simp [mirrorAfter, lastBefore_zero]
  | succ k ih =>
    rw [List.range_succ, List.foldl_append, ih (by omega)]
    exact mirrorEdge_mirrorAfter (by omega)

theorem getLast?_or_head? (es : List ℕ) : es.getLast?.or es.head? = es.getLast? := by
  cases es with
  | nil => rfl
  | cons e es => rw [List.getLast?_cons, Option.some_or]

variable (g) in
/-- The first edge of a direction has the last edge that leads back for its mirror, and every other
edge the first one. -/
theorem calculateMirrors_eq (he : e < g.myEdges.length) :
    calculateMirrors g e = if (g.parallels e).head? = some e then (g.reverses e).getLast?
      else (g.reverses e).head? := by
  rw [calculateMirrors, foldl_mirrorEdge g le_rfl, mirrorAfter, lastBefore_length, if_pos he]
  split_ifs with hfirst hlast
  · exact Option.or_none
  · exact getLast?_or_head? (g.reverses e)
  · rfl

/-! ## Pairs -/

theorem mem_reverses_of_mirror (he : e < g.myEdges.length) (hf : calculateMirrors g e = some f) :
    f ∈ g.reverses e := by
  rw [calculateMirrors_eq g he] at hf
  split_ifs at hf
  · exact List.mem_of_getLast? hf
  · exact List.mem_of_head? hf

theorem exists_mirror (he : e < g.myEdges.length) (hback : g.reverses e ≠ []) :
    ∃ f, calculateMirrors g e = some f := by
  rw [calculateMirrors_eq g he]
  split_ifs
  · exact Option.ne_none_iff_exists'.mp (mt List.getLast?_eq_none_iff.mp hback)
  · exact Option.ne_none_iff_exists'.mp (mt List.head?_eq_none_iff.mp hback)

/-- No mirror is the mirror of two edges that lead the same way. -/
theorem length_parallels_le (h : MirrorsPair g (calculateMirrors g)) (hback : g.reverses e ≠ []) :
    (g.parallels e).length ≤ (g.reverses e).length := by
  have hmirror : ∀ a ∈ g.parallels e, ∃ f ∈ g.reverses e, calculateMirrors g a = some f := by
    intro a ha
    obtain ⟨hlt, hs, ht⟩ := mem_parallels.mp ha
    rw [← reverses_congr hs ht] at hback ⊢
    obtain ⟨f, hf⟩ := exists_mirror hlt hback
    exact ⟨f, mem_reverses_of_mirror hlt hf, hf⟩
  have hinj : ∀ a ∈ g.parallels e, ∀ b ∈ g.parallels e,
      calculateMirrors g a = calculateMirrors g b → a = b := by
    intro a ha b hb hab
    obtain ⟨f, -, hf⟩ := hmirror a ha
    have ha' := h.involutive a (mem_parallels.mp ha).1 f hf
    have hb' := h.involutive b (mem_parallels.mp hb).1 f (hab ▸ hf)
    exact Option.some.inj (ha'.symm.trans hb')
  have hsub : (g.parallels e).map (calculateMirrors g) ⊆ (g.reverses e).map some := by
    intro m hm
    obtain ⟨a, ha, rfl⟩ := List.mem_map.mp hm
    obtain ⟨f, hf, hf'⟩ := hmirror a ha
    exact List.mem_map.mpr ⟨f, hf, hf'.symm⟩
  have hlength := ((nodup_between.map_on hinj).subperm hsub).length_le
  simpa using hlength

/-- The second and the third edge of a direction have the same mirror. -/
theorem length_reverses_le (h : MirrorsPair g (calculateMirrors g)) (he : e < g.myEdges.length) :
    (g.reverses e).length ≤ 2 := by
  by_contra hlong
  match hr : g.reverses e with
  | [] | [a] | [a, b] => simp [hr] at hlong
  | a :: b :: c :: fs =>
    have hnodup : (a :: b :: c :: fs).Nodup := hr ▸ nodup_between
    have hlater : ∀ x ∈ b :: c :: fs, calculateMirrors g x = (g.parallels e).head? := by
      intro x hx
      have hmem : x ∈ g.reverses e := hr ▸ List.mem_cons_of_mem a hx
      obtain ⟨hlt, hs, ht⟩ := mem_reverses.mp hmem
      have hne : (g.parallels x).head? ≠ some x := by
        rw [← reverses_eq_parallels hs ht, hr]
        rintro ⟨⟩
        exact (List.nodup_cons.mp hnodup).1 hx
      rw [calculateMirrors_eq g hlt, if_neg hne, reverses_eq_parallels ht.symm hs.symm]
    obtain ⟨f, hf⟩ : ∃ f, (g.parallels e).head? = some f :=
      Option.ne_none_iff_exists'.mp
        (mt List.head?_eq_none_iff.mp (List.ne_nil_of_mem (mem_parallels.mpr ⟨he, rfl, rfl⟩)))
    have hb := h.involutive b (mem_reverses.mp (hr ▸ by simp : b ∈ g.reverses e)).1 f
      ((hlater b (by simp)).trans hf)
    have hc := h.involutive c (mem_reverses.mp (hr ▸ by simp : c ∈ g.reverses e)).1 f
      ((hlater c (by simp)).trans hf)
    have hbc : b = c := Option.some.inj (hb.symm.trans hc)
    simp [hbc] at hnodup

/-- A direction with one or two edges, and as many back. -/
theorem mirror_mirror_of_paired (he : e < g.myEdges.length)
    (hlength : (g.reverses e).length = (g.parallels e).length) (hle : (g.reverses e).length ≤ 2)
    (hf : calculateMirrors g e = some f) : calculateMirrors g f = some e := by
  obtain ⟨hlt, hs, ht⟩ := mem_reverses.mp (mem_reverses_of_mirror he hf)
  have hmem : e ∈ g.parallels e := mem_parallels.mpr ⟨he, rfl, rfl⟩
  rw [calculateMirrors_eq g he] at hf
  rw [calculateMirrors_eq g hlt, ← reverses_eq_parallels hs ht,
    reverses_eq_parallels ht.symm hs.symm]
  have hreverses : (g.reverses e).Nodup := nodup_between
  have hparallels : (g.parallels e).Nodup := nodup_between
  match hr : g.reverses e, hp : g.parallels e with
  | [], _ => simp [hr] at hf
  | _ :: _, [] => simp [hp] at hmem
  | [r], [p] =>
    obtain rfl : e = p := by simpa [hp] using hmem
    obtain rfl : r = f := by simpa [hr, hp] using hf
    simp
  | [r, r'], [p, p'] =>
    have hne : r ≠ r' := by simpa [hr] using hreverses
    have hne' : p ≠ p' := by simpa [hp] using hparallels
    obtain rfl | rfl : e = p ∨ e = p' := by simpa [hp] using hmem
    · obtain rfl : r' = f := by simpa [hr, hp] using hf
      simp [hne]
    · obtain rfl : r = f := by simpa [hr, hp, hne'] using hf
      simp
  | [r], p :: p' :: ps => simp [hr, hp] at hlength
  | r :: r' :: rs, [p] => simp [hr, hp] at hlength
  | r :: r' :: r'' :: rs, _ => simp [hr] at hle
  | [r, r'], p :: p' :: p'' :: ps => simp [hr, hp] at hlength

variable (g) in
/-- Mirrors are pairs if and only if the ways are. -/
theorem calculateMirrors_pairs_iff : MirrorsPair g (calculateMirrors g) ↔ g.PairedWays := by
  constructor
  · intro h e he hback
    obtain ⟨r, hr⟩ := List.exists_mem_of_ne_nil _ hback
    obtain ⟨hlt, hs, ht⟩ := mem_reverses.mp hr
    have hback' : g.reverses r ≠ [] := by
      rw [reverses_eq_parallels ht.symm hs.symm]
      exact List.ne_nil_of_mem (mem_parallels.mpr ⟨he, rfl, rfl⟩)
    have hle := length_parallels_le h hback'
    rw [← reverses_eq_parallels hs ht, reverses_eq_parallels ht.symm hs.symm] at hle
    exact ⟨le_antisymm hle (length_parallels_le h hback), length_reverses_le h he⟩
  · intro h
    refine ⟨fun e he hback => ?_, fun e he f hf => ?_⟩
    · obtain ⟨f, hf⟩ := exists_mirror he hback
      obtain ⟨hlt, hs, ht⟩ := mem_reverses.mp (mem_reverses_of_mirror he hf)
      exact ⟨f, hlt, hf, hs, ht⟩
    · have hback := List.ne_nil_of_mem (mem_reverses_of_mirror he hf)
      exact mirror_mirror_of_paired he (h e he hback).1 (h e he hback).2 hf

end

/-- Two edges lead from one vertex to another, and one leads back. -/
def unpairedWays : GraphData Unit :=
  { (∅ : GraphData Unit) with
    myVertices := [∅, ∅], myEdges := [⟨0, 1, ∅⟩, ⟨0, 1, ∅⟩, ⟨1, 0, ∅⟩] }

/-- The mirror of the mirror of the first edge is the second one. -/
theorem unpairedWays_mirrors : ¬MirrorsPair unpairedWays (calculateMirrors unpairedWays) := by
  intro h
  have := h.involutive 0 (by decide) 2 (by decide)
  revert this
  decide

end Modelnet.Tools

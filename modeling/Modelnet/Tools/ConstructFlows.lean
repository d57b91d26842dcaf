import Modelnet.Tools.FlowPatterns
import Modelnet.Tools.Makedynamic

/-!
# Which patterns always find targets

The target of a flow is drawn among the clients of its class until it is not the source. That ends
if a draw can find such a client (`ends_pickTarget`), and so `constructFlows` returns if this holds
of every flow that can begin. But which clients are in a class is drawn too. As soon as two classes
of different names can be chosen, all clients but the source of a flow may get one that the flow is
not to (`exists_not_returnsFlows`). So a pattern with a flow is good for all draws only if all
clients are sure to get the class that the flow is to (`constructFlows_returns_iff`).
-/

namespace Modelnet.Tools

variable {D : Type} {a : Arithmetic D} {randMax : ℕ}

/-! ## Targets -/

/-- The client of a draw, if it is not the source. -/
def otherNode (nodes : List ℕ) (v : ℕ) (draw : Fin (randMax + 1)) : Option ℕ :=
  nodes[draw.val % nodes.length]?.filter fun target => target ≠ v

theorem otherNode_eq_some {nodes : List ℕ} {v target : ℕ} {draw : Fin (randMax + 1)} :
    otherNode nodes v draw = some target ↔
      nodes[draw.val % nodes.length]? = some target ∧ target ≠ v := by
  simp [otherNode, Option.filter_eq_some_iff]

/-- The loop draws until there is another client than the source. -/
theorem pickTarget_eq_accept (nodes : List ℕ) (v fuel : ℕ)
    (draws : Stream' (Fin (randMax + 1))) :
    pickTarget nodes v fuel draws = Draws.accept (otherNode nodes v) fuel draws := by
  induction fuel generalizing draws with
  | zero => rfl
  | succ fuel ih =>
    rw [pickTarget, Draws.accept]
    cases hget : nodes[draws.head.val % nodes.length]? with
    | none =>
      -- the group is empty, and nothing is accepted
      have hnil : nodes = [] := by
        by_contra hne
        have hlt := Nat.mod_lt draws.head.val (List.length_pos_of_ne_nil hne)
        rw [List.getElem?_eq_getElem hlt] at hget
        cases hget
      subst hnil
      exact (Draws.accept_eq_none (fun _ => rfl) (fuel + 1) draws).symm
    | some target =>
      dsimp only
      by_cases hv : target = v
      · rw [if_pos hv, ih, otherNode, hget, Option.filter_some, if_neg (by simpa using hv)]
      · rw [if_neg hv, otherNode_eq_some.mpr ⟨hget, hv⟩]

/-- Each residue occurs again and again, for all moduli up to a number. -/
def EveryResidue (n : ℕ) (draws : Stream' (Fin (randMax + 1))) : Prop :=
  ∀ m, 0 < m → m ≤ n → ∀ x : Fin (randMax + 1),
    Draws.Recurs (fun draw => draw.val % m = x.val % m) draws

theorem EveryResidue.of_isRest {n : ℕ} {draws rest : Stream' (Fin (randMax + 1))}
    (h : EveryResidue n draws) (hrest : Draws.IsRest rest draws) : EveryResidue n rest :=
  fun m hpos hle x => (h m hpos hle x).of_isRest hrest

theorem ends_pickTarget {nodes : List ℕ} {v n : ℕ} {draws : Stream' (Fin (randMax + 1))}
    (h : EveryResidue n draws) (hlen : nodes.length ≤ n) {x : Fin (randMax + 1)} {w : ℕ}
    (hx : otherNode nodes v x = some w) :
    Draws.Ends (fun fuel => pickTarget nodes v fuel draws)
      fun r => (r.1 ∈ nodes ∧ r.1 ≠ v) ∧ Draws.IsRest r.2 draws := by
  have hget := (otherNode_eq_some.mp hx).1
  have hpos : 0 < nodes.length := List.length_pos_of_mem (List.mem_of_getElem? hget)
  have hrecurs : Draws.Recurs (fun draw => (otherNode nodes v draw).isSome) draws := by
    refine (h nodes.length hpos hlen x).mono fun draw hdraw => ?_
    rw [otherNode, hdraw, ← otherNode, hx]
    rfl
  obtain ⟨fuel, r, hrun, ⟨draw, hdraw⟩, hrest⟩ := Draws.ends_accept hrecurs
  obtain ⟨hr, hne⟩ := otherNode_eq_some.mp hdraw
  refine ⟨fuel, r, fun fuel' hle => ?_, ⟨List.mem_of_getElem? hr, hne⟩, hrest⟩
  exact (pickTarget_eq_accept nodes v fuel' draws).trans (hrun fuel' hle)

/-! ## Flows that end -/

/-- The target of a flow is not its source, and has the class that the flow is to. -/
structure PatternFlow.Correct (g : GraphData D) (f : PatternFlow D) : Prop where
  ne : f.target ≠ f.source
  class_eq : (g.vertexAttr f.target).getString (str "class") = f.template.targetType

/-- The flows are correct, and the residues keep coming. -/
structure FlowState.Good (n : ℕ) (g : GraphData D) (st : FlowState D randMax) : Prop where
  flows : ∀ f ∈ st.1, f.Correct g
  draws : EveryResidue n st.2

/-- A draw can find a target for a flow, and the clients of its class have got this class. -/
structure Findable (s : FlowDesign D) (randMax n v : ℕ) (tf : TypedFlow D) : Prop where
  length : (s.group tf.targetType).length ≤ n
  other : ∃ x : Fin (randMax + 1), ∃ w, otherNode (s.group tf.targetType) v x = some w
  class_eq : ∀ u ∈ s.group tf.targetType,
    (s.g.vertexAttr u).getString (str "class") = tf.targetType

section

variable {s : FlowDesign D} {n v : ℕ} {tf : TypedFlow D} {st : FlowState D randMax}

theorem ends_createFlow (hfind : Findable s randMax n v tf) (hst : st.Good n s.g) :
    Draws.Ends (fun fuel => createFlow a s fuel v tf st) (FlowState.Good n s.g) := by
  obtain ⟨x, w, hx⟩ := hfind.other
  refine (ends_pickTarget hst.draws hfind.length hx).bind fun r hr => Draws.Ends.pure ?_
  obtain ⟨⟨hmem, hne⟩, hrest⟩ := hr
  refine ⟨fun f hf => ?_, (hst.draws.of_isRest hrest).of_isRest (Draws.IsRest.tail r.2)⟩
  rcases List.mem_append.mp hf with hf | hf
  · exact hst.flows f hf
  · rw [List.mem_singleton.mp hf]
    exact ⟨hne, hfind.class_eq _ hmem⟩

theorem ends_createFlows (hfind : Findable s randMax n v tf) (m : ℕ) (hst : st.Good n s.g) :
    Draws.Ends (fun fuel => createFlows a s fuel v tf m st) (FlowState.Good n s.g) := by
  induction m generalizing st with
  | zero => exact Draws.Ends.pure hst
  | succ m ih => exact (ends_createFlow hfind hst).bind fun r hr => ih hr

variable (a randMax) in
/-- A draw can make flows of a template. -/
def CanBegin (tf : TypedFlow D) : Prop := ∃ draw : Fin (randMax + 1), 0 < mult a tf draw

theorem ends_instantiate (hfind : CanBegin a randMax tf → Findable s randMax n v tf)
    (hst : st.Good n s.g) :
    Draws.Ends (fun fuel => instantiate a s fuel v st tf) (FlowState.Good n s.g) := by
  have htail : FlowState.Good n s.g (st.1, st.2.tail) :=
    ⟨hst.flows, hst.draws.of_isRest (Draws.IsRest.tail st.2)⟩
  by_cases hpos : 0 < mult a tf st.2.head
  · exact ends_createFlows (hfind ⟨_, hpos⟩) _ htail
  · have hzero : (mult a tf st.2.head).toNat = 0 := Int.toNat_of_nonpos (not_lt.mp hpos)
    simp only [instantiate, hzero, createFlows]
    exact Draws.Ends.pure htail

theorem ends_clientFlows {ct : ClientType D} (hct : s.typeOf v = some ct)
    (hfind : ∀ tf ∈ ct.flows, CanBegin a randMax tf → Findable s randMax n v tf)
    (hst : st.Good n s.g) :
    Draws.Ends (fun fuel => clientFlows a s fuel st v) (FlowState.Good n s.g) := by
  have heq : (fun fuel => clientFlows a s fuel st v) =
      fun fuel => ct.flows.foldlM (instantiate a s fuel v) st := by
    funext fuel
    rw [clientFlows, hct]
    rfl
  rw [heq]
  exact Draws.Ends.foldlM (fun tf htf r hr => ends_instantiate (hfind tf htf) hr) hst

end

/-! ## The classes of the clients -/

section

variable (a randMax) (types : List (ClientType D))

/-- A draw can choose a class. -/
def CanChoose (ct : ClientType D) : Prop :=
  ∃ draw : Fin (randMax + 1), chooseType a types draw = some ct

/-- What the first loop has done for some of the clients. -/
structure Designed (g : GraphData D) (vs : List ℕ) (s : FlowDesign D) : Prop where
  typed : ∀ v ∈ vs, ∃ ct, CanChoose a randMax types ct ∧ s.typeOf v = some ct ∧
    (s.g.vertexAttr v).getString (str "class") = ct.name
  length : ∀ t, (s.group t).length ≤ vs.length
  group : ∀ t, (∀ ct, CanChoose a randMax types ct → ct.name = t) → s.group t = vs
  vertices : s.g.myVertices.length = g.myVertices.length

end

variable {types : List (ClientType D)} {g : GraphData D}

theorem chooseFrom_isSome {p sum : D} (h : types ≠ []) :
    ∃ ct, chooseFrom a p sum types = some ct := by
  induction types generalizing sum with
  | nil => exact absurd rfl h
  | cons ct types ih =>
    rw [chooseFrom]
    split_ifs with hif
    · exact ⟨ct, rfl⟩
    · refine ih ?_
      rintro rfl
      exact hif (by simp)

theorem exists_chooseType (h : types ≠ []) (draw : Fin (randMax + 1)) :
    ∃ ct, chooseType a types draw = some ct := chooseFrom_isSome h

theorem getString_setString_self {v : ℕ} (hv : v < g.myVertices.length) (key val : Str) :
    ((g.setString v key val).vertexAttr v).getString key = val := by
  simp [GraphData.vertexAttr, GraphData.setString, AttributeMap.getString, AttributeMap.setString,
    hv]

theorem vertexAttr_setString_of_ne {u v : ℕ} (hne : u ≠ v) (key val : Str) :
    (g.setString v key val).vertexAttr u = g.vertexAttr u := by
  simp [GraphData.vertexAttr, GraphData.setString, hne.symm]

section

variable {vs : List ℕ} {s : FlowDesign D} {v : ℕ}

/-- A client gets a class that can be chosen, with two draws. -/
theorem Designed.step (h : Designed a randMax types g vs s) (htypes : types ≠ [])
    (hv : v < g.myVertices.length) (draws : Stream' (Fin (randMax + 1))) :
    ∃ s', designClient a types (s, draws) v = some (s', draws.tail.tail) ∧
      Designed a randMax types g (vs ++ [v]) s' := by
  obtain ⟨ct, hct⟩ := exists_chooseType (a := a) htypes draws.head
  have hchoose : CanChoose a randMax types ct := ⟨draws.head, hct⟩
  rw [designClient, hct]
  refine ⟨_, rfl, ?_⟩
  refine ⟨fun u hu => ?_, fun t => ?_, fun t ht => ?_, ?_⟩
  · by_cases huv : u = v
    · subst huv
      refine ⟨ct, hchoose, Function.update_self _ _ _, ?_⟩
      exact getString_setString_self (by rwa [h.vertices]) _ _
    · have hmem : u ∈ vs := by simpa [huv] using hu
      obtain ⟨ct', hchoose', htype, hname⟩ := h.typed u hmem
      refine ⟨ct', hchoose', (Function.update_of_ne huv _ _).trans htype, ?_⟩
      rw [vertexAttr_setString_of_ne huv]
      exact hname
  · dsimp only
    rw [List.length_append, List.length_singleton]
    by_cases ht : t = ct.name
    · subst ht
      rw [Function.update_self, List.length_append, List.length_singleton]
      exact Nat.add_le_add_right (h.length _) 1
    · rw [Function.update_of_ne ht]
      exact (h.length t).trans (Nat.le_succ _)
  · obtain rfl := ht ct hchoose
    dsimp only
    rw [Function.update_self, h.group _ ht]
  · rw [← h.vertices]
    exact List.length_modify _ _ _

theorem exists_design (htypes : types ≠ []) (hvs : ∀ v ∈ vs, v < g.myVertices.length)
    (draws : Stream' (Fin (randMax + 1))) :
    ∃ s rest, vs.foldlM (designClient a types)
        (⟨g, fun _ => none, fun _ => a.ofInt 0, fun _ => []⟩, draws) = some (s, rest) ∧
      Draws.IsRest rest draws ∧ Designed a randMax types g vs s := by
  induction vs using List.reverseRecOn with
  | nil =>
    refine ⟨_, draws, rfl, Draws.IsRest.refl draws, ?_⟩
    exact ⟨fun v hv => absurd hv List.not_mem_nil, fun t => Nat.le_refl 0, fun t _ => rfl, rfl⟩
  | append_singleton vs v ih =>
    obtain ⟨s, rest, hrun, hrest, hs⟩ := ih fun u hu => hvs u (List.mem_append_left _ hu)
    obtain ⟨s', hstep, hs'⟩ := hs.step htypes (hvs v (by simp)) rest
    refine ⟨s', rest.tail.tail, ?_, ?_, hs'⟩
    · simp only [List.foldlM_append, List.foldlM_cons, List.foldlM_nil, bind_pure, hrun]
      exact hstep
    · exact (Draws.IsRest.tail _).trans ((Draws.IsRest.tail _).trans hrest)

end

/-! ## Patterns that always find targets -/

variable (a randMax) in
/-- If there are clients, and a class that can be chosen has a flow that can begin, then every class
that can be chosen has the name that the flow is to, and there are two different clients among those
that a draw can find. -/
def AlwaysFinds (types : List (ClientType D)) (clients : List ℕ) : Prop :=
  clients ≠ [] → ∀ ct, CanChoose a randMax types ct → ∀ tf ∈ ct.flows, CanBegin a randMax tf →
    (∀ ct', CanChoose a randMax types ct' → ct'.name = tf.targetType) ∧
      ∃ v ∈ clients.take (randMax + 1), ∃ w ∈ clients.take (randMax + 1), v ≠ w

variable (a) in
/-- `constructFlows` returns, and its flows are correct. -/
def ReturnsFlows (types : List (ClientType D)) (g : GraphData D) (clients : List ℕ)
    (draws : Stream' (Fin (randMax + 1))) : Prop :=
  ∃ fuel r, constructFlows a types g clients fuel draws = some r ∧ ∀ f ∈ r.2, f.Correct r.1

section

variable {clients : List ℕ}

theorem findable_of_alwaysFinds (h : AlwaysFinds a randMax types clients) {s : FlowDesign D}
    (hs : Designed a randMax types g clients s) {v : ℕ} (hv : v ∈ clients) {ct : ClientType D}
    (hct : CanChoose a randMax types ct) {tf : TypedFlow D} (htf : tf ∈ ct.flows)
    (hbegin : CanBegin a randMax tf) : Findable s randMax clients.length v tf := by
  obtain ⟨hname, u, hu, w, hw, hne⟩ := h (List.ne_nil_of_mem hv) ct hct tf htf hbegin
  have hgroup := hs.group _ hname
  refine ⟨hs.length _, ?_, fun u hu => ?_⟩
  · -- one of the two is not the source
    obtain ⟨w, hw, hne⟩ : ∃ w ∈ clients.take (randMax + 1), w ≠ v := by
      by_cases huv : u = v
      · exact ⟨w, hw, fun hwv => hne (huv.trans hwv.symm)⟩
      · exact ⟨u, hu, huv⟩
    obtain ⟨k, hk, hget⟩ := List.mem_iff_getElem.mp hw
    rw [List.length_take] at hk
    refine ⟨⟨k, by omega⟩, w, otherNode_eq_some.mpr ⟨?_, hne⟩⟩
    have hlt : k < clients.length := by omega
    rw [List.getElem_take] at hget
    rw [hgroup, Nat.mod_eq_of_lt hlt, List.getElem?_eq_getElem hlt]
    exact congrArg some hget
  · rw [hgroup] at hu
    obtain ⟨ct', hct', -, hclass⟩ := hs.typed u hu
    rw [hclass, hname ct' hct']

theorem returnsFlows_of_alwaysFinds (h : AlwaysFinds a randMax types clients) (htypes : types ≠ [])
    (hclients : ∀ v ∈ clients, v < g.myVertices.length) {draws : Stream' (Fin (randMax + 1))}
    (hdraws : EveryResidue clients.length draws) : ReturnsFlows a types g clients draws := by
  obtain ⟨s, rest, hrun, hrest, hs⟩ := exists_design (a := a) htypes hclients draws
  have hgood : FlowState.Good clients.length s.g (([], rest) : FlowState D randMax) :=
    ⟨fun f hf => absurd hf List.not_mem_nil, hdraws.of_isRest hrest⟩
  have hends : Draws.Ends (fun fuel => clients.foldlM (clientFlows a s fuel) ([], rest))
      (FlowState.Good clients.length s.g) := by
    refine Draws.Ends.foldlM (fun v hv r hr => ?_) hgood
    obtain ⟨ct, hchoose, htype, -⟩ := hs.typed v hv
    exact ends_clientFlows htype
      (fun tf htf hbegin => findable_of_alwaysFinds h hs hv hchoose htf hbegin) hr
  obtain ⟨fuel, r, hfuel, hr⟩ := hends
  refine ⟨fuel, (s.g, r.1), ?_, hr.flows⟩
  have hflows := hfuel fuel le_rfl
  dsimp only at hflows
  rw [constructFlows, hrun]
  show (clients.foldlM (clientFlows a s fuel) ([], rest)).bind _ = _
  rw [hflows]
  rfl

end

/-! ## Draws that find no target -/

/-- A client with a class that is chosen by a given draw, and a draw for its rate. -/
theorem designClient_eq {draw : Fin (randMax + 1)} {ct : ClientType D}
    (hct : chooseType a types draw = some ct) (s : FlowDesign D) (v : ℕ) :
    ∃ s', (∀ rest, designClient a types (s, [draw, 0] ++ₛ rest) v = some (s', rest)) ∧
      s'.typeOf = Function.update s.typeOf v (some ct) ∧
      s'.group = Function.update s.group ct.name (s.group ct.name ++ [v]) := by
  let bw := clientBw a s.g v
  let val := a.mul (chooseVal a ct.linkLow ct.linkHigh (0 : Fin (randMax + 1))) bw
  refine ⟨⟨s.g.setString v (str "class") ct.name, _,
    Function.update s.sendRate v (if a.lt val bw then val else bw), _⟩, fun rest => ?_, rfl, rfl⟩
  rw [designClient, Stream'.cons_append_stream, Stream'.head_cons, hct]
  rfl

theorem design_eq {f : ℕ → Fin (randMax + 1)} {F : ℕ → ClientType D}
    (hf : ∀ v, chooseType a types (f v) = some (F v)) (vs : List ℕ) (s : FlowDesign D) :
    ∃ s', (∀ rest, vs.foldlM (designClient a types)
        (s, (vs.flatMap fun v => [f v, 0]) ++ₛ rest) = some (s', rest)) ∧
      (∀ v, s'.typeOf v = if v ∈ vs then some (F v) else s.typeOf v) ∧
      ∀ t, s'.group t = s.group t ++ vs.filter fun v => (F v).name = t := by
  induction vs generalizing s with
  | nil => exact ⟨s, fun rest => rfl, fun v => rfl, fun t => (List.append_nil _).symm⟩
  | cons v vs ih =>
    obtain ⟨s₁, hs₁, htype₁, hgroup₁⟩ := designClient_eq (hf v) s v
    obtain ⟨s', hs', htype', hgroup'⟩ := ih s₁
    refine ⟨s', fun rest => ?_, fun u => ?_, fun t => ?_⟩
    · rw [List.foldlM_cons, List.flatMap_cons, Stream'.append_append_stream, hs₁]
      exact hs' rest
    · rw [htype', htype₁]
      by_cases huv : u = v
      · subst huv
        simp
      · simp [huv]
    · rw [hgroup', hgroup₁]
      by_cases ht : (F v).name = t
      · subst ht
        simp
      · rw [Function.update_of_ne (Ne.symm ht)]
        simp [ht]

section

variable {s : FlowDesign D} {v fuel : ℕ} {tf : TypedFlow D}

/-- No draw finds a target. -/
def Stuck (s : FlowDesign D) (randMax v : ℕ) (tf : TypedFlow D) : Prop :=
  ∀ draw : Fin (randMax + 1), otherNode (s.group tf.targetType) v draw = none

theorem instantiate_of_stuck (hstuck : Stuck s randMax v tf) {draw : Fin (randMax + 1)}
    (hdraw : 0 < mult a tf draw) (flows : List (PatternFlow D))
    (rest : Stream' (Fin (randMax + 1))) :
    instantiate a s fuel v (flows, Stream'.cons draw rest) tf = none := by
  obtain ⟨m, hm⟩ := Nat.exists_eq_succ_of_ne_zero (show (mult a tf draw).toNat ≠ 0 by omega)
  rw [instantiate, Stream'.head_cons, hm, createFlows, createFlow, pickTarget_eq_accept,
    Draws.accept_eq_none hstuck]
  rfl

theorem rest_createFlows {x : Fin (randMax + 1)} {w : ℕ}
    (hx : otherNode (s.group tf.targetType) v x = some w) {m : ℕ} {flows : List (PatternFlow D)}
    {rest : Stream' (Fin (randMax + 1))} {r : FlowState D randMax}
    (h : createFlows a s fuel v tf m (flows, (List.replicate m [x, 0]).flatten ++ₛ rest) =
      some r) : r.2 = rest := by
  induction m generalizing flows with
  | zero =>
    cases h
    rfl
  | succ m ih =>
    rw [createFlows, List.replicate_succ, List.flatten_cons, Stream'.append_append_stream,
      Stream'.cons_append_stream] at h
    obtain ⟨st, hst, h⟩ := Option.bind_eq_some_iff.mp h
    rw [createFlow, pickTarget_eq_accept] at hst
    obtain ⟨picked, hpicked, hst⟩ := Option.bind_eq_some_iff.mp hst
    obtain rfl := Draws.accept_cons hx hpicked
    cases hst
    exact ih h

/-- A template that finds targets can be passed with some draws. -/
theorem exists_passing (h : ¬(CanBegin a randMax tf ∧ Stuck s randMax v tf)) :
    ∃ l : List (Fin (randMax + 1)), ∀ fuel flows rest r,
      instantiate a s fuel v (flows, l ++ₛ rest) tf = some r → r.2 = rest := by
  by_cases hbegin : CanBegin a randMax tf
  · obtain ⟨x, hx⟩ := not_forall.mp fun hstuck => h ⟨hbegin, hstuck⟩
    obtain ⟨w, hw⟩ := Option.ne_none_iff_exists'.mp hx
    refine ⟨0 :: (List.replicate (mult a tf (0 : Fin (randMax + 1))).toNat [x, 0]).flatten, ?_⟩
    intro fuel flows rest r hr
    exact rest_createFlows hw hr
  · refine ⟨[0], fun fuel flows rest r hr => ?_⟩
    have hzero : (mult a tf (0 : Fin (randMax + 1))).toNat = 0 :=
      Int.toNat_of_nonpos (not_lt.mp fun hpos => hbegin ⟨0, hpos⟩)
    rw [instantiate, Stream'.cons_append_stream, Stream'.head_cons, hzero] at hr
    cases hr
    rfl

/-- A template that finds no targets is reached and begun with some draws. -/
theorem exists_stopping {tfs : List (TypedFlow D)} (htf : tf ∈ tfs)
    (hbegin : CanBegin a randMax tf) (hstuck : Stuck s randMax v tf) :
    ∃ l : List (Fin (randMax + 1)), ∀ fuel flows rest,
      tfs.foldlM (instantiate a s fuel v) (flows, l ++ₛ rest) = none := by
  induction tfs with
  | nil => exact absurd htf List.not_mem_nil
  | cons tf' tfs ih =>
    by_cases hbad : CanBegin a randMax tf' ∧ Stuck s randMax v tf'
    · obtain ⟨⟨draw, hdraw⟩, hstuck'⟩ := hbad
      refine ⟨[draw], fun fuel flows rest => ?_⟩
      rw [List.foldlM_cons, Stream'.cons_append_stream, instantiate_of_stuck hstuck' hdraw]
      rfl
    · have hmem : tf ∈ tfs := by
        rcases List.mem_cons.mp htf with rfl | hmem
        · exact absurd ⟨hbegin, hstuck⟩ hbad
        · exact hmem
      obtain ⟨l, hl⟩ := exists_passing hbad
      obtain ⟨l', hl'⟩ := ih hmem
      refine ⟨l ++ l', fun fuel flows rest => ?_⟩
      rw [List.foldlM_cons, Stream'.append_append_stream]
      cases hr : instantiate a s fuel v (flows, l ++ₛ (l' ++ₛ rest)) tf' with
      | none => rfl
      | some r =>
        obtain ⟨flows', draws'⟩ := r
        obtain rfl := hl _ _ _ _ hr
        exact hl' fuel flows' rest

end

/-- All draws, over and over. -/
def everyDraw (randMax : ℕ) : Stream' (Fin (randMax + 1)) := fun i => Fin.ofNat (randMax + 1) i

theorem everyResidue_everyDraw (n : ℕ) : EveryResidue n (everyDraw randMax) := by
  intro m _ _ x k
  have hle : k ≤ (randMax + 1) * k + x.val :=
    (Nat.le_mul_of_pos_left k (Nat.succ_pos randMax)).trans (Nat.le_add_right _ _)
  refine ⟨(randMax + 1) * k + x.val, hle, ?_⟩
  have hget : (everyDraw randMax).get ((randMax + 1) * k + x.val) = x := by
    ext
    show ((randMax + 1) * k + x.val) % (randMax + 1) = x.val
    rw [Nat.mul_add_mod, Nat.mod_eq_of_lt x.isLt]
  rw [hget]

/-! ## The patterns that do -/

section

variable {clients : List ℕ}

/-- Nothing is returned if the flows of the first client find no target. -/
theorem not_returnsFlows_of_first {v : ℕ} {vs : List ℕ} {s : FlowDesign D} {ct : ClientType D}
    {prelude l : List (Fin (randMax + 1))}
    (hs : ∀ rest, (v :: vs).foldlM (designClient a types)
      (⟨g, fun _ => none, fun _ => a.ofInt 0, fun _ => []⟩, prelude ++ₛ rest) = some (s, rest))
    (hv : s.typeOf v = some ct) (hl : ∀ fuel flows rest,
      ct.flows.foldlM (instantiate a s fuel v) (flows, l ++ₛ rest) = none)
    (rest : Stream' (Fin (randMax + 1))) :
    ¬ReturnsFlows a types g (v :: vs) (prelude ++ₛ (l ++ₛ rest)) := by
  rintro ⟨fuel, r, hr, -⟩
  have hnone : (v :: vs).foldlM (clientFlows a s fuel) ([], l ++ₛ rest) = none := by
    rw [List.foldlM_cons, clientFlows, hv]
    show Option.bind (List.foldlM _ _ _) _ = none
    rw [hl]
    rfl
  rw [constructFlows, hs] at hr
  change Option.bind ((v :: vs).foldlM (clientFlows a s fuel) _) _ = _ at hr
  rw [hnone] at hr
  cases hr

/-- There are draws that put the clients into classes so that a flow begins and finds no target. -/
theorem exists_not_returnsFlows {v : ℕ} {vs : List ℕ} {f : ℕ → Fin (randMax + 1)}
    {F : ℕ → ClientType D} (hf : ∀ v, chooseType a types (f v) = some (F v)) {tf : TypedFlow D}
    (htf : tf ∈ (F v).flows) (hbegin : CanBegin a randMax tf)
    (hstuck : ∀ draw : Fin (randMax + 1),
      otherNode ((v :: vs).filter fun u => (F u).name = tf.targetType) v draw = none) (n : ℕ) :
    ∃ draws : Stream' (Fin (randMax + 1)), EveryResidue n draws ∧
      ¬ReturnsFlows a types g (v :: vs) draws := by
  obtain ⟨s, hs, htype, hgroup⟩ := design_eq (a := a) hf (v :: vs)
    ⟨g, fun _ => none, fun _ => a.ofInt 0, fun _ => []⟩
  have hv : s.typeOf v = some (F v) := by rw [htype, if_pos List.mem_cons_self]
  obtain ⟨l, hl⟩ := exists_stopping (s := s) (v := v) htf hbegin fun draw => by
    rw [hgroup, List.nil_append]
    exact hstuck draw
  refine ⟨_, fun m hpos hle x => ?_, not_returnsFlows_of_first hs hv hl (everyDraw randMax)⟩
  exact ((everyResidue_everyDraw n m hpos hle x).append l).append _

theorem alwaysFinds_of_returnsFlows
    (h : ∀ draws : Stream' (Fin (randMax + 1)), EveryResidue clients.length draws →
      ReturnsFlows a types g clients draws) : AlwaysFinds a randMax types clients := by
  intro hne ct hct tf htf hbegin
  obtain ⟨v, vs, rfl⟩ := List.exists_cons_of_ne_nil hne
  obtain ⟨draw, hdraw⟩ := hct
  by_contra hbad
  by_cases hname : ∀ ct', CanChoose a randMax types ct' → ct'.name = tf.targetType
  · -- all clients are in the group, and a draw finds none but the source
    have hf : ∀ _ : ℕ, chooseType a types draw = some ct := fun _ => hdraw
    have hsame : ct.name = tf.targetType := hname ct ⟨draw, hdraw⟩
    have hstuck : ∀ x : Fin (randMax + 1),
        otherNode ((v :: vs).filter fun _ => ct.name = tf.targetType) v x = none := by
      intro x
      rw [List.filter_eq_self.mpr fun _ _ => decide_eq_true hsame]
      by_contra hx
      obtain ⟨w, hw⟩ := Option.ne_none_iff_exists'.mp hx
      obtain ⟨hget, hne⟩ := otherNode_eq_some.mp hw
      have hlt : x.val % (v :: vs).length < randMax + 1 := (Nat.mod_le _ _).trans_lt x.isLt
      refine hbad ⟨hname, v, by simp, w, ?_, hne.symm⟩
      rw [← List.getElem?_take_of_lt hlt] at hget
      exact List.mem_of_getElem? hget
    obtain ⟨draws, hdraws, hnot⟩ := exists_not_returnsFlows hf htf hbegin hstuck (v :: vs).length
    exact hnot (h draws hdraws)
  · -- the source has its class, and all other clients have one of another name
    obtain ⟨ct', hct'⟩ := not_forall.mp hname
    obtain ⟨⟨draw', hdraw'⟩, hne'⟩ := Classical.not_imp.mp hct'
    have hf : ∀ u, chooseType a types (if u = v then draw else draw') =
        some (if u = v then ct else ct') := by
      intro u
      split_ifs
      · exact hdraw
      · exact hdraw'
    have hstuck : ∀ x : Fin (randMax + 1), otherNode ((v :: vs).filter fun u =>
        (if u = v then ct else ct').name = tf.targetType) v x = none := by
      intro x
      by_contra hx
      obtain ⟨w, hw⟩ := Option.ne_none_iff_exists'.mp hx
      obtain ⟨hget, hne⟩ := otherNode_eq_some.mp hw
      have hmem := (List.mem_filter.mp (List.mem_of_getElem? hget)).2
      rw [if_neg hne] at hmem
      exact hne' (of_decide_eq_true hmem)
    have htf' : tf ∈ (if v = v then ct else ct').flows := by rwa [if_pos rfl]
    obtain ⟨draws, hdraws, hnot⟩ := exists_not_returnsFlows hf htf' hbegin hstuck (v :: vs).length
    exact hnot (h draws hdraws)

theorem ne_nil_of_readPattern {file : Str} (h : readPattern a file = some types) : types ≠ [] := by
  rintro rfl
  obtain ⟨types', -, h⟩ := Option.bind_eq_some_iff.mp h
  split_ifs at h with hnil
  rw [Option.some.injEq, List.map_eq_nil_iff] at h
  exact hnil (by rw [h]; rfl)

/-- **The flows of an accepted pattern are constructed with all draws** if and only if the pattern
always finds targets. -/
theorem constructFlows_returns_iff (a : Arithmetic D) (randMax : ℕ) (file : Str)
    (h : readPattern a file = some types) (g : MNGraph D)
    (hclients : ∀ v ∈ clients, v < g.myVertices.length) :
    (∀ draws : Stream' (Fin (randMax + 1)), EveryResidue clients.length draws →
      ReturnsFlows a types g.toGraphData clients draws) ↔ AlwaysFinds a randMax types clients :=
  ⟨alwaysFinds_of_returnsFlows, fun hfinds _ hdraws =>
    returnsFlows_of_alwaysFinds hfinds (ne_nil_of_readPattern h) hclients hdraws⟩

end

/-! ## Two patterns -/

def rationals : Arithmetic ℚ where
  extract s := (extractDouble (text s)).map fun (d, rest) => (d, s.drop (s.length - rest.length))
  ofInt i := i
  add := (· + ·)
  sub := (· - ·)
  mul := (· * ·)
  div := (· / ·)
  le x y := x ≤ y
  lt x y := x < y
  toInt d := if 0 ≤ d then d.floor else d.ceil
  toFloat := id

/-- A flow to a class, as it is without any numbers. -/
def plainFlow (target : Str) : TypedFlow ℚ := ⟨target, 1, 1, 1, 1⟩

def twoVertices : MNGraph ℚ where
  myVertices := [∅, ∅]
  myEdges := []
  mySpecs := ∅
  built := by
    refine ⟨?_, ?_, by decide, by decide⟩ <;> decide

/-- All clients are in one class, with a flow from each of them. -/
def peers : List (ClientType ℚ) := [⟨str "peer", 1, [plainFlow (str "peer")], 1, 1⟩]

theorem readPattern_peers :
    readPattern rationals (str "class peer flow to peer end end") = some peers := by
  decide +kernel

theorem chooseType_peers (draw : Fin (randMax + 1)) :
    chooseType rationals peers draw = some ⟨str "peer", 1, [plainFlow (str "peer")], 1, 1⟩ := by
  simp [chooseType, chooseFrom, peers]

/-- Two peers send to each other. -/
theorem returnsFlows_peers :
    ReturnsFlows rationals peers twoVertices.toGraphData [0, 1] (everyDraw 2147483647) := by
  refine (constructFlows_returns_iff rationals 2147483647 _ readPattern_peers twoVertices
    (by decide)).mpr ?_ _ (everyResidue_everyDraw _)
  rintro - ct ⟨draw, hct⟩ tf htf -
  rw [chooseType_peers] at hct
  cases hct
  rw [List.mem_singleton.mp htf]
  refine ⟨?_, 0, by simp, 1, by simp, by decide⟩
  rintro ct ⟨draw, hct⟩
  rw [chooseType_peers] at hct
  cases hct
  rfl

/-- Flows from servers to clients. -/
def web : List (ClientType ℚ) :=
  [⟨str "client", 1 / 2, [], 1, 1⟩, ⟨str "server", 1 / 2, [plainFlow (str "client")], 1, 1⟩]

/-- The draws that make servers of two clients. -/
def serverDraws : Stream' (Fin (2147483647 + 1)) :=
  [Fin.last _, 0, Fin.last _, 0] ++ₛ ([0] ++ₛ everyDraw 2147483647)

/-- With two servers there is no client to send to. -/
theorem not_returnsFlows_servers :
    readPattern rationals (str "class client end class server flow to client end end") =
        some web ∧
      EveryResidue 2 serverDraws ∧
        ¬ReturnsFlows rationals web twoVertices.toGraphData [0, 1] serverDraws := by
  refine ⟨by decide +kernel, fun m hpos hle x => ?_, ?_⟩
  · exact ((everyResidue_everyDraw 2 m hpos hle x).append [0]).append _
  · have hserver : ∀ _ : ℕ, chooseType rationals web (Fin.last 2147483647) =
        some ⟨str "server", 1 / 2, [plainFlow (str "client")], 1, 1⟩ := by
      intro _
      decide +kernel
    obtain ⟨s, hs, htype, hgroup⟩ := design_eq hserver [0, 1]
      ⟨twoVertices.toGraphData, fun _ => none, fun _ => 0, fun _ => []⟩
    have hempty : s.group (str "client") = [] := by
      rw [hgroup]
      decide
    have hstuck : Stuck s 2147483647 0 (plainFlow (str "client")) := by
      intro draw
      rw [plainFlow, hempty]
      rfl
    refine not_returnsFlows_of_first hs (htype 0) (fun fuel flows rest => ?_) _
    have hone : 0 < mult rationals (plainFlow (str "client")) (0 : Fin (2147483647 + 1)) := by
      decide +kernel
    rw [List.foldlM_cons, Stream'.cons_append_stream, instantiate_of_stuck hstuck hone]
    rfl

end Modelnet.Tools

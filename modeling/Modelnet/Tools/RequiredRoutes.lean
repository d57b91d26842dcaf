import Modelnet.Tools.DroppedPackets
import Modelnet.Tools.RouteFiles

/-!
# The routes that `buildflows` keeps

`buildflows` goes over the logs twice. The first time it takes down which pairs of nodes have sent
packets, so that only their routes are kept when the route file is read, and leaves logs without
such pairs aside. Where a packet of another pair has been dropped, the second pass finds no route
and ends the program; else it prints what it would print with all routes (`buildflows_eq`).
-/

namespace Modelnet.Tools

variable {D : Type}

def LogRecord.isRouteStats : LogRecord → Bool
  | .routeStats _ => true
  | _ => false

/-- The pair of an entry of a record joins `reqRoutes`, unless an address is missing. -/
def requirePair (nodes : List (ℤ × UInt32)) (reqRoutes : List (ℤ × ℤ)) (ru : RouteUsage) :
    Option (List (ℤ × ℤ)) :=
  ((readClients nodes).find? (htonl ru.srcIp).toNat).bind fun c1 =>
    ((readClients nodes).find? (htonl ru.dstIp).toNat).map fun c2 => (c1, c2) :: reqRoutes

/-- What `readLogs` does with a record. -/
def requireRecord (nodes : List (ℤ × UInt32)) (reqRoutes : List (ℤ × ℤ)) :
    LogRecord → Option (List (ℤ × ℤ))
  | .routeStats stats => stats.foldlM (requirePair nodes) reqRoutes
  | _ => some reqRoutes

/-- `readLogs`: the pairs, and the logs that are of use. -/
def readLogs (nodes : List (ℤ × UInt32)) (logs : List (Option (List LogRecord))) :
    Option (List (ℤ × ℤ) × List (Option (List LogRecord))) :=
  logs.foldlM (fun r log => log.bind fun records =>
    (records.foldlM (requireRecord nodes) r.1).map fun reqRoutes =>
      (reqRoutes, if records.any LogRecord.isRouteStats then r.2 ++ [log] else r.2)) ([], [])

/-- `main`, with the nodes of the model file and the text of the route file. -/
def buildflows (p : Platform D) (nodes : List (ℤ × UInt32)) (routeFile : List Char)
    (logs : List (Option (List LogRecord))) : Option (List Char) := do
  let (reqRoutes, useful) ← readLogs nodes logs
  let routes ← readRoutes p (fun src dst => reqRoutes.contains (src, dst)) routeFile
  let flows ← buildFlows (ipMapOf nodes) routes.routingTable routes.numPipes.toNat useful
  return printFlows flows

/-- The pair that the second pass looks up for a packet that was dropped. -/
def LogRecord.dropPairs (ipMap : UInt32 → ℤ) : LogRecord → List (ℤ × ℤ)
  | .packet fromIp toIp _ drop =>
    if drop = 0 then [] else [(ipMap fromIp.toUInt32, ipMap toIp.toUInt32)]
  | _ => []

def LogRecord.statsPairs (ipMap : UInt32 → ℤ) : LogRecord → List (ℤ × ℤ)
  | .routeStats stats => stats.map fun ru => (ipMap (htonl ru.srcIp), ipMap (htonl ru.dstIp))
  | _ => []

/-- The pairs of the drops in some logs. -/
def droppedPairs (ipMap : UInt32 → ℤ) (logs : List (Option (List LogRecord))) : List (ℤ × ℤ) :=
  logs.flatMap fun log => (log.getD []).flatMap (LogRecord.dropPairs ipMap)

/-! ## The table -/

section Table

variable {p : Platform D} {requested : ℤ → ℤ → Bool} {r all : Routing}

theorem le_foldl_max (hops : List ℤ) (n : ℤ) :
    n ≤ hops.foldl max n ∧ ∀ hop ∈ hops, hop ≤ hops.foldl max n := by
  induction hops generalizing n with
  | nil => exact ⟨le_rfl, nofun⟩
  | cons hop hops ih =>
    obtain ⟨hle, hall⟩ := ih (max n hop)
    refine ⟨(le_max_left n hop).trans hle, List.forall_mem_cons.mpr ⟨?_, hall⟩⟩
    exact (le_max_right n hop).trans hle

theorem foldl_max_mono (hops : List ℤ) {a b : ℤ} (h : a ≤ b) :
    hops.foldl max a ≤ hops.foldl max b := by
  induction hops generalizing a b with
  | nil => exact h
  | cons hop hops ih => exact ih (max_le_max h le_rfl)

/-- What is kept of the routes of the whole file; the pipes of the routes are among those that are
counted. -/
structure Routing.Keeps (requested : ℤ → ℤ → Bool) (r all : Routing) : Prop where
  routingTable : ∀ src dst, r.routingTable src dst =
    if requested src dst then all.routingTable src dst else []
  nonneg : 0 ≤ r.numPipes
  le : ∀ src dst, ∀ hop ∈ r.routingTable src dst, hop ≤ r.numPipes
  numPipes_le : r.numPipes ≤ all.numPipes

theorem Routing.Keeps.update (h : r.Keeps requested all) (src dst : ℤ) (route : List ℤ) :
    Routing.Keeps requested
      (if requested src dst then ⟨route.foldl max r.numPipes, Function.update r.routingTable src
        (Function.update (r.routingTable src) dst route)⟩ else r)
      ⟨route.foldl max all.numPipes, Function.update all.routingTable src
        (Function.update (all.routingTable src) dst route)⟩ := by
  have hupdate : ∀ (f : ℤ → ℤ → List ℤ) (a b : ℤ),
      Function.update f src (Function.update (f src) dst route) a b =
        if a = src ∧ b = dst then route else f a b := by
    intro f a b
    by_cases ha : a = src
    · subst ha
      by_cases hb : b = dst <;> simp [hb]
    · simp [ha]
  obtain ⟨hle, hall⟩ := le_foldl_max route r.numPipes
  split_ifs with hreq
  · refine ⟨fun a b => ?_, h.nonneg.trans hle, fun a b hop hhop => ?_,
      foldl_max_mono route h.numPipes_le⟩
    · dsimp only
      rw [hupdate, hupdate, h.routingTable]
      split_ifs with heq hab
      · rfl
      · rw [heq.1, heq.2] at hab
        exact absurd hreq hab
      · rfl
      · rfl
    · dsimp only at hhop
      rw [hupdate] at hhop
      split_ifs at hhop
      · exact hall hop hhop
      · exact (h.le a b hop hhop).trans hle
  · refine ⟨fun a b => ?_, h.nonneg, h.le, h.numPipes_le.trans (le_foldl_max route _).1⟩
    dsimp only
    rw [hupdate, h.routingTable]
    by_cases hab : a = src ∧ b = dst
    · rw [hab.1, hab.2, if_neg hreq, if_neg hreq]
    · rw [if_neg hab]

theorem readEvent_keeps (h : r.Keeps requested all) (e : Xml.Event) :
    (readEvent p requested r e = none ∧ readEvent p (fun _ _ => true) all e = none) ∨
      ∃ r' all', readEvent p requested r e = some r' ∧
        readEvent p (fun _ _ => true) all e = some all' ∧ r'.Keeps requested all' := by
  cases e with
  | stop name => exact .inr ⟨r, all, rfl, rfl, h⟩
  | start tag =>
    unfold readEvent
    dsimp only
    unfold onElement
    split_ifs with hname
    · exact .inr ⟨r, all, rfl, rfl, h⟩
    · split
      · refine .inr ⟨_, _, (apply_ite some _ _ _).symm, rfl, ?_⟩
        exact h.update _ _ _
      · exact .inl ⟨rfl, rfl⟩

/-- The file is read with some pairs exactly if it is read with all of them. -/
theorem readRoutes_keeps (requested : ℤ → ℤ → Bool) (file : List Char) :
    (readRoutes p requested file = none ∧ readRoutes p (fun _ _ => true) file = none) ∨
      ∃ r all, readRoutes p requested file = some r ∧
        readRoutes p (fun _ _ => true) file = some all ∧ r.Keeps requested all := by
  have hevents : ∀ (events : List Xml.Event) (r all : Routing), r.Keeps requested all →
      (events.foldlM (readEvent p requested) r = none ∧
        events.foldlM (readEvent p fun _ _ => true) all = none) ∨
      ∃ r' all', events.foldlM (readEvent p requested) r = some r' ∧
        events.foldlM (readEvent p fun _ _ => true) all = some all' ∧
          r'.Keeps requested all' := by
    intro events
    induction events with
    | nil => exact fun r all h => .inr ⟨r, all, rfl, rfl, h⟩
    | cons e events ih =>
      intro r all h
      rw [List.foldlM_cons, List.foldlM_cons]
      rcases readEvent_keeps (p := p) h e with ⟨hr, hall⟩ | ⟨r', all', hr, hall, h'⟩
      · rw [hr, hall]
        exact .inl ⟨rfl, rfl⟩
      · rw [hr, hall]
        exact ih r' all' h'
  have hinit : Routing.Keeps requested ⟨0, fun _ _ => []⟩ ⟨0, fun _ _ => []⟩ :=
    ⟨fun _ _ => by split_ifs <;> rfl, le_rfl, nofun, le_rfl⟩
  unfold readRoutes
  cases Xml.events p.namespaces file with
  | none => exact .inl ⟨rfl, rfl⟩
  | some events => exact hevents events _ _ hinit

end Table

/-! ## The pairs of the first pass -/

section Pairs

variable {nodes : List (ℤ × UInt32)} {req req' : List (ℤ × ℤ)}

theorem requirePair_eq_some {ru : RouteUsage} (h : requirePair nodes req ru = some req') :
    req' = (ipMapOf nodes (htonl ru.srcIp), ipMapOf nodes (htonl ru.dstIp)) :: req := by
  obtain ⟨c1, hc1, h⟩ := Option.bind_eq_some_iff.mp h
  obtain ⟨c2, hc2, rfl⟩ := Option.map_eq_some_iff.mp h
  unfold ipMapOf
  rw [hc1, hc2]
  rfl

/-- What a fold whose steps only add something has added at its end. -/
theorem foldlM_collects {α β : Type*} {g : List β → α → Option (List β)} (out : α → List β)
    (hstep : ∀ b a b', g b a = some b' → b ⊆ b' ∧ out a ⊆ b') {l : List α} {b b' : List β}
    (h : l.foldlM g b = some b') : b ⊆ b' ∧ ∀ a ∈ l, out a ⊆ b' := by
  induction l generalizing b with
  | nil =>
    cases h
    exact ⟨List.Subset.refl _, nofun⟩
  | cons a l ih =>
    rw [List.foldlM_cons] at h
    obtain ⟨c, hc, h⟩ := Option.bind_eq_some_iff.mp h
    obtain ⟨hsub, hall⟩ := ih h
    obtain ⟨hbc, hac⟩ := hstep b a c hc
    exact ⟨List.Subset.trans hbc hsub,
      List.forall_mem_cons.mpr ⟨List.Subset.trans hac hsub, hall⟩⟩

theorem requireRecord_collects {r : LogRecord} (h : requireRecord nodes req r = some req') :
    req ⊆ req' ∧ r.statsPairs (ipMapOf nodes) ⊆ req' := by
  cases r with
  | routeStats stats =>
    have hcollect := foldlM_collects (g := requirePair nodes)
      (fun ru => [(ipMapOf nodes (htonl ru.srcIp), ipMapOf nodes (htonl ru.dstIp))])
      (fun b ru b' hru => by
        rw [requirePair_eq_some hru]
        exact ⟨List.subset_cons_self _ _, List.cons_subset_cons _ (List.nil_subset _)⟩) h
    refine ⟨hcollect.1, fun pair hpair => ?_⟩
    obtain ⟨ru, hru, rfl⟩ := List.mem_map.mp hpair
    exact hcollect.2 ru hru List.mem_cons_self
  | packet _ _ _ _ =>
    cases h
    exact ⟨List.Subset.refl _, List.nil_subset _⟩
  | other =>
    cases h
    exact ⟨List.Subset.refl _, List.nil_subset _⟩

/-- After the first pass the pairs of all entries in the useful logs are required. -/
theorem statsPairs_readLogs {logs useful : List (Option (List LogRecord))}
    (h : readLogs nodes logs = some (req, useful)) :
    ∀ log ∈ useful, ∃ records, log = some records ∧
      ∀ r ∈ records, r.statsPairs (ipMapOf nodes) ⊆ req := by
  refine foldlM_invariant (I := fun b => ∀ log ∈ b.2, ∃ records, log = some records ∧
    ∀ r ∈ records, r.statsPairs (ipMapOf nodes) ⊆ b.1) (fun b log b' _ hb hlog => ?_)
    (fun log hlog => absurd hlog List.not_mem_nil) h
  obtain ⟨records, rfl, hrecords⟩ := Option.bind_eq_some_iff.mp hlog
  obtain ⟨req', hreq', rfl⟩ := Option.map_eq_some_iff.mp hrecords
  obtain ⟨hsub, hall⟩ := foldlM_collects (LogRecord.statsPairs (ipMapOf nodes))
    (fun b r b' hr => requireRecord_collects hr) hreq'
  have hold : ∀ log ∈ b.2, ∃ records, log = some records ∧
      ∀ r ∈ records, r.statsPairs (ipMapOf nodes) ⊆ req' := by
    intro log hlog
    obtain ⟨records, hrec, hpairs⟩ := hb log hlog
    exact ⟨records, hrec, fun r hr => List.Subset.trans (hpairs r hr) hsub⟩
  intro log hmem
  dsimp only at hmem
  split_ifs at hmem
  · rcases List.mem_append.mp hmem with hmem | hmem
    · exact hold log hmem
    · exact ⟨records, List.mem_singleton.mp hmem, hall⟩
  · exact hold log hmem

end Pairs

/-! ## The second pass -/

/-- A fold whose steps commute with a function of the state commutes with it. -/
theorem foldlM_map_of_step {α β γ : Type*} {P : β → Prop} {g : β → α → Option β}
    {g' : γ → α → Option γ} {φ : β → γ} {l : List α}
    (hstep : ∀ a ∈ l, ∀ b, P b → g' (φ b) a = (g b a).map φ ∧ ∀ b', g b a = some b' → P b')
    {b : β} (hb : P b) : l.foldlM g' (φ b) = (l.foldlM g b).map φ := by
  induction l generalizing b with
  | nil => rfl
  | cons a l ih =>
    obtain ⟨hmap, hkeep⟩ := hstep a List.mem_cons_self b hb
    rw [List.foldlM_cons, List.foldlM_cons, hmap]
    cases hg : g b a with
    | none => rfl
    | some c => exact ih (fun a ha => hstep a (List.mem_cons_of_mem _ ha)) (hkeep c hg)

section Second

variable {n k : ℕ} {f f' : FlowMap} {ipMap : UInt32 → ℤ} {routes routes' : ℤ → ℤ → List ℤ}
  {r : LogRecord}

/-- A flow map with rows for more pipes. -/
def FlowMap.pad (k : ℕ) (f : FlowMap) : FlowMap := f ++ List.replicate k ∅

theorem addFlow_pad {m : Int64} {e : ℤ × ℤ} (he : e.1 ≤ n) (hf : f.length = n + 1) :
    addFlow m (f.pad k) e = (addFlow m f e).map (FlowMap.pad k) ∧
      ∀ f', addFlow m f e = some f' → f'.length = n + 1 := by
  unfold addFlow FlowMap.pad
  split_ifs with hneg
  · exact ⟨rfl, nofun⟩
  · have hlt : e.1.toNat < f.length := by omega
    rw [List.getElem?_append_left hlt, List.getElem?_eq_getElem hlt, Option.map_some,
      Option.map_some, Option.map_some, List.set_append_left _ _ hlt]
    refine ⟨rfl, ?_⟩
    rintro f' ⟨⟩
    rw [List.length_set, hf]

theorem addSteps_pad {m : Int64} {route : List ℤ} {i : ℕ} (hroute : ∀ p ∈ route, p ≤ n)
    (hf : f.length = n + 1) :
    (steps route i).foldlM (addFlow m) (f.pad k) =
        ((steps route i).foldlM (addFlow m) f).map (FlowMap.pad k) ∧
      ∀ f', (steps route i).foldlM (addFlow m) f = some f' → f'.length = n + 1 := by
  have hstep : ∀ e ∈ steps route i, ∀ f : FlowMap, f.length = n + 1 →
      addFlow m (f.pad k) e = (addFlow m f e).map (FlowMap.pad k) ∧
        ∀ f', addFlow m f e = some f' → f'.length = n + 1 := by
    intro e he f hf
    exact addFlow_pad (hroute _ (List.mem_of_mem_drop (List.of_mem_zip he).1)) hf
  exact ⟨foldlM_map_of_step hstep hf,
    fun f' h => foldlM_invariant (fun b e b' he hb hadd => (hstep e he b hb).2 b' hadd) hf h⟩

theorem addRoute_pad {m : Int64} {route : List ℤ} {i : ℕ} (hroute : ∀ p ∈ route, p ≤ n)
    (hf : f.length = n + 1) :
    (if route = [] then none else (steps route i).foldlM (addFlow m) (f.pad k)) =
        (if route = [] then none else (steps route i).foldlM (addFlow m) f).map (FlowMap.pad k) ∧
      ∀ f', (if route = [] then none else (steps route i).foldlM (addFlow m) f) = some f' →
        f'.length = n + 1 := by
  split_ifs
  · exact ⟨rfl, nofun⟩
  · exact addSteps_pad hroute hf

/-- A record does the same with other routes and more pipes, where the routes it looks up are the
same ones. -/
theorem countRecord_pad (hroutes : ∀ src dst, ∀ p ∈ routes src dst, p ≤ n)
    (hsame : ∀ pair ∈ r.dropPairs ipMap ++ r.statsPairs ipMap,
      routes' pair.1 pair.2 = routes pair.1 pair.2)
    (hf : f.length = n + 1) :
    countRecord ipMap routes' (f.pad k) r = (countRecord ipMap routes f r).map (FlowMap.pad k) ∧
      ∀ f', countRecord ipMap routes f r = some f' → f'.length = n + 1 := by
  have hother : (some (f.pad k) = (some f).map (FlowMap.pad k)) ∧
      ∀ f', some f = some f' → f'.length = n + 1 :=
    ⟨rfl, fun f' h => Option.some.inj h ▸ hf⟩
  cases r with
  | packet fromIp toIp hop drop =>
    unfold countRecord
    dsimp only
    by_cases hdrop : drop = 0
    · rw [if_pos hdrop, if_pos hdrop]
      exact hother
    · have hpairs : (LogRecord.packet fromIp toIp hop drop).dropPairs ipMap =
          [(ipMap fromIp.toUInt32, ipMap toIp.toUInt32)] := if_neg hdrop
      rw [hpairs] at hsame
      rw [if_neg hdrop, if_neg hdrop, hsame _ (List.mem_append_left _ (List.mem_singleton_self _))]
      exact addRoute_pad (hroutes _ _) hf
  | routeStats stats =>
    have hstep := fun (ru : RouteUsage) (f : FlowMap) (hf : f.length = n + 1) =>
      addRoute_pad (k := k) (m := ru.packetCount) (i := 0)
        (hroutes (ipMap (htonl ru.srcIp)) (ipMap (htonl ru.dstIp))) hf
    unfold countRecord
    dsimp only
    refine ⟨foldlM_map_of_step (P := fun f => f.length = n + 1) (fun ru hru f hf => ?_) hf,
      fun f' h => foldlM_invariant (fun b ru b' _ hb hadd => (hstep ru b hb).2 b' hadd) hf h⟩
    rw [hsame _ (List.mem_append_right _ (List.mem_map.mpr ⟨ru, hru, rfl⟩))]
    exact hstep ru f hf
  | other => exact hother

theorem printFrom_pad (pipe : ℕ) (f : FlowMap) : printFrom pipe (f.pad k) = printFrom pipe f := by
  have hempty : ∀ pipe, printFrom pipe (List.replicate k ∅) = [] := by
    induction k with
    | zero => exact fun _ => rfl
    | succ k ih =>
      intro pipe
      rw [List.replicate_succ, printFrom, ih, List.append_nil]
      rfl
  unfold FlowMap.pad
  induction f generalizing pipe with
  | nil => exact hempty pipe
  | cons row f ih => rw [List.cons_append, printFrom, printFrom, ih]

/-- The second pass does the same with other routes and more pipes. -/
theorem buildFlows_pad (hroutes : ∀ src dst, ∀ p ∈ routes src dst, p ≤ n)
    {logs : List (Option (List LogRecord))}
    (hsame : ∀ log ∈ logs, ∀ r ∈ log.getD [], ∀ pair ∈ r.dropPairs ipMap ++ r.statsPairs ipMap,
      routes' pair.1 pair.2 = routes pair.1 pair.2) :
    buildFlows ipMap routes' (n + k) logs =
      (buildFlows ipMap routes n logs).map (FlowMap.pad k) := by
  unfold buildFlows
  have hpad : List.replicate (n + k + 1) (∅ : SortedMap ℤ Int64) =
      FlowMap.pad k (List.replicate (n + 1) ∅) := by
    unfold FlowMap.pad
    rw [List.replicate_append_replicate]
    congr 1
    omega
  rw [hpad]
  refine foldlM_map_of_step (P := fun f => f.length = n + 1) (fun log hlog f hf => ?_)
    List.length_replicate
  cases log with
  | none => exact ⟨rfl, nofun⟩
  | some records =>
    have hstep : ∀ r ∈ records, ∀ f : FlowMap, f.length = n + 1 → _ := fun r hr f hf =>
      countRecord_pad (k := k) (r := r) (f := f) hroutes (hsame _ hlog r hr) hf
    exact ⟨foldlM_map_of_step hstep hf,
      fun f' h => foldlM_invariant (fun b r b' hr hb hadd => (hstep r hr b hb).2 b' hadd) hf h⟩

theorem foldlM_eq_none {α β : Type*} {g : β → α → Option β} {a : α} (h : ∀ b, g b a = none)
    {l : List α} (ha : a ∈ l) (b : β) : l.foldlM g b = none := by
  induction l generalizing b with
  | nil => exact absurd ha List.not_mem_nil
  | cons c l ih =>
    rw [List.foldlM_cons]
    rcases List.mem_cons.mp ha with rfl | ha
    · rw [h]
      rfl
    · exact Option.bind_eq_none_iff.mpr fun b' _ => ih ha b'

theorem buildFlows_eq_none {logs : List (Option (List LogRecord))} {pair : ℤ × ℤ}
    (hpair : pair ∈ droppedPairs ipMap logs) (hroute : routes pair.1 pair.2 = []) :
    buildFlows ipMap routes n logs = none := by
  obtain ⟨log, hlog, hpair⟩ := List.mem_flatMap.mp hpair
  obtain ⟨r, hr, hpair⟩ := List.mem_flatMap.mp hpair
  have hrecord : ∀ f, countRecord ipMap routes f r = none := by
    intro f
    cases r with
    | packet fromIp toIp hop drop =>
      unfold LogRecord.dropPairs at hpair
      dsimp only at hpair
      split_ifs at hpair with hdrop
      · exact absurd hpair List.not_mem_nil
      · obtain rfl := List.mem_singleton.mp hpair
        exact (if_neg hdrop).trans (if_pos hroute)
    | routeStats _ => exact absurd hpair List.not_mem_nil
    | other => exact absurd hpair List.not_mem_nil
  refine foldlM_eq_none (fun f => ?_) hlog _
  cases log with
  | none => rfl
  | some records => exact foldlM_eq_none hrecord hr f

end Second

/-- With the routes it has kept `buildflows` prints what it would print with all of them, unless
a packet was dropped between two nodes that no entry is about. Then it ends without a result. -/
theorem buildflows_eq {p : Platform D} {nodes : List (ℤ × UInt32)} {routeFile : List Char}
    {logs useful : List (Option (List LogRecord))} {req : List (ℤ × ℤ)}
    (h : readLogs nodes logs = some (req, useful)) :
    buildflows p nodes routeFile logs = (readRoutes p (fun _ _ => true) routeFile).bind fun all =>
      if ∀ pair ∈ droppedPairs (ipMapOf nodes) useful, pair ∈ req then
        (buildFlows (ipMapOf nodes) all.routingTable all.numPipes.toNat useful).map printFlows
      else none := by
  have hflows : buildflows p nodes routeFile logs =
      (readRoutes p (fun src dst => req.contains (src, dst)) routeFile).bind fun r =>
        (buildFlows (ipMapOf nodes) r.routingTable r.numPipes.toNat useful).map printFlows := by
    unfold buildflows
    rw [h]
    refine congrArg (Option.bind (readRoutes p _ routeFile)) (funext fun r => ?_)
    exact Option.map_eq_bind.symm
  rw [hflows]
  rcases readRoutes_keeps (p := p) (fun src dst => req.contains (src, dst)) routeFile with
    ⟨hr, hall⟩ | ⟨r, all, hr, hall, hkeeps⟩
  · rw [hr, hall]
    rfl
  rw [hr, hall, Option.bind_some, Option.bind_some]
  have htable : ∀ src dst, r.routingTable src dst =
      if (src, dst) ∈ req then all.routingTable src dst else [] := by
    intro src dst
    rw [hkeeps.routingTable]
    exact if_congr List.contains_iff_mem rfl rfl
  split_ifs with hdrops
  · have hnonneg := hkeeps.nonneg
    obtain ⟨k, hk⟩ := Nat.exists_eq_add_of_le (Int.toNat_le_toNat hkeeps.numPipes_le)
    have hsame : ∀ log ∈ useful, ∀ record ∈ log.getD [],
        ∀ pair ∈ record.dropPairs (ipMapOf nodes) ++ record.statsPairs (ipMapOf nodes),
          all.routingTable pair.1 pair.2 = r.routingTable pair.1 pair.2 := by
      intro log hlog record hr pair hpair
      have hreq : pair ∈ req := by
        rcases List.mem_append.mp hpair with hpair | hpair
        · exact hdrops pair (List.mem_flatMap.mpr ⟨log, hlog, List.mem_flatMap.mpr ⟨_, hr, hpair⟩⟩)
        · obtain ⟨records, rfl, hpairs⟩ := statsPairs_readLogs h log hlog
          exact hpairs record hr hpair
      rw [htable, if_pos hreq]
    have hroutes : ∀ src dst, ∀ hop ∈ r.routingTable src dst, hop ≤ r.numPipes.toNat := by
      intro src dst hop hhop
      have hbound := hkeeps.le src dst hop hhop
      omega
    rw [hk, buildFlows_pad hroutes hsame, Option.map_map]
    congr 1
    funext f
    exact (printFrom_pad 0 f).symm
  · obtain ⟨pair, hpair, hreq⟩ := not_forall₂.mp hdrops
    rw [buildFlows_eq_none hpair (by rw [htable, if_neg hreq])]
    rfl

/-- A log with three packets between the two nodes. -/
def threePackets : List (Option (List LogRecord)) :=
  [some [.routeStats [⟨0x0A000001, 0x0A000002, 3⟩]], some [.other]]

theorem buildflows_threePackets :
    buildflows wholeNumbers hostNodes (printAllpairs [⟨0, 1, [2, 3, 4]⟩, ⟨1, 0, [7, 6]⟩])
        threePackets =
      (readRoutes wholeNumbers (fun _ _ => true)
        (printAllpairs [⟨0, 1, [2, 3, 4]⟩, ⟨1, 0, [7, 6]⟩])).bind fun all =>
        if ∀ pair ∈ droppedPairs (ipMapOf hostNodes) (threePackets.take 1),
            pair ∈ [((0 : ℤ), (1 : ℤ))]
        then (buildFlows (ipMapOf hostNodes) all.routingTable all.numPipes.toNat
          (threePackets.take 1)).map printFlows
        else none :=
  buildflows_eq rfl

end Modelnet.Tools

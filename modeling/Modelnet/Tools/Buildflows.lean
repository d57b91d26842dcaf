import Mathlib.Data.Int.Order.Basic
import Mathlib.Data.List.Perm.Subperm
import Modelnet.Tools.Istream

/-!
# Flow maps

`buildflows` counts the packets that went from one pipe to the next: it follows the route of every
pair of nodes in the logs, adds the packets of the pair, and takes back those that were dropped on
the way. It prints a line for every pipe with an entry: the pipe, the number of entries, and the
entries, each of them a pipe and a count. Routes and addresses are maps whose `[]` inserts a default
value, so they are functions here. A result `none` stands for an error exit, and for the access to
a vector outside its bounds.
-/

namespace Modelnet.Tools

/-- `vector<map<int, long long> >`, by the pipe the packets come from. -/
abbrev FlowMap : Type := List (SortedMap ℤ Int64)

/-- `struct mn_route_usage`. -/
structure RouteUsage where
  srcIp : UInt32
  dstIp : UInt32
  packetCount : Int64

inductive LogRecord where
  | packet (fromIp toIp hop drop : UInt16)
  | routeStats (stats : List RouteUsage)
  | other

/-- `htonl`, on a machine with the low byte first. -/
def htonl (x : UInt32) : UInt32 :=
  (x <<< 24) ||| ((x <<< 8) &&& (0xff0000 : UInt32)) ||| ((x >>> 8) &&& (0xff00 : UInt32)) ||| (x >>> 24)

/-- `flows[a][b] += n`. -/
def addFlow (n : Int64) (f : FlowMap) (e : ℤ × ℤ) : Option FlowMap :=
  if e.1 < 0 then none
  else f[e.1.toNat]?.map fun row =>
    f.set e.1.toNat (row.insert e.2 ((row.find? e.2).getD 0 + n))

/-- The pipes of a route from position `i` on, each with the next one. -/
def steps (route : List ℤ) (i : ℕ) : List (ℤ × ℤ) := (route.drop i).zip (route.drop (i + 1))

/-- What a record adds to the flows. -/
def countRecord (ipMap : UInt32 → ℤ) (routes : ℤ → ℤ → List ℤ) (f : FlowMap) :
    LogRecord → Option FlowMap
  | .packet fromIp toIp hop drop =>
    if drop = 0 then some f
    else
      -- the addresses of these records are used as they are
      let route := routes (ipMap fromIp.toUInt32) (ipMap toIp.toUInt32)
      if route = [] then none else (steps route (hop.toNat + 1)).foldlM (addFlow (-1)) f
  | .routeStats stats =>
    stats.foldlM (fun f ru =>
      let route := routes (ipMap (htonl ru.srcIp)) (ipMap (htonl ru.dstIp))
      if route = [] then none else (steps route 0).foldlM (addFlow ru.packetCount) f) f
  | .other => some f

/-- `buildFlows`. A log that cannot be opened is `none`. -/
def buildFlows (ipMap : UInt32 → ℤ) (routes : ℤ → ℤ → List ℤ) (numPipes : ℕ)
    (logs : List (Option (List LogRecord))) : Option FlowMap :=
  logs.foldlM (fun f log => log.bind fun records => records.foldlM (countRecord ipMap routes) f)
    (List.replicate (numPipes + 1) ∅)

/-! ## The printed file -/

/-- The line of a pipe. -/
def printRow (pipe : ℕ) (row : SortedMap ℤ Int64) : List Char :=
  if row.entries.length = 0 then []
  else printInt pipe ++ ' ' :: printInt row.entries.length ++
    (row.entries.flatMap fun e => ' ' :: printInt e.1 ++ ' ' :: printInt e.2.toInt) ++ ['\n']

/-- The lines from a pipe on. -/
def printFrom : ℕ → FlowMap → List Char
  | _, [] => []
  | pipe, row :: f => printRow pipe row ++ printFrom (pipe + 1) f

def printFlows (f : FlowMap) : List Char := printFrom 0 f

/-! ## The flows of a map -/

/-- `flows[p][q]`, 0 without an entry. -/
def FlowMap.count (f : FlowMap) (p : ℕ) (q : ℤ) : ℤ :=
  ((f[p]?.bind fun row => row.find? q).map Int64.toInt).getD 0

/-- The entries (from, to, count) of the pipes from a number on. -/
def entriesFrom : ℕ → FlowMap → List (ℤ × ℤ × ℤ)
  | _, [] => []
  | pipe, row :: f =>
    (row.entries.map fun e => ((pipe : ℤ), e.1, e.2.toInt)) ++ entriesFrom (pipe + 1) f

/-- All entries, in the order of the file. -/
def FlowMap.flows (f : FlowMap) : List (ℤ × ℤ × ℤ) := entriesFrom 0 f

/-- The integers of the line of a pipe. -/
def rowInts (pipe : ℕ) (row : SortedMap ℤ Int64) : List ℤ :=
  if row.entries.length = 0 then []
  else (pipe : ℤ) :: row.entries.length :: row.entries.flatMap fun e => [e.1, e.2.toInt]

/-- The integers of the lines from a pipe on. -/
def intsFrom : ℕ → FlowMap → List ℤ
  | _, [] => []
  | pipe, row :: f => rowInts pipe row ++ intsFrom (pipe + 1) f

theorem ints_printRow (pipe : ℕ) (row : SortedMap ℤ Int64) (rest : List Char) :
    ints (printRow pipe row ++ rest) = (rowInts pipe row ++ ints rest).takeWhile (IsInt ·) := by
  unfold printRow rowInts
  by_cases h : row.entries.length = 0
  · rw [if_pos h, if_pos h]
    exact (List.takeWhile_eq_self_iff.mpr fun x hx => decide_eq_true (isInt_of_mem_ints hx)).symm
  · rw [if_neg h, if_neg h, ← ints_line]
    congr 1
    simp [blankInts, List.flatMap_assoc]

/-- **The integers of the file** are those of the flow map, up to the first one that is no
`int`. -/
theorem ints_printFlows (f : FlowMap) :
    ints (printFlows f) = (intsFrom 0 f).takeWhile (IsInt ·) := by
  have hfrom : ∀ pipe, ints (printFrom pipe f) = (intsFrom pipe f).takeWhile (IsInt ·) := by
    induction f with
    | nil => exact fun _ => rfl
    | cons row f ih =>
      intro pipe
      rw [printFrom, ints_printRow, ih, intsFrom, takeWhile_append_takeWhile]
  exact hfrom 0

/-! ## What `buildFlows` makes -/

/-- The entries lead from pipes to pipes. -/
structure FlowMap.InPipes (numPipes : ℕ) (f : FlowMap) : Prop where
  length : f.length = numPipes + 1
  keys : ∀ row ∈ f, ∀ e ∈ row.entries, 0 ≤ e.1 ∧ e.1 ≤ numPipes

/-- The routes go over pipes. -/
def OverPipes (numPipes : ℕ) (routes : ℤ → ℤ → List ℤ) : Prop :=
  ∀ src dst, ∀ p ∈ routes src dst, 0 ≤ p ∧ p ≤ numPipes

theorem foldlM_invariant {α β : Type*} {I : β → Prop} {g : β → α → Option β} {l : List α}
    (hstep : ∀ b a b', a ∈ l → I b → g b a = some b' → I b') {b b' : β} (hb : I b)
    (h : l.foldlM g b = some b') : I b' := by
  induction l generalizing b with
  | nil =>
    cases h
    exact hb
  | cons a l ih =>
    rw [List.foldlM_cons] at h
    obtain ⟨c, hc, h⟩ := Option.bind_eq_some_iff.mp h
    exact ih (fun b a b' ha => hstep b a b' (List.mem_cons_of_mem _ ha))
      (hstep b a c List.mem_cons_self hb hc) h

section

variable {numPipes : ℕ} {ipMap : UInt32 → ℤ} {routes : ℤ → ℤ → List ℤ} {f f' : FlowMap}

theorem FlowMap.InPipes.addFlow {n : Int64} {e : ℤ × ℤ} (he : 0 ≤ e.2 ∧ e.2 ≤ numPipes)
    (hf : f.InPipes numPipes) (h : Tools.addFlow n f e = some f') : f'.InPipes numPipes := by
  unfold Tools.addFlow at h
  split_ifs at h
  obtain ⟨row, hrow, rfl⟩ := Option.map_eq_some_iff.mp h
  refine ⟨by rw [List.length_set, hf.length], fun row' hrow' e' he' => ?_⟩
  rcases List.mem_or_eq_of_mem_set hrow' with hmem | rfl
  · exact hf.keys row' hmem e' he'
  · rcases SortedMap.mem_insertEntry he' with rfl | hmem
    · exact he
    · exact hf.keys row (List.mem_of_getElem? hrow) e' hmem

theorem FlowMap.InPipes.addSteps {n : Int64} {route : List ℤ} {i : ℕ}
    (hroute : ∀ p ∈ route, 0 ≤ p ∧ p ≤ numPipes) (hf : f.InPipes numPipes)
    (h : (steps route i).foldlM (Tools.addFlow n) f = some f') : f'.InPipes numPipes :=
  foldlM_invariant (fun _ _ _ he hb => hb.addFlow
    (hroute _ (List.mem_of_mem_drop (List.of_mem_zip he).2))) hf h

theorem FlowMap.InPipes.countRecord (hroutes : OverPipes numPipes routes)
    {r : LogRecord} (hf : f.InPipes numPipes) (h : Tools.countRecord ipMap routes f r = some f') :
    f'.InPipes numPipes := by
  cases r with
  | packet fromIp toIp hop drop =>
    unfold Tools.countRecord at h
    dsimp only at h
    split_ifs at h
    · cases h
      exact hf
    · exact hf.addSteps (hroutes _ _) h
  | routeStats stats =>
    refine foldlM_invariant (fun b ru b' _ hb hru => ?_) hf h
    dsimp only at hru
    split_ifs at hru
    exact hb.addSteps (hroutes _ _) hru
  | other =>
    cases h
    exact hf

/-- **Step by step** the entries stay in the pipes. -/
theorem inPipes_buildFlows (hroutes : OverPipes numPipes routes)
    {logs : List (Option (List LogRecord))} (h : buildFlows ipMap routes numPipes logs = some f) :
    f.InPipes numPipes := by
  refine foldlM_invariant (fun b log b' _ hb hlog => ?_) ⟨List.length_replicate, ?_⟩ h
  · obtain ⟨records, -, hrecords⟩ := Option.bind_eq_some_iff.mp hlog
    exact foldlM_invariant (fun _ _ _ _ hc => hc.countRecord hroutes) hb hrecords
  · intro row hrow e he
    rw [(List.mem_replicate.mp hrow).2] at he
    exact absurd he List.not_mem_nil

theorem FlowMap.InPipes.length_row (hf : f.InPipes numPipes) {row : SortedMap ℤ Int64}
    (hrow : row ∈ f) : row.entries.length ≤ numPipes + 1 := by
  have hnodup : (row.entries.map fun e => e.1.toNat).Nodup := by
    refine List.pairwise_map.mpr ((row.sorted.imp_of_mem ?_))
    intro e e' he he' hlt
    have hpos := (hf.keys row hrow e he).1
    omega
  have hsub : (row.entries.map fun e => e.1.toNat) ⊆ List.range (numPipes + 1) := by
    intro k hk
    obtain ⟨e, he, rfl⟩ := List.mem_map.mp hk
    have hle := (hf.keys row hrow e he).2
    exact List.mem_range.mpr (by omega)
  have hle := (List.subperm_of_subset hnodup hsub).length_le
  rwa [List.length_map, List.length_range] at hle

/-- Every count is an `int`. -/
def FlowMap.CountsFit (f : FlowMap) : Prop := ∀ row ∈ f, ∀ e ∈ row.entries, IsInt e.2.toInt

theorem FlowMap.InPipes.isInt (hf : f.InPipes numPipes) (hn : numPipes + 1 < 2 ^ 31)
    (hfit : f.CountsFit) : ∀ z ∈ intsFrom 0 f, IsInt z := by
  have hfrom : ∀ g : FlowMap, (∀ row ∈ g, row ∈ f) → ∀ pipe, pipe + g.length ≤ f.length →
      ∀ z ∈ intsFrom pipe g, IsInt z := by
    intro g
    induction g with
    | nil => exact fun _ _ _ z hz => absurd hz List.not_mem_nil
    | cons row g ih =>
      intro hsub pipe hlen z hz
      rw [List.length_cons] at hlen
      rcases List.mem_append.mp hz with hz | hz
      · have hlength := hf.length
        have hrow := hsub row List.mem_cons_self
        have hrows := hf.length_row hrow
        unfold rowInts at hz
        split_ifs at hz
        · exact absurd hz List.not_mem_nil
        · rcases List.mem_cons.mp hz with rfl | hz
          · exact ⟨by omega, by omega⟩
          rcases List.mem_cons.mp hz with rfl | hz
          · exact ⟨by omega, by omega⟩
          obtain ⟨e, he, hz⟩ := List.mem_flatMap.mp hz
          rcases List.mem_cons.mp hz with rfl | hz
          · obtain ⟨hlow, hhigh⟩ := hf.keys row hrow e he
            exact ⟨by omega, by omega⟩
          · rw [List.mem_singleton.mp hz]
            exact hfit row hrow e he
      · exact ih (fun r hr => hsub r (List.mem_cons_of_mem _ hr)) (pipe + 1) (by omega) z hz
  exact hfrom f (fun _ h => h) 0 (by omega)

end

end Modelnet.Tools

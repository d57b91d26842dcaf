import Modelnet.Lib.Cuts
import Modelnet.Tools.Blobs
import Modelnet.Tools.ExistingAssignment

/-!
# Pipes on cores

`assign` tries the methods of its command line and keeps the assignment of pipes to cores with the
least cross traffic. METIS partitions the pipes themselves or the vertices; in the second case
`library_assignment` puts each pipe on the core of the end that has less to do. What METIS answers
is a parameter.
-/

namespace Modelnet.Tools

variable {D : Type}

/-- The variables of the loop over the edges in `assign`. -/
structure PipeDealing where
  currPart : ℤ
  assigns : ℕ → ℤ

/-- The next part in turn is for an edge. -/
def PipeDealing.inTurn (s : PipeDealing) (parts e : ℕ) : PipeDealing where
  currPart := (s.currPart + 1) % parts
  assigns := Function.update s.assigns e ((s.currPart + 1) % parts)

/-- The variables of the loop for a partition of the vertices, with the number of messages
"Fishy". -/
structure NodeDealing extends PipeDealing where
  bins : ℤ → ℚ
  edgeCut : ℚ
  fishy : ℕ

namespace WeightedGraph

variable (wg : WeightedGraph D)

/-! ## The score -/

/-- `flowMap[e]`, in the order of the edges. -/
def flowsOver (e : ℕ) : List (ℕ × ℚ) :=
  (List.range wg.g.myEdges.length).filterMap fun e1 => (wg.flowMap e e1).map fun w => (e1, w)

/-- The body of `forall(f,flowMap[e])`, where `a` is the part of `e`. -/
def addStress (assignment : ℕ → ℤ) (a : ℤ) (stress : ℚ) (f : ℕ × ℚ) : ℚ :=
  if assignment f.1 ≠ a then stress + f.2 else stress

/-- `getStress`: what flows from pipes to pipes of other cores. -/
def getStress (assignment : ℕ → ℤ) : ℚ :=
  (List.range wg.g.myEdges.length).foldl
    (fun stress e => (wg.flowsOver e).foldl (addStress assignment (assignment e)) stress) 0

/-! ## Partitions of METIS -/

section

variable (parts : ℕ) (assignvec : ℕ → ℤ)

/-- The body of `forall_edges` in `assign`, for a partition of the edges. -/
def dealEdge (s : PipeDealing) (e : ℕ) : PipeDealing :=
  if wg.indexOfEdge.2 e = -1 then s.inTurn parts e
  else { s with assigns := Function.update s.assigns e (assignvec (wg.indexOfEdge.2 e).toNat) }

/-- `assign` for a partition of the edges, from `doLibraryCall` on. -/
def assignEdges : PipeDealing :=
  (List.range wg.g.myEdges.length).foldl (wg.dealEdge parts assignvec) ⟨0, fun _ => 0⟩

def placeOf (v : ℕ) : ℤ := assignvec (wg.indexOfNode.2 v).toNat

/-- The body of `forall_edges` in `assign`, for a partition of the vertices. -/
def dealByNode (s : NodeDealing) (e : ℕ) : NodeDealing :=
  if wg.indexOfNode.2 (wg.g.target e) = -1 ∨ wg.indexOfNode.2 (wg.g.source e) = -1 then
    { s with
      toPipeDealing := s.inTurn parts e
      fishy := if 1 < wg.scaledWeight e then s.fishy + 1 else s.fishy }
  else
    let pt := wg.placeOf assignvec (wg.g.target e)
    let ps := wg.placeOf assignvec (wg.g.source e)
    let part := if s.bins ps < s.bins pt then ps else pt
    { s with
      assigns := Function.update s.assigns e part
      bins := Function.update s.bins part (s.bins part + wg.eweights e)
      edgeCut := if pt ≠ ps then s.edgeCut + wg.eweights e else s.edgeCut }

/-- `assign` for a partition of the vertices, from `fill` on. -/
def assignByNode : NodeDealing :=
  (List.range wg.g.myEdges.length).foldl (wg.dealByNode parts assignvec)
    ⟨⟨0, fun _ => 0⟩, fun _ => 0, 0, 0⟩

end

end WeightedGraph

/-! ## The methods -/

/-- The methods; `chaco_edge` and `chaco_node` stand for those of METIS as well. -/
inductive Method
  | metisEdge
  | metisNode
  | random
  | kcluster
  | existing
  deriving DecidableEq

/-- The variables of `main`: `saved` is what the output file has. -/
structure Search where
  best : Option (ℕ → ℤ)
  saved : Option (ℕ → ℤ)
  tries : ℕ

section

variable (wg : WeightedGraph D) (metis : LibraryArrays → ℕ → ℕ → ℤ) (draws : ℕ → ℕ → ℕ) (fuel : ℕ)

/-- `assign` of a method, with the random numbers of a try; `none` where it does not return. -/
def Method.assign (parts : ℕ) (draw : ℕ → ℕ) : Method → Option (ℕ → ℤ)
  | metisEdge => some (wg.assignEdges parts (metis wg.constructTransformGraph parts)).assigns
  | metisNode =>
    let a := wg.constructGraph.makeEdgeWeightsSymmetric wg.indexOfNode.1
    some (wg.assignByNode parts (metis a parts)).assigns
  | random => some fun e => (draw e % parts : ℕ)
  | kcluster =>
    if parts ≤ wg.g.myEdges.length then
      let seeds := chooseSeeds ((List.range parts).map draw) (List.range wg.g.myEdges.length)
      match Loop.run (blobTurn wg parts) fuel (BlobState.init wg seeds) with
      | .finished s => some s.assigns
      | _ => none
    else none
  | existing => (existingAssign parts wg.g.toGraphData).map fun cores e => cores.getD e 0

/-- The body of `forall(f,settings.methods)` for more than one core. -/
def tryMethod (numCores : ℕ) (s : Search) (f : Method) : Option Search :=
  (f.assign wg metis fuel numCores (draws s.tries)).map fun a =>
    let better := match s.best with
      | none => a
      | some best => if wg.getStress a < wg.getStress best then a else best
    { s with best := some better, tries := s.tries + 1 }

/-- The body of `forall(numCores, splits)`; for one core everything is put on it, and the methods
are left. -/
def tryCores (methods : List Method) (s : Search) (numCores : ℤ) : Option Search :=
  if 1 < numCores then methods.foldlM (tryMethod wg metis draws fuel numCores.toNat) s
  else if methods = [] then some s
  else some { s with saved := some fun _ => 0 }

/-- `main` on a weighted graph: the values of `emul` in the file that is written last. -/
def assignMain (methods : List Method) (splits : List ℤ) : Option (Option (ℕ → ℤ)) :=
  if wg.maxVWeight = 0 ∧ wg.maxEWeight = 0 then none
  else (splits.foldlM (tryCores wg metis draws fuel methods) ⟨none, none, 0⟩).map fun s =>
    s.best.or s.saved

end

/-! ## Flows and cuts -/

/-- What flows from a pipe to another one is not negative, and only where they meet. -/
structure WeightedGraph.Routed (wg : WeightedGraph D) : Prop extends wg.Directed where
  nonneg : ∀ e < wg.g.myEdges.length, ∀ e1 < wg.g.myEdges.length, 0 ≤ wg.flowAcross e e1
  adjacent : ∀ e < wg.g.myEdges.length, ∀ e1 < wg.g.myEdges.length,
    0 < wg.flowAcross e e1 → wg.g.target e = wg.g.source e1

/-- The weight of the entries between the parts of a partition, so twice its edge cut. -/
def LibraryArrays.cutEntries (a : LibraryArrays) (nverts : ℕ) (part : ℕ → ℤ) : ℤ :=
  ((List.range nverts).map fun v => ((a.places v).map fun i =>
    if part (a.adjacency.getD i 0).toNat ≠ part v then a.eweights.getD i 0 else 0).sum).sum

/-- An assignment as a partition of the edges that have an index. -/
def WeightedGraph.partsOf (wg : WeightedGraph D) (assignment : ℕ → ℤ) (i : ℕ) : ℤ :=
  assignment (wg.pipes.getD i 0)

end Modelnet.Tools

import Mathlib.Data.Finset.Sort
import Modelnet.Tools.Makedynamic
import Modelnet.Tools.Routes

/-!
# `gentargets`

`gentargets` makes lists of clients with their targets. In the two dynamic modes a client has two
stages, the second one from a random time on. In the mode `dynsubtree` the targets are clients of
two subtrees, which take turns, and the clients outside these subtrees get a line; in the mode
`dynrandom` every client has a line with targets that are drawn for it. A loop that goes on until a
set is large enough need not end, and so the number of its turns is bounded by a fuel here.
-/

namespace Modelnet.Tools

variable {D : Type}

/-! ## The clients -/

/-- A vertex with one outgoing edge becomes a client. -/
def markClients (g : GraphData D) : GraphData D :=
  (List.range g.myVertices.length).foldl (fun g v =>
    if (g.outEdges v).length = 1 then g.setString v (str "role") (str "virtnode") else g) g

/-- The number and the subtree of a client. -/
structure TargetClient where
  vn : ℤ
  subtree : ℤ
  deriving DecidableEq

def targetClients (g : GraphData D) : List TargetClient :=
  ((List.range g.myVertices.length).filter g.isVirtnode).map fun v =>
    ⟨((g.vertexAttr v).getInteger (str "vn")).toInt,
      ((g.vertexAttr v).getInteger (str "subtree")).toInt⟩

/-- What a line says: a client with its targets from the start and those from a time on, which is
given in ten-thousandths. -/
structure TargetLine where
  id : ℤ
  targets1 : Finset ℤ
  switchTime : ℕ
  targets2 : Finset ℤ

/-! ## Targets in subtrees -/

/-- `while (targets.size() < want) targets.insert(ids[t=(t+1)%ids.size()]);` -/
def takeTurns (ids : List ℤ) (want : ℕ) : ℕ → Finset ℤ → ℕ → Option (Finset ℤ × ℕ)
  | 0, targets, t => if want ≤ targets.card then some (targets, t) else none
  | fuel + 1, targets, t =>
    if want ≤ targets.card then some (targets, t)
    else
      let t := (t + 1) % ids.length
      takeTurns ids want fuel (insert (ids[t]?.getD 0) targets) t

/-- The places in the two subtrees, the number of draws, and the lines. -/
structure SubtreeState where
  t1 : ℕ
  t2 : ℕ
  draws : ℕ
  lines : List TargetLine

section

variable (rand : ℕ → ℕ) (clients : List TargetClient) (targetCount fuel : ℕ)

/-- `subTrees.size()`. -/
def subTreeCount : ℕ := (clients.map TargetClient.subtree).toFinset.card

def subTree (target : ℤ) : List ℤ :=
  (clients.filter fun v => v.subtree = target).map TargetClient.vn

def firstSubtree : ℤ := (rand 0 % subTreeCount clients : ℕ)

/-- The subtree of the second targets, another one. -/
def secondSubtree : ℤ :=
  let target2 : ℤ := (rand 1 % (subTreeCount clients - 1) : ℕ)
  if target2 ≥ firstSubtree rand clients then target2 + 1 else target2

/-- The body of the loop over the clients. -/
def subtreeTurn (s : SubtreeState) (v : TargetClient) : Option SubtreeState :=
  let tset1 := subTree clients (firstSubtree rand clients)
  let tset2 := subTree clients (secondSubtree rand clients)
  if v.subtree = firstSubtree rand clients ∨ v.subtree = secondSubtree rand clients then some s
  else do
    let (targets1, t1) ← takeTurns tset1 (min targetCount tset1.length) fuel ∅ s.t1
    let (targets2, t2) ← takeTurns tset2 (min targetCount tset2.length) fuel ∅ s.t2
    some ⟨t1, t2, s.draws + 1,
      s.lines ++ [⟨v.vn, targets1, rand s.draws % 10000, targets2⟩]⟩

/-- `subtreeDynamicTargets`; with less than two subtrees there is a division by 0. -/
def subtreeDynamicTargets : Option (List TargetLine) :=
  if subTreeCount clients ≤ 1 then none
  else (clients.foldlM (subtreeTurn rand clients targetCount fuel) ⟨0, 0, 2, []⟩).map
    SubtreeState.lines

/-! ## Targets at random -/

/-- `r = rand()%clients.size()-1; if (r >= id) r++;`, where 0 minus 1 becomes the integer -1. -/
def drawOther (n : ℕ) (id : ℤ) (draw : ℕ) : ℤ :=
  let r : ℤ := (draw % n : ℕ) - 1
  if r ≥ id then r + 1 else r

/-- The loop that draws the targets, with the number of draws. -/
def drawTargets (n : ℕ) (id : ℤ) :
    ℕ → Finset ℤ → Finset ℤ → ℕ → Option (Finset ℤ × Finset ℤ × ℕ)
  | 0, targets1, targets2, draws =>
    if targets1.card < targetCount ∨ targets2.card < targetCount then none
    else some (targets1, targets2, draws)
  | fuel + 1, targets1, targets2, draws =>
    if targets1.card < targetCount ∨ targets2.card < targetCount then
      drawTargets n id fuel (insert (drawOther n id (rand draws)) targets1)
        (insert (drawOther n id (rand (draws + 1))) targets2) (draws + 2)
    else some (targets1, targets2, draws)

/-- The body of the loop over the clients, with the number of draws and the lines. -/
def randomTurn (n : ℕ) (s : ℕ × List TargetLine) (id : ℕ) : Option (ℕ × List TargetLine) := do
  let (targets1, targets2, draws) ← drawTargets rand targetCount n id fuel ∅ ∅ s.1
  some (draws + 1, s.2 ++ [⟨id, targets1, rand draws % 10000, targets2⟩])

def randomDynamicTargets (n : ℕ) : Option (List TargetLine) :=
  ((List.range n).foldlM (randomTurn rand targetCount fuel n) (0, [])).map Prod.snd

end

/-! ## The lists -/

def ascending (targets : Finset ℤ) : List ℤ := targets.sort (· ≤ ·)

@[simp] theorem mem_ascending {targets : Finset ℤ} {t : ℤ} : t ∈ ascending targets ↔ t ∈ targets :=
  Finset.mem_sort _

@[simp] theorem length_ascending (targets : Finset ℤ) : (ascending targets).length = targets.card :=
  Finset.length_sort _

@[simp] theorem ascending_singleton (t : ℤ) : ascending {t} = [t] := Finset.sort_singleton _ _

theorem coe_ascending (targets : Finset ℤ) : (ascending targets : Multiset ℤ) = targets.val :=
  Finset.sort_eq _ _

/-- A set of targets, as it is printed. -/
def setText (targets : Finset ℤ) : List Char := tokens (ascending targets)

def subtreeLine (l : TargetLine) : List Char :=
  printInt l.id ++ " 2 0.0 ".toList ++ printInt l.targets1.card ++ " ".toList ++
    setText l.targets1 ++ printTime l.switchTime ++ " ".toList ++ printInt l.targets2.card ++
    " ".toList ++ setText l.targets2 ++ "\n".toList

/-- A line of `randomDynamicTargets`: there is no number of the second targets, and no end of the
line. -/
def randomLine (l : TargetLine) : List Char :=
  printInt l.id ++ " 2 0 ".toList ++ printInt l.targets1.card ++ " ".toList ++
    setText l.targets1 ++ printTime l.switchTime ++ "  ".toList ++ setText l.targets2

inductive DynamicMode where
  | dynrandom
  | dynsubtree
  deriving DecidableEq

/-- The lines of a mode. -/
def generate (mode : DynamicMode) (rand : ℕ → ℕ) (clients : List TargetClient)
    (targetCount fuel : ℕ) : Option (List TargetLine) :=
  match mode with
  | .dynrandom => randomDynamicTargets rand targetCount fuel clients.length
  | .dynsubtree => subtreeDynamicTargets rand clients targetCount fuel

/-- What is printed in a mode. -/
def listText (mode : DynamicMode) (lines : List TargetLine) : List Char :=
  match mode with
  | .dynrandom => lines.flatMap randomLine
  | .dynsubtree => lines.flatMap subtreeLine

def clientNumbers (mode : DynamicMode) (clients : List TargetClient) : List ℤ :=
  match mode with
  | .dynrandom => (List.range clients.length).map Nat.cast
  | .dynsubtree => clients.map TargetClient.vn

end Modelnet.Tools

import Modelnet.Lib.Draws
import Modelnet.Tools.Routes

/-!
# Flow patterns

A pattern describes classes of clients, and for each class the flows from its clients to those of
other classes. `constructFlows` gives every client a class at random, and then draws a target for
every flow among the clients of a class, again and again as long as it is the source. `double` is a
parameter with its operations, of which nothing is known. A draw is what `rand` returns, a number up
to `RAND_MAX`; loops that need not end are bounded by a fuel, and where a loop goes on or divides by
0 there is no result.
-/

namespace Modelnet.Tools

/-- The type `double`, with the conversion to `float` and the extraction `in >> d`. -/
structure Arithmetic (D : Type) where
  extract : Str → Option (D × Str)
  ofInt : ℤ → D
  add : D → D → D
  sub : D → D → D
  mul : D → D → D
  div : D → D → D
  le : D → D → Bool
  lt : D → D → Bool
  toInt : D → ℤ
  toFloat : D → D

structure TypedFlow (D : Type) where
  targetType : Str
  multLow : D
  multHigh : D
  bwPctLow : D
  bwPctHigh : D
  deriving DecidableEq

structure ClientType (D : Type) where
  name : Str
  probability : D
  flows : List (TypedFlow D)
  linkLow : D
  linkHigh : D
  deriving DecidableEq

/-! ## Words -/

/-- `in >> s`. -/
def readWord (s : Str) : Option (Str × Str) :=
  let rest := s.dropWhile fun c => isspace c.val
  let word := rest.takeWhile fun c => !isspace c.val
  if word = [] then none else some (word, rest.dropWhile fun c => !isspace c.val)

def eatline (s : Str) : Str := (s.dropWhile fun c => c.val ≠ '\n').tail

/-- `s[0]=='#'`. -/
def isComment (s : Str) : Bool := s.head?.map Subtype.val = some '#'

/-- `if (s[s.length()-1]==':') s=s.substr(0,s.length()-1);` -/
def stripColon (s : Str) : Str :=
  if s.getLast?.map Subtype.val = some ':' then s.dropLast else s

variable {D : Type} (a : Arithmetic D)

/-! ## Reading -/

/-- A `double` that is put into a record. -/
def readDoubleInto {R : Type} (rest : Str) (set : D → R) : Option (R × Str) :=
  (a.extract rest).map fun (d, rest) => (set d, rest)

/-- The keywords of a flow; other words are skipped. -/
def readFlowField (tf : TypedFlow D) (s rest : Str) : Option (TypedFlow D × Str) :=
  if s = str "to" then
    (readWord rest).map fun (target, rest) => ({ tf with targetType := target }, rest)
  else if s = str "number" then
    readDoubleInto a rest fun d => { tf with multLow := d, multHigh := d }
  else if s = str "number_low" then readDoubleInto a rest fun d => { tf with multLow := d }
  else if s = str "number_high" then readDoubleInto a rest fun d => { tf with multHigh := d }
  else if s = str "percent" then
    readDoubleInto a rest fun d => { tf with bwPctLow := d, bwPctHigh := d }
  else if s = str "percent_low" then readDoubleInto a rest fun d => { tf with bwPctLow := d }
  else if s = str "percent_high" then readDoubleInto a rest fun d => { tf with bwPctHigh := d }
  else some (tf, rest)

/-- The loop of `read_flow`. Each turn reads a word, and so the length of the file bounds them. -/
def readFlowLoop : ℕ → TypedFlow D → Str → Option (TypedFlow D × Str)
  | 0, _, _ => none
  | fuel + 1, tf, rest => do
    let (s, rest) ← readWord rest
    if isComment s then readFlowLoop fuel tf (eatline rest)
    else if s = str "end" then some (tf, rest)
    else
      let (tf, rest) ← readFlowField a tf (stripColon s) rest
      readFlowLoop fuel tf rest

/-- `typed_flow()`. -/
def TypedFlow.default : TypedFlow D := ⟨[], a.ofInt 1, a.ofInt 1, a.ofInt 1, a.ofInt 1⟩

def readFlow (rest : Str) : Option (TypedFlow D × Str) :=
  readFlowLoop a (rest.length + 1) (.default a) rest

/-- The keywords of a class; other words are skipped. -/
def readClassField (ct : ClientType D) (s rest : Str) : Option (ClientType D × Str) :=
  if s = str "weight" then readDoubleInto a rest fun d => { ct with probability := d }
  else if s = str "link" then
    readDoubleInto a rest fun d => { ct with linkLow := d, linkHigh := d }
  else if s = str "link_low" then readDoubleInto a rest fun d => { ct with linkLow := d }
  else if s = str "link_high" then readDoubleInto a rest fun d => { ct with linkHigh := d }
  else if s = str "flow" then
    (readFlow a rest).map fun (tf, rest) => ({ ct with flows := ct.flows ++ [tf] }, rest)
  else some (ct, rest)

def readClassLoop : ℕ → ClientType D → Str → Option (ClientType D × Str)
  | 0, _, _ => none
  | fuel + 1, ct, rest => do
    let (s, rest) ← readWord rest
    if isComment s then readClassLoop fuel ct (eatline rest)
    else if s = str "end" then some (ct, rest)
    else
      let (ct, rest) ← readClassField a ct (stripColon s) rest
      readClassLoop fuel ct rest

def readClass (rest : Str) : Option (ClientType D × Str) := do
  let (name, rest) ← readWord rest
  readClassLoop a (rest.length + 1) ⟨name, a.ofInt 1, [], a.ofInt 1, a.ofInt 1⟩ rest

/-- The loop of `read_pattern`. -/
def readClasses : ℕ → List (ClientType D) → Str → Option (List (ClientType D))
  | 0, _, _ => none
  | fuel + 1, types, rest =>
    match readWord rest with
    | none => some types
    | some (s, rest) =>
      if isComment s then readClasses fuel types (eatline rest)
      else if s = str "class" then
        (readClass a rest).bind fun (ct, rest) => readClasses fuel (types ++ [ct]) rest
      else none

/-- `read_pattern`: the classes of a pattern that is accepted. -/
def readPattern (file : Str) : Option (List (ClientType D)) := do
  let types ← readClasses a (file.length + 1) [] file
  if types.isEmpty then none
  else if types.any fun ct => ct.flows.any fun tf =>
      !(types.map ClientType.name).contains tf.targetType then none
  else
    let totalWeight := types.foldl (fun sum ct => a.add sum ct.probability) (a.ofInt 0)
    some (types.map fun ct => { ct with probability := a.div ct.probability totalWeight })

/-! ## Drawing -/

variable {randMax : ℕ}

/-- `double(rand())/RAND_MAX`. -/
def unit (draw : Fin (randMax + 1)) : D := a.div (a.ofInt draw.val) (a.ofInt randMax)

/-- The loop of `chooseType`; after it the class is the last one. -/
def chooseFrom (p : D) : D → List (ClientType D) → Option (ClientType D)
  | _, [] => none
  | sum, ct :: types =>
    let sum := a.add sum ct.probability
    if a.le p sum || types.isEmpty then some ct else chooseFrom p sum types

def chooseType (types : List (ClientType D)) (draw : Fin (randMax + 1)) : Option (ClientType D) :=
  chooseFrom a (unit a draw) (a.ofInt 0) types

def chooseVal (low high : D) (draw : Fin (randMax + 1)) : D :=
  a.add low (a.mul (unit a draw) (a.sub high low))

/-! ## Classes for the clients -/

/-- The graph and the variables of `constructFlows`. -/
structure FlowDesign (D : Type) where
  g : GraphData D
  typeOf : ℕ → Option (ClientType D)
  sendRate : ℕ → D
  group : Str → List ℕ

/-- `bw`, after the loop over the edges. -/
def firstPositive : D → List D → D
  | bw, [] => bw
  | _, bw :: bws => if a.lt (a.ofInt 0) bw then bw else firstPositive bw bws

def clientBw (g : GraphData D) (v : ℕ) : D :=
  firstPositive a (a.ofInt 0) ((g.outEdges v).map fun e =>
    a.ofInt (((g.myEdges[e]?.map Edge.attr).getD ∅).getInteger (str "bw")).toInt)

/-- The body of the first loop over the clients. -/
def designClient (types : List (ClientType D)) (s : FlowDesign D × Stream' (Fin (randMax + 1)))
    (v : ℕ) : Option (FlowDesign D × Stream' (Fin (randMax + 1))) := do
  let ct ← chooseType a types s.2.head
  let draws := s.2.tail
  let bw := clientBw a s.1.g v
  let val := a.mul (chooseVal a ct.linkLow ct.linkHigh draws.head) bw
  some ({ g := s.1.g.setString v (str "class") ct.name
          typeOf := Function.update s.1.typeOf v (some ct)
          sendRate := Function.update s.1.sendRate v (if a.lt val bw then val else bw)
          group := Function.update s.1.group ct.name (s.1.group ct.name ++ [v]) }, draws.tail)

/-! ## The flows -/

/-- `flow`, with the template that it is made from. -/
structure PatternFlow (D : Type) where
  source : ℕ
  target : ℕ
  bandwidth : D
  sendRate : D
  stepFactor : D
  template : TypedFlow D

/-- `f->target=v; while (f->target==v) f->target=nodes[rand() % nodes.size()];` -/
def pickTarget (nodes : List ℕ) (v : ℕ) :
    ℕ → Stream' (Fin (randMax + 1)) → Option (ℕ × Stream' (Fin (randMax + 1)))
  | 0, _ => none
  | fuel + 1, draws =>
    match nodes[draws.head.val % nodes.length]? with
    | none => none
    | some target =>
      if target = v then pickTarget nodes v fuel draws.tail else some (target, draws.tail)

section

variable (s : FlowDesign D) (fuel v : ℕ)

/-- The flows, and what is left of the draws. -/
abbrev FlowState (D : Type) (randMax : ℕ) : Type :=
  List (PatternFlow D) × Stream' (Fin (randMax + 1))

/-- The body of `for (i=0;i<mult;i++)`. -/
def createFlow (tf : TypedFlow D) (st : FlowState D randMax) : Option (FlowState D randMax) := do
  let (target, draws) ← pickTarget (s.group tf.targetType) v fuel st.2
  let bandwidth := a.mul (a.div (chooseVal a tf.bwPctLow tf.bwPctHigh draws.head) (a.ofInt 100))
    (s.sendRate v)
  some (st.1 ++ [⟨v, target, a.toFloat bandwidth, a.ofInt 0, a.ofInt 1, tf⟩], draws.tail)

/-- The loop over the flows of a template. -/
def createFlows (tf : TypedFlow D) : ℕ → FlowState D randMax → Option (FlowState D randMax)
  | 0, st => some st
  | mult + 1, st => (createFlow a s fuel v tf st).bind (createFlows tf mult)

/-- `(int)(chooseVal(tf.mult_low,tf.mult_high) + 0.5)`. -/
def mult (tf : TypedFlow D) (draw : Fin (randMax + 1)) : ℤ :=
  a.toInt (a.add (chooseVal a tf.multLow tf.multHigh draw) (a.div (a.ofInt 1) (a.ofInt 2)))

/-- The body of `forall(tf, ct->flows)`. -/
def instantiate (st : FlowState D randMax) (tf : TypedFlow D) : Option (FlowState D randMax) :=
  createFlows a s fuel v tf (mult a tf st.2.head).toNat (st.1, st.2.tail)

/-- The body of the second loop over the clients. -/
def clientFlows (st : FlowState D randMax) (v : ℕ) : Option (FlowState D randMax) := do
  let ct ← s.typeOf v
  ct.flows.foldlM (instantiate a s fuel v) st

end

/-- `user_flow_pattern::constructFlows`: the graph and the flows. -/
def constructFlows (types : List (ClientType D)) (g : GraphData D) (clients : List ℕ) (fuel : ℕ)
    (draws : Stream' (Fin (randMax + 1))) : Option (GraphData D × List (PatternFlow D)) := do
  let (s, draws) ← clients.foldlM (designClient a types)
    (⟨g, fun _ => none, fun _ => a.ofInt 0, fun _ => []⟩, draws)
  let (flows, _) ← clients.foldlM (clientFlows a s fuel) ([], draws)
  some (s.g, flows)

end Modelnet.Tools

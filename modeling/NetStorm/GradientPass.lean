import NetStorm.DFSVisit
import Mathlib.Algebra.Group.Hom.Basic
import Mathlib.Algebra.Group.Hom.Instances

/-!
# The gradient pass

`MXGradient` walks the nodes below the heads in reverse topological order. Every output of a
node has an entry that collects the gradients from its uses, and the sum of these once the
node is passed. Nodes are numbered by their creation, so the inputs of a node have smaller
numbers. A node of the gradient graph is its operator with the values of its outputs, since
only these and the identity of the entries count; names and attributes are left out. A null
pointer is followed and a failed check reached where there is no result. There is no mirroring.
-/
namespace NetStorm
namespace GradientPass

/-- `NodeEntry`. The node is null in an entry that was moved from. -/
structure NodeEntry where
  node : Option ℕ
  index : ℕ
  version : ℕ
deriving DecidableEq

/-- A node of the graph with the values of its outputs. The operator of a variable is null. -/
structure ValueNode (Op V : Type) where
  op : Option Op
  outs : List V
deriving DecidableEq

/-- A node of the graph that is differentiated, with its inputs as nodes and output indices. -/
structure Node where
  isVariable : Bool
  numOutputs : ℕ
  inputs : List (ℕ × ℕ)
  controlDeps : List ℕ

/-- `GradEntry`. -/
structure GradEntry where
  sum : NodeEntry := ⟨none, 0, 0⟩
  grads : List NodeEntry := []
  needAttrHint : Bool := true

variable {Op V : Type}

/-- The value that an entry denotes. -/
def den (w : List (ValueNode Op V)) (e : NodeEntry) : Option V :=
  e.node.bind fun n => w[n]?.bind fun node => node.outs[e.index]?

/-- `Node::Create` for an operator with one output. -/
def create (w : List (ValueNode Op V)) (op : Op) (outs : List V) :
    List (ValueNode Op V) × NodeEntry :=
  (w ++ [⟨some op, outs⟩], ⟨some w.length, 0, 0⟩)

/-- The attributes of the graph that the pass reads, and the operator registry. `fGradient` is
for the operator of a node. `aggFun` also gives what it leaves of the vector it moves from. -/
structure Config (Op V : Type) where
  fGradient : ℕ → Option (List (ValueNode Op V) → List NodeEntry →
    Option (List (ValueNode Op V) × List NodeEntry))
  inferShape : Op → Bool
  aggFun : List (ValueNode Op V) → List NodeEntry →
    Option (List (ValueNode Op V) × NodeEntry × List NodeEntry)
  attrHintFun : Option (List (ValueNode Op V) → NodeEntry → NodeEntry →
    Option (List (ValueNode Op V) × NodeEntry))
  zeroOps : List Op
  copyOp : Option Op

/-- `DefaultAggregateGradient`. One entry is moved out of its vector, which keeps a null. -/
def defaultAggregateGradient [AddCommMonoid V] (zeros elemwiseSum : Op)
    (w : List (ValueNode Op V)) (v : List NodeEntry) :
    Option (List (ValueNode Op V) × NodeEntry × List NodeEntry) :=
  match v with
  | [e] => some (w, e, [{ e with node := none }])
  | [] =>
    let (w, e) := create w zeros [0]
    some (w, e, [])
  | v =>
    let (w, e) := create w elemwiseSum ((v.mapM (den w)).elim [] fun vals => [vals.sum])
    some (w, e, [])

/-- The operator of the node of an entry. -/
def opOf (w : List (ValueNode Op V)) (e : NodeEntry) : Option Op :=
  e.node.bind fun n => w[n]?.bind ValueNode.op

/-- `CheckGradAllZero`. -/
def checkGradAllZero [DecidableEq Op] (w : List (ValueNode Op V)) (grads : List NodeEntry)
    (zeroOps : List Op) : Bool :=
  !grads.isEmpty && !zeroOps.isEmpty &&
    grads.all fun g => zeroOps.any fun op => decide (opOf w g = some op)

/-- `output_grads`. -/
abbrev OutputGrads := ℕ → Option (List GradEntry)

/-- A change of the entry of an output. -/
def modifyEntry (og : OutputGrads) (e : ℕ × ℕ) (f : GradEntry → GradEntry) :
    Option OutputGrads := do
  let es ← og e.1
  if e.2 < es.length then some (Function.update og e.1 (some (es.modify e.2 f))) else none

/-- The sum of an entry, with the attribute hint if it is needed. -/
def aggregate (c : Config Op V) (w : List (ValueNode Op V)) (entry : GradEntry)
    (like : NodeEntry) : Option (List (ValueNode Op V) × GradEntry) := do
  let (w, sum, left) ← c.aggFun w entry.grads
  let (w, sum) ← match c.attrHintFun, entry.needAttrHint with
    | some hint, true => hint w sum like
    | _, _ => some (w, sum)
  some (w, { entry with sum := sum, grads := left })

/-- The sums of the outputs of node `n`, from output `i` on. The entry for the hint is written
as node, index, version in the source, and gets the output as its version. -/
def aggregateOutputs (c : Config Op V) (n : ℕ) : ℕ → List (ValueNode Op V) → List GradEntry →
    Option (List (ValueNode Op V) × List GradEntry)
  | _, w, [] => some (w, [])
  | i, w, entry :: entries => do
    let (w, entry) ← aggregate c w entry ⟨some n, 0, i⟩
    let (w, entries) ← aggregateOutputs c n (i + 1) w entries
    some (w, entry :: entries)

/-- The zeros for the inputs of a node without `FGradient`. -/
def zeroGrads [AddCommMonoid V] (op : Op) : ℕ → List (ValueNode Op V) →
    List (ValueNode Op V) × List NodeEntry
  | 0, w => (w, [])
  | k + 1, w =>
    let (w, e) := create w op [0]
    let (w, es) := zeroGrads op k w
    (w, e :: es)

/-- The gradients of the inputs of a node, for the sums of its outputs. -/
def inputGrads [DecidableEq Op] [AddCommMonoid V] (c : Config Op V) (n : ℕ) (node : Node)
    (w : List (ValueNode Op V)) (outAggGrads : List NodeEntry) :
    Option (List (ValueNode Op V) × List NodeEntry) := do
  let (w, grads) ← match c.fGradient n, c.zeroOps with
    | some f, _ => f w outAggGrads
    | none, op :: zeroOps =>
      if checkGradAllZero w outAggGrads (op :: zeroOps) then
        some (zeroGrads op node.inputs.length w)
      else none
    | none, [] => none
  if grads.length ≠ node.inputs.length then none
  else if grads.any fun e => e.node.isNone then none
  else some (w, grads)

/-- The gradient of an input added to its entry. -/
def addGrad (c : Config Op V) (w : List (ValueNode Op V)) (og : OutputGrads)
    (ig : (ℕ × ℕ) × NodeEntry) : Option OutputGrads :=
  modifyEntry og ig.1 fun entry =>
    { entry with
      needAttrHint := entry.needAttrHint && !(opOf w ig.2).any c.inferShape
      grads := entry.grads ++ [ig.2] }

/-- One node of the backward traversal. -/
def backward [DecidableEq Op] [AddCommMonoid V] (c : Config Op V) (g : List Node)
    (st : List (ValueNode Op V) × OutputGrads) (n : ℕ) :
    Option (List (ValueNode Op V) × OutputGrads) := do
  let node ← g[n]?
  if node.isVariable then some st
  else
    let entries ← st.2 n
    let (w, entries) ← aggregateOutputs c n 0 st.1 entries
    let og := Function.update st.2 n (some entries)
    if node.inputs = [] then some (w, og)
    else
      let (w, grads) ← inputGrads c n node w (entries.map GradEntry.sum)
      let og ← (node.inputs.zip grads).foldlM (addGrad c w) og
      some (w, og)

/-- The entry of a target, with its sum if that has not been formed. -/
def summed (c : Config Op V) (w : List (ValueNode Op V)) (e : ℕ × ℕ) (entry : GradEntry) :
    Option (List (ValueNode Op V) × GradEntry) :=
  if entry.sum.node.isNone then aggregate c w entry ⟨some e.1, e.2, 0⟩ else some (w, entry)

/-- The state of the loop that takes out the gradients of `xs`. -/
structure TakingOut (Op V : Type) where
  counter : ℕ
  nodes : List (ValueNode Op V)
  outputGrads : OutputGrads
  uniqueGrads : List (NodeEntry × ℕ)

/-- The gradient of one target taken out. With `copy_op` the sum is moved to `unique_grads`, or
copied if it is there already. -/
def takeOut (c : Config Op V) (st : TakingOut Op V) (e : ℕ × ℕ) : Option (TakingOut Op V) := do
  let entries ← st.outputGrads e.1
  let entry ← entries[e.2]?
  let (w, entry) ← summed c st.nodes e entry
  match c.copyOp with
  | none =>
    let og ← modifyEntry st.outputGrads e fun _ => entry
    some ⟨st.counter + 1, w, og, st.uniqueGrads ++ [(entry.sum, st.counter)]⟩
  | some op =>
    if st.uniqueGrads.any fun kv => kv.1 = entry.sum then
      if entry.sum.node.isNone then none
      else
        let (w, copy) := create w op (den w entry.sum).toList
        let og ← modifyEntry st.outputGrads e fun _ => entry
        some ⟨st.counter + 1, w, og, st.uniqueGrads ++ [(copy, st.counter)]⟩
    else
      let og ← modifyEntry st.outputGrads e fun _ =>
        { entry with sum := { entry.sum with node := none } }
      some ⟨st.counter + 1, w, og, st.uniqueGrads ++ [(entry.sum, st.counter)]⟩

/-- `ret.outputs`. Every position of `xs` is the counter of one of the entries. -/
def outputs (size : ℕ) (unique : List (NodeEntry × ℕ)) : List NodeEntry :=
  unique.foldl (fun outs kv => outs.set kv.2 kv.1) (List.replicate size ⟨none, 0, 0⟩)

/-- The nodes that `DFSVisit` goes on to. -/
def children (g : List Node) (n : ℕ) : List ℕ :=
  (g[n]?).elim [] fun node => node.inputs.map Prod.fst ++ node.controlDeps

/-- The number of passes that is enough for the visit. -/
def visitFuel (g : List Node) : ℕ := ∑ n ∈ Finset.range g.length, ((children g n).length + 1)

/-- `output_grads` after the visit. -/
def initialGrads (g : List Node) (order : List ℕ) : OutputGrads := fun n =>
  if n ∈ order then (g[n]?).map fun node => List.replicate node.numOutputs {} else none

/-- The out-gradient of a head. -/
def seed (og : OutputGrads) (head : (ℕ × ℕ) × NodeEntry) : Option OutputGrads :=
  modifyEntry og head.1 fun entry => { entry with grads := [head.2] }

/-- The part of `Gradient` before the gradients of `xs` are taken out, on the nodes `w` of the graph
and of the out-gradients. -/
def collect [DecidableEq Op] [AddCommMonoid V] (c : Config Op V) (g : List Node)
    (w : List (ValueNode Op V)) (ys : List (ℕ × ℕ)) (ysOutGrad : List NodeEntry)
    (xs : List (ℕ × ℕ)) : Option (List (ValueNode Op V) × OutputGrads) := do
  let topoOrder ← DFSVisit.postOrderDFSVisit (children g) (visitFuel g) (ys.map Prod.fst)
  if ys.length ≠ ysOutGrad.length then none
  else
    let og ← (ys.zip ysOutGrad).foldlM seed (initialGrads g topoOrder)
    if xs.any fun x => (og x.1).isNone then none
    else topoOrder.reverse.foldlM (backward c g) (w, og)

/-- `Gradient`. -/
def gradient [DecidableEq Op] [AddCommMonoid V] (c : Config Op V) (g : List Node)
    (w : List (ValueNode Op V)) (ys : List (ℕ × ℕ)) (ysOutGrad : List NodeEntry)
    (xs : List (ℕ × ℕ)) : Option (List (ValueNode Op V) × List NodeEntry) := do
  let (w, og) ← collect c g w ys ysOutGrad xs
  let st ← xs.foldlM (takeOut c) ⟨0, w, og, []⟩
  some (st.nodes, outputs xs.length st.uniqueGrads)

end GradientPass
end NetStorm

import NetStorm.GraphAllocator
import Mathlib.Logic.Function.Basic

/-!
# The memory plan of a graph

`MXAllocMemory` goes over the nodes in topological order. Outputs that may share the storage of
an input do so; the others request storage, the largest first; then the inputs are freed that
nothing reads any more, and last the outputs that nothing ever reads. The count of a storage
id is the number of reads that its entries still wait for. `MXPlanMemory` counts the reads and
tries match ranges. Entries are written as node and output index, which their ids number.
-/
namespace NetStorm
namespace PlanMemory

/-- `IndexedGraph::NodeEntry`, without the version. -/
structure NodeEntry where
  nodeId : ℕ
  index : ℕ
deriving DecidableEq

/-- A node of the indexed graph, with the results of `FInplaceOption`, `FInplaceIdentity` and
`FIgnoreInputs` where they are registered for its operator. -/
structure INode where
  isVariable : Bool
  numInputs : ℕ
  numOutputs : ℕ
  inputs : List NodeEntry
  inplaceOption : Option (List (ℕ × ℕ))
  inplaceIdentity : Option (List Bool)
  ignoreInputs : Option (List ℕ)

namespace INode

/-- `ignore_inputs`. -/
def ignored (node : INode) : List ℕ := node.ignoreInputs.getD []

/-- `ignore_all_inputs`. -/
def ignoreAllInputs (node : INode) : Bool :=
  node.ignoreInputs.any fun l => l.length = node.numInputs

/-- The in-place pairs with their identity flags, if there are as many of both. -/
def inplacePairs (node : INode) : Option (List ((ℕ × ℕ) × Bool)) :=
  match node.inplaceOption, node.inplaceIdentity with
  | none, _ => some []
  | some pairs, none => some (pairs.map fun kv => (kv, false))
  | some pairs, some identity =>
    if identity.length = pairs.length then some (pairs.zip identity) else none

/-- An identity pair never names an ignored input, and an in-place pair does only when the
operator ignores all its inputs. -/
def Compatible (node : INode) : Prop :=
  ∀ pairs, node.inplacePairs = some pairs → ∀ p ∈ pairs, p.1.1 ∈ node.ignored →
    p.2 = false ∧ node.ignoreAllInputs = true

end INode

/-- A graph with the attributes that the planner reads. Inputs come from earlier nodes, and
the registered functions name inputs and outputs that exist, ignored ones once. -/
structure Graph where
  nodes : List INode
  outputs : List NodeEntry
  shape : NodeEntry → TShape
  dtype : NodeEntry → TypeFlag
  device : Option (ℕ → ℤ)
  input_lt : ∀ (nid : ℕ) (node : INode), nodes[nid]? = some node →
    ∀ e ∈ node.inputs, e.nodeId < nid
  index_lt : ∀ e : NodeEntry, e ∈ outputs ∨ (∃ node ∈ nodes, e ∈ node.inputs) →
    ∃ node, nodes[e.nodeId]? = some node ∧ e.index < node.numOutputs
  pair_lt : ∀ node ∈ nodes, ∀ p ∈ node.inplaceOption.getD [],
    p.1 < node.inputs.length ∧ p.2 < node.numOutputs
  ignored_lt : ∀ node ∈ nodes, ∀ i ∈ node.ignored, i < node.inputs.length
  ignored_nodup : ∀ node ∈ nodes, node.ignored.Nodup

variable (g : Graph)

/-- `++ref_count[e]`. -/
def countUp (rc : NodeEntry → ℤ) (e : NodeEntry) : NodeEntry → ℤ :=
  Function.update rc e (rc e + 1)

/-- The reads of a node in `ref_count`; those of ignored inputs are revoked. -/
def countNode (rc : NodeEntry → ℤ) (node : INode) : NodeEntry → ℤ :=
  if node.isVariable then rc
  else node.ignored.foldl (fun rc i => node.inputs[i]?.elim rc fun e =>
    Function.update rc e (rc e - 1)) (node.inputs.foldl countUp rc)

/-- `ref_count` of `MXPlanMemory`. -/
def refCounts : NodeEntry → ℤ :=
  g.outputs.foldl countUp (g.nodes.foldl countNode fun _ => 0)

/-- The variables of `MXAllocMemory`. -/
structure AllocState where
  storage : NodeEntry → ℤ
  inplaceIndex : NodeEntry → ℤ
  refCount : ℤ → ℤ
  allocator : GraphAllocator
  numNotAllocated : ℕ

/-- The state before the first node. -/
def AllocState.init (storage : NodeEntry → ℤ) : AllocState where
  storage := storage
  inplaceIndex := fun _ => -1
  refCount := fun _ => 0
  allocator := ⟨[], []⟩
  numNotAllocated := 0

/-- `real_identity`. -/
def realIdentity (identity : Bool) (eOut eIn : NodeEntry) : Option Bool :=
  if identity && ndimIsKnown (g.shape eOut) && ndimIsKnown (g.shape eIn) then do
    let sizeOut ← shapeSize (g.shape eOut)
    let sizeIn ← shapeSize (g.shape eIn)
    some (sizeOut == sizeIn && g.dtype eOut == g.dtype eIn)
  else some false

/-- Whether an output takes as much memory as an input. -/
def sameSize (eOut eIn : NodeEntry) : Option Bool := do
  let sizeOut ← shapeSize (g.shape eOut)
  let sizeIn ← shapeSize (g.shape eIn)
  if sizeOut ≠ sizeIn then some false
  else if g.dtype eOut = g.dtype eIn then some true
  else do
    let bytesOut ← mxGetDTypeSize (g.dtype eOut)
    let bytesIn ← mxGetDTypeSize (g.dtype eIn)
    some (bytesOut == bytesIn)

/-- The in-place optimization: the output gets the storage of the input. -/
def AllocState.share (st : AllocState) (count : ℤ) (eOut eIn : NodeEntry) (input : ℕ) :
    AllocState :=
  { st with
    storage := Function.update st.storage eOut (st.storage eIn)
    refCount := Function.update st.refCount (st.storage eIn)
      (st.refCount (st.storage eIn) + count)
    inplaceIndex := Function.update st.inplaceIndex eOut input }

/-- One in-place pair. The second component is the inputs that are taken. -/
def inplaceStep (nid : ℕ) (node : INode) (c : AllocState × List ℕ) (p : (ℕ × ℕ) × Bool) :
    Option (AllocState × List ℕ) := do
  let eOut : NodeEntry := ⟨nid, p.1.2⟩
  let eIn ← node.inputs[p.1.1]?
  let identity ← realIdentity g p.2 eOut eIn
  if p.1.1 ∉ c.2 ∧ c.1.storage eOut = kBadStorageID ∧ 0 ≤ c.1.storage eIn ∧
      ((c.1.refCount (c.1.storage eIn) = 1 ∧ node.ignoreAllInputs = false) ∨ identity = true) ∧
      0 < refCounts g eOut then do
    let same ← sameSize g eOut eIn
    if same then some (c.1.share (refCounts g eOut) eOut eIn p.1.1, p.1.1 :: c.2) else some c
  else some c

/-- The outputs of a node. -/
def outputEntries (nid : ℕ) (node : INode) : List NodeEntry :=
  (List.range node.numOutputs).map fun index => ⟨nid, index⟩

/-- The outputs without storage as `eids` has them from its end on. -/
def requested (nid : ℕ) (node : INode) (st : AllocState) : Option (List NodeEntry) := do
  let missing := (outputEntries nid node).filter fun e => st.storage e = kBadStorageID
  let sized ← missing.mapM fun e =>
    (if ndimIsKnown (g.shape e) then shapeSize (g.shape e) else some 0).map fun size => (size, e)
  some ((sized.foldl multimapInsert []).reverse.map Prod.snd)

/-- `match_range_` and `node_color_` of the allocator. -/
structure MatchConfig where
  matchRange : ℕ
  nodeColor : List ℕ

/-- Storage for one output. -/
def requestStep (m : MatchConfig) (nid : ℕ) (st : AllocState) (e : NodeEntry) :
    Option AllocState := do
  let devId := g.device.elim 0 fun device => device nid
  let (sid, a) ← st.allocator.request m.matchRange m.nodeColor devId (g.shape e) nid
  some { st with
    allocator := a
    refCount := if 0 ≤ sid then Function.update st.refCount sid (refCounts g e) else st.refCount
    storage := Function.update st.storage e sid }

/-- The freeing of input `i` of a node, unless it is ignored. -/
def freeInput (nid : ℕ) (node : INode) (st : AllocState) (i : ℕ) : Option AllocState :=
  if i ∈ node.ignored then some st else do
  let e ← node.inputs[i]?
  let sid := st.storage e
  if sid < 0 then some st else
  let refCount := Function.update st.refCount sid (st.refCount sid - 1)
  if refCount sid = 0 then do
    let a ← st.allocator.release sid nid
    some { st with refCount := refCount, allocator := a }
  else some { st with refCount := refCount }

/-- The freeing of an output that no operator reads. -/
def releaseUnread (nid : ℕ) (st : AllocState) (e : NodeEntry) : Option AllocState :=
  if 0 ≤ st.storage e ∧ st.refCount (st.storage e) = 0 then do
    let a ← st.allocator.release (st.storage e) nid
    some { st with allocator := a, inplaceIndex := Function.update st.inplaceIndex e (-2) }
  else some st

/-- The last loop, over the outputs of a node. -/
def releaseOutput (nid : ℕ) (st : AllocState) (index : ℕ) : Option AllocState := do
  let st ← releaseUnread nid st ⟨nid, index⟩
  if st.storage ⟨nid, index⟩ = kBadStorageID then
    some { st with numNotAllocated := st.numNotAllocated + 1 }
  else some st

/-- The in-place pairs of a node. -/
def inplaceLoop (nid : ℕ) (node : INode) (st : AllocState) : Option AllocState := do
  let pairs ← node.inplacePairs
  let c ← pairs.foldlM (inplaceStep g nid node) (st, [])
  some c.1

/-- The normal allocation for a node. -/
def requestLoop (m : MatchConfig) (nid : ℕ) (node : INode) (st : AllocState) :
    Option AllocState := do
  let eids ← requested g nid node st
  eids.foldlM (requestStep g m nid) st

/-- The freeing of the inputs of a node. -/
def freeLoop (nid : ℕ) (node : INode) (st : AllocState) : Option AllocState :=
  (List.range node.inputs.length).foldlM (freeInput nid node) st

/-- A node of `MXAllocMemory`. -/
def allocNode (m : MatchConfig) (st : AllocState) (nid : ℕ) : Option AllocState := do
  let node ← g.nodes[nid]?
  if node.isVariable then some st else do
  let st ← inplaceLoop g nid node st
  let st ← requestLoop g m nid node st
  let st ← freeLoop nid node st
  (List.range node.numOutputs).foldlM (releaseOutput nid) st

/-- The first `k` nodes of `MXAllocMemory`. -/
def allocNodes (m : MatchConfig) (storage : NodeEntry → ℤ) (k : ℕ) : Option AllocState :=
  (List.range k).foldlM (allocNode g m) (AllocState.init storage)

/-- `MXAllocMemory` on the full node range. -/
def mxAllocMemory (m : MatchConfig) (storage : NodeEntry → ℤ) : Option AllocState :=
  allocNodes g m storage g.nodes.length

/-- The environment variables `NNVM_EXEC_MATCH_RANGE` and `NNVM_AUTO_SEARCH_MATCH_RANGE`, and
the node colours. -/
structure PlanConfig where
  maxMatchRange : ℕ
  autoSearch : Bool
  nodeColor : List ℕ

/-- The attributes that `MXPlanMemory` adds to the graph. -/
structure Plan where
  storageId : NodeEntry → ℤ
  storageInplaceIndex : NodeEntry → ℤ
  storageAllocatedBytes : ℕ
  storageNumNotAllocated : ℕ

/-- The search for the best match range, from `matchRange` on. The plan is kept with the least
bytes so far. Doubling ends at the largest range unless it wraps around, which fuel bounds. -/
def searchPlan (c : PlanConfig) (storage : NodeEntry → ℤ) :
    ℕ → ℕ → ℕ → Option Plan → Option (Option Plan)
  | 0, _, _, _ => none
  | fuel + 1, matchRange, minBytes, best =>
    if c.maxMatchRange < matchRange then some best else do
    let st ← mxAllocMemory g ⟨matchRange, c.nodeColor⟩ storage
    let bytes := st.allocator.totalAllocBytes
    let plan : Plan := ⟨st.storage, st.inplaceIndex, bytes, st.numNotAllocated⟩
    let best' := if bytes < minBytes then some plan else best
    if c.maxMatchRange = 0 then some best'
    else searchPlan c storage fuel (matchRange * 2 % 2 ^ 64) (min minBytes bytes) best'

/-- `MXPlanMemory` on the full node range, with its own reference counts. -/
def mxPlanMemory (c : PlanConfig) (storage : NodeEntry → ℤ) : Option (Option Plan) :=
  searchPlan g c storage 65 (if c.autoSearch then 1 else c.maxMatchRange) (2 ^ 64 - 1) none

end PlanMemory
end NetStorm

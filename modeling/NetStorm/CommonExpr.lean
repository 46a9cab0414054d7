import NetStorm.DFSVisit
import NetStorm.Library.Steps
import Mathlib.Data.List.Forall2
import Mathlib.Logic.Function.Basic

/-!
# Elimination of common expressions

`EliminateCommonExpr` looks for nodes that have the same inputs and the same function, lets one of
them stand for the others, and repeats this until there are none. It gives an output of its own to
every output of the graph. A node is its position in the heap; `std::map` orders the groups of
nodes by their addresses, which may be any order. The parsed attributes are left out. The meaning
of a graph leaves out in-place mutation: a node computes its outputs from the values of its inputs,
and the version of an entry has no part in that.
-/
namespace NetStorm
namespace CommonExpr

/-- `NodeEntry`. -/
structure NodeEntry where
  node : ℕ
  index : ℕ
  version : ℕ := 0
deriving DecidableEq

/-- `Node`. The operator of a variable is null. -/
structure Node (Op D : Type) where
  op : Option Op
  dict : D
  name : String := ""
  inputs : List NodeEntry := []
  controlDeps : List ℕ := []

@[ext] structure Graph (Op D : Type) where
  heap : List (Node Op D)
  outputs : List NodeEntry

/-- The operator registry. `deterministic` is `THasDeterministicOutput` where it is set. -/
structure Registry (Op D : Type) where
  mutatesInputs : Op → Bool
  stateful : Op → Bool
  deterministic : Op → Option Bool
  requestsResource : Op → Bool
  requestsResourceEx : Op → Bool
  copyOp : Op
  emptyDict : D

variable {Op D : Type} [DecidableEq Op] [DecidableEq D]

/-- `ConvertInputs`. -/
def convertInputs (inputs : List NodeEntry) : List (ℕ × ℕ) := inputs.map fun e => (e.node, e.index)

/-- The part of `NodeEqual` that is about the operator. -/
def Registry.eliminable (c : Registry Op D) (op : Op) : Bool :=
  if c.mutatesInputs op = true then false
  else if c.stateful op = true then false
  else match c.deterministic op with
    | some d => d
    | none =>
      if c.requestsResource op = true then false
      else if c.requestsResourceEx op = true then false
      else true

/-- `NodeEqual`. -/
def nodeEqual (c : Registry Op D) (n m : Node Op D) : Bool :=
  match n.op, m.op with
  | some op, some op' =>
    if op ≠ op' then false
    else if n.dict ≠ m.dict then false
    else c.eliminable op
  | _, _ => false

namespace Graph

/-- What `DFSVisit` looks at below a node. -/
def children (g : Graph Op D) (n : ℕ) : List ℕ :=
  (g.heap[n]?).elim [] fun node => node.inputs.map NodeEntry.node ++ node.controlDeps

/-- `nnvm::DFSVisit` from the outputs. -/
def dfsVisit (g : Graph Op D) : Option (List ℕ) :=
  DFSVisit.postOrderDFSVisit g.children
    (∑ n ∈ Finset.range g.heap.length, ((g.children n).length + 1))
    (g.outputs.map NodeEntry.node)

/-- The inputs of a node. -/
def inputsOf (g : Graph Op D) (n : ℕ) : List NodeEntry := (g.heap[n]?).elim [] Node.inputs

end Graph

/-- `grouped_nodes[key].push_back(n)`. -/
def insertGroup (key : List (ℕ × ℕ)) (n : ℕ) :
    List (List (ℕ × ℕ) × List ℕ) → List (List (ℕ × ℕ) × List ℕ)
  | [] => [(key, [n])]
  | (k, group) :: groups =>
    if k = key then (k, group ++ [n]) :: groups else (k, group) :: insertGroup key n groups

/-- The first loop of `GetCommonNodes`. -/
def groupNodes (g : Graph Op D) (order : List ℕ) : List (List (ℕ × ℕ) × List ℕ) :=
  order.foldl (fun groups n =>
    if g.inputsOf n ≠ [] then insertGroup (convertInputs (g.inputsOf n)) n groups else groups) []

/-- The loops over a group. The nodes of a group are distinct, so `visited` can hold the nodes. -/
def groupPairs (equal : ℕ → ℕ → Bool) : List ℕ → List ℕ → List (ℕ × ℕ)
  | _, [] => []
  | visited, i :: group =>
    if i ∈ visited then groupPairs equal visited group
    else
      let found := group.filter (equal i)
      found.map (fun j => (i, j)) ++ groupPairs equal (visited ++ found) group

/-- `NodeEqual` on two positions of the heap. -/
def Graph.equalAt (c : Registry Op D) (g : Graph Op D) (n m : ℕ) : Bool :=
  match g.heap[n]?, g.heap[m]? with
  | some n, some m => nodeEqual c n m
  | _, _ => false

/-- `GetCommonNodes`. The groups come in the order of `byAddress`. -/
def getCommonNodes (c : Registry Op D)
    (byAddress : Graph Op D → List (List (ℕ × ℕ) × List ℕ) → List (List (ℕ × ℕ) × List ℕ))
    (g : Graph Op D) : Option (List (ℕ × ℕ)) := do
  let order ← g.dfsVisit
  return (byAddress g (groupNodes g order)).flatMap fun group =>
    groupPairs (g.equalAt c) [] group.2

/-- An entry with the node replaced. -/
def redirect (src replaced : ℕ) (e : NodeEntry) : NodeEntry :=
  if e.node = replaced then { e with node := src } else e

/-- The change of a node of `nodes_to_change`. -/
def Node.change (src replaced : ℕ) (node : Node Op D) : Node Op D :=
  { node with
    controlDeps := node.controlDeps.map fun dep => if dep = replaced then src else dep
    inputs := node.inputs.map (redirect src replaced) }

/-- A node refers to the replaced node. -/
def Graph.refersTo (g : Graph Op D) (replaced n : ℕ) : Bool :=
  (g.heap[n]?).elim false fun node =>
    node.controlDeps.any (· = replaced) || node.inputs.any (·.node = replaced)

/-- A node of the heap behind the changes of `nodes_to_change`. -/
def Graph.changeAt (g : Graph Op D) (order : List ℕ) (p : ℕ × ℕ) (n : ℕ) (node : Node Op D) :
    Node Op D :=
  if n ∈ order.filter (g.refersTo p.2) then node.change p.1 p.2 else node

/-- The changes of `EliminateCommonNodes` for one pair. -/
def eliminatePair (g : Graph Op D) (p : ℕ × ℕ) : Option (Graph Op D) := do
  let order ← g.dfsVisit
  let heap := g.heap.mapIdx (g.changeAt order p)
  let deps := (heap[p.2]?).elim [] Node.controlDeps
  return {
    heap := heap.modify p.1 fun node => { node with controlDeps := node.controlDeps ++ deps }
    outputs := g.outputs.map (redirect p.1 p.2) }

/-- The copy of an output. -/
def copyNode (c : Registry Op D) (heap : List (Node Op D)) (e : NodeEntry) (count : ℕ) :
    Node Op D :=
  { op := some c.copyOp, dict := c.emptyDict, inputs := [e]
    name := (heap[e.node]?).elim "" Node.name ++ "_" ++ toString count ++ "_copy" }

/-- The last loop of `EliminateCommonNodes`, with `unique_outputs`. -/
def insertCopies (c : Registry Op D) :
    List (Node Op D) → List (NodeEntry × ℕ) → List NodeEntry → Graph Op D
  | heap, _, [] => ⟨heap, []⟩
  | heap, unique, e :: outputs =>
    match unique.find? (·.1 = e) with
    | none =>
      let g := insertCopies c heap (unique ++ [(e, 0)]) outputs
      { g with outputs := e :: g.outputs }
    | some (_, count) =>
      let bumped := unique.map fun kv => if kv.1 = e then (kv.1, kv.2 + 1) else kv
      let g := insertCopies c (heap ++ [copyNode c heap e count]) bumped outputs
      { g with outputs := ⟨heap.length, 0, 0⟩ :: g.outputs }

/-- `EliminateCommonNodes`. -/
def eliminateCommonNodes (c : Registry Op D) (g : Graph Op D) (pairs : List (ℕ × ℕ)) :
    Option (Graph Op D) := do
  let g ← pairs.foldlM eliminatePair g
  return insertCopies c g.heap [] g.outputs

/-- `EliminateCommonExpr`, for at most `fuel` rounds of its loop. -/
def eliminateCommonExpr (c : Registry Op D)
    (byAddress : Graph Op D → List (List (ℕ × ℕ) × List ℕ) → List (List (ℕ × ℕ) × List ℕ)) :
    ℕ → Graph Op D → Option (Graph Op D)
  | 0, _ => none
  | fuel + 1, g => do
    let commonNodes ← getCommonNodes c byAddress g
    if commonNodes = [] then return g
    else
      let g ← eliminateCommonNodes c g commonNodes
      eliminateCommonExpr c byAddress fuel g

/-! ## The meaning of a graph -/

section Meaning
variable {V : Type}

/-- What a node computes, from the values of all entries. `env` are the values of the variables. -/
def Node.eval (sem : ℕ → Op → D → List V → ℕ → V) (env val : ℕ → ℕ → V) (n : ℕ)
    (node : Node Op D) : ℕ → V :=
  match node.op with
  | none => env n
  | some op => sem n op node.dict (node.inputs.map fun e => val e.node e.index)

/-- Every node has the value that it computes. -/
def Valuation (sem : ℕ → Op → D → List V → ℕ → V) (env : ℕ → ℕ → V) (heap : List (Node Op D))
    (val : ℕ → ℕ → V) : Prop :=
  ∀ n node, heap[n]? = some node → val n = node.eval sem env val n

/-- The values of the outputs. -/
def Graph.outputValues (g : Graph Op D) (val : ℕ → ℕ → V) : List V :=
  g.outputs.map fun e => val e.node e.index

/-- Nodes with an operator that can be eliminated compute the same. -/
def Functional (c : Registry Op D) (sem : ℕ → Op → D → List V → ℕ → V) : Prop :=
  ∀ op, c.eliminable op = true → ∀ n m dict, sem n op dict = sem m op dict

/-- No entry refers to a node outside the heap, and a variable has no inputs. -/
structure Graph.WellFormed (g : Graph Op D) : Prop where
  inputs : ∀ (n : ℕ) (node : Node Op D), g.heap[n]? = some node →
    ∀ e ∈ node.inputs, e.node < g.heap.length
  outputs : ∀ e ∈ g.outputs, e.node < g.heap.length
  leaves : ∀ node ∈ g.heap, node.op = none → node.inputs = []

/-- The inputs lead down. -/
def Graph.Acyclic (g : Graph Op D) : Prop :=
  ∃ depth : ℕ → ℕ, ∀ (n : ℕ) (node : Node Op D), g.heap[n]? = some node →
    ∀ e ∈ node.inputs, depth e.node < depth n

end Meaning

section Valuation
variable {V : Type} {sem : ℕ → Op → D → List V → ℕ → V} {env val val' : ℕ → ℕ → V}
  {heap heap' : List (Node Op D)} {g : Graph Op D}

omit [DecidableEq Op] [DecidableEq D]

theorem eval_congr {node node' : Node Op D} {n : ℕ} (hop : node'.op = node.op)
    (hdict : node'.dict = node.dict)
    (hinputs : (node'.inputs.map fun e => val' e.node e.index) =
      node.inputs.map fun e => val e.node e.index) :
    node'.eval sem env val' n = node.eval sem env val n := by
  rw [Node.eval, Node.eval, hop, hdict, hinputs]

/-- The values of an acyclic graph are determined. -/
theorem Valuation.unique (hacyclic : g.Acyclic) (hwf : g.WellFormed)
    (h : Valuation sem env g.heap val) (h' : Valuation sem env g.heap val') {n : ℕ}
    (hn : n < g.heap.length) : val n = val' n := by
  obtain ⟨depth, hdepth⟩ := hacyclic
  induction hd : depth n using Nat.strong_induction_on generalizing n with
  | _ d ih =>
    obtain ⟨node, hnode⟩ : ∃ node, g.heap[n]? = some node := ⟨_, List.getElem?_eq_getElem hn⟩
    rw [h n node hnode, h' n node hnode]
    refine eval_congr rfl rfl (List.map_congr_left fun e he => ?_)
    rw [ih (depth e.node) (hd ▸ hdepth n node hnode e he) (hwf.inputs n node hnode e he) rfl]

/-- An acyclic graph has values. -/
theorem exists_valuation [Inhabited V] (hacyclic : g.Acyclic)
    (sem : ℕ → Op → D → List V → ℕ → V) (env : ℕ → ℕ → V) :
    ∃ val, Valuation sem env g.heap val := by
  obtain ⟨depth, hdepth⟩ := hacyclic
  let step : (n : ℕ) → ((m : ℕ) → depth m < depth n → ℕ → V) → ℕ → V := fun n below =>
    match g.heap[n]? with
    | none => default
    | some node => node.eval sem env (fun m => if h : depth m < depth n then below m h else default) n
  have hwf : WellFounded fun n m => depth n < depth m := (measure depth).wf
  refine ⟨hwf.fix step, fun n node hnode => ?_⟩
  rw [hwf.fix_eq]
  simp only [step, hnode]
  refine eval_congr rfl rfl (List.map_congr_left fun e he => ?_)
  rw [dif_pos (hdepth n node hnode e he)]

/-- New nodes that refer to the old ones do not change the old values. -/
theorem Valuation.extend {new : List (Node Op D)} (h : Valuation sem env heap val)
    (hinputs : ∀ node ∈ heap ++ new, ∀ e ∈ node.inputs, e.node < heap.length) :
    ∃ val', Valuation sem env (heap ++ new) val' ∧ ∀ n < heap.length, val' n = val n := by
  refine ⟨fun n => if n < heap.length then val n
    else ((heap ++ new)[n]?).elim (val n) fun node => node.eval sem env val n, ?_,
    fun n hn => if_pos hn⟩
  intro n node hnode
  have heval : node.eval sem env (fun n => if n < heap.length then val n
      else ((heap ++ new)[n]?).elim (val n) fun node => node.eval sem env val n) n =
      node.eval sem env val n := by
    refine eval_congr rfl rfl (List.map_congr_left fun e he => ?_)
    rw [if_pos (hinputs node (List.mem_of_getElem? hnode) e he)]
  rw [heval]
  dsimp only
  split_ifs with hn
  · rw [List.getElem?_append_left hn] at hnode
    exact h n node hnode
  · rw [hnode, Option.elim_some]

end Valuation

/-! ## The pairs -/

section Pairs
variable {c : Registry Op D} {g : Graph Op D}

theorem nodeEqual_iff {n m : Node Op D} : nodeEqual c n m = true ↔
    ∃ op, n.op = some op ∧ m.op = some op ∧ n.dict = m.dict ∧ c.eliminable op = true := by
  unfold nodeEqual
  cases n.op with
  | none => simp
  | some op =>
    cases m.op with
    | none => simp
    | some op' =>
      by_cases hop : op = op'
      · subst hop
        by_cases hdict : n.dict = m.dict <;> simp [hdict]
      · simp [hop, Ne.symm hop]

theorem equalAt_iff {n m : ℕ} : g.equalAt c n m = true ↔
    ∃ node node', g.heap[n]? = some node ∧ g.heap[m]? = some node' ∧
      nodeEqual c node node' = true := by
  unfold Graph.equalAt
  cases g.heap[n]? with
  | none => simp
  | some node =>
    cases g.heap[m]? with
    | none => simp
    | some node' => simp

/-- Two nodes that are equal to a third one are equal. -/
theorem equalAt_euclidean {a b j : ℕ} (ha : g.equalAt c a j = true)
    (hb : g.equalAt c b j = true) : g.equalAt c a b = true := by
  obtain ⟨node, node', hnode, hnode', hequal⟩ := equalAt_iff.mp ha
  obtain ⟨node₁, node₁', hnode₁, hnode₁', hequal₁⟩ := equalAt_iff.mp hb
  obtain rfl := Option.some.inj (hnode'.symm.trans hnode₁')
  obtain ⟨op, hop, hop', hdict, helim⟩ := nodeEqual_iff.mp hequal
  obtain ⟨op₁, hop₁, hop₁', hdict₁, -⟩ := nodeEqual_iff.mp hequal₁
  obtain rfl := Option.some.inj (hop'.symm.trans hop₁')
  exact equalAt_iff.mpr ⟨node, node₁, hnode, hnode₁,
    nodeEqual_iff.mpr ⟨op, hop, hop₁, hdict.trans hdict₁.symm, helim⟩⟩

/-- What the elimination needs of the pairs. No node is replaced twice, and none that replaces
others. -/
structure Pairing (equal : ℕ → ℕ → Bool) (nodes : ℕ → Prop) (pairs : List (ℕ × ℕ)) : Prop where
  src : ∀ p ∈ pairs, nodes p.1
  replaced : ∀ p ∈ pairs, nodes p.2
  equal : ∀ p ∈ pairs, equal p.1 p.2 = true
  nodup : (pairs.map Prod.snd).Nodup
  ne : ∀ p ∈ pairs, ∀ q ∈ pairs, p.1 ≠ q.2

/-- The pairs of a group are about its nodes that are not visited yet. -/
theorem groupPairs_pairing {equal : ℕ → ℕ → Bool}
    (heuclidean : ∀ a b j, equal a j = true → equal b j = true → equal a b = true)
    {visited group : List ℕ} (hnodup : group.Nodup)
    (hvisited : ∀ i ∈ group, ∀ j ∈ group, j ∈ visited → equal i j = true → i ∈ visited) :
    Pairing equal (fun n => n ∈ group ∧ n ∉ visited) (groupPairs equal visited group) := by
  induction group generalizing visited with
  | nil => exact ⟨by simp [groupPairs], by simp [groupPairs], by simp [groupPairs],
      by simp [groupPairs], by simp [groupPairs]⟩
  | cons i group ih =>
    obtain ⟨hi, hnodup⟩ := List.nodup_cons.mp hnodup
    have hrest : ∀ i ∈ group, ∀ j ∈ group, j ∈ visited → equal i j = true → i ∈ visited :=
      fun a ha b hb => hvisited a (List.mem_cons_of_mem _ ha) b (List.mem_cons_of_mem _ hb)
    rw [groupPairs]
    split_ifs with hmem
    · obtain ⟨hsrc, hreplaced, hequal, hsnd, hne⟩ := ih hnodup hrest
      exact ⟨fun p hp => ⟨List.mem_cons_of_mem _ (hsrc p hp).1, (hsrc p hp).2⟩,
        fun p hp => ⟨List.mem_cons_of_mem _ (hreplaced p hp).1, (hreplaced p hp).2⟩, hequal, hsnd,
        hne⟩
    · set found := group.filter (equal i) with hfound
      have hfound_mem : ∀ j, j ∈ found ↔ j ∈ group ∧ equal i j = true := by simp [hfound]
      have hlater : ∀ a ∈ group, ∀ b ∈ group, b ∈ visited ++ found → equal a b = true →
          a ∈ visited ++ found := by
        intro a ha b hb hb' hab
        rcases List.mem_append.mp hb' with hb' | hb'
        · exact List.mem_append_left _ (hrest a ha b hb hb' hab)
        · exact List.mem_append_right _ ((hfound_mem a).mpr
            ⟨ha, heuclidean i a b ((hfound_mem b).mp hb').2 hab⟩)
      obtain ⟨hsrc, hreplaced, hequal, hsnd, hne⟩ := ih hnodup hlater
      have hnew : ∀ j ∈ found, j ∉ visited := fun j hj hv =>
        hmem (hvisited i List.mem_cons_self j (List.mem_cons_of_mem _ ((hfound_mem j).mp hj).1) hv
          ((hfound_mem j).mp hj).2)
      have hnot : ∀ n, n ∉ visited ++ found → n ∉ visited ∧ n ∉ found := by simp
      dsimp only
      refine ⟨fun p hp => ?_, fun p hp => ?_, fun p hp => ?_, ?_, fun p hp q hq => ?_⟩
      · rcases List.mem_append.mp hp with hp | hp
        · obtain ⟨j, -, rfl⟩ := List.mem_map.mp hp
          exact ⟨List.mem_cons_self, hmem⟩
        · exact ⟨List.mem_cons_of_mem _ (hsrc p hp).1, (hnot _ (hsrc p hp).2).1⟩
      · rcases List.mem_append.mp hp with hp | hp
        · obtain ⟨j, hj, rfl⟩ := List.mem_map.mp hp
          exact ⟨List.mem_cons_of_mem _ ((hfound_mem j).mp hj).1, hnew j hj⟩
        · exact ⟨List.mem_cons_of_mem _ (hreplaced p hp).1, (hnot _ (hreplaced p hp).2).1⟩
      · rcases List.mem_append.mp hp with hp | hp
        · obtain ⟨j, hj, rfl⟩ := List.mem_map.mp hp
          exact ((hfound_mem j).mp hj).2
        · exact hequal p hp
      · rw [List.map_append, List.map_map, List.nodup_append]
        refine ⟨?_, hsnd, ?_⟩
        · simpa [Function.comp_def] using hnodup.filter _
        · rintro j hj _ hj' rfl
          obtain ⟨q, hq, rfl⟩ := List.mem_map.mp hj'
          refine (hnot _ (hreplaced q hq).2).2 ?_
          simpa [Function.comp_def] using hj
      · rcases List.mem_append.mp hp with hp | hp <;> rcases List.mem_append.mp hq with hq | hq
        · obtain ⟨j, -, rfl⟩ := List.mem_map.mp hp
          obtain ⟨j', hj', rfl⟩ := List.mem_map.mp hq
          rintro rfl
          exact hi ((hfound_mem i).mp hj').1
        · obtain ⟨j, -, rfl⟩ := List.mem_map.mp hp
          rintro rfl
          exact hi (hreplaced q hq).1
        · obtain ⟨j', hj', rfl⟩ := List.mem_map.mp hq
          rintro rfl
          exact (hnot _ (hsrc p hp).2).2 hj'
        · exact hne p hp q hq

/-- What `grouped_nodes` holds: every key once, with nodes that have these inputs. -/
structure Grouped (key : ℕ → List (ℕ × ℕ)) (order : List ℕ)
    (groups : List (List (ℕ × ℕ) × List ℕ)) : Prop where
  keys : (groups.map Prod.fst).Nodup
  nodup : ∀ k ∈ groups, k.2.Nodup
  mem : ∀ k ∈ groups, ∀ n ∈ k.2, n ∈ order ∧ key n = k.1

theorem mem_insertGroup {key : List (ℕ × ℕ)} {n : ℕ} {groups : List (List (ℕ × ℕ) × List ℕ)}
    {k : List (ℕ × ℕ) × List ℕ} (hk : k ∈ insertGroup key n groups) :
    k ∈ groups ∨ k = (key, [n]) ∨ ∃ group, (key, group) ∈ groups ∧ k = (key, group ++ [n]) := by
  induction groups with
  | nil => exact .inr (.inl (List.mem_singleton.mp hk))
  | cons k' groups ih =>
    obtain ⟨key', group⟩ := k'
    rw [insertGroup] at hk
    split_ifs at hk with heq
    · rcases List.mem_cons.mp hk with rfl | hk
      · subst heq
        exact .inr (.inr ⟨group, List.mem_cons_self, rfl⟩)
      · exact .inl (List.mem_cons_of_mem _ hk)
    · rcases List.mem_cons.mp hk with rfl | hk
      · exact .inl List.mem_cons_self
      · rcases ih hk with hk | hk | ⟨group', hmem, hk⟩
        · exact .inl (List.mem_cons_of_mem _ hk)
        · exact .inr (.inl hk)
        · exact .inr (.inr ⟨group', List.mem_cons_of_mem _ hmem, hk⟩)

theorem keys_insertGroup (key : List (ℕ × ℕ)) (n : ℕ) (groups : List (List (ℕ × ℕ) × List ℕ)) :
    (insertGroup key n groups).map Prod.fst =
      if key ∈ groups.map Prod.fst then groups.map Prod.fst
      else groups.map Prod.fst ++ [key] := by
  induction groups with
  | nil => rfl
  | cons k groups ih =>
    obtain ⟨key', group⟩ := k
    rw [insertGroup]
    by_cases heq : key' = key
    · simp [heq]
    · rw [if_neg heq, List.map_cons, ih]
      simp only [List.map_cons, List.mem_cons, Ne.symm heq, false_or]
      split_ifs <;> rfl

theorem Grouped.insert {key : ℕ → List (ℕ × ℕ)} {order : List ℕ}
    {groups : List (List (ℕ × ℕ) × List ℕ)} (h : Grouped key order groups) {n : ℕ}
    (hn : n ∉ order) : Grouped key (order ++ [n]) (insertGroup (key n) n groups) := by
  have hself : n ∈ order ++ [n] := List.mem_append_right _ List.mem_cons_self
  refine ⟨?_, fun k hk => ?_, fun k hk m hm => ?_⟩
  · rw [keys_insertGroup]
    split_ifs with hmem
    · exact h.keys
    · rw [← List.concat_eq_append, List.nodup_concat]
      exact ⟨hmem, h.keys⟩
  · rcases mem_insertGroup hk with hk | rfl | ⟨group, hgroup, rfl⟩
    · exact h.nodup k hk
    · exact List.nodup_singleton n
    · rw [← List.concat_eq_append, List.nodup_concat]
      exact ⟨fun hmem => hn (h.mem _ hgroup n hmem).1, h.nodup _ hgroup⟩
  · rcases mem_insertGroup hk with hk | rfl | ⟨group, hgroup, rfl⟩
    · exact ⟨List.mem_append_left _ (h.mem k hk m hm).1, (h.mem k hk m hm).2⟩
    · rw [List.mem_singleton.mp hm]
      exact ⟨hself, rfl⟩
    · rcases List.mem_append.mp hm with hm | hm
      · exact ⟨List.mem_append_left _ (h.mem _ hgroup m hm).1, (h.mem _ hgroup m hm).2⟩
      · rw [List.mem_singleton.mp hm]
        exact ⟨hself, rfl⟩

omit [DecidableEq Op] [DecidableEq D] in
theorem groupNodes_grouped {order : List ℕ} (hnodup : order.Nodup) :
    Grouped (fun n => convertInputs (g.inputsOf n)) order (groupNodes g order) := by
  induction order using List.reverseRecOn with
  | nil => exact ⟨List.nodup_nil, by simp [groupNodes], by simp [groupNodes]⟩
  | append_singleton order n ih =>
    rw [← List.concat_eq_append, List.nodup_concat] at hnodup
    have h := ih hnodup.2
    rw [groupNodes, List.foldl_append, List.foldl_cons, List.foldl_nil, ← groupNodes]
    split_ifs
    · exact h.insert hnodup.1
    · exact ⟨h.keys, h.nodup, fun k hk m hm =>
        ⟨List.mem_append_left _ (h.mem k hk m hm).1, (h.mem k hk m hm).2⟩⟩

/-- The pairs of `GetCommonNodes`, whatever the order of the groups is. -/
theorem getCommonNodes_pairing
    {byAddress : Graph Op D → List (List (ℕ × ℕ) × List ℕ) → List (List (ℕ × ℕ) × List ℕ)}
    (hperm : ∀ g groups, (byAddress g groups).Perm groups) {pairs : List (ℕ × ℕ)}
    {order : List ℕ} (hvisit : g.dfsVisit = some order) (hnodup : order.Nodup)
    (hpairs : getCommonNodes c byAddress g = some pairs) :
    Pairing (g.equalAt c) (· ∈ order) pairs ∧
      ∀ p ∈ pairs, convertInputs (g.inputsOf p.1) = convertInputs (g.inputsOf p.2) := by
  have hgroups := groupNodes_grouped (g := g) hnodup
  rw [getCommonNodes, hvisit] at hpairs
  obtain rfl := Option.some.inj hpairs
  set groups := byAddress g (groupNodes g order) with hdef
  have hmem : ∀ k, k ∈ groups ↔ k ∈ groupNodes g order := fun k => (hperm g _).mem_iff
  have hkeys : (groups.map Prod.fst).Nodup := ((hperm g _).map _).nodup_iff.mpr hgroups.keys
  have hpairing : ∀ k ∈ groups, Pairing (g.equalAt c) (fun n => n ∈ k.2 ∧ n ∉ [])
      (groupPairs (g.equalAt c) [] k.2) := by
    intro k hk
    have heuclidean : ∀ a b j, g.equalAt c a j = true → g.equalAt c b j = true →
        g.equalAt c a b = true := fun _ _ _ => equalAt_euclidean
    exact groupPairs_pairing heuclidean (hgroups.nodup k ((hmem k).mp hk)) (by simp)
  have hin : ∀ k ∈ groups, ∀ n ∈ k.2, n ∈ order ∧ convertInputs (g.inputsOf n) = k.1 :=
    fun k hk => hgroups.mem k ((hmem k).mp hk)
  refine ⟨⟨fun p hp => ?_, fun p hp => ?_, fun p hp => ?_, ?_, fun p hp q hq => ?_⟩,
    fun p hp => ?_⟩
  · obtain ⟨k, hk, hp⟩ := List.mem_flatMap.mp hp
    exact (hin k hk _ ((hpairing k hk).src p hp).1).1
  · obtain ⟨k, hk, hp⟩ := List.mem_flatMap.mp hp
    exact (hin k hk _ ((hpairing k hk).replaced p hp).1).1
  · obtain ⟨k, hk, hp⟩ := List.mem_flatMap.mp hp
    exact (hpairing k hk).equal p hp
  · rw [List.map_flatMap, List.nodup_flatMap]
    refine ⟨fun k hk => (hpairing k hk).nodup, ?_⟩
    refine (List.pairwise_map.mp hkeys).imp_of_mem fun {k k'} hk hk' hne n hn hn' => ?_
    obtain ⟨p, hp, rfl⟩ := List.mem_map.mp hn
    obtain ⟨q, hq, hqp⟩ := List.mem_map.mp hn'
    have hkey := (hin k hk _ ((hpairing k hk).replaced p hp).1).2
    have hkey' := (hin k' hk' _ ((hpairing k' hk').replaced q hq).1).2
    exact hne (by rw [← hkey, ← hkey', hqp])
  · obtain ⟨k, hk, hp⟩ := List.mem_flatMap.mp hp
    obtain ⟨k', hk', hq⟩ := List.mem_flatMap.mp hq
    have hsrc := hin k hk _ ((hpairing k hk).src p hp).1
    have hreplaced := hin k' hk' _ ((hpairing k' hk').replaced q hq).1
    intro heq
    -- nodes with the same key are in the same group
    have hsame : k = k' := by
      refine List.inj_on_of_nodup_map hkeys hk hk' ?_
      rw [← hsrc.2, ← hreplaced.2, heq]
    subst hsame
    exact (hpairing k hk).ne p hp q hq heq
  · obtain ⟨k, hk, hp⟩ := List.mem_flatMap.mp hp
    rw [(hin k hk _ ((hpairing k hk).src p hp).1).2,
      (hin k hk _ ((hpairing k hk).replaced p hp).1).2]

end Pairs

/-! ## One round -/

section Round
variable {V : Type} {c : Registry Op D} {g g' : Graph Op D} {p : ℕ × ℕ}
  {sem : ℕ → Op → D → List V → ℕ → V} {env val : ℕ → ℕ → V}

omit [DecidableEq Op] [DecidableEq D]

@[simp] theorem redirect_node {src replaced : ℕ} {e : NodeEntry} :
    (redirect src replaced e).node = if e.node = replaced then src else e.node := by
  rw [redirect]
  split_ifs <;> rfl

@[simp] theorem redirect_index {src replaced : ℕ} {e : NodeEntry} :
    (redirect src replaced e).index = e.index := by
  rw [redirect]
  split_ifs <;> rfl

theorem redirect_of_ne {src replaced : ℕ} {e : NodeEntry} (h : e.node ≠ replaced) :
    redirect src replaced e = e := if_neg h

theorem changeAt_op (order : List ℕ) (n : ℕ) (node : Node Op D) :
    (g.changeAt order p n node).op = node.op ∧ (g.changeAt order p n node).dict = node.dict := by
  rw [Graph.changeAt]
  split_ifs <;> exact ⟨rfl, rfl⟩

theorem changeAt_controlDeps (order : List ℕ) (n : ℕ) {node : Node Op D}
    (h : node.controlDeps = []) : (g.changeAt order p n node).controlDeps = [] := by
  rw [Graph.changeAt]
  split_ifs
  · simp [Node.change, h]
  · exact h

/-- The inputs of the nodes that were visited are redirected. -/
theorem changeAt_inputs (order : List ℕ) {n : ℕ} {node : Node Op D} (hnode : g.heap[n]? = some node) :
    (g.changeAt order p n node).inputs =
      if n ∈ order then node.inputs.map (redirect p.1 p.2) else node.inputs := by
  rw [Graph.changeAt]
  by_cases hn : n ∈ order
  · by_cases hrefers : g.refersTo p.2 n = true
    · rw [if_pos (List.mem_filter.mpr ⟨hn, hrefers⟩), if_pos hn, Node.change]
    · -- a node that does not refer to the replaced one stays as it is
      rw [if_neg fun hmem => hrefers (List.mem_filter.mp hmem).2, if_pos hn]
      refine (List.map_id _).symm.trans (List.map_congr_left fun e he => ?_)
      refine (redirect_of_ne fun heq => hrefers ?_).symm
      simp only [Graph.refersTo, hnode, Option.elim_some, Bool.or_eq_true, List.any_eq_true]
      exact .inr ⟨e, he, decide_eq_true heq⟩
  · rw [if_neg fun hmem => hn (List.mem_filter.mp hmem).1, if_neg hn]

/-- What a pair changes: the outputs, and the inputs of the nodes that were visited. -/
structure Eliminated (g g' : Graph Op D) (p : ℕ × ℕ) (order : List ℕ) : Prop where
  visit : g.dfsVisit = some order
  outputs : g'.outputs = g.outputs.map (redirect p.1 p.2)
  length : g'.heap.length = g.heap.length
  node : ∀ n node', g'.heap[n]? = some node' → ∃ node, g.heap[n]? = some node ∧
    node'.op = node.op ∧ node'.dict = node.dict ∧
      node'.inputs = if n ∈ order then node.inputs.map (redirect p.1 p.2) else node.inputs
  controlDeps : (∀ node ∈ g.heap, node.controlDeps = []) → ∀ node ∈ g'.heap, node.controlDeps = []

theorem eliminatePair_spec (h : eliminatePair g p = some g') : ∃ order, Eliminated g g' p order := by
  simp only [eliminatePair, Option.bind_eq_bind, Option.bind_eq_some_iff] at h
  obtain ⟨order, hvisit, heq⟩ := h
  obtain rfl := Option.some.inj heq
  have hat : ∀ n, (g.heap.mapIdx (g.changeAt order p))[n]? =
      (g.heap[n]?).map (g.changeAt order p n) := fun n => List.getElem?_mapIdx
  refine ⟨order, hvisit, rfl, by simp, fun n node' hnode' => ?_, fun hnone node' hmem => ?_⟩
  · rw [List.getElem?_modify] at hnode'
    obtain ⟨changed, hchanged, rfl⟩ := Option.map_eq_some_iff.mp hnode'
    rw [hat] at hchanged
    obtain ⟨node, hnode, rfl⟩ := Option.map_eq_some_iff.mp hchanged
    obtain ⟨hop, hdict⟩ := changeAt_op (g := g) (p := p) order n node
    have hinputs := changeAt_inputs (p := p) order hnode
    refine ⟨node, hnode, ?_⟩
    split_ifs at hinputs ⊢ <;> exact ⟨hop, hdict, hinputs⟩
  · have hchanged : ∀ (n : ℕ) (node : Node Op D), (g.heap.mapIdx (g.changeAt order p))[n]? = some node →
        node.controlDeps = [] := by
      intro n node hnode
      rw [hat] at hnode
      obtain ⟨old, hold, rfl⟩ := Option.map_eq_some_iff.mp hnode
      exact changeAt_controlDeps order n (hnone old (List.mem_of_getElem? hold))
    have hdeps : ((g.heap.mapIdx (g.changeAt order p))[p.2]?).elim [] Node.controlDeps = [] := by
      cases hreplaced : (g.heap.mapIdx (g.changeAt order p))[p.2]? with
      | none => rfl
      | some node => exact hchanged p.2 node hreplaced
    obtain ⟨n, hn⟩ := List.getElem?_of_mem hmem
    dsimp only at hn
    rw [List.getElem?_modify, hdeps] at hn
    obtain ⟨node, hnode, rfl⟩ := Option.map_eq_some_iff.mp hn
    have := hchanged n node hnode
    split_ifs <;> simpa using this

/-- A pair of nodes with one value does not change any value. -/
theorem Eliminated.valuation {order : List ℕ} (h : Eliminated g g' p order)
    (hval : Valuation sem env g.heap val) (hp : val p.1 = val p.2) :
    Valuation sem env g'.heap val ∧ g'.outputValues val = g.outputValues val := by
  have hredirect : ∀ e : NodeEntry, val (redirect p.1 p.2 e).node (redirect p.1 p.2 e).index =
      val e.node e.index := by
    intro e
    rw [redirect_node, redirect_index]
    split_ifs with heq
    · rw [hp, heq]
    · rfl
  refine ⟨fun n node' hnode' => ?_, ?_⟩
  · obtain ⟨node, hnode, hop, hdict, hinputs⟩ := h.node n node' hnode'
    rw [hval n node hnode]
    refine (eval_congr hop hdict ?_).symm
    rw [hinputs]
    split_ifs
    · rw [List.map_map]
      exact List.map_congr_left fun e _ => hredirect e
    · rfl
  · rw [Graph.outputValues, h.outputs, List.map_map]
    exact List.map_congr_left fun e _ => hredirect e

theorem Eliminated.wellFormed {order : List ℕ} (h : Eliminated g g' p order) (hwf : g.WellFormed)
    (hp : p.1 < g.heap.length) : g'.WellFormed := by
  have hredirect : ∀ e : NodeEntry, e.node < g.heap.length →
      (redirect p.1 p.2 e).node < g'.heap.length := by
    intro e he
    rw [redirect_node, h.length]
    split_ifs
    · exact hp
    · exact he
  refine ⟨fun n node' hnode' e he => ?_, fun e he => ?_, fun node' hmem hop' => ?_⟩
  · obtain ⟨node, hnode, -, -, hinputs⟩ := h.node n node' hnode'
    rw [hinputs] at he
    split_ifs at he
    · obtain ⟨e, hmem, rfl⟩ := List.mem_map.mp he
      exact hredirect e (hwf.inputs n node hnode e hmem)
    · rw [h.length]
      exact hwf.inputs n node hnode e he
  · rw [h.outputs] at he
    obtain ⟨e, hmem, rfl⟩ := List.mem_map.mp he
    exact hredirect e (hwf.outputs e hmem)
  · obtain ⟨n, hn⟩ := List.getElem?_of_mem hmem
    obtain ⟨node, hnode, hop, -, hinputs⟩ := h.node n node' hn
    have hnone := hwf.leaves node (List.mem_of_getElem? hnode) (hop ▸ hop')
    rw [hinputs, hnone]
    split_ifs <;> rfl

/-- The pairs one after another. -/
theorem eliminatePairs_valuation {pairs : List (ℕ × ℕ)} (hval : Valuation sem env g.heap val)
    (hpairs : ∀ p ∈ pairs, val p.1 = val p.2) (h : pairs.foldlM eliminatePair g = some g') :
    Valuation sem env g'.heap val ∧ g'.outputValues val = g.outputValues val := by
  induction pairs generalizing g with
  | nil =>
    obtain rfl := Option.some.inj h
    exact ⟨hval, rfl⟩
  | cons p pairs ih =>
    simp only [List.foldlM_cons, Option.bind_eq_bind, Option.bind_eq_some_iff] at h
    obtain ⟨g₁, hfirst, hrest⟩ := h
    obtain ⟨order, heliminated⟩ := eliminatePair_spec hfirst
    obtain ⟨hval₁, hout₁⟩ := heliminated.valuation hval (hpairs p List.mem_cons_self)
    obtain ⟨hval', hout'⟩ := ih hval₁ (fun q hq => hpairs q (List.mem_cons_of_mem _ hq)) hrest
    exact ⟨hval', hout'.trans hout₁⟩

theorem eliminatePairs_wellFormed {pairs : List (ℕ × ℕ)} (hwf : g.WellFormed)
    (hpairs : ∀ p ∈ pairs, p.1 < g.heap.length) (h : pairs.foldlM eliminatePair g = some g') :
    g'.WellFormed ∧ g'.heap.length = g.heap.length ∧ g'.outputs.length = g.outputs.length := by
  induction pairs generalizing g with
  | nil =>
    obtain rfl := Option.some.inj h
    exact ⟨hwf, rfl, rfl⟩
  | cons p pairs ih =>
    simp only [List.foldlM_cons, Option.bind_eq_bind, Option.bind_eq_some_iff] at h
    obtain ⟨g₁, hfirst, hrest⟩ := h
    obtain ⟨order, heliminated⟩ := eliminatePair_spec hfirst
    have hwf₁ := heliminated.wellFormed hwf (hpairs p List.mem_cons_self)
    obtain ⟨hwf', hlength, houtputs⟩ := ih hwf₁ (fun q hq => by
      rw [heliminated.length]
      exact hpairs q (List.mem_cons_of_mem _ hq)) hrest
    refine ⟨hwf', hlength.trans heliminated.length, houtputs.trans ?_⟩
    rw [heliminated.outputs, List.length_map]

/-- A node that `EliminateCommonNodes` inserts for an output. -/
structure IsCopy (c : Registry Op D) (e : NodeEntry) (node : Node Op D) : Prop where
  op : node.op = some c.copyOp
  dict : node.dict = c.emptyDict
  inputs : node.inputs = [e]
  controlDeps : node.controlDeps = []

/-- An output stays, or it is the copy of an output that stays. -/
structure Copied (c : Registry Op D) (heap : List (Node Op D)) (unique : List NodeEntry)
    (outputs : List NodeEntry) (g : Graph Op D) : Prop where
  appended : ∃ new, g.heap = heap ++ new ∧ ∀ node ∈ new, ∃ e ∈ outputs, IsCopy c e node
  length : g.outputs.length = outputs.length
  output : ∀ (i : ℕ) (e : NodeEntry), outputs[i]? = some e → ∃ e', g.outputs[i]? = some e' ∧
    (e' = e ∨ (heap.length ≤ e'.node ∧ e'.index = 0 ∧
      (∃ node, g.heap[e'.node]? = some node ∧ IsCopy c e node) ∧
        (e ∈ unique ∨ ∃ j < i, outputs[j]? = some e ∧ g.outputs[j]? = some e)))
  fresh : g.heap = heap ∧ g.outputs = outputs ∨
    ∃ (i : ℕ) (e e' : NodeEntry), outputs[i]? = some e ∧ g.outputs[i]? = some e' ∧
      heap.length ≤ e'.node

/-- The first output with an entry stays. -/
theorem Copied.keep {heap : List (Node Op D)} {unique outputs : List NodeEntry} {e : NodeEntry}
    (h : Copied c heap (unique ++ [e]) outputs g) :
    Copied c heap unique (e :: outputs) { g with outputs := e :: g.outputs } where
  appended := by
    obtain ⟨new, hheap, hnew⟩ := h.appended
    refine ⟨new, hheap, fun node hnode => ?_⟩
    obtain ⟨e', he', hcopy⟩ := hnew node hnode
    exact ⟨e', List.mem_cons_of_mem _ he', hcopy⟩
  length := by simp [h.length]
  output i e₁ he₁ := by
    cases i with
    | zero => exact ⟨e, rfl, .inl (Option.some.inj he₁)⟩
    | succ i =>
      obtain ⟨e', he', hcases⟩ := h.output i e₁ he₁
      refine ⟨e', he', hcases.imp_right fun ⟨hle, hindex, hnode, hfirst⟩ =>
        ⟨hle, hindex, hnode, ?_⟩⟩
      rcases hfirst with hmem | ⟨j, hj, hold, hnew⟩
      · rcases List.mem_append.mp hmem with hmem | hmem
        · exact .inl hmem
        · rw [List.mem_singleton.mp hmem]
          exact .inr ⟨0, by omega, rfl, rfl⟩
      · exact .inr ⟨j + 1, by omega, hold, hnew⟩
  fresh := by
    refine h.fresh.imp (fun ⟨hheap, houtputs⟩ => ⟨hheap, by rw [houtputs]⟩) ?_
    rintro ⟨i, e₁, e', he₁, he', hle⟩
    exact ⟨i + 1, e₁, e', he₁, he', hle⟩

theorem Copied.copy {heap : List (Node Op D)} {unique outputs : List NodeEntry} {e : NodeEntry}
    {node : Node Op D} (hnode : IsCopy c e node) (he : e ∈ unique)
    (h : Copied c (heap ++ [node]) unique outputs g) :
    Copied c heap unique (e :: outputs)
      { g with outputs := ⟨heap.length, 0, 0⟩ :: g.outputs } where
  appended := by
    obtain ⟨new, hheap, hnew⟩ := h.appended
    refine ⟨node :: new, by rw [hheap, List.append_assoc, List.singleton_append],
      List.forall_mem_cons.mpr ⟨⟨e, List.mem_cons_self, hnode⟩, fun node' hnode' => ?_⟩⟩
    obtain ⟨e', he', hcopy⟩ := hnew node' hnode'
    exact ⟨e', List.mem_cons_of_mem _ he', hcopy⟩
  length := by simp [h.length]
  output i e₁ he₁ := by
    cases i with
    | zero =>
      obtain rfl := Option.some.inj he₁
      obtain ⟨new, hheap, -⟩ := h.appended
      refine ⟨_, rfl, .inr ⟨le_rfl, rfl, ⟨node, ?_, hnode⟩, .inl he⟩⟩
      simp [hheap]
    | succ i =>
      obtain ⟨e', he', hcases⟩ := h.output i e₁ he₁
      refine ⟨e', he', hcases.imp_right fun ⟨hle, hindex, hnode, hfirst⟩ =>
        ⟨?_, hindex, hnode, ?_⟩⟩
      · rw [List.length_append] at hle
        omega
      · exact hfirst.imp_right fun ⟨j, hj, hold, hnew⟩ => ⟨j + 1, by omega, hold, hnew⟩
  fresh := .inr ⟨0, e, _, rfl, rfl, le_rfl⟩

theorem insertCopies_spec (c : Registry Op D) (heap : List (Node Op D))
    (unique : List (NodeEntry × ℕ)) (outputs : List NodeEntry) :
    Copied c heap (unique.map Prod.fst) outputs (insertCopies c heap unique outputs) := by
  induction outputs generalizing heap unique with
  | nil => exact ⟨⟨[], by simp [insertCopies], by simp⟩, rfl, by simp, .inl ⟨rfl, rfl⟩⟩
  | cons e outputs ih =>
    rw [insertCopies]
    split
    · have h := ih heap (unique ++ [(e, 0)])
      rw [List.map_append] at h
      exact h.keep
    · next key count hfind =>
      have hmem := List.mem_of_find?_eq_some hfind
      have hkey : key = e := by simpa using List.find?_some hfind
      have hfst : (unique.map fun kv => if kv.1 = e then (kv.1, kv.2 + 1) else kv).map Prod.fst =
          unique.map Prod.fst := by
        rw [List.map_map]
        refine List.map_congr_left fun kv _ => ?_
        rw [Function.comp_apply]
        split_ifs <;> rfl
      have h := ih (heap ++ [copyNode c heap e count])
        (unique.map fun kv => if kv.1 = e then (kv.1, kv.2 + 1) else kv)
      rw [hfst] at h
      exact h.copy ⟨rfl, rfl, rfl, rfl⟩ (hkey ▸ List.mem_map_of_mem hmem)

theorem Copied.valuation {outputs : List NodeEntry} (h : Copied c g.heap [] outputs g')
    (hwf : g.WellFormed) (houtputs : ∀ e ∈ outputs, e.node < g.heap.length)
    (hval : Valuation sem env g.heap val) :
    ∃ val', Valuation sem env g'.heap val' ∧ ∀ n < g.heap.length, val' n = val n := by
  obtain ⟨new, hheap, hnew⟩ := h.appended
  rw [hheap]
  refine hval.extend fun node hnode e he => ?_
  rcases List.mem_append.mp hnode with hnode | hnode
  · obtain ⟨n, hn⟩ := List.getElem?_of_mem hnode
    exact hwf.inputs n node hn e he
  · obtain ⟨e', he', hcopy⟩ := hnew node hnode
    rw [hcopy.inputs, List.mem_singleton] at he
    exact he ▸ houtputs e' he'

theorem Copied.wellFormed (h : Copied c g.heap [] g.outputs g') (hwf : g.WellFormed) :
    g'.WellFormed := by
  obtain ⟨new, hheap, hnew⟩ := h.appended
  have hle : g.heap.length ≤ g'.heap.length := by simp [hheap]
  refine ⟨fun n node hnode e he => ?_, fun e' he' => ?_, fun node hnode hop => ?_⟩
  · refine lt_of_lt_of_le ?_ hle
    rcases List.mem_append.mp (hheap ▸ List.mem_of_getElem? hnode) with hnode | hnode
    · obtain ⟨n, hn⟩ := List.getElem?_of_mem hnode
      exact hwf.inputs n node hn e he
    · obtain ⟨e', he', hcopy⟩ := hnew node hnode
      rw [hcopy.inputs, List.mem_singleton] at he
      exact he ▸ hwf.outputs e' he'
  · obtain ⟨i, hi⟩ := List.getElem?_of_mem he'
    have hlt := (List.getElem?_eq_some_iff.mp hi).1
    rw [h.length] at hlt
    obtain ⟨e₁, he₁, hcases⟩ := h.output i _ (List.getElem?_eq_getElem hlt)
    obtain rfl := Option.some.inj (hi.symm.trans he₁)
    rcases hcases with rfl | ⟨-, -, ⟨node, hnode, -⟩, -⟩
    · exact lt_of_lt_of_le (hwf.outputs _ (List.getElem_mem hlt)) hle
    · exact (List.getElem?_eq_some_iff.mp hnode).1
  · rcases List.mem_append.mp (hheap ▸ hnode) with hnode | hnode
    · exact hwf.leaves node hnode hop
    · obtain ⟨e, -, hcopy⟩ := hnew node hnode
      simp [hcopy.op] at hop

/-- A copy has the value of its output. -/
theorem Copied.outputValues (h : Copied c g.heap [] g.outputs g') (hwf : g.WellFormed)
    (hcopy : ∀ n x, sem n c.copyOp c.emptyDict [x] 0 = x) {val' : ℕ → ℕ → V}
    (hval' : Valuation sem env g'.heap val') (hold : ∀ n < g.heap.length, val' n = val n) :
    g'.outputValues val' = g.outputValues val := by
  refine List.ext_getElem? fun i => ?_
  simp only [Graph.outputValues, List.getElem?_map]
  cases he : g.outputs[i]? with
  | none =>
    have hnone : g'.outputs[i]? = none := by
      rw [List.getElem?_eq_none_iff, h.length]
      exact List.getElem?_eq_none_iff.mp he
    rw [hnone]
    rfl
  | some e =>
    have hlt := hwf.outputs e (List.mem_of_getElem? he)
    obtain ⟨e', he', rfl | ⟨-, hindex, ⟨node, hnode, hnode'⟩, -⟩⟩ := h.output i e he
    · rw [he', Option.map_some, Option.map_some, hold _ hlt]
    · rw [he', Option.map_some, Option.map_some, hindex, hval' _ node hnode, Node.eval, hnode'.op,
        hnode'.dict, hnode'.inputs]
      simp only [List.map_cons, List.map_nil, hcopy, hold _ hlt]

end Round

section Preservation
variable {V : Type} {c : Registry Op D} {g g' : Graph Op D} {pairs : List (ℕ × ℕ)}
  {byAddress : Graph Op D → List (List (ℕ × ℕ) × List ℕ) → List (List (ℕ × ℕ) × List ℕ)}
  {sem : ℕ → Op → D → List V → ℕ → V} {env val : ℕ → ℕ → V}

/-- The nodes of a pair compute the same. -/
theorem pair_val_eq (hfunctional : Functional c sem) (hval : Valuation sem env g.heap val)
    {p : ℕ × ℕ} (hequal : g.equalAt c p.1 p.2 = true)
    (hinputs : convertInputs (g.inputsOf p.1) = convertInputs (g.inputsOf p.2)) :
    val p.1 = val p.2 := by
  obtain ⟨node, node', hnode, hnode', hequal⟩ := equalAt_iff.mp hequal
  obtain ⟨op, hop, hop', hdict, helim⟩ := nodeEqual_iff.mp hequal
  rw [Graph.inputsOf, Graph.inputsOf, hnode, hnode', Option.elim_some, Option.elim_some] at hinputs
  have hmap : ∀ inputs : List NodeEntry, (inputs.map fun e => val e.node e.index) =
      (convertInputs inputs).map fun e => val e.1 e.2 := by
    intro inputs
    rw [convertInputs, List.map_map]
    rfl
  rw [hval p.1 node hnode, hval p.2 node' hnode', Node.eval, Node.eval, hop, hop', hmap, hmap,
    hinputs, hdict]
  dsimp only
  rw [hfunctional op helim p.1 p.2]

/-- What `GetCommonNodes` gives, if it gives something. -/
theorem getCommonNodes_spec (hperm : ∀ g groups, (byAddress g groups).Perm groups)
    (hpairs : getCommonNodes c byAddress g = some pairs) :
    ∃ order, g.dfsVisit = some order ∧ order.Nodup ∧ Pairing (g.equalAt c) (· ∈ order) pairs ∧
      ∀ p ∈ pairs, convertInputs (g.inputsOf p.1) = convertInputs (g.inputsOf p.2) := by
  obtain ⟨order, hvisit, -⟩ := Option.bind_eq_some_iff.mp hpairs
  have hnodup := (DFSVisit.postOrderDFSVisit_closed (P := fun _ => True) hvisit
    (fun _ _ => trivial) fun _ _ _ _ => trivial).1
  exact ⟨order, hvisit, hnodup, getCommonNodes_pairing hperm hvisit hnodup hpairs⟩

/-- One round of the loop. -/
theorem round_spec (hperm : ∀ g groups, (byAddress g groups).Perm groups) (hwf : g.WellFormed)
    (hpairs : getCommonNodes c byAddress g = some pairs)
    (hround : eliminateCommonNodes c g pairs = some g') : ∃ g₁ : Graph Op D,
      g₁.WellFormed ∧ g₁.heap.length = g.heap.length ∧ pairs.foldlM eliminatePair g = some g₁ ∧
      Copied c g₁.heap [] g₁.outputs g' ∧ g'.WellFormed ∧
      ∀ {V : Type} (sem : ℕ → Op → D → List V → ℕ → V) (env val : ℕ → ℕ → V), Functional c sem →
        Valuation sem env g.heap val →
          Valuation sem env g₁.heap val ∧ g₁.outputValues val = g.outputValues val := by
  obtain ⟨g₁, hfold, heq⟩ := Option.bind_eq_some_iff.mp hround
  obtain rfl := Option.some.inj heq
  obtain ⟨order, -, -, hpairing, hinputs⟩ := getCommonNodes_spec hperm hpairs
  have hlt : ∀ p ∈ pairs, p.1 < g.heap.length := by
    intro p hp
    obtain ⟨node, -, hnode, -⟩ := equalAt_iff.mp (hpairing.equal p hp)
    exact (List.getElem?_eq_some_iff.mp hnode).1
  obtain ⟨hwf₁, hlength, -⟩ := eliminatePairs_wellFormed hwf hlt hfold
  have hcopied := insertCopies_spec c g₁.heap [] g₁.outputs
  refine ⟨g₁, hwf₁, hlength, hfold, hcopied, hcopied.wellFormed hwf₁, ?_⟩
  intro V sem env val hfunctional hval
  exact eliminatePairs_valuation hval
    (fun p hp => pair_val_eq hfunctional hval (hpairing.equal p hp) (hinputs p hp)) hfold

/-- The depth of the nodes is a meaning of the graph. -/
def depthSem : ℕ → Op → D → List ℕ → ℕ → ℕ := fun _ _ _ vals _ => vals.foldr max 0 + 1

omit [DecidableEq Op] [DecidableEq D] in
theorem depthSem_functional (c : Registry Op D) : Functional c depthSem := fun _ _ _ _ _ => rfl

theorem le_foldr_max {l : List ℕ} {a : ℕ} (ha : a ∈ l) : a ≤ l.foldr max 0 := by
  induction l with
  | nil => cases ha
  | cons b l ih =>
    rw [List.foldr_cons]
    rcases List.mem_cons.mp ha with rfl | ha
    · exact le_max_left _ _
    · exact (ih ha).trans (le_max_right _ _)

omit [DecidableEq Op] [DecidableEq D] in
/-- The entries of a node have one depth. -/
theorem depth_index {heap : List (Node Op D)} {depth : ℕ → ℕ → ℕ}
    (h : Valuation depthSem (fun _ _ => 0) heap depth) {n : ℕ} (hn : n < heap.length) (i : ℕ) :
    depth n i = depth n 0 := by
  rw [h n _ (List.getElem?_eq_getElem hn), Node.eval]
  cases heap[n].op <;> rfl

omit [DecidableEq Op] [DecidableEq D] in
theorem depth_lt (hwf : g.WellFormed) {depth : ℕ → ℕ → ℕ}
    (h : Valuation depthSem (fun _ _ => 0) g.heap depth) {n : ℕ} {node : Node Op D}
    (hnode : g.heap[n]? = some node) {e : NodeEntry} (he : e ∈ node.inputs) :
    depth e.node 0 < depth n 0 := by
  have hle : depth e.node e.index ≤
      (node.inputs.map fun e => depth e.node e.index).foldr max 0 :=
    le_foldr_max (List.mem_map_of_mem he)
  rw [depth_index h (hwf.inputs n node hnode e he)] at hle
  cases hop : node.op with
  | none =>
    rw [hwf.leaves node (List.mem_of_getElem? hnode) hop] at he
    cases he
  | some op =>
    have hdepth : depth n 0 = (node.inputs.map fun e => depth e.node e.index).foldr max 0 + 1 := by
      rw [h n node hnode, Node.eval, hop]
      rfl
    omega

/-- A round keeps the graph acyclic: nodes that compute the same have the same depth. -/
theorem round_acyclic (hperm : ∀ g groups, (byAddress g groups).Perm groups) (hwf : g.WellFormed)
    (hacyclic : g.Acyclic) (hpairs : getCommonNodes c byAddress g = some pairs)
    (hround : eliminateCommonNodes c g pairs = some g') : g'.Acyclic := by
  obtain ⟨g₁, hwf₁, -, -, hcopied, hwf', hkeep⟩ := round_spec hperm hwf hpairs hround
  obtain ⟨depth, hdepth⟩ := exists_valuation hacyclic depthSem fun _ _ => 0
  obtain ⟨hdepth₁, -⟩ := hkeep depthSem _ depth (depthSem_functional c) hdepth
  obtain ⟨depth', hdepth', -⟩ := hcopied.valuation hwf₁ hwf₁.outputs hdepth₁
  exact ⟨fun n => depth' n 0, fun n node hnode e he => depth_lt hwf' hdepth' hnode he⟩

/-- The loop takes rounds until there are no pairs. -/
theorem eliminateCommonExpr_succ {fuel : ℕ}
    (hrun : eliminateCommonExpr c byAddress (fuel + 1) g = some g') :
    ∃ pairs, getCommonNodes c byAddress g = some pairs ∧
      (g' = g ∨ ∃ g₂, eliminateCommonNodes c g pairs = some g₂ ∧
        eliminateCommonExpr c byAddress fuel g₂ = some g') := by
  obtain ⟨pairs, hpairs, hrun⟩ := Option.bind_eq_some_iff.mp hrun
  split_ifs at hrun
  · exact ⟨pairs, hpairs, .inl (Option.some.inj hrun).symm⟩
  · obtain ⟨g₂, hround, hrest⟩ := Option.bind_eq_some_iff.mp hrun
    exact ⟨pairs, hpairs, .inr ⟨g₂, hround, hrest⟩⟩

theorem eliminateCommonExpr_wellFormed (hperm : ∀ g groups, (byAddress g groups).Perm groups)
    {fuel : ℕ} (hwf : g.WellFormed) (hacyclic : g.Acyclic)
    (hrun : eliminateCommonExpr c byAddress fuel g = some g') : g'.WellFormed ∧ g'.Acyclic := by
  induction fuel generalizing g with
  | zero => cases hrun
  | succ fuel ih =>
    obtain ⟨pairs, hpairs, rfl | ⟨g₂, hround, hrest⟩⟩ := eliminateCommonExpr_succ hrun
    · exact ⟨hwf, hacyclic⟩
    · obtain ⟨-, -, -, -, -, hwf₂, -⟩ := round_spec hperm hwf hpairs hround
      exact ih hwf₂ (round_acyclic hperm hwf hacyclic hpairs hround) hrest

/-- However often the loop goes round, the outputs keep their values. -/
theorem eliminateCommonExpr_values (hperm : ∀ g groups, (byAddress g groups).Perm groups)
    {fuel : ℕ} (hwf : g.WellFormed) (hrun : eliminateCommonExpr c byAddress fuel g = some g')
    (hfunctional : Functional c sem) (hcopy : ∀ n x, sem n c.copyOp c.emptyDict [x] 0 = x)
    (hval : Valuation sem env g.heap val) :
    ∃ val', Valuation sem env g'.heap val' ∧ g'.outputValues val' = g.outputValues val := by
  induction fuel generalizing g val with
  | zero => cases hrun
  | succ fuel ih =>
    obtain ⟨pairs, hpairs, rfl | ⟨g₂, hround, hrest⟩⟩ := eliminateCommonExpr_succ hrun
    · exact ⟨val, hval, rfl⟩
    · obtain ⟨g₁, hwf₁, -, -, hcopied, hwf₂, hkeep⟩ := round_spec hperm hwf hpairs hround
      obtain ⟨hval₁, houtputs₁⟩ := hkeep sem env val hfunctional hval
      obtain ⟨val₂, hval₂, hold⟩ := hcopied.valuation hwf₁ hwf₁.outputs hval₁
      have houtputs₂ := hcopied.outputValues hwf₁ hcopy hval₂ hold
      obtain ⟨val', hval', houtputs'⟩ := ih hwf₂ hrest hval₂
      exact ⟨val', hval', houtputs'.trans (houtputs₂.trans houtputs₁)⟩

end Preservation

end CommonExpr
end NetStorm

import NetStorm.SaveLoadJson

/-!
# Saving and loading a symbol

`SaveJSON` and `LoadJSON` of nnvm, on the side of the symbol. `Symbol2JSONGraph` numbers the nodes
below the outputs as `DFSVisit` visits them, and `JSONGraph2Symbol` makes a new node for every
number. The loaded symbol has the structure of the saved one, and so have its subgraphs. A variable
gets the parsed attributes of a new one, so its version is 0 again, whatever operators have mutated
it before. A node is its position in the heap. An attribute parser looks at the name and the
attributes of a node only, not at its subgraphs, and sets its parsed attributes only.
-/
namespace NetStorm
namespace SaveLoadJson
open Json
open CommonExpr (NodeEntry)
open RoundTrip (ok_bind)

/-- `Node`, with its `NodeAttrs`. The operator of a variable is null. -/
structure Node (Op P : Type) where
  op : Option Op
  name : String
  dict : Std.ExtTreeMap String String
  parsed : Option P
  subgraphs : List (List NodeEntry)
  inputs : List NodeEntry
  controlDeps : List ℕ

/-- What operators do with attributes: `attr_parser`, which may be null, `num_outputs`, and the
parsed attributes that `CreateVariable` gives, a `VariableParam` of version 0. -/
structure Parsers (Op P : Type) where
  attrParser : Op → Option (String → Std.ExtTreeMap String String → Except String P)
  numOutputs : Op → String → Std.ExtTreeMap String String → ℕ
  variableParam : P

variable {Op P G : Type}

/-- The parsed attributes that `JSONGraph2Symbol` rebuilds. -/
def Parsers.parse (q : Parsers Op P) (op : Option Op) (name : String)
    (dict : Std.ExtTreeMap String String) : Except String (Option P) :=
  match op with
  | none => .ok (some q.variableParam)
  | some op =>
    match q.attrParser op with
    | none => .ok none
    | some parser => (parser name dict).map some

/-- The parsed attributes of a node when it is loaded again: those of a variable are new. -/
def Parsers.reloaded (q : Parsers Op P) (node : Node Op P) : Option P :=
  if node.op.isNone then some q.variableParam else node.parsed

/-- `Node::num_outputs`. -/
def Parsers.outputs (q : Parsers Op P) (node : Node Op P) : ℕ :=
  node.op.elim 1 fun op => q.numOutputs op node.name node.dict

/-- What `DFSVisit` looks at below a node. -/
def children (heap : List (Node Op P)) (p : ℕ) : List ℕ :=
  (heap[p]?).elim [] fun node => node.inputs.map NodeEntry.node ++ node.controlDeps

/-- `DFSVisit` from the outputs of a symbol. -/
def dfsVisit (heap : List (Node Op P)) (outputs : List NodeEntry) : Option (List ℕ) :=
  DFSVisit.postOrderDFSVisit (children heap)
    (∑ p ∈ Finset.range heap.length, ((children heap p).length + 1)) (outputs.map NodeEntry.node)

/-- `node2index.at`, when these nodes were visited. -/
def indexAt (visited : List ℕ) (p : ℕ) : Except String ℕ :=
  if p ∈ visited then .ok (visited.idxOf p % 2 ^ 32) else .error "unordered_map::at"

/-- The entry of a JSON graph for an entry of the symbol. -/
def entryAt (visited : List ℕ) (e : NodeEntry) : Except String Entry :=
  (indexAt visited e.node).map fun id => ⟨id, e.index, e.version⟩

/-- The function that `Symbol2JSONGraph` gives to `DFSVisit`. -/
def visitNode (q : Parsers Op P) (heap : List (Node Op P)) (s : List ℕ × JSONGraphOf Op G) (p : ℕ) :
    Except String (List ℕ × JSONGraphOf Op G) :=
  match heap[p]? with
  | none => .error "a dangling pointer"
  | some node => do
    let visited := s.1 ++ [p]
    let inputs ← node.inputs.mapM (entryAt visited)
    let controlDeps ← node.controlDeps.mapM (indexAt visited)
    return (visited, { s.2 with
      nodes := s.2.nodes ++ [⟨node.op, node.name, node.dict, inputs, controlDeps, []⟩]
      argNodes := if node.op.isNone then s.2.argNodes ++ [s.2.nodes.length % 2 ^ 32] else s.2.argNodes
      nodeRowPtr := s.2.nodeRowPtr ++ [(s.2.nodeRowPtr.getLastD 0 + q.outputs node) % 2 ^ 32] })

/-- The subgraphs of a node. -/
def subgraphsOf (heap : List (Node Op P)) (p : ℕ) : List (List NodeEntry) :=
  (heap[p]?).elim [] Node.subgraphs

/-- `Symbol2JSONGraph`. `save` is the recursive call for a subgraph. -/
def symbol2JSONGraphOf (q : Parsers Op P) (heap : List (Node Op P))
    (save : List NodeEntry → Except String G) (outputs : List NodeEntry) :
    Except String (JSONGraphOf Op G) :=
  match dfsVisit heap outputs with
  | none => .error "the visit does not end"
  | some order => do
    let (visited, g) ← order.foldlM (visitNode (G := G) q heap) ([], ⟨[], [], [0], [], ∅⟩)
    let heads ← outputs.mapM (entryAt visited)
    let nodes ← (order.zip g.nodes).mapM fun pn => do
      let subgraphs ← (subgraphsOf heap pn.1).mapM save
      return { pn.2 with subgraphs := subgraphs }
    return { g with nodes := nodes, heads := heads }

/-- `Symbol2JSONGraph`, for subgraphs that are nested less than `n` deep. -/
def symbol2JSONGraph (q : Parsers Op P) (heap : List (Node Op P)) :
    (n : ℕ) → List NodeEntry → Except String (JSONGraph Op n)
  | 0, _ => .error "the subgraphs are nested too deep"
  | n + 1, outputs => symbol2JSONGraphOf q heap (symbol2JSONGraph q heap n) outputs

/-- The node of a number, behind the check of its range. -/
def nodeAt (base count id : ℕ) : Except String ℕ :=
  if id < count then .ok (base + id) else .error "Check failed: nid < jgraph.nodes.size()"

/-- The entry of a new symbol. -/
def nodeEntryAt (base count : ℕ) (e : Entry) : Except String NodeEntry :=
  (nodeAt base count e.nodeId).map fun p => ⟨p, e.index, e.version⟩

/-- The loop over the subgraphs of a node. `load` is the recursive call. -/
def loadSubgraphs (load : G → List (Node Op P) → Except String (List NodeEntry × List (Node Op P))) :
    List G → List (Node Op P) → Except String (List (List NodeEntry) × List (Node Op P))
  | [], heap => .ok ([], heap)
  | g :: gs, heap => do
    let (outputs, heap) ← load g heap
    let (subgraphs, heap) ← loadSubgraphs load gs heap
    return (outputs :: subgraphs, heap)

/-- The first loop of `JSONGraph2Symbol`, from the node number `i` on. -/
def rebuildNodes (q : Parsers Op P)
    (load : G → List (Node Op P) → Except String (List NodeEntry × List (Node Op P)))
    (noParse : Bool) (base count : ℕ) :
    ℕ → List (JSONNode Op G) → List (Node Op P) → Except String (List (Node Op P))
  | _, [], heap => .ok heap
  | i, n :: nodes, heap => do
    let inputs ← n.inputs.mapM (nodeEntryAt base count)
    let controlDeps ← n.controlDeps.mapM (nodeAt base count)
    let (subgraphs, heap) ← loadSubgraphs load n.subgraphs heap
    let parsed ← (if noParse then .ok none else q.parse n.op n.name n.dict)
    rebuildNodes q load noParse base count (i + 1) nodes
      (heap.set (base + i) ⟨n.op, n.name, n.dict, parsed, subgraphs, inputs, controlDeps⟩)

/-- `JSONGraph2Symbol`. `JSONNode::Load` has made the nodes, without what refers to others. -/
def jsonGraph2Symbol (q : Parsers Op P) : (n : ℕ) → Bool → JSONGraph Op n → List (Node Op P) →
    Except String (List NodeEntry × List (Node Op P))
  | 0, _, g, _ => Empty.elim g
  | n + 1, noParse, (g : JSONGraphOf Op (JSONGraph Op n)), heap => do
    let base := heap.length
    let count := g.nodes.length
    let heap ← rebuildNodes q (jsonGraph2Symbol q n false) noParse base count 0 g.nodes
      (heap ++ g.nodes.map fun n => ⟨n.op, n.name, n.dict, none, [], [], []⟩)
    if g.argNodes.all fun nid => (g.nodes[nid]?).any fun n => n.op.isNone then
      let outputs ← g.heads.mapM (nodeEntryAt base count)
      return (outputs, heap)
    else .error "Check failed: jgraph.nodes[nid].node->is_variable()"

/-! ## Symbols of the same structure -/

/-- The nodes below the outputs. -/
inductive Below (heap : List (Node Op P)) (outputs : List NodeEntry) : ℕ → Prop
  | output {e : NodeEntry} : e ∈ outputs → Below heap outputs e.node
  | child {p c : ℕ} : Below heap outputs p → c ∈ children heap p → Below heap outputs c

/-- An entry with its node mapped. -/
def moveEntry (f : ℕ → ℕ) (e : NodeEntry) : NodeEntry := { e with node := f e.node }

/-- The nodes correspond one to one, with all they hold; the subgraphs do so again. The parsed
attributes of variables are new, and without the parser they are empty. -/
def SameSymbol (q : Parsers Op P) (heap heap' : List (Node Op P)) :
    ℕ → Bool → List NodeEntry → List NodeEntry → Prop
  | 0, _, _, _ => False
  | n + 1, noParse, outputs, outputs' => ∃ f : ℕ → ℕ,
      Set.InjOn f {p | Below heap outputs p} ∧ outputs' = outputs.map (moveEntry f) ∧
      ∀ p, Below heap outputs p → ∃ node node', heap[p]? = some node ∧ heap'[f p]? = some node' ∧
        node'.op = node.op ∧ node'.name = node.name ∧ node'.dict = node.dict ∧
        node'.parsed = (if noParse then none else q.reloaded node) ∧
        node'.inputs = node.inputs.map (moveEntry f) ∧ node'.controlDeps = node.controlDeps.map f ∧
        List.Forall₂ (SameSymbol q heap heap' n false) node.subgraphs node'.subgraphs

/-! ## The numbers of the nodes -/

theorem mapM_exists {α β ε : Type} {k : α → Except ε β} {R : α → β → Prop} {l : List α}
    (h : ∀ a ∈ l, ∃ b, k a = .ok b ∧ R a b) : ∃ bs, l.mapM k = .ok bs ∧ List.Forall₂ R l bs := by
  induction l with
  | nil => exact ⟨[], rfl, List.Forall₂.nil⟩
  | cons a l ih =>
    obtain ⟨b, hb, hR⟩ := h a List.mem_cons_self
    obtain ⟨bs, hbs, hRs⟩ := ih fun a ha => h a (List.mem_cons_of_mem _ ha)
    exact ⟨b :: bs, by rw [List.mapM_cons, hb, hbs]; rfl, List.Forall₂.cons hR hRs⟩

theorem mapM_map_ok {α β γ ε : Type} {m : α → γ} {k : γ → Except ε β} {g : α → β} {l : List α}
    (h : ∀ a ∈ l, k (m a) = .ok (g a)) : (l.map m).mapM k = .ok (l.map g) := by
  induction l with
  | nil => rfl
  | cons a l ih =>
    rw [List.map_cons, List.mapM_cons, h a List.mem_cons_self,
      ih fun a ha => h a (List.mem_cons_of_mem _ ha)]
    rfl

theorem mapM_ok {α β ε : Type} {k : α → Except ε β} {g : α → β} {l : List α}
    (h : ∀ a ∈ l, k a = .ok (g a)) : l.mapM k = .ok (l.map g) := by
  simpa using mapM_map_ok (m := id) h

/-- The entry with the number of its node. -/
def entryOf (order : List ℕ) (e : NodeEntry) : Entry := ⟨order.idxOf e.node, e.index, e.version⟩

/-- The node of the JSON graph for a node of the symbol, but for its subgraphs. -/
def Numbered (heap : List (Node Op P)) (order : List ℕ) (p : ℕ) (n : JSONNode Op G) : Prop :=
  ∃ node, heap[p]? = some node ∧ (∀ c ∈ children heap p, c ∈ order) ∧ n.op = node.op ∧
    n.name = node.name ∧ n.dict = node.dict ∧ n.inputs = node.inputs.map (entryOf order) ∧
    n.controlDeps = node.controlDeps.map order.idxOf

/-- What the visit of the first nodes has built. -/
structure Visited (heap : List (Node Op P)) (order visited : List ℕ) (g : JSONGraphOf Op G) : Prop where
  nodes : List.Forall₂ (Numbered heap order) visited g.nodes
  argNodes : ∀ d ∈ g.argNodes, ∃ n, g.nodes[d]? = some n ∧ n.op = none
  nodeRowPtr : ∀ d ∈ g.nodeRowPtr, d < 2 ^ 32
  attrs : g.attrs = ∅

variable {heap : List (Node Op P)} {order visited rest : List ℕ} {q : Parsers Op P}

theorem indexAt_start (horder : order = visited ++ rest) (hlen : order.length < 2 ^ 32) {p : ℕ}
    (hp : p ∈ visited) : indexAt visited p = .ok (order.idxOf p) := by
  have hidx : visited.idxOf p = order.idxOf p := by
    rw [horder, List.idxOf_append_of_mem hp]
  have hlt : visited.idxOf p < 2 ^ 32 := by
    have hlt := List.idxOf_lt_length_of_mem hp
    have hle : visited.length ≤ order.length := by simp [horder]
    omega
  rw [indexAt, if_pos hp, Nat.mod_eq_of_lt hlt, hidx]

theorem entryAt_start (horder : order = visited ++ rest) (hlen : order.length < 2 ^ 32) {e : NodeEntry}
    (he : e.node ∈ visited) : entryAt visited e = .ok (entryOf order e) := by
  rw [entryAt, indexAt_start horder hlen he]
  rfl

theorem mem_children {p : ℕ} {node : Node Op P} (hp : heap[p]? = some node) {c : ℕ} :
    c ∈ children heap p ↔ (∃ e ∈ node.inputs, e.node = c) ∨ c ∈ node.controlDeps := by
  simp [children, hp]

/-- One call of the visiting function. -/
theorem visitNode_spec (hsorted : DFSVisit.TopoSorted (children heap) order)
    (hin : ∀ p ∈ order, p < heap.length) (hlen : order.length < 2 ^ 32) {p : ℕ}
    (horder : order = visited ++ p :: rest) {g : JSONGraphOf Op G} (hg : Visited heap order visited g) :
    ∃ g', visitNode q heap (visited, g) p = .ok (visited ++ [p], g') ∧
      Visited heap order (visited ++ [p]) g' := by
  have hp : p < heap.length := hin p (by simp [horder])
  have hnode : heap[p]? = some heap[p] := List.getElem?_eq_getElem hp
  have hbelow : ∀ c ∈ children heap p, c ∈ visited := hsorted visited p rest horder
  have hsplit : order = (visited ++ [p]) ++ rest := by simp [horder]
  have hinputs : heap[p].inputs.mapM (entryAt (visited ++ [p])) =
      .ok (heap[p].inputs.map (entryOf order)) := mapM_ok fun e he =>
    entryAt_start hsplit hlen (List.mem_append_left _
      (hbelow _ ((mem_children hnode).mpr (Or.inl ⟨e, he, rfl⟩))))
  have hdeps : heap[p].controlDeps.mapM (indexAt (visited ++ [p])) =
      .ok (heap[p].controlDeps.map order.idxOf) := mapM_ok fun d hd =>
    indexAt_start hsplit hlen (List.mem_append_left _
      (hbelow _ ((mem_children hnode).mpr (Or.inr hd))))
  refine ⟨_, by rw [visitNode, hnode]; simp only [hinputs, hdeps, ok_bind]; rfl, ?_⟩
  have hlength : g.nodes.length = visited.length := hg.nodes.length_eq.symm
  have hsmall : g.nodes.length % 2 ^ 32 = g.nodes.length := by
    have hle : visited.length < order.length := by simp [horder]
    exact Nat.mod_eq_of_lt (by omega)
  constructor
  · apply List.rel_append hg.nodes
    refine List.Forall₂.cons ⟨heap[p], hnode, fun c hc => ?_, rfl, rfl, rfl, rfl, rfl⟩ List.Forall₂.nil
    rw [horder]
    exact List.mem_append_left _ (hbelow c hc)
  · intro d hd
    have hold : ∀ d ∈ g.argNodes, ∃ n, (g.nodes ++ [(⟨heap[p].op, heap[p].name, heap[p].dict,
        heap[p].inputs.map (entryOf order), heap[p].controlDeps.map order.idxOf, []⟩ :
          JSONNode Op G)])[d]? = some n ∧ n.op = none := by
      intro d hd
      obtain ⟨n, hn, hop⟩ := hg.argNodes d hd
      exact ⟨n, by rw [List.getElem?_append_left (List.getElem?_eq_some_iff.mp hn).1, hn], hop⟩
    dsimp only at hd
    split_ifs at hd with hop
    · rcases List.mem_append.mp hd with hd | hd
      · exact hold d hd
      · rw [hsmall] at hd
        obtain rfl := List.mem_singleton.mp hd
        exact ⟨⟨heap[p].op, heap[p].name, heap[p].dict, heap[p].inputs.map (entryOf order),
          heap[p].controlDeps.map order.idxOf, []⟩, by simp, by simpa using hop⟩
    · exact hold d hd
  · intro d hd
    rcases List.mem_append.mp hd with hd | hd
    · exact hg.nodeRowPtr d hd
    · rw [List.mem_singleton.mp hd]
      exact Nat.mod_lt _ (by decide)
  · exact hg.attrs

theorem foldlM_visitNode_spec (hsorted : DFSVisit.TopoSorted (children heap) order)
    (hin : ∀ p ∈ order, p < heap.length) (hlen : order.length < 2 ^ 32)
    (horder : order = visited ++ rest) {g : JSONGraphOf Op G} (hg : Visited heap order visited g) :
    ∃ g', rest.foldlM (visitNode q heap) (visited, g) = .ok (order, g') ∧
      Visited heap order order g' := by
  induction rest generalizing visited g with
  | nil =>
    rw [List.append_nil] at horder
    exact ⟨g, by rw [horder]; rfl, by rwa [← horder] at hg⟩
  | cons p rest ih =>
    obtain ⟨g₁, hrun, hg₁⟩ := visitNode_spec (q := q) hsorted hin hlen horder hg
    obtain ⟨g', hrest, hg'⟩ := ih (by simp [horder]) hg₁
    exact ⟨g', by rw [List.foldlM_cons, hrun]; exact hrest, hg'⟩

/-- The loop that adds the subgraphs. -/
theorem addSubgraphs_spec {nodes : List (JSONNode Op G)} {save : List NodeEntry → Except String G}
    {R : List NodeEntry → G → Prop} (h : List.Forall₂ (Numbered heap order) visited nodes)
    (hsave : ∀ p ∈ visited, ∀ sub ∈ subgraphsOf heap p, ∃ g, save sub = .ok g ∧ R sub g) :
    ∃ nodes', ((visited.zip nodes).mapM fun pn => do
        let subgraphs ← (subgraphsOf heap pn.1).mapM save
        return { pn.2 with subgraphs := subgraphs }) = .ok nodes' ∧
      List.Forall₂ (fun p n => Numbered heap order p n ∧
        List.Forall₂ R (subgraphsOf heap p) n.subgraphs) visited nodes' ∧
      ∀ i : ℕ, (nodes'[i]?).map JSONNode.op = (nodes[i]?).map JSONNode.op := by
  induction h with
  | nil => exact ⟨[], rfl, List.Forall₂.nil, fun _ => rfl⟩
  | @cons p n visited nodes hn _ ih =>
    obtain ⟨gs, hgs, hR⟩ := mapM_exists (hsave p List.mem_cons_self)
    obtain ⟨nodes', hrun, hnodes, hops⟩ := ih fun p hp => hsave p (List.mem_cons_of_mem _ hp)
    refine ⟨{ n with subgraphs := gs } :: nodes', ?_, List.Forall₂.cons ⟨hn, hR⟩ hnodes, ?_⟩
    · rw [List.zip_cons_cons, List.mapM_cons, hrun]
      simp only [hgs, ok_bind]
      rfl
    · intro i
      cases i with
      | zero => rfl
      | succ i => simpa using hops i

/-! ## The new nodes -/

/-- The second heap has the new cells of the first, from `base` on. -/
def HasCells (base : ℕ) (heap' h : List (Node Op P)) : Prop :=
  ∀ p, base ≤ p → p < heap'.length → h[p]? = heap'[p]?

/-- The cells of a heap stay as they are when it grows. -/
structure Grows (heap₀ heap' : List (Node Op P)) : Prop where
  length : heap₀.length ≤ heap'.length
  cells : ∀ p < heap₀.length, heap'[p]? = heap₀[p]?

/-- The JSON graph is loaded as a symbol of the same structure, whatever happens later to other
cells of the heap. -/
def LoadsAs (q : Parsers Op P) (heap : List (Node Op P)) (n : ℕ) (outputs : List NodeEntry)
    (g : JSONGraph Op n) : Prop :=
  ∀ noParse heap₀, ∃ outputs' heap', jsonGraph2Symbol q n noParse g heap₀ = .ok (outputs', heap') ∧
    Grows heap₀ heap' ∧
    ∀ h, HasCells heap₀.length heap' h → SameSymbol q heap h n noParse outputs outputs'

theorem HasCells.grows {base : ℕ} {heap₁ heap₂ h : List (Node Op P)} (hh : HasCells base heap₂ h)
    (hgrows : Grows heap₁ heap₂) : HasCells base heap₁ h := fun p hbase hp => by
  rw [hh p hbase (hp.trans_le hgrows.length), hgrows.cells p hp]

theorem Grows.trans {heap₀ heap₁ heap₂ : List (Node Op P)} (h : Grows heap₀ heap₁)
    (h' : Grows heap₁ heap₂) : Grows heap₀ heap₂ where
  length := h.length.trans h'.length
  cells p hp := (h'.cells p (hp.trans_le h.length)).trans (h.cells p hp)

theorem loadSubgraphs_spec {n : ℕ} {subgraphs : List (List NodeEntry)} {gs : List (JSONGraph Op n)}
    (h : List.Forall₂ (LoadsAs q heap n) subgraphs gs) (heap₀ : List (Node Op P)) :
    ∃ subgraphs' heap', loadSubgraphs (jsonGraph2Symbol q n false) gs heap₀ =
        .ok (subgraphs', heap') ∧ Grows heap₀ heap' ∧
      ∀ h, HasCells heap₀.length heap' h →
        List.Forall₂ (SameSymbol q heap h n false) subgraphs subgraphs' := by
  induction h generalizing heap₀ with
  | nil => exact ⟨[], heap₀, rfl, ⟨le_refl _, fun _ _ => rfl⟩, fun _ _ => List.Forall₂.nil⟩
  | @cons sub g subgraphs gs hload _ ih =>
    obtain ⟨outputs', heap₁, hrun₁, hgrows₁, hsame₁⟩ := hload false heap₀
    obtain ⟨subgraphs', heap₂, hrun₂, hgrows₂, hsame₂⟩ := ih heap₁
    refine ⟨outputs' :: subgraphs', heap₂, ?_, hgrows₁.trans hgrows₂, fun h hh => ?_⟩
    · rw [loadSubgraphs, hrun₁]
      simp only [ok_bind, hrun₂]
      rfl
    · exact List.Forall₂.cons (hsame₁ h (hh.grows hgrows₂))
        (hsame₂ h fun p hp => hh p (hgrows₁.length.trans hp))

/-- The new node of a number. -/
def newNode (base : ℕ) (order : List ℕ) (p : ℕ) : ℕ := base + order.idxOf p

theorem nodeAt_idxOf {base : ℕ} {p : ℕ} (hp : p ∈ order) :
    nodeAt base order.length (order.idxOf p) = .ok (newNode base order p) := by
  rw [nodeAt, if_pos (List.idxOf_lt_length_of_mem hp)]
  rfl

theorem nodeEntryAt_entryOf {base : ℕ} {e : NodeEntry} (he : e.node ∈ order) :
    nodeEntryAt base order.length (entryOf order e) = .ok (moveEntry (newNode base order) e) := by
  simp only [nodeEntryAt, entryOf, nodeAt_idxOf he]
  rfl

/-- What a cell holds for a node of the saved symbol. -/
def Rebuilt (q : Parsers Op P) (heap : List (Node Op P)) (order : List ℕ) (n : ℕ) (noParse : Bool)
    (base : ℕ) (heap' : List (Node Op P)) (low p i : ℕ) : Prop :=
  ∃ node node', heap[p]? = some node ∧ heap'[i]? = some node' ∧
    node'.op = node.op ∧ node'.name = node.name ∧ node'.dict = node.dict ∧
    node'.parsed = (if noParse then none else q.reloaded node) ∧
    node'.inputs = node.inputs.map (moveEntry (newNode base order)) ∧
    node'.controlDeps = node.controlDeps.map (newNode base order) ∧
    ∀ h, HasCells low heap' h → List.Forall₂ (SameSymbol q heap h n false) node.subgraphs node'.subgraphs

/-- The loop of `JSONGraph2Symbol` over the nodes from number `i` on: it changes their cells and
makes new ones behind `low`. -/
theorem rebuildNodes_spec {n : ℕ} (noParse : Bool) {base low : ℕ} {ps : List ℕ}
    {nodes : List (JSONNode Op (JSONGraph Op n))}
    (hparsed : ∀ (p : ℕ) (node : Node Op P), heap[p]? = some node →
      q.parse node.op node.name node.dict = .ok (q.reloaded node))
    (h : List.Forall₂ (fun p n' => Numbered heap order p n' ∧
      List.Forall₂ (LoadsAs q heap n) (subgraphsOf heap p) n'.subgraphs) ps nodes) (i : ℕ)
    (heap₀ : List (Node Op P)) (hlow : base + i + ps.length = low) (hlen : low ≤ heap₀.length) :
    ∃ heap', rebuildNodes q (jsonGraph2Symbol q n false) noParse base order.length i nodes heap₀ =
        .ok heap' ∧ heap₀.length ≤ heap'.length ∧
      (∀ x < heap₀.length, x < base + i ∨ low ≤ x → heap'[x]? = heap₀[x]?) ∧
      ∀ j p, ps[j]? = some p → Rebuilt q heap order n noParse base heap' low p (base + i + j) := by
  induction h generalizing i heap₀ with
  | nil => exact ⟨heap₀, rfl, le_refl _, fun _ _ _ => rfl, fun j p hp => by simp at hp⟩
  | @cons p n' ps nodes hn _ ih =>
    obtain ⟨⟨node, hnode, hbelow, hop, hname, hdict, hinputs, hdeps⟩, hsubs⟩ := hn
    have hsubs : List.Forall₂ (LoadsAs q heap n) node.subgraphs n'.subgraphs := by
      simpa [subgraphsOf, hnode] using hsubs
    obtain ⟨subgraphs', heap₁, hrun₁, hgrows₁, hsame₁⟩ := loadSubgraphs_spec hsubs heap₀
    rw [List.length_cons] at hlow
    have hlt : base + i < heap₁.length := by
      have := hgrows₁.length
      omega
    have hin : n'.inputs.mapM (nodeEntryAt base order.length) =
        .ok (node.inputs.map (moveEntry (newNode base order))) := by
      rw [hinputs]
      exact mapM_map_ok fun e he =>
        nodeEntryAt_entryOf (hbelow _ ((mem_children hnode).mpr (Or.inl ⟨e, he, rfl⟩)))
    have hdep : n'.controlDeps.mapM (nodeAt base order.length) =
        .ok (node.controlDeps.map (newNode base order)) := by
      rw [hdeps]
      exact mapM_map_ok fun d hd => nodeAt_idxOf (hbelow _ ((mem_children hnode).mpr (Or.inr hd)))
    have hparse : (if noParse then .ok none else q.parse n'.op n'.name n'.dict) =
        (.ok (if noParse then none else q.reloaded node) : Except String (Option P)) := by
      rw [hop, hname, hdict, hparsed p node hnode]
      split_ifs <;> rfl
    obtain ⟨heap', hrun, hle, hkeep, hrebuilt⟩ := ih (i + 1) (heap₁.set (base + i) ⟨n'.op, n'.name,
      n'.dict, if noParse then none else q.reloaded node, subgraphs',
      node.inputs.map (moveEntry (newNode base order)), node.controlDeps.map (newNode base order)⟩)
      (by omega) (by rw [List.length_set]; have := hgrows₁.length; omega)
    rw [List.length_set] at hle hkeep
    refine ⟨heap', ?_, hgrows₁.length.trans hle, ?_, ?_⟩
    · rw [rebuildNodes, hin, hdep]
      simp only [ok_bind, hrun₁, hparse, hrun]
    · intro x hx hout
      rw [hkeep x (hx.trans_le hgrows₁.length) (by omega), List.getElem?_set_ne (by omega),
        hgrows₁.cells x hx]
    · intro j p' hj
      cases j with
      | zero =>
        obtain rfl : p = p' := by simpa using hj
        have hcell := hkeep (base + i) hlt (by omega)
        rw [List.getElem?_set_self hlt] at hcell
        refine ⟨node, _, hnode, hcell, hop, hname, hdict, rfl, rfl, rfl, fun h hh => ?_⟩
        apply hsame₁ h
        intro x hlow' hx
        rw [hh x (by omega) (by omega), hkeep x hx (by omega), List.getElem?_set_ne (by omega)]
      | succ j =>
        have hnext := hrebuilt j p' (by simpa using hj)
        rwa [show base + i + (j + 1) = base + (i + 1) + j by omega]

/-! ## Saving and loading -/

/-- What is asked of a node: its operator is found by its name, its keys are clean, the numbers of
its entries are of 32 bits, and the parsed attributes of an operator are those that the attributes
give. -/
structure Node.Fits (c : Operators Op) (q : Parsers Op P) (node : Node Op P) : Prop where
  op : ∀ op ∈ node.op, c.name op ≠ "null" ∧ c.find (c.name op) = some op
  dict : ∀ kv ∈ node.dict.toList, CleanKey kv.1
  inputs : ∀ e ∈ node.inputs, e.index < 2 ^ 32 ∧ e.version < 2 ^ 32
  parsed : q.parse node.op node.name node.dict = .ok (q.reloaded node)

/-- Less than 2^32 nodes, no dangling pointer and no cycle. -/
structure WellFormed (c : Operators Op) (q : Parsers Op P) (heap : List (Node Op P)) : Prop where
  small : heap.length < 2 ^ 32
  closed : ∀ p < heap.length, ∀ d ∈ children heap p, d < heap.length
  acyclic : ∃ rank : ℕ → ℕ, ∀ p, ∀ d ∈ children heap p, rank d < rank p
  nodes : ∀ node ∈ heap, node.Fits c q

/-- The outputs of a symbol, whose subgraphs are nested less than `n` deep. -/
def Nested (heap : List (Node Op P)) : ℕ → List NodeEntry → Prop
  | 0, _ => False
  | n + 1, outputs => (∀ e ∈ outputs, e.node < heap.length ∧ e.index < 2 ^ 32 ∧ e.version < 2 ^ 32) ∧
      ∀ p, Below heap outputs p → ∀ sub ∈ subgraphsOf heap p, Nested heap n sub

/-- The order in which the nodes are visited. -/
structure VisitOrder (heap : List (Node Op P)) (outputs : List NodeEntry) (order : List ℕ) : Prop where
  sorted : DFSVisit.TopoSorted (children heap) order
  below : ∀ p, p ∈ order ↔ Below heap outputs p
  bounds : ∀ p ∈ order, p < heap.length
  length : order.length < 2 ^ 32

variable {c : Operators Op} {outputs : List NodeEntry}

theorem TopoSorted.child_mem (h : DFSVisit.TopoSorted (children heap) order) {p d : ℕ} (hp : p ∈ order)
    (hd : d ∈ children heap p) : d ∈ order := by
  obtain ⟨a, b, rfl⟩ := List.append_of_mem hp
  exact List.mem_append_left _ (h a p b rfl d hd)

theorem exists_visitOrder (h : WellFormed c q heap) (hout : ∀ e ∈ outputs, e.node < heap.length) :
    ∃ order, dfsVisit heap outputs = some order ∧ VisitOrder heap outputs order := by
  obtain ⟨rank, hrank⟩ := h.acyclic
  have hclosed : ∀ p ∈ Finset.range heap.length, ∀ d ∈ children heap p, d ∈ Finset.range heap.length :=
    fun p hp d hd => Finset.mem_range.mpr (h.closed p (Finset.mem_range.mp hp) d hd)
  have hin : ∀ p ∈ outputs.map NodeEntry.node, p ∈ Finset.range heap.length := by
    intro p hp
    obtain ⟨e, he, rfl⟩ := List.mem_map.mp hp
    exact Finset.mem_range.mpr (hout e he)
  obtain ⟨order, hrun, hnodup, hsorted, hheads, hnodes⟩ :=
    DFSVisit.postOrderDFSVisit_spec hrank hclosed hin
  have hbelow := (DFSVisit.postOrderDFSVisit_closed (P := Below heap outputs) hrun
    (fun p hp => by
      obtain ⟨e, he, rfl⟩ := List.mem_map.mp hp
      exact Below.output he)
    fun p hp d hd => Below.child hp hd).2
  refine ⟨order, hrun, hsorted, fun p => ⟨hbelow p, fun hp => ?_⟩,
    fun p hp => Finset.mem_range.mp (hnodes p hp), ?_⟩
  · induction hp with
    | output he => exact hheads _ (List.mem_map.mpr ⟨_, he, rfl⟩)
    | child _ hd ih => exact TopoSorted.child_mem hsorted ih hd
  · have hsub : order ⊆ List.range heap.length := fun p hp =>
      List.mem_range.mpr (Finset.mem_range.mp (hnodes p hp))
    have hle := (List.subperm_of_subset hnodup hsub).length_le
    rw [List.length_range] at hle
    exact hle.trans_lt h.small

theorem exists_left_of_mem {α β : Type} {R : α → β → Prop} {l : List α} {m : List β}
    (h : List.Forall₂ R l m) {b : β} (hb : b ∈ m) : ∃ a ∈ l, R a b := by
  induction h with
  | nil => simp at hb
  | @cons a b' l m hR _ ih =>
    rcases List.mem_cons.mp hb with rfl | hb
    · exact ⟨a, List.mem_cons_self, hR⟩
    · obtain ⟨a', ha', hR'⟩ := ih hb
      exact ⟨a', List.mem_cons_of_mem _ ha', hR'⟩

theorem idxOf_small (ho : VisitOrder heap outputs order) {p : ℕ} (hp : p ∈ order) :
    order.idxOf p < 2 ^ 32 := (List.idxOf_lt_length_of_mem hp).trans ho.length

theorem savable_of_numbered (h : WellFormed c q heap) (ho : VisitOrder heap outputs order) {p : ℕ}
    {n : JSONNode Op G} (hn : Numbered heap order p n) : n.Savable c := by
  obtain ⟨node, hnode, hbelow, hop, -, hdict, hinputs, hdeps⟩ := hn
  have hfits := h.nodes node (List.mem_of_getElem? hnode)
  refine ⟨by rw [hop]; exact hfits.op, by rw [hdict]; exact hfits.dict, ?_, ?_⟩
  · intro e he
    rw [hinputs] at he
    obtain ⟨e', he', rfl⟩ := List.mem_map.mp he
    have hin := hbelow _ ((mem_children hnode).mpr (Or.inl ⟨e', he', rfl⟩))
    exact ⟨idxOf_small ho hin, (hfits.inputs e' he').1, (hfits.inputs e' he').2⟩
  · intro d hd
    rw [hdeps] at hd
    obtain ⟨d', hd', rfl⟩ := List.mem_map.mp hd
    exact idxOf_small ho (hbelow _ ((mem_children hnode).mpr (Or.inr hd')))

/-- The new symbol has the structure of the saved one. -/
theorem sameSymbol_of_rebuilt {n : ℕ} {noParse : Bool} {base low : ℕ} {heap' h : List (Node Op P)}
    (ho : VisitOrder heap outputs order) (hlow : base ≤ low) (hh : HasCells base heap' h)
    (hrebuilt : ∀ j p, order[j]? = some p → Rebuilt q heap order n noParse base heap' low p (base + j)) :
    SameSymbol q heap h (n + 1) noParse outputs (outputs.map (moveEntry (newNode base order))) := by
  refine ⟨newNode base order, ?_, rfl, ?_⟩
  · intro p hp p' _ heq
    rw [newNode, newNode] at heq
    exact (List.idxOf_inj ((ho.below p).mpr hp)).mp (by omega)
  · intro p hp
    have hidx : order[order.idxOf p]? = some p := by
      rw [List.getElem?_eq_getElem (List.idxOf_lt_length_of_mem ((ho.below p).mpr hp)),
        List.getElem_idxOf]
    obtain ⟨node, node', hnode, hnode', hop, hname, hdict, hparsed, hinputs, hdeps, hsub⟩ :=
      hrebuilt _ p hidx
    have hcell : h[newNode base order p]? = some node' := by
      rw [newNode, hh _ (Nat.le_add_right _ _) (List.getElem?_eq_some_iff.mp hnode').1, hnode']
    exact ⟨node, node', hnode, hcell, hop, hname, hdict, hparsed, hinputs, hdeps,
      hsub h fun x hx hlt => hh x (hlow.trans hx) hlt⟩

/-- What `JSONGraph2Symbol` makes of the numbered nodes. -/
theorem loadsAs_of_numbered {n : ℕ} (h : WellFormed c q heap) (ho : VisitOrder heap outputs order)
    {g : JSONGraphOf Op (JSONGraph Op n)}
    (hnodes : List.Forall₂ (fun p n' => Numbered heap order p n' ∧
      List.Forall₂ (LoadsAs q heap n) (subgraphsOf heap p) n'.subgraphs) order g.nodes)
    (hargs : ∀ d ∈ g.argNodes, ∃ n', g.nodes[d]? = some n' ∧ n'.op = none)
    (hheads : g.heads = outputs.map (entryOf order)) :
    LoadsAs q heap (n + 1) outputs (show JSONGraph Op (n + 1) from g) := by
  intro noParse heap₀
  have hlength : g.nodes.length = order.length := hnodes.length_eq.symm
  obtain ⟨heap', hrun, hle, hkeep, hrebuilt⟩ := rebuildNodes_spec noParse
    (fun p node hp => (h.nodes node (List.mem_of_getElem? hp)).parsed) hnodes 0
    (heap₀ ++ g.nodes.map fun n => ⟨n.op, n.name, n.dict, none, [], [], []⟩)
    (show heap₀.length + 0 + order.length = heap₀.length + order.length from rfl)
    (by simp [hlength])
  have hcheck : (g.argNodes.all fun nid => (g.nodes[nid]?).any fun n => n.op.isNone) = true := by
    rw [List.all_eq_true]
    intro d hd
    obtain ⟨n', hn', hop⟩ := hargs d hd
    simp [hn', hop]
  have hout : g.heads.mapM (nodeEntryAt heap₀.length order.length) =
      .ok (outputs.map (moveEntry (newNode heap₀.length order))) := by
    rw [hheads]
    exact mapM_map_ok fun e he => nodeEntryAt_entryOf ((ho.below _).mpr (Below.output he))
  rw [List.length_append] at hle hkeep
  refine ⟨outputs.map (moveEntry (newNode heap₀.length order)), heap', ?_, ⟨by omega, ?_⟩, ?_⟩
  · show (jsonGraph2Symbol q (n + 1) noParse g heap₀) = _
    simp only [jsonGraph2Symbol, hlength, hrun, ok_bind, hcheck, if_true, hout]
    rfl
  · intro x hx
    rw [hkeep x (by omega) (Or.inl (by omega)), List.getElem?_append_left hx]
  · intro h' hh
    exact sameSymbol_of_rebuilt ho (Nat.le_add_right _ _) hh fun j p hj => by
      simpa using hrebuilt j p hj

/-- `Symbol2JSONGraph` does not fail, its graph can be saved, and `JSONGraph2Symbol` makes a symbol
of the same structure of it. -/
theorem symbol2JSONGraph_spec (h : WellFormed c q heap) {n : ℕ} (hout : Nested heap n outputs) :
    ∃ g, symbol2JSONGraph q heap n outputs = .ok g ∧ Savable c n g ∧ LoadsAs q heap n outputs g := by
  induction n generalizing outputs with
  | zero => exact hout.elim
  | succ n ih =>
    obtain ⟨order, hdfs, ho⟩ := exists_visitOrder h fun e he => (hout.1 e he).1
    have hstart : Visited heap order [] (⟨[], [], [0], [], ∅⟩ : JSONGraphOf Op (JSONGraph Op n)) :=
      ⟨List.Forall₂.nil, by simp, by simp, rfl⟩
    obtain ⟨g, hfold, hg⟩ := foldlM_visitNode_spec (q := q) ho.sorted ho.bounds ho.length
      (List.nil_append order).symm hstart
    have hheads : outputs.mapM (entryAt order) = .ok (outputs.map (entryOf order)) :=
      mapM_ok fun e he =>
        entryAt_start (List.append_nil _).symm ho.length ((ho.below _).mpr (Below.output he))
    obtain ⟨nodes, hsubs, hnodes, hops⟩ := addSubgraphs_spec
      (R := fun sub g => Savable c n g ∧ LoadsAs q heap n sub g) hg.nodes
      fun p hp sub hsub => ih (hout.2 p ((ho.below p).mp hp) sub hsub)
    have hargs : ∀ d ∈ g.argNodes, ∃ n', nodes[d]? = some n' ∧ n'.op = none := by
      intro d hd
      obtain ⟨n', hn', hop⟩ := hg.argNodes d hd
      have hsame := hops d
      rw [hn', Option.map_some, hop] at hsame
      exact Option.map_eq_some_iff.mp hsame
    refine ⟨({ g with nodes := nodes, heads := outputs.map (entryOf order) } :
      JSONGraphOf Op (JSONGraph Op n)), ?_, ⟨⟨?_, ?_, hg.nodeRowPtr, ?_, ?_⟩, ?_⟩, ?_⟩
    · rw [symbol2JSONGraph, symbol2JSONGraphOf, hdfs]
      simp only [hfold, ok_bind, hheads, hsubs]
      rfl
    · intro n' hn'
      obtain ⟨p, -, hnum, -⟩ := exists_left_of_mem hnodes hn'
      exact savable_of_numbered h ho hnum
    · intro d hd
      obtain ⟨n', hn', -⟩ := hargs d hd
      have hlt := (List.getElem?_eq_some_iff.mp hn').1
      rw [← hnodes.length_eq] at hlt
      exact hlt.trans ho.length
    · intro e he
      obtain ⟨e', he', rfl⟩ := List.mem_map.mp he
      exact ⟨idxOf_small ho ((ho.below _).mpr (Below.output he')), (hout.1 e' he').2.1,
        (hout.1 e' he').2.2⟩
    · simp [hg.attrs]
    · intro n' hn' sub hsub
      obtain ⟨p, -, -, hR⟩ := exists_left_of_mem hnodes hn'
      obtain ⟨_, _, hsavable, -⟩ := exists_left_of_mem hR hsub
      exact hsavable
    · exact loadsAs_of_numbered h ho (hnodes.imp fun p n' hn' => ⟨hn'.1, hn'.2.imp fun _ _ hR => hR.2⟩)
        hargs rfl

/-! ## The passes -/

/-- `nnvm::get<std::string>`. -/
def Any.getStr : Any → Except String String
  | str s => .ok s
  | _ => .error "The stored type mismatch"

/-- `nnvm::get<bool>`. -/
def Any.getBool : Any → Except String Bool
  | bool b => .ok b
  | _ => .error "The stored type mismatch"

/-- The attributes of the graph that `SaveJSON` returns. -/
def jsonAttrs (text : String) : Std.ExtTreeMap String Any :=
  (∅ : Std.ExtTreeMap String Any).insert "json" (.str text)

/-- `SaveJSON`, with the attributes of the graph that it returns. -/
def saveJSON (c : Operators Op) (q : Parsers Op P)
    (entries : Std.ExtTreeMap String Any → List (String × Any)) (heap : List (Node Op P)) (n : ℕ)
    (outputs : List NodeEntry) (attrs : Std.ExtTreeMap String Any) :
    Except String (Std.ExtTreeMap String Any) := do
  let g ← symbol2JSONGraphOf q heap (symbol2JSONGraph q heap n) outputs
  let text ← saveText c entries (n + 1) { g with attrs := attrs }
  return jsonAttrs text

/-- `LoadJSON`, with the outputs and the attributes of the graph that it returns. -/
def loadJSON (c : Operators Op) (q : Parsers Op P)
    (entries : Std.ExtTreeMap String Any → List (String × Any)) (n : ℕ)
    (attrs : Std.ExtTreeMap String Any) (heap : List (Node Op P)) :
    Except String (List NodeEntry × Std.ExtTreeMap String Any × List (Node Op P)) :=
  match attrs["json"]? with
  | none => .error "Load JSON require json to be presented."
  | some json => do
    let text ← json.getStr
    let noParse ← (attrs["load_json_no_parse"]?).elim (.ok false) Any.getBool
    let g ← loadText c entries (n + 1) text
    let (outputs, heap) ← jsonGraph2Symbol q (n + 1) noParse g heap
    return (outputs, JSONGraphOf.attrs g, heap)

/-- The attributes, with the flag `load_json_no_parse` if one is given. -/
def withFlag (attrs : Std.ExtTreeMap String Any) (noParse : Option Bool) : Std.ExtTreeMap String Any :=
  noParse.elim attrs fun b => attrs.insert "load_json_no_parse" (.bool b)

theorem withFlag_json {text : String} {noParse : Option Bool} :
    (withFlag (jsonAttrs text) noParse)["json"]? = some (.str text) := by
  cases noParse with
  | none => simp [withFlag, jsonAttrs]
  | some b =>
    rw [withFlag, Option.elim_some, Std.ExtTreeMap.getElem?_insert, if_neg (by simp), jsonAttrs,
      Std.ExtTreeMap.getElem?_insert_self]

theorem withFlag_noParse {text : String} {noParse : Option Bool} :
    ((withFlag (jsonAttrs text) noParse)["load_json_no_parse"]?).elim (.ok false) Any.getBool =
      (.ok (noParse.getD false) : Except String Bool) := by
  cases noParse with
  | none =>
    rw [withFlag, Option.elim_none, jsonAttrs, Std.ExtTreeMap.getElem?_insert, if_neg (by simp),
      Std.ExtTreeMap.getElem?_empty]
    rfl
  | some b =>
    rw [withFlag, Option.elim_some, Std.ExtTreeMap.getElem?_insert_self]
    rfl

variable {entries : Std.ExtTreeMap String Any → List (String × Any)}
  {attrs : Std.ExtTreeMap String Any} {n : ℕ} {text : String}

theorem saveJSON_of_text {g : JSONGraphOf Op (JSONGraph Op n)}
    (hsave : symbol2JSONGraphOf q heap (symbol2JSONGraph q heap n) outputs = .ok g)
    (htext : saveText c entries (n + 1) { g with attrs := attrs } = .ok text) :
    saveJSON c q entries heap n outputs attrs = .ok (jsonAttrs text) := by
  rw [saveJSON, hsave, ok_bind, htext]
  rfl

theorem loadJSON_of_text {heap₀ heap' : List (Node Op P)} {outputs' : List NodeEntry}
    {g : JSONGraph Op (n + 1)} {noParse : Option Bool} (htext : loadText c entries (n + 1) text = .ok g)
    (hrun : jsonGraph2Symbol q (n + 1) (noParse.getD false) g heap₀ = .ok (outputs', heap')) :
    loadJSON c q entries n (withFlag (jsonAttrs text) noParse) heap₀ =
      .ok (outputs', JSONGraphOf.attrs g, heap') := by
  rw [loadJSON, withFlag_json]
  simp only [Any.getStr, withFlag_noParse, ok_bind, htext, hrun]
  rfl

/-- A symbol that is saved is loaded as a symbol of the same structure, with the attributes of its
graph, into any heap. -/
theorem loadJSON_saveJSON (hentries : ∀ attrs, (entries attrs).Perm attrs.toList)
    (h : WellFormed c q heap) (hout : Nested heap (n + 1) outputs)
    (hattrs : ∀ kv ∈ attrs.toList, CleanKey kv.1 ∧ kv.2.Registered) (heap₀ : List (Node Op P)) :
    ∃ saved, saveJSON c q entries heap n outputs attrs = .ok saved ∧
      ∀ noParse, ∃ outputs' heap',
        loadJSON c q entries n (withFlag saved noParse) heap₀ = .ok (outputs', attrs, heap') ∧
        Grows heap₀ heap' ∧
        SameSymbol q heap heap' (n + 1) (noParse.getD false) outputs outputs' := by
  obtain ⟨g, hsave, hsavable, hloads⟩ := symbol2JSONGraph_spec h hout
  have hsavable' : Savable c (n + 1) ({ g with attrs := attrs } : JSONGraphOf Op (JSONGraph Op n)) :=
    ⟨{ hsavable.1 with attrs := hattrs }, hsavable.2⟩
  obtain ⟨w, s, hwrite, hread⟩ := exists_text hentries hsavable'
  have hsaved : saveText c entries (n + 1)
      ({ g with attrs := attrs } : JSONGraphOf Op (JSONGraph Op n)) = .ok (String.ofList w.os) := by
    unfold saveText
    rw [hwrite]
    rfl
  have hloaded : loadText c entries (n + 1) (String.ofList w.os) =
      .ok ({ g with attrs := attrs } : JSONGraphOf Op (JSONGraph Op n)) := by
    rw [loadText, String.toList_ofList, hread]
    rfl
  refine ⟨_, saveJSON_of_text hsave hsaved, fun noParse => ?_⟩
  obtain ⟨outputs', heap', hrun, hgrows, hsame⟩ := hloads (noParse.getD false) heap₀
  exact ⟨outputs', heap', loadJSON_of_text hloaded hrun, hgrows, hsame heap' fun _ _ _ => rfl⟩

/-- A loop over a subgraph, whose operator keeps the axis as its parsed attributes, and whose input
has been mutated once. -/
def loopHeap : List (Node String (Option String)) :=
  [⟨none, "x", ∅, some none, [], [], []⟩, ⟨none, "data", ∅, some (some "version 1"), [], [], []⟩,
    ⟨some "_foreach", "loop \"0\"", (∅ : Std.ExtTreeMap String String).insert "axis" "0",
      some (some "0"), [[⟨0, 0, 0⟩]], [⟨1, 0, 1⟩], [1]⟩]

def loopParsers : Parsers String (Option String) where
  attrParser _ := some fun _ dict => .ok dict["axis"]?
  numOutputs _ _ _ := 1
  variableParam := none

theorem loadJSON_saveJSON_loop : ∃ saved,
    saveJSON (⟨id, some⟩ : Operators String) loopParsers Std.ExtTreeMap.toList loopHeap 1 [⟨2, 0, 0⟩]
      ((∅ : Std.ExtTreeMap String Any).insert "mxnet_version" (.int 10600)) = .ok saved ∧
      ∀ noParse, ∃ outputs' heap',
        loadJSON (⟨id, some⟩ : Operators String) loopParsers Std.ExtTreeMap.toList 1
          (withFlag saved noParse) loopHeap = .ok (outputs',
            (∅ : Std.ExtTreeMap String Any).insert "mxnet_version" (.int 10600), heap') ∧
        Grows loopHeap heap' ∧
        SameSymbol loopParsers loopHeap heap' 2 (noParse.getD false) [⟨2, 0, 0⟩] outputs' := by
  have hchildren : ∀ p, ∀ d ∈ children loopHeap p, p = 2 ∧ d = 1 := by
    intro p d hd
    match p with
    | 0 => simp [children, loopHeap] at hd
    | 1 => simp [children, loopHeap] at hd
    | 2 => exact ⟨rfl, by simpa [children, loopHeap] using hd⟩
    | p + 3 => simp [children, loopHeap] at hd
  have hsubgraphs : ∀ p, ∀ sub ∈ subgraphsOf loopHeap p, sub = [⟨0, 0, 0⟩] := by
    intro p sub hsub
    match p with
    | 0 => simp [subgraphsOf, loopHeap] at hsub
    | 1 => simp [subgraphsOf, loopHeap] at hsub
    | 2 => simpa [subgraphsOf, loopHeap] using hsub
    | p + 3 => simp [subgraphsOf, loopHeap] at hsub
  have hvariable : ∀ name version, (⟨none, name, ∅, some version, [], [], []⟩ :
      Node String (Option String)).Fits ⟨id, some⟩ loopParsers := fun _ _ =>
    ⟨by simp, by simp, by simp, rfl⟩
  have hloop : (⟨some "_foreach", "loop \"0\"", (∅ : Std.ExtTreeMap String String).insert "axis" "0",
      some (some "0"), [[⟨0, 0, 0⟩]], [⟨1, 0, 1⟩], [1]⟩ :
        Node String (Option String)).Fits ⟨id, some⟩ loopParsers := by
    refine ⟨by simp, ?_, by simp, ?_⟩
    · intro kv hkv
      rw [eq_of_mem_insert hkv]
      exact CleanKey.of_all rfl
    · simp only [Parsers.parse, loopParsers, Std.ExtTreeMap.getElem?_insert_self]
      rfl
  have hbelow : ∀ p, Below loopHeap [⟨0, 0, 0⟩] p → p = 0 := by
    intro p hp
    induction hp with
    | output he => simpa using congrArg NodeEntry.node (List.mem_singleton.mp he)
    | child _ hd ih => exact absurd (hchildren _ _ hd).1 (by omega)
  apply loadJSON_saveJSON fun attrs => List.Perm.refl _
  · refine ⟨by decide, fun p _ d hd => ?_, ⟨id, fun p d hd => ?_⟩, ?_⟩
    · rw [(hchildren p d hd).2]
      decide
    · rw [(hchildren p d hd).1, (hchildren p d hd).2]
      decide
    · simpa [loopHeap] using ⟨hvariable "x" none, hvariable "data" (some "version 1"), hloop⟩
  · refine ⟨by simp [loopHeap], fun p _ sub hsub => ?_⟩
    rw [hsubgraphs p sub hsub]
    refine ⟨by simp [loopHeap], fun p hp sub hsub => ?_⟩
    rw [hbelow p hp] at hsub
    simp [subgraphsOf, loopHeap] at hsub
  · intro kv hkv
    rw [eq_of_mem_insert hkv]
    exact ⟨CleanKey.of_all rfl, by decide, by decide⟩

end SaveLoadJson
end NetStorm

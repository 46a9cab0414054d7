import NetStorm.PlanMemory
import Mathlib.Algebra.BigOperators.Intervals
import Mathlib.Algebra.Order.BigOperators.Group.Finset
import Mathlib.Data.List.Chain
import Mathlib.Data.List.GetD
import Mathlib.Logic.Relation
import Mathlib.Order.Bounds.Basic

/-!
# Colours for the nodes that run one after another

`MXFindBestPath` goes over the nodes from the last to the first and pushes the best reward of
a path that starts at a node to the inputs of the node; `next_node` remembers who improved it.
`MXColorNodeGroup` gives a colour to the nodes of the best path, clears their importance, and
repeats. Rewards are `uint32_t`, and a failed check is where there is no result.
-/
namespace NetStorm
namespace NodeColoring
open PlanMemory (NodeEntry)

/-- The inputs of the nodes of an indexed graph, which come from earlier nodes. Node ids are
`uint32_t`. -/
structure IndexedGraph where
  inputs : List (List NodeEntry)
  input_lt : ∀ (nid : ℕ) (es : List NodeEntry), inputs[nid]? = some es →
    ∀ e ∈ es, e.nodeId < nid
  length_lt : inputs.length < 2 ^ 32

namespace IndexedGraph
variable (g : IndexedGraph)

/-- `num_nodes`. -/
def numNodes : ℕ := g.inputs.length

/-- `graph[nid].inputs`. -/
def inputsOf (nid : ℕ) : List NodeEntry := g.inputs.getD nid []

/-- A node is an input of another. -/
def Link (a b : ℕ) : Prop := ∃ e ∈ g.inputsOf b, e.nodeId = a

/-- A directed path, as the list of its nodes. -/
structure IsPath (p : List ℕ) : Prop where
  chain : p.IsChain g.Link
  lt : ∀ x ∈ p, x < g.numNodes

instance : DecidableRel g.Link := fun a b =>
  inferInstanceAs (Decidable (∃ e ∈ g.inputsOf b, e.nodeId = a))

theorem Link.lt {g : IndexedGraph} {a b : ℕ} (h : g.Link a b) : a < b ∧ b < g.numNodes := by
  obtain ⟨e, he, rfl⟩ := h
  rw [inputsOf, List.getD_eq_getElem?_getD] at he
  cases hb : g.inputs[b]? with
  | none => simp [hb] at he
  | some es =>
    rw [hb, Option.getD_some] at he
    exact ⟨g.input_lt b es hb e he, (List.getElem?_eq_some_iff.mp hb).1⟩

end IndexedGraph

/-- The arrays and the best start of `MXFindBestPath`. -/
structure Search where
  bestReward : ℕ → ℕ
  nextNode : ℕ → ℕ
  bestSolution : ℕ
  bestStartNode : ℕ

section Best
variable (g : IndexedGraph) (reward : ℕ → ℕ)

/-- The loop over the inputs of a node. -/
def pushReward (nid : ℕ) (s : Search) (e : NodeEntry) : Search :=
  if s.bestReward e.nodeId < s.bestReward nid then
    { s with
      bestReward := Function.update s.bestReward e.nodeId (s.bestReward nid)
      nextNode := Function.update s.nextNode e.nodeId nid }
  else s

/-- The reward of the node itself, and the best start so far. -/
def addReward (nid : ℕ) (s : Search) : Search :=
  let best := (s.bestReward nid + reward nid) % 2 ^ 32
  let s := { s with bestReward := Function.update s.bestReward nid best }
  if s.bestSolution < best then { s with bestSolution := best, bestStartNode := nid } else s

/-- The body of the loop over the nodes. -/
def visitNode (nid : ℕ) (s : Search) : Search :=
  (g.inputsOf nid).foldl (pushReward nid) (addReward reward nid s)

/-- The loop in reverse topological order, with the nodes from `i` on done. -/
def traverse : ℕ → Search → Search
  | 0, s => s
  | i + 1, s => traverse i (visitNode g reward i s)

/-- The arrays before the loop. -/
def initial : Search :=
  { bestReward := fun _ => 0, nextNode := fun _ => g.numNodes, bestSolution := 0,
    bestStartNode := 0 }

/-- Follows `next_node`. There is no result if the loop runs out of fuel. -/
def followNext (n : ℕ) (nextNode : ℕ → ℕ) : ℕ → ℕ → Option (List ℕ)
  | 0, nid => if nid < n then none else some []
  | fuel + 1, nid =>
    if nid < n then (followNext n nextNode fuel (nextNode nid)).map (nid :: ·) else some []

/-- `node_reward[nid]`. -/
def rewardAt (nodeReward : List ℕ) (nid : ℕ) : ℕ := nodeReward.getD nid 0

/-- `MXFindBestPath`. -/
def mxFindBestPath (nodeReward : List ℕ) : Option (ℕ × List ℕ) := do
  guard (g.numNodes = nodeReward.length)
  let s := traverse g (rewardAt nodeReward) g.numNodes (initial g)
  let path ← followNext g.numNodes s.nextNode g.numNodes s.bestStartNode
  guard (path.foldl (fun r nid => (r + rewardAt nodeReward nid) % 2 ^ 32) 0 = s.bestSolution)
  some (s.bestSolution, path)

end Best

section Color

/-- The importance that is left and the colours. -/
structure Coloring where
  importance : List ℕ
  color : List ℕ

/-- Colours one node of a path. -/
def colorNode (maxNcolor cindex : ℕ) (s : Coloring) (nid : ℕ) : Option Coloring :=
  if rewardAt s.importance nid = 0 then some s else do
    let c ← s.color[nid]?
    guard (c = maxNcolor)
    some { importance := s.importance.set nid 0, color := s.color.set nid cindex }

/-- The greedy loop, with the number of colours that are left. -/
def greedy (g : IndexedGraph) (maxNcolor : ℕ) : ℕ → ℕ → Coloring → Option (ℕ × Coloring)
  | 0, cindex, s => some (cindex, s)
  | rest + 1, cindex, s => do
    let (reward, path) ← mxFindBestPath g s.importance
    if reward = 0 then some (cindex, s) else
      let s ← path.foldlM (colorNode maxNcolor cindex) s
      greedy g maxNcolor rest (cindex + 1) s

/-- `MXColorNodeGroup`. -/
def mxColorNodeGroup (g : IndexedGraph) (nodeImportance : List ℕ) (maxNcolor : ℕ) :
    Option (ℕ × List ℕ) := do
  guard (maxNcolor ≠ 0)
  guard (g.numNodes = nodeImportance.length)
  let (cindex, s) ← greedy g maxNcolor (maxNcolor - 1) 0
    { importance := nodeImportance, color := List.replicate g.numNodes maxNcolor }
  some (cindex + 1, s.color.map fun c => if c = maxNcolor then cindex else c)

end Color

section Best
variable {g : IndexedGraph} {reward : ℕ → ℕ}

theorem pushReward_best (nid : ℕ) (s : Search) (e : NodeEntry) (v : ℕ) :
    (pushReward nid s e).bestReward v =
      if e.nodeId = v then max (s.bestReward v) (s.bestReward nid) else s.bestReward v := by
  unfold pushReward
  by_cases hv : e.nodeId = v
  · subst hv
    rw [if_pos rfl]
    split_ifs with h
    · simp [max_eq_right h.le]
    · exact (max_eq_left (not_lt.mp h)).symm
  · rw [if_neg hv]
    split_ifs
    · exact Function.update_of_ne (Ne.symm hv) _ _
    · rfl

theorem pushReward_next (nid : ℕ) (s : Search) (e : NodeEntry) (v : ℕ) :
    (pushReward nid s e).nextNode v =
      if e.nodeId = v ∧ s.bestReward v < s.bestReward nid then nid else s.nextNode v := by
  unfold pushReward
  by_cases hv : e.nodeId = v
  · subst hv
    by_cases h : s.bestReward e.nodeId < s.bestReward nid <;> simp [h]
  · rw [if_neg fun h : _ ∧ _ => hv h.1]
    split_ifs
    · exact Function.update_of_ne (Ne.symm hv) _ _
    · rfl

theorem pushReward_sol (nid : ℕ) (s : Search) (e : NodeEntry) :
    (pushReward nid s e).bestSolution = s.bestSolution ∧
      (pushReward nid s e).bestStartNode = s.bestStartNode := by
  unfold pushReward
  split_ifs <;> exact ⟨rfl, rfl⟩

/-- What the loop over the inputs of a node does to the arrays. -/
theorem foldl_pushReward {nid : ℕ} (es : List NodeEntry) (hes : ∀ e ∈ es, e.nodeId ≠ nid)
    (s : Search) :
    let s' := es.foldl (pushReward nid) s
    (∀ v, s'.bestReward v = if ∃ e ∈ es, e.nodeId = v then
        max (s.bestReward v) (s.bestReward nid) else s.bestReward v) ∧
      (∀ v, s'.nextNode v = if (∃ e ∈ es, e.nodeId = v) ∧ s.bestReward v < s.bestReward nid then
        nid else s.nextNode v) ∧
      s'.bestSolution = s.bestSolution ∧ s'.bestStartNode = s.bestStartNode := by
  induction es generalizing s with
  | nil => simp
  | cons e es ih =>
    have hnid : (pushReward nid s e).bestReward nid = s.bestReward nid := by
      rw [pushReward_best, if_neg (hes e (by simp))]
    obtain ⟨hbest, hnext, hsol, hstart⟩ :=
      ih (fun e' he' => hes e' (List.mem_cons_of_mem _ he')) (pushReward nid s e)
    refine ⟨fun v => ?_, fun v => ?_, hsol.trans (pushReward_sol nid s e).1,
      hstart.trans (pushReward_sol nid s e).2⟩
    · rw [List.foldl_cons, hbest, hnid, pushReward_best]
      by_cases hv : e.nodeId = v
      · simp [hv]
      · simp [hv]
    · rw [List.foldl_cons, hnext, hnid, pushReward_best, pushReward_next]
      by_cases hv : e.nodeId = v
      · simp [hv]
      · simp [hv]

/-- The reward of a node counts once its turn has come. -/
def own (reward : ℕ → ℕ) (i v : ℕ) : ℕ := if i ≤ v then reward v else 0

/-- The nodes from `i` on are done: every node knows the best path from it through done nodes,
and the first step of one. -/
structure Swept (g : IndexedGraph) (reward : ℕ → ℕ) (i : ℕ) (s : Search) : Prop where
  push : ∀ v w, i ≤ w → g.Link v w → own reward i v + s.bestReward w ≤ s.bestReward v
  next : ∀ v, v < g.numNodes →
    (s.nextNode v = g.numNodes ∧ s.bestReward v = own reward i v) ∨
    (i ≤ s.nextNode v ∧ g.Link v (s.nextNode v) ∧
      s.bestReward v = own reward i v + s.bestReward (s.nextNode v))
  bound : ∀ v, v < g.numNodes →
    s.bestReward v ≤ ∑ u ∈ Finset.Ico (max i v) g.numNodes, reward u
  solution : ∀ v, i ≤ v → v < g.numNodes → s.bestReward v ≤ s.bestSolution
  start : (s.bestSolution = 0 ∧ s.bestStartNode = 0) ∨
    (i ≤ s.bestStartNode ∧ s.bestStartNode < g.numNodes ∧
      s.bestReward s.bestStartNode = s.bestSolution)

variable (g reward) in
theorem initial_swept : Swept g reward g.numNodes (initial g) where
  push v w hw h := absurd h.lt.2 (by omega)
  next v hv := .inl ⟨rfl, by simp [initial, own, not_le.mpr hv]⟩
  bound v _ := Nat.zero_le _
  solution v hv hlt := absurd hlt (by omega)
  start := .inl ⟨rfl, rfl⟩

/-- The turn of a node. -/
structure Visited (g : IndexedGraph) (reward : ℕ → ℕ) (i : ℕ) (s s' : Search) : Prop where
  self : s'.bestReward i = s.bestReward i + reward i
  best : ∀ v, v ≠ i → s'.bestReward v =
    if g.Link v i then max (s.bestReward v) (s'.bestReward i) else s.bestReward v
  next : ∀ v, s'.nextNode v =
    if g.Link v i ∧ s.bestReward v < s'.bestReward i then i else s.nextNode v
  solution : s'.bestSolution = max s.bestSolution (s'.bestReward i)
  start : s'.bestStartNode =
    if s.bestSolution < s'.bestReward i then i else s.bestStartNode

theorem visitNode_visited {i : ℕ} {s : Search} (hlt : s.bestReward i + reward i < 2 ^ 32) :
    Visited g reward i s (visitNode g reward i s) := by
  have hes : ∀ e ∈ g.inputsOf i, e.nodeId ≠ i := fun e he => by
    have hlink : g.Link e.nodeId i := ⟨e, he, rfl⟩
    exact hlink.lt.1.ne
  have hself : ¬ g.Link i i := fun h => absurd h.lt.1 (by omega)
  have hadd : (addReward reward i s).bestReward =
      Function.update s.bestReward i (s.bestReward i + reward i) := by
    simp only [addReward, Nat.mod_eq_of_lt hlt]
    split_ifs <;> rfl
  have hnext' : (addReward reward i s).nextNode = s.nextNode := by
    simp only [addReward]
    split_ifs <;> rfl
  obtain ⟨hbest, hnext, hsol, hstart⟩ := foldl_pushReward (g.inputsOf i) hes (addReward reward i s)
  have hb : (visitNode g reward i s).bestReward i = s.bestReward i + reward i := by
    rw [visitNode, hbest, if_neg (show ¬ ∃ e ∈ g.inputsOf i, e.nodeId = i from hself), hadd,
      Function.update_self]
  refine ⟨hb, fun v hv => ?_, fun v => ?_, ?_, ?_⟩
  · rw [hb, visitNode, hbest, hadd, Function.update_of_ne hv, Function.update_self]
    rfl
  · rw [hb, visitNode, hnext, hadd, hnext', Function.update_self]
    by_cases hv : v = i
    · subst hv
      rw [if_neg (fun h => hself h.1), if_neg (fun h => hself h.1)]
    · rw [Function.update_of_ne hv]
      rfl
  · rw [hb, visitNode, hsol]
    simp only [addReward, Nat.mod_eq_of_lt hlt]
    split_ifs <;> simp <;> omega
  · rw [hb, visitNode, hstart]
    simp only [addReward, Nat.mod_eq_of_lt hlt]
    split_ifs <;> rfl

theorem own_self (i : ℕ) : own reward i i = reward i := by simp [own]

theorem own_succ_self (i : ℕ) : own reward (i + 1) i = 0 := by simp [own]

theorem own_succ_of_ne {i v : ℕ} (h : v ≠ i) : own reward (i + 1) v = own reward i v := by
  simp only [own]
  congr 1
  exact propext (by omega)

namespace Visited
variable {i : ℕ} {s s' : Search}

theorem mono (hs : Visited g reward i s s') (v : ℕ) : s.bestReward v ≤ s'.bestReward v := by
  by_cases hv : v = i
  · subst hv
    rw [hs.self]
    exact Nat.le_add_right _ _
  · rw [hs.best v hv]
    split_ifs
    · exact le_max_left _ _
    · exact le_rfl

/-- A node that had its turn gets no more. -/
theorem later (hs : Visited g reward i s s') {v : ℕ} (hv : i < v) :
    s'.bestReward v = s.bestReward v := by
  rw [hs.best v (by omega), if_neg fun hl => absurd hl.lt.1 (by omega)]

/-- A node that does not take over the path keeps what it has. -/
theorem kept (hs : Visited g reward i s s') {v : ℕ}
    (hl : ¬ (g.Link v i ∧ s.bestReward v < s'.bestReward i)) :
    s'.bestReward v + own reward (i + 1) v = s.bestReward v + own reward i v := by
  by_cases hvi : v = i
  · subst hvi
    rw [hs.self, own_self, own_succ_self, Nat.add_zero]
  · rw [hs.best v hvi, own_succ_of_ne hvi]
    split_ifs with hl'
    · rw [max_eq_left (not_lt.mp fun hlt => hl ⟨hl', hlt⟩)]
    · rfl

end Visited

section Visit
variable {i : ℕ} {s s' : Search}

theorem Swept.push_visit (h : Swept g reward (i + 1) s) (hs : Visited g reward i s s') {v w : ℕ}
    (hw : i ≤ w) (hl : g.Link v w) : own reward i v + s'.bestReward w ≤ s'.bestReward v := by
  have hvw := hl.lt
  rcases eq_or_lt_of_le hw with rfl | hw
  · rw [hs.best v (by omega), if_pos hl, own, if_neg (by omega), Nat.zero_add]
    exact le_max_right _ _
  · have hp := h.push v w hw hl
    rw [hs.later hw]
    by_cases hvi : v = i
    · subst hvi
      rw [own_succ_self] at hp
      rw [own_self, hs.self]
      omega
    · rw [← own_succ_of_ne hvi]
      exact hp.trans (hs.mono v)

theorem Swept.next_visit (h : Swept g reward (i + 1) s) (hs : Visited g reward i s s') {v : ℕ}
    (hv : v < g.numNodes) :
    (s'.nextNode v = g.numNodes ∧ s'.bestReward v = own reward i v) ∨
      (i ≤ s'.nextNode v ∧ g.Link v (s'.nextNode v) ∧
        s'.bestReward v = own reward i v + s'.bestReward (s'.nextNode v)) := by
  rw [hs.next v]
  split_ifs with hl
  · have hvi := hl.1.lt.1
    refine .inr ⟨le_rfl, hl.1, ?_⟩
    rw [hs.best v hvi.ne, if_pos hl.1, own, if_neg (by omega), Nat.zero_add, max_eq_right hl.2.le]
  · have hkept := hs.kept hl
    rcases h.next v hv with ⟨hn, he⟩ | ⟨hge, hl', he⟩
    · exact .inl ⟨hn, by omega⟩
    · refine .inr ⟨by omega, hl', ?_⟩
      rw [hs.later (show i < s.nextNode v by omega)]
      omega

theorem Swept.bound_visit (h : Swept g reward (i + 1) s) (hi : i < g.numNodes)
    (hs : Visited g reward i s s') {v : ℕ} (hv : v < g.numNodes) :
    s'.bestReward v ≤ ∑ u ∈ Finset.Ico (max i v) g.numNodes, reward u := by
  have hself : s'.bestReward i ≤ ∑ u ∈ Finset.Ico i g.numNodes, reward u := by
    have hb := h.bound i hi
    rw [max_eq_left (by omega)] at hb
    rw [hs.self, Finset.sum_eq_sum_Ico_succ_bot hi]
    omega
  rcases lt_trichotomy v i with hvi | rfl | hvi
  · have hle : s.bestReward v ≤ ∑ u ∈ Finset.Ico i g.numNodes, reward u := by
      refine (h.bound v hv).trans ?_
      rw [max_eq_left (by omega), Finset.sum_eq_sum_Ico_succ_bot hi]
      exact Nat.le_add_left _ _
    rw [max_eq_left hvi.le, hs.best v hvi.ne]
    split_ifs
    · exact max_le hle hself
    · exact hle
  · rwa [max_self]
  · rw [hs.later hvi, max_eq_right hvi.le]
    exact (h.bound v hv).trans_eq (by rw [max_eq_right (by omega)])

theorem Swept.start_visit (h : Swept g reward (i + 1) s) (hi : i < g.numNodes)
    (hs : Visited g reward i s s') :
    (s'.bestSolution = 0 ∧ s'.bestStartNode = 0) ∨
      (i ≤ s'.bestStartNode ∧ s'.bestStartNode < g.numNodes ∧
        s'.bestReward s'.bestStartNode = s'.bestSolution) := by
  rw [hs.solution, hs.start]
  split_ifs with hlt
  · exact .inr ⟨le_rfl, hi, (max_eq_right hlt.le).symm⟩
  · rw [max_eq_left (not_lt.mp hlt)]
    rcases h.start with hz | ⟨hge, hltn, he⟩
    · exact .inl hz
    · exact .inr ⟨by omega, hltn, by rw [hs.later (by omega), he]⟩

/-- The turn of a node keeps what is known. -/
theorem Swept.visit (h : Swept g reward (i + 1) s) (hi : i < g.numNodes)
    (hs : Visited g reward i s s') : Swept g reward i s' where
  push _ _ hw hl := h.push_visit hs hw hl
  next _ hv := h.next_visit hs hv
  bound _ hv := h.bound_visit hi hs hv
  solution v hv hlt := by
    rw [hs.solution]
    rcases eq_or_lt_of_le hv with rfl | hvi
    · exact le_max_right _ _
    · rw [hs.later hvi]
      exact (h.solution v hvi hlt).trans (le_max_left _ _)
  start := h.start_visit hi hs

end Visit

theorem sum_Ico_le (reward : ℕ → ℕ) (i n : ℕ) :
    ∑ u ∈ Finset.Ico i n, reward u ≤ ∑ u ∈ Finset.range n, reward u := by
  rw [Finset.range_eq_Ico]
  exact Finset.sum_le_sum_of_subset (Finset.Ico_subset_Ico_left (Nat.zero_le i))

theorem traverse_swept (htotal : ∑ u ∈ Finset.range g.numNodes, reward u < 2 ^ 32) (i : ℕ)
    (hi : i ≤ g.numNodes) {s : Search} (h : Swept g reward i s) :
    Swept g reward 0 (traverse g reward i s) := by
  induction i generalizing s with
  | zero => exact h
  | succ i ih =>
    have hb := h.bound i (by omega)
    rw [max_eq_left (by omega)] at hb
    have hsplit := Finset.sum_eq_sum_Ico_succ_bot (show i < g.numNodes by omega) reward
    have hpart := sum_Ico_le reward i g.numNodes
    exact ih (by omega) (h.visit (by omega) (visitNode_visited (by omega)))

/-- The sum of the rewards along a path. -/
def pathReward (reward : ℕ → ℕ) (p : List ℕ) : ℕ := (p.map reward).sum

theorem Swept.pathReward_le {s : Search} (h : Swept g reward 0 s) {v : ℕ} {p : List ℕ}
    (hp : g.IsPath (v :: p)) : pathReward reward (v :: p) ≤ s.bestReward v := by
  induction p generalizing v with
  | nil =>
    have hv := h.next v (hp.lt v (by simp))
    simp only [pathReward, List.map_cons, List.map_nil, List.sum_cons, List.sum_nil]
    simp only [own, Nat.zero_le, if_true] at hv
    omega
  | cons w p ih =>
    have hl : g.Link v w := hp.chain.rel
    have hw := ih (v := w) ⟨hp.chain.tail, fun x hx => hp.lt x (List.mem_cons_of_mem _ hx)⟩
    have hpush := h.push v w (Nat.zero_le _) hl
    simp only [own, Nat.zero_le, if_true] at hpush
    simp only [pathReward, List.map_cons, List.sum_cons] at hw ⊢
    omega

/-- Following `next_node` gives a path with the best reward of the node. -/
theorem Swept.followNext {s : Search} (h : Swept g reward 0 s) (fuel v : ℕ)
    (hv : v < g.numNodes) (hfuel : g.numNodes ≤ v + fuel) :
    ∃ p, followNext g.numNodes s.nextNode fuel v = some (v :: p) ∧ g.IsPath (v :: p) ∧
      pathReward reward (v :: p) = s.bestReward v := by
  induction fuel generalizing v with
  | zero => omega
  | succ fuel ih =>
    rw [NodeColoring.followNext, if_pos hv]
    rcases h.next v hv with ⟨hn, he⟩ | ⟨-, hl, he⟩
    · have hstop : NodeColoring.followNext g.numNodes s.nextNode fuel g.numNodes = some [] := by
        cases fuel <;> simp [NodeColoring.followNext]
      refine ⟨[], by rw [hn, hstop]; rfl, ⟨.singleton v, by simpa using hv⟩, ?_⟩
      rw [he]
      simp [pathReward, own]
    · have hlt := hl.lt
      obtain ⟨p, hp, hpath, hsum⟩ := ih _ hlt.2 (by omega)
      refine ⟨_, by rw [hp]; rfl, ⟨hpath.chain.cons_cons hl, ?_⟩, ?_⟩
      · intro x hx
        rcases List.mem_cons.mp hx with rfl | hx
        · exact hv
        · exact hpath.lt x hx
      · rw [he, ← hsum]
        simp [pathReward, own]

theorem foldl_add_mod (reward : ℕ → ℕ) (p : List ℕ) (r : ℕ) (hr : r < 2 ^ 32) :
    p.foldl (fun r nid => (r + reward nid) % 2 ^ 32) r = (r + pathReward reward p) % 2 ^ 32 := by
  induction p generalizing r with
  | nil => exact (Nat.mod_eq_of_lt hr).symm
  | cons v p ih =>
    rw [List.foldl_cons, ih _ (Nat.mod_lt _ (Nat.two_pow_pos 32))]
    simp only [pathReward, List.map_cons, List.sum_cons]
    rw [Nat.mod_add_mod, Nat.add_assoc]

theorem sum_range_getD (l : List ℕ) : ∑ i ∈ Finset.range l.length, rewardAt l i = l.sum := by
  induction l with
  | nil => rfl
  | cons a l ih =>
    rw [List.length_cons, Finset.sum_range_succ', List.sum_cons, ← ih]
    simp [rewardAt, Nat.add_comm]

/-- `MXFindBestPath` returns a path of the greatest reward. -/
theorem mxFindBestPath_spec {nodeReward : List ℕ} (hlen : nodeReward.length = g.numNodes)
    (htotal : nodeReward.sum < 2 ^ 32) :
    ∃ best path, mxFindBestPath g nodeReward = some (best, path) ∧ g.IsPath path ∧
      (0 < g.numNodes → path ≠ []) ∧ pathReward (rewardAt nodeReward) path = best ∧
      ∀ p, g.IsPath p → pathReward (rewardAt nodeReward) p ≤ best := by
  set reward := rewardAt nodeReward with hreward
  have hsum : ∑ u ∈ Finset.range g.numNodes, reward u = nodeReward.sum := by
    rw [← hlen, ← sum_range_getD]
  have h := traverse_swept (by rw [hsum]; exact htotal) g.numNodes le_rfl
    (initial_swept g reward)
  set s := traverse g reward g.numNodes (initial g) with hs
  have hmax : ∀ p, g.IsPath p → pathReward reward p ≤ s.bestSolution := fun p hp => by
    cases p with
    | nil => exact Nat.zero_le _
    | cons v p =>
      exact (h.pathReward_le hp).trans (h.solution v (Nat.zero_le _) (hp.lt v (by simp)))
  obtain ⟨path, hfollow, hpath, hne, hbest⟩ : ∃ path,
      NodeColoring.followNext g.numNodes s.nextNode g.numNodes s.bestStartNode = some path ∧
      g.IsPath path ∧ (0 < g.numNodes → path ≠ []) ∧
      pathReward reward path = s.bestSolution := by
    rcases h.start with ⟨hz, hstart⟩ | ⟨-, hlt, he⟩
    · rcases Nat.eq_zero_or_pos g.numNodes with hn | hn
      · exact ⟨[], by rw [hstart, hn]; rfl, ⟨.nil, by simp⟩, by omega, hz.symm⟩
      · obtain ⟨p, hp, hpath, hsum⟩ := h.followNext g.numNodes 0 hn (by omega)
        have hle := h.solution 0 le_rfl hn
        exact ⟨0 :: p, by rw [hstart, hp], hpath, by simp, by omega⟩
    · obtain ⟨p, hp, hpath, hsum⟩ := h.followNext g.numNodes _ hlt (by omega)
      exact ⟨_, hp, hpath, by simp, hsum.trans he⟩
  have hsmall : s.bestSolution < 2 ^ 32 := by
    rcases h.start with ⟨hz, -⟩ | ⟨-, hlt, he⟩
    · rw [hz]
      exact Nat.two_pow_pos 32
    · have hbound := (h.bound _ hlt).trans (sum_Ico_le reward _ _)
      omega
  refine ⟨s.bestSolution, path, ?_, hpath, hne, hbest, hmax⟩
  have hfold : path.foldl (fun r nid => (r + reward nid) % 2 ^ 32) 0 = s.bestSolution := by
    rw [foldl_add_mod _ _ _ (Nat.two_pow_pos 32), Nat.zero_add, hbest, Nat.mod_eq_of_lt hsmall]
  simp only [mxFindBestPath, hlen, ← hreward, ← hs, hfollow, hfold, guard, if_true,
    Option.bind_eq_bind, Option.pure_def, Option.bind_some]

end Best

section Color
variable {g : IndexedGraph}

/-- One of two nodes is reached from the other along directed links. -/
def Connected (g : IndexedGraph) (u v : ℕ) : Prop :=
  Relation.ReflTransGen g.Link u v ∨ Relation.ReflTransGen g.Link v u

theorem IndexedGraph.IsPath.connected {p : List ℕ} (hp : g.IsPath p) {u v : ℕ} (hu : u ∈ p)
    (hv : v ∈ p) : Connected g u v := by
  have hpair : p.Pairwise (Relation.ReflTransGen g.Link) :=
    (hp.chain.imp fun _ _ h => Relation.ReflTransGen.single h).pairwise
  exact (hpair.imp fun h => (.inl h : Connected g _ _)).forall_of_forall_of_flip
    (fun _ _ => .inl .refl) (hpair.imp fun h => .inr h) hu hv

@[simp] theorem rewardAt_set {l : List ℕ} {nid : ℕ} (h : nid < l.length) (x v : ℕ) :
    rewardAt (l.set nid x) v = if nid = v then x else rewardAt l v := by
  unfold rewardAt
  rw [List.getD_eq_getElem?_getD, List.getD_eq_getElem?_getD, List.getElem?_set]
  split_ifs with hv
  · rfl
  · rfl

/-- The nodes with importance have no colour yet, and the others keep theirs. -/
structure Open (g : IndexedGraph) (maxNcolor : ℕ) (s : Coloring) : Prop where
  importance_length : s.importance.length = g.numNodes
  color_length : s.color.length = g.numNodes
  uncolored : ∀ v : ℕ, rewardAt s.importance v ≠ 0 → s.color[v]? = some maxNcolor

theorem sum_set_zero_le (l : List ℕ) (i : ℕ) : (l.set i 0).sum ≤ l.sum := by
  induction l generalizing i with
  | nil => simp
  | cons a l ih =>
    cases i with
    | zero => simp
    | succ i => simpa using ih i

/-- What the loop over a path does. -/
theorem foldlM_colorNode {maxNcolor : ℕ} (cindex : ℕ) (p : List ℕ) {s : Coloring}
    (h : Open g maxNcolor s) (hp : ∀ x ∈ p, x < g.numNodes) :
    ∃ s', p.foldlM (colorNode maxNcolor cindex) s = some s' ∧ Open g maxNcolor s' ∧
      s'.importance.sum ≤ s.importance.sum ∧
      ∀ v, s'.color[v]? =
        if v ∈ p ∧ rewardAt s.importance v ≠ 0 then some cindex else s.color[v]? := by
  induction p generalizing s with
  | nil => exact ⟨s, rfl, h, le_rfl, by simp⟩
  | cons x p ih =>
    have hx := hp x (by simp)
    have hp' : ∀ y ∈ p, y < g.numNodes := fun y hy => hp y (List.mem_cons_of_mem _ hy)
    rw [List.foldlM_cons]
    by_cases hzero : rewardAt s.importance x = 0
    · obtain ⟨s', hs', hopen, hsum, hcolor⟩ := ih h hp'
      refine ⟨s', by rw [colorNode, if_pos hzero]; exact hs', hopen, hsum, fun v => ?_⟩
      rw [hcolor]
      by_cases hv : v = x
      · simp [hv, hzero]
      · simp [hv]
    · set s₁ : Coloring :=
        { importance := s.importance.set x 0, color := s.color.set x cindex } with hs₁
      have hstep : colorNode maxNcolor cindex s x = some s₁ := by
        simp [colorNode, if_neg hzero, h.uncolored x hzero, guard, hs₁]
      have hlen : x < s.importance.length := by rw [h.importance_length]; exact hx
      have hcol : x < s.color.length := by rw [h.color_length]; exact hx
      have hopen₁ : Open g maxNcolor s₁ := by
        refine ⟨by simp [hs₁, h.importance_length], by simp [hs₁, h.color_length], fun v hv => ?_⟩
        simp only [hs₁, rewardAt_set hlen, List.getElem?_set] at hv ⊢
        split_ifs at hv ⊢ with hxv
        · exact absurd rfl hv
        · exact h.uncolored v hv
      obtain ⟨s', hs', hopen, hsum, hcolor⟩ := ih hopen₁ hp'
      refine ⟨s', by rw [hstep]; exact hs', hopen, hsum.trans (sum_set_zero_le _ _), fun v => ?_⟩
      rw [hcolor]
      simp only [hs₁, rewardAt_set hlen, List.getElem?_set]
      by_cases hv : x = v
      · subst hv
        simp [hzero, hcol]
      · simp [hv, Ne.symm hv]

/-- The colours so far are those of paths. -/
structure Colored (g : IndexedGraph) (maxNcolor cindex : ℕ) (s : Coloring) : Prop
    extends Open g maxNcolor s where
  color_lt : ∀ v c : ℕ, s.color[v]? = some c → c ≠ maxNcolor → c < cindex
  connected : ∀ u v c : ℕ, s.color[u]? = some c → s.color[v]? = some c → c ≠ maxNcolor →
    Connected g u v
  total : s.importance.sum < 2 ^ 32

/-- One path more. -/
theorem Colored.step {maxNcolor cindex : ℕ} {s : Coloring} (h : Colored g maxNcolor cindex s)
    {p : List ℕ} (hp : g.IsPath p) :
    ∃ s', p.foldlM (colorNode maxNcolor cindex) s = some s' ∧
      Colored g maxNcolor (cindex + 1) s' := by
  obtain ⟨s', hs', hopen, hsum, hcolor⟩ := foldlM_colorNode cindex p h.toOpen hp.lt
  have hnew : ∀ v c, s'.color[v]? = some c → c ≠ maxNcolor →
      (v ∈ p ∧ c = cindex) ∨ (s.color[v]? = some c ∧ c < cindex) := by
    intro v c hc hne
    rw [hcolor] at hc
    split_ifs at hc with hv
    · exact .inl ⟨hv.1, (Option.some.inj hc).symm⟩
    · exact .inr ⟨hc, h.color_lt v c hc hne⟩
  refine ⟨s', hs', hopen, fun v c hc hne => ?_, fun u v c hu hv hne => ?_, hsum.trans_lt h.total⟩
  · rcases hnew v c hc hne with ⟨-, rfl⟩ | ⟨-, hlt⟩ <;> omega
  · rcases hnew u c hu hne with ⟨hup, rfl⟩ | ⟨hu', hlt⟩
    · rcases hnew v c hv hne with ⟨hvp, -⟩ | ⟨-, hlt⟩
      · exact hp.connected hup hvp
      · omega
    · rcases hnew v c hv hne with ⟨-, rfl⟩ | ⟨hv', -⟩
      · omega
      · exact h.connected u v c hu' hv' hne

/-- The greedy loop runs to its end. -/
theorem Colored.greedy {maxNcolor cindex : ℕ} {s : Coloring}
    (h : Colored g maxNcolor cindex s) (rest : ℕ) :
    ∃ cindex' s', greedy g maxNcolor rest cindex s = some (cindex', s') ∧
      Colored g maxNcolor cindex' s' ∧ cindex' ≤ cindex + rest := by
  induction rest generalizing cindex s with
  | zero => exact ⟨cindex, s, rfl, h, le_rfl⟩
  | succ rest ih =>
    obtain ⟨best, path, hfind, hpath, -⟩ := mxFindBestPath_spec h.importance_length h.total
    rw [NodeColoring.greedy, hfind]
    by_cases hbest : best = 0
    · exact ⟨cindex, s, by simp [hbest], h, by omega⟩
    · obtain ⟨s', hs', hcolored⟩ := h.step hpath
      obtain ⟨cindex', s'', hgreedy, hcolored', hle⟩ := ih hcolored
      exact ⟨cindex', s'', by simp [hbest, hs', hgreedy], hcolored', by omega⟩

/-- The search finds a best path, and nodes of a colour before the last are on a path. -/
theorem path_colors_sequential {nodeImportance : List ℕ}
    (hlen : nodeImportance.length = g.numNodes) (htotal : nodeImportance.sum < 2 ^ 32)
    {maxNcolor : ℕ} (hmax : 1 ≤ maxNcolor) :
    (∃ best path, mxFindBestPath g nodeImportance = some (best, path) ∧ g.IsPath path ∧
      (0 < g.numNodes → path ≠ []) ∧ pathReward (rewardAt nodeImportance) path = best ∧
      ∀ p, g.IsPath p → pathReward (rewardAt nodeImportance) p ≤ best) ∧
    ∃ c color, mxColorNodeGroup g nodeImportance maxNcolor = some (c, color) ∧
      color.length = g.numNodes ∧ c ≤ maxNcolor ∧ (∀ x ∈ color, x < c) ∧
      ∀ u v x : ℕ, color[u]? = some x → color[v]? = some x → x < c - 1 →
        rewardAt nodeImportance u ≠ 0 → rewardAt nodeImportance v ≠ 0 → Connected g u v := by
  refine ⟨mxFindBestPath_spec hlen htotal, ?_⟩
  have hinit : Colored g maxNcolor 0
      { importance := nodeImportance, color := List.replicate g.numNodes maxNcolor } := by
    have hall : ∀ v c : ℕ, (List.replicate g.numNodes maxNcolor)[v]? = some c → c = maxNcolor :=
      fun v c h => List.eq_of_mem_replicate (List.mem_of_getElem? h)
    refine ⟨⟨hlen, List.length_replicate, fun v hv => ?_⟩, fun v c h hne => absurd (hall v c h) hne,
      fun u v c hu _ hne => absurd (hall u c hu) hne, htotal⟩
    have hlt : v < g.numNodes := by
      by_contra hge
      have hle : nodeImportance.length ≤ v := by omega
      exact hv (List.getD_eq_default _ _ hle)
    rw [List.getElem?_replicate, if_pos hlt]
  obtain ⟨cindex, s, hgreedy, hcolored, hle⟩ := hinit.greedy (maxNcolor - 1)
  refine ⟨cindex + 1, s.color.map fun c => if c = maxNcolor then cindex else c, ?_, ?_, by omega,
    fun x hx => ?_, fun u v x hu hv hx _ _ => ?_⟩
  · simp [mxColorNodeGroup, hlen, hgreedy, guard, show maxNcolor ≠ 0 by omega]
  · rw [List.length_map, hcolored.color_length]
  · obtain ⟨c, hc, rfl⟩ := List.mem_map.mp hx
    obtain ⟨v, hv⟩ := List.getElem?_of_mem hc
    split_ifs with hcm
    · omega
    · exact (hcolored.color_lt v c hv hcm).trans (Nat.lt_succ_self _)
  · have hold : ∀ w : ℕ, (s.color.map fun c => if c = maxNcolor then cindex else c)[w]? = some x →
        s.color[w]? = some x ∧ x ≠ maxNcolor := fun w hw => by
      rw [List.getElem?_map] at hw
      obtain ⟨c, hc, hif⟩ := Option.map_eq_some_iff.mp hw
      split_ifs at hif with hcm
      · omega
      · exact ⟨hif ▸ hc, hif ▸ hcm⟩
    exact hcolored.connected u v x (hold u hu).1 (hold v hv).1 (hold u hu).2

/-- A node, two that use it, and one that uses both. -/
def diamond : IndexedGraph where
  inputs := [[], [⟨0, 0⟩], [⟨0, 0⟩], [⟨1, 0⟩, ⟨2, 0⟩]]
  input_lt nid es h e he := by
    rcases nid with _ | _ | _ | _ | nid
    · simp_all
    · obtain rfl : [⟨0, 0⟩] = es := by simpa using h
      simp [List.mem_singleton.mp he]
    · obtain rfl : [⟨0, 0⟩] = es := by simpa using h
      simp [List.mem_singleton.mp he]
    · obtain rfl : [⟨1, 0⟩, ⟨2, 0⟩] = es := by simpa using h
      rcases List.mem_pair.mp he with rfl | rfl <;> decide
    · simp at h
  length_lt := by decide

theorem path_colors_sequential_diamond :
    ∃ c color, mxColorNodeGroup diamond [1, 5, 2, 1] 3 = some (c, color) ∧ color.length = 4 ∧
      c ≤ 3 ∧ (∀ x ∈ color, x < c) ∧
      ∀ u v x : ℕ, color[u]? = some x → color[v]? = some x → x < c - 1 →
        rewardAt [1, 5, 2, 1] u ≠ 0 → rewardAt [1, 5, 2, 1] v ≠ 0 → Connected diamond u v :=
  (path_colors_sequential (g := diamond) rfl (by decide) (by decide)).2

example : mxColorNodeGroup diamond [1, 5, 2, 1] 3 = some (3, [0, 0, 1, 0]) := by decide +kernel

end Color

end NodeColoring
end NetStorm

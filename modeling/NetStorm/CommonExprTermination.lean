import NetStorm.CommonExpr
import Mathlib.Data.Set.Card
import Mathlib.Algebra.Order.BigOperators.Group.List

/-!
# The elimination of common expressions ends

A round that inserts no copy takes the replaced nodes out of the graph, and a copy lies deeper than
the output that it stands for. An output is copied only because of an earlier output with the same
entry, so the depth of the output at position `i` stays below a bound that grows with `i`. Control
dependencies could lead back to a node that stands for another one, so there are none here.
-/
namespace NetStorm
namespace CommonExpr
variable {Op D : Type} [DecidableEq Op] [DecidableEq D]

def Graph.NoControlDeps (g : Graph Op D) : Prop := ∀ node ∈ g.heap, node.controlDeps = []

/-- The nodes below the outputs. -/
inductive Graph.Reaches (g : Graph Op D) : ℕ → Prop
  | output (e : NodeEntry) (he : e ∈ g.outputs) : g.Reaches e.node
  | input (n : ℕ) (e : NodeEntry) (hn : g.Reaches n) (he : e ∈ g.inputsOf n) : g.Reaches e.node

section Visit
variable {g : Graph Op D} {depth : ℕ → ℕ → ℕ}

omit [DecidableEq Op] [DecidableEq D]

theorem inputsOf_eq {n : ℕ} {node : Node Op D} (hnode : g.heap[n]? = some node) :
    g.inputsOf n = node.inputs := by
  rw [Graph.inputsOf, hnode, Option.elim_some]

theorem children_eq (hnone : g.NoControlDeps) (n : ℕ) :
    g.children n = (g.inputsOf n).map NodeEntry.node := by
  rw [Graph.children, Graph.inputsOf]
  cases hnode : g.heap[n]? with
  | none => rfl
  | some node => rw [Option.elim_some, Option.elim_some, hnone node (List.mem_of_getElem? hnode),
      List.append_nil]

theorem inputsOf_lt (hwf : g.WellFormed) {n : ℕ} {e : NodeEntry} (he : e ∈ g.inputsOf n) :
    e.node < g.heap.length := by
  rw [Graph.inputsOf] at he
  cases hnode : g.heap[n]? with
  | none => simp [hnode] at he
  | some node =>
    rw [hnode, Option.elim_some] at he
    exact hwf.inputs n node hnode e he

theorem Graph.Reaches.lt (hwf : g.WellFormed) {n : ℕ} (h : g.Reaches n) : n < g.heap.length := by
  cases h with
  | output e he => exact hwf.outputs e he
  | input n e _ he => exact inputsOf_lt hwf he

/-- The visit gives the nodes below the outputs. -/
theorem dfsVisit_eq (hwf : g.WellFormed) (hnone : g.NoControlDeps)
    (hdepth : Valuation depthSem (fun _ _ => 0) g.heap depth) :
    ∃ order, g.dfsVisit = some order ∧ ∀ n, n ∈ order ↔ g.Reaches n := by
  have hchildren : ∀ n c, c ∈ g.children n ↔ ∃ e ∈ g.inputsOf n, e.node = c := by
    intro n c
    rw [children_eq hnone, List.mem_map]
  have hrank : ∀ n, ∀ c ∈ g.children n, depth c 0 < depth n 0 := by
    intro n c hc
    obtain ⟨e, he, rfl⟩ := (hchildren n c).mp hc
    rw [Graph.inputsOf] at he
    cases hnode : g.heap[n]? with
    | none => simp [hnode] at he
    | some node =>
      rw [hnode, Option.elim_some] at he
      exact depth_lt hwf hdepth hnode he
  have hclosed : ∀ n ∈ Finset.range g.heap.length, ∀ c ∈ g.children n,
      c ∈ Finset.range g.heap.length := by
    intro n _ c hc
    obtain ⟨e, he, rfl⟩ := (hchildren n c).mp hc
    exact Finset.mem_range.mpr (inputsOf_lt hwf he)
  have hheads : ∀ n ∈ g.outputs.map NodeEntry.node, n ∈ Finset.range g.heap.length := by
    intro n hn
    obtain ⟨e, he, rfl⟩ := List.mem_map.mp hn
    exact Finset.mem_range.mpr (hwf.outputs e he)
  obtain ⟨order, hvisit, -, hsorted, hhead, -⟩ :=
    DFSVisit.postOrderDFSVisit_spec hrank hclosed hheads
  refine ⟨order, hvisit, fun n => ⟨fun hn => ?_, fun hn => ?_⟩⟩
  · refine (DFSVisit.postOrderDFSVisit_closed (P := g.Reaches) hvisit ?_ ?_).2 n hn
    · intro n hn
      obtain ⟨e, he, rfl⟩ := List.mem_map.mp hn
      exact .output e he
    · intro n hn c hc
      obtain ⟨e, he, rfl⟩ := (hchildren n c).mp hc
      exact .input n e hn he
  · induction hn with
    | output e he => exact hhead e.node (List.mem_map_of_mem he)
    | input n e _ he ih =>
      obtain ⟨a, b, horder⟩ := List.append_of_mem ih
      rw [horder]
      exact List.mem_append_left _ (hsorted a n b horder e.node ((hchildren n e.node).mpr ⟨e, he, rfl⟩))

end Visit

section Pairs
variable {g g' : Graph Op D} {p : ℕ × ℕ} {depth : ℕ → ℕ → ℕ} {order : List ℕ}

omit [DecidableEq Op] [DecidableEq D]

theorem Eliminated.inputsOf_eq (h : Eliminated g g' p order) (n : ℕ) :
    g'.inputsOf n =
      if n ∈ order then (g.inputsOf n).map (redirect p.1 p.2) else g.inputsOf n := by
  cases hnode' : g'.heap[n]? with
  | none =>
    have hnode : g.heap[n]? = none := by
      rw [List.getElem?_eq_none_iff] at hnode' ⊢
      rwa [← h.length]
    simp [Graph.inputsOf, hnode, hnode']
  | some node' =>
    obtain ⟨node, hnode, -, -, hinputs⟩ := h.node n node' hnode'
    rw [CommonExpr.inputsOf_eq hnode', CommonExpr.inputsOf_eq hnode, hinputs]

theorem convertInputs_redirect (inputs : List NodeEntry) :
    convertInputs (inputs.map (redirect p.1 p.2)) =
      (convertInputs inputs).map fun x => (if x.1 = p.2 then p.1 else x.1, x.2) := by
  simp [convertInputs, List.map_map, Function.comp_def]

/-- The nodes that the replaced one leads to are below the other one as well. -/
theorem mem_inputs_of_convertInputs {inputs inputs' : List NodeEntry}
    (h : convertInputs inputs = convertInputs inputs') {e : NodeEntry} (he : e ∈ inputs) :
    ∃ e' ∈ inputs', e'.node = e.node := by
  have hmem : (e.node, e.index) ∈ convertInputs inputs := List.mem_map.mpr ⟨e, he, rfl⟩
  rw [h] at hmem
  obtain ⟨e', he', heq⟩ := List.mem_map.mp hmem
  exact ⟨e', he', congrArg Prod.fst heq⟩

/-- A pair takes exactly the replaced node out of the graph. -/
theorem Eliminated.reaches_iff (h : Eliminated g g' p order)
    (horder : ∀ n, n ∈ order ↔ g.Reaches n) (hsrc : g.Reaches p.1) (hne : p.1 ≠ p.2)
    (hinputs : convertInputs (g.inputsOf p.1) = convertInputs (g.inputsOf p.2)) (n : ℕ) :
    g'.Reaches n ↔ g.Reaches n ∧ n ≠ p.2 := by
  have hafter : ∀ e : NodeEntry, g.Reaches e.node →
      g.Reaches (redirect p.1 p.2 e).node ∧ (redirect p.1 p.2 e).node ≠ p.2 := by
    intro e he
    rw [redirect_node]
    split_ifs with heq
    · exact ⟨hsrc, hne⟩
    · exact ⟨he, heq⟩
  have hbefore : ∀ n, g.Reaches n → g'.Reaches (if n = p.2 then p.1 else n) := by
    intro n hn
    induction hn with
    | output e he =>
      rw [← redirect_node]
      refine .output _ ?_
      rw [h.outputs]
      exact List.mem_map_of_mem he
    | input n e hn he ih =>
      -- the replaced node has the inputs of the other one
      obtain ⟨m, hm, hm', e', he', heq⟩ : ∃ m, g.Reaches m ∧ g'.Reaches m ∧
          ∃ e' ∈ g.inputsOf m, e'.node = e.node := by
        by_cases hnp : n = p.2
        · rw [if_pos hnp] at ih
          exact ⟨p.1, hsrc, ih, mem_inputs_of_convertInputs hinputs.symm (hnp ▸ he)⟩
        · rw [if_neg hnp] at ih
          exact ⟨n, hn, ih, e, he, rfl⟩
      rw [← heq, ← redirect_node]
      refine .input m _ hm' ?_
      rw [h.inputsOf_eq, if_pos ((horder m).mpr hm)]
      exact List.mem_map_of_mem he'
  constructor
  · intro hn
    induction hn with
    | output e he =>
      rw [h.outputs] at he
      obtain ⟨e, hmem, rfl⟩ := List.mem_map.mp he
      exact hafter e (.output e hmem)
    | input n e _ he ih =>
      rw [h.inputsOf_eq, if_pos ((horder n).mpr ih.1)] at he
      obtain ⟨e, hmem, rfl⟩ := List.mem_map.mp he
      exact hafter e (.input n e ih.1 hmem)
  · rintro ⟨hn, hnp⟩
    simpa [hnp] using hbefore n hn

/-- The pairs one after another: the replaced nodes leave the graph. -/
theorem eliminatePairs_reaches {pairs : List (ℕ × ℕ)} (hwf : g.WellFormed)
    (hnone : g.NoControlDeps) (hdepth : Valuation depthSem (fun _ _ => 0) g.heap depth)
    (heq : ∀ p ∈ pairs, depth p.1 = depth p.2)
    (hsrc : ∀ p ∈ pairs, g.Reaches p.1) (hnodup : (pairs.map Prod.snd).Nodup)
    (hne : ∀ p ∈ pairs, ∀ q ∈ pairs, p.1 ≠ q.2)
    (hreplaced : ∀ p ∈ pairs, g.Reaches p.2)
    (hinputs : ∀ p ∈ pairs, convertInputs (g.inputsOf p.1) = convertInputs (g.inputsOf p.2)) :
    ∃ g₁, pairs.foldlM eliminatePair g = some g₁ ∧ g₁.NoControlDeps ∧
      ∀ n, g₁.Reaches n ↔ g.Reaches n ∧ n ∉ pairs.map Prod.snd := by
  induction pairs generalizing g with
  | nil => exact ⟨g, rfl, hnone, by simp⟩
  | cons p pairs ih =>
    obtain ⟨order, hvisit, horder⟩ := dfsVisit_eq hwf hnone hdepth
    obtain ⟨g₂, hfirst⟩ : ∃ g₂, eliminatePair g p = some g₂ := by
      rw [eliminatePair, hvisit]
      exact ⟨_, rfl⟩
    obtain ⟨order', h⟩ := eliminatePair_spec hfirst
    obtain rfl := Option.some.inj (hvisit.symm.trans h.visit)
    have hreach := h.reaches_iff horder (hsrc p List.mem_cons_self)
      (hne p List.mem_cons_self p List.mem_cons_self) (hinputs p List.mem_cons_self)
    have hwf₂ := h.wellFormed hwf ((hsrc p List.mem_cons_self).lt hwf)
    obtain ⟨hdepth₂, -⟩ := h.valuation hdepth (heq p List.mem_cons_self)
    obtain ⟨hnotin, hnodup⟩ := List.nodup_cons.mp hnodup
    have hnot : ∀ q ∈ pairs, q.2 ≠ p.2 := fun q hq hqp =>
      hnotin (hqp ▸ List.mem_map_of_mem hq)
    have hin : ∀ q ∈ pairs, q ∈ p :: pairs := fun q hq => List.mem_cons_of_mem _ hq
    obtain ⟨g₁, hrest, hnone₁, hreach₁⟩ := ih hwf₂ (h.controlDeps hnone) hdepth₂
      (fun q hq => heq q (hin q hq))
      (fun q hq => (hreach _).mpr ⟨hsrc q (hin q hq), hne q (hin q hq) p List.mem_cons_self⟩) hnodup
      (fun q hq q' hq' => hne q (hin q hq) q' (hin q' hq'))
      (fun q hq => (hreach _).mpr ⟨hreplaced q (hin q hq), hnot q hq⟩) fun q hq => by
        rw [h.inputsOf_eq, h.inputsOf_eq, if_pos ((horder _).mpr (hsrc q (hin q hq))),
          if_pos ((horder _).mpr (hreplaced q (hin q hq))), convertInputs_redirect,
          convertInputs_redirect, hinputs q (hin q hq)]
    refine ⟨g₁, by rw [List.foldlM_cons, hfirst]; exact hrest, hnone₁, fun n => ?_⟩
    rw [hreach₁, hreach, List.map_cons, List.mem_cons, not_or, and_assoc]

end Pairs

section Termination
variable {c : Registry Op D} {g g' : Graph Op D} {depth : ℕ → ℕ → ℕ} {bound : ℕ}
  {byAddress : Graph Op D → List (List (ℕ × ℕ) × List ℕ) → List (List (ℕ × ℕ) × List ℕ)}

/-- How deep the outputs can still get. -/
def slack (bound : ℕ) (depth : ℕ → ℕ → ℕ) (outputs : List NodeEntry) : ℕ :=
  ∑ i ∈ Finset.range outputs.length,
    (outputs[i]?).elim 0 fun e => bound + i - depth e.node 0

/-- The bound for the outputs. -/
def Bounded (bound : ℕ) (depth : ℕ → ℕ → ℕ) (outputs : List NodeEntry) : Prop :=
  ∀ (i : ℕ) (e : NodeEntry), outputs[i]? = some e → depth e.node 0 ≤ bound + i

omit [DecidableEq Op] [DecidableEq D] in
/-- A copy lies one deeper than its output, and within the bound. -/
theorem Copied.depth_le (h : Copied c g.heap [] g.outputs g')
    (hwf : g.WellFormed) {depth' : ℕ → ℕ → ℕ}
    (hdepth : Valuation depthSem (fun _ _ => 0) g.heap depth)
    (hdepth' : Valuation depthSem (fun _ _ => 0) g'.heap depth')
    (hold : ∀ n < g.heap.length, depth' n = depth n) (hbound : Bounded bound depth g.outputs) :
    Bounded bound depth' g'.outputs ∧
      ∀ (i : ℕ) (e e' : NodeEntry), g.outputs[i]? = some e → g'.outputs[i]? = some e' →
        depth e.node 0 ≤ depth' e'.node 0 ∧
          (g.heap.length ≤ e'.node → depth e.node 0 < depth' e'.node 0) := by
  have hcases : ∀ (i : ℕ) (e e' : NodeEntry), g.outputs[i]? = some e → g'.outputs[i]? = some e' →
      depth' e'.node 0 = depth e.node 0 ∧ e'.node < g.heap.length ∨
        depth' e'.node 0 = depth e.node 0 + 1 ∧ depth e.node 0 < bound + i := by
    intro i e e' he he'
    have hlt := hwf.outputs e (List.mem_of_getElem? he)
    obtain ⟨e₁, he₁, hcopied⟩ := h.output i e he
    obtain rfl := Option.some.inj (he'.symm.trans he₁)
    rcases hcopied with rfl | ⟨-, -, ⟨node, hnode, hcopy⟩, hfirst⟩
    · exact .inl ⟨by rw [hold _ hlt], hlt⟩
    · refine .inr ⟨?_, ?_⟩
      · rw [hdepth' _ node hnode, Node.eval, hcopy.op, hcopy.inputs]
        simp only [depthSem, List.map_cons, List.map_nil, List.foldr_cons, List.foldr_nil,
          hold _ hlt, depth_index hdepth hlt, Nat.max_zero]
      · rcases hfirst with hmem | ⟨j, hj, hej, -⟩
        · cases hmem
        · have := hbound j e hej
          omega
  refine ⟨fun i e' he' => ?_, fun i e e' he he' => ?_⟩
  · have hi := (List.getElem?_eq_some_iff.mp he').1
    rw [h.length] at hi
    have he := List.getElem?_eq_getElem hi
    have := hbound i _ he
    rcases hcases i _ e' he he' with ⟨heq, -⟩ | ⟨heq, hlt⟩ <;> omega
  · rcases hcases i e e' he he' with ⟨heq, hlt⟩ | ⟨heq, -⟩
    · exact ⟨heq.ge, fun hle => absurd hlt (not_lt.mpr hle)⟩
    · omega

omit [DecidableEq Op] [DecidableEq D] in
/-- A round that inserts a copy uses up some of the depth. -/
theorem Copied.slack_lt (h : Copied c g.heap [] g.outputs g') (hwf : g.WellFormed)
    {depth' : ℕ → ℕ → ℕ} (hdepth : Valuation depthSem (fun _ _ => 0) g.heap depth)
    (hdepth' : Valuation depthSem (fun _ _ => 0) g'.heap depth')
    (hold : ∀ n < g.heap.length, depth' n = depth n) (hbound : Bounded bound depth g.outputs)
    {i : ℕ} {e e' : NodeEntry} (he : g.outputs[i]? = some e) (he' : g'.outputs[i]? = some e')
    (hnew : g.heap.length ≤ e'.node) :
    slack bound depth' g'.outputs < slack bound depth g.outputs := by
  obtain ⟨hbound', hdeeper⟩ := h.depth_le hwf hdepth hdepth' hold hbound
  have hi := (List.getElem?_eq_some_iff.mp he).1
  rw [slack, slack, h.length]
  refine Finset.sum_lt_sum (fun j hj => ?_) ⟨i, Finset.mem_range.mpr hi, ?_⟩
  · have hlt := Finset.mem_range.mp hj
    obtain ⟨e₁, he₁⟩ : ∃ e₁, g.outputs[j]? = some e₁ := ⟨_, List.getElem?_eq_getElem hlt⟩
    obtain ⟨e₂, he₂⟩ : ∃ e₂, g'.outputs[j]? = some e₂ :=
      ⟨_, List.getElem?_eq_getElem (h.length ▸ hlt)⟩
    have := (hdeeper j e₁ e₂ he₁ he₂).1
    rw [he₁, he₂, Option.elim_some, Option.elim_some]
    omega
  · have := (hdeeper i e e' he he').2 hnew
    have := hbound i e he
    have := hbound' i e' he'
    rw [he, he', Option.elim_some, Option.elim_some]
    omega

omit [DecidableEq Op] [DecidableEq D] in
/-- The nodes of a round without copies are fewer. -/
theorem ncard_reaches_lt {g₁ : Graph Op D} {replaced : List ℕ} (hwf : g.WellFormed) {n : ℕ}
    (hreach : ∀ n, g₁.Reaches n ↔ g.Reaches n ∧ n ∉ replaced) (hn : g.Reaches n)
    (hreplaced : n ∈ replaced) : { m | g₁.Reaches m }.ncard < { m | g.Reaches m }.ncard := by
  refine Set.ncard_lt_ncard ⟨fun m hm => ((hreach m).mp hm).1, fun hsub => ?_⟩ ?_
  · exact ((hreach n).mp (hsub hn)).2 hreplaced
  · exact (Set.finite_lt_nat g.heap.length).subset fun m hm => hm.lt hwf

omit [DecidableEq Op] [DecidableEq D] in
theorem Copied.noControlDeps (h : Copied c g.heap [] g.outputs g') (hnone : g.NoControlDeps) :
    g'.NoControlDeps := by
  obtain ⟨new, hheap, hnew⟩ := h.appended
  intro node hnode
  rcases List.mem_append.mp (hheap ▸ hnode) with hnode | hnode
  · exact hnone node hnode
  · obtain ⟨e, -, hcopy⟩ := hnew node hnode
    exact hcopy.controlDeps

omit [DecidableEq Op] [DecidableEq D] in
theorem outputValues_depth (hwf : g.WellFormed)
    (hdepth : Valuation depthSem (fun _ _ => 0) g.heap depth) :
    g.outputValues depth = g.outputs.map fun e => depth e.node 0 :=
  List.map_congr_left fun e he => depth_index hdepth (hwf.outputs e he) e.index

/-- Only the depths of the outputs matter. -/
theorem bounded_slack_congr {depth' : ℕ → ℕ → ℕ} {outputs outputs' : List NodeEntry}
    (h : (outputs'.map fun e => depth' e.node 0) = outputs.map fun e => depth e.node 0) :
    (Bounded bound depth outputs → Bounded bound depth' outputs') ∧
      slack bound depth' outputs' = slack bound depth outputs := by
  have hat : ∀ i : ℕ, (outputs'[i]?.map fun e => depth' e.node 0) =
      outputs[i]?.map fun e => depth e.node 0 := fun i => by
    rw [← List.getElem?_map, h, List.getElem?_map]
  have hlength : outputs'.length = outputs.length := by simpa using congrArg List.length h
  refine ⟨fun hbound i e' he' => ?_, ?_⟩
  · have hi := hat i
    rw [he', Option.map_some] at hi
    obtain ⟨e, he, heq⟩ := Option.map_eq_some_iff.mp hi.symm
    rw [← heq]
    exact hbound i e he
  · rw [slack, slack, hlength]
    refine Finset.sum_congr rfl fun i _ => ?_
    have hi := congrArg (fun o : Option ℕ => o.elim 0 fun d => bound + i - d) (hat i)
    simpa only [Option.elim_map, Function.comp_def] using hi

/-- A round of the loop that has found something. The second component of the measure falls if no
copy is inserted, and the first one otherwise. -/
theorem round_decreases (hperm : ∀ g groups, (byAddress g groups).Perm groups) (hwf : g.WellFormed)
    (hnone : g.NoControlDeps) (hdepth : Valuation depthSem (fun _ _ => 0) g.heap depth)
    (hbound : Bounded bound depth g.outputs) {pairs : List (ℕ × ℕ)}
    (hpairs : getCommonNodes c byAddress g = some pairs) (hne : pairs ≠ []) :
    ∃ g' depth', eliminateCommonNodes c g pairs = some g' ∧ g'.WellFormed ∧ g'.NoControlDeps ∧
      Valuation depthSem (fun _ _ => 0) g'.heap depth' ∧ Bounded bound depth' g'.outputs ∧
        (slack bound depth' g'.outputs < slack bound depth g.outputs ∨
          slack bound depth' g'.outputs = slack bound depth g.outputs ∧
            { m | g'.Reaches m }.ncard < { m | g.Reaches m }.ncard) := by
  obtain ⟨order, hvisit, -, hpairing, hinputs⟩ := getCommonNodes_spec hperm hpairs
  obtain ⟨order', hvisit', horder⟩ := dfsVisit_eq hwf hnone hdepth
  obtain rfl := Option.some.inj (hvisit.symm.trans hvisit')
  have hsame : ∀ p ∈ pairs, depth p.1 = depth p.2 := fun p hp =>
    pair_val_eq (depthSem_functional c) hdepth (hpairing.equal p hp) (hinputs p hp)
  obtain ⟨g₁, hfold, hnone₁, hreach⟩ := eliminatePairs_reaches hwf hnone hdepth hsame
    (fun p hp => (horder _).mp (hpairing.src p hp)) hpairing.nodup hpairing.ne
    (fun p hp => (horder _).mp (hpairing.replaced p hp)) hinputs
  have hround : eliminateCommonNodes c g pairs = some (insertCopies c g₁.heap [] g₁.outputs) := by
    rw [eliminateCommonNodes, hfold]
    rfl
  obtain ⟨g₂, hwf₁, hlength, hfold₂, hcopied, hwf', hkeep⟩ := round_spec hperm hwf hpairs hround
  obtain rfl := Option.some.inj (hfold.symm.trans hfold₂)
  obtain ⟨hdepth₁, houtputs⟩ := hkeep depthSem _ depth (depthSem_functional c) hdepth
  have hdepths : (g₁.outputs.map fun e => depth e.node 0) =
      g.outputs.map fun e => depth e.node 0 := by
    rw [← outputValues_depth hwf hdepth, ← outputValues_depth hwf₁ hdepth₁, houtputs]
  have hcongr : (Bounded bound depth g.outputs → Bounded bound depth g₁.outputs) ∧
      slack bound depth g₁.outputs = slack bound depth g.outputs := bounded_slack_congr hdepths
  obtain ⟨depth', hdepth', hold⟩ := hcopied.valuation hwf₁ hwf₁.outputs hdepth₁
  obtain ⟨hbound', -⟩ := hcopied.depth_le hwf₁ hdepth₁ hdepth' hold (hcongr.1 hbound)
  refine ⟨_, depth', hround, hwf', hcopied.noControlDeps hnone₁, hdepth', hbound', ?_⟩
  rcases hcopied.fresh with ⟨hheap, houtputs'⟩ | ⟨i, e, e', he, he', hnew⟩
  · -- nothing was inserted
    right
    obtain ⟨p, rest, rfl⟩ := List.exists_cons_of_ne_nil hne
    rw [Graph.ext hheap houtputs'] at hdepth' ⊢
    refine ⟨?_, ncard_reaches_lt hwf hreach ((horder _).mp (hpairing.replaced p
      List.mem_cons_self)) List.mem_cons_self⟩
    rw [← hcongr.2]
    refine (bounded_slack_congr ?_).2
    refine List.map_congr_left fun e he => ?_
    rw [hold _ (hwf₁.outputs e he)]
  · left
    rw [← hcongr.2]
    exact hcopied.slack_lt hwf₁ hdepth₁ hdepth' hold (hcongr.1 hbound) he he' hnew

/-- The loop ends, when nothing is common any more. -/
theorem eliminateCommonExpr_terminates (hperm : ∀ g groups, (byAddress g groups).Perm groups)
    {s k : ℕ} (hwf : g.WellFormed) (hnone : g.NoControlDeps)
    (hdepth : Valuation depthSem (fun _ _ => 0) g.heap depth)
    (hbound : Bounded bound depth g.outputs) (hs : slack bound depth g.outputs = s)
    (hk : { m | g.Reaches m }.ncard = k) :
    ∃ fuel g', eliminateCommonExpr c byAddress fuel g = some g' ∧
      getCommonNodes c byAddress g' = some [] := by
  -- first on the depth that is left, and then on the number of the nodes
  induction s using Nat.strong_induction_on generalizing k g depth with
  | _ s ihs =>
    induction k using Nat.strong_induction_on generalizing g depth with
    | _ k ihk =>
      obtain ⟨order, hvisit, -⟩ := dfsVisit_eq hwf hnone hdepth
      obtain ⟨pairs, hpairs⟩ : ∃ pairs, getCommonNodes c byAddress g = some pairs := by
        rw [getCommonNodes, hvisit]
        exact ⟨_, rfl⟩
      by_cases hempty : pairs = []
      · refine ⟨1, g, ?_, hempty ▸ hpairs⟩
        rw [eliminateCommonExpr, hpairs]
        simp [hempty]
      · obtain ⟨g₂, depth₂, hround, hwf₂, hnone₂, hdepth₂, hbound₂, hless⟩ :=
          round_decreases hperm hwf hnone hdepth hbound hpairs hempty
        obtain ⟨fuel, g', hrun, hdone⟩ : ∃ fuel g', eliminateCommonExpr c byAddress fuel g₂ =
            some g' ∧ getCommonNodes c byAddress g' = some [] := by
          rcases hless with hless | ⟨hequal, hless⟩
          · exact ihs _ (hs ▸ hless) hwf₂ hnone₂ hdepth₂ hbound₂ rfl rfl
          · exact ihk _ (hk ▸ hless) hwf₂ hnone₂ hdepth₂ hbound₂ (hequal.trans hs) rfl
        refine ⟨fuel + 1, g', ?_, hdone⟩
        rw [eliminateCommonExpr, hpairs]
        simp [hempty, hround, hrun]

/-- On an acyclic graph the pass ends, whatever the addresses of the nodes are. It leaves a graph in
which no nodes are common, and whose outputs have the values of the outputs of the given graph. -/
theorem eliminateCommonExpr_correct (c : Registry Op D)
    (hperm : ∀ g groups, (byAddress g groups).Perm groups) (hwf : g.WellFormed)
    (hacyclic : g.Acyclic) (hnone : g.NoControlDeps) :
    ∃ fuel g', eliminateCommonExpr c byAddress fuel g = some g' ∧
      getCommonNodes c byAddress g' = some [] ∧ g'.WellFormed ∧ g'.Acyclic ∧
        ∀ (V : Type) (sem : ℕ → Op → D → List V → ℕ → V) (env val val' : ℕ → ℕ → V),
          Functional c sem → (∀ n x, sem n c.copyOp c.emptyDict [x] 0 = x) →
            Valuation sem env g.heap val → Valuation sem env g'.heap val' →
              g'.outputValues val' = g.outputValues val := by
  obtain ⟨depth, hdepth⟩ := exists_valuation hacyclic depthSem fun _ _ => 0
  have hbound : Bounded ((g.outputs.map fun e => depth e.node 0).foldr max 0) depth g.outputs := by
    intro i e he
    have hmem : depth e.node 0 ∈ g.outputs.map fun e => depth e.node 0 :=
      List.mem_map.mpr ⟨e, List.mem_of_getElem? he, rfl⟩
    exact (le_foldr_max hmem).trans (Nat.le_add_right _ i)
  obtain ⟨fuel, g', hrun, hdone⟩ := eliminateCommonExpr_terminates (c := c) hperm hwf hnone hdepth
    hbound rfl rfl
  obtain ⟨hwf', hacyclic'⟩ := eliminateCommonExpr_wellFormed hperm hwf hacyclic hrun
  refine ⟨fuel, g', hrun, hdone, hwf', hacyclic', ?_⟩
  intro V sem env val val' hfunctional hcopy hval hval'
  obtain ⟨val₁, hval₁, houtputs⟩ :=
    eliminateCommonExpr_values hperm hwf hrun hfunctional hcopy hval
  rw [← houtputs]
  refine List.map_congr_left fun e he => ?_
  rw [hval'.unique hacyclic' hwf' hval₁ (hwf'.outputs e he)]

end Termination

/-- Two equal nodes, which are both outputs. -/
def twiceGraph : Graph ℕ Unit where
  heap := [{ op := none, dict := () }, { op := some 1, dict := (), inputs := [⟨0, 0, 0⟩] },
    { op := some 1, dict := (), inputs := [⟨0, 0, 0⟩] }]
  outputs := [⟨1, 0, 0⟩, ⟨2, 0, 0⟩]

def twiceRegistry : Registry ℕ Unit where
  mutatesInputs _ := false
  stateful _ := false
  deterministic _ := none
  requestsResource _ := false
  requestsResourceEx _ := false
  copyOp := 0
  emptyDict := ()

theorem eliminateCommonExpr_correct_twice :
    getCommonNodes twiceRegistry (fun _ groups => groups) twiceGraph = some [(1, 2)] ∧
    ∃ fuel g', eliminateCommonExpr twiceRegistry (fun _ groups => groups) fuel twiceGraph =
        some g' ∧
      getCommonNodes twiceRegistry (fun _ groups => groups) g' = some [] ∧ g'.WellFormed ∧
        g'.Acyclic ∧
        ∀ (V : Type) (sem : ℕ → ℕ → Unit → List V → ℕ → V) (env val val' : ℕ → ℕ → V),
          Functional twiceRegistry sem →
            (∀ n x, sem n twiceRegistry.copyOp twiceRegistry.emptyDict [x] 0 = x) →
              Valuation sem env twiceGraph.heap val → Valuation sem env g'.heap val' →
                g'.outputValues val' = twiceGraph.outputValues val := by
  have hinputs : ∀ (n : ℕ) (node : Node ℕ Unit), twiceGraph.heap[n]? = some node →
      ∀ e ∈ node.inputs, e.node < n ∧ e.node < 3 := by
    intro n node hnode e he
    have hn : n < 3 := (List.getElem?_eq_some_iff.mp hnode).1
    obtain rfl | rfl | rfl : n = 0 ∨ n = 1 ∨ n = 2 := by omega
    · obtain rfl := Option.some.inj hnode
      cases he
    all_goals
      obtain rfl := Option.some.inj hnode
      obtain rfl := List.mem_singleton.mp he
      decide
  refine ⟨by decide +kernel, eliminateCommonExpr_correct twiceRegistry (fun _ _ => .refl _)
    ⟨fun n node hnode e he => (hinputs n node hnode e he).2, ?_, ?_⟩
    ⟨id, fun n node hnode e he => (hinputs n node hnode e he).1⟩ ?_⟩
  · simp [twiceGraph]
  · simp [twiceGraph]
  · simp [Graph.NoControlDeps, twiceGraph]

end CommonExpr
end NetStorm

import NetStorm.GradientPass
import Mathlib.Algebra.BigOperators.Pi
import Mathlib.Tactic.Abel

/-!
# The backward traversal keeps the derivative

A perturbation of one entry of the graph moves the entries that depend on it by their
tangents. The pairing of the collected gradients with the tangents, summed over the nodes
that are still to come, and the pairing of the sums with the perturbation, over the nodes that
are passed, keep their total when the traversal goes on by a node: this is what an exact
vector-Jacobian product says of one operator.
-/
namespace NetStorm
namespace GradientPass
open DFSVisit (TopoSorted)
variable {Op V S : Type} [AddCommGroup V] [AddCommGroup S]

/-- The value of an entry, zero if it denotes none. -/
def value (w : List (ValueNode Op V)) (e : NodeEntry) : V := (den w e).getD 0

/-- The entry denotes a value. -/
def Denotes (w : List (ValueNode Op V)) (e : NodeEntry) : Prop := den w e = some (value w e)

/-- A graph without cycles, with inputs that are outputs of its nodes. -/
structure WellFormed (g : List Node) : Prop where
  acyclic : ∀ n, ∀ m ∈ children g n, m < n
  inputs : ∀ (n : ℕ) (node : Node), g[n]? = some node → ∀ e ∈ node.inputs,
    ∃ src : Node, g[e.1]? = some src ∧ e.2 < src.numOutputs
  noInputs : ∀ (n : ℕ) (node : Node), g[n]? = some node → node.isVariable = true → node.inputs = []

/-- The number of outputs of a node. -/
def numOutputs (g : List Node) (n : ℕ) : ℕ := (g[n]?).elim 0 Node.numOutputs

/-- What moves at an output when the entry `x` is moved by `δ`, for the Jacobian-vector products
`jvp` of the operators. -/
def tangent (g : List Node) (jvp : ℕ → List V → ℕ → V) (x : ℕ × ℕ) (δ : V) (n i : ℕ) : V :=
  (if (n, i) = x then δ else 0) +
    match g[n]? with
    | none => 0
    | some node =>
      if node.inputs = [] then 0
      else jvp n (node.inputs.map fun e =>
        if _h : e.1 < n then tangent g jvp x δ e.1 e.2 else 0) i
termination_by n

/-- What the pass relies on. The aggregation is the sum, the hint keeps the value, and `FGradient`
gives the exact vector-Jacobian products: paired with any tangents of the inputs they are the
out-gradients paired with the tangents of the outputs. -/
structure Exact (c : Config Op V) (g : List Node) (pair : V →+ V →+ S)
    (jvp : ℕ → List V → ℕ → V) : Prop where
  agg : ∀ w v, (∀ e ∈ v, Denotes w e) → ∃ w' e left, c.aggFun w v = some (w', e, left) ∧
    w <+: w' ∧ den w' e = some (v.map (value w)).sum
  hint : ∀ f, c.attrHintFun = some f → ∀ w e like, Denotes w e → ∃ w' e',
    f w e like = some (w', e') ∧ w <+: w' ∧ den w' e' = some (value w e)
  gradient : ∀ (n : ℕ) (node : Node), g[n]? = some node → node.isVariable = false → node.inputs ≠ [] →
    ∃ f, c.fGradient n = some f ∧ ∀ w outs, outs.length = node.numOutputs →
      (∀ e ∈ outs, Denotes w e) → ∃ w' grads, f w outs = some (w', grads) ∧ w <+: w' ∧
        grads.length = node.inputs.length ∧ (∀ e ∈ grads, Denotes w' e) ∧
        ∀ ds : List V, ds.length = node.inputs.length →
          (List.zipWith (fun e d => pair (value w' e) d) grads ds).sum =
            ∑ i ∈ Finset.range node.numOutputs,
              pair ((outs.map (value w)).getD i 0) (jvp n ds i)

omit [AddCommGroup V] in
theorem den_of_extends {w w' : List (ValueNode Op V)} (h : w <+: w') {e : NodeEntry} {a : V}
    (he : den w e = some a) : den w' e = some a := by
  obtain ⟨ext, rfl⟩ := h
  unfold den at he ⊢
  obtain ⟨n, hn, he⟩ := Option.bind_eq_some_iff.mp he
  obtain ⟨node, hnode, he⟩ := Option.bind_eq_some_iff.mp he
  obtain ⟨hlt, -⟩ := List.getElem?_eq_some_iff.mp hnode
  rw [hn, Option.bind_some, List.getElem?_append_left hlt, hnode]
  exact he

theorem value_of_den {w : List (ValueNode Op V)} {e : NodeEntry} {a : V} (h : den w e = some a) :
    value w e = a := by
  rw [value, h]
  rfl

theorem Denotes.of_den {w : List (ValueNode Op V)} {e : NodeEntry} {a : V}
    (h : den w e = some a) : Denotes w e := by
  rw [Denotes, value_of_den h, h]

theorem Denotes.value_of_extends {w w' : List (ValueNode Op V)} (h : w <+: w') {e : NodeEntry}
    (he : Denotes w e) : value w' e = value w e := value_of_den (den_of_extends h he)

theorem Denotes.of_extends {w w' : List (ValueNode Op V)} (h : w <+: w') {e : NodeEntry}
    (he : Denotes w e) : Denotes w' e := Denotes.of_den (den_of_extends h he)

theorem Denotes.node_isNone {w : List (ValueNode Op V)} {e : NodeEntry} (h : Denotes w e) :
    e.node.isNone = false := by
  unfold Denotes den at h
  cases hn : e.node with
  | none => simp [hn] at h
  | some n => rfl

section Cells
variable (num : ℕ → ℕ)

/-- The sum over the outputs of some nodes. -/
def cellSum (nodes : List ℕ) (f : ℕ × ℕ → S) : S :=
  (nodes.map fun n => ∑ i ∈ Finset.range (num n), f (n, i)).sum

theorem cellSum_append (a b : List ℕ) (f : ℕ × ℕ → S) :
    cellSum num (a ++ b) f = cellSum num a f + cellSum num b f := by
  simp [cellSum]

theorem cellSum_add (nodes : List ℕ) (f f' : ℕ × ℕ → S) :
    cellSum num nodes (fun c => f c + f' c) = cellSum num nodes f + cellSum num nodes f' := by
  induction nodes with
  | nil => simp [cellSum]
  | cons n nodes ih =>
    simp only [cellSum, List.map_cons, List.sum_cons, Finset.sum_add_distrib] at ih ⊢
    rw [ih]
    abel

theorem cellSum_congr {nodes : List ℕ} {f f' : ℕ × ℕ → S}
    (h : ∀ c, c.1 ∈ nodes → c.2 < num c.1 → f c = f' c) :
    cellSum num nodes f = cellSum num nodes f' := by
  unfold cellSum
  congr 1
  apply List.map_congr_left
  intro n hn
  apply Finset.sum_congr rfl
  intro i hi
  exact h (n, i) hn (Finset.mem_range.mp hi)

theorem cellSum_zero (nodes : List ℕ) : cellSum num nodes (fun _ => (0 : S)) = 0 := by
  simp [cellSum]

/-- A function that is zero but at one output sums to its value there. -/
theorem cellSum_single {nodes : List ℕ} (hnodup : nodes.Nodup) {c : ℕ × ℕ} (hc : c.1 ∈ nodes)
    (hi : c.2 < num c.1) {f : ℕ × ℕ → S} (hf : ∀ c', c' ≠ c → f c' = 0) :
    cellSum num nodes f = f c := by
  induction nodes with
  | nil => simp at hc
  | cons n nodes ih =>
    obtain ⟨hn, hnodup⟩ := List.nodup_cons.mp hnodup
    rw [← List.singleton_append, cellSum_append]
    by_cases hcn : c.1 = n
    · have hrest : cellSum num nodes f = 0 := by
        rw [← cellSum_zero num nodes]
        apply cellSum_congr
        intro c' hc' _
        apply hf
        rintro rfl
        exact hn (hcn ▸ hc')
      have hfirst : cellSum num [n] f = f c := by
        subst hcn
        simp only [cellSum, List.map_cons, List.map_nil, List.sum_cons, List.sum_nil, add_zero]
        rw [Finset.sum_eq_single c.2]
        · intro i _ hne
          exact hf _ fun h => hne (congrArg Prod.snd h)
        · intro hnot
          exact absurd (Finset.mem_range.mpr hi) hnot
      rw [hfirst, hrest, add_zero]
    · have hfirst : cellSum num [n] f = 0 := by
        rw [← cellSum_zero num [n]]
        apply cellSum_congr
        intro c' hc' _
        apply hf
        rintro rfl
        exact hcn (by simpa using hc')
      rw [hfirst, zero_add]
      exact ih hnodup ((List.mem_cons.mp hc).resolve_left hcn)

end Cells

theorem tangent_eq {g : List Node} (hg : WellFormed g) (jvp : ℕ → List V → ℕ → V) (x : ℕ × ℕ)
    (δ : V) {n : ℕ} {node : Node} (hn : g[n]? = some node) (i : ℕ) :
    tangent g jvp x δ n i = (if (n, i) = x then δ else 0) +
      if node.inputs = [] then 0
      else jvp n (node.inputs.map fun e => tangent g jvp x δ e.1 e.2) i := by
  have hinputs : (node.inputs.map fun e =>
      if _h : e.1 < n then tangent g jvp x δ e.1 e.2 else 0) =
        node.inputs.map fun e => tangent g jvp x δ e.1 e.2 := by
    apply List.map_congr_left
    intro e he
    have hlt : e.1 < n := by
      apply hg.acyclic n
      simp only [children, hn, Option.elim_some, List.mem_append]
      exact Or.inl (List.mem_map_of_mem he)
    rw [dif_pos hlt]
  rw [tangent.eq_def, hn]
  simp only [hinputs]

/-- The entry of an output in `output_grads`. -/
def entryAt (og : OutputGrads) (c : ℕ × ℕ) : Option GradEntry := (og c.1).bind (·[c.2]?)

/-- What an entry stands for: its sum if there is one, else the sum of what it has collected. -/
def entryValue (w : List (ValueNode Op V)) (e : GradEntry) : V :=
  if e.sum.node.isNone then (e.grads.map (value w)).sum else value w e.sum

def entryVal (w : List (ValueNode Op V)) (og : OutputGrads) (c : ℕ × ℕ) : V :=
  (entryAt og c).elim 0 (entryValue w)

/-- The sum of an entry denotes a value, or there is none and all that it has collected does. -/
def Sound (w : List (ValueNode Op V)) (e : GradEntry) : Prop :=
  if e.sum.node.isNone then ∀ x ∈ e.grads, Denotes w x else Denotes w e.sum

/-- The entries in the traversal, when the nodes of `pre` are still to come. -/
structure Ready (g : List Node) (order pre : List ℕ) (w : List (ValueNode Op V))
    (og : OutputGrads) : Prop where
  sizes : ∀ n, (og n).map List.length = if n ∈ order then some (numOutputs g n) else none
  sound : ∀ c e, entryAt og c = some e → Sound w e
  pending : ∀ c e, entryAt og c = some e → c.1 ∈ pre → e.sum.node.isNone = true

theorem entryValue_of_extends {w w' : List (ValueNode Op V)} (h : w <+: w') {e : GradEntry}
    (he : Sound w e) : entryValue w' e = entryValue w e := by
  unfold Sound at he
  unfold entryValue
  split_ifs at he ⊢
  · congr 1
    exact List.map_congr_left fun x hx => (he x hx).value_of_extends h
  · exact he.value_of_extends h

theorem Sound.of_extends {w w' : List (ValueNode Op V)} (h : w <+: w') {e : GradEntry}
    (he : Sound w e) : Sound w' e := by
  unfold Sound at he ⊢
  split_ifs at he ⊢
  · exact fun x hx => (he x hx).of_extends h
  · exact he.of_extends h

theorem sound_of_den {w : List (ValueNode Op V)} {e : GradEntry} {a : V}
    (h : den w e.sum = some a) : Sound w e ∧ entryValue w e = a := by
  have hden := Denotes.of_den h
  have hnot : ¬ e.sum.node.isNone = true := by simp [hden.node_isNone]
  rw [Sound, entryValue, if_neg hnot, if_neg hnot]
  exact ⟨hden, value_of_den h⟩

theorem Ready.of_extends {g : List Node} {order pre : List ℕ} {w w' : List (ValueNode Op V)}
    {og : OutputGrads} (h : Ready g order pre w og) (hw : w <+: w') :
    Ready g order pre w' og ∧ entryVal w' og = entryVal w og := by
  refine ⟨⟨h.sizes, fun c e he => (h.sound c e he).of_extends hw, h.pending⟩, ?_⟩
  ext c
  unfold entryVal
  cases he : entryAt og c with
  | none => rfl
  | some e => exact entryValue_of_extends hw (h.sound c e he)

theorem Ready.entry {g : List Node} {order pre : List ℕ} {w : List (ValueNode Op V)}
    {og : OutputGrads} (h : Ready g order pre w og) {c : ℕ × ℕ} (hc : c.1 ∈ order)
    (hi : c.2 < numOutputs g c.1) : ∃ e, entryAt og c = some e := by
  have hsize := h.sizes c.1
  rw [if_pos hc, Option.map_eq_some_iff] at hsize
  obtain ⟨es, hes, hlen⟩ := hsize
  exact ⟨es[c.2], by simp [entryAt, hes, hlen, hi]⟩

/-- The entries after those of one node are replaced. -/
theorem entryAt_update (og : OutputGrads) (n : ℕ) (es : List GradEntry) (c : ℕ × ℕ) :
    entryAt (Function.update og n (some es)) c = if c.1 = n then es[c.2]? else entryAt og c := by
  unfold entryAt
  split_ifs with hn
  · rw [hn, Function.update_self, Option.bind_some]
  · rw [Function.update_of_ne hn]

/-- A change of one entry leaves the others and the sizes. -/
theorem modifyEntry_spec {og : OutputGrads} {c : ℕ × ℕ} {e : GradEntry}
    (h : entryAt og c = some e) (f : GradEntry → GradEntry) :
    ∃ og', modifyEntry og c f = some og' ∧
      (∀ c', entryAt og' c' = if c' = c then some (f e) else entryAt og c') ∧
      ∀ n, (og' n).map List.length = (og n).map List.length := by
  obtain ⟨es, hes, hget⟩ := Option.bind_eq_some_iff.mp h
  obtain ⟨hlt, rfl⟩ := List.getElem?_eq_some_iff.mp hget
  refine ⟨Function.update og c.1 (some (es.modify c.2 f)), ?_, fun c' => ?_, fun n => ?_⟩
  · simp [modifyEntry, hes, hlt]
  · rw [entryAt_update]
    by_cases hn : c'.1 = c.1
    · rw [if_pos hn, List.getElem?_modify]
      by_cases hi : c'.2 = c.2
      · have hc : c' = c := Prod.ext hn hi
        simp [hc, hlt]
      · have hc : c' ≠ c := fun heq => hi (by rw [heq])
        simp [entryAt, hn, hes, hc, Ne.symm hi]
    · have hc : c' ≠ c := fun heq => hn (by rw [heq])
      rw [if_neg hn, if_neg hc]
  · by_cases hn : n = c.1
    · subst hn
      simp [hes]
    · rw [Function.update_of_ne hn]

section Traversal
variable {c : Config Op V} {g : List Node} {order pre : List ℕ}

/-- A gradient that is added to an entry adds to what the entry stands for. -/
theorem Ready.addGrad {w : List (ValueNode Op V)} {og : OutputGrads}
    (h : Ready g order pre w og) (hsub : pre ⊆ order) {e : ℕ × ℕ} (he : e.1 ∈ pre)
    (hi : e.2 < numOutputs g e.1) {x : NodeEntry} (hx : Denotes w x) :
    ∃ og', addGrad c w og (e, x) = some og' ∧ Ready g order pre w og' ∧
      entryVal w og' = entryVal w og + Pi.single e (value w x) := by
  obtain ⟨entry, hentry⟩ := h.entry (hsub he) hi
  have hnone := h.pending e entry hentry he
  have hsound := h.sound e entry hentry
  rw [Sound, if_pos hnone] at hsound
  obtain ⟨og', hrun, hat, hsizes⟩ := modifyEntry_spec hentry fun entry =>
    { entry with
      needAttrHint := entry.needAttrHint && !(opOf w x).any c.inferShape
      grads := entry.grads ++ [x] }
  refine ⟨og', hrun, ⟨fun n => (hsizes n).trans (h.sizes n), ?_, ?_⟩, ?_⟩
  · intro c' e' he'
    rw [hat] at he'
    split_ifs at he'
    · obtain rfl := Option.some_inj.mp he'
      rw [Sound, if_pos hnone]
      intro y hy
      rcases List.mem_append.mp hy with hy | hy
      · exact hsound y hy
      · obtain rfl := List.mem_singleton.mp hy
        exact hx
    · exact h.sound c' e' he'
  · intro c' e' he' hc'
    rw [hat] at he'
    split_ifs at he'
    · obtain rfl := Option.some_inj.mp he'
      exact hnone
    · exact h.pending c' e' he' hc'
  · ext c'
    rw [Pi.add_apply, entryVal, hat]
    split_ifs with hc'
    · subst hc'
      simp [entryVal, hentry, entryValue, hnone]
    · simp [entryVal, Pi.single_eq_of_ne hc']

/-- The gradients of the inputs of a node, added one after another. -/
theorem Ready.addGrads {w : List (ValueNode Op V)} {og : OutputGrads}
    (h : Ready g order pre w og) (hsub : pre ⊆ order) (hnodup : pre.Nodup)
    (pair : V →+ V →+ S) {igs : List ((ℕ × ℕ) × NodeEntry)}
    (higs : ∀ ig ∈ igs, ig.1.1 ∈ pre ∧ ig.1.2 < numOutputs g ig.1.1 ∧ Denotes w ig.2) :
    ∃ og', igs.foldlM (GradientPass.addGrad c w) og = some og' ∧ Ready g order pre w og' ∧
      (∀ c', c'.1 ∉ pre → entryVal w og' c' = entryVal w og c') ∧
      ∀ F : ℕ × ℕ → V,
        cellSum (numOutputs g) pre (fun c' => pair (entryVal w og' c') (F c')) =
          cellSum (numOutputs g) pre (fun c' => pair (entryVal w og c') (F c')) +
            (igs.map fun ig => pair (value w ig.2) (F ig.1)).sum := by
  induction igs generalizing og with
  | nil => exact ⟨og, rfl, h, fun _ _ => rfl, by simp⟩
  | cons ig igs ih =>
    obtain ⟨hmem, hi, hx⟩ := higs ig List.mem_cons_self
    obtain ⟨og₁, hrun₁, h₁, hval₁⟩ := h.addGrad (c := c) hsub hmem hi hx
    obtain ⟨og₂, hrun₂, h₂, hout₂, hsum₂⟩ := ih h₁ fun ig' hig' =>
      higs ig' (List.mem_cons_of_mem _ hig')
    refine ⟨og₂, by simp [List.foldlM_cons, hrun₁, hrun₂], h₂, fun c' hc' => ?_, fun F => ?_⟩
    · have hne : c' ≠ ig.1 := fun heq => hc' (heq ▸ hmem)
      rw [hout₂ c' hc', hval₁, Pi.add_apply, Pi.single_eq_of_ne hne, add_zero]
    · have hsingle : cellSum (numOutputs g) pre
          (fun c' => pair ((Pi.single ig.1 (value w ig.2) : ℕ × ℕ → V) c') (F c')) =
            pair (value w ig.2) (F ig.1) := by
        rw [cellSum_single (numOutputs g) hnodup hmem hi]
        · rw [Pi.single_eq_same]
        · intro c' hc'
          rw [Pi.single_eq_of_ne hc', map_zero, AddMonoidHom.zero_apply]
      have hadd : (fun c' => pair (entryVal w og₁ c') (F c')) = fun c' =>
          pair (entryVal w og c') (F c') +
            pair ((Pi.single ig.1 (value w ig.2) : ℕ × ℕ → V) c') (F c') := by
        ext c'
        rw [hval₁, Pi.add_apply, map_add, AddMonoidHom.add_apply]
      rw [hsum₂, hadd, cellSum_add, hsingle, List.map_cons, List.sum_cons, add_assoc]

variable {pair : V →+ V →+ S} {jvp : ℕ → List V → ℕ → V}

/-- The sum of an entry denotes what the entry stands for. -/
theorem Exact.aggregate (hc : Exact c g pair jvp) {w : List (ValueNode Op V)} {e : GradEntry}
    (hnone : e.sum.node.isNone = true) (he : Sound w e) (like : NodeEntry) :
    ∃ w' e', aggregate c w e like = some (w', e') ∧ w <+: w' ∧
      den w' e'.sum = some (entryValue w e) := by
  rw [Sound, if_pos hnone] at he
  obtain ⟨w₁, sum, left, hagg, hpre, hden⟩ := hc.agg w e.grads he
  have hvalue : entryValue w e = (e.grads.map (value w)).sum := if_pos hnone
  rw [← hvalue] at hden
  simp only [GradientPass.aggregate, hagg, Option.bind_eq_bind, Option.bind_some]
  cases hhint : c.attrHintFun with
  | none => exact ⟨w₁, _, rfl, hpre, hden⟩
  | some f =>
    cases hneed : e.needAttrHint with
    | false => exact ⟨w₁, _, rfl, hpre, hden⟩
    | true =>
      obtain ⟨w₂, sum', hf, hpre₂, hden₂⟩ := hc.hint f hhint w₁ sum like (Denotes.of_den hden)
      rw [value_of_den hden] at hden₂
      exact ⟨w₂, { e with sum := sum', grads := left, needAttrHint := true }, by
        simp only [hf, Option.bind_some], hpre.trans hpre₂, hden₂⟩

theorem Exact.aggregateOutputs (hc : Exact c g pair jvp) (n i : ℕ) {w : List (ValueNode Op V)}
    {es : List GradEntry} (hes : ∀ e ∈ es, e.sum.node.isNone = true ∧ Sound w e) :
    ∃ w' es', aggregateOutputs c n i w es = some (w', es') ∧ w <+: w' ∧
      (es'.map fun e => den w' e.sum) = es.map fun e => some (entryValue w e) := by
  induction es generalizing w i with
  | nil => exact ⟨w, [], rfl, List.prefix_refl w, rfl⟩
  | cons e es ih =>
    obtain ⟨hnone, hsound⟩ := hes e List.mem_cons_self
    obtain ⟨w₁, e', hrun₁, hpre₁, hden₁⟩ := hc.aggregate hnone hsound ⟨some n, 0, i⟩
    obtain ⟨w₂, es', hrun₂, hpre₂, hden₂⟩ := ih (i + 1) (w := w₁) fun x hx =>
      ⟨(hes x (List.mem_cons_of_mem _ hx)).1,
        (hes x (List.mem_cons_of_mem _ hx)).2.of_extends hpre₁⟩
    refine ⟨w₂, e' :: es', ?_, hpre₁.trans hpre₂, ?_⟩
    · simp only [GradientPass.aggregateOutputs, hrun₁, hrun₂, Option.bind_eq_bind,
        Option.bind_some]
    · rw [List.map_cons, hden₂, den_of_extends hpre₂ hden₁, List.map_cons]
      congr 1
      apply List.map_congr_left
      intro x hx
      rw [entryValue_of_extends hpre₁ (hes x (List.mem_cons_of_mem _ hx)).2]

/-- When a node is passed, its entries get sums that denote what the entries stood for. -/
theorem Ready.aggregateOutputs (hc : Exact c g pair jvp) {w : List (ValueNode Op V)}
    {og : OutputGrads} {n : ℕ} (h : Ready g order (pre ++ [n]) w og) (hn : n ∈ order)
    (hnodup : (pre ++ [n]).Nodup) :
    ∃ es w' es', og n = some es ∧ GradientPass.aggregateOutputs c n 0 w es = some (w', es') ∧
      w <+: w' ∧ Ready g order pre w' (Function.update og n (some es')) ∧
      entryVal w' (Function.update og n (some es')) = entryVal w og ∧
      es'.length = numOutputs g n ∧ (∀ e ∈ es', Denotes w' e.sum) ∧
      ∀ i < numOutputs g n, ((es'.map fun e => e.sum).map (value w')).getD i 0 =
        entryVal w og (n, i) := by
  have hsize := h.sizes n
  rw [if_pos hn, Option.map_eq_some_iff] at hsize
  obtain ⟨es, hes, hlen⟩ := hsize
  have hat : ∀ i, entryAt og (n, i) = es[i]? := fun i => by simp [entryAt, hes]
  have hall : ∀ e ∈ es, e.sum.node.isNone = true ∧ Sound w e := by
    intro e he
    obtain ⟨i, hi⟩ := List.mem_iff_getElem?.mp he
    exact ⟨h.pending (n, i) e ((hat i).trans hi) (by simp), h.sound (n, i) e ((hat i).trans hi)⟩
  obtain ⟨w', es', hrun, hpre, hden⟩ := hc.aggregateOutputs n 0 hall
  have hlen' : es'.length = es.length := by simpa using congrArg List.length hden
  have hget : ∀ (i : ℕ) (e' : GradEntry), es'[i]? = some e' →
      ∃ e, es[i]? = some e ∧ den w' e'.sum = some (entryValue w e) := by
    intro i e' he'
    have hi := congrArg (fun l : List (Option V) => l[i]?) hden
    simp only [List.getElem?_map, he', Option.map_some] at hi
    obtain ⟨e, he, heq⟩ := Option.map_eq_some_iff.mp hi.symm
    exact ⟨e, he, heq.symm⟩
  have hnode : ∀ i, entryVal w' (Function.update og n (some es')) (n, i) = entryVal w og (n, i) := by
    intro i
    rw [entryVal, entryVal, entryAt_update, if_pos rfl, hat]
    cases he' : es'[i]? with
    | none =>
      have hnone : es[i]? = none := by
        rw [List.getElem?_eq_none_iff] at he' ⊢
        omega
      rw [hnone]
      rfl
    | some e' =>
      obtain ⟨e, he, hd⟩ := hget i e' he'
      rw [he]
      exact (sound_of_den hd).2
  refine ⟨es, w', es', hes, hrun, hpre, ⟨fun m => ?_, fun c' e' he' => ?_, fun c' e' he' hc' => ?_⟩,
    ?_, hlen'.trans hlen, fun e' he' => ?_, fun i hi => ?_⟩
  · by_cases hm : m = n
    · subst hm
      rw [Function.update_self, if_pos hn, Option.map_some, hlen', hlen]
    · rw [Function.update_of_ne hm, h.sizes m]
  · rw [entryAt_update] at he'
    split_ifs at he'
    · obtain ⟨e, -, hd⟩ := hget _ e' he'
      exact (sound_of_den hd).1
    · exact (h.sound c' e' he').of_extends hpre
  · have hne : c'.1 ≠ n := fun heq => (List.nodup_append.mp hnodup).2.2 c'.1 hc' n (by simp) heq
    rw [entryAt_update, if_neg hne] at he'
    exact h.pending c' e' he' (List.mem_append_left _ hc')
  · ext c'
    by_cases hc' : c'.1 = n
    · have heq : c' = (n, c'.2) := by rw [← hc']
      rw [heq, hnode]
    · have hold := (h.of_extends hpre).2
      rw [entryVal, entryAt_update, if_neg hc']
      exact congrFun hold c'
  · obtain ⟨i, hi⟩ := List.mem_iff_getElem?.mp he'
    obtain ⟨e, -, hd⟩ := hget i e' hi
    exact Denotes.of_den hd
  · have hlt : i < es'.length := by omega
    obtain ⟨e, he, hd⟩ := hget i es'[i] (List.getElem?_eq_getElem hlt)
    have hgetD : ((es'.map fun e => e.sum).map (value w')).getD i 0 = value w' es'[i].sum := by
      simp [List.getD_eq_getElem?_getD, hlt]
    rw [hgetD, value_of_den hd, entryVal, hat, he]
    rfl

theorem Ready.passed {w : List (ValueNode Op V)} {og : OutputGrads} {n : ℕ}
    (h : Ready g order (pre ++ [n]) w og) : Ready g order pre w og :=
  ⟨h.sizes, h.sound, fun c' e he hc' => h.pending c' e he (List.mem_append_left _ hc')⟩

theorem cellSum_singleton (num : ℕ → ℕ) (n : ℕ) (f : ℕ × ℕ → S) :
    cellSum num [n] f = ∑ i ∈ Finset.range (num n), f (n, i) := by
  simp [cellSum]

/-- The perturbation itself, at the outputs of the graph. -/
def perturb (x : ℕ × ℕ) (δ : V) (c : ℕ × ℕ) : V := if c = x then δ else 0

/-- A node of which nothing is passed on: its outputs move by the perturbation only. -/
theorem cellSum_noInputs (hg : WellFormed g) {n : ℕ} {node : Node} (hnode : g[n]? = some node)
    (hnil : node.inputs = []) (x : ℕ × ℕ) (δ : V) (v : ℕ × ℕ → V) :
    cellSum (numOutputs g) [n] (fun c' => pair (v c') (tangent g jvp x δ c'.1 c'.2)) =
      cellSum (numOutputs g) [n] (fun c' => pair (v c') (perturb x δ c')) := by
  apply cellSum_congr
  intro c' hc' _
  obtain rfl : c'.1 = n := by simpa using hc'
  rw [tangent_eq hg jvp x δ hnode, if_pos hnil, add_zero]
  rfl

theorem sum_zip_eq_zipWith {α β γ : Type} (l : List α) (l' : List β) (F : α → γ)
    (f : β → γ → S) :
    ((l.zip l').map fun ig => f ig.2 (F ig.1)).sum = (List.zipWith f l' (l.map F)).sum := by
  induction l generalizing l' with
  | nil => simp
  | cons a l ih =>
    cases l' with
    | nil => simp
    | cons b l' => simp [ih]

/-- A node with inputs: the tangents of its outputs are the perturbation and what the operator
makes of the tangents of its inputs. -/
theorem cellSum_tangent (hg : WellFormed g) {n : ℕ} {node : Node} (hnode : g[n]? = some node)
    (hnil : node.inputs ≠ []) (x : ℕ × ℕ) (δ : V) (v : ℕ × ℕ → V) :
    cellSum (numOutputs g) [n] (fun c' => pair (v c') (tangent g jvp x δ c'.1 c'.2)) =
      cellSum (numOutputs g) [n] (fun c' => pair (v c') (perturb x δ c')) +
        ∑ i ∈ Finset.range (numOutputs g n), pair (v (n, i))
          (jvp n (node.inputs.map fun e => tangent g jvp x δ e.1 e.2) i) := by
  rw [cellSum_singleton, cellSum_singleton, ← Finset.sum_add_distrib]
  apply Finset.sum_congr rfl
  intro i _
  rw [tangent_eq hg jvp x δ hnode, if_neg hnil, map_add]
  rfl

variable [DecidableEq Op]

/-- One node of the traversal. What the node stands for is passed on to its inputs. -/
theorem Ready.backward (hg : WellFormed g) (hc : Exact c g pair jvp)
    {w : List (ValueNode Op V)} {og : OutputGrads} {n : ℕ} {node : Node}
    (hnode : g[n]? = some node) (h : Ready g order (pre ++ [n]) w og) (hsub : pre ++ [n] ⊆ order)
    (hnodup : (pre ++ [n]).Nodup) (hchildren : ∀ m ∈ children g n, m ∈ pre) :
    ∃ w' og', GradientPass.backward c g (w, og) n = some (w', og') ∧ w <+: w' ∧
      Ready g order pre w' og' ∧
      (∀ c', c'.1 ∉ pre → entryVal w' og' c' = entryVal w og c') ∧
      ∀ x δ, cellSum (numOutputs g) pre
          (fun c' => pair (entryVal w' og' c') (tangent g jvp x δ c'.1 c'.2)) +
        cellSum (numOutputs g) [n] (fun c' => pair (entryVal w og c') (perturb x δ c')) =
          cellSum (numOutputs g) (pre ++ [n])
            (fun c' => pair (entryVal w og c') (tangent g jvp x δ c'.1 c'.2)) := by
  cases hvar : node.isVariable with
  | true =>
    refine ⟨w, og, by simp [GradientPass.backward, hnode, hvar], List.prefix_refl w, h.passed,
      fun _ _ => rfl, fun x δ => ?_⟩
    rw [cellSum_append, cellSum_noInputs hg hnode (hg.noInputs n node hnode hvar)]
  | false =>
    have hn : n ∈ order := hsub (by simp)
    obtain ⟨es, w₁, es', hes, hagg, hpre₁, h₁, hval₁, hlen, hdenotes, hsums⟩ :=
      h.aggregateOutputs hc hn hnodup
    by_cases hnil : node.inputs = []
    · refine ⟨w₁, Function.update og n (some es'), ?_, hpre₁, h₁, fun _ _ => by rw [hval₁],
        fun x δ => ?_⟩
      · simp [GradientPass.backward, hnode, hvar, hes, hagg, hnil]
      · rw [cellSum_append, cellSum_noInputs hg hnode hnil, hval₁]
    · obtain ⟨f, hf, hexact⟩ := hc.gradient n node hnode hvar hnil
      have hnum : numOutputs g n = node.numOutputs := by simp [numOutputs, hnode]
      obtain ⟨w₂, grads, hrun, hpre₂, hglen, hgden, hvjp⟩ := hexact w₁ (es'.map fun e => e.sum)
        (by simp [hlen, hnum]) (by simpa using hdenotes)
      have hgrads : inputGrads c n node w₁ (es'.map fun e => e.sum) = some (w₂, grads) := by
        have hany : grads.any (fun e => e.node.isNone) = false :=
          List.any_eq_false.mpr fun e he => by simp [(hgden e he).node_isNone]
        simp only [inputGrads, hf, hrun, Option.bind_eq_bind, Option.bind_some, hglen, hany]
        simp
      obtain ⟨h₂, hval₂⟩ := h₁.of_extends hpre₂
      have higs : ∀ ig ∈ node.inputs.zip grads,
          ig.1.1 ∈ pre ∧ ig.1.2 < numOutputs g ig.1.1 ∧ Denotes w₂ ig.2 := by
        intro ig hig
        obtain ⟨hin, hgr⟩ := List.of_mem_zip hig
        obtain ⟨src, hsrc, hlt⟩ := hg.inputs n node hnode ig.1 hin
        refine ⟨hchildren _ ?_, by simpa [numOutputs, hsrc] using hlt, hgden _ hgr⟩
        simp only [children, hnode, Option.elim_some, List.mem_append]
        exact Or.inl (List.mem_map_of_mem hin)
      obtain ⟨og₃, hadd, h₃, hout₃, hsum₃⟩ := h₂.addGrads (c := c)
        (fun m hm => hsub (List.mem_append_left _ hm)) (List.nodup_append.mp hnodup).1 pair higs
      refine ⟨w₂, og₃, ?_, hpre₁.trans hpre₂, h₃, fun c' hc' => ?_, fun x δ => ?_⟩
      · simp only [GradientPass.backward, hnode, hvar, hes, hagg, hnil, hgrads, hadd,
          Option.bind_eq_bind, Option.bind_some]
        simp
      · rw [hout₃ c' hc', hval₂, hval₁]
      · have hpassed := hvjp (node.inputs.map fun e => tangent g jvp x δ e.1 e.2) (by simp)
        have houts : ∑ i ∈ Finset.range node.numOutputs,
            pair (((es'.map fun e => e.sum).map (value w₁)).getD i 0)
              (jvp n (node.inputs.map fun e => tangent g jvp x δ e.1 e.2) i) =
            ∑ i ∈ Finset.range (numOutputs g n), pair (entryVal w og (n, i))
              (jvp n (node.inputs.map fun e => tangent g jvp x δ e.1 e.2) i) := by
          rw [← hnum]
          exact Finset.sum_congr rfl fun i hi => by rw [hsums i (Finset.mem_range.mp hi)]
        have hin := sum_zip_eq_zipWith node.inputs grads (fun e => tangent g jvp x δ e.1 e.2)
          fun e d => pair (value w₂ e) d
        rw [cellSum_append, cellSum_tangent hg hnode hnil, ← houts, ← hpassed, ← hin,
          hsum₃ fun c' => tangent g jvp x δ c'.1 c'.2, hval₂, hval₁]
        abel

/-- The whole traversal: what the entries stand for, paired with the perturbation, is what the
seeded entries are when paired with the tangents. -/
theorem Ready.sweep (hg : WellFormed g) (hc : Exact c g pair jvp)
    {w : List (ValueNode Op V)} {og : OutputGrads} (h : Ready g order pre w og)
    (hsub : pre ⊆ order) (hnodup : pre.Nodup) (hsorted : TopoSorted (children g) pre)
    (hnodes : ∀ n ∈ pre, n < g.length) :
    ∃ w' og', pre.reverse.foldlM (GradientPass.backward c g) (w, og) = some (w', og') ∧
      w <+: w' ∧ Ready g order [] w' og' ∧
      (∀ c', c'.1 ∉ pre → entryVal w' og' c' = entryVal w og c') ∧
      ∀ x δ, cellSum (numOutputs g) pre
          (fun c' => pair (entryVal w' og' c') (perturb x δ c')) =
        cellSum (numOutputs g) pre
          (fun c' => pair (entryVal w og c') (tangent g jvp x δ c'.1 c'.2)) := by
  induction pre using List.reverseRecOn generalizing w og with
  | nil => exact ⟨w, og, rfl, List.prefix_refl w, h, fun _ _ => rfl, fun _ _ => rfl⟩
  | append_singleton pre n ih =>
    obtain ⟨node, hnode⟩ : ∃ node, g[n]? = some node :=
      ⟨_, List.getElem?_eq_getElem (hnodes n (by simp))⟩
    have hchildren : ∀ m ∈ children g n, m ∈ pre := hsorted pre n [] rfl
    have hnot : n ∉ pre := fun hn => (List.nodup_append.mp hnodup).2.2 n hn n (by simp) rfl
    have hsorted' : TopoSorted (children g) pre := by
      intro a m b hab
      exact hsorted a m (b ++ [n]) (by rw [hab, List.append_assoc, List.cons_append])
    obtain ⟨w₁, og₁, hrun₁, hpre₁, h₁, hout₁, hsum₁⟩ :=
      h.backward hg hc hnode hsub hnodup hchildren
    obtain ⟨w₂, og₂, hrun₂, hpre₂, h₂, hout₂, hsum₂⟩ := ih h₁
      (fun m hm => hsub (List.mem_append_left _ hm)) (List.nodup_append.mp hnodup).1 hsorted'
      (fun m hm => hnodes m (List.mem_append_left _ hm))
    refine ⟨w₂, og₂, ?_, hpre₁.trans hpre₂, h₂, fun c' hc' => ?_, fun x δ => ?_⟩
    · rw [List.reverse_append, List.reverse_singleton, List.singleton_append, List.foldlM_cons,
        hrun₁]
      exact hrun₂
    · have hc₁ : c'.1 ∉ pre := fun hmem => hc' (List.mem_append_left _ hmem)
      rw [hout₂ c' hc₁, hout₁ c' hc₁]
    · have hlast : cellSum (numOutputs g) [n]
          (fun c' => pair (entryVal w₂ og₂ c') (perturb x δ c')) =
          cellSum (numOutputs g) [n] (fun c' => pair (entryVal w og c') (perturb x δ c')) := by
        apply cellSum_congr
        intro c' hc' _
        have hc₁ : c'.1 ∉ pre := by
          rw [List.mem_singleton.mp hc']
          exact hnot
        rw [hout₂ c' hc₁, hout₁ c' hc₁]
      rw [cellSum_append, hsum₂, hlast, hsum₁]

end Traversal

end GradientPass
end NetStorm

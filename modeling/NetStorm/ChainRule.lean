import NetStorm.GradientSweep
import Mathlib.Logic.Relation
import Mathlib.Algebra.Ring.Int.Defs
import Mathlib.Algebra.Ring.Basic
import Mathlib.Tactic.Ring

/-!
# What the outputs of the gradient pass denote

The heads are seeded by an assignment, so of several positions with one head only the last
counts. With `copy_op` the sum of a target is moved out of its entry, unless it is the sum of an
earlier target, so it is gone when the target comes again. What is then summed up are the gradients
that the aggregation has left: none, or a null entry if there was one. But for these two defects
the outputs are the derivatives.
-/
namespace NetStorm
namespace GradientPass
open DFSVisit (TopoSorted)
variable {Op V S : Type} [AddCommGroup V] [AddCommGroup S]

/-- The positions of the heads that no later position overwrites. -/
def keptHeads : List ((ℕ × ℕ) × NodeEntry) → List ((ℕ × ℕ) × NodeEntry)
  | [] => []
  | h :: heads => if h.1 ∈ heads.map Prod.fst then keptHeads heads else h :: keptHeads heads

/-- The positions of the heads that a later position of the same head overwrites. -/
def overwrittenHeads : List ((ℕ × ℕ) × NodeEntry) → List ((ℕ × ℕ) × NodeEntry)
  | [] => []
  | h :: heads =>
    if h.1 ∈ heads.map Prod.fst then h :: overwrittenHeads heads else overwrittenHeads heads

theorem sum_heads (heads : List ((ℕ × ℕ) × NodeEntry)) (f : (ℕ × ℕ) × NodeEntry → S) :
    (heads.map f).sum = ((keptHeads heads).map f).sum + ((overwrittenHeads heads).map f).sum := by
  induction heads with
  | nil => simp [keptHeads, overwrittenHeads]
  | cons h heads ih =>
    unfold keptHeads overwrittenHeads
    split_ifs <;> simp only [List.map_cons, List.sum_cons, ih] <;> abel

section Seeding
variable {g : List Node} {order : List ℕ} {w : List (ValueNode Op V)}

theorem Ready.initial (hnodes : ∀ n ∈ order, n < g.length) :
    Ready g order order w (initialGrads g order) ∧ entryVal w (initialGrads g order) = 0 := by
  have hentry : ∀ c e, entryAt (initialGrads g order) c = some e → e = {} := by
    intro c e he
    unfold entryAt initialGrads at he
    split_ifs at he
    · obtain ⟨es, hes, hget⟩ := Option.bind_eq_some_iff.mp he
      obtain ⟨node, -, rfl⟩ := Option.map_eq_some_iff.mp hes
      exact List.eq_of_mem_replicate (List.mem_of_getElem? hget)
    · simp at he
  refine ⟨⟨fun n => ?_, fun c e he => ?_, fun c e he _ => ?_⟩, ?_⟩
  · unfold initialGrads
    split_ifs with hn
    · simp [numOutputs, hnodes n hn]
    · rfl
  · rw [hentry c e he]
    simp [Sound]
  · rw [hentry c e he]
    rfl
  · ext c
    unfold entryVal
    cases he : entryAt (initialGrads g order) c with
    | none => rfl
    | some e =>
      rw [hentry c e he]
      simp [entryValue]

/-- The out-gradient of a head takes the place of what its entry had. -/
theorem Ready.seed {og : OutputGrads} (h : Ready g order order w og)
    {head : (ℕ × ℕ) × NodeEntry} (hmem : head.1.1 ∈ order)
    (hi : head.1.2 < numOutputs g head.1.1) (hden : Denotes w head.2) :
    ∃ og', seed og head = some og' ∧ Ready g order order w og' ∧
      entryVal w og' = Function.update (entryVal w og) head.1 (value w head.2) := by
  obtain ⟨entry, hentry⟩ := h.entry hmem hi
  have hnone := h.pending head.1 entry hentry hmem
  obtain ⟨og', hrun, hat, hsizes⟩ := modifyEntry_spec hentry fun entry =>
    { entry with grads := [head.2] }
  refine ⟨og', hrun, ⟨fun n => (hsizes n).trans (h.sizes n), ?_, ?_⟩, ?_⟩
  · intro c' e' he'
    rw [hat] at he'
    split_ifs at he'
    · obtain rfl := Option.some_inj.mp he'
      rw [Sound, if_pos hnone]
      simpa using hden
    · exact h.sound c' e' he'
  · intro c' e' he' hc'
    rw [hat] at he'
    split_ifs at he'
    · obtain rfl := Option.some_inj.mp he'
      exact hnone
    · exact h.pending c' e' he' hc'
  · ext c'
    rw [entryVal, hat]
    split_ifs with hc'
    · subst hc'
      simp [entryValue, hnone]
    · rw [Function.update_of_ne hc']
      rfl

/-- The seeded entries stand for the heads that are not overwritten. -/
theorem Ready.seeds {og : OutputGrads} (h : Ready g order order w og) (hnodup : order.Nodup)
    (pair : V →+ V →+ S) {heads : List ((ℕ × ℕ) × NodeEntry)}
    (hheads : ∀ head ∈ heads,
      head.1.1 ∈ order ∧ head.1.2 < numOutputs g head.1.1 ∧ Denotes w head.2) :
    ∃ og', heads.foldlM GradientPass.seed og = some og' ∧ Ready g order order w og' ∧
      ∀ F : ℕ × ℕ → V,
        cellSum (numOutputs g) order (fun c' => pair (entryVal w og' c') (F c')) =
          cellSum (numOutputs g) order (fun c' =>
            if c' ∈ heads.map Prod.fst then 0 else pair (entryVal w og c') (F c')) +
          ((keptHeads heads).map fun head => pair (value w head.2) (F head.1)).sum := by
  induction heads generalizing og with
  | nil => exact ⟨og, rfl, h, by simp [keptHeads]⟩
  | cons head heads ih =>
    obtain ⟨hmem, hi, hden⟩ := hheads head List.mem_cons_self
    obtain ⟨og₁, hrun₁, h₁, hval₁⟩ := h.seed hmem hi hden
    obtain ⟨og₂, hrun₂, h₂, hsum₂⟩ := ih h₁ fun x hx => hheads x (List.mem_cons_of_mem _ hx)
    refine ⟨og₂, by simp [List.foldlM_cons, hrun₁, hrun₂], h₂, fun F => ?_⟩
    have hcons : ∀ c', c' ≠ head.1 →
        (c' ∈ (head :: heads).map Prod.fst ↔ c' ∈ heads.map Prod.fst) := fun c' hc' => by
      rw [List.map_cons, List.mem_cons, or_iff_right hc']
    rw [hsum₂, hval₁]
    by_cases hlater : head.1 ∈ heads.map Prod.fst
    · have hkept : keptHeads (head :: heads) = keptHeads heads := if_pos hlater
      rw [hkept]
      congr 1
      apply cellSum_congr
      intro c' _ _
      by_cases hc' : c' = head.1
      · rw [hc', if_pos hlater, if_pos (by simp)]
      · rw [Function.update_of_ne hc', if_congr (hcons c' hc') rfl rfl]
    · have hkept : keptHeads (head :: heads) = head :: keptHeads heads := if_neg hlater
      have hsplit : (fun c' => if c' ∈ heads.map Prod.fst then 0 else
          pair (Function.update (entryVal w og) head.1 (value w head.2) c') (F c')) =
          fun c' => (if c' ∈ (head :: heads).map Prod.fst then 0 else
            pair (entryVal w og c') (F c')) +
              if c' = head.1 then pair (value w head.2) (F c') else 0 := by
        ext c'
        by_cases hc' : c' = head.1
        · subst hc'
          simp [hlater]
        · rw [Function.update_of_ne hc', if_congr (hcons c' hc') rfl rfl, if_neg hc', add_zero]
      have hsingle : cellSum (numOutputs g) order (fun c' =>
          if c' = head.1 then pair (value w head.2) (F c') else 0) =
            pair (value w head.2) (F head.1) := by
        rw [cellSum_single (numOutputs g) hnodup hmem hi fun c' hc' => if_neg hc', if_pos rfl]
      rw [hsplit, cellSum_add, hsingle, add_assoc, hkept]
      rfl

end Seeding

section TakingOut
variable {c : Config Op V} {g : List Node} {pair : V →+ V →+ S} {jvp : ℕ → List V → ℕ → V}

omit [AddCommGroup V] in
theorem den_create (w : List (ValueNode Op V)) (op : Op) (a : V) :
    w <+: (create w op [a]).1 ∧ den (create w op [a]).1 (create w op [a]).2 = some a := by
  simp [create, den]

theorem Exact.summed (hc : Exact c g pair jvp) {w : List (ValueNode Op V)} {e : GradEntry}
    (he : Sound w e) (x : ℕ × ℕ) :
    ∃ w' e', summed c w x e = some (w', e') ∧ w <+: w' ∧ den w' e'.sum = some (entryValue w e) := by
  unfold GradientPass.summed
  split_ifs with hnone
  · exact hc.aggregate hnone he ⟨some x.1, x.2, 0⟩
  · rw [Sound, if_neg hnone] at he
    rw [entryValue, if_neg hnone]
    exact ⟨w, e, rfl, List.prefix_refl w, he⟩

/-- The run of the loop up to some of the targets. -/
def reached (c : Config Op V) (w : List (ValueNode Op V)) (og : OutputGrads) (l : List (ℕ × ℕ)) :
    Option (TakingOut Op V) :=
  l.foldlM (GradientPass.takeOut c) ⟨0, w, og, []⟩

omit [AddCommGroup V] in
theorem reached_append {w : List (ValueNode Op V)} {og : OutputGrads} {l : List (ℕ × ℕ)} {x : ℕ × ℕ}
    {st' : TakingOut Op V} : reached c w og (l ++ [x]) = some st' ↔
      ∃ st, reached c w og l = some st ∧ GradientPass.takeOut c st x = some st' := by
  rw [reached, List.foldlM_append]
  simp only [List.foldlM_cons, List.foldlM_nil, bind_pure]
  exact Option.bind_eq_some_iff

/-- A gradient that is taken out denotes what its entry stood for. The entry stands for the same
afterwards, unless its sum was moved. -/
theorem Exact.takeOut (hc : Exact c g pair jvp) {st : TakingOut Op V} {x : ℕ × ℕ} {e : GradEntry}
    (he : entryAt st.outputGrads x = some e) (hsound : Sound st.nodes e) :
    ∃ st' out e', GradientPass.takeOut c st x = some st' ∧ st'.counter = st.counter + 1 ∧
      st'.uniqueGrads = st.uniqueGrads ++ [(out, st.counter)] ∧ st.nodes <+: st'.nodes ∧
      den st'.nodes out = some (entryValue st.nodes e) ∧
      (∀ c', entryAt st'.outputGrads c' = if c' = x then some e' else entryAt st.outputGrads c') ∧
      (Sound st'.nodes e' ∧ entryValue st'.nodes e' = entryValue st.nodes e ∧
          ¬ e'.sum.node.isNone = true ∨
        c.copyOp ≠ none ∧ e'.sum.node.isNone = true) := by
  obtain ⟨entries, hentries, hget⟩ := Option.bind_eq_some_iff.mp he
  obtain ⟨w₁, e₁, hsum, hpre₁, hden₁⟩ := hc.summed hsound x
  have hnone := (Denotes.of_den hden₁).node_isNone
  have hkept : ∀ w₂, w₁ <+: w₂ → Sound w₂ e₁ ∧ entryValue w₂ e₁ = entryValue st.nodes e ∧
      ¬ e₁.sum.node.isNone = true := fun w₂ hpre₂ => by
    obtain ⟨hsound₂, hval₂⟩ := sound_of_den (den_of_extends hpre₂ hden₁)
    exact ⟨hsound₂, hval₂, by simp [hnone]⟩
  cases hop : c.copyOp with
  | none =>
    obtain ⟨og', hmod, hat, -⟩ := modifyEntry_spec he fun _ => e₁
    refine ⟨⟨_, w₁, og', _⟩, e₁.sum, e₁, ?_, rfl, rfl, hpre₁, hden₁, hat,
      .inl (hkept w₁ (List.prefix_refl w₁))⟩
    simp only [GradientPass.takeOut, hentries, hget, hsum, hop, hmod, Option.bind_eq_bind,
      Option.bind_some]
  | some op =>
    by_cases hfound : st.uniqueGrads.any (fun kv => kv.1 = e₁.sum) = true
    · have hcopied := den_create w₁ op (entryValue st.nodes e)
      obtain ⟨og', hmod, hat, -⟩ := modifyEntry_spec he fun _ => e₁
      refine ⟨⟨_, _, og', _⟩, _, e₁, ?_, rfl, rfl, hpre₁.trans hcopied.1, hcopied.2, hat,
        .inl (hkept _ hcopied.1)⟩
      simp only [GradientPass.takeOut, hentries, hget, hsum, hop, hmod, Option.bind_eq_bind,
        Option.bind_some, hfound, if_true, hnone, hden₁, Option.toList_some]
      rfl
    · obtain ⟨og', hmod, hat, -⟩ :=
        modifyEntry_spec he fun _ => { e₁ with sum := { e₁.sum with node := none } }
      refine ⟨⟨_, w₁, og', _⟩, e₁.sum, _, ?_, rfl, rfl, hpre₁, hden₁, hat, .inr ⟨by simp, rfl⟩⟩
      simp only [GradientPass.takeOut, hentries, hget, hsum, hop, hmod, Option.bind_eq_bind,
        Option.bind_some, hfound]
      rfl

/-- What the aggregation leaves in the vector that it moves from is at most one entry, which is
null. Null entries are not aggregated or hinted to anything else. -/
structure Drains (c : Config Op V) : Prop where
  left : ∀ w v w' e left, c.aggFun w v = some (w', e, left) →
    left = [] ∨ ∃ x : NodeEntry, x.node = none ∧ left = [x]
  null : ∀ w (x : NodeEntry) w' e left, x.node = none → c.aggFun w [x] = some (w', e, left) →
    w <+: w' ∧ e.node = none
  hint : ∀ f, c.attrHintFun = some f → ∀ w (e like : NodeEntry), e.node = none → f w e like = none

/-- Nothing is left of the gradients of an entry, but perhaps a null entry. -/
def Drained (e : GradEntry) : Prop := e.grads = [] ∨ ∃ x : NodeEntry, x.node = none ∧ e.grads = [x]

omit [AddCommGroup V] in
/-- What an aggregation that goes through has done. -/
theorem aggregate_some {w w' : List (ValueNode Op V)} {e e' : GradEntry} {like : NodeEntry}
    (h : GradientPass.aggregate c w e like = some (w', e')) :
    ∃ w₁ sum, c.aggFun w e.grads = some (w₁, sum, e'.grads) ∧
      (w' = w₁ ∧ e'.sum = sum ∨
        ∃ f, c.attrHintFun = some f ∧ f w₁ sum like = some (w', e'.sum)) := by
  unfold GradientPass.aggregate at h
  obtain ⟨⟨w₁, sum, left⟩, hagg, h⟩ := Option.bind_eq_some_iff.mp h
  dsimp only at h
  cases hf : c.attrHintFun with
  | none =>
    rw [hf] at h
    obtain ⟨rfl, rfl⟩ := Prod.ext_iff.mp (Option.some.inj h)
    exact ⟨w₁, sum, hagg, .inl ⟨rfl, rfl⟩⟩
  | some f =>
    cases hneed : e.needAttrHint with
    | false =>
      rw [hf, hneed] at h
      obtain ⟨rfl, rfl⟩ := Prod.ext_iff.mp (Option.some.inj h)
      exact ⟨w₁, sum, hagg, .inl ⟨rfl, rfl⟩⟩
    | true =>
      rw [hf, hneed] at h
      obtain ⟨⟨w₂, sum'⟩, hhint, h⟩ := Option.bind_eq_some_iff.mp h
      obtain ⟨rfl, rfl⟩ := Prod.ext_iff.mp (Option.some.inj h)
      exact ⟨w₁, sum, hagg, .inr ⟨f, rfl, hhint⟩⟩

omit [AddCommGroup V] in
theorem Drains.aggregate (hd : Drains c) {w w' : List (ValueNode Op V)} {e e' : GradEntry}
    {like : NodeEntry} (h : GradientPass.aggregate c w e like = some (w', e')) : Drained e' := by
  obtain ⟨w₁, sum, hagg, -⟩ := aggregate_some h
  exact hd.left w e.grads w₁ sum e'.grads hagg

omit [AddCommGroup V] in
theorem Drains.summed (hd : Drains c) {w w' : List (ValueNode Op V)} {x : ℕ × ℕ} {e e' : GradEntry}
    (he : ¬ e.sum.node.isNone = true → Drained e)
    (h : GradientPass.summed c w x e = some (w', e')) : Drained e' := by
  unfold GradientPass.summed at h
  split_ifs at h with hnone
  · exact hd.aggregate h
  · obtain ⟨-, rfl⟩ := Prod.ext_iff.mp (Option.some.inj h)
    exact he hnone

omit [AddCommGroup V] in
/-- Of a null entry no sum is formed. -/
theorem Drains.summed_null (hd : Drains c) {w w' : List (ValueNode Op V)} {x : ℕ × ℕ}
    {e e' : GradEntry} {y : NodeEntry} (hsum : e.sum.node.isNone = true) (hy : y.node = none)
    (hgrads : e.grads = [y]) (h : GradientPass.summed c w x e = some (w', e')) :
    w <+: w' ∧ e'.sum.node = none := by
  rw [GradientPass.summed, if_pos hsum] at h
  obtain ⟨w₁, sum, hagg, hhint⟩ := aggregate_some h
  rw [hgrads] at hagg
  obtain ⟨hpre, hnull⟩ := hd.null w y w₁ sum e'.grads hy hagg
  rcases hhint with ⟨rfl, rfl⟩ | ⟨f, hf, hhint⟩
  · exact ⟨hpre, hnull⟩
  · rw [hd.hint f hf w₁ sum _ hnull] at hhint
    exact absurd hhint (by simp)

omit [AddCommGroup V] in
/-- What a step that goes through has done. A null sum is not copied. -/
theorem takeOut_some {st st' : TakingOut Op V} {x : ℕ × ℕ}
    (h : GradientPass.takeOut c st x = some st') :
    ∃ e w e₁ e' out, entryAt st.outputGrads x = some e ∧
      GradientPass.summed c st.nodes x e = some (w, e₁) ∧ e'.grads = e₁.grads ∧
      st'.counter = st.counter + 1 ∧
      st'.uniqueGrads = st.uniqueGrads ++ [(out, st.counter)] ∧
      (∀ c', entryAt st'.outputGrads c' = if c' = x then some e' else entryAt st.outputGrads c') ∧
      (e₁.sum.node = none → out.node = none ∧ st'.nodes = w ∧ e'.sum.node = none) := by
  unfold GradientPass.takeOut at h
  obtain ⟨entries, hentries, h⟩ := Option.bind_eq_some_iff.mp h
  obtain ⟨e, hget, h⟩ := Option.bind_eq_some_iff.mp h
  obtain ⟨⟨w, e₁⟩, hsum, h⟩ := Option.bind_eq_some_iff.mp h
  have he : entryAt st.outputGrads x = some e := Option.bind_eq_some_iff.mpr ⟨entries, hentries, hget⟩
  refine ⟨e, w, e₁, ?_⟩
  dsimp only at h
  cases hop : c.copyOp with
  | none =>
    simp only [hop] at h
    obtain ⟨og', hmod, hat, -⟩ := modifyEntry_spec he fun _ => e₁
    rw [hmod] at h
    obtain rfl := Option.some.inj h
    exact ⟨e₁, e₁.sum, he, hsum, rfl, rfl, rfl, hat, fun hnull => ⟨hnull, rfl, hnull⟩⟩
  | some op =>
    simp only [hop] at h
    by_cases hfound : st.uniqueGrads.any (fun kv => kv.1 = e₁.sum) = true
    · rw [if_pos hfound] at h
      split_ifs at h with hnull
      obtain ⟨og', hmod, hat, -⟩ := modifyEntry_spec he fun _ => e₁
      rw [hmod] at h
      obtain rfl := Option.some.inj h
      exact ⟨e₁, _, he, hsum, rfl, rfl, rfl, hat, fun hnone => absurd (by simp [hnone]) hnull⟩
    · rw [if_neg hfound] at h
      obtain ⟨og', hmod, hat, -⟩ :=
        modifyEntry_spec he fun _ => { e₁ with sum := { e₁.sum with node := none } }
      rw [hmod] at h
      obtain rfl := Option.some.inj h
      exact ⟨{ e₁ with sum := { e₁.sum with node := none } }, e₁.sum, he, hsum, rfl, rfl, rfl, hat,
        fun hnone => ⟨hnone, rfl, rfl⟩⟩

/-- The state of the loop after the targets `l`. The entry of a target that has not come stands for
`F`. One that has come has a sum with the property `R`, or its sum was moved. -/
structure Taken (c : Config Op V) (xs : List (ℕ × ℕ)) (F : ℕ × ℕ → V) (R : ℕ × ℕ → V → Prop)
    (w : List (ValueNode Op V)) (l : List (ℕ × ℕ)) (st : TakingOut Op V) : Prop where
  grows : w <+: st.nodes
  counter : st.counter = l.length
  entries : ∀ x ∈ xs, ∃ e, entryAt st.outputGrads x = some e ∧
    (x ∉ l → Sound st.nodes e ∧ entryValue st.nodes e = F x) ∧
    (¬ e.sum.node.isNone = true → Sound st.nodes e ∧ R x (entryValue st.nodes e)) ∧
    (Drains c → ¬ e.sum.node.isNone = true ∨ x ∈ l → Drained e)

/-- The gradients that are taken out are what their entries stood for, or null. -/
def TakenOut (c : Config Op V) (w : List (ValueNode Op V)) (og : OutputGrads) (l : List (ℕ × ℕ))
    (st : TakingOut Op V) (outs : List NodeEntry) : Prop :=
  st.uniqueGrads = outs.zipIdx ∧ outs.length = l.length ∧
    ∀ m x m', l = m ++ x :: m' → ∃ stₘ e out, reached c w og m = some stₘ ∧
      entryAt stₘ.outputGrads x = some e ∧ outs[m.length]? = some out ∧
      (Sound stₘ.nodes e → den st.nodes out = some (entryValue stₘ.nodes e)) ∧
      (¬ Sound stₘ.nodes e → out.node = none)

/-- What stays as it was in a step of the loop. -/
theorem Taken.others {xs : List (ℕ × ℕ)} {F : ℕ × ℕ → V} {R : ℕ × ℕ → V → Prop}
    {w : List (ValueNode Op V)} {l : List (ℕ × ℕ)} {st st' : TakingOut Op V}
    (h : Taken c xs F R w l st) (hpre : st.nodes <+: st'.nodes) {x : ℕ × ℕ} {e' : GradEntry}
    (hcounter : st'.counter = st.counter + 1)
    (hat : ∀ c', entryAt st'.outputGrads c' =
      if c' = x then some e' else entryAt st.outputGrads c')
    (hx : (¬ e'.sum.node.isNone = true → Sound st'.nodes e' ∧ R x (entryValue st'.nodes e')) ∧
      (Drains c → Drained e')) : Taken c xs F R w (l ++ [x]) st' where
  grows := h.grows.trans hpre
  counter := by rw [hcounter, h.counter, List.length_append, List.length_singleton]
  entries y hy := by
    obtain ⟨e, he, hfresh, hsum, hdrained⟩ := h.entries y hy
    rw [hat]
    split_ifs with heq
    · subst heq
      exact ⟨e', rfl, fun hnot => absurd (by simp) hnot, hx.1, fun hd _ => hx.2 hd⟩
    · refine ⟨e, he, fun hnot => ?_, fun hsome => ?_, fun hd hor => hdrained hd ?_⟩
      · obtain ⟨hsound, hval⟩ := hfresh fun hmem => hnot (List.mem_append_left _ hmem)
        exact ⟨hsound.of_extends hpre, (entryValue_of_extends hpre hsound).trans hval⟩
      · obtain ⟨hsound, hR⟩ := hsum hsome
        rw [entryValue_of_extends hpre hsound]
        exact ⟨hsound.of_extends hpre, hR⟩
      · rcases hor with hsome | hmem
        · exact .inl hsome
        · exact .inr (by simpa [heq] using hmem)

/-- The outputs after one more target. -/
theorem TakenOut.append {w : List (ValueNode Op V)} {og : OutputGrads} {l : List (ℕ × ℕ)}
    {st st' : TakingOut Op V} {outs : List NodeEntry} (h : TakenOut c w og l st outs)
    (hreached : reached c w og l = some st) (hcounter : st.counter = l.length)
    (hpre : st.nodes <+: st'.nodes) {x : ℕ × ℕ} {e : GradEntry} {out : NodeEntry}
    (he : entryAt st.outputGrads x = some e)
    (hunique : st'.uniqueGrads = st.uniqueGrads ++ [(out, st.counter)])
    (hout : (Sound st.nodes e → den st'.nodes out = some (entryValue st.nodes e)) ∧
      (¬ Sound st.nodes e → out.node = none)) :
    TakenOut c w og (l ++ [x]) st' (outs ++ [out]) := by
  obtain ⟨houts, hlength, hsplit⟩ := h
  refine ⟨?_, by simp [hlength], fun m y m' heq => ?_⟩
  · rw [hunique, houts, hcounter, List.zipIdx_append, ← hlength, Nat.zero_add]
    rfl
  · rcases List.eq_nil_or_concat m' with rfl | ⟨m', z, rfl⟩
    · obtain ⟨rfl, hxy⟩ := List.append_inj' heq rfl
      obtain rfl := List.singleton_inj.mp hxy
      refine ⟨st, e, out, hreached, he, ?_, hout⟩
      rw [← hlength, List.getElem?_append_right le_rfl, Nat.sub_self]
      rfl
    · rw [List.concat_eq_append, ← List.cons_append, ← List.append_assoc] at heq
      obtain ⟨hl, -⟩ := List.append_inj' heq rfl
      obtain ⟨stₘ, e, out, hm, he, hget, hsound, hnot⟩ := hsplit m y m' hl
      exact ⟨stₘ, e, out, hm, he,
        by rw [List.getElem?_append_left (List.getElem?_eq_some_iff.mp hget).1, hget],
        fun hs => den_of_extends hpre (hsound hs), hnot⟩

/-- A target that comes again has the entry `e` without a sum, which was moved out. -/
def MovedAgain (c : Config Op V) (w : List (ValueNode Op V)) (og : OutputGrads)
    (xs m : List (ℕ × ℕ)) (x : ℕ × ℕ) (st : TakingOut Op V) (e : GradEntry) : Prop :=
  m ++ [x] <+: xs ∧ x ∈ m ∧ reached c w og m = some st ∧ entryAt st.outputGrads x = some e ∧
    e.sum.node.isNone = true

theorem sound_of_nil {w : List (ValueNode Op V)} {e : GradEntry} (hnone : e.sum.node.isNone = true)
    (hgrads : e.grads = []) : Sound w e ∧ entryValue w e = 0 := by
  rw [Sound, entryValue, if_pos hnone, if_pos hnone, hgrads]
  simp

omit [AddCommGroup V] in
/-- A target that comes once does not come again. -/
theorem not_movedAgain_of_nodup {w : List (ValueNode Op V)} {og : OutputGrads}
    {xs m : List (ℕ × ℕ)} {x : ℕ × ℕ} {st : TakingOut Op V} {e : GradEntry} (hnodup : xs.Nodup) :
    ¬ MovedAgain c w og xs m x st e := fun ⟨hm, hmem, _⟩ =>
  (List.nodup_append.mp (hnodup.sublist hm.sublist)).2.2 x hmem x (by simp) rfl

/-- Without a copy operator no sum is moved. -/
theorem Exact.not_movedAgain_of_copyOp (hc : Exact c g pair jvp) (hop : c.copyOp = none)
    {w : List (ValueNode Op V)} {og : OutputGrads} {xs : List (ℕ × ℕ)}
    (hxs : ∀ x ∈ xs, ∃ e, entryAt og x = some e ∧ Sound w e) {m : List (ℕ × ℕ)} {x : ℕ × ℕ}
    {st : TakingOut Op V} {e : GradEntry} : ¬ MovedAgain c w og xs m x st e := by
  have hkeeps : ∀ l, l <+: xs → ∀ st, reached c w og l = some st → ∀ y ∈ xs,
      ∃ e, entryAt st.outputGrads y = some e ∧ Sound st.nodes e ∧
        (y ∈ l → ¬ e.sum.node.isNone = true) := fun l => by
    induction l using List.reverseRecOn with
    | nil =>
      intro _ st hst y hy
      obtain rfl := Option.some.inj hst
      obtain ⟨e, he, hsound⟩ := hxs y hy
      exact ⟨e, he, hsound, by simp⟩
    | append_singleton l z ih =>
      intro hl st hst y hy
      obtain ⟨st₀, h₀, hstep⟩ := reached_append.mp hst
      have hbefore := ih ((List.prefix_append l [z]).trans hl) st₀ h₀
      obtain ⟨e, he, hsound, -⟩ := hbefore z (hl.subset (by simp))
      obtain ⟨st', out, e', hrun, -, -, hpre, -, hat, hkept⟩ := hc.takeOut he hsound
      obtain rfl := Option.some.inj (hrun.symm.trans hstep)
      rw [hat]
      split_ifs with hyz
      · obtain ⟨hsound', -, hsome⟩ := hkept.resolve_right fun hmoved => hmoved.1 hop
        exact ⟨e', rfl, hsound', fun _ => hsome⟩
      · obtain ⟨e, he, hsound, hsome⟩ := hbefore y hy
        exact ⟨e, he, hsound.of_extends hpre, fun hmem => hsome (by simpa [hyz] using hmem)⟩
  rintro ⟨hm, hmem, hst, he, hnone⟩
  obtain ⟨e', he', -, hsome⟩ :=
    hkeeps m ((List.prefix_append m [x]).trans hm) st hst x (hm.subset (by simp))
  obtain rfl := Option.some.inj (he.symm.trans he')
  exact hsome hmem hnone

/-- What the loop has done when it has gone through the targets `l`. -/
theorem Exact.taken (hc : Exact c g pair jvp) {xs : List (ℕ × ℕ)} {F : ℕ × ℕ → V}
    {R : ℕ × ℕ → V → Prop} (hF : ∀ x ∈ xs, R x (F x)) {w : List (ValueNode Op V)}
    {og : OutputGrads}
    (hxs : ∀ x ∈ xs, ∃ e, entryAt og x = some e ∧ Sound w e ∧ entryValue w e = F x ∧
      (Drains c → ¬ e.sum.node.isNone = true → Drained e))
    (hmoved : ∀ m x st e, MovedAgain c w og xs m x st e →
      Drains c ∧ (Sound st.nodes e → R x (entryValue st.nodes e)))
    {l : List (ℕ × ℕ)} (hl : l <+: xs) {st : TakingOut Op V} (h : reached c w og l = some st) :
    Taken c xs F R w l st ∧ ∃ outs, TakenOut c w og l st outs := by
  induction l using List.reverseRecOn generalizing st with
  | nil =>
    obtain rfl := Option.some.inj h
    refine ⟨⟨List.prefix_refl w, rfl, fun x hx => ?_⟩, [], rfl, rfl, by simp⟩
    obtain ⟨e, he, hsound, hval, hdrained⟩ := hxs x hx
    refine ⟨e, he, fun _ => ⟨hsound, hval⟩, fun _ => ⟨hsound, ?_⟩, fun hd hor => ?_⟩
    · show R x (entryValue w e)
      rw [hval]
      exact hF x hx
    · exact hdrained hd (hor.resolve_right (by simp))
  | append_singleton l x ih =>
    obtain ⟨st₀, h₀, hstep⟩ := reached_append.mp h
    obtain ⟨htaken, outs, houts⟩ := ih ((List.prefix_append l [x]).trans hl) h₀
    have hx : x ∈ xs := hl.subset (by simp)
    obtain ⟨e, he, hfresh, hsum, hdrained⟩ := htaken.entries x hx
    obtain ⟨e₀, w₁, e₁, e', out, he₀, hsummed, hgrads, hcounter, hunique, hat, hnull⟩ :=
      takeOut_some hstep
    obtain rfl : e = e₀ := Option.some.inj (he.symm.trans he₀)
    have hleft : Drains c → Drained e' := fun hd => by
      have hd₁ := hd.summed (fun hnone => hdrained hd (.inl hnone)) hsummed
      unfold Drained at hd₁ ⊢
      rwa [hgrads]
    by_cases hsound : Sound st₀.nodes e
    · have hR : R x (entryValue st₀.nodes e) := by
        by_cases hmem : x ∈ l
        · by_cases hnone : e.sum.node.isNone = true
          · exact (hmoved l x st₀ e ⟨hl, hmem, h₀, he, hnone⟩).2 hsound
          · exact (hsum hnone).2
        · rw [(hfresh hmem).2]
          exact hF x hx
      obtain ⟨st', out', e'', hrun, -, hunique', hpre, hden, hat', hkept⟩ := hc.takeOut he hsound
      obtain rfl := Option.some.inj (hrun.symm.trans hstep)
      obtain rfl : e'' = e' := by
        have h₁ := hat' x
        have h₂ := hat x
        rw [if_pos rfl] at h₁ h₂
        exact Option.some.inj (h₁.symm.trans h₂)
      obtain rfl : out' = out := by
        have heq := List.append_cancel_left (hunique'.symm.trans hunique)
        exact congrArg Prod.fst (List.singleton_inj.mp heq)
      refine ⟨htaken.others hpre hcounter hat ⟨fun hsome => ?_, hleft⟩, _,
        houts.append h₀ htaken.counter hpre he hunique
          ⟨fun _ => hden, fun hnot => absurd hsound hnot⟩⟩
      obtain ⟨hsound', hval, -⟩ := hkept.resolve_right fun hmovedOut => hsome hmovedOut.2
      rw [hval]
      exact ⟨hsound', hR⟩
    · -- the sum was moved, and what is left of the gradients is a null entry
      have hmem : x ∈ l := by
        by_contra hnot
        exact hsound (hfresh hnot).1
      have hnone : e.sum.node.isNone = true := by
        by_contra hsome
        exact hsound (hsum hsome).1
      obtain ⟨hd, -⟩ := hmoved l x st₀ e ⟨hl, hmem, h₀, he, hnone⟩
      rcases hdrained hd (.inr hmem) with hnil | ⟨y, hy, hgradsₑ⟩
      · exact absurd (sound_of_nil hnone hnil).1 hsound
      · obtain ⟨hpre, hsumnull⟩ := hd.summed_null hnone hy hgradsₑ hsummed
        obtain ⟨hout, hnodes, he'⟩ := hnull hsumnull
        rw [← hnodes] at hpre
        exact ⟨htaken.others hpre hcounter hat
            ⟨fun hsome => absurd (by simp [he']) hsome, hleft⟩, _,
          houts.append h₀ htaken.counter hpre he hunique
            ⟨fun hs => absurd hs hsound, fun _ => hout⟩⟩

/-- The loop goes through when every entry stands for something as its target comes. -/
theorem Exact.reached_isSome (hc : Exact c g pair jvp) {xs : List (ℕ × ℕ)}
    {w : List (ValueNode Op V)} {og : OutputGrads}
    (hgood : ∀ m x st, m ++ [x] <+: xs → reached c w og m = some st →
      ∃ e, entryAt st.outputGrads x = some e ∧ Sound st.nodes e)
    {l : List (ℕ × ℕ)} (hl : l <+: xs) : ∃ st, reached c w og l = some st := by
  induction l using List.reverseRecOn with
  | nil => exact ⟨_, rfl⟩
  | append_singleton l x ih =>
    obtain ⟨st, hst⟩ := ih ((List.prefix_append l [x]).trans hl)
    obtain ⟨e, he, hsound⟩ := hgood l x st hl hst
    obtain ⟨st', -, -, hstep, -⟩ := hc.takeOut he hsound
    exact ⟨st', reached_append.mpr ⟨st, hst, hstep⟩⟩

/-- The entries of the nodes that are still to come have no sums, and the gradients under the other
sums were moved. -/
structure Moved (pre : List ℕ) (og : OutputGrads) : Prop where
  pending : ∀ c e, entryAt og c = some e → c.1 ∈ pre → e.sum.node.isNone = true
  drained : ∀ c e, entryAt og c = some e → ¬ e.sum.node.isNone = true → Drained e

omit [AddCommGroup V] in
theorem Moved.addGrad {pre : List ℕ} {w : List (ValueNode Op V)} {og og' : OutputGrads}
    (h : Moved pre og) {ig : (ℕ × ℕ) × NodeEntry} (hmem : ig.1.1 ∈ pre)
    (hrun : addGrad c w og ig = some og') : Moved pre og' := by
  have hentry : ∃ e, entryAt og ig.1 = some e := by
    obtain ⟨es, hes, hlt⟩ := Option.bind_eq_some_iff.mp hrun
    obtain ⟨hlt, -⟩ := Option.ite_none_right_eq_some.mp hlt
    exact ⟨es[ig.1.2], by simp [entryAt, hes, hlt]⟩
  obtain ⟨e, he⟩ := hentry
  have hnone := h.pending _ e he hmem
  obtain ⟨og₁, hmod, hat, -⟩ := modifyEntry_spec he fun entry =>
    { entry with
      needAttrHint := entry.needAttrHint && !(opOf w ig.2).any c.inferShape
      grads := entry.grads ++ [ig.2] }
  obtain rfl := Option.some.inj (hmod.symm.trans hrun)
  refine ⟨fun c' e' he' hc' => ?_, fun c' e' he' hsome => ?_⟩
  · rw [hat] at he'
    split_ifs at he'
    · obtain rfl := Option.some.inj he'
      exact hnone
    · exact h.pending c' e' he' hc'
  · rw [hat] at he'
    split_ifs at he'
    · obtain rfl := Option.some.inj he'
      exact absurd hnone hsome
    · exact h.drained c' e' he' hsome

omit [AddCommGroup V] in
theorem Moved.addGrads {pre : List ℕ} {w : List (ValueNode Op V)} {og og' : OutputGrads}
    (h : Moved pre og) {igs : List ((ℕ × ℕ) × NodeEntry)} (hmem : ∀ ig ∈ igs, ig.1.1 ∈ pre)
    (hrun : igs.foldlM (GradientPass.addGrad c w) og = some og') : Moved pre og' := by
  induction igs generalizing og with
  | nil =>
    obtain rfl := Option.some.inj hrun
    exact h
  | cons ig igs ih =>
    rw [List.foldlM_cons] at hrun
    obtain ⟨og₁, hadd, hrest⟩ := Option.bind_eq_some_iff.mp hrun
    exact ih (h.addGrad (hmem ig (by simp)) hadd)
      (fun x hx => hmem x (List.mem_cons_of_mem _ hx)) hrest

omit [AddCommGroup V] in
theorem Drains.aggregateOutputs (hd : Drains c) {n i : ℕ} {w w' : List (ValueNode Op V)}
    {es es' : List GradEntry} (h : aggregateOutputs c n i w es = some (w', es')) :
    ∀ e ∈ es', Drained e := by
  induction es generalizing i w w' es' with
  | nil =>
    obtain ⟨-, rfl⟩ := Prod.ext_iff.mp (Option.some.inj h)
    simp
  | cons e es ih =>
    obtain ⟨⟨w₁, e₁⟩, hagg, h⟩ := Option.bind_eq_some_iff.mp h
    obtain ⟨⟨w₂, es₂⟩, hrest, h⟩ := Option.bind_eq_some_iff.mp h
    obtain ⟨-, rfl⟩ := Prod.ext_iff.mp (Option.some.inj h)
    exact List.forall_mem_cons.mpr ⟨hd.aggregate hagg, ih hrest⟩

variable [DecidableEq Op]

/-- When a node is passed, its gradients are moved and those of its inputs are collected. -/
theorem Drains.backward (hd : Drains c) {pre : List ℕ} {n : ℕ} (hnot : n ∉ pre)
    (hchildren : ∀ m ∈ children g n, m ∈ pre) {w w' : List (ValueNode Op V)} {og og' : OutputGrads}
    (h : Moved (pre ++ [n]) og) (hrun : backward c g (w, og) n = some (w', og')) :
    Moved pre og' := by
  have hsub : Moved pre og :=
    ⟨fun c' e he hc' => h.pending c' e he (List.mem_append_left _ hc'), h.drained⟩
  obtain ⟨node, hnode, hrun⟩ := Option.bind_eq_some_iff.mp hrun
  by_cases hvar : node.isVariable = true
  · rw [if_pos hvar] at hrun
    obtain ⟨-, rfl⟩ := Prod.ext_iff.mp (Option.some.inj hrun)
    exact hsub
  · rw [if_neg hvar] at hrun
    obtain ⟨entries, hentries, hrun⟩ := Option.bind_eq_some_iff.mp hrun
    obtain ⟨⟨w₁, entries'⟩, hagg, hrun⟩ := Option.bind_eq_some_iff.mp hrun
    have hpassed : Moved pre (Function.update og n (some entries')) := by
      refine ⟨fun c' e he hc' => ?_, fun c' e he hsome => ?_⟩
      · have hne : c'.1 ≠ n := fun heq => hnot (heq ▸ hc')
        rw [entryAt_update, if_neg hne] at he
        exact hsub.pending c' e he hc'
      · rw [entryAt_update] at he
        split_ifs at he
        · exact hd.aggregateOutputs hagg e (List.mem_of_getElem? he)
        · exact hsub.drained c' e he hsome
    dsimp only at hrun
    split_ifs at hrun with hnil
    · obtain ⟨-, rfl⟩ := Prod.ext_iff.mp (Option.some.inj hrun)
      exact hpassed
    · obtain ⟨⟨w₂, grads⟩, -, hrun⟩ := Option.bind_eq_some_iff.mp hrun
      obtain ⟨og₂, hfold, hrun⟩ := Option.bind_eq_some_iff.mp hrun
      obtain ⟨-, rfl⟩ := Prod.ext_iff.mp (Option.some.inj hrun)
      refine hpassed.addGrads (fun ig hig => hchildren _ ?_) hfold
      rw [children, hnode]
      exact List.mem_append_left _ (List.mem_map_of_mem (List.of_mem_zip hig).1)

theorem Drains.sweep (hd : Drains c) {pre : List ℕ} (hnodup : pre.Nodup)
    (hsorted : TopoSorted (children g) pre) {w w' : List (ValueNode Op V)} {og og' : OutputGrads}
    (h : Moved pre og)
    (hrun : pre.reverse.foldlM (GradientPass.backward c g) (w, og) = some (w', og')) :
    Moved [] og' := by
  induction pre using List.reverseRecOn generalizing w og with
  | nil =>
    obtain ⟨-, rfl⟩ := Prod.ext_iff.mp (Option.some.inj hrun)
    exact h
  | append_singleton pre n ih =>
    have hnot : n ∉ pre := fun hn => (List.nodup_append.mp hnodup).2.2 n hn n (by simp) rfl
    have hsorted' : TopoSorted (children g) pre := by
      intro a m b hab
      exact hsorted a m (b ++ [n]) (by rw [hab, List.append_assoc, List.cons_append])
    rw [List.reverse_append, List.reverse_singleton, List.singleton_append, List.foldlM_cons] at hrun
    obtain ⟨⟨w₁, og₁⟩, hback, hrest⟩ := Option.bind_eq_some_iff.mp hrun
    exact ih (List.nodup_append.mp hnodup).1 hsorted'
      (hd.backward hnot (hsorted pre n [] rfl) h hback) hrest

theorem outputs_zipIdx (outs : List NodeEntry) : outputs outs.length outs.zipIdx = outs := by
  have hfill : ∀ (done outs : List NodeEntry),
      (outs.zipIdx done.length).foldl (fun l kv => l.set kv.2 kv.1)
        (done ++ List.replicate outs.length ⟨none, 0, 0⟩) = done ++ outs := by
    intro done outs
    induction outs generalizing done with
    | nil => simp
    | cons out outs ih =>
      have hnext := ih (done ++ [out])
      rw [List.length_append, List.length_singleton] at hnext
      rw [List.zipIdx_cons, List.foldl_cons, List.length_cons, List.replicate_succ,
        List.set_append_right _ _ le_rfl, Nat.sub_self, List.set_cons_zero, ← List.singleton_append,
        ← List.append_assoc, hnext, List.append_assoc, List.singleton_append]
  exact hfill [] outs

end TakingOut

theorem mapM_den {w : List (ValueNode Op V)} {v : List NodeEntry} (h : ∀ e ∈ v, Denotes w e) :
    v.mapM (den w) = some (v.map (value w)) := by
  induction v with
  | nil => rfl
  | cons e v ih =>
    have he := h e List.mem_cons_self
    have hv := ih fun x hx => h x (List.mem_cons_of_mem _ hx)
    rw [Denotes] at he
    simp only [List.mapM_cons, he, hv, Option.bind_eq_bind, Option.bind_some, List.map_cons]
    rfl

/-- `DefaultAggregateGradient` aggregates by summation. -/
theorem defaultAggregateGradient_sums (zeros elemwiseSum : Op) (w : List (ValueNode Op V))
    (v : List NodeEntry) (h : ∀ e ∈ v, Denotes w e) :
    ∃ w' e left, defaultAggregateGradient zeros elemwiseSum w v = some (w', e, left) ∧
      w <+: w' ∧ den w' e = some (v.map (value w)).sum := by
  match v, h with
  | [], _ => exact ⟨_, _, _, rfl, (den_create w zeros 0).1, (den_create w zeros 0).2⟩
  | [e], h =>
    refine ⟨w, e, _, rfl, List.prefix_refl w, ?_⟩
    rw [List.map_singleton, List.sum_singleton]
    exact h e List.mem_cons_self
  | e :: e' :: v, h =>
    have hsum := den_create w elemwiseSum ((e :: e' :: v).map (value w)).sum
    refine ⟨_, _, _, rfl, ?_⟩
    rw [mapM_den h]
    exact hsum

section Outputs
variable (g : List Node) (pair : V →+ V →+ S) (jvp : ℕ → List V → ℕ → V)

/-- The derivative of the out-gradients paired with the heads, with respect to `x` and in the
direction `δ`. -/
def derivative (w : List (ValueNode Op V)) (heads : List ((ℕ × ℕ) × NodeEntry)) (x : ℕ × ℕ)
    (δ : V) : S :=
  (heads.map fun head => pair (value w head.2) (tangent g jvp x δ head.1.1 head.1.2)).sum

/-- The outputs denote the derivatives with respect to the targets. -/
def DenoteDerivatives (w : List (ValueNode Op V)) (heads : List ((ℕ × ℕ) × NodeEntry))
    (xs : List (ℕ × ℕ)) (w' : List (ValueNode Op V)) (outs : List NodeEntry) : Prop :=
  ∀ (i : ℕ) (x : ℕ × ℕ) (out : NodeEntry), xs[i]? = some x → outs[i]? = some out →
    Denotes w' out ∧ ∀ δ, pair (value w' out) δ = derivative g pair jvp w heads x δ

variable {g pair jvp} {c : Config Op V} [DecidableEq Op]

/-- The nodes below the heads are all visited. -/
theorem mem_of_reachable {order : List ℕ} (hsorted : TopoSorted (children g) order) {n m : ℕ}
    (hn : n ∈ order) (h : Relation.ReflTransGen (fun a b => b ∈ children g a) n m) :
    m ∈ order := by
  induction h with
  | refl => exact hn
  | tail _ hchild ih =>
    obtain ⟨a, b, rfl⟩ := List.append_of_mem ih
    exact List.mem_append_left _ (hsorted a _ b rfl _ hchild)

/-- The state in which the gradients are taken out. -/
theorem collect_eq_some {w w₁ : List (ValueNode Op V)} {ys xs : List (ℕ × ℕ)}
    {ysOutGrad : List NodeEntry} {order : List ℕ} {og og₁ : OutputGrads}
    (hlen : ys.length = ysOutGrad.length)
    (hvisit : DFSVisit.postOrderDFSVisit (children g) (visitFuel g) (ys.map Prod.fst) = some order)
    (hseed : (ys.zip ysOutGrad).foldlM seed (initialGrads g order) = some og)
    (hreached : ∀ x ∈ xs, (og x.1).isSome = true)
    (hsweep : order.reverse.foldlM (backward c g) (w, og) = some (w₁, og₁)) :
    collect c g w ys ysOutGrad xs = some (w₁, og₁) := by
  have hany : xs.any (fun x => (og x.1).isNone) = false := by
    apply List.any_eq_false.mpr
    intro x hx
    obtain ⟨es, hes⟩ := Option.isSome_iff_exists.mp (hreached x hx)
    simp [hes]
  simp only [collect, hvisit, hlen, hseed, hany, Option.bind_eq_bind, Option.bind_some]
  simpa using hsweep

/-- A target of the pass comes again, when the sum of its entry `e` was moved. -/
def ComesAgain (c : Config Op V) (g : List Node) (w : List (ValueNode Op V)) (ys : List (ℕ × ℕ))
    (ysOutGrad : List NodeEntry) (xs : List (ℕ × ℕ)) (x : ℕ × ℕ) (e : GradEntry) : Prop :=
  ∃ w₁ og₁ m st, collect c g w ys ysOutGrad xs = some (w₁, og₁) ∧ MovedAgain c w₁ og₁ xs m x st e

/-- What the traversal has collected for the targets. Paired with a direction, it is what the heads
give that are not overwritten. -/
theorem Exact.collect (hg : WellFormed g) (hc : Exact c g pair jvp)
    (w : List (ValueNode Op V)) (ys : List (ℕ × ℕ)) (ysOutGrad : List NodeEntry)
    (xs : List (ℕ × ℕ)) (hlen : ys.length = ysOutGrad.length)
    (hys : ∀ y ∈ ys, y.1 < g.length ∧ y.2 < numOutputs g y.1)
    (hgrads : ∀ e ∈ ysOutGrad, Denotes w e)
    (hxs : ∀ x ∈ xs, x.2 < numOutputs g x.1 ∧
      ∃ y ∈ ys, Relation.ReflTransGen (fun a b => b ∈ children g a) y.1 x.1) :
    ∃ w₁ og₁, GradientPass.collect c g w ys ysOutGrad xs = some (w₁, og₁) ∧
      (∀ x ∈ xs, ∃ e, entryAt og₁ x = some e ∧ Sound w₁ e ∧ entryValue w₁ e = entryVal w₁ og₁ x ∧
        (Drains c → ¬ e.sum.node.isNone = true → Drained e)) ∧
      ∀ x ∈ xs, ∀ δ, pair (entryVal w₁ og₁ x) δ =
        derivative g pair jvp w (keptHeads (ys.zip ysOutGrad)) x δ := by
  have hclosed : ∀ n ∈ Finset.range g.length, ∀ m ∈ children g n, m ∈ Finset.range g.length := by
    intro n hn m hm
    rw [Finset.mem_range] at hn ⊢
    exact (hg.acyclic n m hm).trans hn
  have hrank : ∀ n, ∀ m ∈ children g n, id m < id n := hg.acyclic
  have hheads : ∀ n ∈ ys.map Prod.fst, n ∈ Finset.range g.length := by
    intro n hn
    obtain ⟨y, hy, rfl⟩ := List.mem_map.mp hn
    exact Finset.mem_range.mpr (hys y hy).1
  obtain ⟨order, hvisit, hnodup, hsorted, hmem, hnodes⟩ :=
    DFSVisit.postOrderDFSVisit_spec hrank hclosed hheads
  have hlt : ∀ n ∈ order, n < g.length := fun n hn => Finset.mem_range.mp (hnodes n hn)
  obtain ⟨hinit, hzero⟩ := Ready.initial (w := w) hlt
  have hhead : ∀ head ∈ ys.zip ysOutGrad,
      head.1.1 ∈ order ∧ head.1.2 < numOutputs g head.1.1 ∧ Denotes w head.2 := by
    intro head hin
    obtain ⟨hy, he⟩ := List.of_mem_zip hin
    exact ⟨hmem _ (List.mem_map_of_mem hy), (hys _ hy).2, hgrads _ he⟩
  obtain ⟨og, hseed, hready, hkept⟩ := hinit.seeds hnodup pair hhead
  obtain ⟨w₁, og₁, hsweep, hpre₁, hready₁, -, henergy⟩ :=
    hready.sweep hg hc (List.Subset.refl _) hnodup hsorted hlt
  have hx : ∀ x ∈ xs, x.1 ∈ order := by
    intro x hx
    obtain ⟨-, y, hy, hreach⟩ := hxs x hx
    exact mem_of_reachable hsorted (hmem _ (List.mem_map_of_mem hy)) hreach
  have hreached : ∀ x ∈ xs, (og x.1).isSome = true := by
    intro x hmemx
    have hsize := hready.sizes x.1
    rw [if_pos (hx x hmemx), Option.map_eq_some_iff] at hsize
    obtain ⟨es, hes, -⟩ := hsize
    exact Option.isSome_of_eq_some hes
  -- no entry has a sum before the traversal
  have hmoved : Moved order og := by
    have hnone : ∀ c' e, entryAt og c' = some e → e.sum.node.isNone = true := fun c' e he => by
      refine hready.pending c' e he (by_contra fun hnot => ?_)
      have hsize := hready.sizes c'.1
      obtain ⟨es, hes, -⟩ := Option.bind_eq_some_iff.mp he
      rw [if_neg hnot, hes] at hsize
      exact absurd hsize (by simp)
    exact ⟨fun c' e he _ => hnone c' e he, fun c' e he hsome => absurd (hnone c' e he) hsome⟩
  refine ⟨w₁, og₁, collect_eq_some hlen hvisit hseed hreached hsweep, fun x hmemx => ?_,
    fun x hmemx δ => ?_⟩
  · obtain ⟨e, he⟩ := hready₁.entry (hx x hmemx) (hxs x hmemx).1
    refine ⟨e, he, hready₁.sound x e he, ?_, fun hd hsome =>
      (hd.sweep hnodup hsorted hmoved hsweep).drained x e he hsome⟩
    rw [entryVal, he]
    rfl
  · have hsingle := cellSum_single (numOutputs g) hnodup (hx x hmemx) (hxs x hmemx).1
      (f := fun c' => pair (entryVal w₁ og₁ c') (perturb x δ c')) fun c' hc' => by
        rw [perturb, if_neg hc', map_zero]
    rw [perturb, if_pos rfl] at hsingle
    rw [← hsingle, henergy x δ, hkept fun c' => tangent g jvp x δ c'.1 c'.2, hzero]
    simp only [Pi.zero_apply, map_zero, AddMonoidHom.zero_apply, ite_self, cellSum_zero, zero_add]
    rfl

/-- No target comes again after its sum was moved without a copy operator, or when no target comes
twice. -/
theorem Exact.not_comesAgain (hg : WellFormed g) (hc : Exact c g pair jvp)
    (w : List (ValueNode Op V)) (ys : List (ℕ × ℕ)) (ysOutGrad : List NodeEntry)
    (xs : List (ℕ × ℕ)) (hlen : ys.length = ysOutGrad.length)
    (hys : ∀ y ∈ ys, y.1 < g.length ∧ y.2 < numOutputs g y.1)
    (hgrads : ∀ e ∈ ysOutGrad, Denotes w e)
    (hxs : ∀ x ∈ xs, x.2 < numOutputs g x.1 ∧
      ∃ y ∈ ys, Relation.ReflTransGen (fun a b => b ∈ children g a) y.1 x.1)
    (h : c.copyOp = none ∨ xs.Nodup) : ¬ ∃ x e, ComesAgain c g w ys ysOutGrad xs x e := by
  rintro ⟨x, e, w₂, og₂, m, st, hcollect, hmoved⟩
  rcases h with hop | hnodup
  · obtain ⟨w₁, og₁, hcollect', hentries, -⟩ :=
      hc.collect hg w ys ysOutGrad xs hlen hys hgrads hxs
    obtain ⟨rfl, rfl⟩ := Prod.mk.inj (Option.some.inj (hcollect.symm.trans hcollect'))
    refine hc.not_movedAgain_of_copyOp hop (fun x hx => ?_) hmoved
    obtain ⟨e, he, hsound, -⟩ := hentries x hx
    exact ⟨e, he, hsound⟩
  · exact not_movedAgain_of_nodup hnodup hmoved

/-- What the pass returns, when the loop over the targets goes through. -/
theorem gradient_of_reached {w w₁ : List (ValueNode Op V)} {og₁ : OutputGrads}
    {ys xs : List (ℕ × ℕ)} {ysOutGrad outs : List NodeEntry} {st : TakingOut Op V}
    (hcollect : collect c g w ys ysOutGrad xs = some (w₁, og₁))
    (hreached : reached c w₁ og₁ xs = some st) (houts : TakenOut c w₁ og₁ xs st outs) :
    gradient c g w ys ysOutGrad xs = some (st.nodes, outs) := by
  rw [reached] at hreached
  simp only [gradient, hcollect, hreached, Option.bind_eq_bind, Option.bind_some]
  rw [houts.1, ← houts.2.1, outputs_zipIdx]

/-- The pass returns the derivatives exactly when the out-gradients of the overwritten heads add
nothing to them, and a target that comes again after its sum was moved has no derivative and had
not just one gradient. -/
theorem gradient_derivatives_iff (hg : WellFormed g) (hc : Exact c g pair jvp)
    (w : List (ValueNode Op V)) (ys : List (ℕ × ℕ)) (ysOutGrad : List NodeEntry)
    (xs : List (ℕ × ℕ)) (hlen : ys.length = ysOutGrad.length)
    (hys : ∀ y ∈ ys, y.1 < g.length ∧ y.2 < numOutputs g y.1)
    (hgrads : ∀ e ∈ ysOutGrad, Denotes w e)
    (hxs : ∀ x ∈ xs, x.2 < numOutputs g x.1 ∧
      ∃ y ∈ ys, Relation.ReflTransGen (fun a b => b ∈ children g a) y.1 x.1)
    (hdrains : (∃ x e, ComesAgain c g w ys ysOutGrad xs x e) → Drains c) :
    (∃ w' outs, gradient c g w ys ysOutGrad xs = some (w', outs) ∧ outs.length = xs.length ∧
      DenoteDerivatives g pair jvp w (ys.zip ysOutGrad) xs w' outs) ↔
    (∀ x ∈ xs, ∀ δ, derivative g pair jvp w (overwrittenHeads (ys.zip ysOutGrad)) x δ = 0) ∧
      ∀ x e, ComesAgain c g w ys ysOutGrad xs x e →
        e.grads = [] ∧ ∀ δ, derivative g pair jvp w (ys.zip ysOutGrad) x δ = 0 := by
  obtain ⟨w₁, og₁, hcollect, hentries, hvalue⟩ :=
    hc.collect hg w ys ysOutGrad xs hlen hys hgrads hxs
  have hagain : ∀ {m x st e}, MovedAgain c w₁ og₁ xs m x st e →
      ComesAgain c g w ys ysOutGrad xs x e := fun h => ⟨w₁, og₁, _, _, hcollect, h⟩
  have hsplit : ∀ x δ, derivative g pair jvp w (ys.zip ysOutGrad) x δ =
      derivative g pair jvp w (keptHeads (ys.zip ysOutGrad)) x δ +
        derivative g pair jvp w (overwrittenHeads (ys.zip ysOutGrad)) x δ := fun x δ =>
    sum_heads _ _
  constructor
  · rintro ⟨w', outs, hrun, -, hden⟩
    obtain ⟨st, hst⟩ : ∃ st, reached c w₁ og₁ xs = some st := by
      simp only [gradient, hcollect, Option.bind_eq_bind, Option.bind_some] at hrun
      obtain ⟨st, hst, -⟩ := Option.bind_eq_some_iff.mp hrun
      exact ⟨st, hst⟩
    have htaken := fun {l : List (ℕ × ℕ)} (hl : l <+: xs) {st : TakingOut Op V}
        (hst : reached c w₁ og₁ l = some st) =>
      hc.taken (R := fun _ _ => True) (fun _ _ => trivial) hentries
        (fun m x st e h => ⟨hdrains ⟨x, e, hagain h⟩, fun _ => trivial⟩) hl hst
    obtain ⟨-, outs', houts⟩ := htaken (List.prefix_refl xs) hst
    obtain ⟨hnodes, hsame⟩ := Prod.mk.inj
      (Option.some.inj (hrun.symm.trans (gradient_of_reached hcollect hst houts)))
    subst hnodes hsame
    -- an output that is the derivative stood in its entry
    have hright : ∀ {m x m'}, xs = m ++ x :: m' → ∃ stₘ e, reached c w₁ og₁ m = some stₘ ∧
        entryAt stₘ.outputGrads x = some e ∧ Sound stₘ.nodes e ∧ ∀ δ,
          pair (entryValue stₘ.nodes e) δ = derivative g pair jvp w (ys.zip ysOutGrad) x δ := by
      intro m x m' heq
      obtain ⟨stₘ, e, out, hm, he, hget, hsound, hnull⟩ := houts.2.2 m x m' heq
      have hx : xs[m.length]? = some x := by
        rw [heq, List.getElem?_append_right le_rfl, Nat.sub_self]
        rfl
      obtain ⟨hdenotes, hpair⟩ := hden _ x out hx hget
      have hs : Sound stₘ.nodes e := by
        by_contra hnot
        have hsome := hdenotes.node_isNone
        simp [hnull hnot] at hsome
      exact ⟨stₘ, e, hm, he, hs, fun δ => by rw [← value_of_den (hsound hs), hpair]⟩
    refine ⟨fun x hx δ => ?_, fun x e hcomes => ?_⟩
    · obtain ⟨m, m', heq, hnot⟩ := List.eq_append_cons_of_mem hx
      obtain ⟨stₘ, e, hm, he, -, hpair⟩ := hright heq
      obtain ⟨e', he', hfresh, -⟩ :=
        (htaken ⟨x :: m', heq.symm⟩ hm).1.entries x hx
      obtain rfl : e' = e := Option.some.inj (he'.symm.trans he)
      have hkept := hpair δ
      rw [(hfresh hnot).2, hvalue x hx, hsplit] at hkept
      exact left_eq_add.mp hkept
    · obtain ⟨w₂, og₂, m, st', hcollect', hmoved⟩ := hcomes
      obtain ⟨rfl, rfl⟩ := Prod.ext_iff.mp (Option.some.inj (hcollect'.symm.trans hcollect))
      obtain ⟨⟨m', heq⟩, hmem, hm, he, hnone⟩ := hmoved
      rw [List.append_assoc, List.singleton_append] at heq
      obtain ⟨stₘ, e', hm', he', hsound, hpair⟩ := hright heq.symm
      obtain rfl := Option.some.inj (hm.symm.trans hm')
      obtain rfl := Option.some.inj (he.symm.trans he')
      obtain ⟨e', he', -, -, hdrained⟩ := (htaken ⟨x :: m', heq⟩ hm).1.entries x
        (heq ▸ by simp)
      obtain rfl := Option.some.inj (he.symm.trans he')
      have hd := hdrains ⟨x, e, hagain ⟨⟨m', by simpa using heq⟩, hmem, hm, he, hnone⟩⟩
      rcases hdrained hd (.inr hmem) with hnil | ⟨y, hy, hgradsₑ⟩
      · refine ⟨hnil, fun δ => ?_⟩
        rw [← hpair δ, (sound_of_nil hnone hnil).2, map_zero, AddMonoidHom.zero_apply]
      · rw [Sound, if_pos hnone, hgradsₑ] at hsound
        have hsome := (hsound y (by simp)).node_isNone
        simp [hy] at hsome
  · rintro ⟨hover, hnone⟩
    have hF : ∀ x ∈ xs, ∀ δ, pair (entryVal w₁ og₁ x) δ =
        derivative g pair jvp w (ys.zip ysOutGrad) x δ := fun x hx δ => by
      rw [hvalue x hx, hsplit, hover x hx, add_zero]
    have hmoved : ∀ m x st e, MovedAgain c w₁ og₁ xs m x st e → Drains c ∧ (Sound st.nodes e →
        ∀ δ, pair (entryValue st.nodes e) δ =
          derivative g pair jvp w (ys.zip ysOutGrad) x δ) := fun m x st e h => by
      obtain ⟨hnil, hzero⟩ := hnone x e (hagain h)
      refine ⟨hdrains ⟨x, e, hagain h⟩, fun _ δ => ?_⟩
      rw [(sound_of_nil h.2.2.2.2 hnil).2, hzero, map_zero, AddMonoidHom.zero_apply]
    have htaken := fun {l : List (ℕ × ℕ)} (hl : l <+: xs) {st : TakingOut Op V}
        (hst : reached c w₁ og₁ l = some st) =>
      hc.taken (R := fun x v => ∀ δ, pair v δ = derivative g pair jvp w (ys.zip ysOutGrad) x δ)
        hF hentries hmoved hl hst
    -- every entry stands for the derivative as its target comes
    have hgood : ∀ m x st, m ++ [x] <+: xs → reached c w₁ og₁ m = some st →
        ∃ e, entryAt st.outputGrads x = some e ∧ Sound st.nodes e ∧ ∀ δ,
          pair (entryValue st.nodes e) δ = derivative g pair jvp w (ys.zip ysOutGrad) x δ :=
        fun m x st hm hst => by
      have hx : x ∈ xs := hm.subset (by simp)
      obtain ⟨e, he, hfresh, hsum, -⟩ :=
        (htaken ((List.prefix_append m [x]).trans hm) hst).1.entries x hx
      by_cases hmem : x ∈ m
      · by_cases hisNone : e.sum.node.isNone = true
        · have hagain' : MovedAgain c w₁ og₁ xs m x st e := ⟨hm, hmem, hst, he, hisNone⟩
          have hsound := (sound_of_nil (w := st.nodes) hisNone (hnone x e (hagain hagain')).1).1
          exact ⟨e, he, hsound, (hmoved m x st e hagain').2 hsound⟩
        · exact ⟨e, he, hsum hisNone⟩
      · refine ⟨e, he, (hfresh hmem).1, ?_⟩
        rw [(hfresh hmem).2]
        exact hF x hx
    obtain ⟨st, hst⟩ := hc.reached_isSome (fun m x st hm hst => by
      obtain ⟨e, he, hsound, -⟩ := hgood m x st hm hst
      exact ⟨e, he, hsound⟩) (List.prefix_refl xs)
    obtain ⟨-, outs, houts⟩ := htaken (List.prefix_refl xs) hst
    refine ⟨st.nodes, outs, gradient_of_reached hcollect hst houts, houts.2.1,
      fun i x out hi ho => ?_⟩
    obtain ⟨hlt, hxi⟩ := List.getElem?_eq_some_iff.mp hi
    have heq : xs = xs.take i ++ x :: xs.drop (i + 1) := by
      rw [← hxi, List.cons_getElem_drop_succ, List.take_append_drop]
    obtain ⟨stₘ, e, out', hm, he, hget, hden, -⟩ := houts.2.2 _ x _ heq
    rw [List.length_take_of_le hlt.le, ho] at hget
    obtain rfl := Option.some.inj hget
    obtain ⟨e', he', hsound, hpair⟩ := hgood (xs.take i) x stₘ
      ⟨xs.drop (i + 1), by rw [List.append_assoc]; exact heq.symm⟩ hm
    obtain rfl := Option.some.inj (he.symm.trans he')
    refine ⟨Denotes.of_den (hden hsound), fun δ => ?_⟩
    rw [value_of_den (hden hsound), hpair]

end Outputs

/-- `DefaultAggregateGradient` leaves at most a null entry. -/
theorem drains_default {c : Config Op V} {zeros elemwiseSum : Op}
    (hagg : c.aggFun = defaultAggregateGradient zeros elemwiseSum)
    (hhint : ∀ f, c.attrHintFun = some f → ∀ w (e like : NodeEntry), e.node = none →
      f w e like = none) : Drains c where
  left w v w' e left h := by
    rw [hagg] at h
    match v, h with
    | [], h => exact .inl (congrArg (fun p => p.2.2) (Option.some.inj h)).symm
    | [x], h =>
      exact .inr ⟨{ x with node := none }, rfl, (congrArg (fun p => p.2.2) (Option.some.inj h)).symm⟩
    | _ :: _ :: _, h => exact .inl (congrArg (fun p => p.2.2) (Option.some.inj h)).symm
  null w x w' e left hx h := by
    rw [hagg] at h
    obtain ⟨rfl, h⟩ := Prod.ext_iff.mp (Option.some.inj h)
    obtain ⟨rfl, -⟩ := Prod.ext_iff.mp h
    exact ⟨List.prefix_refl w, hx⟩
  hint := hhint

/-- Every operator multiplies its one input by three. -/
def tripleConfig (copyOp : Option ℕ) : Config ℕ ℤ where
  fGradient := fun _ => some fun w outs =>
    match outs with
    | [out] =>
      let (w, e) := create w 3 [3 * value w out]
      some (w, [e])
    | _ => none
  inferShape := fun _ => false
  aggFun := defaultAggregateGradient 0 1
  attrHintFun := none
  zeroOps := []
  copyOp := copyOp

/-- The derivative of multiplying by three. -/
def tripleJvp (_n : ℕ) (ds : List ℤ) (_i : ℕ) : ℤ := 3 * ds.headD 0

/-- A variable and an operator on it. -/
def tripleGraph : List Node := [⟨true, 1, [], []⟩, ⟨false, 1, [(0, 0)], []⟩]

theorem tripleGraph_wellFormed : WellFormed tripleGraph := by
  have hnodes : ∀ (n : ℕ) (node : Node), tripleGraph[n]? = some node →
      (n = 0 ∧ node = ⟨true, 1, [], []⟩) ∨ (n = 1 ∧ node = ⟨false, 1, [(0, 0)], []⟩) := by
    intro n node hn
    match n, hn with
    | 0, hn => exact Or.inl ⟨rfl, (Option.some_inj.mp hn).symm⟩
    | 1, hn => exact Or.inr ⟨rfl, (Option.some_inj.mp hn).symm⟩
    | n + 2, hn => simp [tripleGraph] at hn
  constructor
  · intro n m hm
    unfold children at hm
    cases hn : tripleGraph[n]? with
    | none => simp [hn] at hm
    | some node =>
      rcases hnodes n node hn with ⟨rfl, rfl⟩ | ⟨rfl, rfl⟩ <;> simp_all
  · intro n node hn e he
    rcases hnodes n node hn with ⟨rfl, rfl⟩ | ⟨rfl, rfl⟩
    · simp at he
    · obtain rfl := List.mem_singleton.mp he
      exact ⟨_, rfl, by decide⟩
  · intro n node hn hvar
    rcases hnodes n node hn with ⟨rfl, rfl⟩ | ⟨rfl, rfl⟩ <;> simp_all

theorem tripleConfig_exact (copyOp : Option ℕ) :
    Exact (tripleConfig copyOp) tripleGraph AddMonoidHom.mul tripleJvp := by
  refine ⟨fun w v h => defaultAggregateGradient_sums 0 1 w v h, by simp [tripleConfig], ?_⟩
  intro n node hn hvar hnil
  obtain ⟨hout, hin⟩ : node.numOutputs = 1 ∧ node.inputs.length = 1 := by
    match n, hn with
    | 0, hn => simp [← Option.some_inj.mp hn] at hvar
    | 1, hn => simp [← Option.some_inj.mp hn]
    | n + 2, hn => simp [tripleGraph] at hn
  refine ⟨_, rfl, fun w outs hlen hden => ?_⟩
  obtain ⟨out, rfl⟩ := List.length_eq_one_iff.mp (hlen.trans hout)
  obtain ⟨hpre, hval⟩ := den_create w 3 (3 * value w out)
  refine ⟨_, _, rfl, hpre, by simp [hin], ?_, fun ds hds => ?_⟩
  · intro e he
    obtain rfl := List.mem_singleton.mp he
    exact Denotes.of_den hval
  · obtain ⟨d, rfl⟩ := List.length_eq_one_iff.mp (hds.trans hin)
    have hv : value (create w 3 [3 * value w out]).1 (create w 3 [3 * value w out]).2 * d =
        value w out * (3 * d) := by
      rw [value_of_den hval]
      ring
    rw [hout, Finset.sum_range_one]
    exact (add_zero _).trans hv

/-- The derivative of three times the variable, twice and with a copy operator. -/
theorem gradient_derivatives_iff_triple :
    ∃ w' outs, gradient (tripleConfig (some 2)) tripleGraph [⟨none, [5]⟩, ⟨some 3, [15]⟩, ⟨none, [7]⟩]
        [(1, 0)] [⟨some 2, 0, 0⟩] [(0, 0), (1, 0)] = some (w', outs) ∧
      outs.length = [(0, 0), (1, 0)].length ∧
      DenoteDerivatives tripleGraph AddMonoidHom.mul tripleJvp
        [⟨none, [5]⟩, ⟨some 3, [15]⟩, ⟨none, [7]⟩] [((1, 0), ⟨some 2, 0, 0⟩)] [(0, 0), (1, 0)]
        w' outs := by
  have hreach : Relation.ReflTransGen (fun a b => b ∈ children tripleGraph a) 1 0 :=
    Relation.ReflTransGen.single (by decide)
  have hiff := gradient_derivatives_iff tripleGraph_wellFormed
    (tripleConfig_exact (some 2)) [⟨none, [5]⟩, ⟨some 3, [15]⟩, ⟨none, [7]⟩] [(1, 0)]
    [⟨some 2, 0, 0⟩] [(0, 0), (1, 0)] rfl (by decide)
    (by simp [Denotes, den, value])
    (by
      intro x hx
      rcases List.mem_pair.mp hx with rfl | rfl
      · exact ⟨by decide, (1, 0), by simp, hreach⟩
      · exact ⟨by decide, (1, 0), by simp, .refl⟩)
    (fun _ => drains_default rfl (by simp [tripleConfig]))
  refine hiff.mpr ⟨fun x _ δ => rfl, fun x e hgone => ?_⟩
  obtain ⟨_, _, _, _, _, hmoved⟩ := hgone
  exact absurd hmoved (not_movedAgain_of_nodup (by decide))

/-- A target that comes again keeps its sum when that is the one of another target: of three equal
sums the first is moved and two are copied. -/
example : (gradient
    { tripleConfig (some 2) with fGradient := fun _ => some fun w outs => some (w, outs) }
    tripleGraph [⟨none, [5]⟩, ⟨some 3, [15]⟩, ⟨none, [7]⟩] [(1, 0)] [⟨some 2, 0, 0⟩]
    [(1, 0), (0, 0), (0, 0)]).map (fun p => p.2.map (den p.1)) = some [some 7, some 7, some 7] := by
  decide

/-- Two positions of one head: only the last out-gradient is seen. And a target that comes twice
with a copy operator: its second output is null. -/
theorem not_gradient_derivatives_repeated :
    (∃ w' outs, gradient (tripleConfig none) tripleGraph
        [⟨none, [5]⟩, ⟨some 3, [15]⟩, ⟨none, [1]⟩, ⟨none, [2]⟩] [(0, 0), (0, 0)]
        [⟨some 2, 0, 0⟩, ⟨some 3, 0, 0⟩] [(0, 0)] = some (w', outs) ∧
      outs = [⟨some 3, 0, 0⟩] ∧
      ¬ DenoteDerivatives tripleGraph AddMonoidHom.mul tripleJvp
        [⟨none, [5]⟩, ⟨some 3, [15]⟩, ⟨none, [1]⟩, ⟨none, [2]⟩]
        [((0, 0), ⟨some 2, 0, 0⟩), ((0, 0), ⟨some 3, 0, 0⟩)] [(0, 0)] w' outs) ∧
    ∃ w' outs, gradient (tripleConfig (some 2)) tripleGraph
        [⟨none, [5]⟩, ⟨some 3, [15]⟩, ⟨none, [1]⟩] [(0, 0)] [⟨some 2, 0, 0⟩]
        [(0, 0), (0, 0)] = some (w', outs) ∧
      outs = [⟨some 2, 0, 0⟩, ⟨none, 0, 0⟩] ∧
      ¬ DenoteDerivatives tripleGraph AddMonoidHom.mul tripleJvp
        [⟨none, [5]⟩, ⟨some 3, [15]⟩, ⟨none, [1]⟩] [((0, 0), ⟨some 2, 0, 0⟩)] [(0, 0), (0, 0)]
        w' outs := by
  refine ⟨⟨_, _, rfl, rfl, fun h => ?_⟩, ⟨_, _, rfl, rfl, fun h => ?_⟩⟩
  · have htangent : tangent tripleGraph tripleJvp (0, 0) 1 0 0 = 1 := by
      rw [tangent_eq (n := 0) tripleGraph_wellFormed tripleJvp (0, 0) 1 rfl 0]
      rfl
    have h₁ := (h 0 (0, 0) _ rfl rfl).2 1
    simp [derivative, htangent, value, den] at h₁
  · have h₁ := (h 1 (0, 0) _ rfl rfl).1
    simp [Denotes, den] at h₁

end GradientPass
end NetStorm

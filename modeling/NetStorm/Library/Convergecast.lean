import NetStorm.Library.RootedTree
import Mathlib.Data.Multiset.Count

/-!
# Rounds of a convergecast

Every vertex of a tree contributes one value a round. A vertex adds up what arrives, from
its own leaf and from its children, and when it has one part of each it passes the sum on
to its parent; the root records it and a new round begins. Values may arrive in any order,
and the leaves may start a new round at any time.
-/
namespace NetStorm.Convergecast

/-- Where a value comes from: the leaf of a vertex, or a vertex that passes a sum on. -/
inductive Source (α : Type*)
  | leaf (w : α)
  | node (c : α)
deriving DecidableEq

/-- The values on their way, the parts that every vertex has and their sum, the leaves
and vertices that are through with the round, and the recorded sums. -/
structure State (α M : Type*) where
  flying : Multiset (Source α × M)
  listed : α → List (Source α)
  merged : α → M
  pushed : Finset α
  flushed : Finset α
  updates : List M

section Count
variable {α M : Type*} [DecidableEq α]

/-- How many values of source `x` are on their way. -/
def State.inFlight (s : State α M) (x : Source α) : ℕ := (s.flying.map Prod.fst).count x

/-- Whether a source has produced its value of the round. -/
def State.produced (s : State α M) : Source α → ℕ
  | .leaf w => if w ∈ s.pushed then 1 else 0
  | .node c => if c ∈ s.flushed then 1 else 0

theorem State.produced_le_one (s : State α M) (x : Source α) : s.produced x ≤ 1 := by
  cases x with
  | leaf w => rw [State.produced]; split_ifs <;> omega
  | node c => rw [State.produced]; split_ifs <;> omega

/-- Whether a source has produced its value depends only on its own mark. -/
theorem State.produced_congr {s s' : State α M} {x : Source α}
    (hleaf : ∀ w, x = .leaf w → (w ∈ s'.pushed ↔ w ∈ s.pushed))
    (hnode : ∀ c, x = .node c → (c ∈ s'.flushed ↔ c ∈ s.flushed)) :
    s'.produced x = s.produced x := by
  cases x with
  | leaf w => simp only [State.produced, hleaf w rfl]
  | node c => simp only [State.produced, hnode c rfl]

end Count

section Machine
variable {α M : Type*} [DecidableEq α] [Fintype α] [AddCommMonoid M] (T : RootedTree α)

/-- The vertex that a value is for. -/
def Source.target : Source α → α
  | .leaf w => w
  | .node c => T.parent c

/-- The sum at a vertex when the value `a` has arrived. -/
def State.add (s : State α M) (v : α) (a : M) : M := if s.listed v = [] then a else s.merged v + a

/-- The value `a` of source `x` arrives, and `rest` stays on its way. -/
def State.arrive (s : State α M) (x : Source α) (a : M) (rest : Multiset (Source α × M)) :
    State α M :=
  let v := x.target T
  let merged := s.add v a
  if (s.listed v).length = (T.children v).card then
    if v = T.root then
      { flying := rest
        listed := Function.update s.listed v []
        merged := Function.update s.merged v merged
        pushed := ∅
        flushed := ∅
        updates := s.updates ++ [merged] }
    else
      { s with
        flying := (.node v, merged) ::ₘ rest
        listed := Function.update s.listed v []
        merged := Function.update s.merged v merged
        flushed := insert v s.flushed }
  else
    { s with
      flying := rest
      listed := Function.update s.listed v (s.listed v ++ [x])
      merged := Function.update s.merged v merged }

/-- A leaf contributes its value of the round, or a value arrives. -/
inductive Step (g : α → ℕ → M) : State α M → State α M → Prop
  | push {s : State α M} {w : α} (h : w ∉ s.pushed) : Step g s { s with
      flying := (.leaf w, g w s.updates.length) ::ₘ s.flying
      pushed := insert w s.pushed }
  | arrive {s : State α M} {x : Source α} {a : M} {rest : Multiset (Source α × M)}
      (h : s.flying = (x, a) ::ₘ rest) : Step g s (s.arrive T x a rest)

/-- What source `x` contributes to round `r`. -/
def value (g : α → ℕ → M) (r : ℕ) : Source α → M
  | .leaf w => g w r
  | .node c => ∑ w ∈ T.subtree c, g w r

/-- The sources of a vertex. -/
def sources (v : α) : Finset (Source α) := insert (.leaf v) ((T.children v).image .node)

variable {T}

theorem leaf_mem_sources {v w : α} : Source.leaf w ∈ sources T v ↔ w = v := by
  simp [sources]

theorem node_mem_sources {v c : α} : Source.node c ∈ sources T v ↔ c ∈ T.children v := by
  simp [sources]

theorem target_of_mem_sources {v : α} {x : Source α} (h : x ∈ sources T v) : x.target T = v := by
  cases x with
  | leaf w => exact leaf_mem_sources.mp h
  | node c => exact (T.mem_children.mp (node_mem_sources.mp h)).2

theorem card_sources (v : α) : (sources T v).card = (T.children v).card + 1 := by
  rw [sources, Finset.card_insert_of_notMem (by simp),
    Finset.card_image_of_injective _ fun a b h => by simpa using h]

/-- The parts of a vertex make up its subtree. -/
theorem sum_sources (g : α → ℕ → M) (r : ℕ) (v : α) :
    ∑ x ∈ sources T v, value T g r x = ∑ w ∈ T.subtree v, g w r := by
  rw [sources, Finset.sum_insert (by simp),
    Finset.sum_image (fun a _ b _ h => by simpa using h), T.sum_subtree]
  rfl

/-- What a source has produced is on its way, or listed, or passed on by its target. -/
structure Inv (T : RootedTree α) (g : α → ℕ → M) (s : State α M) : Prop where
  balance : ∀ v, ∀ x ∈ sources T v, s.inFlight x + (s.listed v).count x +
    (if v ∈ s.flushed then 1 else 0) = s.produced x
  root : T.root ∉ s.flushed
  listed : ∀ v, ∀ x ∈ s.listed v, x ∈ sources T v
  flying : ∀ p ∈ s.flying, p.1 ∈ sources T (p.1.target T) ∧
    p.2 = value T g s.updates.length p.1
  merged : ∀ v, s.listed v ≠ [] →
    s.merged v = ((s.listed v).map (value T g s.updates.length)).sum
  length_le : ∀ v, (s.listed v).length ≤ (T.children v).card
  updates : ∀ r a, s.updates[r]? = some a → a = ∑ w, g w r

variable {g : α → ℕ → M} {s : State α M}

/-- Before the first round. -/
theorem Inv.init (merged : α → M) : Inv T g ⟨0, fun _ => [], merged, ∅, ∅, []⟩ := by
  refine ⟨fun v x _ => ?_, by simp, by simp, by simp, by simp, by simp, by simp⟩
  cases x with
  | leaf w => simp [State.inFlight, State.produced]
  | node c => simp [State.inFlight, State.produced]

/-- The sum at a vertex is that of its list. -/
theorem Inv.add_eq (h : Inv T g s) {x : Source α} {a : M}
    (ha : a = value T g s.updates.length x) (v : α) :
    s.add v a = ((s.listed v ++ [x]).map (value T g s.updates.length)).sum := by
  rw [State.add, ha]
  split_ifs with hnil
  · simp [hnil]
  · simp [h.merged v hnil]

/-- A value that arrives is the only one of its source, and its target still waits. -/
theorem Inv.arriving (h : Inv T g s) {x : Source α} {a : M} {rest : Multiset (Source α × M)}
    (hflying : s.flying = (x, a) ::ₘ rest) :
    x ∈ sources T (x.target T) ∧ s.inFlight x = 1 ∧ (s.listed (x.target T)).count x = 0 ∧
      x.target T ∉ s.flushed ∧ s.produced x = 1 := by
  have hx : x ∈ sources T (x.target T) := (h.flying (x, a) (by simp [hflying])).1
  have hbal := h.balance _ x hx
  have hone : 1 ≤ s.inFlight x := by
    rw [State.inFlight, hflying, Multiset.map_cons, Multiset.count_cons_self]
    omega
  have hle := s.produced_le_one x
  refine ⟨hx, by omega, by omega, fun hmem => ?_, by omega⟩
  rw [if_pos hmem] at hbal
  omega

theorem Inv.nodup (h : Inv T g s) (v : α) : (s.listed v).Nodup := by
  refine List.nodup_iff_count_le_one.mpr fun x => ?_
  by_cases hx : x ∈ s.listed v
  · have := h.balance v x (h.listed v x hx)
    have := s.produced_le_one x
    omega
  · rw [List.count_eq_zero_of_not_mem hx]
    omega

/-- A vertex whose list is as long as the number of its sources has one part of each. -/
theorem perm_sources {v : α} {l : List (Source α)} (hnodup : l.Nodup)
    (hmem : ∀ x ∈ l, x ∈ sources T v) (hlen : l.length = (T.children v).card + 1) :
    l.toFinset = sources T v := by
  refine Finset.eq_of_subset_of_card_le (fun x hx => hmem x (List.mem_toFinset.mp hx)) ?_
  rw [List.toFinset_card_of_nodup hnodup, hlen, card_sources]

theorem sum_of_full {v : α} {l : List (Source α)} (hnodup : l.Nodup)
    (hmem : ∀ x ∈ l, x ∈ sources T v) (hlen : l.length = (T.children v).card + 1) (r : ℕ) :
    (l.map (value T g r)).sum = ∑ w ∈ T.subtree v, g w r := by
  rw [← sum_sources, ← perm_sources hnodup hmem hlen, List.sum_toFinset _ hnodup]

/-- The list of a vertex with the arriving value. -/
theorem Inv.extended (h : Inv T g s) {x : Source α} {a : M} {rest : Multiset (Source α × M)}
    (hflying : s.flying = (x, a) ::ₘ rest) :
    (s.listed (x.target T) ++ [x]).Nodup ∧
      ∀ y ∈ s.listed (x.target T) ++ [x], y ∈ sources T (x.target T) := by
  obtain ⟨hx, -, hcount, -⟩ := h.arriving hflying
  constructor
  · refine List.nodup_append.mpr ⟨h.nodup _, List.nodup_singleton x, ?_⟩
    rintro y hy z hz rfl
    obtain rfl := List.mem_singleton.mp hz
    exact List.count_eq_zero.mp hcount hy
  · intro y hy
    rcases List.mem_append.mp hy with hy | hy
    · exact h.listed _ y hy
    · obtain rfl := List.mem_singleton.mp hy
      exact hx

/-- Contributing a value keeps the invariant. -/
theorem Inv.push (h : Inv T g s) {w : α} (hw : w ∉ s.pushed) :
    Inv T g { s with
      flying := (.leaf w, g w s.updates.length) ::ₘ s.flying
      pushed := insert w s.pushed } := by
  refine ⟨fun v x hx => ?_, h.root, h.listed, fun p hp => ?_, h.merged, h.length_le, h.updates⟩
  · have hbal := h.balance v x hx
    by_cases hxw : x = .leaf w
    · subst hxw
      simp only [State.inFlight, State.produced, hw, if_false, Multiset.map_cons,
        Multiset.count_cons_self, Finset.mem_insert_self, if_true] at hbal ⊢
      omega
    · have hprod : State.produced { s with
          flying := (.leaf w, g w s.updates.length) ::ₘ s.flying
          pushed := insert w s.pushed } x = s.produced x :=
        State.produced_congr (fun u hu => Finset.mem_insert.trans (or_iff_right fun he =>
          hxw (hu.trans (congrArg Source.leaf he)))) fun _ _ => Iff.rfl
      rw [hprod, ← hbal]
      simp [State.inFlight, hxw]
  · rcases Multiset.mem_cons.mp hp with rfl | hp
    · exact ⟨leaf_mem_sources.mpr rfl, rfl⟩
    · exact h.flying p hp

/-- An arrival that leaves its target waiting keeps the invariant. -/
theorem Inv.collect (h : Inv T g s) {x : Source α} {a : M} {rest : Multiset (Source α × M)}
    (hflying : s.flying = (x, a) ::ₘ rest)
    (hlen : (s.listed (x.target T)).length ≠ (T.children (x.target T)).card) :
    Inv T g { s with
      flying := rest
      listed := Function.update s.listed (x.target T) (s.listed (x.target T) ++ [x])
      merged := Function.update s.merged (x.target T) (s.add (x.target T) a) } := by
  obtain ⟨hx, -⟩ := h.arriving hflying
  have ha := (h.flying (x, a) (by simp [hflying])).2
  refine ⟨fun v y hy => ?_, h.root, fun v y hy => ?_, fun p hp => ?_, fun v hv => ?_, fun v => ?_,
    h.updates⟩
  · have hbal := h.balance v y hy
    have hcount : s.inFlight y = (rest.map Prod.fst).count y + if y = x then 1 else 0 := by
      rw [State.inFlight, hflying, Multiset.map_cons, Multiset.count_cons]
    have hprod : State.produced { s with
        flying := rest
        listed := Function.update s.listed (x.target T) (s.listed (x.target T) ++ [x])
        merged := Function.update s.merged (x.target T) (s.add (x.target T) a) } y =
          s.produced y := by
      cases y <;> rfl
    rw [hprod, ← hbal, hcount]
    simp only [State.inFlight]
    by_cases hyx : y = x
    · subst hyx
      obtain rfl := target_of_mem_sources hy
      simp
      omega
    · by_cases hv : v = x.target T
      · subst hv
        simp [hyx, Ne.symm hyx]
      · simp [hyx, hv]
  · dsimp only at hy
    by_cases hv : v = x.target T
    · subst hv
      rw [Function.update_self] at hy
      exact (h.extended hflying).2 y hy
    · rw [Function.update_of_ne hv] at hy
      exact h.listed v y hy
  · exact h.flying p (hflying ▸ Multiset.mem_cons_of_mem hp)
  · dsimp only at hv ⊢
    by_cases hvx : v = x.target T
    · subst hvx
      rw [Function.update_self, Function.update_self]
      exact h.add_eq ha _
    · rw [Function.update_of_ne hvx] at hv ⊢
      rw [Function.update_of_ne hvx]
      exact h.merged v hv
  · dsimp only
    have := h.length_le v
    by_cases hv : v = x.target T
    · subst hv
      simp only [Function.update_self, List.length_append, List.length_singleton]
      omega
    · rwa [Function.update_of_ne hv]

section Full
variable {x : Source α} {a : M} {rest : Multiset (Source α × M)}

/-- When the last part of a vertex arrives, no part is left on its way and each has been
produced. -/
theorem Inv.full (h : Inv T g s) (hflying : s.flying = (x, a) ::ₘ rest)
    (hlen : (s.listed (x.target T)).length = (T.children (x.target T)).card) {y : Source α}
    (hy : y ∈ sources T (x.target T)) :
    (rest.map Prod.fst).count y = 0 ∧ s.produced y = 1 := by
  obtain ⟨hnodup, hmem⟩ := h.extended hflying
  obtain ⟨-, hone, hzero, hwaits, hprod⟩ := h.arriving hflying
  have hbal := h.balance _ y hy
  have hcount : s.inFlight y = (rest.map Prod.fst).count y + if y = x then 1 else 0 := by
    rw [State.inFlight, hflying, Multiset.map_cons, Multiset.count_cons]
  have hset := perm_sources hnodup hmem (by simp [hlen])
  have hin : y ∈ s.listed (x.target T) ++ [x] := by
    rw [← List.mem_toFinset, hset]
    exact hy
  have hle := s.produced_le_one y
  rw [if_neg hwaits] at hbal
  rcases List.mem_append.mp hin with hin | hin
  · have hpos : 0 < (s.listed (x.target T)).count y := List.count_pos_iff.mpr hin
    omega
  · obtain rfl := List.mem_singleton.mp hin
    rw [if_pos rfl] at hcount
    omega

/-- The sum of a complete list is that of the subtree. -/
theorem Inv.add_full (h : Inv T g s) (hflying : s.flying = (x, a) ::ₘ rest)
    (hlen : (s.listed (x.target T)).length = (T.children (x.target T)).card) :
    s.add (x.target T) a = ∑ w ∈ T.subtree (x.target T), g w s.updates.length := by
  obtain ⟨hnodup, hmem⟩ := h.extended hflying
  rw [h.add_eq (h.flying (x, a) (by simp [hflying])).2,
    sum_of_full hnodup hmem (by simp [hlen])]

/-- A vertex that passes its sum on keeps the invariant. -/
theorem Inv.forward (h : Inv T g s) (hflying : s.flying = (x, a) ::ₘ rest)
    (hlen : (s.listed (x.target T)).length = (T.children (x.target T)).card)
    (hroot : x.target T ≠ T.root) :
    Inv T g { s with
      flying := (.node (x.target T), s.add (x.target T) a) ::ₘ rest
      listed := Function.update s.listed (x.target T) []
      merged := Function.update s.merged (x.target T) (s.add (x.target T) a)
      flushed := insert (x.target T) s.flushed } := by
  obtain ⟨-, -, -, hwaits, -⟩ := h.arriving hflying
  have hne := T.parent_ne hroot
  -- Only the mark of the vertex itself changes.
  have hother : ∀ y ≠ .node (x.target T), State.produced { s with
      flying := (.node (x.target T), s.add (x.target T) a) ::ₘ rest
      listed := Function.update s.listed (x.target T) []
      merged := Function.update s.merged (x.target T) (s.add (x.target T) a)
      flushed := insert (x.target T) s.flushed } y = s.produced y := fun y hyn =>
    State.produced_congr (fun _ _ => Iff.rfl) fun c hc => Finset.mem_insert.trans
      (or_iff_right fun he => hyn (hc.trans (congrArg Source.node he)))
  refine ⟨fun v y hy => ?_, ?_, fun v y hy => ?_, fun p hp => ?_, fun v hv => ?_, fun v => ?_,
    h.updates⟩
  · have hbal := h.balance v y hy
    by_cases hv : v = x.target T
    · subst hv
      obtain ⟨hcount, hprod⟩ := h.full hflying hlen hy
      have hyn : y ≠ .node (x.target T) := by
        rintro rfl
        exact hne (T.mem_children.mp (node_mem_sources.mp hy)).2
      rw [hother y hyn, hprod]
      simp [State.inFlight, hyn, hcount]
    · have hcount : s.inFlight y = (rest.map Prod.fst).count y := by
        have hyx : y ≠ x := by
          rintro rfl
          exact hv (target_of_mem_sources hy).symm
        rw [State.inFlight, hflying, Multiset.map_cons, Multiset.count_cons_of_ne hyx]
      by_cases hyn : y = .node (x.target T)
      · subst hyn
        have hprod : s.produced (.node (x.target T)) = 0 := by simp [State.produced, hwaits]
        rw [hprod, hcount] at hbal
        simp only [State.inFlight, State.produced, Multiset.map_cons, Multiset.count_cons_self,
          Function.update_of_ne hv, Finset.mem_insert, hv, false_or, true_or, if_true]
        omega
      · rw [hother y hyn, ← hbal, hcount]
        simp [State.inFlight, hyn, hv]
  · simp [h.root, hroot.symm]
  · dsimp only at hy
    by_cases hv : v = x.target T
    · subst hv
      simp at hy
    · rw [Function.update_of_ne hv] at hy
      exact h.listed v y hy
  · rcases Multiset.mem_cons.mp hp with rfl | hp
    · exact ⟨node_mem_sources.mpr (T.mem_children.mpr ⟨hroot, rfl⟩), h.add_full hflying hlen⟩
    · exact h.flying p (hflying ▸ Multiset.mem_cons_of_mem hp)
  · dsimp only at hv ⊢
    by_cases hvx : v = x.target T
    · subst hvx
      simp at hv
    · rw [Function.update_of_ne hvx] at hv ⊢
      rw [Function.update_of_ne hvx]
      exact h.merged v hv
  · dsimp only
    by_cases hv : v = x.target T
    · subst hv
      simp
    · rw [Function.update_of_ne hv]
      exact h.length_le v

/-- When the last part of the root arrives, every other vertex has passed its sum on. -/
theorem Inv.flushed (h : Inv T g s) (hflying : s.flying = (x, a) ::ₘ rest)
    (hlen : (s.listed (x.target T)).length = (T.children (x.target T)).card)
    (hroot : x.target T = T.root) {v : α} (hv : v ≠ T.root) : v ∈ s.flushed := by
  suffices hdepth : ∀ d v, T.depth v = d → v ≠ T.root → v ∈ s.flushed from hdepth _ v rfl hv
  intro d
  induction d with
  | zero => exact fun v hd hv => absurd (T.depth_eq_zero.mp hd) hv
  | succ d ih =>
    intro v hd hv
    have hnode : Source.node v ∈ sources T (T.parent v) :=
      node_mem_sources.mpr (T.mem_children.mpr ⟨hv, rfl⟩)
    have hprod : s.produced (.node v) = 1 := by
      by_cases hp : T.parent v = T.root
      · exact (h.full hflying hlen (hroot.trans hp.symm ▸ hnode)).2
      · have hdepth := T.depth_parent hv
        have hbal := h.balance _ _ hnode
        rw [if_pos (ih (T.parent v) (by omega) hp)] at hbal
        have := s.produced_le_one (.node v)
        omega
    by_contra hnot
    simp [State.produced, hnot] at hprod

/-- When the last part of the root arrives, everyone is through with the round. -/
theorem Inv.complete (h : Inv T g s) (hflying : s.flying = (x, a) ::ₘ rest)
    (hlen : (s.listed (x.target T)).length = (T.children (x.target T)).card)
    (hroot : x.target T = T.root) :
    rest = 0 ∧ (∀ v, v ≠ T.root → s.listed v = []) ∧ ∀ w, w ∈ s.pushed := by
  have hothers : ∀ v, v ≠ T.root → ∀ y ∈ sources T v,
      s.inFlight y = 0 ∧ (s.listed v).count y = 0 ∧ s.produced y = 1 := by
    intro v hv y hy
    have hbal := h.balance v y hy
    rw [if_pos (h.flushed hflying hlen hroot hv)] at hbal
    have := s.produced_le_one y
    omega
  have hcount : ∀ y, (rest.map Prod.fst).count y ≤ s.inFlight y := by
    intro y
    rw [State.inFlight, hflying, Multiset.map_cons]
    exact Multiset.count_le_count_cons y x _
  refine ⟨?_, fun v hv => ?_, fun w => ?_⟩
  · refine Multiset.eq_zero_of_forall_notMem fun p hp => ?_
    have hmem : p.1 ∈ rest.map Prod.fst := Multiset.mem_map_of_mem _ hp
    have hpos := Multiset.count_pos.mpr hmem
    have hsource := (h.flying p (hflying ▸ Multiset.mem_cons_of_mem hp)).1
    by_cases hv : p.1.target T = T.root
    · have := (h.full hflying hlen (hroot.trans hv.symm ▸ hsource)).1
      omega
    · have := (hothers _ hv p.1 hsource).1
      have := hcount p.1
      omega
  · refine List.eq_nil_iff_forall_not_mem.mpr fun y hy => ?_
    exact List.count_eq_zero.mp (hothers v hv y (h.listed v y hy)).2.1 hy
  · have hprod : s.produced (.leaf w) = 1 := by
      by_cases hw : w = T.root
      · exact (h.full hflying hlen (leaf_mem_sources.mpr (hw.trans hroot.symm))).2
      · exact (hothers w hw _ (leaf_mem_sources.mpr rfl)).2.2
    by_contra hnot
    simp [State.produced, hnot] at hprod

/-- The root records the sum of all, and a new round begins. -/
theorem Inv.finish (h : Inv T g s) (hflying : s.flying = (x, a) ::ₘ rest)
    (hlen : (s.listed (x.target T)).length = (T.children (x.target T)).card)
    (hroot : x.target T = T.root) :
    Inv T g
      { flying := rest
        listed := Function.update s.listed (x.target T) []
        merged := Function.update s.merged (x.target T) (s.add (x.target T) a)
        pushed := ∅
        flushed := ∅
        updates := s.updates ++ [s.add (x.target T) a] } := by
  obtain ⟨rfl, hempty, -⟩ := h.complete hflying hlen hroot
  have hlisted : Function.update s.listed (x.target T) [] = fun _ => [] := by
    funext v
    by_cases hv : v = x.target T
    · simp [hv]
    · rw [Function.update_of_ne hv, hempty v fun he => hv (he.trans hroot.symm)]
  rw [hlisted]
  refine ⟨fun v y _ => ?_, by simp, by simp, by simp, by simp, by simp, fun r b hb => ?_⟩
  · cases y with
    | leaf w => simp [State.inFlight, State.produced]
    | node c => simp [State.inFlight, State.produced]
  · rcases Nat.lt_or_ge r s.updates.length with hr | hr
    · rw [List.getElem?_append_left hr] at hb
      exact h.updates r b hb
    · rw [List.getElem?_append_right hr, List.getElem?_singleton] at hb
      split_ifs at hb with h0
      obtain rfl := Option.some.inj hb
      obtain rfl : r = s.updates.length := by omega
      rw [h.add_full hflying hlen, hroot, T.subtree_root]

end Full

/-- Every step keeps the invariant. -/
theorem Inv.step {s' : State α M} (h : Inv T g s) (hstep : Step T g s s') : Inv T g s' := by
  cases hstep with
  | push hw => exact h.push hw
  | @arrive x a rest hflying =>
    rw [State.arrive]
    split_ifs with hlen hroot
    · exact h.finish hflying hlen hroot
    · exact h.forward hflying hlen hroot
    · exact h.collect hflying hlen

/-- A vertex that has taken part: it has parts, or has passed its sum on, or a round is over. -/
def State.Touched (s : State α M) (v : α) : Prop :=
  s.listed v ≠ [] ∨ v ∈ s.flushed ∨ s.updates ≠ []

/-- Only the target of an arrival is touched by it. -/
theorem Inv.touched_of_arrive (h : Inv T g s) {x : Source α} {a : M}
    {rest : Multiset (Source α × M)} (hflying : s.flying = (x, a) ::ₘ rest) {v : α}
    (hv : (s.arrive T x a rest).Touched v) (hne : v ≠ x.target T) : s.Touched v := by
  rw [State.arrive] at hv
  split_ifs at hv with hlen hroot
  · exact .inr (.inl (h.flushed hflying hlen hroot fun he => hne (he.trans hroot.symm)))
  · rcases hv with hv | hv | hv
    · dsimp only at hv
      rw [Function.update_of_ne hne] at hv
      exact .inl hv
    · rcases Finset.mem_insert.mp hv with hv | hv
      · exact absurd hv hne
      · exact .inr (.inl hv)
    · exact .inr (.inr hv)
  · rcases hv with hv | hv
    · dsimp only at hv
      rw [Function.update_of_ne hne] at hv
      exact .inl hv
    · exact .inr hv

/-- Between two rounds nothing is under way. -/
theorem Inv.idle (h : Inv T g s) (hpushed : s.pushed = ∅) :
    s.flying = 0 ∧ ∀ v, s.listed v = [] := by
  have hflushed : ∀ v, v ∉ s.flushed := by
    intro v hv
    have hbal := h.balance v (.leaf v) (leaf_mem_sources.mpr rfl)
    simp [State.produced, hpushed, hv] at hbal
  have hnone : ∀ v, ∀ x ∈ sources T v, s.inFlight x = 0 ∧ (s.listed v).count x = 0 := by
    intro v x hx
    have hbal := h.balance v x hx
    have hprod : s.produced x = 0 := by
      cases x with
      | leaf w => simp [State.produced, hpushed]
      | node c => simp [State.produced, hflushed c]
    omega
  constructor
  · refine Multiset.eq_zero_of_forall_notMem fun p hp => ?_
    have hzero := (hnone _ p.1 (h.flying p hp).1).1
    exact Multiset.count_eq_zero.mp hzero (Multiset.mem_map_of_mem _ hp)
  · refine fun v => List.eq_nil_iff_forall_not_mem.mpr fun x hx => ?_
    exact List.count_eq_zero.mp (hnone v x (h.listed v x hx)).2 hx

/-- A round in which everyone has contributed does not get stuck. -/
theorem Inv.not_stuck (h : Inv T g s) (hpushed : ∀ w, w ∈ s.pushed) : s.flying ≠ 0 := by
  intro hflying
  have hall : ∀ v, v ∈ s.flushed := by
    refine T.induction_children fun v ih => ?_
    by_contra hv
    have hsub : sources T v ⊆ (s.listed v).toFinset := by
      intro x hx
      have hbal := h.balance v x hx
      have hprod : s.produced x = 1 := by
        cases x with
        | leaf w => simp [State.produced, hpushed w]
        | node c => simp [State.produced, ih c (node_mem_sources.mp hx)]
      rw [if_neg hv, hprod, State.inFlight, hflying] at hbal
      simp only [Multiset.map_zero, Multiset.count_zero] at hbal
      exact List.mem_toFinset.mpr (List.count_pos_iff.mp (by omega))
    have hcard := Finset.card_le_card hsub
    rw [card_sources] at hcard
    have := (s.listed v).toFinset_card_le
    have := h.length_le v
    omega
  exact h.root (hall T.root)

end Machine

end NetStorm.Convergecast

import NetStorm.KernighanLin
import NetStorm.TreeLevel
import NetStorm.Library.OptionTable

/-!
# The shape of the generated trees

Both generators store a binary tree level by level, where the first child of a node is its own
GPU. What `ReduceInner` reads as the nodes of a level are then the pairs that made it.
-/
namespace NetStorm
namespace CommTree

/-- A tree that is grown by a level at a time, with its pairs, its last level, and the topology
and scan that store it. -/
inductive Tree (root : ℕ) : List (List (ℕ × ℕ)) → List ℕ → List ℕ → List ℕ → Prop
  | root : Tree root [] [root] [root] [0, 1]
  | grow {levels : List (List (ℕ × ℕ))} {level topology scan : List ℕ}
      (h : Tree root levels level topology scan) (ps : List (ℕ × ℕ))
      (hps : ps.map Prod.fst = level) :
      Tree root (levels ++ [ps]) (expand ps) (topology ++ expand ps)
        (scan ++ [(topology ++ expand ps).length])

section Levels
variable {levels : List (List (ℕ × ℕ))} {level topology scan : List ℕ} {l : ℕ}

theorem chained_append {ps : List (ℕ × ℕ)} :
    Chained level (levels ++ [ps]) ↔
      Chained level levels ∧ ps.map Prod.fst = lastLevel level levels := by
  induction levels generalizing level with
  | nil => simp [Chained, lastLevel]
  | cons qs levels ih =>
    simp only [List.cons_append, Chained, ih, lastLevel, List.foldl_cons, and_assoc]

theorem Chained.take (h : Chained level levels) (k : ℕ) : Chained level (levels.take k) := by
  induction levels generalizing level k with
  | nil => simp [Chained]
  | cons qs levels ih =>
    cases k with
    | zero => exact True.intro
    | succ k => exact ⟨h.1, ih h.2 k⟩

theorem Chained.map_fst (h : Chained level levels) (hl : l < levels.length) :
    levels[l].map Prod.fst = lastLevel level (levels.take l) := by
  have htake := h.take (l + 1)
  rw [← List.take_append_getElem hl] at htake
  exact (chained_append.mp htake).2

/-- Every GPU of a level is there in the last one. -/
theorem Chained.mem_lastLevel (h : Chained level levels) {g : ℕ} (hg : g ∈ level) :
    g ∈ lastLevel level levels := by
  induction levels generalizing level with
  | nil => exact hg
  | cons ps levels ih =>
    refine ih h.2 (mem_expand.mpr ?_)
    rw [← h.1] at hg
    obtain ⟨p, hp, rfl⟩ := List.mem_map.mp hg
    exact ⟨p, hp, .inl rfl⟩

theorem Chained.expand_subset (h : Chained level levels) {ps : List (ℕ × ℕ)} (hps : ps ∈ levels)
    {g : ℕ} (hg : g ∈ expand ps) : g ∈ lastLevel level levels := by
  induction levels generalizing level with
  | nil => simp at hps
  | cons qs levels ih =>
    obtain rfl | hps := List.mem_cons.mp hps
    · exact Chained.mem_lastLevel h.2 hg
    · exact ih h.2 hps

theorem levelIds_append {ids : List ℕ} (h : levelIds topology scan l = some ids)
    (more : List ℕ) (x : ℕ) : levelIds (topology ++ more) (scan ++ [x]) l = some ids := by
  simp only [levelIds, Option.bind_eq_bind, Option.bind_eq_some_iff] at h
  obtain ⟨start, hstart, stop, hstop, h⟩ := h
  split_ifs at h with hlen
  have happend : ∀ {i y : ℕ}, scan[i]? = some y → (scan ++ [x])[i]? = some y := fun hi => by
    rw [List.getElem?_append_left (List.getElem?_eq_some_iff.mp hi).1, hi]
  have hslice : ((topology ++ more).drop start).take (stop - start) =
      (topology.drop start).take (stop - start) := by
    rw [List.drop_append, List.take_append_of_le_length]
    rw [List.length_drop]
    omega
  simp only [levelIds, happend hstart, happend hstop, Option.bind_eq_bind, Option.bind_some]
  rw [if_neg (by rw [List.length_append]; omega), hslice, Option.some.inj h]

/-- What a tree is read as. -/
structure Stored (root : ℕ) (levels : List (List (ℕ × ℕ))) (topology scan : List ℕ) : Prop where
  length : scan.length = levels.length + 2
  stop : scan[levels.length + 1]? = some topology.length
  chained : Chained [root] levels
  head : topology[0]? = some root
  ids : ∀ l ≤ levels.length,
    levelIds topology scan l = some (lastLevel [root] (levels.take l))

theorem Tree.stored {root : ℕ} (h : Tree root levels level topology scan) :
    level = lastLevel [root] levels ∧ Stored root levels topology scan := by
  induction h with
  | root =>
    refine ⟨rfl, rfl, rfl, True.intro, rfl, fun l hl => ?_⟩
    obtain rfl : l = 0 := by simpa using hl
    rfl
  | @grow levels level topology scan h ps hps ih =>
    obtain ⟨rfl, ih⟩ := ih
    have hlast : lastLevel [root] (levels ++ [ps]) = expand ps := by
      simp [lastLevel, List.foldl_append]
    refine ⟨hlast.symm, by simp [ih.length], ?_, chained_append.mpr ⟨ih.chained, hps⟩, ?_,
      fun l hl => ?_⟩
    · rw [List.getElem?_append_right (by simp [ih.length])]
      simp [ih.length]
    · rw [List.getElem?_append_left (List.getElem?_eq_some_iff.mp ih.head).1, ih.head]
    · rw [List.length_append, List.length_singleton] at hl
      obtain hl | rfl := Nat.lt_or_eq_of_le hl
      · rw [List.take_append_of_le_length (by omega)]
        exact levelIds_append (ih.ids l (by omega)) _ _
      · -- The new level lies behind the old topology.
        have hstart : (scan ++ [(topology ++ expand ps).length])[levels.length + 1]? =
            some topology.length := by
          rw [List.getElem?_append_left (by rw [ih.length]; omega), ih.stop]
        have hstop : (scan ++ [(topology ++ expand ps).length])[levels.length + 1 + 1]? =
            some (topology ++ expand ps).length := by
          rw [List.getElem?_append_right (by rw [ih.length]), ih.length]
          simp
        have htake : (levels ++ [ps]).take (levels.length + 1) = levels ++ [ps] :=
          List.take_of_length_le (by simp)
        simp only [levelIds, hstart, hstop, Option.bind_eq_bind, Option.bind_some, lt_irrefl,
          if_false, htake, hlast]
        simp

end Levels

section Backtrack
open GpuTopology
variable {result : List ℕ} {depth k : ℕ}

theorem steps_two_pow (hk : k ≤ depth) :
    steps 0 (2 ^ depth) (2 ^ (depth - k)) = (List.range (2 ^ k)).map fun j => 2 ^ (depth - k) * j := by
  have hpos : 0 < 2 ^ (depth - k) := Nat.two_pow_pos _
  have hsplit : 2 ^ depth = 2 ^ k * 2 ^ (depth - k) := by
    rw [← pow_add, Nat.add_sub_cancel' hk]
  have hcount : (2 ^ depth - 0 + 2 ^ (depth - k) - 1) / 2 ^ (depth - k) = 2 ^ k := by
    rw [Nat.sub_zero, hsplit, Nat.add_sub_assoc hpos, Nat.mul_comm,
      Nat.mul_add_div hpos, Nat.div_eq_of_lt (by omega), add_zero]
  simp only [steps, hcount, zero_add]

theorem map_range_two_mul {α : Type*} (f : ℕ → α) (m : ℕ) :
    (List.range (2 * m)).map f = (List.range m).flatMap fun j => [f (2 * j), f (2 * j + 1)] := by
  induction m with
  | zero => rfl
  | succ m ih =>
    rw [show 2 * (m + 1) = 2 * m + 1 + 1 by ring, List.range_succ, List.range_succ, List.range_succ,
      List.map_append, List.map_append, ih, List.flatMap_append]
    simp

/-- The pairs of a level of the tree with these leaves. -/
def leafPairs (result : List ℕ) (depth k : ℕ) : List (ℕ × ℕ) :=
  (List.range (2 ^ k)).map fun j =>
    (result.getD (2 ^ (depth - k) * j) 0, result.getD (2 ^ (depth - (k + 1)) * (2 * j + 1)) 0)

theorem valuesAt_eq_expand (hk : k < depth) (hlen : result.length = 2 ^ depth) :
    valuesAt result (steps 0 result.length (2 ^ (depth - (k + 1)))) =
      expand (leafPairs result depth k) := by
  have hstride : 2 ^ (depth - k) = 2 ^ (depth - (k + 1)) * 2 := by
    rw [← pow_succ]
    congr 1
    omega
  rw [valuesAt, hlen, steps_two_pow hk, List.map_map, Nat.pow_succ, Nat.mul_comm (2 ^ k) 2,
    map_range_two_mul, expand, leafPairs, List.flatMap_map]
  simp [hstride, Nat.mul_assoc]

theorem map_fst_leafPairs (hk : k < depth) (hlen : result.length = 2 ^ depth) :
    (leafPairs result depth k).map Prod.fst =
      valuesAt result (steps 0 result.length (2 ^ (depth - k))) := by
  rw [valuesAt, hlen, steps_two_pow hk.le, leafPairs, List.map_map, List.map_map]
  rfl

theorem valuesAt_self (hlen : result.length = 2 ^ depth) :
    valuesAt result (steps 0 result.length (2 ^ (depth - depth))) = result := by
  rw [valuesAt, hlen, steps_two_pow le_rfl, List.map_map]
  refine List.ext_getElem (by simp [hlen]) fun i _ hi => ?_
  simp [List.getElem?_eq_getElem hi]

theorem foldl_formLevel_tree (hlen : result.length = 2 ^ depth) (hk : k ≤ depth) :
    ∃ root levels, Tree root levels (valuesAt result (steps 0 result.length (2 ^ (depth - k))))
      ((List.range (k + 1)).foldl (formLevel result depth) ([], [0])).1
      ((List.range (k + 1)).foldl (formLevel result depth) ([], [0])).2 := by
  induction k with
  | zero =>
    refine ⟨result.getD 0 0, [], ?_⟩
    have hnodes : valuesAt result (steps 0 result.length (2 ^ (depth - 0))) =
        [result.getD 0 0] := by
      rw [valuesAt, hlen, steps_two_pow (Nat.zero_le _)]
      simp
    rw [List.range_succ, List.range_zero, List.nil_append, List.foldl_cons, List.foldl_nil,
      formLevel, hnodes]
    exact Tree.root
  | succ k ih =>
    obtain ⟨root, levels, h⟩ := ih (by omega)
    refine ⟨root, levels ++ [leafPairs result depth k], ?_⟩
    rw [List.range_succ, List.foldl_append, List.foldl_cons, List.foldl_nil, formLevel,
      valuesAt_eq_expand hk hlen]
    exact h.grow (leafPairs result depth k) (map_fst_leafPairs hk hlen)

/-- `FormTopology` stores a tree. -/
theorem formTopology_tree (hlen : result.length = 2 ^ depth) :
    ∃ root levels level, Tree root levels level (formTopology result depth).1
      (formTopology result depth).2 := by
  obtain ⟨root, levels, h⟩ := foldl_formLevel_tree hlen le_rfl
  rw [List.range_succ, List.foldl_append, List.foldl_cons, List.foldl_nil, formLevel,
    valuesAt_self hlen] at h
  exact ⟨root, levels, result, h⟩

theorem postprocessLevel_length (result : List ℕ) (stride : ℕ) :
    (postprocessLevel result stride).length = result.length := by
  apply List.foldlRecOn (motive := fun c : List ℕ × (ℕ → ℤ) => c.1.length = result.length)
  · rfl
  · intro c hc i _
    dsimp only
    split_ifs
    · exact (List.length_set ..).trans hc
    · exact hc

theorem postprocess_length (result : List ℕ) (depth : ℕ) :
    (postprocess result depth).length = result.length := by
  apply List.foldlRecOn (motive := fun above : List ℕ => above.length = result.length)
  · rfl
  · exact fun above habove level _ => (postprocessLevel_length above _).trans habove

theorem unwind_length (n : ℕ) (state : List (Option ℕ)) (row pos : ℕ) (stack : List ℕ) :
    (unwind n state row pos stack).1.length = state.length := by
  induction stack generalizing state row pos with
  | nil => rfl
  | cons top stack ih =>
    rw [unwind]
    split_ifs
    · rw [ih, List.length_set]
    · rfl

theorem tryPosition_spec {T : Type} [IntCast T] [DecidableEq T] (W : ℕ → ℕ → T) (n depth : ℕ)
    (s : SearchState T) :
    (tryPosition W n depth s).state.length = s.state.length ∧
      (tryPosition W n depth s).best = s.best := by
  simp only [tryPosition]
  split_ifs <;> simp

variable {T : Type} [Add T] [Sub T] [IntCast T] [LT T] [DecidableLT T]

/-- The tree that the search keeps has as many leaves as the state. -/
def KeptFits (s : SearchState T) : Prop :=
  ∀ best, s.best = some best → best.2.length = s.state.length

theorem keepBest_fits {W : ℕ → ℕ → T} {depth : ℕ} {s : SearchState T} (hs : KeptFits s)
    {best : Option (T × List ℕ)} (h : keepBest W depth s = some best) :
    ∀ b, best = some b → b.2.length = s.state.length := by
  simp only [keepBest, Option.bind_eq_bind, Option.bind_eq_some_iff, Option.some.injEq] at h
  obtain ⟨result, hresult, rfl⟩ := h
  intro b hb
  split_ifs at hb
  · rw [← Option.some.inj hb, postprocess_length]
    exact (OptionTable.mapM_eq_some_iff.mp hresult).1
  · exact hs b hb

variable [DecidableEq T]

theorem iterativeBacktrack_length {W : ℕ → ℕ → T} {n depth fuel : ℕ} {optimal : Bool}
    {s : SearchState T} {best : T × List ℕ} (hs : KeptFits s)
    (h : iterativeBacktrack W n depth optimal fuel s = some (some best)) :
    best.2.length = s.state.length := by
  induction fuel generalizing s with
  | zero => simp [iterativeBacktrack] at h
  | succ fuel ih =>
    rw [iterativeBacktrack] at h
    have hunwind := unwind_length n s.state s.row s.pos s.stack
    generalize unwind n s.state s.row s.pos s.stack = u at h hunwind
    obtain ⟨state, row, pos, stack⟩ := u
    dsimp only at h hunwind
    by_cases hstack : stack = []
    · rw [if_pos hstack] at h
      exact hs best (Option.some.inj h)
    by_cases hrow : state.length ≤ row
    · rw [if_neg hstack, if_pos hrow] at h
      simp at h
    rw [if_neg hstack, if_neg hrow] at h
    obtain ⟨hstate, hbest⟩ := tryPosition_spec W n depth
      { s with state := state, row := row, pos := pos, stack := stack }
    set s' := tryPosition W n depth { s with state := state, row := row, pos := pos, stack := stack }
    have hs' : KeptFits s' := fun b hb => by
      rw [hstate, hunwind]
      exact hs b (hbest ▸ hb)
    rw [← hunwind, ← hstate]
    by_cases hfull : s'.row = s'.state.length
    · simp only [if_pos hfull, Option.bind_eq_bind, Option.bind_eq_some_iff] at h
      obtain ⟨kept, hkept, h⟩ := h
      have hfits := keepBest_fits hs' hkept
      split_ifs at h
      · cases htop : s'.stack with
        | nil => simp [htop] at h
        | cons top rest =>
          simp only [htop] at h
          have hnext : KeptFits ⟨s'.state.set rest.length none, rest, s'.row - 1, top + 1, kept⟩ :=
            fun b hb => by rw [hfits b hb, List.length_set]
          rw [ih hnext h, List.length_set]
      · exact hfits best (Option.some.inj h)
    · rw [if_neg hfull] at h
      exact ih hs' h

theorem backtrackGenerateBinaryTree_tree {W : ℕ → ℕ → T} {fuel n root : ℕ} {topology scan : List ℕ}
    (h : backtrackGenerateBinaryTree fuel W n root = some (topology, scan)) :
    ∃ root levels level, Tree root levels level topology scan := by
  simp only [backtrackGenerateBinaryTree, Option.bind_eq_bind, Option.bind_eq_some_iff,
    Option.some.injEq] at h
  obtain ⟨best, hbest, ⟨weight, result⟩, rfl, h⟩ := h
  have hlen : result.length = 2 ^ computeDepth n := by
    have := iterativeBacktrack_length (fun b hb => by simp at hb) hbest
    simpa using this
  obtain ⟨root, levels, level, htree⟩ := formTopology_tree hlen
  rw [h] at htree
  exact ⟨root, levels, level, htree⟩

end Backtrack

section Partition
open GpuTopology
variable {T σ : Type} [Add T] [Sub T] [Mul T] [IntCast T] [LT T] [DecidableLT T]
  {shuffle : σ → List ℕ → List ℕ × σ} {traverse : List ℕ → List ℕ} {W : ℕ → ℕ → T}

theorem splitCluster_spec {histogram : ℕ → ℕ} {c c' : Partition σ × Bool} {color : ℕ}
    (h : splitCluster shuffle W histogram c color = some c') :
    c'.1.clusterPairs ≠ [] ∧ c.1.numPartitions ≤ c'.1.numPartitions := by
  simp only [splitCluster] at h
  split_ifs at h
  · rw [← Option.some.inj h]
    simp
  · simp only [Option.bind_eq_bind, Option.bind_eq_some_iff, Option.some.injEq] at h
    obtain ⟨sides, -, rfl⟩ := h
    simp

/-- Every partition gives a pair of clusters. -/
theorem kernighanLin_spec {s s' : Partition σ} {stop : Bool} (hs : 0 < s.numPartitions)
    (h : kernighanLin shuffle W s = some (s', stop)) :
    s'.clusterPairs ≠ [] ∧ 0 < s'.numPartitions := by
  have hrun := foldlM_remaining (r := []) (P := fun todo (c : Partition σ × Bool) =>
    (todo = [] → c.1.clusterPairs ≠ []) ∧ s.numPartitions ≤ c.1.numPartitions)
    (fun color todo c c' hc hstep => by
      obtain ⟨hpairs, hle⟩ := splitCluster_spec hstep
      exact ⟨fun _ => hpairs, hc.2.trans hle⟩)
    ⟨fun hnil => absurd hnil (by simp; omega), le_rfl⟩ h
  exact ⟨hrun.1 rfl, hs.trans_le hrun.2⟩

/-- The state of the loop holds a tree, and its scan lacks the end of the last level. -/
def GrownTree (root : ℕ) (s : TreeState σ) : Prop :=
  0 < s.partition.numPartitions ∧
    ∃ levels level, Tree root levels level s.topo (s.scan ++ [s.topo.length])

theorem GrownTree.init (n root : ℕ) (gen : σ) : GrownTree root (TreeState.init n root gen) :=
  ⟨Nat.one_pos, [], [root], Tree.root⟩

theorem steps_one (start stop : ℕ) : steps start stop 1 = List.range' start (stop - start) := by
  simp [steps, List.range'_eq_map_range]

/-- A new level goes on with the nodes of the last one. -/
theorem appendLevel_tree {root : ℕ} {levels : List (List (ℕ × ℕ))} {level topo scan topo' : List ℕ}
    {newTopo : List (ℕ × ℕ)} (h : Tree root levels level topo scan)
    (hs : appendLevel newTopo topo scan = some topo') :
    ∃ levels' level', Tree root levels' level' topo' (scan ++ [topo'.length]) := by
  obtain ⟨hlevel, hstored⟩ := h.stored
  have hids := hstored.ids levels.length le_rfl
  rw [List.take_length, ← hlevel] at hids
  simp only [levelIds, Option.bind_eq_bind, Option.bind_eq_some_iff] at hids
  obtain ⟨start, hstart, stop, hstop, hids⟩ := hids
  split_ifs at hids with hle
  simp only [appendLevel, hstored.length, Nat.add_sub_cancel, hstart, hstop, Option.bind_eq_bind,
    Option.bind_some, Option.bind_eq_some_iff, Option.some.injEq,
    show levels.length + 2 - 1 = levels.length + 1 from rfl] at hs
  obtain ⟨ps, hps, rfl⟩ := hs
  refine ⟨_, _, h.grow ps ?_⟩
  obtain ⟨hlen, hget⟩ := OptionTable.mapM_eq_some_iff.mp hps
  rw [steps_one, List.length_range'] at hlen hget
  rw [← Option.some.inj hids]
  refine List.ext_getElem? fun j => ?_
  rw [List.getElem?_map, List.getElem?_take, List.getElem?_drop]
  by_cases hj : j < stop - start
  · have hbound : j < ps.length := hlen ▸ hj
    have hentry := hget j hj
    rw [List.getElem?_eq_getElem hbound, List.getElem?_range' hj, Option.bind_some, one_mul] at hentry
    obtain ⟨parent, hparent, child, -, hpair⟩ := by
      simpa only [Option.bind_eq_some_iff] using hentry.symm
    rw [if_pos hj, List.getElem?_eq_getElem hbound, hparent, ← Option.some.inj hpair]
    rfl
  · rw [if_neg hj, List.getElem?_eq_none (by omega), Option.map_none]

omit [Add T] [Sub T] [Mul T] in
theorem GrownTree.klGenerateBinaryTree {root : ℕ} {s s' : TreeState σ} (hs : GrownTree root s)
    (hpairs : s.partition.clusterPairs ≠ [])
    (h : GpuTopology.klGenerateBinaryTree shuffle traverse W s = some (.inl s')) :
    GrownTree root s' := by
  simp only [GpuTopology.klGenerateBinaryTree, if_neg hpairs, Option.bind_eq_bind,
    Option.bind_eq_some_iff] at h
  obtain ⟨c, -, h⟩ := h
  cases c with
  | inr gen => simp at h
  | inl c =>
    simp only at h
    split_ifs at h
    simp only [Option.bind_eq_some_iff, Option.some.injEq, Sum.inl.injEq] at h
    obtain ⟨topo, htopo, rfl⟩ := h
    obtain ⟨hpos, levels, level, htree⟩ := hs
    obtain ⟨levels', level', htree'⟩ := appendLevel_tree htree htopo
    exact ⟨hpos, levels', level', htree'⟩

theorem klLoop_tree {n root fuel reset : ℕ} {s s' : TreeState σ} (hs : GrownTree root s)
    (h : klLoop shuffle traverse W n root fuel reset s = some (some s')) : GrownTree root s' := by
  induction fuel generalizing reset s with
  | zero => simp [klLoop] at h
  | succ fuel ih =>
    simp only [klLoop, Option.bind_eq_bind, Option.bind_eq_some_iff] at h
    obtain ⟨⟨partition, stop⟩, hkl, step, hstep, h⟩ := h
    obtain ⟨hpairs, hpos⟩ := kernighanLin_spec hs.1 hkl
    cases step with
    | inr gen =>
      by_cases hlevel : 10 < reset + 1
      · simp [hlevel] at h
      · simp only [if_neg hlevel] at h
        exact ih (GrownTree.init n root gen) h
    | inl s₁ =>
      have hs₁ : GrownTree root s₁ := GrownTree.klGenerateBinaryTree
        (s := { s with partition := partition }) ⟨hpos, hs.2⟩ hpairs hstep
      simp only at h
      split_ifs at h
      · rw [← Option.some.inj (Option.some.inj h)]
        exact hs₁
      · exact ih hs₁ h

/-- Every topology of `ComputeTreesFromRoot` stores a tree. -/
theorem computeTreesFromRoot_tree [DecidableEq T] {fuel n root : ℕ} {alpha : T}
    {backtrack : Bool} {gen : σ} {W' : ℕ → ℕ → T} {topology scan : List ℕ}
    (h : computeTreesFromRoot shuffle traverse fuel W n root alpha backtrack gen =
      some (W', topology, scan)) :
    ∃ root levels level, Tree root levels level topology scan := by
  simp only [computeTreesFromRoot, Option.bind_eq_bind, Option.bind_eq_some_iff, Option.some.injEq,
    Prod.mk.injEq] at h
  obtain ⟨found, hfound, ⟨topo, scan'⟩, hmade, -, rfl, rfl⟩ := h
  cases found with
  | none => exact backtrackGenerateBinaryTree_tree hmade
  | some s =>
    obtain ⟨rfl, rfl⟩ : s.topo = topo ∧ s.scan ++ [s.topo.length] = scan' := by
      simpa [takeTree] using hmade
    cases backtrack with
    | true => simp at hfound
    | false =>
      obtain ⟨-, levels, level, htree⟩ := klLoop_tree (GrownTree.init n root gen)
        (by simpa using hfound)
      exact ⟨root, levels, level, htree⟩

end Partition

end CommTree
end NetStorm

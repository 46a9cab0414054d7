import NetStorm.Library.OwnedCells
import NetStorm.TreeReduce

/-!
# Broadcast along a tree

`BroadcastInner` goes over the levels of the tree from the root to the leaves. In a level the first
of a pair sends its array to the second, unless both are the same GPU. `CommDeviceTree` cuts a large
array into a slice for every GPU, reduces each slice to its GPU and broadcasts it from there, so
that all GPUs get the sum. There are two GPUs or more, and array `g` is on GPU `g`: the test of
`dst[gpu_id]->ctx()` is left out.
-/
namespace NetStorm
namespace CommTree
open GpuTopology

variable {M : Type}

/-- The variables of `BroadcastInner`. An entry of `temp` that is set refers to the array of its
GPU in `dst`. -/
structure BroadcastState (M : Type) where
  isSrc : ℕ
  srcId : ℕ
  temp : ℕ → Bool
  dst : ℕ → M

/-- A node of the level: it is a source, or it receives. An array that is not there cannot be
copied. -/
def broadcastStep (n : ℕ) (s : BroadcastState M) (topoId : ℕ) : Option (BroadcastState M) :=
  let srcId := if s.isSrc = 0 then topoId else s.srcId
  let isSrc := if s.isSrc = kBranch - 1 then 0 else s.isSrc + 1
  if s.isSrc ≠ 0 ∧ srcId ≠ topoId then
    if n ≤ topoId ∨ n ≤ srcId ∨ s.temp srcId = false then none
    else
      some {
        isSrc := isSrc
        srcId := srcId
        temp := Function.update s.temp topoId true
        dst := Function.update s.dst topoId (s.dst srcId) }
  else some { s with isSrc := isSrc, srcId := srcId }

/-- A level of `BroadcastInner`. -/
def broadcastLevel (n : ℕ) (topology scan : List ℕ) (c : (ℕ → Bool) × (ℕ → M)) (level : ℕ) :
    Option ((ℕ → Bool) × (ℕ → M)) := do
  let ids ← levelIds topology scan level
  let s ← ids.foldlM (broadcastStep n) ⟨0, 0, c.1, c.2⟩
  some (s.temp, s.dst)

/-- `BroadcastInner`. -/
def broadcastInner (n : ℕ) (topology scan : List ℕ) (src : M) (dst : ℕ → M) (mergedRow : ℤ) :
    Option (ℕ → M) := do
  let gpuId ← topology[0]?
  if n ≤ gpuId then none
  else
    let dst := if mergedRow = -1 then Function.update dst gpuId src else dst
    let c ← ((List.range (computeDepth n)).map fun i => i + 1).foldlM (broadcastLevel n topology scan)
      (Function.update (fun _ => false) gpuId true, dst)
    some c.2

section Broadcast
variable {n : ℕ} {ps : List (ℕ × ℕ)}

/-- The GPUs that have the value so far. -/
structure Reached (nodes : List ℕ) (x : M) (dst₀ : ℕ → M) (c : (ℕ → Bool) × (ℕ → M)) : Prop where
  temp : ∀ g, c.1 g = true ↔ g ∈ nodes
  dst : ∀ g, c.2 g = if g ∈ nodes then x else dst₀ g

theorem Reached.congr {nodes nodes' : List ℕ} {x : M} {dst₀ : ℕ → M} {c : (ℕ → Bool) × (ℕ → M)}
    (h : Reached nodes x dst₀ c) (hnodes : ∀ g, g ∈ nodes ↔ g ∈ nodes') :
    Reached nodes' x dst₀ c where
  temp g := (h.temp g).trans (hnodes g)
  dst g := by rw [h.dst g, if_congr (hnodes g) rfl rfl]

theorem Reached.pair {nodes : List ℕ} {x : M} {dst₀ : ℕ → M} {s : BroadcastState M}
    (h : Reached nodes x dst₀ (s.temp, s.dst)) (hs : s.isSrc = 0) {p : ℕ × ℕ} (h₁ : p.1 < n)
    (h₂ : p.2 < n) (hp : p.1 ∈ nodes) :
    ∃ s', (broadcastStep n s p.1).bind (fun s => broadcastStep n s p.2) = some s' ∧
      s'.isSrc = 0 ∧ Reached (p.2 :: nodes) x dst₀ (s'.temp, s'.dst) := by
  obtain ⟨isSrc, srcId, temp, dst⟩ := s
  obtain rfl : isSrc = 0 := hs
  have hset : temp p.1 = true := (h.temp p.1).mpr hp
  by_cases heq : p.1 = p.2
  · refine ⟨⟨0, p.1, temp, dst⟩, by simp [broadcastStep, kBranch, heq], rfl, h.congr fun g => ?_⟩
    rw [List.mem_cons]
    exact ⟨.inr, fun hg => hg.elim (fun hg => hg ▸ heq ▸ hp) id⟩
  · refine ⟨⟨0, p.1, Function.update temp p.2 true, Function.update dst p.2 (dst p.1)⟩,
      by simp [broadcastStep, kBranch, heq, not_le.mpr h₁, not_le.mpr h₂, hset], rfl,
      fun g => ?_, fun g => ?_⟩
    · by_cases hg : g = p.2
      · simp [hg]
      · simpa [hg] using h.temp g
    · by_cases hg : g = p.2
      · have hvalue : dst p.1 = x := by simpa [hp] using h.dst p.1
        simp [hg, hvalue]
      · simpa [hg] using h.dst g

theorem Reached.pairs {nodes : List ℕ} {x : M} {dst₀ : ℕ → M} {s : BroadcastState M}
    (h : Reached nodes x dst₀ (s.temp, s.dst)) (hs : s.isSrc = 0) (hlt : ∀ g ∈ expand ps, g < n)
    (hps : ∀ p ∈ ps, p.1 ∈ nodes) :
    ∃ s', (expand ps).foldlM (broadcastStep n) s = some s' ∧
      Reached (ps.map Prod.snd ++ nodes) x dst₀ (s'.temp, s'.dst) := by
  induction ps generalizing nodes s with
  | nil => exact ⟨s, rfl, h⟩
  | cons p ps ih =>
    obtain ⟨s₁, hrun₁, hs₁, hreached⟩ :=
      h.pair hs (hlt _ (by simp)) (hlt _ (by simp)) (hps p List.mem_cons_self)
    obtain ⟨s₂, hrun₂, hreached₂⟩ := ih hreached hs₁ (fun g hg => hlt g (by simp [hg]))
      fun q hq => List.mem_cons_of_mem _ (hps q (List.mem_cons_of_mem _ hq))
    refine ⟨s₂, ?_, hreached₂.congr fun g => ?_⟩
    · rw [expand_cons, List.foldlM_cons]
      simp only [List.foldlM_cons, Option.bind_eq_bind]
      rw [← Option.bind_assoc, hrun₁, Option.bind_some]
      exact hrun₂
    · simp only [List.map_cons, List.mem_append, List.mem_cons]
      tauto

theorem mem_expand_iff_of_chained {level : List ℕ} (hps : ps.map Prod.fst = level) (g : ℕ) :
    g ∈ expand ps ↔ g ∈ ps.map Prod.snd ++ level := by
  rw [mem_expand, List.mem_append, ← hps, List.mem_map, List.mem_map]
  constructor
  · rintro ⟨p, hp, rfl | rfl⟩
    · exact .inr ⟨p, hp, rfl⟩
    · exact .inl ⟨p, hp, rfl⟩
  · rintro (⟨p, hp, rfl⟩ | ⟨p, hp, rfl⟩)
    · exact ⟨p, hp, .inr rfl⟩
    · exact ⟨p, hp, .inl rfl⟩

variable {root : ℕ} {levels : List (List (ℕ × ℕ))} {topology scan : List ℕ}

theorem Stored.broadcastLevels (h : Stored root levels topology scan) {depth : ℕ}
    (hdepth : depth ≤ levels.length) (hlt : ∀ ps ∈ levels.take depth, ∀ g ∈ expand ps, g < n)
    {x : M} {dst₀ : ℕ → M} {c : (ℕ → Bool) × (ℕ → M)} (hc : Reached [root] x dst₀ c) :
    ∃ c', ((List.range depth).map fun i => i + 1).foldlM (broadcastLevel n topology scan) c =
        some c' ∧ Reached (lastLevel [root] (levels.take depth)) x dst₀ c' := by
  induction depth with
  | zero => exact ⟨c, rfl, hc⟩
  | succ depth ih =>
    have htake : levels.take (depth + 1) = levels.take depth ++ [levels[depth]] :=
      (List.take_append_getElem hdepth).symm
    obtain ⟨c₁, hrun₁, hreached₁⟩ := ih (by omega) fun ps hps =>
      hlt ps (by rw [htake]; exact List.mem_append_left _ hps)
    have hmem : levels[depth] ∈ levels.take (depth + 1) := by
      rw [htake]
      exact List.mem_append_right _ (List.mem_singleton_self _)
    have hlevel := h.chained.map_fst hdepth
    obtain ⟨s, hrun, hreached⟩ := Reached.pairs (s := ⟨0, 0, c₁.1, c₁.2⟩) hreached₁ rfl
      (hlt _ hmem) fun p hp => hlevel ▸ List.mem_map_of_mem hp
    refine ⟨(s.temp, s.dst), ?_, ?_⟩
    · rw [List.range_succ, List.map_append, List.foldlM_append, hrun₁]
      simp [broadcastLevel, h.level_succ hdepth, hrun]
    · rw [htake, lastLevel, List.foldl_append]
      exact hreached.congr fun g => (mem_expand_iff_of_chained hlevel g).symm

/-- `BroadcastInner` gives all leaves of a tree the array of the root. -/
theorem Stored.broadcastInner_eq (h : Stored root levels topology scan)
    (hdepth : computeDepth n ≤ levels.length)
    (hlt : ∀ g ∈ lastLevel [root] (levels.take (computeDepth n)), g < n) (src : M) (dst : ℕ → M)
    (mergedRow : ℤ) :
    broadcastInner n topology scan src dst mergedRow = some fun g =>
      if g ∈ lastLevel [root] (levels.take (computeDepth n)) then
        if mergedRow = -1 then src else dst root
      else dst g := by
  have hchain := h.chained.take (computeDepth n)
  have hroot := hchain.mem_lastLevel (List.mem_singleton_self root)
  have hstart : Reached [root] (if mergedRow = -1 then src else dst root) dst
      (Function.update (fun _ => false) root true,
        if mergedRow = -1 then Function.update dst root src else dst) := by
    refine ⟨fun g => ?_, fun g => ?_⟩
    · by_cases hg : g = root <;> simp [hg]
    · by_cases hg : g = root <;> by_cases hrow : mergedRow = -1 <;> simp [hg, hrow]
  obtain ⟨c, hrun, hreached⟩ := h.broadcastLevels hdepth
    (fun ps hps g hg => hlt g (hchain.expand_subset hps hg)) hstart
  simp only [broadcastInner, h.head, Option.bind_eq_bind, Option.bind_some,
    if_neg (not_le.mpr (hlt root hroot)), hrun]
  exact congrArg some (funext hreached.dst)

end Broadcast

section Root
variable {T : Type} {root : ℕ}

theorem postprocessLevel_head (result : List ℕ) {stride : ℕ} (hstride : 0 < stride) :
    (postprocessLevel result stride)[0]? = result[0]? := by
  apply List.foldlRecOn (motive := fun c : List ℕ × (ℕ → ℤ) => c.1[0]? = result[0]?)
  · rfl
  · intro c hc i hi
    have hpos : i ≠ 0 := by
      rw [List.mem_reverse, steps, List.mem_map] at hi
      obtain ⟨k, -, rfl⟩ := hi
      omega
    dsimp only
    split_ifs
    · rw [List.getElem?_set_ne hpos, hc]
    · exact hc

theorem postprocess_head (result : List ℕ) (depth : ℕ) :
    (postprocess result depth)[0]? = result[0]? := by
  apply List.foldlRecOn (motive := fun above : List ℕ => above[0]? = result[0]?)
  · rfl
  · exact fun above habove level _ =>
      (postprocessLevel_head above (Nat.two_pow_pos level)).trans habove

/-- The search has the root on its first leaf. -/
structure RootFirst (root : ℕ) (s : SearchState T) : Prop where
  row : s.stack.length = s.row
  state : s.state[0]? = some (some root)
  best : ∀ best, s.best = some best → best.2[0]? = some root

theorem unwind_root (n : ℕ) (state : List (Option ℕ)) (row pos : ℕ) (stack : List ℕ)
    (hrow : stack.length = row) :
    (unwind n state row pos stack).2.2.2.length = (unwind n state row pos stack).2.1 ∧
      (unwind n state row pos stack).1[0]? = state[0]? := by
  induction stack generalizing state row pos with
  | nil => exact ⟨hrow, rfl⟩
  | cons top stack ih =>
    rw [unwind]
    split_ifs
    · obtain ⟨hlen, hstate⟩ := ih (state.set (stack.length + 1) none) (row - 1) (top + 1)
        (by rw [← hrow]; rfl)
      exact ⟨hlen, hstate.trans (List.getElem?_set_ne (by omega))⟩
    · exact ⟨hrow, rfl⟩

theorem RootFirst.tryPosition [IntCast T] [DecidableEq T] {s : SearchState T}
    (h : RootFirst root s) (hne : s.stack ≠ []) (W : ℕ → ℕ → T) (n depth : ℕ) :
    RootFirst root (GpuTopology.tryPosition W n depth s) := by
  have hrow : s.row ≠ 0 := h.row ▸ fun hzero => hne (List.length_eq_zero_iff.mp hzero)
  unfold GpuTopology.tryPosition
  dsimp only
  split_ifs
  · refine ⟨by simp [h.row], ?_, h.best⟩
    exact (List.getElem?_set_ne hrow).trans h.state
  · refine ⟨h.row, ?_, h.best⟩
    exact (List.getElem?_set_ne hrow).trans ((List.getElem?_set_ne hrow).trans h.state)

variable [Add T] [Sub T] [IntCast T] [LT T] [DecidableLT T]

theorem RootFirst.keepBest {W : ℕ → ℕ → T} {depth : ℕ} {s : SearchState T} (h : RootFirst root s)
    {best : Option (T × List ℕ)} (hkeep : GpuTopology.keepBest W depth s = some best) :
    ∀ b, best = some b → b.2[0]? = some root := by
  simp only [GpuTopology.keepBest, Option.bind_eq_bind, Option.bind_eq_some_iff,
    Option.some.injEq] at hkeep
  obtain ⟨result, hresult, rfl⟩ := hkeep
  intro b hb
  split_ifs at hb
  · rw [← Option.some.inj hb, postprocess_head]
    obtain ⟨hlen, hget⟩ := OptionTable.mapM_eq_some_iff.mp hresult
    have hpos : 0 < s.state.length := (List.getElem?_eq_some_iff.mp h.state).1
    have hfirst := hget 0 (by omega)
    rw [h.state] at hfirst
    simpa using hfirst
  · exact h.best b hb

variable [DecidableEq T]

theorem iterativeBacktrack_root {W : ℕ → ℕ → T} {n depth fuel : ℕ} {optimal : Bool}
    {s : SearchState T} {best : T × List ℕ} (hs : RootFirst root s) (hlen : 2 ≤ s.state.length)
    (h : iterativeBacktrack W n depth optimal fuel s = some (some best)) :
    best.2[0]? = some root := by
  induction fuel generalizing s with
  | zero => simp [iterativeBacktrack] at h
  | succ fuel ih =>
    rw [iterativeBacktrack] at h
    have hlength := unwind_length n s.state s.row s.pos s.stack
    have hunwind := unwind_root n s.state s.row s.pos s.stack hs.row
    generalize unwind n s.state s.row s.pos s.stack = u at h hlength hunwind
    obtain ⟨state, row, pos, stack⟩ := u
    dsimp only at h hlength hunwind
    by_cases hstack : stack = []
    · rw [if_pos hstack] at h
      exact hs.best best (Option.some.inj h)
    by_cases hrow : state.length ≤ row
    · rw [if_neg hstack, if_pos hrow] at h
      simp at h
    rw [if_neg hstack, if_neg hrow] at h
    have hs₁ : RootFirst root { s with state := state, row := row, pos := pos, stack := stack } :=
      ⟨hunwind.1, hunwind.2.trans hs.state, hs.best⟩
    have hs' := hs₁.tryPosition hstack W n depth
    have hlength' := (tryPosition_spec W n depth
      { s with state := state, row := row, pos := pos, stack := stack }).1
    set s' := tryPosition W n depth { s with state := state, row := row, pos := pos, stack := stack }
    have hlen' : 2 ≤ s'.state.length := by
      rw [hlength', hlength]
      exact hlen
    by_cases hfull : s'.row = s'.state.length
    · simp only [if_pos hfull, Option.bind_eq_bind, Option.bind_eq_some_iff] at h
      obtain ⟨kept, hkept, h⟩ := h
      have hroot := hs'.keepBest hkept
      split_ifs at h
      · cases htop : s'.stack with
        | nil => simp [htop] at h
        | cons top rest =>
          simp only [htop] at h
          have hdeep : s'.row = rest.length + 1 := by rw [← hs'.row, htop, List.length_cons]
          refine ih (s := ⟨s'.state.set rest.length none, rest, s'.row - 1, top + 1, kept⟩)
            ⟨by simp [hdeep], ?_, hroot⟩ (by simpa using hlen') h
          exact (List.getElem?_set_ne (by omega)).trans hs'.state
      · exact hroot best (Option.some.inj h)
    · rw [if_neg hfull] at h
      exact ih hs' hlen' h

theorem formTopology_head {result : List ℕ} {depth : ℕ} (hdepth : 0 < depth)
    (hlen : result.length = 2 ^ depth) (hroot : result[0]? = some root) :
    (formTopology result depth).1[0]? = some root := by
  have hnodes : valuesAt result (steps 0 result.length (2 ^ (depth - 0))) = [root] := by
    rw [valuesAt, hlen, steps_two_pow (Nat.zero_le _)]
    simp [hroot]
  have hfold : ∀ k, ((List.range (k + 1)).foldl (formLevel result depth) ([], [0])).1[0]? =
      some root := fun k => by
    induction k with
    | zero =>
      rw [List.range_succ, List.range_zero, List.nil_append, List.foldl_cons, List.foldl_nil,
        formLevel, hnodes]
      rfl
    | succ k ih =>
      rw [List.range_succ, List.foldl_append, List.foldl_cons, List.foldl_nil, formLevel]
      exact List.getElem?_append_left (List.getElem?_eq_some_iff.mp ih).1 |>.trans ih
  obtain ⟨k, rfl⟩ : ∃ k, depth = k + 1 := ⟨depth - 1, by omega⟩
  exact (List.getElem?_append_left (List.getElem?_eq_some_iff.mp (hfold k)).1).trans (hfold k)

theorem backtrackGenerateBinaryTree_root {W : ℕ → ℕ → T} {fuel n : ℕ} {topology scan : List ℕ}
    (h : backtrackGenerateBinaryTree fuel W n root = some (topology, scan)) :
    topology[0]? = some root := by
  simp only [backtrackGenerateBinaryTree, Option.bind_eq_bind, Option.bind_eq_some_iff,
    Option.some.injEq] at h
  obtain ⟨best, hbest, ⟨weight, result⟩, rfl, h⟩ := h
  have hstart : ((List.replicate (2 ^ computeDepth n) none).set 0 (some root))[0]? =
      some (some root) := by
    rw [List.getElem?_set_self (by simp)]
  rcases Nat.eq_zero_or_pos (computeDepth n) with hzero | hpos
  · -- a tree of one leaf has no row to fill
    rw [hzero] at hbest
    cases fuel with
    | zero => simp [iterativeBacktrack] at hbest
    | succ fuel =>
      rw [iterativeBacktrack, unwind] at hbest
      by_cases hn : n ≤ 0
      · simp [hn, unwind] at hbest
      · simp [hn] at hbest
  · have htwo : 2 ≤ 2 ^ computeDepth n := by
      calc 2 = 2 ^ 1 := rfl
        _ ≤ 2 ^ computeDepth n := Nat.pow_le_pow_right (by decide) hpos
    have hfirst : RootFirst root (⟨_, [0], 1, 0, none⟩ : SearchState T) :=
      ⟨rfl, hstart, by simp⟩
    have hroot := iterativeBacktrack_root hfirst (by simpa using htwo) hbest
    have hlen : result.length = 2 ^ computeDepth n := by
      have := iterativeBacktrack_length (fun b hb => by simp at hb) hbest
      simpa using this
    have hhead := formTopology_head hpos hlen hroot
    rwa [h] at hhead

/-- The tree of a root starts with it. -/
theorem computeTreesFromRoot_root {σ : Type} [Mul T] {shuffle : σ → List ℕ → List ℕ × σ}
    {traverse : List ℕ → List ℕ} {W W' : ℕ → ℕ → T} {fuel n : ℕ} {alpha : T} {backtrack : Bool}
    {gen : σ} {topology scan : List ℕ}
    (h : computeTreesFromRoot shuffle traverse fuel W n root alpha backtrack gen =
      some (W', topology, scan)) : topology[0]? = some root := by
  simp only [computeTreesFromRoot, Option.bind_eq_bind, Option.bind_eq_some_iff, Option.some.injEq,
    Prod.mk.injEq] at h
  obtain ⟨found, hfound, ⟨topo, scan'⟩, hmade, -, rfl, rfl⟩ := h
  cases found with
  | none => exact backtrackGenerateBinaryTree_root hmade
  | some s =>
    obtain ⟨rfl, rfl⟩ : s.topo = topo ∧ s.scan ++ [s.topo.length] = scan' := by
      simpa [takeTree] using hmade
    cases backtrack with
    | true => simp at hfound
    | false =>
      obtain ⟨-, levels, level, htree⟩ := klLoop_tree (GrownTree.init n root gen)
        (by simpa using hfound)
      exact htree.stored.2.head

end Root

section AllReduce
variable {R : Type}

/-- The rows of an array from `start` on. -/
def slice (start : ℕ) (a : ℕ → R) : ℕ → R := fun r => a (start + r)

/-- `slice_scan`. -/
def sliceScan (n firstSize i : ℕ) : ℕ := if i < n then i * (firstSize / n) else firstSize

/-- The trees of the roots, as `topology_` and `scan_` have them. -/
structure Trees where
  topology : ℕ → List ℕ
  scan : ℕ → List ℕ

/-- Whether the arrays of a key are cut into slices. -/
def isSliced (n totalSize firstSize gpuarrayBound : ℕ) : Bool :=
  gpuarrayBound < totalSize && 2 * n ≤ firstSize

/-- The buffers behind `ReduceInner`. -/
def reduceBuffers [AddCommMonoid M] (n : ℕ) (topology scan : List ℕ) (src : ℕ → M)
    (bufs : TreeBuffers M) : Option (TreeBuffers M) := do
  let depth := computeDepth n
  let leaves ← levelIds topology scan depth
  let bufs ← (List.range n).foldlM (copyInput n leaves src) bufs
  ((List.range depth).map fun i => depth - i).foldlM (reduceLevel n topology scan) bufs

theorem reduceInner_eq_bind [AddCommMonoid M] (n : ℕ) (topology scan : List ℕ) (src : ℕ → M)
    (bufs : TreeBuffers M) :
    reduceInner n topology scan src bufs =
      (reduceBuffers n topology scan src bufs).bind fun bufs =>
        topology[0]?.map bufs.merged := by
  simp only [reduceInner, reduceBuffers, Option.bind_eq_bind, Option.bind_assoc,
    Option.map_eq_bind, Function.comp_def]

/-- Reduces the slice of GPU `i` to it. -/
def reduceSlice [AddCommMonoid R] (n firstSize : ℕ) (trees : Trees) (src : ℕ → ℕ → R)
    (bufs : ℕ → TreeBuffers (ℕ → R)) (i : ℕ) : Option (ℕ → TreeBuffers (ℕ → R)) := do
  let b ← reduceBuffers n (trees.topology i) (trees.scan i)
    (fun g => slice (sliceScan n firstSize i) (src g)) (bufs i)
  some (Function.update bufs i b)

/-- Broadcasts the slice of GPU `i` from it. -/
def broadcastSlice (n : ℕ) (trees : Trees) (bufs : ℕ → TreeBuffers (ℕ → R)) (i : ℕ) :
    Option (ℕ → TreeBuffers (ℕ → R)) := do
  let merged ← broadcastInner n (trees.topology i) (trees.scan i) ((bufs i).merged i) (bufs i).merged i
  some (Function.update bufs i { bufs i with merged := merged })

/-- `CommDeviceTree::Reduce` on dense arrays of several GPUs, with the array that it returns. The
first index of the buffers is the row. -/
def treeReduce [AddCommMonoid R] (n totalSize firstSize gpuarrayBound : ℕ) (trees : Trees)
    (src : ℕ → ℕ → R) (bufs : ℕ → TreeBuffers (ℕ → R)) :
    Option ((ℕ → TreeBuffers (ℕ → R)) × (ℕ → R)) :=
  if isSliced n totalSize firstSize gpuarrayBound then do
    let bufs ← (List.range n).foldlM (reduceSlice n firstSize trees src) bufs
    let bufs ← (List.range n).foldlM (broadcastSlice n trees) bufs
    some (bufs, src 0)
  else do
    let b ← reduceBuffers n (trees.topology 0) (trees.scan 0) src (bufs 0)
    some (Function.update bufs 0 b, b.merged 0)

/-- The slices that are copied back into the array of a GPU. -/
def copySlices (n firstSize : ℕ) (bufs : ℕ → TreeBuffers (ℕ → R)) (g : ℕ) (dst : ℕ → R) : ℕ → R :=
  (List.range n).foldl (fun dst i r =>
    if sliceScan n firstSize i ≤ r ∧ r < sliceScan n firstSize (i + 1) then
      (bufs i).merged g (r - sliceScan n firstSize i)
    else dst r) dst

/-- `CommDeviceTree::Broadcast` of a dense array, behind a reduction of the key. -/
def treeBroadcast (n totalSize firstSize gpuarrayBound : ℕ) (trees : Trees)
    (bufs : ℕ → TreeBuffers (ℕ → R)) (src : ℕ → R) (dst : ℕ → ℕ → R) : Option (ℕ → ℕ → R) :=
  if isSliced n totalSize firstSize gpuarrayBound then
    some fun g => if g < n then copySlices n firstSize bufs g (dst g) else dst g
  else broadcastInner n (trees.topology 0) (trees.scan 0) src dst (-1)

/-- What the trees have to do: a reduction gives the sum to its root, and a broadcast gives all GPUs
what the root has. -/
structure Sums (n : ℕ) (trees : Trees) : Prop where
  reduce : ∀ i < n, ∀ (M : Type) [AddCommMonoid M] (src : ℕ → M) (bufs : TreeBuffers M),
    ∃ bufs', reduceBuffers n (trees.topology i) (trees.scan i) src bufs = some bufs' ∧
      bufs'.merged i = ∑ j ∈ Finset.range n, src j
  broadcast : ∀ i < n, ∀ (M : Type) (src : M) (dst : ℕ → M) (mergedRow : ℤ),
    broadcastInner n (trees.topology i) (trees.scan i) src dst mergedRow = some fun g =>
      if g < n then if mergedRow = -1 then src else dst i else dst g

theorem sliceScan_covers {n firstSize r : ℕ} (hn : 0 < n) (hr : r < firstSize) :
    ∃ i < n, sliceScan n firstSize i ≤ r ∧ r < sliceScan n firstSize (i + 1) := by
  unfold sliceScan
  set size := firstSize / n
  by_cases hlast : (n - 1) * size ≤ r
  · refine ⟨n - 1, by omega, ?_, ?_⟩
    · rwa [if_pos (by omega)]
    · rwa [if_neg (by omega)]
  · have hpos : 0 < size := Nat.pos_of_ne_zero fun hzero => hlast (by simp [hzero])
    have hstart : r / size * size ≤ r := Nat.div_mul_le_self r size
    have hstop : r < r / size * size + size := Nat.lt_div_mul_add hpos
    have hlt : r / size < n - 1 := (Nat.div_lt_iff_lt_mul hpos).mpr (not_le.mp hlast)
    refine ⟨r / size, by omega, ?_, ?_⟩
    · rwa [if_pos (by omega)]
    · rwa [if_pos (by omega), Nat.add_mul, Nat.one_mul]

theorem foldl_slices {n firstSize r : ℕ} {bufs : ℕ → TreeBuffers (ℕ → R)} {g : ℕ} {x : R}
    {is : List ℕ}
    (hx : ∀ i ∈ is, sliceScan n firstSize i ≤ r →
      (bufs i).merged g (r - sliceScan n firstSize i) = x) {dst : ℕ → R}
    (h : dst r = x ∨ ∃ i ∈ is, sliceScan n firstSize i ≤ r ∧ r < sliceScan n firstSize (i + 1)) :
    is.foldl (fun dst i r =>
      if sliceScan n firstSize i ≤ r ∧ r < sliceScan n firstSize (i + 1) then
        (bufs i).merged g (r - sliceScan n firstSize i)
      else dst r) dst r = x := by
  induction is generalizing dst with
  | nil => simpa using h
  | cons i is ih =>
    rw [List.foldl_cons]
    refine ih (fun i' hi' => hx i' (List.mem_cons_of_mem _ hi')) ?_
    split_ifs with hin
    · exact .inl (hx i List.mem_cons_self hin.1)
    · refine h.imp_right fun ⟨i', hi', hin'⟩ => ⟨i', ?_, hin'⟩
      rcases List.mem_cons.mp hi' with rfl | hi'
      · exact absurd hin' hin
      · exact hi'

variable [AddCommMonoid R]

theorem Sums.treeReduce {n : ℕ} {trees : Trees} (h : Sums n trees) (hn : 0 < n)
    (totalSize firstSize gpuarrayBound : ℕ) (src : ℕ → ℕ → R) (bufs : ℕ → TreeBuffers (ℕ → R)) :
    ∃ bufs' out, CommTree.treeReduce n totalSize firstSize gpuarrayBound trees src bufs =
      some (bufs', out) ∧
      if isSliced n totalSize firstSize gpuarrayBound then
        ∀ i < n, ∀ g < n, (bufs' i).merged g =
          ∑ j ∈ Finset.range n, slice (sliceScan n firstSize i) (src j)
      else out = ∑ j ∈ Finset.range n, src j := by
  unfold CommTree.treeReduce
  split_ifs with hsliced
  · have hreduce : ∀ i ∈ List.range n, OwnedCells.OwnStep (reduceSlice n firstSize trees src)
        (fun _ => True) id (fun s k => s k) (fun i b => (reduceBuffers n (trees.topology i)
          (trees.scan i) (fun g => slice (sliceScan n firstSize i) (src g)) b).getD b) i := by
      intro i hi s _
      obtain ⟨b, hrun, -⟩ := h.reduce i (List.mem_range.mp hi) (ℕ → R)
        (fun g => slice (sliceScan n firstSize i) (src g)) (s i)
      refine ⟨Function.update s i b, by rw [reduceSlice, hrun]; rfl, trivial, fun k => ?_⟩
      by_cases hk : k = i
      · subst hk
        simp [hrun]
      · simp [hk]
    have hbroadcast : ∀ i ∈ List.range n, OwnedCells.OwnStep (broadcastSlice n trees)
        (fun _ => True) id (fun (s : ℕ → TreeBuffers (ℕ → R)) k => s k) (fun i b => { b with
          merged := fun g => if g < n then b.merged i else b.merged g }) i := by
      intro i hi s _
      have hrun := h.broadcast i (List.mem_range.mp hi) (ℕ → R) ((s i).merged i) (s i).merged i
      refine ⟨_, by rw [broadcastSlice, hrun]; rfl, trivial, fun k => ?_⟩
      by_cases hk : k = i
      · subst hk
        have hrow : (k : ℤ) ≠ -1 := by omega
        simp [hrow]
      · simp [hk]
    obtain ⟨bufs₁, hrun₁, -, hbufs₁⟩ := OwnedCells.foldlM_own List.nodup_range hreduce bufs trivial
    obtain ⟨bufs₂, hrun₂, -, hbufs₂⟩ :=
      OwnedCells.foldlM_own List.nodup_range hbroadcast bufs₁ trivial
    refine ⟨bufs₂, src 0, by simp [hrun₁, hrun₂], fun i hi g hg => ?_⟩
    obtain ⟨b, hrun, hsum⟩ := h.reduce i hi (ℕ → R)
      (fun g => slice (sliceScan n firstSize i) (src g)) (bufs i)
    have hfirst : bufs₁ i = b := by simpa [hi, hrun] using hbufs₁ i
    rw [show bufs₂ i = _ from hbufs₂ i, id, if_pos (List.mem_range.mpr hi)]
    dsimp only
    rw [if_pos hg, hfirst, hsum]
  · obtain ⟨b, hrun, hsum⟩ := h.reduce 0 hn (ℕ → R) src (bufs 0)
    exact ⟨_, _, by rw [hrun]; rfl, hsum⟩

/-- Behind a reduction, a broadcast gives the sum of the arrays to all GPUs. -/
theorem Sums.allReduce {n : ℕ} {trees : Trees} (h : Sums n trees) (hn : 0 < n)
    (totalSize firstSize gpuarrayBound : ℕ) (src : ℕ → ℕ → R) (bufs : ℕ → TreeBuffers (ℕ → R))
    (dst : ℕ → ℕ → R) :
    ∃ bufs' out dst', CommTree.treeReduce n totalSize firstSize gpuarrayBound trees src bufs =
        some (bufs', out) ∧
      treeBroadcast n totalSize firstSize gpuarrayBound trees bufs' out dst = some dst' ∧
      ∀ g < n, ∀ r < firstSize, dst' g r = ∑ j ∈ Finset.range n, src j r := by
  obtain ⟨bufs', out, hrun, hsum⟩ := h.treeReduce hn totalSize firstSize gpuarrayBound src bufs
  unfold treeBroadcast
  split_ifs at hsum ⊢ with hsliced
  · refine ⟨bufs', out, _, hrun, rfl, fun g hg r hr => ?_⟩
    rw [if_pos hg]
    refine foldl_slices (fun i hi hle => ?_) (.inr ?_)
    · rw [hsum i (List.mem_range.mp hi) g hg, Finset.sum_apply]
      refine Finset.sum_congr rfl fun j _ => ?_
      rw [slice, Nat.add_sub_cancel' hle]
    · obtain ⟨i, hi, hin⟩ := sliceScan_covers hn hr
      exact ⟨i, List.mem_range.mpr hi, hin⟩
  · refine ⟨bufs', out, _, hrun, h.broadcast 0 hn (ℕ → R) out dst (-1), fun g hg r _ => ?_⟩
    rw [if_pos hg, if_pos rfl, hsum, Finset.sum_apply]

/-- On trees of `ComputeTrees` that send once from every GPU but the root, `Reduce` and `Broadcast`
together give every GPU the sum of all arrays, in slices or not. -/
theorem allReduce_sum {T σ : Type} [Add T] [Sub T] [Mul T] [IntCast T] [LT T] [DecidableLT T]
    [DecidableEq T] (shuffle : σ → List ℕ → List ℕ × σ) (traverse : List ℕ → List ℕ) (fuel n : ℕ)
    (hn : 2 ≤ n) (alpha : T) (backtrack : Bool) (trees : Trees)
    (htrees : ∀ i < n, ∃ (W W' : ℕ → ℕ → T) (gen : σ),
      computeTreesFromRoot shuffle traverse fuel W n i alpha backtrack gen =
        some (W', trees.topology i, trees.scan i))
    (hsends : ∀ i < n, SendsOnce n (trees.topology i) (trees.scan i))
    (totalSize firstSize gpuarrayBound : ℕ) (src : ℕ → ℕ → R) (bufs : ℕ → TreeBuffers (ℕ → R))
    (dst : ℕ → ℕ → R) :
    ∃ bufs' out dst', CommTree.treeReduce n totalSize firstSize gpuarrayBound trees src bufs =
        some (bufs', out) ∧
      treeBroadcast n totalSize firstSize gpuarrayBound trees bufs' out dst = some dst' ∧
      ∀ g < n, ∀ r < firstSize, dst' g r = ∑ j ∈ Finset.range n, src j r := by
  refine Sums.allReduce ⟨fun i hi M _ src bufs => ?_, fun i hi M src dst mergedRow => ?_⟩
    (by omega) totalSize firstSize gpuarrayBound src bufs dst
  all_goals
    obtain ⟨W, W', gen, hcompute⟩ := htrees i hi
    obtain ⟨root, levels, level, htree⟩ := computeTreesFromRoot_tree hcompute
    have hstored := htree.stored.2
    obtain rfl : root = i :=
      Option.some.inj (hstored.head.symm.trans (computeTreesFromRoot_root hcompute))
    have hchain := hstored.chained.take (computeDepth n)
    obtain ⟨⟨ids, hids, hleaves⟩, hreceive, hsend⟩ := hsends root hi
    have hdepth := hstored.le_of_levelIds hids
    rw [hstored.ids _ hdepth, Option.some.injEq] at hids
    subst hids
  · have hhead : (trees.topology root).take 1 = [root] := by
      rw [List.take_one, List.head?_eq_getElem?, hstored.head]
      rfl
    rw [hstored.treeLevels_eq hdepth] at hreceive hsend
    rw [hhead] at hsend
    have hweights := (rootWeights_eq_one_iff hchain hleaves).mpr ⟨hreceive, hsend⟩
    have hsum := hstored.reduceInner_eq hdepth rfl (fun g => (hleaves g).mp) src bufs
    rw [reduceInner_eq_bind, Option.bind_eq_some_iff] at hsum
    obtain ⟨bufs', hrun, hmerged⟩ := hsum
    rw [hstored.head, Option.map_some, Option.some.injEq] at hmerged
    refine ⟨bufs', hrun, hmerged.trans (Finset.sum_congr rfl fun g hg => ?_)⟩
    have hg := Finset.mem_range.mp hg
    rw [hweights g hg, if_pos ((hleaves g).mpr hg), one_smul]
  · rw [hstored.broadcastInner_eq hdepth (fun g => (hleaves g).mp)]
    simp only [hleaves]

/-- The trees of two GPUs with a link. -/
def pairTrees : Trees where
  topology i := if i = 0 then [0, 0, 1] else [1, 1, 0]
  scan _ := [0, 1, 3]

/-- Two GPUs, with arrays of four rows in two slices. -/
theorem allReduce_sum_two :
    ∃ bufs' out dst', treeReduce 2 8 4 3 pairTrees (fun g r => (10 * g + r : ℤ))
        (fun _ => ⟨fun _ _ => 0, fun _ _ => 0⟩) = some (bufs', out) ∧
      treeBroadcast 2 8 4 3 pairTrees bufs' out (fun _ _ => 0) = some dst' ∧
      ∀ g < 2, ∀ r < 4, dst' g r = ∑ j ∈ Finset.range 2, (10 * j + r : ℤ) := by
  have htrees : ∀ i < 2, ∃ (W W' : ℕ → ℕ → ℤ) (gen : Unit),
      computeTreesFromRoot (fun (_ : Unit) l => (l, ())) id 10 W 2 i 1 true gen =
        some (W', pairTrees.topology i, pairTrees.scan i) := by
    have hcompute : ∀ i < 2, (computeTreesFromRoot (fun (_ : Unit) l => (l, ())) id 10
        (fun a b => if a = b then (0 : ℤ) else 1) 2 i 1 true ()).map Prod.snd =
          some (pairTrees.topology i, pairTrees.scan i) := by
      decide +kernel
    intro i hi
    obtain ⟨⟨W', topology, scan⟩, htree, heq⟩ := Option.map_eq_some_iff.mp (hcompute i hi)
    obtain ⟨rfl, rfl⟩ : topology = pairTrees.topology i ∧ scan = pairTrees.scan i := by
      simpa using heq
    exact ⟨_, _, _, htree⟩
  have hsends : ∀ i < 2, SendsOnce 2 (pairTrees.topology i) (pairTrees.scan i) := by
    intro i hi
    interval_cases i
    · exact ⟨⟨[0, 1], by decide, fun g => by simp; omega⟩, by decide, by decide⟩
    · exact ⟨⟨[1, 0], by decide, fun g => by simp; omega⟩, by decide, by decide⟩
  exact allReduce_sum _ _ 10 2 le_rfl 1 true pairTrees htrees hsends 8 4 3 _ _ _

end AllReduce

end CommTree
end NetStorm

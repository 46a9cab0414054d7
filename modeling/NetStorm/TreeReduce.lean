import Mathlib.Tactic.IntervalCases
import NetStorm.TreeShape

/-!
# When a tree reduction is the sum

`ReduceInner` on a tree of `ComputeTreesFromRoot` gives the weighted sum of the inputs. All
weights are one exactly if the leaves are the GPUs, no GPU receives twice in one level, no GPU
sends twice, and the root does not send. The search makes trees where this fails.
-/
namespace NetStorm
namespace CommTree
open GpuTopology

/-- The nodes of a level as pairs. -/
def toPairs : List ℕ → List (ℕ × ℕ)
  | dest :: sender :: ids => (dest, sender) :: toPairs ids
  | _ => []

/-- The pairs of the levels that `ReduceInner` goes over, from the root on. -/
def treeLevels (n : ℕ) (topology scan : List ℕ) : List (List (ℕ × ℕ)) :=
  (List.range (computeDepth n)).map fun i => (levelIds topology scan (i + 1)).elim [] toPairs

/-- The leaves are the GPUs, no GPU receives from two others in one level, every GPU sends at
most once, and the root never. -/
structure SendsOnce (n : ℕ) (topology scan : List ℕ) : Prop where
  leaves : ∃ ids, levelIds topology scan (computeDepth n) = some ids ∧ ∀ g, g ∈ ids ↔ g < n
  receive : ∀ ps ∈ treeLevels n topology scan, ((sends ps).map Prod.fst).Nodup
  send : (topology.take 1 ++ senders (treeLevels n topology scan)).Nodup

theorem toPairs_expand (ps : List (ℕ × ℕ)) : toPairs (expand ps) = ps := by
  induction ps with
  | nil => rfl
  | cons p ps ih => rw [expand_cons, toPairs, ih]

section Inputs
variable {M : Type} {n : ℕ} {leaves : List ℕ}

theorem copyInput_eq (src : ℕ → M) (hlt : ∀ g ∈ leaves, g < n) (bufs : TreeBuffers M) (i : ℕ) :
    ∃ bufs', copyInput n leaves src bufs i = some bufs' ∧
      ∀ g, bufs'.merged g = if g = i ∧ g ∈ leaves then src g else bufs.merged g := by
  induction leaves generalizing bufs with
  | nil => exact ⟨bufs, rfl, fun g => by simp⟩
  | cons id leaves ih =>
    have hid : ¬ n ≤ id := not_le.mpr (hlt id List.mem_cons_self)
    have hlt' : ∀ g ∈ leaves, g < n := fun g hg => hlt g (List.mem_cons_of_mem _ hg)
    by_cases heq : id = i
    · subst heq
      obtain ⟨bufs', hrun, hmerged⟩ := ih hlt'
        { bufs with merged := Function.update bufs.merged id (src id) }
      refine ⟨bufs', by simpa [copyInput, List.foldlM_cons, hid] using hrun, fun g => ?_⟩
      rw [hmerged g]
      by_cases hg : g = id <;> simp [hg]
    · obtain ⟨bufs', hrun, hmerged⟩ := ih hlt' bufs
      refine ⟨bufs', by simpa [copyInput, List.foldlM_cons, hid, heq] using hrun, fun g => ?_⟩
      rw [hmerged g]
      by_cases hg : g = i
      · subst hg
        simp [Ne.symm heq]
      · simp [hg]

theorem copyInputs_eq (src : ℕ → M) (hlt : ∀ g ∈ leaves, g < n) (l : List ℕ) (bufs : TreeBuffers M) :
    ∃ bufs', l.foldlM (copyInput n leaves src) bufs = some bufs' ∧
      ∀ g, bufs'.merged g = if g ∈ l ∧ g ∈ leaves then src g else bufs.merged g := by
  induction l generalizing bufs with
  | nil => exact ⟨bufs, rfl, fun g => by simp⟩
  | cons i l ih =>
    obtain ⟨bufs₁, hrun₁, hmerged₁⟩ := copyInput_eq src hlt bufs i
    obtain ⟨bufs₂, hrun₂, hmerged₂⟩ := ih bufs₁
    refine ⟨bufs₂, by simp [List.foldlM_cons, hrun₁, hrun₂], fun g => ?_⟩
    rw [hmerged₂ g, hmerged₁ g]
    by_cases hleaf : g ∈ leaves
    · simp only [hleaf, and_true, List.mem_cons]
      by_cases hl : g ∈ l
      · rw [if_pos hl, if_pos (.inr hl)]
      · by_cases hi : g = i
        · rw [if_neg hl, if_pos hi, if_pos (.inl hi)]
        · rw [if_neg hl, if_neg hi, if_neg (not_or.mpr ⟨hi, hl⟩)]
    · simp [hleaf]

theorem lt_of_copyInput {src : ℕ → M} {bufs bufs' : TreeBuffers M} {i : ℕ}
    (h : copyInput n leaves src bufs i = some bufs') : ∀ g ∈ leaves, g < n := by
  induction leaves generalizing bufs with
  | nil => simp
  | cons id leaves ih =>
    simp only [copyInput, List.foldlM_cons, Option.bind_eq_bind, Option.bind_eq_some_iff] at h
    obtain ⟨bufs₁, h₁, h⟩ := h
    have hid : id < n := by
      by_contra hid
      simp [not_lt.mp hid] at h₁
    intro g hg
    obtain rfl | hg := List.mem_cons.mp hg
    · exact hid
    · exact ih h g hg

end Inputs

section Stored
variable {M : Type} [AddCommMonoid M] {n root : ℕ} {levels : List (List (ℕ × ℕ))}
  {topology scan : List ℕ}

theorem Stored.level_succ (h : Stored root levels topology scan) {l : ℕ} (hl : l < levels.length) :
    levelIds topology scan (l + 1) = some (expand levels[l]) := by
  rw [h.ids (l + 1) hl, ← List.take_append_getElem hl, lastLevel, List.foldl_append]
  rfl

theorem Stored.le_of_levelIds (h : Stored root levels topology scan) {l : ℕ} {ids : List ℕ}
    (hids : levelIds topology scan l = some ids) : l ≤ levels.length := by
  by_contra hl
  have hnone : scan[l + 1]? = none := List.getElem?_eq_none (by rw [h.length]; omega)
  simp [levelIds, hnone] at hids

theorem Stored.treeLevels_eq (h : Stored root levels topology scan)
    (hdepth : computeDepth n ≤ levels.length) :
    treeLevels n topology scan = levels.take (computeDepth n) := by
  refine List.ext_getElem (by simp [treeLevels, hdepth]) fun i hi _ => ?_
  have hi : i < levels.length := by
    have : i < computeDepth n := by simpa [treeLevels] using hi
    omega
  simp [treeLevels, h.level_succ hi, toPairs_expand]

theorem Stored.reduceLevels_eq (h : Stored root levels topology scan) {depth : ℕ}
    (hdepth : depth ≤ levels.length) (hlt : ∀ ps ∈ levels.take depth, ∀ g ∈ expand ps, g < n)
    (bufs : TreeBuffers M) :
    ∃ bufs', ((List.range depth).map fun i => depth - i).foldlM (reduceLevel n topology scan) bufs =
        some bufs' ∧ bufs'.merged = (levels.take depth).foldr levelSum bufs.merged := by
  induction depth generalizing bufs with
  | zero => exact ⟨bufs, rfl, rfl⟩
  | succ depth ih =>
    have htake : levels.take (depth + 1) = levels.take depth ++ [levels[depth]] :=
      (List.take_append_getElem hdepth).symm
    have hparents : levelIds topology scan (depth + 1 - 1) =
        some (levels[depth].map Prod.fst) := by
      rw [Nat.add_sub_cancel, h.ids depth (by omega), h.chained.map_fst hdepth]
    have hmem : levels[depth] ∈ levels.take (depth + 1) := by
      rw [htake]
      exact List.mem_append_right _ (List.mem_singleton_self _)
    obtain ⟨bufs₁, hrun₁, hmerged₁⟩ := reduceLevel_eq (hlt levels[depth] hmem)
      (h.level_succ hdepth) hparents bufs
    obtain ⟨bufs₂, hrun₂, hmerged₂⟩ := ih (by omega)
      (fun ps hps => hlt ps (by rw [htake]; exact List.mem_append_left _ hps)) bufs₁
    refine ⟨bufs₂, ?_, ?_⟩
    · have hlist : (List.range (depth + 1)).map (fun i => depth + 1 - i) =
          (depth + 1) :: (List.range depth).map fun i => depth - i := by
        rw [List.range_succ_eq_map, List.map_cons, List.map_map]
        simp [Function.comp_def]
      rw [hlist, List.foldlM_cons, hrun₁]
      exact hrun₂
    · rw [hmerged₂, hmerged₁, htake, List.foldr_append]
      rfl

/-- The weights of the reduction to the root of a tree. -/
def rootWeights (n root : ℕ) (levels : List (List (ℕ × ℕ))) : ℕ → ℕ :=
  weights n (fun g => if g = root then 1 else 0) levels

/-- `ReduceInner` gives the weighted sum of the inputs, or of what was there for a GPU that is
not a leaf. -/
theorem Stored.reduceInner_eq (h : Stored root levels topology scan)
    (hdepth : computeDepth n ≤ levels.length) {leaves : List ℕ}
    (hleaves : leaves = lastLevel [root] (levels.take (computeDepth n)))
    (hlt : ∀ g ∈ leaves, g < n) (src : ℕ → M) (bufs : TreeBuffers M) :
    reduceInner n topology scan src bufs =
      some (∑ g ∈ Finset.range n, rootWeights n root (levels.take (computeDepth n)) g •
        if g ∈ leaves then src g else bufs.merged g) := by
  have hchain := h.chained.take (computeDepth n)
  have hlt' : ∀ ps ∈ levels.take (computeDepth n), ∀ g ∈ expand ps, g < n :=
    fun ps hps g hg => hlt g (hleaves ▸ hchain.expand_subset hps hg)
  have hroot : root < n := hlt root (hleaves ▸ hchain.mem_lastLevel (List.mem_singleton_self root))
  obtain ⟨bufs₁, hrun₁, hmerged₁⟩ := copyInputs_eq src hlt (List.range n) bufs
  obtain ⟨bufs₂, hrun₂, hmerged₂⟩ := h.reduceLevels_eq hdepth hlt' bufs₁
  simp only [reduceInner, h.ids _ hdepth, ← hleaves, Option.bind_eq_bind, Option.bind_some, hrun₁,
    hrun₂, h.head]
  congr 1
  calc bufs₂.merged root
      = ∑ d ∈ Finset.range n, (if d = root then 1 else 0) • bufs₂.merged d := by
        simp [hroot]
    _ = ∑ g ∈ Finset.range n, rootWeights n root (levels.take (computeDepth n)) g •
          bufs₁.merged g := by
        rw [hmerged₂, sum_foldr_levelSum hlt']
        rfl
    _ = _ := by
        refine Finset.sum_congr rfl fun g hg => ?_
        rw [hmerged₁ g]
        simp [Finset.mem_range.mp hg]

/-- A reduction that gives anything has all its levels and no GPU out of range. -/
theorem Stored.fits_of_reduceInner (h : Stored root levels topology scan) (hn : 2 ≤ n)
    {src : ℕ → M} {bufs : TreeBuffers M} {sum : M}
    (hsum : reduceInner n topology scan src bufs = some sum) :
    computeDepth n ≤ levels.length ∧
      ∀ g ∈ lastLevel [root] (levels.take (computeDepth n)), g < n := by
  simp only [reduceInner, Option.bind_eq_bind, Option.bind_eq_some_iff] at hsum
  obtain ⟨leaves, hleaves, bufs₁, hcopy, -⟩ := hsum
  have hdepth := h.le_of_levelIds hleaves
  rw [h.ids _ hdepth] at hleaves
  rw [Option.some.inj hleaves]
  obtain ⟨k, rfl⟩ : ∃ k, n = k + 1 := ⟨n - 1, by omega⟩
  rw [List.range_succ_eq_map, List.foldlM_cons, Option.bind_eq_bind, Option.bind_eq_some_iff] at hcopy
  obtain ⟨bufs₂, hfirst, -⟩ := hcopy
  exact ⟨hdepth, lt_of_copyInput hfirst⟩

/-- The reduction is the sum exactly if every GPU is a leaf of weight one. -/
theorem Stored.reduceInner_sum_iff (h : Stored root levels topology scan) (hn : 2 ≤ n) :
    (∀ (M : Type) [AddCommMonoid M] (src : ℕ → M) (bufs : TreeBuffers M),
      reduceInner n topology scan src bufs = some (∑ i ∈ Finset.range n, src i)) ↔
    computeDepth n ≤ levels.length ∧
      (∀ g, g ∈ lastLevel [root] (levels.take (computeDepth n)) ↔ g < n) ∧
      ∀ g < n, rootWeights n root (levels.take (computeDepth n)) g = 1 := by
  constructor
  · intro hsum
    obtain ⟨hdepth, hlt⟩ := h.fits_of_reduceInner hn (hsum ℕ (fun _ => 0) ⟨fun _ => 0, fun _ => 0⟩)
    -- The input that is one on `g` alone shows the weight of `g`.
    have hunit : ∀ g < n, g ∈ lastLevel [root] (levels.take (computeDepth n)) ∧
        rootWeights n root (levels.take (computeDepth n)) g = 1 := by
      intro g hg
      have hone := hsum ℕ (fun i => if i = g then 1 else 0) ⟨fun _ => 0, fun _ => 0⟩
      rw [h.reduceInner_eq hdepth rfl hlt, Option.some.injEq, Finset.sum_eq_single g] at hone
      · by_cases hleaf : g ∈ lastLevel [root] (levels.take (computeDepth n))
        · exact ⟨hleaf, by simpa [hleaf, hg] using hone⟩
        · simp [hleaf, hg] at hone
      · intro i _ hi
        simp [hi]
      · exact fun hnot => absurd (Finset.mem_range.mpr hg) hnot
    exact ⟨hdepth, fun g => ⟨hlt g, fun hg => (hunit g hg).1⟩, fun g hg => (hunit g hg).2⟩
  · rintro ⟨hdepth, hleaves, hweights⟩ M _ src bufs
    rw [h.reduceInner_eq hdepth rfl (fun g => (hleaves g).mp)]
    congr 1
    refine Finset.sum_congr rfl fun g hg => ?_
    have hg := Finset.mem_range.mp hg
    rw [hweights g hg, if_pos ((hleaves g).mpr hg), one_smul]

theorem rootWeights_eq_one_iff (hchain : Chained [root] levels)
    (hleaves : ∀ g, g ∈ lastLevel [root] levels ↔ g < n) :
    (∀ g < n, rootWeights n root levels g = 1) ↔
      (∀ ps ∈ levels, ((sends ps).map Prod.fst).Nodup) ∧ ([root] ++ senders levels).Nodup := by
  have hlt : ∀ ps ∈ levels, ∀ g ∈ expand ps, g < n :=
    fun ps hps g hg => (hleaves g).mp (hchain.expand_subset hps hg)
  have hroot : root < n := (hleaves root).mp (hchain.mem_lastLevel (List.mem_singleton_self root))
  have hcount : ∀ g, [root].count g = if g = root then 1 else 0 := fun g => by
    by_cases hg : g = root
    · simp [hg]
    · simp [hg, Ne.symm hg]
  constructor
  · intro hone
    exact nodup_of_weights_le hchain hlt (fun g hg => (hone g hg).le) (by simpa using hroot)
      (fun g => (hcount g).le) (by simp)
  · rintro ⟨hreceive, hsend⟩ g hg
    obtain ⟨hle, hge⟩ := weights_le hchain hlt hreceive hsend (fun g => (hcount g).ge) (by simp)
    exact le_antisymm (hle g) (hge g ((hleaves g).mpr hg))

end Stored

section Main
variable {T σ : Type} [Add T] [Sub T] [Mul T] [IntCast T] [LT T] [DecidableLT T] [DecidableEq T]

/-- On the trees of `ComputeTreesFromRoot`, `ReduceInner` gives the sum of the inputs, whatever
the buffers held before, exactly if the tree sends once from every GPU but the root. -/
theorem reduceInner_sum_iff_sendsOnce (shuffle : σ → List ℕ → List ℕ × σ)
    (traverse : List ℕ → List ℕ) (fuel : ℕ) (W W' : ℕ → ℕ → T) (n root : ℕ) (hn : 2 ≤ n)
    (alpha : T) (backtrack : Bool) (gen : σ) (topology scan : List ℕ)
    (h : computeTreesFromRoot shuffle traverse fuel W n root alpha backtrack gen =
      some (W', topology, scan)) :
    (∀ (M : Type) [AddCommMonoid M] (src : ℕ → M) (bufs : TreeBuffers M),
      reduceInner n topology scan src bufs = some (∑ i ∈ Finset.range n, src i)) ↔
    SendsOnce n topology scan := by
  obtain ⟨r, levels, level, htree⟩ := computeTreesFromRoot_tree h
  have hstored := htree.stored.2
  have hhead : topology.take 1 = [r] := by
    rw [List.take_one, List.head?_eq_getElem?, hstored.head]
    rfl
  have hchain := hstored.chained.take (computeDepth n)
  rw [hstored.reduceInner_sum_iff hn]
  constructor
  · rintro ⟨hdepth, hleaves, hweights⟩
    obtain ⟨hreceive, hsend⟩ := (rootWeights_eq_one_iff hchain hleaves).mp hweights
    rw [← hstored.treeLevels_eq hdepth] at hreceive hsend
    exact ⟨⟨_, hstored.ids _ hdepth, hleaves⟩, hreceive, by rwa [hhead]⟩
  · rintro ⟨⟨ids, hids, hleaves⟩, hreceive, hsend⟩
    have hdepth := hstored.le_of_levelIds hids
    rw [hstored.ids _ hdepth, Option.some.injEq] at hids
    subst hids
    rw [hstored.treeLevels_eq hdepth] at hreceive hsend
    rw [hhead] at hsend
    exact ⟨hdepth, hleaves, (rootWeights_eq_one_iff hchain hleaves).mpr ⟨hreceive, hsend⟩⟩

/-- Two GPUs with a link. -/
theorem reduceInner_sum_iff_sendsOnce_two :
    SendsOnce 2 [0, 0, 1] [0, 1, 3] ∧
      ∀ (M : Type) [AddCommMonoid M] (src : ℕ → M) (bufs : TreeBuffers M),
        reduceInner 2 [0, 0, 1] [0, 1, 3] src bufs = some (∑ i ∈ Finset.range 2, src i) := by
  have htree : (computeTreesFromRoot (fun (_ : Unit) l => (l, ())) id 10
      (fun a b => if a = b then (0 : ℤ) else 1) 2 0 1 true ()).map Prod.snd =
        some ([0, 0, 1], [0, 1, 3]) := by
    decide +kernel
  obtain ⟨⟨W', topology, scan⟩, htree, heq⟩ := Option.map_eq_some_iff.mp htree
  obtain ⟨rfl, rfl⟩ : topology = [0, 0, 1] ∧ scan = [0, 1, 3] := by simpa using heq
  have hsends : SendsOnce 2 [0, 0, 1] [0, 1, 3] :=
    ⟨⟨[0, 1], by decide, fun g => by simp; omega⟩, by decide, by decide⟩
  exact ⟨hsends,
    (reduceInner_sum_iff_sendsOnce _ _ _ _ _ 2 0 le_rfl _ _ _ _ _ htree).mpr hsends⟩

/-- The links of a network of seven GPUs, with three of them behind the GPU `1`. -/
def hubLinks (a b : ℕ) : ℤ :=
  if [(0, 1), (0, 2), (1, 3), (1, 4), (1, 5), (5, 6)].contains (min a b, max a b) then 1 else 0

/-- The search gives a tree where the root receives from `2` and `3` in one level. The input of
`2` is lost and that of `3` counted four times. -/
theorem not_reduceInner_sum_hubLinks :
    (∀ a b, hubLinks a b = hubLinks b a) ∧ (∀ a b, 0 ≤ hubLinks a b) ∧
      (∀ g < 7, Relation.ReflTransGen (fun a b => hubLinks a b ≠ 0) 0 g) ∧
      ∃ W' topology scan,
        computeTreesFromRoot (fun (_ : Unit) l => (l, ())) id 600 hubLinks 7 0 1 true () =
          some (W', topology, scan) ∧
        reduceInner 7 topology scan (fun i => 10 ^ i) ⟨fun _ => 0, fun _ => 0⟩ = some 1114011 ∧
        ∑ i ∈ Finset.range 7, 10 ^ i = 1111111 := by
  have hlink : ∀ {a b : ℕ}, hubLinks a b ≠ 0 →
      Relation.ReflTransGen (fun a b => hubLinks a b ≠ 0) a b := fun h => .single h
  refine ⟨fun a b => by simp only [hubLinks, min_comm, max_comm],
    fun a b => by rw [hubLinks]; split_ifs <;> decide, fun g hg => ?_, ?_⟩
  · have h₁ := hlink (a := 0) (b := 1) (by decide)
    have h₅ := h₁.trans (hlink (b := 5) (by decide))
    interval_cases g
    · exact .refl
    · exact h₁
    · exact hlink (by decide)
    · exact h₁.trans (hlink (by decide))
    · exact h₁.trans (hlink (by decide))
    · exact h₅
    · exact h₅.trans (hlink (by decide))
  · have htree : (computeTreesFromRoot (fun (_ : Unit) l => (l, ())) id 600 hubLinks 7 0 1 true
        ()).map Prod.snd =
          some ([0, 0, 1, 0, 0, 1, 5, 0, 2, 0, 3, 1, 4, 5, 6], [0, 1, 3, 7, 15]) := by
      decide +kernel
    obtain ⟨⟨W', topology, scan⟩, htree, heq⟩ := Option.map_eq_some_iff.mp htree
    obtain ⟨rfl, rfl⟩ : topology = [0, 0, 1, 0, 0, 1, 5, 0, 2, 0, 3, 1, 4, 5, 6] ∧
        scan = [0, 1, 3, 7, 15] := by simpa using heq
    exact ⟨W', _, _, htree, by decide +kernel, by decide +kernel⟩

end Main

end CommTree
end NetStorm

import Mathlib.Algebra.BigOperators.Group.Finset.Piecewise
import Mathlib.Algebra.BigOperators.Ring.Finset
import Mathlib.Algebra.Module.BigOperators
import Mathlib.Algebra.Module.NatInt
import Mathlib.Data.List.Nodup
import NetStorm.CommTree

/-!
# How often a tree counts each GPU

A level of the tree is a list of pairs of a destination and a sender, where equal ones send
nothing. A destination with `k` senders adds the last of them `k * k` times. The sum at the
root counts every GPU with a weight, and the weights go from the root down to the leaves. They
are all one just when no level has a destination twice and no GPU sends twice.
-/
namespace NetStorm
namespace CommTree

/-- The nodes of a level. -/
def expand (ps : List (ℕ × ℕ)) : List ℕ := ps.flatMap fun p => [p.1, p.2]

/-- The pairs that copy something. -/
def sends (ps : List (ℕ × ℕ)) : List (ℕ × ℕ) := ps.filter fun p => p.1 ≠ p.2

/-- How often a GPU receives in a level. -/
def received (ps : List (ℕ × ℕ)) (d : ℕ) : ℕ := ((sends ps).map Prod.fst).count d

/-- The GPU whose copy is in the copy buffer in the end. -/
def lastFrom (ps : List (ℕ × ℕ)) (d : ℕ) : Option ℕ :=
  ((sends ps).reverse.find? fun p => p.1 = d).map Prod.snd

variable {ps : List (ℕ × ℕ)} {d f g n : ℕ}

theorem mem_expand : g ∈ expand ps ↔ ∃ p ∈ ps, g = p.1 ∨ g = p.2 := by
  simp [expand]

theorem mem_of_mem_sends {p : ℕ × ℕ} (h : p ∈ sends ps) : p ∈ ps ∧ p.1 ≠ p.2 := by
  simpa [sends] using h

theorem mem_sends_of_lastFrom (h : lastFrom ps d = some f) : (d, f) ∈ sends ps := by
  obtain ⟨p, hp, rfl⟩ := Option.map_eq_some_iff.mp h
  obtain rfl : p.1 = d := by simpa using List.find?_some hp
  exact List.mem_reverse.mp (List.mem_of_find?_eq_some hp)

theorem lastFrom_isSome (h : d ∈ (sends ps).map Prod.fst) : ∃ f, lastFrom ps d = some f := by
  obtain ⟨p, hp, rfl⟩ := List.mem_map.mp h
  have hsome : ((sends ps).reverse.find? fun q => q.1 = p.1).isSome :=
    List.find?_isSome.mpr ⟨p, List.mem_reverse.mpr hp, by simp⟩
  obtain ⟨q, hq⟩ := Option.isSome_iff_exists.mp hsome
  exact ⟨q.2, by rw [lastFrom, hq, Option.map_some]⟩

/-- Where nothing is received twice, the last sender is the only one. -/
theorem lastFrom_eq_some_iff (hnodup : ((sends ps).map Prod.fst).Nodup) :
    lastFrom ps d = some f ↔ (d, f) ∈ sends ps := by
  refine ⟨mem_sends_of_lastFrom, fun h => ?_⟩
  obtain ⟨f', hf'⟩ := lastFrom_isSome (List.mem_map.mpr ⟨(d, f), h, rfl⟩)
  have heq := List.inj_on_of_nodup_map hnodup (mem_sends_of_lastFrom hf') h rfl
  obtain rfl : f' = f := congrArg Prod.snd heq
  exact hf'

section Weights
variable {M : Type} [AddCommMonoid M]

/-- The buffers after a level. -/
def levelSum (ps : List (ℕ × ℕ)) (m : ℕ → M) (d : ℕ) : M :=
  m d + (lastFrom ps d).elim 0 fun f => (received ps d * received ps d) • m f

variable (n) in
/-- The weights of the buffers before a level, from those after it. -/
def pull (v : ℕ → ℕ) (ps : List (ℕ × ℕ)) (g : ℕ) : ℕ :=
  v g + ∑ d ∈ Finset.range n,
    if lastFrom ps d = some g then received ps d * received ps d * v d else 0

theorem sum_levelSum (hlt : ∀ g ∈ expand ps, g < n) (v : ℕ → ℕ) (m : ℕ → M) :
    ∑ d ∈ Finset.range n, v d • levelSum ps m d =
      ∑ g ∈ Finset.range n, pull n v ps g • m g := by
  simp only [levelSum, pull, smul_add, add_smul, Finset.sum_add_distrib, Finset.sum_smul]
  congr 1
  rw [Finset.sum_comm]
  refine Finset.sum_congr rfl fun d _ => ?_
  cases hlast : lastFrom ps d with
  | none => simp
  | some f =>
    have hf : f < n := hlt f (mem_expand.mpr
      ⟨(d, f), (mem_of_mem_sends (mem_sends_of_lastFrom hlast)).1, .inr rfl⟩)
    rw [Finset.sum_eq_single f]
    · rw [if_pos rfl, Option.elim_some, smul_smul, mul_comm]
    · intro g _ hg
      rw [if_neg (fun h => hg (Option.some.inj h).symm), zero_smul]
    · exact fun h => absurd (Finset.mem_range.mpr hf) h

/-- The weights at the leaves, from those at the root. -/
def weights (n : ℕ) (v : ℕ → ℕ) (levels : List (List (ℕ × ℕ))) : ℕ → ℕ :=
  levels.foldl (pull n) v

theorem sum_foldr_levelSum {levels : List (List (ℕ × ℕ))}
    (hlt : ∀ ps ∈ levels, ∀ g ∈ expand ps, g < n) (v : ℕ → ℕ) (m : ℕ → M) :
    ∑ d ∈ Finset.range n, v d • levels.foldr levelSum m d =
      ∑ g ∈ Finset.range n, weights n v levels g • m g := by
  induction levels generalizing v with
  | nil => rfl
  | cons ps levels ih =>
    rw [List.foldr_cons, sum_levelSum (hlt ps List.mem_cons_self),
      ih fun qs hqs => hlt qs (List.mem_cons_of_mem _ hqs)]
    rfl

theorem le_pull (v : ℕ → ℕ) (ps : List (ℕ × ℕ)) (g : ℕ) : v g ≤ pull n v ps g :=
  Nat.le_add_right _ _

theorem le_weights (levels : List (List (ℕ × ℕ))) (v : ℕ → ℕ) (g : ℕ) :
    v g ≤ weights n v levels g := by
  induction levels generalizing v with
  | nil => exact le_rfl
  | cons ps levels ih => exact (le_pull v ps g).trans (ih _)

/-- A sender that is added gets at least the weight of its destination. -/
theorem mul_le_pull (v : ℕ → ℕ) (hd : d < n) (h : lastFrom ps d = some g) :
    received ps d * received ps d * v d ≤ pull n v ps g := by
  have hterm := Finset.single_le_sum (f := fun d => if lastFrom ps d = some g then
    received ps d * received ps d * v d else 0) (fun _ _ => Nat.zero_le _)
    (Finset.mem_range.mpr hd)
  simp only [h, if_true] at hterm
  exact hterm.trans (Nat.le_add_left _ _)

theorem received_pos (h : lastFrom ps d = some f) : 0 < received ps d :=
  List.count_pos_iff.mpr (List.mem_map.mpr ⟨(d, f), mem_sends_of_lastFrom h, rfl⟩)

/-- Where nothing is received twice, a sender gets the weights of its destinations. -/
theorem pull_eq (hlt : ∀ g ∈ expand ps, g < n) (hnodup : ((sends ps).map Prod.fst).Nodup)
    (v : ℕ → ℕ) (g : ℕ) :
    pull n v ps g = v g + ((((sends ps).filter fun p => p.2 = g).map Prod.fst).map v).sum := by
  have hsub : (((sends ps).filter fun p => p.2 = g).map Prod.fst).Nodup :=
    hnodup.sublist (List.filter_sublist.map _)
  rw [pull, ← List.sum_toFinset v hsub]
  congr 1
  rw [← Finset.sum_filter_of_ne (p := fun d => lastFrom ps d = some g)
    (fun d _ hd => by_contra fun h => hd (if_neg h))]
  have hfilter : (Finset.range n).filter (fun d => lastFrom ps d = some g) =
      (((sends ps).filter fun p => p.2 = g).map Prod.fst).toFinset := by
    ext d
    simp only [Finset.mem_filter, Finset.mem_range, List.mem_toFinset, List.mem_map,
      List.mem_filter, lastFrom_eq_some_iff hnodup]
    constructor
    · rintro ⟨-, h⟩
      exact ⟨(d, g), ⟨h, by simp⟩, rfl⟩
    · rintro ⟨p, ⟨hp, hg⟩, rfl⟩
      obtain rfl : p.2 = g := by simpa using hg
      exact ⟨hlt p.1 (mem_expand.mpr ⟨p, (mem_of_mem_sends hp).1, .inl rfl⟩), hp⟩
  rw [← hfilter]
  refine Finset.sum_congr rfl fun d hd => ?_
  have hlast := (Finset.mem_filter.mp hd).2
  have hone : received ps d = 1 :=
    le_antisymm (List.nodup_iff_count_le_one.mp hnodup d) (received_pos hlast)
  rw [if_pos hlast, hone, one_mul, one_mul]

/-- The levels fit together: the destinations of a level are the nodes above it. -/
def Chained : List ℕ → List (List (ℕ × ℕ)) → Prop
  | _, [] => True
  | level, ps :: levels => ps.map Prod.fst = level ∧ Chained (expand ps) levels

/-- The nodes of the last level. -/
def lastLevel (level : List ℕ) (levels : List (List (ℕ × ℕ))) : List ℕ :=
  levels.foldl (fun _ ps => expand ps) level

/-- The senders of all levels. -/
def senders (levels : List (List (ℕ × ℕ))) : List ℕ :=
  levels.flatMap fun ps => (sends ps).map Prod.snd

/-- The weight of a sender below a destination that counts. -/
theorem one_le_pull (hlt : ∀ g ∈ expand ps, g < n) (hnodup : ((sends ps).map Prod.fst).Nodup)
    {v : ℕ → ℕ} (hv : ∀ g ∈ ps.map Prod.fst, 1 ≤ v g) : ∀ g ∈ expand ps, 1 ≤ pull n v ps g := by
  intro g hg
  obtain ⟨p, hp, hgp⟩ := mem_expand.mp hg
  have hdest := hv p.1 (List.mem_map_of_mem hp)
  by_cases heq : p.1 = p.2
  · obtain rfl : g = p.1 := by simpa [← heq] using hgp
    exact hdest.trans (le_pull v ps _)
  obtain rfl | rfl := hgp
  · exact hdest.trans (le_pull v ps _)
  have hsend : p ∈ sends ps := by simp [sends, hp, heq]
  have hlast := (lastFrom_eq_some_iff hnodup).mpr hsend
  have hd : p.1 < n := hlt p.1 (mem_expand.mpr ⟨p, hp, .inl rfl⟩)
  have hpos := received_pos hlast
  calc 1 ≤ received ps p.1 * received ps p.1 * v p.1 :=
        Nat.mul_pos (Nat.mul_pos hpos hpos) hdest
    _ ≤ pull n v ps p.2 := mul_le_pull v hd hlast

theorem length_filter_snd (ps : List (ℕ × ℕ)) (g : ℕ) :
    (ps.filter fun p => p.2 = g).length = (ps.map Prod.snd).count g := by
  induction ps with
  | nil => rfl
  | cons p ps ih => by_cases h : p.2 = g <;> simp [h, ih]

/-- If nothing is received or sent twice, every weight is at most one, and that of a leaf is
one. -/
theorem weights_le {levels : List (List (ℕ × ℕ))} {level used : List ℕ} {v : ℕ → ℕ}
    (hchain : Chained level levels) (hlt : ∀ ps ∈ levels, ∀ g ∈ expand ps, g < n)
    (hreceive : ∀ ps ∈ levels, ((sends ps).map Prod.fst).Nodup)
    (hsend : (used ++ senders levels).Nodup) (hle : ∀ g, v g ≤ used.count g)
    (hpos : ∀ g ∈ level, 1 ≤ v g) :
    (∀ g, weights n v levels g ≤ 1) ∧ ∀ g ∈ lastLevel level levels, 1 ≤ weights n v levels g := by
  induction levels generalizing level used v with
  | nil =>
    have hused : used.Nodup := by simpa [senders] using hsend
    exact ⟨fun g => (hle g).trans (List.nodup_iff_count_le_one.mp hused g), hpos⟩
  | cons ps levels ih =>
    obtain ⟨hdest, hchain⟩ := hchain
    have hps := hreceive ps List.mem_cons_self
    have hltps := hlt ps List.mem_cons_self
    have hused : used.Nodup := hsend.of_append_left
    have hsend' : ((used ++ (sends ps).map Prod.snd) ++ senders levels).Nodup := by
      simpa [senders, List.append_assoc] using hsend
    refine ih hchain (fun qs hqs => hlt qs (List.mem_cons_of_mem _ hqs))
      (fun qs hqs => hreceive qs (List.mem_cons_of_mem _ hqs)) hsend' (fun g => ?_)
      (one_le_pull hltps hps (hdest ▸ hpos))
    rw [pull_eq hltps hps, List.count_append, ← length_filter_snd]
    refine Nat.add_le_add (hle g) ?_
    have hone : ∀ x ∈ (((sends ps).filter fun p => p.2 = g).map Prod.fst).map v, x ≤ 1 := by
      intro x hx
      obtain ⟨d, -, rfl⟩ := List.mem_map.mp hx
      exact (hle d).trans (List.nodup_iff_count_le_one.mp hused d)
    simpa using List.sum_le_card_nsmul _ 1 hone

/-- If no weight exceeds one, nothing is received or sent twice. -/
theorem nodup_of_weights_le {levels : List (List (ℕ × ℕ))} {level used : List ℕ} {v : ℕ → ℕ}
    (hchain : Chained level levels) (hlt : ∀ ps ∈ levels, ∀ g ∈ expand ps, g < n)
    (hweights : ∀ g < n, weights n v levels g ≤ 1) (hused : ∀ g ∈ used, g < n)
    (hle : ∀ g, used.count g ≤ v g) (hpos : ∀ g ∈ level, 1 ≤ v g) :
    (∀ ps ∈ levels, ((sends ps).map Prod.fst).Nodup) ∧ (used ++ senders levels).Nodup := by
  induction levels generalizing level used v with
  | nil =>
    refine ⟨by simp, ?_⟩
    rw [senders, List.flatMap_nil, List.append_nil, List.nodup_iff_count_le_one]
    intro g
    by_cases hg : g ∈ used
    · exact (hle g).trans (hweights g (hused g hg))
    · simp [List.count_eq_zero.mpr hg]
  | cons ps levels ih =>
    obtain ⟨hdest, hchain⟩ := hchain
    have hltps := hlt ps List.mem_cons_self
    have hps : ((sends ps).map Prod.fst).Nodup := by
      rw [List.nodup_iff_count_le_one]
      intro d
      by_contra htwo
      have htwo : 2 ≤ received ps d := by
        rw [received]
        omega
      have hd : d ∈ (sends ps).map Prod.fst := List.count_pos_iff.mp (by rw [received] at htwo; omega)
      obtain ⟨f, hlast⟩ := lastFrom_isSome hd
      have hmem := (mem_of_mem_sends (mem_sends_of_lastFrom hlast)).1
      have hdn : d < n := hltps d (mem_expand.mpr ⟨(d, f), hmem, .inl rfl⟩)
      have hfn : f < n := hltps f (mem_expand.mpr ⟨(d, f), hmem, .inr rfl⟩)
      have hvd : 1 ≤ v d := hpos d (hdest ▸ List.mem_map.mpr ⟨(d, f), hmem, rfl⟩)
      have : 4 ≤ 1 := calc
        4 ≤ received ps d * received ps d * v d :=
          Nat.mul_le_mul (Nat.mul_le_mul htwo htwo) hvd
        _ ≤ pull n v ps f := mul_le_pull v hdn hlast
        _ ≤ weights n (pull n v ps) levels f := le_weights levels _ f
        _ ≤ 1 := hweights f hfn
      omega
    have hused' : ∀ g ∈ used ++ (sends ps).map Prod.snd, g < n := by
      intro g hg
      obtain hg | hg := List.mem_append.mp hg
      · exact hused g hg
      · obtain ⟨p, hp, rfl⟩ := List.mem_map.mp hg
        exact hltps p.2 (mem_expand.mpr ⟨p, (mem_of_mem_sends hp).1, .inr rfl⟩)
    have hle' : ∀ g, (used ++ (sends ps).map Prod.snd).count g ≤ pull n v ps g := by
      intro g
      rw [pull_eq hltps hps, List.count_append, ← length_filter_snd]
      refine Nat.add_le_add (hle g) ?_
      have hone : ∀ x ∈ (((sends ps).filter fun p => p.2 = g).map Prod.fst).map v, 1 ≤ x := by
        intro x hx
        obtain ⟨d, hd, rfl⟩ := List.mem_map.mp hx
        obtain ⟨p, hp, rfl⟩ := List.mem_map.mp hd
        have hmem := (mem_of_mem_sends (List.mem_filter.mp hp).1).1
        exact hpos p.1 (hdest ▸ List.mem_map_of_mem hmem)
      simpa using List.card_nsmul_le_sum _ 1 hone
    obtain ⟨hreceive, hsend⟩ := ih hchain (fun qs hqs => hlt qs (List.mem_cons_of_mem _ hqs))
      hweights hused' hle' (one_le_pull hltps hps (hdest ▸ hpos))
    refine ⟨fun qs hqs => ?_, by simpa [senders, List.append_assoc] using hsend⟩
    obtain rfl | hqs := List.mem_cons.mp hqs
    · exact hps
    · exact hreceive qs hqs

end Weights

end CommTree
end NetStorm

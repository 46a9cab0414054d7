import NetStorm.AddRoute
import NetStorm.TraceWalk
import NetStorm.Library.OptionTable
import Mathlib.Data.Set.Card

/-!
# The routes of a pair of servers

With `enable_muti_trace` the loop of `add_route` takes every trace once, the cheapest first, and
keeps it exactly if it meets no intermediate node of those it has kept.
-/
namespace NetStorm.Scheduler
open WeightedPath

/-- `find_trace` finds no path twice: the branches of the walk differ at the next node. -/
theorem findTrace_nodup (n : ℕ) (tps : ℕ → ℕ → ℚ) (start stop : ℕ) (maxTp : ℚ)
    (trace : List ℕ) : ((findTrace n tps start stop maxTp trace).map Prod.fst).Nodup :=
  (List.pairwise_map.mpr (findTrace_sorted n tps start stop maxTp trace)).imp ne_of_lt

/-- What has been chosen after a number of iterations: `done` are the traces taken so far. -/
structure Chosen (traces : List (List ℕ)) (cost : List ℕ → ℚ) (done : List (List ℕ))
    (st : PairState) : Prop where
  maxTps : st.maxTps = traces.map fun p => if p ∈ done then 1000000 else cost p
  nodup : done.Nodup
  sub : ∀ p ∈ done, p ∈ traces
  length : st.routes.length = done.length
  sublist : (st.routes.filter (· ≠ [])).Sublist done
  sorted : done.Pairwise (cost · ≤ cost ·)
  cheapest : ∀ p ∈ done, ∀ q ∈ traces, q ∉ done → cost p ≤ cost q
  midNodes : ∀ v, v ∈ st.midNodes ↔ ∃ p ∈ st.routes, v ∈ inner p
  disjoint : st.routes.Pairwise fun p q => ∀ v ∈ inner p, v ∉ inner q
  maximal : ∀ p ∈ done, p ∈ st.routes ∨
    ∃ q ∈ st.routes, cost q ≤ cost p ∧ ∃ v ∈ inner p, v ∈ inner q

theorem mem_addMidNodes {midNodes trace : List ℕ} {v : ℕ} :
    v ∈ addMidNodes midNodes trace ↔ v ∈ midNodes ∨ v ∈ inner trace := by
  unfold addMidNodes
  induction inner trace generalizing midNodes with
  | nil => simp
  | cons u l ih =>
    rw [List.foldl_cons, ih]
    split_ifs with hu
    · rw [iInTrace_eq_true] at hu
      simp only [List.mem_cons]
      constructor
      · exact fun h => h.imp_right .inr
      · rintro (h | rfl | h)
        exacts [.inl h, .inl hu, .inr h]
    · simp [or_assoc]

variable {traces done : List (List ℕ)} {cost : List ℕ → ℚ} {st st' : PairState}

theorem chosen_empty : Chosen traces cost [] ⟨traces.map cost, [], []⟩ where
  maxTps := by simp
  nodup := List.nodup_nil
  sub := by simp
  length := rfl
  sublist := by simp
  sorted := List.Pairwise.nil
  cheapest := by simp
  midNodes := by simp
  disjoint := List.Pairwise.nil
  maximal := by simp

/-- `min` finds the first of the cheapest traces that are left. -/
theorem Chosen.vanMin_eq (h : Chosen traces cost done st) (htraces : traces.Nodup)
    (hcost : ∀ p ∈ traces, cost p < 1000000) (hleft : done.length < traces.length) :
    ∃ m p, vanMin st.maxTps = (m : ℕ) ∧ traces[m]? = some p ∧ p ∉ done ∧
      st.maxTps[m]? = some (cost p) ∧ ∀ q ∈ traces, q ∉ done → cost p ≤ cost q := by
  obtain ⟨q₀, hq₀, hnew⟩ : ∃ q ∈ traces, q ∉ done := by
    by_contra hall
    push Not at hall
    exact absurd ((htraces.subperm hall).length_le) (by omega)
  have hmem : ∀ q ∈ traces, q ∉ done → cost q ∈ st.maxTps := by
    intro q hq hq'
    rw [h.maxTps]
    exact List.mem_map.mpr ⟨q, hq, if_neg hq'⟩
  obtain ⟨-, hbig⟩ | ⟨m, x, hm, hmin, hall⟩ := vanMin_spec st.maxTps
  · have h₁ := hbig _ (hmem q₀ hq₀ hnew)
    have h₂ := hcost q₀ hq₀
    linarith
  · have hlt : x < 1000000 := (hall _ (hmem q₀ hq₀ hnew)).trans_lt (hcost q₀ hq₀)
    have hx := hm
    rw [h.maxTps, List.getElem?_map, Option.map_eq_some_iff] at hx
    obtain ⟨p, hp, rfl⟩ := hx
    split_ifs at hlt with hdone
    · exact absurd hlt (lt_irrefl _)
    · rw [if_neg hdone] at hm hall
      exact ⟨m, p, hmin, hp, hdone, hm, fun q hq hq' => hall _ (hmem q hq hq')⟩

/-- The sentinel marks the trace as taken. -/
theorem Chosen.set_maxTps (h : Chosen traces cost done st) (htraces : traces.Nodup) {m : ℕ}
    {p : List ℕ} (hp : traces[m]? = some p) :
    st.maxTps.set m 1000000 =
      traces.map fun q => if q ∈ done ++ [p] then 1000000 else cost q := by
  rw [h.maxTps]
  refine List.ext_getElem? fun k => ?_
  rw [List.getElem?_set, List.getElem?_map]
  have hm := (List.getElem?_eq_some_iff.mp hp).1
  by_cases hk : m = k
  · obtain ⟨-, rfl⟩ := List.getElem?_eq_some_iff.mp hp
    simp [← hk, hm]
  · rw [if_neg hk, List.getElem?_map]
    cases hq : traces[k]? with
    | none => rfl
    | some q =>
      have hne : q ≠ p := by
        rintro rfl
        exact hk ((List.getElem?_inj hm htraces).mp (hp.trans hq.symm))
      simp [hne]

/-- A route with an intermediate node is one of the traces taken. -/
theorem Chosen.mem_done (h : Chosen traces cost done st) {q : List ℕ} (hq : q ∈ st.routes)
    {v : ℕ} (hv : v ∈ inner q) : q ∈ done := by
  refine h.sublist.subset (List.mem_filter.mpr ⟨hq, decide_eq_true ?_⟩)
  rintro rfl
  cases hv

/-- The next trace is taken: kept, or replaced by the empty entry. -/
theorem Chosen.take (h : Chosen traces cost done st) (htraces : traces.Nodup) {m : ℕ}
    {p r midNodes : List ℕ} (hp : traces[m]? = some p) (hnew : p ∉ done)
    (hleast : ∀ q ∈ traces, q ∉ done → cost p ≤ cost q)
    (hr : r = p ∧ (∀ v ∈ inner p, v ∉ st.midNodes) ∨ r = [] ∧ ∃ v ∈ inner p, v ∈ st.midNodes)
    (hmid : ∀ v, v ∈ midNodes ↔ v ∈ st.midNodes ∨ v ∈ inner r) :
    Chosen traces cost (done ++ [p])
      ⟨st.maxTps.set m 1000000, midNodes, st.routes ++ [r]⟩ := by
  have hmem := List.mem_of_getElem? hp
  refine ⟨h.set_maxTps htraces hp, ?_, ?_, ?_, ?_, ?_, ?_, ?_, ?_, ?_⟩
  · exact List.nodup_append.mpr ⟨h.nodup, List.nodup_singleton p, by grind⟩
  · exact List.forall_mem_append.mpr ⟨h.sub, by simpa using hmem⟩
  · simp [h.length]
  · rw [List.filter_append]
    refine h.sublist.append ?_
    rcases hr with ⟨rfl, -⟩ | ⟨rfl, -⟩
    · exact List.filter_sublist
    · simp
  · refine List.pairwise_append.mpr ⟨h.sorted, List.pairwise_singleton _ _, fun q hq p' hp' => ?_⟩
    rw [List.mem_singleton.mp hp']
    exact h.cheapest q hq p hmem hnew
  · intro q hq q' hq' hnew'
    rw [List.mem_append, not_or] at hnew'
    rcases List.mem_append.mp hq with hq | hq
    · exact h.cheapest q hq q' hq' hnew'.1
    · rw [List.mem_singleton.mp hq]
      exact hleast q' hq' hnew'.1
  · intro v
    rw [hmid, h.midNodes]
    constructor
    · rintro (⟨q, hq, hv⟩ | hv)
      · exact ⟨q, List.mem_append_left _ hq, hv⟩
      · exact ⟨r, by simp, hv⟩
    · rintro ⟨q, hq, hv⟩
      rcases List.mem_append.mp hq with hq | hq
      · exact .inl ⟨q, hq, hv⟩
      · rw [List.mem_singleton.mp hq] at hv
        exact .inr hv
  · refine List.pairwise_append.mpr
      ⟨h.disjoint, List.pairwise_singleton _ _, fun q hq r' hr' v hv => ?_⟩
    rw [List.mem_singleton.mp hr']
    rcases hr with ⟨rfl, hfree⟩ | ⟨rfl, -⟩
    · exact fun hv' => hfree v hv' ((h.midNodes v).mpr ⟨q, hq, hv⟩)
    · simp [inner]
  · intro q hq
    rcases List.mem_append.mp hq with hq | hq
    · refine (h.maximal q hq).imp (List.mem_append_left _) ?_
      rintro ⟨q', hq', hrest⟩
      exact ⟨q', List.mem_append_left _ hq', hrest⟩
    · rw [List.mem_singleton.mp hq]
      rcases hr with ⟨rfl, -⟩ | ⟨-, v, hv, hused⟩
      · exact .inl (by simp)
      · obtain ⟨q', hq', hv'⟩ := (h.midNodes v).mp hused
        have hdone := h.mem_done hq' hv'
        exact .inr ⟨q', List.mem_append_left _ hq', h.cheapest q' hdone p hmem hnew, v, hv, hv'⟩

/-- One iteration takes one trace. -/
theorem Chosen.step {cfg : RouteConfig} {i j k : ℕ} (hrandom : cfg.enableRandom = false)
    (h : Chosen traces cost done st) (htraces : traces.Nodup)
    (hcost : ∀ p ∈ traces, cost p < 1000000) (hleft : done.length < traces.length) :
    ∃ p st', addRouteStep cfg i j traces st k = some st' ∧
      Chosen traces cost (done ++ [p]) st' := by
  obtain ⟨m, p, hmin, hp, hnew, htps, hleast⟩ := h.vanMin_eq htraces hcost hleft
  have hne : cost p ≠ 1000000 := (hcost p (List.mem_of_getElem? hp)).ne
  have hnonneg : ¬ ((m : ℤ) < 0) := by omega
  refine ⟨p, ?_⟩
  simp only [addRouteStep, hrandom, Bool.false_eq_true, if_false, hmin, hnonneg,
    Int.toNat_natCast, htps, Option.bind_eq_bind, Option.bind_some, if_neg hne, hp]
  split_ifs with hany
  · refine ⟨_, rfl, h.take htraces hp hnew hleast (.inr ⟨rfl, ?_⟩) (by simp [inner])⟩
    simpa using hany
  · refine ⟨_, rfl, h.take htraces hp hnew hleast (.inl ⟨rfl, ?_⟩) fun v => mem_addMidNodes⟩
    simpa using hany

theorem Chosen.run {cfg : RouteConfig} {i j : ℕ} (hrandom : cfg.enableRandom = false)
    (htraces : traces.Nodup) (hcost : ∀ p ∈ traces, cost p < 1000000) (ks : List ℕ)
    (h : Chosen traces cost done st) (hleft : done.length + ks.length ≤ traces.length) :
    ∃ done' st', ks.foldlM (addRouteStep cfg i j traces) st = some st' ∧
      done'.length = done.length + ks.length ∧ Chosen traces cost done' st' := by
  induction ks generalizing done st with
  | nil => exact ⟨done, st, rfl, rfl, h⟩
  | cons k ks ih =>
    rw [List.length_cons] at hleft
    obtain ⟨p, st₁, hstep, h₁⟩ := @Chosen.step _ _ _ _ cfg i j k hrandom h htraces hcost (by omega)
    obtain ⟨done', st', hrun, hlength, h'⟩ := ih h₁ (by simp; omega)
    refine ⟨done', st', ?_, ?_, h'⟩
    · rw [List.foldlM_cons, hstep]
      exact hrun
    · rw [hlength]
      simp
      omega

/-- After as many iterations as there are traces, every trace has been taken. -/
theorem Chosen.mem_of_all (h : Chosen traces cost done st)
    (hall : done.length = traces.length) {p : List ℕ} (hp : p ∈ traces) : p ∈ done :=
  ((h.nodup.subperm h.sub).perm_of_length_le hall.ge).mem_iff.mpr hp

/-- The traces of a pair are its simple paths, each of them once. -/
theorem findTrace_start_eq {n : ℕ} {tps : ℕ → ℕ → ℚ} {i j : ℕ} (hij : i ≠ j) :
    ∃ traces : List (List ℕ), traces.Nodup ∧ (∀ p, p ∈ traces ↔ IsPath (Link n tps) i j p) ∧
      (findTrace n tps i j 0 [i]).map Prod.fst = traces ∧
      (findTrace n tps i j 0 [i]).map Prod.snd = traces.map (pathCost (linkCost tps)) := by
  refine ⟨_, findTrace_nodup n tps i j 0 [i], fun p => ?_, rfl, ?_⟩
  · rw [List.mem_map]
    constructor
    · rintro ⟨⟨p, c⟩, hpc, rfl⟩
      exact ((mem_findTrace_start hij p c).mp hpc).1
    · exact fun hp => ⟨(p, _), (mem_findTrace_start hij p _).mpr ⟨hp, rfl⟩, rfl⟩
  · rw [List.map_map]
    exact List.map_congr_left fun ⟨p, c⟩ hpc => ((mem_findTrace_start hij p c).mp hpc).2

/-- `route[i][j]` has one entry for each simple path. Its entries that are not empty are distinct
simple paths, cheapest first, the first entry being a cheapest path, and no two of them share an
intermediate node. A path that is not an entry shares one with an entry that costs no more. -/
theorem routes_disjoint_cheapest {n : ℕ} {tps : ℕ → ℕ → ℚ} {cfg : RouteConfig}
    (hrandom : cfg.enableRandom = false) (hmulti : cfg.enableMutiTrace = true) {i j : ℕ}
    (hij : i ≠ j) (hex : ∃ p, IsPath (Link n tps) i j p)
    (hlt : ∀ p, IsPath (Link n tps) i j p → pathCost (linkCost tps) p < 1000000) :
    ∃ routes, addRoutePair n tps cfg i j = some routes ∧
      (∀ route, addRoute n tps cfg = some route → i < n → j < n →
        ∃ row, route[i]? = some row ∧ row[j]? = some routes) ∧
      routes.length = {p | IsPath (Link n tps) i j p}.ncard ∧
      (∀ p ∈ routes, p ≠ [] → IsPath (Link n tps) i j p) ∧
      (routes.filter (· ≠ [])).Nodup ∧
      (routes.filter (· ≠ [])).Pairwise
        (pathCost (linkCost tps) · ≤ pathCost (linkCost tps) ·) ∧
      (∃ p, routes[0]? = some p ∧ IsPath (Link n tps) i j p ∧
        IsLeast (costs (Link n tps) (linkCost tps) i j) (pathCost (linkCost tps) p)) ∧
      (routes.filter (· ≠ [])).Pairwise (fun p q => ∀ v ∈ inner p, v ∉ inner q) ∧
      ∀ p, IsPath (Link n tps) i j p → p ∉ routes →
        ∃ q ∈ routes, IsPath (Link n tps) i j q ∧
          pathCost (linkCost tps) q ≤ pathCost (linkCost tps) p ∧ ∃ v ∈ inner p, v ∈ inner q := by
  obtain ⟨traces, htraces, hmem, hfst, hsnd⟩ := @findTrace_start_eq n tps i j hij
  obtain ⟨done, st, hrun, hlength, h⟩ := @Chosen.run traces [] (pathCost (linkCost tps)) _ cfg i j
    hrandom htraces (fun p hp => hlt p ((hmem p).mp hp)) (List.range traces.length) chosen_empty
    (by simp)
  have hall : done.length = traces.length := by simpa using hlength
  have hpair : addRoutePair n tps cfg i j = some st.routes := by
    simp [addRoutePair, hfst, hsnd, hmulti, hrun]
  have hpath : ∀ p ∈ st.routes, p ≠ [] → IsPath (Link n tps) i j p := by
    intro p hp hne
    have hdone := h.sublist.subset (List.mem_filter.mpr ⟨hp, decide_eq_true hne⟩)
    exact (hmem p).mp (h.sub p hdone)
  refine ⟨st.routes, hpair, ?_, ?_, hpath, ?_, ?_, ?_, ?_, ?_⟩
  · intro route hroute hi hj
    have hrow := (OptionTable.mapM_range_eq_some_iff.mp hroute).2 i hi
    have hlen := (OptionTable.mapM_range_eq_some_iff.mp hroute).1
    obtain ⟨row, hrow'⟩ : ∃ row, route[i]? = some row :=
      ⟨_, List.getElem?_eq_getElem (hi.trans_eq hlen.symm)⟩
    rw [hrow'] at hrow
    refine ⟨row, hrow', ?_⟩
    rw [(OptionTable.mapM_range_eq_some_iff.mp hrow.symm).2 j hj, if_neg hij, hpair]
  · have hset : {p | IsPath (Link n tps) i j p} = (traces.toFinset : Set (List ℕ)) := by
      ext p
      simp [hmem]
    rw [hset, Set.ncard_coe_finset, List.toFinset_card_of_nodup htraces, h.length, hall]
  · exact h.nodup.sublist h.sublist
  · exact h.sorted.sublist h.sublist
  · obtain ⟨routes, p, hpair', hp, hne⟩ := addRoutePair_isSome hrandom hij hex hlt
    obtain rfl := Option.some.inj (hpair.symm.trans hpair')
    exact ⟨p, hp, addRoutePair_first hrandom hij hpair hp hne⟩
  · exact h.disjoint.sublist List.filter_sublist
  · intro p hp hnot
    have hdone := h.mem_of_all hall ((hmem p).mpr hp)
    obtain ⟨q, hq, hle, v, hv, hv'⟩ := (h.maximal p hdone).resolve_left hnot
    refine ⟨q, hq, hpath q hq ?_, hle, v, hv, hv'⟩
    rintro rfl
    cases hv'

/-- Three servers joined by equal links: the entries of a pair are as many as its paths. -/
theorem routes_disjoint_cheapest_three_servers :
    ∃ routes, addRoutePair 3 (fun a b => if a = b then 0 else 1) ⟨false, true, 0⟩ 0 1 =
      some routes ∧ routes.length =
        {p | IsPath (Link 3 fun a b => if a = b then 0 else 1) 0 1 p}.ncard := by
  have hcost : ∀ a b : ℕ, linkCost (fun a b => if a = b then 0 else 1) a b ≤ 1 := by
    intro a b
    unfold linkCost
    dsimp only
    split_ifs <;> norm_num
  obtain ⟨routes, hpair, -, hlength, -⟩ := @routes_disjoint_cheapest 3
    (fun a b => if a = b then 0 else 1) ⟨false, true, 0⟩ rfl rfl 0 1 (by decide)
    ⟨[0, 1], rfl, rfl, .cons_cons (by decide) (.singleton _), by decide⟩ (by
      intro p hp
      match p, hp with
      | [], _ => norm_num
      | [a], _ => norm_num
      | [a, b], _ =>
        rw [pathCost_cons_cons, pathCost_singleton]
        linarith [hcost a b]
      | [a, b, c], _ =>
        rw [pathCost_cons_cons, pathCost_cons_cons, pathCost_singleton]
        linarith [hcost a b, hcost b c]
      | a :: b :: c :: d :: q, hp =>
        obtain rfl : a = 0 := by simpa using hp.head
        have hb := hp.chain.rel.1
        have hc := hp.chain.tail.rel.1
        have hd := hp.chain.tail.tail.rel.1
        have hn := hp.nodup
        simp only [List.nodup_cons, List.mem_cons, not_or] at hn
        omega)
  exact ⟨routes, hpair, hlength⟩

end NetStorm.Scheduler

import NetStorm.Policy
import NetStorm.Library.RootedTree

/-!
# The policy is a spanning in-tree for every root

Parents are the first hops of cheapest paths, computed for every pair on its own.
The rest of a cheapest path is a path from the hop, cheaper by one link of positive
cost, so the minimum cost to the root falls strictly along parents and no cycle
exists. Nothing is assumed about how ties are broken.
-/
namespace NetStorm.Scheduler
open WeightedPath

/-- The scheduler's link matrix. Its entries are throughputs, never negative. -/
structure LinkMatrix where
  tps : ℕ → ℕ → ℚ
  nonneg : ∀ a b, 0 ≤ tps a b

theorem LinkMatrix.linkCost_pos (links : LinkMatrix) {n a b : ℕ} (h : Link n links.tps a b) :
    0 < linkCost links.tps a b :=
  one_div_pos.mpr (lt_of_le_of_ne (links.nonneg a b) (Ne.symm h.2))

/-- Every two servers linked at throughput one. -/
def fullMesh : LinkMatrix where
  tps a b := if a = b then 0 else 1
  nonneg a b := by split_ifs <;> norm_num

theorem fullMesh_link {n a b : ℕ} (hab : a ≠ b) (hb : b < n) : Link n fullMesh.tps a b :=
  ⟨hb, by simp [fullMesh, hab]⟩

/-- What a next hop is: the second node of a cheapest path. -/
theorem nextHop_cheapest {n : ℕ} {tps : ℕ → ℕ → ℚ} {cfg : RouteConfig}
    (hr : cfg.enableRandom = false) {route : List (List (List (List ℕ)))}
    (hroute : addRoute n tps cfg = some route) {j i : ℕ} (hj : j < n) (hi : i < n) (hji : j ≠ i)
    {h : ℤ} (hh : nextHop route j i = some h) :
    ∃ (b : ℕ) (q : List ℕ), h = b ∧ b < n ∧ IsPath (Link n tps) j i (j :: b :: q) ∧
      IsLeast (costs (Link n tps) (linkCost tps) j i) (pathCost (linkCost tps) (j :: b :: q)) := by
  simp only [nextHop, hji, if_false, Option.bind_eq_bind, Option.bind_eq_some_iff,
    Option.some.injEq] at hh
  obtain ⟨row, hrow, paths, hpaths, path, hpath, b, hb, rfl⟩ := hh
  have hrow' := (OptionTable.mapM_range_eq_some_iff.mp hroute).2 j hj
  rw [hrow] at hrow'
  have hpair := (OptionTable.mapM_range_eq_some_iff.mp hrow'.symm).2 i hi
  rw [hpaths, if_neg hji] at hpair
  have hne : path ≠ [] := by
    rintro rfl
    simp at hb
  obtain ⟨hp, hleast⟩ := addRoutePair_first hr hji hpair.symm hpath hne
  obtain ⟨b', q, rfl, hlink, -⟩ := hp.exists_cons hji
  obtain rfl : b' = b := by simpa using hb
  exact ⟨b', q, rfl, hlink.1, hp, hleast⟩

/-- A next-hop table that `PolicyDecision` can work with, computed from route tables
that `add_route` filled with `enable_random` off. -/
structure CheapestHops (n : ℕ) (links : LinkMatrix) (nextHops : List (List ℤ)) : Prop where
  exists_route : ∃ (cfg : RouteConfig) (route : List (List (List (List ℕ)))),
    cfg.enableRandom = false ∧ addRoute n links.tps cfg = some route ∧
      nextHopList n route = some nextHops

namespace CheapestHops
variable {n : ℕ} {links : LinkMatrix} {nextHops : List (List ℤ)}

theorem hop_diag (H : CheapestHops n links nextHops) {i : ℕ} (hi : i < n) :
    hopAt nextHops i i = -2 := by
  obtain ⟨cfg, route, -, -, hlist⟩ := H.exists_route
  simpa [nextHop] using (hopAt_of_nextHopList hlist hi hi).symm

theorem hop_off (H : CheapestHops n links nextHops) {j i : ℕ} (hj : j < n) (hi : i < n)
    (hji : j ≠ i) :
    ∃ (b : ℕ) (q : List ℕ), hopAt nextHops j i = b ∧ b < n ∧
      IsPath (Link n links.tps) j i (j :: b :: q) ∧
      IsLeast (costs (Link n links.tps) (linkCost links.tps) j i)
        (pathCost (linkCost links.tps) (j :: b :: q)) := by
  obtain ⟨cfg, route, hr, hroute, hlist⟩ := H.exists_route
  exact nextHop_cheapest hr hroute hj hi hji (hopAt_of_nextHopList hlist hj hi)

/-- The minimum cost to the root, and its strict fall along next hops. -/
theorem exists_cost (H : CheapestHops n links nextHops) {i : ℕ} (hi : i < n) :
    ∃ cost : ℕ → ℚ,
      (∀ j < n, IsLeast (costs (Link n links.tps) (linkCost links.tps) j i) (cost j)) ∧
      ∀ j < n, j ≠ i → ∃ b < n, hopAt nextHops j i = (b : ℕ) ∧ cost b < cost j := by
  have hpos : ∀ a b, Link n links.tps a b → 0 < linkCost links.tps a b :=
    fun a b => links.linkCost_pos
  have hex : ∀ j < n, ∃ c, IsLeast (costs (Link n links.tps) (linkCost links.tps) j i) c := by
    intro j hj
    by_cases hji : j = i
    · subst hji
      exact ⟨0, costs_self_isLeast hpos j⟩
    · obtain ⟨b, q, -, -, -, hleast⟩ := H.hop_off hj hi hji
      exact ⟨_, hleast⟩
  choose! cost hcost using hex
  refine ⟨cost, hcost, fun j hj hji => ?_⟩
  obtain ⟨b, q, hb, hbn, hp, hleast⟩ := H.hop_off hj hi hji
  refine ⟨b, hbn, hb, costs_firstHop_lt hpos hp ?_ hji (hcost b hbn)⟩
  exact hleast.unique (hcost j hj)

/-- The tree of root `i`: parents are next hops. -/
theorem exists_tree (H : CheapestHops n links nextHops) (i : Fin n) :
    ∃ T : RootedTree (Fin n), T.root = i ∧
      ∀ j, j ≠ i → hopAt nextHops j i = ((T.parent j : ℕ) : ℤ) := by
  obtain ⟨cost, -, hlt⟩ := H.exists_cost i.isLt
  choose! b hbn hb hcost using hlt
  have hne : ∀ j : Fin n, j ≠ i → (j : ℕ) ≠ i := fun j h he => h (Fin.ext he)
  refine ⟨.ofRank i (fun j => if h : j = i then i else ⟨b j, hbn j j.isLt (hne j h)⟩)
    (fun j => cost j) (by simp) ?_, rfl, ?_⟩
  · intro j hj
    simpa [hj] using hcost j j.isLt (hne j hj)
  · intro j hj
    simpa [RootedTree.ofRank, hj] using hb j j.isLt (hne j hj)

end CheapestHops

/-- On strongly connected links with simple-path costs below `1000000` neither
`add_route` nor the reading of next hops leaves a vector. -/
theorem addRoute_cheapestHops {n : ℕ} (links : LinkMatrix) {cfg : RouteConfig}
    (hr : cfg.enableRandom = false)
    (hconn : ∀ i < n, ∀ j < n, Relation.ReflTransGen (Link n links.tps) i j)
    (hcost : ∀ i < n, ∀ j < n, ∀ p, IsPath (Link n links.tps) i j p →
      pathCost (linkCost links.tps) p < 1000000) :
    ∃ route nextHops, addRoute n links.tps cfg = some route ∧
      nextHopList n route = some nextHops := by
  have hpair : ∀ i < n, ∀ j < n, ∃ routes,
      (if i = j then some [] else addRoutePair n links.tps cfg i j) = some routes ∧
        (i ≠ j → ∃ p, routes[0]? = some p ∧ p ≠ []) := by
    intro i hi j hj
    by_cases hij : i = j
    · exact ⟨[], by simp [hij], fun h => absurd hij h⟩
    · obtain ⟨routes, p, h, hp, hne⟩ := addRoutePair_isSome hr hij
        (IsPath.of_reflTransGen (hconn i hi j hj)) (hcost i hi j hj)
      exact ⟨routes, by simp [hij, h], fun _ => ⟨p, hp, hne⟩⟩
  choose! routes hroutes hfirst using hpair
  have hadd : addRoute n links.tps cfg =
      some ((List.range n).map fun i => (List.range n).map (routes i)) :=
    OptionTable.mapM_range_eq_some fun i hi =>
      OptionTable.mapM_range_eq_some fun j hj => hroutes i hi j hj
  obtain ⟨nextHops, hlist⟩ : ∃ nextHops, nextHopList n
      ((List.range n).map fun i => (List.range n).map (routes i)) = some nextHops := by
    refine nextHopList_isSome fun i hi j hj => ?_
    by_cases hij : i = j
    · exact ⟨-2, by simp [nextHop, hij]⟩
    obtain ⟨p, hp, hne⟩ := hfirst i hi j hj hij
    have hsome : addRoutePair n links.tps cfg i j = some (routes i j) := by
      simpa [hij] using hroutes i hi j hj
    have hpath := (addRoutePair_first hr hij hsome hp hne).1
    obtain ⟨b, q, rfl, -, -⟩ := hpath.exists_cons hij
    exact ⟨b, by simp [nextHop, hij, List.getElem?_range hi, List.getElem?_range hj, hp]⟩
  exact ⟨_, nextHops, hadd, hlist⟩

/-- The server that root `i`'s tree gives `v` as parent. -/
def parentOf (nextHops : List (List ℤ)) (i v : ℕ) : ℕ := (hopAt nextHops v i).toNat

/-- **The policy is a spanning in-tree for every root.** From every server the next
hops lead to the root, with strictly falling minimum cost and no server met twice,
and the lists of children written by `PolicyDecision` invert the parent relation. -/
theorem policy_spanning_in_tree {n : ℕ} (links : LinkMatrix) (cfg : RouteConfig)
    (hr : cfg.enableRandom = false)
    (hconn : ∀ i < n, ∀ j < n, Relation.ReflTransGen (Link n links.tps) i j)
    (hcost : ∀ i < n, ∀ j < n, ∀ p, IsPath (Link n links.tps) i j p →
      pathCost (linkCost links.tps) p < 1000000)
    (perf : List ℚ) (hperf : perf.length = n) :
    ∃ route nextHops, addRoute n links.tps cfg = some route ∧
      policyDecision n perf route = some ((List.range n).map (policyRow n perf nextHops)) ∧
      (∀ j < n, ∀ i < n, nextHop route j i = some (hopAt nextHops j i)) ∧
      ∀ i < n, perf.getD i 0 ≠ 0 →
        (∃ cost : ℕ → ℚ,
          (∀ j < n, IsLeast (costs (Link n links.tps) (linkCost links.tps) j i) (cost j)) ∧
          ∀ j < n, ∃ k, (parentOf nextHops i)^[k] j = i ∧
            (∀ a ≤ k, (parentOf nextHops i)^[a] j < n) ∧
            ∀ a b, a < b → b ≤ k →
              cost ((parentOf nextHops i)^[b] j) < cost ((parentOf nextHops i)^[a] j) ∧
                (parentOf nextHops i)^[a] j ≠ (parentOf nextHops i)^[b] j) ∧
        (∀ j < n, ∀ k, k ∈ children n nextHops i j ↔
          k < n ∧ k ≠ i ∧ parentOf nextHops i k = j) ∧
        (∀ k < n, k ≠ i → ∃ j < n, (children n nextHops i j).count k = 1 ∧
          ∀ j' < n, j' ≠ j → k ∉ children n nextHops i j') ∧
        ∀ j < n, i ∉ children n nextHops i j := by
  obtain ⟨route, nextHops, hadd, hlist⟩ := addRoute_cheapestHops links hr hconn hcost
  have H : CheapestHops n links nextHops := ⟨cfg, route, hr, hadd, hlist⟩
  refine ⟨route, nextHops, hadd, policyDecision_eq hperf hlist,
    fun j hj i hi => hopAt_of_nextHopList hlist hj hi, fun i hi _ => ?_⟩
  have hmem : ∀ j < n, ∀ k, k ∈ children n nextHops i j ↔
      k < n ∧ k ≠ i ∧ parentOf nextHops i k = j := by
    intro j hj k
    simp only [children, List.mem_filter, List.mem_range, decide_eq_true_eq, parentOf]
    constructor
    · rintro ⟨hk, hkj⟩
      refine ⟨hk, ?_, by omega⟩
      rintro rfl
      rw [H.hop_diag hk] at hkj
      omega
    · rintro ⟨hk, hki, hkj⟩
      obtain ⟨b, -, hb, -⟩ := H.hop_off hk hi hki
      exact ⟨hk, by omega⟩
  refine ⟨?_, hmem, ?_, fun j hj hij => ((hmem j hj i).mp hij).2.1 rfl⟩
  · obtain ⟨cost, hleast, hlt⟩ := H.exists_cost hi
    refine ⟨cost, hleast, fun j hj => ?_⟩
    obtain ⟨k, hk, hin, hdec⟩ := exists_iterate_of_rank_lt (Finset.range n)
      (parentOf nextHops i) cost i (fun v hv hvi => by
        obtain ⟨b, hbn, hb, hc⟩ := hlt v (Finset.mem_range.mp hv) hvi
        simpa [parentOf, hb] using ⟨hbn, hc⟩) (Finset.mem_range.mpr hj)
    refine ⟨k, hk, fun a ha => Finset.mem_range.mp (hin a ha), fun a b hab hb => ?_⟩
    have hc := hdec a b hab hb
    exact ⟨hc, fun he => by rw [he] at hc; exact lt_irrefl _ hc⟩
  · intro k hk hki
    obtain ⟨b, -, hb, hbn, -⟩ := H.hop_off hk hi hki
    have hkb : k ∈ children n nextHops i b := (hmem b hbn k).mpr ⟨hk, hki, by simp [parentOf, hb]⟩
    refine ⟨b, hbn, ?_, fun j' hj' hne hkj => ?_⟩
    · exact List.count_eq_one_of_mem (List.nodup_range.filter _) hkb
    · have hpar := ((hmem j' hj' k).mp hkj).2.2
      rw [parentOf, hb, Int.toNat_natCast] at hpar
      exact hne hpar.symm

/-- Two servers joined both ways at throughput one meet every hypothesis. -/
theorem policy_spanning_in_tree_two_servers :
    ∃ route nextHops, addRoute 2 fullMesh.tps ⟨false, true, 0⟩ = some route ∧
      policyDecision 2 [1, 1] route = some ((List.range 2).map (policyRow 2 [1, 1] nextHops)) ∧
      ∃ k, (parentOf nextHops 0)^[k] 1 = 0 := by
  obtain ⟨route, nextHops, hadd, hpol, -, htree⟩ := policy_spanning_in_tree (n := 2) fullMesh
    ⟨false, true, 0⟩ rfl
    (by
      intro i _ j hj
      by_cases hij : i = j
      · exact hij ▸ .refl
      · exact .single (fullMesh_link hij hj))
    (by
      intro i hi j hj p hp
      match p, hp with
      | [a], _ => norm_num
      | [a, b], hp =>
        have hab : a ≠ b := by simpa using hp.nodup
        norm_num [linkCost, fullMesh, hab]
      | a :: b :: c :: q, hp =>
        obtain rfl : a = i := by simpa using hp.head
        have hb := hp.chain.rel.1
        have hc := hp.chain.tail.rel.1
        have hn := hp.nodup
        simp only [List.nodup_cons, List.mem_cons, not_or] at hn
        omega) [1, 1] rfl
  obtain ⟨⟨cost, -, hwalk⟩, -⟩ := htree 0 (by norm_num) (by norm_num)
  obtain ⟨k, hk, -⟩ := hwalk 1 (by norm_num)
  exact ⟨route, nextHops, hadd, hpol, k, hk⟩

end NetStorm.Scheduler

import NetStorm.PolicyTree

/-!
# An installed policy

What a server's tables are once a policy of `PolicyDecision` has been parsed and taken
over, seen from one root: the parent in the tree of the root, and the workers of the
children followed by the server's own worker.
-/
namespace NetStorm.Scheduler

/-- Server `v` holds the tables it parsed out of its row of the policy. -/
def Installed (n : ℕ) (perf : List ℚ) (route : List (List (List (List ℕ)))) (v : ℕ)
    (parents : List ℤ) (sons : List (List ℤ)) : Prop :=
  ∃ policy vec, policyDecision n perf route = some policy ∧ policy[v]? = some vec ∧
    parsePolicy n (serverRankToID v) vec = some ⟨perf, parents, sons⟩

/-- The children of `v` in increasing order. -/
def childList {n : ℕ} (T : RootedTree (Fin n)) (v : Fin n) : List (Fin n) :=
  (List.finRange n).filter fun k => k ∈ T.children v

theorem childList_nodup {n : ℕ} (T : RootedTree (Fin n)) (v : Fin n) : (childList T v).Nodup :=
  (List.nodup_finRange n).filter _

@[simp] theorem mem_childList {n : ℕ} {T : RootedTree (Fin n)} {v k : Fin n} :
    k ∈ childList T v ↔ k ∈ T.children v := by
  simp [childList]

theorem childList_toFinset {n : ℕ} (T : RootedTree (Fin n)) (v : Fin n) :
    (childList T v).toFinset = T.children v := by
  ext k
  simp

theorem sum_childList {n : ℕ} {M : Type*} [AddCommMonoid M] (T : RootedTree (Fin n)) (v : Fin n)
    (f : Fin n → M) : ((childList T v).map f).sum = ∑ k ∈ T.children v, f k := by
  rw [← childList_toFinset, List.sum_toFinset f (childList_nodup T v)]

theorem length_childList {n : ℕ} (T : RootedTree (Fin n)) (v : Fin n) :
    (childList T v).length = (T.children v).card := by
  rw [← childList_toFinset, List.toFinset_card_of_nodup (childList_nodup T v)]

/-- The tables of a server, seen from the root of the tree. -/
structure SeesTree {n : ℕ} (T : RootedTree (Fin n)) (v : Fin n) (parents : List ℤ)
    (sons : List (List ℤ)) : Prop where
  parent : parents[(T.root : ℕ)]? = some (serverRankToID (T.parent v))
  sons : sons[(T.root : ℕ)]? =
    some ((childList T v).map (fun k : Fin n => workerRankToID k) ++ [workerRankToID v])

/-- The tree of a root is the same at every server that installed the policy. -/
theorem CheapestHops.exists_sees {n : ℕ} {links : LinkMatrix} {cfg : RouteConfig}
    (hr : cfg.enableRandom = false) {route : List (List (List (List ℕ)))}
    (hroute : addRoute n links.tps cfg = some route) {perf : List ℚ} (hperf : perf.length = n)
    (i : Fin n) (hi : perf.getD i 0 ≠ 0) :
    ∃ T : RootedTree (Fin n), T.root = i ∧ ∀ (v : Fin n) (parents : List ℤ)
      (sons : List (List ℤ)), Installed n perf route v parents sons → SeesTree T v parents sons := by
  by_cases hlist : ∃ nextHops, nextHopList n route = some nextHops
  swap
  · refine ⟨⟨i, fun _ => i, rfl, fun _ => ⟨1, rfl⟩⟩, rfl, fun v parents sons h => ?_⟩
    obtain ⟨policy, vec, hpol, -⟩ := h
    simp only [policyDecision, Option.bind_eq_bind, Option.bind_eq_some_iff] at hpol
    exact absurd ⟨_, hpol.choose_spec.1⟩ hlist
  obtain ⟨nextHops, hlist⟩ := hlist
  have H : CheapestHops n links nextHops := ⟨cfg, route, hr, hroute, hlist⟩
  obtain ⟨T, rfl, hT⟩ := H.exists_tree i
  refine ⟨T, rfl, fun v parents sons h => ?_⟩
  obtain ⟨policy, vec, hpol, hvec, hparse⟩ := h
  rw [policyDecision_eq hperf hlist, Option.some.injEq] at hpol
  obtain rfl : vec = policyRow n perf nextHops v := by
    simpa [← hpol, List.getElem?_range v.isLt] using hvec.symm
  rw [parsePolicy_policyRow hperf nextHops v, Option.some.injEq, Release.mk.injEq] at hparse
  obtain ⟨-, rfl, rfl⟩ := hparse
  have hlt : (T.root : ℕ) < perf.length := hperf ▸ T.root.isLt
  have hdiag : hopAt nextHops T.root T.root = -2 := H.hop_diag T.root.isLt
  constructor
  · rw [getD_zipIdx_map perf (fun p i => (expectedGroup n nextHops v p i).1) hlt]
    simp only [expectedGroup, hi, ne_eq, not_false_eq_true, if_true, Option.some.injEq]
    by_cases hv : v = T.root
    · subst hv
      simp [hdiag, T.parent_root]
    · rw [hT v hv, if_neg (by omega)]
      simp [serverRankToID]
  · rw [getD_zipIdx_map perf
      (fun p i => (expectedGroup n nextHops v p i).2 ++ [workerRankToID v]) hlt]
    have hchildren : Scheduler.children n nextHops T.root v = (childList T v).map Fin.val := by
      rw [Scheduler.children, childList, ← List.map_coe_finRange_eq_range, List.filter_map]
      congr 1
      refine List.filter_congr fun k _ => ?_
      by_cases hk : k = T.root
      · subst hk
        simp [hdiag, show (-2 : ℤ) ≠ v by omega]
      · simp [hk, hT k hk, Fin.ext_iff]
    simp only [expectedGroup, hi, ne_eq, not_false_eq_true, if_true, hchildren, List.map_map]
    rfl

/-- The tables that server `r` parses out of a policy. -/
def release (n : ℕ) (perf : List ℚ) (route : List (List (List (List ℕ)))) (r : ℕ) :
    Option Release := do
  let policy ← policyDecision n perf route
  let vec ← policy[r]?
  parsePolicy n (serverRankToID r) vec

end NetStorm.Scheduler

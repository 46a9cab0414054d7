import NetStorm.AddRoute
import NetStorm.Library.OptionTable
import NetStorm.Node
import Mathlib.Data.List.GetD

/-!
# The aggregation policy on the wire

`PolicyDecision` turns the first hops of the route tables into one flat vector per
server: the performances of all servers, then for every root with non-zero
performance the server's parent, its children and the end mark `-1`. A server
parses the vector in the `iters != 0` branch of `ProcessRouteReleaseCommand`. The
indices `i` and `j` of the parsing loop are the suffixes of `perf` and `route`
still to be read; reading past a vector is `none`.
-/
namespace NetStorm.Scheduler

/-- The entry `next_hop_list[i][j]`: `-2` on the diagonal, else `route[i][j][0][1]`. -/
def nextHop (route : List (List (List (List ℕ)))) (i j : ℕ) : Option ℤ :=
  if i = j then some (-2)
  else do
    let row ← route[i]?
    let paths ← row[j]?
    let path ← paths[0]?
    let hop : ℕ ← path[1]?
    some (hop : ℤ)

def nextHopList (n : ℕ) (route : List (List (List (List ℕ)))) : Option (List (List ℤ)) :=
  (List.range n).mapM fun i => (List.range n).mapM fun j => nextHop route i j

/-- The read `next_hop_list[i][j]`, which the writer only makes inside the table. -/
def hopAt (nextHops : List (List ℤ)) (i j : ℕ) : ℤ := (nextHops.getD i []).getD j 0

/-- The children of `j` in the tree of root `i`, in increasing order. -/
def children (n : ℕ) (nextHops : List (List ℤ)) (i j : ℕ) : List ℕ :=
  (List.range n).filter fun k => hopAt nextHops k i = j

/-- What the writer appends to `policy[j]` for root `i`. -/
def policyGroup (n : ℕ) (nextHops : List (List ℤ)) (i j : ℕ) : List ℚ :=
  (hopAt nextHops j i : ℚ) :: (children n nextHops i j).map (Nat.cast : ℕ → ℚ) ++ [-1]

/-- The groups of all roots with non-zero performance among the given ones. -/
def policyGroups (n : ℕ) (nextHops : List (List ℤ)) (j : ℕ) (roots : List (ℚ × ℕ)) : List ℚ :=
  roots.flatMap fun (p, i) => if p ≠ 0 then policyGroup n nextHops i j else []

/-- The vector `policy[j]`. -/
def policyRow (n : ℕ) (perf : List ℚ) (nextHops : List (List ℤ)) (j : ℕ) : List ℚ :=
  perf ++ policyGroups n nextHops j perf.zipIdx

/-- `Van::PolicyDecision`. A root past the table would be read outside it. -/
def policyDecision (n : ℕ) (perf : List ℚ) (route : List (List (List (List ℕ)))) :
    Option (List (List ℚ)) := do
  let nextHops ← nextHopList n route
  if n < perf.length then none
  some ((List.range n).map (policyRow n perf nextHops))

/-- What a server keeps of a policy release: `perf`, `parents_temp` and `sons_temp`. -/
structure Release where
  perf : List ℚ
  parentsTemp : List ℤ
  sonsTemp : List (List ℤ)
  deriving DecidableEq

/-- The inner parsing loop: the children up to the end mark, and what is left. -/
def readSons : List ℚ → Option (List ℤ × List ℚ)
  | [] => none
  | x :: rest =>
    if x = -1 then some ([], rest)
    else do
      let (sons, rest) ← readSons rest
      some ((truncInt x * 2 + 9) :: sons, rest)

/-- The outer parsing loop, from root `i` (the head of `perf`) and position `j` on:
one parent and one list of children per root passed. -/
def readGroups (myId : ℤ) : List ℚ → List ℚ → Option (List (ℤ × List ℤ))
  | _, [] => some []
  | [], _ :: _ => none
  | p :: perf, x :: rest =>
    if p ≠ 0 then do
      let (sons, rest) ← readSons rest
      let groups ← readGroups myId perf rest
      some ((if x = -2 then myId else truncInt x * 2 + 8, sons) :: groups)
    else do
      let groups ← readGroups myId perf (x :: rest)
      some ((-1, []) :: groups)

/-- The parsing part of `Van::ProcessRouteReleaseCommand` at a server, for a release
with `iters != 0` and a non-empty vector. -/
def parsePolicy (n : ℕ) (myId : ℤ) (route : List ℚ) : Option Release := do
  if route.length < n then none
  let perf := route.take n
  let groups ← readGroups myId perf (route.drop n)
  let groups := groups ++ List.replicate (n - groups.length) (-1, [])
  some ⟨perf, groups.map Prod.fst, groups.map fun g => g.2 ++ [myId + 1]⟩

theorem readSons_append (ks : List ℕ) (rest : List ℚ) :
    readSons (ks.map (Nat.cast : ℕ → ℚ) ++ -1 :: rest) = some (ks.map workerRankToID, rest) := by
  induction ks with
  | nil => simp [readSons]
  | cons k ks ih =>
    have hk : (k : ℚ) ≠ -1 := by
      have : (0 : ℚ) ≤ k := Nat.cast_nonneg k
      linarith
    simp [readSons, hk, ih, workerRankToID]

/-- The parent and children a server should read for root `i`. -/
def expectedGroup (n : ℕ) (nextHops : List (List ℤ)) (j : ℕ) (p : ℚ) (i : ℕ) : ℤ × List ℤ :=
  if p ≠ 0 then
    (if hopAt nextHops j i = -2 then serverRankToID j else hopAt nextHops j i * 2 + 8,
      (children n nextHops i j).map workerRankToID)
  else (-1, [])

/-- A root with non-zero performance is read back with its group consumed. -/
theorem readGroups_group (n : ℕ) (nextHops : List (List ℤ)) (i j : ℕ) {p : ℚ} (hp : p ≠ 0)
    (perf rest : List ℚ) :
    readGroups (serverRankToID j) (p :: perf) (policyGroup n nextHops i j ++ rest) =
      (readGroups (serverRankToID j) perf rest).map (expectedGroup n nextHops j p i :: ·) := by
  have hx : (hopAt nextHops j i : ℚ) = -2 ↔ hopAt nextHops j i = -2 := by exact_mod_cast Iff.rfl
  simp only [policyGroup, List.cons_append, List.append_assoc, List.nil_append, readGroups,
    if_pos hp, readSons_append, Option.bind_eq_bind, Option.bind_some, expectedGroup,
    truncInt_intCast, hx]
  cases readGroups (serverRankToID j) perf rest <;> rfl

/-- Reader and writer stay aligned from every root `m` on. The reader stops after the
last non-zero root, and the padding supplies the zero roots behind it. -/
theorem readGroups_zipIdx (n : ℕ) (nextHops : List (List ℤ)) (j : ℕ) (perf : List ℚ) (m : ℕ) :
    ∃ g, readGroups (serverRankToID j) perf (policyGroups n nextHops j (perf.zipIdx m)) = some g ∧
      g ++ List.replicate (perf.length - g.length) (-1, []) =
        (perf.zipIdx m).map fun e => expectedGroup n nextHops j e.1 e.2 := by
  induction perf generalizing m with
  | nil => exact ⟨[], by simp [readGroups, policyGroups]⟩
  | cons p perf ih =>
    obtain ⟨g, hg, hpad⟩ := ih (m + 1)
    rw [List.zipIdx_cons, List.map_cons]
    by_cases hp : p ≠ 0
    · have hrow : policyGroups n nextHops j ((p, m) :: perf.zipIdx (m + 1)) =
          policyGroup n nextHops m j ++ policyGroups n nextHops j (perf.zipIdx (m + 1)) := by
        simp [policyGroups, hp]
      refine ⟨expectedGroup n nextHops j p m :: g, ?_, by simp [hpad]⟩
      rw [hrow, readGroups_group n nextHops m j hp, hg, Option.map_some]
    · have hzero : expectedGroup n nextHops j p m = (-1, []) := by simp [expectedGroup, hp]
      have hrow : policyGroups n nextHops j ((p, m) :: perf.zipIdx (m + 1)) =
          policyGroups n nextHops j (perf.zipIdx (m + 1)) := by
        simp [policyGroups, not_not.mp hp]
      rw [hrow, hzero]
      -- Behind the last non-zero root nothing is left to read and the loop has ended.
      cases hrest : policyGroups n nextHops j (perf.zipIdx (m + 1)) with
      | nil =>
        rw [hrest] at hg
        obtain rfl : g = [] := by simpa [readGroups] using hg.symm
        refine ⟨[], by simp [readGroups], ?_⟩
        simp only [List.length_nil, Nat.sub_zero, List.nil_append] at hpad
        simp [List.replicate_succ, hpad]
      | cons x rest =>
        rw [hrest] at hg
        exact ⟨(-1, []) :: g, by simp [readGroups, not_not.mp hp, hg], by simp [hpad]⟩

/-- What a server reads out of the vector written for it. -/
theorem parsePolicy_policyRow {n : ℕ} {perf : List ℚ} (hperf : perf.length = n)
    (nextHops : List (List ℤ)) (j : ℕ) :
    parsePolicy n (serverRankToID j) (policyRow n perf nextHops j) = some
      ⟨perf, perf.zipIdx.map fun e => (expectedGroup n nextHops j e.1 e.2).1,
        perf.zipIdx.map fun e => (expectedGroup n nextHops j e.1 e.2).2 ++ [workerRankToID j]⟩ := by
  obtain ⟨g, hg, hpad⟩ := readGroups_zipIdx n nextHops j perf 0
  rw [hperf] at hpad
  have hlen : ¬ (policyRow n perf nextHops j).length < n := by
    simp only [policyRow, List.length_append, hperf]
    omega
  have htake : (policyRow n perf nextHops j).take n = perf := by
    rw [policyRow, ← hperf, List.take_left]
  have hdrop : (policyRow n perf nextHops j).drop n = policyGroups n nextHops j perf.zipIdx := by
    rw [policyRow, ← hperf, List.drop_left]
  simp only [parsePolicy, hlen, if_false, htake, hdrop, hg, hpad, Option.bind_eq_bind,
    Option.bind_some, List.map_map, serverRankToID_add_one]
  rfl

/-- The table of next hops holds what the route tables give, entry by entry. -/
theorem hopAt_of_nextHopList {n : ℕ} {route : List (List (List (List ℕ)))}
    {nextHops : List (List ℤ)} (h : nextHopList n route = some nextHops) {i j : ℕ}
    (hi : i < n) (hj : j < n) : nextHop route i j = some (hopAt nextHops i j) := by
  obtain ⟨-, hrow⟩ := OptionTable.mapM_range_eq_some_iff.mp h
  have hi' := hrow i hi
  obtain ⟨row, hr⟩ : ∃ row, nextHops[i]? = some row :=
    ⟨_, List.getElem?_eq_getElem (by
      rw [(OptionTable.mapM_range_eq_some_iff.mp h).1]; exact hi)⟩
  rw [hr] at hi'
  obtain ⟨hlen, hentry⟩ := OptionTable.mapM_range_eq_some_iff.mp hi'.symm
  rw [← hentry j hj]
  simp only [hopAt, List.getD_eq_getElem?_getD, hr, Option.getD_some]
  rw [List.getElem?_eq_getElem (by omega)]
  rfl

theorem nextHopList_isSome {n : ℕ} {route : List (List (List (List ℕ)))}
    (h : ∀ i < n, ∀ j < n, ∃ k, nextHop route i j = some k) :
    ∃ nextHops, nextHopList n route = some nextHops := by
  choose! g hg using h
  refine ⟨_, OptionTable.mapM_range_eq_some (g := fun i => (List.range n).map (g i)) ?_⟩
  intro i hi
  exact OptionTable.mapM_range_eq_some (fun j hj => hg i hi j hj)

theorem policyDecision_eq {n : ℕ} {perf : List ℚ} (hperf : perf.length = n)
    {route : List (List (List (List ℕ)))} {nextHops : List (List ℤ)}
    (h : nextHopList n route = some nextHops) :
    policyDecision n perf route = some ((List.range n).map (policyRow n perf nextHops)) := by
  simp [policyDecision, h, hperf]

theorem getD_zipIdx_map {β : Type*} (perf : List ℚ) (f : ℚ → ℕ → β) {i : ℕ}
    (hi : i < perf.length) :
    (perf.zipIdx.map fun e => f e.1 e.2)[i]? = some (f (perf.getD i 0) i) := by
  simp [List.getElem?_eq_getElem hi]

/-- **Policy release round trip.** For every table of next hops the vector that
`PolicyDecision` builds for server `j` is parsed by server `j` without leaving the
vector, and the parsed parents, sons and performances are those of the table. -/
theorem policy_release_round_trip {n : ℕ} {perf : List ℚ} (hperf : perf.length = n)
    {route : List (List (List (List ℕ)))} {nexthop : ℕ → ℕ → ℕ}
    (hhop : ∀ i < n, ∀ j < n, i ≠ j →
      nextHop route i j = some (nexthop i j : ℤ) ∧ nexthop i j < n)
    {j : ℕ} (hj : j < n) :
    ∃ policy vec r, policyDecision n perf route = some policy ∧ policy[j]? = some vec ∧
      parsePolicy n (serverRankToID j) vec = some r ∧ r.perf = perf ∧
      r.parentsTemp.length = n ∧ r.sonsTemp.length = n ∧
      ∀ i < n,
        r.parentsTemp[i]? = some (if perf.getD i 0 = 0 then -1
          else if i = j then serverRankToID j else 2 * (nexthop j i : ℤ) + 8) ∧
        r.sonsTemp[i]? = some ((if perf.getD i 0 = 0 then []
          else ((List.range n).filter fun k => k ≠ i ∧ nexthop k i = j).map
            fun k : ℕ => 2 * (k : ℤ) + 9) ++ [serverRankToID j + 1]) := by
  obtain ⟨nextHops, hlist⟩ : ∃ nextHops, nextHopList n route = some nextHops := by
    refine nextHopList_isSome fun i hi j hj => ?_
    by_cases hij : i = j
    · exact ⟨-2, by simp [nextHop, hij]⟩
    · exact ⟨_, (hhop i hi j hj hij).1⟩
  have hdiag : ∀ i < n, hopAt nextHops i i = -2 := fun i hi => by
    simpa [nextHop] using (hopAt_of_nextHopList hlist hi hi).symm
  have hoff : ∀ i < n, ∀ j < n, i ≠ j → hopAt nextHops i j = nexthop i j := fun i hi j hj hij => by
    have := (hopAt_of_nextHopList hlist hi hj).symm.trans (hhop i hi j hj hij).1
    simpa using this
  have hchildren : ∀ i < n, children n nextHops i j =
      (List.range n).filter fun k => k ≠ i ∧ nexthop k i = j := by
    intro i hi
    refine List.filter_congr fun k hk => ?_
    have hk' := List.mem_range.mp hk
    by_cases hki : k = i
    · subst hki
      simp [hdiag k hk', show (-2 : ℤ) ≠ j by omega]
    · simp [hoff k hk' i hi hki, hki]
  refine ⟨_, _, _, policyDecision_eq hperf hlist, ?_, parsePolicy_policyRow hperf nextHops j,
    rfl, by simp [hperf], by simp [hperf], fun i hi => ?_⟩
  · simp [List.getElem?_range hj]
  have hi' : i < perf.length := by omega
  constructor
  · rw [getD_zipIdx_map perf (fun p i => (expectedGroup n nextHops j p i).1) hi']
    congr 1
    generalize perf.getD i 0 = p
    by_cases hp : p = 0
    · simp [expectedGroup, hp]
    by_cases hij : i = j
    · subst hij
      simp [expectedGroup, hp, hdiag i hi]
    · simp only [expectedGroup, hp, hij, ne_eq, not_false_eq_true, if_true, if_false,
        hoff j hj i hi (Ne.symm hij)]
      rw [if_neg (by omega)]
      omega
  · rw [getD_zipIdx_map perf
      (fun p i => (expectedGroup n nextHops j p i).2 ++ [workerRankToID j]) hi']
    congr 1
    generalize perf.getD i 0 = p
    by_cases hp : p = 0
    · simp [expectedGroup, hp, serverRankToID_add_one]
    · simp only [expectedGroup, hp, ne_eq, not_false_eq_true, if_true, if_false, hchildren i hi,
        serverRankToID_add_one]
      congr 1
      refine List.map_congr_left fun k _ => ?_
      simp only [workerRankToID]
      omega

/-- Server 1 of two reads back its tables when only server 0 is a root. -/
theorem policy_release_round_trip_two_servers :
    ∃ policy vec r, policyDecision 2 [3, 0] [[[], [[0, 1]]], [[[1, 0]], []]] = some policy ∧
      policy[1]? = some vec ∧ parsePolicy 2 10 vec = some r ∧ r.perf = [3, 0] ∧
      r.parentsTemp[0]? = some 8 ∧ r.sonsTemp[0]? = some [11] := by
  obtain ⟨policy, vec, r, hpol, hvec, hparse, hperf, -, -, hroot⟩ :=
    @policy_release_round_trip 2 [3, 0] rfl [[[], [[0, 1]]], [[[1, 0]], []]] (fun _ j => j)
      (by decide) 1 (by decide)
  obtain ⟨hparent, hsons⟩ := hroot 0 (by decide)
  exact ⟨policy, vec, r, hpol, hvec, hparse, hperf, by rw [hparent]; rfl, by rw [hsons]; rfl⟩

end NetStorm.Scheduler

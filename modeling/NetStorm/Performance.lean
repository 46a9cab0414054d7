import NetStorm.AddRoute
import Mathlib.Data.List.Perm.Subperm

/-!
# The performance of the servers

`compute_performance` of van.cc gives every server the inverse of a transmission time: the nodes
at equal distance from it on its first routes work at the same time, so each distance counts with
its slowest link. Then all but the `num_enable_server` best servers get the performance zero. An
access outside a vector is `none`.
-/
namespace NetStorm.Scheduler

/-- `Meta::kEmpty`, which marks a server as dropped. -/
def kEmpty : ℚ := 2147483647

/-- The links of a path go to their level of `tp`, if `log` does not have them. -/
def addLevels (tps : ℕ → ℕ → ℚ) (st : List (List ℚ) × List (ℕ × ℕ)) (path : List ℕ) :
    List (List ℚ) × List (ℕ × ℕ) :=
  let tp := st.1 ++ List.replicate (path.length - st.1.length) []
  (path.zip path.tail).zipIdx.foldl
    (fun st (link, k) =>
      if st.2.contains link then st
      else (st.1.modify k (· ++ [tps link.1 link.2]), st.2 ++ [link]))
    (tp, st.2)

/-- `1 / perf[i]` before the selection: the slowest link of every level. -/
def levelTimes (tp : List (List ℚ)) : Option ℚ :=
  tp.foldlM (fun sum level =>
    if level = [] then some sum
    else do
      let minIndex := vanMin level
      if minIndex < 0 then none
      else return sum + 1 / (← level[minIndex.toNat]?)) 0

/-- The performance of server `i`, from the first routes to the other servers. -/
def serverPerformance (n : ℕ) (tps : ℕ → ℕ → ℚ) (route : List (List (List (List ℕ)))) (i : ℕ) :
    Option ℚ := do
  let (tp, _) ← (List.range n).foldlM (fun st j =>
    if i = j then some st
    else do
      let path ← (← (← route[i]?)[j]?)[0]?
      if path = [] then none else some (addLevels tps st path)) ([], [])
  return 1 / (← levelTimes tp)

/-- Mark the worst server that is left. -/
def dropWorst (perf : List ℚ) : Option (List ℚ) :=
  let minIndex := vanMin perf
  if minIndex < 0 then none else some (perf.set minIndex.toNat kEmpty)

/-- The selection loops of `compute_performance`. -/
def selectServers (n numEnableServer : ℕ) (perf : List ℚ) : Option (List ℚ) := do
  let perf ← (List.range (n - numEnableServer)).foldlM (fun perf _ => dropWorst perf) perf
  return perf.map fun x => if x = kEmpty then 0 else x

/-- `Van::compute_performance`. -/
def computePerformance (n numEnableServer : ℕ) (tps : ℕ → ℕ → ℚ)
    (route : List (List (List (List ℕ)))) : Option (List ℚ) := do
  selectServers n numEnableServer (← (List.range n).mapM (serverPerformance n tps route))

/-- The performances `f` with the dropped servers marked. -/
def marked (n : ℕ) (f : ℕ → ℚ) (dropped : List ℕ) : List ℚ :=
  (List.range n).map fun i => if i ∈ dropped then kEmpty else f i

/-- The servers that were dropped are the worst ones. -/
structure Dropped (n : ℕ) (f : ℕ → ℚ) (dropped : List ℕ) : Prop where
  nodup : dropped.Nodup
  lt : ∀ i ∈ dropped, i < n
  worst : ∀ i ∈ dropped, ∀ j < n, j ∉ dropped → f i ≤ f j

variable {n : ℕ} {f : ℕ → ℚ} {dropped : List ℕ}

theorem marked_set {k : ℕ} :
    (marked n f dropped).set k kEmpty = marked n f (dropped ++ [k]) := by
  refine List.ext_getElem (by simp [marked]) fun i hi hi' => ?_
  by_cases hik : k = i
  · simp [marked, hik]
  · simp [marked, hik, Ne.symm hik]

/-- While a server is left, the loop finds the worst one of those left. -/
theorem Dropped.dropWorst (h : Dropped n f dropped) (hf : ∀ i < n, f i < 100000000)
    (hleft : dropped.length < n) :
    ∃ k, Scheduler.dropWorst (marked n f dropped) = some (marked n f (dropped ++ [k])) ∧
      Dropped n f (dropped ++ [k]) := by
  obtain ⟨i, hi, hnot⟩ : ∃ i < n, i ∉ dropped := by
    by_contra hall
    push Not at hall
    have hsub : List.range n ⊆ dropped := fun i hi => hall i (List.mem_range.mp hi)
    have hle := (List.nodup_range.subperm hsub).length_le
    rw [List.length_range] at hle
    omega
  have hmem : ∀ j < n, j ∉ dropped → f j ∈ marked n f dropped := fun j hj hj' =>
    List.mem_map.mpr ⟨j, List.mem_range.mpr hj, if_neg hj'⟩
  obtain ⟨-, hbig⟩ | ⟨k, x, hk, hmin, hall⟩ := vanMin_spec (marked n f dropped)
  · have h₁ := hbig _ (hmem i hi hnot)
    have h₂ := hf i hi
    linarith
  · have hx : x < 100000000 := (hall _ (hmem i hi hnot)).trans_lt (hf i hi)
    have hlt : k < n := by
      have := (List.getElem?_eq_some_iff.mp hk).1
      simpa [marked] using this
    have hvalue : (if k ∈ dropped then kEmpty else f k) = x := by
      simpa [marked, hlt] using hk
    have hnew : k ∉ dropped := by
      intro hmem'
      rw [if_pos hmem', kEmpty] at hvalue
      linarith
    rw [if_neg hnew] at hvalue
    refine ⟨k, ?_, ?_, ?_, ?_⟩
    · have hnonneg : ¬ ((k : ℤ) < 0) := by omega
      simp only [Scheduler.dropWorst, hmin, if_neg hnonneg, Int.toNat_natCast, Option.some.injEq]
      exact marked_set
    · exact List.nodup_append.mpr ⟨h.nodup, List.nodup_singleton k, by grind⟩
    · exact List.forall_mem_append.mpr ⟨h.lt, by simpa using hlt⟩
    · intro a ha b hb hb'
      rw [List.mem_append, not_or] at hb'
      rcases List.mem_append.mp ha with ha | ha
      · exact h.worst a ha b hb hb'.1
      · rw [List.mem_singleton.mp ha, hvalue]
        exact hall _ (hmem b hb hb'.1)

theorem Dropped.run (hf : ∀ i < n, f i < 100000000) (ks : List ℕ) (h : Dropped n f dropped)
    (hleft : dropped.length + ks.length ≤ n) :
    ∃ dropped', ks.foldlM (fun perf _ => Scheduler.dropWorst perf) (marked n f dropped) =
        some (marked n f dropped') ∧
      dropped'.length = dropped.length + ks.length ∧ Dropped n f dropped' := by
  induction ks generalizing dropped with
  | nil => exact ⟨dropped, rfl, rfl, h⟩
  | cons k ks ih =>
    rw [List.length_cons] at hleft
    obtain ⟨i, hstep, h₁⟩ := h.dropWorst hf (by omega)
    obtain ⟨dropped', hrun, hlength, h'⟩ := ih h₁ (by simp; omega)
    refine ⟨dropped', ?_, ?_, h'⟩
    · rw [List.foldlM_cons, hstep]
      exact hrun
    · rw [hlength]
      simp
      omega

/-- As many servers are left as were not dropped. -/
theorem Dropped.countP (h : Dropped n f dropped) :
    (List.range n).countP (· ∉ dropped) = n - dropped.length := by
  have hperm : ((List.range n).filter (· ∈ dropped)).Perm dropped := by
    refine (List.perm_ext_iff_of_nodup (List.nodup_range.filter _) h.nodup).mpr fun i => ?_
    simp only [List.mem_filter, List.mem_range, decide_eq_true_eq]
    exact ⟨fun hi => hi.2, fun hi => ⟨h.lt i hi, hi⟩⟩
  have hcount : (List.range n).countP (· ∈ dropped) = dropped.length := by
    rw [List.countP_eq_length_filter, hperm.length_eq]
  have htotal := @List.length_eq_countP_add_countP _ (fun i => decide (i ∈ dropped)) (List.range n)
  rw [hcount, List.length_range] at htotal
  have hsame : (List.range n).countP (fun i => decide ¬ decide (i ∈ dropped) = true) =
      (List.range n).countP (· ∉ dropped) := List.countP_congr fun i _ => by simp
  omega

/-- Exactly `num_enable_server` servers keep their performance, the others get zero, and none of
those was better than one that is kept. -/
theorem selectServers_best {n numEnableServer : ℕ} (hle : numEnableServer ≤ n) {perf : List ℚ}
    (hlength : perf.length = n) (hperf : ∀ x ∈ perf, 0 < x ∧ x < 100000000) :
    ∃ perf', selectServers n numEnableServer perf = some perf' ∧
      (∀ tps route, (List.range n).mapM (serverPerformance n tps route) = some perf →
        computePerformance n numEnableServer tps route = some perf') ∧
      perf'.length = n ∧ perf'.countP (· ≠ 0) = numEnableServer ∧
      (∀ i < n, perf'[i]? = perf[i]? ∨ perf'[i]? = some 0) ∧
      ∀ (i j : ℕ) (x y : ℚ), perf'[i]? = some x → x ≠ 0 → perf'[j]? = some 0 →
        perf[j]? = some y → y ≤ x := by
  obtain ⟨f, hf⟩ : ∃ f, perf = (List.range n).map f := by
    refine ⟨fun i => perf.getD i 0, List.ext_getElem (by simp [hlength]) fun i hi hi' => ?_⟩
    simp [List.getElem?_eq_getElem hi]
  have hpos : ∀ i < n, 0 < f i ∧ f i < 100000000 := fun i hi =>
    hperf _ (hf ▸ List.mem_map_of_mem (List.mem_range.mpr hi))
  have hmarked : perf = marked n f [] := by simp [hf, marked]
  obtain ⟨dropped, hrun, hcount, h⟩ := @Dropped.run n f [] (fun i hi => (hpos i hi).2)
    (List.range (n - numEnableServer)) ⟨List.nodup_nil, by simp, by simp⟩ (by simp)
  have hselect : selectServers n numEnableServer perf =
      some ((List.range n).map fun i => if i ∈ dropped then 0 else f i) := by
    unfold selectServers
    rw [hmarked, hrun]
    simp only [Option.bind_eq_bind, Option.bind_some, Option.pure_def, marked, List.map_map,
      Option.some.injEq]
    refine List.map_congr_left fun i hi => ?_
    have hne : f i ≠ kEmpty := by
      have := (hpos i (List.mem_range.mp hi)).2
      unfold kEmpty
      linarith
    by_cases hd : i ∈ dropped <;> simp [hd, hne]
  refine ⟨_, hselect, ?_, by simp, ?_, ?_, ?_⟩
  · intro tps route hmeasured
    simp [computePerformance, hmeasured, hselect]
  · rw [List.countP_map]
    have hsame : (List.range n).countP ((· ≠ (0 : ℚ)) ∘ fun i => if i ∈ dropped then 0 else f i) =
        (List.range n).countP (· ∉ dropped) := by
      refine List.countP_congr fun i hi => ?_
      have hne := (hpos i (List.mem_range.mp hi)).1.ne'
      by_cases hd : i ∈ dropped <;> simp [hd, hne]
    rw [hsame, h.countP, hcount]
    simp only [List.length_nil, List.length_range]
    omega
  · intro i hi
    by_cases hd : i ∈ dropped
    · exact .inr (by simp [hi, hd])
    · exact .inl (by simp [hf, hi, hd])
  · intro i j x y hx hne hj hy
    rw [List.getElem?_map, Option.map_eq_some_iff] at hx hj
    rw [hf, List.getElem?_map, Option.map_eq_some_iff] at hy
    obtain ⟨i', hi, rfl⟩ := hx
    obtain ⟨j', hj', hzero⟩ := hj
    obtain ⟨j'', hj'', rfl⟩ := hy
    obtain rfl := Option.some.inj (hj'.symm.trans hj'')
    have hlt : j' < n := List.mem_range.mp (List.mem_of_getElem? hj')
    have hkept : i' ∉ dropped := fun hd => hne (if_pos hd)
    have hgone : j' ∈ dropped := by
      by_contra hd
      rw [if_neg hd] at hzero
      exact (hpos j' hlt).1.ne' hzero
    rw [if_neg hkept]
    exact h.worst j' hgone i' (List.mem_range.mp (List.mem_of_getElem? hi)) hkept

/-- Four servers, two of them equally bad: the two best are kept. -/
theorem selectServers_best_four_servers :
    ∃ perf', selectServers 4 2 [3, 1, 2, 1] = some perf' ∧ perf'.countP (· ≠ 0) = 2 := by
  obtain ⟨perf', hselect, -, -, hcount, -⟩ := @selectServers_best 4 2 (by decide) [3, 1, 2, 1] rfl
    (by norm_num)
  exact ⟨perf', hselect, hcount⟩

end NetStorm.Scheduler

import NetStorm.FindTrace

/-!
# The scheduler's route tables

`add_route` of van.cc fills `route[i][j]` for every ordered pair of servers from the
enumerated traces. With `enable_muti_trace` it takes the traces in order of cost and
keeps a path only if it shares no intermediate node with the paths kept before it,
leaving an empty placeholder otherwise; without it only the first choice is made.
With `enable_random` every choice is `rand()`, modelled by an arbitrary function of
the pair and of the iteration. An access outside a vector is `none`.
-/
namespace NetStorm.Scheduler
open WeightedPath

/-- The loop of `Van::min` at index `i`, with the current `index` and `min_`. -/
def vanMinLoop : List ℚ → ℕ → ℤ → ℚ → ℤ
  | [], _, index, _ => index
  | x :: xs, i, index, least =>
    if x < least then vanMinLoop xs (i + 1) i x else vanMinLoop xs (i + 1) index least

/-- `Van::min`: the position of the first smallest entry below `100000000`, else `-1`. -/
def vanMin (maxTps : List ℚ) : ℤ := vanMinLoop maxTps 0 (-1) 100000000

theorem vanMinLoop_spec (l : List ℚ) (i : ℕ) (index : ℤ) (least : ℚ) :
    (vanMinLoop l i index least = index ∧ ∀ y ∈ l, least ≤ y) ∨
      ∃ k x, l[k]? = some x ∧ vanMinLoop l i index least = (i + k : ℕ) ∧ x < least ∧
        ∀ y ∈ l, x ≤ y := by
  induction l generalizing i index least with
  | nil => simp [vanMinLoop]
  | cons a l ih =>
    simp only [vanMinLoop]
    by_cases ha : a < least
    · rw [if_pos ha]
      right
      obtain ⟨he, hall⟩ | ⟨k, x, hk, he, hx, hall⟩ := ih (i + 1) i a
      · exact ⟨0, a, rfl, by simpa using he, ha, by simpa using hall⟩
      · refine ⟨k + 1, x, by simpa using hk, by rw [he]; congr 1; omega, hx.trans ha, ?_⟩
        simpa using ⟨hx.le, hall⟩
    · rw [if_neg ha]
      obtain ⟨he, hall⟩ | ⟨k, x, hk, he, hx, hall⟩ := ih (i + 1) index least
      · exact .inl ⟨he, by simpa using ⟨not_lt.mp ha, hall⟩⟩
      · refine .inr ⟨k + 1, x, by simpa using hk, by rw [he]; congr 1; omega, hx, ?_⟩
        simpa using ⟨hx.le.trans (not_lt.mp ha), hall⟩

/-- Either no entry is below the initial bound, or the result is the position of
a least entry. -/
theorem vanMin_spec (l : List ℚ) :
    (vanMin l = -1 ∧ ∀ y ∈ l, 100000000 ≤ y) ∨
      ∃ (k : ℕ) (x : ℚ), l[k]? = some x ∧ vanMin l = k ∧ ∀ y ∈ l, x ≤ y := by
  obtain h | ⟨k, x, hk, he, -, hall⟩ := vanMinLoop_spec l 0 (-1) 100000000
  · exact .inl h
  · exact .inr ⟨k, x, hk, by simpa [vanMin] using he, hall⟩

/-- The environment switches `add_route` reads, and the results of `rand()` in
iteration `k` of the pair `(i, j)`. -/
structure RouteConfig where
  enableRandom : Bool
  enableMutiTrace : Bool
  rand : ℕ → ℕ → ℕ → ℕ

/-- What the loop over `k` changes for one pair. -/
structure PairState where
  maxTps : List ℚ
  midNodes : List ℕ
  routes : List (List ℕ)

/-- The nodes at positions `1 .. size-2` of a trace. -/
def inner (trace : List ℕ) : List ℕ := trace.tail.dropLast

/-- Appends the inner nodes that `mid_nodes` does not hold yet. -/
def addMidNodes (midNodes trace : List ℕ) : List ℕ :=
  (inner trace).foldl (fun m v => if iInTrace v m then m else m ++ [v]) midNodes

/-- One iteration of the loop over `k` in `add_route`. -/
def addRouteStep (cfg : RouteConfig) (i j : ℕ) (traces : List (List ℕ)) (st : PairState)
    (k : ℕ) : Option PairState := do
  let minIndex : ℤ := if cfg.enableRandom then (cfg.rand i j k % traces.length : ℕ)
    else vanMin st.maxTps
  if minIndex < 0 then none
  let cost ← st.maxTps[minIndex.toNat]?
  if cost = 1000000 then
    some { st with routes := st.routes ++ [[]] }
  else
    let trace ← traces[minIndex.toNat]?
    let maxTps := st.maxTps.set minIndex.toNat 1000000
    if (inner trace).any (iInTrace · st.midNodes) then
      some { st with maxTps, routes := st.routes ++ [[]] }
    else
      some ⟨maxTps, addMidNodes st.midNodes trace, st.routes ++ [trace]⟩

/-- `add_route` for one pair of distinct servers. -/
def addRoutePair (n : ℕ) (tps : ℕ → ℕ → ℚ) (cfg : RouteConfig) (i j : ℕ) :
    Option (List (List ℕ)) := do
  let found := findTrace n tps i j 0 [i]
  let traces := found.map Prod.fst
  let count := if cfg.enableMutiTrace then traces.length else 1
  let st ← (List.range count).foldlM (addRouteStep cfg i j traces) ⟨found.map Prod.snd, [], []⟩
  some st.routes

/-- `Van::add_route`. Every pair is visited once, so `log[i][j]` is never set before. -/
def addRoute (n : ℕ) (tps : ℕ → ℕ → ℚ) (cfg : RouteConfig) :
    Option (List (List (List (List ℕ)))) :=
  (List.range n).mapM fun i => (List.range n).mapM fun j =>
    if i = j then some [] else addRoutePair n tps cfg i j

/-- An iteration appends one entry to `route[i][j]`. -/
theorem addRouteStep_routes {cfg : RouteConfig} {i j k : ℕ} {traces : List (List ℕ)}
    {st st' : PairState} (h : addRouteStep cfg i j traces st k = some st') :
    ∃ r, st'.routes = st.routes ++ [r] := by
  simp only [addRouteStep, Option.bind_eq_bind] at h
  generalize hm : (if cfg.enableRandom then ((cfg.rand i j k % traces.length : ℕ) : ℤ)
    else vanMin st.maxTps) = m at h
  by_cases h0 : m < 0
  · simp [h0] at h
  simp only [h0, if_false, Option.bind_eq_some_iff] at h
  obtain ⟨cost, -, h⟩ := h
  split_ifs at h with hc
  · exact ⟨[], by simp [← Option.some.inj h]⟩
  · obtain ⟨trace, -, h⟩ := Option.bind_eq_some_iff.mp h
    split_ifs at h
    · exact ⟨[], by simp [← Option.some.inj h]⟩
    · exact ⟨trace, by simp [← Option.some.inj h]⟩

theorem addRouteLoop_prefix {cfg : RouteConfig} {i j : ℕ} {traces : List (List ℕ)}
    {ks : List ℕ} {st st' : PairState}
    (h : ks.foldlM (addRouteStep cfg i j traces) st = some st') :
    st.routes <+: st'.routes := by
  induction ks generalizing st with
  | nil =>
    obtain rfl : st = st' := by simpa using h
    exact List.prefix_refl _
  | cons k ks ih =>
    simp only [List.foldlM_cons, Option.bind_eq_bind, Option.bind_eq_some_iff] at h
    obtain ⟨st₁, h₁, h₂⟩ := h
    obtain ⟨r, hr⟩ := addRouteStep_routes h₁
    exact (hr ▸ List.prefix_append _ _).trans (ih h₂)

/-- The first iteration without `enable_random`: the entry is a cheapest trace,
or the placeholder when the least cost is exactly `1000000`. -/
theorem addRouteStep_first {cfg : RouteConfig} (hr : cfg.enableRandom = false) {i j : ℕ}
    {found : List (List ℕ × ℚ)} {st' : PairState}
    (h : addRouteStep cfg i j (found.map Prod.fst) ⟨found.map Prod.snd, [], []⟩ 0 = some st') :
    ∃ p c, (p, c) ∈ found ∧ (∀ e ∈ found, c ≤ e.2) ∧
      st'.routes = [if c = 1000000 then [] else p] := by
  simp only [addRouteStep, hr, Bool.false_eq_true, if_false, Option.bind_eq_bind] at h
  obtain ⟨hm, -⟩ | ⟨k, c, hk, hm, hall⟩ := vanMin_spec (found.map Prod.snd)
  · simp [hm] at h
  have h0 : ¬ ((k : ℤ) < 0) := by omega
  simp only [hm, h0, if_false, Int.toNat_natCast, hk, Option.bind_some] at h
  obtain ⟨⟨p, c'⟩, he, rfl⟩ : ∃ e, found[k]? = some e ∧ e.2 = c := by
    simpa [List.getElem?_map, Option.map_eq_some_iff] using hk
  have hmem : (p, c') ∈ found := List.mem_of_getElem? he
  refine ⟨p, c', hmem, ?_, ?_⟩
  · intro e he'
    exact hall e.2 (List.mem_map_of_mem he')
  · dsimp only at h ⊢
    split_ifs at h ⊢ with hc
    · simp [← Option.some.inj h]
    · simp only [List.getElem?_map, he, Option.map_some, Option.bind_some] at h
      have hany : (inner p).any (fun x => iInTrace x []) = false := by simp [iInTrace]
      simp only [hany, Bool.false_eq_true, if_false] at h
      simp [← Option.some.inj h]

/-- The first entry of `route[i][j]`, when it is not a placeholder, is a cheapest
simple path from `i` to `j`. -/
theorem addRoutePair_first {n : ℕ} {tps : ℕ → ℕ → ℚ} {cfg : RouteConfig}
    (hr : cfg.enableRandom = false) {i j : ℕ} (hij : i ≠ j) {routes : List (List ℕ)}
    (h : addRoutePair n tps cfg i j = some routes) {p : List ℕ}
    (hp : routes[0]? = some p) (hne : p ≠ []) :
    IsPath (Link n tps) i j p ∧
      IsLeast (costs (Link n tps) (linkCost tps) i j) (pathCost (linkCost tps) p) := by
  simp only [addRoutePair, Option.bind_eq_bind, Option.bind_eq_some_iff, Option.some.injEq] at h
  obtain ⟨st, hst, rfl⟩ := h
  generalize (if cfg.enableMutiTrace then
    ((findTrace n tps i j 0 [i]).map Prod.fst).length else 1) = count at hst
  cases count with
  | zero =>
    obtain rfl := Option.some.inj hst
    simp at hp
  | succ count =>
    rw [List.range_succ_eq_map, List.foldlM_cons, Option.bind_eq_bind,
      Option.bind_eq_some_iff] at hst
    obtain ⟨st₁, h₁, h₂⟩ := hst
    obtain ⟨q, c, hmem, hall, hst₁⟩ := addRouteStep_first hr h₁
    have hpre := addRouteLoop_prefix h₂
    rw [hst₁] at hpre
    have hp' : p = if c = 1000000 then [] else q := by
      obtain ⟨t, ht⟩ := hpre
      rw [← ht] at hp
      simpa using hp.symm
    split_ifs at hp' with hc
    · exact absurd hp' hne
    obtain ⟨hpath, hcost⟩ := (mem_findTrace_start hij q c).mp hmem
    subst hp'
    refine ⟨hpath, ⟨p, hpath, rfl⟩, ?_⟩
    rintro _ ⟨r, hrp, rfl⟩
    rw [← hcost]
    exact hall _ ((mem_findTrace_start hij r _).mpr ⟨hrp, rfl⟩)

/-- The loop's own invariant when every cost starts below `1000000`: entries only
ever change to `1000000`, so `min` always finds one. -/
theorem addRouteLoop_isSome {cfg : RouteConfig} (hr : cfg.enableRandom = false) {i j : ℕ}
    {traces : List (List ℕ)} (ht : traces ≠ []) (ks : List ℕ) (st : PairState)
    (hlen : st.maxTps.length = traces.length) (hall : ∀ c ∈ st.maxTps, c ≤ 1000000) :
    ∃ st', ks.foldlM (addRouteStep cfg i j traces) st = some st' := by
  induction ks generalizing st with
  | nil => exact ⟨st, by simp⟩
  | cons k ks ih =>
    have hpos : 0 < st.maxTps.length := by rw [hlen]; exact List.length_pos_iff.mpr ht
    obtain ⟨hm, hbig⟩ | ⟨m, c, hk, hm, -⟩ := vanMin_spec st.maxTps
    · have hmem := List.getElem_mem hpos
      have h₁ := hall _ hmem
      have h₂ := hbig _ hmem
      linarith
    have hml : m < traces.length := by
      rw [← hlen]
      exact (List.getElem?_eq_some_iff.mp hk).1
    have h0 : ¬ ((m : ℤ) < 0) := by omega
    have hset : ∀ c ∈ st.maxTps.set m 1000000, c ≤ 1000000 := by
      intro c hc
      rcases List.mem_or_eq_of_mem_set hc with h | h
      · exact hall c h
      · exact h.le
    rw [List.foldlM_cons]
    simp only [addRouteStep, hr, Bool.false_eq_true, if_false, hm, h0, Int.toNat_natCast, hk,
      Option.bind_eq_bind, Option.bind_some, List.getElem?_eq_getElem hml]
    split_ifs
    · exact ih _ hlen hall
    · exact ih _ (by simpa using hlen) hset
    · exact ih _ (by simpa using hlen) hset

theorem addRoutePair_isSome {n : ℕ} {tps : ℕ → ℕ → ℚ} {cfg : RouteConfig}
    (hr : cfg.enableRandom = false) {i j : ℕ} (hij : i ≠ j)
    (hex : ∃ p, IsPath (Link n tps) i j p)
    (hlt : ∀ p, IsPath (Link n tps) i j p → pathCost (linkCost tps) p < 1000000) :
    ∃ routes p, addRoutePair n tps cfg i j = some routes ∧ routes[0]? = some p ∧ p ≠ [] := by
  obtain ⟨p₀, hp₀⟩ := hex
  have hcost : ∀ e ∈ findTrace n tps i j 0 [i], e.2 < 1000000 := by
    rintro ⟨p, c⟩ he
    obtain ⟨hp, rfl⟩ := (mem_findTrace_start hij p c).mp he
    exact hlt p hp
  have hne : (findTrace n tps i j 0 [i]).map Prod.fst ≠ [] := by
    have := (mem_findTrace_start hij p₀ _).mpr ⟨hp₀, rfl⟩
    intro h
    rw [List.map_eq_nil_iff.mp h] at this
    simp at this
  have hle : ∀ c ∈ (findTrace n tps i j 0 [i]).map Prod.snd, c ≤ 1000000 := by
    intro c hc
    obtain ⟨e, he, rfl⟩ := List.mem_map.mp hc
    exact (hcost e he).le
  obtain ⟨count, hcount⟩ : ∃ m, (if cfg.enableMutiTrace then
      ((findTrace n tps i j 0 [i]).map Prod.fst).length else 1) = m + 1 := by
    have hpos := List.length_pos_iff.mpr hne
    split_ifs
    · exact ⟨_, (Nat.succ_pred_eq_of_pos hpos).symm⟩
    · exact ⟨0, rfl⟩
  obtain ⟨st, hst⟩ := addRouteLoop_isSome hr (i := i) (j := j) hne (List.range (count + 1))
    ⟨(findTrace n tps i j 0 [i]).map Prod.snd, [], []⟩ (by simp) hle
  have hpair : addRoutePair n tps cfg i j = some st.routes := by
    simp only [addRoutePair, hcount, hst, Option.bind_eq_bind, Option.bind_some]
  rw [List.range_succ_eq_map, List.foldlM_cons, Option.bind_eq_bind,
    Option.bind_eq_some_iff] at hst
  obtain ⟨st₁, h₁, h₂⟩ := hst
  obtain ⟨q, c, hmem, -, hst₁⟩ := addRouteStep_first hr h₁
  have hc : c ≠ 1000000 := (hcost _ hmem).ne
  have hpre := addRouteLoop_prefix h₂
  rw [hst₁, if_neg hc] at hpre
  obtain ⟨t, ht⟩ := hpre
  refine ⟨st.routes, q, hpair, by rw [← ht]; rfl, ?_⟩
  exact ((mem_findTrace_start hij q c).mp hmem).1.ne_nil

end NetStorm.Scheduler

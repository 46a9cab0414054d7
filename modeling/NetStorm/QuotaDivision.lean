import NetStorm.Redivision

/-!
# The quotas of a pass by performance

The search for a server ends, since the quotas are rounded up and so are never all used up before
the last element. A server that gets a segment is below its quota, so that one segment is all it
can get beyond it. What holds of the searches holds also of a pass that fails later, because a
counter overflows or an array is too large. The arithmetic is exact.
-/
namespace NetStorm.ShardConfig

/-- The condition of the search loop fails after fewer than `num_servers` steps. -/
def SearchEnds (cfg : ShardConfig) (st : KVStoreDist) : Prop :=
  ∃ j < cfg.numServers, ∃ (p : ℚ) (c : ℕ),
    st.serverPerf[(st.serverLog + j) % cfg.numServers]? = some p ∧
      st.numParaCount[(st.serverLog + j) % cfg.numServers]? = some c ∧ (c : ℚ) < p

/-- The segment loop enters the search in state `st'`. -/
inductive SegmentSearch (cfg : ShardConfig) (key : ℤ) (numBytes : ℕ) :
    ℕ → KVStoreDist → KVStoreDist → Prop
  | reset {s : ℕ} {st st' : KVStoreDist} (hkey : key = 0) (h : cfg.redivide st = some st') :
      SegmentSearch cfg key numBytes s st st'
  | here {s : ℕ} {st : KVStoreDist} (hkey : key ≠ 0) : SegmentSearch cfg key numBytes s st st
  | next {s : ℕ} {st st₁ st' : KVStoreDist} {g : Segment} (hs : cfg.bigarrayBound < s)
      (h : cfg.nextSegment st key s numBytes = some (g, st₁))
      (hrest : SegmentSearch cfg key numBytes (s - cfg.bigarrayBound) st₁ st') :
      SegmentSearch cfg key numBytes s st st'

/-- The pass enters the search in state `st'`. -/
inductive PassSearch (cfg : ShardConfig) : List Entry → KVStoreDist → KVStoreDist → Prop
  | array {a : Entry} {rest : List Entry} {st st' : KVStoreDist}
      (hempty : (st.psKv a.key).keys = [])
      (h : SegmentSearch cfg a.key a.numBytes a.elems (cfg.countPara st a) st') :
      PassSearch cfg (a :: rest) st st'
  | rest {a : Entry} {rest : List Entry} {st st₁ st' : KVStoreDist} {segs : List Segment}
      (h : cfg.encodeDefaultKey st a = some (segs, st₁)) (hrest : PassSearch cfg rest st₁ st') :
      PassSearch cfg (a :: rest) st st'

/-- The state in which a pass by performance over `arrays` begins. -/
structure RedivisionStart (cfg : ShardConfig) (st : KVStoreDist) (arrays : List Entry) :
    Prop where
  servers : 1 ≤ cfg.numServers
  bound : 1 ≤ cfg.bigarrayBound
  original : cfg.enableOriginal = false
  arith : cfg.arith = .exact
  flag : st.segUpdateFlag = 2
  nodup : (arrays.map Entry.key).Nodup
  first : (arrays.map Entry.key).head? = some 0
  first_le : ∀ a ∈ arrays, a.key = 0 → a.elems ≤ cfg.bigarrayBound
  sizes : ∀ a ∈ arrays, 1 ≤ a.elems
  cleared : ∀ a ∈ arrays, (st.psKv a.key).keys = [] ∧ (st.psKv a.key).lens = []
  counts : st.numParaCount.length = cfg.numServers ∨ (st.numParaCount = [] ∧ st.numParaFlag < 2)
  perf : st.serverPerf.length = cfg.numServers
  nonneg : ∀ p ∈ st.serverPerf, 0 ≤ p
  sum_pos : 0 < st.serverPerf.sum
  counted : 1 ≤ st.numParaFlag
  numPara : st.numPara = (arrays.map Entry.elems).sum

/-- A pass that divides `N` elements by the performances, with `A` of them placed. -/
structure Weighted (cfg : ShardConfig) (perf : List ℚ) (N A : ℕ) (st : KVStoreDist) : Prop where
  flag : st.segUpdateFlag = 2
  counts : st.numParaCount.length = cfg.numServers
  sum_counts : st.numParaCount.sum = A
  serverPerf : st.serverPerf = exactQuotas perf N
  numPara : st.numPara = N
  numParaFlag : 2 ≤ st.numParaFlag
  bounded : ∀ (i : ℕ) (c : ℕ) (p : ℚ), st.numParaCount[i]? = some c →
    (exactQuotas perf N)[i]? = some p → (c : ℚ) < p + cfg.bigarrayBound

variable {cfg : ShardConfig} {perf : List ℚ} {N A : ℕ} {st st' : KVStoreDist}

theorem Weighted.searchEnds (h : cfg.Weighted perf N A st) (hn : 0 < cfg.numServers)
    (hlen : perf.length = cfg.numServers) (hsum : 0 < perf.sum) (hroom : A < N) :
    cfg.SearchEnds st := by
  have hperf : st.serverPerf.length = cfg.numServers := by simp [h.serverPerf, exactQuotas, hlen]
  refine exists_open hn h.counts hperf ?_ st.serverLog
  rw [h.sum_counts, h.serverPerf]
  exact lt_of_lt_of_le (by exact_mod_cast hroom) (le_sum_exactQuotas hsum N)

/-- The search stops at a server below its quota. -/
theorem findServer_open (harith : cfg.arith = .exact) {counts : List ℕ} {fuel log log' : ℕ}
    (h : cfg.findServer counts perf fuel log = some log') :
    ∃ (p : ℚ) (c : ℕ), perf[log' % cfg.numServers]? = some p ∧
      counts[log' % cfg.numServers]? = some c ∧ (c : ℚ) < p := by
  induction fuel generalizing log with
  | zero => cases h
  | succ fuel ih =>
    simp only [findServer, harith, Option.bind_eq_bind, Option.bind_eq_some_iff] at h
    obtain ⟨c, hc, p, hp, v, hv, h⟩ := h
    obtain rfl := Option.some.inj hv
    split_ifs at h with hfull
    · obtain ⟨log₁, -, h⟩ := Option.bind_eq_some_iff.mp h
      exact ih h
    · obtain rfl := Option.some.inj h
      exact ⟨p, c, hp, hc, not_le.mp hfull⟩

/-- The quota of the server is positive, and so is its performance. -/
def Served (perf : List ℚ) (N : ℕ) (g : Segment) : Prop :=
  ∃ q, (exactQuotas perf N)[g.server]? = some q ∧ 0 < q

theorem segmentLen_le (s : ℕ) : cfg.segmentLen s ≤ cfg.bigarrayBound := by
  unfold segmentLen
  split_ifs with h
  · exact le_rfl
  · omega

/-- A segment of a server below its quota. -/
theorem Weighted.takeKey (harith : cfg.arith = .exact) (h : cfg.Weighted perf N A st)
    {log s numBytes : ℕ} {g : Segment}
    (hfind : cfg.findServer st.numParaCount st.serverPerf cfg.numServers st.serverLog = some log)
    (htake : cfg.takeKey { st with serverLog := log } s numBytes = some (g, st')) :
    cfg.Weighted perf N (A + cfg.segmentLen s) st' ∧ Served perf N g := by
  obtain ⟨q, c, hq, hc, hlt⟩ := findServer_open harith hfind
  rw [h.serverPerf] at hq
  have hcond : st.keyTemp (log % cfg.numServers) < rangeEnd cfg.numServers (log % cfg.numServers) ∧
      log % cfg.numServers < st.numParaCount.length := by
    by_contra hnot
    rw [ShardConfig.takeKey, if_neg hnot] at htake
    cases htake
  rw [ShardConfig.takeKey, if_pos hcond] at htake
  obtain ⟨log', -, hr⟩ := Option.bind_eq_some_iff.mp htake
  obtain ⟨rfl, rfl⟩ := Prod.mk.inj (Option.some.inj hr)
  have hnonneg : (0 : ℚ) ≤ c := Nat.cast_nonneg c
  refine ⟨⟨h.flag, by simpa using h.counts, ?_, h.serverPerf, h.numPara, h.numParaFlag, ?_⟩,
    q, hq, by linarith⟩
  · simp only [sum_modify_add hcond.2, h.sum_counts, segmentLen]
  · intro i c' p hc' hp
    rw [List.getElem?_modify, Option.map_eq_map, Option.map_eq_some_iff] at hc'
    obtain ⟨c₀, hc₀, rfl⟩ := hc'
    by_cases hi : log % cfg.numServers = i
    · rw [← hi] at hc₀ hp
      obtain rfl := Option.some.inj (hc.symm.trans hc₀)
      obtain rfl := Option.some.inj (hq.symm.trans hp)
      have hle : (cfg.segmentLen s : ℚ) ≤ cfg.bigarrayBound := by exact_mod_cast segmentLen_le s
      rw [if_pos hi, Nat.cast_add]
      change (c : ℚ) + (cfg.segmentLen s : ℕ) < _
      linarith
    · rw [if_neg hi]
      exact h.bounded i c₀ p hc₀ hp

theorem Weighted.nextSegment (harith : cfg.arith = .exact) (h : cfg.Weighted perf N A st)
    {key : ℤ} (hkey : key ≠ 0)
    {s numBytes : ℕ} {g : Segment} (hrun : cfg.nextSegment st key s numBytes = some (g, st')) :
    cfg.Weighted perf N (A + cfg.segmentLen s) st' ∧ Served perf N g := by
  rw [ShardConfig.nextSegment, if_pos h.flag, if_neg hkey] at hrun
  simp only [Option.bind_eq_bind, Option.bind_some, Option.bind_eq_some_iff] at hrun
  obtain ⟨log, hfind, htake⟩ := hrun
  exact h.takeKey harith hfind htake

/-- The segments of an array after key 0. -/
theorem Weighted.segments (harith : cfg.arith = .exact) (h : cfg.Weighted perf N A st)
    {key : ℤ} (hkey : key ≠ 0)
    {fuel s numBytes : ℕ} {segs : List Segment}
    (hrun : cfg.segments key numBytes fuel s st = some (segs, st')) :
    cfg.Weighted perf N (A + s) st' ∧ ∀ g ∈ segs, Served perf N g := by
  induction fuel generalizing s st A segs with
  | zero => cases hrun
  | succ fuel ih =>
    simp only [ShardConfig.segments, Option.bind_eq_bind, Option.bind_eq_some_iff] at hrun
    obtain ⟨⟨g, st₁⟩, hnext, hrun⟩ := hrun
    obtain ⟨h₁, hg⟩ := h.nextSegment harith hkey hnext
    split_ifs at hrun with hs
    · obtain ⟨⟨rest, st₂⟩, hrest, hr⟩ := Option.bind_eq_some_iff.mp hrun
      obtain ⟨rfl, rfl⟩ := Prod.mk.inj (Option.some.inj hr)
      obtain ⟨h₂, hall⟩ := ih h₁ hrest
      have hA : A + cfg.segmentLen s + (s - cfg.bigarrayBound) = A + s := by
        rw [segmentLen, if_pos hs]
        omega
      exact ⟨hA ▸ h₂, List.forall_mem_cons.mpr ⟨hg, hall⟩⟩
    · obtain ⟨rfl, rfl⟩ := Prod.mk.inj (Option.some.inj hrun)
      rw [segmentLen, if_neg hs] at h₁
      exact ⟨h₁, by simpa using hg⟩

theorem Weighted.segmentSearch (harith : cfg.arith = .exact) (h : cfg.Weighted perf N A st)
    (hn : 0 < cfg.numServers) (hlen : perf.length = cfg.numServers) (hsum : 0 < perf.sum)
    {key : ℤ} (hkey : key ≠ 0)
    {s numBytes : ℕ} (hs : 1 ≤ s) (hroom : A + s ≤ N)
    (hsearch : cfg.SegmentSearch key numBytes s st st') : cfg.SearchEnds st' := by
  induction hsearch generalizing A with
  | reset hzero => exact absurd hzero hkey
  | here => exact h.searchEnds hn hlen hsum (by omega)
  | next hlt hnext hrest ih =>
    refine ih (h.nextSegment harith hkey hnext).1 (by omega) ?_
    rw [segmentLen, if_pos hlt]
    omega

theorem Weighted.countPara (h : cfg.Weighted perf N A st) (a : Entry) :
    cfg.Weighted perf N A (cfg.countPara st a) := by
  rw [countPara_of_two_le st a h.numParaFlag]
  exact ⟨h.flag, h.counts, h.sum_counts, h.serverPerf, h.numPara,
    h.numParaFlag.trans (le_max_right _ _), h.bounded⟩

/-- An array after key 0. -/
theorem Weighted.encodeDefaultKey (harith : cfg.arith = .exact) (h : cfg.Weighted perf N A st)
    {a : Entry} (ha : a.key ≠ 0) (ho : cfg.enableOriginal = false) {segs : List Segment}
    (hrun : cfg.encodeDefaultKey st a = some (segs, st')) :
    (∃ A' ≤ A + a.elems, cfg.Weighted perf N A' st') ∧ ∀ g ∈ segs, Served perf N g := by
  have hcount := h.countPara a
  unfold ShardConfig.encodeDefaultKey at hrun
  dsimp only at hrun
  split_ifs at hrun
  · obtain ⟨rfl, rfl⟩ := Prod.mk.inj (Option.some.inj hrun)
    exact ⟨⟨A, Nat.le_add_right _ _, hcount⟩, by simp⟩
  · obtain ⟨⟨segs', st₁⟩, hdiv, hrun⟩ := Option.bind_eq_some_iff.mp hrun
    dsimp only at hrun
    split_ifs at hrun
    obtain ⟨rfl, rfl⟩ := Prod.mk.inj (Option.some.inj hrun)
    have hn : cfg.numServers ≠ 0 := by
      intro hn
      simp [divide, hn] at hdiv
    simp only [divide, hn, if_false, ho, Bool.false_eq_true, ha, false_and, Option.bind_eq_bind,
      Option.bind_some] at hdiv
    obtain ⟨h₁, hall⟩ := hcount.segments harith ha hdiv
    exact ⟨⟨A + a.elems, le_rfl, h₁.flag, h₁.counts, h₁.sum_counts, h₁.serverPerf, h₁.numPara,
      h₁.numParaFlag, h₁.bounded⟩, hall⟩

theorem Weighted.pass (harith : cfg.arith = .exact) (ho : cfg.enableOriginal = false)
    (arrays : List Entry) (hlater : ∀ a ∈ arrays, a.key ≠ 0) (h : cfg.Weighted perf N A st)
    {log : List (List Segment)} (hrun : cfg.encodePass arrays st = some (log, st')) :
    (∃ A', cfg.Weighted perf N A' st') ∧ ∀ g ∈ log.flatten, Served perf N g := by
  induction arrays generalizing st A log with
  | nil =>
    obtain ⟨rfl, rfl⟩ := Prod.mk.inj (Option.some.inj hrun)
    exact ⟨⟨A, h⟩, by simp⟩
  | cons a rest ih =>
    simp only [encodePass, Option.bind_eq_bind, Option.bind_eq_some_iff] at hrun
    obtain ⟨⟨segs, st₁⟩, hfirst, ⟨log', st₂⟩, hrest, hr⟩ := hrun
    obtain ⟨rfl, rfl⟩ := Prod.mk.inj (Option.some.inj hr)
    obtain ⟨⟨A', -, h₁⟩, hall⟩ :=
      h.encodeDefaultKey harith (hlater a List.mem_cons_self) ho hfirst
    obtain ⟨h₂, hall'⟩ := ih (fun b hb => hlater b (List.mem_cons_of_mem _ hb)) h₁ hrest
    rw [List.flatten_cons]
    exact ⟨h₂, List.forall_mem_append.mpr ⟨hall, hall'⟩⟩

theorem Weighted.passSearch (harith : cfg.arith = .exact) (hn : 0 < cfg.numServers)
    (hlen : perf.length = cfg.numServers) (hsum : 0 < perf.sum) (ho : cfg.enableOriginal = false)
    {arrays : List Entry}
    (hlater : ∀ a ∈ arrays, a.key ≠ 0) (hsizes : ∀ a ∈ arrays, 1 ≤ a.elems)
    (h : cfg.Weighted perf N A st) (hroom : A + (arrays.map Entry.elems).sum ≤ N)
    (hsearch : cfg.PassSearch arrays st st') : cfg.SearchEnds st' := by
  induction hsearch generalizing A with
  | @array a rest st st' _ hsearch =>
    rw [List.map_cons, List.sum_cons] at hroom
    exact (h.countPara a).segmentSearch harith hn hlen hsum (hlater a List.mem_cons_self)
      (hsizes a List.mem_cons_self) (by omega) hsearch
  | @rest a rest st st₁ st' segs hfirst hrest ih =>
    rw [List.map_cons, List.sum_cons] at hroom
    obtain ⟨⟨A', hle, h₁⟩, -⟩ := h.encodeDefaultKey harith (hlater a List.mem_cons_self) ho hfirst
    exact ih (fun b hb => hlater b (List.mem_cons_of_mem _ hb))
      (fun b hb => hsizes b (List.mem_cons_of_mem _ hb)) h₁ (by omega)

section Start
variable {a : Entry} {rest : List Entry}

/-- The reset for key 0: no element is placed. -/
theorem RedivisionStart.redivide (h : cfg.RedivisionStart st (a :: rest)) :
    ∃ st₀, cfg.redivide (cfg.countPara st a) = some st₀ ∧
      cfg.Weighted st.serverPerf st.numPara 0 st₀ := by
  have ha : a.key = 0 := by simpa using h.first
  obtain ⟨hcount, hpara⟩ := countPara_first cfg st ha h.counts
  obtain ⟨hnum, hflag⟩ := hpara h.counted
  obtain ⟨-, hseg, hperf, -⟩ := countPara_frame cfg st a
  have hquotas : cfg.quotas (cfg.countPara st a).serverPerf (cfg.countPara st a).numPara =
      some (exactQuotas st.serverPerf st.numPara) := by
    rw [hperf, hnum]
    exact quotas_exact h.arith h.sum_pos
  have hreset := redivide_eq hcount (hperf ▸ h.perf)
  rw [hquotas, Option.map_some] at hreset
  refine ⟨_, hreset, hseg.trans h.flag, by simp [restarted], by simp [restarted], rfl, hnum,
    hflag, ?_⟩
  intro i c p hc hp
  obtain rfl : c = 0 := by
    have := List.mem_of_getElem? hc
    simp only [restarted, List.mem_replicate] at this
    exact this.2
  have hp0 : 0 ≤ p := by
    obtain ⟨q, hq, rfl⟩ := List.mem_map.mp (List.mem_of_getElem? hp)
    have hnonneg := mul_nonneg (div_nonneg (h.nonneg q hq) h.sum_pos.le) (Nat.cast_nonneg st.numPara)
    exact_mod_cast Int.ceil_nonneg hnonneg
  have hb : (1 : ℚ) ≤ cfg.bigarrayBound := by exact_mod_cast h.bound
  rw [Nat.cast_zero]
  linarith

/-- Key 0's array is a single segment. -/
theorem RedivisionStart.encodeDefaultKey (h : cfg.RedivisionStart st (a :: rest))
    {segs : List Segment} (hrun : cfg.encodeDefaultKey st a = some (segs, st')) :
    cfg.Weighted st.serverPerf st.numPara a.elems st' ∧
      ∀ g ∈ segs, Served st.serverPerf st.numPara g := by
  have ha : a.key = 0 := by simpa using h.first
  obtain ⟨st₀, hredivide, h₀⟩ := h.redivide
  obtain ⟨hpsKv, hseg, -, -⟩ := countPara_frame cfg st a
  have hle := h.first_le a List.mem_cons_self ha
  have hkeys : ¬ ((cfg.countPara st a).psKv a.key).keys ≠ [] := by
    simp [hpsKv, (h.cleared a List.mem_cons_self).1]
  have hn : cfg.numServers ≠ 0 := Nat.pos_iff_ne_zero.mp h.servers
  rw [ShardConfig.encodeDefaultKey, if_neg hkeys] at hrun
  obtain ⟨⟨segs', st₁⟩, hdiv, hrun⟩ := Option.bind_eq_some_iff.mp hrun
  dsimp only at hrun
  split_ifs at hrun
  obtain ⟨rfl, rfl⟩ := Prod.mk.inj (Option.some.inj hrun)
  simp only [divide, hn, if_false, h.original, Bool.false_eq_true, hseg, h.flag, ne_eq,
    not_true_eq_false, and_false, Option.bind_eq_bind, Option.bind_some, ShardConfig.segments,
    not_lt.mpr hle, ShardConfig.nextSegment, ha, if_true, hredivide,
    Option.bind_eq_some_iff] at hdiv
  obtain ⟨⟨g, st₂⟩, ⟨log, hfind, htake⟩, hr⟩ := hdiv
  obtain ⟨rfl, rfl⟩ := Prod.mk.inj (Option.some.inj hr)
  obtain ⟨h₁, hg⟩ := h₀.takeKey h.arith hfind htake
  rw [segmentLen, if_neg (not_lt.mpr hle), Nat.zero_add] at h₁
  exact ⟨⟨h₁.flag, h₁.counts, h₁.sum_counts, h₁.serverPerf, h₁.numPara, h₁.numParaFlag,
    h₁.bounded⟩, by simpa using hg⟩

theorem RedivisionStart.later (h : cfg.RedivisionStart st (a :: rest)) :
    ∀ b ∈ rest, b.key ≠ 0 := by
  intro b hb hzero
  have ha : a.key = 0 := by simpa using h.first
  exact (List.nodup_cons.mp h.nodup).1 (ha ▸ hzero ▸ List.mem_map_of_mem hb)

theorem RedivisionStart.passSearch (h : cfg.RedivisionStart st (a :: rest))
    (hsearch : cfg.PassSearch (a :: rest) st st') : cfg.SearchEnds st' := by
  have ha : a.key = 0 := by simpa using h.first
  have hone := h.sizes a List.mem_cons_self
  have hnum := h.numPara
  rw [List.map_cons, List.sum_cons] at hnum
  cases hsearch with
  | array _ hsearch =>
    cases hsearch with
    | reset _ hredivide =>
      obtain ⟨st₀, hst₀, h₀⟩ := h.redivide
      obtain rfl := Option.some.inj (hst₀.symm.trans hredivide)
      exact h₀.searchEnds h.servers h.perf h.sum_pos (by omega)
    | here hkey => exact absurd ha hkey
    | next hlt => exact absurd (h.first_le a List.mem_cons_self ha) (not_le.mpr hlt)
  | rest hfirst hrest =>
    exact Weighted.passSearch h.arith h.servers h.perf h.sum_pos h.original h.later
      (fun b hb => h.sizes b (List.mem_cons_of_mem _ hb)) (h.encodeDefaultKey hfirst).1
      (by omega) hrest

theorem RedivisionStart.pass (h : cfg.RedivisionStart st (a :: rest))
    {log : List (List Segment)} (hrun : cfg.encodePass (a :: rest) st = some (log, st')) :
    (∃ A, cfg.Weighted st.serverPerf st.numPara A st') ∧
      ∀ g ∈ log.flatten, Served st.serverPerf st.numPara g := by
  simp only [encodePass, Option.bind_eq_bind, Option.bind_eq_some_iff] at hrun
  obtain ⟨⟨segs, st₁⟩, hfirst, ⟨log', st₂⟩, hrest, hr⟩ := hrun
  obtain ⟨rfl, rfl⟩ := Prod.mk.inj (Option.some.inj hr)
  obtain ⟨h₁, hall⟩ := h.encodeDefaultKey hfirst
  obtain ⟨h₂, hall'⟩ := Weighted.pass h.arith h.original rest h.later h₁ hrest
  rw [List.flatten_cons]
  exact ⟨h₂, List.forall_mem_append.mpr ⟨hall, hall'⟩⟩

end Start

/-- In a pass by performance every search for a server ends within `num_servers` steps. No segment
goes to a server of performance zero, and at the end no server has its quota and a whole segment.
As long as the counters and sizes fit an `int`, the pass does end. -/
theorem redivision_respects_quotas {arrays : List Entry} (h : cfg.RedivisionStart st arrays) :
    (∀ st', cfg.PassSearch arrays st st' → cfg.SearchEnds st') ∧
    (∀ r, cfg.encodePass arrays st = some r →
      (∀ g ∈ r.1.flatten, ∃ p, st.serverPerf[g.server]? = some p ∧ 0 < p) ∧
      ∀ (i c : ℕ) (p : ℚ), r.2.numParaCount[i]? = some c → st.serverPerf[i]? = some p →
        (c : ℚ) < ⌈p / st.serverPerf.sum * st.numPara⌉ + cfg.bigarrayBound) ∧
    ((∀ a ∈ arrays, a.elems * a.numBytes < 2 ^ 31) →
      cfg.numServers * (arrays.map fun a => cfg.segCount a.elems).sum < 2 ^ 31 →
      ∃ r, cfg.encodePass arrays st = some r) := by
  obtain ⟨a, rest, rfl⟩ : ∃ a rest, arrays = a :: rest := by
    cases arrays with
    | nil => simpa using h.first
    | cons a rest => exact ⟨a, rest, rfl⟩
  have ha : a.key = 0 := by simpa using h.first
  have hpos : 0 < st.numPara := by
    have := h.sizes a List.mem_cons_self
    rw [h.numPara, List.map_cons, List.sum_cons]
    omega
  refine ⟨fun st' hsearch => h.passSearch hsearch, ?_, fun hbytes hfits => ?_⟩
  · rintro ⟨log, st'⟩ hrun
    obtain ⟨⟨A, hA⟩, hserved⟩ := h.pass hrun
    constructor
    · intro g hg
      obtain ⟨q, hq, hlt⟩ := hserved g hg
      rw [exactQuotas, List.getElem?_map, Option.map_eq_some_iff] at hq
      obtain ⟨p, hp, rfl⟩ := hq
      refine ⟨p, hp, ?_⟩
      by_contra hle
      exact absurd ((exactQuota_le_zero_iff h.sum_pos hpos p).mpr (not_lt.mp hle)) (not_le.mpr hlt)
    · intro i c p hc hp
      refine hA.bounded i c _ hc ?_
      rw [exactQuotas, List.getElem?_map, hp]
      rfl
  · have hstart : cfg.PassStart st (a :: rest) :=
      ⟨h.servers, h.bound, h.original, h.first,
        ⟨h.nodup, fun b hb => ⟨h.sizes b hb, hbytes b hb⟩, h.cleared⟩, h.counts,
        fun _ => ⟨h.perf, fun p _ => h.arith ▸ Arithmetic.value_exact p, h.sum_pos, h.counted,
          h.numPara⟩⟩
    refine (hstart.encodePass_spec (.inr (h.first_le a List.mem_cons_self ha))).2 ⟨hfits, fun _ =>
      ⟨_, quotas_exact h.arith h.sum_pos, le_sum_exactQuotas h.sum_pos _, fun c _ => ?_⟩⟩
    exact h.arith ▸ Arithmetic.value_exact c

/-- Two servers of performances 1 and 2, and arrays of 4 and 8 elements. -/
theorem redivision_respects_quotas_two_servers :
    RedivisionStart ⟨2, 4, false, .exact⟩ (redividing [1, 2] 12) [⟨0, 4, 4⟩, ⟨1, 8, 4⟩] ∧
      ∃ r, encodePass ⟨2, 4, false, .exact⟩ [⟨0, 4, 4⟩, ⟨1, 8, 4⟩] (redividing [1, 2] 12) =
        some r := by
  have hstart : RedivisionStart ⟨2, 4, false, .exact⟩ (redividing [1, 2] 12)
      [⟨0, 4, 4⟩, ⟨1, 8, 4⟩] :=
    { servers := by decide
      bound := by decide
      original := rfl
      arith := rfl
      flag := rfl
      nodup := by decide
      first := rfl
      first_le := by decide
      sizes := by decide
      cleared := fun _ _ => ⟨rfl, rfl⟩
      counts := .inl rfl
      perf := rfl
      nonneg := by simp [redividing]
      sum_pos := by norm_num [redividing]
      counted := le_rfl
      numPara := rfl }
  exact ⟨hstart, (redivision_respects_quotas hstart).2.2 (by decide) (by decide)⟩

end NetStorm.ShardConfig

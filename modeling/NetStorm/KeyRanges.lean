import Mathlib.Algebra.Order.Ring.Abs
import Mathlib.Data.Int.GCD
import Mathlib.Algebra.Order.Ring.Int
import Mathlib.Data.Nat.Prime.Basic
import Mathlib.Tactic.LinearCombination
import Mathlib.Tactic.Linarith
import Mathlib.Tactic.Ring

/-!
# Key ranges and the slots of `update_buf_`

Every server owns a range of `floor((2^64-1)/n)` of the 64-bit keys. `update_buf_` is
indexed by `int`, so two keys meet in one slot when they agree modulo `2^32`. For keys
of different servers this is decided by the remainder of `2^64 - 1` modulo `n`.
-/
namespace NetStorm

/-- `kMaxKey`, the largest 64-bit key. -/
def kMaxKey : ℕ := 2 ^ 64 - 1

/-- The ranges of `Postoffice::GetServerKeyRanges`. -/
def rangeBegin (n i : ℕ) : ℕ := kMaxKey / n * i

def rangeEnd (n i : ℕ) : ℕ := kMaxKey / n * (i + 1)

/-- The conversion of an unsigned number to `int`. -/
def toInt32 (x : ℕ) : ℤ := Int.bmod x (2 ^ 32)

theorem toInt32_of_lt {x : ℕ} (h : x < 2 ^ 31) : toInt32 x = x := by
  apply Int.bmod_eq_of_le <;> push_cast <;> omega

/-- The slot of `update_buf_` that a key indexes. -/
def slot (key : ℕ) : ℤ := toInt32 key

theorem bmod_eq_bmod_iff_dvd (a b : ℤ) (m : ℕ) : a.bmod m = b.bmod m ↔ (m : ℤ) ∣ a - b := by
  rw [Int.bmod_eq_bmod_iff_bmod_sub_eq_zero, Int.dvd_iff_bmod_eq_zero]

theorem slot_eq_iff {k k' : ℕ} : slot k = slot k' ↔ (2 ^ 32 : ℤ) ∣ (k : ℤ) - k' := by
  have h := bmod_eq_bmod_iff_dvd k k' (2 ^ 32)
  rwa [show ((2 ^ 32 : ℕ) : ℤ) = 2 ^ 32 by push_cast] at h

/-- The keys of an even sharding pass: the begin of some server's range plus an offset
below `2^31 / n`. -/
def EvenKey (n k : ℕ) : Prop := ∃ i o, i < n ∧ o * n < 2 ^ 31 ∧ k = rangeBegin n i + o

/-- The number of servers keeps the slots of an even pass apart: at every distance `d` of
two servers the ranges are displaced by too much to be made up for by offsets. -/
def SlotsApart (n : ℕ) : Prop :=
  ∀ d, 0 < d → d < n →
    (2 ^ 31 : ℤ) ≤ |2 ^ 32 * ((2 ^ 32 * d % n : ℕ) : ℤ) - ((kMaxKey % n + 1 : ℕ) : ℤ) * d|

theorem mul_rangeSize (n : ℕ) :
    (n : ℤ) * (kMaxKey / n : ℕ) = 2 ^ 64 - (kMaxKey % n + 1 : ℕ) := by
  have h := Nat.div_add_mod kMaxKey n
  have hk : (kMaxKey : ℤ) = 2 ^ 64 - 1 := by norm_num [kMaxKey]
  have h' : (n : ℤ) * (kMaxKey / n : ℕ) + (kMaxKey % n : ℕ) = kMaxKey := by exact_mod_cast h
  push_cast at h' ⊢
  linarith

/-- Ranges at distance `d` that are not apart hold two keys with one slot. -/
theorem exists_slot_eq {n d : ℕ} (hn : n < 2 ^ 31) (hd : 0 < d) (hdn : d < n)
    (h : |2 ^ 32 * ((2 ^ 32 * d % n : ℕ) : ℤ) - ((kMaxKey % n + 1 : ℕ) : ℤ) * d| < 2 ^ 31) :
    ∃ k k', EvenKey n k ∧ EvenKey n k' ∧ k ≠ k' ∧ slot k = slot k' := by
  set q := kMaxKey / n
  set e := 2 ^ 32 * d % n
  set m := 2 ^ 32 * d / n
  have hm : (n : ℤ) * m + e = 2 ^ 32 * d := by
    exact_mod_cast Nat.div_add_mod (2 ^ 32 * d) n
  have hpos : 0 < m := Nat.div_pos (by omega) (by omega)
  have hx : (n : ℤ) * (q * d - 2 ^ 32 * m) = 2 ^ 32 * e - (kMaxKey % n + 1 : ℕ) * d := by
    linear_combination (d : ℤ) * mul_rangeSize n - 2 ^ 32 * hm
  rw [← hx] at h
  have hmul := abs_lt.mp h
  rcases le_or_gt 0 ((q : ℤ) * d - 2 ^ 32 * m) with hle | hlt
  · obtain ⟨x, hx'⟩ := Int.eq_ofNat_of_zero_le hle
    rw [hx'] at hmul
    refine ⟨q * d, x, ⟨d, 0, hdn, by simp, by simp [rangeBegin, q]⟩,
      ⟨0, x, by omega, by rw [Nat.mul_comm]; exact_mod_cast hmul.2, by simp [rangeBegin]⟩, ?_,
      slot_eq_iff.mpr ⟨m, by push_cast; linarith⟩⟩
    intro he
    have : (q : ℤ) * d = x := by exact_mod_cast he
    omega
  · obtain ⟨x, hx'⟩ := Int.eq_ofNat_of_zero_le (neg_nonneg.mpr hlt.le)
    have hneg : (q : ℤ) * d - 2 ^ 32 * m = -(x : ℤ) := by omega
    rw [hneg] at hmul
    have hbound : (x : ℤ) * n < 2 ^ 31 := by nlinarith [hmul.1]
    refine ⟨q * d + x, 0, ⟨d, x, hdn, by exact_mod_cast hbound, by simp [rangeBegin, q]⟩,
      ⟨0, 0, by omega, by simp, by simp [rangeBegin]⟩, by omega,
      slot_eq_iff.mpr ⟨m, by push_cast; linarith⟩⟩

/-- Two keys of different servers with one slot show that their ranges are not apart. -/
theorem not_apart_of_slot_eq {n i i' o o' : ℕ} (hn : n < 2 ^ 31) (hi : i < n) (hlt : i' < i)
    (ho : o * n < 2 ^ 31) (ho' : o' * n < 2 ^ 31)
    (h : slot (rangeBegin n i + o) = slot (rangeBegin n i' + o')) :
    |2 ^ 32 * ((2 ^ 32 * (i - i') % n : ℕ) : ℤ) - ((kMaxKey % n + 1 : ℕ) : ℤ) * (i - i' : ℕ)| <
      2 ^ 31 := by
  obtain ⟨M, hM⟩ := slot_eq_iff.mp h
  obtain ⟨d, rfl⟩ : ∃ d, i = i' + d := ⟨i - i', by omega⟩
  rw [Nat.add_sub_cancel_left]
  have hq := mul_rangeSize n
  have hr : ((kMaxKey % n + 1 : ℕ) : ℤ) ≤ n := by
    exact_mod_cast Nat.mod_lt kMaxKey (show 0 < n by omega)
  have hr0 : (0 : ℤ) ≤ ((kMaxKey % n + 1 : ℕ) : ℤ) := Int.natCast_nonneg _
  set r : ℤ := ((kMaxKey % n + 1 : ℕ) : ℤ)
  -- `E` is congruent to `2^32 d` modulo `n`, and the bound leaves it no room outside `[0, n)`.
  obtain ⟨E, hE⟩ : ∃ E : ℤ, E = 2 ^ 32 * d - n * M := ⟨_, rfl⟩
  have hEo : 2 ^ 32 * E - r * d = n * (o' - o) := by
    have hM' : ((kMaxKey / n : ℕ) : ℤ) * d + o - o' = 2 ^ 32 * M := by
      rw [← hM]
      simp only [rangeBegin, Nat.cast_add, Nat.cast_mul]
      ring
    linear_combination 2 ^ 32 * hE + (n : ℤ) * hM' - (d : ℤ) * hq
  have hsmall : |2 ^ 32 * E - r * d| < 2 ^ 31 := by
    have h₁ : (o : ℤ) * n < 2 ^ 31 := by exact_mod_cast ho
    have h₂ : (o' : ℤ) * n < 2 ^ 31 := by exact_mod_cast ho'
    have h₃ : (0 : ℤ) ≤ o * n := Int.natCast_nonneg (o * n)
    have h₄ : (0 : ℤ) ≤ o' * n := Int.natCast_nonneg (o' * n)
    rw [hEo, abs_lt]
    constructor <;> linarith
  have hd : (d : ℤ) ≤ 2 ^ 31 := by omega
  have hn0 : (1 : ℤ) ≤ n := by omega
  have hrd : r * d ≤ n * 2 ^ 31 :=
    mul_le_mul hr hd (Int.natCast_nonneg d) (by omega)
  have hrd0 : 0 ≤ r * d := mul_nonneg hr0 (Int.natCast_nonneg d)
  obtain ⟨hl, hu⟩ := abs_lt.mp hsmall
  have hE0 : 0 ≤ E := by
    by_contra hneg
    have : E ≤ -1 := by omega
    linarith
  have hEn : E < n := by
    by_contra hge
    have : (n : ℤ) ≤ E := by omega
    linarith
  have hmod : ((2 ^ 32 * d % n : ℕ) : ℤ) = E := by
    have hsum : ((2 ^ 32 * d : ℕ) : ℤ) = E + n * M := by
      rw [hE]
      push_cast
      ring
    rw [Int.natCast_mod, hsum, Int.add_mul_emod_self_left, Int.emod_eq_of_lt hE0 hEn]
  rw [hmod]
  exact hsmall

/-- The slots of an even pass are distinct exactly when the ranges are apart. -/
theorem slots_distinct_iff_apart {n : ℕ} (hn : n < 2 ^ 31) :
    (∀ k k', EvenKey n k → EvenKey n k' → k ≠ k' → slot k ≠ slot k') ↔ SlotsApart n := by
  constructor
  · intro h d hd hdn
    by_contra hlt
    obtain ⟨k, k', hk, hk', hne, heq⟩ := exists_slot_eq hn hd hdn (not_le.mp hlt)
    exact h k k' hk hk' hne heq
  · rintro h k k' ⟨i, o, hi, ho, rfl⟩ ⟨i', o', hi', ho', rfl⟩ hne heq
    rcases lt_trichotomy i i' with hlt | rfl | hlt
    · exact absurd (h (i' - i) (by omega) (by omega))
        (not_le.mpr (not_apart_of_slot_eq hn hi' hlt ho' ho heq.symm))
    · obtain ⟨M, hM⟩ := slot_eq_iff.mp heq
      have h₁ : o < 2 ^ 31 := lt_of_le_of_lt (Nat.le_mul_of_pos_right o (by omega)) ho
      have h₂ : o' < 2 ^ 31 := lt_of_le_of_lt (Nat.le_mul_of_pos_right o' (by omega)) ho'
      push_cast at hM
      omega
    · exact absurd (h (i - i') (by omega) (by omega))
        (not_le.mpr (not_apart_of_slot_eq hn hi hlt ho ho' heq))

/-- Up to 46341 servers only the parity of their number counts. -/
theorem slotsApart_iff_odd {n : ℕ} (hn : 1 ≤ n) (hsmall : n * (n - 1) ≤ 2 ^ 31) :
    SlotsApart n ↔ Odd n := by
  have hr : kMaxKey % n + 1 ≤ n := Nat.mod_lt _ hn
  constructor
  · intro h
    by_contra hodd
    obtain ⟨d, rfl⟩ := Nat.not_odd_iff_even.mp hodd
    have hmod : 2 ^ 32 * d % (d + d) = 0 :=
      Nat.mod_eq_zero_of_dvd ⟨2 ^ 31, by ring⟩
    have hgap := h d (by omega) (by omega)
    rw [hmod, Nat.cast_zero, mul_zero, zero_sub, abs_neg, abs_of_nonneg (by positivity)] at hgap
    have hbound : (kMaxKey % (d + d) + 1) * d ≤ (d + d) * d := Nat.mul_le_mul_right d hr
    have hle : 2 ^ 31 ≤ (kMaxKey % (d + d) + 1) * d := by exact_mod_cast hgap
    have hd : (d + d) * (d + d - 1) + (d + d) = 2 * ((d + d) * d) := by
      obtain ⟨a, ha⟩ : ∃ a, d + d = a + 1 := ⟨d + d - 1, by omega⟩
      rw [ha, Nat.add_sub_cancel]
      have : (a + 1) * (a + 1) = 2 * ((a + 1) * d) := by rw [← ha]; ring
      linarith [this, Nat.mul_succ (a + 1) a]
    have hsq : d < 2 ^ 16 := by
      by_contra hge
      have : 2 ^ 16 * 2 ^ 16 ≤ d * d := Nat.mul_le_mul (by omega) (by omega)
      nlinarith
    nlinarith
  · intro hodd d hd hdn
    have hmod : 1 ≤ 2 ^ 32 * d % n := by
      rw [Nat.one_le_iff_ne_zero]
      intro h0
      have hdvd : n ∣ 2 ^ 32 * d := Nat.dvd_of_mod_eq_zero h0
      have hcop : Nat.Coprime n (2 ^ 32) := Nat.Coprime.pow_right 32 (Nat.coprime_two_right.mpr hodd)
      exact absurd (Nat.le_of_dvd hd (hcop.dvd_of_dvd_mul_left hdvd)) (by omega)
    have hprod : (kMaxKey % n + 1) * d ≤ 2 ^ 31 :=
      (Nat.mul_le_mul hr (show d ≤ n - 1 by omega)).trans hsmall
    have h₁ : (1 : ℤ) ≤ ((2 ^ 32 * d % n : ℕ) : ℤ) := by exact_mod_cast hmod
    have h₂ : ((kMaxKey % n + 1 : ℕ) : ℤ) * d ≤ 2 ^ 31 := by exact_mod_cast hprod
    refine le_trans ?_ (le_abs_self _)
    linarith

end NetStorm

import Mathlib.Algebra.Order.Field.Power
import Mathlib.Algebra.Order.Field.Rat
import Mathlib.Data.Int.Log
import Mathlib.Data.Rat.Floor
import Mathlib.Tactic.FieldSimp
import Mathlib.Tactic.Linarith
import Mathlib.Tactic.Positivity
import Mathlib.Tactic.Ring

/-!
# Rounding to a binary floating point format

Rational numbers that are not negative, rounded to the nearest number with a given precision
and a smallest exponent, with ties to even. There is no largest exponent here: who needs one
checks the result. Rounding is monotone, keeps the numbers of the format and moves a number
by at most half a unit in its last place.
-/
namespace NetStorm.NearestEven

/-- The nearest integer, with ties to even. -/
def nearest (x : ℚ) : ℤ :=
  if x - ⌊x⌋ < 1 / 2 ∨ x - ⌊x⌋ = 1 / 2 ∧ ⌊x⌋ % 2 = 0 then ⌊x⌋ else ⌊x⌋ + 1

theorem nearest_bounds (x : ℚ) : x - 1 / 2 ≤ nearest x ∧ nearest x ≤ x + 1 / 2 := by
  have hle := Int.floor_le x
  have hlt := Int.lt_floor_add_one x
  rw [nearest]
  split_ifs with h
  · rcases h with h | ⟨h, -⟩ <;> constructor <;> linarith
  · push Not at h
    have := h.1
    push_cast
    constructor <;> linarith

theorem nearest_eq_of_lt {x : ℚ} {n : ℤ} (hlo : n - 1 / 2 < x) (hhi : x < n + 1 / 2) :
    nearest x = n := by
  obtain ⟨h₁, h₂⟩ := nearest_bounds x
  have hlt : (nearest x : ℚ) < n + 1 := by linarith
  have hgt : (n : ℚ) < nearest x + 1 := by linarith
  have hlt' : nearest x < n + 1 := by exact_mod_cast hlt
  have hgt' : n < nearest x + 1 := by exact_mod_cast hgt
  omega

@[simp] theorem nearest_intCast (n : ℤ) : nearest n = n :=
  nearest_eq_of_lt (by linarith) (by linarith)

theorem nearest_mono {x y : ℚ} (h : x ≤ y) : nearest x ≤ nearest y := by
  have hfloor := Int.floor_le_floor h
  rcases hfloor.lt_or_eq with hlt | heq
  · -- an integer lies between
    have hx := (nearest_bounds x).2
    have hy := (nearest_bounds y).1
    have h₁ : nearest x ≤ ⌊x⌋ + 1 := by
      rw [nearest]
      split_ifs <;> omega
    have h₂ : ⌊y⌋ ≤ nearest y := by
      rw [nearest]
      split_ifs <;> omega
    omega
  · rw [nearest, nearest, heq]
    split_ifs with hx hy hy
    · rfl
    · omega
    · exfalso
      push Not at hx
      rcases hy with hy | ⟨hy, heven⟩
      · linarith [hx.1]
      · exact hx.2 (le_antisymm (by linarith) hx.1) heven
    · rfl

/-- A number of bits and the exponent of the last bit of the smallest numbers. -/
structure Format where
  precision : ℕ
  minExponent : ℤ
  pos : 0 < precision

namespace Format
variable (F : Format)

/-- The exponent of the last bit that is kept of a number. -/
def exponent (x : ℚ) : ℤ := max (Int.log 2 x + 1 - F.precision) F.minExponent

/-- A number that is not negative, rounded. -/
def round (x : ℚ) : ℚ := nearest (x / 2 ^ F.exponent x) * 2 ^ F.exponent x

/-- The numbers of the format. -/
def Holds (v : ℚ) : Prop :=
  ∃ m : ℕ, ∃ e : ℤ, m < 2 ^ F.precision ∧ F.minExponent ≤ e ∧ v = m * 2 ^ e

variable {F}

theorem two_zpow_pos (e : ℤ) : (0 : ℚ) < 2 ^ e := by positivity

theorem lt_two_zpow {x : ℚ} : x < 2 ^ (F.exponent x + F.precision) := by
  have hlog := Int.lt_zpow_succ_log_self (b := 2) one_lt_two x
  refine lt_of_lt_of_le hlog (zpow_le_zpow_right₀ one_le_two ?_)
  have := le_max_left (Int.log 2 x + 1 - F.precision) F.minExponent
  rw [exponent]
  omega

/-- Above the smallest exponent all bits are used. -/
theorem two_zpow_le {x : ℚ} (hx : 0 < x) (hexp : F.minExponent < F.exponent x) :
    2 ^ (F.exponent x + F.precision - 1) ≤ x := by
  have hlog := Int.zpow_log_le_self (b := 2) one_lt_two hx
  refine le_trans (zpow_le_zpow_right₀ one_le_two ?_) hlog
  rw [exponent] at *
  omega

theorem round_le_two_zpow (x : ℚ) : F.round x ≤ 2 ^ (F.exponent x + F.precision) := by
  have hpos := two_zpow_pos (F.exponent x)
  have hdiv : x / 2 ^ F.exponent x ≤ ((2 ^ F.precision : ℕ) : ℤ) := by
    rw [div_le_iff₀ hpos]
    push_cast
    rw [mul_comm, ← zpow_natCast, ← zpow_add₀ two_ne_zero]
    exact lt_two_zpow.le
  have hnear := nearest_mono hdiv
  rw [nearest_intCast] at hnear
  have hcast : (nearest (x / 2 ^ F.exponent x) : ℚ) ≤ 2 ^ F.precision := by exact_mod_cast hnear
  rw [round, zpow_add₀ two_ne_zero, mul_comm (2 ^ F.exponent x) _, zpow_natCast]
  exact mul_le_mul_of_nonneg_right hcast hpos.le

theorem two_zpow_le_round {x : ℚ} (hx : 0 < x) (hexp : F.minExponent < F.exponent x) :
    2 ^ (F.exponent x + F.precision - 1) ≤ F.round x := by
  have hpos := two_zpow_pos (F.exponent x)
  have hsplit : (2 : ℚ) ^ (F.exponent x + F.precision - 1) =
      2 ^ (F.precision - 1) * 2 ^ F.exponent x := by
    have hprec := F.pos
    rw [← zpow_natCast, ← zpow_add₀ two_ne_zero]
    congr 1
    omega
  have hdiv : (((2 ^ (F.precision - 1) : ℕ) : ℤ) : ℚ) ≤ x / 2 ^ F.exponent x := by
    rw [le_div_iff₀ hpos]
    push_cast
    rw [← hsplit]
    exact two_zpow_le hx hexp
  have hnear := nearest_mono hdiv
  rw [nearest_intCast] at hnear
  have hcast : (2 : ℚ) ^ (F.precision - 1) ≤ nearest (x / 2 ^ F.exponent x) := by
    exact_mod_cast hnear
  rw [round, hsplit]
  exact mul_le_mul_of_nonneg_right hcast hpos.le

theorem exponent_mono {x y : ℚ} (hx : 0 < x) (h : x ≤ y) : F.exponent x ≤ F.exponent y := by
  have := Int.log_mono_right (b := 2) hx h
  rw [exponent, exponent]
  omega

theorem round_zero : F.round 0 = 0 := by simp [round, nearest]

theorem round_nonneg {x : ℚ} (hx : 0 ≤ x) : 0 ≤ F.round x := by
  have hnear := nearest_mono (show ((0 : ℤ) : ℚ) ≤ x / 2 ^ F.exponent x by
    rw [Int.cast_zero]
    positivity)
  rw [nearest_intCast] at hnear
  have hcast : (0 : ℚ) ≤ nearest (x / 2 ^ F.exponent x) := by exact_mod_cast hnear
  rw [round]
  positivity

theorem round_mono {x y : ℚ} (hx : 0 ≤ x) (h : x ≤ y) : F.round x ≤ F.round y := by
  rcases hx.eq_or_lt with rfl | hpos
  · rw [round_zero]
    exact round_nonneg h
  · rcases (exponent_mono (F := F) hpos h).eq_or_lt with heq | hlt
    · rw [round, round, heq]
      have hdiv : x / 2 ^ F.exponent y ≤ y / 2 ^ F.exponent y :=
        div_le_div_of_nonneg_right h (two_zpow_pos _).le
      have hcast : (nearest (x / 2 ^ F.exponent y) : ℚ) ≤ nearest (y / 2 ^ F.exponent y) := by
        exact_mod_cast nearest_mono hdiv
      exact mul_le_mul_of_nonneg_right hcast (two_zpow_pos _).le
    · -- the larger number has more bits than the smaller one can be rounded to
      have hmin : F.minExponent < F.exponent y := lt_of_le_of_lt (le_max_right _ _) hlt
      calc F.round x ≤ 2 ^ (F.exponent x + F.precision) := round_le_two_zpow x
        _ ≤ 2 ^ (F.exponent y + F.precision - 1) := zpow_le_zpow_right₀ one_le_two (by omega)
        _ ≤ F.round y := two_zpow_le_round (hpos.trans_le h) hmin

/-- A number of the format is kept. -/
theorem round_eq_self {v : ℚ} (h : F.Holds v) : F.round v = v := by
  obtain ⟨m, e, hm, he, rfl⟩ := h
  rcases Nat.eq_zero_or_pos m with rfl | hpos
  · simp [round_zero]
  · have hv : (0 : ℚ) < m * 2 ^ e := by positivity
    have hexp : F.exponent (m * 2 ^ e) ≤ e := by
      have hlt : (m : ℚ) * 2 ^ e < 2 ^ (F.precision + e) := by
        rw [zpow_add₀ two_ne_zero, zpow_natCast]
        exact mul_lt_mul_of_pos_right (by exact_mod_cast hm) (two_zpow_pos e)
      have hlog := (Int.lt_zpow_iff_log_lt (b := 2) one_lt_two hv).mp (by exact_mod_cast hlt)
      rw [exponent]
      omega
    obtain ⟨k, hk⟩ : ∃ k : ℕ, e = F.exponent (m * 2 ^ e) + k :=
      ⟨(e - F.exponent (m * 2 ^ e)).toNat, by omega⟩
    set E := F.exponent (m * 2 ^ e) with hE
    have hint : (m : ℚ) * 2 ^ e / 2 ^ E = ((m * 2 ^ k : ℕ) : ℤ) := by
      rw [hk, zpow_add₀ two_ne_zero, zpow_natCast]
      push_cast
      field_simp
    rw [round, ← hE, hint, nearest_intCast, ← hint, div_mul_cancel₀ _ (two_zpow_pos E).ne']

/-- Half a unit in the last place. -/
theorem round_sub_le (x : ℚ) : x - 2 ^ F.exponent x / 2 ≤ F.round x ∧
    F.round x ≤ x + 2 ^ F.exponent x / 2 := by
  have hpos := two_zpow_pos (F.exponent x)
  obtain ⟨hlo, hhi⟩ := nearest_bounds (x / 2 ^ F.exponent x)
  have hx : x / 2 ^ F.exponent x * 2 ^ F.exponent x = x := div_mul_cancel₀ _ hpos.ne'
  have h₁ := mul_le_mul_of_nonneg_right hlo hpos.le
  have h₂ := mul_le_mul_of_nonneg_right hhi hpos.le
  rw [sub_mul, hx] at h₁
  rw [add_mul, hx] at h₂
  rw [round]
  constructor <;> linarith

/-- The relative error of a number that is not too small. -/
theorem round_sub_le_mul {x : ℚ} (hx : 2 ^ (F.minExponent + F.precision) ≤ x) :
    x - x / 2 ^ F.precision ≤ F.round x ∧ F.round x ≤ x + x / 2 ^ F.precision := by
  have hpos : 0 < x := (two_zpow_pos _).trans_le hx
  have hlog := (Int.zpow_le_iff_le_log (b := 2) one_lt_two hpos).mp (by exact_mod_cast hx)
  have hexp : F.exponent x = Int.log 2 x + 1 - F.precision := by
    rw [exponent]
    omega
  have hle : (2 : ℚ) ^ F.exponent x / 2 ≤ x / 2 ^ F.precision := by
    have hself := Int.zpow_log_le_self (b := 2) one_lt_two hpos
    rw [hexp, zpow_sub₀ two_ne_zero, zpow_add₀ two_ne_zero, zpow_one, zpow_natCast,
      mul_div_right_comm, mul_div_cancel_right₀ _ two_ne_zero]
    exact div_le_div_of_nonneg_right (by exact_mod_cast hself) (by positivity)
  have h := round_sub_le (F := F) x
  constructor <;> linarith

theorem exponent_eq {y : ℚ} {E : ℤ} (hE : F.minExponent ≤ E)
    (hlo : 2 ^ (E + F.precision - 1) ≤ y) (hhi : y < 2 ^ (E + F.precision)) :
    F.exponent y = E := by
  have hpos : 0 < y := (two_zpow_pos _).trans_le hlo
  have h₁ := (Int.zpow_le_iff_le_log (b := 2) one_lt_two hpos).mp (by exact_mod_cast hlo)
  have h₂ := (Int.lt_zpow_iff_log_lt (b := 2) one_lt_two hpos).mp (by exact_mod_cast hhi)
  rw [exponent]
  omega

/-- A number is rounded to `M * 2 ^ E` if it is nearer to it than half a unit in the last place
and has as many digits. -/
theorem round_eq_of_near {y : ℚ} {M E : ℤ} (hE : F.minExponent ≤ E) (hM : M < 2 ^ F.precision)
    (hlo : 2 ^ (E + F.precision - 1) ≤ y) (hnear : |y - M * 2 ^ E| < 2 ^ E / 2) :
    F.round y = M * 2 ^ E := by
  have hpos := two_zpow_pos E
  obtain ⟨h₁, h₂⟩ := abs_lt.mp hnear
  have hhi : y < 2 ^ (E + F.precision) := by
    have hMq : (M : ℚ) + 1 ≤ 2 ^ F.precision := by exact_mod_cast hM
    have hmul := mul_le_mul_of_nonneg_right hMq hpos.le
    rw [zpow_add₀ two_ne_zero, zpow_natCast, mul_comm]
    linarith
  have hdiv : y = y / 2 ^ E * 2 ^ E := (div_mul_cancel₀ _ hpos.ne').symm
  rw [round, exponent_eq hE hlo hhi, nearest_eq_of_lt (n := M)]
  · rw [lt_div_iff₀ hpos]
    linarith
  · rw [div_lt_iff₀ hpos]
    linarith

/-- What comes out of rounding is a number of the format. -/
theorem holds_round {x : ℚ} (hx : 0 ≤ x) : F.Holds (F.round x) := by
  have hpos := two_zpow_pos (F.exponent x)
  have hmin : F.minExponent ≤ F.exponent x := le_max_right _ _
  have hnonneg : (0 : ℚ) ≤ nearest (x / 2 ^ F.exponent x) := by
    have h := round_nonneg (F := F) hx
    rw [round] at h
    exact nonneg_of_mul_nonneg_left h hpos
  obtain ⟨m, hm⟩ := Int.eq_ofNat_of_zero_le (by exact_mod_cast hnonneg)
  have hle : m ≤ 2 ^ F.precision := by
    have h := round_le_two_zpow (F := F) x
    rw [round, hm, zpow_add₀ two_ne_zero, mul_comm (2 ^ F.exponent x) _, zpow_natCast] at h
    exact_mod_cast le_of_mul_le_mul_right h hpos
  rw [round, hm]
  rcases hle.lt_or_eq with hlt | heq
  · exact ⟨m, _, hlt, hmin, rfl⟩
  · -- the carry into one bit more
    refine ⟨2 ^ (F.precision - 1), F.exponent x + 1,
      Nat.pow_lt_pow_right one_lt_two (Nat.sub_lt F.pos one_pos), by omega, ?_⟩
    have hpow : (2 : ℚ) ^ F.precision = 2 ^ (F.precision - 1) * 2 := by
      rw [← pow_succ, Nat.sub_add_cancel F.pos]
    rw [heq, zpow_add₀ two_ne_zero, zpow_one]
    push_cast
    rw [hpow]
    ring

/-- A multiple of the smallest number of the format. -/
def Multiple (F : Format) (x : ℚ) : Prop := ∃ m : ℕ, x = m * 2 ^ F.minExponent

theorem Multiple.add {x y : ℚ} (hx : F.Multiple x) (hy : F.Multiple y) : F.Multiple (x + y) := by
  obtain ⟨m, rfl⟩ := hx
  obtain ⟨n, rfl⟩ := hy
  exact ⟨m + n, by push_cast; ring⟩

theorem Holds.multiple {x : ℚ} (hx : F.Holds x) : F.Multiple x := by
  obtain ⟨m, e, -, he, rfl⟩ := hx
  obtain ⟨k, rfl⟩ : ∃ k : ℕ, e = F.minExponent + k := ⟨(e - F.minExponent).toNat, by omega⟩
  refine ⟨m * 2 ^ k, ?_⟩
  rw [zpow_add₀ two_ne_zero, zpow_natCast]
  push_cast
  ring

/-- Half a unit in the last place in terms of the number. -/
theorem two_zpow_exponent_le {x : ℚ} (hx : 0 < x) (hexp : F.minExponent < F.exponent x) :
    2 ^ F.exponent x / 2 ≤ x / 2 ^ F.precision := by
  have hle := two_zpow_le hx hexp
  rw [zpow_sub₀ two_ne_zero, zpow_add₀ two_ne_zero, zpow_one, zpow_natCast] at hle
  rw [le_div_iff₀ (by positivity)]
  calc (2 : ℚ) ^ F.exponent x / 2 * 2 ^ F.precision =
      2 ^ F.exponent x * 2 ^ F.precision / 2 := by ring
    _ ≤ x := hle

/-- Multiples of the smallest number have the relative error of larger numbers. -/
theorem Multiple.round_sub_le_mul {x : ℚ} (h : F.Multiple x) :
    x - x / 2 ^ F.precision ≤ F.round x ∧ F.round x ≤ x + x / 2 ^ F.precision := by
  have hx : 0 ≤ x := by
    obtain ⟨m, rfl⟩ := h
    positivity
  have hdiv : 0 ≤ x / 2 ^ F.precision := by positivity
  rcases hx.eq_or_lt with rfl | hpos
  · simp [round_zero]
  rcases (show F.minExponent ≤ F.exponent x from le_max_right _ _).eq_or_lt with hexp | hexp
  · -- no bit is cut off
    have hself : F.round x = x := by
      obtain ⟨m, hm⟩ := h
      have hne := (two_zpow_pos F.minExponent).ne'
      have hint : x / 2 ^ F.minExponent = ((m : ℤ) : ℚ) := by
        rw [hm, mul_div_cancel_right₀ _ hne, Int.cast_natCast]
      rw [round, ← hexp, hint, nearest_intCast, ← hint, div_mul_cancel₀ _ hne]
    rw [hself]
    constructor <;> linarith
  · have hle := two_zpow_exponent_le hpos hexp
    have herr := round_sub_le (F := F) x
    constructor <;> linarith

end Format

/-- `float`. Its largest exponent is checked where a number is made. -/
def binary32 : Format where
  precision := 24
  minExponent := -149
  pos := by decide

/-- The same for numbers of two bytes. -/
def binary16 : Format where
  precision := 11
  minExponent := -24
  pos := by decide

end NetStorm.NearestEven

import Mathlib.Data.Nat.Log
import Mathlib.Tactic.Ring

/-!
# Integers in a binary floating point format

The rounding of an integer to a format with `p` bits of precision, to nearest and with ties
to even. Whatever is rounded here is again an integer, and the exponent range of the format
is never left. A number survives exactly if it is a number of `p` bits times a power of two.
-/
namespace NetStorm.IntegerRounding

/-- The exponent of the last bit of `n` that a format with `p` bits keeps. -/
def ulpExponent (p n : ℕ) : ℕ := n.log2 + 1 - p

/-- A natural number, rounded to `p` bits. -/
def roundNat (p n : ℕ) : ℕ :=
  let u := 2 ^ ulpExponent p n
  if 2 * (n % u) < u ∨ 2 * (n % u) = u ∧ n / u % 2 = 0 then n / u * u else (n / u + 1) * u

/-- An integer, rounded to `p` bits. -/
def roundInt (p : ℕ) (x : ℤ) : ℤ := x.sign * roundNat p x.natAbs

/-- The integers that a format with `p` bits holds exactly. -/
def Representable (p : ℕ) (x : ℤ) : Prop := ∃ m e : ℕ, m < 2 ^ p ∧ x.natAbs = m * 2 ^ e

variable {p : ℕ}

theorem roundNat_eq_self_iff {n : ℕ} : roundNat p n = n ↔ 2 ^ ulpExponent p n ∣ n := by
  have hu : 0 < 2 ^ ulpExponent p n := Nat.two_pow_pos _
  have hdiv := Nat.div_add_mod' n (2 ^ ulpExponent p n)
  have hlt := Nat.mod_lt n hu
  rw [Nat.dvd_iff_mod_eq_zero]
  constructor
  · intro h
    rw [roundNat] at h
    split_ifs at h
    · omega
    · have hsucc : (n / 2 ^ ulpExponent p n + 1) * 2 ^ ulpExponent p n =
          n / 2 ^ ulpExponent p n * 2 ^ ulpExponent p n + 2 ^ ulpExponent p n := by ring
      omega
  · intro h
    have hsmall : 2 * (n % 2 ^ ulpExponent p n) < 2 ^ ulpExponent p n := by omega
    rw [roundNat, if_pos (.inl hsmall)]
    omega

theorem two_pow_ulpExponent_dvd_iff {n : ℕ} :
    2 ^ ulpExponent p n ∣ n ↔ ∃ m e, m < 2 ^ p ∧ n = m * 2 ^ e := by
  constructor
  · rintro ⟨m, hm⟩
    refine ⟨m, ulpExponent p n, ?_, hm.trans (Nat.mul_comm _ _)⟩
    have hn : n < 2 ^ (n.log2 + 1) := Nat.lt_log2_self
    have hle : 2 ^ (n.log2 + 1) ≤ 2 ^ (ulpExponent p n + p) :=
      Nat.pow_le_pow_right (by omega) (by rw [ulpExponent]; omega)
    have hlt : 2 ^ ulpExponent p n * m < 2 ^ ulpExponent p n * 2 ^ p := by
      rw [← hm, ← Nat.pow_add]
      omega
    exact Nat.lt_of_mul_lt_mul_left hlt
  · rintro ⟨m, e, hm, hn⟩
    by_cases h0 : n = 0
    · rw [h0]
      exact dvd_zero _
    have hlt : n < 2 ^ (p + e) := by
      rw [hn, Nat.pow_add]
      exact (Nat.mul_lt_mul_right (Nat.two_pow_pos e)).mpr hm
    have hlog : n.log2 < p + e := (Nat.log2_lt h0).mpr hlt
    have hexp : ulpExponent p n ≤ e := by
      rw [ulpExponent]
      omega
    calc 2 ^ ulpExponent p n ∣ 2 ^ e := Nat.pow_dvd_pow 2 hexp
      _ ∣ m * 2 ^ e := dvd_mul_left _ _
      _ = n := hn.symm

/-- Rounding keeps exactly the integers that the format holds. -/
theorem roundInt_eq_self_iff {x : ℤ} : roundInt p x = x ↔ Representable p x := by
  have hsign := Int.sign_mul_natAbs x
  have hround : roundInt p x = x ↔ roundNat p x.natAbs = x.natAbs := by
    constructor
    · intro h
      by_cases h0 : x = 0
      · subst h0
        simp [roundNat]
      · rw [roundInt] at h
        have heq : x.sign * (roundNat p x.natAbs : ℤ) = x.sign * (x.natAbs : ℤ) := by rw [h, hsign]
        have hne : x.sign ≠ 0 := by rwa [ne_eq, Int.sign_eq_zero_iff_zero]
        exact_mod_cast mul_left_cancel₀ hne heq
    · intro h
      rw [roundInt, h, hsign]
  rw [hround, roundNat_eq_self_iff, two_pow_ulpExponent_dvd_iff, Representable]

theorem representable_of_le (hp : 0 < p) {x : ℤ} (h : x.natAbs ≤ 2 ^ p) : Representable p x := by
  rcases h.eq_or_lt with heq | hlt
  · exact ⟨1, p, Nat.one_lt_two_pow hp.ne', by rw [heq, Nat.one_mul]⟩
  · exact ⟨x.natAbs, 0, hlt, by rw [Nat.pow_zero, Nat.mul_one]⟩

end NetStorm.IntegerRounding

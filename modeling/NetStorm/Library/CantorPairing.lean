import Mathlib.Analysis.Real.Sqrt
import Mathlib.Tactic.Ring

/-!
# The Cantor pairing of natural numbers

Pairs are counted along the diagonals, which begin at the triangular numbers. The diagonal of a
number is found by a square root.
-/
namespace NetStorm.CantorPairing

/-- Where a diagonal begins. -/
def triangle (w : ℕ) : ℕ := w * (w + 1) / 2

/-- The diagonal of a number. -/
def diagonal (n : ℕ) : ℕ := (Nat.sqrt (8 * n + 1) - 1) / 2

/-- The number of a pair. -/
def pair (x y : ℕ) : ℕ := triangle (x + y) + y

theorem two_mul_triangle (w : ℕ) : 2 * triangle w = w * (w + 1) :=
  Nat.mul_div_cancel' (Nat.even_mul_succ_self w).two_dvd

theorem triangle_succ (w : ℕ) : triangle (w + 1) = triangle w + (w + 1) := by
  have h := two_mul_triangle w
  have h' := two_mul_triangle (w + 1)
  have hring : (w + 1) * (w + 1 + 1) = w * (w + 1) + 2 * (w + 1) := by ring
  omega

/-- The square that belongs to a triangular number. -/
theorem eight_mul_triangle (w : ℕ) : 8 * triangle w + 1 = (2 * w + 1) * (2 * w + 1) := by
  have h := two_mul_triangle w
  have hring : (2 * w + 1) * (2 * w + 1) = 4 * (w * (w + 1)) + 1 := by ring
  omega

theorem le_diagonal_iff {w n : ℕ} : w ≤ diagonal n ↔ triangle w ≤ n := by
  have hsquare := eight_mul_triangle w
  have hsqrt := Nat.le_sqrt (m := 2 * w + 1) (n := 8 * n + 1)
  rw [diagonal, Nat.le_div_iff_mul_le Nat.two_pos]
  constructor
  · intro h
    have hpos : 1 ≤ Nat.sqrt (8 * n + 1) := Nat.sqrt_pos.mpr (Nat.succ_pos _)
    have := hsqrt.mp (by omega)
    omega
  · intro h
    have := hsqrt.mpr (by omega)
    omega

/-- A number lies between the beginning of its diagonal and that of the next one. -/
theorem diagonal_eq_iff {w n : ℕ} :
    diagonal n = w ↔ triangle w ≤ n ∧ n < triangle (w + 1) := by
  rw [← le_diagonal_iff, ← not_le, ← le_diagonal_iff]
  omega

theorem triangle_diagonal_le (n : ℕ) : triangle (diagonal n) ≤ n := le_diagonal_iff.mp le_rfl

theorem lt_triangle_diagonal (n : ℕ) : n < triangle (diagonal n) + (diagonal n + 1) :=
  triangle_succ _ ▸ (diagonal_eq_iff.mp rfl).2

theorem diagonal_pair (x y : ℕ) : diagonal (pair x y) = x + y := by
  rw [diagonal_eq_iff, triangle_succ, pair]
  omega

/-- The pair of a number has that number. -/
theorem pair_unpair (n : ℕ) :
    pair (diagonal n - (n - triangle (diagonal n))) (n - triangle (diagonal n)) = n := by
  have hle := triangle_diagonal_le n
  have hlt := lt_triangle_diagonal n
  rw [pair, Nat.sub_add_cancel (by omega)]
  omega

/-- The diagonal over the real numbers. -/
theorem floor_sqrt_eq_diagonal (n : ℕ) : ⌊(√((8 * n + 1 : ℕ) : ℝ) - 1) / 2⌋ = diagonal n := by
  have hpos : 1 ≤ Nat.sqrt (8 * n + 1) := Nat.sqrt_pos.mpr (Nat.succ_pos _)
  have hdiv := Int.floor_div_natCast (√((8 * n + 1 : ℕ) : ℝ) - 1) 2
  rw [Nat.cast_ofNat] at hdiv
  rw [hdiv, Int.floor_sub_one, Real.floor_real_sqrt_eq_nat_sqrt, diagonal]
  omega

end NetStorm.CantorPairing

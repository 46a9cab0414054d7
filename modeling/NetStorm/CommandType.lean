import NetStorm.Library.CantorPairing
import Mathlib.Algebra.Order.Ring.Int

/-!
# The command of a data message

The request type and the data type of a message travel as one `int`. Arithmetic that leaves the
`int`s, the square root of a negative number and a failed `CHECK` have no result. The square
root and its `floor` are exact.
-/
namespace NetStorm
namespace CommandType
open CantorPairing

/-- `DataHandleType`. The values of `RequestType` are `int`s. -/
structure DataHandleType where
  requestType : ℤ
  dtype : ℤ
deriving DecidableEq, Repr

/-- The result of an operation on `int`s. -/
def inInt (x : ℤ) : Option ℤ := if -2 ^ 31 ≤ x ∧ x < 2 ^ 31 then some x else none

/-- `GetCommandType`. -/
def getCommandType (requestType d : ℤ) : Option ℤ := do
  let m := requestType
  let sum ← inInt (m + d)
  let next ← inInt (sum + 1)
  let product ← inInt (sum * next)
  inInt (product.tdiv 2 + d)

/-- `std::floor((std::sqrt(radicand) - 1)/2)`. -/
def floorRoot (radicand : ℤ) : Option ℤ :=
  if radicand < 0 then none else some ((Nat.sqrt radicand.toNat - 1) / 2)

/-- `DepairDataHandleType`. -/
def depairDataHandleType (cmd : ℤ) : Option DataHandleType := do
  let scaled ← inInt (8 * cmd)
  let radicand ← inInt (scaled + 1)
  let w ← floorRoot radicand
  let square ← inInt (w * w)
  let sum ← inInt (square + w)
  let t := sum.tdiv 2
  let y ← inInt (cmd - t)
  let x ← inInt (w - y)
  if x < 0 ∨ y < 0 then none else some ⟨x, y⟩

theorem inInt_eq_some {x y : ℤ} : inInt x = some y ↔ (-2 ^ 31 ≤ x ∧ x < 2 ^ 31) ∧ x = y := by
  rw [inInt, Option.ite_none_right_eq_some, Option.some_inj]

theorem inInt_natCast {x : ℕ} (h : x < 2 ^ 31) : inInt x = some (x : ℤ) :=
  inInt_eq_some.mpr ⟨by omega, rfl⟩

theorem inInt_of_eq {z : ℤ} {x : ℕ} (hz : z = x) (h : x < 2 ^ 31) : inInt z = some (x : ℤ) := by
  rw [hz, inInt_natCast h]

/-- Where the products fit, the command is the number of the pair. -/
theorem getCommandType_natCast {m d : ℕ} (hproduct : (m + d) * (m + d + 1) < 2 ^ 31)
    (hpair : pair m d < 2 ^ 31) : getCommandType m d = some (pair m d : ℤ) := by
  have hsum : m + d + 1 < 2 ^ 31 := by
    by_contra hge
    have := Nat.mul_le_mul (show 2 ≤ m + d by omega) (not_lt.mp hge)
    omega
  have hdiv : ((m + d) * (m + d + 1) : ℕ) / 2 + d = pair m d := rfl
  have hhalf : (((m + d) * (m + d + 1) : ℕ) : ℤ).tdiv 2 = ((m + d) * (m + d + 1) / 2 : ℕ) := by
    rw [Int.tdiv_eq_ediv_of_nonneg (Int.natCast_nonneg _)]
    omega
  simp only [getCommandType, Option.bind_eq_bind, Option.bind_eq_some_iff]
  refine ⟨_, inInt_of_eq (Nat.cast_add m d).symm (by omega), _,
    inInt_of_eq (Nat.cast_add_one (m + d)).symm hsum, _,
    inInt_of_eq (Nat.cast_mul _ _).symm hproduct, ?_⟩
  rw [hhalf, ← Nat.cast_add, hdiv, inInt_natCast hpair]

/-- A command has a value only where the products fit. -/
theorem eq_of_getCommandType {m d : ℕ} {cmd : ℤ} (h : getCommandType m d = some cmd) :
    (m + d) * (m + d + 1) < 2 ^ 31 ∧ cmd = pair m d := by
  simp only [getCommandType, Option.bind_eq_bind, Option.bind_eq_some_iff, inInt_eq_some] at h
  obtain ⟨_, ⟨-, rfl⟩, _, ⟨-, rfl⟩, _, ⟨hproduct, rfl⟩, -, rfl⟩ := h
  have hcast : ((m : ℤ) + d) * (m + d + 1) = ((m + d) * (m + d + 1) : ℕ) := by push_cast; rfl
  rw [hcast] at hproduct ⊢
  rw [Int.tdiv_eq_ediv_of_nonneg (Int.natCast_nonneg _)]
  exact ⟨by omega, by rw [pair, triangle]; norm_cast⟩

theorem floorRoot_natCast (n : ℕ) : floorRoot (8 * n + 1 : ℕ) = some (diagonal n : ℤ) := by
  have hpos : 1 ≤ Nat.sqrt (8 * n + 1) := Nat.sqrt_pos.mpr (Nat.succ_pos _)
  rw [floorRoot, if_neg (by omega), Int.toNat_natCast, diagonal]
  congr 1
  omega

/-- The model's root is the one over the real numbers. -/
theorem floorRoot_eq_floor (n : ℕ) :
    floorRoot (8 * n + 1 : ℕ) = some ⌊(√((8 * n + 1 : ℕ) : ℝ) - 1) / 2⌋ := by
  rw [floorRoot_natCast, floor_sqrt_eq_diagonal]

/-- A command whose multiple fits is split at the beginning of its diagonal. -/
theorem depairDataHandleType_natCast {n : ℕ} (h : 8 * n + 1 < 2 ^ 31) :
    depairDataHandleType n = some ⟨(diagonal n - (n - triangle (diagonal n)) : ℕ),
      (n - triangle (diagonal n) : ℕ)⟩ := by
  have hle := triangle_diagonal_le n
  have hlt := lt_triangle_diagonal n
  have htwo := two_mul_triangle (diagonal n)
  have hself : diagonal n ≤ triangle (diagonal n) + 1 := by
    have := Nat.le_mul_self (diagonal n)
    rw [Nat.mul_succ] at htwo
    omega
  rw [Nat.mul_succ] at htwo
  have hscaled : inInt (8 * n) = some ((8 * n : ℕ) : ℤ) :=
    inInt_of_eq (by push_cast; rfl) (by omega)
  have hradicand : inInt ((8 * n : ℕ) + 1) = some ((8 * n + 1 : ℕ) : ℤ) :=
    inInt_of_eq (Nat.cast_add_one _).symm h
  have hsquare : inInt (diagonal n * diagonal n) = some ((diagonal n * diagonal n : ℕ) : ℤ) :=
    inInt_of_eq (Nat.cast_mul _ _).symm (by omega)
  have hsum : inInt ((diagonal n * diagonal n : ℕ) + diagonal n) =
      some ((2 * triangle (diagonal n) : ℕ) : ℤ) :=
    inInt_of_eq (by rw [htwo, Nat.cast_add]) (by omega)
  have hhalf : ((2 * triangle (diagonal n) : ℕ) : ℤ).tdiv 2 = triangle (diagonal n) := by
    rw [Int.tdiv_eq_ediv_of_nonneg (Int.natCast_nonneg _)]
    omega
  have hy : inInt (n - triangle (diagonal n)) = some ((n - triangle (diagonal n) : ℕ) : ℤ) :=
    inInt_of_eq (Nat.cast_sub hle).symm (by omega)
  have hx : inInt (diagonal n - (n - triangle (diagonal n) : ℕ)) =
      some ((diagonal n - (n - triangle (diagonal n)) : ℕ) : ℤ) :=
    inInt_of_eq (Nat.cast_sub (by omega)).symm (by omega)
  simp only [depairDataHandleType, Option.bind_eq_bind, Option.bind_eq_some_iff]
  refine ⟨_, hscaled, _, hradicand, _, floorRoot_natCast n, _, hsquare, _, hsum, ?_⟩
  rw [hhalf]
  refine ⟨_, hy, _, hx, ?_⟩
  rw [if_neg (by omega)]

/-- What is encoded is decoded, and what is decoded is encoded again. -/
theorem depair_getCommandType :
    (∀ m d cmd : ℤ, 0 ≤ m → 0 ≤ d → getCommandType m d = some cmd → 8 * cmd + 1 < 2 ^ 31 →
      depairDataHandleType cmd = some ⟨m, d⟩) ∧
    ∀ cmd : ℤ, 0 ≤ cmd → 8 * cmd + 1 < 2 ^ 31 → ∃ type, depairDataHandleType cmd = some type ∧
      0 ≤ type.requestType ∧ 0 ≤ type.dtype ∧
      getCommandType type.requestType type.dtype = some cmd := by
  constructor
  · intro m d cmd hm hd h hfits
    lift m to ℕ using hm
    lift d to ℕ using hd
    obtain ⟨-, rfl⟩ := eq_of_getCommandType h
    rw [depairDataHandleType_natCast (by omega), diagonal_pair]
    have hy : pair m d - triangle (m + d) = d := Nat.add_sub_cancel_left ..
    rw [hy, Nat.add_sub_cancel]
  · intro cmd hcmd hfits
    lift cmd to ℕ using hcmd
    refine ⟨_, depairDataHandleType_natCast (by omega), Int.natCast_nonneg _,
      Int.natCast_nonneg _, ?_⟩
    have hpair := pair_unpair cmd
    have hle := triangle_diagonal_le cmd
    have hlt := lt_triangle_diagonal cmd
    have htwo := two_mul_triangle (diagonal cmd)
    rw [getCommandType_natCast ?_ (by omega), hpair]
    rw [Nat.sub_add_cancel (by omega)]
    omega

end CommandType
end NetStorm

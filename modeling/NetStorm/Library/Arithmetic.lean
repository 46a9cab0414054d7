import NetStorm.Library.NearestEven
import Mathlib.Algebra.BigOperators.Group.List.Basic
import Mathlib.Algebra.Order.Ring.Pow

/-!
# Exact and rounded arithmetic

A program over rational numbers computes either exactly or with the values of a floating point
format, where every operation rounds its exact result. A result that is too large has no value.
What a program does in both kinds of arithmetic is proved once; for a running sum of numbers
that are not negative there is the usual bound of the relative error.
-/
namespace NetStorm
open NearestEven

/-- How an operation delivers its result: as it is, or rounded and below a limit. -/
inductive Arithmetic
  | exact
  | rounded (F : Format) (limit : ℚ) (pos : 0 < limit)

namespace Arithmetic

/-- What an operation delivers whose exact result is `x`. -/
def round : Arithmetic → ℚ → Option ℚ
  | exact, x => some x
  | rounded F limit _, x =>
    let r := if x < 0 then -F.round (-x) else F.round x
    if |r| < limit then some r else none

/-- `float`. -/
def single : Arithmetic := rounded binary32 (2 ^ 128) (by positivity)

/-- The numbers that rounding keeps. -/
def Value (A : Arithmetic) (v : ℚ) : Prop := A.round v = some v

/-- A running sum. -/
def sum (A : Arithmetic) (l : List ℚ) : Option ℚ := l.foldlM (fun s x => A.round (s + x)) 0

variable {A : Arithmetic} {F : Format} {limit : ℚ} {pos : 0 < limit} {x y : ℚ}

theorem round_rounded (hx : 0 ≤ x) :
    (rounded F limit pos).round x = if F.round x < limit then some (F.round x) else none := by
  rw [round, if_neg (not_lt.mpr hx), abs_of_nonneg (Format.round_nonneg hx)]

theorem value_exact (v : ℚ) : exact.Value v := rfl

theorem round_nonneg (hx : 0 ≤ x) (h : A.round x = some y) : 0 ≤ y := by
  cases A with
  | exact => exact Option.some.inj h ▸ hx
  | rounded F limit pos =>
    rw [round_rounded hx] at h
    split_ifs at h
    exact Option.some.inj h ▸ Format.round_nonneg hx

/-- A smaller number is rounded to a smaller value, and has one if the larger number does. -/
theorem exists_round_of_le {y' : ℚ} (hx : 0 ≤ x) (hxy : x ≤ y) (h : A.round y = some y') :
    ∃ x', A.round x = some x' ∧ x' ≤ y' := by
  cases A with
  | exact => exact ⟨x, rfl, Option.some.inj h ▸ hxy⟩
  | rounded F limit pos =>
    rw [round_rounded (hx.trans hxy)] at h
    split_ifs at h with hlt
    obtain rfl := Option.some.inj h
    have hmono := Format.round_mono (F := F) hx hxy
    exact ⟨F.round x, by rw [round_rounded hx, if_pos (hmono.trans_lt hlt)], hmono⟩

theorem round_mono {x' y' : ℚ} (hx : 0 ≤ x) (hxy : x ≤ y) (h : A.round x = some x')
    (h' : A.round y = some y') : x' ≤ y' := by
  obtain ⟨z, hz, hle⟩ := exists_round_of_le hx hxy h'
  obtain rfl := Option.some.inj (h.symm.trans hz)
  exact hle

section Sum
variable {l : List ℚ} {S : ℚ}

theorem sum_concat (l : List ℚ) (x : ℚ) :
    A.sum (l ++ [x]) = (A.sum l).bind fun s => A.round (s + x) := by
  simp [sum, List.foldlM_append]

theorem sum_exact (l : List ℚ) : exact.sum l = some l.sum := by
  induction l using List.reverseRecOn with
  | nil => rfl
  | append_singleton l x ih => rw [sum_concat, ih, List.sum_append, List.sum_singleton]; rfl

end Sum

end Arithmetic

end NetStorm

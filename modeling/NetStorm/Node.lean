import Mathlib.Data.Rat.Defs
import Mathlib.Data.Rat.Cast.Defs
import Mathlib.Algebra.Order.Ring.Rat
import Mathlib.Tactic.NormNum

/-!
# Node ids and the numbers on the wire

Servers and workers share one id space: rank `r` is server `2r+8` and worker
`2r+9`, and the scheduler is `1`. The route field of a message is a vector of
floats; they are exact rationals here, and a conversion to `int` truncates.
-/
namespace NetStorm

/-- `Meta::kEmpty`, the largest `int`. -/
def kEmpty : ℤ := 2147483647

/-- `kScheduler`. -/
def kScheduler : ℤ := 1

/-- `Postoffice::ServerRankToID`. -/
def serverRankToID (rank : ℕ) : ℤ := rank * 2 + 8

/-- `Postoffice::WorkerRankToID`. -/
def workerRankToID (rank : ℕ) : ℤ := rank * 2 + 9

theorem serverRankToID_injective : Function.Injective serverRankToID := by
  intro a b h
  simp only [serverRankToID] at h
  omega

theorem workerRankToID_injective : Function.Injective workerRankToID := by
  intro a b h
  simp only [workerRankToID] at h
  omega

@[simp] theorem serverRankToID_inj {a b : ℕ} : serverRankToID a = serverRankToID b ↔ a = b :=
  serverRankToID_injective.eq_iff

@[simp] theorem workerRankToID_inj {a b : ℕ} : workerRankToID a = workerRankToID b ↔ a = b :=
  workerRankToID_injective.eq_iff

theorem serverRankToID_add_one (a : ℕ) : serverRankToID a + 1 = workerRankToID a := by
  simp only [serverRankToID, workerRankToID]
  omega

@[simp] theorem serverRankToID_ne_worker (a b : ℕ) : serverRankToID a ≠ workerRankToID b := by
  simp only [serverRankToID, workerRankToID]
  omega

@[simp] theorem workerRankToID_ne_server (a b : ℕ) : workerRankToID a ≠ serverRankToID b :=
  (serverRankToID_ne_worker b a).symm

@[simp] theorem serverRankToID_ne_kEmpty (a : ℕ) : serverRankToID a ≠ kEmpty := by
  simp only [serverRankToID, kEmpty]
  omega

/-- The conversion of a float to `int`. -/
def truncInt (x : ℚ) : ℤ := x.num.tdiv x.den

@[simp] theorem truncInt_intCast (k : ℤ) : truncInt k = k := by simp [truncInt]

@[simp] theorem truncInt_natCast (k : ℕ) : truncInt k = k := by
  have h := truncInt_intCast k
  simpa using h

end NetStorm

import Mathlib.Algebra.Order.Ring.Int
import Mathlib.Data.List.TakeWhile
import Mathlib.Order.Basic

/-!
# Windows of a sorted list

The positions that a binary search finds for the bounds of an interval cut a window out of a
sorted list. The windows of adjacent intervals make up the list.
-/
namespace NetStorm.SortedWindows
variable {α : Type} [LinearOrder α]

/-- The position of the first element that is not below `x`. -/
def lowerBound (l : List α) (x : α) : ℕ := (l.takeWhile (· < x)).length

/-- The position of the first element above `x`. -/
def upperBound (l : List α) (x : α) : ℕ := (l.takeWhile (· ≤ x)).length

/-- The elements from one position up to another. -/
def window (l : List α) (first last : ℕ) : List α := (l.take last).drop first

theorem take_lowerBound (l : List α) (x : α) :
    l.take (lowerBound l x) = l.takeWhile (· < x) :=
  (List.prefix_iff_eq_take.mp (List.takeWhile_prefix _)).symm

theorem lt_of_mem_take {l : List α} {x y : α} (h : y ∈ l.take (lowerBound l x)) : y < x := by
  rw [take_lowerBound] at h
  simpa using List.mem_takeWhile_imp h

theorem le_of_mem_drop {l : List α} (hl : l.Pairwise (· < ·)) {x y : α}
    (h : y ∈ l.drop (lowerBound l x)) : x ≤ y := by
  induction l with
  | nil => simp at h
  | cons a l ih =>
    obtain ⟨hhead, htail⟩ := List.pairwise_cons.mp hl
    by_cases ha : a < x
    · exact ih htail (by simpa [lowerBound, ha] using h)
    · rw [lowerBound, List.takeWhile_cons_of_neg (by simpa using ha)] at h
      rcases List.mem_cons.mp h with rfl | hy
      · exact not_lt.mp ha
      · exact (not_lt.mp ha).trans (hhead y hy).le

theorem lowerBound_mono (l : List α) {x y : α} (hxy : x ≤ y) :
    lowerBound l x ≤ lowerBound l y := by
  induction l with
  | nil => rfl
  | cons a l ih =>
    by_cases ha : a < x
    · simpa [lowerBound, ha, ha.trans_le hxy] using ih
    · simp [lowerBound, ha]

theorem mem_window {l : List α} (hl : l.Pairwise (· < ·)) {x y z : α}
    (h : z ∈ window l (lowerBound l x) (lowerBound l y)) : x ≤ z ∧ z < y := by
  refine ⟨?_, lt_of_mem_take (List.mem_of_mem_drop h)⟩
  rw [window, List.drop_take] at h
  exact le_of_mem_drop hl (List.mem_of_mem_take h)

omit [LinearOrder α] in
theorem window_append (l : List α) {i j k : ℕ} (hij : i ≤ j) (hjk : j ≤ k) :
    window l i j ++ window l j k = window l i k := by
  simp only [window, List.drop_take]
  rw [show k - i = (j - i) + (k - j) by omega, List.take_add, List.drop_drop,
    show i + (j - i) = j by omega]

/-- The windows of adjacent intervals, by induction on their number. -/
theorem flatMap_window (l : List α) {b : ℕ → α} (hb : ∀ i, b i ≤ b (i + 1)) (n : ℕ) :
    (List.range n).flatMap (fun i => window l (lowerBound l (b i)) (lowerBound l (b (i + 1)))) =
      window l (lowerBound l (b 0)) (lowerBound l (b n)) := by
  induction n with
  | zero => simp [window]
  | succ n ih =>
    rw [List.range_succ, List.flatMap_append, ih, List.flatMap_singleton]
    exact window_append l (lowerBound_mono l (monotone_nat_of_le_succ hb (Nat.zero_le n)))
      (lowerBound_mono l (hb n))

theorem lowerBound_eq_zero {l : List α} {x : α} (h : ∀ y ∈ l, x ≤ y) : lowerBound l x = 0 := by
  cases l with
  | nil => rfl
  | cons a l => simp [lowerBound, h a List.mem_cons_self]

theorem lowerBound_eq_length {l : List α} {x : α} (h : ∀ y ∈ l, y < x) :
    lowerBound l x = l.length := by
  rw [lowerBound, List.takeWhile_eq_self_iff.mpr (by simpa using h)]

/-- All windows together are the list. -/
theorem flatMap_window_all {l : List α} {b : ℕ → α} (hb : ∀ i, b i ≤ b (i + 1)) {n : ℕ}
    (hfirst : ∀ y ∈ l, b 0 ≤ y) (hlast : ∀ y ∈ l, y < b n) :
    (List.range n).flatMap (fun i => window l (lowerBound l (b i)) (lowerBound l (b (i + 1)))) =
      l := by
  rw [flatMap_window l hb, lowerBound_eq_zero hfirst, lowerBound_eq_length hlast]
  simp [window]

/-- Among integers no element lies above `x - 1` and below `x`. -/
theorem upperBound_pred (l : List ℤ) (x : ℤ) : upperBound l (x - 1) = lowerBound l x := by
  simp only [upperBound, lowerBound, Int.le_sub_one_iff]

end NetStorm.SortedWindows

import NetStorm.PooledStorage

/-!
# The pool with exact sizes

`GPUPooledStorageManager` keeps free blocks by their size. A request is rounded up to a multiple
of the page size, and then, if it is large, to a multiple of another size. `ReleaseAll` rounds
the sizes in the pool once more, which is right for every request exactly if one of the two
sizes divides the other.
-/
namespace NetStorm
namespace PooledStorage
open BlockPool

/-- The sizes that the constructor reads and checks, far below what `size_t` holds. -/
structure GPUPooledStorageManager where
  pageSize : ℕ
  largeAllocRoundSize : ℕ
  reserve : ℤ
  le_pageSize : 32 ≤ pageSize
  large_pos : 1 ≤ largeAllocRoundSize
  pageSize_lt : pageSize < 2 ^ 59
  large_lt : largeAllocRoundSize < 2 ^ 59

/-- `RoundToMultiple`. -/
def roundToMultiple (x multiple : ℕ) : ℕ :=
  (x + multiple - 1) % 2 ^ 64 / multiple * multiple % 2 ^ 64

namespace GPUPooledStorageManager
variable (m : GPUPooledStorageManager)

/-- `RoundAllocSize`. -/
def roundAllocSize (size : ℕ) : ℕ :=
  let size := roundToMultiple size m.pageSize
  if m.largeAllocRoundSize < size then roundToMultiple size m.largeAllocRoundSize else size

/-- The sizes of the manager. -/
def sizes : Sizes ℕ where
  slot := m.roundAllocSize
  slotBytes := some
  handleSize := id
  refund size := some (m.roundAllocSize size)
  growing := true
  keys := []
  reserve := m.reserve

/-- Requests far below what `size_t` holds. -/
def Far (size : ℕ) : Prop := size < 2 ^ 61

end GPUPooledStorageManager

section Rounding

theorem roundToMultiple_eq {x k : ℕ} (hx : x + k < 2 ^ 64) :
    roundToMultiple x k = (x + k - 1) / k * k := by
  have hle := Nat.div_mul_le_self (x + k - 1) k
  rw [roundToMultiple, Nat.mod_eq_of_lt (a := x + k - 1) (by omega), Nat.mod_eq_of_lt (by omega)]

theorem dvd_roundToMultiple {x k : ℕ} (hx : x + k < 2 ^ 64) :
    k ∣ roundToMultiple x k := by
  rw [roundToMultiple_eq hx]
  exact dvd_mul_left k _

theorem roundToMultiple_bounds {x k : ℕ} (hk : 1 ≤ k) (hx : x + k < 2 ^ 64) :
    x ≤ roundToMultiple x k ∧ roundToMultiple x k < x + k := by
  have hdiv := Nat.div_add_mod' (x + k - 1) k
  have hmod := Nat.mod_lt (x + k - 1) hk
  rw [roundToMultiple_eq hx]
  omega

/-- The rounding goes to the next multiple. -/
theorem roundToMultiple_of_dvd {x y k : ℕ} (hk : 1 ≤ k) (hx : x + k < 2 ^ 64) (hy : k ∣ y)
    (hle : x ≤ y) (hlt : y < x + k) : roundToMultiple x k = y := by
  obtain ⟨hle', hlt'⟩ := roundToMultiple_bounds hk hx
  obtain ⟨a, ha⟩ := dvd_roundToMultiple hx
  obtain ⟨b, rfl⟩ := hy
  rw [ha] at hle' hlt' ⊢
  have hab : a < b + 1 := Nat.lt_of_mul_lt_mul_left (a := k) (by rw [Nat.mul_succ]; omega)
  have hba : b < a + 1 := Nat.lt_of_mul_lt_mul_left (a := k) (by rw [Nat.mul_succ]; omega)
  rw [show a = b by omega]

end Rounding

namespace GPUPooledStorageManager
variable (m : GPUPooledStorageManager)

theorem roundAllocSize_bounds {n : ℕ} (hn : n < 2 ^ 63) :
    n ≤ m.roundAllocSize n ∧ m.roundAllocSize n < n + m.pageSize + m.largeAllocRoundSize := by
  have hp := m.pageSize_lt
  have hl := m.large_lt
  have hpos := m.large_pos
  obtain ⟨hle, hlt⟩ := roundToMultiple_bounds (k := m.pageSize)
    (by have := m.le_pageSize; omega) (show n + m.pageSize < 2 ^ 64 by omega)
  rw [roundAllocSize]
  split_ifs
  · obtain ⟨hle', hlt'⟩ := roundToMultiple_bounds hpos
      (show roundToMultiple n m.pageSize + m.largeAllocRoundSize < 2 ^ 64 by omega)
    omega
  · omega

theorem roundAllocSize_zero : m.roundAllocSize 0 = 0 := by
  have hp := m.pageSize_lt
  have h := m.le_pageSize
  have hzero : roundToMultiple 0 m.pageSize = 0 :=
    roundToMultiple_of_dvd (by omega) (by omega) (dvd_zero _) le_rfl (by omega)
  rw [roundAllocSize, hzero, if_neg (Nat.not_lt_zero _)]

/-- What is a multiple of both sizes is not rounded, and neither is a multiple of the page size
that is not large. -/
theorem roundAllocSize_of_dvd {n : ℕ} (hn : n < 2 ^ 63) (hpage : m.pageSize ∣ n)
    (hlarge : m.largeAllocRoundSize < n → m.largeAllocRoundSize ∣ n) : m.roundAllocSize n = n := by
  have hp := m.pageSize_lt
  have hl := m.large_lt
  have h := m.le_pageSize
  have hpos := m.large_pos
  have hpage' : roundToMultiple n m.pageSize = n :=
    roundToMultiple_of_dvd (by omega) (by omega) hpage le_rfl (by omega)
  rw [roundAllocSize, hpage']
  split_ifs with hlt
  · exact roundToMultiple_of_dvd hpos (by omega) (hlarge hlt) le_rfl (by omega)
  · rfl

theorem roundAllocSize_idem (hdvd : m.pageSize ∣ m.largeAllocRoundSize ∨
    m.largeAllocRoundSize ∣ m.pageSize) {n : ℕ} (hn : n < 2 ^ 61) :
    m.roundAllocSize (m.roundAllocSize n) = m.roundAllocSize n := by
  have hp := m.pageSize_lt
  have hl := m.large_lt
  have hpos := m.large_pos
  have hfirst : m.pageSize ∣ roundToMultiple n m.pageSize := dvd_roundToMultiple (by omega)
  have hbounds := roundToMultiple_bounds (x := n) (k := m.pageSize)
    (by have := m.le_pageSize; omega) (by omega)
  obtain ⟨hle, hlt⟩ := m.roundAllocSize_bounds (n := n) (by omega)
  have hround : m.pageSize ∣ m.roundAllocSize n ∧
      (m.largeAllocRoundSize < m.roundAllocSize n → m.largeAllocRoundSize ∣ m.roundAllocSize n) := by
    rw [roundAllocSize]
    split_ifs with hlarge
    · have hsecond : m.largeAllocRoundSize ∣
          roundToMultiple (roundToMultiple n m.pageSize) m.largeAllocRoundSize :=
        dvd_roundToMultiple (by omega)
      refine ⟨?_, fun _ => hsecond⟩
      rcases hdvd with hdvd | hdvd
      · exact hdvd.trans hsecond
      · rwa [roundToMultiple_of_dvd hpos (by omega) (hdvd.trans hfirst) le_rfl (by omega)]
    · exact ⟨hfirst, fun h => absurd h hlarge⟩
  exact m.roundAllocSize_of_dvd (by omega) hround.1 hround.2

/-- A large size that is no multiple of the page size grows. -/
theorem lt_roundAllocSize {r : ℕ} (hr : r < 2 ^ 62) (hlarge : m.largeAllocRoundSize ≤ r)
    (hnot : ¬ m.pageSize ∣ r) : r < m.roundAllocSize r := by
  have hp := m.pageSize_lt
  have hl := m.large_lt
  obtain ⟨hle, hlt⟩ := roundToMultiple_bounds (x := r) (k := m.pageSize)
    (by have := m.le_pageSize; omega) (by omega)
  have hne : roundToMultiple r m.pageSize ≠ r := fun he =>
    hnot (he ▸ dvd_roundToMultiple (by omega))
  obtain ⟨hle', -⟩ := roundToMultiple_bounds (x := roundToMultiple r m.pageSize) m.large_pos
    (by omega)
  rw [roundAllocSize, if_pos (by omega)]
  omega

/-- A large multiple of the page size goes to the next multiple of the other size. -/
theorem roundAllocSize_large {n y : ℕ} (hn : n < 2 ^ 62) (hpage : m.pageSize ∣ n)
    (hlarge : m.largeAllocRoundSize < n) (hy : m.largeAllocRoundSize ∣ y) (hle : n ≤ y)
    (hlt : y < n + m.largeAllocRoundSize) : m.roundAllocSize n = y := by
  have hp := m.pageSize_lt
  have hl := m.large_lt
  have h := m.le_pageSize
  rw [roundAllocSize, roundToMultiple_of_dvd (by omega) (by omega) hpage le_rfl (by omega),
    if_pos hlarge]
  exact roundToMultiple_of_dvd m.large_pos (by omega) hy hle hlt

/-- If neither size divides the other, the size of some block is rounded once more. -/
theorem exists_roundAllocSize_ne (h : ¬ m.pageSize ∣ m.largeAllocRoundSize)
    (h' : ¬ m.largeAllocRoundSize ∣ m.pageSize) :
    ∃ n, n ≠ 0 ∧ n < 2 ^ 61 ∧ m.roundAllocSize n < m.roundAllocSize (m.roundAllocSize n) := by
  have hp := m.pageSize_lt
  have hl := m.large_lt
  have hpage := m.le_pageSize
  have hpos := m.large_pos
  rcases lt_or_ge m.largeAllocRoundSize m.pageSize with hlt | hge
  · obtain ⟨hle, hlt'⟩ := roundToMultiple_bounds (x := m.pageSize) hpos (by omega)
    have hdvd : m.largeAllocRoundSize ∣ roundToMultiple m.pageSize m.largeAllocRoundSize :=
      dvd_roundToMultiple (by omega)
    have hround : m.roundAllocSize m.pageSize =
        roundToMultiple m.pageSize m.largeAllocRoundSize :=
      m.roundAllocSize_large (by omega) dvd_rfl hlt hdvd hle hlt'
    have hne : roundToMultiple m.pageSize m.largeAllocRoundSize ≠ m.pageSize := fun he =>
      h' (he ▸ hdvd)
    refine ⟨m.pageSize, by omega, by omega, ?_⟩
    rw [hround]
    refine m.lt_roundAllocSize (by omega) (by omega) ?_
    rintro ⟨c, hc⟩
    rcases c with _ | _ | c
    · omega
    · omega
    · have hmul := Nat.mul_le_mul_left m.pageSize (show 2 ≤ c + 1 + 1 by omega)
      omega
  · -- two multiples in a row are not both multiples of the page size
    obtain ⟨k, hk2, hk3, hnot⟩ : ∃ k, 2 ≤ k ∧ k ≤ 3 ∧ ¬ m.pageSize ∣ k * m.largeAllocRoundSize := by
      by_cases h2 : m.pageSize ∣ 2 * m.largeAllocRoundSize
      · refine ⟨3, by omega, le_rfl, fun h3 => h ?_⟩
        have := Nat.dvd_sub h3 h2
        rwa [show 3 * m.largeAllocRoundSize - 2 * m.largeAllocRoundSize =
          m.largeAllocRoundSize by omega] at this
      · exact ⟨2, le_rfl, by omega, h2⟩
    have hdiv := Nat.div_add_mod' (k * m.largeAllocRoundSize) m.pageSize
    have hmod := Nat.mod_lt (k * m.largeAllocRoundSize) (show 0 < m.pageSize by omega)
    have hmul2 : 2 * m.largeAllocRoundSize ≤ k * m.largeAllocRoundSize :=
      Nat.mul_le_mul_right _ hk2
    have hmul3 : k * m.largeAllocRoundSize ≤ 3 * m.largeAllocRoundSize :=
      Nat.mul_le_mul_right _ hk3
    have hne : k * m.largeAllocRoundSize % m.pageSize ≠ 0 := fun hz =>
      hnot (Nat.dvd_of_mod_eq_zero hz)
    have heq : m.pageSize ≠ m.largeAllocRoundSize := fun he => h (he ▸ dvd_rfl)
    set n := k * m.largeAllocRoundSize / m.pageSize * m.pageSize with hn
    have hround : m.roundAllocSize n = k * m.largeAllocRoundSize :=
      m.roundAllocSize_large (by omega) (dvd_mul_left _ _) (by omega) (dvd_mul_left _ _)
        (by omega) (by omega)
    refine ⟨n, by omega, by omega, ?_⟩
    rw [hround]
    exact m.lt_roundAllocSize (by omega) (by omega) hnot

theorem sound : Sound m.sizes Far where
  bytes n hn hfar := by
    have hfar : n < 2 ^ 61 := hfar
    have hp := m.pageSize_lt
    have hl := m.large_lt
    obtain ⟨hle, hlt⟩ := m.roundAllocSize_bounds (n := n) (by omega)
    exact ⟨_, rfl, hle, by show m.roundAllocSize n < _; omega, rfl⟩
  zero _ := congrArg some m.roundAllocSize_zero
  slot_mem h := nomatch h
  keys_nodup := .nil

/-- One block that is allocated, freed and released leaves a wrong count if its size is rounded
once more. -/
theorem reached_wrong {n : ℕ} (hn : n ≠ 0) (hfar : n < 2 ^ 61)
    (hlt : m.roundAllocSize n < m.roundAllocSize (m.roundAllocSize n)) :
    ∃ s, Reached m.sizes Far (fun _ => True) s ∧ s.usedMemory ≠ bytes s.owned := by
  have hp := m.pageSize_lt
  have hl := m.large_lt
  obtain ⟨hle, hlt₁⟩ := m.roundAllocSize_bounds (n := n) (by omega)
  obtain ⟨-, hlt₂⟩ := m.roundAllocSize_bounds (n := m.roundAllocSize n) (by omega)
  obtain ⟨s, hs, howned, hused⟩ := reached_one_block m.sound hn hfar rfl
    (show m.roundAllocSize n < 2 ^ 64 by omega) rfl
  refine ⟨s, hs, ?_⟩
  rw [howned, hused, bytes_nil]
  show (m.roundAllocSize n + (2 ^ 64 - m.roundAllocSize (m.roundAllocSize n))) % 2 ^ 64 ≠ 0
  omega

end GPUPooledStorageManager

/-- The accounts are right in every run exactly if one of the two sizes divides the other. -/
theorem exact_pool_accounts_iff (m : GPUPooledStorageManager) :
    (∀ s, Reached m.sizes GPUPooledStorageManager.Far (fun _ => True) s →
      s.usedMemory = bytes s.owned ∧ ∀ e ∈ s.memoryPool, ∀ p ∈ e.2, (p, e.1) ∈ s.owned) ↔
    m.pageSize ∣ m.largeAllocRoundSize ∨ m.largeAllocRoundSize ∣ m.pageSize := by
  constructor
  · intro h
    by_contra hnot
    rw [not_or] at hnot
    obtain ⟨n, hn, hfar, hlt⟩ := m.exists_roundAllocSize_ne hnot.1 hnot.2
    obtain ⟨s, hs, hne⟩ := m.reached_wrong hn hfar hlt
    exact hne (h s hs).1
  · intro hdvd s hs
    have hinv := hs.inv m.sound fun s h _ e he => by
      obtain ⟨n, -, hfar, hslot⟩ := h.slots e he
      refine ⟨e.1, rfl, congrArg some ?_⟩
      rw [← hslot]
      exact m.roundAllocSize_idem hdvd hfar
    refine ⟨hinv.books.count, fun e he p hp => ?_⟩
    obtain ⟨b, hb, hmem⟩ := hinv.pooled m.sound he hp
    rwa [Option.some.inj hb]

/-- Sizes that the constructor takes although neither divides the other. -/
def unevenManager : GPUPooledStorageManager where
  pageSize := 4096
  largeAllocRoundSize := 5000
  reserve := 5
  le_pageSize := by decide
  large_pos := by decide
  pageSize_lt := by decide
  large_lt := by decide

/-- A block of 10000 bytes for a request of 4097 is released as one of 15000. -/
theorem not_exact_pool_accounts_uneven :
    ¬ ∀ s, Reached unevenManager.sizes GPUPooledStorageManager.Far (fun _ => True) s →
      s.usedMemory = bytes s.owned ∧ ∀ e ∈ s.memoryPool, ∀ p ∈ e.2, (p, e.1) ∈ s.owned := by
  intro h
  obtain ⟨s, hs, hne⟩ :=
    unevenManager.reached_wrong (n := 4097) (by decide) (by decide) (by decide)
  exact hne (h s hs).1

end PooledStorage
end NetStorm


import Mathlib.Algebra.BigOperators.Ring.Finset
import Mathlib.Algebra.Module.Defs
import Mathlib.Algebra.Order.BigOperators.Group.Finset
import Mathlib.Algebra.Order.Ring.Nat
import Mathlib.Tactic.Linarith
import Mathlib.Tactic.Ring

/-!
# Longest processing time first

Jobs are placed one after another, each on a machine with the least load. When they come in
descending size, no other placement has a largest load below `3m / (4m - 1)` of the one that this
gives, where `m` is the number of machines.
-/
namespace NetStorm
namespace ListScheduling
open Finset
variable {μ : Type*} [DecidableEq μ]

/-- The load of a machine after the first `n` jobs with sizes `p`, placed by `a`. -/
def load (p : ℕ → ℕ) (a : ℕ → μ) (n : ℕ) (c : μ) : ℕ := ∑ j ∈ range n with a j = c, p j

@[simp] theorem load_zero (p : ℕ → ℕ) (a : ℕ → μ) (c : μ) : load p a 0 c = 0 := rfl

theorem load_succ (p : ℕ → ℕ) (a : ℕ → μ) (n : ℕ) (c : μ) :
    load p a (n + 1) c = load p a n c + if a n = c then p n else 0 := by
  rw [load, range_add_one, filter_insert]
  split_ifs with h
  · rw [sum_insert (by simp), add_comm]
    rfl
  · rfl

theorem load_congr {p p' : ℕ → ℕ} {a a' : ℕ → μ} {n : ℕ} (hp : ∀ j < n, p j = p' j)
    (ha : ∀ j < n, a j = a' j) (c : μ) : load p a n c = load p' a' n c := by
  induction n with
  | zero => rfl
  | succ n ih =>
    rw [load_succ, load_succ, ih (fun j hj => hp j (hj.trans (Nat.lt_succ_self n)))
      (fun j hj => ha j (hj.trans (Nat.lt_succ_self n))), hp n (Nat.lt_succ_self n),
      ha n (Nat.lt_succ_self n)]

theorem load_le_sum (p : ℕ → ℕ) (a : ℕ → μ) (n : ℕ) (c : μ) :
    load p a n c ≤ ∑ j ∈ range n, p j :=
  sum_le_sum_of_subset (filter_subset _ _)

/-- Every job is placed on a machine with the least load. -/
structure Greedy (machines : Finset μ) (p : ℕ → ℕ) (a : ℕ → μ) (n : ℕ) : Prop where
  placed : ∀ j < n, a j ∈ machines
  least : ∀ j < n, ∀ c ∈ machines, load p a j (a j) ≤ load p a j c

variable {machines : Finset μ} {p : ℕ → ℕ} {a b : ℕ → μ} {n : ℕ}

theorem sum_load (ha : ∀ j < n, a j ∈ machines) :
    ∑ c ∈ machines, load p a n c = ∑ j ∈ range n, p j :=
  sum_fiberwise_of_maps_to (fun j hj => ha j (mem_range.mp hj)) p

theorem le_load {j : ℕ} (hj : j < n) : p j ≤ load p a n (a j) :=
  single_le_sum (f := p) (fun _ _ => Nat.zero_le _) (by simp [hj])

/-- Different jobs on one machine. -/
theorem add_le_load {i j : ℕ} (hi : i < n) (hj : j < n) (hne : i ≠ j) (heq : a i = a j) :
    p i + p j ≤ load p a n (a j) := by
  rw [← sum_pair hne, load]
  refine sum_le_sum_of_subset fun k hk => ?_
  rcases mem_insert.mp hk with rfl | hk
  · simp [hi, heq]
  · rw [mem_singleton.mp hk]
    simp [hj]

/-- A machine with any load has a last job. -/
theorem exists_last {c : μ} (h : load p a n c ≠ 0) :
    ∃ j < n, a j = c ∧ load p a n c = load p a j c + p j := by
  induction n with
  | zero => exact absurd rfl h
  | succ n ih =>
    rw [load_succ] at h ⊢
    split_ifs with hn
    · exact ⟨n, by omega, hn, rfl⟩
    · rw [if_neg hn] at h
      obtain ⟨j, hj, hc, heq⟩ := ih h
      exact ⟨j, by omega, hc, heq⟩

/-- The jobs before job `j` that do not fit on a machine with it. -/
def big (p : ℕ → ℕ) (T j : ℕ) : Finset ℕ := {i ∈ range j | T < p i + p j}

def small (p : ℕ → ℕ) (T j : ℕ) : Finset ℕ := {i ∈ range j | ¬ T < p i + p j}

theorem big_image_subset {j : ℕ} (ha : ∀ i < n, a i ∈ machines) (hj : j ≤ n) (T : ℕ) :
    (big p T j).image a ⊆ machines := fun c hc => by
  obtain ⟨i, hi, rfl⟩ := mem_image.mp hc
  have hlt := mem_range.mp (mem_filter.mp hi).1
  exact ha i (by omega)

theorem sum_off_image {s : Finset μ} (hs : s ⊆ machines) :
    ∑ c ∈ machines, (if c ∈ s then 0 else 2) = 2 * (machines.card - s.card) := by
  rw [sum_ite, sum_const_zero, zero_add, sum_const, filter_notMem_eq_sdiff, card_sdiff_of_subset hs,
    smul_eq_mul, mul_comm]

/-- A placement within `T` has few small jobs when three jobs do not fit on a machine. -/
theorem card_small_lt {T j : ℕ} (hb : ∀ i < n, b i ∈ machines)
    (hT : ∀ c ∈ machines, load p b n c ≤ T) (hj : j < n) (hsorted : ∀ i < j, p j ≤ p i)
    (hthree : T < 3 * p j) : (small p T j).card + 2 * (big p T j).card < 2 * machines.card := by
  have hmin : ∀ i ∈ insert j (small p T j), i < n ∧ p j ≤ p i := fun i hi => by
    rcases mem_insert.mp hi with rfl | hi
    · exact ⟨hj, le_rfl⟩
    · have hlt := mem_range.mp (mem_filter.mp hi).1
      exact ⟨by omega, hsorted i hlt⟩
  -- a big job is alone on its machine
  have halone : ∀ i ∈ big p T j, ∀ i', i' < n → p j ≤ p i' → i' ≠ i → b i' ≠ b i := by
    intro i hi i' hi' hle hne heq
    obtain ⟨hlt, hbig⟩ := mem_filter.mp hi
    rw [mem_range] at hlt
    have hadd := add_le_load (p := p) hi' (hlt.trans hj) hne heq
    have hbound := hT (b i) (hb i (hlt.trans hj))
    omega
  have hinj : Set.InjOn b (big p T j) := fun i hi i' hi' heq => by
    by_contra hne
    have hlt := mem_range.mp (mem_filter.mp hi).1
    exact halone i' hi' i (by omega) (hsorted i hlt) hne heq
  have hcount : ∀ c ∈ machines, ({i ∈ insert j (small p T j) | b i = c} : Finset ℕ).card ≤
      if c ∈ (big p T j).image b then 0 else 2 := fun c hc => by
    split_ifs with himage
    · obtain ⟨i, hi, rfl⟩ := mem_image.mp himage
      rw [Nat.le_zero, card_eq_zero, filter_eq_empty_iff]
      intro i' hi'
      refine halone i hi i' (hmin i' hi').1 (hmin i' hi').2 fun heq => ?_
      obtain ⟨hlt, hbig⟩ := mem_filter.mp hi
      rcases mem_insert.mp hi' with rfl | hi'
      · exact absurd (mem_range.mp hlt) (by omega)
      · exact (mem_filter.mp hi').2 (heq ▸ hbig)
    · have hsum : ({i ∈ insert j (small p T j) | b i = c} : Finset ℕ).card * p j ≤
          load p b n c := by
        refine (card_nsmul_le_sum _ p _ fun i hi => (hmin i (mem_filter.mp hi).1).2).trans ?_
        refine sum_le_sum_of_subset fun i hi => ?_
        rw [mem_filter] at hi ⊢
        exact ⟨mem_range.mpr (hmin i hi.1).1, hi.2⟩
      by_contra hge
      have hthree' := Nat.mul_le_mul_right (p j) (not_le.mp hge)
      have hbound := hT c hc
      simp only [Nat.succ_eq_add_one] at hthree'
      omega
  have hcard := card_eq_sum_card_fiberwise (f := b) (s := insert j (small p T j)) (t := machines)
    fun i hi => hb i (hmin i hi).1
  have hle := sum_le_sum hcount
  have hnot : j ∉ small p T j := fun h => by simp [small] at h
  have hsubset := card_le_card (big_image_subset hb hj.le T (p := p))
  rw [← hcard, sum_off_image (big_image_subset hb hj.le T), card_image_of_injOn hinj,
    card_insert_of_notMem hnot] at hle
  rw [card_image_of_injOn hinj] at hsubset
  omega

/-- Machines that are all too full for job `j` have many small jobs. -/
theorem le_card_small {T j : ℕ} (ha : ∀ i < j, a i ∈ machines) (hj : p j ≤ T)
    (hfull : ∀ c ∈ machines, T < load p a j c + p j) :
    2 * machines.card ≤ (small p T j).card + 2 * (big p T j).card := by
  have hcount : ∀ c ∈ machines, (if c ∈ (big p T j).image a then 0 else 2) ≤
      ({i ∈ small p T j | a i = c} : Finset ℕ).card := fun c hc => by
    split_ifs with himage
    · exact Nat.zero_le _
    · have hjobs : ({i ∈ small p T j | a i = c} : Finset ℕ) = {i ∈ range j | a i = c} := by
        ext i
        simp only [small, mem_filter, mem_range]
        refine ⟨fun h => ⟨h.1.1, h.2⟩, fun h => ⟨⟨h.1, fun hbig => himage ?_⟩, h.2⟩⟩
        exact mem_image.mpr ⟨i, mem_filter.mpr ⟨mem_range.mpr h.1, hbig⟩, h.2⟩
      have hlt := hfull c hc
      rw [load, ← hjobs] at hlt
      by_contra hge
      rcases Nat.lt_or_ge ({i ∈ small p T j | a i = c} : Finset ℕ).card 1 with hzero | hone
      · rw [card_eq_zero.mp (Nat.lt_one_iff.mp hzero), sum_empty] at hlt
        omega
      · obtain ⟨i, hi⟩ := card_eq_one.mp (show ({i ∈ small p T j | a i = c} : Finset ℕ).card = 1 by
          omega)
        have hsmall : i ∈ small p T j := (mem_filter.mp (hi ▸ mem_singleton_self i)).1
        rw [hi, sum_singleton] at hlt
        exact (mem_filter.mp hsmall).2 hlt
  have hcard := card_eq_sum_card_fiberwise (f := a) (s := small p T j) (t := machines)
    fun i hi => ha i (mem_range.mp (mem_filter.mp hi).1)
  have hle := sum_le_sum hcount
  rw [← hcard, sum_off_image (big_image_subset ha le_rfl T)] at hle
  have himage : ((big p T j).image a).card ≤ (big p T j).card := card_image_le
  omega

/-- No placement is much better than the greedy one, when the jobs come in descending size. -/
theorem Greedy.load_le (h : Greedy machines p a n) (hsorted : ∀ i j, i < j → j < n → p j ≤ p i)
    (hb : ∀ j < n, b j ∈ machines) {T : ℕ} (hT : ∀ c ∈ machines, load p b n c ≤ T) {c : μ}
    (hc : c ∈ machines) : 3 * machines.card * load p a n c ≤ (4 * machines.card - 1) * T := by
  have hpos : 0 < machines.card := card_pos.mpr ⟨c, hc⟩
  rcases eq_or_ne (load p a n c) 0 with hzero | hne
  · rw [hzero, mul_zero]
    exact Nat.zero_le _
  obtain ⟨j, hj, rfl, heq⟩ := exists_last hne
  have hjob : p j ≤ T := (le_load hj).trans (hT (b j) (hb j hj))
  rw [heq]
  by_cases hthree : 3 * p j ≤ T
  · -- the last job is small, and all machines are as full before it
    have hfull : machines.card * load p a j (a j) ≤ ∑ i ∈ range j, p i := by
      rw [← sum_load fun i hi => h.placed i (hi.trans hj), ← smul_eq_mul]
      exact card_nsmul_le_sum _ _ _ fun c hc => h.least j hj c hc
    have hbefore : ∑ i ∈ range j, p i + p j ≤ ∑ i ∈ range n, p i := by
      rw [← sum_range_succ]
      exact sum_le_sum_of_subset (range_subset_range.mpr hj)
    have htotal : ∑ i ∈ range n, p i ≤ machines.card * T := by
      rw [← sum_load hb, ← smul_eq_mul]
      exact sum_le_card_nsmul _ _ _ hT
    obtain ⟨m, hm⟩ : ∃ m, machines.card = m + 1 := ⟨machines.card - 1, by omega⟩
    rw [hm] at hfull htotal ⊢
    have hmul := Nat.mul_le_mul_left m hthree
    rw [show 4 * (m + 1) - 1 = 4 * m + 3 by omega]
    nlinarith
  · -- otherwise the last job is placed as well as it can be
    have hle : load p a j (a j) + p j ≤ T := by
      by_contra hgt
      have hfull : ∀ c ∈ machines, T < load p a j c + p j := fun c hc =>
        (not_le.mp hgt).trans_le (Nat.add_le_add_right (h.least j hj c hc) _)
      have hmany := le_card_small (fun i hi => h.placed i (hi.trans hj)) hjob hfull
      have hfew := card_small_lt hb hT hj (fun i hi => hsorted i j hi hj) (not_le.mp hthree)
      omega
    exact Nat.mul_le_mul (by omega) hle

end ListScheduling
end NetStorm

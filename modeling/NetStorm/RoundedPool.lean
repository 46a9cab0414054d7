import NetStorm.PooledStorage
import NetStorm.SizeBuckets

/-!
# The pool with rounded sizes

`GPUPooledRoundedStorageManager` keeps free blocks in buckets. The size of a block is never
stored, but computed from a request or a bucket. `ReleaseAll` passes it through an `int`, which
loses the sizes from `2 ^ 31` on.
-/
namespace NetStorm
namespace PooledStorage
open BlockPool

/-- The conversion of a `size_t` through an `int` and back. -/
def throughInt (size : ℕ) : ℕ := (toInt32 size % 2 ^ 64).toNat

namespace GPUPooledRoundedStorageManager
variable (m : GPUPooledRoundedStorageManager)

/-- The sizes of the manager. -/
def sizes : Sizes ℤ where
  slot := m.getBucket
  slotBytes := m.getSize
  handleSize bucket := throughInt ((m.getSize bucket).getD 0)
  refund size := m.getSize (m.getBucket size)
  growing := false
  keys := (List.range (2 ^ (34 - m.cutOff) + m.cutOff)).map (↑)
  reserve := m.reserve

/-- The sizes of the blocks in the pool fit an `int`, those in the bucket before the cut-off
apart. -/
def Releasable (memoryPool : List (ℤ × List ℕ)) : Prop :=
  ∀ e ∈ entries memoryPool, (∀ b, m.getSize e.1 = some b → b < 2 ^ 31) ∨ e.1 = m.cutOff - 1

end GPUPooledRoundedStorageManager

section Buckets
variable {m : GPUPooledRoundedStorageManager}

theorem sound : Sound m.sizes GPUPooledRoundedStorageManager.Request where
  bytes n _ h := by
    obtain ⟨b, hbucket, hpage, hb, hfits⟩ := m.getBucket_spec h
    have hmax := (m.request_bucketBytes hb).2
    have hget : m.getSize (m.getBucket n) = some (m.bucketBytes b) := by
      rw [hbucket, m.getSize_eq_bucketBytes hb]
    exact ⟨_, hget, (hfits b hpage).mp le_rfl, by omega, hget⟩
  zero h := absurd h.1 (by decide)
  slot_mem _ n _ h := by
    obtain ⟨b, hbucket, -, hb, -⟩ := m.getBucket_spec h
    exact List.mem_map.mpr ⟨b, List.mem_range.mpr hb, hbucket.symm⟩
  keys_nodup := List.nodup_range.map Nat.cast_injective

/-- The size of the bucket of a request is in that bucket. -/
theorem getBucket_getSize {n b : ℕ} (h : GPUPooledRoundedStorageManager.Request n)
    (hb : m.getSize (m.getBucket n) = some b) : m.getBucket b = m.getBucket n := by
  obtain ⟨k, hbucket, hpage, hk, -⟩ := m.getBucket_spec h
  rw [hbucket, m.getSize_eq_bucketBytes hk, Option.some_inj] at hb
  rw [hbucket, ← hb, m.getBucket_bucketBytes hpage hk]

theorem throughInt_of_lt {b : ℕ} (hb : b < 2 ^ 31) : throughInt b = b := by
  rw [throughInt, toInt32_of_lt hb]
  omega

/-- The bucket before the cut-off gets its size back by chance when that does not fit an
`int`. -/
theorem refund_before_cutOff (hc : 31 < m.cutOff) :
    m.getSize (m.getBucket (throughInt (2 ^ (m.cutOff - 1)))) = some (2 ^ (m.cutOff - 1)) := by
  have hle := m.cutOff_le
  have hbucket : m.getBucket (throughInt (2 ^ (m.cutOff - 1))) = (m.cutOff - 1 : ℕ) := by
    have hlog : ∀ a, 2 ^ 34 ≤ a → m.cutOff < ilog2ul a := fun a ha => by
      by_contra hge
      have hpow : 2 ^ m.cutOff ≤ 2 ^ 34 := Nat.pow_le_pow_right (by omega) hle
      have := (ilog2ul_le_iff (by omega) _).mp (not_lt.mp hge)
      omega
    rw [GPUPooledRoundedStorageManager.getBucket]
    generalize m.cutOff = c at *
    obtain rfl | rfl | rfl : c = 32 ∨ c = 33 ∨ c = 34 := by omega
    · rw [if_pos (hlog _ (by decide))]
      decide
    · rw [if_pos (hlog _ (by decide))]
      decide
    · rw [if_pos (hlog _ (by decide))]
      decide
  rw [hbucket, getSize_small (by omega)]

theorem slotBytes_slot (n : ℕ) :
    m.sizes.slotBytes (m.sizes.slot n) = m.getSize (m.getBucket n) := by
  simp only [GPUPooledRoundedStorageManager.sizes]

theorem refund_handleSize (bucket : ℤ) : m.sizes.refund (m.sizes.handleSize bucket) =
    m.getSize (m.getBucket (throughInt ((m.getSize bucket).getD 0))) := by
  simp only [GPUPooledRoundedStorageManager.sizes]

theorem releasesExactly {s : System ℤ}
    (h : Inv m.sizes GPUPooledRoundedStorageManager.Request s)
    (hok : m.Releasable s.memoryPool) : ReleasesExactly m.sizes s.memoryPool := by
  intro e he
  obtain ⟨n, hn, hreq, hslot⟩ := h.slots e he
  obtain ⟨b, hb, -⟩ := (sound (m := m)).bytes n hn hreq
  refine ⟨b, hslot ▸ hb, ?_⟩
  have hb' : m.getSize e.1 = some b := hslot ▸ hb
  rw [refund_handleSize, hb', Option.getD_some]
  by_cases hlt : b < 2 ^ 31
  · rw [throughInt_of_lt hlt, getBucket_getSize hreq hb]
    exact hb
  · have hcut : e.1 = m.cutOff - 1 := (hok e he).resolve_left fun h => hlt (h b hb')
    have hpow : b = 2 ^ (m.cutOff - 1) := by
      have hsmall := getSize_small (m := m) (b := m.cutOff - 1) (by omega)
      rw [Nat.cast_sub (by have := m.le_cutOff; omega), Nat.cast_one, ← hcut, hb'] at hsmall
      exact Option.some.inj hsmall
    rw [hpow]
    refine refund_before_cutOff ?_
    by_contra hc
    have : 2 ^ (m.cutOff - 1) ≤ 2 ^ 30 := Nat.pow_le_pow_right (by omega) (by omega)
    omega

end Buckets

/-- In every run in which `ReleaseAll` finds only blocks whose size fits an `int`, what is owned
is counted, the blocks have the sizes of their buckets, `Alloc` gives blocks that are large
enough and that nobody else has, and `ReleaseAll` leaves the blocks of the callers. -/
theorem rounded_pool_accounts (m : GPUPooledRoundedStorageManager) {s : System ℤ}
    (hs : Reached m.sizes GPUPooledRoundedStorageManager.Request m.Releasable s) :
    s.usedMemory = bytes s.owned ∧
    (∀ e ∈ s.memoryPool, ∀ p ∈ e.2, ∃ b, m.getSize e.1 = some b ∧ (p, b) ∈ s.owned) ∧
    (∀ size answer s', GPUPooledRoundedStorageManager.Request size →
      (releases m.sizes s (.alloc size answer) → m.Releasable s.memoryPool) →
      step m.sizes s (.alloc size answer) = some s' →
      ∃ ptr b, s'.live = ⟨ptr, size⟩ :: s.live ∧ size ≤ b ∧ (ptr, b) ∈ s'.owned ∧
        ∀ handle ∈ s.live, handle.dptr ≠ ptr) ∧
    (m.Releasable s.memoryPool → ∃ s', step m.sizes s .releaseAll = some s' ∧
      s'.live = s.live ∧ s'.usedMemory = bytes (inUse m.sizes s.live)) := by
  have hinv := hs.inv sound fun s => releasesExactly
  refine ⟨hinv.books.count, fun e he p hp => hinv.pooled sound he hp,
    fun size answer s' hreq hrel hstep => ?_, fun hok => ?_⟩
  · obtain ⟨⟨s₁, handle⟩, halloc, hlive⟩ := Option.bind_eq_some_iff.mp hstep
    obtain rfl := Option.some.inj hlive
    obtain ⟨hlive₁, hsize, hne, hinv'⟩ :=
      hinv.alloc sound hreq (fun hr => releasesExactly hinv (hrel hr)) halloc
    obtain ⟨b, hb, hle, -⟩ := (sound (m := m)).bytes size (by have := hreq.1; omega) hreq
    obtain ⟨ptr, size'⟩ := handle
    obtain rfl : size' = size := hsize
    have hptr : ptr ≠ 0 := hne (by have := hreq.1; omega)
    have hbooks := hinv'.books
    rw [inUse_cons, if_neg hptr, blockBytes, hb, Option.getD_some] at hbooks
    refine ⟨ptr, b, by rw [← hlive₁], hle, hbooks.mem_of_used List.mem_cons_self,
      fun other hmem he => ?_⟩
    have hother : (other.dptr, blockBytes m.sizes other.size) ∈ inUse m.sizes s₁.live :=
      List.mem_map.mpr ⟨other, List.mem_filter.mpr ⟨hlive₁ ▸ hmem, by simpa [he] using hptr⟩, rfl⟩
    exact hbooks.ne_of_cons hother he
  · obtain ⟨s', hrel, -, hlive, -, hused⟩ := hinv.releaseAll (releasesExactly hinv hok)
    exact ⟨s', hrel, hlive, hused⟩

/-- The default page size and cut-off. -/
def defaultManager : GPUPooledRoundedStorageManager where
  page := 2 ^ 12
  cutOff := 24
  reserve := 5
  le_page := by decide
  page_eq := by rw [ilog2ul_two_pow_sub_one (by decide)]
  le_cutOff := by decide
  cutOff_le := by decide
  page_le := by rw [ilog2ul_two_pow_sub_one (by decide)]; decide

/-- Two blocks are allocated, the first one is freed, and `ReleaseAll` returns it. -/
theorem rounded_pool_accounts_two_blocks :
    ∃ s, Reached defaultManager.sizes GPUPooledRoundedStorageManager.Request
        defaultManager.Releasable s ∧
      s.live = [⟨2, 100⟩] ∧ s.owned = [(2, 4096), (1, 8192)] ∧ s.usedMemory = bytes s.owned ∧
      ∃ s', step defaultManager.sizes s .releaseAll = some s' ∧ s'.live = [⟨2, 100⟩] ∧
        s'.owned = [(2, 4096)] ∧ s'.usedMemory = bytes s'.owned := by
  have hrun : ((step defaultManager.sizes (initial defaultManager.sizes)
      (.alloc 5000 ⟨2 ^ 34, 2 ^ 34, false, 1⟩)).bind fun s₁ =>
        (step defaultManager.sizes s₁ (.alloc 100 ⟨2 ^ 34, 2 ^ 34, false, 2⟩)).bind fun s₂ =>
          (step defaultManager.sizes s₂ (.free ⟨1, 5000⟩)).bind fun s₃ =>
            (step defaultManager.sizes s₃ .releaseAll).map fun s₄ =>
              ([s₁, s₂, s₃].map fun s => entries s.memoryPool, s₃.live, [s₃, s₄].map System.owned)) =
      some ([[], [], [(13, 1)]], [⟨2, 100⟩], [[(2, 4096), (1, 8192)], [(2, 4096)]]) := by
    decide +kernel
  obtain ⟨s₁, h₁, hrun⟩ := Option.bind_eq_some_iff.mp hrun
  obtain ⟨s₂, h₂, hrun⟩ := Option.bind_eq_some_iff.mp hrun
  obtain ⟨s₃, h₃, hrun⟩ := Option.bind_eq_some_iff.mp hrun
  obtain ⟨s₄, h₄, hrun⟩ := Option.map_eq_some_iff.mp hrun
  simp only [List.map_cons, List.map_nil, Prod.mk.injEq, List.cons.injEq, and_true] at hrun
  obtain ⟨⟨he₁, he₂, he₃⟩, hlive, howned, howned'⟩ := hrun
  have hempty : ∀ s : System ℤ, entries s.memoryPool = [] →
      defaultManager.Releasable s.memoryPool := fun s h e he => by simp [h] at he
  have hreached₀ : Reached defaultManager.sizes GPUPooledRoundedStorageManager.Request
      defaultManager.Releasable (initial defaultManager.sizes) := .initial
  have hreached₁ := hreached₀.step h₁
    (fun size answer h => (Op.alloc.inj h).1 ▸ ⟨by decide, by decide⟩)
    fun _ => hempty _ entries_initial
  have hreached₂ := hreached₁.step h₂
    (fun size answer h => (Op.alloc.inj h).1 ▸ ⟨by decide, by decide⟩) fun _ => hempty _ he₁
  have hreached₃ := hreached₂.step h₃ (fun size answer h => nomatch h) fun _ => hempty _ he₂
  have hfits : defaultManager.Releasable s₃.memoryPool := by
    intro e he
    rw [he₃, List.mem_singleton] at he
    refine .inl fun b hb => ?_
    have hget : defaultManager.getSize 13 = some (2 ^ 13) :=
      getSize_small (m := defaultManager) (b := 13) (by decide)
    rw [he, hget] at hb
    rw [← Option.some.inj hb]
    decide
  have hreached₄ := hreached₃.step h₄ (fun size answer h => nomatch h) fun _ => hfits
  obtain ⟨hcount, -, -, hrelease⟩ := rounded_pool_accounts defaultManager hreached₃
  obtain ⟨s', hs', hlive', -⟩ := hrelease hfits
  obtain rfl : s₄ = s' := Option.some.inj (h₄.symm.trans hs')
  exact ⟨s₃, hreached₃, hlive, howned, hcount, s₄, h₄, hlive'.trans hlive, howned',
    (rounded_pool_accounts defaultManager hreached₄).1⟩

/-- A block of `2 ^ 32` bytes is released as one of `2 ^ 23`. -/
theorem not_rounded_pool_accounts_large :
    ∃ s, Reached defaultManager.sizes GPUPooledRoundedStorageManager.Request (fun _ => True) s ∧
      s.owned = [] ∧ s.usedMemory = 2 ^ 32 - 2 ^ 23 := by
  have hbucket : defaultManager.getBucket (2 ^ 32) = (2 ^ 8 : ℕ) - 1 + (24 : ℕ) :=
    (getBucket_large (m := defaultManager) (by decide) (by decide) (by decide) (by decide)).2.2
  have hsize : defaultManager.getSize ((2 ^ 8 : ℕ) - 1 + (24 : ℕ)) = some (2 ^ 8 * 2 ^ 24) :=
    getSize_large (m := defaultManager) (by decide) (by decide)
  have hlog : (24 : ℕ) < ilog2ul ((0 + (2 ^ 64 - 1)) % 2 ^ 64) := by
    have := (ilog2ul_le_iff (k := 24) (by decide) ((0 + (2 ^ 64 - 1)) % 2 ^ 64)).not.mpr (by decide)
    omega
  have hrefund : defaultManager.getSize (defaultManager.getBucket (throughInt (2 ^ 8 * 2 ^ 24))) =
      some (2 ^ 23) := by
    have hzero : throughInt (2 ^ 8 * 2 ^ 24) = 0 := by decide
    have hbucket₀ : defaultManager.getBucket 0 = (23 : ℕ) := by
      rw [GPUPooledRoundedStorageManager.getBucket, if_pos (show defaultManager.cutOff < _ from hlog)]
      decide
    rw [hzero, hbucket₀]
    exact getSize_small (by decide)
  obtain ⟨s, hs, howned, hused⟩ := reached_one_block (sound (m := defaultManager))
    (n := 2 ^ 32) (b := 2 ^ 8 * 2 ^ 24) (r := 2 ^ 23) (by decide) ⟨by decide, by decide⟩
    (by rw [slotBytes_slot, hbucket, hsize]) (by decide)
    (by
      rw [refund_handleSize, show defaultManager.sizes.slot (2 ^ 32) = _ from hbucket, hsize]
      exact hrefund)
  exact ⟨s, hs, howned, hused.trans (by decide)⟩

end PooledStorage
end NetStorm

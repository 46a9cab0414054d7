import NetStorm.Library.BlockPool
import NetStorm.Library.Steps
import Mathlib.Data.List.GetD
import Mathlib.Data.List.Nodup

/-!
# The pools of GPU memory

`GPUPooledStorageManager` and `GPUPooledRoundedStorageManager` differ in the sizes that share a
list of free blocks and in the container of these lists; what they do is the same, and is
written here once. The device owns the blocks that `cudaMalloc` gave out and `cudaFree` did not
take back. `size_t` is a number modulo `2 ^ 64`, and a failed call is where there is no result.
-/
namespace NetStorm
namespace PooledStorage
open BlockPool
variable {κ : Type}

/-- `Storage::Handle`, on one device. The address `0` is `nullptr`. -/
structure Handle where
  dptr : ℕ
  size : ℕ
deriving DecidableEq

/-- Where the two managers differ. -/
structure Sizes (κ : Type) where
  /-- The key of the list of free blocks for a request. -/
  slot : ℕ → κ
  /-- The bytes of the blocks under a key. -/
  slotBytes : κ → Option ℕ
  /-- The size of the handles that `ReleaseAll` makes for a key. -/
  handleSize : κ → ℕ
  /-- What `DirectFreeNoLock` takes off for the size of a handle. -/
  refund : ℕ → Option ℕ
  /-- Whether a missing key is added, as in an `unordered_map`, or is out of range. -/
  growing : Bool
  /-- The keys at the beginning. -/
  keys : List κ
  /-- `reserve_`. -/
  reserve : ℤ

/-- The members of a manager, the blocks that the device has given out, and the handles that
are in the hands of the callers. -/
structure System (κ : Type) where
  usedMemory : ℕ
  memoryPool : List (κ × List ℕ)
  owned : List (ℕ × ℕ)
  live : List Handle

/-- What `cudaMemGetInfo` and `cudaMalloc` answer: the memory that is free and in total, whether
the first attempt fails for want of memory, and the address of the attempt that succeeds. -/
structure Answer where
  free : ℕ
  total : ℕ
  mallocFails : Bool
  ptr : ℕ

/-- The calls. -/
inductive Op
  | alloc (size : ℕ) (answer : Answer)
  | free (handle : Handle)
  | directFree (handle : Handle)
  | releaseAll

/-- A successful `cudaMalloc`. The blocks lie apart in an address space of `2 ^ 64` bytes. -/
def cudaMalloc (owned : List (ℕ × ℕ)) (ptr size : ℕ) : Option (List (ℕ × ℕ)) :=
  if ptr ≠ 0 ∧ ptr ∉ owned.map Prod.fst ∧ bytes owned + size < 2 ^ 64 then
    some ((ptr, size) :: owned)
  else none

/-- `cudaFree`, which does nothing for `nullptr` and fails for an address that is not owned. -/
def cudaFree (owned : List (ℕ × ℕ)) (ptr : ℕ) : Option (List (ℕ × ℕ)) :=
  if ptr = 0 then some owned else remove owned ptr

section Manager
variable [DecidableEq κ] (sizes : Sizes κ)

/-- `DirectFreeNoLock`. -/
def directFreeNoLock (s : System κ) (handle : Handle) : Option (System κ) := do
  let owned ← cudaFree s.owned handle.dptr
  let size ← sizes.refund handle.size
  some { s with owned := owned, usedMemory := (s.usedMemory + (2 ^ 64 - size)) % 2 ^ 64 }

/-- The free blocks with their keys, in the order of the loops of `ReleaseAll`. -/
def entries (memoryPool : List (κ × List ℕ)) : List (κ × ℕ) :=
  memoryPool.flatMap fun e => e.2.map fun p => (e.1, p)

/-- The pool after `ReleaseAll`: a map without keys, or a vector of empty lists. -/
def clearPool (memoryPool : List (κ × List ℕ)) : List (κ × List ℕ) :=
  if sizes.growing then [] else memoryPool.map fun e => (e.1, [])

/-- `ReleaseAll`. -/
def releaseAll (s : System κ) : Option (System κ) := do
  let s' ← (entries s.memoryPool).foldlM (fun s e =>
    directFreeNoLock sizes s ⟨e.2, sizes.handleSize e.1⟩) s
  some { s' with memoryPool := clearPool sizes s.memoryPool }

/-- The list of free blocks under a key. -/
def reusePool (memoryPool : List (κ × List ℕ)) (k : κ) : Option (List ℕ) :=
  match memoryPool.lookup k with
  | some ps => some ps
  | none => if sizes.growing then some [] else none

/-- Writes the list under a key that is there. -/
def setPool (memoryPool : List (κ × List ℕ)) (k : κ) (ps : List ℕ) : List (κ × List ℕ) :=
  memoryPool.map fun e => if e.1 = k then (k, ps) else e

/-- The test on the answer of `cudaMemGetInfo`. -/
def lowMemory (answer : Answer) (size : ℕ) : Bool :=
  let reserved := answer.total * (sizes.reserve % 2 ^ 64).toNat % 2 ^ 64 / 100
  answer.free ≤ reserved || answer.free - reserved < size

/-- `ReleaseAll` under a condition. -/
def releaseIf (c : Bool) (s : System κ) : Option (System κ) :=
  if c then releaseAll sizes s else some s

/-- The branch of `Alloc` without a block to reuse. -/
def allocNew (s : System κ) (size blockBytes : ℕ) (answer : Answer) :
    Option (System κ × Handle) := do
  let s ← releaseIf sizes (lowMemory sizes answer blockBytes) s
  let s ← releaseIf sizes answer.mallocFails s
  let owned ← cudaMalloc s.owned answer.ptr blockBytes
  some ({ s with owned := owned, usedMemory := (s.usedMemory + blockBytes) % 2 ^ 64 },
    ⟨answer.ptr, size⟩)

/-- `Alloc`, with the handle that it fills in. -/
def alloc (s : System κ) (size : ℕ) (answer : Answer) : Option (System κ × Handle) :=
  if size = 0 then some (s, ⟨0, 0⟩) else do
    let k := sizes.slot size
    let blockBytes ← sizes.slotBytes k
    let ps ← reusePool sizes s.memoryPool k
    match ps.getLast? with
    | none => allocNew sizes s size blockBytes answer
    | some p => some ({ s with memoryPool := setPool s.memoryPool k ps.dropLast }, ⟨p, size⟩)

/-- `Free`. -/
def free (s : System κ) (handle : Handle) : Option (System κ) :=
  if handle.dptr = 0 then some s else do
    let k := sizes.slot handle.size
    let ps ← reusePool sizes s.memoryPool k
    some { s with
      memoryPool := if k ∈ s.memoryPool.map Prod.fst then setPool s.memoryPool k (ps ++ [handle.dptr])
        else s.memoryPool ++ [(k, [handle.dptr])] }

/-- A call. A handle is freed by a caller who has it, and then no longer has it. -/
def step (s : System κ) : Op → Option (System κ)
  | .alloc size answer => do
    let (s, handle) ← alloc sizes s size answer
    some { s with live := handle :: s.live }
  | .free handle =>
    if handle ∈ s.live then free sizes { s with live := s.live.erase handle } handle else none
  | .directFree handle =>
    if handle ∈ s.live then
      directFreeNoLock sizes { s with live := s.live.erase handle } handle
    else none
  | .releaseAll => releaseAll sizes s

/-- The manager after its constructor. -/
def initial : System κ := ⟨0, sizes.keys.map fun k => (k, []), [], []⟩

/-- Whether a call runs `ReleaseAll`. -/
def releases (s : System κ) : Op → Prop
  | .alloc size answer =>
    size ≠ 0 ∧ reusePool sizes s.memoryPool (sizes.slot size) = some [] ∧
      (answer.mallocFails ∨ ∃ b, sizes.slotBytes (sizes.slot size) = some b ∧
        lowMemory sizes answer b)
  | .releaseAll => True
  | _ => False

end Manager

section Books
variable (sizes : Sizes κ)

/-- The blocks in a pool, with the bytes under their keys. -/
def kept (memoryPool : List (κ × List ℕ)) : List (ℕ × ℕ) :=
  (entries memoryPool).map fun e => (e.2, (sizes.slotBytes e.1).getD 0)

/-- The bytes of the block for a request. -/
def blockBytes (size : ℕ) : ℕ := (sizes.slotBytes (sizes.slot size)).getD 0

/-- The blocks behind the handles of the callers. -/
def inUse (live : List Handle) : List (ℕ × ℕ) :=
  (live.filter (·.dptr ≠ 0)).map fun h => (h.dptr, blockBytes sizes h.size)

/-- For the requests that are made, a block is large enough and is counted in and out with the
same number of bytes. -/
structure Sound (admitted : ℕ → Prop) : Prop where
  bytes : ∀ n, n ≠ 0 → admitted n → ∃ b, sizes.slotBytes (sizes.slot n) = some b ∧ n ≤ b ∧
    b < 2 ^ 64 ∧ sizes.refund n = some b
  zero : admitted 0 → sizes.refund 0 = some 0
  slot_mem : sizes.growing = false → ∀ n, n ≠ 0 → admitted n → sizes.slot n ∈ sizes.keys
  keys_nodup : sizes.keys.Nodup

/-- `ReleaseAll` takes off what a block has. -/
def ReleasesExactly (memoryPool : List (κ × List ℕ)) : Prop :=
  ∀ e ∈ entries memoryPool, ∃ b, sizes.slotBytes e.1 = some b ∧
    sizes.refund (sizes.handleSize e.1) = some b

/-- The books are right: what is owned is in use or in the pool, and its bytes are counted. -/
structure Books (owned used free : List (ℕ × ℕ)) (usedMemory : ℕ) : Prop
    extends Accounts owned used free where
  count : usedMemory = bytes owned
  fits : bytes owned < 2 ^ 64
  nonnull : ∀ b ∈ owned, b.1 ≠ 0

theorem Books.of_perm {owned used free used' free' : List (ℕ × ℕ)} {n : ℕ}
    (h : Books owned used free n) (hu : used.Perm used') (hf : free.Perm free') :
    Books owned used' free' n :=
  ⟨h.toAccounts.of_perm (.refl _) hu hf, h.count, h.fits, h.nonnull⟩

/-- A block that `DirectFreeNoLock` takes off is no longer owned nor counted. -/
theorem Books.directFreeNoLock {s : System κ} {used free : List (ℕ × ℕ)} {p n size : ℕ}
    (h : Books s.owned used free s.usedMemory) (hb : (p, n) ∈ s.owned)
    (hn : sizes.refund size = some n) :
    ∃ owned', directFreeNoLock sizes s ⟨p, size⟩ =
        some { s with owned := owned', usedMemory := s.usedMemory - n } ∧
      s.owned.Perm ((p, n) :: owned') ∧ bytes owned' = s.usedMemory - n := by
  obtain ⟨owned', hrem, hperm⟩ := remove_of_mem h.nodup hb
  have hbytes : bytes s.owned = n + bytes owned' := by rw [bytes_perm hperm, bytes_cons]
  have hcount := h.count
  have hfits := h.fits
  have hsub : (s.usedMemory + (2 ^ 64 - n)) % 2 ^ 64 = s.usedMemory - n := by
    rw [show s.usedMemory + (2 ^ 64 - n) = s.usedMemory - n + 2 ^ 64 by omega,
      Nat.add_mod_right, Nat.mod_eq_of_lt (by omega)]
  refine ⟨owned', ?_, hperm, by omega⟩
  simp only [PooledStorage.directFreeNoLock, cudaFree, if_neg (h.nonnull _ hb), hrem, hn,
    Option.bind_eq_bind, Option.bind_some, hsub]

theorem Books.remove {owned owned' used used' free free' : List (ℕ × ℕ)} {b : ℕ × ℕ} {n : ℕ}
    (h : Books owned used free n) (hperm : owned.Perm (b :: owned'))
    (hacc : Accounts owned' used' free') : Books owned' used' free' (n - b.2) := by
  have hbytes : bytes owned = b.2 + bytes owned' := by rw [bytes_perm hperm, bytes_cons]
  have hcount := h.count
  have hfits := h.fits
  exact ⟨hacc, by omega, by omega,
    fun c hc => h.nonnull c (hperm.mem_iff.mpr (List.mem_cons_of_mem _ hc))⟩

/-- The loops of `ReleaseAll`. -/
theorem Books.releaseLoop (l : List (κ × ℕ)) {s : System κ} {used : List (ℕ × ℕ)}
    (h : Books s.owned used (l.map fun e => (e.2, (sizes.slotBytes e.1).getD 0)) s.usedMemory)
    (hexact : ∀ e ∈ l, ∃ b, sizes.slotBytes e.1 = some b ∧
      sizes.refund (sizes.handleSize e.1) = some b) :
    ∃ owned' usedMemory', l.foldlM (fun s e =>
        PooledStorage.directFreeNoLock sizes s ⟨e.2, sizes.handleSize e.1⟩) s =
          some { s with owned := owned', usedMemory := usedMemory' } ∧
      Books owned' used [] usedMemory' := by
  induction l generalizing s with
  | nil => exact ⟨s.owned, s.usedMemory, rfl, h⟩
  | cons e l ih =>
    obtain ⟨b, hb, hrefund⟩ := hexact e (by simp)
    rw [List.map_cons, hb, Option.getD_some] at h
    obtain ⟨owned', hfree, hperm, -⟩ :=
      h.directFreeNoLock sizes (h.mem_of_kept List.mem_cons_self) hrefund
    have hbooks := h.remove hperm (h.toAccounts.of_perm hperm (.refl _) (.refl _)).release
    obtain ⟨owned'', n, hloop, hbooks'⟩ := ih
      (s := { s with owned := owned', usedMemory := s.usedMemory - b }) hbooks
      fun e' he' => hexact e' (List.mem_cons_of_mem _ he')
    exact ⟨owned'', n, by rw [List.foldlM_cons, hfree]; exact hloop, hbooks'⟩

end Books

section Pool

theorem mem_entries {pool : List (κ × List ℕ)} {e : κ × ℕ} :
    e ∈ entries pool ↔ ∃ ps, (e.1, ps) ∈ pool ∧ e.2 ∈ ps := by
  obtain ⟨k, p⟩ := e
  simp [entries]

theorem entries_split (pre post : List (κ × List ℕ)) (k : κ) (ps : List ℕ) :
    (entries (pre ++ (k, ps) :: post)).Perm
      ((ps.map fun p => (k, p)) ++ entries (pre ++ post)) := by
  simp only [entries, List.flatMap_append, List.flatMap_cons]
  rw [← List.append_assoc, ← List.append_assoc]
  exact List.perm_append_comm.append_right _

variable [DecidableEq κ]

theorem setPool_of_notMem {pool : List (κ × List ℕ)} {k : κ} (h : k ∉ pool.map Prod.fst)
    (ps : List ℕ) : setPool pool k ps = pool := by
  rw [setPool]
  conv_rhs => rw [← List.map_id pool]
  refine List.map_congr_left fun e he => if_neg ?_
  rintro rfl
  exact h (List.mem_map_of_mem he)

theorem setPool_split {pre post : List (κ × List ℕ)} {k : κ} {ps : List ℕ}
    (h : ((pre ++ (k, ps) :: post).map Prod.fst).Nodup) (ps' : List ℕ) :
    setPool (pre ++ (k, ps) :: post) k ps' = pre ++ (k, ps') :: post := by
  rw [List.map_append, List.map_cons, List.nodup_middle, List.nodup_cons, List.mem_append,
    not_or] at h
  have hpre := setPool_of_notMem h.1.1 ps'
  have hpost := setPool_of_notMem h.1.2 ps'
  rw [setPool] at hpre hpost ⊢
  rw [List.map_append, List.map_cons, hpre, hpost, if_pos rfl]

/-- A list of free blocks is that of a key, or a new one. -/
theorem reusePool_eq_some {sizes : Sizes κ} {pool : List (κ × List ℕ)} {k : κ} {ps : List ℕ}
    (h : reusePool sizes pool k = some ps) :
    (∃ pre post, pool = pre ++ (k, ps) :: post) ∨
      (ps = [] ∧ sizes.growing = true ∧ k ∉ pool.map Prod.fst) := by
  rw [reusePool] at h
  cases hl : pool.lookup k with
  | some ps' =>
    rw [hl] at h
    obtain ⟨pre, post, hpool, -⟩ := List.lookup_eq_some_iff.mp hl
    exact .inl ⟨pre, post, by rw [hpool, Option.some.inj h]⟩
  | none =>
    rw [hl] at h
    refine .inr ?_
    split_ifs at h with hg
    refine ⟨(Option.some.inj h).symm, hg, fun hmem => ?_⟩
    obtain ⟨e, he, rfl⟩ := List.mem_map.mp hmem
    simpa using List.lookup_eq_none_iff.mp hl e he

theorem reusePool_isSome {sizes : Sizes κ} {pool : List (κ × List ℕ)} {k : κ}
    (h : sizes.growing = true ∨ k ∈ pool.map Prod.fst) :
    ∃ ps, reusePool sizes pool k = some ps := by
  rw [reusePool]
  cases hl : pool.lookup k with
  | some ps => exact ⟨ps, rfl⟩
  | none =>
    rcases h with hg | hmem
    · exact ⟨[], if_pos hg⟩
    · obtain ⟨e, he, rfl⟩ := List.mem_map.mp hmem
      exact absurd (List.lookup_eq_none_iff.mp hl e he) (by simp)

/-- The block that `Alloc` takes from the end of a list. -/
theorem entries_pop {sizes : Sizes κ} {pool : List (κ × List ℕ)}
    (hk : (pool.map Prod.fst).Nodup) {k : κ} {ps : List ℕ}
    (h : reusePool sizes pool k = some ps) {p : ℕ} (hp : ps.getLast? = some p) :
    (entries pool).Perm ((k, p) :: entries (setPool pool k ps.dropLast)) ∧
      (setPool pool k ps.dropLast).map Prod.fst = pool.map Prod.fst := by
  obtain ⟨pre, post, rfl⟩ | ⟨rfl, -⟩ := reusePool_eq_some h
  · obtain ⟨ps, rfl⟩ := List.getLast?_eq_some_iff.mp hp
    rw [setPool_split hk, List.dropLast_concat]
    refine ⟨(entries_split pre post k _).trans ?_, by simp⟩
    rw [List.map_append, List.append_assoc]
    exact (List.perm_middle).trans (((entries_split pre post k ps).symm).cons _)
  · simp at hp

/-- The block that `Free` adds at the end of a list. -/
theorem entries_push {sizes : Sizes κ} {pool : List (κ × List ℕ)}
    (hk : (pool.map Prod.fst).Nodup) {k : κ} {ps : List ℕ}
    (h : reusePool sizes pool k = some ps) (p : ℕ) :
    let pool' := if k ∈ pool.map Prod.fst then setPool pool k (ps ++ [p])
      else pool ++ [(k, [p])]
    (entries pool').Perm ((k, p) :: entries pool) ∧ (pool'.map Prod.fst).Nodup ∧
      pool.map Prod.fst ⊆ pool'.map Prod.fst := by
  obtain ⟨pre, post, rfl⟩ | ⟨rfl, -, hnot⟩ := reusePool_eq_some h
  · rw [if_pos (by simp), setPool_split hk]
    refine ⟨(entries_split pre post k _).trans ?_, by simpa using hk, by simp⟩
    rw [List.map_append, List.append_assoc]
    exact (List.perm_middle).trans (((entries_split pre post k ps).symm).cons _)
  · rw [if_neg hnot]
    refine ⟨?_, ?_, ?_⟩
    · simp only [entries, List.flatMap_append, List.flatMap_cons, List.flatMap_nil]
      exact List.perm_append_comm
    · rw [List.map_append, List.nodup_append_comm]
      exact List.nodup_cons.mpr ⟨hnot, hk⟩
    · rw [List.map_append]
      exact List.subset_append_left _ _

end Pool

section Invariant
variable (sizes : Sizes κ) (admitted : ℕ → Prop)

/-- The invariant of a manager: the books are right, the blocks in the pool are those of
requests that were made, and so are the handles. -/
structure Inv (s : System κ) : Prop where
  books : Books s.owned (inUse sizes s.live) (kept sizes s.memoryPool) s.usedMemory
  keys : (s.memoryPool.map Prod.fst).Nodup
  fixed : sizes.growing = false → sizes.keys ⊆ s.memoryPool.map Prod.fst
  live : ∀ h ∈ s.live, admitted h.size ∧ (h.dptr = 0 ↔ h.size = 0)
  slots : ∀ e ∈ entries s.memoryPool, ∃ n, n ≠ 0 ∧ admitted n ∧ sizes.slot n = e.1

variable {sizes admitted}

theorem inUse_cons (h : Handle) (live : List Handle) : inUse sizes (h :: live) =
    if h.dptr = 0 then inUse sizes live
    else (h.dptr, blockBytes sizes h.size) :: inUse sizes live := by
  rw [inUse, List.filter_cons]
  split_ifs with h₁ h₂ h₂ <;> simp_all [inUse]

theorem inUse_perm {live live' : List Handle} (h : live.Perm live') :
    (inUse sizes live).Perm (inUse sizes live') :=
  (h.filter _).map _

variable (sizes) in
/-- A handle that leaves the callers takes its block out of use. -/
theorem inUse_erase {s : System κ} {handle : Handle} (hmem : handle ∈ s.live) :
    (inUse sizes s.live).Perm (if handle.dptr = 0 then inUse sizes (s.live.erase handle)
      else (handle.dptr, blockBytes sizes handle.size) :: inUse sizes (s.live.erase handle)) := by
  rw [← inUse_cons]
  exact inUse_perm (List.perm_cons_erase hmem)

theorem entries_initial : entries (initial sizes).memoryPool = [] := by
  simp [entries, initial, List.flatMap_map]

theorem keys_initial : (initial sizes).memoryPool.map Prod.fst = sizes.keys := by
  simp [initial, Function.comp_def]

theorem inv_initial (hs : Sound sizes admitted) : Inv sizes admitted (initial sizes) := by
  refine ⟨?_, keys_initial ▸ hs.keys_nodup, fun _ => keys_initial ▸ List.Subset.refl _,
    by simp [initial], by simp [entries_initial]⟩
  rw [kept, entries_initial]
  exact ⟨.nil, rfl, by simp [initial], by simp [initial]⟩

theorem entries_clearPool (pool : List (κ × List ℕ)) : entries (clearPool sizes pool) = [] := by
  rw [clearPool]
  split_ifs
  · rfl
  · simp [entries, List.flatMap_map]

variable (sizes) in
theorem keys_clearPool {pool : List (κ × List ℕ)} (h : (pool.map Prod.fst).Nodup) :
    ((clearPool sizes pool).map Prod.fst).Nodup ∧
      (sizes.growing = false → (clearPool sizes pool).map Prod.fst = pool.map Prod.fst) := by
  rw [clearPool]
  split_ifs with hg
  · simp [hg]
  · simpa [Function.comp_def] using h

/-- After `ReleaseAll` only the blocks of the callers are owned. -/
theorem Inv.releaseAll {s : System κ} (h : Inv sizes admitted s)
    (hexact : ReleasesExactly sizes s.memoryPool) :
    ∃ s', releaseAll sizes s = some s' ∧ Inv sizes admitted s' ∧ s'.live = s.live ∧
      entries s'.memoryPool = [] ∧ s'.usedMemory = bytes (inUse sizes s.live) := by
  obtain ⟨owned', n, hloop, hbooks⟩ := h.books.releaseLoop sizes (entries s.memoryPool) hexact
  have hkeys := keys_clearPool sizes h.keys
  refine ⟨⟨n, clearPool sizes s.memoryPool, owned', s.live⟩,
    by rw [PooledStorage.releaseAll, hloop]; rfl,
    ⟨?_, hkeys.1, fun hg => (hkeys.2 hg).symm ▸ h.fixed hg, h.live, ?_⟩, rfl,
    entries_clearPool _, ?_⟩
  · rw [kept, entries_clearPool]
    exact hbooks
  · rw [entries_clearPool]
    simp
  · rw [← bytes_perm (hbooks.perm.trans (by simp))]
    exact hbooks.count

/-- A test with `ReleaseAll` behind it. -/
theorem Inv.releaseIf {s s' : System κ} (h : Inv sizes admitted s) {c : Bool}
    (hexact : c → ReleasesExactly sizes s.memoryPool)
    (hstep : PooledStorage.releaseIf sizes c s = some s') :
    Inv sizes admitted s' ∧ s'.live = s.live ∧
      (ReleasesExactly sizes s.memoryPool → ReleasesExactly sizes s'.memoryPool) := by
  cases c with
  | false =>
    obtain rfl : s = s' := by simpa [PooledStorage.releaseIf] using hstep
    exact ⟨h, rfl, id⟩
  | true =>
    obtain ⟨s'', hrel, hinv, hlive, hnil, -⟩ := h.releaseAll (hexact rfl)
    obtain rfl : s'' = s' := by simpa [PooledStorage.releaseIf, hrel] using hstep
    exact ⟨hinv, hlive, fun _ => by simp [ReleasesExactly, hnil]⟩

/-- A new block for a request. -/
theorem Inv.malloc {s : System κ} (h : Inv sizes admitted s) {size b ptr : ℕ}
    {owned : List (ℕ × ℕ)} (hsize : size ≠ 0) (hadm : admitted size)
    (hb : sizes.slotBytes (sizes.slot size) = some b)
    (howned : cudaMalloc s.owned ptr b = some owned) :
    ptr ≠ 0 ∧ Inv sizes admitted
      { s with
        owned := owned
        usedMemory := (s.usedMemory + b) % 2 ^ 64
        live := ⟨ptr, size⟩ :: s.live } := by
  rw [cudaMalloc] at howned
  split_ifs at howned with hfresh
  obtain ⟨hne, hnot, hfits⟩ := hfresh
  obtain rfl := Option.some.inj howned
  have hcount := h.books.count
  refine ⟨hne, ⟨⟨?_, ?_, ?_, ?_⟩, h.keys, h.fixed, ?_, h.slots⟩⟩
  · rw [inUse_cons, if_neg hne, blockBytes, hb]
    exact h.books.toAccounts.grow hnot
  · show (s.usedMemory + b) % 2 ^ 64 = _
    rw [bytes_cons, Nat.mod_eq_of_lt (by omega)]
    omega
  · rw [bytes_cons]
    omega
  · intro c hc
    rcases List.mem_cons.mp hc with rfl | hc
    · exact hne
    · exact h.books.nonnull c hc
  · intro x hx
    rcases List.mem_cons.mp hx with rfl | hx
    · exact ⟨hadm, by simp [hne, hsize]⟩
    · exact h.live x hx

theorem Inv.directFree {s s' : System κ} (hs : Sound sizes admitted) (h : Inv sizes admitted s)
    {handle : Handle} (hmem : handle ∈ s.live)
    (hstep : directFreeNoLock sizes { s with live := s.live.erase handle } handle = some s') :
    Inv sizes admitted s' := by
  obtain ⟨hadm, hzero⟩ := h.live handle hmem
  have hlive : ∀ x ∈ s.live.erase handle, admitted x.size ∧ (x.dptr = 0 ↔ x.size = 0) :=
    fun x hx => h.live x (List.mem_of_mem_erase hx)
  have herase := inUse_erase sizes hmem
  have hcount := h.books.count
  have hfits := h.books.fits
  by_cases hnull : handle.dptr = 0
  · rw [if_pos hnull] at herase
    have hrefund := hs.zero (hzero.mp hnull ▸ hadm)
    simp only [directFreeNoLock, cudaFree, if_pos hnull, hzero.mp hnull, hrefund,
      Option.bind_eq_bind, Option.bind_some] at hstep
    obtain rfl := Option.some.inj hstep
    have hbooks := h.books.of_perm herase (.refl _)
    refine ⟨⟨hbooks.toAccounts, ?_, hfits, hbooks.nonnull⟩, h.keys, h.fixed, hlive, h.slots⟩
    show (s.usedMemory + (2 ^ 64 - 0)) % 2 ^ 64 = _
    rw [Nat.sub_zero, Nat.add_mod_right, Nat.mod_eq_of_lt (by omega)]
    exact hcount
  · rw [if_neg hnull] at herase
    have hbooks := h.books.of_perm herase (.refl _)
    obtain ⟨b, hb, -, -, hrefund⟩ := hs.bytes handle.size (fun hz => hnull (hzero.mpr hz)) hadm
    rw [blockBytes, hb, Option.getD_some] at hbooks
    obtain ⟨owned', hfree, hperm, -⟩ := Books.directFreeNoLock sizes
      (s := { s with live := s.live.erase handle }) hbooks
      (hbooks.mem_of_used List.mem_cons_self) hrefund
    rw [hfree] at hstep
    obtain rfl := Option.some.inj hstep
    exact ⟨hbooks.remove hperm (hbooks.toAccounts.of_perm hperm (.refl _) (.refl _)).drop, h.keys,
      h.fixed, hlive, h.slots⟩

/-- A block in the pool has the bytes under its key. -/
theorem Inv.pooled {s : System κ} (hs : Sound sizes admitted) (h : Inv sizes admitted s)
    {e : κ × List ℕ} (he : e ∈ s.memoryPool) {p : ℕ} (hp : p ∈ e.2) :
    ∃ b, sizes.slotBytes e.1 = some b ∧ (p, b) ∈ s.owned := by
  have hmem : (e.1, p) ∈ entries s.memoryPool := mem_entries.mpr ⟨e.2, he, hp⟩
  obtain ⟨n, hn, hadm, hslot⟩ := h.slots _ hmem
  obtain ⟨b, hb, -⟩ := hs.bytes n hn hadm
  rw [hslot] at hb
  refine ⟨b, hb, h.books.mem_of_kept ?_⟩
  exact List.mem_map.mpr ⟨_, hmem, by rw [hb]; rfl⟩

variable [DecidableEq κ]

/-- A free block that is handed out again. -/
theorem Inv.reuse {s : System κ} (h : Inv sizes admitted s) {size ptr : ℕ} {ps : List ℕ}
    (hsize : size ≠ 0) (hadm : admitted size)
    (hps : reusePool sizes s.memoryPool (sizes.slot size) = some ps)
    (hptr : ps.getLast? = some ptr) :
    ptr ≠ 0 ∧ Inv sizes admitted
      { s with
        memoryPool := setPool s.memoryPool (sizes.slot size) ps.dropLast
        live := ⟨ptr, size⟩ :: s.live } := by
  obtain ⟨hperm, hkeys⟩ := entries_pop h.keys hps hptr
  have hkept : (kept sizes s.memoryPool).Perm ((ptr, blockBytes sizes size) ::
      kept sizes (setPool s.memoryPool (sizes.slot size) ps.dropLast)) :=
    hperm.map fun e : κ × ℕ => (e.2, (sizes.slotBytes e.1).getD 0)
  have hbooks := h.books.of_perm (.refl _) hkept
  have hne : ptr ≠ 0 := hbooks.nonnull _ (hbooks.mem_of_kept List.mem_cons_self)
  refine ⟨hne, ⟨⟨?_, hbooks.count, hbooks.fits, hbooks.nonnull⟩, by rw [hkeys]; exact h.keys,
    fun hg => by rw [hkeys]; exact h.fixed hg, ?_, fun e he => h.slots e ?_⟩⟩
  · rw [inUse_cons, if_neg hne]
    exact hbooks.toAccounts.reuse
  · intro x hx
    rcases List.mem_cons.mp hx with rfl | hx
    · exact ⟨hadm, by simp [hne, hsize]⟩
    · exact h.live x hx
  · exact hperm.mem_iff.mpr (List.mem_cons_of_mem _ he)

/-- What `Alloc` does to the system and the callers. -/
theorem Inv.alloc {s s' : System κ} (hs : Sound sizes admitted) (h : Inv sizes admitted s)
    {size : ℕ} {answer : Answer} {handle : Handle} (hadm : admitted size)
    (hexact : releases sizes s (.alloc size answer) → ReleasesExactly sizes s.memoryPool)
    (hstep : alloc sizes s size answer = some (s', handle)) :
    s'.live = s.live ∧ handle.size = size ∧ (size ≠ 0 → handle.dptr ≠ 0) ∧
      Inv sizes admitted { s' with live := handle :: s'.live } := by
  rw [PooledStorage.alloc] at hstep
  split_ifs at hstep with hsize
  · obtain ⟨rfl, rfl⟩ := Prod.mk.inj (Option.some.inj hstep)
    refine ⟨rfl, hsize.symm, fun h => absurd hsize h, ⟨?_, h.keys, h.fixed, ?_, h.slots⟩⟩
    · rw [inUse_cons, if_pos rfl]
      exact h.books
    · intro x hx
      rcases List.mem_cons.mp hx with rfl | hx
      · exact ⟨hsize ▸ hadm, by simp⟩
      · exact h.live x hx
  · obtain ⟨b, hb, -⟩ := hs.bytes size hsize hadm
    simp only [Option.bind_eq_bind, hb, Option.bind_some, Option.bind_eq_some_iff] at hstep
    obtain ⟨ps, hps, hstep⟩ := hstep
    cases hlast : ps.getLast? with
    | some ptr =>
      rw [hlast] at hstep
      obtain ⟨rfl, rfl⟩ := Prod.mk.inj (Option.some.inj hstep)
      obtain ⟨hne, hinv⟩ := h.reuse hsize hadm hps hlast
      exact ⟨rfl, rfl, fun _ => hne, hinv⟩
    | none =>
      rw [hlast] at hstep
      obtain rfl := List.getLast?_eq_none_iff.mp hlast
      simp only [allocNew, Option.bind_eq_bind, Option.bind_eq_some_iff] at hstep
      obtain ⟨s₁, hlow, s₂, hfails, owned, howned, hstep⟩ := hstep
      obtain ⟨h₁, hlive₁, hexact₁⟩ := h.releaseIf
        (fun hc => hexact ⟨hsize, hps, .inr ⟨b, hb, hc⟩⟩) hlow
      obtain ⟨h₂, hlive₂, -⟩ := h₁.releaseIf
        (fun hc => hexact₁ (hexact ⟨hsize, hps, .inl hc⟩)) hfails
      obtain ⟨hne, hinv⟩ := h₂.malloc hsize hadm hb howned
      obtain ⟨rfl, rfl⟩ := Prod.mk.inj (Option.some.inj hstep)
      exact ⟨hlive₂.trans hlive₁, rfl, fun _ => hne, hinv⟩

theorem Inv.free {s s' : System κ} (h : Inv sizes admitted s)
    {handle : Handle} (hmem : handle ∈ s.live)
    (hstep : free sizes { s with live := s.live.erase handle } handle = some s') :
    Inv sizes admitted s' := by
  have hlive : ∀ x ∈ s.live.erase handle, admitted x.size ∧ (x.dptr = 0 ↔ x.size = 0) :=
    fun x hx => h.live x (List.mem_of_mem_erase hx)
  have herase := inUse_erase sizes hmem
  rw [PooledStorage.free] at hstep
  split_ifs at hstep with hnull
  · obtain rfl := Option.some.inj hstep
    rw [if_pos hnull] at herase
    exact ⟨h.books.of_perm herase (.refl _), h.keys, h.fixed, hlive, h.slots⟩
  · rw [if_neg hnull] at herase
    simp only [Option.bind_eq_bind, Option.bind_eq_some_iff] at hstep
    obtain ⟨ps, hps, hstep⟩ := hstep
    obtain rfl := Option.some.inj hstep
    obtain ⟨hperm, hkeys, hsub⟩ := entries_push h.keys hps handle.dptr
    have hbooks := h.books.of_perm herase (.refl _)
    have hne : handle.size ≠ 0 := fun hz => hnull ((h.live handle hmem).2.mpr hz)
    refine ⟨⟨?_, hbooks.count, hbooks.fits, hbooks.nonnull⟩, hkeys,
      fun hg => List.Subset.trans (h.fixed hg) hsub, hlive, fun e he => ?_⟩
    · refine hbooks.toAccounts.keep.of_perm (.refl _) (.refl _) ?_
      exact (hperm.map fun e : κ × ℕ => (e.2, (sizes.slotBytes e.1).getD 0)).symm
    · rcases List.mem_cons.mp (hperm.mem_iff.mp he) with rfl | he
      · exact ⟨handle.size, hne, (h.live handle hmem).1, rfl⟩
      · exact h.slots e he

/-- A call keeps the invariant if, where it runs `ReleaseAll`, this takes off what the blocks
have. -/
theorem Inv.step {s s' : System κ} (hs : Sound sizes admitted) (h : Inv sizes admitted s) {op : Op}
    (hadm : ∀ size answer, op = .alloc size answer → admitted size)
    (hexact : releases sizes s op → ReleasesExactly sizes s.memoryPool)
    (hstep : step sizes s op = some s') : Inv sizes admitted s' := by
  cases op with
  | alloc size answer =>
    obtain ⟨⟨s₁, handle⟩, halloc, hlive⟩ := Option.bind_eq_some_iff.mp hstep
    obtain rfl := Option.some.inj hlive
    exact (h.alloc hs (hadm size answer rfl) hexact halloc).2.2.2
  | free handle =>
    rw [PooledStorage.step] at hstep
    split_ifs at hstep with hmem
    exact h.free hmem hstep
  | directFree handle =>
    rw [PooledStorage.step] at hstep
    split_ifs at hstep with hmem
    exact h.directFree hs hmem hstep
  | releaseAll =>
    obtain ⟨s'', hrel, hinv, -⟩ := h.releaseAll (hexact trivial)
    obtain rfl : s'' = s' := Option.some.inj (hrel.symm.trans hstep)
    exact hinv

/-- A system that is reached in some calls, each for an admitted size and, if it runs
`ReleaseAll`, under the condition `ok` on the pool. -/
def Reached (sizes : Sizes κ) (admitted : ℕ → Prop) (ok : List (κ × List ℕ) → Prop)
    (s : System κ) : Prop :=
  ∃ k, Steps (fun s s' => ∃ op, (∀ size answer, op = .alloc size answer → admitted size) ∧
    (releases sizes s op → ok s.memoryPool) ∧ step sizes s op = some s') k (initial sizes) s

theorem Reached.initial {ok : List (κ × List ℕ) → Prop} :
    Reached sizes admitted ok (initial sizes) := ⟨0, .refl _⟩

theorem Reached.step {ok : List (κ × List ℕ) → Prop} {s s' : System κ}
    (h : Reached sizes admitted ok s) {op : Op} (hstep : step sizes s op = some s')
    (hadm : ∀ size answer, op = .alloc size answer → admitted size)
    (hok : releases sizes s op → ok s.memoryPool) : Reached sizes admitted ok s' := by
  obtain ⟨k, hrun⟩ := h
  exact ⟨k + 1, hrun.tail ⟨op, hadm, hok, hstep⟩⟩

theorem Reached.inv (hs : Sound sizes admitted) {ok : List (κ × List ℕ) → Prop} {s : System κ}
    (hok : ∀ s, Inv sizes admitted s → ok s.memoryPool → ReleasesExactly sizes s.memoryPool)
    (h : Reached sizes admitted ok s) : Inv sizes admitted s := by
  obtain ⟨k, hrun⟩ := h
  refine hrun.invariant (inv_initial hs) ?_
  rintro s s' hinv ⟨op, hadm, hrel, hstep⟩
  exact hinv.step hs hadm (fun hr => hok s hinv (hrel hr)) hstep

/-- One block that is allocated, freed and released. -/
theorem reached_one_block (hs : Sound sizes admitted) {n b r : ℕ} (hn : n ≠ 0) (hadm : admitted n)
    (hb : sizes.slotBytes (sizes.slot n) = some b) (hfits : b < 2 ^ 64)
    (hr : sizes.refund (sizes.handleSize (sizes.slot n)) = some r) :
    ∃ s, Reached sizes admitted (fun _ => True) s ∧ s.owned = [] ∧
      s.usedMemory = (b + (2 ^ 64 - r)) % 2 ^ 64 := by
  set pool := (initial sizes).memoryPool with hpool
  have hkeys : (pool.map Prod.fst).Nodup := keys_initial ▸ hs.keys_nodup
  have hreuse : reusePool sizes pool (sizes.slot n) = some [] := by
    obtain ⟨ps, hps⟩ := reusePool_isSome (k := sizes.slot n) (show sizes.growing = true ∨
      sizes.slot n ∈ pool.map Prod.fst by
      cases hg : sizes.growing with
      | true => exact .inl rfl
      | false => exact .inr (keys_initial ▸ hs.slot_mem hg n hn hadm))
    obtain ⟨pre, post, hsplit⟩ | ⟨rfl, -⟩ := reusePool_eq_some hps
    · have hmem : (sizes.slot n, ps) ∈ pool := hsplit ▸ List.mem_append_right _ List.mem_cons_self
      obtain ⟨k', -, hk'⟩ := List.mem_map.mp hmem
      rw [hps, ← (Prod.mk.inj hk').2]
    · exact hps
  have hlow : lowMemory sizes ⟨2 ^ 64 - 1, 0, false, 1⟩ b = false := by
    simp [lowMemory]
    omega
  have hmalloc : cudaMalloc [] 1 b = some [(1, b)] :=
    if_pos ⟨one_ne_zero, List.not_mem_nil, by rw [bytes_nil]; omega⟩
  have hmod : (0 + b) % 2 ^ 64 = b := by omega
  have halloc : step sizes (initial sizes) (.alloc n ⟨2 ^ 64 - 1, 0, false, 1⟩) =
      some ⟨b, pool, [(1, b)], [⟨1, n⟩]⟩ := by
    have hinit : initial sizes = ⟨0, pool, [], []⟩ := rfl
    simp only [PooledStorage.step, alloc, if_neg hn, hinit, hb, hreuse, List.getLast?_nil,
      allocNew, PooledStorage.releaseIf, hlow, hmalloc, hmod, Option.bind_eq_bind,
      Option.bind_some, Bool.false_eq_true, if_false]
  obtain ⟨hperm, -⟩ := entries_push hkeys hreuse 1
  set pool' := if sizes.slot n ∈ pool.map Prod.fst then setPool pool (sizes.slot n) ([] ++ [1])
    else pool ++ [(sizes.slot n, [1])] with hpool'
  have hfree : step sizes ⟨b, pool, [(1, b)], [⟨1, n⟩]⟩ (.free ⟨1, n⟩) =
      some ⟨b, pool', [(1, b)], []⟩ := by
    simp [PooledStorage.step, PooledStorage.free, hreuse, hpool']
  have hrel : step sizes ⟨b, pool', [(1, b)], []⟩ .releaseAll =
      some ⟨(b + (2 ^ 64 - r)) % 2 ^ 64, clearPool sizes pool', [], []⟩ := by
    rw [hpool, entries_initial, List.perm_singleton] at hperm
    simp [PooledStorage.step, PooledStorage.releaseAll, hperm, directFreeNoLock, cudaFree, remove,
      hr]
  have hreached : Reached sizes admitted (fun _ => True) ⟨b, pool, [(1, b)], [⟨1, n⟩]⟩ :=
    Reached.initial.step halloc (fun _ _ h => (Op.alloc.inj h).1 ▸ hadm) fun _ => trivial
  have hreached' := hreached.step hfree (fun _ _ h => nomatch h) fun _ => trivial
  exact ⟨_, hreached'.step hrel (fun _ _ h => nomatch h) fun _ => trivial, rfl, rfl⟩

end Invariant

end PooledStorage
end NetStorm

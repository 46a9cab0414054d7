import Mathlib.Data.List.Nodup
import NetStorm.GraphAllocator
import NetStorm.HandedOutKeys

/-!
# Switching to multi-precision

`CreateMultiPrecisionCopies` runs when the optimizer is set after keys were initialised. Its
loop over `store_` takes every key through an `int`, while `DataHandleDefault` and
`ApplyUpdates` look `store_realt_` up by the 64-bit key.
-/
namespace NetStorm
namespace MultiPrecision
open PlanMemory (TypeFlag)

/-- `NDArrayStorageType`, for the two types that a store holds. -/
inductive StorageType
  | defaultStorage
  | rowSparseStorage
deriving DecidableEq

/-- `NDArray`: its rows are the index data of a row-sparse array, and memory that was
allocated and not written is `none`. -/
structure TypedArray (ν : Type) where
  storageType : StorageType
  shape : List ℕ
  dtype : TypeFlag
  rows : List ℕ
  data : List (Option ν)
  sized : data.length = match storageType with
    | .defaultStorage => shape.prod
    | .rowSparseStorage => rows.length * shape.tail.prod

variable {ν ρ : Type}

/-- The constructors of `NDArray`; a row-sparse array has no rows yet. -/
def TypedArray.new (storageType : StorageType) (shape : List ℕ) (dtype : TypeFlag) :
    TypedArray ν where
  storageType := storageType
  shape := shape
  dtype := dtype
  rows := []
  data := match storageType with
    | .defaultStorage => List.replicate shape.prod none
    | .rowSparseStorage => []
  sized := by cases storageType <;> simp

/-- `CopyFromTo` for arrays of one storage type. An array of no elements is not copied. -/
def copyFromTo (cast : TypeFlag → TypeFlag → ν → ν) (src dst : TypedArray ν) :
    Option (TypedArray ν) :=
  if src.shape = dst.shape then
    if src.shape.prod = 0 then some dst
    else if hstorage : src.storageType = dst.storageType ∧ src.shape = dst.shape then
      some { dst with
        rows := src.rows
        data := src.data.map (Option.map (cast src.dtype dst.dtype))
        sized := by rw [List.length_map, src.sized, hstorage.1, hstorage.2] }
    else none
  else none

/-- `UpdateBuf`. -/
structure UpdateBuf (ν ρ : Type) where
  request : List ρ := []
  merged : Option (TypedArray ν) := none
  tempArray : Option (TypedArray ν) := none

/-- The maps that the switch writes: `store_realt_` by key and `update_buf_` by `int`. -/
structure Buffers (ν ρ : Type) where
  storeRealt : ℕ → Option (TypedArray ν)
  updateBuf : ℤ → Option (UpdateBuf ν ρ)

/-- The members of `KVStoreDistServer`, with `store_` in the order of its iteration. Nothing
is written to `store_realt_` before the switch. -/
structure Server (ν ρ : Type) extends Buffers ν ρ where
  store : List (ℕ × TypedArray ν)
  multiPrecision : Bool
  nodup : (store.map Prod.fst).Nodup
  fresh : multiPrecision = false → ∀ k, storeRealt k = none

/-- `has_multi_precision_copy`. -/
def hasMultiPrecisionCopy (s : Server ν ρ) (dtype : TypeFlag) : Bool :=
  s.multiPrecision && dtype != .float32

/-- The array that `DataHandleDefault` and `ApplyUpdates` take for a key. -/
def stored (s : Server ν ρ) (dtype : TypeFlag) (key : ℕ) : Option (TypedArray ν) :=
  if hasMultiPrecisionCopy s dtype = true then s.storeRealt key else s.store.lookup key

/-- An array of `float32` with the storage type and the shape of another. -/
def newFloat32 (a : TypedArray ν) : TypedArray ν := .new a.storageType a.shape .float32

variable (cast : TypeFlag → TypeFlag → ν → ν)

/-- The loop body of `CreateMultiPrecisionCopies`. -/
def copyEntry (b : Buffers ν ρ) (entry : ℕ × TypedArray ν) : Option (Buffers ν ρ) :=
  let key := toInt32 entry.1
  let stored := entry.2
  if stored.dtype ≠ .float32 then do
    let update := (b.updateBuf key).getD {}
    let update := { update with merged := update.merged.map newFloat32 }
    if update.request ≠ [] then none
    else
      let storedRealt ← copyFromTo cast stored (newFloat32 stored)
      some {
        storeRealt := Function.update b.storeRealt (asKey key) (some storedRealt)
        updateBuf := Function.update b.updateBuf key (some update) }
  else some b

/-- `CreateMultiPrecisionCopies`. -/
def createMultiPrecisionCopies (s : Server ν ρ) : Option (Buffers ν ρ) :=
  s.store.foldlM (copyEntry cast) s.toBuffers

/-- `CommandHandle` on `kSetMultiPrecision`. -/
def setMultiPrecision (s : Server ν ρ) : Option (Server ν ρ) :=
  if s.multiPrecision = false then do
    let b ← createMultiPrecisionCopies cast s
    some { s with toBuffers := b, multiPrecision := true, fresh := nofun }
  else some s

/-- No push is waiting for its answer. -/
def Idle (b : Buffers ν ρ) : Prop := ∀ i u, b.updateBuf i = some u → u.request = []

/-- An array holds the values of another as `float32`. -/
structure IsFloat32Copy (a c : TypedArray ν) : Prop where
  dtype : c.dtype = .float32
  storageType : c.storageType = a.storageType
  shape : c.shape = a.shape
  rows : a.shape.prod ≠ 0 → c.rows = a.rows
  data : a.shape.prod ≠ 0 → c.data = a.data.map (Option.map (cast a.dtype .float32))

/-- What the switch is for. -/
structure Switched (s s' : Server ν ρ) : Prop where
  copied : ∀ e ∈ s.store, e.2.dtype ≠ .float32 →
    ∃ c, stored s' e.2.dtype e.1 = some c ∧ IsFloat32Copy cast e.2 c
  merged : ∀ e ∈ s.store, e.2.dtype ≠ .float32 → ∀ u, s.updateBuf (slot e.1) = some u →
    s'.updateBuf (slot e.1) = some { u with merged := u.merged.map newFloat32 }
  store : s'.store = s.store
  float32 : ∀ e ∈ s.store, e.2.dtype = .float32 →
    s'.storeRealt e.1 = s.storeRealt e.1 ∧ s'.updateBuf (slot e.1) = s.updateBuf (slot e.1)
  others : ∀ i, (∀ e ∈ s.store, e.2.dtype ≠ .float32 → slot e.1 ≠ i) →
    s'.updateBuf i = s.updateBuf i
  apart : ∀ e ∈ s.store, ∀ e' ∈ s.store, e.2.dtype ≠ .float32 → e'.2.dtype ≠ .float32 →
    e.1 ≠ e'.1 → asKey (toInt32 e.1) ≠ asKey (toInt32 e'.1)

section Loop
variable {cast}

variable (cast) in
/-- An array always fits its copy. -/
theorem copyFromTo_newFloat32 (a : TypedArray ν) :
    ∃ c, copyFromTo cast a (newFloat32 a) = some c ∧ IsFloat32Copy cast a c := by
  by_cases hzero : a.shape.prod = 0
  · exact ⟨newFloat32 a, by simp [copyFromTo, newFloat32, TypedArray.new, hzero],
      rfl, rfl, rfl, absurd hzero, absurd hzero⟩
  · rw [copyFromTo, if_pos (show a.shape = (newFloat32 a).shape from rfl), if_neg hzero,
      dif_pos ⟨rfl, rfl⟩]
    exact ⟨_, rfl, rfl, rfl, rfl, fun _ => rfl, fun _ => rfl⟩

/-- What the loop has done after the entries `es`. -/
structure Copied (cast : TypeFlag → TypeFlag → ν → ν) (es : List (ℕ × TypedArray ν))
    (b b' : Buffers ν ρ) : Prop where
  copied : ∀ e ∈ es, e.2.dtype ≠ .float32 →
    ∃ c, b'.storeRealt (asKey (slot e.1)) = some c ∧ IsFloat32Copy cast e.2 c
  realt : ∀ k, (∀ e ∈ es, e.2.dtype ≠ .float32 → asKey (slot e.1) ≠ k) →
    b'.storeRealt k = b.storeRealt k
  merged : ∀ e ∈ es, e.2.dtype ≠ .float32 → ∀ u, b.updateBuf (slot e.1) = some u →
    b'.updateBuf (slot e.1) = some { u with merged := u.merged.map newFloat32 }
  others : ∀ i, (∀ e ∈ es, e.2.dtype ≠ .float32 → slot e.1 ≠ i) → b'.updateBuf i = b.updateBuf i

theorem slot_asKey_slot (k : ℕ) : slot (asKey (slot k)) = slot k :=
  toInt32_asKey (toInt32_range k).1 (toInt32_range k).2

theorem asKey_slot_ne {k k' : ℕ} (h : slot k ≠ slot k') : asKey (slot k) ≠ asKey (slot k') :=
  fun he => h (by rw [← slot_asKey_slot k, he, slot_asKey_slot])

variable (cast) in
/-- One entry. -/
theorem copyEntry_spec {b : Buffers ν ρ} (h : Idle b) (e : ℕ × TypedArray ν) :
    ∃ b', copyEntry cast b e = some b' ∧ Copied cast [e] b b' ∧ Idle b' := by
  by_cases hdtype : e.2.dtype = .float32
  · refine ⟨b, by rw [copyEntry, if_neg (not_not.mpr hdtype)], ⟨?_, fun _ _ => rfl, ?_,
      fun _ _ => rfl⟩, h⟩
    · simp [hdtype]
    · simp [hdtype]
  · set update := (b.updateBuf (slot e.1)).getD {} with hupdate
    have hrequest : update.request = [] := by
      cases hu : b.updateBuf (slot e.1) with
      | none => rw [hupdate, hu]; rfl
      | some u => rw [hupdate, hu]; exact h _ _ hu
    obtain ⟨c, hcopy, hc⟩ := copyFromTo_newFloat32 cast e.2
    refine ⟨⟨Function.update b.storeRealt (asKey (slot e.1)) (some c),
      Function.update b.updateBuf (slot e.1)
        (some { update with merged := update.merged.map newFloat32 })⟩, ?_, ⟨?_, ?_, ?_, ?_⟩, ?_⟩
    · have hslot : toInt32 e.1 = slot e.1 := rfl
      simp only [copyEntry, ne_eq, hdtype, not_false_eq_true, if_true, hslot, ← hupdate, hrequest,
        not_true_eq_false, if_false, hcopy, Option.bind_eq_bind, Option.bind_some]
    · simp [hc]
    · intro k hk
      dsimp only
      rw [Function.update_of_ne (Ne.symm (hk e (List.mem_singleton_self e) hdtype))]
    · intro e' he' _ u hu
      obtain rfl := List.mem_singleton.mp he'
      simp [hupdate, hu]
    · intro i hi
      dsimp only
      rw [Function.update_of_ne (Ne.symm (hi e (List.mem_singleton_self e) hdtype))]
    · intro i u hu
      dsimp only at hu
      rcases eq_or_ne i (slot e.1) with heq | hne
      · rw [heq, Function.update_self] at hu
        obtain rfl := Option.some.inj hu
        exact hrequest
      · rw [Function.update_of_ne hne] at hu
        exact h i u hu

theorem Copied.cons {e : ℕ × TypedArray ν} {es : List (ℕ × TypedArray ν)} {b b₁ b₂ : Buffers ν ρ}
    (h : Copied cast [e] b b₁) (h' : Copied cast es b₁ b₂)
    (hslots : ∀ e' ∈ es, slot e.1 ≠ slot e'.1) : Copied cast (e :: es) b b₂ where
  copied e' he' hdtype := by
    rcases List.mem_cons.mp he' with rfl | he'
    · rw [h'.realt _ fun e'' he'' _ => asKey_slot_ne (hslots e'' he'').symm]
      exact h.copied e' (List.mem_singleton_self e') hdtype
    · exact h'.copied e' he' hdtype
  realt k hk := (h'.realt k fun e' he' => hk e' (List.mem_cons_of_mem e he')).trans
    (h.realt k fun e' he' => hk e' (List.mem_singleton.mp he' ▸ List.mem_cons_self))
  merged e' he' hdtype u hu := by
    rcases List.mem_cons.mp he' with rfl | he'
    · rw [h'.others _ fun e'' he'' _ => (hslots e'' he'').symm]
      exact h.merged e' (List.mem_singleton_self e') hdtype u hu
    · refine h'.merged e' he' hdtype u ?_
      rw [h.others _ fun e'' he'' _ => List.mem_singleton.mp he'' ▸ hslots e' he', hu]
  others i hi := (h'.others i fun e' he' => hi e' (List.mem_cons_of_mem e he')).trans
    (h.others i fun e' he' => hi e' (List.mem_singleton.mp he' ▸ List.mem_cons_self))

variable (cast) in
/-- The loop, over entries that lie in different slots. -/
theorem foldlM_copyEntry {es : List (ℕ × TypedArray ν)}
    (hslots : es.Pairwise fun e e' => slot e.1 ≠ slot e'.1) {b : Buffers ν ρ} (h : Idle b) :
    ∃ b', es.foldlM (copyEntry cast) b = some b' ∧ Copied cast es b b' := by
  induction es generalizing b with
  | nil => exact ⟨b, rfl, by simp, fun _ _ => rfl, by simp, fun _ _ => rfl⟩
  | cons e es ih =>
    obtain ⟨hhead, htail⟩ := List.pairwise_cons.mp hslots
    obtain ⟨b₁, hstep, h₁, hidle⟩ := copyEntry_spec cast h e
    obtain ⟨b₂, hrun, h₂⟩ := ih htail hidle
    exact ⟨b₂, by rw [List.foldlM_cons, hstep]; exact hrun, h₁.cons h₂ hhead⟩

end Loop

/-- `CreateMultiPrecisionCopies` copies every initialised key exactly on the first server, and
elsewhere when there is nothing to copy. -/
theorem switched_iff {cfg : ShardConfig} (hn : cfg.numServers < 2 ^ 31) {rank : ℕ}
    (s : Server ν ρ) (hoff : s.multiPrecision = false) (hidle : Idle s.toBuffers)
    (hkeys : ∀ e ∈ s.store, cfg.HandedOut e.1 ∧ OfServer cfg.numServers rank e.1) :
    (∃ s', setMultiPrecision cast s = some s' ∧ Switched cast s s') ↔
      rank = 0 ∨ ∀ e ∈ s.store, e.2.dtype = .float32 := by
  have hinj : ∀ e ∈ s.store, ∀ e' ∈ s.store, slot e.1 = slot e'.1 → e.1 = e'.1 :=
    fun e he e' he' => ((hkeys e he).1.intOffset hn).slot_inj hn (hkeys e he).2
      ((hkeys e' he').1.intOffset hn) (hkeys e' he').2
  have hslots : s.store.Pairwise fun e e' => slot e.1 ≠ slot e'.1 :=
    (List.pairwise_map.mp s.nodup).imp_of_mem fun he he' hne hslot => hne (hinj _ he _ he' hslot)
  obtain ⟨b, hloop, hb⟩ := foldlM_copyEntry cast hslots hidle
  have hrun : setMultiPrecision cast s =
      some { s with toBuffers := b, multiPrecision := true, fresh := nofun } := by
    rw [setMultiPrecision, if_pos hoff, createMultiPrecisionCopies, hloop]
    rfl
  have hlookup : ∀ e : ℕ × TypedArray ν, e.2.dtype ≠ .float32 →
      stored { s with toBuffers := b, multiPrecision := true, fresh := nofun } e.2.dtype e.1 =
        b.storeRealt e.1 := fun e hdtype => by
    simp [stored, hasMultiPrecisionCopy, hdtype]
  constructor
  · rintro ⟨s', hs', h⟩
    obtain rfl := Option.some.inj (hrun.symm.trans hs')
    by_contra hnot
    rw [not_or, not_forall] at hnot
    obtain ⟨hrank, e, hnot⟩ := hnot
    obtain ⟨he, hdtype⟩ := Classical.not_imp.mp hnot
    obtain ⟨c, hc, -⟩ := h.copied e he hdtype
    rw [hlookup e hdtype, hb.realt, s.fresh hoff] at hc
    · cases hc
    · -- an entry that wrote here would be this one, and its key would pass unchanged
      intro e' he' _ hkey
      have hsame : e'.1 = e.1 := hinj e' he' e he (by rw [← hkey, slot_asKey_slot])
      rw [hsame] at hkey
      exact hrank ((((hkeys e he).1.intOffset hn).asKey_iff hn (hkeys e he).2).mp hkey)
  · intro h
    have hkeep : ∀ e ∈ s.store, e.2.dtype ≠ .float32 → asKey (slot e.1) = e.1 :=
      fun e he hdtype => (((hkeys e he).1.intOffset hn).asKey_iff hn (hkeys e he).2).mpr
        (h.resolve_right fun hall => hdtype (hall e he))
    have hother : ∀ e ∈ s.store, e.2.dtype = .float32 → ∀ e' ∈ s.store, e'.2.dtype ≠ .float32 →
        e'.1 ≠ e.1 := fun e he hdtype e' he' hdtype' hkey =>
      hdtype' (List.inj_on_of_nodup_map s.nodup he' he hkey ▸ hdtype)
    refine ⟨_, hrun, ⟨fun e he hdtype => ?_, hb.merged, rfl, fun e he hdtype => ⟨?_, ?_⟩,
      hb.others, fun e he e' he' _ _ hne => ?_⟩⟩
    · have hcopy := hb.copied e he hdtype
      rw [hkeep e he hdtype] at hcopy
      rwa [hlookup e hdtype]
    · refine hb.realt e.1 fun e' he' hdtype' => ?_
      rw [hkeep e' he' hdtype']
      exact hother e he hdtype e' he' hdtype'
    · exact hb.others _ fun e' he' hdtype' hslot =>
        hother e he hdtype e' he' hdtype' (hinj e' he' e he hslot)
    · exact asKey_slot_ne fun hslot => hne (hinj e he e' he' hslot)

/-- Two servers that share small arrays by the hash of their key. -/
def twoServers : ShardConfig where
  numServers := 2
  bigarrayBound := 1000
  enableOriginal := true
  arith := .single

/-- One element of `float16` under a ps key, before the switch. -/
def oneHalf (key : ℕ) : Server ℕ Unit where
  storeRealt _ := none
  updateBuf _ := none
  store := [(key, ⟨.defaultStorage, [1], .float16, [], [some 7], rfl⟩)]
  multiPrecision := false
  nodup := by simp
  fresh _ _ := rfl

/-- The first of them holds the element under the key that array 2 got. -/
def firstServer : Server ℕ Unit :=
  oneHalf 2

/-- The second of them holds it under the key that array 1 got. -/
def secondServer : Server ℕ Unit :=
  oneHalf (2 ^ 63)

theorem oneHalf_idle (key : ℕ) : Idle (oneHalf key).toBuffers := by
  intro i u h
  cases h

theorem twoServers_handedOut (array : ℤ) (hkey : -2 ^ 31 ≤ array) (hlt : array < 2 ^ 31) {key : ℕ}
    (h : (twoServers.encodeDefaultKey .init ⟨array, 1, 2⟩).map
      (fun r => r.1.map Segment.key) = some [key]) : twoServers.HandedOut key := by
  obtain ⟨r, hr, hkeys⟩ := Option.map_eq_some_iff.mp h
  exact ⟨.init, ⟨array, 1, 2⟩, r, .init, hkey, hlt, hr, by simp [hkeys]⟩

theorem firstServer_keys (e : ℕ × TypedArray ℕ) (he : e ∈ firstServer.store) :
    twoServers.HandedOut e.1 ∧ OfServer twoServers.numServers 0 e.1 := by
  obtain rfl := List.mem_singleton.mp he
  exact ⟨twoServers_handedOut 2 (by norm_num) (by norm_num) (by decide),
    by norm_num [OfServer, twoServers, rangeBegin, rangeEnd, kMaxKey]⟩

theorem secondServer_keys (e : ℕ × TypedArray ℕ) (he : e ∈ secondServer.store) :
    twoServers.HandedOut e.1 ∧ OfServer twoServers.numServers 1 e.1 := by
  obtain rfl := List.mem_singleton.mp he
  exact ⟨twoServers_handedOut 1 (by norm_num) (by norm_num) (by decide),
    by norm_num [OfServer, twoServers, rangeBegin, rangeEnd, kMaxKey]⟩

/-- The first server gets the `float32` copy under the key of the array. -/
theorem switched_iff_first :
    ∃ s', setMultiPrecision (fun _ _ x => x) firstServer = some s' ∧
      Switched (fun _ _ x => x) firstServer s' :=
  (switched_iff (fun _ _ x => x) (by decide) firstServer rfl (oneHalf_idle _)
    firstServer_keys).mpr (.inl rfl)

theorem secondServer_lookup :
    (setMultiPrecision (fun _ _ x => x) secondServer).map
      (fun s' => (stored s' .float16 (2 ^ 63)).isSome) = some false := by
  decide

/-- The copy on the second server is stored under key 0. -/
theorem not_switched_second :
    twoServers.HandedOut (2 ^ 63) ∧ OfServer twoServers.numServers 1 (2 ^ 63) ∧
      Idle secondServer.toBuffers ∧
      ¬ ∃ s', setMultiPrecision (fun _ _ x => x) secondServer = some s' ∧
        Switched (fun _ _ x => x) secondServer s' := by
  obtain ⟨hhanded, hserver⟩ := secondServer_keys _ List.mem_cons_self
  refine ⟨hhanded, hserver, oneHalf_idle _, ?_⟩
  rintro ⟨s', hs', h⟩
  obtain ⟨c, hc, -⟩ := h.copied _ List.mem_cons_self (by decide)
  have hlookup := secondServer_lookup
  rw [hs', Option.map_some, hc] at hlookup
  cases hlookup

end MultiPrecision
end NetStorm

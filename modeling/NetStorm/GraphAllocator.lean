import Mathlib.Algebra.BigOperators.Group.List.Basic
import Mathlib.Algebra.Ring.Nat
import Mathlib.Data.List.Perm.Basic
import Mathlib.Data.Option.Basic

/-!
# The allocator of the memory planner

`MXGraphAllocator` numbers the storage blocks in the order they are made, and keeps the free
ones in a map sorted by their size, where equal sizes stand in the order of their release.
`size_t` is a number modulo `2 ^ 64`. A failed check, and a search that would leave the map,
is where there is no result.
-/
namespace NetStorm
namespace PlanMemory

/-- `TShape`. An unknown number of dimensions and an unknown dimension are `none`. -/
abbrev TShape := Option (List (Option ℕ))

/-- `ndim_is_known`. -/
def ndimIsKnown (shape : TShape) : Bool := shape.isSome

/-- `shape_is_known`. -/
def shapeIsKnown (shape : TShape) : Bool :=
  shape.any fun dims => dims.all Option.isSome

/-- `TShape::Size`, which checks that the shape is known. -/
def shapeSize (shape : TShape) : Option ℕ := do
  let dims ← shape
  let sizes ← dims.mapM id
  some (sizes.prod % 2 ^ 64)

/-- The type flags. -/
inductive TypeFlag
  | float32 | float64 | float16 | uint8 | int32 | int8 | int64 | bool | int16 | uint16
  | uint32 | uint64 | bfloat16
  | other (flag : ℤ)
deriving DecidableEq

/-- `MXGetDTypeSize`. -/
def mxGetDTypeSize : TypeFlag → Option ℕ
  | .uint8 | .int8 | .bool => some 1
  | .float16 | .bfloat16 | .int16 | .uint16 => some 2
  | .float32 | .int32 | .uint32 => some 4
  | .float64 | .int64 | .uint64 => some 8
  | .other _ => none

/-- `kBadStorageID`. -/
def kBadStorageID : ℤ := -1

/-- `kExternalStorageID`. -/
def kExternalStorageID : ℤ := -2

/-- `kDynamicStorageID`. -/
def kDynamicStorageID : ℤ := -3

section Multimap
variable {β : Type}

/-- `multimap::lower_bound`, as a position. -/
def lowerBound (entries : List (ℕ × β)) (key : ℕ) : ℕ :=
  (entries.takeWhile fun p => p.1 < key).length

/-- `multimap::upper_bound`, as a position. -/
def upperBound (entries : List (ℕ × β)) (key : ℕ) : ℕ :=
  (entries.takeWhile fun p => p.1 ≤ key).length

/-- `multimap::insert`, which puts an entry behind those of its key. -/
def multimapInsert (entries : List (ℕ × β)) (p : ℕ × β) : List (ℕ × β) :=
  (entries.takeWhile fun q => q.1 ≤ p.1) ++ p :: entries.dropWhile fun q => q.1 ≤ p.1

theorem multimapInsert_perm (entries : List (ℕ × β)) (p : ℕ × β) :
    (multimapInsert entries p).Perm (p :: entries) := by
  rw [multimapInsert]
  refine List.perm_middle.trans (List.Perm.cons p ?_)
  rw [List.takeWhile_append_dropWhile]

theorem foldl_multimapInsert_perm (l entries : List (ℕ × β)) :
    (l.foldl multimapInsert entries).Perm (l ++ entries) := by
  induction l generalizing entries with
  | nil => exact List.Perm.refl _
  | cons p l ih =>
    refine (ih _).trans (((multimapInsert_perm entries p).append_left l).trans ?_)
    exact List.perm_middle

end Multimap

/-- `StorageEntry`. Its id is its position. -/
structure StorageEntry where
  deviceId : ℤ
  maxBytes : ℕ
  releasedByNode : ℕ := 0

/-- The blocks and the free ones of them, by size. -/
structure GraphAllocator where
  data : List StorageEntry
  free : List (ℕ × ℕ)

namespace GraphAllocator

/-- `Alloc`. -/
def alloc (a : GraphAllocator) (devId : ℤ) (size : ℕ) : ℤ × GraphAllocator :=
  (a.data.length, { a with data := a.data ++ [{ deviceId := devId, maxBytes := size }] })

/-- Whether a free block is on the device and its last node has the colour of this one. -/
def usable (a : GraphAllocator) (nodeColor : List ℕ) (devId : ℤ) (nodeId i : ℕ) : Bool :=
  (a.free[i]?.bind fun p => a.data[p.2]?).any fun e =>
    e.deviceId = devId &&
      (nodeColor.isEmpty || nodeColor[e.releasedByNode]? = nodeColor[nodeId]?)

/-- Takes the free block at a position of the map. -/
def take (a : GraphAllocator) (i size : ℕ) : Option (ℤ × GraphAllocator) := do
  let p ← a.free[i]?
  some (p.2, {
    data := a.data.modify p.2 fun e => { e with maxBytes := max size e.maxBytes }
    free := a.free.eraseIdx i })

/-- The two searches of `Request`: upwards from `size`, then downwards. The first one runs to
the end of the map, and out of it, if the product of `size` and `matchRange` wraps around. -/
def search (matchRange : ℕ) (nodeColor : List ℕ) (a : GraphAllocator) (devId : ℤ)
    (size nodeId : ℕ) : Option (Option ℕ) :=
  let first := lowerBound a.free (size / matchRange)
  let mid := lowerBound a.free size
  let last := upperBound a.free (size * matchRange % 2 ^ 64)
  let stop := if mid ≤ last then last else a.free.length
  match (List.range' mid (stop - mid)).find? (a.usable nodeColor devId nodeId) with
  | some i => some (some i)
  | none =>
    if last < mid then none
    else some ((List.range' first (mid - first)).reverse.find? (a.usable nodeColor devId nodeId))

/-- `Request`. -/
def request (matchRange : ℕ) (nodeColor : List ℕ) (a : GraphAllocator) (devId : ℤ)
    (shape : TShape) (nodeId : ℕ) : Option (ℤ × GraphAllocator) :=
  if shapeIsKnown shape = false then some (kBadStorageID, a) else do
  let count ← shapeSize shape
  let size := count * 4 % 2 ^ 64
  if matchRange = 0 then some (a.alloc devId size) else do
  match ← search matchRange nodeColor a devId size nodeId with
  | some i => a.take i size
  | none => some (a.alloc devId size)

/-- `Release`. -/
def release (a : GraphAllocator) (id : ℤ) (nodeId : ℕ) : Option GraphAllocator :=
  if id = kBadStorageID then none
  else if id = kExternalStorageID ∨ id = kDynamicStorageID then some a
  else do
    let e ← a.data[id.toNat]?
    some {
      data := a.data.set id.toNat { e with releasedByNode := nodeId }
      free := multimapInsert a.free (e.maxBytes, id.toNat) }

/-- `TotalAllocBytes`. -/
def totalAllocBytes (a : GraphAllocator) : ℕ := (a.data.map StorageEntry.maxBytes).sum % 2 ^ 64

/-- The ids in the free map. -/
def freeIds (a : GraphAllocator) : List ℤ := a.free.map fun p => (p.2 : ℤ)

theorem nonneg_of_mem_freeIds {a : GraphAllocator} {id : ℤ} (h : id ∈ a.freeIds) : 0 ≤ id := by
  obtain ⟨p, -, rfl⟩ := List.mem_map.mp h
  exact Int.natCast_nonneg _

/-- What the free map always is: ids of blocks, each once. -/
structure Valid (a : GraphAllocator) : Prop where
  nodup : a.freeIds.Nodup
  lt : ∀ id ∈ a.freeIds, id < a.data.length

/-- What a request gives: a block that was free, or a new one. -/
structure Granted (a : GraphAllocator) (id : ℤ) (a' : GraphAllocator) : Prop where
  nonneg : 0 ≤ id
  source : id ∈ a.freeIds ∨ id = a.data.length
  notMem : id ∉ a'.freeIds
  subset : ∀ id' ∈ a'.freeIds, id' ∈ a.freeIds
  id_lt : id < a'.data.length
  mono : a.data.length ≤ a'.data.length

theorem alloc_granted {a : GraphAllocator} (h : a.Valid) (devId : ℤ) (size : ℕ) :
    (a.alloc devId size).2.Valid ∧ a.Granted (a.alloc devId size).1 (a.alloc devId size).2 := by
  have hlen : ((a.alloc devId size).2.data.length : ℤ) = a.data.length + 1 := by simp [alloc]
  refine ⟨⟨h.nodup, fun id hid => ?_⟩, ⟨by simp [alloc], .inr rfl, fun hmem => ?_,
    fun id hid => hid, ?_, by simp [alloc]⟩⟩
  · have := h.lt id hid
    omega
  · have := h.lt _ hmem
    simp [alloc] at this
  · rw [hlen]
    exact Int.lt_succ _

theorem take_granted {a a' : GraphAllocator} (h : a.Valid) {i size : ℕ} {id : ℤ}
    (ht : a.take i size = some (id, a')) : a'.Valid ∧ a.Granted id a' := by
  simp only [take, Option.bind_eq_bind, Option.bind_eq_some_iff, Option.some.injEq,
    Prod.mk.injEq] at ht
  obtain ⟨p, hp, rfl, rfl⟩ := ht
  obtain ⟨hi, rfl⟩ := List.getElem?_eq_some_iff.mp hp
  have hperm : a.freeIds.Perm ((a.free[i].2 : ℤ) :: (a.free.eraseIdx i).map fun p => (p.2 : ℤ)) :=
    ((List.getElem_cons_eraseIdx_perm hi).map fun p : ℕ × ℕ => (p.2 : ℤ)).symm
  have hnodup := List.nodup_cons.mp (hperm.nodup_iff.mp h.nodup)
  have hmem : (a.free[i].2 : ℤ) ∈ a.freeIds := hperm.mem_iff.mpr List.mem_cons_self
  have hsub : ∀ id ∈ (a.free.eraseIdx i).map fun p => (p.2 : ℤ), id ∈ a.freeIds :=
    fun id hid => hperm.mem_iff.mpr (List.mem_cons_of_mem _ hid)
  refine ⟨⟨hnodup.2, fun id hid => ?_⟩, ⟨Int.natCast_nonneg _, .inl hmem, hnodup.1, hsub, ?_, ?_⟩⟩
  · simpa using h.lt id (hsub id hid)
  · simpa using h.lt _ hmem
  · simp

/-- A request changes nothing or grants a block. -/
theorem request_cases {matchRange nodeId : ℕ} {nodeColor : List ℕ} {a a' : GraphAllocator}
    (h : a.Valid) {devId id : ℤ} {shape : TShape}
    (hr : request matchRange nodeColor a devId shape nodeId = some (id, a')) :
    (id = kBadStorageID ∧ a' = a) ∨ (a'.Valid ∧ a.Granted id a') := by
  rw [request] at hr
  by_cases hknown : shapeIsKnown shape = false
  · left
    rw [if_pos hknown] at hr
    simpa [eq_comm] using hr
  · right
    rw [if_neg hknown] at hr
    simp only [Option.bind_eq_bind, Option.bind_eq_some_iff] at hr
    obtain ⟨count, -, hr⟩ := hr
    have halloc : ∀ {size : ℕ}, some (a.alloc devId size) = some (id, a') →
        a'.Valid ∧ a.Granted id a' := by
      intro size heq
      have := alloc_granted h devId size
      rwa [Option.some.inj heq] at this
    split_ifs at hr with hzero
    · exact halloc hr
    · simp only [Option.bind_eq_some_iff] at hr
      obtain ⟨found, -, hr⟩ := hr
      cases found with
      | some i => exact take_granted h hr
      | none => exact halloc hr

/-- A release puts the block into the free map. -/
theorem release_spec {a a' : GraphAllocator} (h : a.Valid) {id : ℤ} {nodeId : ℕ} (hid : 0 ≤ id)
    (hfree : id ∉ a.freeIds) (hr : a.release id nodeId = some a') :
    a'.Valid ∧ (∀ id', id' ∈ a'.freeIds ↔ id' = id ∨ id' ∈ a.freeIds) ∧
      a'.data.length = a.data.length := by
  rw [release, if_neg (by simp [kBadStorageID]; omega),
    if_neg (by simp [kExternalStorageID, kDynamicStorageID]; omega)] at hr
  simp only [Option.bind_eq_bind, Option.bind_eq_some_iff, Option.some.injEq] at hr
  obtain ⟨e, he, rfl⟩ := hr
  obtain ⟨hlt, -⟩ := List.getElem?_eq_some_iff.mp he
  have hperm : ((multimapInsert a.free (e.maxBytes, id.toNat)).map fun p => (p.2 : ℤ)).Perm
      (id :: a.freeIds) := by
    have := (multimapInsert_perm a.free (e.maxBytes, id.toNat)).map fun p => (p.2 : ℤ)
    rwa [List.map_cons, Int.toNat_of_nonneg hid] at this
  have hmem : ∀ id', id' ∈ ((multimapInsert a.free (e.maxBytes, id.toNat)).map fun p => (p.2 : ℤ)) ↔
      id' = id ∨ id' ∈ a.freeIds := fun id' => hperm.mem_iff.trans List.mem_cons
  refine ⟨⟨hperm.nodup_iff.mpr (List.nodup_cons.mpr ⟨hfree, h.nodup⟩), fun id' hid' => ?_⟩,
    hmem, by simp⟩
  rw [List.length_set]
  obtain rfl | hid' := (hmem id').mp hid'
  · omega
  · exact h.lt id' hid'

end GraphAllocator

end PlanMemory
end NetStorm

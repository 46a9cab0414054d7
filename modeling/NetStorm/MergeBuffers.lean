import NetStorm.Library.ListScheduling
import Mathlib.Algebra.BigOperators.Group.List.Basic
import Mathlib.Algebra.Order.Ring.Int

/-!
# The devices of the merge buffers

`CommDevice::InitMergeBuffer` gives the merged array of every key to a device, the largest keys
first, each to a device that has the least so far. Devices are told apart by `dev_id` alone, so that
`cpu(0)` and `gpu(0)` have one entry. Results are for keys with fewer than `2 ^ 64` elements in all.
-/
namespace NetStorm
namespace MergeBuffers
open ListScheduling

structure Context where
  devType : ℤ
  devId : ℤ
  deriving DecidableEq

/-- An entry of `sorted_key_attrs_`. -/
structure KeyAttrs where
  key : ℤ
  shape : List ℕ
  type : ℤ
  deriving DecidableEq

/-- `TShape::Size`. -/
def KeyAttrs.size (k : KeyAttrs) : ℕ := k.shape.prod

/-- The merged array of a key, which is allocated later. -/
structure Merged where
  shape : List ℕ
  ctx : Context
  type : ℤ
  deriving DecidableEq

abbrev CtxInfo := List (Context × ℕ)

/-- `ctx_info[d.dev_id] = std::make_pair(d, 0)`. -/
def assign (info : CtxInfo) (d : Context) : CtxInfo :=
  if info.any fun e => e.1.devId = d.devId then
    info.map fun e => if e.1.devId = d.devId then (d, 0) else e
  else info ++ [(d, 0)]

/-- `ctx_info`, in an order that the hash table may change. -/
def ctxInfo (devs : List Context) : CtxInfo := devs.foldl assign []

/-- The loop over `ctx_info`, from a default context and the largest `size_t`. -/
def choose (info : CtxInfo) : Context × ℕ :=
  info.foldl (fun best e => if e.2 ≤ best.2 then e else best) (⟨1, 0⟩, 2 ^ 64 - 1)

/-- `ctx_info[dev_id].second += size`. -/
def addSize (info : CtxInfo) (devId : ℤ) (size : ℕ) : CtxInfo :=
  if info.any fun e => e.1.devId = devId then
    info.map fun e => if e.1.devId = devId then (e.1, (e.2 + size) % 2 ^ 64) else e
  else info ++ [(⟨1, 0⟩, size % 2 ^ 64)]

/-- `merge_buf_`, by key. -/
abbrev Buffers := ℤ → Option Merged

def noBuffers : Buffers := fun _ => none

/-- The body of the loop over the keys. -/
def placeKey (s : Buffers × CtxInfo) (k : KeyAttrs) : Buffers × CtxInfo :=
  let ctx := (choose s.2).1
  (if (s.1 k.key).isNone then Function.update s.1 k.key (some ⟨k.shape, ctx, k.type⟩) else s.1,
    addSize s.2 ctx.devId k.size)

/-- `CommDevice::InitMergeBuffer` behind the sort. -/
def initMergeBuffer (sorted : List KeyAttrs) (info : CtxInfo) (buf : Buffers) : Buffers :=
  (sorted.foldl placeKey (buf, info)).1

section Devices

/-- The device ids in `ctx_info`. -/
def ids (info : CtxInfo) : List ℤ := info.map fun e => e.1.devId

theorem any_iff {info : CtxInfo} {devId : ℤ} :
    (info.any fun e => e.1.devId = devId) = true ↔ devId ∈ ids info := by
  simp [ids]

theorem ids_assign (info : CtxInfo) (d : Context) :
    ids (assign info d) = if d.devId ∈ ids info then ids info else ids info ++ [d.devId] := by
  unfold assign
  rw [if_congr any_iff rfl rfl]
  split_ifs
  · rw [ids, List.map_map]
    refine List.map_congr_left fun e _ => ?_
    by_cases h : e.1.devId = d.devId <;> simp [h]
  · simp [ids]

/-- The entries are devices, each once, with nothing yet. -/
structure Fresh (devs : List Context) (info : CtxInfo) : Prop where
  nodup : (ids info).Nodup
  mem_ids : ∀ d ∈ devs, d.devId ∈ ids info
  mem_devs : ∀ e ∈ info, e.1 ∈ devs
  empty : ∀ e ∈ info, e.2 = 0

theorem Fresh.assign {devs : List Context} {info : CtxInfo} (h : Fresh devs info) (d : Context) :
    Fresh (devs ++ [d]) (assign info d) := by
  have hmem : ∀ e ∈ MergeBuffers.assign info d, e ∈ info ∨ e = (d, 0) := fun e he => by
    unfold MergeBuffers.assign at he
    split_ifs at he
    · obtain ⟨e', he', rfl⟩ := List.mem_map.mp he
      split_ifs
      · exact .inr rfl
      · exact .inl he'
    · simpa using he
  refine ⟨?_, fun d' hd' => ?_, fun e he => ?_, fun e he => ?_⟩
  · rw [ids_assign]
    split_ifs with hin
    · exact h.nodup
    · rw [← List.concat_eq_append, List.nodup_concat]
      exact ⟨hin, h.nodup⟩
  · rw [ids_assign]
    rcases List.mem_append.mp hd' with hd' | hd'
    · split_ifs
      · exact h.mem_ids d' hd'
      · exact List.mem_append_left _ (h.mem_ids d' hd')
    · obtain rfl := List.mem_singleton.mp hd'
      split_ifs with hin
      · exact hin
      · simp
  · rcases hmem e he with he | rfl
    · exact List.mem_append_left _ (h.mem_devs e he)
    · simp
  · rcases hmem e he with he | rfl
    · exact h.empty e he
    · rfl

theorem fresh_ctxInfo (devs : List Context) : Fresh devs (ctxInfo devs) := by
  induction devs using List.reverseRecOn with
  | nil => exact ⟨.nil, by simp, by simp [ctxInfo], by simp [ctxInfo]⟩
  | append_singleton devs d ih =>
    rw [ctxInfo, List.foldl_append]
    exact ih.assign d

theorem Fresh.perm {devs : List Context} {info info' : CtxInfo} (h : Fresh devs info)
    (hperm : info'.Perm info) : Fresh devs info' where
  nodup := (hperm.map _).nodup_iff.mpr h.nodup
  mem_ids d hd := (hperm.map _).mem_iff.mpr (h.mem_ids d hd)
  mem_devs e he := h.mem_devs e (hperm.mem_iff.mp he)
  empty e he := h.empty e (hperm.mem_iff.mp he)

theorem Fresh.toFinset {devs : List Context} {info : CtxInfo} (h : Fresh devs info) :
    (ids info).toFinset = (devs.map Context.devId).toFinset := by
  ext i
  rw [List.mem_toFinset, List.mem_toFinset, List.mem_map, ids, List.mem_map]
  constructor
  · rintro ⟨e, he, rfl⟩
    exact ⟨e.1, h.mem_devs e he, rfl⟩
  · rintro ⟨d, hd, rfl⟩
    exact List.mem_map.mp (h.mem_ids d hd)

end Devices

section Choice

theorem foldl_choose (info : CtxInfo) (best : Context × ℕ) :
    let r := info.foldl (fun best e => if e.2 ≤ best.2 then e else best) best
    (r ∈ info ∨ r = best) ∧ r.2 ≤ best.2 ∧ ∀ e ∈ info, r.2 ≤ e.2 := by
  induction info generalizing best with
  | nil => simp
  | cons e info ih =>
    rw [List.foldl_cons]
    obtain ⟨hmem, hle, hall⟩ := ih (if e.2 ≤ best.2 then e else best)
    split_ifs at hmem hle hall ⊢ with hbest
    · refine ⟨?_, hle.trans hbest, ?_⟩
      · rcases hmem with hmem | hmem
        · exact .inl (List.mem_cons_of_mem _ hmem)
        · exact .inl (List.mem_cons.mpr (.inl hmem))
      · exact List.forall_mem_cons.mpr ⟨hle, hall⟩
    · refine ⟨hmem.imp_left (List.mem_cons_of_mem _), hle, ?_⟩
      exact List.forall_mem_cons.mpr ⟨hle.trans (not_le.mp hbest).le, hall⟩

/-- The choice is a device with the least size so far. -/
theorem choose_spec {info : CtxInfo} (hne : info ≠ []) (hsize : ∀ e ∈ info, e.2 < 2 ^ 64) :
    choose info ∈ info ∧ ∀ e ∈ info, (choose info).2 ≤ e.2 := by
  match info, hne with
  | e :: info, _ =>
    have hfirst : e.2 ≤ 2 ^ 64 - 1 := Nat.le_sub_one_of_lt (hsize e List.mem_cons_self)
    rw [choose, List.foldl_cons, if_pos hfirst]
    obtain ⟨hmem, hle, hall⟩ := foldl_choose info e
    refine ⟨?_, List.forall_mem_cons.mpr ⟨hle, hall⟩⟩
    rcases hmem with hmem | hmem
    · exact List.mem_cons_of_mem _ hmem
    · exact List.mem_cons.mpr (.inl hmem)

end Choice

section Run
variable {info : CtxInfo} {sorted : List KeyAttrs} {buf : Buffers}

/-- What `InitMergeBuffer` has done after `j` keys. -/
def placed (sorted : List KeyAttrs) (info : CtxInfo) (buf : Buffers) (j : ℕ) : Buffers × CtxInfo :=
  (sorted.take j).foldl placeKey (buf, info)

/-- The size of key `j`. -/
def sizeAt (sorted : List KeyAttrs) (j : ℕ) : ℕ := (sorted[j]?.map KeyAttrs.size).getD 0

/-- The device that is chosen for key `j`. -/
def deviceAt (sorted : List KeyAttrs) (info : CtxInfo) (buf : Buffers) (j : ℕ) : ℤ :=
  (choose (placed sorted info buf j).2).1.devId

theorem placed_succ {j : ℕ} (hj : j < sorted.length) :
    placed sorted info buf (j + 1) = placeKey (placed sorted info buf j) sorted[j] := by
  rw [placed, List.take_succ_eq_append_getElem hj, List.foldl_append]
  rfl

@[simp] theorem sizeAt_append (sorted : List KeyAttrs) (k : KeyAttrs) :
    sizeAt (sorted ++ [k]) sorted.length = k.size := by
  simp [sizeAt]

theorem sizeAt_append_of_lt {j : ℕ} (hj : j < sorted.length) (k : KeyAttrs) :
    sizeAt (sorted ++ [k]) j = sizeAt sorted j := by
  rw [sizeAt, List.getElem?_append_left hj]
  rfl

theorem sum_sizeAt (sorted : List KeyAttrs) :
    ∑ j ∈ Finset.range sorted.length, sizeAt sorted j = (sorted.map KeyAttrs.size).sum := by
  induction sorted using List.reverseRecOn with
  | nil => rfl
  | append_singleton sorted k ih =>
    rw [List.length_append, List.length_singleton, Finset.sum_range_succ, sizeAt_append,
      List.map_append, List.sum_append, ← ih, List.map_singleton, List.sum_singleton]
    congr 1
    exact Finset.sum_congr rfl fun j hj => sizeAt_append_of_lt (Finset.mem_range.mp hj) k

/-- The sizes that a placement of the keys gives to a device. -/
theorem load_place (f : KeyAttrs → ℤ) (sorted : List KeyAttrs) (d : ℤ) :
    load (sizeAt sorted) (fun j => (sorted[j]?.map f).getD 0) sorted.length d =
      ((sorted.filter fun k => f k = d).map KeyAttrs.size).sum := by
  induction sorted using List.reverseRecOn with
  | nil => rfl
  | append_singleton sorted k ih =>
    have hbefore : load (sizeAt (sorted ++ [k])) (fun j => ((sorted ++ [k])[j]?.map f).getD 0)
        sorted.length d = load (sizeAt sorted) (fun j => (sorted[j]?.map f).getD 0)
          sorted.length d :=
      load_congr (fun j hj => sizeAt_append_of_lt hj k)
        (fun j hj => by rw [List.getElem?_append_left hj]) d
    rw [List.length_append, List.length_singleton, load_succ, hbefore, ih, List.filter_append,
      List.map_append, List.sum_append, sizeAt_append]
    by_cases h : f k = d <;> simp [h]

/-- The sizes in `ctx_info` are the loads of the devices, and the keys so far have their buffers. -/
structure Placed (sorted : List KeyAttrs) (info : CtxInfo) (buf : Buffers) (j : ℕ) : Prop where
  ids_eq : ids (placed sorted info buf j).2 = ids info
  ctxs : ∀ e ∈ (placed sorted info buf j).2, ∃ e₀ ∈ info, e₀.1 = e.1
  size : ∀ e ∈ (placed sorted info buf j).2,
    e.2 = load (sizeAt sorted) (deviceAt sorted info buf) j e.1.devId
  before : ∀ i (hi : i < sorted.length), i < j → ∃ ctx, (∃ e₀ ∈ info, e₀.1 = ctx) ∧
    (placed sorted info buf j).1 sorted[i].key = some ⟨sorted[i].shape, ctx, sorted[i].type⟩ ∧
      ctx.devId = deviceAt sorted info buf i
  after : ∀ i (hi : i < sorted.length), j ≤ i → (placed sorted info buf j).1 sorted[i].key = none

theorem addSize_of_mem {devId : ℤ} (h : devId ∈ ids info) (size : ℕ) :
    addSize info devId size =
      info.map fun e => if e.1.devId = devId then (e.1, (e.2 + size) % 2 ^ 64) else e := by
  rw [addSize, if_pos (any_iff.mpr h)]

theorem Placed.start {devs : List Context} (hfresh : Fresh devs info)
    (hbuf : ∀ k ∈ sorted, buf k.key = none) : Placed sorted info buf 0 where
  ids_eq := rfl
  ctxs e he := ⟨e, he, rfl⟩
  size e he := by
    rw [load_zero]
    exact hfresh.empty e he
  before i hi h := absurd h (Nat.not_lt_zero i)
  after i hi _ := hbuf _ (List.getElem_mem hi)

/-- The device of the next key has the least so far. -/
theorem Placed.choose {j : ℕ} (h : Placed sorted info buf j) (hj : j ≤ sorted.length)
    (hne : info ≠ []) (hsum : (sorted.map KeyAttrs.size).sum < 2 ^ 64) :
    MergeBuffers.choose (placed sorted info buf j).2 ∈ (placed sorted info buf j).2 ∧
      ∀ e ∈ (placed sorted info buf j).2,
        (MergeBuffers.choose (placed sorted info buf j).2).2 ≤ e.2 := by
  refine choose_spec (fun hnil => hne ?_) fun e he => ?_
  · have hids := h.ids_eq
    rw [hnil] at hids
    exact List.map_eq_nil_iff.mp hids.symm
  · have hle := load_le_sum (sizeAt sorted) (deviceAt sorted info buf) j e.1.devId
    have hmono : ∑ i ∈ Finset.range j, sizeAt sorted i ≤ (sorted.map KeyAttrs.size).sum := by
      rw [← sum_sizeAt]
      exact Finset.sum_le_sum_of_subset (Finset.range_subset_range.mpr hj)
    rw [h.size e he]
    omega

theorem Placed.step (hne : info ≠ []) (hkeys : (sorted.map KeyAttrs.key).Nodup)
    (hsum : (sorted.map KeyAttrs.size).sum < 2 ^ 64)
    {j : ℕ} (h : Placed sorted info buf j) (hj : j < sorted.length) :
    Placed sorted info buf (j + 1) := by
  obtain ⟨hchosen, -⟩ := h.choose hj.le hne hsum
  set ctx := (MergeBuffers.choose (placed sorted info buf j).2).1 with hctx
  have hmem : ctx.devId ∈ ids (placed sorted info buf j).2 := List.mem_map_of_mem hchosen
  have hbuffers : (placed sorted info buf (j + 1)).1 = Function.update (placed sorted info buf j).1
      sorted[j].key (some ⟨sorted[j].shape, ctx, sorted[j].type⟩) := by
    rw [placed_succ hj, placeKey, h.after j hj le_rfl]
    rfl
  have hinfo : (placed sorted info buf (j + 1)).2 = (placed sorted info buf j).2.map fun e =>
      if e.1.devId = ctx.devId then (e.1, (e.2 + sorted[j].size) % 2 ^ 64) else e := by
    rw [placed_succ hj, placeKey]
    exact addSize_of_mem hmem _
  have hsizeAt : sizeAt sorted j = sorted[j].size := by
    rw [sizeAt, List.getElem?_eq_getElem hj]
    rfl
  have hbound : ∀ d, load (sizeAt sorted) (deviceAt sorted info buf) (j + 1) d < 2 ^ 64 := fun d => by
    have hle := load_le_sum (sizeAt sorted) (deviceAt sorted info buf) (j + 1) d
    have hmono : ∑ i ∈ Finset.range (j + 1), sizeAt sorted i ≤
        (sorted.map KeyAttrs.size).sum := by
      rw [← sum_sizeAt]
      exact Finset.sum_le_sum_of_subset (Finset.range_subset_range.mpr hj)
    omega
  have hother : ∀ i (hi : i < sorted.length), i ≠ j → sorted[i].key ≠ sorted[j].key := by
    have hpairwise := List.pairwise_iff_getElem.mp (List.pairwise_map.mp hkeys)
    intro i hi hij
    rcases Nat.lt_or_gt_of_ne hij with hlt | hgt
    · exact hpairwise i j hi hj hlt
    · exact (hpairwise j i hj hi hgt).symm
  refine ⟨?_, fun e he => ?_, fun e he => ?_, fun i hi hlt => ?_, fun i hi hle => ?_⟩
  · rw [← h.ids_eq, hinfo, ids, List.map_map]
    refine List.map_congr_left fun e _ => ?_
    by_cases heq : e.1.devId = ctx.devId <;> simp [heq]
  · rw [hinfo] at he
    obtain ⟨e', he', rfl⟩ := List.mem_map.mp he
    obtain ⟨e₀, he₀, heq⟩ := h.ctxs e' he'
    refine ⟨e₀, he₀, heq.trans ?_⟩
    split_ifs <;> rfl
  · rw [hinfo] at he
    obtain ⟨e', he', rfl⟩ := List.mem_map.mp he
    have hold := h.size e' he'
    have hlt := hbound e'.1.devId
    rw [load_succ, hsizeAt, ← hold] at hlt
    by_cases heq : e'.1.devId = ctx.devId
    · rw [if_pos heq]
      dsimp only
      rw [load_succ, hsizeAt, ← hold]
      have hdevice : deviceAt sorted info buf j = e'.1.devId := heq.symm
      rw [if_pos hdevice] at hlt ⊢
      exact Nat.mod_eq_of_lt hlt
    · rw [if_neg heq, load_succ, ← hold]
      have hdevice : deviceAt sorted info buf j ≠ e'.1.devId := fun hd => heq hd.symm
      rw [if_neg hdevice, add_zero]
  · rw [hbuffers]
    rcases Nat.lt_succ_iff_lt_or_eq.mp hlt with hlt | rfl
    · rw [Function.update_of_ne (hother i hi hlt.ne)]
      exact h.before i hi hlt
    · rw [Function.update_self]
      obtain ⟨e₀, he₀, heq⟩ := h.ctxs _ hchosen
      exact ⟨ctx, ⟨e₀, he₀, heq⟩, rfl, rfl⟩
  · rw [hbuffers, Function.update_of_ne (hother i hi (by omega))]
    exact h.after i hi (by omega)

theorem Placed.run {devs : List Context} (hfresh : Fresh devs info) (hne : info ≠ [])
    (hkeys : (sorted.map KeyAttrs.key).Nodup) (hsum : (sorted.map KeyAttrs.size).sum < 2 ^ 64)
    (hbuf : ∀ k ∈ sorted, buf k.key = none) {j : ℕ} (hj : j ≤ sorted.length) :
    Placed sorted info buf j := by
  induction j with
  | zero => exact .start hfresh hbuf
  | succ j ih => exact (ih (Nat.le_of_succ_le hj)).step hne hkeys hsum hj

/-- The keys are given to the devices greedily. -/
theorem greedy_deviceAt {devs : List Context} (hfresh : Fresh devs info) (hne : info ≠ [])
    (hkeys : (sorted.map KeyAttrs.key).Nodup) (hsum : (sorted.map KeyAttrs.size).sum < 2 ^ 64)
    (hbuf : ∀ k ∈ sorted, buf k.key = none) :
    Greedy (ids info).toFinset (sizeAt sorted) (deviceAt sorted info buf) sorted.length := by
  refine ⟨fun j hj => ?_, fun j hj d hd => ?_⟩
  · have h := Placed.run hfresh hne hkeys hsum hbuf hj.le
    rw [List.mem_toFinset, ← h.ids_eq]
    exact List.mem_map_of_mem (h.choose hj.le hne hsum).1
  · have h := Placed.run hfresh hne hkeys hsum hbuf hj.le
    obtain ⟨hchosen, hleast⟩ := h.choose hj.le hne hsum
    rw [List.mem_toFinset, ← h.ids_eq] at hd
    obtain ⟨e, he, rfl⟩ := List.mem_map.mp hd
    have hle := hleast e he
    rwa [h.size _ hchosen, h.size e he] at hle

end Run

/-- The sizes of the keys whose merged arrays are on a device. -/
def deviceSize (attrs : List KeyAttrs) (buf : Buffers) (devId : ℤ) : ℕ :=
  ((attrs.filter fun k => (buf k.key).map (fun b => b.ctx.devId) = some devId).map
    KeyAttrs.size).sum

/-- The first `InitMergeBuffer` gives every key a merged array on one of the devices, and no other
placement has a largest size below `3m / (4m - 1)` of this one's, for `m` devices. -/
theorem initMergeBuffer_balanced {devs : List Context} {info : CtxInfo}
    (hinfo : info.Perm (ctxInfo devs)) (hdevs : devs ≠ []) {attrs sorted : List KeyAttrs}
    (hperm : sorted.Perm attrs) (hsorted : sorted.Pairwise fun k k' => k'.size ≤ k.size)
    (hkeys : (attrs.map KeyAttrs.key).Nodup) (hsum : (attrs.map KeyAttrs.size).sum < 2 ^ 64)
    {buf : Buffers} (hbuf : ∀ k ∈ attrs, buf k.key = none) :
    (∀ k ∈ attrs, ∃ d ∈ devs,
      initMergeBuffer sorted info buf k.key = some ⟨k.shape, d, k.type⟩) ∧
    ∀ place : KeyAttrs → Context, (∀ k ∈ attrs, place k ∈ devs) → ∀ T,
      (∀ d ∈ devs, ((attrs.filter fun k => (place k).devId = d.devId).map KeyAttrs.size).sum ≤ T) →
      ∀ d ∈ devs, 3 * (devs.map Context.devId).toFinset.card *
          deviceSize attrs (initMergeBuffer sorted info buf) d.devId ≤
        (4 * (devs.map Context.devId).toFinset.card - 1) * T := by
  have hfresh := (fresh_ctxInfo devs).perm hinfo
  have hne : info ≠ [] := by
    rintro rfl
    obtain ⟨d, devs, rfl⟩ := List.exists_cons_of_ne_nil hdevs
    exact List.not_mem_nil (hfresh.mem_ids d List.mem_cons_self)
  rw [← (hperm.map _).nodup_iff] at hkeys
  rw [← (hperm.map _).sum_eq] at hsum
  have hbuf' : ∀ k ∈ sorted, buf k.key = none := fun k hk => hbuf k (hperm.mem_iff.mp hk)
  have hrun := Placed.run hfresh hne hkeys hsum hbuf' le_rfl
  have hresult : initMergeBuffer sorted info buf = (placed sorted info buf sorted.length).1 := by
    rw [placed, List.take_length, initMergeBuffer]
  have hplaced : ∀ i (hi : i < sorted.length), ∃ d ∈ devs,
      initMergeBuffer sorted info buf sorted[i].key =
        some ⟨sorted[i].shape, d, sorted[i].type⟩ ∧ d.devId = deviceAt sorted info buf i := by
    intro i hi
    obtain ⟨_, ⟨e, he, rfl⟩, hmerged, hdevice⟩ := hrun.before i hi hi
    exact ⟨e.1, hfresh.mem_devs e he, hresult ▸ hmerged, hdevice⟩
  refine ⟨fun k hk => ?_, fun place hplace T hT d hd => ?_⟩
  · obtain ⟨i, hi, rfl⟩ := List.mem_iff_getElem.mp (hperm.mem_iff.mpr hk)
    obtain ⟨d, hd, hmerged, -⟩ := hplaced i hi
    exact ⟨d, hd, hmerged⟩
  have hload : deviceSize attrs (initMergeBuffer sorted info buf) d.devId =
      load (sizeAt sorted) (deviceAt sorted info buf) sorted.length d.devId := by
    set f : KeyAttrs → ℤ := fun k =>
      ((initMergeBuffer sorted info buf k.key).map fun b => b.ctx.devId).getD 0 with hf
    have hdevice : ∀ i (hi : i < sorted.length), (sorted[i]?.map f).getD 0 =
        deviceAt sorted info buf i := fun i hi => by
      obtain ⟨d, -, hmerged, hd⟩ := hplaced i hi
      rw [List.getElem?_eq_getElem hi, Option.map_some, Option.getD_some, hf]
      dsimp only
      rw [hmerged]
      exact hd
    rw [← load_congr (fun _ _ => rfl) hdevice, load_place, deviceSize,
      ((hperm.symm.filter _).map _).sum_eq]
    congr 2
    refine List.filter_congr fun k hk => ?_
    obtain ⟨i, hi, rfl⟩ := List.mem_iff_getElem.mp hk
    obtain ⟨d', -, hmerged, -⟩ := hplaced i hi
    simp [hf, hmerged]
  have hgreedy := greedy_deviceAt hfresh hne hkeys hsum hbuf'
  rw [hfresh.toFinset] at hgreedy
  rw [hload]
  refine hgreedy.load_le (b := fun j => (sorted[j]?.map fun k => (place k).devId).getD 0)
    (fun i j hij hj => ?_) (fun j hj => ?_) (fun c hc => ?_) ?_
  · rw [sizeAt, sizeAt, List.getElem?_eq_getElem hj, List.getElem?_eq_getElem (hij.trans hj)]
    exact List.pairwise_iff_getElem.mp hsorted i j (hij.trans hj) hj hij
  · rw [List.getElem?_eq_getElem hj, List.mem_toFinset]
    exact List.mem_map_of_mem (hplace _ (hperm.mem_iff.mp (List.getElem_mem hj)))
  · rw [List.mem_toFinset] at hc
    obtain ⟨d, hd, rfl⟩ := List.mem_map.mp hc
    rw [load_place, ((hperm.filter _).map _).sum_eq]
    exact hT d hd
  · rw [List.mem_toFinset]
    exact List.mem_map_of_mem hd

/-- Three keys on two devices. -/
theorem initMergeBuffer_balanced_three_keys :
    (∀ k ∈ [⟨4, [2, 2], 0⟩, ⟨7, [3], 0⟩, (⟨9, [5, 1], 0⟩ : KeyAttrs)], ∃ d ∈ [⟨2, 0⟩, ⟨2, 1⟩],
      initMergeBuffer [⟨9, [5, 1], 0⟩, ⟨4, [2, 2], 0⟩, ⟨7, [3], 0⟩] [(⟨2, 1⟩, 0), (⟨2, 0⟩, 0)]
        noBuffers k.key = some ⟨k.shape, d, k.type⟩) ∧
    ∀ d ∈ [⟨2, 0⟩, (⟨2, 1⟩ : Context)], 3 * 2 *
      deviceSize [⟨4, [2, 2], 0⟩, ⟨7, [3], 0⟩, ⟨9, [5, 1], 0⟩]
        (initMergeBuffer [⟨9, [5, 1], 0⟩, ⟨4, [2, 2], 0⟩, ⟨7, [3], 0⟩] [(⟨2, 1⟩, 0), (⟨2, 0⟩, 0)]
          noBuffers) d.devId ≤ (4 * 2 - 1) * 7 := by
  have hinfo : List.Perm [(⟨2, 1⟩, 0), (⟨2, 0⟩, 0)] (ctxInfo [⟨2, 0⟩, ⟨2, 1⟩]) := by decide
  have hperm : List.Perm [⟨9, [5, 1], 0⟩, ⟨4, [2, 2], 0⟩, ⟨7, [3], 0⟩]
      [⟨4, [2, 2], 0⟩, ⟨7, [3], 0⟩, (⟨9, [5, 1], 0⟩ : KeyAttrs)] := by decide
  have hbuf : ∀ k ∈ [⟨4, [2, 2], 0⟩, ⟨7, [3], 0⟩, (⟨9, [5, 1], 0⟩ : KeyAttrs)],
      noBuffers k.key = none := fun _ _ => rfl
  obtain ⟨hall, hle⟩ := initMergeBuffer_balanced hinfo (by decide) hperm (by decide) (by decide)
    (by decide) hbuf
  exact ⟨hall, hle (fun k => if k.key = 9 then ⟨2, 0⟩ else ⟨2, 1⟩) (by decide) 7 (by decide)⟩

end MergeBuffers
end NetStorm

import NetStorm.KVServer
import NetStorm.KeyRanges

/-!
# The store of a server

`DataHandleDefault` and `ApplyUpdates` of `KVStoreDistServer`, for requests of the default
storage type and of one data type. The values of a request are one array of exact numbers. With
multi-precision the server computes with copies in `float`, and converts between the two types. A
failed `CHECK`, an access outside a vector and arithmetic on an array that does not exist or has
another shape are `none`. The profiling counter `init_flag` of the handler is read by nobody and
left out.
-/
namespace NetStorm

/-- `NDArray` of one dimension. -/
abbrev NDArray := List ℚ

/-- `CopyFromTo`: both arrays have one shape. -/
def copyFromTo (src dst : NDArray) : Option NDArray :=
  if src.length = dst.length then some src else none

/-- `+=` on arrays of one shape. -/
def NDArray.addAssign (a b : NDArray) : Option NDArray :=
  if a.length = b.length then some (List.zipWith (· + ·) a b) else none

/-- `UpdateBuf`. -/
structure UpdateBuf where
  request : List KVMeta := []
  merged : Option NDArray := none
  tempArray : Option NDArray := none

/-- The conversions between the data type of the requests and `float`. -/
structure Casts where
  toFloat : ℚ → ℚ
  ofFloat : ℚ → ℚ

/-- What does not change while the server runs: its rank, the number of workers, the mode,
the size of an element, the updater, the contents of newly allocated arrays, and the conversions if
`has_multi_precision_copy` holds of the requests. -/
structure StoreConfig where
  myRank : ℕ
  numWorkers : ℕ
  syncMode : Bool
  sizeof : ℕ
  updater : Option (ℕ → NDArray → NDArray → NDArray)
  uninit : ℕ → ℚ
  casts : Option Casts

/-- The members of `KVStoreDistServer`: `store_` and `store_realt_` by key and `update_buf_` by
slot. -/
structure KVStoreDistServer where
  store : ℕ → Option NDArray
  updateBuf : ℤ → UpdateBuf
  storeRealt : ℕ → Option NDArray := fun _ => none

/-- The calls of the handler into `KVServer`. -/
inductive ServerCall
  | push (req : KVMeta) (res : KVPairs NDArray)
  | response (req : KVMeta) (res : KVPairs NDArray)
  | responseAll (req : KVMeta) (res : KVPairs NDArray)

/-- What handling a request has done. `updated` is the array of the update, if the update
branch was taken. -/
structure Handled where
  server : KVStoreDistServer
  calls : List ServerCall := []
  updated : Option NDArray := none

namespace StoreConfig
variable (cfg : StoreConfig)

/-- `NDArray(dshape, …)`, a new array. -/
def newArray (dshape : ℕ) : NDArray := (List.range dshape).map cfg.uninit

/-- The key and the value of a response. -/
def pairs (key : ℕ) (stored : NDArray) : KVPairs NDArray :=
  ⟨[key], stored, [toInt32 (stored.length * cfg.sizeof)]⟩

/-- The same with the array that `stored` refers to, whose elements may be of type `float`. -/
def storedPairs (key : ℕ) (stored : NDArray) : KVPairs NDArray :=
  ⟨[key], stored, [toInt32 (stored.length * if cfg.casts = none then cfg.sizeof else 4)]⟩

/-- The array that `stored` refers to. -/
def stored (st : KVStoreDistServer) (key : ℕ) : Option NDArray :=
  if cfg.casts = none then st.store key else st.storeRealt key

/-- An assignment to `stored`. -/
def setStored (st : KVStoreDistServer) (key : ℕ) (stored : NDArray) : KVStoreDistServer :=
  if cfg.casts = none then { st with store := Function.update st.store key (some stored) }
  else { st with storeRealt := Function.update st.storeRealt key (some stored) }

/-- A received array in the type of the buffers. -/
def toStored (a : NDArray) : NDArray := (cfg.casts.elim id fun c => List.map c.toFloat) a

/-- An array of the buffers in the type of the requests. -/
def ofStored (a : NDArray) : NDArray := (cfg.casts.elim id fun c => List.map c.ofFloat) a

/-- `CopyFromTo(stored, store_[key])`, with multi-precision. -/
def copyBack (st : KVStoreDistServer) (key : ℕ) (stored : NDArray) : Option KVStoreDistServer :=
  if cfg.casts = none then some st
  else do
    let old ← st.store key
    let new ← copyFromTo (cfg.ofStored stored) old
    some { st with store := Function.update st.store key (some new) }

/-- The buffer of a key, written back. -/
def setBuf (st : KVStoreDistServer) (key : ℕ) (buf : UpdateBuf) : KVStoreDistServer :=
  { st with updateBuf := Function.update st.updateBuf (slot key) buf }

/-- The array that an update is made with. -/
def updateArray (buf : UpdateBuf) : Option NDArray :=
  if cfg.syncMode = true then buf.merged else buf.tempArray

/-- The stored array after an update. Without an updater it is a copy, in sync mode only. -/
def updatedArray (key : ℕ) (update stored : NDArray) : Option NDArray :=
  match cfg.updater with
  | some updater => some (updater key update stored)
  | none => if cfg.syncMode = true then copyFromTo update stored else none

/-- `KVStoreDistServer::ApplyUpdates`. -/
def applyUpdates (st : KVStoreDistServer) (key : ℕ) (buf : UpdateBuf) : Option Handled :=
  if cfg.syncMode = false ∨ buf.request.length = cfg.numWorkers then do
    let stored ← cfg.stored st key
    let update ← cfg.updateArray buf
    let stored ← cfg.updatedArray key update stored
    let st ← cfg.copyBack (cfg.setStored st key stored) key stored
    some {
      server := setBuf st key { buf with request := [] }
      calls := (buf.request.take 1).map fun req => .responseAll req (cfg.storedPairs key stored)
      updated := some update }
  else some { server := setBuf st key buf }

/-- A received array as it is added: with multi-precision it goes through `temp_array`. -/
def receive (buf : UpdateBuf) (recved : NDArray) : Option (UpdateBuf × NDArray) :=
  if cfg.casts = none then some (buf, recved)
  else do
    let temp ← buf.tempArray
    let temp ← copyFromTo (cfg.toStored recved) temp
    some ({ buf with tempArray := some temp }, temp)

/-- With multi-precision a buffer without a `temp_array` gets a new one. -/
def allocateTemp (buf : UpdateBuf) (dshape : ℕ) : UpdateBuf :=
  if cfg.casts ≠ none ∧ buf.tempArray = none then
    { buf with tempArray := some (cfg.newArray dshape) }
  else buf

/-- The merging of a received array into the buffer. -/
def merge (buf : UpdateBuf) (recved : NDArray) : Option UpdateBuf :=
  let buf := cfg.allocateTemp buf recved.length
  if buf.request = [] then
    if cfg.syncMode = true then do
      let merged ← copyFromTo (cfg.toStored recved) (cfg.newArray recved.length)
      some { buf with merged := some merged }
    else do
      let (buf, temp) ← cfg.receive buf recved
      some { buf with tempArray := some temp }
  else if cfg.syncMode = true then do
    let (buf, temp) ← cfg.receive buf recved
    let merged ← buf.merged
    let merged ← merged.addAssign temp
    some { buf with merged := some merged }
  else none

/-- The end of a push request: an inner server sends the merged array to its parent when it
has the parts of all its sons, the root updates. -/
def close (st : KVStoreDistServer) (sons : List (List ℤ)) (req : KVMeta) (key : ℕ)
    (buf : UpdateBuf) : Option Handled := do
  let mySons ← vectorAt sons req.version
  if req.version ≠ cfg.myRank then
    if buf.request.length = mySons.length then do
      let merged ← buf.merged
      let stored ← st.store key
      let stored ← copyFromTo (cfg.ofStored merged) stored
      some {
        server := setBuf { st with store := Function.update st.store key (some stored) } key
          { buf with request := [] }
        calls := [.push req (cfg.pairs key stored)] }
    else cfg.applyUpdates st key buf
  else
    let buf := if buf.request.length = mySons.length then
        { buf with
          request := buf.request ++ List.replicate (cfg.numWorkers - buf.request.length) req }
      else buf
    cfg.applyUpdates st key buf

/-- The array of the store that a new round of a key begins with. -/
def allocate (st : KVStoreDistServer) (key dshape : ℕ) : KVStoreDistServer :=
  if cfg.syncMode = true ∧ (st.updateBuf (slot key)).request = [] then
    cfg.setStored st key (cfg.newArray dshape)
  else st

/-- The initialization of a key. With multi-precision `store_` gets a new array as well. -/
def initKey (st : KVStoreDistServer) (key : ℕ) (stored : NDArray) : KVStoreDistServer :=
  let st := cfg.setStored st key stored
  if cfg.casts = none then st
  else { st with store := Function.update st.store key (some (cfg.ofStored stored)) }

/-- A push request: the first one of a key that is not merged initializes the store, the
others are merged. -/
def handlePush (st : KVStoreDistServer) (sons : List (List ℤ)) (req : KVMeta) (key : ℕ)
    (recved : NDArray) : Option Handled :=
  if cfg.stored st key = none ∧ req.numMerge = 0 then
    some {
      server := cfg.initKey st key (cfg.toStored recved)
      calls := [.response req (cfg.storedPairs key (cfg.toStored recved))] }
  else do
    let buf ← cfg.merge (st.updateBuf (slot key)) recved
    cfg.close (cfg.allocate st key recved.length) sons req key
      { buf with request := buf.request ++ [req] }

/-- `KVStoreDistServer::DataHandleDefault`, given the sons of the server. -/
def dataHandleDefault (st : KVStoreDistServer) (sons : List (List ℤ)) (req : KVMeta)
    (data : KVPairs NDArray) : Option Handled :=
  match data.keys with
  | [key] =>
    if req.push = true then
      -- one length, and it is that of the values
      if data.lens.map (· % 2 ^ 64) = [((data.vals.length * cfg.sizeof : ℕ) : ℤ)] then
        cfg.handlePush st sons req key data.vals
      else none
    else do
      let stored ← st.store key
      some { server := st, calls := [.response req (cfg.pairs key stored)] }
  | _ => none

variable {cfg} {st : KVStoreDistServer} {sons : List (List ℤ)} {req : KVMeta} {key : ℕ}

@[simp] theorem setBuf_updateBuf (st : KVStoreDistServer) (key : ℕ) (buf : UpdateBuf) :
    (setBuf st key buf).updateBuf (slot key) = buf := by
  simp [setBuf]

@[simp] theorem setBuf_store (st : KVStoreDistServer) (key : ℕ) (buf : UpdateBuf) :
    (setBuf st key buf).store = st.store := rfl

/-- What a handler of key `key` may change. -/
def SameElsewhere (key : ℕ) (st st' : KVStoreDistServer) : Prop :=
  ∀ k, slot k ≠ slot key → st'.updateBuf (slot k) = st.updateBuf (slot k) ∧
    st'.store k = st.store k ∧ st'.storeRealt k = st.storeRealt k

namespace SameElsewhere
variable {st' st'' : KVStoreDistServer}

theorem refl (st : KVStoreDistServer) : SameElsewhere key st st := fun _ _ => ⟨rfl, rfl, rfl⟩

theorem trans (h : SameElsewhere key st st') (h' : SameElsewhere key st' st'') :
    SameElsewhere key st st'' := fun k hk =>
  ⟨(h' k hk).1.trans (h k hk).1, (h' k hk).2.1.trans (h k hk).2.1,
    (h' k hk).2.2.trans (h k hk).2.2⟩

theorem key_ne {k : ℕ} (hk : slot k ≠ slot key) : k ≠ key := by
  rintro rfl
  exact hk rfl

theorem setBuf (st : KVStoreDistServer) (buf : UpdateBuf) :
    SameElsewhere key st (setBuf st key buf) := fun k hk =>
  ⟨by simp [StoreConfig.setBuf, hk], rfl, rfl⟩

theorem update (st : KVStoreDistServer) (stored : NDArray) :
    SameElsewhere key st { st with store := Function.update st.store key (some stored) } :=
  fun _ hk => ⟨rfl, Function.update_of_ne (key_ne hk) .., rfl⟩

theorem setStored (st : KVStoreDistServer) (stored : NDArray) :
    SameElsewhere key st (cfg.setStored st key stored) := by
  rw [StoreConfig.setStored]
  split_ifs
  · exact update st stored
  · exact fun k hk => ⟨rfl, rfl, Function.update_of_ne (key_ne hk) ..⟩

theorem copyBack {stored : NDArray} (h : cfg.copyBack st key stored = some st') :
    SameElsewhere key st st' := by
  rw [StoreConfig.copyBack] at h
  split_ifs at h
  · obtain rfl := Option.some.inj h
    exact refl st
  · obtain ⟨old, -, h⟩ := Option.bind_eq_some_iff.mp h
    obtain ⟨new, -, h⟩ := Option.bind_eq_some_iff.mp h
    obtain rfl := Option.some.inj h
    exact update st new

theorem applyUpdates {buf : UpdateBuf} {h : Handled}
    (hrun : cfg.applyUpdates st key buf = some h) : SameElsewhere key st h.server := by
  rw [StoreConfig.applyUpdates] at hrun
  split_ifs at hrun
  · obtain ⟨stored, -, hrun⟩ := Option.bind_eq_some_iff.mp hrun
    obtain ⟨update, -, hrun⟩ := Option.bind_eq_some_iff.mp hrun
    obtain ⟨stored', -, hrun⟩ := Option.bind_eq_some_iff.mp hrun
    obtain ⟨st', hcopy, hrun⟩ := Option.bind_eq_some_iff.mp hrun
    obtain rfl := Option.some.inj hrun
    exact (setStored st stored').trans ((copyBack hcopy).trans (setBuf st' _))
  · obtain rfl := Option.some.inj hrun
    exact setBuf st _

theorem close {buf : UpdateBuf} {h : Handled} (hrun : cfg.close st sons req key buf = some h) :
    SameElsewhere key st h.server := by
  obtain ⟨mySons, -, hrun⟩ := Option.bind_eq_some_iff.mp hrun
  split_ifs at hrun
  · obtain ⟨merged, -, hrun⟩ := Option.bind_eq_some_iff.mp hrun
    obtain ⟨stored, -, hrun⟩ := Option.bind_eq_some_iff.mp hrun
    obtain ⟨stored', -, hrun⟩ := Option.bind_eq_some_iff.mp hrun
    obtain rfl := Option.some.inj hrun
    exact (update st stored').trans (setBuf _ _)
  · exact applyUpdates hrun
  · exact applyUpdates hrun
  · exact applyUpdates hrun

theorem initKey (stored : NDArray) : SameElsewhere key st (cfg.initKey st key stored) := by
  rw [StoreConfig.initKey]
  split_ifs
  · exact setStored st stored
  · exact (setStored st stored).trans (update _ _)

theorem allocate (dshape : ℕ) : SameElsewhere key st (cfg.allocate st key dshape) := by
  rw [StoreConfig.allocate]
  split_ifs
  · exact setStored st _
  · exact refl st

theorem handlePush {recved : NDArray} {h : Handled}
    (hrun : cfg.handlePush st sons req key recved = some h) : SameElsewhere key st h.server := by
  rw [StoreConfig.handlePush] at hrun
  split_ifs at hrun
  · obtain rfl := Option.some.inj hrun
    exact initKey _
  · obtain ⟨buf, -, hrun⟩ := Option.bind_eq_some_iff.mp hrun
    exact (allocate recved.length).trans (close hrun)

end SameElsewhere

/-- A request touches only its own key in the store and its own slot of the buffers. -/
theorem dataHandleDefault_sameElsewhere {data : KVPairs NDArray} {h : Handled}
    (hrun : cfg.dataHandleDefault st sons req data = some h) {k : ℕ}
    (hk : ∀ k' ∈ data.keys, slot k ≠ slot k') :
    h.server.updateBuf (slot k) = st.updateBuf (slot k) ∧ h.server.store k = st.store k := by
  rw [dataHandleDefault] at hrun
  split at hrun
  · rename_i key hkeys
    split_ifs at hrun
    · obtain ⟨hbuf, hstore, -⟩ := SameElsewhere.handlePush hrun k (hk key (by simp [hkeys]))
      exact ⟨hbuf, hstore⟩
    · obtain ⟨stored, -, hrun⟩ := Option.bind_eq_some_iff.mp hrun
      obtain rfl := Option.some.inj hrun
      exact ⟨rfl, rfl⟩
  · cases hrun

/-- A pull changes nothing. -/
theorem dataHandleDefault_pull {data : KVPairs NDArray} {h : Handled} (hpull : req.push ≠ true)
    (hrun : cfg.dataHandleDefault st sons req data = some h) : h.server = st := by
  rw [dataHandleDefault] at hrun
  split at hrun
  · rw [if_neg hpull] at hrun
    obtain ⟨stored, -, hrun⟩ := Option.bind_eq_some_iff.mp hrun
    obtain rfl := Option.some.inj hrun
    rfl
  · cases hrun

@[simp] theorem length_toStored (a : NDArray) : (cfg.toStored a).length = a.length := by
  rw [toStored]
  cases cfg.casts with
  | none => rfl
  | some c => exact List.length_map _

@[simp] theorem length_ofStored (a : NDArray) : (cfg.ofStored a).length = a.length := by
  rw [ofStored]
  cases cfg.casts with
  | none => rfl
  | some c => exact List.length_map _

@[simp] theorem setStored_stored (st : KVStoreDistServer) (key : ℕ) (stored : NDArray) :
    cfg.stored (cfg.setStored st key stored) key = some stored := by
  by_cases hcasts : cfg.casts = none <;> simp [StoreConfig.stored, setStored, hcasts]

@[simp] theorem setStored_updateBuf (st : KVStoreDistServer) (key : ℕ) (stored : NDArray) :
    (cfg.setStored st key stored).updateBuf = st.updateBuf := by
  by_cases hcasts : cfg.casts = none <;> simp [setStored, hcasts]

/-- With multi-precision `store_` has an array of the shape of the key as well. -/
def HasCopy (cfg : StoreConfig) (st : KVStoreDistServer) (key ℓ : ℕ) : Prop :=
  cfg.casts ≠ none → ∃ copy, st.store key = some copy ∧ copy.length = ℓ

/-- With multi-precision `temp_array`, if it is there, is of the shape of the key. -/
def TempFits (cfg : StoreConfig) (buf : UpdateBuf) (ℓ : ℕ) : Prop :=
  cfg.casts ≠ none → ∀ temp ∈ buf.tempArray, temp.length = ℓ

theorem HasCopy.setStored {ℓ : ℕ} (h : HasCopy cfg st key ℓ) (stored : NDArray) :
    HasCopy cfg (cfg.setStored st key stored) key ℓ := by
  intro hcasts
  rw [StoreConfig.setStored, if_neg hcasts]
  exact h hcasts

/-- The copy into `store_` succeeds, and leaves an array of the same shape there. -/
theorem exists_copyBack {new : NDArray} (h : HasCopy cfg st key new.length) :
    ∃ st', cfg.copyBack (cfg.setStored st key new) key new = some st' ∧
      cfg.stored st' key = some new ∧ HasCopy cfg st' key new.length := by
  by_cases hcasts : cfg.casts = none
  · exact ⟨_, if_pos hcasts, setStored_stored .., fun hno => absurd hcasts hno⟩
  · obtain ⟨copy, hcopy, hlen⟩ := h.setStored new hcasts
    have hfrom : copyFromTo (cfg.ofStored new) copy = some (cfg.ofStored new) := by
      rw [copyFromTo, length_ofStored, if_pos hlen.symm]
    refine ⟨{ cfg.setStored st key new with
        store := Function.update (cfg.setStored st key new).store key (some (cfg.ofStored new)) },
      ?_, ?_, fun _ => ⟨_, Function.update_self .., length_ofStored new⟩⟩
    · simp only [copyBack, hcasts, if_false, hcopy, hfrom, Option.bind_eq_bind, Option.bind_some]
    · have hstored : cfg.stored (cfg.setStored st key new) key = some new := setStored_stored ..
      rw [StoreConfig.stored, if_neg hcasts] at hstored ⊢
      exact hstored

theorem initKey_spec (st : KVStoreDistServer) (key : ℕ) (stored : NDArray) :
    cfg.stored (cfg.initKey st key stored) key = some stored ∧
      (cfg.initKey st key stored).updateBuf = st.updateBuf ∧
      HasCopy cfg (cfg.initKey st key stored) key stored.length := by
  by_cases hcasts : cfg.casts = none
  · rw [initKey, if_pos hcasts]
    exact ⟨setStored_stored .., setStored_updateBuf .., fun hno => absurd hcasts hno⟩
  · have hstored : cfg.stored (cfg.setStored st key stored) key = some stored :=
      setStored_stored ..
    rw [StoreConfig.stored, if_neg hcasts] at hstored
    rw [initKey, if_neg hcasts, StoreConfig.stored, if_neg hcasts]
    exact ⟨hstored, setStored_updateBuf .., fun _ =>
      ⟨_, Function.update_self .., length_ofStored stored⟩⟩

/-- A received array is added in the type of the buffers. -/
theorem exists_receive {buf : UpdateBuf} {recved : NDArray}
    (htemp : cfg.casts ≠ none → ∃ temp, buf.tempArray = some temp ∧ temp.length = recved.length) :
    ∃ buf', cfg.receive buf recved = some (buf', cfg.toStored recved) ∧
      buf'.request = buf.request ∧ buf'.merged = buf.merged ∧ TempFits cfg buf' recved.length := by
  by_cases hcasts : cfg.casts = none
  · have hself : cfg.toStored recved = recved := by rw [toStored, hcasts]; rfl
    exact ⟨buf, by rw [receive, if_pos hcasts, hself], rfl, rfl, fun hno => absurd hcasts hno⟩
  · obtain ⟨temp, htemp, hlen⟩ := htemp hcasts
    have hcopy : copyFromTo (cfg.toStored recved) temp = some (cfg.toStored recved) := by
      rw [copyFromTo, length_toStored, if_pos hlen.symm]
    refine ⟨{ buf with tempArray := some (cfg.toStored recved) }, ?_, rfl, rfl, fun _ t ht => ?_⟩
    · simp only [receive, hcasts, if_false, htemp, hcopy, Option.bind_eq_bind, Option.bind_some]
    · obtain rfl := Option.some.inj ht
      exact length_toStored recved

/-- The sum of what a buffer holds and what has been received. -/
def total (buf : UpdateBuf) (merged recved : NDArray) : NDArray :=
  if buf.request = [] then recved else List.zipWith (· + ·) merged recved

theorem allocateTemp_same (buf : UpdateBuf) (dshape : ℕ) :
    (cfg.allocateTemp buf dshape).request = buf.request ∧
      (cfg.allocateTemp buf dshape).merged = buf.merged := by
  rw [allocateTemp]
  split_ifs <;> exact ⟨rfl, rfl⟩

theorem exists_allocateTemp {buf : UpdateBuf} {ℓ : ℕ} (htemp : TempFits cfg buf ℓ)
    (hcasts : cfg.casts ≠ none) :
    ∃ temp, (cfg.allocateTemp buf ℓ).tempArray = some temp ∧ temp.length = ℓ := by
  rw [allocateTemp]
  split_ifs with hnew
  · exact ⟨_, rfl, by simp [newArray]⟩
  · obtain ⟨temp, hsome⟩ := Option.ne_none_iff_exists'.mp fun h => hnew ⟨hcasts, h⟩
    exact ⟨temp, hsome, htemp hcasts temp hsome⟩

/-- Merging in sync mode, where the buffer holds the sum of the requests that it lists. -/
theorem exists_merge {buf : UpdateBuf} {merged recved : NDArray} (hsync : cfg.syncMode = true)
    (hmerged : buf.request ≠ [] → buf.merged = some merged ∧ merged.length = recved.length)
    (htemp : TempFits cfg buf recved.length) :
    ∃ buf', cfg.merge buf recved = some buf' ∧ buf'.request = buf.request ∧
      buf'.merged = some (total buf merged (cfg.toStored recved)) ∧
      TempFits cfg buf' recved.length := by
  obtain ⟨hrequest, hsame⟩ := @allocateTemp_same cfg buf recved.length
  have htemp₁ := exists_allocateTemp htemp
  by_cases hnil : buf.request = []
  · have hcopy : copyFromTo (cfg.toStored recved) (cfg.newArray recved.length) =
        some (cfg.toStored recved) := by simp [copyFromTo, newArray]
    refine ⟨{ cfg.allocateTemp buf recved.length with merged := some (cfg.toStored recved) }, ?_,
      hrequest, ?_, fun hcasts t ht => ?_⟩
    · simp only [merge, hrequest, hnil, if_true, hsync, hcopy, Option.bind_eq_bind,
        Option.bind_some]
    · rw [total, if_pos hnil]
    · obtain ⟨temp, hsome, hlen⟩ := htemp₁ hcasts
      obtain rfl := Option.some.inj (hsome.symm.trans ht)
      exact hlen
  · obtain ⟨hmerged, hlen⟩ := hmerged hnil
    obtain ⟨buf₂, hreceive, hrequest₂, hmerged₂, htemp₂⟩ := exists_receive htemp₁
    have hadd : merged.addAssign (cfg.toStored recved) =
        some (List.zipWith (· + ·) merged (cfg.toStored recved)) := by
      rw [NDArray.addAssign, length_toStored, if_pos hlen]
    refine ⟨{ buf₂ with merged := some (List.zipWith (· + ·) merged (cfg.toStored recved)) }, ?_,
      hrequest₂.trans hrequest, ?_, htemp₂⟩
    · simp only [merge, hrequest, hnil, if_false, hsync, if_true, hreceive, hmerged₂,
        hsame, hmerged, hadd, Option.bind_eq_bind, Option.bind_some]
    · rw [total, if_neg hnil]

theorem receive_spec {buf buf' : UpdateBuf} {recved temp : NDArray}
    (h : cfg.receive buf recved = some (buf', temp)) :
    temp = cfg.toStored recved ∧ buf'.request = buf.request ∧ buf'.merged = buf.merged := by
  rw [receive] at h
  split_ifs at h with hcasts
  · obtain ⟨rfl, rfl⟩ := Prod.mk.inj (Option.some.inj h)
    exact ⟨by rw [toStored, hcasts]; rfl, rfl, rfl⟩
  · obtain ⟨old, -, h⟩ := Option.bind_eq_some_iff.mp h
    obtain ⟨new, hnew, h⟩ := Option.bind_eq_some_iff.mp h
    obtain ⟨rfl, rfl⟩ := Prod.mk.inj (Option.some.inj h)
    rw [copyFromTo] at hnew
    split_ifs at hnew
    exact ⟨(Option.some.inj hnew).symm, rfl, rfl⟩

/-- The sum that a buffer holds once an array has been received. -/
structure IsTotal (cfg : StoreConfig) (buf : UpdateBuf) (recved sum : NDArray) : Prop where
  first : buf.request = [] → sum = cfg.toStored recved
  later : buf.request ≠ [] → ∃ merged, buf.merged = some merged ∧ merged.length = recved.length ∧
    sum = List.zipWith (· + ·) merged (cfg.toStored recved)

theorem IsTotal.length {buf : UpdateBuf} {recved sum : NDArray} (h : IsTotal cfg buf recved sum) :
    sum.length = recved.length := by
  by_cases hnil : buf.request = []
  · rw [h.first hnil, length_toStored]
  · obtain ⟨merged, -, hlen, rfl⟩ := h.later hnil
    simp [hlen]

/-- A merged array, in sync mode. -/
theorem merge_spec {buf buf' : UpdateBuf} {recved : NDArray} (hsync : cfg.syncMode = true)
    (h : cfg.merge buf recved = some buf') :
    buf'.request = buf.request ∧ ∃ sum, buf'.merged = some sum ∧ IsTotal cfg buf recved sum := by
  obtain ⟨hrequest, hmerged⟩ := @allocateTemp_same cfg buf recved.length
  rw [merge] at h
  simp only [hrequest, hsync, if_true] at h
  split_ifs at h with hnil
  · obtain ⟨merged, hcopy, h⟩ := Option.bind_eq_some_iff.mp h
    obtain rfl := Option.some.inj h
    rw [copyFromTo] at hcopy
    split_ifs at hcopy
    obtain rfl := Option.some.inj hcopy
    exact ⟨rfl, _, rfl, fun _ => rfl, fun hne => absurd hnil hne⟩
  · obtain ⟨⟨buf₁, temp⟩, hreceive, h⟩ := Option.bind_eq_some_iff.mp h
    obtain ⟨rfl, hrequest₁, hmerged₁⟩ := receive_spec hreceive
    obtain ⟨merged, hsome, h⟩ := Option.bind_eq_some_iff.mp h
    obtain ⟨sum, hadd, h⟩ := Option.bind_eq_some_iff.mp h
    obtain rfl := Option.some.inj h
    rw [NDArray.addAssign] at hadd
    split_ifs at hadd with hlen
    obtain rfl := Option.some.inj hadd
    rw [length_toStored] at hlen
    exact ⟨hrequest₁.trans hrequest, _, rfl, fun hno => absurd hno hnil, fun _ =>
      ⟨merged, by rw [← hmerged, ← hmerged₁, hsome], hlen, rfl⟩⟩

/-- A push that is not one of the initialization is merged. -/
theorem handlePush_eq {recved : NDArray} (hnum : req.numMerge ≠ 0) :
    cfg.handlePush st sons req key recved =
      (cfg.merge (st.updateBuf (slot key)) recved).bind fun buf =>
        cfg.close (cfg.allocate st key recved.length) sons req key
          { buf with request := buf.request ++ [req] } :=
  if_neg fun h => hnum h.2

section Close
variable (st : KVStoreDistServer) (key : ℕ) (buf : UpdateBuf) {mySons : List ℤ}

/-- Parts are missing, and there are fewer than workers. -/
theorem close_of_missing (hsync : cfg.syncMode = true)
    (hsons : vectorAt sons req.version = some mySons) (hlen : buf.request.length ≠ mySons.length)
    (hn : buf.request.length ≠ cfg.numWorkers) :
    cfg.close st sons req key buf = some { server := setBuf st key buf } := by
  simp [close, hsons, hlen, applyUpdates, hsync, hn]

/-- An inner server with the parts of all sons sends their sum to its parent, from an array in the
store of the same shape. -/
theorem close_of_inner {merged : NDArray}
    (hsons : vectorAt sons req.version = some mySons) (hlen : buf.request.length = mySons.length)
    (hroot : req.version ≠ cfg.myRank) (hmerged : buf.merged = some merged) :
    cfg.close st sons req key buf = (st.store key).bind fun stored =>
      (copyFromTo (cfg.ofStored merged) stored).bind fun stored => some {
        server := setBuf { st with store := Function.update st.store key (some stored) } key
          { buf with request := [] }
        calls := [.push req (cfg.pairs key stored)] } := by
  simp only [close, hsons, Option.bind_eq_bind, Option.bind_some, ne_eq, hroot, not_false_eq_true,
    if_true, hlen, hmerged]

/-- The root with the parts of all sons updates, if the update and the copy to the store succeed. -/
theorem close_at_root {merged : NDArray} {h : Handled} (hsync : cfg.syncMode = true)
    (hsons : vectorAt sons req.version = some mySons) (hlen : buf.request.length = mySons.length)
    (hroot : req.version = cfg.myRank) (hle : mySons.length ≤ cfg.numWorkers)
    (hne : buf.request ≠ []) (hmerged : buf.merged = some merged)
    (hrun : cfg.close st sons req key buf = some h) :
    (∃ first new, h.calls = [.responseAll first (cfg.storedPairs key new)]) ∧
      h.updated = some merged ∧ (h.server.updateBuf (slot key)).request = [] := by
  obtain ⟨first, rest, hfirst⟩ := List.exists_cons_of_ne_nil hne
  have hpad : (buf.request ++ List.replicate (cfg.numWorkers - mySons.length) req).length =
      cfg.numWorkers := by
    rw [List.length_append, List.length_replicate]
    omega
  rw [hroot] at hsons
  simp only [close, hsons, Option.bind_eq_bind, Option.bind_some, hroot, ne_eq, not_true_eq_false,
    if_false, hlen, if_true, applyUpdates] at hrun
  rw [if_pos (.inr hpad)] at hrun
  obtain ⟨stored, -, hrun⟩ := Option.bind_eq_some_iff.mp hrun
  obtain ⟨update, hupdate, hrun⟩ := Option.bind_eq_some_iff.mp hrun
  obtain ⟨new, -, hrun⟩ := Option.bind_eq_some_iff.mp hrun
  obtain ⟨st', -, hrun⟩ := Option.bind_eq_some_iff.mp hrun
  obtain rfl := Option.some.inj hrun
  refine ⟨⟨first, new, by simp [hfirst]⟩, ?_, by simp⟩
  rw [← hupdate, updateArray, if_pos hsync]
  exact hmerged

/-- The root with the parts of all sons updates and answers everybody. With multi-precision there
is an array in the store of the same shape. -/
theorem close_of_root {merged stored : NDArray} (hsync : cfg.syncMode = true)
    (hsons : vectorAt sons req.version = some mySons) (hlen : buf.request.length = mySons.length)
    (hroot : req.version = cfg.myRank) (hle : mySons.length ≤ cfg.numWorkers)
    (hne : buf.request ≠ []) (hmerged : buf.merged = some merged)
    (hstored : cfg.stored st key = some stored) {new : NDArray}
    (hnew : cfg.updatedArray key merged stored = some new) {st' : KVStoreDistServer}
    (hcopy : cfg.copyBack (cfg.setStored st key new) key new = some st') :
    ∃ first buf', buf'.request = [] ∧ buf'.tempArray = buf.tempArray ∧
      cfg.close st sons req key buf = some {
        server := setBuf st' key buf'
        calls := [.responseAll first (cfg.storedPairs key new)]
        updated := some merged } := by
  obtain ⟨first, rest, hfirst⟩ := List.exists_cons_of_ne_nil hne
  have hpad : (buf.request ++ List.replicate (cfg.numWorkers - buf.request.length) req).length =
      cfg.numWorkers := by
    rw [List.length_append, List.length_replicate]
    omega
  refine ⟨first, { buf with request := [] }, rfl, rfl, ?_⟩
  rw [hroot] at hsons
  simp only [close, hsons, Option.bind_eq_bind, Option.bind_some, hroot, ne_eq, not_true_eq_false,
    if_false, hlen, if_true, applyUpdates]
  rw [hlen] at hpad
  rw [if_pos (.inr hpad)]
  simp [hstored, updateArray, hsync, hmerged, hnew, hcopy, hfirst]

end Close

end StoreConfig

/-- A call of the handler as the messages that the van queues. -/
def KVServer.call (kv : KVServer) (v : Van) (queue : ℤ → ℕ) (queues : ℕ → ℤ → ℕ) :
    ServerCall → Option (List (Message NDArray))
  | .push req res => (kv.push v queue req res).map ([·])
  | .response req res => (kv.response v queue req (some res)).map ([·])
  | .responseAll req res => kv.responseAll v queues req res

/-- `ProcessDataMsg`, `KVServer::Process` and the handler on a message for the server. -/
def KVServer.process (cfg : StoreConfig) (kv : KVServer) (v : Van) (unset : ℤ)
    (st : KVStoreDistServer) (msg : Message NDArray) : Option (KVServer × Van × Handled) := do
  let msg ← v.processDataMsg msg
  let (kv, v) := kv.refresh v msg
  if msg.simpleApp = true ∨ msg.dataOk = false then none
  else do
    let handled ← cfg.dataHandleDefault st kv.sons (msg.kvMeta unset)
      (msg.data.getD ⟨[], [], []⟩)
    some (kv, v, handled)

theorem Van.processDataMsg_eq {v : Van} {V : Type} {msg msg' : Message V}
    (h : v.processDataMsg msg = some msg') : msg'.data = msg.data ∧ msg'.iters = msg.iters := by
  have hsome : ∀ m : Message V,
      (if m.sender = kEmpty ∨ m.recver = kEmpty ∨ m.appId = kEmpty then none else some m) =
        some msg' → m = msg' := by
    intro m hm
    split_ifs at hm
    exact Option.some.inj hm
  rw [← hsome _ h]
  dsimp only
  split_ifs <;> exact ⟨rfl, rfl⟩

/-- A message about one key touches only that key and its slot. -/
theorem KVServer.process_sameElsewhere {cfg : StoreConfig} {kv : KVServer} {v : Van} {unset : ℤ}
    {st : KVStoreDistServer} {msg : Message NDArray} {r : KVServer × Van × Handled}
    (hrun : kv.process cfg v unset st msg = some r) {key : ℕ}
    (hkey : msg.data.map KVPairs.keys = some [key]) {k : ℕ} (hk : slot k ≠ slot key) :
    r.2.2.server.updateBuf (slot k) = st.updateBuf (slot k) := by
  obtain ⟨msg', hmsg, hrun⟩ := Option.bind_eq_some_iff.mp hrun
  have hdata := (Van.processDataMsg_eq hmsg).1
  dsimp only at hrun
  split_ifs at hrun
  obtain ⟨handled, hhandle, hrun⟩ := Option.bind_eq_some_iff.mp hrun
  obtain rfl := Option.some.inj hrun
  refine (StoreConfig.dataHandleDefault_sameElsewhere hhandle fun k' hk' => ?_).1
  obtain ⟨data, hsome, hkeys⟩ := Option.map_eq_some_iff.mp hkey
  rw [hdata, hsome, Option.getD_some, hkeys, List.mem_singleton] at hk'
  rwa [hk']

end NetStorm

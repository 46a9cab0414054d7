import Mathlib.Data.List.Induction
import NetStorm.KVStoreDistServer
import NetStorm.Library.NearestEven

/-!
# Optimizer state at the root of a key

Complete rounds of pushes at the root server of an initialised key, in sync mode and with
an updater, whether the server keeps copies in `float` or not. What the updater is given is
recorded beside what the handler stores and sends. The memory of the arrays that a round
allocates holds anything, and something else in every round.
-/
namespace NetStorm.StoreConfig

/-- A push request for the key. -/
structure Part where
  req : KVMeta
  vals : NDArray

/-- The sum of arrays of one shape, in the order of their arrival. -/
def mergeArrays : List NDArray → NDArray
  | [] => []
  | a :: rest => rest.foldl (List.zipWith (· + ·)) a

/-- What the pushes of a round add up to, in the type of the buffers. -/
def merged (cfg : StoreConfig) (parts : List Part) : NDArray :=
  mergeArrays (parts.map fun p => cfg.toStored p.vals)

/-- The pushes of a round, and what the memory holds that the round allocates. -/
structure Round where
  uninit : ℕ → ℚ
  parts : List Part

/-- The merged gradient of a round. -/
def Round.gradient (cfg : StoreConfig) (r : Round) : NDArray := cfg.merged r.parts

/-- The array of length `ℓ` that the round allocates. -/
def Round.fresh (r : Round) (ℓ : ℕ) : NDArray := (List.range ℓ).map r.uninit

/-- What a round did: the arrays given to the updater, the array stored at its end, and the
calls into `KVServer`. -/
structure Outcome where
  handed : List NDArray
  stored : Option NDArray
  calls : List ServerCall

section Run
variable (cfg : StoreConfig) (sons : List (List ℤ)) (key : ℕ)

/-- The pushes of a round, one after the other, each with the array that `stored` stands for
when the handler comes to `ApplyUpdates`. -/
def serve : KVStoreDistServer → List Part →
    Option (KVStoreDistServer × List (Option NDArray × Handled))
  | st, [] => some (st, [])
  | st, p :: rest => do
    let h ← cfg.dataHandleDefault st sons p.req (cfg.pairs key p.vals)
    let (st', hs) ← serve h.server rest
    some (st', (cfg.stored (cfg.allocate st key p.vals.length) key, h) :: hs)

/-- What the pushes of a round gave to the updater. -/
def handed (hs : List (Option NDArray × Handled)) : List NDArray :=
  hs.filterMap fun e => if e.2.updated.isSome then e.1 else none

/-- The rounds, one after the other. -/
def serveRounds : KVStoreDistServer → List Round → Option (List Outcome)
  | _, [] => some []
  | st, r :: rest => do
    let (st', hs) ← serve { cfg with uninit := r.uninit } sons key st r.parts
    let outs ← serveRounds st' rest
    some (⟨handed hs, cfg.stored st' key, hs.flatMap fun e => e.2.calls⟩ :: outs)

/-- The value that the gradients make of `v₀`, one update a round. -/
def foldUpdates (updater : ℕ → NDArray → NDArray → NDArray) (v₀ : NDArray)
    (gradients : List NDArray) : NDArray :=
  gradients.foldl (fun stored g => updater key g stored) v₀

/-- Every round gives the updater the array of the round before, and stores and sends what
the updater makes of it. -/
def FoldsUpdates (updater : ℕ → NDArray → NDArray → NDArray) (v₀ : NDArray) (rounds : List Round)
    (outs : List Outcome) : Prop :=
  ∀ i < rounds.length, ∃ req,
    outs[i]? = some {
      handed := [foldUpdates key updater v₀ ((rounds.take i).map (Round.gradient cfg))]
      stored := some (foldUpdates key updater v₀ ((rounds.take (i + 1)).map (Round.gradient cfg)))
      calls := [.responseAll req (cfg.storedPairs key
        (foldUpdates key updater v₀ ((rounds.take (i + 1)).map (Round.gradient cfg))))] }

/-- The pushes of a complete round at the root: one for every son, all of one shape. -/
structure Round.Complete (r : Round) (mySons : List ℤ) (ℓ : ℕ) : Prop where
  length : r.parts.length = mySons.length
  push : ∀ p ∈ r.parts, p.req.push = true
  version : ∀ p ∈ r.parts, p.req.version = cfg.myRank
  shape : ∀ p ∈ r.parts, p.vals.length = ℓ

end Run

theorem mergeArrays_concat {as : List NDArray} (h : as ≠ []) (b : NDArray) :
    mergeArrays (as ++ [b]) = List.zipWith (· + ·) (mergeArrays as) b := by
  obtain ⟨a, rest, rfl⟩ := List.exists_cons_of_ne_nil h
  simp [mergeArrays]

theorem length_mergeArrays {as : List NDArray} {ℓ : ℕ} (h : as ≠ [])
    (hlen : ∀ a ∈ as, a.length = ℓ) : (mergeArrays as).length = ℓ := by
  induction as using List.reverseRecOn with
  | nil => exact absurd rfl h
  | append_singleton as b ih =>
    have hb := hlen b (by simp)
    by_cases has : as = []
    · subst has
      simpa [mergeArrays] using hb
    · rw [mergeArrays_concat has, List.length_zipWith, hb,
        ih has fun a ha => hlen a (by simp [ha]), min_self]

section Rounds
variable {cfg : StoreConfig} {sons : List (List ℤ)} {key : ℕ} {mySons : List ℤ} {ℓ : ℕ}
  {st : KVStoreDistServer}

theorem length_merged {parts : List Part} (hne : parts ≠ [])
    (hshape : ∀ p ∈ parts, p.vals.length = ℓ) : (cfg.merged parts).length = ℓ := by
  refine length_mergeArrays (by simpa using hne) fun a ha => ?_
  obtain ⟨p, hp, rfl⟩ := List.mem_map.mp ha
  rw [length_toStored, hshape p hp]

/-- Between two pushes of a round: what has arrived is listed and merged, and `stored` is the
array that the round has allocated. -/
structure Merging (cfg : StoreConfig) (key ℓ : ℕ) (arrived : List Part) (st : KVStoreDistServer)
    (buf : UpdateBuf) : Prop where
  request : buf.request = arrived.map Part.req
  init : ∃ stored, cfg.stored st key = some stored
  merged : arrived ≠ [] → buf.merged = some (cfg.merged arrived)
  fresh : arrived ≠ [] → cfg.stored st key = some (cfg.newArray ℓ)
  copy : HasCopy cfg st key ℓ
  temp : TempFits cfg buf ℓ

theorem HasCopy.allocate (h : HasCopy cfg st key ℓ) (dshape : ℕ) :
    HasCopy cfg (cfg.allocate st key dshape) key ℓ := by
  rw [StoreConfig.allocate]
  split_ifs
  · exact h.setStored _
  · exact h

/-- The first push of a round allocates the array, the others find it. -/
theorem Merging.allocate {arrived : List Part}
    (h : Merging cfg key ℓ arrived st (st.updateBuf (slot key))) (hsync : cfg.syncMode = true) :
    cfg.stored (cfg.allocate st key ℓ) key = some (cfg.newArray ℓ) := by
  rw [StoreConfig.allocate]
  split_ifs with hnew
  · exact setStored_stored ..
  · refine h.fresh fun hnil => hnew ⟨hsync, ?_⟩
    rw [h.request, hnil, List.map_nil]

/-- A push is listed and merged, and `stored` is a newly allocated array. -/
theorem Merging.push (sons : List (List ℤ)) {arrived : List Part}
    (h : Merging cfg key ℓ arrived st (st.updateBuf (slot key))) (hsync : cfg.syncMode = true)
    (hfits : ℓ * cfg.sizeof < 2 ^ 31) (hshape : ∀ p ∈ arrived, p.vals.length = ℓ) {p : Part}
    (hpush : p.req.push = true) (hp : p.vals.length = ℓ) :
    ∃ buf, cfg.dataHandleDefault st sons p.req (cfg.pairs key p.vals) =
        cfg.close (cfg.allocate st key ℓ) sons p.req key buf ∧
      Merging cfg key ℓ (arrived ++ [p]) (cfg.allocate st key ℓ) buf := by
  have hhandle : cfg.dataHandleDefault st sons p.req (cfg.pairs key p.vals) =
      cfg.handlePush st sons p.req key p.vals := by
    have hlens : (cfg.pairs key p.vals).lens.map (· % 2 ^ 64) =
        [((p.vals.length * cfg.sizeof : ℕ) : ℤ)] := by
      rw [pairs, hp, toInt32_of_lt hfits, List.map_singleton]
      congr 1
      omega
    have hkeys : (cfg.pairs key p.vals).keys = [key] := rfl
    simp only [dataHandleDefault, hkeys, hpush, if_true, hlens]
    exact if_pos rfl
  have hinit : ¬ (cfg.stored st key = none ∧ p.req.numMerge = 0) := by
    obtain ⟨stored, hstored⟩ := h.init
    simp [hstored]
  have hnil : (st.updateBuf (slot key)).request ≠ [] ↔ arrived ≠ [] := by
    rw [h.request, Ne, List.map_eq_nil_iff]
  obtain ⟨buf, hmerge, hrequest, hmerged, htemp⟩ := exists_merge hsync
    (fun hne => ⟨h.merged (hnil.mp hne), by rw [length_merged (hnil.mp hne) hshape, hp]⟩)
    (hp ▸ h.temp)
  refine ⟨{ buf with request := buf.request ++ [p.req] }, ?_, ?_, ⟨_, h.allocate hsync⟩,
    fun _ => ?_, fun _ => h.allocate hsync, h.copy.allocate ℓ, hp ▸ htemp⟩
  · rw [hhandle, handlePush, if_neg hinit, hmerge, hp]
    rfl
  · rw [hrequest, h.request, List.map_append, List.map_singleton]
  · change buf.merged = _
    rw [hmerged, total]
    split_ifs with hfirst
    · obtain rfl : arrived = [] := not_not.mp fun hne => hnil.mpr hne hfirst
      rfl
    · rw [StoreConfig.merged, StoreConfig.merged, List.map_append, List.map_singleton,
        mergeArrays_concat (by simpa using hnil.mp hfirst)]

theorem Merging.setBuf {arrived : List Part} {buf : UpdateBuf}
    (h : Merging cfg key ℓ arrived st buf) :
    Merging cfg key ℓ arrived (setBuf st key buf)
      ((StoreConfig.setBuf st key buf).updateBuf (slot key)) := by
  rw [setBuf_updateBuf]
  exact ⟨h.request, h.init, h.merged, h.fresh, h.copy, h.temp⟩

/-- The pushes that are left of a round. The last one updates, and the updater is given the
newly allocated array. -/
theorem Merging.serve {arrived rest : List Part}
    (h : Merging cfg key ℓ arrived st (st.updateBuf (slot key)))
    (hsync : cfg.syncMode = true) {updater : ℕ → NDArray → NDArray → NDArray}
    (hupdater : cfg.updater = some updater)
    (hkeeps : cfg.casts ≠ none → ∀ g a, g.length = a.length →
      (updater key g a).length = a.length)
    (hfits : ℓ * cfg.sizeof < 2 ^ 31)
    (hsons : vectorAt sons cfg.myRank = some mySons) (hle : mySons.length ≤ cfg.numWorkers)
    (hrest : rest ≠ []) (hlen : (arrived ++ rest).length = mySons.length)
    (hpush : ∀ p ∈ rest, p.req.push = true) (hversion : ∀ p ∈ rest, p.req.version = cfg.myRank)
    (hshape : ∀ p ∈ arrived ++ rest, p.vals.length = ℓ) :
    ∃ st' hs req, cfg.serve sons key st rest = some (st', hs) ∧
      Merging cfg key ℓ [] st' (st'.updateBuf (slot key)) ∧ handed hs = [cfg.newArray ℓ] ∧
      cfg.stored st' key = some (updater key (cfg.merged (arrived ++ rest)) (cfg.newArray ℓ)) ∧
      (hs.flatMap fun e => e.2.calls) = [.responseAll req (cfg.storedPairs key
        (updater key (cfg.merged (arrived ++ rest)) (cfg.newArray ℓ)))] := by
  induction rest generalizing arrived st with
  | nil => exact absurd rfl hrest
  | cons p rest ih =>
    have hp := hshape p (by simp)
    have hallocate := h.allocate hsync
    obtain ⟨buf, hhandle, hmid⟩ :=
      h.push sons hsync hfits (fun q hq => hshape q (by simp [hq])) (hpush p (by simp)) hp
    have hsons' : vectorAt sons p.req.version = some mySons := by
      rw [hversion p (by simp), hsons]
    have happend : arrived ++ p :: rest = (arrived ++ [p]) ++ rest := by simp
    have hbuf : buf.request.length = (arrived ++ [p]).length := by simp [hmid.request]
    rw [happend, List.length_append] at hlen
    have hserve : cfg.serve sons key st (p :: rest) =
        (cfg.close (cfg.allocate st key ℓ) sons p.req key buf).bind fun h =>
          (cfg.serve sons key h.server rest).bind fun r =>
            some (r.1, (some (cfg.newArray ℓ), h) :: r.2) := by
      rw [StoreConfig.serve, hhandle, hp, hallocate]
      rfl
    by_cases hlast : rest = []
    · subst hlast
      rw [List.length_nil, Nat.add_zero] at hlen
      set new := updater key (cfg.merged (arrived ++ [p])) (cfg.newArray ℓ) with hnew
      have hfresh : (cfg.newArray ℓ).length = ℓ := by
        rw [newArray, List.length_map, List.length_range]
      have hmergedLen : (cfg.merged (arrived ++ [p])).length = ℓ :=
        length_merged (by simp) (by rwa [happend, List.append_nil] at hshape)
      have hnewLen : cfg.casts ≠ none → new.length = ℓ := fun hcasts => by
        rw [hnew, hkeeps hcasts _ _ (by rw [hmergedLen, hfresh]), hfresh]
      have hcopy : HasCopy cfg (cfg.allocate st key ℓ) key new.length := fun hcasts => by
        rw [hnewLen hcasts]
        exact hmid.copy hcasts
      obtain ⟨st', hback, hstored, hcopy'⟩ := exists_copyBack hcopy
      obtain ⟨first, buf', hbuf', htemp', hclose⟩ := close_of_root _ key buf hsync hsons'
        (hbuf.trans hlen) (hversion p (by simp)) hle (by simp [hmid.request])
        (hmid.merged (by simp)) hallocate (by rw [updatedArray, hupdater]) hback
      rw [hclose] at hserve
      refine ⟨_, _, first, hserve, ⟨by simpa using hbuf', ⟨new, hstored⟩, fun hne => absurd rfl hne,
        fun hne => absurd rfl hne, fun hcasts => ?_, fun hcasts t ht => ?_⟩, rfl, hstored, rfl⟩
      · rw [← hnewLen hcasts]
        exact hcopy' hcasts
      · rw [setBuf_updateBuf, htemp'] at ht
        exact hmid.temp hcasts t ht
    · have hmissing : buf.request.length ≠ mySons.length := by
        have := List.length_pos_iff.mpr hlast
        omega
      have hclose := close_of_missing (cfg.allocate st key ℓ) key buf hsync hsons' hmissing
        (by omega)
      obtain ⟨st', hs, req, hrun, hend, hhanded, hstore, hcalls⟩ :=
        ih hmid.setBuf hlast (by rw [List.length_append, hlen]) (fun q hq => hpush q (by simp [hq]))
          (fun q hq => hversion q (by simp [hq])) (by rwa [← happend])
      rw [happend]
      rw [hclose, Option.bind_some, hrun] at hserve
      exact ⟨st', _, req, hserve, hend, hhanded, hstore, hcalls⟩

/-- A round gives the updater the array that it has allocated itself. -/
theorem serveRounds_eq (hsync : cfg.syncMode = true)
    {updater : ℕ → NDArray → NDArray → NDArray} (hupdater : cfg.updater = some updater)
    (hkeeps : cfg.casts ≠ none → ∀ g a, g.length = a.length →
      (updater key g a).length = a.length)
    (hfits : ℓ * cfg.sizeof < 2 ^ 31) (hsons : vectorAt sons cfg.myRank = some mySons)
    (hne : mySons ≠ []) (hle : mySons.length ≤ cfg.numWorkers) {rounds : List Round}
    (hrounds : ∀ r ∈ rounds, r.Complete cfg mySons ℓ)
    (h : Merging cfg key ℓ [] st (st.updateBuf (slot key))) :
    ∃ outs, cfg.serveRounds sons key st rounds = some outs ∧
      ∀ i (hi : i < rounds.length), ∃ req, outs[i]? = some {
        handed := [rounds[i].fresh ℓ]
        stored := some (updater key (rounds[i].gradient cfg) (rounds[i].fresh ℓ))
        calls := [.responseAll req (cfg.storedPairs key
          (updater key (rounds[i].gradient cfg) (rounds[i].fresh ℓ)))] } := by
  induction rounds generalizing st with
  | nil => exact ⟨[], rfl, fun i hi => absurd hi (Nat.not_lt_zero i)⟩
  | cons r rest ih =>
    obtain ⟨hlength, hpush, hversion, hshape⟩ := hrounds r (by simp)
    have hparts : r.parts ≠ [] := by
      rw [← List.length_pos_iff, hlength]
      exact List.length_pos_iff.mpr hne
    have hidle : Merging { cfg with uninit := r.uninit } key ℓ [] st (st.updateBuf (slot key)) :=
      ⟨h.request, h.init, fun hno => absurd rfl hno, fun hno => absurd rfl hno, h.copy, h.temp⟩
    obtain ⟨st', hs, req, hserve, hend, hhanded, hstore, hcalls⟩ :=
      hidle.serve hsync hupdater hkeeps hfits hsons hle hparts hlength hpush hversion hshape
    obtain ⟨outs, houts, hall⟩ := ih (fun r' hr' => hrounds r' (by simp [hr']))
      ⟨hend.request, hend.init, fun hno => absurd rfl hno, fun hno => absurd rfl hno, hend.copy,
        hend.temp⟩
    have hrun : cfg.serveRounds sons key st (r :: rest) =
        some (⟨handed hs, cfg.stored st' key, hs.flatMap fun e => e.2.calls⟩ :: outs) := by
      simp only [serveRounds, hserve, houts, Option.bind_eq_bind, Option.bind_some]
    have hstore' : cfg.stored st' key = _ := hstore
    rw [hhanded, hstore', hcalls] at hrun
    refine ⟨_, hrun, fun i hi => ?_⟩
    cases i with
    | zero => exact ⟨req, rfl⟩
    | succ i => exact hall i (Nat.lt_of_succ_lt_succ hi)

end Rounds

/-- **Optimizer state at the root of a key.** After the initialisation with `v₀` every
sequence of complete rounds is served, and it folds the updates over `v₀` if and only if in
every round the newly allocated array happens to hold the value that the rounds before have
left. With multi-precision `v₀` and the gradients are converted first, the updater writes an array
of the shape that it is given, and `temp_array` is not of another shape. -/
theorem optimizer_state_folds_iff (cfg : StoreConfig) (hsync : cfg.syncMode = true)
    {updater : ℕ → NDArray → NDArray → NDArray} (hupdater : cfg.updater = some updater)
    (sons : List (List ℤ)) {mySons : List ℤ} (hsons : vectorAt sons cfg.myRank = some mySons)
    (hne : mySons ≠ []) (hle : mySons.length ≤ cfg.numWorkers) (key : ℕ) (v₀ : NDArray)
    (hkeeps : cfg.casts ≠ none → ∀ g a, g.length = a.length →
      (updater key g a).length = a.length)
    (hfits : v₀.length * cfg.sizeof < 2 ^ 31) (st : KVStoreDistServer)
    (hnew : cfg.stored st key = none) (hidle : (st.updateBuf (slot key)).request = [])
    (htemp : TempFits cfg (st.updateBuf (slot key)) v₀.length) (req : KVMeta)
    (hpush : req.push = true) (hinit : req.numMerge = 0) (rounds : List Round)
    (hrounds : ∀ r ∈ rounds, r.Complete cfg mySons v₀.length) :
    ∃ h outs, cfg.dataHandleDefault st sons req (cfg.pairs key v₀) = some h ∧
      cfg.stored h.server key = some (cfg.toStored v₀) ∧
      cfg.serveRounds sons key h.server rounds = some outs ∧
      (cfg.FoldsUpdates key updater (cfg.toStored v₀) rounds outs ↔
        ∀ i (hi : i < rounds.length), rounds[i].fresh v₀.length =
          foldUpdates key updater (cfg.toStored v₀)
            ((rounds.take i).map (Round.gradient cfg))) := by
  have hhandle : cfg.dataHandleDefault st sons req (cfg.pairs key v₀) = some {
      server := cfg.initKey st key (cfg.toStored v₀)
      calls := [.response req (cfg.storedPairs key (cfg.toStored v₀))] } := by
    have hlens : (cfg.pairs key v₀).lens.map (· % 2 ^ 64) =
        [((v₀.length * cfg.sizeof : ℕ) : ℤ)] := by
      rw [pairs, toInt32_of_lt hfits, List.map_singleton]
      congr 1
      omega
    have hkeys : (cfg.pairs key v₀).keys = [key] := rfl
    simp only [dataHandleDefault, hkeys, hpush, if_true, hlens]
    rw [show (cfg.pairs key v₀).vals = v₀ from rfl, if_pos rfl, handlePush, if_pos ⟨hnew, hinit⟩]
  obtain ⟨hstored, hbuf, hcopy⟩ := @initKey_spec cfg st key (cfg.toStored v₀)
  rw [length_toStored] at hcopy
  have hmerging : Merging cfg key v₀.length [] (cfg.initKey st key (cfg.toStored v₀))
      ((cfg.initKey st key (cfg.toStored v₀)).updateBuf (slot key)) := by
    rw [hbuf]
    exact ⟨hidle, ⟨_, hstored⟩, fun hno => absurd rfl hno, fun hno => absurd rfl hno, hcopy, htemp⟩
  obtain ⟨outs, hserve, hall⟩ :=
    serveRounds_eq hsync hupdater hkeeps hfits hsons hne hle hrounds hmerging
  refine ⟨_, outs, hhandle, hstored, hserve, ?_⟩
  have htake : ∀ i (hi : i < rounds.length),
      foldUpdates key updater (cfg.toStored v₀) ((rounds.take (i + 1)).map (Round.gradient cfg)) =
        updater key (rounds[i].gradient cfg)
          (foldUpdates key updater (cfg.toStored v₀)
            ((rounds.take i).map (Round.gradient cfg))) := by
    intro i hi
    rw [List.take_add_one, List.getElem?_eq_getElem hi, List.map_append, foldUpdates,
      List.foldl_append]
    rfl
  constructor
  · intro hfolds i hi
    obtain ⟨req₁, h₁⟩ := hfolds i hi
    obtain ⟨req₂, h₂⟩ := hall i hi
    have hsame := Option.some.inj (h₂.symm.trans h₁)
    exact List.singleton_inj.mp (congrArg Outcome.handed hsame)
  · intro hfresh i hi
    obtain ⟨req₁, h₁⟩ := hall i hi
    refine ⟨req₁, ?_⟩
    rw [htake i hi, ← hfresh i hi]
    exact h₁

/-- A single server and worker, with an updater that adds the gradient. -/
def addConfig : StoreConfig := ⟨0, 1, true, 4, some fun _ => List.zipWith (· + ·), 0, none⟩

/-- A round with the gradient 1, in memory that holds `x`. -/
def unitRound (x : ℚ) : Round := ⟨fun _ => x, [⟨⟨0, true, 9, 1, 0, 0, 1, 0⟩, [1]⟩]⟩

/-- The same for two workers whose arrays are of type `float16`. -/
def halfConfig : StoreConfig :=
  { addConfig with
    numWorkers := 2
    sizeof := 2
    casts := some ⟨id, NearestEven.binary16.round⟩ }

/-- A round with the gradients 1 and 2, in memory that holds `x`. -/
def halfRound (x : ℚ) : Round :=
  ⟨fun _ => x, [⟨⟨0, true, 9, 1, 0, 0, 1, 0⟩, [1]⟩, ⟨⟨0, true, 11, 1, 0, 0, 1, 0⟩, [2]⟩]⟩

/-- In memory that happens to hold 5 and then 8, two rounds after the initialisation with 5
store 8 and then 11. -/
theorem optimizer_state_folds_iff_two_workers :
    ∃ h outs, halfConfig.dataHandleDefault ⟨fun _ => none, fun _ => {}, fun _ => none⟩ [[9, 11]]
        ⟨0, true, 9, 0, 0, 0, 0, 0⟩ (halfConfig.pairs 0 [5]) = some h ∧
      halfConfig.serveRounds [[9, 11]] 0 h.server [halfRound 5, halfRound 8] = some outs ∧
      halfConfig.FoldsUpdates 0 (fun _ => List.zipWith (· + ·)) [5] [halfRound 5, halfRound 8]
        outs := by
  have hround : ∀ r ∈ [halfRound 5, halfRound 8], r.Complete halfConfig [9, 11] 1 := by
    intro r hr
    obtain ⟨x, rfl⟩ : ∃ x, r = halfRound x := by
      rcases List.mem_pair.mp hr with rfl | rfl
      · exact ⟨5, rfl⟩
      · exact ⟨8, rfl⟩
    exact ⟨rfl, by simp [halfRound], by simp [halfRound, halfConfig, addConfig],
      by simp [halfRound]⟩
  obtain ⟨h, outs, hhandle, -, hserve, hiff⟩ := optimizer_state_folds_iff halfConfig rfl rfl
    [[9, 11]] rfl (by decide) (by decide) 0 [5]
    (fun _ g a hlen => by rw [List.length_zipWith, hlen, min_self]) (by decide)
    ⟨fun _ => none, fun _ => {}, fun _ => none⟩ rfl rfl (fun _ t ht => nomatch ht)
    ⟨0, true, 9, 0, 0, 0, 0, 0⟩ rfl rfl [halfRound 5, halfRound 8] hround
  have hsecond : (halfRound 8).fresh 1 = foldUpdates 0 (fun _ => List.zipWith (· + ·))
      (halfConfig.toStored [5]) [(halfRound 5).gradient halfConfig] := by decide +kernel
  refine ⟨h, outs, hhandle, hserve, hiff.mpr fun i hi => ?_⟩
  match i, hi with
  | 0, _ => rfl
  | 1, _ => exact hsecond

/-- In memory that holds 0 a single worker's round stores 1. -/
theorem optimizer_state_forgotten :
    ∃ h outs, addConfig.dataHandleDefault ⟨fun _ => none, fun _ => {}, fun _ => none⟩ [[9]]
        ⟨0, true, 9, 0, 0, 0, 0, 0⟩ (addConfig.pairs 0 [5]) = some h ∧
      addConfig.serveRounds [[9]] 0 h.server [unitRound 0] = some outs ∧
      outs.map Outcome.stored = [some [1]] ∧
      ¬ addConfig.FoldsUpdates 0 (fun _ => List.zipWith (· + ·)) [5] [unitRound 0] outs := by
  have hrun : ((addConfig.dataHandleDefault ⟨fun _ => none, fun _ => {}, fun _ => none⟩ [[9]]
      ⟨0, true, 9, 0, 0, 0, 0, 0⟩ (addConfig.pairs 0 [5])).bind fun h =>
        (addConfig.serveRounds [[9]] 0 h.server [unitRound 0]).map
          fun outs => outs.map Outcome.stored) = some [some [1]] := by decide +kernel
  obtain ⟨h, hhandle, hrun⟩ := Option.bind_eq_some_iff.mp hrun
  obtain ⟨outs, hserve, hstored⟩ := Option.map_eq_some_iff.mp hrun
  refine ⟨h, outs, hhandle, hserve, hstored, fun hfolds => ?_⟩
  obtain ⟨req, hout⟩ := hfolds 0 Nat.zero_lt_one
  have hsame := congrArg (Option.map Outcome.stored) hout
  rw [← List.getElem?_map, hstored] at hsame
  have hvalue : ([1] : NDArray) = foldUpdates 0 (fun _ => List.zipWith (· + ·)) [5]
      (([unitRound 0].take 1).map (Round.gradient addConfig)) :=
    Option.some.inj (Option.some.inj hsame)
  exact absurd hvalue (by decide +kernel)

end NetStorm.StoreConfig

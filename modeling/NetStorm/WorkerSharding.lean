import NetStorm.ShardingPass

/-!
# The sharding of a worker over its whole life

The worker of rank 0 makes its first pass in `InitImpl`, through `Push_`; the others make
it in `PullImpl`. From then on every pass begins with key 0 and `TopoUpdate`, which may
bring new performances. Whatever the phase of `seg_update_flag` they arrive in, all
workers divide alike.
-/
namespace NetStorm

/-- A worker: its sharding state, the other members that `Push_` uses, and how often it
has called `TopoUpdate`. -/
structure Worker where
  kv : KVStoreDist
  initFinish : Bool
  iterCount : ℕ
  topoUpdates : ℕ

/-- A worker before its first pass. -/
def Worker.init : Worker := ⟨KVStoreDist.init, false, 0, 0⟩

/-- `KVWorker::TopoUpdate`: the `k`-th call brings `topo k`, performances or nothing. -/
def Worker.topoUpdate (topo : ℕ → Option (List ℚ)) (w : Worker) : Worker :=
  { w with
    kv := match topo w.topoUpdates with
      | some perf => w.kv.taskDivisionUpdate perf
      | none => w.kv
    topoUpdates := w.topoUpdates + 1 }

/-- The clearing of a division. -/
def KVStoreDist.clear (st : KVStoreDist) (key : ℤ) : KVStoreDist :=
  { st with psKv := Function.update st.psKv key {} }

/-- The transition of `seg_update_flag` at key 0, and the new `init_flag`. -/
def KVStoreDist.nextPhase (st : KVStoreDist) : KVStoreDist × Bool :=
  let st := if st.taskCache = true then
      { st with
        segUpdateFlag := st.segUpdateFlag - 1
        serverPerf := st.serverPerfTemp
        taskCache := false }
    else st
  let st := { st with segUpdateFlag := st.segUpdateFlag + 1 }
  (st, decide (st.segUpdateFlag < 3))

namespace ShardConfig
variable (cfg : ShardConfig) (rank : ℕ) (topo : ℕ → Option (List ℚ))

/-- One iteration of the loop of `Push_`, with its local `init_flag`. -/
def pushKey (w : Worker) (initFlag : Bool) (a : Entry) : Option (Worker × Bool) :=
  let w := if a.key = 0 then
      if w.initFinish = false ∧ rank = 0 then { w with initFinish := true }
      else w.topoUpdate topo
    else w
  let kv := if 4 ≤ w.kv.segUpdateFlag then { w.kv with segUpdateFlag := 1 } else w.kv
  let (kv, initFlag) := if a.key = 0 ∧ kv.segUpdateFlag ≠ 3 then kv.nextPhase else (kv, initFlag)
  let iterCount := if a.key = 0 then w.iterCount + 1 else w.iterCount
  let kv := if initFlag = true then kv.clear a.key else kv
  (cfg.encodeDefaultKey kv a).map fun r => ({ w with kv := r.2, iterCount := iterCount }, initFlag)

/-- The loop of `Push_`. -/
def pushLoop (w : Worker) (initFlag : Bool) : List Entry → Option Worker
  | [] => some w
  | a :: rest => match cfg.pushKey rank topo w initFlag a with
    | some (w, initFlag) => pushLoop w initFlag rest
    | none => none

/-- `KVStoreDist::Push_`. -/
def push_ (w : Worker) (keys : List Entry) : Option Worker :=
  cfg.pushLoop rank topo w (decide (w.kv.segUpdateFlag = 2)) keys

/-- One pass, a list of calls of `Push_`. -/
def pushPass (w : Worker) (calls : List (List Entry)) : Option Worker :=
  calls.foldlM (cfg.push_ rank topo) w

/-- The first pass: rank 0 makes it in calls of `InitImpl`, the others in `PullImpl`. -/
def firstPass (calls : List (List Entry)) : Option Worker :=
  if rank = 0 then cfg.pushPass rank topo Worker.init calls
  else (cfg.encodePass calls.flatten KVStoreDist.init).map fun r => { Worker.init with kv := r.2 }

/-- The first pass and the push passes after it. -/
def run (first : List (List Entry)) (passes : List (List (List Entry))) : Option Worker := do
  let w ← cfg.firstPass rank topo first
  passes.foldlM (cfg.pushPass rank topo) w

/-- The state between two passes. -/
structure Ready (st : KVStoreDist) : Prop where
  flag : st.segUpdateFlag = 2 ∨ st.segUpdateFlag = 3
  cache : st.taskCache = false

/-- What a pass begins with: new performances make it a pass by performance, and without
them the division stays. -/
def beginPass (update : Option (List ℚ)) (st : KVStoreDist) : KVStoreDist :=
  match update with
  | none => { st with segUpdateFlag := 3 }
  | some perf => { st with
      segUpdateFlag := 2
      serverPerf := perf
      serverPerfTemp := if st.segUpdateFlag = 2 then perf else st.serverPerfTemp }

theorem Ready.beginPass {st : KVStoreDist} (h : Ready st) (update : Option (List ℚ)) :
    Ready (beginPass update st) := by
  cases update with
  | none => exact ⟨.inr rfl, h.cache⟩
  | some perf => exact ⟨.inl rfl, h.cache⟩

/-- The part of `Push_` that all workers share: an array is divided again in a pass by
performance. -/
def shardKey (st : KVStoreDist) (a : Entry) : Option KVStoreDist :=
  (cfg.encodeDefaultKey (if st.segUpdateFlag = 2 then st.clear a.key else st) a).map Prod.snd

variable {cfg}

/-- Encoding leaves the phase alone. -/
theorem encodeDefaultKey_phase {st : KVStoreDist} {a : Entry} {r : List Segment × KVStoreDist}
    (h : cfg.encodeDefaultKey st a = some r) :
    r.2.segUpdateFlag = st.segUpdateFlag ∧ r.2.taskCache = st.taskCache := by
  obtain ⟨-, hflag, -, hcache⟩ := countPara_frame cfg st a
  simp only [encodeDefaultKey] at h
  split_ifs at h
  · obtain rfl := Option.some.inj h
    exact ⟨hflag, hcache⟩
  · obtain ⟨⟨segs, st₁⟩, hdiv, h⟩ := Option.bind_eq_some_iff.mp h
    have hsame := divide_same hdiv
    dsimp only at h hsame
    split_ifs at h
    obtain rfl := Option.some.inj h
    exact ⟨hsame.segUpdateFlag.trans hflag, hsame.taskCache.trans hcache⟩

theorem shardKey_phase {st st' : KVStoreDist} {a : Entry} (h : cfg.shardKey st a = some st') :
    st'.segUpdateFlag = st.segUpdateFlag ∧ st'.taskCache = st.taskCache := by
  obtain ⟨r, hr, rfl⟩ := Option.map_eq_some_iff.mp h
  have hphase := encodeDefaultKey_phase hr
  split_ifs at hphase
  · exact hphase
  · exact hphase

theorem Ready.shardKey {st st' : KVStoreDist} (hst : Ready st) {a : Entry}
    (h : cfg.shardKey st a = some st') : Ready st' := by
  obtain ⟨hflag, hcache⟩ := shardKey_phase h
  exact ⟨hflag ▸ hst.flag, hcache ▸ hst.cache⟩

variable {rank : ℕ} {topo : ℕ → Option (List ℚ)}

/-- An array other than key 0's is divided by the phase alone. -/
theorem pushKey_later {w : Worker} (h : Ready w.kv) {a : Entry} (ha : a.key ≠ 0) :
    cfg.pushKey rank topo w (decide (w.kv.segUpdateFlag = 2)) a =
      (cfg.shardKey w.kv a).map fun kv =>
        ({ w with kv := kv }, decide (w.kv.segUpdateFlag = 2)) := by
  have hlt : ¬ 4 ≤ w.kv.segUpdateFlag := by
    have := h.flag
    omega
  simp only [pushKey, ha, if_false, hlt, false_and, decide_eq_true_eq, ShardConfig.shardKey,
    Option.map_map]
  rfl

/-- The update that key 0 of a push brings, and the worker after it. -/
def atZero (rank : ℕ) (topo : ℕ → Option (List ℚ)) (w : Worker) : Option (List ℚ) × Worker :=
  if w.initFinish = false ∧ rank = 0 then
    (none, { w with initFinish := true, iterCount := w.iterCount + 1 })
  else (topo w.topoUpdates, { w with
    topoUpdates := w.topoUpdates + 1, iterCount := w.iterCount + 1 })

/-- The performances that an update brings, and the transition at key 0. -/
def enterPass (update : Option (List ℚ)) (st : KVStoreDist) (initFlag : Bool) :
    KVStoreDist × Bool :=
  let st := match update with
    | some perf => st.taskDivisionUpdate perf
    | none => st
  let st := if 4 ≤ st.segUpdateFlag then { st with segUpdateFlag := 1 } else st
  if st.segUpdateFlag ≠ 3 then st.nextPhase else (st, initFlag)

/-- From either phase the transition does what `beginPass` says. -/
theorem enterPass_eq {st : KVStoreDist} (h : Ready st) (update : Option (List ℚ)) :
    enterPass update st (decide (st.segUpdateFlag = 2)) =
      (beginPass update st, decide ((beginPass update st).segUpdateFlag = 2)) := by
  obtain ⟨hflag, hcache⟩ := h
  cases update with
  | none =>
    rcases hflag with hflag | hflag
    · simp [enterPass, hflag, KVStoreDist.nextPhase, hcache, beginPass]
    · have hst : beginPass none st = st := by rw [beginPass, ← hflag]
      simp [enterPass, hst, hflag]
  | some perf =>
    rcases hflag with hflag | hflag
    · simp [enterPass, KVStoreDist.taskDivisionUpdate, hflag, KVStoreDist.nextPhase, hcache,
        beginPass]
    · simp [enterPass, KVStoreDist.taskDivisionUpdate, hflag, KVStoreDist.nextPhase, hcache,
        beginPass]

/-- Key 0 moves on to the phase of the new pass. -/
theorem pushKey_zero {w : Worker} (h : Ready w.kv) {a : Entry} (ha : a.key = 0) :
    cfg.pushKey rank topo w (decide (w.kv.segUpdateFlag = 2)) a =
      (cfg.shardKey (beginPass (atZero rank topo w).1 w.kv) a).map fun kv =>
        ({ (atZero rank topo w).2 with kv := kv },
          decide ((beginPass (atZero rank topo w).1 w.kv).segUpdateFlag = 2)) := by
  have henter : cfg.pushKey rank topo w (decide (w.kv.segUpdateFlag = 2)) a =
      let r := enterPass (atZero rank topo w).1 w.kv (decide (w.kv.segUpdateFlag = 2))
      (cfg.encodeDefaultKey (if r.2 = true then r.1.clear a.key else r.1) a).map fun r' =>
        ({ (atZero rank topo w).2 with kv := r'.2 }, r.2) := by
    by_cases hc : w.initFinish = false ∧ rank = 0
    · simp only [pushKey, ha, if_true, hc, and_self, atZero, enterPass, true_and]
    · simp only [pushKey, ha, if_true, hc, atZero, enterPass, true_and, if_false,
        Worker.topoUpdate]
  rw [henter, enterPass_eq h]
  simp only [shardKey, Option.map_map, decide_eq_true_eq]
  rfl

/-- The arrays after key 0 within one call, by induction on them. -/
theorem pushLoop_later (cfg : ShardConfig) (rank : ℕ) (topo : ℕ → Option (List ℚ))
    (keys : List Entry) {w : Worker} (h : Ready w.kv)
    (hkeys : ∀ a ∈ keys, a.key ≠ 0) :
    cfg.pushLoop rank topo w (decide (w.kv.segUpdateFlag = 2)) keys =
      (keys.foldlM cfg.shardKey w.kv).map fun kv => { w with kv := kv } := by
  induction keys generalizing w with
  | nil => rfl
  | cons a keys ih =>
    rw [pushLoop, pushKey_later h (hkeys a List.mem_cons_self), List.foldlM_cons]
    cases hkv : cfg.shardKey w.kv a with
    | none => rfl
    | some kv =>
      have hrest := ih (w := { w with kv := kv }) (h.shardKey hkv)
        fun b hb => hkeys b (List.mem_cons_of_mem _ hb)
      simp only [(shardKey_phase hkv).1] at hrest
      exact hrest

theorem Ready.foldlM {st st' : KVStoreDist} (h : Ready st) (keys : List Entry)
    (hst : keys.foldlM cfg.shardKey st = some st') : Ready st' := by
  induction keys generalizing st with
  | nil => exact Option.some.inj hst ▸ h
  | cons a keys ih =>
    rw [List.foldlM_cons] at hst
    obtain ⟨st₁, h₁, hst⟩ := Option.bind_eq_some_iff.mp hst
    exact ih (h.shardKey h₁) hst

/-- The arrays after key 0 over any number of calls: where a call ends does not matter. -/
theorem calls_later (calls : List (List Entry)) {w : Worker} (h : Ready w.kv)
    (hcalls : ∀ a ∈ calls.flatten, a.key ≠ 0) :
    calls.foldlM (cfg.push_ rank topo) w =
      (calls.flatten.foldlM cfg.shardKey w.kv).map fun kv => { w with kv := kv } := by
  induction calls generalizing w with
  | nil => rfl
  | cons keys calls ih =>
    simp only [List.flatten_cons, List.mem_append] at hcalls
    rw [List.foldlM_cons, push_, pushLoop_later cfg rank topo keys h fun a ha => hcalls a (.inl ha),
      List.flatten_cons, List.foldlM_append]
    cases hkv : keys.foldlM cfg.shardKey w.kv with
    | none => rfl
    | some kv =>
      exact ih (w := { w with kv := kv }) (h.foldlM keys hkv) fun a ha => hcalls a (.inr ha)

/-- The arrays of a pass: key 0 comes first and only once. -/
def ZeroFirst (arrays : List Entry) : Prop :=
  ∃ a rest, arrays = a :: rest ∧ a.key = 0 ∧ ∀ b ∈ rest, b.key ≠ 0

/-- A whole pass depends on its arrays only, not on the calls they came in. -/
theorem calls_pass (calls : List (List Entry)) {w : Worker} (h : Ready w.kv)
    (hcalls : ZeroFirst calls.flatten) :
    cfg.pushPass rank topo w calls =
      (calls.flatten.foldlM cfg.shardKey (beginPass (atZero rank topo w).1 w.kv)).map fun kv =>
        { (atZero rank topo w).2 with kv := kv } := by
  induction calls with
  | nil =>
    obtain ⟨a, rest, hnil, -⟩ := hcalls
    cases hnil
  | cons keys calls ih =>
    cases keys with
    | nil => simpa [pushPass, push_, pushLoop] using ih hcalls
    | cons a keys =>
      obtain ⟨a, rest, heq, ha, hrest⟩ := hcalls
      rw [List.flatten_cons, List.cons_append] at heq
      obtain ⟨rfl, rfl⟩ := List.cons.inj heq
      simp only [List.mem_append] at hrest
      have hbegin := h.beginPass (atZero rank topo w).1
      rw [pushPass, List.foldlM_cons, push_, pushLoop, pushKey_zero h ha, List.flatten_cons,
        List.cons_append, List.foldlM_cons]
      cases hkv : cfg.shardKey (beginPass (atZero rank topo w).1 w.kv) a with
      | none => rfl
      | some kv =>
        have hloop := pushLoop_later cfg rank topo keys
          (w := { (atZero rank topo w).2 with kv := kv }) (hbegin.shardKey hkv)
          fun b hb => hrest b (.inl hb)
        simp only [(shardKey_phase hkv).1] at hloop
        simp only [Option.map_some, hloop, Option.bind_eq_bind, Option.bind_some,
          List.foldlM_append]
        cases hkv' : keys.foldlM cfg.shardKey kv with
        | none => rfl
        | some kv' =>
          exact calls_later calls (w := { (atZero rank topo w).2 with kv := kv' })
            ((hbegin.shardKey hkv).foldlM keys hkv') fun b hb => hrest b (.inr hb)

/-- Without a pass by performance the arrays are encoded as they are. -/
theorem encodePass_eq_foldlM (arrays : List Entry) {st : KVStoreDist}
    (h : st.segUpdateFlag = 3) :
    (cfg.encodePass arrays st).map Prod.snd = arrays.foldlM cfg.shardKey st := by
  induction arrays generalizing st with
  | nil => rfl
  | cons a arrays ih =>
    have hkey : cfg.shardKey st a = (cfg.encodeDefaultKey st a).map Prod.snd := by
      simp [shardKey, h]
    rw [encodePass, List.foldlM_cons, hkey]
    cases hr : cfg.encodeDefaultKey st a with
    | none => rfl
    | some r =>
      have hrest := ih ((encodeDefaultKey_phase hr).1.trans h)
      simp only [Option.map_some, Option.bind_eq_bind, Option.bind_some, ← hrest]
      cases cfg.encodePass arrays r.2 with
      | none => rfl
      | some r' => rfl

/-- A worker between two passes, its first pass made. -/
structure Settled (rank : ℕ) (w : Worker) : Prop where
  ready : Ready w.kv
  initFinish : rank = 0 → w.initFinish = true

theorem atZero_of_settled {w : Worker} (h : Settled rank w) :
    atZero rank topo w = (topo w.topoUpdates, { w with
      topoUpdates := w.topoUpdates + 1, iterCount := w.iterCount + 1 }) :=
  if_neg fun hc => by simp [h.initFinish hc.2] at hc

/-- Both ways of making the first pass give the same division. -/
theorem firstPass_spec (cfg : ShardConfig) (rank : ℕ) (topo : ℕ → Option (List ℚ))
    {calls : List (List Entry)} (hcalls : ZeroFirst calls.flatten) :
    ∃ f : KVStoreDist → Worker,
      cfg.firstPass rank topo calls =
        (calls.flatten.foldlM cfg.shardKey KVStoreDist.init).map f ∧
      ∀ kv, Ready kv → Settled rank (f kv) ∧ (f kv).kv = kv ∧ (f kv).topoUpdates = 0 := by
  by_cases hrank : rank = 0
  · subst hrank
    refine ⟨fun kv => { Worker.init with kv := kv, initFinish := true, iterCount := 1 }, ?_,
      fun kv hkv => ⟨⟨hkv, fun _ => rfl⟩, rfl, rfl⟩⟩
    rw [firstPass, if_pos rfl, calls_pass calls ⟨.inr rfl, rfl⟩ hcalls]
    rfl
  · refine ⟨fun kv => { Worker.init with kv := kv }, ?_,
      fun kv hkv => ⟨⟨hkv, fun h0 => absurd h0 hrank⟩, rfl, rfl⟩⟩
    rw [firstPass, if_neg hrank, ← encodePass_eq_foldlM _ rfl, Option.map_map]
    rfl

/-- Two workers in the same phase divide alike in all further passes, by induction on the
passes. -/
theorem passes_agree {rank' : ℕ} (passes passes' : List (List (List Entry)))
    (hpasses : passes.map List.flatten = passes'.map List.flatten)
    (hzero : ∀ p ∈ passes.map List.flatten, ZeroFirst p) {w w' : Worker}
    (h : Settled rank w) (h' : Settled rank' w') (hkv : w.kv = w'.kv)
    (htopo : w.topoUpdates = w'.topoUpdates) :
    (passes.foldlM (cfg.pushPass rank topo) w).map Worker.kv =
      (passes'.foldlM (cfg.pushPass rank' topo) w').map Worker.kv := by
  induction passes generalizing passes' w w' with
  | nil =>
    obtain rfl : passes' = [] := by simpa using hpasses.symm
    simpa using hkv
  | cons calls passes ih =>
    cases passes' with
    | nil => simp at hpasses
    | cons calls' passes' =>
      simp only [List.map_cons, List.cons.injEq] at hpasses
      simp only [List.map_cons, List.mem_cons, forall_eq_or_imp] at hzero
      rw [List.foldlM_cons, List.foldlM_cons, calls_pass calls h.ready hzero.1,
        calls_pass calls' h'.ready (hpasses.1 ▸ hzero.1), atZero_of_settled h,
        atZero_of_settled h', ← hpasses.1, ← hkv, ← htopo]
      cases hst : calls.flatten.foldlM cfg.shardKey (beginPass (topo w.topoUpdates) w.kv) with
      | none => rfl
      | some kv =>
        have hready := (h.ready.beginPass (topo w.topoUpdates)).foldlM _ hst
        exact ih passes' hpasses.2 hzero.2 ⟨hready, h.initFinish⟩ ⟨hready, h'.initFinish⟩ rfl rfl

/-- After any number of passes two workers that see the same updates have the same
divisions, in the same phase, whatever calls their passes came in. -/
theorem workers_shard_identically {rank' : ℕ} {first first' : List (List Entry)}
    {passes passes' : List (List (List Entry))} (hfirst : first.flatten = first'.flatten)
    (hpasses : passes.map List.flatten = passes'.map List.flatten)
    (hzero : ∀ p ∈ first.flatten :: passes.map List.flatten, ZeroFirst p) (m : ℕ) :
    (cfg.run rank topo first (passes.take m)).map Worker.kv =
      (cfg.run rank' topo first' (passes'.take m)).map Worker.kv := by
  simp only [List.mem_cons, forall_eq_or_imp] at hzero
  obtain ⟨f, hf, hsettled⟩ := firstPass_spec cfg rank topo hzero.1
  obtain ⟨f', hf', hsettled'⟩ := firstPass_spec cfg rank' topo (hfirst ▸ hzero.1)
  rw [run, run, hf, hf', ← hfirst]
  cases hst : first.flatten.foldlM cfg.shardKey KVStoreDist.init with
  | none => rfl
  | some kv =>
    have hready := Ready.foldlM ⟨.inr rfl, rfl⟩ _ hst
    obtain ⟨h, hkv, htopo⟩ := hsettled kv hready
    obtain ⟨h', hkv', htopo'⟩ := hsettled' kv hready
    refine passes_agree _ _ ?_ (fun p hp => hzero.2 p ?_) h h' (hkv.trans hkv'.symm)
      (htopo.trans htopo'.symm)
    · rw [List.map_take, List.map_take, hpasses]
    · rw [List.map_take] at hp
      exact List.mem_of_mem_take hp

/-- Rank 0 with one call a pass and rank 1 with a call an array, over a pass by performance
and the next one. -/
theorem workers_shard_identically_two_workers :
    let cfg : ShardConfig := ⟨2, 4, false, .single⟩
    let topo : ℕ → Option (List ℚ) := fun k => if k = 0 then some [1, 2] else none
    let calls : List (List Entry) := [[⟨0, 4, 4⟩, ⟨1, 8, 4⟩]]
    let calls' : List (List Entry) := [[⟨0, 4, 4⟩], [⟨1, 8, 4⟩]]
    (cfg.run 0 topo calls [calls, calls]).isSome = true ∧
      (cfg.run 0 topo calls [calls, calls]).map Worker.kv =
        (cfg.run 1 topo calls' [calls', calls']).map Worker.kv := by
  intro cfg topo calls calls'
  have hzero : ZeroFirst calls.flatten := ⟨⟨0, 4, 4⟩, [⟨1, 8, 4⟩], rfl, rfl, by decide⟩
  refine ⟨by decide +kernel, @workers_shard_identically cfg 0 topo 1 calls calls' [calls, calls]
    [calls', calls'] rfl rfl ?_ 2⟩
  simpa using hzero

end ShardConfig

end NetStorm

import NetStorm.Aggregation

/-!
# What happens to a push

A worker's push is handled by the worker's own server, and the sum of an inner server by the
parent, along the tree that the server sees once it has looked for a new policy. Both van and
`KVServer` look for one when a push comes in.
-/
namespace NetStorm

/-- The van after `ProcessReply1Command` has seen a push of its own worker. -/
def Van.notice (v : Van) (iters : ℤ) : Van :=
  if iters ≠ v.iters ∧ v.initFlag = false then { v with iters := iters }.relationUpdate else v

/-- Vans that differ in their relations and flags only. -/
structure Van.Like (v v' : Van) : Prop where
  myId : v'.myId = v.myId
  role : v'.role = v.role
  route : v'.route = v.route

theorem Van.notice_like (v : Van) (iters : ℤ) : v.Like (v.notice iters) := by
  rw [Van.notice]
  split_ifs
  · exact ⟨rfl, rfl, rfl⟩
  · exact ⟨rfl, rfl, rfl⟩

theorem Van.notice_of_initFlag {v : Van} (h : v.initFlag = true) (iters : ℤ) :
    v.notice iters = v := by
  simp [Van.notice, h]

theorem KVServer.refresh_like (kv : KVServer) (v : Van) {V : Type} (msg : Message V) :
    v.Like (kv.refresh v msg).2 := by
  rw [KVServer.refresh]
  split_ifs
  · rw [KVServer.relationUpdate]
    split_ifs
    · exact ⟨rfl, rfl, rfl⟩
    · exact ⟨rfl, rfl, rfl⟩
  · exact ⟨rfl, rfl, rfl⟩

theorem KVServer.refresh_appId (kv : KVServer) (v : Van) {V : Type} (msg : Message V) :
    (kv.refresh v msg).1.appId = kv.appId := by
  rw [KVServer.refresh]
  split_ifs
  · rw [KVServer.relationUpdate]
    split_ifs
    · rfl
    · rfl
  · rfl

theorem KVServer.refresh_of_initFlag (kv : KVServer) {v : Van} (h : v.initFlag = true) {V : Type}
    (msg : Message V) : kv.refresh v msg = (kv, v) := by
  simp [KVServer.refresh, h]

/-- Only the iteration number of a message matters. -/
theorem KVServer.refresh_congr (kv : KVServer) (v : Van) {V : Type} {msg msg' : Message V}
    (h : msg.iters = msg'.iters) : kv.refresh v msg = kv.refresh v msg' := by
  simp only [KVServer.refresh, h]

theorem Multicast.Cluster.update {n : ℕ} {vans : ℤ → Van} (h : Cluster n vans) {a : ℤ} {v : Van}
    (hv : (vans a).Like v) : Cluster n (Function.update vans a v) := by
  refine ⟨fun c => ?_, fun c => ?_, fun c => ?_⟩
  · by_cases hc : serverRankToID c = a
    · subst hc
      rw [Function.update_self]
      exact ⟨hv.role.trans (h.server c).role, hv.myId.trans (h.server c).myId⟩
    · rw [Function.update_of_ne hc]
      exact h.server c
  · by_cases hc : workerRankToID c = a
    · subst hc
      rw [Function.update_self]
      exact ⟨hv.role.trans (h.worker c).role, hv.myId.trans (h.worker c).myId⟩
    · rw [Function.update_of_ne hc]
      exact h.worker c
  · by_cases hc : serverRankToID c = a
    · subst hc
      rw [Function.update_self, hv.route]
      exact h.table c
    · rw [Function.update_of_ne hc]
      exact h.table c

namespace Aggregation
open Scheduler Multicast Convergecast

section Pushes
variable {n ℓ : ℕ} (job : Job n ℓ)

/-- The id of the node that a part comes from. -/
def sourceId : Source (Fin n) → ℤ
  | .leaf w => workerRankToID w
  | .node c => serverRankToID c

/-- The iteration number on worker `w`'s push of round `r`. -/
def Job.pushIters (job : Job n ℓ) (w : Fin n) (r : ℕ) : ℤ :=
  if workerRankToID w = 9 then job.keyVersion w r - 1 else job.keyVersion w r

theorem sourceId_injective : Function.Injective (sourceId (n := n)) := by
  intro x y h
  cases x <;> cases y <;> simp_all [sourceId, Fin.ext_iff]

/-- What the handlers read of a push with the value `a` of source `x`. -/
structure IsPush (x : Source (Fin n)) (a : Fin ℓ → ℚ) (m : Message NDArray) : Prop where
  request : m.request = true
  push : m.push = true
  simpleApp : m.simpleApp = false
  appId : m.appId = job.appId
  version : m.version = ((job.root : ℕ) : ℤ)
  iters : ∃ w r, m.iters = job.pushIters w r
  data : m.data = some ⟨[job.key], List.ofFn a, [((ℓ * job.sizeof : ℕ) : ℤ)]⟩
  sender_ : m.sender_ = sourceId x

variable {job} {x : Source (Fin n)} {a : Fin ℓ → ℚ} {m m' : Message NDArray}

/-- Routing keeps a push what it is. -/
theorem IsPush.of_payload (h : IsPush job x a m) (hload : m'.payload = m.payload)
    (hsender : m'.sender_ = m.sender_) : IsPush job x a m' := by
  have hfield : ∀ {β : Type} (f : Message NDArray → β), f m'.payload = f m.payload := fun f => by
    rw [hload]
  refine ⟨?_, ?_, ?_, ?_, ?_, ?_, ?_, hsender.trans h.sender_⟩
  · exact (hfield fun p => p.request).trans h.request
  · exact (hfield fun p => p.push).trans h.push
  · exact (hfield fun p => p.simpleApp).trans h.simpleApp
  · exact (hfield fun p => p.appId).trans h.appId
  · exact (hfield fun p => p.version).trans h.version
  · rw [show m'.iters = m.iters from hfield fun p => p.iters]
    exact h.iters
  · exact (hfield fun p => p.data).trans h.data

theorem IsPush.unique {y : Source (Fin n)} {b : Fin ℓ → ℚ} (h : IsPush job x a m)
    (h' : IsPush job y b m) : (x, a) = (y, b) := by
  have hx : x = y := sourceId_injective (h.sender_.symm.trans h'.sender_)
  have hdata := h.data.symm.trans h'.data
  simp only [Option.some.injEq, KVPairs.mk.injEq, true_and, and_true] at hdata
  rw [hx, List.ofFn_injective hdata]

open Classical in
/-- The part that a message carries, if it is a push. -/
noncomputable def part (job : Job n ℓ) (m : Message NDArray) :
    Option (Source (Fin n) × (Fin ℓ → ℚ)) :=
  if h : ∃ p : Source (Fin n) × (Fin ℓ → ℚ), IsPush job p.1 p.2 m then some h.choose else none

theorem part_of_push (h : IsPush job x a m) : part job m = some (x, a) := by
  have hex : ∃ p : Source (Fin n) × (Fin ℓ → ℚ), IsPush job p.1 p.2 m := ⟨(x, a), h⟩
  rw [part, dif_pos hex]
  exact congrArg some (hex.choose_spec.unique h)

theorem part_of_response (h : m.request = false) : part job m = none := by
  refine dif_neg fun ⟨p, hp⟩ => ?_
  rw [hp.request] at h
  cases h

end Pushes

/-- What the pushes of a key and the configuration of the servers have to be like. -/
structure Setting {n ℓ : ℕ} (job : Job n ℓ) (cfg : Fin n → StoreConfig) : Prop where
  ids : workerRankToID n ≤ kEmpty
  appId : job.appId ≠ kEmpty
  iters : ∀ w r, job.pushIters w r ≠ 0
  fits : ℓ * job.sizeof < 2 ^ 31
  sync : ∀ c, (cfg c).syncMode = true
  myRank : ∀ c, (cfg c).myRank = c
  numWorkers : ∀ c, (cfg c).numWorkers = n
  sizeof : ∀ c, (cfg c).sizeof = job.sizeof

theorem IsPush.iters_ne {n ℓ : ℕ} {job : Job n ℓ} {cfg : Fin n → StoreConfig}
    (hS : Setting job cfg) {x : Source (Fin n)} {a : Fin ℓ → ℚ} {m : Message NDArray}
    (h : IsPush job x a m) : m.iters ≠ 0 := by
  obtain ⟨w, r, hiters⟩ := h.iters
  rw [hiters]
  exact hS.iters w r

section Delivery
variable {n ℓ : ℕ} {job : Job n ℓ} {cfg : Fin n → StoreConfig} {T : RootedTree (Fin n)}
  {vans : ℤ → Van} {x : Source (Fin n)} {a : Fin ℓ → ℚ} {m : Message NDArray}

/-- Where the push of a source is: on the link to the worker's own server, or on a path to
the parent. -/
def Placed (T : RootedTree (Fin n)) (m : Message NDArray) : Source (Fin n) → Prop
  | .leaf w => m.cmd = .reply1 ∧ m.recver = serverRankToID w ∧ m.dst = serverRankToID T.root ∧
      m.route = []
  | .node c => c ≠ T.root ∧ ∃ y rest, EnRoute m (serverRankToID (T.parent c)) y rest ∧
      (y :: rest).Nodup ∧ (∀ z ∈ y :: rest, z < n) ∧
      (y :: rest).getLast? = some (T.parent c : ℕ)

/-- A push in flight. -/
structure Flying (job : Job n ℓ) (T : RootedTree (Fin n)) (x : Source (Fin n)) (a : Fin ℓ → ℚ)
    (m : Message NDArray) : Prop where
  push : IsPush job x a m
  placed : Placed T m x
  lastHop : m.lastHop ≠ kEmpty

/-- A push that waits for its handler. -/
structure Arrived (job : Job n ℓ) (T : RootedTree (Fin n)) (x : Source (Fin n)) (a : Fin ℓ → ℚ)
    (e : ℤ × Message NDArray) : Prop where
  push : IsPush job x a e.2
  at_target : e.1 = serverRankToID (x.target T : Fin n)
  sender : e.2.sender ≠ kEmpty
  recver : e.2.recver ≠ kEmpty

/-- What the delivery of a push to van `v` does: it moves on, or it waits for the handler of
its target. -/
structure PushMoves (job : Job n ℓ) (T : RootedTree (Fin n)) (v : Van) (x : Source (Fin n))
    (a : Fin ℓ → ℚ) (m : Message NDArray) (queue : ℤ → ℕ) (v' : Van) (next : Message NDArray)
    (out : Dispatch NDArray) : Prop where
  receiving : v.receiving queue (v.recvMsg m) = some (v', out)
  van : v' = v ∨ (∃ c : Fin n, m.recver = serverRankToID c) ∧ v' = v.notice m.iters
  myId : v'.myId = m.recver
  moves : out = .queued next ∧ Flying job T x a next ∨
    out = .dataMsg next ∧ Arrived job T x a (v'.myId, next) ∧
      ((∃ w, x = .leaf w) ∨ m.dst = m.recver)

theorem deliver_leaf (hS : Setting job cfg) (hC : Cluster n vans) (queue : ℤ → ℕ) {w : Fin n}
    (h : Flying job T (.leaf w) a m) :
    ∃ v' next out, PushMoves job T (vans m.recver) (.leaf w) a m queue v' next out := by
  obtain ⟨hcmd, hrecver, hdst, hroute⟩ := h.placed
  have hv : (vans m.recver).IsServer w := by
    rw [hrecver]
    exact hC.server w
  have hid : (vans m.recver).myId = serverRankToID w := hv.myId
  have hiters := h.push.iters_ne hS
  by_cases hw : w = T.root
  · refine ⟨vans m.recver, (vans m.recver).recvMsg m, .dataMsg ((vans m.recver).recvMsg m),
      ⟨?_, .inl rfl, hid.trans hrecver.symm, .inr ⟨rfl, ?_, .inl ⟨w, rfl⟩⟩⟩⟩
    · simp [Van.receiving, Van.recvMsg, hcmd, hdst, hid, hw]
    · exact ⟨h.push.of_payload rfl rfl, hid, h.lastHop, by simp [Van.recvMsg, hid]⟩
  · have hne : m.dst ≠ (vans m.recver).myId := by
      rw [hdst, hid, ne_eq, serverRankToID_inj, Fin.val_inj]
      exact Ne.symm hw
    refine ⟨(vans m.recver).notice m.iters, { (vans m.recver).recvMsg m with
      lastHop := (vans m.recver).myId
      dst := (vans m.recver).myId }, _, ⟨?_, .inr ⟨⟨w, hrecver⟩, rfl⟩,
        ((vans m.recver).notice_like _).myId.trans (hid.trans hrecver.symm),
        .inr ⟨rfl, ?_, .inl ⟨w, rfl⟩⟩⟩⟩
    · rw [receiving_reply1 queue hcmd hne]
      simp [Van.processReply1Command, Van.recvMsg, hroute, hiters, h.push.push, h.push.request,
        Van.notice]
    · exact ⟨h.push.of_payload rfl rfl, ((vans m.recver).notice_like _).myId.trans hid, h.lastHop,
        by simp [Van.recvMsg, hid]⟩

theorem deliver_node (hC : Cluster n vans) (queue : ℤ → ℕ) {c : Fin n}
    (h : Flying job T (.node c) a m) :
    ∃ v' next out, PushMoves job T (vans m.recver) (.node c) a m queue v' next out := by
  obtain ⟨hc, y, rest, hroute, hnodup, hlt, hlast⟩ := h.placed
  have hy : y < n := hlt y List.mem_cons_self
  have hv : (vans m.recver).IsServer y := by
    rw [hroute.recver]
    exact hC.server ⟨y, hy⟩
  cases rest with
  | nil =>
    obtain rfl : y = T.parent c := by simpa using hlast
    refine ⟨_, _, _, ⟨receiving_server hv queue hroute, .inl rfl, hv.myId.trans hroute.recver.symm,
      .inr ⟨rfl, ?_, .inr ?_⟩⟩⟩
    · exact ⟨h.push.of_payload rfl rfl, hv.myId, h.lastHop, by simp [Van.recvMsg, hv.myId]⟩
    · rw [hroute.recver, hroute.dst]
  | cons z rest =>
    have hne : (T.parent c : ℕ) ≠ y := by
      intro he
      have hmem : (T.parent c : ℕ) ∈ z :: rest := List.mem_of_getLast? (by simpa using hlast)
      exact (List.nodup_cons.mp hnodup).1 (he ▸ hmem)
    obtain ⟨next, hr, hnext, hload, -, hsender, hhop⟩ :=
      receiving_enRoute hv queue hroute (.inl rfl) hne
    refine ⟨_, next, _, ⟨hr, .inl rfl, hv.myId.trans hroute.recver.symm, .inl ⟨rfl,
      h.push.of_payload hload hsender, ⟨hc, z, rest, hnext, (List.nodup_cons.mp hnodup).2,
        fun u hu => hlt u (List.mem_cons_of_mem _ hu), ?_⟩, ?_⟩⟩⟩
    · simpa using hlast
    · rw [hhop, hv.myId]
      exact serverRankToID_ne_kEmpty y

theorem deliver_push (hS : Setting job cfg) (hC : Cluster n vans) (queue : ℤ → ℕ)
    (h : Flying job T x a m) :
    ∃ v' next out, PushMoves job T (vans m.recver) x a m queue v' next out := by
  cases x with
  | leaf w => exact deliver_leaf hS hC queue h
  | node c => exact deliver_node hC queue h

end Delivery

section Handling
variable {n ℓ : ℕ} {job : Job n ℓ} {cfg : Fin n → StoreConfig} {T : RootedTree (Fin n)}
  {v : Van} {kv : KVServer} {x : Source (Fin n)} {a : Fin ℓ → ℚ}

/-- A worker's push leaves for the worker's own server. -/
theorem send_push (hS : Setting job cfg) (hroot : job.root = T.root) {w : Fin n}
    (hv : v.IsWorker w) (r : ℕ) :
    ∃ m, v.send (job.pushMsg v w r) = some m ∧ Flying job T (.leaf w) (job.grad w r) m := by
  have hid : workerRankToID w ≠ kEmpty := by
    have := hS.ids
    simp only [workerRankToID] at this ⊢
    omega
  have hown : workerRankToID w - 1 = serverRankToID w := by
    rw [← serverRankToID_add_one]
    omega
  refine ⟨{ job.pushMsg v w r with
    dst := serverRankToID job.root
    cmd := .reply1
    priority := 0
    lastHop := v.myId
    recver := serverRankToID w }, ?_, ⟨?_, ⟨rfl, rfl, by rw [hroot], rfl⟩, ?_⟩⟩
  · simp [Van.send, Van.addTrace, Job.pushMsg, Van.kvWorkerMsg, hv.role, hv.myId, hid, hown]
  · refine ⟨rfl, rfl, rfl, rfl, rfl, ⟨w, r, ?_⟩, by simp [Job.pushMsg, Van.kvWorkerMsg], hv.myId⟩
    simp only [Job.pushMsg, Van.kvWorkerMsg, hv.myId, Job.pushIters]
  · rw [hv.myId]
    exact hid

/-- What `KVServer::Process` makes of a push. -/
theorem process_push (hS : Setting job cfg) (hroot : job.root = T.root) {c : Fin n}
    (hv : v.IsServer c) (kv : KVServer) {m : Message NDArray}
    (he : Arrived job T x a (serverRankToID c, m)) (unset : ℤ) (st : KVStoreDistServer) :
    ∃ req : KVMeta, req.version = ((T.root : ℕ) : ℤ) ∧ req.numMerge = m.iters ∧ req.push = true ∧
      kv.process (cfg c) v unset st m =
        ((cfg c).handlePush st (kv.refresh v m).1.sons req job.key (List.ofFn a)).map fun h =>
          ((kv.refresh v m).1, (kv.refresh v m).2, h) := by
  have hp := he.push
  have hrole : v.role ≠ .worker := by simp [hv.role]
  have hnine : v.myId ≠ 9 := by
    rw [hv.myId, serverRankToID]
    omega
  obtain ⟨msg, hmsg, hpush, hiters⟩ : ∃ msg, v.processDataMsg m = some msg ∧
      IsPush job x a msg ∧ msg.iters = m.iters := by
    have happ : m.appId ≠ kEmpty := hp.appId.trans_ne hS.appId
    have hsender := he.sender
    have hrecver := he.recver
    dsimp only at hsender hrecver
    by_cases hcmd : m.cmd = .reply1
    · refine ⟨{ m with dst := kEmpty, cmd := .empty }, ?_, ?_, rfl⟩
      · simp [Van.processDataMsg, hcmd, hrole, hnine, hsender, hrecver, happ]
      · exact ⟨hp.request, hp.push, hp.simpleApp, hp.appId, hp.version, hp.iters, hp.data, hp.sender_⟩
    · exact ⟨m, by simp [Van.processDataMsg, hcmd, hsender, hrecver, happ], hp, rfl⟩
  have hversion : msg.version = ((T.root : ℕ) : ℤ) := by rw [hpush.version, hroot]
  refine ⟨msg.kvMeta unset, hversion, hiters, hpush.push, ?_⟩
  have hrefresh : kv.refresh v msg = kv.refresh v m := kv.refresh_congr v hiters
  have hok : msg.dataOk = true := by simp [Message.dataOk, hpush.data]
  have hlens : ((ℓ * job.sizeof : ℕ) : ℤ) % 2 ^ 64 = ((ℓ * job.sizeof : ℕ) : ℤ) := by
    have := hS.fits
    omega
  simp only [KVServer.process, hmsg, Option.bind_eq_bind, Option.bind_some, hrefresh,
    hpush.simpleApp, hok, Bool.false_eq_true, Bool.true_eq_false, or_self, if_false, hpush.data,
    Option.getD_some, StoreConfig.dataHandleDefault]
  simp only [Message.kvMeta, hpush.push, if_true, List.map_cons, List.map_nil, hlens,
    List.length_ofFn, hS.sizeof]
  cases (cfg c).handlePush st (kv.refresh v m).1.sons _ job.key (List.ofFn a) with
  | none => rfl
  | some h => rfl

theorem zipWith_ofFn (f g : Fin ℓ → ℚ) :
    List.zipWith (· + ·) (List.ofFn f) (List.ofFn g) = List.ofFn (f + g) := by
  refine List.ext_getElem (by simp) fun i _ _ => ?_
  simp

theorem exists_ofFn {l : NDArray} (h : l.length = ℓ) : ∃ a : Fin ℓ → ℚ, l = List.ofFn a := by
  subst h
  exact ⟨l.get, (List.ofFn_get l).symm⟩

/-- The store has an array for the buffer of the key to be copied to. -/
def Stocked (job : Job n ℓ) (st : KVStoreDistServer) : Prop :=
  (st.updateBuf (slot job.key)).request ≠ [] →
    ∃ stored, st.store job.key = some stored ∧ stored.length = ℓ

/-- What a handled push does, by the number of parts that the server has and its place in
the tree. -/
structure PushHandled (job : Job n ℓ) (cfg : StoreConfig) (T : RootedTree (Fin n)) (c : Fin n)
    (iters : ℤ) (st : KVStoreDistServer) (sum : NDArray) (h : Handled) : Prop where
  collect : (st.updateBuf (slot job.key)).request.length ≠ (T.children c).card →
    ∃ buf, h = { server := StoreConfig.setBuf (cfg.allocate st job.key ℓ) job.key buf } ∧
      buf.merged = some sum ∧
      buf.request.length = (st.updateBuf (slot job.key)).request.length + 1
  forward : (st.updateBuf (slot job.key)).request.length = (T.children c).card → c ≠ T.root →
    (∃ req : KVMeta, req.version = ((T.root : ℕ) : ℤ) ∧ req.numMerge = iters ∧ req.push = true ∧
      h.calls = [.push req (cfg.pairs job.key (cfg.ofStored sum))]) ∧ h.updated = none ∧
      (h.server.updateBuf (slot job.key)).request = []
  finish : (st.updateBuf (slot job.key)).request.length = (T.children c).card → c = T.root →
    (∃ req new, h.calls = [.responseAll req (cfg.storedPairs job.key new)]) ∧
      h.updated = some sum ∧ (h.server.updateBuf (slot job.key)).request = []

/-- The sons of a server for the tree that it sees. -/
theorem sons_of_sees {c : Fin n} {parents : List ℤ} {sons : List (List ℤ)}
    (hsees : SeesTree T c parents sons) {version : ℤ} (hversion : version = ((T.root : ℕ) : ℤ)) :
    ∃ mySons, vectorAt sons version = some mySons ∧
      mySons.length = (T.children c).card + 1 ∧ (T.children c).card + 1 ≤ n := by
  refine ⟨(childList T c).map (fun k : Fin n => workerRankToID k) ++ [workerRankToID c], ?_, ?_, ?_⟩
  · rw [hversion, vectorAt_natCast]
    exact hsees.sons
  · simp [length_childList]
  · have hlt := T.card_children_lt c
    rwa [Fintype.card_fin] at hlt

/-- A push that is handled is merged. -/
theorem handled_push (hS : Setting job cfg) (hroot : job.root = T.root) {c : Fin n}
    (hv : v.IsServer c) {m : Message NDArray} (he : Arrived job T x a (serverRankToID c, m))
    (hsees : SeesTree T c (kv.refresh v m).1.parents (kv.refresh v m).1.sons) (unset : ℤ)
    {st : KVStoreDistServer}
    (hle : (st.updateBuf (slot job.key)).request.length ≤ (T.children c).card)
    {r : KVServer × Van × Handled} (hrun : kv.process (cfg c) v unset st m = some r) :
    ∃ h sum, r = ((kv.refresh v m).1, (kv.refresh v m).2, h) ∧
      StoreConfig.IsTotal (cfg c) (st.updateBuf (slot job.key)) (List.ofFn a) sum ∧
      PushHandled job (cfg c) T c m.iters st sum h := by
  obtain ⟨req, hversion, hnum, hpush, hprocess⟩ := process_push hS hroot hv kv he unset st
  rw [hprocess, StoreConfig.handlePush_eq (hnum.trans_ne (he.push.iters_ne hS))] at hrun
  obtain ⟨h, hhandle, rfl⟩ := Option.map_eq_some_iff.mp hrun
  obtain ⟨buf, hmerge, hclose⟩ := Option.bind_eq_some_iff.mp hhandle
  obtain ⟨hrequest, sum, hmerged, htotal⟩ := StoreConfig.merge_spec (hS.sync c) hmerge
  obtain ⟨mySons, hsons, hcard, hn⟩ := sons_of_sees hsees hversion
  rw [List.length_ofFn] at hclose
  set st' := (cfg c).allocate st job.key ℓ
  set buf' : UpdateBuf := { buf with request := buf.request ++ [req] }
  have hsize : buf'.request.length = (st.updateBuf (slot job.key)).request.length + 1 := by
    simp [buf', hrequest]
  refine ⟨h, sum, rfl, htotal, fun hmissing => ?_, fun hfull hc => ?_, fun hfull hc => ?_⟩
  · rw [StoreConfig.close_of_missing st' job.key buf' (hS.sync c) hsons
      (by rw [hsize, hcard]; omega) (by rw [hsize, hS.numWorkers]; omega)] at hclose
    exact ⟨buf', (Option.some.inj hclose).symm, hmerged, hsize⟩
  · have hrank : req.version ≠ (((cfg c).myRank : ℕ) : ℤ) := by
      rw [hversion, hS.myRank, ne_eq, Nat.cast_inj, Fin.val_inj]
      exact Ne.symm hc
    rw [StoreConfig.close_of_inner st' job.key buf' hsons (by rw [hsize, hcard, hfull]) hrank
      hmerged] at hclose
    obtain ⟨stored, -, hclose⟩ := Option.bind_eq_some_iff.mp hclose
    obtain ⟨copy, hcopy, hclose⟩ := Option.bind_eq_some_iff.mp hclose
    obtain rfl := Option.some.inj hclose
    rw [copyFromTo] at hcopy
    split_ifs at hcopy
    obtain rfl := Option.some.inj hcopy
    exact ⟨⟨req, hversion, hnum, hpush, rfl⟩, rfl, by simp⟩
  · have hrank : req.version = (((cfg c).myRank : ℕ) : ℤ) := by rw [hversion, hS.myRank, hc]
    exact StoreConfig.close_at_root st' job.key buf' (hS.sync c) hsons
      (by rw [hsize, hcard, hfull]) hrank (hcard.trans_le (hn.trans_eq (hS.numWorkers c).symm))
      (by simp [buf']) hmerged hclose

/-- Handling keeps an array in the store for the buffer. -/
theorem PushHandled.stocked {c : Fin n} {iters : ℤ} {st : KVStoreDistServer} {sum : NDArray}
    {h : Handled} {cfg : StoreConfig} (hsync : cfg.syncMode = true) (hcasts : cfg.casts = none)
    (hhandled : PushHandled job cfg T c iters st sum h) (hstocked : Stocked job st) :
    Stocked job h.server := by
  intro hne
  by_cases hfull : (st.updateBuf (slot job.key)).request.length = (T.children c).card
  · by_cases hc : c = T.root
    · exact absurd (hhandled.finish hfull hc).2.2 hne
    · exact absurd (hhandled.forward hfull hc).2.2 hne
  · obtain ⟨buf, rfl, -, -⟩ := hhandled.collect hfull
    dsimp only
    rw [StoreConfig.setBuf_store, StoreConfig.allocate, StoreConfig.setStored, if_pos hcasts]
    split_ifs with hnew
    · exact ⟨cfg.newArray ℓ, Function.update_self .., by simp [StoreConfig.newArray]⟩
    · exact hstocked fun hnil => hnew ⟨hsync, hnil⟩

/-- An inner server's sum leaves for the parent. -/
theorem call_push (hS : Setting job cfg) (hroot : job.root = T.root) {c : Fin n}
    (hv : v.IsServer c) (htable : TableOk n c v.route) (hsees : SeesTree T c kv.parents kv.sons)
    (happ : kv.appId = job.appId) (hc : c ≠ T.root) {req : KVMeta}
    (hversion : req.version = ((T.root : ℕ) : ℤ))
    (hnum : ∃ w r, req.numMerge = job.pushIters w r) (hpush : req.push = true) (sum : Fin ℓ → ℚ)
    (queue : ℤ → ℕ) (queues : ℕ → ℤ → ℕ) :
    ∃ m, kv.call v queue queues (.push req ((cfg c).pairs job.key (List.ofFn sum))) = some [m] ∧
      Flying job T (.node c) sum m := by
  have hne : (T.parent c : ℕ) ≠ c := fun h => T.parent_ne hc (Fin.ext h)
  obtain ⟨paths, hpaths, hnonempty, hp⟩ := htable (T.parent c) (T.parent c).isLt hne
  have hparent : vectorAt kv.parents req.version = some (serverRankToID (T.parent c)) := by
    rw [hversion, vectorAt_natCast]
    exact hsees.parent
  obtain ⟨msg, hmsg, hrecver, hcmd, hdst, hsender, hmsgPush⟩ : ∃ msg,
      kv.pushMsg v req ((cfg c).pairs job.key (List.ofFn sum)) = some msg ∧
      msg.recver = serverRankToID (T.parent c) ∧ msg.cmd = .empty ∧
      msg.dst = kEmpty ∧ msg.sender_ = serverRankToID c ∧ IsPush job (.node c) sum msg := by
    rw [KVServer.pushMsg, hparent]
    refine ⟨_, rfl, rfl, rfl, rfl, hv.myId, rfl, hpush, rfl, happ, ?_, hnum, ?_, hv.myId⟩
    · rw [hroot]
      exact hversion
    · have hint : toInt32 (ℓ * job.sizeof) = ((ℓ * job.sizeof : ℕ) : ℤ) := toInt32_of_lt hS.fits
      simp [KVPairs.attach, StoreConfig.pairs, hS.sizeof, hint]
  obtain ⟨y, rest, sent, -, hsimple, hsent, hroute, hload, -, hsame⟩ :=
    push_enRoute hv queue hpaths hnonempty hp (.inl rfl) hne hcmd hdst hrecver (.inr ⟨c, hsender⟩)
  have hsame' := hsame (by simp [hsender])
  refine ⟨sent, ?_, hmsgPush.of_payload hload hsame', ⟨hc, y, rest, hroute,
    (List.nodup_cons.mp hsimple.nodup).2, hsimple.lt, hsimple.last⟩, ?_⟩
  · simp [KVServer.call, KVServer.push, hmsg, hsent]
  · rw [push_lastHop hv queue hcmd hsent, hv.myId]
    exact serverRankToID_ne_kEmpty c

/-- A response in flight. -/
def Down (job : Job n ℓ) (T : RootedTree (Fin n)) (m : Message NDArray) : Prop :=
  ∃ load, IsResponse load ∧ load.request = false ∧
    (∃ vals lens, load.data = some ⟨[job.key], vals, lens⟩) ∧ Copy T load m

theorem payload_of_copy {load m : Message NDArray} (h : Copy T load m) : m.payload = load := by
  obtain ⟨c, h | h⟩ := h
  · exact h.payload
  · exact h.payload

theorem request_of_payload {load m : Message NDArray} (h : m.payload = load) :
    m.request = load.request := by
  rw [← h]
  rfl

theorem Down.request {m : Message NDArray} (h : Down job T m) : m.request = false := by
  obtain ⟨load, -, hreq, -, hcopy⟩ := h
  exact (request_of_payload (payload_of_copy hcopy)).trans hreq

/-- The answer of the root covers every worker once. -/
theorem call_responseAll (job : Job n ℓ) {vans : ℤ → Van} (hC : Cluster n vans)
    (hsees : SeesTree T T.root kv.parents kv.sons) (cfg : StoreConfig) (req : KVMeta)
    (new : NDArray) (queue : ℤ → ℕ) (queues : ℕ → ℤ → ℕ) :
    ∃ sent, kv.call (vans (serverRankToID T.root)) queue queues
        (.responseAll req (cfg.storedPairs job.key new)) = some sent ∧
      (∀ m ∈ sent, Down job T m) ∧ ∀ w, (sent.map (covers T w)).sum = 1 := by
  have hid := (hC.server T.root).myId
  set res := cfg.storedPairs job.key new
  set load := (kv.responseAllMsg (vans (serverRankToID T.root)) req res job.key kEmpty).payload
  have hcopies : ∀ son, IsCopy T.root load
      (kv.responseAllMsg (vans (serverRankToID T.root)) req res job.key son) son :=
    fun son => ⟨rfl, rfl, rfl, rfl, hid, rfl⟩
  obtain ⟨sent, hsent, hall⟩ := exists_copies hC T T.root queues hcopies
  refine ⟨sent, ?_, fun m hm => ⟨load, ⟨rfl, rfl, rfl, rfl⟩, rfl, ⟨new, _, rfl⟩,
    forall_copy hall m hm⟩, fun w => ?_⟩
  · have hkey : res.keys[0]? = some job.key := rfl
    simp only [KVServer.call, KVServer.responseAll, hid, tdiv_serverRankToID, vectorAt_natCast,
      hsees.sons, hkey, Option.bind_eq_bind, Option.bind_some, hsent]
  · rw [copies_cover hall w, T.subtree_root, if_pos (Finset.mem_univ w)]

end Handling

end Aggregation

end NetStorm

import NetStorm.Aggregation

/-!
# Switching the policy

The iterations of a training run. A worker that has all responses of an iteration calls
`TopoUpdate`: it tells the scheduler and waits until the scheduler's release comes back
through the worker's own server. The scheduler releases once it has heard of all workers,
with a new policy if the routes have changed since the last release. Every handler is one
step; messages are received in any order, and the handlers run in any order. Iteration
numbers stay below the largest `int`.
-/
namespace NetStorm
open Scheduler Multicast

/-- The members of the scheduler's van that the release reads. -/
structure SchedulerVan where
  notifyCount : ℕ
  perfUpdateFlag : Bool
  perf : List ℚ
  route : List (List (List (List ℕ)))

/-- `Van::ProcessRouteReleaseCommand` at the scheduler: with the last worker's message, the
vectors for all servers. They are empty if the policy stays. -/
def SchedulerVan.processRouteReleaseCommand (n : ℕ) (v : SchedulerVan) :
    Option (SchedulerVan × Option (List (List ℚ))) :=
  if v.notifyCount + 1 = n then
    if v.perfUpdateFlag = true then do
      let policy ← policyDecision n v.perf v.route
      some ({ v with notifyCount := 0, perfUpdateFlag := false }, some policy)
    else some ({ v with notifyCount := 0 }, some (List.replicate n []))
  else some ({ v with notifyCount := v.notifyCount + 1 }, none)

/-- `Van::ProcessRouteReleaseCommand` at a server, for a release with `iters != 0`; what it
sends to the worker is left to the caller. -/
def Van.processRouteReleaseCommand (n : ℕ) (v : Van) (route : List ℚ) : Option Van :=
  if route = [] then some v
  else do
    let r ← parsePolicy n v.myId route
    some { v with parentsTemp := r.parentsTemp, sonsTemp := r.sonsTemp, initFlag := false }

namespace PolicySwitch

/-- A ps key with its pushes in one iteration. -/
structure Shard (n : ℕ) where
  length : ℕ
  job : Aggregation.Job n length

/-- The servers' configuration, the scheduler's, and the shards that all workers push in an
iteration under a policy with the given performances. -/
structure System (n : ℕ) where
  cfg : Fin n → StoreConfig
  routes : RouteConfig
  plan : ℕ → List ℚ → List (Shard n)

/-- The parents and sons of a server. -/
abbrev Tables := List ℤ × List (List ℤ)

/-- The tables that the release `row` puts in force at server `c`. -/
def released (n : ℕ) (c : ℕ) (row : List ℚ) (old : Tables) : Tables :=
  if row = [] then old
  else ((parsePolicy n (serverRankToID c) row).map fun r => (r.parentsTemp, r.sonsTemp)).getD old

/-- The state of the system. In flight are the data messages, the messages of workers to the
scheduler, of the scheduler to servers, and of servers to their workers. Pushes sent and
responses received are counted by iteration, key and worker. The number of the iteration,
its performances and its tables are those of the scheduler's last release. -/
structure State (n : ℕ) where
  vans : ℤ → Van
  kvs : Fin n → KVServer
  servers : Fin n → KVStoreDistServer
  net : List (Message NDArray)
  inbox : List (ℤ × Message NDArray)
  scheduler : SchedulerVan
  notices : List (Fin n)
  releases : List (Fin n × List ℚ)
  resumes : List (Fin n)
  workerIter : Fin n → ℕ
  waiting : Fin n → Bool
  sent : ℕ → ℕ → Fin n → ℕ
  received : ℕ → ℕ → Fin n → ℕ
  iter : ℕ
  perf : List ℚ
  inForce : Fin n → Tables

/-- One more for worker `w`, in iteration `t` and for key `key`. -/
def count {n : ℕ} (f : ℕ → ℕ → Fin n → ℕ) (t key : ℕ) (w : Fin n) : ℕ → ℕ → Fin n → ℕ :=
  fun t' key' w' => f t' key' w' + if t' = t ∧ key' = key ∧ w' = w then 1 else 0

/-- The message is about key `key`. -/
def hasKey {V : Type} (key : ℕ) (m : Message V) : Bool := m.data.map KVPairs.keys = some [key]

/-- One step of the system, where `ok` says which messages may be received. -/
inductive Step {n : ℕ} (sys : System n) (ok : State n → Message NDArray → Prop) :
    State n → State n → Prop
  | measure {s : State n} (links : LinkMatrix) {perf : List ℚ}
      {route : List (List (List (List ℕ)))} (hroute : addRoute n links.tps sys.routes = some route)
      (hperf : perf.length = n) :
      Step sys ok s { s with
        scheduler := { s.scheduler with perfUpdateFlag := true, perf := perf, route := route } }
  | reroute {s : State n} {c : Fin n} {table : List (List (List ℤ))} (htable : TableOk n c table) :
      Step sys ok s { s with
        vans := Function.update s.vans (serverRankToID c)
          { s.vans (serverRankToID c) with route := table } }
  | topoUpdate {s : State n} {w : Fin n} (hidle : s.waiting w = false)
      (hall : ∀ sh ∈ sys.plan (s.workerIter w) s.perf,
        s.received (s.workerIter w) sh.job.key w ≠ 0) :
      Step sys ok s { s with
        notices := s.notices ++ [w]
        waiting := Function.update s.waiting w true }
  | notify {s : State n} {l₁ l₂ : List (Fin n)} {w : Fin n} (hnotices : s.notices = l₁ ++ w :: l₂)
      {v : SchedulerVan} (hrun : s.scheduler.processRouteReleaseCommand n = some (v, none)) :
      Step sys ok s { s with scheduler := v, notices := l₁ ++ l₂ }
  | barrier {s : State n} {l₁ l₂ : List (Fin n)} {w : Fin n} (hnotices : s.notices = l₁ ++ w :: l₂)
      {v : SchedulerVan} {policy : List (List ℚ)} (hint : (s.iter : ℤ) + 1 < kEmpty)
      (hrun : s.scheduler.processRouteReleaseCommand n = some (v, some policy)) :
      Step sys ok s { s with
        scheduler := v
        notices := l₁ ++ l₂
        releases := s.releases ++ (List.finRange n).zip policy
        iter := s.iter + 1
        perf := if s.scheduler.perfUpdateFlag = true then s.scheduler.perf else s.perf
        inForce := fun c => released n c (policy.getD c []) (s.inForce c) }
  | release {s : State n} {l₁ l₂ : List (Fin n × List ℚ)} {c : Fin n} {row : List ℚ}
      (hreleases : s.releases = l₁ ++ (c, row) :: l₂) {v : Van}
      (hrun : (s.vans (serverRankToID c)).processRouteReleaseCommand n row = some v) :
      Step sys ok s { s with
        vans := Function.update s.vans (serverRankToID c) v
        releases := l₁ ++ l₂
        resumes := s.resumes ++ [c] }
  | resume {s : State n} {l₁ l₂ : List (Fin n)} {w : Fin n} (hresumes : s.resumes = l₁ ++ w :: l₂) :
      Step sys ok s { s with
        resumes := l₁ ++ l₂
        workerIter := Function.update s.workerIter w (s.workerIter w + 1)
        waiting := Function.update s.waiting w false }
  | push {s : State n} {w : Fin n} {sh : Shard n} {m : Message NDArray}
      (hidle : s.waiting w = false) (hplan : sh ∈ sys.plan (s.workerIter w) s.perf)
      (honce : s.sent (s.workerIter w) sh.job.key w = 0)
      (hsend : (s.vans (workerRankToID w)).send
        (sh.job.pushMsg (s.vans (workerRankToID w)) w 0) = some m) :
      Step sys ok s { s with
        net := s.net ++ [m]
        sent := count s.sent (s.workerIter w) sh.job.key w }
  | deliver {s : State n} {l₁ l₂ : List (Message NDArray)} {m : Message NDArray}
      (hnet : s.net = l₁ ++ m :: l₂) (hok : ok s m) (queue : ℤ → ℕ) (queues : ℕ → ℤ → ℕ) {v : Van}
      {out : Dispatch NDArray} {sent : List (Message NDArray)}
      {acc : List (ℤ × Message NDArray)}
      (hreceive : (s.vans m.recver).receiving queue ((s.vans m.recver).recvMsg m) = some (v, out))
      (hperform : v.perform queues out = some (sent, acc)) :
      Step sys ok s { s with
        vans := Function.update s.vans m.recver v
        net := l₁ ++ l₂ ++ sent
        inbox := s.inbox ++ acc }
  | handle {s : State n} {l₁ l₂ : List (ℤ × Message NDArray)} {c : Fin n} {m : Message NDArray}
      (hinbox : s.inbox = l₁ ++ (serverRankToID c, m) :: l₂) (unset : ℤ) (queue : ℤ → ℕ)
      (queues : ℕ → ℤ → ℕ) {kv : KVServer} {v : Van} {h : Handled}
      {sent : List (List (Message NDArray))}
      (hprocess : (s.kvs c).process (sys.cfg c) (s.vans (serverRankToID c)) unset (s.servers c) m =
        some (kv, v, h))
      (hcalls : h.calls.mapM (kv.call v queue queues) = some sent) :
      Step sys ok s { s with
        vans := Function.update s.vans (serverRankToID c) v
        kvs := Function.update s.kvs c kv
        servers := Function.update s.servers c h.server
        net := s.net ++ sent.flatten
        inbox := l₁ ++ l₂ }
  | response {s : State n} {l₁ l₂ : List (ℤ × Message NDArray)} {w : Fin n}
      {m : Message NDArray} {key : ℕ} (hinbox : s.inbox = l₁ ++ (workerRankToID w, m) :: l₂)
      (hkey : hasKey key m = true) :
      Step sys ok s { s with
        inbox := l₁ ++ l₂
        received := count s.received (s.workerIter w) key w }
  | other {s : State n} {c : Fin n} {m : Message NDArray} (hpush : m.push = false)
      (hiters : m.iters ≤ 0 ∨ m.iters = kEmpty) :
      Step sys ok s { s with
        vans := Function.update s.vans (serverRankToID c)
          ((s.kvs c).refresh (s.vans (serverRankToID c)) m).2
        kvs := Function.update s.kvs c ((s.kvs c).refresh (s.vans (serverRankToID c)) m).1 }

/-- A push that another server has sent reaches its server `c` only when no release with a
policy for `c` is in flight. -/
def InOrder {n : ℕ} (s : State n) (m : Message NDArray) : Prop :=
  m.request = true → m.dst = m.recver → ∀ c row, (c, row) ∈ s.releases → row ≠ [] →
    m.recver = serverRankToID c → m.sender_ = workerRankToID c

end PolicySwitch

end NetStorm

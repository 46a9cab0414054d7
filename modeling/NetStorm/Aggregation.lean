import NetStorm.KVStoreDistServer
import NetStorm.Multicast
import NetStorm.Library.Convergecast

/-!
# Aggregation of one key over a tree

The system of workers and servers, as far as one ps key is concerned. A worker sends its
push of a round when it has the response of the round before; messages in flight are
received in any order, and so are the messages that wait for a handler. Pulls, and pushes
of keys with other slots, may be handled in between.
-/
namespace NetStorm.Aggregation
open Scheduler

/-- The pushes of a key: gradient and bookkeeping of worker `w` in round `r`. -/
structure Job (n ℓ : ℕ) where
  key : ℕ
  root : Fin n
  grad : Fin n → ℕ → Fin ℓ → ℚ
  appId : ℤ
  customerId : ℤ
  cmd : ℤ
  sizeof : ℕ
  timestamp : Fin n → ℕ → ℤ
  keyVersion : Fin n → ℕ → ℤ
  tree : Fin n → ℕ → ℤ

/-- The push message of worker `w` in round `r`. -/
def Job.pushMsg {n ℓ : ℕ} (job : Job n ℓ) (v : Van) (w : Fin n) (r : ℕ) : Message NDArray :=
  v.kvWorkerMsg job.appId job.customerId (job.timestamp w r) true job.cmd job.root
    (job.keyVersion w r) (job.tree w r) job.key
    ⟨[job.key], List.ofFn (job.grad w r), [((ℓ * job.sizeof : ℕ) : ℤ)]⟩

/-- The vans, the servers with their stores, the messages in flight and those given to
`ProcessDataMsg`, the pushes sent and responses received by every worker, and the updates
of the key with the server that made them. -/
structure State (n : ℕ) where
  vans : ℤ → Van
  kvs : Fin n → KVServer
  servers : Fin n → KVStoreDistServer
  net : List (Message NDArray)
  inbox : List (ℤ × Message NDArray)
  sent : Fin n → ℕ
  received : Fin n → ℕ
  updates : List (Fin n × NDArray)

/-- One step of the system. -/
inductive Step {n ℓ : ℕ} (job : Job n ℓ) (cfg : Fin n → StoreConfig) : State n → State n → Prop
  | push {s : State n} {w : Fin n} {m : Message NDArray} (hgate : s.sent w = s.received w)
      (hsend : (s.vans (workerRankToID w)).send
        (job.pushMsg (s.vans (workerRankToID w)) w (s.sent w)) = some m) :
      Step job cfg s { s with
        net := s.net ++ [m]
        sent := Function.update s.sent w (s.sent w + 1) }
  | deliver {s : State n} {l₁ l₂ : List (Message NDArray)} {m : Message NDArray}
      (hnet : s.net = l₁ ++ m :: l₂) (queue : ℤ → ℕ) (queues : ℕ → ℤ → ℕ) {v : Van}
      {out : Dispatch NDArray} {sent : List (Message NDArray)}
      {acc : List (ℤ × Message NDArray)}
      (hreceive : (s.vans m.recver).receiving queue ((s.vans m.recver).recvMsg m) = some (v, out))
      (hperform : v.perform queues out = some (sent, acc)) :
      Step job cfg s { s with
        vans := Function.update s.vans m.recver v
        net := l₁ ++ l₂ ++ sent
        inbox := s.inbox ++ acc }
  | handle {s : State n} {l₁ l₂ : List (ℤ × Message NDArray)} {c : Fin n} {m : Message NDArray}
      (hinbox : s.inbox = l₁ ++ (serverRankToID c, m) :: l₂) (unset : ℤ) (queue : ℤ → ℕ)
      (queues : ℕ → ℤ → ℕ) {kv : KVServer} {v : Van} {h : Handled}
      {sent : List (List (Message NDArray))}
      (hprocess : (s.kvs c).process (cfg c) (s.vans (serverRankToID c)) unset (s.servers c) m =
        some (kv, v, h))
      (hcalls : h.calls.mapM (kv.call v queue queues) = some sent) :
      Step job cfg s { s with
        vans := Function.update s.vans (serverRankToID c) v
        kvs := Function.update s.kvs c kv
        servers := Function.update s.servers c h.server
        net := s.net ++ sent.flatten
        inbox := l₁ ++ l₂
        updates := s.updates ++ h.updated.toList.map (c, ·) }
  | response {s : State n} {l₁ l₂ : List (ℤ × Message NDArray)} {w : Fin n}
      {m : Message NDArray} (hinbox : s.inbox = l₁ ++ (workerRankToID w, m) :: l₂) :
      Step job cfg s { s with
        inbox := l₁ ++ l₂
        received := Function.update s.received w (s.received w + 1) }
  | other {s : State n} {c : Fin n} {req : KVMeta} {data : KVPairs NDArray} {h : Handled}
      (hslot : req.push = true → ∀ k ∈ data.keys, slot k ≠ slot job.key)
      (hhandle : (cfg c).dataHandleDefault (s.servers c) (s.kvs c).sons req data = some h) :
      Step job cfg s { s with servers := Function.update s.servers c h.server }

/-- The request list of the key at server `c`. -/
def State.requests {n ℓ : ℕ} (job : Job n ℓ) (s : State n) (c : Fin n) : List KVMeta :=
  ((s.servers c).updateBuf (slot job.key)).request

end NetStorm.Aggregation

import NetStorm.Van

/-!
# The key-value server and worker of ps-lite

`KVServer` keeps its own copy of the parents and sons of the van and hands requests to
the handler of the store. Reading outside a vector and failing a `CHECK` is `none`.
`KVWorker` sends a request for every server whose range its keys reach into.
-/
namespace NetStorm

/-- `KVMeta`, without the fields nobody sets. -/
structure KVMeta where
  cmd : ℤ
  push : Bool
  sender : ℤ
  timestamp : ℤ
  customerId : ℤ
  version : ℤ
  numMerge : ℤ
  tree : ℤ
deriving DecidableEq

/-- `KVServer`: the application id and the tables `parents` and `sons`. -/
structure KVServer where
  appId : ℤ
  parents : List ℤ
  sons : List (List ℤ)
  iters : ℤ

section Requests
variable {V : Type}

/-- `KVServer::RelationUpdate`, which also sets the flag of the van. -/
def KVServer.relationUpdate (kv : KVServer) (v : Van) : KVServer × Van :=
  if v.initFlag = false then
    ({ kv with parents := v.parents, sons := v.sons }, { v with initFlag := true })
  else (kv, v)

/-- The update of the relations at the head of `KVServer::Process`. -/
def KVServer.refresh (kv : KVServer) (v : Van) (msg : Message V) : KVServer × Van :=
  if msg.iters ≠ kv.iters ∧ v.initFlag = false then
    { kv with iters := msg.iters }.relationUpdate v.relationUpdate
  else (kv, v)

/-- The request that `KVServer::Process` reads out of a message. A message without a
tree leaves the field `tree` of the request as `unset`. -/
def Message.kvMeta (unset : ℤ) (msg : Message V) : KVMeta where
  cmd := msg.head
  push := msg.push
  sender := msg.sender_
  timestamp := msg.timestamp
  customerId := msg.customerId
  version := msg.version
  numMerge := msg.iters
  tree := msg.tree.headD unset

/-- The message of `KVWorker::Send` for server `i`. The tree of a push is `0` for the first
key of a new version and `1` for the others. -/
def Van.kvWorkerMsg (v : Van) (appId customerId timestamp : ℤ) (push : Bool) (cmd : ℤ) (i : ℕ)
    (keyVersion tree : ℤ) (keyData : ℕ) (kvs : KVPairs V) : Message V where
  appId := appId
  customerId := customerId
  request := true
  push := push
  head := cmd
  timestamp := timestamp
  tree := [tree]
  recver := serverRankToID i
  version := i
  iters := if v.myId = 9 then keyVersion - 1 else keyVersion
  sender := v.myId
  sender_ := v.myId
  keyData := keyData
  data := if kvs.keys = [] then none else some kvs

/-- The lengths of a request match its keys. -/
def Message.dataOk (msg : Message V) : Bool :=
  match msg.data with
  | none => true
  | some d => d.lens.isEmpty || d.lens.length == d.keys.length

/-- The data of a response: keys, values and lengths are attached if there are keys. -/
def KVPairs.attach (res : KVPairs V) : Option (KVPairs V) :=
  if res.keys = [] then none else some res

/-- The message of `KVServer::Push`, for the parent in the tree of the key's root. -/
def KVServer.pushMsg (kv : KVServer) (v : Van) (req : KVMeta) (res : KVPairs V) :
    Option (Message V) := do
  let parent ← vectorAt kv.parents req.version
  some { appId := kv.appId
         customerId := req.customerId
         request := true
         push := req.push
         head := req.cmd
         timestamp := if req.sender = 9 then req.timestamp - 1 else req.timestamp
         recver := parent
         iters := req.numMerge
         version := req.version
         sender := v.myId
         sender_ := v.myId
         tree := [req.tree]
         data := res.attach }

/-- `KVServer::Push`. -/
def KVServer.push (kv : KVServer) (v : Van) (queue : ℤ → ℕ) (req : KVMeta) (res : KVPairs V) :
    Option (Message V) := do
  let msg ← kv.pushMsg v req res
  v.push queue msg

/-- The message of `KVServer::Response`. -/
def KVServer.responseMsg (kv : KVServer) (v : Van) (req : KVMeta) (res : Option (KVPairs V)) :
    Message V where
  appId := kv.appId
  customerId := req.customerId
  request := false
  push := req.push
  head := req.cmd
  timestamp := req.timestamp
  recver := req.sender
  sender := v.myId
  sender_ := v.myId
  data := res.bind KVPairs.attach

/-- `KVServer::Response`. -/
def KVServer.response (kv : KVServer) (v : Van) (queue : ℤ → ℕ) (req : KVMeta)
    (res : Option (KVPairs V)) : Option (Message V) :=
  v.push queue (kv.responseMsg v req res)

/-- The message of `KVServer::ResponseAll` for one son; `key` is `res.keys[0]`. -/
def KVServer.responseAllMsg (kv : KVServer) (v : Van) (req : KVMeta) (res : KVPairs V) (key : ℕ)
    (son : ℤ) : Message V where
  appId := kv.appId
  customerId := req.customerId
  request := false
  push := req.push
  head := req.cmd
  timestamp := if req.sender = 9 then req.timestamp - 1 else req.timestamp
  recver := son
  sender := v.myId
  sender_ := v.myId
  keyData := key
  tree := [-1]
  data := res.attach

/-- `KVServer::ResponseAll`; the queues may change between two of its pushes. -/
def KVServer.responseAll (kv : KVServer) (v : Van) (queue : ℕ → ℤ → ℕ) (req : KVMeta)
    (res : KVPairs V) : Option (List (Message V)) := do
  let sons ← vectorAt kv.sons ((v.myId - 8).tdiv 2)
  sons.zipIdx.mapM fun (son, k) => do
    let key ← res.keys[0]?
    v.push (queue k) (kv.responseAllMsg v req res key son)

end Requests

end NetStorm

import NetStorm.Message

/-!
# The van of a worker or server

A message leaves its origin with the rest of its path in `route`, last node first.
`Add_trace` and `Push` write it, every server on the way takes one node off its end.
An operation that would index outside a vector has no result. The acknowledgements of
the flow control (`RecvReply`, `EnableSendCheck`) travel beside these messages and
change none of them.
-/
namespace NetStorm

/-- `Node::Role`. -/
inductive Role
  | server | worker | scheduler
deriving DecidableEq, Repr

/-- The state of a van. `route` is `route[0]` of the source, by rank of destination. -/
structure Van where
  myId : ℤ
  role : Role
  route : List (List (List ℤ))
  parents : List ℤ
  sons : List (List ℤ)
  parentsTemp : List ℤ
  sonsTemp : List (List ℤ)
  iters : ℤ
  initFlag : Bool
  keyTimestamp : ℕ → ℤ
  secondQueueLimit : ℕ

/-- Access to a vector by an `int`. -/
def vectorAt {α : Type*} (l : List α) (i : ℤ) : Option α :=
  if i < 0 then none else l[i.toNat]?

/-- `(dst%2 ? (dst-9) : (dst-8)) / 2`, the rank of a server or worker. -/
def rankOfId (dst : ℤ) : ℤ := (if dst.tmod 2 ≠ 0 then dst - 9 else dst - 8).tdiv 2

section Routing
variable {V : Type}

/-- The loop that appends a path to `route` from its last node down to its second, and
`recver` read off the end. The counter of the loop wraps around on an empty path. -/
def Message.follow (msg : Message V) (path : List ℤ) : Option (Message V) :=
  if path = [] then none
  else do
    let route := msg.route ++ path.tail.reverse.map (Int.cast : ℤ → ℚ)
    let back ← route.getLast?
    some { msg with route := route, recver := truncInt back }

/-- `Van::Add_trace`. -/
def Van.addTrace (v : Van) (msg : Message V) : Option (Message V) :=
  let dst := if msg.dst = kEmpty then msg.recver else msg.dst
  let msg := { msg with
    dst := dst
    cmd := .reply1
    priority := 0
    sender := if msg.sender = kEmpty then v.myId else msg.sender
    sender_ := if msg.sender_ = kEmpty then v.myId else msg.sender_
    lastHop := v.myId }
  if v.role = .worker then some { msg with recver := v.myId - 1 }
  else if dst = v.myId + 1 then some { msg with recver := dst }
  else do
    let paths ← vectorAt v.route (rankOfId dst)
    let path ← paths[0]?
    msg.follow path

/-- `Van::Send`, called directly by workers and by `SimpleApp`. -/
def Van.send (v : Van) (msg : Message V) : Option (Message V) :=
  if (v.role = .worker ∨ v.role = .server) ∧ msg.cmd = .empty then v.addTrace msg else some msg

/-- The loop of `Push` over the auxiliary paths, given the sizes of the send queues. -/
def Van.auxiliary (v : Van) (queue : ℤ → ℕ) (msg : Message V) :
    List (List ℤ) → Option (Message V)
  | [] => some msg
  | path :: rest => do
    let temp ← path[1]?
    if 2 * v.secondQueueLimit < queue msg.recver ∧ queue temp < v.secondQueueLimit then
      Message.follow { msg with route := [] } path
    else v.auxiliary queue msg rest

/-- `Van::Push`: the message as it is put in the queue of its `recver`. -/
def Van.push (v : Van) (queue : ℤ → ℕ) (msg : Message V) : Option (Message V) :=
  if v.role = .server ∧ (msg.cmd = .empty ∨ (msg.sender_ = v.myId + 1 ∧ msg.cmd = .reply1)) then do
    let msg ← if msg.cmd = .empty then v.addTrace msg else some msg
    if msg.dst ≠ v.myId + 1 then
      let paths ← vectorAt v.route (rankOfId msg.dst)
      v.auxiliary queue msg paths.tail
    else some msg
  else some msg

/-- `RecvMsg`: the meta information of a received message names the node that sent it
last and the receiving node. -/
def Van.recvMsg (v : Van) (msg : Message V) : Message V :=
  { msg with sender := msg.lastHop, recver := v.myId }

/-- `Van::RelationUpdate`. -/
def Van.relationUpdate (v : Van) : Van :=
  { v with parents := v.parentsTemp, sons := v.sonsTemp }

/-- What a handler of the van does with a message: put it in a send queue, or call
`ProcessDataMsg` or `ProcessReply2Command` with it. -/
inductive Dispatch (V : Type)
  | queued (msg : Message V)
  | dataMsg (msg : Message V)
  | reply2 (msg : Message V)
deriving DecidableEq

/-- `Van::ProcessReply1Command`. -/
def Van.processReply1Command (v : Van) (queue : ℤ → ℕ) (msg : Message V) :
    Option (Van × Dispatch V) :=
  let msg := { msg with lastHop := v.myId }
  if msg.route = [] then
    if msg.iters ≠ 0 ∧ msg.push = true ∧ msg.request = true then
      let v := if msg.iters ≠ v.iters ∧ v.initFlag = false then
          { v with iters := msg.iters }.relationUpdate else v
      some (v, .dataMsg { msg with dst := msg.recver })
    else do
      let paths ← vectorAt v.route ((msg.dst - 8).tdiv 2)
      let path ← paths[0]?
      let msg ← msg.follow path
      let msg ← v.push queue msg
      some (v, .queued msg)
  else if msg.dst = v.myId + 1 then
    if msg.tree ≠ [] then some (v, .reply2 msg)
    else do
      let msg ← v.push queue { msg with recver := msg.dst }
      some (v, .queued msg)
  else do
    let route := msg.route.dropLast
    let back ← route.getLast?
    let msg ← v.push queue { msg with route := route, recver := truncInt back }
    some (v, .queued msg)

/-- `Van::Receiving` on a message between workers and servers; the other commands are
no business of source routing. -/
def Van.receiving (v : Van) (queue : ℤ → ℕ) (msg : Message V) : Option (Van × Dispatch V) :=
  match msg.cmd with
  | .empty => some (v, .dataMsg msg)
  | .reply1 =>
    if msg.dst ≠ v.myId then v.processReply1Command queue msg else some (v, .dataMsg msg)
  | .reply2 => some (v, .reply2 msg)
  | _ => none

/-- `Van::ProcessDataMsg`, up to the message handed to the customer. -/
def Van.processDataMsg (v : Van) (msg : Message V) : Option (Message V) :=
  let msg := if msg.cmd = .reply1 then
      let msg := { msg with dst := kEmpty, cmd := .empty }
      let msg := if msg.tree ≠ [] ∧ v.myId = 9 then
        { msg with timestamp := msg.timestamp + 1 } else msg
      if v.role = .worker ∧ msg.data.isSome then
        { msg with timestamp := v.keyTimestamp msg.keyData } else msg
    else msg
  if msg.sender = kEmpty ∨ msg.recver = kEmpty ∨ msg.appId = kEmpty then none else some msg

/-- The copy of a response that `ProcessReply2Command` makes for one son. -/
def Message.relay (msg : Message V) (son : ℤ) : Message V where
  appId := msg.appId
  customerId := msg.customerId
  request := msg.request
  push := msg.push
  head := msg.head
  timestamp := msg.timestamp
  recver := son
  sender := msg.sender
  sender_ := msg.sender_
  tree := [-1]
  keyData := msg.keyData
  data := msg.data

/-- `Van::ProcessReply2Command`; the queues may change between two of its pushes. -/
def Van.processReply2Command (v : Van) (queue : ℕ → ℤ → ℕ) (msg : Message V) :
    Option (List (Message V)) := do
  let sons ← vectorAt v.sons ((msg.sender_ - 8).tdiv 2)
  sons.zipIdx.mapM fun (son, k) => v.push (queue k) (msg.relay son)

/-- What the end of a handler adds to the network, and the messages that it gives to
`ProcessDataMsg` with the id of the node. -/
def Van.perform (v : Van) (queue : ℕ → ℤ → ℕ) :
    Dispatch V → Option (List (Message V) × List (ℤ × Message V))
  | .queued msg => some ([msg], [])
  | .dataMsg msg => some ([], [(v.myId, msg)])
  | .reply2 msg => (v.processReply2Command queue msg).map (·, [])

end Routing

end NetStorm

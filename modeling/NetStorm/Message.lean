import NetStorm.Node

/-!
# Messages

The fields of `Meta` that routing, aggregation and the switch of policies read. The
body of a command, the time stamps of the speed measurement and the node lists of the
start-up protocol are carried by no modelled function. The data of a message is
absent, or a block of keys, values and, when not empty, lengths.
-/
namespace NetStorm

/-- `Control::Command`. -/
inductive Command
  | empty | terminate | addNode | barrier | ack | heartbeat | autoPullRpy | ask | reply | ask1
  | reply1 | reportEth | reportReply | routePolicy | routeRelease | recvReply | speedReport
  | reply2
deriving DecidableEq, Repr

/-- `Meta`, with the defaults of its constructor. -/
structure Meta where
  head : ℤ := kEmpty
  appId : ℤ := kEmpty
  customerId : ℤ := kEmpty
  timestamp : ℤ := kEmpty
  sender : ℤ := kEmpty
  recver : ℤ := kEmpty
  request : Bool := false
  push : Bool := false
  simpleApp : Bool := false
  version : ℤ := kEmpty
  iters : ℤ := kEmpty
  sender_ : ℤ := kEmpty
  dst : ℤ := kEmpty
  priority : ℤ := kEmpty
  lastHop : ℤ := kEmpty
  keyData : ℕ := 0
  route : List ℚ := []
  tree : List ℤ := []
  cmd : Command := .empty
deriving DecidableEq

/-- `KVPairs`. The values of all keys are one array, an element of `V`. -/
structure KVPairs (V : Type) where
  keys : List ℕ
  vals : V
  lens : List ℤ
deriving DecidableEq

/-- `Message`: the meta information and the optional data. -/
structure Message (V : Type) extends Meta where
  data : Option (KVPairs V) := none
deriving DecidableEq

end NetStorm

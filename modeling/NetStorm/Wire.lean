import NetStorm.Library.IntegerRounding
import NetStorm.Library.OptionTable
import NetStorm.Van

/-!
# Messages on the wire

`PackMeta` and `UnpackMeta`, with the protocol buffer between them. Fields of the buffer that
are not set are absent, and reading them gives the default of their type. Serialisation and
parsing of the buffer are inverse to each other and left out. A conversion of a float to
`int` outside the range of `int` has no result.
-/
namespace NetStorm
open IntegerRounding

/-- `DataType`. -/
inductive DataType
  | char | int8 | int16 | int32 | int64 | uint8 | uint16 | uint32 | uint64 | float | double | other
deriving DecidableEq, Repr

/-- The data types in the order of their numbers. -/
def DataType.all : List DataType :=
  [.char, .int8, .int16, .int32, .int64, .uint8, .uint16, .uint32, .uint64, .float, .double, .other]

/-- The commands in the order of their numbers. -/
def Command.all : List Command :=
  [.empty, .terminate, .addNode, .barrier, .ack, .heartbeat, .autoPullRpy, .ask, .reply, .ask1,
    .reply1, .reportEth, .reportReply, .routePolicy, .routeRelease, .recvReply, .speedReport,
    .reply2]

/-- The roles in the order of their numbers. -/
def Role.all : List Role := [.server, .worker, .scheduler]

/-- The number of an enumerator. -/
def enumToInt {α : Type} [BEq α] (all : List α) (a : α) : ℤ := all.idxOf a

/-- `Node`. -/
structure Node where
  role : Role
  id : ℤ := kEmpty
  customerId : ℤ
  hostname : String
  port : ℤ := kEmpty
  isRecovery : Bool := false
  idBackup : ℤ := kEmpty
deriving DecidableEq

/-- `Meta` with all its fields: those of routing, and `key`, `start_time` (its 64 bits),
`body`, `data_type` and the rest of `Control`. -/
structure WireMeta extends Meta where
  key : ℤ := kEmpty
  startTime : BitVec 64
  body : List UInt8 := []
  dataType : List DataType := []
  node : List Node := []
  barrierGroup : ℤ
  msgSig : UInt64
deriving DecidableEq

/-- `PBNode`. -/
structure PBNode where
  role : ℤ
  id : Option ℤ
  hostname : Option String
  port : Option ℤ
  isRecovery : Option Bool
  customerId : Option ℤ
  idBackup : Option ℤ

/-- `PBControl`. -/
structure PBControl where
  cmd : ℤ
  node : List PBNode
  barrierGroup : Option ℤ
  msgSig : Option UInt64

/-- `PBMeta`. -/
structure PBMeta where
  head : Option ℤ
  body : Option (List UInt8)
  control : Option PBControl
  request : Option Bool
  appId : Option ℤ
  timestamp : Option ℤ
  dataType : List ℤ
  customerId : Option ℤ
  push : Option Bool
  simpleApp : Option Bool
  key : Option ℤ
  version : Option ℤ
  iters : Option ℤ
  sender_ : Option ℤ
  dst : Option ℤ
  route : List ℚ
  priority : Option ℤ
  lastHop : Option ℤ
  tree : List ℤ
  keyData : Option ℕ
  startTime : Option (BitVec 64)

/-- `if (x != Meta::kEmpty) pb.set_…(x)`. -/
def setUnlessEmpty (x : ℤ) : Option ℤ := if x = kEmpty then none else some x

/-- The loop body of `PackMeta` over the nodes. -/
def Node.pack (n : Node) : PBNode where
  role := enumToInt Role.all n.role
  id := some n.id
  hostname := some n.hostname
  port := some n.port
  isRecovery := some n.isRecovery
  customerId := some n.customerId
  idBackup := some n.idBackup

/-- `Van::PackMeta`. -/
def packMeta (m : WireMeta) : PBMeta where
  head := some m.head
  sender_ := setUnlessEmpty m.sender_
  appId := setUnlessEmpty m.appId
  timestamp := setUnlessEmpty m.timestamp
  version := setUnlessEmpty m.version
  key := setUnlessEmpty m.key
  iters := setUnlessEmpty m.iters
  dst := setUnlessEmpty m.dst
  priority := setUnlessEmpty m.priority
  lastHop := setUnlessEmpty m.lastHop
  body := if m.body = [] then none else some m.body
  push := some m.push
  request := some m.request
  simpleApp := some m.simpleApp
  customerId := some m.customerId
  keyData := some m.keyData
  startTime := some m.startTime
  dataType := m.dataType.map (enumToInt DataType.all)
  route := m.route
  tree := m.tree
  control := if m.cmd = .empty then none else some {
    cmd := enumToInt Command.all m.cmd
    barrierGroup := if m.cmd = .barrier then some m.barrierGroup else none
    msgSig := if m.cmd = .ack then some m.msgSig else none
    node := m.node.map Node.pack }

/-- The conversion of an `int` to `float` and of that back to `int`. -/
def throughFloat (x : ℤ) : Option ℤ :=
  if -2 ^ 31 ≤ roundInt 24 x ∧ roundInt 24 x < 2 ^ 31 then some (roundInt 24 x) else none

/-- The loop body of `UnpackMeta` over the nodes. -/
def PBNode.unpack (p : PBNode) : Option Node := do
  let role ← vectorAt Role.all p.role
  some {
    role := role
    port := p.port.getD 0
    hostname := p.hostname.getD ""
    id := p.id.getD kEmpty
    isRecovery := p.isRecovery.getD false
    customerId := p.customerId.getD 0
    idBackup := p.idBackup.getD kEmpty }

/-- `Van::UnpackMeta` into the fields of `init`. -/
def unpackMeta (init : WireMeta) (pb : PBMeta) : Option WireMeta := do
  let tree ← pb.tree.mapM throughFloat
  let dataType ← pb.dataType.mapM (vectorAt DataType.all)
  let m : WireMeta := { init with
    sender_ := pb.sender_.getD kEmpty
    key := pb.key.getD kEmpty
    version := pb.version.getD kEmpty
    iters := pb.iters.getD kEmpty
    dst := pb.dst.getD kEmpty
    priority := pb.priority.getD kEmpty
    lastHop := pb.lastHop.getD kEmpty
    head := pb.head.getD 0
    appId := pb.appId.getD kEmpty
    timestamp := pb.timestamp.getD kEmpty
    request := pb.request.getD false
    push := pb.push.getD false
    simpleApp := pb.simpleApp.getD false
    body := pb.body.getD []
    customerId := pb.customerId.getD 0
    keyData := pb.keyData.getD 0
    startTime := pb.startTime.getD 0
    route := pb.route
    tree := tree
    dataType := dataType }
  match pb.control with
  | none => some { m with cmd := .empty }
  | some ctrl => do
    let cmd ← vectorAt Command.all ctrl.cmd
    let node ← ctrl.node.mapM PBNode.unpack
    some { m with
      cmd := cmd
      barrierGroup := ctrl.barrierGroup.getD 0
      msgSig := ctrl.msgSig.getD 0
      node := init.node ++ node }

/-- What the wire has to keep of a message. -/
structure SameOnWire (m m' : WireMeta) : Prop where
  ints : [m'.head, m'.sender_, m'.appId, m'.customerId, m'.timestamp, m'.key, m'.version, m'.iters,
    m'.dst, m'.priority, m'.lastHop] = [m.head, m.sender_, m.appId, m.customerId, m.timestamp, m.key,
    m.version, m.iters, m.dst, m.priority, m.lastHop]
  flags : [m'.push, m'.request, m'.simpleApp] = [m.push, m.request, m.simpleApp]
  body : m'.body = m.body
  keyData : m'.keyData = m.keyData
  startTime : m'.startTime = m.startTime
  dataType : m'.dataType = m.dataType
  route : m'.route = m.route
  tree : m'.tree = m.tree
  cmd : m'.cmd = m.cmd
  node : m.cmd ≠ .empty → m'.node = m.node
  barrierGroup : m.cmd = .barrier → m'.barrierGroup = m.barrierGroup
  msgSig : m.cmd = .ack → m'.msgSig = m.msgSig

theorem DataType.ofInt_toInt (d : DataType) : vectorAt all (enumToInt all d) = some d := by
  cases d <;> rfl

theorem Command.ofInt_toInt (c : Command) : vectorAt all (enumToInt all c) = some c := by
  cases c <;> rfl

theorem Role.ofInt_toInt (r : Role) : vectorAt all (enumToInt all r) = some r := by
  cases r <;> rfl

@[simp] theorem getD_setUnlessEmpty (x : ℤ) : (setUnlessEmpty x).getD kEmpty = x := by
  rw [setUnlessEmpty]
  split_ifs with h
  · exact h.symm
  · rfl

theorem Node.unpack_pack (n : Node) : n.pack.unpack = some n := by
  simp only [Node.pack, PBNode.unpack, Role.ofInt_toInt, Option.bind_eq_bind, Option.bind_some,
    Option.getD_some]

/-- An `int` survives the way through `float` exactly if `float` holds it. -/
theorem throughFloat_eq_some_self_iff {x : ℤ} (hx : -2 ^ 31 ≤ x ∧ x < 2 ^ 31) :
    throughFloat x = some x ↔ Representable 24 x := by
  rw [← roundInt_eq_self_iff, throughFloat]
  constructor
  · intro h
    split_ifs at h
    exact Option.some.inj h
  · intro h
    rw [h, if_pos hx]

/-- A message is unpacked from its buffer as soon as its tree is. -/
theorem unpackMeta_packMeta {init m : WireMeta} (hinit : init.node = []) {tree : List ℤ}
    (htree : m.tree.mapM throughFloat = some tree) :
    ∃ m', unpackMeta init (packMeta m) = some m' ∧ m'.tree = tree ∧
      SameOnWire { m with tree := tree } m' := by
  have hdata : (m.dataType.map (enumToInt DataType.all)).mapM (vectorAt DataType.all) =
      some m.dataType := OptionTable.mapM_map_eq_some_self_iff.mpr fun d _ => d.ofInt_toInt
  have hnode : (m.node.map Node.pack).mapM PBNode.unpack = some m.node :=
    OptionTable.mapM_map_eq_some_self_iff.mpr fun n _ => n.unpack_pack
  have hbody : (if m.body = [] then none else some m.body).getD [] = m.body := by
    split_ifs with h
    · exact h.symm
    · rfl
  by_cases hcmd : m.cmd = .empty
  · simp only [unpackMeta, packMeta, hcmd, if_true, htree, hdata, Option.bind_eq_bind,
      Option.bind_some, Option.some.injEq, exists_eq_left', true_and]
    refine ⟨?_, rfl, hbody, rfl, rfl, rfl, rfl, rfl, rfl, fun h => absurd rfl h, fun h => ?_,
      fun h => ?_⟩
    · simp
    · cases h
    · cases h
  · simp only [unpackMeta, packMeta, hcmd, if_false, htree, hdata, hnode, Command.ofInt_toInt,
      Option.bind_eq_bind, Option.bind_some, Option.some.injEq, exists_eq_left', true_and]
    refine ⟨?_, rfl, hbody, rfl, rfl, rfl, rfl, rfl, rfl, fun _ => ?_, fun h => ?_, fun h => ?_⟩
    · simp
    · rw [hinit, List.nil_append]
    · dsimp only at h
      rw [if_pos h]
      rfl
    · dsimp only at h
      rw [if_pos h]
      rfl

/-- **Messages survive the wire** exactly if `float` holds every entry of the tree. -/
theorem meta_survives_wire_iff (init m : WireMeta) (hinit : init.node = [])
    (hint : ∀ x ∈ m.tree, -2 ^ 31 ≤ x ∧ x < 2 ^ 31) :
    (∃ m', unpackMeta init (packMeta m) = some m' ∧ SameOnWire m m') ↔
      ∀ x ∈ m.tree, Representable 24 x := by
  have htree : m.tree.mapM throughFloat = some m.tree ↔ ∀ x ∈ m.tree, Representable 24 x := by
    have h : (m.tree.map id).mapM throughFloat = some m.tree ↔ _ :=
      OptionTable.mapM_map_eq_some_self_iff
    rw [List.map_id] at h
    rw [h]
    exact forall₂_congr fun x hx => throughFloat_eq_some_self_iff (hint x hx)
  rw [← htree]
  constructor
  · rintro ⟨m', hunpack, hsame⟩
    obtain ⟨tree, htree', -⟩ := Option.bind_eq_some_iff.mp hunpack
    obtain ⟨m'', hunpack', hm'', -⟩ := unpackMeta_packMeta hinit htree'
    obtain rfl := Option.some.inj (hunpack.symm.trans hunpack')
    calc m.tree.mapM throughFloat = some tree := htree'
      _ = some m.tree := by rw [← hm'', hsame.tree]
  · intro h
    obtain ⟨m', hunpack, -, hsame⟩ := unpackMeta_packMeta hinit h
    exact ⟨m', hunpack, hsame⟩

/-- A message with the given tree and nothing else set. -/
def treeMeta (tree : List ℤ) : WireMeta :=
  { tree := tree, startTime := 0, barrierGroup := 0, msgSig := 0 }

/-- The tree of a push survives. -/
theorem meta_survives_wire_push :
    ∃ m', unpackMeta (treeMeta []) (packMeta (treeMeta [1])) = some m' ∧
      SameOnWire (treeMeta [1]) m' := by
  refine (meta_survives_wire_iff (treeMeta []) (treeMeta [1]) rfl (by decide)).mpr fun x hx => ?_
  obtain rfl := List.mem_singleton.mp hx
  exact representable_of_le (by decide) (by decide)

/-- The number `2^24 + 1` in a tree becomes `2^24`. -/
theorem meta_loses_tree_bits :
    (unpackMeta (treeMeta []) (packMeta (treeMeta [16777217]))).map (fun m' => m'.tree) =
        some [16777216] ∧
      ¬ ∃ m', unpackMeta (treeMeta []) (packMeta (treeMeta [16777217])) = some m' ∧
        SameOnWire (treeMeta [16777217]) m' := by
  have hrun : (unpackMeta (treeMeta []) (packMeta (treeMeta [16777217]))).map
      (fun m' => m'.tree) = some [16777216] := by decide +kernel
  refine ⟨hrun, ?_⟩
  rintro ⟨m', hunpack, hsame⟩
  rw [hunpack, Option.map_some, hsame.tree] at hrun
  exact absurd hrun (by decide)

end NetStorm

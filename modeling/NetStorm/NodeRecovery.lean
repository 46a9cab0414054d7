import NetStorm.Barrier
import NetStorm.Wire

/-!
# Registration of nodes at the scheduler

The handler of `ADD_NODE` at the scheduler: nodes register until all workers and servers are
known, and a process that registers later takes the place of a dead node of its role. Sockets
and message timestamps are left out. A failing `CHECK` has no result.
-/
namespace NetStorm.NodeRecovery
open Barrier (Cluster)

/-- The members of the scheduler's van and postoffice that the handler uses. `rankSet` says that
`DMLC_RANK` is in the environment. -/
structure Registry where
  cluster : Cluster
  myNode : Node
  rankSet : Bool := false
  ready : Bool := false
  nodes : List Node := []
  recoveryNodes : List Node := []
  connectedNodes : List ((String × ℤ) × ℤ) := []
  sharedNodeMapping : List (ℤ × ℤ) := []
  numServers : ℕ := 0
  numWorkers : ℕ := 0
  heartbeats : ℤ → Option ℕ := fun _ => none
  startTime : ℕ := 0
  heartbeatTimeout : ℕ

/-- `hostname + ":" + port`. -/
def address (node : Node) : String × ℤ := (node.hostname, node.port)

/-- The checks of `Connect` and `Connect_Eth`. -/
def Connectable (node : Node) : Prop := node.id ≠ kEmpty ∧ node.port ≠ kEmpty ∧ node.hostname ≠ ""

instance (node : Node) : Decidable (Connectable node) := by
  unfold Connectable
  infer_instance

namespace Registry

/-- The number of workers and servers. -/
def numNodes (s : Registry) : ℕ := s.cluster.numServers + s.cluster.numWorkers

/-- `GetNodeIDs(kWorkerGroup + kServerGroup)`. -/
def group (s : Registry) : List ℤ := s.cluster.getNodeIDs 6

/-- `Postoffice::UpdateHeartbeat`. -/
def updateHeartbeat (s : Registry) (id : ℤ) (t : ℕ) : Registry :=
  { s with heartbeats := Function.update s.heartbeats id (some t) }

/-- The test of `Postoffice::GetDeadNodes` for one node. -/
def isDead (s : Registry) (now : ℕ) (r : ℤ) : Bool :=
  (s.heartbeats r).all (fun t => decide (t + s.heartbeatTimeout < now)) &&
    decide (s.startTime + s.heartbeatTimeout < now)

/-- `Postoffice::GetDeadNodes` at the scheduler, at time `now`. -/
def getDeadNodes (s : Registry) (now : ℕ) : List ℤ :=
  if s.ready = false ∨ s.heartbeatTimeout = 0 then [] else s.group.filter (s.isDead now)

/-- The loop of `UpdateLocalID` over the table, whose last entry is the scheduler: the new
process takes the place of the first dead node of its role. -/
def replaceDead (s : Registry) (dead : List ℤ) (node : Node) : Registry × Node :=
  match s.nodes.dropLast.findIdx? fun old => old.id ∈ dead ∧ old.role = node.role with
  | none => (s, node)
  | some i =>
    let node := { node with id := (s.nodes.getD i node).id, isRecovery := true }
    ({ s with nodes := s.nodes.set i node, recoveryNodes := s.recoveryNodes ++ [node] }, node)

/-- The loop body of `UpdateLocalID` that sets the own node. -/
def updateMyId (s : Registry) (node : Node) : Registry :=
  if address s.myNode = address node ∧ (s.rankSet = false ∨ s.myNode.id = kEmpty) then
    { s with myNode := node, rankSet := true }
  else s

/-- `Van::UpdateLocalID` at the scheduler, with the nodes in the message. -/
def updateLocalID (s : Registry) (dead : List ℤ) (sender_ : ℤ) (ctrl : List Node) :
    Option Registry :=
  if sender_ = kEmpty then
    match ctrl with
    | [node] =>
      if s.nodes.length < s.numNodes then
        some ({ s with nodes := s.nodes ++ [node] }.updateMyId node)
      else if s.ready = false then none
      else
        let r := s.replaceDead dead node
        some (r.1.updateMyId r.2)
    | _ => none
  else some (ctrl.foldl updateMyId s)

/-- The order in which the nodes are sorted, as `std::sort` is given it. -/
def sortsBefore (a b : Node) : Bool :=
  decide (b.hostname < a.hostname) || (a.hostname == b.hostname && decide (a.port < b.port))

/-- The loop body that gives a node its id at start-up. -/
def assignId (s : Registry) (t : ℕ) (node : Node) : Option (Registry × Node) :=
  let rankId := if node.role = .server then serverRankToID s.numServers
    else workerRankToID s.numWorkers
  let count (s : Registry) : Registry :=
    match node.role with
    | .server => { s with numServers := s.numServers + 1 }
    | .worker => { s with numWorkers := s.numWorkers + 1 }
    | .scheduler => s
  match s.connectedNodes.lookup (address node) with
  | none =>
    let id := if node.role = .worker ∨ node.role = .server then node.idBackup else rankId
    if node.id = kEmpty ∧ Connectable { node with id := id } then
      some (count { s.updateHeartbeat id t with
        connectedNodes := (address node, id) :: s.connectedNodes }, { node with id := id })
    else none
  | some id =>
    some (count { s with sharedNodeMapping := (rankId, id) :: s.sharedNodeMapping },
      { node with id := id })

/-- The loop over the sorted nodes. -/
def assignIds (t : ℕ) : Registry → List Node → Option (Registry × List Node)
  | s, [] => some (s, [])
  | s, node :: rest => do
    let (s, node) ← s.assignId t node
    let (s, rest) ← assignIds t s rest
    some (s, node :: rest)

/-- `Van::ProcessAddNodeCommandAtScheduler`, with the nodes that it sends and to whom. The clock
is read at `t`, and then by `GetDeadNodes`. -/
def processAddNodeCommandAtScheduler (s : Registry) (t now : ℕ) :
    Option (Registry × List (ℤ × List Node)) :=
  if s.nodes.length = s.numNodes then do
    let sorted := s.nodes.mergeSort fun a b => !sortsBefore b a
    let (s, assigned) ← assignIds t s sorted
    let s := { s with nodes := assigned ++ [s.myNode], ready := true }
    let recvers := s.group.filter fun r => (s.sharedNodeMapping.lookup r).isNone
    some (s, recvers.map fun r => (r, s.nodes))
  else
    match s.recoveryNodes with
    | [] => some (s, [])
    | [node] =>
      let dead := s.getDeadNodes now
      if Connectable node then
        let s := s.updateHeartbeat node.id t
        let recvers := s.group.filter fun r => ¬ (r ≠ node.id ∧ r ∈ dead)
        some (s, recvers.map fun r => (r, if r = node.id then s.nodes else s.recoveryNodes))
      else none
    | _ => none

/-- `Van::ProcessAddNodeCommand` at the scheduler, which reads the clock three times. -/
def processAddNodeCommand (s : Registry) (sender_ : ℤ) (ctrl : List Node) (now₁ t now₂ : ℕ) :
    Option (Registry × List (ℤ × List Node)) := do
  let s ← s.updateLocalID (s.getDeadNodes now₁) sender_ ctrl
  s.processAddNodeCommandAtScheduler t now₂

/-- The scheduler after start-up: the table has one entry for every worker and server, and its
own at the end. -/
structure Started (s : Registry) : Prop where
  ready : s.ready = true
  table : ∃ table, s.nodes = table ++ [s.myNode] ∧ (table.map Node.id).Perm s.group
  myId : s.myNode.id = kScheduler
  ids : ∀ r ∈ s.group, r ≠ kEmpty
  recoveryNodes : s.recoveryNodes = []

theorem group_eq (s : Registry) : s.group =
    (List.range s.cluster.numWorkers).map workerRankToID ++
      (List.range s.cluster.numServers).map serverRankToID := by
  simp [group, Cluster.getNodeIDs, show Nat.testBit 6 2 = true by decide,
    show Nat.testBit 6 1 = true by decide]

theorem length_group (s : Registry) : s.group.length = s.numNodes := by
  simp [group_eq, numNodes, Nat.add_comm]

theorem kScheduler_notMem_group (s : Registry) : kScheduler ∉ s.group := by
  simp only [group_eq, List.mem_append, List.mem_map, kScheduler, workerRankToID, serverRankToID]
  rintro (⟨i, -, hi⟩ | ⟨i, -, hi⟩) <;> omega

namespace Started
variable {s : Registry}

theorem length_nodes (h : Started s) : s.nodes.length = s.numNodes + 1 := by
  obtain ⟨table, hnodes, hperm⟩ := h.table
  have hlen := hperm.length_eq
  rw [List.length_map, length_group] at hlen
  rw [hnodes, List.length_append, hlen, List.length_singleton]

theorem nodup_ids (h : Started s) : (s.nodes.map Node.id).Nodup := by
  obtain ⟨table, hnodes, hperm⟩ := h.table
  rw [hnodes, List.map_append, List.map_singleton, h.myId, List.nodup_append]
  refine ⟨hperm.nodup_iff.mpr (s.cluster.nodup_getNodeIDs 6), List.nodup_singleton _, ?_⟩
  rintro a ha b hb rfl
  rw [List.mem_singleton.mp hb, hperm.mem_iff] at ha
  exact kScheduler_notMem_group s ha

end Started

theorem mem_group_of_dead {s : Registry} {now : ℕ} {r : ℤ} (h : r ∈ s.getDeadNodes now) :
    r ∈ s.group := by
  rw [getDeadNodes] at h
  split at h
  · cases h
  · exact (List.mem_filter.mp h).1

/-- The first dead node of the role is replaced. -/
theorem replaceDead_spec {s : Registry} {dead : List ℤ} {node : Node}
    (h : ∃ old ∈ s.nodes.dropLast, old.id ∈ dead ∧ old.role = node.role) :
    ∃ i old, s.nodes[i]? = some old ∧ old ∈ s.nodes.dropLast ∧ old.id ∈ dead ∧
      old.role = node.role ∧
      s.replaceDead dead node =
        ({ s with
          nodes := s.nodes.set i { node with id := old.id, isRecovery := true }
          recoveryNodes := s.recoveryNodes ++ [{ node with id := old.id, isRecovery := true }] },
        { node with id := old.id, isRecovery := true }) := by
  cases hfind : s.nodes.dropLast.findIdx? fun old => old.id ∈ dead ∧ old.role = node.role with
  | none =>
    obtain ⟨old, hmem, hdead, hrole⟩ := h
    have hall := List.findIdx?_eq_none_iff.mp hfind old hmem
    simp [hdead, hrole] at hall
  | some i =>
    obtain ⟨hi, hp, -⟩ := List.findIdx?_eq_some_iff_getElem.mp hfind
    have hlt : i < s.nodes.length := by
      rw [List.length_dropLast] at hi
      omega
    have hget : s.nodes.dropLast[i] = s.nodes[i] := List.getElem_dropLast ..
    have hmem : s.nodes[i] ∈ s.nodes.dropLast := hget ▸ List.getElem_mem hi
    rw [hget, decide_eq_true_iff] at hp
    refine ⟨i, s.nodes[i], List.getElem?_eq_getElem hlt, hmem, hp.1, hp.2, ?_⟩
    simp only [replaceDead, hfind, List.getD_eq_getElem?_getD, List.getElem?_eq_getElem hlt,
      Option.getD_some]

/-- A new process of the role of a dead node, on an address of its own. -/
structure Restart (s : Registry) (node : Node) (now : ℕ) : Prop where
  dead : ∃ old ∈ s.nodes.dropLast, old.id ∈ s.getDeadNodes now ∧ old.role = node.role
  address : address s.myNode ≠ address node
  port : node.port ≠ kEmpty
  hostname : node.hostname ≠ ""

/-- What a restart should do: the new process has the id of a dead node of its role and its
place in the table, which keeps its ids; the table is sent to the new process and the entry of
the new process to all nodes that are alive, once each. -/
structure Recovered (s : Registry) (node : Node) (now₁ now₂ : ℕ) (s' : Registry)
    (out : List (ℤ × List Node)) (old : Node) : Prop where
  mem : old ∈ s.nodes.dropLast
  dead : old.id ∈ s.getDeadNodes now₁
  role : old.role = node.role
  entry : { node with id := old.id, isRecovery := true } ∈ s'.nodes
  ids : s'.nodes.map Node.id = s.nodes.map Node.id
  nodup : (s'.nodes.map Node.id).Nodup
  recvers : out.map Prod.fst =
    s.group.filter fun r => r = old.id ∨ r ∉ s.getDeadNodes now₂
  sent : ∀ e ∈ out, e.2 =
    if e.1 = old.id then s'.nodes else [{ node with id := old.id, isRecovery := true }]

/-- A restart has been recovered from, and the recovery list is not empty any more. -/
structure Used (s : Registry) : Prop where
  ready : s.ready = true
  length : s.nodes.length = s.numNodes + 1
  recoveryNodes : s.recoveryNodes ≠ []

theorem updateLocalID_restart {s : Registry} {node : Node} {now : ℕ} (hready : s.ready = true)
    (hlength : s.nodes.length = s.numNodes + 1) (hr : Restart s node now) :
    ∃ i old, s.nodes[i]? = some old ∧ old ∈ s.nodes.dropLast ∧ old.id ∈ s.getDeadNodes now ∧
      old.role = node.role ∧
      s.updateLocalID (s.getDeadNodes now) kEmpty [node] = some { s with
        nodes := s.nodes.set i { node with id := old.id, isRecovery := true }
        recoveryNodes := s.recoveryNodes ++ [{ node with id := old.id, isRecovery := true }] } := by
  obtain ⟨i, old, hi, hmem, hdead, hrole, hreplace⟩ := replaceDead_spec hr.dead
  refine ⟨i, old, hi, hmem, hdead, hrole, ?_⟩
  have haddress : ¬ address s.myNode = address { node with id := old.id, isRecovery := true } :=
    hr.address
  rw [updateLocalID, if_pos rfl]
  simp only [show ¬ s.nodes.length < s.numNodes by omega, hready, if_false, hreplace]
  rw [if_neg (by simp), updateMyId, if_neg fun h => haddress h.1]

/-- The first restart. -/
theorem first_restart {s : Registry} {node : Node} {now₁ : ℕ} (t now₂ : ℕ) (hs : Started s)
    (hr : Restart s node now₁) :
    ∃ s' out old, s.processAddNodeCommand kEmpty [node] now₁ t now₂ = some (s', out) ∧
      Recovered s node now₁ now₂ s' out old ∧ Used s' := by
  obtain ⟨i, old, hi, hmem, hdead, hrole, hupdate⟩ :=
    updateLocalID_restart hs.ready hs.length_nodes hr
  have hlength := hs.length_nodes
  have hlt := (List.getElem?_eq_some_iff.mp hi).1
  have hids : (s.nodes.set i { node with id := old.id, isRecovery := true }).map Node.id =
      s.nodes.map Node.id := by
    rw [List.map_set]
    refine List.ext_getElem? fun k => ?_
    rw [List.getElem?_set, List.length_map, List.getElem?_map]
    by_cases hk : i = k
    · subst hk
      rw [if_pos rfl, if_pos hlt, hi]
      rfl
    · rw [if_neg hk]
  have hconnect : Connectable { node with id := old.id, isRecovery := true } :=
    ⟨hs.ids _ (mem_group_of_dead hdead), hr.port, hr.hostname⟩
  rw [processAddNodeCommand, hupdate, Option.bind_eq_bind, Option.bind_some,
    processAddNodeCommandAtScheduler, if_neg (by simp [numNodes] at hlength ⊢; omega)]
  simp only [hs.recoveryNodes, List.nil_append, if_pos hconnect]
  refine ⟨_, _, old, rfl, ?_, ?_⟩
  · refine ⟨hmem, hdead, hrole, ?_, hids, ?_, ?_, ?_⟩
    · exact List.mem_set hlt _
    · show ((s.nodes.set i { node with id := old.id, isRecovery := true }).map Node.id).Nodup
      rw [hids]
      exact hs.nodup_ids
    · rw [List.map_map]
      simp only [Function.comp_def, List.map_id']
      refine List.filter_congr fun r _ => ?_
      show decide (¬ (r ≠ old.id ∧ r ∈ s.getDeadNodes now₂)) =
        decide (r = old.id ∨ r ∉ s.getDeadNodes now₂)
      rw [decide_eq_decide]
      tauto
    · intro e he
      obtain ⟨r, -, rfl⟩ := List.mem_map.mp he
      rfl
  · exact ⟨hs.ready, (List.length_set ..).trans hlength, by simp [updateHeartbeat]⟩

/-- A second restart fails the check on the size of the recovery list. -/
theorem second_restart {s : Registry} {node : Node} {now₁ t now₂ : ℕ} (hs : Used s)
    (hr : Restart s node now₁) : s.processAddNodeCommand kEmpty [node] now₁ t now₂ = none := by
  obtain ⟨i, old, -, -, -, -, hupdate⟩ := updateLocalID_restart hs.ready hs.length hr
  have hlength := hs.length
  rw [processAddNodeCommand, hupdate, Option.bind_eq_bind, Option.bind_some,
    processAddNodeCommandAtScheduler, if_neg (by simp [numNodes] at hlength ⊢; omega)]
  cases hrec : s.recoveryNodes with
  | nil => exact absurd hrec hs.recoveryNodes
  | cons a l =>
    cases l with
    | nil => rfl
    | cons b l => rfl

/-- The loop over new nodes with addresses of their own. -/
theorem assignIds_spec {t : ℕ} {l : List Node} {s : Registry}
    (hnew : ∀ node ∈ l, node.role ≠ .scheduler ∧ node.id = kEmpty ∧
      Connectable { node with id := node.idBackup })
    (haddress : (l.map address).Nodup)
    (hunknown : ∀ node ∈ l, s.connectedNodes.lookup (address node) = none) :
    ∃ s', assignIds t s l = some (s', l.map fun node => { node with id := node.idBackup }) ∧
      s'.cluster = s.cluster ∧ s'.myNode = s.myNode ∧ s'.recoveryNodes = s.recoveryNodes ∧
      s'.sharedNodeMapping = s.sharedNodeMapping := by
  induction l generalizing s with
  | nil => exact ⟨s, rfl, rfl, rfl, rfl, rfl⟩
  | cons node l ih =>
    obtain ⟨hrole, hid, hconnect⟩ := hnew node (List.mem_cons_self ..)
    obtain ⟨hfresh, hnodup⟩ := List.nodup_cons.mp haddress
    have hassign : ∃ s₁, s.assignId t node = some (s₁, { node with id := node.idBackup }) ∧
        s₁.cluster = s.cluster ∧ s₁.myNode = s.myNode ∧ s₁.recoveryNodes = s.recoveryNodes ∧
        s₁.sharedNodeMapping = s.sharedNodeMapping ∧
        s₁.connectedNodes = (address node, node.idBackup) :: s.connectedNodes := by
      cases hnode : node.role with
      | scheduler => exact absurd hnode hrole
      | server | worker =>
        simp only [assignId, hunknown node (List.mem_cons_self ..), hnode, true_or, or_true,
          if_true, hid, true_and]
        rw [hnode] at hconnect
        rw [if_pos hconnect]
        exact ⟨_, rfl, rfl, rfl, rfl, rfl, rfl⟩
    obtain ⟨s₁, hs₁, hcluster, hmyNode, hrecovery, hshared, hconnected⟩ := hassign
    obtain ⟨s₂, hs₂, hcluster', hmyNode', hrecovery', hshared'⟩ := ih (s := s₁)
      (fun n hn => hnew n (List.mem_cons_of_mem _ hn)) hnodup (fun n hn => by
        have hne : address n ≠ address node := fun h => hfresh (h ▸ List.mem_map_of_mem hn)
        rw [hconnected, List.lookup_cons, beq_false_of_ne hne]
        exact hunknown n (List.mem_cons_of_mem _ hn))
    refine ⟨s₂, ?_, hcluster'.trans hcluster, hmyNode'.trans hmyNode,
      hrecovery'.trans hrecovery, hshared'.trans hshared⟩
    simp [assignIds, hs₁, hs₂]

/-- Start-up, when the last node has registered. Every node says with `id_backup` which id it
wants. -/
theorem started_of_startUp {s : Registry} {t now : ℕ} (hfull : s.nodes.length = s.numNodes)
    (hnew : ∀ node ∈ s.nodes, node.role ≠ .scheduler ∧ node.id = kEmpty ∧
      Connectable { node with id := node.idBackup })
    (haddress : (s.nodes.map address).Nodup) (hconnected : s.connectedNodes = [])
    (hshared : s.sharedNodeMapping = []) (hbackup : (s.nodes.map Node.idBackup).Perm s.group)
    (hmyId : s.myNode.id = kScheduler) (hrecovery : s.recoveryNodes = []) :
    ∃ s', s.processAddNodeCommandAtScheduler t now =
        some (s', s.group.map fun r => (r, s'.nodes)) ∧ Started s' := by
  have hsort : (s.nodes.mergeSort fun a b => !sortsBefore b a).Perm s.nodes :=
    List.mergeSort_perm ..
  obtain ⟨s₁, hs₁, hcluster, hmyNode, hrecovery', hshared'⟩ := assignIds_spec (t := t) (s := s)
    (fun n hn => hnew n (hsort.mem_iff.mp hn))
    ((hsort.map address).nodup_iff.mpr haddress) (fun n _ => by rw [hconnected]; rfl)
  have hgroup : s₁.group = s.group := by rw [group, group, hcluster]
  have hids : (((s.nodes.mergeSort fun a b => !sortsBefore b a).map fun node =>
      ({ node with id := node.idBackup } : Node)).map Node.id).Perm s.group := by
    rw [List.map_map]
    exact (hsort.map Node.idBackup).trans hbackup
  have hall : s₁.group.filter (fun r => (s₁.sharedNodeMapping.lookup r).isNone) = s.group := by
    rw [hgroup, List.filter_eq_self]
    intro r _
    rw [hshared', hshared]
    rfl
  refine ⟨{ s₁ with
    nodes := ((s.nodes.mergeSort fun a b => !sortsBefore b a).map fun node =>
      ({ node with id := node.idBackup } : Node)) ++ [s₁.myNode]
    ready := true }, ?_, rfl, ⟨_, rfl, hgroup ▸ hids⟩, hmyNode ▸ hmyId, ?_,
    hrecovery'.trans hrecovery⟩
  · rw [processAddNodeCommandAtScheduler, if_pos hfull, ← hall]
    simp only [hs₁, Option.bind_eq_bind, Option.bind_some]
    rfl
  · intro r hr
    obtain ⟨node, hnode, rfl⟩ := List.mem_map.mp (hbackup.mem_iff.mpr (hgroup ▸ hr))
    exact (hnew node hnode).2.2.1

end Registry

/-- What happens at the scheduler: a heartbeat of a node, or the registration of a new process
with the three times at which the handler reads the clock. -/
inductive Event
  | heartbeat (id : ℤ) (now : ℕ)
  | register (node : Node) (now₁ t now₂ : ℕ)

/-- The number of restarts. -/
def restarts : List Event → ℕ
  | [] => 0
  | .heartbeat _ _ :: events => restarts events
  | .register _ _ _ _ :: events => restarts events + 1

/-- Every process that registers restarts a dead node. -/
def Plausible : Registry → List Event → Prop
  | _, [] => True
  | s, .heartbeat id now :: events => Plausible (s.updateHeartbeat id now) events
  | s, .register node now₁ t now₂ :: events => s.Restart node now₁ ∧
    ∀ s' out, s.processAddNodeCommand kEmpty [node] now₁ t now₂ = some (s', out) →
      Plausible s' events

/-- Every restart is recovered from. -/
def AllRecovered : Registry → List Event → Prop
  | _, [] => True
  | s, .heartbeat id now :: events => AllRecovered (s.updateHeartbeat id now) events
  | s, .register node now₁ t now₂ :: events => ∃ s' out old,
    s.processAddNodeCommand kEmpty [node] now₁ t now₂ = some (s', out) ∧
      s.Recovered node now₁ now₂ s' out old ∧ AllRecovered s' events

theorem Registry.Started.updateHeartbeat {s : Registry} (h : s.Started) (id : ℤ) (now : ℕ) :
    (s.updateHeartbeat id now).Started :=
  ⟨h.ready, h.table, h.myId, h.ids, h.recoveryNodes⟩

theorem Registry.Used.updateHeartbeat {s : Registry} (h : s.Used) (id : ℤ) (now : ℕ) :
    (s.updateHeartbeat id now).Used :=
  ⟨h.ready, h.length, h.recoveryNodes⟩

theorem allRecovered_of_restarts_eq_zero {s : Registry} {events : List Event}
    (h : restarts events = 0) : AllRecovered s events := by
  induction events generalizing s with
  | nil => trivial
  | cons e events ih =>
    cases e with
    | heartbeat id now => exact ih h
    | register => simp [restarts] at h

theorem restarts_eq_zero_of_used {s : Registry} {events : List Event} (hs : s.Used)
    (hevents : Plausible s events) (h : AllRecovered s events) : restarts events = 0 := by
  induction events generalizing s with
  | nil => rfl
  | cons e events ih =>
    cases e with
    | heartbeat id now => exact ih (hs.updateHeartbeat id now) hevents h
    | register node now₁ t now₂ =>
      obtain ⟨s', out, old, hrun, -⟩ := h
      rw [Registry.second_restart hs hevents.1] at hrun
      cases hrun

/-- After start-up, a run of restarts is recovered from exactly if there is at most one. -/
theorem restarts_recovered_iff {s : Registry} {events : List Event} (hs : s.Started)
    (hevents : Plausible s events) : AllRecovered s events ↔ restarts events ≤ 1 := by
  induction events generalizing s with
  | nil => simp [AllRecovered, restarts]
  | cons e events ih =>
    cases e with
    | heartbeat id now => exact ih (hs.updateHeartbeat id now) hevents
    | register node now₁ t now₂ =>
      obtain ⟨hrestart, hnext⟩ := hevents
      obtain ⟨s', out, old, hrun, hrecovered, hused⟩ :=
        Registry.first_restart t now₂ hs hrestart
      constructor
      · rintro ⟨s'', out', old', hrun', -, hall⟩
        obtain ⟨rfl, rfl⟩ := Prod.mk.inj (Option.some.inj (hrun.symm.trans hrun'))
        rw [restarts, restarts_eq_zero_of_used hused (hnext _ _ hrun) hall]
      · intro h
        refine ⟨s', out, old, hrun, hrecovered, allRecovered_of_restarts_eq_zero ?_⟩
        rw [restarts] at h
        omega

/-- A process of the given role. -/
def exampleNode (role : Role) (id : ℤ) (hostname : String) (isRecovery : Bool) : Node where
  role := role
  id := id
  customerId := 0
  hostname := hostname
  port := 9000
  isRecovery := isRecovery

/-- The scheduler of one worker and one server after start-up; the table has the worker `w`. -/
def exampleRegistry (w : Node) (recoveryNodes : List Node) (heartbeats : ℤ → Option ℕ) :
    Registry where
  cluster := ⟨1, 1⟩
  myNode := exampleNode .scheduler 1 "scheduler" false
  rankSet := true
  ready := true
  nodes := [w, exampleNode .server 8 "server" false, exampleNode .scheduler 1 "scheduler" false]
  recoveryNodes := recoveryNodes
  heartbeats := heartbeats
  heartbeatTimeout := 10

/-- The worker has never been heard of. -/
def quietRegistry : Registry := exampleRegistry (exampleNode .worker 9 "a" false) [] fun _ => none

theorem started_quietRegistry : quietRegistry.Started where
  ready := rfl
  table := ⟨[exampleNode .worker 9 "a" false, exampleNode .server 8 "server" false], rfl, by decide⟩
  myId := rfl
  ids := by decide
  recoveryNodes := rfl

/-- The worker on host `a` is silent, and one on host `b` takes its place. -/
theorem restarts_recovered_once :
    AllRecovered quietRegistry [.heartbeat 8 95,
      .register (exampleNode .worker kEmpty "b" false) 100 100 100] := by
  have hplausible : Plausible quietRegistry [.heartbeat 8 95,
      .register (exampleNode .worker kEmpty "b" false) 100 100 100] :=
    ⟨⟨⟨exampleNode .worker 9 "a" false, by decide, by decide, rfl⟩, by decide, by decide,
      by decide⟩, fun _ _ _ => trivial⟩
  exact (restarts_recovered_iff started_quietRegistry hplausible).mpr (by decide)

/-- Then this one is silent too, and the scheduler aborts when another one registers. -/
theorem second_restart_aborts :
    ∃ events, Plausible quietRegistry events ∧ restarts events = 2 ∧
      ¬ AllRecovered quietRegistry events := by
  let b := exampleNode .worker kEmpty "b" false
  let b' := exampleNode .worker 9 "b" true
  let beats := Function.update (Function.update (fun _ : ℤ => (none : Option ℕ)) 8 (some 95)) 9
    (some 100)
  let s₁ := exampleRegistry b' [b'] beats
  have hrun : (quietRegistry.updateHeartbeat 8 95).processAddNodeCommand kEmpty [b] 100 100 100 =
      some (s₁, [(9, s₁.nodes), (8, [b'])]) := rfl
  have hplausible : Plausible quietRegistry [.heartbeat 8 95, .register b 100 100 100,
      .heartbeat 8 195, .register (exampleNode .worker kEmpty "c" false) 200 200 200] := by
    refine ⟨⟨⟨exampleNode .worker 9 "a" false, by decide, by decide, rfl⟩, by decide, by decide,
      by decide⟩, ?_⟩
    intro s' out hrun'
    obtain ⟨rfl, rfl⟩ := Prod.mk.inj (Option.some.inj (hrun.symm.trans hrun'))
    exact ⟨⟨⟨b', by decide, by decide, rfl⟩, by decide, by decide, by decide⟩,
      fun _ _ _ => trivial⟩
  refine ⟨_, hplausible, rfl, ?_⟩
  rintro ⟨s', out, old, hrun', -, hall⟩
  obtain ⟨rfl, rfl⟩ := Prod.mk.inj (Option.some.inj (hrun.symm.trans hrun'))
  obtain ⟨s'', out', old', hrun'', -⟩ := hall
  exact absurd hrun'' (by simp only [show (s₁.updateHeartbeat 8 195).processAddNodeCommand kEmpty
    [exampleNode .worker kEmpty "c" false] 200 200 200 = none from rfl]; exact nofun)

end NetStorm.NodeRecovery

import NetStorm.Van
import Mathlib.Data.List.Basic

/-!
# Source routing

A message on its way to server `d`, or to its worker, carries the rest of its path.
`EnRoute` says so, every server on the path preserves it with one node less, and the
tables of the servers in between are never read.
-/
namespace NetStorm

theorem rankOfId_server (r : ℕ) : rankOfId (serverRankToID r) = r := by
  have h : (serverRankToID r).tmod 2 = 0 := by
    rw [serverRankToID, Int.tmod_eq_emod_of_nonneg (by omega)]
    omega
  rw [rankOfId, if_neg (by simp [h]), serverRankToID, Int.tdiv_eq_ediv_of_nonneg (by omega)]
  omega

theorem rankOfId_worker (r : ℕ) : rankOfId (workerRankToID r) = r := by
  have h : (workerRankToID r).tmod 2 = 1 := by
    rw [workerRankToID, Int.tmod_eq_emod_of_nonneg (by omega)]
    omega
  rw [rankOfId, if_pos (by simp [h]), workerRankToID, Int.tdiv_eq_ediv_of_nonneg (by omega)]
  omega

theorem tdiv_serverRankToID (r : ℕ) : (serverRankToID r - 8).tdiv 2 = r := by
  rw [serverRankToID, Int.tdiv_eq_ediv_of_nonneg (by omega)]
  omega

@[simp] theorem vectorAt_natCast {α : Type*} (l : List α) (i : ℕ) : vectorAt l (i : ℤ) = l[i]? := by
  simp [vectorAt]

/-- A simple path of servers from `s` to `d`: the nodes after `s`. -/
structure SimplePath (n s d : ℕ) (nodes : List ℕ) : Prop where
  lt : ∀ r ∈ nodes, r < n
  nodup : (s :: nodes).Nodup
  last : nodes.getLast? = some d

/-- The path as a route table holds it. -/
def pathIds (s : ℕ) (nodes : List ℕ) : List ℤ := (s :: nodes).map serverRankToID

/-- The table of server `s`: for every other server a non-empty list of simple paths. -/
def TableOk (n s : ℕ) (table : List (List (List ℤ))) : Prop :=
  ∀ d < n, d ≠ s → ∃ paths, table[d]? = some paths ∧ paths ≠ [] ∧
    ∀ path ∈ paths, ∃ nodes, path = pathIds s nodes ∧ SimplePath n s d nodes

theorem SimplePath.exists_cons {n s d : ℕ} {nodes : List ℕ} (h : SimplePath n s d nodes) :
    ∃ x rest, nodes = x :: rest := by
  cases nodes with
  | nil => simpa using h.last
  | cons x rest => exact ⟨x, rest, rfl⟩

/-- A server's van, or its worker's. -/
structure Van.IsServer (v : Van) (r : ℕ) : Prop where
  role : v.role = .server
  myId : v.myId = serverRankToID r

structure Van.IsWorker (v : Van) (r : ℕ) : Prop where
  role : v.role = .worker
  myId : v.myId = workerRankToID r

section Journey
variable {V : Type}

/-- What routing does not touch. -/
def Message.payload (msg : Message V) : Message V :=
  { msg with sender := kEmpty, recver := kEmpty, sender_ := kEmpty, dst := kEmpty,
             priority := kEmpty, lastHop := kEmpty, route := [], cmd := .empty }

theorem tree_eq_of_payload_eq {m m' : Message V} (h : m.payload = m'.payload) :
    m.tree = m'.tree := by
  have := congrArg (fun p : Message V => p.tree) h
  exact this

/-- The message is on its way to `dst` and the nodes still to visit are `x :: rest`. -/
structure EnRoute (msg : Message V) (dst : ℤ) (x : ℕ) (rest : List ℕ) : Prop where
  cmd : msg.cmd = .reply1
  recver : msg.recver = serverRankToID x
  dst : msg.dst = dst
  route : ∃ before : List ℚ,
    msg.route = before ++ ((x :: rest).map serverRankToID).reverse.map (Int.cast : ℤ → ℚ)
  sender_ : ∀ y ∈ x :: rest, msg.sender_ ≠ workerRankToID y

theorem EnRoute.route_ne_nil {msg : Message V} {dst : ℤ} {x : ℕ} {rest : List ℕ}
    (h : EnRoute msg dst x rest) : msg.route ≠ [] := by
  obtain ⟨before, hroute⟩ := h.route
  simp [hroute]

theorem follow_pathIds (msg : Message V) (s x : ℕ) (rest : List ℕ) :
    msg.follow (pathIds s (x :: rest)) = some { msg with
      route := msg.route ++ ((x :: rest).map serverRankToID).reverse.map (Int.cast : ℤ → ℚ)
      recver := serverRankToID x } := by
  simp [Message.follow, pathIds]

/-- Whatever auxiliary path `Push` may take, the message follows a path of the table. -/
theorem auxiliary_follows (v : Van) (queue : ℤ → ℕ) {n s d : ℕ} (msg : Message V)
    (paths : List (List ℤ))
    (hp : ∀ path ∈ paths, ∃ nodes, path = pathIds s nodes ∧ SimplePath n s d nodes) :
    v.auxiliary queue msg paths = some msg ∨ ∃ x rest, pathIds s (x :: rest) ∈ paths ∧
      SimplePath n s d (x :: rest) ∧ v.auxiliary queue msg paths = some { msg with
        route := ((x :: rest).map serverRankToID).reverse.map (Int.cast : ℤ → ℚ)
        recver := serverRankToID x } := by
  induction paths with
  | nil => exact .inl rfl
  | cons path paths ih =>
    obtain ⟨nodes, rfl, hsimple⟩ := hp path List.mem_cons_self
    obtain ⟨x, rest, rfl⟩ := hsimple.exists_cons
    have hget : (pathIds s (x :: rest))[1]? = some (serverRankToID x) := by simp [pathIds]
    simp only [Van.auxiliary, hget, Option.bind_eq_bind, Option.bind_some]
    split_ifs with hq
    · exact .inr ⟨x, rest, List.mem_cons_self, hsimple, by rw [follow_pathIds]; simp⟩
    · rcases ih fun path h => hp path (List.mem_cons_of_mem _ h) with h | ⟨y, l, hy, hs, h⟩
      · exact .inl h
      · exact .inr ⟨y, l, List.mem_cons_of_mem _ hy, hs, h⟩

/-- A server's message for another server, or for its worker, starts on a path of the
server's table, through `Push` and through `Send`. -/
theorem addTrace_enRoute {v : Van} {n s d : ℕ} (hv : v.IsServer s) {paths : List (List ℤ)}
    (hpaths : v.route[d]? = some paths) (hne : paths ≠ [])
    (hp : ∀ path ∈ paths, ∃ nodes, path = pathIds s nodes ∧ SimplePath n s d nodes)
    {msg : Message V} {dst : ℤ} (hdst : dst = serverRankToID d ∨ dst = workerRankToID d)
    (hds : d ≠ s) (hmsg : msg.dst = kEmpty) (hrecver : msg.recver = dst)
    (hsender : msg.sender_ = kEmpty ∨ ∃ r, msg.sender_ = serverRankToID r) :
    ∃ x rest sent, pathIds s (x :: rest) ∈ paths ∧ SimplePath n s d (x :: rest) ∧
      v.addTrace msg = some sent ∧ EnRoute sent dst x rest ∧ sent.payload = msg.payload ∧
      sent.route.length = msg.route.length + (x :: rest).length ∧
      (msg.sender_ ≠ kEmpty → sent.sender_ = msg.sender_) ∧
      ∃ r, sent.sender_ = serverRankToID r := by
  obtain ⟨path, paths', rfl⟩ := List.exists_cons_of_ne_nil hne
  obtain ⟨nodes, rfl, hsimple⟩ := hp path List.mem_cons_self
  obtain ⟨x, rest, rfl⟩ := hsimple.exists_cons
  have hrank : rankOfId dst = d := by
    rcases hdst with rfl | rfl
    · exact rankOfId_server d
    · exact rankOfId_worker d
  have hown : dst ≠ v.myId + 1 := by
    rw [hv.myId, serverRankToID_add_one]
    rcases hdst with rfl | rfl <;> simp [hds]
  have hsome : ∃ r, (if msg.sender_ = kEmpty then v.myId else msg.sender_) = serverRankToID r := by
    split_ifs with h
    · exact ⟨s, hv.myId⟩
    · exact hsender.resolve_left h
  refine ⟨x, rest, { msg with
      dst := dst
      cmd := .reply1
      priority := 0
      sender := if msg.sender = kEmpty then v.myId else msg.sender
      sender_ := if msg.sender_ = kEmpty then v.myId else msg.sender_
      lastHop := v.myId
      route := msg.route ++ ((x :: rest).map serverRankToID).reverse.map (Int.cast : ℤ → ℚ)
      recver := serverRankToID x }, List.mem_cons_self, hsimple, ?_,
    ⟨rfl, rfl, rfl, ⟨msg.route, rfl⟩, ?_⟩, rfl, by simp, fun h => if_neg h,
    hsome⟩
  · simp only [Van.addTrace, hv.role, reduceCtorEq, if_false, hmsg, if_true, hrecver, hown, hrank,
      vectorAt_natCast, hpaths, Option.bind_eq_bind, Option.bind_some, List.getElem?_cons_zero,
      follow_pathIds]
  · intro y _
    obtain ⟨r, hr⟩ := hsome
    simp [hr]

/-- `Push` may exchange the path for an auxiliary one of the same table. -/
theorem auxiliary_enRoute (v : Van) (queue : ℤ → ℕ) {n s d : ℕ} {paths : List (List ℤ)}
    (hp : ∀ path ∈ paths, ∃ nodes, path = pathIds s nodes ∧ SimplePath n s d nodes)
    {msg : Message V} {dst : ℤ} {x : ℕ} {rest : List ℕ} (hmem : pathIds s (x :: rest) ∈ paths)
    (hsimple : SimplePath n s d (x :: rest)) (hroute : EnRoute msg dst x rest)
    (hsender : ∀ y ≠ s, msg.sender_ ≠ workerRankToID y) :
    ∃ x' rest' sent, pathIds s (x' :: rest') ∈ paths ∧ SimplePath n s d (x' :: rest') ∧
      v.auxiliary queue msg paths.tail = some sent ∧ EnRoute sent dst x' rest' ∧
      sent.payload = msg.payload ∧ (msg.route.length = (x :: rest).length →
        sent.route.length = (x' :: rest').length) ∧ sent.sender_ = msg.sender_ := by
  have htail : ∀ path ∈ paths.tail, ∃ nodes, path = pathIds s nodes ∧ SimplePath n s d nodes :=
    fun path h => hp path (List.mem_of_mem_tail h)
  rcases auxiliary_follows v queue msg paths.tail htail with h | ⟨y, l, hy, hs, h⟩
  · exact ⟨x, rest, msg, hmem, hsimple, h, hroute, rfl, id, rfl⟩
  · refine ⟨y, l, _, List.mem_of_mem_tail hy, hs, h,
      ⟨hroute.cmd, rfl, hroute.dst, ⟨[], rfl⟩, fun z hz => hsender z ?_⟩, rfl, by simp, rfl⟩
    rintro rfl
    exact (List.nodup_cons.mp hs.nodup).1 hz

section Origin
variable {v : Van} {n s d : ℕ} {paths : List (List ℤ)} {msg : Message V} {dst : ℤ}

theorem push_enRoute (hv : v.IsServer s) (queue : ℤ → ℕ) (hpaths : v.route[d]? = some paths)
    (hne : paths ≠ [])
    (hp : ∀ path ∈ paths, ∃ nodes, path = pathIds s nodes ∧ SimplePath n s d nodes)
    (hdst : dst = serverRankToID d ∨ dst = workerRankToID d) (hds : d ≠ s)
    (hcmd : msg.cmd = .empty) (hmsg : msg.dst = kEmpty) (hrecver : msg.recver = dst)
    (hsender : msg.sender_ = kEmpty ∨ ∃ r, msg.sender_ = serverRankToID r) :
    ∃ x rest sent, pathIds s (x :: rest) ∈ paths ∧ SimplePath n s d (x :: rest) ∧
      v.push queue msg = some sent ∧ EnRoute sent dst x rest ∧ sent.payload = msg.payload ∧
      (msg.route = [] → sent.route.length = (x :: rest).length) ∧
      (msg.sender_ ≠ kEmpty → sent.sender_ = msg.sender_) := by
  obtain ⟨x, rest, traced, hmem, hsimple, htraced, hroute, hload, hlen, hkept, r, hr⟩ :=
    addTrace_enRoute hv hpaths hne hp hdst hds hmsg hrecver hsender
  obtain ⟨x', rest', sent, hmem', hsimple', hsent, hroute', hload', hlen', hkept'⟩ :=
    auxiliary_enRoute v queue hp hmem hsimple hroute (fun y _ => by simp [hr])
  refine ⟨x', rest', sent, hmem', hsimple', ?_, hroute', hload'.trans hload,
    fun h => hlen' (by simp [hlen, h]), fun h => hkept'.trans (hkept h)⟩
  have hown : traced.dst ≠ v.myId + 1 := by
    rw [hroute.dst, hv.myId, serverRankToID_add_one]
    rcases hdst with rfl | rfl <;> simp [hds]
  have hrank : rankOfId traced.dst = d := by
    rw [hroute.dst]
    rcases hdst with rfl | rfl
    · exact rankOfId_server d
    · exact rankOfId_worker d
  simp only [Van.push, hv.role, hcmd, true_or, and_self, if_true, htraced, Option.bind_eq_bind,
    Option.bind_some, ne_eq, hown, not_false_eq_true, hrank, vectorAt_natCast, hpaths, hsent]

theorem send_enRoute (hv : v.IsServer s) (hpaths : v.route[d]? = some paths) (hne : paths ≠ [])
    (hp : ∀ path ∈ paths, ∃ nodes, path = pathIds s nodes ∧ SimplePath n s d nodes)
    (hdst : dst = serverRankToID d ∨ dst = workerRankToID d) (hds : d ≠ s)
    (hcmd : msg.cmd = .empty) (hmsg : msg.dst = kEmpty) (hrecver : msg.recver = dst)
    (hsender : msg.sender_ = kEmpty ∨ ∃ r, msg.sender_ = serverRankToID r) :
    ∃ x rest sent, pathIds s (x :: rest) ∈ paths ∧ SimplePath n s d (x :: rest) ∧
      v.send msg = some sent ∧ EnRoute sent dst x rest ∧ sent.payload = msg.payload := by
  obtain ⟨x, rest, sent, hmem, hsimple, hsent, hroute, hload, -, -⟩ :=
    addTrace_enRoute hv hpaths hne hp hdst hds hmsg hrecver hsender
  exact ⟨x, rest, sent, hmem, hsimple, by simp [Van.send, hv.role, hcmd, hsent], hroute, hload⟩

end Origin

/-- The message is on the link from server `r` to its worker. -/
structure ToWorker (msg : Message V) (r : ℕ) : Prop where
  cmd : msg.cmd = .reply1
  recver : msg.recver = workerRankToID r
  dst : msg.dst = workerRankToID r

theorem push_own {v : Van} {r : ℕ} (hv : v.IsServer r) (queue : ℤ → ℕ) {msg : Message V}
    (hcmd : msg.cmd = .empty) (hmsg : msg.dst = kEmpty) (hrecver : msg.recver = workerRankToID r) :
    ∃ sent, (v.push queue msg = some sent ∧ v.send msg = some sent) ∧ ToWorker sent r ∧
      sent.payload = msg.payload := by
  have hown : v.myId + 1 = workerRankToID r := by rw [hv.myId, serverRankToID_add_one]
  refine ⟨{ msg with
    dst := msg.recver
    cmd := .reply1
    priority := 0
    sender := if msg.sender = kEmpty then v.myId else msg.sender
    sender_ := if msg.sender_ = kEmpty then v.myId else msg.sender_
    lastHop := v.myId }, ?_, ⟨rfl, hrecver, hrecver⟩, rfl⟩
  simp [Van.push, Van.send, Van.addTrace, hv.role, hcmd, hmsg, hown, hrecver]

/-- A server leaves alone the message that it forwards for others. -/
theorem push_forward {v : Van} {r : ℕ} (hv : v.IsServer r) (queue : ℤ → ℕ) {msg : Message V}
    (hcmd : msg.cmd = .reply1) (hsender : msg.sender_ ≠ workerRankToID r) :
    v.push queue msg = some msg := by
  have h : ¬ msg.sender_ = v.myId + 1 := by
    rwa [hv.myId, serverRankToID_add_one]
  simp [Van.push, hcmd, h]

section Hop
variable {v : Van} {x d : ℕ} {rest : List ℕ} {msg : Message V}

theorem receiving_reply1 (queue : ℤ → ℕ) (hcmd : msg.cmd = .reply1) (hdst : msg.dst ≠ v.myId) :
    v.receiving queue (v.recvMsg msg) = v.processReply1Command queue (v.recvMsg msg) := by
  simp [Van.receiving, Van.recvMsg, hcmd, hdst]

/-- At a server on the way the message moves to the next node of its path. -/
theorem receiving_enRoute (hv : v.IsServer x) (queue : ℤ → ℕ) {dst : ℤ} {y : ℕ}
    (h : EnRoute msg dst x (y :: rest))
    (hdst : dst = serverRankToID d ∨ dst = workerRankToID d) (hd : d ≠ x) :
    ∃ sent, v.receiving queue (v.recvMsg msg) = some (v, .queued sent) ∧
      EnRoute sent dst y rest ∧ sent.payload = msg.payload ∧
      sent.route.length + 1 = msg.route.length ∧ sent.sender_ = msg.sender_ ∧
      sent.lastHop = v.myId := by
  obtain ⟨before, hroute⟩ := h.route
  have hdrop : msg.route.dropLast =
      before ++ ((y :: rest).map serverRankToID).reverse.map (Int.cast : ℤ → ℚ) := by
    have hrev : ((x :: y :: rest).map serverRankToID).reverse =
        ((y :: rest).map serverRankToID).reverse ++ [serverRankToID x] := by simp
    rw [hroute, hrev, List.map_append, ← List.append_assoc, List.map_singleton,
      List.dropLast_concat]
  have hlast : msg.route.dropLast.getLast? = some ((serverRankToID y : ℤ) : ℚ) := by
    simp [hdrop]
  have hne : msg.dst ≠ v.myId ∧ msg.dst ≠ v.myId + 1 := by
    rw [h.dst, hv.myId, serverRankToID_add_one]
    rcases hdst with rfl | rfl <;> simp [hd]
  let sent : Message V := { msg with
    sender := msg.lastHop
    lastHop := v.myId
    route := msg.route.dropLast
    recver := serverRankToID y }
  have hpush : v.push queue sent = some sent :=
    push_forward hv queue h.cmd (h.sender_ x List.mem_cons_self)
  refine ⟨sent, ?_, ⟨h.cmd, rfl, h.dst, ⟨before, hdrop⟩,
    fun z hz => h.sender_ z (List.mem_cons_of_mem _ hz)⟩, rfl, ?_, rfl, rfl⟩
  swap
  · have hpos := List.length_pos_of_ne_nil h.route_ne_nil
    simp only [sent, List.length_dropLast]
    omega
  rw [receiving_reply1 queue h.cmd hne.1]
  simp only [Van.processReply1Command, Van.recvMsg, h.route_ne_nil, if_false, hne.2, hlast,
    Option.bind_eq_bind, Option.bind_some, truncInt_intCast]
  rw [hpush, Option.bind_some]

/-- At the last server of its path a message for this server is a data message. -/
theorem receiving_server (hv : v.IsServer d) (queue : ℤ → ℕ)
    (h : EnRoute msg (serverRankToID d) d []) :
    v.receiving queue (v.recvMsg msg) = some (v, .dataMsg (v.recvMsg msg)) := by
  simp [Van.receiving, Van.recvMsg, h.cmd, h.dst, hv.myId]

/-- At the last server of its path a message for this server's worker is relayed to
the sons if it carries a tree, and sent on to the worker otherwise. -/
theorem receiving_last (hv : v.IsServer d) (queue : ℤ → ℕ)
    (h : EnRoute msg (workerRankToID d) d []) :
    (msg.tree ≠ [] → v.receiving queue (v.recvMsg msg) =
      some (v, .reply2 { v.recvMsg msg with lastHop := v.myId })) ∧
    (msg.tree = [] → v.receiving queue (v.recvMsg msg) =
      some (v, .queued { v.recvMsg msg with lastHop := v.myId, recver := workerRankToID d })) := by
  have hne : msg.dst ≠ v.myId := by simp [h.dst, hv.myId]
  have hown : msg.dst = v.myId + 1 := by rw [h.dst, hv.myId, serverRankToID_add_one]
  rw [receiving_reply1 queue h.cmd hne]
  constructor
  · intro htree
    simp [Van.processReply1Command, Van.recvMsg, h.route_ne_nil, hown, htree]
  · intro htree
    have hpush : v.push queue { v.recvMsg msg with lastHop := v.myId, recver := msg.dst } =
        some { v.recvMsg msg with lastHop := v.myId, recver := msg.dst } :=
      push_forward hv queue h.cmd (h.sender_ d List.mem_cons_self)
    simp only [Van.processReply1Command, Van.recvMsg, h.route_ne_nil, if_false, ← hown, if_true,
      htree, ne_eq, not_true_eq_false, Option.bind_eq_bind]
    simp only [Van.recvMsg, htree] at hpush
    rw [hpush, Option.bind_some, h.dst]

/-- At the worker a message for the worker is a data message. -/
theorem receiving_worker (hv : v.IsWorker d) (queue : ℤ → ℕ) (hcmd : msg.cmd = .reply1)
    (hdst : msg.dst = workerRankToID d) :
    v.receiving queue (v.recvMsg msg) = some (v, .dataMsg (v.recvMsg msg)) := by
  simp [Van.receiving, Van.recvMsg, hcmd, hdst, hv.myId]

theorem follow_lastHop {path : List ℤ} {sent : Message V} (h : msg.follow path = some sent) :
    sent.lastHop = msg.lastHop := by
  rw [Message.follow] at h
  split_ifs at h
  obtain ⟨back, -, h⟩ := Option.bind_eq_some_iff.mp h
  obtain rfl := Option.some.inj h
  rfl

theorem auxiliary_lastHop (queue : ℤ → ℕ) (paths : List (List ℤ)) {sent : Message V}
    (h : v.auxiliary queue msg paths = some sent) : sent.lastHop = msg.lastHop := by
  induction paths with
  | nil =>
    obtain rfl := Option.some.inj h
    rfl
  | cons path paths ih =>
    obtain ⟨temp, -, h⟩ := Option.bind_eq_some_iff.mp h
    split_ifs at h
    · have hfollow := follow_lastHop h
      exact hfollow
    · exact ih h

/-- A server that queues its own message is the message's last hop. -/
theorem push_lastHop (hv : v.IsServer x) (queue : ℤ → ℕ) (hcmd : msg.cmd = .empty)
    {sent : Message V} (h : v.push queue msg = some sent) : sent.lastHop = v.myId := by
  have htrace : ∀ m, v.addTrace msg = some m → m.lastHop = v.myId := by
    intro m hm
    have hrole : ¬ v.role = .worker := by simp [hv.role]
    simp only [Van.addTrace, hrole, if_false] at hm
    by_cases hdst : (if msg.dst = kEmpty then msg.recver else msg.dst) = v.myId + 1
    · rw [if_pos hdst] at hm
      obtain rfl := Option.some.inj hm
      rfl
    · rw [if_neg hdst] at hm
      obtain ⟨paths, -, hm⟩ := Option.bind_eq_some_iff.mp hm
      obtain ⟨path, -, hm⟩ := Option.bind_eq_some_iff.mp hm
      have hfollow := follow_lastHop hm
      exact hfollow
  simp only [Van.push, hv.role, hcmd, true_or, and_self, if_true, Option.bind_eq_bind] at h
  obtain ⟨m, hm, h⟩ := Option.bind_eq_some_iff.mp h
  split_ifs at h
  · obtain ⟨paths, -, h⟩ := Option.bind_eq_some_iff.mp h
    exact (auxiliary_lastHop queue _ h).trans (htrace m hm)
  · obtain rfl := Option.some.inj h
    exact htrace m hm

end Hop

/-- The vans that the nodes have at the successive hops of a message. Ids and roles
are fixed; everything else, the route tables included, may change at any time. -/
structure Net where
  van : ℕ → ℤ → Van
  server : ∀ k r, (van k (serverRankToID r)).IsServer r
  worker : ∀ k r, (van k (workerRankToID r)).IsWorker r

/-- The hops of a message from hop `k` on: the messages as they are received, and the
handler that ends the journey. -/
def Net.travel (net : Net) (queue : ℕ → ℤ → ℕ) :
    ℕ → ℕ → Message V → Option (List (Message V) × Dispatch V)
  | 0, _, _ => none
  | fuel + 1, k, msg => do
    let v := net.van k msg.recver
    let (_, out) ← v.receiving (queue k) (v.recvMsg msg)
    match out with
    | .queued sent =>
      let (got, out) ← net.travel queue fuel (k + 1) sent
      some (v.recvMsg msg :: got, out)
    | out => some ([v.recvMsg msg], out)

/-- The journey from hop `k` visits exactly `nodes`, with the destination and the
payload of `msg` unchanged, and ends in `ProcessDataMsg` if the last node is the
destination and in `ProcessReply2Command` otherwise. -/
def Net.Arrives (net : Net) (queue : ℕ → ℤ → ℕ) (fuel k : ℕ) (sent msg : Message V)
    (dst : ℤ) (nodes : List ℤ) : Prop :=
  ∃ got last, net.travel queue fuel k sent = some (got ++ [last],
      if last.recver = dst then .dataMsg last
      else .reply2 { last with lastHop := last.recver }) ∧
    (got ++ [last]).map (fun g => g.recver) = nodes ∧
    ∀ g ∈ got ++ [last], g.dst = dst ∧ g.payload = msg.payload

/-- One hop before an arrival. -/
theorem Net.Arrives.cons {net : Net} {queue : ℕ → ℤ → ℕ} {fuel k : ℕ} {start sent msg : Message V}
    {dst : ℤ} {nodes : List ℤ} (h : net.Arrives queue fuel (k + 1) sent msg dst nodes)
    {v' : Van} (hr : (net.van k start.recver).receiving (queue k)
      ((net.van k start.recver).recvMsg start) = some (v', .queued sent))
    (hid : (net.van k start.recver).myId = start.recver) (hdst : start.dst = dst)
    (hload : start.payload = msg.payload) :
    net.Arrives queue (fuel + 1) k start msg dst (start.recver :: nodes) := by
  obtain ⟨got, last, htravel, hnodes, hall⟩ := h
  refine ⟨(net.van k start.recver).recvMsg start :: got, last, ?_, ?_, ?_⟩
  · simp only [Net.travel, hr, Option.bind_eq_bind, Option.bind_some, htravel, List.cons_append]
  · rw [List.cons_append, List.map_cons, hnodes]
    simp [Van.recvMsg, hid]
  · intro g hg
    rcases List.mem_cons.mp hg with rfl | hg
    · exact ⟨hdst, hload⟩
    · exact hall g hg

/-- The last hop. -/
theorem Net.Arrives.single {net : Net} {queue : ℕ → ℤ → ℕ} {fuel k : ℕ} {start msg : Message V}
    {dst : ℤ} {v' : Van} {out : Dispatch V}
    (hr : (net.van k start.recver).receiving (queue k)
      ((net.van k start.recver).recvMsg start) = some (v', out))
    (hid : (net.van k start.recver).myId = start.recver)
    (hout : out = if start.recver = dst then .dataMsg ((net.van k start.recver).recvMsg start)
      else .reply2 { (net.van k start.recver).recvMsg start with lastHop := start.recver })
    (hdst : start.dst = dst) (hload : start.payload = msg.payload) :
    net.Arrives queue (fuel + 1) k start msg dst [start.recver] := by
  refine ⟨[], (net.van k start.recver).recvMsg start, ?_, by simp [Van.recvMsg, hid], ?_⟩
  · have hrecv : ((net.van k start.recver).recvMsg start).recver = start.recver := hid
    simp only [Net.travel, hr, Option.bind_eq_bind, Option.bind_some, hout, hrecv, List.nil_append]
    split_ifs <;> rfl
  · intro g hg
    obtain rfl : g = _ := by simpa using hg
    exact ⟨hdst, hload⟩

/-- A message that is on its way arrives, by induction on what is left of its path. -/
theorem EnRoute.arrives (net : Net) (queue : ℕ → ℤ → ℕ) {d : ℕ} {dst : ℤ}
    (hdst : dst = serverRankToID d ∨ dst = workerRankToID d) {x : ℕ} {rest : List ℕ}
    (hlast : (x :: rest).getLast? = some d) (hnodup : (x :: rest).Nodup) {sent msg : Message V}
    (h : EnRoute sent dst x rest) (hload : sent.payload = msg.payload) {fuel k : ℕ}
    (hfuel : rest.length + 2 ≤ fuel) :
    net.Arrives queue fuel k sent msg dst ((x :: rest).map serverRankToID ++
      if dst = workerRankToID d ∧ msg.tree = [] then [workerRankToID d] else []) := by
  obtain ⟨fuel, rfl⟩ : ∃ f, fuel = f + 1 := ⟨fuel - 1, by omega⟩
  have hv : (net.van k sent.recver).IsServer x := h.recver ▸ net.server k x
  have hid : (net.van k sent.recver).myId = sent.recver := hv.myId.trans h.recver.symm
  induction rest generalizing x sent fuel k with
  | nil =>
    obtain rfl : x = d := by simpa using hlast
    have htree := tree_eq_of_payload_eq hload
    rcases hdst with rfl | rfl
    · have hr := receiving_server hv (queue k) h
      have harrive : net.Arrives queue (fuel + 1) k sent msg (serverRankToID x) [sent.recver] :=
        Net.Arrives.single hr hid (by simp [h.recver]) h.dst hload
      simpa [h.recver] using harrive
    · by_cases ht : sent.tree = []
      · have hr := (receiving_last hv (queue k) h).2 ht
        obtain ⟨fuel, rfl⟩ : ∃ f, fuel = f + 1 := ⟨fuel - 1, by simp at hfuel; omega⟩
        let last : Message V := { (net.van k sent.recver).recvMsg sent with
          lastHop := (net.van k sent.recver).myId
          recver := workerRankToID x }
        have hw : (net.van (k + 1) last.recver).IsWorker x := net.worker (k + 1) x
        have harrive : net.Arrives queue (fuel + 1) (k + 1) last msg (workerRankToID x)
            [workerRankToID x] :=
          Net.Arrives.single (receiving_worker hw (queue (k + 1)) h.cmd h.dst) hw.myId
            (by simp [last]) h.dst hload
        have := harrive.cons hr hid h.dst hload
        simpa [h.recver, ← htree, ht] using this
      · have hr := (receiving_last hv (queue k) h).1 ht
        have hne : sent.recver ≠ workerRankToID x := by simp [h.recver]
        rw [hid] at hr
        have harrive : net.Arrives queue (fuel + 1) k sent msg (workerRankToID x) [sent.recver] :=
          Net.Arrives.single hr hid (by simp [hne]) h.dst hload
        simpa [h.recver, ← htree, ht] using harrive
  | cons y rest ih =>
    have hd : d ≠ x := by
      rintro rfl
      have hmem : d ∈ y :: rest := List.mem_of_getLast? (by simpa using hlast)
      exact (List.nodup_cons.mp hnodup).1 hmem
    obtain ⟨next, hr, hnext, hload', -⟩ := receiving_enRoute hv (queue k) h hdst hd
    obtain ⟨fuel, rfl⟩ : ∃ f, fuel = f + 1 := ⟨fuel - 1, by simp at hfuel; omega⟩
    have hv' : (net.van (k + 1) next.recver).IsServer y := hnext.recver ▸ net.server (k + 1) y
    have harrive := ih (by simpa using hlast) (List.nodup_cons.mp hnodup).2 hnext
      (hload'.trans hload) fuel (by simpa using hfuel) hv' (hv'.myId.trans hnext.recver.symm)
    have := harrive.cons hr hid h.dst hload
    simpa [h.recver] using this

/-- The own server of a worker chooses the path of a message that it does not keep. -/
theorem receiving_own {v : Van} {n s d : ℕ} (hv : v.IsServer s) (queue : ℤ → ℕ)
    {paths : List (List ℤ)} (hpaths : v.route[d]? = some paths) (hne : paths ≠ [])
    (hp : ∀ path ∈ paths, ∃ nodes, path = pathIds s nodes ∧ SimplePath n s d nodes) (hds : d ≠ s)
    {msg : Message V} (hcmd : msg.cmd = .reply1) (hdst : msg.dst = serverRankToID d)
    (hroute : msg.route = []) (hkeep : msg.iters = 0 ∨ msg.push = false)
    (hsender : msg.sender_ = workerRankToID s) :
    ∃ x rest sent, pathIds s (x :: rest) ∈ paths ∧ SimplePath n s d (x :: rest) ∧
      v.receiving queue (v.recvMsg msg) = some (v, .queued sent) ∧
      EnRoute sent (serverRankToID d) x rest ∧ sent.payload = msg.payload := by
  obtain ⟨path, paths', rfl⟩ := List.exists_cons_of_ne_nil hne
  obtain ⟨nodes, rfl, hsimple⟩ := hp path List.mem_cons_self
  obtain ⟨x, rest, rfl⟩ := hsimple.exists_cons
  let traced : Message V := { msg with
    sender := msg.lastHop
    lastHop := v.myId
    route := ((x :: rest).map serverRankToID).reverse.map (Int.cast : ℤ → ℚ)
    recver := serverRankToID x }
  have hforeign : ∀ y ≠ s, traced.sender_ ≠ workerRankToID y := by
    intro y hy
    simpa [traced, hsender] using hy.symm
  have htraced : EnRoute traced (serverRankToID d) x rest :=
    ⟨hcmd, rfl, hdst, ⟨[], rfl⟩, fun y hy => hforeign y (by
      rintro rfl
      exact (List.nodup_cons.mp hsimple.nodup).1 hy)⟩
  obtain ⟨x', rest', sent, hmem, hsimple', hsent, hroute', hload, -⟩ :=
    auxiliary_enRoute v queue hp List.mem_cons_self hsimple htraced hforeign
  refine ⟨x', rest', sent, hmem, hsimple', ?_, hroute', hload⟩
  have hdst' : msg.dst ≠ v.myId := by simpa [hdst, hv.myId] using hds
  have hown : msg.dst ≠ v.myId + 1 := by simp [hdst, hv.myId, serverRankToID_add_one]
  have hout : ¬ (msg.iters ≠ 0 ∧ msg.push = true ∧ msg.request = true) := by
    rcases hkeep with h | h <;> simp [h]
  have hpush : v.push queue traced = some sent := by
    have hs : traced.sender_ = v.myId + 1 := by rw [hv.myId, serverRankToID_add_one]; exact hsender
    have hc : traced.cmd = .reply1 := hcmd
    have hd : traced.dst = serverRankToID d := hdst
    have hd' : serverRankToID d ≠ v.myId + 1 := hdst ▸ hown
    simp only [Van.push, hv.role, hs, hc, and_self, or_true, if_true, reduceCtorEq, if_false,
      Option.bind_eq_bind, Option.bind_some, ne_eq, hd', not_false_eq_true, hd, rankOfId_server,
      vectorAt_natCast, hpaths, hsent]
  rw [receiving_reply1 queue hcmd hdst']
  simp only [Van.processReply1Command, Van.recvMsg, hroute, if_true, hout, if_false, hdst,
    tdiv_serverRankToID, vectorAt_natCast, hpaths, Option.bind_eq_bind, Option.bind_some,
    List.getElem?_cons_zero, follow_pathIds, List.nil_append]
  simp only [traced, hdst] at hpush
  rw [hpush, Option.bind_some]

section Parts
variable (net : Net) (queue : ℕ → ℤ → ℕ) {n s d : ℕ} {msg : Message V}

/-- A message of a server for a foreign node visits the nodes of a path of the table. -/
theorem Van.IsServer.arrives_foreign {v : Van} (hv : v.IsServer s) (q : ℤ → ℕ)
    (hd : d < n) (hds : d ≠ s) (hcmd : msg.cmd = .empty) (hmsg : msg.dst = kEmpty)
    (htable : TableOk n s v.route)
    (hsender : msg.sender_ = kEmpty ∨ ∃ r, msg.sender_ = serverRankToID r) {dst : ℤ}
    (hdst : dst = serverRankToID d ∨ dst = workerRankToID d) (hrecver : msg.recver = dst)
    {start : Option (Message V)} (hstart : start = v.push q msg ∨ start = v.send msg) :
    ∃ paths path sent, v.route[d]? = some paths ∧ path ∈ paths ∧ start = some sent ∧
      ∀ fuel k, path.length ≤ fuel → net.Arrives queue fuel k sent msg dst (path.tail ++
        if dst = workerRankToID d ∧ msg.tree = [] then [workerRankToID d] else []) := by
  obtain ⟨paths, hpaths, hne, hp⟩ := htable d hd hds
  obtain ⟨x, rest, sent, hmem, hsimple, hsent, hroute, hload⟩ : ∃ x rest sent,
      pathIds s (x :: rest) ∈ paths ∧ SimplePath n s d (x :: rest) ∧ start = some sent ∧
        EnRoute sent dst x rest ∧ sent.payload = msg.payload := by
    rcases hstart with rfl | rfl
    · obtain ⟨x, rest, sent, h⟩ :=
        push_enRoute hv q hpaths hne hp hdst hds hcmd hmsg hrecver hsender
      exact ⟨x, rest, sent, h.1, h.2.1, h.2.2.1, h.2.2.2.1, h.2.2.2.2.1⟩
    · exact send_enRoute hv hpaths hne hp hdst hds hcmd hmsg hrecver hsender
  refine ⟨paths, pathIds s (x :: rest), sent, hpaths, hmem, hsent, fun fuel k hfuel => ?_⟩
  have hlen : (pathIds s (x :: rest)).length = rest.length + 2 := by simp [pathIds]
  exact hroute.arrives net queue hdst hsimple.last (List.nodup_cons.mp hsimple.nodup).2 hload
    (hlen ▸ hfuel)

/-- A message of a worker for a foreign server goes to its own server, and on from there. -/
theorem Van.IsWorker.arrives_foreign {v : Van} (hv : v.IsWorker s) (k : ℕ)
    (hd : d < n) (hds : d ≠ s) (hcmd : msg.cmd = .empty) (hmsg : msg.dst = kEmpty)
    (htable : TableOk n s (net.van k (serverRankToID s)).route) (hroute : msg.route = [])
    (hsender : msg.sender_ = kEmpty ∨ msg.sender_ = workerRankToID s)
    (hkeep : msg.iters = 0 ∨ msg.push = false) (hrecver : msg.recver = serverRankToID d) :
    ∃ paths path sent, (net.van k (serverRankToID s)).route[d]? = some paths ∧
      path ∈ paths ∧ v.send msg = some sent ∧
      ∀ fuel, path.length < fuel → net.Arrives queue fuel k sent msg (serverRankToID d)
        (serverRankToID s :: path.tail) := by
  obtain ⟨paths, hpaths, hne, hp⟩ := htable d hd hds
  have hv' := net.server k s
  let first : Message V := { msg with
    dst := msg.recver
    cmd := .reply1
    priority := 0
    sender := if msg.sender = kEmpty then v.myId else msg.sender
    sender_ := if msg.sender_ = kEmpty then v.myId else msg.sender_
    lastHop := v.myId
    recver := v.myId - 1 }
  have hfirst : v.send msg = some first := by
    simp [Van.send, Van.addTrace, hv.role, hcmd, hmsg, first]
  have hown : first.recver = serverRankToID s := by
    simp [first, hv.myId, ← serverRankToID_add_one]
  have hsender' : first.sender_ = workerRankToID s := by
    simp only [first]
    split_ifs with h
    · exact hv.myId
    · exact hsender.resolve_left h
  obtain ⟨x, rest, sent, hmem, hsimple, hr, henroute, hload⟩ :=
    receiving_own hv' (queue k) hpaths hne hp hds (show first.cmd = .reply1 from rfl) hrecver
      hroute hkeep hsender'
  refine ⟨paths, pathIds s (x :: rest), first, hpaths, hmem, hfirst, fun fuel hfuel => ?_⟩
  obtain ⟨fuel, rfl⟩ : ∃ f, fuel = f + 1 := ⟨fuel - 1, by omega⟩
  have hlen : rest.length + 2 ≤ fuel := by
    simp only [pathIds, List.length_map, List.length_cons] at hfuel
    omega
  have hload' : sent.payload = msg.payload := hload
  have harrive := henroute.arrives net queue (k := k + 1) (.inl rfl) hsimple.last
    (List.nodup_cons.mp hsimple.nodup).2 hload' hlen
  rw [← hown] at hr hv'
  have hid : (net.van k first.recver).myId = first.recver := hv'.myId.trans hown.symm
  simpa [hown, pathIds] using harrive.cons hr hid hrecver rfl

/-- A message of a server for its own worker has one hop. -/
theorem Van.IsServer.arrives_own {v : Van} (hv : v.IsServer s) (q : ℤ → ℕ)
    (hcmd : msg.cmd = .empty) (hmsg : msg.dst = kEmpty) (hrecver : msg.recver = workerRankToID s)
    {start : Option (Message V)} (hstart : start = v.push q msg ∨ start = v.send msg) :
    ∃ sent, start = some sent ∧ ∀ fuel k, 0 < fuel →
      net.Arrives queue fuel k sent msg (workerRankToID s) [workerRankToID s] := by
  obtain ⟨sent, hsent, hown, hload⟩ := push_own hv q hcmd hmsg hrecver
  refine ⟨sent, by rcases hstart with rfl | rfl <;> simp [hsent], fun fuel k hfuel => ?_⟩
  obtain ⟨fuel, rfl⟩ : ∃ f, fuel = f + 1 := ⟨fuel - 1, by omega⟩
  have hw : (net.van k sent.recver).IsWorker s := hown.recver ▸ net.worker k s
  have harrive : net.Arrives queue (fuel + 1) k sent msg (workerRankToID s) [sent.recver] :=
    Net.Arrives.single (receiving_worker hw (queue k) hown.cmd hown.dst)
      (hw.myId.trans hown.recver.symm) (by simp [hown.recver]) hown.dst hload
  simpa [hown.recver] using harrive

end Parts

/-- **Source routing delivers along one table path.** A server's message for another
server or its worker, queued by `Push` or sent by `Send`, and a worker's message for
a foreign server that its own server does not keep, visit the nodes of one path of the
table of the originating server, whatever the queues are and whatever becomes of the
tables on the way. A server reaches its own worker directly. -/
theorem source_routing (net : Net) (queue : ℕ → ℤ → ℕ) {n s d : ℕ} (hd : d < n) (hds : d ≠ s)
    (msg : Message V) (hcmd : msg.cmd = .empty) (hmsg : msg.dst = kEmpty) :
    (∀ (v : Van) (q : ℤ → ℕ) (dst : ℤ), v.IsServer s → TableOk n s v.route →
      (msg.sender_ = kEmpty ∨ ∃ r, msg.sender_ = serverRankToID r) →
      (dst = serverRankToID d ∨ dst = workerRankToID d) → msg.recver = dst →
      ∀ start, (start = v.push q msg ∨ start = v.send msg) →
        ∃ paths path sent, v.route[d]? = some paths ∧ path ∈ paths ∧ start = some sent ∧
          ∀ fuel k, path.length ≤ fuel → net.Arrives queue fuel k sent msg dst (path.tail ++
            if dst = workerRankToID d ∧ msg.tree = [] then [workerRankToID d] else [])) ∧
    (∀ (v : Van) (k : ℕ), v.IsWorker s → TableOk n s (net.van k (serverRankToID s)).route →
      msg.route = [] → (msg.sender_ = kEmpty ∨ msg.sender_ = workerRankToID s) →
      (msg.iters = 0 ∨ msg.push = false) → msg.recver = serverRankToID d →
        ∃ paths path sent, (net.van k (serverRankToID s)).route[d]? = some paths ∧
          path ∈ paths ∧ v.send msg = some sent ∧
          ∀ fuel, path.length < fuel → net.Arrives queue fuel k sent msg (serverRankToID d)
            (serverRankToID s :: path.tail)) ∧
    (∀ (v : Van) (q : ℤ → ℕ), v.IsServer s → msg.recver = workerRankToID s →
      ∀ start, (start = v.push q msg ∨ start = v.send msg) → ∃ sent, start = some sent ∧
        ∀ fuel k, 0 < fuel →
          net.Arrives queue fuel k sent msg (workerRankToID s) [workerRankToID s]) := by
  refine ⟨?_, ?_, ?_⟩
  · intro v q dst hv htable hsender hdst hrecver start hstart
    exact hv.arrives_foreign net queue q hd hds hcmd hmsg htable hsender hdst hrecver hstart
  · intro v k hv htable hroute hsender hkeep hrecver
    exact hv.arrives_foreign net queue k hd hds hcmd hmsg htable hroute hsender hkeep hrecver
  · intro v q hv hrecver start hstart
    exact hv.arrives_own net queue q hcmd hmsg hrecver hstart

end Journey

/-- A van with the given id and route table and nothing installed. -/
def Van.ofId (a : ℤ) (table : List (List (List ℤ))) : Van where
  myId := a
  role := if a % 2 = 0 then .server else .worker
  route := table
  parents := []
  sons := []
  parentsTemp := []
  sonsTemp := []
  iters := 0
  initFlag := true
  keyTimestamp := 0
  secondQueueLimit := 0

theorem Van.ofId_isServer (r : ℕ) (table : List (List (List ℤ))) :
    (Van.ofId (serverRankToID r) table).IsServer r :=
  ⟨if_pos (by simp only [serverRankToID]; omega), rfl⟩

theorem Van.ofId_isWorker (r : ℕ) (table : List (List (List ℤ))) :
    (Van.ofId (workerRankToID r) table).IsWorker r :=
  ⟨if_neg (by simp only [workerRankToID]; omega), rfl⟩

/-- Over a direct link, with every table on the way empty, server 0 reaches the worker of
server 1, and worker 0 reaches server 1 through its own server. -/
theorem source_routing_two_servers :
    ∃ net : Net, ∃ path sent sent',
      (Van.ofId (serverRankToID 0) [[], [[8, 10]]]).push 0 { recver := 11, data := none } =
        some (sent : Message ℕ) ∧ path ∈ [[(8 : ℤ), 10]] ∧
      net.Arrives 0 2 1 sent { recver := 11, data := none } 11 (path.tail ++ [11]) ∧
      (Van.ofId (workerRankToID 0) []).send { recver := 10, iters := 0, data := none } =
        some (sent' : Message ℕ) ∧
      net.Arrives 0 3 0 sent' { recver := 10, iters := 0, data := none } 10 [8, 10] := by
  have htable : TableOk 2 0 [[], [[8, 10]]] := by
    intro d hd hd0
    obtain rfl : d = 1 := by omega
    refine ⟨[[8, 10]], rfl, by simp, fun path hpath => ⟨[1], ?_, ⟨by simp, by simp, rfl⟩⟩⟩
    simpa [pathIds, serverRankToID] using hpath
  let net : Net := ⟨fun k a => Van.ofId a (if k = 0 then [[], [[8, 10]]] else []),
    fun _ r => Van.ofId_isServer r _, fun _ r => Van.ofId_isWorker r _⟩
  obtain ⟨paths, path, sent, hpaths, hmem, hsent, harrive⟩ :=
    (source_routing net 0 (show 1 < 2 by omega) (show 1 ≠ 0 by omega)
      ({ recver := 11, data := none } : Message ℕ) rfl rfl).1
      (Van.ofId (serverRankToID 0) [[], [[8, 10]]]) 0 11 (Van.ofId_isServer 0 _) htable (.inl rfl)
      (.inr rfl) rfl _ (.inl rfl)
  obtain ⟨paths', path', sent', hpaths', hmem', hsent', harrive'⟩ :=
    (source_routing net 0 (show 1 < 2 by omega) (show 1 ≠ 0 by omega)
      ({ recver := 10, iters := 0, data := none } : Message ℕ) rfl rfl).2.1
      (Van.ofId (workerRankToID 0) []) 0 (Van.ofId_isWorker 0 _) htable rfl (.inl rfl)
      (.inl rfl) rfl
  obtain rfl : [[8, 10]] = paths := by simpa [Van.ofId] using hpaths
  obtain rfl : [[8, 10]] = paths' := by simpa [Van.ofId, net] using hpaths'
  obtain rfl := List.mem_singleton.mp hmem
  obtain rfl := List.mem_singleton.mp hmem'
  exact ⟨net, _, sent, sent', hsent, hmem, by simpa [workerRankToID] using harrive 2 1 le_rfl,
    hsent', by simpa [serverRankToID] using harrive' 3 (by simp)⟩

end NetStorm

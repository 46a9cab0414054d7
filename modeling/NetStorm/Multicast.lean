import NetStorm.InstalledPolicy
import NetStorm.KVServer
import NetStorm.SourceRouting
import NetStorm.Library.Steps
import Mathlib.Algebra.BigOperators.Ring.Finset

/-!
# Multicast of a response

`ResponseAll` sends one copy per son and every server that a copy is meant for sends
one copy per son again. A copy for the worker of server `c` stands for the subtree of
`c` until it arrives there; then it is split into the copies of the children and the
one for the server's own worker. So every worker is covered exactly once at all times,
and a potential bounds the number of deliveries.
-/
namespace NetStorm.Multicast
open Scheduler

variable {V : Type}

/-- The vans, the messages in flight, and what has been given to `ProcessDataMsg`. -/
structure State (V : Type) where
  vans : ℤ → Van
  net : List (Message V)
  accepted : List (ℤ × Message V)

/-- The vans of `n` servers and their workers, with a route between any two servers. -/
structure Cluster (n : ℕ) (vans : ℤ → Van) : Prop where
  server : ∀ c : Fin n, (vans (serverRankToID c)).IsServer c
  worker : ∀ c : Fin n, (vans (workerRankToID c)).IsWorker c
  table : ∀ c : Fin n, TableOk n c (vans (serverRankToID c)).route

/-- The payload of a response as `ResponseAll` and `ProcessReply2Command` send it. -/
structure IsResponse (load : Message V) : Prop where
  simpleApp : load.simpleApp = false
  version : load.version = kEmpty
  iters : load.iters = kEmpty
  tree : load.tree = [-1]

theorem relay_payload {load m : Message V} (hload : IsResponse load) (h : m.payload = load)
    (son : ℤ) : (m.relay son).payload = load := by
  subst h
  have h₁ : m.simpleApp = false := hload.simpleApp
  have h₂ : m.version = kEmpty := hload.version
  have h₃ : m.iters = kEmpty := hload.iters
  have h₄ : m.tree = [-1] := hload.tree
  simp [Message.payload, Message.relay, h₁, h₂, h₃, h₄]

section Copies
variable {n : ℕ}

/-- A copy for the subtree of `c`, on its way to server `c`. -/
structure ForServer (root : ℕ) (load m : Message V) (c : Fin n) : Prop where
  enRoute : ∃ x rest, EnRoute m (workerRankToID c) x rest ∧ (x :: rest).Nodup ∧
    (∀ y ∈ x :: rest, y < n) ∧ (x :: rest).getLast? = some (c : ℕ) ∧
    m.route.length = (x :: rest).length
  payload : m.payload = load
  sender_ : m.sender_ = serverRankToID root

/-- A copy on its way to the worker of server `c`. -/
structure ForWorker (load m : Message V) (c : Fin n) : Prop where
  toWorker : ToWorker m c
  payload : m.payload = load

theorem ForServer.dst {root : ℕ} {load m : Message V} {c : Fin n} (h : ForServer root load m c) :
    m.dst = workerRankToID c := by
  obtain ⟨x, rest, hroute, -⟩ := h.enRoute
  exact hroute.dst

theorem ForServer.recver_ne {root : ℕ} {load m : Message V} {c : Fin n}
    (h : ForServer root load m c) : m.recver ≠ m.dst := by
  obtain ⟨x, rest, hroute, -⟩ := h.enRoute
  simp [hroute.recver, hroute.dst]

theorem ForServer.length_le {root : ℕ} {load m : Message V} {c : Fin n}
    (h : ForServer root load m c) : m.route.length ≤ n := by
  obtain ⟨x, rest, -, hnodup, hlt, -, hlen⟩ := h.enRoute
  have hsub : (x :: rest) ⊆ List.range n := fun y hy => List.mem_range.mpr (hlt y hy)
  simpa [hlen] using (List.subperm_of_subset hnodup hsub).length_le

/-- The value of `f` at the server whose worker the message is for. -/
def valueAt (f : Fin n → ℕ) (dst : ℤ) : ℕ := ∑ c : Fin n, if dst = workerRankToID c then f c else 0

@[simp] theorem valueAt_worker (f : Fin n → ℕ) (c : Fin n) : valueAt f (workerRankToID c) = f c := by
  simp [valueAt, Fin.val_inj]

variable (T : RootedTree (Fin n))

/-- How often the message stands for worker `k`. -/
def covers (k : Fin n) (m : Message V) : ℕ :=
  if m.recver = m.dst then valueAt (fun c => if c = k then 1 else 0) m.dst
  else valueAt (fun c => if k ∈ T.subtree c then 1 else 0) m.dst

/-- A bound on the number of deliveries that the message can still cause. -/
def potential (m : Message V) : ℕ :=
  if m.recver = m.dst then 1
  else m.route.length + valueAt (fun c => (n + 1) * ((T.subtree c).card - 1) + 1) m.dst

variable {T} {load m : Message V} {c : Fin n}

theorem covers_forServer {root : ℕ} (h : ForServer root load m c) (k : Fin n) :
    covers T k m = if k ∈ T.subtree c then 1 else 0 := by
  rw [covers, if_neg h.recver_ne, h.dst, valueAt_worker]

theorem covers_forWorker (h : ForWorker load m c) (k : Fin n) :
    covers T k m = if c = k then 1 else 0 := by
  have hdst := h.toWorker.dst
  rw [covers, if_pos (h.toWorker.recver.trans hdst.symm), hdst, valueAt_worker]

theorem potential_forServer {root : ℕ} (h : ForServer root load m c) :
    potential T m = m.route.length + ((n + 1) * ((T.subtree c).card - 1) + 1) := by
  rw [potential, if_neg h.recver_ne, h.dst, valueAt_worker]

theorem potential_forWorker (h : ForWorker load m c) : potential T m = 1 := by
  rw [potential, if_pos (h.toWorker.recver.trans h.toWorker.dst.symm)]

theorem card_subtree_pos (T : RootedTree (Fin n)) (c : Fin n) : 0 < (T.subtree c).card :=
  Finset.card_pos.mpr ⟨c, T.self_mem_subtree c⟩

/-- A copy for a child may use up to the size of the child's subtree times `n + 1`. -/
theorem potential_forServer_le {root : ℕ} (h : ForServer root load m c) :
    potential T m ≤ (n + 1) * (T.subtree c).card := by
  obtain ⟨a, ha⟩ : ∃ a, (T.subtree c).card = a + 1 := ⟨_, (Nat.succ_pred_eq_of_pos
    (card_subtree_pos T c)).symm⟩
  have := h.length_le
  rw [potential_forServer h, ha, Nat.add_sub_cancel, Nat.mul_succ]
  omega

end Copies

section FanOut
variable {n root : ℕ} {vans : ℤ → Van} {load : Message V}

/-- What `ResponseAll` and `ProcessReply2Command` give to `Push` for one son. -/
structure IsCopy (root : ℕ) (load base : Message V) (son : ℤ) : Prop where
  cmd : base.cmd = .empty
  dst : base.dst = kEmpty
  recver : base.recver = son
  route : base.route = []
  sender_ : base.sender_ = serverRankToID root
  payload : base.payload = load

theorem push_forServer (hC : Cluster n vans) (queue : ℤ → ℕ) {c d : Fin n} (hdc : d ≠ c)
    {base : Message V} (hbase : IsCopy root load base (workerRankToID d)) :
    ∃ m, (vans (serverRankToID c)).push queue base = some m ∧ ForServer root load m d := by
  have hne : (d : ℕ) ≠ c := fun h => hdc (Fin.ext h)
  obtain ⟨paths, hpaths, hnonempty, hp⟩ := hC.table c d d.isLt hne
  obtain ⟨x, rest, m, -, hsimple, hpush, hroute, hload, hlen, hsender⟩ :=
    push_enRoute (hC.server c) queue hpaths hnonempty hp (.inr rfl) hne hbase.cmd hbase.dst
      hbase.recver (.inr ⟨root, hbase.sender_⟩)
  refine ⟨m, hpush, ⟨x, rest, hroute, (List.nodup_cons.mp hsimple.nodup).2, hsimple.lt,
    hsimple.last, hlen hbase.route⟩, hload.trans hbase.payload, ?_⟩
  rw [hsender (by simp [hbase.sender_]), hbase.sender_]

theorem push_forWorker (hC : Cluster n vans) (queue : ℤ → ℕ) {c : Fin n} {base : Message V}
    (hbase : IsCopy root load base (workerRankToID c)) :
    ∃ m, (vans (serverRankToID c)).push queue base = some m ∧ ForWorker load m c := by
  obtain ⟨m, ⟨hpush, -⟩, hm, hload⟩ :=
    push_own (hC.server c) queue hbase.cmd hbase.dst hbase.recver
  exact ⟨m, hpush, hm, hload.trans hbase.payload⟩

/-- The copy that server `c` sends for one of its sons. -/
def SonCopy (root : ℕ) (load : Message V) (T : RootedTree (Fin n)) (c : Fin n) (son : ℤ)
    (m : Message V) : Prop :=
  (∃ d ∈ T.children c, son = workerRankToID d ∧ ForServer root load m d) ∨
    (son = workerRankToID c ∧ ForWorker load m c)

theorem child_ne {T : RootedTree (Fin n)} {c d : Fin n} (hd : d ∈ T.children c) : d ≠ c := by
  rintro rfl
  have := T.depth_of_mem_children hd
  omega

/-- The pushes of one server: one copy for every son. -/
theorem exists_copies (hC : Cluster n vans) (T : RootedTree (Fin n)) (c : Fin n)
    (queues : ℕ → ℤ → ℕ) {f : ℤ → Message V} (hf : ∀ son, IsCopy root load (f son) son) :
    ∃ sent, (((childList T c).map (fun k : Fin n => workerRankToID k) ++
        [workerRankToID c]).zipIdx.mapM fun (son, k) =>
          (vans (serverRankToID c)).push (queues k) (f son)) = some sent ∧
      List.Forall₂ (SonCopy root load T c)
        ((childList T c).map (fun k : Fin n => workerRankToID k) ++ [workerRankToID c]) sent := by
  set sons := (childList T c).map (fun k : Fin n => workerRankToID k) ++ [workerRankToID c]
  obtain ⟨sent, hsent, hall⟩ := OptionTable.exists_mapM_eq_some
    (f := fun e : ℤ × ℕ => (vans (serverRankToID c)).push (queues e.2) (f e.1))
    (P := fun e m => SonCopy root load T c e.1 m) (l := sons.zipIdx) (by
      rintro ⟨son, k⟩ he
      have hson : son ∈ sons := List.fst_mem_of_mem_zipIdx he
      simp only [sons, List.mem_append, List.mem_map, List.mem_singleton, mem_childList] at hson
      rcases hson with ⟨d, hd, rfl⟩ | rfl
      · obtain ⟨m, hm, hcopy⟩ := push_forServer hC (queues k) (child_ne hd) (hf (workerRankToID d))
        exact ⟨m, hm, .inl ⟨d, hd, rfl, hcopy⟩⟩
      · obtain ⟨m, hm, hcopy⟩ := push_forWorker hC (queues k) (hf (workerRankToID c))
        exact ⟨m, hm, .inr ⟨rfl, hcopy⟩⟩)
  refine ⟨sent, hsent, ?_⟩
  have hfst : sons.zipIdx.map Prod.fst = sons := by simp
  rw [← hfst, List.forall₂_map_left_iff]
  exact hall

theorem sum_map_eq {α β : Type*} {P : α → β → Prop} {l : List α} {r : List β}
    (h : List.Forall₂ P l r) {f : α → ℕ} {g : β → ℕ} (hP : ∀ a b, P a b → g b = f a) :
    (r.map g).sum = (l.map f).sum := by
  induction h with
  | nil => rfl
  | cons hab _ ih => simp [hP _ _ hab, ih]

theorem sum_map_le {α β : Type*} {P : α → β → Prop} {l : List α} {r : List β}
    (h : List.Forall₂ P l r) {f : α → ℕ} {g : β → ℕ} (hP : ∀ a b, P a b → g b ≤ f a) :
    (r.map g).sum ≤ (l.map f).sum := by
  induction h with
  | nil => rfl
  | cons hab _ ih =>
    have := hP _ _ hab
    simp only [List.map_cons, List.sum_cons]
    omega

/-- A quantity of the sons: of the children, and of the server itself. -/
theorem sum_sons (T : RootedTree (Fin n)) (c : Fin n) (f : Fin n → ℕ) (own : ℕ) :
    (((childList T c).map (fun k : Fin n => workerRankToID k) ++ [workerRankToID c]).map
        fun son => if son = workerRankToID c then own else valueAt f son).sum =
      (∑ d ∈ T.children c, f d) + own := by
  rw [List.map_append, List.sum_append, List.map_map, ← sum_childList]
  congr 1
  · congr 1
    refine List.map_congr_left fun d hd => ?_
    have hne : (d : ℕ) ≠ c := fun h => child_ne (mem_childList.mp hd) (Fin.ext h)
    simp [hne]
  · simp

/-- The copies of one server cover its subtree, each worker once. -/
theorem copies_cover {T : RootedTree (Fin n)} {c : Fin n} {sent : List (Message V)}
    (h : List.Forall₂ (SonCopy root load T c)
      ((childList T c).map (fun k : Fin n => workerRankToID k) ++ [workerRankToID c]) sent)
    (k : Fin n) : (sent.map (covers T k)).sum = if k ∈ T.subtree c then 1 else 0 := by
  have hsum := sum_map_eq h (g := covers T k)
    (f := fun son => if son = workerRankToID c then (if c = k then 1 else 0)
      else valueAt (fun d => if k ∈ T.subtree d then 1 else 0) son) (by
      rintro son m (⟨d, hd, rfl, hm⟩ | ⟨rfl, hm⟩)
      · have hne : (d : ℕ) ≠ c := fun h => child_ne hd (Fin.ext h)
        simp [covers_forServer hm, hne]
      · simp [covers_forWorker hm])
  rw [hsum, sum_sons]
  have hsplit := T.sum_subtree (fun v => if v = k then 1 else 0) c
  simp only [Finset.sum_ite_eq'] at hsplit
  rw [hsplit, Nat.add_comm]

theorem copies_potential {T : RootedTree (Fin n)} {c : Fin n} {sent : List (Message V)}
    (h : List.Forall₂ (SonCopy root load T c)
      ((childList T c).map (fun k : Fin n => workerRankToID k) ++ [workerRankToID c]) sent) :
    (sent.map (potential T)).sum ≤ (n + 1) * ((T.subtree c).card - 1) + 1 := by
  have hsum := sum_map_le h (g := potential T)
    (f := fun son => if son = workerRankToID c then 1
      else valueAt (fun d => (n + 1) * (T.subtree d).card) son) (by
      rintro son m (⟨d, hd, rfl, hm⟩ | ⟨rfl, hm⟩)
      · have hne : (d : ℕ) ≠ c := fun h => child_ne hd (Fin.ext h)
        simpa [hne] using potential_forServer_le hm
      · simp [potential_forWorker hm])
  rw [sum_sons] at hsum
  refine hsum.trans (le_of_eq ?_)
  have hsplit := T.sum_subtree (fun _ => 1) c
  simp only [← Finset.card_eq_sum_ones] at hsplit
  rw [hsplit, Nat.add_sub_cancel_left, Finset.mul_sum]

end FanOut

section Delivery
variable {n : ℕ} {vans : ℤ → Van} {load : Message V} {T : RootedTree (Fin n)}

/-- A message that a multicast of the tree may have in flight. -/
def Copy (T : RootedTree (Fin n)) (load m : Message V) : Prop :=
  ∃ c : Fin n, ForServer T.root load m c ∨ ForWorker load m c

theorem SonCopy.copy {c : Fin n} {son : ℤ} {m : Message V} (h : SonCopy T.root load T c son m) :
    Copy T load m := by
  rcases h with ⟨d, -, -, hm⟩ | ⟨-, hm⟩
  · exact ⟨d, .inl hm⟩
  · exact ⟨c, .inr hm⟩

theorem forall_copy {c : Fin n} {sons : List ℤ} {sent : List (Message V)}
    (h : List.Forall₂ (SonCopy T.root load T c) sons sent) : ∀ m ∈ sent, Copy T load m := by
  intro m hm
  obtain ⟨k, hk, rfl⟩ := List.mem_iff_getElem.mp hm
  obtain ⟨hlen, hget⟩ := List.forall₂_iff_get.mp h
  exact (hget k (hlen ▸ hk) hk).copy

/-- The copies that worker `k` has been given. -/
def receivedBy (k : Fin n) (accepted : List (ℤ × Message V)) : ℕ :=
  accepted.countP fun a => a.1 = workerRankToID k

/-- What one delivery does: the van keeps its state, no handler fails, everyone stays
covered as before, and the potential falls. -/
theorem deliver_copy (hC : Cluster n vans) (hload : IsResponse load)
    (hsees : ∀ c : Fin n, SeesTree T c (vans (serverRankToID c)).parents
      (vans (serverRankToID c)).sons)
    {m : Message V} (hm : Copy T load m) (queue : ℤ → ℕ) (queues : ℕ → ℤ → ℕ) :
    ∃ out sent acc,
      (vans m.recver).receiving queue ((vans m.recver).recvMsg m) = some (vans m.recver, out) ∧
      (vans m.recver).perform queues out = some (sent, acc) ∧
      (∀ m' ∈ sent, Copy T load m') ∧
      (∀ a ∈ acc, (∃ k : Fin n, a.1 = workerRankToID k) ∧ a.2.payload = load) ∧
      (∀ k, receivedBy k acc + (sent.map (covers T k)).sum = covers T k m) ∧
      (sent.map (potential T)).sum < potential T m := by
  obtain ⟨c, hm | hm⟩ := hm
  · obtain ⟨x, rest, hroute, hnodup, hlt, hlast, hlen⟩ := hm.enRoute
    have hx : x < n := hlt x List.mem_cons_self
    have hv : (vans m.recver).IsServer x := by
      rw [hroute.recver]
      exact hC.server ⟨x, hx⟩
    cases rest with
    | cons y rest =>
      have hcx : (c : ℕ) ≠ x := by
        intro h
        have hmem : (c : ℕ) ∈ y :: rest := List.mem_of_getLast? (by simpa using hlast)
        exact (List.nodup_cons.mp hnodup).1 (h ▸ hmem)
      obtain ⟨next, hr, hnext, hpay, hdrop, hsender, -⟩ :=
        receiving_enRoute hv queue hroute (.inr rfl) hcx
      have hcopy : ForServer T.root load next c :=
        ⟨⟨y, rest, hnext, (List.nodup_cons.mp hnodup).2,
          fun z hz => hlt z (List.mem_cons_of_mem _ hz), by simpa using hlast, by
            simp only [List.length_cons] at hlen ⊢
            omega⟩, hpay.trans hm.payload, hsender.trans hm.sender_⟩
      refine ⟨.queued next, [next], [], hr, rfl, ?_, by simp, fun k => ?_, ?_⟩
      · intro m' hm'
        obtain rfl := List.mem_singleton.mp hm'
        exact ⟨c, .inl hcopy⟩
      · simp [receivedBy, covers_forServer hm, covers_forServer hcopy]
      · simp only [List.map_cons, List.map_nil, List.sum_cons, List.sum_nil, Nat.add_zero,
          potential_forServer hm, potential_forServer hcopy]
        omega
    | nil =>
      obtain rfl : x = c := by simpa using hlast
      have htree : m.tree ≠ [] := by
        have : m.tree = load.tree := by rw [← hm.payload]; rfl
        simp [this, hload.tree]
      have hr := (receiving_last hv queue hroute).1 htree
      set msg : Message V := { (vans m.recver).recvMsg m with lastHop := (vans m.recver).myId }
      have hcopy : ∀ son, IsCopy T.root load (msg.relay son) son := fun son =>
        ⟨rfl, rfl, rfl, rfl, hm.sender_, relay_payload hload hm.payload son⟩
      obtain ⟨sent, hsent, hall⟩ := exists_copies hC T c queues hcopy
      have hperform : (vans m.recver).perform queues (.reply2 msg) = some (sent, []) := by
        have hindex : (msg.sender_ - 8).tdiv 2 = ((T.root : ℕ) : ℤ) := by
          rw [show msg.sender_ = serverRankToID T.root from hm.sender_, tdiv_serverRankToID]
        simp only [Van.perform, Van.processReply2Command, hindex, vectorAt_natCast, hroute.recver,
          (hsees c).sons, Option.bind_eq_bind, Option.bind_some, hsent, Option.map_some]
      refine ⟨.reply2 msg, sent, [], hr, hperform, forall_copy hall, by simp, fun k => ?_, ?_⟩
      · simp [receivedBy, copies_cover hall, covers_forServer hm]
      · have := copies_potential hall
        rw [potential_forServer hm, hlen]
        simp only [List.length_singleton]
        omega
  · have hv : (vans m.recver).IsWorker c := by
      rw [hm.toWorker.recver]
      exact hC.worker c
    refine ⟨.dataMsg ((vans m.recver).recvMsg m), [], _,
      receiving_worker hv queue hm.toWorker.cmd hm.toWorker.dst, rfl, by simp, ?_, fun k => ?_, ?_⟩
    · intro a ha
      obtain rfl := List.mem_singleton.mp ha
      exact ⟨⟨c, hv.myId⟩, hm.payload⟩
    · simp [receivedBy, covers_forWorker hm, hv.myId, Fin.val_inj]
    · simp [potential_forWorker hm]

/-- What holds in every state of a multicast. -/
structure Inv (vans : ℤ → Van) (T : RootedTree (Fin n)) (load : Message V) (s : State V) :
    Prop where
  vans : s.vans = vans
  copies : ∀ m ∈ s.net, Copy T load m
  accepted : ∀ a ∈ s.accepted, (∃ k : Fin n, a.1 = workerRankToID k) ∧ a.2.payload = load
  covered : ∀ k, receivedBy k s.accepted + (s.net.map (covers T k)).sum = 1

end Delivery

end NetStorm.Multicast

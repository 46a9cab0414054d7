import NetStorm.Library.IntegerRounding
import NetStorm.Library.Bag
import NetStorm.Library.Steps
import NetStorm.Node
import Mathlib.Algebra.Order.BigOperators.Group.List
import Mathlib.Logic.Function.Basic

/-!
# Flow control between servers

The counter `cache_count` of a server, which `Push` raises and `ProcessRecvReplyCommand`
lowers. The counter is an `int`; it is lowered in single precision, by the size of a message
as the next hop has put it in a float vector. The speed measurement of the same handlers is
left out, and so is the rest of a message.
-/
namespace NetStorm.FlowControl
open IntegerRounding

/-- A message between servers, or from a server to its worker: `last_hop` and `recver`, the
number of its data parts with the capacity of the second one, and `key`. -/
structure Packet where
  lastHop : ℤ
  recver : ℤ
  parts : ℕ
  capacity : ℕ
  key : ℤ := kEmpty
deriving DecidableEq

/-- A `RECV_REPLY`. Not on the wire is `capacity`, that of the message which is acknowledged. -/
structure Reply where
  sender_ : ℤ
  recver : ℤ
  route : List ℤ
  key : ℤ := kEmpty
  iters : Bool
  capacity : ℕ
deriving DecidableEq

/-- The members of a server's van that the flow control uses. -/
structure FlowVan where
  myId : ℤ
  cacheCount : ℤ
  enableSend : Bool
  receiveFlag : ℤ → Bool
  ethNode : List ℤ
  sizeCache : ℤ
  sizeMsgReport : ℕ

/-- The loop of `EnableSendCheck` over `eth_node`. -/
def FlowVan.restart (v : FlowVan) : List ℤ → FlowVan × List Reply
  | [] => (v, [])
  | node :: rest =>
    if node = v.myId ∨ v.receiveFlag node = true then v.restart rest
    else
      let r := ({ v with receiveFlag := Function.update v.receiveFlag node true }).restart rest
      (r.1, ⟨v.myId, node, [], -2, v.enableSend, 0⟩ :: r.2)

/-- `Van::EnableSendCheck`. -/
def FlowVan.enableSendCheck (v : FlowVan) : FlowVan × List Reply :=
  if v.sizeCache < v.cacheCount then ({ v with enableSend := false }, [])
  else if v.enableSend = false ∧ v.cacheCount < v.sizeCache.tdiv 5 then
    { v with enableSend := true }.restart v.ethNode
  else (v, [])

/-- The end of `Van::Push`: the message is in the queue of its `recver`. -/
def FlowVan.push (v : FlowVan) (m : Packet) : FlowVan × List Reply :=
  if m.recver ≠ v.myId + 1 ∧ 1 < m.parts then
    { v with cacheCount := (v.cacheCount + m.capacity).bmod (2 ^ 32) }.enableSendCheck
  else (v, [])

/-- `Van::Sending` marks the messages whose speed is measured. -/
def FlowVan.sending (v : FlowVan) (m : Packet) : Packet :=
  if 1 < m.parts ∧ v.sizeMsgReport ≤ m.capacity then { m with key := -1 } else m

/-- `cache_count-=msg.meta.route[0]`, in single precision. -/
def subtractFloat (count route : ℤ) : ℤ := roundInt 24 (roundInt 24 count - route)

/-- `Van::ProcessRecvReplyCommand`. -/
def FlowVan.processRecvReplyCommand (v : FlowVan) (r : Reply) : FlowVan × List Reply :=
  match r.route with
  | [] => v.enableSendCheck
  | c :: _ => { v with cacheCount := subtractFloat v.cacheCount c }.enableSendCheck

/-- `Van::RecvReply`, which a server calls for a message of another server. -/
def FlowVan.recvReply (v : FlowVan) (m : Packet) : FlowVan × List Reply :=
  if 1 < m.parts ∧ m.key = -1 then
    let v' := if v.enableSend = true then v
      else { v with receiveFlag := Function.update v.receiveFlag m.recver false }
    v'.processRecvReplyCommand
      ⟨m.lastHop, m.recver, [roundInt 24 m.capacity], -1, v.enableSend, m.capacity⟩
  else
    let v' := if v.enableSend = true then v
      else { v with receiveFlag := Function.update v.receiveFlag m.lastHop false }
    (v', [{ sender_ := v.myId
            recver := m.lastHop
            route := if 1 < m.parts then [roundInt 24 m.capacity] else []
            key := if m.key = -1 then -1 else kEmpty
            iters := v.enableSend
            capacity := if 1 < m.parts then m.capacity else 0 }])

/-- The servers by id, the messages in their send queues and in flight, and the replies. -/
structure State where
  vans : ℤ → FlowVan
  queue : List Packet
  net : List Packet
  replies : List Reply

/-- One step of the servers. Server ids are even, and a server sends to servers and to its
own worker. `okPush` and `okReply` say which messages may be pushed and replies received. -/
inductive Step (okPush : FlowVan → Packet → Prop) (okReply : FlowVan → Reply → Prop) :
    State → State → Prop
  | push {s : State} {m : Packet} (hserver : m.lastHop % 2 = 0)
      (hrecver : m.recver = m.lastHop + 1 ∨ m.recver % 2 = 0) (hok : okPush (s.vans m.lastHop) m) :
      Step okPush okReply s { s with
        vans := Function.update s.vans m.lastHop ((s.vans m.lastHop).push m).1
        queue := s.queue ++ [m]
        replies := s.replies ++ ((s.vans m.lastHop).push m).2 }
  | sending {s : State} {l₁ l₂ : List Packet} {m : Packet} (hqueue : s.queue = l₁ ++ m :: l₂) :
      Step okPush okReply s { s with
        queue := l₁ ++ l₂
        net := s.net ++ [(s.vans m.lastHop).sending m] }
  | receiving {s : State} {l₁ l₂ : List Packet} {m : Packet} (hnet : s.net = l₁ ++ m :: l₂)
      (hserver : m.recver % 2 = 0) :
      Step okPush okReply s { s with
        vans := Function.update s.vans m.recver ((s.vans m.recver).recvReply m).1
        net := l₁ ++ l₂
        replies := s.replies ++ ((s.vans m.recver).recvReply m).2 }
  | receivingWorker {s : State} {l₁ l₂ : List Packet} {m : Packet} (hnet : s.net = l₁ ++ m :: l₂)
      (hworker : m.recver % 2 ≠ 0) :
      Step okPush okReply s { s with net := l₁ ++ l₂ }
  | reply {s : State} {l₁ l₂ : List Reply} {r : Reply} (hreplies : s.replies = l₁ ++ r :: l₂)
      (hok : okReply (s.vans r.recver) r) :
      Step okPush okReply s { s with
        vans := Function.update s.vans r.recver
          ((s.vans r.recver).processRecvReplyCommand r).1
        replies := l₁ ++ l₂ ++ ((s.vans r.recver).processRecvReplyCommand r).2 }

/-- A pushed message that is counted is not one whose speed is measured, and the counter does
not leave the range of `int`. -/
def Unmeasured (v : FlowVan) (m : Packet) : Prop :=
  m.recver ≠ v.myId + 1 → 1 < m.parts →
    m.key ≠ -1 ∧ m.capacity < v.sizeMsgReport ∧ v.cacheCount + m.capacity < 2 ^ 31

/-- Single precision lowers the counter by exactly the size of the message. -/
def Precise (v : FlowVan) (r : Reply) : Prop :=
  ∀ c rest, r.route = c :: rest → subtractFloat v.cacheCount c = v.cacheCount - r.capacity

/-- The acknowledgement of a message has its size, or that of a message without one. -/
def Reply.Answers (r : Reply) : Prop :=
  r.route = [] ∧ r.capacity = 0 ∨ r.route = [roundInt 24 r.capacity]

/-- Up to `2 ^ 24` single precision loses nothing. -/
theorem Reply.Answers.precise {v : FlowVan} {r : Reply} (h : r.Answers)
    (hcapacity : r.capacity ≤ v.cacheCount) (hcount : v.cacheCount ≤ 2 ^ 24) : Precise v r := by
  intro c rest hroute
  have hexact : ∀ x : ℤ, 0 ≤ x → x ≤ 2 ^ 24 → roundInt 24 x = x := fun x hx hle =>
    roundInt_eq_self_iff.mpr (representable_of_le (by decide) (by omega))
  have hc : c = r.capacity := by
    rcases h with ⟨hnil, -⟩ | hone
    · rw [hnil] at hroute
      cases hroute
    · rw [hone] at hroute
      rw [← (List.cons.inj hroute).1]
      exact hexact r.capacity (Int.natCast_nonneg _) (hcapacity.trans hcount)
  rw [subtractFloat, hc, hexact v.cacheCount (by omega) hcount,
    hexact _ (by omega) (by omega)]

/-- What a message counts for at server `a`. -/
def Packet.weight (a : ℤ) (m : Packet) : ℕ :=
  if m.lastHop = a ∧ m.recver ≠ a + 1 ∧ 1 < m.parts then m.capacity else 0

/-- What the acknowledgement of a message counts for at server `a`. -/
def Reply.weight (a : ℤ) (r : Reply) : ℕ := if r.recver = a then r.capacity else 0

/-- The size of what server `a` has pushed to other servers and not seen acknowledged. -/
def State.unacknowledged (s : State) (a : ℤ) : ℕ :=
  (s.queue.map (Packet.weight a)).sum + (s.net.map (Packet.weight a)).sum +
    (s.replies.map (Reply.weight a)).sum

section Handlers
variable {v : FlowVan}

/-- The fields that restarting the other servers leaves alone. -/
structure FlowVan.Keeps (v v' : FlowVan) : Prop where
  myId : v'.myId = v.myId
  cacheCount : v'.cacheCount = v.cacheCount
  sizeMsgReport : v'.sizeMsgReport = v.sizeMsgReport

/-- Replies that acknowledge nothing. -/
def Restarts (rs : List Reply) : Prop := ∀ r ∈ rs, r.route = [] ∧ r.capacity = 0

theorem FlowVan.restart_spec (v : FlowVan) (l : List ℤ) :
    v.Keeps (v.restart l).1 ∧ Restarts (v.restart l).2 := by
  induction l generalizing v with
  | nil => exact ⟨⟨rfl, rfl, rfl⟩, by simp [restart, Restarts]⟩
  | cons node rest ih =>
    rw [restart]
    split_ifs
    · exact ih v
    · obtain ⟨hkeeps, hrestarts⟩ :=
        ih { v with receiveFlag := Function.update v.receiveFlag node true }
      refine ⟨⟨hkeeps.myId, hkeeps.cacheCount, hkeeps.sizeMsgReport⟩, fun r hr => ?_⟩
      rcases List.mem_cons.mp hr with rfl | hr
      · exact ⟨rfl, rfl⟩
      · exact hrestarts r hr

theorem FlowVan.enableSendCheck_spec (v : FlowVan) :
    v.Keeps v.enableSendCheck.1 ∧ Restarts v.enableSendCheck.2 := by
  rw [enableSendCheck]
  split_ifs
  · exact ⟨⟨rfl, rfl, rfl⟩, by simp [Restarts]⟩
  · obtain ⟨hkeeps, hrestarts⟩ := { v with enableSend := true }.restart_spec v.ethNode
    exact ⟨⟨hkeeps.myId, hkeeps.cacheCount, hkeeps.sizeMsgReport⟩, hrestarts⟩
  · exact ⟨⟨rfl, rfl, rfl⟩, by simp [Restarts]⟩

theorem Restarts.sum_weight {rs : List Reply} (h : Restarts rs) (a : ℤ) :
    (rs.map (Reply.weight a)).sum = 0 := by
  refine List.sum_eq_zero fun x hx => ?_
  obtain ⟨r, hr, rfl⟩ := List.mem_map.mp hx
  rw [Reply.weight, (h r hr).2, ite_self]

/-- `Push` raises the counter by the size of a message that is counted. -/
theorem FlowVan.push_spec {m : Packet} (hok : Unmeasured v m) (hmyId : v.myId = m.lastHop)
    (hcount : 0 ≤ v.cacheCount) :
    (v.push m).1.myId = v.myId ∧ (v.push m).1.sizeMsgReport = v.sizeMsgReport ∧
      (v.push m).1.cacheCount = v.cacheCount + m.weight v.myId ∧ Restarts (v.push m).2 := by
  rw [push]
  split_ifs with h
  · obtain ⟨-, -, hlt⟩ := hok h.1 h.2
    obtain ⟨hkeeps, hrestarts⟩ := FlowVan.enableSendCheck_spec
      { v with cacheCount := (v.cacheCount + m.capacity).bmod (2 ^ 32) }
    refine ⟨hkeeps.myId, hkeeps.sizeMsgReport, ?_, hrestarts⟩
    rw [hkeeps.cacheCount, Packet.weight, if_pos ⟨hmyId.symm, h⟩]
    refine Int.bmod_eq_of_le ?_ ?_ <;> push_cast <;> omega
  · refine ⟨rfl, rfl, ?_, by simp [Restarts]⟩
    rw [Packet.weight, if_neg fun hw => h hw.2]
    simp

/-- The next hop acknowledges a message that is not measured, and keeps its own counter. -/
theorem FlowVan.recvReply_spec {m : Packet} (hkey : 1 < m.parts → m.key ≠ -1) :
    v.Keeps (v.recvReply m).1 ∧ ∃ r, (v.recvReply m).2 = [r] ∧ r.recver = m.lastHop ∧
      r.Answers ∧ r.capacity = if 1 < m.parts then m.capacity else 0 := by
  rw [recvReply, if_neg fun h => hkey h.1 h.2]
  refine ⟨?_, _, rfl, rfl, ?_, rfl⟩
  · dsimp only
    split_ifs
    · exact ⟨rfl, rfl, rfl⟩
    · exact ⟨rfl, rfl, rfl⟩
  · by_cases hparts : 1 < m.parts
    · exact .inr (by simp [hparts])
    · exact .inl (by simp [hparts])

/-- A reply lowers the counter by the size of the message that it acknowledges. -/
theorem FlowVan.processRecvReplyCommand_spec {r : Reply} (hok : Precise v r)
    (hanswers : r.Answers) :
    (v.processRecvReplyCommand r).1.myId = v.myId ∧
      (v.processRecvReplyCommand r).1.sizeMsgReport = v.sizeMsgReport ∧
      (v.processRecvReplyCommand r).1.cacheCount = v.cacheCount - r.capacity ∧
      Restarts (v.processRecvReplyCommand r).2 := by
  rw [processRecvReplyCommand]
  split
  · rename_i hnil
    obtain ⟨hkeeps, hrestarts⟩ := v.enableSendCheck_spec
    have hzero : r.capacity = 0 := by
      rcases hanswers with ⟨-, hzero⟩ | hone
      · exact hzero
      · simp [hone] at hnil
    exact ⟨hkeeps.myId, hkeeps.sizeMsgReport, by simp [hkeeps.cacheCount, hzero], hrestarts⟩
  · rename_i c rest hcons
    obtain ⟨hkeeps, hrestarts⟩ :=
      { v with cacheCount := subtractFloat v.cacheCount c }.enableSendCheck_spec
    exact ⟨hkeeps.myId, hkeeps.sizeMsgReport, hkeeps.cacheCount.trans (hok c rest hcons), hrestarts⟩

end Handlers

/-- A message of a server, for a server or for its own worker. -/
def Packet.Hop (m : Packet) : Prop :=
  m.lastHop % 2 = 0 ∧ (m.recver = m.lastHop + 1 ∨ m.recver % 2 = 0)

/-- What holds in every state of a run in which no counted message is measured. -/
structure Conserved (s : State) : Prop where
  myId : ∀ a, (s.vans a).myId = a
  queue : ∀ m ∈ s.queue, m.Hop ∧ (m.recver % 2 = 0 → 1 < m.parts →
    m.key ≠ -1 ∧ m.capacity < (s.vans m.lastHop).sizeMsgReport)
  net : ∀ m ∈ s.net, m.Hop ∧ (m.recver % 2 = 0 → 1 < m.parts → m.key ≠ -1)
  replies : ∀ r ∈ s.replies, r.Answers
  count : ∀ a, (s.vans a).cacheCount = s.unacknowledged a

section Steps
variable {s : State}

/-- The vans after a step at server `a` which keeps its identity and its limit. -/
theorem Conserved.vans (h : Conserved s) {a : ℤ} {v : FlowVan} (hmyId : v.myId = (s.vans a).myId)
    (hsize : v.sizeMsgReport = (s.vans a).sizeMsgReport) (b : ℤ) :
    (Function.update s.vans a v b).myId = b ∧
      (Function.update s.vans a v b).sizeMsgReport = (s.vans b).sizeMsgReport := by
  by_cases hb : b = a
  · subst hb
    rw [Function.update_self]
    exact ⟨hmyId.trans (h.myId b), hsize⟩
  · rw [Function.update_of_ne hb]
    exact ⟨h.myId b, rfl⟩

theorem Conserved.push (h : Conserved s) {m : Packet} (hhop : m.Hop)
    (hok : Unmeasured (s.vans m.lastHop) m) :
    Conserved { s with
      vans := Function.update s.vans m.lastHop ((s.vans m.lastHop).push m).1
      queue := s.queue ++ [m]
      replies := s.replies ++ ((s.vans m.lastHop).push m).2 } := by
  have hcount : 0 ≤ (s.vans m.lastHop).cacheCount := by
    rw [h.count]
    exact Int.natCast_nonneg _
  obtain ⟨hmyId, hsize, hraised, hrestarts⟩ := FlowVan.push_spec hok (h.myId m.lastHop) hcount
  have hvans := h.vans hmyId hsize
  refine ⟨fun a => (hvans a).1, fun m' hm' => ?_, h.net, fun r hr => ?_, fun a => ?_⟩
  · rw [(hvans m'.lastHop).2]
    rcases List.mem_append.mp hm' with hm' | hm'
    · exact h.queue m' hm'
    · obtain rfl := List.mem_singleton.mp hm'
      refine ⟨hhop, fun heven hparts => ?_⟩
      have hne : m'.recver ≠ (s.vans m'.lastHop).myId + 1 := by
        have := hhop.1
        rw [h.myId]
        omega
      exact ⟨(hok hne hparts).1, (hok hne hparts).2.1⟩
  · rcases List.mem_append.mp hr with hr | hr
    · exact h.replies r hr
    · exact .inl (hrestarts r hr)
  · have hold := h.count a
    simp only [State.unacknowledged, List.map_append, List.sum_append, hrestarts.sum_weight,
      List.map_singleton, List.sum_singleton] at hold ⊢
    by_cases ha : a = m.lastHop
    · subst ha
      rw [Function.update_self, hraised, h.myId, hold]
      push_cast
      ring
    · have hzero : m.weight a = 0 := if_neg fun hw => ha hw.1.symm
      rw [Function.update_of_ne ha, hold, hzero]
      push_cast
      ring

theorem Packet.weight_sending (v : FlowVan) (a : ℤ) (m : Packet) :
    (v.sending m).weight a = m.weight a := by
  rw [FlowVan.sending]
  split_ifs <;> rfl

theorem Conserved.sending (h : Conserved s) {l₁ l₂ : List Packet} {m : Packet}
    (hqueue : s.queue = l₁ ++ m :: l₂) :
    Conserved { s with
      queue := l₁ ++ l₂
      net := s.net ++ [(s.vans m.lastHop).sending m] } := by
  obtain ⟨hhop, hm⟩ := h.queue m (by simp [hqueue])
  refine ⟨h.myId, fun m' hm' => h.queue m' (mem_of_mem_taken hqueue hm'), fun m' hm' => ?_,
    h.replies, fun a => ?_⟩
  · rcases List.mem_append.mp hm' with hm' | hm'
    · exact h.net m' hm'
    · obtain rfl := List.mem_singleton.mp hm'
      rw [FlowVan.sending]
      split_ifs with hmeasured
      · refine ⟨hhop, fun heven hparts => ?_⟩
        have := (hm heven hparts).2
        omega
      · exact ⟨hhop, fun heven hparts => (hm heven hparts).1⟩
  · have hold := h.count a
    simp only [State.unacknowledged, hqueue, List.map_append, List.sum_append, List.map_cons,
      List.sum_cons, List.map_nil, List.sum_nil, Packet.weight_sending] at hold ⊢
    rw [hold]
    push_cast
    ring

theorem Conserved.receiving (h : Conserved s) {l₁ l₂ : List Packet} {m : Packet}
    (hnet : s.net = l₁ ++ m :: l₂) (hserver : m.recver % 2 = 0) :
    Conserved { s with
      vans := Function.update s.vans m.recver ((s.vans m.recver).recvReply m).1
      net := l₁ ++ l₂
      replies := s.replies ++ ((s.vans m.recver).recvReply m).2 } := by
  obtain ⟨⟨heven, -⟩, hm⟩ := h.net m (by simp [hnet])
  obtain ⟨hkeeps, r, hr, hrecver, hanswers, hcapacity⟩ :=
    FlowVan.recvReply_spec (v := s.vans m.recver) (hm hserver)
  have hvans := h.vans hkeeps.myId hkeeps.sizeMsgReport
  have hsame : ∀ a, (Function.update s.vans m.recver ((s.vans m.recver).recvReply m).1 a).cacheCount =
      (s.vans a).cacheCount := by
    intro a
    by_cases ha : a = m.recver
    · subst ha
      rw [Function.update_self, hkeeps.cacheCount]
    · rw [Function.update_of_ne ha]
  -- The reply counts for the last hop what the message has counted for.
  have hweight : ∀ a, r.weight a = m.weight a := by
    intro a
    rw [Reply.weight, Packet.weight, hrecver, hcapacity]
    by_cases ha : m.lastHop = a
    · have hne : m.recver ≠ a + 1 := by omega
      simp [ha, hne]
    · simp [ha]
  refine ⟨fun a => (hvans a).1, fun m' hm' => ?_,
    fun m' hm' => h.net m' (mem_of_mem_taken hnet hm'), fun r' hr' => ?_, fun a => ?_⟩
  · rw [(hvans m'.lastHop).2]
    exact h.queue m' hm'
  · rcases List.mem_append.mp hr' with hr' | hr'
    · exact h.replies r' hr'
    · rw [hr, List.mem_singleton] at hr'
      exact hr' ▸ hanswers
  · have hold := h.count a
    rw [hsame a]
    simp only [State.unacknowledged, hnet, hr, List.map_append, List.sum_append, List.map_cons,
      List.sum_cons, List.map_nil, List.sum_nil, hweight] at hold ⊢
    rw [hold]
    push_cast
    ring

theorem Conserved.receivingWorker (h : Conserved s) {l₁ l₂ : List Packet} {m : Packet}
    (hnet : s.net = l₁ ++ m :: l₂) (hworker : m.recver % 2 ≠ 0) :
    Conserved { s with net := l₁ ++ l₂ } := by
  obtain ⟨⟨-, hrecver⟩, -⟩ := h.net m (by simp [hnet])
  have hweight : ∀ a, m.weight a = 0 := by
    intro a
    refine if_neg fun hw => ?_
    have := hw.1
    have := hw.2.1
    omega
  refine ⟨h.myId, h.queue, fun m' hm' => h.net m' (mem_of_mem_taken hnet hm'), h.replies,
    fun a => ?_⟩
  have hold := h.count a
  simp only [State.unacknowledged, hnet, List.map_append, List.sum_append, List.map_cons,
    List.sum_cons, hweight] at hold ⊢
  rw [hold]
  push_cast
  ring

theorem Conserved.reply (h : Conserved s) {l₁ l₂ : List Reply} {r : Reply}
    (hreplies : s.replies = l₁ ++ r :: l₂) (hok : Precise (s.vans r.recver) r) :
    Conserved { s with
      vans := Function.update s.vans r.recver ((s.vans r.recver).processRecvReplyCommand r).1
      replies := l₁ ++ l₂ ++ ((s.vans r.recver).processRecvReplyCommand r).2 } := by
  obtain ⟨hmyId, hsize, hlowered, hrestarts⟩ :=
    FlowVan.processRecvReplyCommand_spec hok (h.replies r (by simp [hreplies]))
  have hvans := h.vans hmyId hsize
  refine ⟨fun a => (hvans a).1, fun m hm => ?_, h.net, fun r' hr' => ?_, fun a => ?_⟩
  · rw [(hvans m.lastHop).2]
    exact h.queue m hm
  · rcases List.mem_append.mp hr' with hr' | hr'
    · exact h.replies r' (mem_of_mem_taken hreplies hr')
    · exact .inl (hrestarts r' hr')
  · have hold := h.count a
    simp only [State.unacknowledged, hreplies, List.map_append, List.sum_append, List.map_cons,
      List.sum_cons, hrestarts.sum_weight] at hold ⊢
    by_cases ha : a = r.recver
    · subst ha
      rw [Function.update_self, hlowered, hold, Reply.weight, if_pos rfl]
      push_cast
      ring
    · have hzero : r.weight a = 0 := if_neg fun he => ha he.symm
      rw [Function.update_of_ne ha, hold, hzero]
      push_cast
      ring

end Steps

/-- While a counter is at most `2 ^ 24`, every acknowledgement lowers it exactly. -/
theorem Conserved.precise {s : State} (h : Conserved s) {r : Reply} (hr : r ∈ s.replies)
    (hcount : (s.vans r.recver).cacheCount ≤ 2 ^ 24) : Precise (s.vans r.recver) r := by
  refine (h.replies r hr).precise ?_ hcount
  have hle : r.weight r.recver ≤ (s.replies.map (Reply.weight r.recver)).sum :=
    List.le_sum_of_mem (List.mem_map_of_mem hr)
  rw [Reply.weight, if_pos rfl] at hle
  rw [h.count, State.unacknowledged]
  exact Nat.cast_le.mpr (by omega)

/-- Before the first push. -/
structure State.Starts (s : State) : Prop where
  myId : ∀ a, (s.vans a).myId = a
  cacheCount : ∀ a, (s.vans a).cacheCount = 0
  queue : s.queue = []
  net : s.net = []
  replies : s.replies = []

theorem State.Starts.conserved {s : State} (h : s.Starts) : Conserved s := by
  refine ⟨h.myId, ?_, ?_, ?_, fun a => ?_⟩
  · simp [h.queue]
  · simp [h.net]
  · simp [h.replies]
  · simp [h.cacheCount a, State.unacknowledged, h.queue, h.net, h.replies]

theorem Conserved.step {s s' : State} (h : Conserved s) (hstep : Step Unmeasured Precise s s') :
    Conserved s' := by
  cases hstep with
  | push hserver hrecver hok => exact h.push ⟨hserver, hrecver⟩ hok
  | sending hqueue => exact h.sending hqueue
  | receiving hnet hserver => exact h.receiving hnet hserver
  | receivingWorker hnet hworker => exact h.receivingWorker hnet hworker
  | reply hreplies hok => exact h.reply hreplies hok

/-- **Cache accounting is conserved** in every run in which the counted messages are not
measured, the counters stay in the range of `int` and single precision subtracts exactly: a
server's counter is the size of what it has pushed to other servers and not seen
acknowledged. -/
theorem cache_count_conserved {s₀ s : State} (h₀ : s₀.Starts) {k : ℕ}
    (hrun : Steps (Step Unmeasured Precise) k s₀ s) (a : ℤ) :
    (s.vans a).cacheCount = s.unacknowledged a ∧ 0 ≤ (s.vans a).cacheCount ∧
      (s.queue = [] → s.net = [] → s.replies = [] → (s.vans a).cacheCount = 0) := by
  have h : Conserved s := hrun.invariant h₀.conserved fun b c hb hbc => hb.step hbc
  refine ⟨h.count a, ?_, fun hqueue hnet hreplies => ?_⟩
  · rw [h.count a]
    exact Int.natCast_nonneg _
  · simp [h.count a, State.unacknowledged, hqueue, hnet, hreplies]

/-- Servers with a cache of 1000 that measure messages from 100 on. -/
def idleState : State := ⟨fun a => ⟨a, 0, true, fun _ => true, [8, 10], 1000, 100⟩, [], [], []⟩

theorem idleState_starts : idleState.Starts := ⟨fun _ => rfl, fun _ => rfl, rfl, rfl, rfl⟩

/-- Server 8 pushes messages of size 99 and 50 to server 10. When the first one is acknowledged,
the counter is 50. -/
theorem cache_count_conserved_two_messages :
    idleState.Starts ∧ ∃ s, Steps (Step Unmeasured Precise) 5 idleState s ∧
      s.unacknowledged 8 = 50 ∧ (s.vans 8).cacheCount = 50 := by
  let m : Packet := ⟨8, 10, 3, 99, kEmpty⟩
  let m' : Packet := ⟨8, 10, 3, 50, kEmpty⟩
  let s₁ : State := { idleState with
    vans := Function.update idleState.vans 8 ((idleState.vans 8).push m).1
    queue := idleState.queue ++ [m]
    replies := idleState.replies ++ ((idleState.vans 8).push m).2 }
  let s₂ : State := { s₁ with
    vans := Function.update s₁.vans 8 ((s₁.vans 8).push m').1
    queue := s₁.queue ++ [m']
    replies := s₁.replies ++ ((s₁.vans 8).push m').2 }
  let s₃ : State := { s₂ with
    queue := [] ++ [m']
    net := s₂.net ++ [(s₂.vans 8).sending m] }
  let s₄ : State := { s₃ with
    vans := Function.update s₃.vans 10 ((s₃.vans 10).recvReply m).1
    net := [] ++ []
    replies := s₃.replies ++ ((s₃.vans 10).recvReply m).2 }
  let r : Reply := ⟨10, 8, [99], kEmpty, true, 99⟩
  have hpush : Step Unmeasured Precise idleState s₁ :=
    @Step.push _ _ idleState m rfl (.inr rfl) fun _ _ => ⟨by decide, by decide, by decide⟩
  have hpush' : Step Unmeasured Precise s₁ s₂ :=
    @Step.push _ _ s₁ m' rfl (.inr rfl)
      fun _ _ => ⟨by decide +kernel, by decide +kernel, by decide +kernel⟩
  have hsend : Step Unmeasured Precise s₂ s₃ := @Step.sending _ _ s₂ [] [m'] m rfl
  have hnet : s₃.net = [m] := by decide +kernel
  have hreceive : Step Unmeasured Precise s₃ s₄ := @Step.receiving _ _ s₃ [] [] m hnet rfl
  have hsteps := (((Steps.refl idleState).tail hpush).tail hpush').tail hsend |>.tail hreceive
  have hreplies : s₄.replies = [] ++ r :: [] := by decide +kernel
  have hprecise : Precise (s₄.vans r.recver) r :=
    (hsteps.invariant idleState_starts.conserved fun _ _ hb => hb.step).precise
      (by rw [hreplies]; exact List.mem_singleton_self r) (by decide +kernel)
  have hreply : Step Unmeasured Precise s₄ _ := @Step.reply _ _ s₄ [] [] r hreplies hprecise
  have hunacknowledged := (cache_count_conserved idleState_starts (hsteps.tail hreply) 8).1
  refine ⟨idleState_starts, _, hsteps.tail hreply, by decide +kernel, ?_⟩
  rw [hunacknowledged]
  decide +kernel

/-- Server 10 acknowledges a message of size 100 to itself: its counter is negative, and that
of server 8 keeps the message, when nothing is left to be done. -/
theorem cache_count_negative :
    idleState.Starts ∧
      ∃ s, Steps (Step (fun _ _ => True) fun _ _ => True) 3 idleState s ∧ s.queue = [] ∧
        s.net = [] ∧ s.replies = [] ∧ (s.vans 10).cacheCount = -100 ∧
        (s.vans 8).cacheCount = 100 ∧ s.unacknowledged 10 = 0 ∧ s.unacknowledged 8 = 0 := by
  let m : Packet := ⟨8, 10, 3, 100, kEmpty⟩
  let s₁ : State := { idleState with
    vans := Function.update idleState.vans 8 ((idleState.vans 8).push m).1
    queue := idleState.queue ++ [m]
    replies := idleState.replies ++ ((idleState.vans 8).push m).2 }
  let s₂ : State := { s₁ with
    queue := [] ++ []
    net := s₁.net ++ [(s₁.vans 8).sending m] }
  have hpush : Step (fun _ _ => True) (fun _ _ => True) idleState s₁ :=
    @Step.push _ _ idleState m rfl (.inr rfl) trivial
  have hsend : Step (fun _ _ => True) (fun _ _ => True) s₁ s₂ := @Step.sending _ _ s₁ [] [] m rfl
  have hserver : ((s₁.vans 8).sending m).recver % 2 = 0 := by decide +kernel
  have hreceive : Step (fun _ _ => True) (fun _ _ => True) s₂ _ :=
    @Step.receiving _ _ s₂ [] [] ((s₁.vans 8).sending m) rfl hserver
  refine ⟨idleState_starts, _, .tail (.tail (.tail (.refl _) hpush) hsend) hreceive, ?_⟩
  decide +kernel

end NetStorm.FlowControl

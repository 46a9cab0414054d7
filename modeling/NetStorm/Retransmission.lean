import NetStorm.Resender
import NetStorm.Library.Bag
import NetStorm.Library.Steps
import Mathlib.Data.List.Basic
import Mathlib.Logic.Function.Basic
import Mathlib.Tactic.IntervalCases

/-!
# Retransmission

Nodes with a resender, and the links between them. `Van::Send` puts a message on its link and
in the buffer; the receiving node acknowledges it, and the acknowledgement takes the message out
of the buffer again. Links may lose and reorder messages. Handlers are atomic, and the bound on
the number of retries is left out. A failing `CHECK` aborts the node, and it takes no more steps.

A node that receives a message knows the sender by the identity of its socket. The sockets to the
scheduler were made before the nodes had ids and have none, so the scheduler takes all messages of
other nodes to come from `kEmpty`, and the acknowledgement to that id aborts it.
-/
namespace NetStorm.Retransmission

/-- A message on a link, with the node that has sent it. The number of the call of `Van::Send`
is not on the wire; for an acknowledgement it is that of the message it acknowledges. -/
structure Transmission where
  ticket : ℕ
  hop : ℤ
  msg : WireMeta

/-- The nodes and the links. Of the past are kept the calls of `Van::Send` with the sending
node, what `AddIncomming` has returned for the messages it was given, with the node and the
number of the call, and the calls whose acknowledgement has been received. The resender is made
when the node has its id. -/
structure State where
  resenders : ℤ → Resender := fun _ => {}
  net : List Transmission := []
  sent : List (ℤ × WireMeta) := []
  incoming : List (ℤ × ℕ × Bool) := []
  acknowledged : List ℕ := []
  aborted : List ℤ := []

/-- `GetNodeID` for the identity of the socket of node `hop` to node `recver`. -/
def getNodeID (hop recver : ℤ) : ℤ :=
  if recver = kScheduler ∧ hop ≠ kScheduler then kEmpty else hop

/-- `RecvMsg` at node `myId`: the ends of the link, and the rest from the wire. -/
def recvMsg (myId hop : ℤ) (init m : WireMeta) : Option WireMeta :=
  unpackMeta { init with sender := getNodeID hop myId, recver := myId } (packMeta m)

/-- One step of a node that has not aborted, or of a link. A message given to `Van::Send` is any
that satisfies `ok`, except that nobody sends itself `TERMINATE` that way; it is taken as
`Add_trace` leaves it. It is on its link before `AddOutgoing` checks its timestamp. A link may lose
messages, and the monitor resends what is in the buffer, as often as it likes. -/
inductive Step (ok : State → ℤ → WireMeta → Prop) : State → State → Prop
  | send {s : State} {a : ℤ} {m : WireMeta} (halive : a ∉ s.aborted) (hid : a ≠ kEmpty)
      (hcmd : m.cmd ≠ .ack ∧ m.cmd ≠ .terminate) (hok : ok s a m) (hrecver : m.recver ≠ kEmpty)
      {r : Resender} (hrun : (s.resenders a).addOutgoing a s.sent.length m = some r) :
      Step ok s { s with
        resenders := Function.update s.resenders a r
        net := s.net ++ [⟨s.sent.length, a, m⟩]
        sent := s.sent ++ [(a, m)] }
  | sendMsgAborts {s : State} {a : ℤ} {m : WireMeta} (halive : a ∉ s.aborted) (hid : a ≠ kEmpty)
      (hcmd : m.cmd ≠ .ack ∧ m.cmd ≠ .terminate) (hok : ok s a m) (hrecver : m.recver = kEmpty) :
      Step ok s { s with aborted := a :: s.aborted }
  | addOutgoingAborts {s : State} {a : ℤ} {m : WireMeta} (halive : a ∉ s.aborted)
      (hid : a ≠ kEmpty) (hcmd : m.cmd ≠ .ack ∧ m.cmd ≠ .terminate) (hok : ok s a m)
      (hrecver : m.recver ≠ kEmpty)
      (hrun : (s.resenders a).addOutgoing a s.sent.length m = none) :
      Step ok s { s with
        net := s.net ++ [⟨s.sent.length, a, m⟩]
        sent := s.sent ++ [(a, m)]
        aborted := a :: s.aborted }
  | resend {s : State} {a : ℤ} {key : UInt64} {ticket : ℕ} {m : WireMeta} (halive : a ∉ s.aborted)
      (hmem : (key, ticket, m) ∈ (s.resenders a).sendBuff) :
      Step ok s { s with net := s.net ++ [⟨ticket, a, m⟩] }
  | lose {s : State} {l₁ l₂ : List Transmission} {t : Transmission}
      (hnet : s.net = l₁ ++ t :: l₂) :
      Step ok s { s with net := l₁ ++ l₂ }
  | receive {s : State} {l₁ l₂ : List Transmission} {t : Transmission}
      (hnet : s.net = l₁ ++ t :: l₂) (halive : t.msg.recver ∉ s.aborted) {init m : WireMeta}
      (hinit : init.node = []) (hrecv : recvMsg t.msg.recver t.hop init t.msg = some m)
      (startTime : BitVec 64) (barrierGroup : ℤ) {r : Resender} {dup : Bool} {ack : Option WireMeta}
      (hrun : (s.resenders t.msg.recver).addIncomming t.msg.recver startTime barrierGroup m =
        some (r, dup, ack)) (hack : ∀ m' ∈ ack, m'.recver ≠ kEmpty) :
      Step ok s { s with
        resenders := Function.update s.resenders t.msg.recver r
        net := l₁ ++ l₂ ++ ack.toList.map fun m => ⟨t.ticket, t.msg.recver, m⟩
        incoming := if t.msg.cmd = .ack then s.incoming
          else s.incoming ++ [(t.msg.recver, t.ticket, dup)]
        acknowledged := if t.msg.cmd = .ack then s.acknowledged ++ [t.ticket]
          else s.acknowledged }
  | receiveAborts {s : State} {l₁ l₂ : List Transmission} {t : Transmission}
      (hnet : s.net = l₁ ++ t :: l₂) (halive : t.msg.recver ∉ s.aborted) {init m : WireMeta}
      (hinit : init.node = []) (hrecv : recvMsg t.msg.recver t.hop init t.msg = some m)
      (startTime : BitVec 64) (barrierGroup : ℤ)
      (hrun : ∀ r dup ack,
        (s.resenders t.msg.recver).addIncomming t.msg.recver startTime barrierGroup m =
          some (r, dup, ack) → ∃ m' ∈ ack, m'.recver = kEmpty) :
      Step ok s { s with net := l₁ ++ l₂, aborted := t.msg.recver :: s.aborted }

/-- What the receiving node sees of a message. -/
theorem recvMsg_spec {myId hop : ℤ} {init m m' : WireMeta} (hinit : init.node = [])
    (h : recvMsg myId hop init m = some m') :
    m'.sender = getNodeID hop myId ∧ m'.recver = myId ∧ m'.cmd = m.cmd ∧
      m'.timestamp = m.timestamp ∧ m'.appId = m.appId ∧ m'.request = m.request ∧
      (m.cmd = .ack → m'.msgSig = m.msgSig) := by
  obtain ⟨tree, htree, h'⟩ := Option.bind_eq_some_iff.mp h
  obtain ⟨m'', hunpack, -, hsame⟩ :=
    @unpackMeta_packMeta { init with sender := getNodeID hop myId, recver := myId } m hinit tree
      htree
  obtain rfl := Option.some.inj (h.symm.trans hunpack)
  have hends : m'.sender = getNodeID hop myId ∧ m'.recver = myId := by
    obtain ⟨dataType, -, h''⟩ := Option.bind_eq_some_iff.mp h'
    dsimp only at h''
    split at h''
    · obtain rfl := Option.some.inj h''
      exact ⟨rfl, rfl⟩
    · obtain ⟨cmd, -, h''⟩ := Option.bind_eq_some_iff.mp h''
      obtain ⟨node, -, h''⟩ := Option.bind_eq_some_iff.mp h''
      obtain rfl := Option.some.inj h''
      exact ⟨rfl, rfl⟩
  have hints := hsame.ints
  have hflags := hsame.flags
  simp only [List.cons.injEq] at hints hflags
  exact ⟨hends.1, hends.2, hsame.cmd, hints.2.2.2.2.1, hints.2.2.1, hflags.2.1, hsame.msgSig⟩

/-- The key that the receiving node gives to a message that was sent to it over a link. -/
def incomingKey (hop : ℤ) (m : WireMeta) : Option UInt64 :=
  getKey m.recver { m with sender := getNodeID hop m.recver }

/-- The sender in that key. The scheduler puts in its own id. -/
def keySender (hop recver : ℤ) : ℤ := if recver = kScheduler then kScheduler else hop

theorem getKey_recvMsg {hop : ℤ} {init m m' : WireMeta} (hinit : init.node = [])
    (h : recvMsg m.recver hop init m = some m') : getKey m.recver m' = incomingKey hop m := by
  obtain ⟨hsender, hrecver, -, htimestamp, happ, hrequest, -⟩ := recvMsg_spec hinit h
  simp only [getKey, incomingKey, hsender, hrecver, htimestamp, happ, hrequest]

theorem keySender_eq {hop recver : ℤ} (hhop : hop ≠ kEmpty) :
    (if getNodeID hop recver = kEmpty then recver else getNodeID hop recver) =
      keySender hop recver := by
  have hself : ¬ (recver = kScheduler ∧ hop ≠ kScheduler) →
      (if getNodeID hop recver = kEmpty then recver else getNodeID hop recver) = hop := by
    intro hn
    rw [getNodeID, if_neg hn, if_neg hhop]
  by_cases hr : recver = kScheduler
  · rw [keySender, if_pos hr]
    by_cases hs : hop = kScheduler
    · rw [hself fun h => h.2 hs, hs]
    · have hnone : getNodeID hop recver = kEmpty := if_pos ⟨hr, hs⟩
      rw [if_pos hnone, hr]
  · rw [keySender, if_neg hr, hself fun h => hr h.1]

theorem incomingKey_eq_iff {hop hop' : ℤ} {m m' : WireMeta} (hhop : hop ≠ kEmpty)
    (hhop' : hop' ≠ kEmpty) (hm : m.timestamp ≠ kEmpty) (hm' : m'.timestamp ≠ kEmpty) :
    incomingKey hop m = incomingKey hop' m' ↔
      SameKey (keySender hop m.recver) (keySender hop' m'.recver) m m' := by
  have hm₁ : ({ m with sender := getNodeID hop m.recver } : WireMeta).timestamp ≠ kEmpty := hm
  have hm₂ : ({ m' with sender := getNodeID hop' m'.recver } : WireMeta).timestamp ≠ kEmpty := hm'
  rw [incomingKey, incomingKey, getKey_eq_iff hm₁ hm₂, keySender_eq hhop, keySender_eq hhop']
  exact Iff.rfl

theorem addOutgoing_ne_none {r : Resender} {a : ℤ} {ticket : ℕ} {m : WireMeta}
    (hm : m.timestamp ≠ kEmpty) : r.addOutgoing a ticket m ≠ none := by
  obtain ⟨key, hkey⟩ : ∃ key, getKey a m = some key := ⟨_, if_neg hm⟩
  rw [Resender.addOutgoing, hkey, Option.bind_eq_bind, Option.bind_some]
  split_ifs <;> exact Option.some_ne_none _

theorem addIncomming_ne_none {r : Resender} {b : ℤ} {st : BitVec 64} {bg : ℤ} {m : WireMeta}
    (hm : m.cmd ≠ .ack → m.timestamp ≠ kEmpty) : r.addIncomming b st bg m ≠ none := by
  rw [Resender.addIncomming]
  split_ifs with hterm hack
  · exact Option.some_ne_none _
  · exact Option.some_ne_none _
  · obtain ⟨key, hkey⟩ : ∃ key, getKey b m = some key := ⟨_, if_neg (hm hack)⟩
    rw [hkey, Option.bind_eq_bind, Option.bind_some]
    split_ifs <;> exact Option.some_ne_none _

theorem addOutgoing_spec {r r' : Resender} {a : ℤ} {ticket : ℕ} {m : WireMeta}
    (hcmd : m.cmd ≠ .ack) (h : r.addOutgoing a ticket m = some r') :
    m.timestamp ≠ kEmpty ∧ r'.acked = r.acked ∧
      ∀ e ∈ r'.sendBuff, e ∈ r.sendBuff ∨ e.2 = (ticket, m) ∧ getKey a m = some e.1 := by
  rw [Resender.addOutgoing, if_neg hcmd] at h
  obtain ⟨key, hkey, h⟩ := Option.bind_eq_some_iff.mp h
  have htimestamp : m.timestamp ≠ kEmpty := by
    intro hempty
    simp [getKey, hempty] at hkey
  split at h
  · obtain rfl := Option.some.inj h
    exact ⟨htimestamp, rfl, fun e he => .inl he⟩
  · obtain rfl := Option.some.inj h
    refine ⟨htimestamp, rfl, fun e he => ?_⟩
    rcases List.mem_append.mp he with he | he
    · exact .inl he
    · obtain rfl := List.mem_singleton.mp he
      exact .inr ⟨rfl, hkey⟩

theorem addIncomming_ack {r r' : Resender} {b : ℤ} {st : BitVec 64} {bg : ℤ} {m : WireMeta}
    {dup : Bool} {ack : Option WireMeta} (hcmd : m.cmd = .ack)
    (h : r.addIncomming b st bg m = some (r', dup, ack)) :
    r' = { r with sendBuff := r.sendBuff.filter fun e => e.1 ≠ m.msgSig } ∧ ack = none := by
  rw [Resender.addIncomming, if_neg (by simp [hcmd]), if_pos hcmd] at h
  simp only [Option.some.injEq, Prod.mk.injEq] at h
  exact ⟨h.1.symm, h.2.2.symm⟩

/-- A message that is neither an acknowledgement nor `TERMINATE` is acknowledged. -/
theorem addIncomming_msg {r r' : Resender} {b : ℤ} {st : BitVec 64} {bg : ℤ} {m : WireMeta}
    {dup : Bool} {ack : Option WireMeta} (hcmd : m.cmd ≠ .ack ∧ m.cmd ≠ .terminate)
    (h : r.addIncomming b st bg m = some (r', dup, ack)) :
    ∃ key, getKey b m = some key ∧ ack = some (ackMeta m key st bg) ∧ r'.sendBuff = r.sendBuff ∧
      (dup = true ↔ key ∈ r.acked) ∧ ∀ k, k ∈ r'.acked ↔ k = key ∨ k ∈ r.acked := by
  rw [Resender.addIncomming, if_neg hcmd.2, if_neg hcmd.1] at h
  obtain ⟨key, hkey, h⟩ := Option.bind_eq_some_iff.mp h
  dsimp only at h
  split at h
  · next hmem =>
    simp only [Option.some.injEq, Prod.mk.injEq] at h
    obtain ⟨rfl, rfl, rfl⟩ := h
    refine ⟨key, hkey, rfl, rfl, by simp [hmem], fun k => ?_⟩
    constructor
    · exact .inr
    · rintro (rfl | hk)
      · exact hmem
      · exact hk
  · next hmem =>
    simp only [Option.some.injEq, Prod.mk.injEq] at h
    obtain ⟨rfl, rfl, rfl⟩ := h
    exact ⟨key, hkey, rfl, rfl, by simp [hmem], fun k => List.mem_cons⟩

/-- No buffer has new entries. -/
theorem mem_sendBuff_of_update {rs : ℤ → Resender} {a a' : ℤ} {r : Resender}
    {e : UInt64 × ℕ × WireMeta} (h : ∀ e ∈ r.sendBuff, e ∈ (rs a).sendBuff)
    (he : e ∈ (Function.update rs a r a').sendBuff) : e ∈ (rs a').sendBuff := by
  by_cases ha : a' = a
  · subst ha
    rw [Function.update_self] at he
    exact h e he
  · rwa [Function.update_of_ne ha] at he

/-- What every run keeps: messages on links and in buffers are those that were sent. -/
structure Logged (s : State) : Prop where
  net : ∀ t ∈ s.net, t.msg.cmd ≠ .ack → s.sent[t.ticket]? = some (t.hop, t.msg)
  buff : ∀ a, ∀ e ∈ (s.resenders a).sendBuff,
    s.sent[e.2.1]? = some (a, e.2.2) ∧ getKey a e.2.2 = some e.1
  sent : ∀ e ∈ s.sent, e.1 ≠ kEmpty ∧ e.2.cmd ≠ .ack ∧ e.2.cmd ≠ .terminate

namespace Logged
variable {ok : State → ℤ → WireMeta → Prop} {s s' : State}

theorem getElem?_append {l : List (ℤ × WireMeta)} {g : ℕ} {e x : ℤ × WireMeta}
    (h : l[g]? = some e) : (l ++ [x])[g]? = some e := by
  rw [List.getElem?_append_left (List.getElem?_eq_some_iff.mp h).1, h]

/-- A message that arrives was sent over this link. -/
theorem sent_of_net (h : Logged s) {l₁ l₂ : List Transmission} {t : Transmission}
    (hnet : s.net = l₁ ++ t :: l₂) (hcmd : t.msg.cmd ≠ .ack) :
    s.sent[t.ticket]? = some (t.hop, t.msg) ∧ t.hop ≠ kEmpty ∧ t.msg.cmd ≠ .terminate := by
  have hsent := h.net t (by simp [hnet]) hcmd
  obtain ⟨hid, -, hterm⟩ := h.sent _ (List.mem_of_getElem? hsent)
  exact ⟨hsent, hid, hterm⟩

/-- What arrives puts nothing into the buffer, and is answered by acknowledgements only. -/
theorem receive (h : Logged s) {l₁ l₂ : List Transmission} {t : Transmission}
    (hnet : s.net = l₁ ++ t :: l₂) {init m : WireMeta} (hinit : init.node = [])
    (hrecv : recvMsg t.msg.recver t.hop init t.msg = some m) {st : BitVec 64} {bg : ℤ}
    {r : Resender} {dup : Bool} {ack : Option WireMeta}
    (hrun : (s.resenders t.msg.recver).addIncomming t.msg.recver st bg m = some (r, dup, ack)) :
    (∀ e ∈ r.sendBuff, e ∈ (s.resenders t.msg.recver).sendBuff) ∧ ∀ m' ∈ ack, m'.cmd = .ack := by
  obtain ⟨-, -, hcmd', -⟩ := recvMsg_spec hinit hrecv
  by_cases hcmd : t.msg.cmd = .ack
  · obtain ⟨rfl, rfl⟩ := addIncomming_ack (hcmd'.trans hcmd) hrun
    exact ⟨fun e he => (List.mem_filter.mp he).1, by simp⟩
  · have hterm := (h.sent_of_net hnet hcmd).2.2
    rw [← hcmd'] at hcmd hterm
    obtain ⟨key, -, rfl, hbuff, -⟩ := addIncomming_msg ⟨hcmd, hterm⟩ hrun
    refine ⟨fun e he => hbuff ▸ he, fun m' hm' => ?_⟩
    obtain rfl := Option.some.inj hm'
    rfl

/-- A message is sent. -/
theorem send (h : Logged s) {a : ℤ} {m : WireMeta} (hid : a ≠ kEmpty)
    (hcmd : m.cmd ≠ .ack ∧ m.cmd ≠ .terminate) {r : Resender}
    (hbuff : ∀ e ∈ r.sendBuff, e ∈ (s.resenders a).sendBuff ∨
      e.2 = (s.sent.length, m) ∧ getKey a m = some e.1) (aborted : List ℤ) :
    Logged { s with
      resenders := Function.update s.resenders a r
      net := s.net ++ [⟨s.sent.length, a, m⟩]
      sent := s.sent ++ [(a, m)]
      aborted := aborted } := by
  refine ⟨?_, ?_, ?_⟩
  · intro t ht hack
    rcases List.mem_append.mp ht with ht | ht
    · exact getElem?_append (h.net t ht hack)
    · obtain rfl := List.mem_singleton.mp ht
      simp
  · intro a' e he
    by_cases ha : a' = a
    · subst ha
      simp only [Function.update_self] at he
      rcases hbuff e he with he | ⟨heq, hkey⟩
      · exact ⟨getElem?_append (h.buff a' e he).1, (h.buff a' e he).2⟩
      · simp [heq, hkey]
    · simp only [Function.update_of_ne ha] at he
      exact ⟨getElem?_append (h.buff a' e he).1, (h.buff a' e he).2⟩
  · intro e he
    rcases List.mem_append.mp he with he | he
    · exact h.sent e he
    · obtain rfl := List.mem_singleton.mp he
      exact ⟨hid, hcmd⟩

theorem step (h : Logged s) (hstep : Step ok s s') : Logged s' := by
  cases hstep with
  | send _ hid hcmd _ _ hrun =>
    exact h.send hid hcmd (addOutgoing_spec hcmd.1 hrun).2.2 s.aborted
  | sendMsgAborts => exact ⟨h.net, h.buff, h.sent⟩
  | @addOutgoingAborts a _ _ hid hcmd =>
    have hlogged := h.send (r := s.resenders a) hid hcmd (fun e he => .inl he) (a :: s.aborted)
    rwa [Function.update_eq_self] at hlogged
  | @resend a key ticket m _ hmem =>
    refine ⟨?_, h.buff, h.sent⟩
    intro t ht hack
    rcases List.mem_append.mp ht with ht | ht
    · exact h.net t ht hack
    · obtain rfl := List.mem_singleton.mp ht
      exact (h.buff a _ hmem).1
  | @lose l₁ l₂ t hnet | @receiveAborts l₁ l₂ t hnet =>
    refine ⟨?_, h.buff, h.sent⟩
    exact fun t' ht' hack => h.net t' (mem_of_mem_taken hnet ht') hack
  | @receive l₁ l₂ t hnet _ init m hinit hrecv st bg r dup ack hrun =>
    obtain ⟨hbuff, hacks⟩ := h.receive hnet hinit hrecv hrun
    refine ⟨?_, fun a e he => h.buff a e (mem_sendBuff_of_update hbuff he), h.sent⟩
    intro t' ht' hack
    rcases List.mem_append.mp ht' with ht' | ht'
    · exact h.net t' (mem_of_mem_taken hnet ht') hack
    · obtain ⟨m', hm', rfl⟩ := List.mem_map.mp ht'
      exact absurd (hacks m' (Option.mem_toList.mp hm')) hack

theorem start : Logged {} := ⟨by simp, by simp, by simp⟩

end Logged

/-- The fields of a message that node `a` sends let the receiver compute the same key and answer:
it has a receiver, which is not the scheduler unless that sends it to itself, the timestamp is set,
and the node sends the message in its own name. -/
def SentAsOwn (_ : State) (a : ℤ) (m : WireMeta) : Prop :=
  m.recver ≠ kEmpty ∧ (m.recver = kScheduler → a = kScheduler) ∧ m.timestamp ≠ kEmpty ∧
    (m.sender = kEmpty ∨ m.sender % 2 ^ 8 = a % 2 ^ 8 ∨ Overflows m.timestamp)

/-- The receiver of a message knows its sender unless it is the scheduler. -/
theorem getNodeID_eq_iff {a recver : ℤ} (ha : a ≠ kEmpty) :
    getNodeID a recver = a ↔ (recver = kScheduler → a = kScheduler) := by
  unfold getNodeID
  split_ifs with h
  · exact ⟨fun heq => absurd heq.symm ha, fun himp => absurd (himp h.1) h.2⟩
  · exact ⟨fun _ hr => by_contra fun hne => h ⟨hr, hne⟩, fun _ => rfl⟩

theorem getKey_eq_incomingKey_iff {a : ℤ} {m : WireMeta} (ha : a ≠ kEmpty)
    (hm : m.timestamp ≠ kEmpty) (hnode : getNodeID a m.recver = a) :
    getKey a m = incomingKey a m ↔
      m.sender = kEmpty ∨ m.sender % 2 ^ 8 = a % 2 ^ 8 ∨ Overflows m.timestamp := by
  have hm' : ({ m with sender := a } : WireMeta).timestamp ≠ kEmpty := hm
  rw [incomingKey, hnode, getKey_eq_iff hm hm', SameKey]
  by_cases hsender : m.sender = kEmpty
  · simp [hsender, ha]
  · simp only [hsender, ha, if_false, true_and, and_true, false_or]
    exact or_comm

/-- Acknowledgements match: no call of `Van::Send` is refused and no node aborts, an acknowledgement
is on its way to the node that has sent the message, with the key under which that node has put it
in its buffer, and a message whose acknowledgement has been received is in no buffer. -/
structure AcksMatch (s : State) : Prop where
  accepted : s.aborted = []
  signature : ∀ t ∈ s.net, t.msg.cmd = .ack → ∃ m, s.sent[t.ticket]? = some (t.msg.recver, m) ∧
    getKey t.msg.recver m = some t.msg.msgSig
  removed : ∀ g ∈ s.acknowledged, g < s.sent.length ∧
    ∀ a, ∀ e ∈ (s.resenders a).sendBuff, e.2.1 ≠ g

/-- The invariant behind it. -/
structure Acknowledging (s : State) : Prop where
  logged : Logged s
  own : ∀ e ∈ s.sent, SentAsOwn s e.1 e.2
  acks : AcksMatch s

namespace Acknowledging
variable {s s' : State}

theorem send (h : Acknowledging s) {a : ℤ} {m : WireMeta} (hcmd : m.cmd ≠ .ack)
    (hok : SentAsOwn s a m) {r : Resender}
    (hrun : (s.resenders a).addOutgoing a s.sent.length m = some r)
    (hlogged : Logged { s with
      resenders := Function.update s.resenders a r
      net := s.net ++ [⟨s.sent.length, a, m⟩]
      sent := s.sent ++ [(a, m)] }) :
    Acknowledging { s with
      resenders := Function.update s.resenders a r
      net := s.net ++ [⟨s.sent.length, a, m⟩]
      sent := s.sent ++ [(a, m)] } := by
  obtain ⟨-, -, hbuff⟩ := addOutgoing_spec hcmd hrun
  refine ⟨hlogged, ?_, h.acks.accepted, ?_, ?_⟩
  · intro e he
    rcases List.mem_append.mp he with he | he
    · exact h.own e he
    · obtain rfl := List.mem_singleton.mp he
      exact hok
  · intro t ht hack
    rcases List.mem_append.mp ht with ht | ht
    · obtain ⟨m', hsent, hkey⟩ := h.acks.signature t ht hack
      exact ⟨m', Logged.getElem?_append hsent, hkey⟩
    · obtain rfl := List.mem_singleton.mp ht
      exact absurd hack hcmd
  · intro g hg
    obtain ⟨hlt, hremoved⟩ := h.acks.removed g hg
    refine ⟨by simp only [List.length_append, List.length_singleton]; omega, fun a' e he => ?_⟩
    by_cases ha : a' = a
    · subst ha
      simp only [Function.update_self] at he
      rcases hbuff e he with he | ⟨heq, -⟩
      · exact hremoved a' e he
      · rw [heq]
        exact (Nat.ne_of_lt hlt).symm
    · simp only [Function.update_of_ne ha] at he
      exact hremoved a' e he

/-- The message of an acknowledgement is in the buffer of the receiver, under its signature. -/
theorem acknowledged_entry (h : Acknowledging s) {l₁ l₂ : List Transmission} {t : Transmission}
    (hnet : s.net = l₁ ++ t :: l₂) (hcmd : t.msg.cmd = .ack) {e : UInt64 × ℕ × WireMeta} {a : ℤ}
    (he : e ∈ (s.resenders a).sendBuff) (hticket : e.2.1 = t.ticket) :
    a = t.msg.recver ∧ e.1 = t.msg.msgSig := by
  obtain ⟨m, hsent, hkey⟩ := h.acks.signature t (by simp [hnet]) hcmd
  obtain ⟨hsent', hkey'⟩ := h.logged.buff a e he
  rw [hticket, hsent, Option.some.injEq, Prod.mk.injEq] at hsent'
  obtain ⟨rfl, rfl⟩ := hsent'
  exact ⟨rfl, Option.some.inj (hkey'.symm.trans hkey)⟩

/-- An acknowledgement arrives and takes its message out of the buffer. -/
theorem removed_of_ack (h : Acknowledging s) {l₁ l₂ : List Transmission} {t : Transmission}
    (hnet : s.net = l₁ ++ t :: l₂) (hcmd : t.msg.cmd = .ack) :
    ∀ g ∈ s.acknowledged ++ [t.ticket], g < s.sent.length ∧
      ∀ a, ∀ e ∈ (Function.update s.resenders t.msg.recver
        { s.resenders t.msg.recver with
          sendBuff := (s.resenders t.msg.recver).sendBuff.filter fun e => e.1 ≠ t.msg.msgSig }
          a).sendBuff, e.2.1 ≠ g := by
  intro g hg
  rcases List.mem_append.mp hg with hg | hg
  · obtain ⟨hlt, hremoved⟩ := h.acks.removed g hg
    refine ⟨hlt, fun a e he => hremoved a e ?_⟩
    exact mem_sendBuff_of_update (fun e he => (List.mem_filter.mp he).1) he
  · obtain rfl := List.mem_singleton.mp hg
    obtain ⟨m, hsent, -⟩ := h.acks.signature t (by simp [hnet]) hcmd
    refine ⟨(List.getElem?_eq_some_iff.mp hsent).1, fun a e he hticket => ?_⟩
    have hold := mem_sendBuff_of_update (fun e he => (List.mem_filter.mp he).1) he
    obtain ⟨rfl, hkey⟩ := h.acknowledged_entry hnet hcmd hold hticket
    rw [Function.update_self] at he
    simp [hkey] at he

theorem step (h : Acknowledging s) (hstep : Step SentAsOwn s s') : Acknowledging s' := by
  have hlogged := h.logged.step hstep
  -- a message that arrives was sent in the name of the node at the other end
  have harrives : ∀ {l₁ l₂ : List Transmission} {t : Transmission} (hnet : s.net = l₁ ++ t :: l₂),
      t.msg.cmd ≠ .ack → SentAsOwn s t.hop t.msg ∧ getNodeID t.hop t.msg.recver = t.hop :=
    fun {_ _ t} hnet hcmd => by
      obtain ⟨hsent, hhop, -⟩ := h.logged.sent_of_net hnet hcmd
      have hown := h.own _ (List.mem_of_getElem? hsent)
      exact ⟨hown, (getNodeID_eq_iff hhop).mpr hown.2.1⟩
  cases hstep with
  | send _ _ hcmd hok _ hrun => exact h.send hcmd.1 hok hrun hlogged
  | sendMsgAborts _ _ _ hok hrecver => exact absurd hrecver hok.1
  | addOutgoingAborts _ _ _ hok _ hrun => exact absurd hrun (addOutgoing_ne_none hok.2.2.1)
  | @resend a key ticket m _ hmem =>
    refine ⟨hlogged, h.own, h.acks.accepted, ?_, h.acks.removed⟩
    intro t ht hack
    rcases List.mem_append.mp ht with ht | ht
    · exact h.acks.signature t ht hack
    · obtain rfl := List.mem_singleton.mp ht
      have hsent := h.logged.sent _ (List.mem_of_getElem? (h.logged.buff a _ hmem).1)
      exact absurd hack hsent.2.1
  | @lose l₁ l₂ t hnet =>
    exact ⟨hlogged, h.own, h.acks.accepted,
      fun t' ht' => h.acks.signature t' (mem_of_mem_taken hnet ht'), h.acks.removed⟩
  | @receiveAborts l₁ l₂ t hnet _ init m hinit hrecv st bg hrun =>
    obtain ⟨hsender, -, hcmd', htimestamp, -⟩ := recvMsg_spec hinit hrecv
    -- the check of the timestamp and that of the receiver of the acknowledgement both hold
    have hanswer : (s.resenders t.msg.recver).addIncomming t.msg.recver st bg m ≠ none :=
      addIncomming_ne_none fun hcmd => by
        rw [htimestamp]
        exact (harrives hnet (hcmd' ▸ hcmd)).1.2.2.1
    obtain ⟨⟨r, dup, ack⟩, hsome⟩ := Option.ne_none_iff_exists'.mp hanswer
    obtain ⟨m', hm', hempty⟩ := hrun r dup ack hsome
    by_cases hcmd : t.msg.cmd = .ack
    · obtain ⟨-, rfl⟩ := addIncomming_ack (hcmd'.trans hcmd) hsome
      simp at hm'
    · obtain ⟨-, hhop, hterm⟩ := h.logged.sent_of_net hnet hcmd
      obtain ⟨key, -, rfl, -⟩ := addIncomming_msg (by rw [hcmd']; exact ⟨hcmd, hterm⟩) hsome
      obtain rfl := Option.some.inj hm'
      exact absurd (hsender.symm.trans hempty) ((harrives hnet hcmd).2.symm ▸ hhop)
  | @receive l₁ l₂ t hnet _ init m hinit hrecv st bg r dup ack hrun =>
    obtain ⟨hsender, -, hcmd', htimestamp, -, -, hsig⟩ := recvMsg_spec hinit hrecv
    have hmem : ∀ t' ∈ l₁ ++ l₂, t' ∈ s.net := fun _ => mem_of_mem_taken hnet
    by_cases hcmd : t.msg.cmd = .ack
    · obtain ⟨rfl, rfl⟩ := addIncomming_ack (hcmd'.trans hcmd) hrun
      simp only [hcmd, if_true]
      simp only [hcmd, if_true] at hlogged
      refine ⟨hlogged, h.own, h.acks.accepted, ?_, ?_⟩
      · intro t' ht'
        exact h.acks.signature t' (hmem t' (by simpa using ht'))
      · rw [hsig hcmd]
        exact h.removed_of_ack hnet hcmd
    · obtain ⟨hsent, hhop, hterm⟩ := h.logged.sent_of_net hnet hcmd
      obtain ⟨hown, hnode⟩ := harrives hnet hcmd
      have hkeys := (getKey_eq_incomingKey_iff hhop hown.2.2.1 hnode).mpr hown.2.2.2
      rw [hnode] at hsender
      obtain ⟨key, hkey, rfl, hbuff, -⟩ :=
        addIncomming_msg (by rw [hcmd']; exact ⟨hcmd, hterm⟩) hrun
      rw [getKey_recvMsg hinit hrecv, ← hkeys] at hkey
      simp only [hcmd, if_false]
      simp only [hcmd, if_false] at hlogged
      refine ⟨hlogged, h.own, h.acks.accepted, ?_, ?_⟩
      · intro t' ht' hack
        rcases List.mem_append.mp ht' with ht' | ht'
        · exact h.acks.signature t' (hmem t' ht') hack
        · obtain rfl : t' = ⟨t.ticket, t.msg.recver, ackMeta m key st bg⟩ := by simpa using ht'
          refine ⟨t.msg, ?_, ?_⟩
          · simpa only [ackMeta, hsender] using hsent
          · simpa only [ackMeta, hsender] using hkey
      · intro g hg
        refine ⟨(h.acks.removed g hg).1, fun a e he => (h.acks.removed g hg).2 a e ?_⟩
        exact mem_sendBuff_of_update (fun e he => hbuff ▸ he) he

theorem start : Acknowledging {} := ⟨Logged.start, by simp, rfl, by simp, by simp⟩

end Acknowledging

/-- The message of `KVWorker::TopoUpdate`. -/
def topoUpdateMeta (myId : ℤ) : WireMeta where
  sender := myId
  sender_ := myId
  recver := 1
  cmd := .routeRelease
  startTime := 0
  barrierGroup := 0
  msgSig := 0

/-- A push of worker `origin` to server `dst` on the link from `sender` to `recver`. -/
def pushMeta (origin dst sender recver timestamp : ℤ) : WireMeta where
  head := 0
  appId := 0
  customerId := 0
  timestamp := timestamp
  request := true
  push := true
  sender := sender
  sender_ := origin
  recver := recver
  dst := dst
  lastHop := sender
  cmd := .reply1
  startTime := 0
  barrierGroup := 0
  msgSig := 0

/-- No two messages to one node have the fields that make up the same key there. -/
def KeysApart (s : State) (a : ℤ) (m : WireMeta) : Prop :=
  ∀ e ∈ s.sent, e.2.recver = m.recver → e.2.timestamp ≠ kEmpty → m.timestamp ≠ kEmpty →
    ¬ SameKey (keySender e.1 m.recver) (keySender a m.recver) e.2 m

/-- A message is dropped exactly if a transmission of it has been accepted before, and different
messages to one node have different keys there. -/
structure DropsRetransmissions (s : State) : Prop where
  flags : ∀ (i : ℕ) (b : ℤ) (g : ℕ) (dup : Bool), s.incoming[i]? = some (b, g, dup) →
    (dup = true ↔ ∃ j < i, s.incoming[j]? = some (b, g, false))
  keys : ∀ (g g' : ℕ) (a a' : ℤ) (m m' : WireMeta), s.sent[g]? = some (a, m) →
    s.sent[g']? = some (a', m') → m.recver = m'.recver → g ≠ g' →
    ∀ key ∈ incomingKey a m, incomingKey a' m' ≠ some key

/-- The invariant behind it: the keys in `acked_` are those of the messages that have arrived. -/
structure Filtering (s : State) : Prop where
  logged : Logged s
  drops : DropsRetransmissions s
  arrived : ∀ e ∈ s.incoming, ∃ a m, s.sent[e.2.1]? = some (a, m) ∧ m.recver = e.1
  acked : ∀ b key, key ∈ (s.resenders b).acked ↔ ∃ g dup a m, (b, g, dup) ∈ s.incoming ∧
    s.sent[g]? = some (a, m) ∧ incomingKey a m = some key

namespace Filtering
variable {s s' : State}

theorem incomingKey_ne {a a' : ℤ} {m m' : WireMeta} (ha : a ≠ kEmpty) (ha' : a' ≠ kEmpty)
    (hrecver : m.recver = m'.recver)
    (h : m.timestamp ≠ kEmpty → m'.timestamp ≠ kEmpty →
      ¬ SameKey (keySender a m'.recver) (keySender a' m'.recver) m m') {key : UInt64}
    (hkey : incomingKey a m = some key) : incomingKey a' m' ≠ some key := by
  intro hkey'
  have hm : m.timestamp ≠ kEmpty := by
    intro hempty
    simp [incomingKey, getKey, hempty] at hkey
  have hm' : m'.timestamp ≠ kEmpty := by
    intro hempty
    simp [incomingKey, getKey, hempty] at hkey'
  have hsame := (incomingKey_eq_iff ha ha' hm hm').mp (hkey.trans hkey'.symm)
  rw [hrecver] at hsame
  exact h hm hm' hsame

theorem sent_append {a : ℤ} {m : WireMeta} {g : ℕ} {e : ℤ × WireMeta}
    (h : (s.sent ++ [(a, m)])[g]? = some e) :
    s.sent[g]? = some e ∨ g = s.sent.length ∧ e = (a, m) := by
  rcases Nat.lt_trichotomy g s.sent.length with hlt | rfl | hgt
  · rw [List.getElem?_append_left hlt] at h
    exact .inl h
  · refine .inr ⟨rfl, ?_⟩
    simpa using h.symm
  · rw [List.getElem?_eq_none (by simp; omega)] at h
    cases h

/-- A message is sent. The resender of the node keeps its `acked_`. -/
theorem send (h : Filtering s) {a : ℤ} {m : WireMeta} (hid : a ≠ kEmpty)
    (hok : KeysApart s a m) {r : Resender} (hacked : r.acked = (s.resenders a).acked)
    {net : List Transmission} {aborted : List ℤ} {s' : State}
    (hs' : s' = { s with
      resenders := Function.update s.resenders a r
      net := net
      sent := s.sent ++ [(a, m)]
      aborted := aborted })
    (hlogged : Logged s') : Filtering s' := by
  subst hs'
  have hnew : ∀ {g : ℕ} {a' : ℤ} {m' : WireMeta}, s.sent[g]? = some (a', m') →
      m'.recver = m.recver → ∀ key ∈ incomingKey a' m', incomingKey a m ≠ some key := by
    intro g a' m' hg hrecver key hkey
    have hmem := List.mem_of_getElem? hg
    exact incomingKey_ne (h.logged.sent _ hmem).1 hid hrecver (hok _ hmem hrecver) hkey
  refine ⟨hlogged, ⟨h.drops.flags, ?_⟩, ?_, ?_⟩
  · intro g g' a₁ a₂ m₁ m₂ hg hg' hrecver hne key hkey hkey'
    rcases sent_append hg with hold | ⟨rfl, heq⟩ <;> rcases sent_append hg' with hold' | ⟨rfl, heq'⟩
    · exact h.drops.keys g g' a₁ a₂ m₁ m₂ hold hold' hrecver hne key hkey hkey'
    · obtain ⟨rfl, rfl⟩ := Prod.mk.inj heq'
      exact hnew hold hrecver key hkey hkey'
    · obtain ⟨rfl, rfl⟩ := Prod.mk.inj heq
      exact hnew hold' hrecver.symm key hkey' hkey
    · exact absurd rfl hne
  · intro e he
    obtain ⟨a', m', hsent, hrecver⟩ := h.arrived e he
    exact ⟨a', m', Logged.getElem?_append hsent, hrecver⟩
  · intro b key
    have hsame : (Function.update s.resenders a r b).acked = (s.resenders b).acked := by
      by_cases hb : b = a
      · subst hb
        rw [Function.update_self, hacked]
      · rw [Function.update_of_ne hb]
    rw [hsame, h.acked]
    constructor
    · rintro ⟨g, dup, a', m', hmem, hsent, hkey⟩
      exact ⟨g, dup, a', m', hmem, Logged.getElem?_append hsent, hkey⟩
    · rintro ⟨g, dup, a', m', hmem, hsent, hkey⟩
      obtain ⟨a₀, m₀, hold, -⟩ := h.arrived _ hmem
      obtain ⟨rfl, rfl⟩ := Prod.mk.inj
        (Option.some.inj ((Logged.getElem?_append hold).symm.trans hsent))
      exact ⟨g, dup, _, _, hmem, hold, hkey⟩

/-- A message arrives over its link. -/
theorem receive_msg (h : Filtering s) {t : Transmission} {key : UInt64} {dup : Bool}
    (hsent : s.sent[t.ticket]? = some (t.hop, t.msg))
    (hkey : incomingKey t.hop t.msg = some key)
    (hdup : dup = true ↔ key ∈ (s.resenders t.msg.recver).acked) :
    ∀ (i : ℕ) (b : ℤ) (g : ℕ) (dup' : Bool),
      (s.incoming ++ [(t.msg.recver, t.ticket, dup)])[i]? = some (b, g, dup') →
      (dup' = true ↔ ∃ j < i,
        (s.incoming ++ [(t.msg.recver, t.ticket, dup)])[j]? = some (b, g, false)) := by
  -- An earlier entry for the same message, accepted or not, gives an accepted one.
  have hfirst : (∃ dup', (t.msg.recver, t.ticket, dup') ∈ s.incoming) →
      ∃ j < s.incoming.length, s.incoming[j]? = some (t.msg.recver, t.ticket, false) := by
    rintro ⟨dup', hmem⟩
    obtain ⟨j, hj⟩ := List.mem_iff_getElem?.mp hmem
    have hlt := (List.getElem?_eq_some_iff.mp hj).1
    cases dup' with
    | false => exact ⟨j, hlt, hj⟩
    | true =>
      obtain ⟨j', hj', hget⟩ := (h.drops.flags j _ _ _ hj).mp rfl
      exact ⟨j', by omega, hget⟩
  intro i b g dup' hi
  rcases Nat.lt_trichotomy i s.incoming.length with hlt | rfl | hgt
  · rw [List.getElem?_append_left hlt] at hi
    rw [h.drops.flags i b g dup' hi]
    constructor
    · rintro ⟨j, hj, hget⟩
      exact ⟨j, hj, by rwa [List.getElem?_append_left (by omega)]⟩
    · rintro ⟨j, hj, hget⟩
      exact ⟨j, hj, by rwa [List.getElem?_append_left (by omega)] at hget⟩
  · obtain ⟨rfl, rfl, rfl⟩ : t.msg.recver = b ∧ t.ticket = g ∧ dup = dup' := by simpa using hi
    rw [hdup, h.acked]
    constructor
    · rintro ⟨g', dup', a', m', hmem, hsent', hkey'⟩
      obtain ⟨a₀, m₀, hsent₀, hrecver⟩ := h.arrived _ hmem
      obtain ⟨rfl, rfl⟩ := Prod.mk.inj (Option.some.inj (hsent₀.symm.trans hsent'))
      have hticket : t.ticket = g' := by
        by_contra hne
        exact h.drops.keys t.ticket g' _ _ _ _ hsent hsent' hrecver.symm hne key hkey hkey'
      subst hticket
      obtain ⟨j, hj, hget⟩ := hfirst ⟨dup', hmem⟩
      exact ⟨j, hj, by rwa [List.getElem?_append_left hj]⟩
    · rintro ⟨j, hj, hget⟩
      rw [List.getElem?_append_left hj] at hget
      exact ⟨t.ticket, false, t.hop, t.msg, List.mem_of_getElem? hget, hsent, hkey⟩
  · rw [List.getElem?_eq_none (by simp; omega)] at hi
    cases hi

theorem step (h : Filtering s) (hstep : Step KeysApart s s') : Filtering s' := by
  have hlogged := h.logged.step hstep
  cases hstep with
  | send _ hid hcmd hok _ hrun =>
    exact h.send hid hok (addOutgoing_spec hcmd.1 hrun).2.1 rfl hlogged
  | @addOutgoingAborts a _ _ hid _ hok =>
    exact h.send (r := s.resenders a) hid hok rfl (by rw [Function.update_eq_self]) hlogged
  | sendMsgAborts | resend | lose | receiveAborts =>
    exact ⟨hlogged, ⟨h.drops.flags, h.drops.keys⟩, h.arrived, h.acked⟩
  | @receive l₁ l₂ t hnet _ init m hinit hrecv st bg r dup ack hrun =>
    obtain ⟨-, -, hcmd', -⟩ := recvMsg_spec hinit hrecv
    by_cases hcmd : t.msg.cmd = .ack
    · obtain ⟨rfl, rfl⟩ := addIncomming_ack (hcmd'.trans hcmd) hrun
      simp only [hcmd, if_true]
      simp only [hcmd, if_true] at hlogged
      refine ⟨hlogged, ⟨h.drops.flags, h.drops.keys⟩, h.arrived, fun b key => ?_⟩
      rw [← h.acked]
      by_cases hb : b = t.msg.recver
      · subst hb
        simp only [Function.update_self]
      · simp only [Function.update_of_ne hb]
    · obtain ⟨hsent, -, hterm⟩ := h.logged.sent_of_net hnet hcmd
      obtain ⟨key, hkey, -, -, hdup, hacked⟩ :=
        addIncomming_msg (by rw [hcmd']; exact ⟨hcmd, hterm⟩) hrun
      rw [getKey_recvMsg hinit hrecv] at hkey
      simp only [hcmd, if_false]
      simp only [hcmd, if_false] at hlogged
      refine ⟨hlogged, ⟨h.receive_msg hsent hkey hdup, h.drops.keys⟩, ?_, ?_⟩
      · intro e he
        rcases List.mem_append.mp he with he | he
        · exact h.arrived e he
        · obtain rfl := List.mem_singleton.mp he
          exact ⟨t.hop, t.msg, hsent, rfl⟩
      · intro b k
        have hnew : (∃ g dup' a m', (b, g, dup') ∈ s.incoming ++ [(t.msg.recver, t.ticket, dup)] ∧
            s.sent[g]? = some (a, m') ∧ incomingKey a m' = some k) ↔
            (b = t.msg.recver ∧ k = key) ∨ k ∈ (s.resenders b).acked := by
          rw [h.acked]
          constructor
          · rintro ⟨g, dup', a, m', hmem, hg, hk⟩
            rcases List.mem_append.mp hmem with hmem | hmem
            · exact .inr ⟨g, dup', a, m', hmem, hg, hk⟩
            · obtain ⟨rfl, rfl, rfl⟩ : b = t.msg.recver ∧ g = t.ticket ∧ dup' = dup := by
                simpa using hmem
              obtain ⟨rfl, rfl⟩ := Prod.mk.inj (Option.some.inj (hsent.symm.trans hg))
              exact .inl ⟨rfl, Option.some.inj (hk.symm.trans hkey)⟩
          · rintro (⟨rfl, rfl⟩ | ⟨g, dup', a, m', hmem, hg, hk⟩)
            · exact ⟨t.ticket, dup, t.hop, t.msg, by simp, hsent, hkey⟩
            · exact ⟨g, dup', a, m', List.mem_append_left _ hmem, hg, hk⟩
        rw [hnew]
        by_cases hb : b = t.msg.recver
        · subst hb
          simp only [Function.update_self, hacked, true_and]
        · simp only [Function.update_of_ne hb, hb, false_and, false_or]

theorem start : Filtering {} := ⟨Logged.start, ⟨by simp, by simp⟩, by simp, by simp⟩

end Filtering

/-- If no two messages to one node agree in the fields of the key, then exactly the
retransmissions are dropped. -/
theorem drops_retransmissions {k : ℕ} {s : State} (h : Steps (Step KeysApart) k {} s) :
    DropsRetransmissions s :=
  (h.invariant Filtering.start fun _ _ hb => hb.step).drops

/-- Worker `9` sends its server two pushes, and the first one a second time. -/
theorem drops_retransmissions_two_pushes :
    ∃ (k : ℕ) (s : State), Steps (Step KeysApart) k {} s ∧
      s.incoming = [(8, 0, false), (8, 1, false), (8, 0, true)] ∧ DropsRetransmissions s := by
  have h₁ := (Steps.refl ({} : State)).tail (@Step.send KeysApart {} 9 (pushMeta 9 10 9 8 0)
    (by decide) (by decide) (by decide) (by simp [KeysApart]) (by decide) _ rfl)
  have hok : ∀ s : State, s.sent = [(9, pushMeta 9 10 9 8 0)] →
      KeysApart s 9 (pushMeta 9 10 9 8 1) := by
    intro s hsent e he _ _ _ hsame
    rw [hsent] at he
    obtain rfl := List.mem_singleton.mp he
    exact absurd hsame.2.1 (by decide)
  have h₂ := h₁.tail (@Step.send KeysApart _ 9 (pushMeta 9 10 9 8 1) (by decide) (by decide)
    (by decide) (hok _ rfl) (by decide) _ rfl)
  have h₃ := h₂.tail (@Step.resend KeysApart _ 9 _ 0 (pushMeta 9 10 9 8 0) (by decide)
    (List.mem_cons_self ..))
  have h₄ := h₃.tail (@Step.receive KeysApart _ [] [_, _] _ rfl (by decide) (topoUpdateMeta 0) _
    rfl rfl 0 0 _ _ _ rfl (by decide))
  have h₅ := h₄.tail (@Step.receive KeysApart _ [] [_, _] _ rfl (by decide) (topoUpdateMeta 0) _
    rfl rfl 0 0 _ _ _ rfl (by decide))
  have h₆ := h₅.tail (@Step.receive KeysApart _ [] [_, _] _ rfl (by decide) (topoUpdateMeta 0) _
    rfl rfl 0 0 _ _ _ rfl (by decide))
  exact ⟨_, _, h₆, rfl, drops_retransmissions h₆⟩

/-- Server `8` passes on to server `12` the first push of worker `9` and that of worker `11`,
which has come over server `10`. Both have timestamp `0`, and server `12` drops the second. -/
theorem push_dropped_as_duplicate :
    ∃ (k : ℕ) (s : State), Steps (Step fun _ _ _ => True) k {} s ∧
      s.sent = [(9, pushMeta 9 12 9 8 0), (8, pushMeta 9 12 9 12 0), (11, pushMeta 11 12 11 10 0),
        (10, pushMeta 11 12 11 8 0), (8, pushMeta 11 12 10 12 0)] ∧
      s.incoming = [(8, 0, false), (12, 1, false), (10, 2, false), (8, 3, false), (12, 4, true)] ∧
      ¬ DropsRetransmissions s := by
  let ok : State → ℤ → WireMeta → Prop := fun _ _ _ => True
  have h₁ := (Steps.refl ({} : State)).tail (@Step.send ok {} 9 (pushMeta 9 12 9 8 0)
    (by decide) (by decide) (by decide) trivial (by decide) _ rfl)
  have h₂ := h₁.tail (@Step.receive ok _ [] [] _ rfl (by decide) (topoUpdateMeta 0) _ rfl rfl 0 0
    _ _ _ rfl (by decide))
  have h₃ := h₂.tail (@Step.send ok _ 8 (pushMeta 9 12 9 12 0) (by decide) (by decide)
    (by decide) trivial (by decide) _ rfl)
  have h₄ := h₃.tail (@Step.receive ok _ [_] [] _ rfl (by decide) (topoUpdateMeta 0) _ rfl rfl 0 0
    _ _ _ rfl (by decide))
  have h₅ := h₄.tail (@Step.send ok _ 11 (pushMeta 11 12 11 10 0) (by decide) (by decide)
    (by decide) trivial (by decide) _ rfl)
  have h₆ := h₅.tail (@Step.receive ok _ [_, _] [] _ rfl (by decide) (topoUpdateMeta 0) _ rfl rfl
    0 0 _ _ _ rfl (by decide))
  have h₇ := h₆.tail (@Step.send ok _ 10 (pushMeta 11 12 11 8 0) (by decide) (by decide)
    (by decide) trivial (by decide) _ rfl)
  have h₈ := h₇.tail (@Step.receive ok _ [_, _, _] [] _ rfl (by decide) (topoUpdateMeta 0) _ rfl
    rfl 0 0 _ _ _ rfl (by decide))
  have h₉ := h₈.tail (@Step.send ok _ 8 (pushMeta 11 12 10 12 0) (by decide) (by decide)
    (by decide) trivial (by decide) _ rfl)
  have h₁₀ := h₉.tail (@Step.receive ok _ [_, _, _, _] [] _ rfl (by decide) (topoUpdateMeta 0) _
    rfl rfl 0 0 _ _ _ rfl (by decide))
  refine ⟨_, _, h₁₀, rfl, rfl, fun h => ?_⟩
  obtain ⟨j, hj, hget⟩ := (h.flags 4 12 4 true rfl).mp rfl
  interval_cases j <;> exact absurd hget (by decide)

end NetStorm.Retransmission

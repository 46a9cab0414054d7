import NetStorm.Library.Bag
import NetStorm.PushHandling
import Mathlib.Algebra.BigOperators.Fin
import Mathlib.Algebra.BigOperators.Pi
import Mathlib.Algebra.Order.BigOperators.Group.List
import Mathlib.Tactic.Abel

/-!
# Aggregation is exact

The system simulates a convergecast over the tree of the root: a push in flight or waiting
for its handler is a value on its way, and a request list is the list of parts of a vertex.
The responses are multicasts that cover every worker once a round, and hold the workers
back until the round is over. With multi-precision the arrays are converted on their way;
the convergecast then sees nothing of them but their number.
-/
namespace NetStorm.Aggregation
open Scheduler Multicast Convergecast

section Simulation
variable {n ℓ : ℕ} {job : Job n ℓ} {cfg : Fin n → StoreConfig} {T : RootedTree (Fin n)}
  {M : Type} {view : (Fin ℓ → ℚ) → M}

/-- What the convergecast sees of an array. It is the array itself if nothing is converted, and can
be nothing at all. -/
structure Views [AddCommMonoid M] (cfg : StoreConfig) (view : (Fin ℓ → ℚ) → M) : Prop where
  add : ∀ a b, view (a + b) = view a + view b
  toStored : ∀ a b, cfg.toStored (List.ofFn a) = List.ofFn b → view b = view a
  ofStored : ∀ a b, cfg.ofStored (List.ofFn a) = List.ofFn b → view b = view a

theorem views_id {cfg : StoreConfig} (hcasts : cfg.casts = none) :
    Views cfg (id : (Fin ℓ → ℚ) → Fin ℓ → ℚ) := by
  refine ⟨fun _ _ => rfl, fun a b h => ?_, fun a b h => ?_⟩
  · rw [StoreConfig.toStored, hcasts] at h
    exact (List.ofFn_injective h).symm
  · rw [StoreConfig.ofStored, hcasts] at h
    exact (List.ofFn_injective h).symm

/-- Nothing is seen of an array. -/
def unseen : (Fin ℓ → ℚ) → ℚ := 0

theorem views_unseen (cfg : StoreConfig) : Views cfg (unseen : (Fin ℓ → ℚ) → ℚ) :=
  ⟨fun _ _ => (add_zero 0).symm, fun _ _ _ => rfl, fun _ _ _ => rfl⟩

/-- What is seen of the gradients. -/
def Job.seen (job : Job n ℓ) (view : (Fin ℓ → ℚ) → M) (w : Fin n) (r : ℕ) : M :=
  view (job.grad w r)

/-- How often a message in flight stands for a response to worker `w`. -/
def answers (T : RootedTree (Fin n)) (w : Fin n) (m : Message NDArray) : ℕ :=
  if m.request = true then 0 else covers T w m

/-- The parts that the messages of a list carry. -/
noncomputable def parts (job : Job n ℓ) (view : (Fin ℓ → ℚ) → M) (l : List (Message NDArray)) :
    Multiset (Source (Fin n) × M) :=
  ((l.filterMap (part job)).map (Prod.map id view) : List _)

/-- A response that a worker has been given. -/
structure Answer (job : Job n ℓ) (e : ℤ × Message NDArray) : Prop where
  worker : ∃ w : Fin n, e.1 = workerRankToID w
  request : e.2.request = false
  data : ∃ vals lens, e.2.data = some ⟨[job.key], vals, lens⟩

/-- The state of the system and the state of the convergecast it stands for. -/
structure Linked (job : Job n ℓ) (view : (Fin ℓ → ℚ) → M) (T : RootedTree (Fin n)) (s : State n)
    (t : Convergecast.State (Fin n) M) : Prop where
  net : ∀ m ∈ s.net, (∃ x a, Flying job T x a m) ∨ Down job T m
  inbox : ∀ e ∈ s.inbox, (∃ x a, Arrived job T x a e) ∨ Answer job e
  flying : t.flying = parts job view s.net + parts job view (s.inbox.map Prod.snd)
  length : ∀ c, (s.requests job c).length = (t.listed c).length
  holds : ∀ c, s.requests job c ≠ [] → ∃ merged : Fin ℓ → ℚ,
    ((s.servers c).updateBuf (slot job.key)).merged = some (List.ofFn merged) ∧
      view merged = t.merged c
  sent : ∀ w, s.sent w = t.updates.length + if w ∈ t.pushed then 1 else 0
  answered : ∀ w, s.received w + receivedBy w s.inbox + (s.net.map (answers T w)).sum =
    t.updates.length
  updates : List.Forall₂ (fun e u => ∃ a, e = (T.root, List.ofFn a) ∧ view a = u) s.updates t.updates

theorem parts_append (l l' : List (Message NDArray)) :
    parts job view (l ++ l') = parts job view l + parts job view l' := by
  simp [parts]

theorem parts_cons (m : Message NDArray) (l : List (Message NDArray)) :
    parts job view (m :: l) = parts job view [m] + parts job view l := by
  rw [← parts_append]
  rfl

theorem parts_push {x : Source (Fin n)} {a : Fin ℓ → ℚ} {m : Message NDArray}
    (h : IsPush job x a m) : parts job view [m] = {(x, view a)} := by
  simp [parts, part_of_push h]

theorem mem_parts {x : Source (Fin n)} {a : Fin ℓ → ℚ} {m : Message NDArray}
    {l : List (Message NDArray)} (hm : m ∈ l) (h : IsPush job x a m) :
    (x, view a) ∈ parts job view l := by
  rw [parts, Multiset.mem_coe, List.mem_map]
  exact ⟨(x, a), List.mem_filterMap.mpr ⟨m, hm, part_of_push h⟩, rfl⟩

theorem parts_down {l : List (Message NDArray)} (h : ∀ m ∈ l, m.request = false) :
    parts job view l = 0 := by
  have hnil : l.filterMap (part job) = [] :=
    List.filterMap_eq_nil_iff.mpr fun m hm => part_of_response (h m hm)
  simp [parts, hnil]

/-- A worker's push contributes a value. -/
theorem Linked.push {s : State n} {t : Convergecast.State (Fin n) M}
    (h : Linked job view T s t) {w : Fin n}
    (hgate : s.sent w = s.received w) {m : Message NDArray}
    (hm : Flying job T (.leaf w) (job.grad w (s.sent w)) m) :
    w ∉ t.pushed ∧ Linked job view T
      { s with net := s.net ++ [m], sent := Function.update s.sent w (s.sent w + 1) }
      { t with
        flying := (.leaf w, job.seen view w t.updates.length) ::ₘ t.flying
        pushed := insert w t.pushed } := by
  have hsent := h.sent w
  have hanswered := h.answered w
  have hw : w ∉ t.pushed := by
    intro hw
    rw [if_pos hw] at hsent
    omega
  rw [if_neg hw, Nat.add_zero] at hsent
  refine ⟨hw, ?_, h.inbox, ?_, h.length, h.holds, fun u => ?_, fun u => ?_,
    h.updates⟩
  · intro m' hm'
    rcases List.mem_append.mp hm' with hm' | hm'
    · exact h.net m' hm'
    · obtain rfl := List.mem_singleton.mp hm'
      exact .inl ⟨_, _, hm⟩
  · dsimp only
    rw [h.flying, parts_append, parts_push hm.push, hsent, Job.seen, ← Multiset.singleton_add]
    abel
  · by_cases hu : u = w
    · subst hu
      simp [hsent]
    · simpa [hu] using h.sent u
  · simpa [answers, hm.push.request] using h.answered u

theorem map_answers {l : List (Message NDArray)} (h : ∀ m ∈ l, m.request = false) {w : Fin n} :
    l.map (answers T w) = l.map (covers T w) :=
  List.map_congr_left fun m hm => by simp [answers, h m hm]

/-- What a delivery leaves as it is, put together with what it adds. -/
theorem Linked.delivered {s : State n} {t : Convergecast.State (Fin n) M}
    (h : Linked job view T s t) {l₁ l₂ : List (Message NDArray)} {m : Message NDArray}
    (hnet : s.net = l₁ ++ m :: l₂) (v : Van) {sent : List (Message NDArray)}
    {acc : List (ℤ × Message NDArray)}
    (hsent : ∀ m' ∈ sent, (∃ x a, Flying job T x a m') ∨ Down job T m')
    (hacc : ∀ e ∈ acc, (∃ x a, Arrived job T x a e) ∨ Answer job e)
    (hparts : parts job view [m] = parts job view sent + parts job view (acc.map Prod.snd))
    (hcount : ∀ w, receivedBy w acc + (sent.map (answers T w)).sum = answers T w m) :
    Linked job view T
      { s with
        vans := Function.update s.vans m.recver v
        net := l₁ ++ l₂ ++ sent
        inbox := s.inbox ++ acc } t := by
  refine ⟨?_, ?_, ?_, h.length, h.holds, h.sent, fun w => ?_, h.updates⟩
  · intro m' hm'
    rcases List.mem_append.mp hm' with hm' | hm'
    · exact h.net m' (mem_of_mem_taken hnet hm')
    · exact hsent m' hm'
  · intro e he
    rcases List.mem_append.mp he with he | he
    · exact h.inbox e he
    · exact hacc e he
  · rw [h.flying, hnet, parts_append, parts_cons m l₂, hparts, List.map_append]
    simp only [parts_append]
    abel
  · have hw := h.answered w
    have hc := hcount w
    simp only [hnet, receivedBy, List.map_append, List.map_cons, List.sum_append,
      List.sum_cons] at hw hc
    simp only [receivedBy, List.countP_append, List.map_append, List.sum_append]
    omega

/-- A delivery changes nothing that counts. A response is relayed along the tree. -/
theorem Linked.deliver (hS : Setting job cfg) {s : State n} (hC : Cluster n s.vans)
    {t : Convergecast.State (Fin n) M} (h : Linked job view T s t)
    {l₁ l₂ : List (Message NDArray)} {m : Message NDArray} (hnet : s.net = l₁ ++ m :: l₂)
    (hsees : Down job T m → ∀ c : Fin n, SeesTree T c (s.vans (serverRankToID c)).parents
      (s.vans (serverRankToID c)).sons)
    (queue : ℤ → ℕ) (queues : ℕ → ℤ → ℕ) :
    ∃ v out sent acc, (s.vans m.recver).receiving queue ((s.vans m.recver).recvMsg m) =
        some (v, out) ∧ v.perform queues out = some (sent, acc) ∧
      (v = s.vans m.recver ∨ (∃ c : Fin n, m.recver = serverRankToID c) ∧
        v = (s.vans m.recver).notice m.iters) ∧
      (∀ e ∈ acc, ∀ x a, Arrived job T x a e → e.1 = m.recver ∧ IsPush job x a m ∧
        ((∃ w, x = .leaf w) ∨ m.dst = m.recver)) ∧
      Linked job view T
        { s with
          vans := Function.update s.vans m.recver v
          net := l₁ ++ l₂ ++ sent
          inbox := s.inbox ++ acc } t := by
  rcases h.net m (hnet ▸ by simp) with ⟨x, a, hm⟩ | hm
  · obtain ⟨v, next, out, hmove⟩ := deliver_push hS hC queue hm
    have hzero : ∀ w, answers T w m = 0 := fun w => by simp [answers, hm.push.request]
    rcases hmove.moves with ⟨rfl, hnext⟩ | ⟨rfl, hnext, hfinal⟩
    · refine ⟨v, _, [next], [], hmove.receiving, rfl, hmove.van, by simp,
        h.delivered hnet _ ?_ (by simp) ?_ fun w => ?_⟩
      · intro m' hm'
        obtain rfl := List.mem_singleton.mp hm'
        exact .inl ⟨x, a, hnext⟩
      · rw [parts_push hm.push, parts_push hnext.push]
        simp [parts]
      · rw [hzero w]
        simp [receivedBy, answers, hnext.push.request]
    · refine ⟨v, _, [], [(v.myId, next)], hmove.receiving, rfl, hmove.van, ?_,
        h.delivered hnet _ (by simp) ?_ ?_ fun w => ?_⟩
      · intro e he y b hb
        obtain rfl := List.mem_singleton.mp he
        obtain ⟨rfl, rfl⟩ := Prod.mk.inj (hb.push.unique hnext.push)
        exact ⟨hmove.myId, hm.push, hfinal⟩
      · intro e he
        obtain rfl := List.mem_singleton.mp he
        exact .inl ⟨x, a, hnext⟩
      · rw [parts_push hm.push, List.map_singleton, parts_push hnext.push]
        simp [parts]
      · have hid : v.myId = serverRankToID (x.target T : Fin n) := hnext.at_target
        simp [receivedBy, hzero, hid]
  · have hdown := hm
    obtain ⟨load, hload, hreq, hdata, hcopy⟩ := hm
    obtain ⟨out, sent, acc, hreceive, hperform, hcopies, hacc, hcover, -⟩ :=
      deliver_copy hC hload (hsees hdown) hcopy queue queues
    have hsent : ∀ m' ∈ sent, Down job T m' := fun m' hm' =>
      ⟨load, hload, hreq, hdata, hcopies m' hm'⟩
    have hresp : ∀ e ∈ acc, Answer job e := by
      intro e he
      obtain ⟨hworker, hp⟩ := hacc e he
      refine ⟨hworker, (request_of_payload hp).trans hreq, ?_⟩
      rw [← hp] at hdata
      exact hdata
    refine ⟨_, out, sent, acc, hreceive, hperform, .inl rfl, ?_, h.delivered hnet _
      (fun m' hm' => .inr (hsent m' hm')) (fun e he => .inr (hresp e he)) ?_ fun w => ?_⟩
    · intro e he x a hx
      exact absurd (hx.push.request.symm.trans (hresp e he).request) (by simp)
    · rw [parts_down fun m' hm' => (hsent m' hm').request, parts_down, parts_down,
        Multiset.zero_add]
      · intro m' hm'
        obtain ⟨e, he, rfl⟩ := List.mem_map.mp hm'
        exact (hresp e he).request
      · intro m' hm'
        obtain rfl := List.mem_singleton.mp hm'
        exact hdown.request
    · rw [map_answers fun m' hm' => (hsent m' hm').request, hcover w, answers, if_neg]
      rw [hdown.request]
      simp

/-- A push that waits is the arrival of a value. -/
theorem Linked.arriving {s : State n} {t : Convergecast.State (Fin n) M}
    (h : Linked job view T s t) {l₁ l₂ : List (ℤ × Message NDArray)} {c : Fin n}
    {m : Message NDArray} (hinbox : s.inbox = l₁ ++ (serverRankToID c, m) :: l₂) :
    ∃ x a, Arrived job T x a (serverRankToID c, m) ∧ x.target T = c ∧
      t.flying = (x, view a) ::ₘ (parts job view s.net + parts job view ((l₁ ++ l₂).map Prod.snd)) := by
  rcases h.inbox (serverRankToID c, m) (hinbox ▸ by simp) with ⟨x, a, he⟩ | ⟨⟨w, hw⟩, -, -⟩
  swap
  · exact absurd hw (by simp)
  refine ⟨x, a, he, ?_, ?_⟩
  · have := he.at_target
    simp only [serverRankToID_inj, Fin.val_inj] at this
    exact this.symm
  · rw [h.flying, hinbox, List.map_append, List.map_cons, parts_append, parts_cons,
      parts_push he.push, List.map_append, parts_append, ← Multiset.singleton_add]
    abel

/-- The state after a request of the key was handled at server `c`. -/
def State.handled (s : State n) (c : Fin n) (v : Van) (kv : KVServer) (st : KVStoreDistServer)
    (inbox : List (ℤ × Message NDArray)) (sent : List (Message NDArray))
    (updated : Option NDArray) : State n :=
  { s with
    vans := Function.update s.vans (serverRankToID c) v
    kvs := Function.update s.kvs c kv
    servers := Function.update s.servers c st
    net := s.net ++ sent
    inbox := inbox
    updates := s.updates ++ updated.toList.map (c, ·) }

/-- What handling leaves as it is, put together with what it changes. -/
theorem Linked.handled {s : State n} {t t' : Convergecast.State (Fin n) M}
    (h : Linked job view T s t) {l₁ l₂ : List (ℤ × Message NDArray)} {c : Fin n}
    {m : Message NDArray} (hinbox : s.inbox = l₁ ++ (serverRankToID c, m) :: l₂) (v : Van)
    (kv : KVServer) {st : KVStoreDistServer} {sent : List (Message NDArray)} {updated : Option NDArray}
    (hsent : ∀ m ∈ sent, (∃ x a, Flying job T x a m) ∨ Down job T m)
    (hflying : t'.flying =
      parts job view s.net + parts job view ((l₁ ++ l₂).map Prod.snd) + parts job view sent)
    {l : List (Source (Fin n))} (hlisted : t'.listed = Function.update t.listed c l)
    (hlength : (st.updateBuf (slot job.key)).request.length = l.length) {sum : M}
    (hmerged : t'.merged = Function.update t.merged c sum)
    (hholds : (st.updateBuf (slot job.key)).request ≠ [] → ∃ merged : Fin ℓ → ℚ,
      (st.updateBuf (slot job.key)).merged = some (List.ofFn merged) ∧ view merged = sum)
    (hpushed : ∀ w, s.sent w = t'.updates.length + if w ∈ t'.pushed then 1 else 0)
    (hanswers : ∀ w, t.updates.length + (sent.map (answers T w)).sum = t'.updates.length)
    (hupdates : List.Forall₂ (fun e u => ∃ a, e = (T.root, List.ofFn a) ∧ view a = u)
      (s.updates ++ updated.toList.map (c, ·)) t'.updates) :
    Linked job view T (s.handled c v kv st (l₁ ++ l₂) sent updated) t' := by
  refine ⟨?_, ?_, ?_, fun u => ?_, fun u => ?_, hpushed, fun w => ?_, hupdates⟩
  · intro m' hm'
    rcases List.mem_append.mp hm' with hm' | hm'
    · exact h.net m' hm'
    · exact hsent m' hm'
  · exact fun e he => h.inbox e (mem_of_mem_taken hinbox he)
  · rw [hflying]
    simp only [State.handled, parts_append]
    abel
  · rw [hlisted]
    by_cases hu : u = c
    · subst hu
      simpa [State.handled, State.requests] using hlength
    · simpa [State.handled, State.requests, hu] using h.length u
  · rw [hmerged]
    by_cases hu : u = c
    · subst hu
      simpa [State.handled, State.requests] using hholds
    · simpa [State.handled, State.requests, hu] using h.holds u
  · have hw := h.answered w
    have ha := hanswers w
    simp only [hinbox, receivedBy, List.countP_append, List.countP_cons,
      serverRankToID_ne_worker, decide_false, Bool.false_eq_true, if_false] at hw
    simp only [State.handled, receivedBy, List.countP_append, List.map_append, List.sum_append]
    omega

section Handle
variable [AddCommMonoid M]

/-- A push that is handled is one that has arrived, and what is seen of the sum is that of the
convergecast. -/
theorem Linked.handled_push (hS : Setting job cfg) (hview : ∀ c, Views (cfg c) view) {s : State n}
    (hC : Cluster n s.vans) {t : Convergecast.State (Fin n) M} (hI : Inv T (job.seen view) t)
    (hroot : job.root = T.root) (h : Linked job view T s t) {l₁ l₂ : List (ℤ × Message NDArray)}
    {c : Fin n} {m : Message NDArray} (hinbox : s.inbox = l₁ ++ (serverRankToID c, m) :: l₂)
    (hsees : SeesTree T c ((s.kvs c).refresh (s.vans (serverRankToID c)) m).1.parents
      ((s.kvs c).refresh (s.vans (serverRankToID c)) m).1.sons)
    {unset : ℤ} {kv : KVServer} {v : Van} {hd : Handled}
    (hprocess : (s.kvs c).process (cfg c) (s.vans (serverRankToID c)) unset (s.servers c) m =
      some (kv, v, hd)) :
    (s.kvs c).refresh (s.vans (serverRankToID c)) m = (kv, v) ∧ ∃ x a, ∃ sum : Fin ℓ → ℚ,
      Arrived job T x a (serverRankToID c, m) ∧ x.target T = c ∧
      t.flying = (x, view a) ::ₘ (parts job view s.net + parts job view ((l₁ ++ l₂).map Prod.snd)) ∧
      view sum = t.add c (view a) ∧
      PushHandled job (cfg c) T c m.iters (s.servers c) (List.ofFn sum) hd := by
  obtain ⟨x, a, he, htarget, hflying⟩ := h.arriving hinbox
  have hlen := h.length c
  have hle := hI.length_le c
  rw [State.requests] at hlen
  obtain ⟨hd', sum, heq, htotal, hhandled⟩ :=
    Aggregation.handled_push hS hroot (hC.server c) he hsees unset (hlen ▸ hle) hprocess
  obtain ⟨rfl, rfl, rfl⟩ : kv = _ ∧ v = _ ∧ hd = hd' := by simpa using heq
  have hsumLength : sum.length = ℓ := by rw [htotal.length, List.length_ofFn]
  obtain ⟨sum, rfl⟩ := exists_ofFn hsumLength
  have hreceived : ((cfg c).toStored (List.ofFn a)).length = ℓ := by
    rw [StoreConfig.length_toStored, List.length_ofFn]
  obtain ⟨b, hb⟩ := exists_ofFn hreceived
  have hseen : view b = view a := (hview c).toStored a b hb
  have hnil : ((s.servers c).updateBuf (slot job.key)).request = [] ↔ t.listed c = [] := by
    rw [← List.length_eq_zero_iff, hlen, List.length_eq_zero_iff]
  refine ⟨rfl, x, a, sum, he, htarget, hflying, ?_, hhandled⟩
  rw [Convergecast.State.add]
  split_ifs with hfirst
  · have hsum := htotal.first (hnil.mpr hfirst)
    rw [hb] at hsum
    rw [List.ofFn_injective hsum, hseen]
  · have hne := fun he => hfirst (hnil.mp he)
    obtain ⟨merged, hmerged, -, hsum⟩ := htotal.later hne
    obtain ⟨old, hold, hview'⟩ := h.holds c hne
    obtain rfl := Option.some.inj (hmerged.symm.trans hold)
    rw [hb, zipWith_ofFn] at hsum
    rw [List.ofFn_injective hsum, (hview c).add, hview', hseen]

/-- A handler does what an arrival does. -/
theorem Linked.handle (hS : Setting job cfg) (hview : ∀ c, Views (cfg c) view) {s : State n}
    (hC : Cluster n s.vans) {t : Convergecast.State (Fin n) M} (hI : Inv T (job.seen view) t)
    (hroot : job.root = T.root) (h : Linked job view T s t) {l₁ l₂ : List (ℤ × Message NDArray)}
    {c : Fin n} {m : Message NDArray} (hinbox : s.inbox = l₁ ++ (serverRankToID c, m) :: l₂)
    (happ : (s.kvs c).appId = job.appId)
    (hsees : SeesTree T c ((s.kvs c).refresh (s.vans (serverRankToID c)) m).1.parents
      ((s.kvs c).refresh (s.vans (serverRankToID c)) m).1.sons)
    {unset : ℤ} {queue : ℤ → ℕ} {queues : ℕ → ℤ → ℕ} {kv : KVServer} {v : Van} {hd : Handled}
    (hprocess : (s.kvs c).process (cfg c) (s.vans (serverRankToID c)) unset (s.servers c) m =
      some (kv, v, hd)) :
    ∃ sent x a rest, hd.calls.mapM (kv.call v queue queues) = some sent ∧
      (s.kvs c).refresh (s.vans (serverRankToID c)) m = (kv, v) ∧
      x.target T = c ∧ t.flying = (x, a) ::ₘ rest ∧
      Linked job view T (s.handled c v kv hd.server (l₁ ++ l₂) sent.flatten hd.updated)
        (t.arrive T x a rest) := by
  obtain ⟨hrefresh, x, a, sum, he, rfl, hflying, hsum, hhandled⟩ :=
    h.handled_push hS hview hC hI hroot hinbox hsees hprocess
  have hlen := h.length (x.target T)
  rw [State.requests] at hlen
  set van := s.vans (serverRankToID (x.target T : Fin n)) with hvan
  have hlike := (s.kvs (x.target T)).refresh_like van m
  have happ' := ((s.kvs (x.target T)).refresh_appId van m).trans happ
  rw [hrefresh] at hsees hlike happ'
  dsimp only at hsees hlike happ'
  have hC' := hC.update hlike
  by_cases hfull : (t.listed (x.target T)).length = (T.children (x.target T)).card
  swap
  · obtain ⟨buf, rfl, hmerged, hlen'⟩ := hhandled.collect (hlen.trans_ne hfull)
    refine ⟨[], x, _, _, rfl, hrefresh, rfl, hflying, ?_⟩
    rw [Convergecast.State.arrive, if_neg hfull]
    refine h.handled hinbox v kv (by simp) ?_ rfl ?_ rfl (fun _ => ⟨sum, ?_, hsum⟩) h.sent (by simp) ?_
    · simp [parts]
    · rw [StoreConfig.setBuf_updateBuf, hlen', hlen, List.length_append, List.length_singleton]
    · rw [StoreConfig.setBuf_updateBuf, hmerged]
    · simpa using h.updates
  by_cases htop : x.target T = T.root
  · obtain ⟨⟨req, new, hcalls⟩, hupdated, hempty⟩ := hhandled.finish (hlen.trans hfull) htop
    obtain ⟨sent, hsent, hdown, hcover⟩ :=
      call_responseAll job hC' (htop ▸ hsees) (cfg (x.target T)) req new queue queues
    rw [htop, Function.update_self] at hsent
    obtain ⟨-, -, hpushed⟩ := hI.complete hflying hfull htop
    refine ⟨[sent], x, _, _, by simp [hcalls, hsent, htop], hrefresh, rfl, hflying, ?_⟩
    rw [Convergecast.State.arrive, if_pos hfull, if_pos htop, hupdated, List.flatten_singleton]
    refine h.handled hinbox v kv (fun m' hm' => .inr (hdown m' hm')) ?_ rfl (by simp [hempty]) rfl
      (fun hne => absurd hempty hne) (fun w => ?_) (fun w => ?_) ?_
    · rw [parts_down fun m' hm' => (hdown m' hm').request, Multiset.add_zero]
    · have hw := h.sent w
      rw [if_pos (hpushed w)] at hw
      simpa using hw
    · rw [map_answers fun m' hm' => (hdown m' hm').request, hcover w]
      simp
    · exact List.rel_append h.updates (.cons ⟨sum, by rw [htop], hsum⟩ .nil)
  · obtain ⟨⟨req, hversion, hnum, hpush, hcalls⟩, hupdated, hempty⟩ :=
      hhandled.forward (hlen.trans hfull) htop
    have hstored : ((cfg (x.target T)).ofStored (List.ofFn sum)).length = ℓ := by
      rw [StoreConfig.length_ofStored, List.length_ofFn]
    obtain ⟨b, hb⟩ := exists_ofFn hstored
    have hseen := (hview (x.target T)).ofStored sum b hb
    rw [hb] at hcalls
    have hv := hC'.server (x.target T)
    have htable := hC'.table (x.target T)
    rw [Function.update_self] at hv htable
    obtain ⟨w, r, hiters⟩ := he.push.iters
    obtain ⟨m', hm', hflies⟩ := call_push hS hroot hv htable hsees happ' htop hversion
      ⟨w, r, hnum.trans hiters⟩ hpush b queue queues
    refine ⟨[[m']], x, _, _, by simp [hcalls, hm'], hrefresh, rfl, hflying, ?_⟩
    rw [Convergecast.State.arrive, if_pos hfull, if_neg htop, hupdated, List.flatten_singleton]
    refine h.handled hinbox v kv (fun m'' hm'' => .inl ?_) ?_ rfl (by simp [hempty]) rfl
      (fun hne => absurd hempty hne) h.sent (fun w => ?_) ?_
    · obtain rfl := List.mem_singleton.mp hm''
      exact ⟨_, _, hflies⟩
    · rw [parts_push hflies.push, hseen, hsum, ← Multiset.singleton_add, Multiset.add_comm]
    · simp [answers, hflies.push.request]
    · simpa using h.updates

end Handle

/-- A worker that reads its response is no longer waiting for it. -/
theorem Linked.response {s : State n} {t : Convergecast.State (Fin n) M}
    (h : Linked job view T s t) {l₁ l₂ : List (ℤ × Message NDArray)} {w : Fin n}
    {m : Message NDArray} (hinbox : s.inbox = l₁ ++ (workerRankToID w, m) :: l₂) :
    Linked job view T { s with
      inbox := l₁ ++ l₂
      received := Function.update s.received w (s.received w + 1) } t := by
  have hreq : m.request = false := by
    rcases h.inbox (workerRankToID w, m) (hinbox ▸ by simp) with ⟨x, a, he⟩ | ⟨-, hreq, -⟩
    · exact absurd he.at_target (by simp)
    · exact hreq
  refine ⟨h.net, fun e he => h.inbox e (mem_of_mem_taken hinbox he), ?_, h.length, h.holds, h.sent,
    fun u => ?_, h.updates⟩
  · have hm : parts job view [m] = 0 := parts_down fun m' hm' => by
      obtain rfl := List.mem_singleton.mp hm'
      exact hreq
    rw [h.flying, hinbox, List.map_append, List.map_cons, parts_append, parts_cons, hm,
      Multiset.zero_add, ← parts_append, ← List.map_append]
  · have hu := h.answered u
    simp only [hinbox, receivedBy, List.countP_append, List.countP_cons, workerRankToID_inj,
      decide_eq_true_eq, Fin.val_inj] at hu
    simp only [receivedBy, List.countP_append]
    by_cases huw : u = w
    · subst huw
      simp only [if_true, Function.update_self] at hu ⊢
      omega
    · simp only [Ne.symm huw, if_false, Function.update_of_ne huw] at hu ⊢
      omega

/-- What the link to the convergecast depends on. -/
theorem Linked.congr {s s' : State n} {t : Convergecast.State (Fin n) M}
    (h : Linked job view T s t) (hnet : s'.net = s.net) (hinbox : s'.inbox = s.inbox)
    (hbuf : ∀ c, (s'.servers c).updateBuf (slot job.key) = (s.servers c).updateBuf (slot job.key))
    (hsent : s'.sent = s.sent) (hreceived : s'.received = s.received)
    (hupdates : s'.updates = s.updates) : Linked job view T s' t := by
  refine ⟨hnet ▸ h.net, hinbox ▸ h.inbox, ?_, fun c => ?_, fun c => ?_, ?_, ?_, ?_⟩
  · rw [hnet, hinbox]
    exact h.flying
  · rw [State.requests, hbuf]
    exact h.length c
  · rw [State.requests, hbuf]
    exact h.holds c
  · rw [hsent]
    exact h.sent
  · rw [hnet, hinbox, hreceived]
    exact h.answered
  · rw [hupdates]
    exact h.updates

/-- A pull, or a push of a key with another slot, leaves the key alone. -/
theorem same_of_other {s : State n} {c : Fin n} {req : KVMeta} {data : KVPairs NDArray}
    {hd : Handled} (hslot : req.push = true → ∀ k ∈ data.keys, slot k ≠ slot job.key)
    (hhandle : (cfg c).dataHandleDefault (s.servers c) (s.kvs c).sons req data = some hd)
    (u : Fin n) :
    (Function.update s.servers c hd.server u).updateBuf (slot job.key) =
        (s.servers u).updateBuf (slot job.key) ∧
      (Function.update s.servers c hd.server u).store job.key = (s.servers u).store job.key := by
  by_cases hu : u = c
  · subst hu
    rw [Function.update_self]
    by_cases hpush : req.push = true
    · exact StoreConfig.dataHandleDefault_sameElsewhere hhandle fun k hk => (hslot hpush k hk).symm
    · rw [StoreConfig.dataHandleDefault_pull hpush hhandle]
      exact ⟨rfl, rfl⟩
  · rw [Function.update_of_ne hu]
    exact ⟨rfl, rfl⟩

theorem Down.answers_pos {m : Message NDArray} (h : Down job T m) : ∃ w, 0 < answers T w m := by
  have hreq := h.request
  obtain ⟨load, -, -, -, c, hcopy | hcopy⟩ := h
  · refine ⟨c, ?_⟩
    rw [answers, if_neg (by simp [hreq]), covers_forServer hcopy, if_pos (T.self_mem_subtree c)]
    exact Nat.one_pos
  · refine ⟨c, ?_⟩
    rw [answers, if_neg (by simp [hreq]), covers_forWorker hcopy, if_pos rfl]
    exact Nat.one_pos

/-- A response is in flight only after an update. -/
theorem Linked.updates_pos {s : State n} {t : Convergecast.State (Fin n) M}
    (h : Linked job view T s t) {m : Message NDArray} (hm : m ∈ s.net) (hdown : Down job T m) :
    0 < t.updates.length := by
  obtain ⟨w, hw⟩ := hdown.answers_pos
  have hle := List.single_le_sum (fun a _ => Nat.zero_le a) _
    (List.mem_map_of_mem (f := answers T w) hm)
  have := h.answered w
  omega

/-- A worker's push is in flight only after the worker has sent it. -/
theorem Linked.sent_pos [AddCommMonoid M] {s : State n} {t : Convergecast.State (Fin n) M}
    (hI : Inv T (job.seen view) t) (h : Linked job view T s t) {m : Message NDArray} (hm : m ∈ s.net)
    {w : Fin n} {a : Fin ℓ → ℚ} (hp : IsPush job (.leaf w) a m) : 0 < s.sent w := by
  have hmem : (.leaf w, view a) ∈ parts job view s.net := mem_parts hm hp
  have hflying : (.leaf w, view a) ∈ t.flying := by
    rw [h.flying]
    exact Multiset.mem_add.mpr (.inl hmem)
  obtain ⟨rest, hrest⟩ := Multiset.exists_cons_of_mem hflying
  obtain ⟨-, -, -, -, hprod⟩ := hI.arriving hrest
  have hpushed : w ∈ t.pushed := by
    by_contra hnot
    simp [Convergecast.State.produced, hnot] at hprod
  have hsent := h.sent w
  rw [if_pos hpushed] at hsent
  omega

/-- When every push has been answered and every answer read, nothing is left of the key. -/
theorem Linked.quiet [AddCommMonoid M] {s : State n} {t : Convergecast.State (Fin n) M}
    (hI : Inv T (job.seen view) t) (h : Linked job view T s t) (hpushed : t.pushed = ∅)
    (hread : ∀ w, s.received w = t.updates.length) :
    s.net = [] ∧ s.inbox = [] ∧ ∀ c, s.requests job c = [] := by
  obtain ⟨hflying, hlisted⟩ := hI.idle hpushed
  have hnone : ∀ w, receivedBy w s.inbox = 0 ∧ (s.net.map (answers T w)).sum = 0 := by
    intro w
    have := h.answered w
    rw [hread w] at this
    omega
  have hpart : ∀ {m : Message NDArray} {x : Source (Fin n)} {a : Fin ℓ → ℚ},
      m ∈ s.net ++ s.inbox.map Prod.snd → ¬ IsPush job x a m := by
    intro m x a hm hp
    have hmem : (x, view a) ∈ parts job view (s.net ++ s.inbox.map Prod.snd) := mem_parts hm hp
    rw [parts_append, ← h.flying, hflying] at hmem
    exact Multiset.notMem_zero _ hmem
  refine ⟨?_, ?_, fun c => ?_⟩
  · refine List.eq_nil_iff_forall_not_mem.mpr fun m hm => ?_
    rcases h.net m hm with ⟨x, a, hp⟩ | hdown
    · exact hpart (List.mem_append_left _ hm) hp.push
    · obtain ⟨w, hw⟩ := hdown.answers_pos
      have hle := List.single_le_sum (fun a _ => Nat.zero_le a) _
        (List.mem_map_of_mem (f := answers T w) hm)
      have := (hnone w).2
      omega
  · refine List.eq_nil_iff_forall_not_mem.mpr fun e he => ?_
    rcases h.inbox e he with ⟨x, a, hp⟩ | hanswer
    · exact hpart (List.mem_append_right _ (List.mem_map_of_mem he)) hp.push
    · obtain ⟨w, hw⟩ := hanswer.worker
      have hpos : 0 < receivedBy w s.inbox := List.countP_pos_iff.mpr ⟨e, he, by simp [hw]⟩
      have := (hnone w).1
      omega
  · rw [← List.length_eq_zero_iff, h.length, hlisted, List.length_nil]

/-- A policy that all servers have taken over, with nothing new to look for. -/
structure Settled (job : Job n ℓ) (T : RootedTree (Fin n)) (vans : ℤ → Van)
    (kvs : Fin n → KVServer) : Prop where
  cluster : Cluster n vans
  initFlag : ∀ c : Fin n, (vans (serverRankToID c)).initFlag = true
  vanTree : ∀ c : Fin n, SeesTree T c (vans (serverRankToID c)).parents
    (vans (serverRankToID c)).sons
  kvTree : ∀ c, SeesTree T c (kvs c).parents (kvs c).sons
  kvAppId : ∀ c, (kvs c).appId = job.appId
  root : job.root = T.root

section Step
variable {vans : ℤ → Van} {kvs : Fin n → KVServer}

/-- A delivery leaves a settled policy alone. -/
theorem Linked.deliver_settled (hS : Setting job cfg) {s : State n}
    (hP : Settled job T s.vans s.kvs) {t : Convergecast.State (Fin n) M}
    (h : Linked job view T s t) {l₁ l₂ : List (Message NDArray)} {m : Message NDArray}
    (hnet : s.net = l₁ ++ m :: l₂) (queue : ℤ → ℕ) (queues : ℕ → ℤ → ℕ) :
    ∃ out sent acc, (s.vans m.recver).receiving queue ((s.vans m.recver).recvMsg m) =
        some (s.vans m.recver, out) ∧ (s.vans m.recver).perform queues out = some (sent, acc) ∧
      Linked job view T
        { s with
          vans := Function.update s.vans m.recver (s.vans m.recver)
          net := l₁ ++ l₂ ++ sent
          inbox := s.inbox ++ acc } t := by
  obtain ⟨v, out, sent, acc, hreceive, hperform, hv, -, hlinked⟩ :=
    h.deliver hS hP.cluster hnet (fun _ => hP.vanTree) queue queues
  obtain rfl : v = s.vans m.recver := by
    rcases hv with rfl | ⟨⟨c, hc⟩, rfl⟩
    · rfl
    · rw [hc]
      exact Van.notice_of_initFlag (hP.initFlag c) _
  exact ⟨out, sent, acc, hreceive, hperform, hlinked⟩

/-- A handler leaves a settled policy alone, and does what an arrival does. -/
theorem Linked.handle_settled (hS : Setting job cfg) (hcasts : ∀ c, (cfg c).casts = none)
    {s : State n} (hP : Settled job T s.vans s.kvs)
    {t : Convergecast.State (Fin n) (Fin ℓ → ℚ)} (hI : Inv T (job.seen id) t)
    (h : Linked job id T s t) {l₁ l₂ : List (ℤ × Message NDArray)}
    {c : Fin n} {m : Message NDArray} (hinbox : s.inbox = l₁ ++ (serverRankToID c, m) :: l₂)
    {unset : ℤ} {queue : ℤ → ℕ} {queues : ℕ → ℤ → ℕ} {kv : KVServer} {v : Van} {hd : Handled}
    (hprocess : (s.kvs c).process (cfg c) (s.vans (serverRankToID c)) unset (s.servers c) m =
      some (kv, v, hd)) :
    kv = s.kvs c ∧ v = s.vans (serverRankToID c) ∧
      (Stocked job (s.servers c) → Stocked job hd.server) ∧
      ∃ sent t', hd.calls.mapM (kv.call v queue queues) = some sent ∧
        Convergecast.Step T (job.seen id) t t' ∧
        Linked job id T (s.handled c v kv hd.server (l₁ ++ l₂) sent.flatten hd.updated) t' := by
  have hsame := (s.kvs c).refresh_of_initFlag (hP.initFlag c) m
  have hsees := hP.kvTree c
  have hview := fun c => @views_id ℓ _ (hcasts c)
  obtain ⟨-, x, a, sum, -, -, -, -, hhandled⟩ :=
    h.handled_push hS hview hP.cluster hI hP.root hinbox (hsame ▸ hsees) hprocess
  obtain ⟨sent, x, a, rest, hcalls, hrefresh, -, hflying, hlinked⟩ :=
    h.handle hS hview hP.cluster hI hP.root hinbox (hP.kvAppId c) (hsame ▸ hsees) hprocess
  obtain ⟨rfl, rfl⟩ := Prod.mk.inj (hsame.symm.trans hrefresh)
  exact ⟨rfl, rfl, hhandled.stocked (hS.sync c) (hcasts c), sent, _, hcalls, .arrive hflying, hlinked⟩

/-- The state of the system and the invariant of the convergecast. -/
structure Simulates (job : Job n ℓ) (T : RootedTree (Fin n)) (s : State n)
    (t : Convergecast.State (Fin n) (Fin ℓ → ℚ)) : Prop where
  settled : Settled job T s.vans s.kvs
  stocked : ∀ c, Stocked job (s.servers c)
  inv : Inv T (job.seen id) t
  linked : Linked job id T s t

/-- Every step of the system is a step of the convergecast, or none. -/
theorem Simulates.step (hS : Setting job cfg) (hcasts : ∀ c, (cfg c).casts = none) {s s' : State n}
    {t : Convergecast.State (Fin n) (Fin ℓ → ℚ)} (h : Simulates job T s t)
    (hstep : Step job cfg s s') :
    ∃ t', (t' = t ∨ Convergecast.Step T (job.seen id) t t') ∧ Simulates job T s' t' := by
  obtain ⟨hP, hstocked, hI, hL⟩ := h
  cases hstep with
  | @push w m hgate hsend =>
    obtain ⟨m', hsend', hm⟩ := send_push hS hP.root (hP.cluster.worker w) (s.sent w)
    rw [hsend', Option.some.injEq] at hsend
    subst hsend
    obtain ⟨hw, hlinked⟩ := hL.push hgate hm
    exact ⟨_, .inr (.push hw), hP, hstocked, hI.step (.push hw), hlinked⟩
  | deliver hnet queue queues hreceive hperform =>
    obtain ⟨out, sent, acc, hreceive', hperform', hlinked⟩ :=
      hL.deliver_settled hS hP hnet queue queues
    rw [hreceive', Option.some.injEq, Prod.mk.injEq] at hreceive
    obtain ⟨rfl, rfl⟩ := hreceive
    rw [hperform', Option.some.injEq, Prod.mk.injEq] at hperform
    obtain ⟨rfl, rfl⟩ := hperform
    exact ⟨t, .inl rfl, (Function.update_eq_self _ s.vans).symm ▸ hP, hstocked, hI, hlinked⟩
  | @handle l₁ l₂ c m hinbox unset queue queues kv v hd sent hprocess hcalls =>
    obtain ⟨rfl, rfl, hkeeps, sent', t', hcalls', hstep, hlinked⟩ :=
      hL.handle_settled hS hcasts hP hI hinbox hprocess
    obtain rfl := Option.some.inj (hcalls.symm.trans hcalls')
    refine ⟨t', .inr hstep, ?_, fun u => ?_, hI.step hstep, hlinked⟩
    · rw [Function.update_eq_self, Function.update_eq_self]
      exact hP
    · by_cases hu : u = c
      · subst hu
        simpa using hkeeps (hstocked u)
      · simpa [hu] using hstocked u
  | response hinbox => exact ⟨t, .inl rfl, hP, hstocked, hI, hL.response hinbox⟩
  | other hslot hhandle =>
    have hsame := same_of_other hslot hhandle
    refine ⟨t, .inl rfl, hP, fun u => ?_, hI,
      hL.congr rfl rfl (fun u => (hsame u).1) rfl rfl rfl⟩
    rw [Stocked, (hsame u).1, (hsame u).2]
    exact hstocked u

end Step

/-- Before the first push. -/
structure State.Starts (job : Job n ℓ) (s : State n) : Prop where
  net : s.net = []
  inbox : s.inbox = []
  sent : s.sent = 0
  received : s.received = 0
  updates : s.updates = []
  requests : ∀ c, s.requests job c = []

theorem State.Starts.linked {s : State n} (h : s.Starts job) [AddCommMonoid M] :
    Linked job view T s ⟨0, fun _ => [], 0, ∅, ∅, []⟩ := by
  refine ⟨by simp [h.net], by simp [h.inbox], ?_, by simp [h.requests],
    fun c hne => absurd (h.requests c) hne, by simp [h.sent], ?_, by simp [h.updates]⟩
  · simp [h.net, h.inbox, parts]
  · simp [h.net, h.inbox, h.received, receivedBy]

section Runs
variable {s : State n} {t : Convergecast.State (Fin n) (Fin ℓ → ℚ)}

/-- The updates so far are those of the root, one a round, with the sum of the round. -/
theorem Simulates.exact (h : Simulates job T s t) :
    s.updates = (List.range s.updates.length).map fun r =>
      (T.root, List.ofFn (∑ w, job.grad w r)) := by
  refine List.ext_getElem (by simp) fun r hr hr' => ?_
  have hlt : r < t.updates.length := h.linked.updates.length_eq ▸ hr
  obtain ⟨a, heq, hview⟩ := h.linked.updates.get hr hlt
  have hval := h.inv.updates r _ (List.getElem?_eq_getElem hlt)
  simp only [List.get_eq_getElem] at heq hview
  rw [List.getElem_map, List.getElem_range, heq]
  rw [hval] at hview
  exact congrArg (fun a => (T.root, List.ofFn a)) hview

end Runs

/-- Between its push and the response of a round a worker sees the update of that round. -/
theorem Linked.rounds {s : State n} {t : Convergecast.State (Fin n) M}
    (h : Linked job view T s t) (w : Fin n) :
    s.received w ≤ s.updates.length ∧ s.updates.length ≤ s.sent w ∧
      s.sent w ≤ s.updates.length + 1 := by
  have hlen := h.updates.length_eq
  have hanswered := h.answered w
  have hsent := h.sent w
  rw [hlen]
  split_ifs at hsent <;> omega

/-- When nothing is under way, every round that all workers have begun is over. -/
theorem Linked.complete [AddCommMonoid M] {s : State n} {t : Convergecast.State (Fin n) M}
    (hI : Inv T (job.seen view) t) (h : Linked job view T s t) (hnet : s.net = [])
    (hinbox : s.inbox = []) {R : ℕ} (hsent : ∀ w, s.sent w = R) : s.updates.length = R := by
  have hlen := h.updates.length_eq
  have hflying : t.flying = 0 := by simp [h.flying, hnet, hinbox, parts]
  obtain ⟨w, hw⟩ : ∃ w, w ∉ t.pushed := by
    by_contra hall
    push Not at hall
    exact hI.not_stuck hall hflying
  have := h.sent w
  rw [if_neg hw, hsent] at this
  omega

end Simulation

/-- What the aggregation of a key relies on: one policy at all servers, taken over by van and
`KVServer` alike, sync mode, no multi-precision, and pushes with `num_merge` not `0`. -/
structure Job.Ready {n ℓ : ℕ} (job : Job n ℓ) (cfg : Fin n → StoreConfig) (perf : List ℚ)
    (route : List (List (List (List ℕ)))) (s : State n) : Prop where
  cluster : Cluster n s.vans
  installed : ∀ c : Fin n, Installed n perf route c (s.vans (serverRankToID c)).parents
    (s.vans (serverRankToID c)).sons
  initFlag : ∀ c : Fin n, (s.vans (serverRankToID c)).initFlag = true
  kvParents : ∀ c, (s.kvs c).parents = (s.vans (serverRankToID c)).parents
  kvSons : ∀ c, (s.kvs c).sons = (s.vans (serverRankToID c)).sons
  kvAppId : ∀ c, (s.kvs c).appId = job.appId
  ids : workerRankToID n ≤ kEmpty
  appId : job.appId ≠ kEmpty
  numMerge : ∀ (w : Fin n) r, (job.pushMsg (s.vans (workerRankToID w)) w r).iters ≠ 0
  fits : ℓ * job.sizeof < 2 ^ 31
  sync : ∀ c, (cfg c).syncMode = true
  myRank : ∀ c, (cfg c).myRank = c
  numWorkers : ∀ c, (cfg c).numWorkers = n
  sizeof : ∀ c, (cfg c).sizeof = job.sizeof
  casts : ∀ c, (cfg c).casts = none

theorem Job.Ready.setting {n ℓ : ℕ} {job : Job n ℓ} {cfg : Fin n → StoreConfig} {perf : List ℚ}
    {route : List (List (List (List ℕ)))} {s : State n} (h : job.Ready cfg perf route s) :
    Setting job cfg := by
  refine ⟨h.ids, h.appId, fun w r => ?_, h.fits, h.sync, h.myRank, h.numWorkers, h.sizeof⟩
  have hne := h.numMerge w r
  simp only [Job.pushMsg, Van.kvWorkerMsg, (h.cluster.worker w).myId] at hne
  exact hne

theorem Job.Ready.settled {n ℓ : ℕ} {job : Job n ℓ} {cfg : Fin n → StoreConfig} {perf : List ℚ}
    {route : List (List (List (List ℕ)))} {s : State n} (h : job.Ready cfg perf route s)
    {T : RootedTree (Fin n)} (hroot : T.root = job.root)
    (hT : ∀ (v : Fin n) (parents : List ℤ) (sons : List (List ℤ)),
      Installed n perf route v parents sons → SeesTree T v parents sons) :
    Settled job T s.vans s.kvs := by
  have hsees := fun c => hT c _ _ (h.installed c)
  refine ⟨h.cluster, h.initFlag, hsees, fun c => ?_, h.kvAppId, hroot.symm⟩
  rw [h.kvParents, h.kvSons]
  exact hsees c

end NetStorm.Aggregation

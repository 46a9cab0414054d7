import NetStorm.KVServer
import NetStorm.KeyRanges
import NetStorm.Library.Bag
import NetStorm.Library.Steps
import Mathlib.Data.List.Nodup

/-!
# Requests and responses at a worker

`KVWorker` numbers its requests by timestamps. `tracker_` counts for every timestamp the
servers that were asked and those that have nothing more to answer, and the callback of a
request runs with the last response. A response names its request by the ps key only: the
van looks up the timestamp of `key_data`, and `KVWorker::Process` that of the first key. A
read outside `tracker_` has no result. Requests are for one ps key.
-/
namespace NetStorm

/-- The keys that `DefaultSlicer` gives to the servers, for the ends of their ranges. -/
def slices (keys : List ℕ) : List ℕ → List (List ℕ)
  | [] => []
  | e :: ends => keys.takeWhile (· < e) :: slices (keys.dropWhile (· < e)) ends

/-- `KVWorker::DefaultSlicer` over the ranges of `n` servers: all keys have to be in a range. -/
def defaultSlicer (n : ℕ) (keys : List ℕ) : Option (List (List ℕ)) :=
  let sliced := slices keys ((List.range n).map (rangeEnd n))
  if (sliced.map List.length).sum = keys.length then some sliced else none

/-- The number of servers that a request sends nothing to. -/
def skipped (sliced : List (List ℕ)) : ℕ := sliced.countP (· = [])

/-- `KVWorker` and its `Customer`: `tracker_`, the timestamps in `callbacks_`, and `recv_kvs_`
as the list of its entries. Not in the source is `ran`, the callbacks that were run, each with
what it found in `recv_kvs_`. -/
structure KVWorker (V : Type) where
  appId : ℤ
  customerId : ℤ
  keyLog : ℤ := -1
  tracker : List (ℕ × ℕ) := []
  callbacks : List ℤ := []
  recvKvs : List (ℤ × KVPairs V) := []
  ran : List (ℤ × List (KVPairs V)) := []

namespace KVWorker
variable {V : Type}

/-- `Customer::NewRequest` for the group of the servers, with the new timestamp. -/
def newRequest (w : KVWorker V) (n : ℕ) : KVWorker V × ℤ :=
  ({ w with tracker := w.tracker ++ [(n, 0)] }, w.tracker.length)

/-- `Customer::NumResponse`. -/
def numResponse (w : KVWorker V) (ts : ℤ) : Option ℕ := (vectorAt w.tracker ts).map Prod.snd

/-- `Customer::AddResponse`, and the count at the end of `Customer::Receiving`. -/
def addResponse (w : KVWorker V) (ts : ℤ) (num : ℕ) : Option (KVWorker V) :=
  if ts < 0 ∨ w.tracker.length ≤ ts.toNat then none
  else some { w with tracker := w.tracker.modify ts.toNat fun e => (e.1, e.2 + num) }

/-- The condition that `Customer::WaitRequest` waits for. -/
def Answered (w : KVWorker V) (ts : ℤ) : Prop := ∃ e, vectorAt w.tracker ts = some e ∧ e.1 = e.2

/-- `KVWorker::RunCallback`. The callbacks of `ZPush` and `Pull_` take the data of their
timestamp out of `recv_kvs_`. -/
def runCallback (w : KVWorker V) (ts : ℤ) : KVWorker V :=
  if ts ∈ w.callbacks then
    { w with
      callbacks := w.callbacks.erase ts
      recvKvs := w.recvKvs.filter fun e => e.1 ≠ ts
      ran := w.ran ++ [(ts, (w.recvKvs.filter fun e => e.1 = ts).map Prod.snd)] }
  else w

/-- The loop of `KVWorker::Send` over the slices, from server `i` on. -/
def sendSlices (w : KVWorker V) (v : Van) (ts : ℤ) (push : Bool) (cmd keyVersion : ℤ)
    (kvs : KVPairs V) (i : ℕ) : List (List ℕ) → KVWorker V × Van × List (Message V)
  | [] => (w, v, [])
  | [] :: rest => w.sendSlices v ts push cmd keyVersion kvs (i + 1) rest
  | (key :: keys) :: rest =>
    let tree := if keyVersion ≠ w.keyLog then 0 else 1
    let msg := v.kvWorkerMsg w.appId w.customerId ts push cmd i keyVersion tree
      (kvs.keys.headD 0) { kvs with keys := key :: keys }
    let r := { w with keyLog := keyVersion }.sendSlices
      { v with keyTimestamp := Function.update v.keyTimestamp key ts } ts push cmd keyVersion kvs
      (i + 1) rest
    (r.1, r.2.1, msg :: r.2.2)

/-- `KVWorker::Send`. The values of the slices are not cut, since a request has one key. -/
def send (w : KVWorker V) (v : Van) (n : ℕ) (ts : ℤ) (push : Bool) (cmd keyVersion : ℤ)
    (kvs : KVPairs V) : Option (KVWorker V × Van × List (Message V)) := do
  let sliced ← defaultSlicer n kvs.keys
  let w ← w.addResponse ts (skipped sliced)
  let w := if skipped sliced = sliced.length then w.runCallback ts else w
  some (w.sendSlices v ts push cmd keyVersion kvs 0 sliced)

/-- `KVWorker::ZPush` and `KVWorker::ZPull`, with the messages that they give to `Van::Send`. -/
def zRequest (w : KVWorker V) (v : Van) (n : ℕ) (push : Bool) (cmd keyVersion : ℤ)
    (kvs : KVPairs V) : Option (KVWorker V × Van × List (Message V)) :=
  let (w, ts) := w.newRequest n
  send { w with callbacks := w.callbacks ++ [ts] } v n ts push cmd keyVersion kvs

/-- The timestamp that `KVWorker::Process` takes a message for. -/
def processTimestamp (v : Van) (msg : Message V) : ℤ :=
  match msg.data with
  | none => msg.timestamp
  | some kvs => v.keyTimestamp (kvs.keys.headD 0)

/-- `KVWorker::Process` on a message that is not of a `SimpleApp`. -/
def process (w : KVWorker V) (v : Van) (n : ℕ) (msg : Message V) : Option (KVWorker V) := do
  let ts := processTimestamp v msg
  let w := match msg.data with
    | none => w
    | some kvs => { w with recvKvs := w.recvKvs ++ [(ts, kvs)] }
  let num ← w.numResponse ts
  some (if num + 1 = n then w.runCallback ts else w)

end KVWorker

theorem slices_nil (ends : List ℕ) : slices [] ends = List.replicate ends.length [] := by
  induction ends with
  | nil => rfl
  | cons e ends ih => simp [slices, ih, List.replicate_succ]

/-- A single key is in the slice of one server, or beyond all ranges. -/
theorem slices_singleton (key : ℕ) (ends : List ℕ) :
    slices [key] ends = List.replicate ends.length [] ∨
      ∃ i j, slices [key] ends = List.replicate i [] ++ [key] :: List.replicate j [] ∧
        i + 1 + j = ends.length := by
  induction ends with
  | nil => exact .inl rfl
  | cons e ends ih =>
    by_cases hkey : key < e
    · refine .inr ⟨0, ends.length, ?_, ?_⟩
      · simp [slices, hkey, slices_nil]
      · simp only [List.length_cons]
        omega
    · rcases ih with h | ⟨i, j, h, hlen⟩
      · refine .inl ?_
        simp [slices, hkey, h, List.replicate_succ]
      · refine .inr ⟨i + 1, j, ?_, ?_⟩
        · simp [slices, hkey, h, List.replicate_succ]
        · simp only [List.length_cons]
          omega

theorem defaultSlicer_singleton {n key : ℕ} {sliced : List (List ℕ)}
    (h : defaultSlicer n [key] = some sliced) :
    ∃ i j, sliced = List.replicate i [] ++ [key] :: List.replicate j [] ∧ i + 1 + j = n := by
  simp only [defaultSlicer] at h
  split at h
  · next hsum =>
    obtain rfl := Option.some.inj h
    rcases slices_singleton key ((List.range n).map (rangeEnd n)) with hs | ⟨i, j, hs, hlen⟩
    · rw [hs] at hsum
      simp at hsum
    · exact ⟨i, j, hs, by simpa using hlen⟩
  · cases h

theorem skipped_singleton {n key : ℕ} {sliced : List (List ℕ)}
    (h : defaultSlicer n [key] = some sliced) : skipped sliced + 1 = n ∧ sliced.length = n := by
  obtain ⟨i, j, rfl, hlen⟩ := defaultSlicer_singleton h
  constructor
  · simp only [skipped, List.countP_append, List.countP_cons, List.countP_replicate]
    simp
    omega
  · simp only [List.length_append, List.length_cons, List.length_replicate]
    omega

namespace KVWorker
variable {V : Type}

theorem sendSlices_replicate (w : KVWorker V) (v : Van) (ts : ℤ) (push : Bool)
    (cmd keyVersion : ℤ) (kvs : KVPairs V) (i k : ℕ) (rest : List (List ℕ)) :
    w.sendSlices v ts push cmd keyVersion kvs i (List.replicate k [] ++ rest) =
      w.sendSlices v ts push cmd keyVersion kvs (i + k) rest := by
  induction k generalizing i with
  | zero => rfl
  | succ k ih =>
    rw [List.replicate_succ, List.cons_append, sendSlices, ih, Nat.add_right_comm, Nat.add_assoc]

/-- What a request for one key does. -/
theorem zRequest_spec {w w' : KVWorker V} {v v' : Van} {n : ℕ} {push : Bool}
    {cmd keyVersion : ℤ} {kvs : KVPairs V} {key : ℕ} {out : List (Message V)}
    (hkey : kvs.keys = [key])
    (h : w.zRequest v n push cmd keyVersion kvs = some (w', v', out)) :
    ∃ sliced msg, defaultSlicer n [key] = some sliced ∧
      w' = { w with
        keyLog := keyVersion
        tracker := w.tracker ++ [(n, skipped sliced)]
        callbacks := w.callbacks ++ [(w.tracker.length : ℤ)] } ∧
      v' = { v with keyTimestamp := Function.update v.keyTimestamp key w.tracker.length } ∧
      out = [msg] ∧ msg.data = some kvs := by
  simp only [zRequest, newRequest, send, hkey, Option.bind_eq_bind,
    Option.bind_eq_some_iff] at h
  obtain ⟨sliced, hsliced, w₁, hadd, h⟩ := h
  obtain ⟨hskip, hlength⟩ := skipped_singleton hsliced
  have hw₁ : w₁ = { w with
      tracker := w.tracker ++ [(n, skipped sliced)]
      callbacks := w.callbacks ++ [(w.tracker.length : ℤ)] } := by
    simp only [addResponse] at hadd
    rw [if_neg (by simp)] at hadd
    rw [← Option.some.inj hadd]
    simp [List.modify_eq_take_drop]
  obtain ⟨i, j, rfl, hlen⟩ := defaultSlicer_singleton hsliced
  rw [if_neg (by omega), sendSlices_replicate, sendSlices] at h
  have hrest := sendSlices_replicate { w₁ with keyLog := keyVersion }
    { v with keyTimestamp := Function.update v.keyTimestamp key w.tracker.length }
    w.tracker.length push cmd keyVersion kvs (0 + i + 1) j []
  rw [List.append_nil] at hrest
  rw [hrest] at h
  simp only [sendSlices, Option.some.injEq, Prod.mk.injEq] at h
  obtain ⟨rfl, rfl, rfl⟩ := h
  refine ⟨_, _, hsliced, ?_, rfl, rfl, ?_⟩
  · rw [hw₁]
  · cases kvs
    simp_all [Van.kvWorkerMsg]

end KVWorker

namespace ResponseTracking
variable {V : Type}

/-- A worker and the messages about its requests: requests and responses in flight, the
responses in `recv_queue_`, and the one that `Customer::Receiving` has handed to the worker and
not counted yet. With every message stands the number of the request that it is or answers,
which is not on the wire. Of the past are kept the ps keys of the requests and, for every
response, the request it answers and the timestamp it was recorded or counted under. -/
structure Session (V : Type) where
  worker : KVWorker V
  van : Van
  requests : List (ℕ × Message V) := []
  responses : List (ℕ × Message V) := []
  queue : List (ℕ × Message V) := []
  current : Option (ℕ × Message V) := none
  keys : List ℕ := []
  recorded : List (ℕ × ℤ) := []
  counted : List (ℕ × ℤ) := []

/-- The request `ts` has not had its response recorded. -/
def Session.Outstanding (s : Session V) (ts : ℕ) : Prop :=
  ts < s.keys.length ∧ ts ∉ s.recorded.map Prod.fst

/-- A response as it reaches its worker. -/
def arrived (v : Van) (hop : ℤ) (msg : Message V) : Message V :=
  { msg with cmd := .reply1, dst := v.myId, sender := hop, recver := v.myId }

/-- One step of a worker with `n` servers, where `ok` says which responses may arrive. A server
answers through `Response`, with whatever is in the `key_data` of a new message, or through
`ResponseAll`, perhaps for the request of another worker, and servers relay the latter. -/
inductive Step (n : ℕ) (ok : Session V → Message V → Prop) : Session V → Session V → Prop
  | request {s : Session V} (push : Bool) (cmd keyVersion : ℤ) {kvs : KVPairs V} {key : ℕ}
      (hkey : kvs.keys = [key])
      (hfree : ∀ ts, s.Outstanding ts → s.keys[ts]? ≠ some key) {w : KVWorker V} {v : Van}
      {out : List (Message V)}
      (hrun : s.worker.zRequest s.van n push cmd keyVersion kvs = some (w, v, out)) :
      Step n ok s { s with
        worker := w
        van := v
        requests := s.requests ++ out.map fun m => (s.keys.length, m)
        keys := s.keys ++ [key] }
  | response {s : Session V} {l₁ l₂ : List (ℕ × Message V)} {ts : ℕ} {req : Message V}
      (hrequests : s.requests = l₁ ++ (ts, req) :: l₂) (kv : KVServer) (van : Van)
      {kvs res : KVPairs V} (hkvs : req.data = some kvs) (hres : res.keys = kvs.keys)
      (unset : ℤ) (keyData : ℕ) :
      Step n ok s { s with
        requests := l₁ ++ l₂
        responses := s.responses ++ [(ts, { kv.responseMsg van (req.kvMeta unset) (some res) with
          keyData := keyData })] }
  | responseAll {s : Session V} {l₁ l₂ : List (ℕ × Message V)} {ts : ℕ} {req : Message V}
      (hrequests : s.requests = l₁ ++ (ts, req) :: l₂) (kv : KVServer) (van : Van)
      {kvs res : KVPairs V} (hkvs : req.data = some kvs) (hres : res.keys = kvs.keys)
      (other : KVMeta) {key : ℕ} (hkey : res.keys[0]? = some key) (son : ℤ) :
      Step n ok s { s with
        requests := l₁ ++ l₂
        responses := s.responses ++ [(ts, kv.responseAllMsg van other res key son)] }
  | relay {s : Session V} {l₁ l₂ : List (ℕ × Message V)} {ts : ℕ} {msg : Message V}
      (hresponses : s.responses = l₁ ++ (ts, msg) :: l₂) (htree : msg.tree ≠ []) (son : ℤ) :
      Step n ok s { s with responses := l₁ ++ (ts, msg.relay son) :: l₂ }
  | accept {s : Session V} {l₁ l₂ : List (ℕ × Message V)} {ts : ℕ} {msg msg' : Message V}
      (hresponses : s.responses = l₁ ++ (ts, msg) :: l₂) (hok : ok s msg) (hop : ℤ)
      (hrun : s.van.processDataMsg (arrived s.van hop msg) = some msg') :
      Step n ok s { s with
        responses := l₁ ++ l₂
        queue := s.queue ++ [(ts, msg')] }
  | process {s : Session V} {ts : ℕ} {msg : Message V} {rest : List (ℕ × Message V)}
      (hqueue : s.queue = (ts, msg) :: rest) (hcurrent : s.current = none) {w : KVWorker V}
      (hrun : s.worker.process s.van n msg = some w) :
      Step n ok s { s with
        worker := w
        queue := rest
        current := some (ts, msg)
        recorded := s.recorded ++ [(ts, KVWorker.processTimestamp s.van msg)] }
  | count {s : Session V} {ts : ℕ} {msg : Message V} (hcurrent : s.current = some (ts, msg))
      (hrequest : msg.request = false) {w : KVWorker V}
      (hrun : s.worker.addResponse msg.timestamp 1 = some w) :
      Step n ok s { s with
        worker := w
        current := none
        counted := s.counted ++ [(ts, msg.timestamp)] }

/-- The messages about requests that have not been recorded. -/
def Session.pending (s : Session V) : List (ℕ × Message V) := s.requests ++ s.responses ++ s.queue

/-- The invariant. -/
structure Tracked (n : ℕ) (s : Session V) : Prop where
  role : s.van.role = .worker
  length : s.worker.tracker.length = s.keys.length
  tickets : (s.pending.map Prod.fst ++ s.recorded.map Prod.fst).Perm (List.range s.keys.length)
  processed : s.recorded.map Prod.fst =
    s.counted.map Prod.fst ++ s.current.toList.map Prod.fst
  keyed : ∀ e ∈ s.pending, ∃ key, e.2.data.map KVPairs.keys = some [key] ∧
    s.keys[e.1]? = some key ∧ s.van.keyTimestamp key = e.1
  response : ∀ e ∈ s.responses, e.2.request = false ∧
    (e.2.tree ≠ [] → e.2.data.map KVPairs.keys = some [e.2.keyData])
  stamped : ∀ e ∈ s.queue ++ s.current.toList, e.2.request = false ∧ e.2.timestamp = e.1
  tracker : ∀ ts key, s.keys[ts]? = some key → ∃ sliced, defaultSlicer n [key] = some sliced ∧
    s.worker.tracker[ts]? = some (n, skipped sliced + (s.counted.map Prod.fst).count ts)
  callbacks : ∀ e ∈ s.pending, (e.1 : ℤ) ∈ s.worker.callbacks
  recvKvs : s.worker.recvKvs = []
  recorded : ∀ e ∈ s.recorded, e.2 = e.1
  counted : ∀ e ∈ s.counted, e.2 = e.1
  ran : s.worker.ran.map Prod.fst = s.recorded.map Prod.snd

/-- A response that `Response` has built has a `key_data` with the timestamp of its ps key. -/
def KeyDataOk (s : Session V) (msg : Message V) : Prop :=
  msg.tree = [] → ∀ key, msg.data.map KVPairs.keys = some [key] →
    s.van.keyTimestamp msg.keyData = s.van.keyTimestamp key

/-- What the van makes of a response with data. -/
theorem processDataMsg_spec {v : Van} {hop : ℤ} {msg msg' : Message V} (hrole : v.role = .worker)
    (hdata : msg.data.isSome) (h : v.processDataMsg (arrived v hop msg) = some msg') :
    msg'.data = msg.data ∧ msg'.request = msg.request ∧
      msg'.timestamp = v.keyTimestamp msg.keyData := by
  have hrun : v.processDataMsg (arrived v hop msg) =
      if hop = kEmpty ∨ v.myId = kEmpty ∨ msg.appId = kEmpty then none
      else some { msg with
        cmd := .empty, dst := kEmpty, sender := hop, recver := v.myId
        timestamp := v.keyTimestamp msg.keyData } := by
    by_cases htree : msg.tree = [] <;> by_cases hid : v.myId = 9 <;>
      simp [Van.processDataMsg, arrived, hrole, hdata, htree, hid]
  rw [hrun] at h
  split at h
  · cases h
  · obtain rfl := Option.some.inj h
    exact ⟨rfl, rfl, rfl⟩

namespace Tracked
variable {n : ℕ} {s : Session V}

theorem start {w : KVWorker V} {v : Van} (hrole : v.role = .worker) (htracker : w.tracker = [])
    (hrecv : w.recvKvs = []) (hran : w.ran = []) :
    Tracked n ({ worker := w, van := v } : Session V) where
  role := hrole
  length := by simp [htracker]
  tickets := by simp [Session.pending]
  processed := rfl
  keyed := by simp [Session.pending]
  response := by simp
  stamped := by simp
  tracker := by simp
  callbacks := by simp [Session.pending]
  recvKvs := hrecv
  recorded := by simp
  counted := by simp
  ran := by simp [hran]

theorem nodup (h : Tracked n s) : (s.pending.map Prod.fst ++ s.recorded.map Prod.fst).Nodup :=
  h.tickets.nodup_iff.mpr List.nodup_range

theorem outstanding (h : Tracked n s) {e : ℕ × Message V} (he : e ∈ s.pending) :
    s.Outstanding e.1 := by
  have hmem : e.1 ∈ s.pending.map Prod.fst := List.mem_map_of_mem he
  constructor
  · have hrange := h.tickets.mem_iff.mp (List.mem_append_left _ hmem)
    simpa using hrange
  · intro hrec
    exact (List.nodup_append.mp h.nodup).2.2 _ hmem _ hrec rfl

theorem counted_lt (h : Tracked n s) {ts : ℕ} (hts : ts ∈ s.counted.map Prod.fst) :
    ts < s.keys.length := by
  have hrec : ts ∈ s.recorded.map Prod.fst := by
    rw [h.processed]
    exact List.mem_append_left _ hts
  exact List.mem_range.mp (h.tickets.mem_iff.mp (List.mem_append_right _ hrec))

/-- Messages in flight change, but neither their requests nor their keys. -/
theorem reroute (h : Tracked n s) (requests responses queue : List (ℕ × Message V))
    (hperm : ((requests ++ responses ++ queue).map Prod.fst).Perm (s.pending.map Prod.fst))
    (hkeys : ∀ e ∈ requests ++ responses ++ queue, ∃ e' ∈ s.pending, e.1 = e'.1 ∧
      e.2.data.map KVPairs.keys = e'.2.data.map KVPairs.keys)
    (hresponse : ∀ e ∈ responses, e.2.request = false ∧
      (e.2.tree ≠ [] → e.2.data.map KVPairs.keys = some [e.2.keyData]))
    (hstamped : ∀ e ∈ queue, e.2.request = false ∧ e.2.timestamp = e.1) :
    Tracked n { s with requests := requests, responses := responses, queue := queue } where
  role := h.role
  length := h.length
  tickets := (hperm.append_right _).trans h.tickets
  processed := h.processed
  keyed := by
    intro e he
    obtain ⟨e', he', hfst, hdata⟩ := hkeys e he
    rw [hfst, hdata]
    exact h.keyed e' he'
  response := hresponse
  stamped := by
    intro e he
    rcases List.mem_append.mp he with he | he
    · exact hstamped e he
    · exact h.stamped e (List.mem_append_right _ he)
  tracker := h.tracker
  callbacks := by
    intro e he
    obtain ⟨e', he', hfst, -⟩ := hkeys e he
    rw [hfst]
    exact h.callbacks e' he'
  recvKvs := h.recvKvs
  recorded := h.recorded
  counted := h.counted
  ran := h.ran

theorem request (h : Tracked n s) {push : Bool} {cmd keyVersion : ℤ} {kvs : KVPairs V} {key : ℕ}
    (hkey : kvs.keys = [key]) (hfree : ∀ ts, s.Outstanding ts → s.keys[ts]? ≠ some key)
    {w : KVWorker V} {v : Van} {out : List (Message V)}
    (hrun : s.worker.zRequest s.van n push cmd keyVersion kvs = some (w, v, out)) :
    Tracked n { s with
      worker := w
      van := v
      requests := s.requests ++ out.map fun m => (s.keys.length, m)
      keys := s.keys ++ [key] } := by
  obtain ⟨sliced, msg, hsliced, rfl, rfl, rfl, hdata⟩ := KVWorker.zRequest_spec hkey hrun
  have hperm : ((s.requests ++ [(s.keys.length, msg)] ++ s.responses ++ s.queue)).Perm
      ((s.keys.length, msg) :: s.pending) := by
    rw [Session.pending, List.append_assoc, List.append_assoc, List.append_assoc]
    exact List.perm_middle
  have hmem : ∀ e ∈ s.requests ++ [(s.keys.length, msg)] ++ s.responses ++ s.queue,
      e = (s.keys.length, msg) ∨ e ∈ s.pending := by
    intro e he
    exact List.mem_cons.mp (hperm.mem_iff.mp he)
  refine ⟨h.role, by simp [h.length], ?_, h.processed, ?_, h.response, h.stamped, ?_, ?_,
    h.recvKvs, h.recorded, h.counted, h.ran⟩
  · have hrange : (List.range (s.keys ++ [key]).length).Perm
        (s.keys.length :: List.range s.keys.length) := by
      rw [List.length_append, List.length_singleton, List.range_succ]
      exact List.perm_append_singleton _ _
    refine List.Perm.trans ?_ hrange.symm
    exact ((hperm.map Prod.fst).append_right _).trans (h.tickets.cons _)
  · intro e he
    rcases hmem e he with rfl | he
    · refine ⟨key, by simp [hdata, hkey], by simp, ?_⟩
      simp [h.length]
    · obtain ⟨key', hkeys, hget, hts⟩ := h.keyed e he
      have hout := h.outstanding he
      have hne : key' ≠ key := by
        rintro rfl
        exact hfree e.1 hout hget
      refine ⟨key', hkeys, ?_, by simpa [hne] using hts⟩
      rw [List.getElem?_append_left hout.1]
      exact hget
  · intro ts key' hts
    rcases Nat.lt_trichotomy ts s.keys.length with hlt | rfl | hgt
    · rw [List.getElem?_append_left hlt] at hts
      obtain ⟨sliced', hsliced', htracker⟩ := h.tracker ts key' hts
      refine ⟨sliced', hsliced', ?_⟩
      rw [List.getElem?_append_left (by rw [h.length]; exact hlt)]
      exact htracker
    · obtain rfl : key = key' := by simpa using hts
      refine ⟨sliced, hsliced, ?_⟩
      have hzero : (s.counted.map Prod.fst).count s.keys.length = 0 :=
        List.count_eq_zero.mpr fun hcounted => lt_irrefl _ (h.counted_lt hcounted)
      rw [hzero]
      simp [← h.length]
    · rw [List.getElem?_eq_none (by simp; omega)] at hts
      cases hts
  · intro e he
    rcases hmem e he with rfl | he
    · simp [h.length]
    · exact List.mem_append_left _ (h.callbacks e he)

/-- A request has been answered by `msg`. -/
theorem answer (h : Tracked n s) {l₁ l₂ : List (ℕ × Message V)} {ts : ℕ} {req msg : Message V}
    (hrequests : s.requests = l₁ ++ (ts, req) :: l₂)
    (hdata : msg.data.map KVPairs.keys = req.data.map KVPairs.keys)
    (hrequest : msg.request = false)
    (htree : msg.tree ≠ [] → msg.data.map KVPairs.keys = some [msg.keyData]) :
    Tracked n { s with
      requests := l₁ ++ l₂
      responses := s.responses ++ [(ts, msg)] } := by
  refine h.reroute _ _ s.queue ?_ ?_ ?_ fun e he => h.stamped e (List.mem_append_left _ he)
  · simp only [Session.pending, hrequests, List.map_append, List.map_cons, List.append_assoc,
      List.cons_append, List.nil_append]
    refine (List.Perm.append_left _ ?_)
    rw [← List.append_assoc, ← List.append_assoc]
    exact List.perm_middle
  · intro e he
    simp only [List.mem_append, List.mem_singleton] at he
    simp only [Session.pending, hrequests]
    by_cases hnew : e = (ts, msg)
    · subst hnew
      exact ⟨(ts, req), by simp, rfl, hdata⟩
    · refine ⟨e, ?_, rfl, rfl⟩
      simp only [List.mem_append, List.mem_cons]
      tauto
  · intro e he
    rcases List.mem_append.mp he with he | he
    · exact h.response e he
    · obtain rfl := List.mem_singleton.mp he
      exact ⟨hrequest, htree⟩

theorem relay (h : Tracked n s) {l₁ l₂ : List (ℕ × Message V)} {ts : ℕ} {msg : Message V}
    (hresponses : s.responses = l₁ ++ (ts, msg) :: l₂) (htree : msg.tree ≠ []) (son : ℤ) :
    Tracked n { s with responses := l₁ ++ (ts, msg.relay son) :: l₂ } := by
  obtain ⟨hrequest, hkeys⟩ := h.response (ts, msg) (by simp [hresponses])
  refine h.reroute s.requests _ s.queue ?_ ?_ ?_
    fun e he => h.stamped e (List.mem_append_left _ he)
  · simp [Session.pending, hresponses]
  · intro e he
    simp only [Session.pending, hresponses]
    by_cases hnew : e = (ts, msg.relay son)
    · subst hnew
      exact ⟨(ts, msg), by simp, rfl, rfl⟩
    · refine ⟨e, ?_, rfl, rfl⟩
      simp only [List.mem_append, List.mem_cons] at he ⊢
      tauto
  · intro e he
    by_cases hnew : e = (ts, msg.relay son)
    · subst hnew
      exact ⟨hrequest, fun _ => hkeys htree⟩
    · refine h.response e ?_
      rw [hresponses]
      simp only [List.mem_append, List.mem_cons] at he ⊢
      tauto

theorem accept (h : Tracked n s) {l₁ l₂ : List (ℕ × Message V)} {ts : ℕ} {msg msg' : Message V}
    (hresponses : s.responses = l₁ ++ (ts, msg) :: l₂) (hok : KeyDataOk s msg) {hop : ℤ}
    (hrun : s.van.processDataMsg (arrived s.van hop msg) = some msg') :
    Tracked n { s with
      responses := l₁ ++ l₂
      queue := s.queue ++ [(ts, msg')] } := by
  obtain ⟨hrequest, hall⟩ := h.response (ts, msg) (by simp [hresponses])
  obtain ⟨key, hkeys, -, hts⟩ := h.keyed (ts, msg) (by simp [Session.pending, hresponses])
  have hsome : msg.data.isSome := by
    cases hdata : msg.data with
    | none => simp [hdata] at hkeys
    | some _ => rfl
  obtain ⟨hdata', hrequest', hstamp⟩ := processDataMsg_spec h.role hsome hrun
  have htimestamp : msg'.timestamp = ts := by
    rw [hstamp, ← hts]
    by_cases htree : msg.tree = []
    · exact hok htree key hkeys
    · have hkeyData : msg.keyData = key := by
        have heq := (hall htree).symm.trans hkeys
        simpa using heq
      rw [hkeyData]
  refine h.reroute s.requests _ _ ?_ ?_ ?_ ?_
  · simp only [Session.pending, hresponses, List.map_append, List.map_cons, List.map_nil,
      List.append_assoc, List.cons_append]
    refine (List.Perm.append_left _ (List.Perm.append_left _ ?_))
    rw [← List.append_assoc]
    exact List.perm_append_singleton _ _
  · intro e he
    simp only [Session.pending, hresponses]
    by_cases hnew : e = (ts, msg')
    · subst hnew
      exact ⟨(ts, msg), by simp, rfl, by rw [hdata']⟩
    · refine ⟨e, ?_, rfl, rfl⟩
      simp only [List.mem_append, List.mem_cons] at he ⊢
      tauto
  · exact fun e he => h.response e (mem_of_mem_taken hresponses he)
  · intro e he
    rcases List.mem_append.mp he with he | he
    · exact h.stamped e (List.mem_append_left _ he)
    · obtain rfl := List.mem_singleton.mp he
      exact ⟨hrequest'.trans hrequest, htimestamp⟩

theorem counted_of_current (h : Tracked n s) (hcurrent : s.current = none) :
    s.recorded.map Prod.fst = s.counted.map Prod.fst := by
  have hprocessed := h.processed
  rwa [hcurrent, Option.toList_none, List.map_nil, List.append_nil] at hprocessed

/-- `KVWorker::Process` runs the callback of the request that the message answers. -/
theorem process_eq (h : Tracked n s) {ts : ℕ} {msg : Message V} (hmem : (ts, msg) ∈ s.pending)
    (hcurrent : s.current = none) {w : KVWorker V}
    (hrun : s.worker.process s.van n msg = some w) :
    KVWorker.processTimestamp s.van msg = ts ∧ ∃ kvs, w = { s.worker with
      callbacks := s.worker.callbacks.erase ts
      ran := s.worker.ran ++ [((ts : ℤ), [kvs])] } := by
  obtain ⟨key, hkeys, hget, hts⟩ := h.keyed (ts, msg) hmem
  obtain ⟨kvs, hdata, hkvs⟩ : ∃ kvs, msg.data = some kvs ∧ kvs.keys = [key] :=
    Option.map_eq_some_iff.mp hkeys
  have hstamp : KVWorker.processTimestamp s.van msg = ts := by
    simp only [KVWorker.processTimestamp, hdata, hkvs, List.headD_cons]
    exact hts
  have hzero : (s.counted.map Prod.fst).count ts = 0 := by
    rw [List.count_eq_zero, ← h.counted_of_current hcurrent]
    exact (h.outstanding hmem).2
  obtain ⟨sliced, hsliced, htracker⟩ := h.tracker ts key hget
  have hnum : s.worker.numResponse ts = some (skipped sliced) := by
    simp [KVWorker.numResponse, vectorAt, htracker, hzero]
  refine ⟨hstamp, kvs, ?_⟩
  simp only [KVWorker.process, hstamp, hdata, KVWorker.numResponse, Option.bind_eq_bind] at hrun
  rw [KVWorker.numResponse] at hnum
  rw [hnum, Option.bind_some, if_pos (skipped_singleton hsliced).1, KVWorker.runCallback,
    if_pos (h.callbacks _ hmem)] at hrun
  rw [← Option.some.inj hrun]
  simp [h.recvKvs]

theorem process (h : Tracked n s) {ts : ℕ} {msg : Message V} {rest : List (ℕ × Message V)}
    (hqueue : s.queue = (ts, msg) :: rest) (hcurrent : s.current = none) {w : KVWorker V}
    (hrun : s.worker.process s.van n msg = some w) :
    Tracked n { s with
      worker := w
      queue := rest
      current := some (ts, msg)
      recorded := s.recorded ++ [(ts, KVWorker.processTimestamp s.van msg)] } := by
  have hmem : (ts, msg) ∈ s.pending := by simp [Session.pending, hqueue]
  obtain ⟨hstamp, kvs, rfl⟩ := h.process_eq hmem hcurrent hrun
  have hrest : ∀ e ∈ s.requests ++ s.responses ++ rest, e ∈ s.pending ∧ e.1 ≠ ts := by
    have hnodup := (List.nodup_append.mp h.nodup).1
    simp only [Session.pending, hqueue, List.map_append, List.map_cons] at hnodup
    rw [List.nodup_middle, List.nodup_cons, ← List.map_append, ← List.map_append] at hnodup
    intro e he
    refine ⟨?_, fun hfst => hnodup.1 (hfst ▸ List.mem_map_of_mem he)⟩
    simp only [Session.pending, hqueue, List.mem_append, List.mem_cons] at he ⊢
    tauto
  refine ⟨h.role, h.length, ?_, ?_, fun e he => h.keyed e (hrest e he).1, h.response, ?_,
    h.tracker, ?_, h.recvKvs, ?_, h.counted, ?_⟩
  · refine List.Perm.trans ?_ h.tickets
    simp only [Session.pending, hqueue, List.map_append, List.map_cons, List.map_nil,
      List.append_assoc, List.cons_append]
    refine List.Perm.append_left _ (List.Perm.append_left _ ?_)
    rw [← List.append_assoc]
    exact List.perm_append_singleton _ _
  · simp [h.counted_of_current hcurrent]
  · intro e he
    refine h.stamped e ?_
    simp only [hqueue, hcurrent, Option.toList_some, Option.toList_none, List.append_nil,
      List.mem_append, List.mem_cons] at he ⊢
    tauto
  · intro e he
    obtain ⟨he', hne⟩ := hrest e he
    exact (List.mem_erase_of_ne (by exact_mod_cast hne)).mpr (h.callbacks e he')
  · intro e he
    rcases List.mem_append.mp he with he | he
    · exact h.recorded e he
    · obtain rfl := List.mem_singleton.mp he
      exact hstamp
  · simp [h.ran, hstamp]

theorem count (h : Tracked n s) {ts : ℕ} {msg : Message V} (hcurrent : s.current = some (ts, msg))
    {w : KVWorker V} (hrun : s.worker.addResponse msg.timestamp 1 = some w) :
    Tracked n { s with
      worker := w
      current := none
      counted := s.counted ++ [(ts, msg.timestamp)] } := by
  have hstamp : msg.timestamp = ts := (h.stamped (ts, msg) (by simp [hcurrent])).2
  have hw : ts < s.worker.tracker.length ∧
      { s.worker with tracker := s.worker.tracker.modify ts fun e => (e.1, e.2 + 1) } = w := by
    rw [KVWorker.addResponse, hstamp] at hrun
    split at hrun
    · cases hrun
    · next hlt =>
      simp only [Int.toNat_natCast] at hlt hrun
      exact ⟨by omega, Option.some.inj hrun⟩
  obtain ⟨hlt, rfl⟩ := hw
  refine ⟨h.role, by simpa using h.length, h.tickets, ?_, h.keyed, h.response, ?_, ?_,
    h.callbacks, h.recvKvs, h.recorded, ?_, h.ran⟩
  · have hprocessed := h.processed
    rw [hcurrent] at hprocessed
    simpa using hprocessed
  · intro e he
    refine h.stamped e (List.mem_append_left _ ?_)
    simpa using he
  · intro ts' key hget
    obtain ⟨sliced, hsliced, htracker⟩ := h.tracker ts' key hget
    refine ⟨sliced, hsliced, ?_⟩
    rw [List.map_append, List.count_append, List.getElem?_modify, htracker]
    by_cases hts : ts = ts'
    · subst hts
      simp [Nat.add_assoc]
    · simp [hts]
  · intro e he
    rcases List.mem_append.mp he with he | he
    · exact h.counted e he
    · obtain rfl := List.mem_singleton.mp he
      exact hstamp

theorem step (h : Tracked n s) {s' : Session V} (hstep : Step n KeyDataOk s s') : Tracked n s' := by
  cases hstep with
  | request push cmd keyVersion hkey hfree hrun => exact h.request hkey hfree hrun
  | @response l₁ l₂ ts req hrequests kv van kvs res hkvs hres unset keyData =>
    obtain ⟨key, hkeys, -⟩ := h.keyed (ts, req) (by simp [Session.pending, hrequests])
    have hone : res.keys = [key] := by simpa [hkvs, ← hres] using hkeys
    refine h.answer hrequests ?_ rfl (fun htree => absurd rfl htree)
    simp [KVServer.responseMsg, KVPairs.attach, hone, hkeys]
  | @responseAll l₁ l₂ ts req hrequests kv van kvs res hkvs hres other key hkey son =>
    obtain ⟨key', hkeys, -⟩ := h.keyed (ts, req) (by simp [Session.pending, hrequests])
    have hone : res.keys = [key'] := by simpa [hkvs, ← hres] using hkeys
    obtain rfl : key' = key := by simpa [hone] using hkey
    refine h.answer hrequests ?_ rfl ?_
    · simp [KVServer.responseAllMsg, KVPairs.attach, hone, hkeys]
    · intro _
      simp [KVServer.responseAllMsg, KVPairs.attach, hone]
  | relay hresponses htree son => exact h.relay hresponses htree son
  | accept hresponses hok hop hrun => exact h.accept hresponses hok hrun
  | process hqueue hcurrent hrun => exact h.process hqueue hcurrent hrun
  | count hcurrent _ hrun => exact h.count hcurrent hrun

/-- A request waits until its response has been counted. -/
theorem answered_iff (h : Tracked n s) {ts : ℕ} (hts : ts < s.keys.length) :
    s.worker.Answered ts ↔ ts ∈ s.counted.map Prod.fst := by
  obtain ⟨sliced, hsliced, htracker⟩ := h.tracker ts _ (List.getElem?_eq_getElem hts)
  have hskip := (skipped_singleton hsliced).1
  have hle : (s.counted.map Prod.fst).count ts ≤ 1 := by
    have hrec := (List.nodup_append.mp h.nodup).2.1
    rw [h.processed] at hrec
    exact List.nodup_iff_count_le_one.mp (List.nodup_append.mp hrec).1 ts
  have hvector : vectorAt s.worker.tracker (ts : ℤ) =
      some (n, skipped sliced + (s.counted.map Prod.fst).count ts) := by
    simpa [vectorAt] using htracker
  rw [KVWorker.Answered, hvector, ← List.count_pos_iff]
  constructor
  · rintro ⟨e, he, heq⟩
    obtain rfl := Option.some.inj he
    simp only at heq
    omega
  · intro hpos
    exact ⟨_, rfl, by simp only; omega⟩

end Tracked

/-- Responses are attributed to the requests that they answer. -/
structure Attributed (n : ℕ) (s : Session V) : Prop where
  recorded : ∀ e ∈ s.recorded, e.2 = e.1
  counted : ∀ e ∈ s.counted, e.2 = e.1
  once : (s.recorded.map Prod.fst).Nodup
  ran : s.worker.ran.map Prod.fst = s.recorded.map fun e => (e.1 : ℤ)
  tracker : ∀ ts key, s.keys[ts]? = some key → ∃ sliced, defaultSlicer n [key] = some sliced ∧
    s.worker.tracker[ts]? = some (n, skipped sliced + (s.counted.map Prod.fst).count ts)
  answered : ∀ ts < s.keys.length, s.worker.Answered ts ↔ ts ∈ s.counted.map Prod.fst

theorem Tracked.attributed {n : ℕ} {s : Session V} (h : Tracked n s) : Attributed n s where
  recorded := h.recorded
  counted := h.counted
  once := (List.nodup_append.mp h.nodup).2.1
  ran := by
    rw [h.ran]
    exact List.map_congr_left h.recorded
  tracker := h.tracker
  answered _ hts := h.answered_iff hts

/-- If every response of `Response` arrives with a `key_data` that has the timestamp of its ps
key, then all responses are attributed to their requests. -/
theorem responses_attributed {n k : ℕ} {w : KVWorker V} {v : Van} {s : Session V}
    (hrole : v.role = .worker) (htracker : w.tracker = []) (hrecv : w.recvKvs = [])
    (hran : w.ran = []) (h : Steps (Step n KeyDataOk) k { worker := w, van := v } s) :
    Attributed n s :=
  (h.invariant (Tracked.start hrole htracker hrecv hran) fun _ _ hb => hb.step).attributed

/-- A van of worker `11`. -/
def exampleVan : Van where
  myId := 11
  role := .worker
  route := []
  parents := []
  sons := []
  parentsTemp := []
  sonsTemp := []
  iters := 0
  initFlag := true
  keyTimestamp _ := 0
  secondQueueLimit := 0

/-- A worker of application `0` before its first request. -/
def exampleSession : Session Unit where
  worker := { appId := 0, customerId := 0 }
  van := exampleVan

/-- A server of application `0`. -/
def exampleServer : KVServer := ⟨0, [], [], 0⟩

/-- The data for one ps key. -/
def exampleKvs (key : ℕ) : KVPairs Unit := ⟨[key], (), [1]⟩

/-- The worker in a run of pushes of version `1`. -/
def pushedWorker (tracker : List (ℕ × ℕ)) (callbacks : List ℤ)
    (ran : List (ℤ × List (KVPairs Unit))) : KVWorker Unit where
  appId := 0
  customerId := 0
  keyLog := 1
  tracker := tracker
  callbacks := callbacks
  ran := ran

/-- The request for `key`, the first of its version or not. -/
def exampleRequest (ts : ℤ) (tree : ℤ) (key : ℕ) : Message Unit :=
  exampleVan.kvWorkerMsg 0 0 ts true 0 0 1 tree key (exampleKvs key)

/-- The response of `Response` for `key`. -/
def exampleResponse (ts : ℤ) (tree : ℤ) (key keyData : ℕ) : Message Unit :=
  { exampleServer.responseMsg exampleVan ((exampleRequest ts tree key).kvMeta 0)
      (some (exampleKvs key)) with keyData := keyData }

/-- Pushes for the keys `5` and `6` on their way to two servers. -/
def twoRequests : Session Unit where
  worker := pushedWorker [(2, 1), (2, 1)] [0, 1] []
  van := { exampleVan with
    keyTimestamp := Function.update (Function.update exampleVan.keyTimestamp 5 0) 6 1 }
  requests := [(0, exampleRequest 0 0 5), (1, exampleRequest 1 1 6)]
  keys := [5, 6]

theorem twoRequests_steps (ok : Session Unit → Message Unit → Prop) :
    Steps (Step 2 ok) 2 exampleSession twoRequests := by
  let s₁ : Session Unit :=
    { worker := pushedWorker [(2, 1)] [0] []
      van := { exampleVan with keyTimestamp := Function.update exampleVan.keyTimestamp 5 0 }
      requests := [(0, exampleRequest 0 0 5)]
      keys := [5] }
  have h₁ : Step 2 ok exampleSession s₁ :=
    @Step.request _ 2 ok exampleSession true 0 1 (exampleKvs 5) 5 rfl
      (fun ts hts => absurd hts.1 (Nat.not_lt_zero ts)) s₁.worker s₁.van [exampleRequest 0 0 5] rfl
  have hfree : ∀ ts, s₁.Outstanding ts → s₁.keys[ts]? ≠ some 6 := by
    intro ts hts
    obtain rfl : ts = 0 := Nat.lt_one_iff.mp hts.1
    decide
  have h₂ : Step 2 ok s₁ twoRequests :=
    @Step.request _ 2 ok s₁ true 0 1 (exampleKvs 6) 6 rfl hfree twoRequests.worker twoRequests.van
      [exampleRequest 1 1 6] rfl
  exact ((Steps.refl exampleSession).tail h₁).tail h₂

theorem keyDataOk_exampleResponse (s : Session Unit) (ts tree : ℤ) (key : ℕ) :
    KeyDataOk s (exampleResponse ts tree key key) := by
  intro _ key' hkey
  obtain rfl : key = key' := by
    simpa [exampleResponse, exampleKvs, KVServer.responseMsg, KVPairs.attach] using hkey
  rfl

/-- The servers answer the pushes in the other order, with the right `key_data`. -/
theorem responses_attributed_two_requests :
    ∃ (k : ℕ) (s : Session Unit), Steps (Step 2 KeyDataOk) k exampleSession s ∧
      s.counted = [(1, 1), (0, 0)] ∧ s.worker.ran = [(1, [exampleKvs 6]), (0, [exampleKvs 5])] ∧
      Attributed 2 s := by
  let s₁ := { twoRequests with
    requests := [(0, exampleRequest 0 0 5)]
    responses := [(1, exampleResponse 1 1 6 6)] }
  have h₁ : Step 2 KeyDataOk twoRequests s₁ :=
    @Step.response _ 2 KeyDataOk twoRequests [(0, exampleRequest 0 0 5)] [] 1
      (exampleRequest 1 1 6) rfl exampleServer exampleVan (exampleKvs 6) (exampleKvs 6) rfl rfl 0 6
  have h₂ := ((twoRequests_steps KeyDataOk).tail h₁).tail
    (@Step.accept _ 2 KeyDataOk s₁ [] [] 1 (exampleResponse 1 1 6 6) _ rfl
      (keyDataOk_exampleResponse s₁ 1 1 6) 10 rfl)
  have h₃ := h₂.tail (@Step.process _ 2 KeyDataOk _ 1 _ [] rfl rfl
    (pushedWorker [(2, 1), (2, 1)] [0] [(1, [exampleKvs 6])]) rfl)
  have h₄ := h₃.tail (@Step.count _ 2 KeyDataOk _ 1 _ rfl rfl
    (pushedWorker [(2, 1), (2, 2)] [0] [(1, [exampleKvs 6])]) rfl)
  have h₅ := h₄.tail (@Step.response _ 2 KeyDataOk _ [] [] 0 (exampleRequest 0 0 5) rfl
    exampleServer exampleVan (exampleKvs 5) (exampleKvs 5) rfl rfl 0 5)
  have h₆ := h₅.tail (@Step.accept _ 2 KeyDataOk _ [] [] 0 (exampleResponse 0 0 5 5) _ rfl
    (keyDataOk_exampleResponse _ 0 0 5) 8 rfl)
  have h₇ := h₆.tail (@Step.process _ 2 KeyDataOk _ 0 _ [] rfl rfl
    (pushedWorker [(2, 1), (2, 2)] [] [(1, [exampleKvs 6]), (0, [exampleKvs 5])]) rfl)
  have h₈ := h₇.tail (@Step.count _ 2 KeyDataOk _ 0 _ rfl rfl
    (pushedWorker [(2, 2), (2, 2)] [] [(1, [exampleKvs 6]), (0, [exampleKvs 5])]) rfl)
  exact ⟨_, _, h₈, rfl, rfl, responses_attributed rfl rfl rfl rfl h₈⟩

/-- The response for `6` is built by `Response`, and its `key_data` happens to be `5`: it is
counted for the request of `5`, which no server has answered. -/
theorem response_miscounted :
    ∃ (k : ℕ) (s : Session Unit), Steps (Step 2 fun _ _ => True) k exampleSession s ∧
      s.counted = [(1, 0)] ∧ s.worker.Answered 0 ∧ ¬ Attributed 2 s := by
  let s₁ := { twoRequests with
    requests := [(0, exampleRequest 0 0 5)]
    responses := [(1, exampleResponse 1 1 6 5)] }
  have h₁ : Step 2 (fun _ _ => True) twoRequests s₁ :=
    @Step.response _ 2 (fun _ _ => True) twoRequests [(0, exampleRequest 0 0 5)] [] 1
      (exampleRequest 1 1 6) rfl exampleServer exampleVan (exampleKvs 6) (exampleKvs 6) rfl rfl 0 5
  have h₂ := ((twoRequests_steps fun _ _ => True).tail h₁).tail
    (@Step.accept _ 2 (fun _ _ => True) s₁ [] [] 1 (exampleResponse 1 1 6 5) _ rfl trivial 10 rfl)
  have h₃ := h₂.tail (@Step.process _ 2 (fun _ _ => True) _ 1 _ [] rfl rfl
    (pushedWorker [(2, 1), (2, 1)] [0] [(1, [exampleKvs 6])]) rfl)
  have h₄ := h₃.tail (@Step.count _ 2 (fun _ _ => True) _ 1 _ rfl rfl
    (pushedWorker [(2, 2), (2, 1)] [0] [(1, [exampleKvs 6])]) rfl)
  refine ⟨_, _, h₄, rfl, ⟨(2, 2), rfl, rfl⟩, fun h => ?_⟩
  have heq := h.counted (1, 0) (by exact List.mem_singleton.mpr rfl)
  exact absurd heq (by decide)

end ResponseTracking

end NetStorm

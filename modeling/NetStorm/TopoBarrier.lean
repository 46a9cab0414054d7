import NetStorm.Library.Bag
import NetStorm.PolicySwitch

/-!
# The barrier of `TopoUpdate`

A call of `TopoUpdate` notifies the scheduler, sleeps until the worker's `perf_update_flag` is
set, and calls the request handler if a new policy has come. The scheduler releases all servers
with the last notification, and a server passes the release on to its worker. Handlers run one
at a time, in any order, and messages may overtake one another. The route tables that the
scheduler sends with `iters == 0` stay at the servers and are left out.
-/
namespace NetStorm.TopoBarrier
open Scheduler

/-- The members of a worker's van that `TopoUpdate` reads. -/
structure WorkerVan where
  perfUpdateFlag : Bool := false
  initFlag : Bool := true
  perf : List ℚ := []

/-- `Van::ProcessRouteReleaseCommand` at a worker. -/
def WorkerVan.processRouteReleaseCommand (n : ℕ) (v : WorkerVan) (route : List ℚ) :
    Option WorkerVan :=
  if route = [] then some { v with initFlag := true, perfUpdateFlag := true }
  else if route.length < n then none
  else some { v with perf := route.take n, initFlag := false, perfUpdateFlag := true }

/-- Where a worker is: outside `TopoUpdate`, in its sleeping loop, behind the loop, and behind
the call of the request handler. -/
inductive Phase
  | idle
  | waiting
  | woken
  | handled
deriving DecidableEq

/-- A worker with the number of notifications it has sent, of calls that have returned, and for
every call the argument of the request handler, or `none` if it was not called. -/
structure Worker where
  van : WorkerVan := {}
  phase : Phase := .idle
  sent : ℕ := 0
  returned : ℕ := 0
  calls : List (Option (List ℚ)) := []

/-- The scheduler, the workers, the notifications on their way to the scheduler and the
releases on their way to servers and workers, with their `recver` and `route`. -/
structure State (n : ℕ) where
  scheduler : SchedulerVan
  workers : Fin n → Worker
  notices : List (Fin n)
  net : List (ℤ × List ℚ)

/-- The scheduler's van after `Van::Start`, and workers that have not called `TopoUpdate`. -/
def State.start (n : ℕ) : State n where
  scheduler :=
    { notifyCount := 0
      perfUpdateFlag := true
      perf := List.replicate n 0
      route := List.replicate n (List.replicate n []) }
  workers := fun _ => {}
  notices := []
  net := []

/-- The messages of the scheduler for a policy, one for every server. -/
def releases (n : ℕ) (policy : List (List ℚ)) : List (ℤ × List ℚ) :=
  ((List.finRange n).map fun c : Fin n => serverRankToID c).zip policy

/-- One step of a handler or of a worker's thread. -/
inductive Step {n : ℕ} : State n → State n → Prop
  | routeUpdate {s : State n} {perf : List ℚ} (route : List (List (List (List ℕ))))
      (hperf : perf.length = n) :
      Step s { s with
        scheduler := { s.scheduler with perfUpdateFlag := true, perf := perf, route := route } }
  | call {s : State n} {w : Fin n} (hphase : (s.workers w).phase = .idle) :
      Step s { s with
        notices := s.notices ++ [w]
        workers := Function.update s.workers w
          { s.workers w with phase := .waiting, sent := (s.workers w).sent + 1 } }
  | notify {s : State n} {l₁ l₂ : List (Fin n)} {w : Fin n} (hnotices : s.notices = l₁ ++ w :: l₂)
      {v : SchedulerVan} (hrun : s.scheduler.processRouteReleaseCommand n = some (v, none)) :
      Step s { s with scheduler := v, notices := l₁ ++ l₂ }
  | barrier {s : State n} {l₁ l₂ : List (Fin n)} {w : Fin n} (hnotices : s.notices = l₁ ++ w :: l₂)
      {v : SchedulerVan} {policy : List (List ℚ)}
      (hrun : s.scheduler.processRouteReleaseCommand n = some (v, some policy)) :
      Step s { s with
        scheduler := v
        notices := l₁ ++ l₂
        net := s.net ++ releases n policy }
  | forward {s : State n} {l₁ l₂ : List (ℤ × List ℚ)} {c : Fin n} {route : List ℚ}
      (hnet : s.net = l₁ ++ (serverRankToID c, route) :: l₂) :
      Step s { s with net := l₁ ++ l₂ ++ [(serverRankToID c + 1, route)] }
  | receive {s : State n} {l₁ l₂ : List (ℤ × List ℚ)} {w : Fin n} {route : List ℚ}
      (hnet : s.net = l₁ ++ (workerRankToID w, route) :: l₂) {v : WorkerVan}
      (hrun : (s.workers w).van.processRouteReleaseCommand n route = some v) :
      Step s { s with
        net := l₁ ++ l₂
        workers := Function.update s.workers w { s.workers w with van := v } }
  | wake {s : State n} {w : Fin n} (hphase : (s.workers w).phase = .waiting)
      (hflag : (s.workers w).van.perfUpdateFlag = true) :
      Step s { s with
        workers := Function.update s.workers w
          { s.workers w with
            van := { (s.workers w).van with perfUpdateFlag := false }
            phase := .woken } }
  | skip {s : State n} {w : Fin n} (hphase : (s.workers w).phase = .woken)
      (hinit : (s.workers w).van.initFlag = true) :
      Step s { s with
        workers := Function.update s.workers w
          { s.workers w with
            phase := .idle
            returned := (s.workers w).returned + 1
            calls := (s.workers w).calls ++ [none] } }
  | handle {s : State n} {w : Fin n} (hphase : (s.workers w).phase = .woken)
      (hinit : (s.workers w).van.initFlag = false) :
      Step s { s with
        workers := Function.update s.workers w
          { s.workers w with
            phase := .handled
            calls := (s.workers w).calls ++ [some (s.workers w).van.perf] } }
  | finish {s : State n} {w : Fin n} (hphase : (s.workers w).phase = .handled) :
      Step s { s with
        workers := Function.update s.workers w
          { s.workers w with
            van := { (s.workers w).van with initFlag := true }
            phase := .idle
            returned := (s.workers w).returned + 1 } }

/-- What a release tells the workers: nothing, or the new performances. -/
def verdict (n : ℕ) (route : List ℚ) : Option (List ℚ) :=
  if route = [] then none else some (route.take n)

/-- What a worker's van holds of its last release. -/
def WorkerVan.verdict (v : WorkerVan) : Option (List ℚ) :=
  if v.initFlag = true then none else some v.perf

/-- The rank of the machine that a release is for. -/
def rank (id : ℤ) : ℤ := (id - 8) / 2

@[simp] theorem rank_serverRankToID (c : ℕ) : rank (serverRankToID c) = c := by
  simp only [rank, serverRankToID]
  omega

@[simp] theorem rank_workerRankToID (c : ℕ) : rank (workerRankToID c) = c := by
  simp only [rank, workerRankToID]
  omega

/-- A release for worker `w` is on its way. -/
def Pending {n : ℕ} (net : List (ℤ × List ℚ)) (w : Fin n) : Prop := (w : ℤ) ∈ net.map fun r => rank r.1

/-- What a worker may be doing when the releases of the scheduler were those of `history`. A
worker in its first three stages has joined no barrier since, or waits for the next one; in
the others it has not returned from the last one. -/
inductive Stage (history : List (Option (List ℚ))) (pending : Prop) (u : Worker) : Prop
  | idle (hphase : u.phase = .idle) (hflag : u.van.perfUpdateFlag = false) (hnet : ¬ pending)
      (hsent : u.sent = history.length) (hreturned : u.returned = history.length)
      (hcalls : u.calls = history)
  | asked (hphase : u.phase = .waiting) (hflag : u.van.perfUpdateFlag = false) (hnet : ¬ pending)
      (hsent : u.sent = history.length + 1) (hreturned : u.returned = history.length)
      (hcalls : u.calls = history)
  | released (hphase : u.phase = .waiting) (hflag : u.van.perfUpdateFlag = false) (hnet : pending)
      (hsent : u.sent = history.length) (hreturned : u.returned + 1 = history.length)
      (hcalls : u.calls = history.dropLast)
  | flagged (hphase : u.phase = .waiting) (hflag : u.van.perfUpdateFlag = true) (hnet : ¬ pending)
      (hsent : u.sent = history.length) (hreturned : u.returned + 1 = history.length)
      (hcalls : u.calls = history.dropLast) (hvan : history.getLast? = some u.van.verdict)
  | woken (hphase : u.phase = .woken) (hflag : u.van.perfUpdateFlag = false) (hnet : ¬ pending)
      (hsent : u.sent = history.length) (hreturned : u.returned + 1 = history.length)
      (hcalls : u.calls = history.dropLast) (hvan : history.getLast? = some u.van.verdict)
  | handled (hphase : u.phase = .handled) (hflag : u.van.perfUpdateFlag = false) (hnet : ¬ pending)
      (hsent : u.sent = history.length) (hreturned : u.returned + 1 = history.length)
      (hcalls : u.calls = history)

/-- The invariant, for the verdicts of the scheduler's releases so far. -/
structure Synchronised {n : ℕ} (history : List (Option (List ℚ))) (s : State n) : Prop where
  stage : ∀ w, Stage history (Pending s.net w) (s.workers w)
  count : (Finset.univ.filter fun w => (s.workers w).sent = history.length + 1).card =
    s.scheduler.notifyCount + s.notices.length
  recver : ∀ r ∈ s.net, ∃ c : Fin n, r.1 = serverRankToID c ∨ r.1 = workerRankToID c
  nodup : (s.net.map fun r => rank r.1).Nodup
  last : ∀ r ∈ s.net, history.getLast? = some (verdict n r.2)
  perf : s.scheduler.perf.length = n

theorem verdict_processRouteReleaseCommand {n : ℕ} {v v' : WorkerVan} {route : List ℚ}
    (h : v.processRouteReleaseCommand n route = some v') :
    v'.perfUpdateFlag = true ∧ v'.verdict = verdict n route := by
  simp only [WorkerVan.processRouteReleaseCommand] at h
  split at h
  · next hroute =>
    obtain rfl := Option.some.inj h
    simp [WorkerVan.verdict, verdict, hroute]
  · next hroute =>
    split at h
    · cases h
    · obtain rfl := Option.some.inj h
      simp [WorkerVan.verdict, verdict, hroute]

/-- The last notification: a message for every server, all with the same verdict. -/
theorem releases_of_barrier {n : ℕ} (hn : 0 < n) {v v' : SchedulerVan}
    {policy : List (List ℚ)} (hperf : v.perf.length = n)
    (h : v.processRouteReleaseCommand n = some (v', some policy)) :
    v.notifyCount + 1 = n ∧ v'.notifyCount = 0 ∧ v'.perf = v.perf ∧ policy.length = n ∧
      ∃ d, ∀ row ∈ policy, verdict n row = d := by
  rw [SchedulerVan.processRouteReleaseCommand] at h
  split at h
  · next hcount =>
    split at h
    · obtain ⟨rows, hrows, hv⟩ := Option.bind_eq_some_iff.mp h
      obtain ⟨nextHops, hlist⟩ : ∃ nextHops, nextHopList n v.route = some nextHops := by
        obtain ⟨nextHops, hlist, -⟩ := Option.bind_eq_some_iff.mp hrows
        exact ⟨nextHops, hlist⟩
      rw [policyDecision_eq hperf hlist, Option.some.injEq] at hrows
      obtain ⟨rfl, rfl⟩ : _ = v' ∧ rows = policy := by simpa using hv
      refine ⟨hcount, rfl, rfl, by simp [← hrows], some v.perf, ?_⟩
      intro row hrow
      rw [← hrows] at hrow
      obtain ⟨j, -, rfl⟩ := List.mem_map.mp hrow
      have hne : policyRow n v.perf nextHops j ≠ [] := by
        intro hnil
        have hlen := congrArg List.length hnil
        simp only [policyRow, List.length_append, List.length_nil, hperf] at hlen
        omega
      rw [verdict, if_neg hne, policyRow, List.take_left' hperf]
    · obtain ⟨rfl, rfl⟩ : _ = v' ∧ List.replicate n [] = policy := by simpa using h
      refine ⟨hcount, rfl, rfl, by simp, none, ?_⟩
      intro row hrow
      rw [List.eq_of_mem_replicate hrow, verdict, if_pos rfl]
  · simp at h

theorem pending_append {n : ℕ} {l₁ l₂ : List (ℤ × List ℚ)} {w : Fin n} :
    Pending (l₁ ++ l₂) w ↔ Pending l₁ w ∨ Pending l₂ w := by
  simp only [Pending, List.map_append, List.mem_append]

theorem pending_cons {n : ℕ} {r : ℤ × List ℚ} {l : List (ℤ × List ℚ)} {w : Fin n} :
    Pending (r :: l) w ↔ (w : ℤ) = rank r.1 ∨ Pending l w := by
  simp only [Pending, List.map_cons, List.mem_cons]

namespace Stage
variable {history : List (Option (List ℚ))} {pending : Prop} {u : Worker}

/-- A worker that has sent the next notification waits for it. -/
theorem of_sent (h : Stage history pending u) (hsent : u.sent = history.length + 1) :
    u.phase = .waiting ∧ u.van.perfUpdateFlag = false ∧ ¬ pending ∧
      u.returned = history.length ∧ u.calls = history := by
  cases h with
  | asked hphase hflag hnet _ hreturned hcalls => exact ⟨hphase, hflag, hnet, hreturned, hcalls⟩
  | idle | released | flagged | woken | handled => omega

theorem of_pending (h : Stage history pending u) (hnet : pending) :
    u.phase = .waiting ∧ u.van.perfUpdateFlag = false ∧ u.sent = history.length ∧
      u.returned + 1 = history.length ∧ u.calls = history.dropLast := by
  cases h with
  | released hphase hflag _ hsent hreturned hcalls =>
    exact ⟨hphase, hflag, hsent, hreturned, hcalls⟩
  | idle | asked | flagged | woken | handled => contradiction

theorem sent_le (h : Stage history pending u) :
    u.returned ≤ history.length ∧ history.length ≤ u.sent ∧ u.sent ≤ history.length + 1 := by
  cases h <;> omega

/-- The calls of a worker are a part of the history, one for every call that has returned and
at most one more. -/
theorem calls_isPrefix (h : Stage history pending u) :
    u.calls <+: history ∧ u.returned ≤ u.calls.length ∧ u.calls.length ≤ u.returned + 1 := by
  cases h with
  | idle _ _ _ _ hreturned hcalls | asked _ _ _ _ hreturned hcalls
  | handled _ _ _ _ hreturned hcalls =>
    rw [hcalls]
    exact ⟨List.prefix_rfl, by omega, by omega⟩
  | released _ _ _ _ hreturned hcalls | flagged _ _ _ _ hreturned hcalls
  | woken _ _ _ _ hreturned hcalls =>
    rw [hcalls, List.length_dropLast]
    exact ⟨List.dropLast_prefix history, by omega, by omega⟩

end Stage

namespace Synchronised
variable {n : ℕ} {history : List (Option (List ℚ))} {s : State n}

theorem start (n : ℕ) : Synchronised [] (State.start n) where
  stage w := .idle rfl rfl (by simp [Pending, State.start]) rfl rfl rfl
  count := by simp [State.start]
  recver := by simp [State.start]
  nodup := by simp [State.start]
  last := by simp [State.start]
  perf := by simp [State.start]

/-- A worker that moves on without sending a notification. -/
theorem update (h : Synchronised history s) {w : Fin n} {u : Worker}
    (hstage : Stage history (Pending s.net w) u) (hsent : u.sent = (s.workers w).sent) :
    Synchronised history { s with workers := Function.update s.workers w u } := by
  refine ⟨?_, ?_, h.recver, h.nodup, h.last, h.perf⟩
  · intro w'
    by_cases hw : w' = w
    · subst hw
      simpa using hstage
    · simpa [hw] using h.stage w'
  · rw [← h.count]
    congr 1
    ext w'
    by_cases hw : w' = w
    · subst hw
      simp [hsent]
    · simp [hw]

/-- The network changes, but not the set of workers that a release is on its way to. -/
theorem congr_net (h : Synchronised history s) {net : List (ℤ × List ℚ)}
    (hperm : (net.map fun r => rank r.1).Perm (s.net.map fun r => rank r.1))
    (hrecver : ∀ r ∈ net, ∃ c : Fin n, r.1 = serverRankToID c ∨ r.1 = workerRankToID c)
    (hlast : ∀ r ∈ net, history.getLast? = some (verdict n r.2)) :
    Synchronised history { s with net := net } := by
  refine ⟨?_, h.count, hrecver, hperm.nodup_iff.mpr h.nodup, hlast, h.perf⟩
  intro w
  have hiff : Pending net w ↔ Pending s.net w := hperm.mem_iff
  simpa only [hiff] using h.stage w

theorem call (h : Synchronised history s) {w : Fin n} (hphase : (s.workers w).phase = .idle) :
    Synchronised history { s with
      notices := s.notices ++ [w]
      workers := Function.update s.workers w
        { s.workers w with phase := .waiting, sent := (s.workers w).sent + 1 } } := by
  have hw := h.stage w
  cases hw with
  | asked hphase' | released hphase' | flagged hphase' | woken hphase' | handled hphase' =>
    rw [hphase] at hphase'
    cases hphase'
  | idle _ hflag hnet hsent hreturned hcalls =>
    refine ⟨?_, ?_, h.recver, h.nodup, h.last, h.perf⟩
    · intro w'
      by_cases hw' : w' = w
      · subst hw'
        simpa using Stage.asked (u := { s.workers w' with
          phase := .waiting, sent := (s.workers w').sent + 1 }) rfl hflag hnet
          (by simp [hsent]) hreturned hcalls
      · simpa [hw'] using h.stage w'
    · have hfilter : (Finset.univ.filter fun w' => (Function.update s.workers w
          { s.workers w with phase := .waiting, sent := (s.workers w).sent + 1 } w').sent =
            history.length + 1) =
          insert w (Finset.univ.filter fun w' => (s.workers w').sent = history.length + 1) := by
        ext w'
        by_cases hw' : w' = w
        · subst hw'
          simp [hsent]
        · simp [hw']
      simp only [hfilter]
      rw [Finset.card_insert_of_notMem (by simp [hsent]), h.count]
      simp only [List.length_append, List.length_singleton]
      omega

theorem notify (h : Synchronised history s) {l₁ l₂ : List (Fin n)} {w : Fin n}
    (hnotices : s.notices = l₁ ++ w :: l₂) {v : SchedulerVan}
    (hrun : s.scheduler.processRouteReleaseCommand n = some (v, none)) :
    Synchronised history { s with scheduler := v, notices := l₁ ++ l₂ } := by
  have hv : v = { s.scheduler with notifyCount := s.scheduler.notifyCount + 1 } := by
    rw [SchedulerVan.processRouteReleaseCommand] at hrun
    split at hrun
    · split at hrun
      · simp [Option.bind_eq_some_iff] at hrun
      · simp at hrun
    · exact (congrArg Prod.fst (Option.some.inj hrun)).symm
  subst hv
  refine ⟨h.stage, ?_, h.recver, h.nodup, h.last, h.perf⟩
  have hcount := h.count
  rw [hnotices] at hcount
  simp only [List.length_append, List.length_cons] at hcount ⊢
  omega

theorem forward (h : Synchronised history s) {l₁ l₂ : List (ℤ × List ℚ)} {c : Fin n}
    {route : List ℚ} (hnet : s.net = l₁ ++ (serverRankToID c, route) :: l₂) :
    Synchronised history { s with net := l₁ ++ l₂ ++ [(serverRankToID c + 1, route)] } := by
  have hlast := h.last
  have hrecver := h.recver
  rw [hnet] at hlast hrecver
  have hmem : ∀ r ∈ l₁ ++ l₂, r ∈ l₁ ++ (serverRankToID c, route) :: l₂ :=
    fun _ => mem_of_mem_taken rfl
  refine h.congr_net ?_ ?_ ?_
  · rw [hnet, serverRankToID_add_one]
    simp only [List.map_append, List.map_cons, List.map_nil, rank_serverRankToID,
      rank_workerRankToID, List.append_assoc]
    exact (List.perm_append_singleton _ _).append_left _
  · intro r hr
    rcases List.mem_append.mp hr with hr | hr
    · exact hrecver r (hmem r hr)
    · obtain rfl := List.mem_singleton.mp hr
      exact ⟨c, .inr (serverRankToID_add_one c)⟩
  · intro r hr
    rcases List.mem_append.mp hr with hr | hr
    · exact hlast r (hmem r hr)
    · obtain rfl := List.mem_singleton.mp hr
      exact hlast (serverRankToID c, route) (by simp)

theorem receive (h : Synchronised history s) {l₁ l₂ : List (ℤ × List ℚ)} {w : Fin n}
    {route : List ℚ} (hnet : s.net = l₁ ++ (workerRankToID w, route) :: l₂) {v : WorkerVan}
    (hrun : (s.workers w).van.processRouteReleaseCommand n route = some v) :
    Synchronised history { s with
      net := l₁ ++ l₂
      workers := Function.update s.workers w { s.workers w with van := v } } := by
  obtain ⟨hflag, hverdict⟩ := verdict_processRouteReleaseCommand hrun
  have hpending : Pending s.net w := by
    rw [hnet, pending_append, pending_cons]
    simp
  obtain ⟨hphase, -, hsent, hreturned, hcalls⟩ := (h.stage w).of_pending hpending
  have hnodup := h.nodup
  rw [hnet, List.map_append, List.map_cons, List.nodup_middle, List.nodup_cons] at hnodup
  have hgone : ¬ Pending (l₁ ++ l₂) w := by
    simpa [Pending] using hnodup.1
  have hmem : ∀ r ∈ l₁ ++ l₂, r ∈ s.net := fun _ => mem_of_mem_taken hnet
  refine ⟨?_, ?_, fun r hr => h.recver r (hmem r hr), by simpa using hnodup.2,
    fun r hr => h.last r (hmem r hr), h.perf⟩
  · intro w'
    by_cases hw : w' = w
    · subst hw
      have hlast : history.getLast? = some v.verdict := by
        rw [hverdict]
        exact h.last (workerRankToID w', route) (by rw [hnet]; simp)
      simpa using Stage.flagged (u := { s.workers w' with van := v }) hphase hflag hgone hsent
        hreturned hcalls hlast
    · have hiff : Pending (l₁ ++ l₂) w' ↔ Pending s.net w' := by
        have hne : (w' : ℤ) ≠ (w : ℤ) := by
          simpa [Fin.ext_iff] using hw
        rw [hnet, pending_append, pending_append, pending_cons]
        simp [hne]
      simpa [hw, hiff] using h.stage w'
  · rw [← h.count]
    congr 1
    ext w'
    by_cases hw : w' = w
    · subst hw
      simp
    · simp [hw]

/-- With the last notification all workers wait for the release, and none is on its way. -/
theorem all_asked (h : Synchronised history s) {l₁ l₂ : List (Fin n)} {w : Fin n}
    (hnotices : s.notices = l₁ ++ w :: l₂) (hcount : s.scheduler.notifyCount + 1 = n) :
    (∀ w, (s.workers w).sent = history.length + 1) ∧ l₁ ++ l₂ = [] ∧ s.net = [] := by
  have hcard := h.count
  have hle := Finset.card_le_univ
    (Finset.univ.filter fun w => (s.workers w).sent = history.length + 1)
  rw [hnotices] at hcard
  simp only [List.length_append, List.length_cons] at hcard
  simp only [Fintype.card_fin] at hle
  have hall : ∀ w, (s.workers w).sent = history.length + 1 := by
    have huniv : (Finset.univ.filter fun w => (s.workers w).sent = history.length + 1) =
        Finset.univ := by
      rw [← Finset.card_eq_iff_eq_univ, Fintype.card_fin]
      omega
    intro w
    have hw := Finset.mem_univ w
    rw [← huniv] at hw
    exact (Finset.mem_filter.mp hw).2
  refine ⟨hall, List.eq_nil_of_length_eq_zero (by simp only [List.length_append]; omega), ?_⟩
  by_contra hne
  obtain ⟨r, hr⟩ := List.exists_mem_of_ne_nil _ hne
  obtain ⟨c, hc⟩ := h.recver r hr
  have hpending : Pending s.net c := by
    refine List.mem_map.mpr ⟨r, hr, ?_⟩
    rcases hc with hc | hc <;> simp [hc]
  exact ((h.stage c).of_sent (hall c)).2.2.1 hpending

theorem barrier (h : Synchronised history s) {l₁ l₂ : List (Fin n)} {w : Fin n}
    (hnotices : s.notices = l₁ ++ w :: l₂) {v : SchedulerVan} {policy : List (List ℚ)}
    (hrun : s.scheduler.processRouteReleaseCommand n = some (v, some policy)) :
    ∃ d, Synchronised (history ++ [d]) { s with
      scheduler := v
      notices := l₁ ++ l₂
      net := s.net ++ releases n policy } := by
  obtain ⟨hcount, hzero, hperf, hlen, d, hd⟩ := releases_of_barrier w.pos h.perf hrun
  obtain ⟨hall, hempty, hnet⟩ := h.all_asked hnotices hcount
  have hranks : (releases n policy).map (fun r => rank r.1) =
      (List.finRange n).map fun c : Fin n => ((c : ℕ) : ℤ) := by
    have hfst : (releases n policy).map Prod.fst =
        (List.finRange n).map fun c : Fin n => serverRankToID c :=
      List.map_fst_zip (by simp [hlen])
    have hcomp := congrArg (List.map rank) hfst
    rw [List.map_map, List.map_map] at hcomp
    simpa [Function.comp_def] using hcomp
  rw [hnet, hempty, List.nil_append]
  refine ⟨d, ?_, ?_, ?_, ?_, ?_, hperf ▸ h.perf⟩
  · intro w
    obtain ⟨hphase, hflag, -, hreturned, hcalls⟩ := (h.stage w).of_sent (hall w)
    refine .released hphase hflag ?_ (by simp [hall w]) (by simp [hreturned]) (by simp [hcalls])
    simp only [Pending, hranks]
    exact List.mem_map.mpr ⟨w, List.mem_finRange w, rfl⟩
  · simp [hall, hzero]
  · intro r hr
    obtain ⟨c, -, hc⟩ := List.mem_map.mp (List.of_mem_zip hr).1
    exact ⟨c, .inl hc.symm⟩
  · rw [hranks]
    exact (List.nodup_finRange n).map fun a b hab => Fin.ext (by exact_mod_cast hab)
  · intro r hr
    rw [List.getLast?_concat, hd r.2 (List.of_mem_zip hr).2]

theorem wake (h : Synchronised history s) {w : Fin n}
    (hflag : (s.workers w).van.perfUpdateFlag = true) :
    Synchronised history { s with
      workers := Function.update s.workers w
        { s.workers w with
          van := { (s.workers w).van with perfUpdateFlag := false }
          phase := .woken } } := by
  refine h.update ?_ rfl
  cases h.stage w with
  | flagged _ _ hnet hsent hreturned hcalls hvan =>
    exact .woken rfl rfl hnet hsent hreturned hcalls hvan
  | idle _ hflag' | asked _ hflag' | released _ hflag' | woken _ hflag' | handled _ hflag' =>
    rw [hflag] at hflag'
    cases hflag'

/-- A worker behind its sleeping loop. -/
theorem of_woken (h : Synchronised history s) {w : Fin n} (hphase : (s.workers w).phase = .woken) :
    (s.workers w).van.perfUpdateFlag = false ∧ ¬ Pending s.net w ∧
      (s.workers w).sent = history.length ∧ (s.workers w).returned + 1 = history.length ∧
      (s.workers w).calls ++ [(s.workers w).van.verdict] = history := by
  cases h.stage w with
  | woken _ hflag hnet hsent hreturned hcalls hvan =>
    refine ⟨hflag, hnet, hsent, hreturned, ?_⟩
    rw [hcalls]
    exact List.dropLast_append_getLast? _ hvan
  | idle hphase' | asked hphase' | released hphase' | flagged hphase' | handled hphase' =>
    rw [hphase] at hphase'
    cases hphase'

theorem skip (h : Synchronised history s) {w : Fin n} (hphase : (s.workers w).phase = .woken)
    (hinit : (s.workers w).van.initFlag = true) :
    Synchronised history { s with
      workers := Function.update s.workers w
        { s.workers w with
          phase := .idle
          returned := (s.workers w).returned + 1
          calls := (s.workers w).calls ++ [none] } } := by
  obtain ⟨hflag, hnet, hsent, hreturned, hcalls⟩ := h.of_woken hphase
  rw [WorkerVan.verdict, if_pos hinit] at hcalls
  exact h.update (.idle rfl hflag hnet hsent hreturned hcalls) rfl

theorem handle (h : Synchronised history s) {w : Fin n} (hphase : (s.workers w).phase = .woken)
    (hinit : (s.workers w).van.initFlag = false) :
    Synchronised history { s with
      workers := Function.update s.workers w
        { s.workers w with
          phase := .handled
          calls := (s.workers w).calls ++ [some (s.workers w).van.perf] } } := by
  obtain ⟨hflag, hnet, hsent, hreturned, hcalls⟩ := h.of_woken hphase
  rw [WorkerVan.verdict, if_neg (by simp [hinit])] at hcalls
  exact h.update (.handled rfl hflag hnet hsent hreturned hcalls) rfl

theorem finish (h : Synchronised history s) {w : Fin n}
    (hphase : (s.workers w).phase = .handled) :
    Synchronised history { s with
      workers := Function.update s.workers w
        { s.workers w with
          van := { (s.workers w).van with initFlag := true }
          phase := .idle
          returned := (s.workers w).returned + 1 } } := by
  refine h.update ?_ rfl
  cases h.stage w with
  | handled _ hflag hnet hsent hreturned hcalls =>
    exact .idle rfl hflag hnet hsent hreturned hcalls
  | idle hphase' | asked hphase' | released hphase' | flagged hphase' | woken hphase' =>
    rw [hphase] at hphase'
    cases hphase'

/-- Every step keeps the invariant; only the last notification of a barrier adds to the
history. -/
theorem step (h : Synchronised history s) {s' : State n} (hstep : Step s s') :
    ∃ history', Synchronised history' s' := by
  cases hstep with
  | routeUpdate route hperf => exact ⟨history, h.stage, h.count, h.recver, h.nodup, h.last, hperf⟩
  | call hphase => exact ⟨history, h.call hphase⟩
  | notify hnotices hrun => exact ⟨history, h.notify hnotices hrun⟩
  | barrier hnotices hrun =>
    obtain ⟨d, h'⟩ := h.barrier hnotices hrun
    exact ⟨history ++ [d], h'⟩
  | forward hnet => exact ⟨history, h.forward hnet⟩
  | receive hnet hrun => exact ⟨history, h.receive hnet hrun⟩
  | wake _ hflag => exact ⟨history, h.wake hflag⟩
  | skip hphase hinit => exact ⟨history, h.skip hphase hinit⟩
  | handle hphase hinit => exact ⟨history, h.handle hphase hinit⟩
  | finish hphase => exact ⟨history, h.finish hphase⟩

theorem reachable {k : ℕ} (h : Steps Step k (State.start n) s) :
    ∃ history, Synchronised history s :=
  h.invariant (P := fun s => ∃ history, Synchronised history s) ⟨[], start n⟩
    fun _ _ hb hstep => hb.elim fun _ hb => hb.step hstep

end Synchronised

/-- The entries of a worker's log are those of the calls that have returned, and perhaps of the
one that is in progress. No worker has returned from more calls than any worker has sent
notifications, and the logs of two workers agree: the handler is called in the same calls, with
the same performances. -/
theorem topo_update_agrees {n k : ℕ} {s : State n} (h : Steps Step k (State.start n) s) :
    (∀ w w', (s.workers w).returned ≤ (s.workers w').sent) ∧
    (∀ w, (s.workers w).returned ≤ (s.workers w).calls.length ∧
      (s.workers w).calls.length ≤ (s.workers w).returned + 1) ∧
    ∀ (i : ℕ) (w w') (d d'), (s.workers w).calls[i]? = some d → (s.workers w').calls[i]? = some d' →
      d = d' := by
  obtain ⟨history, hs⟩ := Synchronised.reachable h
  refine ⟨?_, ?_, ?_⟩
  · intro w w'
    exact (hs.stage w).sent_le.1.trans (hs.stage w').sent_le.2.1
  · intro w
    exact (hs.stage w).calls_isPrefix.2
  · intro i w w' d d' hd hd'
    have hi := List.prefix_iff_getElem?.mp (hs.stage w).calls_isPrefix.1 i
      (List.getElem?_eq_some_iff.mp hd).1
    have hi' := List.prefix_iff_getElem?.mp (hs.stage w').calls_isPrefix.1 i
      (List.getElem?_eq_some_iff.mp hd').1
    rw [hi, Option.some.injEq] at hi'
    rw [← (List.getElem?_eq_some_iff.mp hd).2, ← (List.getElem?_eq_some_iff.mp hd').2, hi']

/-- Two workers in their first barrier, with a new policy. Worker `0` has returned. -/
theorem topo_update_agrees_two_workers :
    ∃ (k : ℕ) (s : State 2), Steps Step k (State.start 2) s ∧ (s.workers 0).returned = 1 ∧
      (s.workers 0).calls = [some [3, 0]] ∧ (s.workers 1).calls = [some [3, 0]] ∧
      (s.workers 0).returned ≤ (s.workers 1).sent := by
  have h₁ := (Steps.refl (State.start 2)).tail
    (@Step.routeUpdate 2 _ [3, 0] [[[], [[0, 1]]], [[[1, 0]], []]] rfl)
  have h₂ := (h₁.tail (@Step.call 2 _ 0 rfl)).tail (@Step.call 2 _ 1 rfl)
  have h₃ := (h₂.tail (@Step.notify 2 _ [] [1] 0 rfl _ rfl)).tail
    (@Step.barrier 2 _ [] [] 1 rfl _ [[3, 0, -2, 1, -1], [3, 0, 0, -1]] rfl)
  have h₄ := (h₃.tail (@Step.forward 2 _ [] _ 0 _ rfl)).tail (@Step.forward 2 _ [] _ 1 _ rfl)
  have h₅ := (h₄.tail (@Step.receive 2 _ [] _ 0 _ rfl _ rfl)).tail
    (@Step.receive 2 _ [] _ 1 _ rfl _ rfl)
  have h₆ := (h₅.tail (@Step.wake 2 _ 0 rfl rfl)).tail (@Step.wake 2 _ 1 rfl rfl)
  have h₇ := (h₆.tail (@Step.handle 2 _ 0 rfl rfl)).tail (@Step.handle 2 _ 1 rfl rfl)
  have h₈ := h₇.tail (@Step.finish 2 _ 0 rfl)
  exact ⟨_, _, h₈, rfl, rfl, rfl, (topo_update_agrees h₈).1 0 1⟩

end NetStorm.TopoBarrier

import NetStorm.PolicySwitch
import NetStorm.TreeAggregation

/-!
# Switching is safe when releases are not overtaken

In every iteration each shard is aggregated along the tree of the policy in force, once a
server has taken the policy over. That has happened before a server lists its first request,
so no server lists one while the scheduler's release is still to be taken over; and when the
next release is made, every response has been read and nothing is left of the iteration.
-/
namespace NetStorm.PolicySwitch
open Scheduler Multicast Aggregation Convergecast

section Definitions
variable {n : ℕ}

/-- The shards of every iteration are like those of `Setting`, carry its number, belong to
roots that the policy gives weight, and have slots of their own; the routes are those of
`enable_random` off. -/
structure System.Sound (sys : System n) (appId : ℤ) : Prop where
  random : sys.routes.enableRandom = false
  setting : ∀ {t perf sh}, sh ∈ sys.plan t perf → Setting sh.job sys.cfg
  iters : ∀ {t perf sh}, sh ∈ sys.plan t perf → ∀ w r, sh.job.pushIters w r = t
  weight : ∀ {t perf sh}, sh ∈ sys.plan t perf → perf.getD sh.job.root 0 ≠ 0
  slots : ∀ {t perf sh sh'}, sh ∈ sys.plan t perf → sh' ∈ sys.plan t perf →
    slot sh.job.key = slot sh'.job.key → sh = sh'
  appId : ∀ {t perf sh}, sh ∈ sys.plan t perf → sh.job.appId = appId

/-- A policy for server `c` is in flight. -/
def Awaits (s : State n) (c : Fin n) : Prop := ∃ row, (c, row) ∈ s.releases ∧ row ≠ []

/-- Server `c` has taken over the policy in force. -/
def Switched (s : State n) (c : Fin n) : Prop :=
  ¬ Awaits s c ∧ (s.vans (serverRankToID c)).initFlag = true

/-- The server uses the tables, or will do so once it looks for new ones. -/
def Adopts (v : Van) (kv : KVServer) (tables : Tables) : Prop :=
  v.initFlag = true ∧ (v.parents, v.sons) = tables ∧ (kv.parents, kv.sons) = tables ∨
    v.initFlag = false ∧ (v.parentsTemp, v.sonsTemp) = tables

/-- The iteration number that a `KVServer` keeps is older than `iter`. -/
def Late (kv : KVServer) (iter : ℕ) : Prop := kv.iters < iter ∨ kv.iters = kEmpty

/-- The route tables that the scheduler decides on. -/
def Measured (sys : System n) (perf : List ℚ) (route : List (List (List (List ℕ)))) : Prop :=
  perf.length = n ∧ ∃ links : LinkMatrix, addRoute n links.tps sys.routes = some route

/-- The tables are those of one policy. -/
def Decided (sys : System n) (perf : List ℚ) (tables : Fin n → Tables) : Prop :=
  ∃ route, Measured sys perf route ∧ ∀ c : Fin n, Installed n perf route c (tables c).1 (tables c).2

/-- What the release `row` for server `c` brings. -/
def Brings (c : Fin n) (row : List ℚ) (old new : Tables) : Prop :=
  row = [] ∧ old = new ∨
    row ≠ [] ∧ ∃ perf, parsePolicy n (serverRankToID c) row = some ⟨perf, new.1, new.2⟩

/-- Workers and the scheduler. -/
structure Control (sys : System n) (s : State n) : Prop where
  workers : ∀ w, s.workerIter w = s.iter ∨ s.workerIter w + 1 = s.iter ∧ s.waiting w = true
  behind : ∀ c row, (c, row) ∈ s.releases → s.workerIter c + 1 = s.iter
  resumes : ∀ c ∈ s.resumes, s.workerIter c + 1 = s.iter ∧ ∀ row, (c, row) ∉ s.releases
  once : (s.releases.map Prod.fst).Nodup
  resumesOnce : s.resumes.Nodup
  notices : (Finset.univ.filter fun w => s.waiting w = true ∧ s.workerIter w = s.iter).card =
    s.scheduler.notifyCount + s.notices.length
  asked : ∀ w, s.waiting w = true → s.workerIter w = s.iter → ∀ sh ∈ sys.plan s.iter s.perf,
    s.received s.iter sh.job.key w ≠ 0
  future : ∀ t key w, s.iter < t → s.sent t key w = 0 ∧ s.received t key w = 0
  sentOnce : ∀ key w, s.sent s.iter key w ≤ 1
  started : ∀ key w, s.sent s.iter key w ≠ 0 → s.workerIter w = s.iter

/-- The tables of the servers. -/
structure TablesOk (sys : System n) (appId : ℤ) (s : State n) : Prop where
  cluster : Cluster n s.vans
  appId : ∀ c, (s.kvs c).appId = appId
  decided : Decided sys s.perf s.inForce ∨ s.iter = 0 ∧ s.scheduler.perfUpdateFlag = true
  measured : s.scheduler.perfUpdateFlag = true → Measured sys s.scheduler.perf s.scheduler.route
  bound : (s.iter : ℤ) < kEmpty
  stamp : ∀ c, Late (s.kvs c) (s.iter + 1)
  late : ∀ c, Awaits s c ∨ (s.vans (serverRankToID c)).initFlag = false → Late (s.kvs c) s.iter
  adopted : ∀ c, ¬ Awaits s c → Adopts (s.vans (serverRankToID c)) (s.kvs c) (s.inForce c)
  awaiting : ∀ c row, (c, row) ∈ s.releases → ∃ old,
    Adopts (s.vans (serverRankToID c)) (s.kvs c) old ∧ Brings c row old (s.inForce c)

/-- The system, as far as one key is concerned. -/
def State.project (s : State n) (key : ℕ) (updates : List (Fin n × NDArray)) :
    Aggregation.State n where
  vans := s.vans
  kvs := s.kvs
  servers := s.servers
  net := s.net.filter (hasKey key)
  inbox := s.inbox.filter fun e => hasKey key e.2
  sent := s.sent s.iter key
  received := s.received s.iter key
  updates := updates

/-- A shard is aggregated along the tree in force, at servers that have taken it over. -/
structure Aggregates (s : State n) (sh : Shard n) (T : RootedTree (Fin n))
    (t : Convergecast.State (Fin n) ℚ) (updates : List (Fin n × NDArray)) : Prop where
  root : sh.job.root = T.root
  sees : ∀ c, SeesTree T c (s.inForce c).1 (s.inForce c).2
  inv : Inv T (sh.job.seen unseen) t
  linked : Linked sh.job unseen T (s.project sh.job.key updates) t
  switched : ∀ c, t.Touched c → Switched s c

/-- The pushes and responses of the iteration. -/
structure DataOk (sys : System n) (s : State n) : Prop where
  net : ∀ m ∈ s.net, ∃ sh ∈ sys.plan s.iter s.perf, hasKey sh.job.key m = true
  inbox : ∀ e ∈ s.inbox, ∃ sh ∈ sys.plan s.iter s.perf, hasKey sh.job.key e.2 = true
  elsewhere : ∀ c key, (∀ sh ∈ sys.plan s.iter s.perf, slot sh.job.key ≠ slot key) →
    ((s.servers c).updateBuf (slot key)).request = []
  arrived : ∀ (c : Fin n) m, (serverRankToID c, m) ∈ s.inbox → ¬ Awaits s c
  shards : ∀ sh ∈ sys.plan s.iter s.perf, ∃ T t updates, Aggregates s sh T t updates

/-- What holds in every state. -/
structure Safe (sys : System n) (appId : ℤ) (s : State n) : Prop where
  control : Control sys s
  tables : TablesOk sys appId s
  data : DataOk sys s

end Definitions

section Tables
variable {v : Van} {kv : KVServer} {tables : Tables}

/-- A look for new tables puts the adopted ones in use. -/
theorem Adopts.refresh (h : Adopts v kv tables) {V : Type} (m : Message V)
    (hiters : v.initFlag = false → m.iters ≠ kv.iters) :
    (kv.refresh v m).2.initFlag = true ∧
      ((kv.refresh v m).2.parents, (kv.refresh v m).2.sons) = tables ∧
      ((kv.refresh v m).1.parents, (kv.refresh v m).1.sons) = tables := by
  rcases h with ⟨hflag, hvan, hkv⟩ | ⟨hflag, htemp⟩
  · rw [kv.refresh_of_initFlag hflag]
    exact ⟨hflag, hvan, hkv⟩
  · have hrefresh : kv.refresh v m = { kv with iters := m.iters }.relationUpdate v.relationUpdate :=
      if_pos ⟨hiters hflag, hflag⟩
    have hupdate : { kv with iters := m.iters }.relationUpdate v.relationUpdate =
        ({ kv with iters := m.iters, parents := v.parentsTemp, sons := v.sonsTemp },
          { v.relationUpdate with initFlag := true }) := if_pos hflag
    rw [hrefresh, hupdate]
    exact ⟨rfl, htemp, htemp⟩

/-- A look for new tables keeps what is adopted, whatever made the server look. -/
theorem Adopts.refresh_any (h : Adopts v kv tables) {V : Type} (m : Message V) :
    Adopts (kv.refresh v m).2 (kv.refresh v m).1 tables := by
  by_cases hiters : m.iters = kv.iters
  · have hsame : kv.refresh v m = (kv, v) := by simp [KVServer.refresh, hiters]
    rw [hsame]
    exact h
  · exact .inl (h.refresh m fun _ => hiters)

/-- So does a push of the own worker at the van. -/
theorem Adopts.notice (h : Adopts v kv tables) (iters : ℤ) : Adopts (v.notice iters) kv tables := by
  rcases h with ⟨hflag, hvan, hkv⟩ | ⟨hflag, htemp⟩
  · rw [Van.notice_of_initFlag hflag]
    exact .inl ⟨hflag, hvan, hkv⟩
  · rw [Van.notice]
    split_ifs
    · exact .inr ⟨hflag, htemp⟩
    · exact .inr ⟨hflag, htemp⟩

theorem notice_initFlag (v : Van) (iters : ℤ) : (v.notice iters).initFlag = v.initFlag := by
  rw [Van.notice]
  split_ifs <;> rfl

/-- The number that the `KVServer` keeps is the old one or that of the message. -/
theorem refresh_iters (kv : KVServer) (v : Van) {V : Type} (m : Message V) :
    (kv.refresh v m).1.iters = kv.iters ∨ (kv.refresh v m).1.iters = m.iters := by
  rw [KVServer.refresh]
  split_ifs with h
  · right
    rw [KVServer.relationUpdate]
    split_ifs <;> rfl
  · exact .inl rfl

theorem refresh_initFlag (kv : KVServer) {v : Van} {V : Type} (m : Message V)
    (h : v.initFlag = true) : (kv.refresh v m).2.initFlag = true := by
  rw [kv.refresh_of_initFlag h]
  exact h

theorem Late.mono {kv : KVServer} {t t' : ℕ} (h : Late kv t) (ht : t ≤ t') : Late kv t' := by
  rcases h with h | h
  · exact .inl (by omega)
  · exact .inr h

end Tables

section Frames
variable {n : ℕ} {sys : System n} {s s' : State n}

/-- What the aggregation of a shard depends on. -/
theorem Aggregates.congr {sh : Shard n} {T : RootedTree (Fin n)}
    {t : Convergecast.State (Fin n) ℚ} {updates : List (Fin n × NDArray)}
    (h : Aggregates s sh T t updates) (hiter : s'.iter = s.iter) (hforce : s'.inForce = s.inForce)
    (hnet : s'.net.filter (hasKey sh.job.key) = s.net.filter (hasKey sh.job.key))
    (hinbox : (s'.inbox.filter fun e => hasKey sh.job.key e.2) =
      s.inbox.filter fun e => hasKey sh.job.key e.2)
    (hbuf : ∀ c, (s'.servers c).updateBuf (slot sh.job.key) =
      (s.servers c).updateBuf (slot sh.job.key))
    (hsent : s'.sent s.iter sh.job.key = s.sent s.iter sh.job.key)
    (hreceived : s'.received s.iter sh.job.key = s.received s.iter sh.job.key)
    (hswitched : ∀ c, Switched s c → Switched s' c) : Aggregates s' sh T t updates := by
  refine ⟨h.root, hforce ▸ h.sees, h.inv, ?_, fun c hc => hswitched c (h.switched c hc)⟩
  refine h.linked.congr hnet hinbox hbuf ?_ ?_ rfl
  · simpa only [State.project, hiter] using hsent
  · simpa only [State.project, hiter] using hreceived

/-- Steps of workers, scheduler and vans that leave the data alone. -/
theorem DataOk.frame (h : DataOk sys s) (hiter : s'.iter = s.iter) (hperf : s'.perf = s.perf)
    (hforce : s'.inForce = s.inForce) (hnet : s'.net = s.net) (hinbox : s'.inbox = s.inbox)
    (hservers : s'.servers = s.servers) (hsent : s'.sent = s.sent)
    (hreceived : s'.received = s.received) (hawaits : ∀ c, Awaits s' c → Awaits s c)
    (hswitched : ∀ c, Switched s c → Switched s' c) : DataOk sys s' := by
  refine ⟨?_, ?_, ?_, fun c m hm => ?_, fun sh hsh => ?_⟩
  · rw [hnet, hiter, hperf]
    exact h.net
  · rw [hinbox, hiter, hperf]
    exact h.inbox
  · rw [hservers, hiter, hperf]
    exact h.elsewhere
  · exact fun ha => h.arrived c m (hinbox ▸ hm) (hawaits c ha)
  · rw [hiter, hperf] at hsh
    obtain ⟨T, t, updates, hA⟩ := h.shards sh hsh
    exact ⟨T, t, updates, hA.congr hiter hforce (by rw [hnet]) (by rw [hinbox])
      (fun c => by rw [hservers]) (by rw [hsent]) (by rw [hreceived]) hswitched⟩

/-- Steps at server `c`. -/
theorem TablesOk.server {appId : ℤ} (h : TablesOk sys appId s) {c : Fin n} {v : Van}
    {kv : KVServer} (hvans : s'.vans = Function.update s.vans (serverRankToID c) v)
    (hkvs : s'.kvs = Function.update s.kvs c kv) (hiter : s'.iter = s.iter)
    (hperf : s'.perf = s.perf) (hforce : s'.inForce = s.inForce)
    (hscheduler : s'.scheduler = s.scheduler)
    (hreleases : ∀ c', c' ≠ c → ∀ row, (c', row) ∈ s'.releases ↔ (c', row) ∈ s.releases)
    (hcluster : Cluster n s'.vans) (happ : kv.appId = appId) (hstamp : Late kv (s.iter + 1))
    (hlate : Awaits s' c ∨ v.initFlag = false → Late kv s.iter)
    (hadopted : ¬ Awaits s' c → Adopts v kv (s.inForce c))
    (hawaiting : ∀ row, (c, row) ∈ s'.releases → ∃ old,
      Adopts v kv old ∧ Brings c row old (s.inForce c)) :
    TablesOk sys appId s' := by
  have hawaits : ∀ c', c' ≠ c → (Awaits s' c' ↔ Awaits s c') := fun c' hc' =>
    exists_congr fun row => and_congr_left' (hreleases c' hc' row)
  have hv : ∀ c' : Fin n, c' ≠ c →
      s'.vans (serverRankToID c') = s.vans (serverRankToID c') := by
    intro c' hc'
    have hne : serverRankToID c' ≠ serverRankToID c := by
      rwa [ne_eq, serverRankToID_inj, Fin.val_inj]
    rw [hvans, Function.update_of_ne hne]
  have hk : ∀ c' : Fin n, c' ≠ c → s'.kvs c' = s.kvs c' := by
    intro c' hc'
    rw [hkvs, Function.update_of_ne hc']
  have hvc : s'.vans (serverRankToID c) = v := by rw [hvans, Function.update_self]
  have hkc : s'.kvs c = kv := by rw [hkvs, Function.update_self]
  refine ⟨hcluster, fun c' => ?_, ?_, ?_, ?_, fun c' => ?_, fun c' hc' => ?_, fun c' hc' => ?_,
    fun c' row hrow => ?_⟩
  · by_cases he : c' = c
    · rw [he, hkc, happ]
    · rw [hk c' he]
      exact h.appId c'
  · rw [hperf, hforce, hiter, hscheduler]
    exact h.decided
  · rw [hscheduler]
    exact h.measured
  · rw [hiter]
    exact h.bound
  · rw [hiter]
    by_cases he : c' = c
    · rw [he, hkc]
      exact hstamp
    · rw [hk c' he]
      exact h.stamp c'
  · rw [hiter]
    by_cases he : c' = c
    · subst he
      rw [hvc] at hc'
      rw [hkc]
      exact hlate hc'
    · rw [hawaits c' he, hv c' he] at hc'
      rw [hk c' he]
      exact h.late c' hc'
  · rw [hforce]
    by_cases he : c' = c
    · subst he
      rw [hvc, hkc]
      exact hadopted hc'
    · rw [hawaits c' he] at hc'
      rw [hv c' he, hk c' he]
      exact h.adopted c' hc'
  · rw [hforce]
    by_cases he : c' = c
    · subst he
      rw [hvc, hkc]
      exact hawaiting row hrow
    · rw [hv c' he, hk c' he]
      exact h.awaiting c' row ((hreleases c' he row).mp hrow)

/-- What is adopted at a server in either case. -/
theorem TablesOk.adopts {appId : ℤ} (h : TablesOk sys appId s) (c : Fin n) :
    ∃ tables, Adopts (s.vans (serverRankToID c)) (s.kvs c) tables := by
  by_cases hc : Awaits s c
  · obtain ⟨row, hrow, -⟩ := hc
    obtain ⟨old, hold, -⟩ := h.awaiting c row hrow
    exact ⟨old, hold⟩
  · exact ⟨_, h.adopted c hc⟩

theorem switched_of_update {s s' : State n} {c : Fin n} {v : Van}
    (hvans : s'.vans = Function.update s.vans (serverRankToID c) v)
    (hreleases : ∀ c, Awaits s' c → Awaits s c)
    (hflag : (s.vans (serverRankToID c)).initFlag = true → v.initFlag = true) (c' : Fin n)
    (h : Switched s c') : Switched s' c' := by
  refine ⟨fun ha => h.1 (hreleases c' ha), ?_⟩
  rw [hvans]
  by_cases he : c' = c
  · subst he
    rw [Function.update_self]
    exact hflag h.2
  · have hne : serverRankToID c' ≠ serverRankToID c := by
      rwa [ne_eq, serverRankToID_inj, Fin.val_inj]
    rw [Function.update_of_ne hne]
    exact h.2

end Frames

section ControlSteps
variable {n : ℕ} {sys : System n} {appId : ℤ} {s : State n}

theorem Safe.measure (h : Safe sys appId s) (links : LinkMatrix) {perf : List ℚ}
    {route : List (List (List (List ℕ)))} (hroute : addRoute n links.tps sys.routes = some route)
    (hperf : perf.length = n) :
    Safe sys appId { s with
      scheduler := { s.scheduler with perfUpdateFlag := true, perf := perf, route := route } } := by
  obtain ⟨hc, ht, hd⟩ := h
  refine ⟨⟨hc.workers, hc.behind, hc.resumes, hc.once, hc.resumesOnce, hc.notices, hc.asked,
    hc.future, hc.sentOnce, hc.started⟩, ⟨ht.cluster, ht.appId, ?_, fun _ => ⟨hperf, links, hroute⟩,
    ht.bound, ht.stamp, ht.late, ht.adopted, ht.awaiting⟩,
    hd.frame rfl rfl rfl rfl rfl rfl rfl rfl (fun _ ha => ha) fun _ hs => hs⟩
  rcases ht.decided with hdec | ⟨h0, -⟩
  · exact .inl hdec
  · exact .inr ⟨h0, rfl⟩

theorem Safe.reroute (h : Safe sys appId s) {c : Fin n} {table : List (List (List ℤ))}
    (htable : TableOk n c table) :
    Safe sys appId { s with
      vans := Function.update s.vans (serverRankToID c)
        { s.vans (serverRankToID c) with route := table } } := by
  obtain ⟨hc, ht, hd⟩ := h
  refine ⟨⟨hc.workers, hc.behind, hc.resumes, hc.once, hc.resumesOnce, hc.notices, hc.asked,
    hc.future, hc.sentOnce, hc.started⟩, ?_,
    hd.frame rfl rfl rfl rfl rfl rfl rfl rfl (fun _ ha => ha)
      (switched_of_update rfl (fun _ ha => ha) id)⟩
  refine ht.server rfl (Function.update_eq_self c s.kvs).symm rfl rfl rfl rfl
    (fun _ _ _ => Iff.rfl) ?_ (ht.appId c) (ht.stamp c) (ht.late c) (ht.adopted c) (ht.awaiting c)
  refine ⟨fun c' => ?_, fun c' => ?_, fun c' => ?_⟩
  · by_cases he : c' = c
    · subst he
      simp only [Function.update_self]
      exact ⟨(ht.cluster.server c').role, (ht.cluster.server c').myId⟩
    · simpa [Fin.val_inj, he] using ht.cluster.server c'
  · simpa using ht.cluster.worker c'
  · by_cases he : c' = c
    · subst he
      simpa using htable
    · simpa [Fin.val_inj, he] using ht.cluster.table c'

theorem Control.iter_of_idle (h : Control sys s) {w : Fin n} (hidle : s.waiting w = false) :
    s.workerIter w = s.iter := by
  rcases h.workers w with hw | ⟨-, hw⟩
  · exact hw
  · rw [hidle] at hw
    cases hw

theorem Safe.topoUpdate (h : Safe sys appId s) {w : Fin n} (hidle : s.waiting w = false)
    (hall : ∀ sh ∈ sys.plan (s.workerIter w) s.perf,
      s.received (s.workerIter w) sh.job.key w ≠ 0) :
    Safe sys appId { s with
      notices := s.notices ++ [w]
      waiting := Function.update s.waiting w true } := by
  obtain ⟨hc, ht, hd⟩ := h
  have hw := hc.iter_of_idle hidle
  rw [hw] at hall
  refine ⟨⟨fun w' => ?_, hc.behind, hc.resumes, hc.once, hc.resumesOnce, ?_, fun w' hwait hiter => ?_,
    hc.future, hc.sentOnce, hc.started⟩, ⟨ht.cluster, ht.appId, ht.decided, ht.measured, ht.bound,
    ht.stamp, ht.late, ht.adopted, ht.awaiting⟩,
    hd.frame rfl rfl rfl rfl rfl rfl rfl rfl (fun _ ha => ha) fun _ hs => hs⟩
  · by_cases he : w' = w
    · exact .inl (he ▸ hw)
    · simpa [he] using hc.workers w'
  · have hinsert : (Finset.univ.filter fun w' => Function.update s.waiting w true w' = true ∧
        s.workerIter w' = s.iter) =
        insert w (Finset.univ.filter fun w' => s.waiting w' = true ∧ s.workerIter w' = s.iter) := by
      ext w'
      by_cases he : w' = w
      · subst he
        simp [hw]
      · simp [he]
    dsimp only
    rw [hinsert, Finset.card_insert_of_notMem (by simp [hidle]), hc.notices, List.length_append]
    rfl
  · by_cases he : w' = w
    · subst he
      exact hall
    · dsimp only at hwait
      rw [Function.update_of_ne he] at hwait
      exact hc.asked w' hwait hiter

theorem Safe.notify (h : Safe sys appId s) {l₁ l₂ : List (Fin n)} {w : Fin n}
    (hnotices : s.notices = l₁ ++ w :: l₂) {v : SchedulerVan}
    (hrun : s.scheduler.processRouteReleaseCommand n = some (v, none)) :
    Safe sys appId { s with scheduler := v, notices := l₁ ++ l₂ } := by
  obtain ⟨hc, ht, hd⟩ := h
  obtain rfl : v = { s.scheduler with notifyCount := s.scheduler.notifyCount + 1 } := by
    rw [SchedulerVan.processRouteReleaseCommand] at hrun
    split_ifs at hrun
    · obtain ⟨policy, -, hrun⟩ := Option.bind_eq_some_iff.mp hrun
      cases hrun
    · cases hrun
    · obtain ⟨rfl, -⟩ := Prod.mk.inj (Option.some.inj hrun)
      rfl
  refine ⟨⟨hc.workers, hc.behind, hc.resumes, hc.once, hc.resumesOnce, ?_, hc.asked, hc.future,
    hc.sentOnce, hc.started⟩, ⟨ht.cluster, ht.appId, ht.decided, ht.measured, ht.bound,
    ht.stamp, ht.late, ht.adopted, ht.awaiting⟩,
    hd.frame rfl rfl rfl rfl rfl rfl rfl rfl (fun _ ha => ha) fun _ hs => hs⟩
  have hcard := hc.notices
  rw [hnotices] at hcard
  simp only [List.length_append, List.length_cons] at hcard ⊢
  omega

/-- The release that a server receives is the only one for it. -/
theorem Control.not_awaits (h : Control sys s) {l₁ l₂ : List (Fin n × List ℚ)} {c : Fin n}
    {row : List ℚ} (hreleases : s.releases = l₁ ++ (c, row) :: l₂) (row' : List ℚ) :
    (c, row') ∉ l₁ ++ l₂ := by
  intro hmem
  have honce := h.once
  rw [hreleases, List.map_append, List.map_cons] at honce
  have hnot := (List.nodup_middle.mp honce).notMem
  rw [← List.map_append] at hnot
  exact hnot (List.mem_map.mpr ⟨(c, row'), hmem, rfl⟩)

theorem Safe.release (h : Safe sys appId s) {l₁ l₂ : List (Fin n × List ℚ)} {c : Fin n}
    {row : List ℚ} (hreleases : s.releases = l₁ ++ (c, row) :: l₂) {v : Van}
    (hrun : (s.vans (serverRankToID c)).processRouteReleaseCommand n row = some v) :
    Safe sys appId { s with
      vans := Function.update s.vans (serverRankToID c) v
      releases := l₁ ++ l₂
      resumes := s.resumes ++ [c] } := by
  obtain ⟨hc, ht, hd⟩ := h
  have hmem : (c, row) ∈ s.releases := hreleases ▸ by simp
  have hnone := hc.not_awaits hreleases
  have hsub : ∀ e, e ∈ l₁ ++ l₂ → e ∈ s.releases := fun _ => mem_of_mem_taken hreleases
  have hawaits : ∀ c', Awaits { s with
      vans := Function.update s.vans (serverRankToID c) v
      releases := l₁ ++ l₂
      resumes := s.resumes ++ [c] } c' → Awaits s c' :=
    fun c' ⟨row', hrow', hne'⟩ => ⟨row', hsub _ hrow', hne'⟩
  obtain ⟨old, hold, hbrings⟩ := ht.awaiting c row hmem
  obtain ⟨hlike, hadopts, hkeep⟩ : (s.vans (serverRankToID c)).Like v ∧
      Adopts v (s.kvs c) (s.inForce c) ∧ (v = s.vans (serverRankToID c) ∨ Awaits s c) := by
    rw [Van.processRouteReleaseCommand] at hrun
    rcases hbrings with ⟨hnil, rfl⟩ | ⟨hne, perf, hparse⟩
    · rw [if_pos hnil] at hrun
      obtain rfl := Option.some.inj hrun
      exact ⟨⟨rfl, rfl, rfl⟩, hold, .inl rfl⟩
    · rw [if_neg hne, (ht.cluster.server c).myId, hparse] at hrun
      obtain rfl := Option.some.inj hrun
      exact ⟨⟨(ht.cluster.server c).myId.symm, rfl, rfl⟩, .inr ⟨rfl, rfl⟩, .inr ⟨row, hmem, hne⟩⟩
  refine ⟨⟨hc.workers, fun c' row' hrow' => hc.behind c' row' (hsub _ hrow'), fun c' hmem' => ?_,
    ?_, ?_,
    hc.notices, hc.asked, hc.future, hc.sentOnce, hc.started⟩, ?_,
    hd.frame rfl rfl rfl rfl rfl rfl rfl rfl hawaits fun c' hs => ?_⟩
  · rcases List.mem_append.mp hmem' with hmem' | hmem'
    · obtain ⟨hiter, hno⟩ := hc.resumes c' hmem'
      exact ⟨hiter, fun row' hrow' => hno row' (hsub _ hrow')⟩
    · obtain rfl := List.mem_singleton.mp hmem'
      exact ⟨hc.behind c' row hmem, hnone⟩
  · have honce := hc.once
    rw [hreleases, List.map_append, List.map_cons] at honce
    have := (List.nodup_middle.mp honce).of_cons
    rwa [← List.map_append] at this
  · refine List.nodup_append.mpr ⟨hc.resumesOnce, List.nodup_singleton c, ?_⟩
    rintro a ha b hb rfl
    obtain rfl := List.mem_singleton.mp hb
    exact (hc.resumes a ha).2 row hmem
  · refine ht.server rfl (Function.update_eq_self c s.kvs).symm rfl rfl rfl rfl
      (fun c' hne row' => ?_) (ht.cluster.update hlike) (ht.appId c) (ht.stamp c)
      (fun hor => ?_) (fun _ => hadopts) fun row' hrow' => absurd hrow' (hnone row')
    have hne' : (c', row') ≠ (c, row) := fun he => hne (congrArg Prod.fst he)
    · rw [hreleases]
      simp [hne']
    · rcases hkeep with rfl | ha
      · rcases hor with ha | hf
        · exact ht.late c (.inl (hawaits c ha))
        · exact ht.late c (.inr hf)
      · exact ht.late c (.inl ha)
  · refine ⟨fun ha => hs.1 (hawaits c' ha), ?_⟩
    by_cases he : c' = c
    · subst he
      rcases hkeep with rfl | ha
      · simpa using hs.2
      · exact absurd ha hs.1
    · simpa [Fin.val_inj, he] using hs.2

theorem Safe.resume (h : Safe sys appId s) {l₁ l₂ : List (Fin n)} {w : Fin n}
    (hresumes : s.resumes = l₁ ++ w :: l₂) :
    Safe sys appId { s with
      resumes := l₁ ++ l₂
      workerIter := Function.update s.workerIter w (s.workerIter w + 1)
      waiting := Function.update s.waiting w false } := by
  obtain ⟨hc, ht, hd⟩ := h
  obtain ⟨hw, hno⟩ := hc.resumes w (hresumes ▸ by simp)
  have honce := hc.resumesOnce
  rw [hresumes] at honce
  have hnot := (List.nodup_middle.mp honce).notMem
  refine ⟨⟨fun w' => ?_, fun c row hrow => ?_, fun c hmem => ?_, hc.once,
    (List.nodup_middle.mp honce).of_cons, ?_, fun w' hwait hiter => ?_, hc.future, hc.sentOnce,
    fun key w' hne => ?_⟩, ⟨ht.cluster, ht.appId, ht.decided, ht.measured, ht.bound, ht.stamp,
    ht.late, ht.adopted, ht.awaiting⟩,
    hd.frame rfl rfl rfl rfl rfl rfl rfl rfl (fun _ ha => ha) fun _ hs => hs⟩
  · by_cases he : w' = w
    · subst he
      exact .inl (by simpa using hw)
    · simpa [he] using hc.workers w'
  · have hne : c ≠ w := by
      rintro rfl
      exact hno row hrow
    simpa [hne] using hc.behind c row hrow
  · have hne : c ≠ w := by
      rintro rfl
      exact hnot hmem
    obtain ⟨hiter, hno'⟩ := hc.resumes c (mem_of_mem_taken hresumes hmem)
    exact ⟨by simpa [hne] using hiter, hno'⟩
  · rw [← hc.notices]
    congr 1
    ext w'
    by_cases he : w' = w
    · subst he
      have hne : s.workerIter w' ≠ s.iter := by omega
      simp [hne]
    · simp [he]
  · by_cases he : w' = w
    · subst he
      simp at hwait
    · dsimp only at hwait hiter
      rw [Function.update_of_ne he] at hwait hiter
      exact hc.asked w' hwait hiter
  · by_cases he : w' = w
    · subst he
      simpa using hw
    · simpa [he] using hc.started key w' hne

/-- Pulls and commands may make a server take over what it has adopted, and do nothing else. -/
theorem Safe.other (h : Safe sys appId s) {c : Fin n} {m : Message NDArray}
    (hiters : m.iters ≤ 0 ∨ m.iters = kEmpty) :
    Safe sys appId { s with
      vans := Function.update s.vans (serverRankToID c)
        ((s.kvs c).refresh (s.vans (serverRankToID c)) m).2
      kvs := Function.update s.kvs c ((s.kvs c).refresh (s.vans (serverRankToID c)) m).1 } := by
  obtain ⟨hc, ht, hd⟩ := h
  have hlike := (s.kvs c).refresh_like (s.vans (serverRankToID c)) m
  have hflag := fun hf => refresh_initFlag (s.kvs c) (v := s.vans (serverRankToID c)) m hf
  have hlate : ∀ t, 0 < t → Late (s.kvs c) t →
      Late ((s.kvs c).refresh (s.vans (serverRankToID c)) m).1 t := by
    intro t ht hl
    rcases refresh_iters (s.kvs c) (s.vans (serverRankToID c)) m with he | he
    · rw [Late, he]
      exact hl
    · rw [Late, he]
      rcases hiters with hi | hi
      · exact .inl (by omega)
      · exact .inr hi
  refine ⟨⟨hc.workers, hc.behind, hc.resumes, hc.once, hc.resumesOnce, hc.notices, hc.asked,
    hc.future, hc.sentOnce, hc.started⟩, ?_,
    hd.frame rfl rfl rfl rfl rfl rfl rfl rfl (fun _ ha => ha)
      (switched_of_update rfl (fun _ ha => ha) hflag)⟩
  refine ht.server rfl rfl rfl rfl rfl rfl (fun _ _ _ => Iff.rfl) (ht.cluster.update hlike)
    (((s.kvs c).refresh_appId _ m).trans (ht.appId c)) (hlate _ (by omega) (ht.stamp c)) ?_
    (fun ha => (ht.adopted c ha).refresh_any m) fun row hrow => ?_
  · intro hor
    by_cases hsame : m.iters ≠ (s.kvs c).iters ∧ (s.vans (serverRankToID c)).initFlag = false
    · have ha : Awaits s c := by
        rcases hor with ha | hf
        · exact ha
        · obtain ⟨tables, htables⟩ := ht.adopts c
          rw [(htables.refresh m fun _ => hsame.1).1] at hf
          cases hf
      obtain ⟨row, hrow, hne⟩ := ha
      have := hc.behind c row hrow
      exact hlate _ (by omega) (ht.late c (.inl ⟨row, hrow, hne⟩))
    · have hrefresh : (s.kvs c).refresh (s.vans (serverRankToID c)) m =
          (s.kvs c, s.vans (serverRankToID c)) := if_neg hsame
      rw [hrefresh] at hor ⊢
      exact ht.late c hor
  · obtain ⟨old, hold, hbrings⟩ := ht.awaiting c row hrow
    exact ⟨old, hold.refresh_any m, hbrings⟩

end ControlSteps

section Keys
variable {n ℓ : ℕ} {job : Job n ℓ} {T : RootedTree (Fin n)} {V : Type}

theorem hasKey_iff {key : ℕ} {m : Message V} :
    hasKey key m = true ↔ m.data.map KVPairs.keys = some [key] := by
  simp [hasKey]

theorem hasKey_unique {key key' : ℕ} {m : Message V} (h : hasKey key m = true)
    (h' : hasKey key' m = true) : key = key' := by
  rw [hasKey_iff] at h h'
  rw [h] at h'
  simpa using h'

theorem hasKey_eq_false {key key' : ℕ} (hne : key' ≠ key) {m : Message V}
    (h : hasKey key m = true) : hasKey key' m = false :=
  Bool.eq_false_iff.mpr fun h' => hne (hasKey_unique h' h)

/-- Messages about one key are none about another. -/
theorem filter_other {key key' : ℕ} (hne : key' ≠ key) {l : List (Message V)}
    (h : ∀ m ∈ l, hasKey key m = true) : l.filter (hasKey key') = [] := by
  refine List.filter_eq_nil_iff.mpr fun m hm => ?_
  exact Bool.eq_false_iff.mp (hasKey_eq_false hne (h m hm))

theorem filter_other_snd {key key' : ℕ} (hne : key' ≠ key) {l : List (ℤ × Message V)}
    (h : ∀ e ∈ l, hasKey key e.2 = true) : (l.filter fun e => hasKey key' e.2) = [] := by
  refine List.filter_eq_nil_iff.mpr fun e he => ?_
  exact Bool.eq_false_iff.mp (hasKey_eq_false hne (h e he))

theorem hasKey_of_push {x : Source (Fin n)} {a : Fin ℓ → ℚ} {m : Message NDArray}
    (h : IsPush job x a m) : hasKey job.key m = true := by
  simp [hasKey_iff, h.data]

theorem hasKey_of_down {m : Message NDArray} (h : Down job T m) : hasKey job.key m = true := by
  obtain ⟨load, -, -, ⟨vals, lens, hdata⟩, hcopy⟩ := h
  rw [← payload_of_copy hcopy] at hdata
  have hm : m.data = some ⟨[job.key], vals, lens⟩ := hdata
  simp [hasKey_iff, hm]

theorem hasKey_net {s : Aggregation.State n} {M : Type}
    {view : (Fin ℓ → ℚ) → M} {t : Convergecast.State (Fin n) M} (h : Linked job view T s t)
    {m : Message NDArray} (hm : m ∈ s.net) : hasKey job.key m = true := by
  rcases h.net m hm with ⟨x, a, hp⟩ | hdown
  · exact hasKey_of_push hp.push
  · exact hasKey_of_down hdown

theorem hasKey_inbox {s : Aggregation.State n} {M : Type}
    {view : (Fin ℓ → ℚ) → M} {t : Convergecast.State (Fin n) M} (h : Linked job view T s t)
    {e : ℤ × Message NDArray} (he : e ∈ s.inbox) :
    hasKey job.key e.2 = true := by
  rcases h.inbox e he with ⟨x, a, hp⟩ | ⟨-, -, vals, lens, hdata⟩
  · exact hasKey_of_push hp.push
  · simp [hasKey_iff, hdata]

end Keys

section DataSteps
variable {n : ℕ} {sys : System n} {appId : ℤ} {s s' : State n}

/-- Steps that are about one shard. -/
theorem DataOk.shard (h : DataOk sys s) (hsys : sys.Sound appId) {sh : Shard n}
    (hsh : sh ∈ sys.plan s.iter s.perf) (hiter : s'.iter = s.iter) (hperf : s'.perf = s.perf)
    (hforce : s'.inForce = s.inForce)
    (hnet : ∀ m ∈ s'.net, m ∈ s.net ∨ hasKey sh.job.key m = true)
    (hinbox : ∀ e ∈ s'.inbox, e ∈ s.inbox ∨ hasKey sh.job.key e.2 = true)
    (hnetOther : ∀ key, key ≠ sh.job.key →
      s'.net.filter (hasKey key) = s.net.filter (hasKey key))
    (hinboxOther : ∀ key, key ≠ sh.job.key →
      (s'.inbox.filter fun e => hasKey key e.2) = s.inbox.filter fun e => hasKey key e.2)
    (hservers : ∀ c key, slot key ≠ slot sh.job.key →
      (s'.servers c).updateBuf (slot key) = (s.servers c).updateBuf (slot key))
    (hsent : ∀ key, key ≠ sh.job.key → s'.sent s.iter key = s.sent s.iter key)
    (hreceived : ∀ key, key ≠ sh.job.key → s'.received s.iter key = s.received s.iter key)
    (harrived : ∀ (c : Fin n) m, (serverRankToID c, m) ∈ s'.inbox → ¬ Awaits s' c)
    (hswitched : ∀ c, Switched s c → Switched s' c)
    (hA : ∃ T t updates, Aggregates s' sh T t updates) : DataOk sys s' := by
  refine ⟨fun m hm => ?_, fun e he => ?_, fun c key hkey => ?_, harrived, fun sh' hsh' => ?_⟩
  · rw [hiter, hperf]
    rcases hnet m hm with hm | hm
    · exact h.net m hm
    · exact ⟨sh, hsh, hm⟩
  · rw [hiter, hperf]
    rcases hinbox e he with he | he
    · exact h.inbox e he
    · exact ⟨sh, hsh, he⟩
  · rw [hiter, hperf] at hkey
    rw [hservers c key (hkey sh hsh).symm]
    exact h.elsewhere c key hkey
  · rw [hiter, hperf] at hsh'
    by_cases hslot : slot sh'.job.key = slot sh.job.key
    · obtain rfl := hsys.slots hsh' hsh hslot
      exact hA
    · have hkey : sh'.job.key ≠ sh.job.key := fun he => hslot (he ▸ rfl)
      obtain ⟨T, t, updates, hA'⟩ := h.shards sh' hsh'
      exact ⟨T, t, updates, hA'.congr hiter hforce (hnetOther _ hkey) (hinboxOther _ hkey)
        (fun c => hservers c _ hslot) (hsent _ hkey) (hreceived _ hkey) hswitched⟩

theorem Safe.push (hsys : sys.Sound appId) (h : Safe sys appId s) {w : Fin n} {sh : Shard n}
    {m : Message NDArray} (hidle : s.waiting w = false)
    (hplan : sh ∈ sys.plan (s.workerIter w) s.perf)
    (honce : s.sent (s.workerIter w) sh.job.key w = 0)
    (hsend : (s.vans (workerRankToID w)).send
      (sh.job.pushMsg (s.vans (workerRankToID w)) w 0) = some m) :
    Safe sys appId { s with
      net := s.net ++ [m]
      sent := count s.sent (s.workerIter w) sh.job.key w } := by
  obtain ⟨hc, ht, hd⟩ := h
  have hw := hc.iter_of_idle hidle
  rw [hw] at hplan honce
  rw [hw]
  obtain ⟨T, t, updates, hA⟩ := hd.shards sh hplan
  obtain ⟨m', hsend', hm⟩ :=
    send_push (hsys.setting hplan) hA.root (ht.cluster.worker w) 0
  rw [hsend', Option.some.injEq] at hsend
  subst hsend
  have hzero : (s.project sh.job.key updates).sent w = 0 := honce
  have hgate : (s.project sh.job.key updates).sent w =
      (s.project sh.job.key updates).received w := by
    obtain ⟨hr, hu, -⟩ := hA.linked.rounds w
    omega
  obtain ⟨hw', hlinked⟩ := hA.linked.push hgate (hzero ▸ hm)
  have hkey : hasKey sh.job.key m' = true := hasKey_of_push hm.push
  refine ⟨⟨hc.workers, hc.behind, hc.resumes, hc.once, hc.resumesOnce, hc.notices, hc.asked,
    fun t key w' hlt => ⟨?_, (hc.future t key w' hlt).2⟩, fun key w' => ?_, fun key w' hne => ?_⟩,
    ⟨ht.cluster, ht.appId, ht.decided, ht.measured, ht.bound, ht.stamp, ht.late, ht.adopted,
    ht.awaiting⟩,
    hd.shard hsys hplan rfl rfl rfl (fun m'' hm'' => ?_) (fun e he => .inl he) (fun key hne => ?_)
      (fun _ _ => rfl) (fun _ _ _ => rfl) (fun key hne => ?_) (fun _ _ => rfl) hd.arrived
      (fun _ hs => hs) ⟨T, _, updates, hA.root, hA.sees, hA.inv.push hw', ?_, hA.switched⟩⟩
  · have hne : t ≠ s.iter := Nat.ne_of_gt hlt
    simp [count, hne, (hc.future t key w' hlt).1]
  · have := hc.sentOnce key w'
    simp only [count]
    split_ifs with hif
    · obtain ⟨-, rfl, rfl⟩ := hif
      omega
    · omega
  · simp only [count] at hne
    split_ifs at hne with hif
    · obtain ⟨-, -, rfl⟩ := hif
      exact hw
    · exact hc.started key w' hne
  · rcases List.mem_append.mp hm'' with hm'' | hm''
    · exact .inl hm''
    · obtain rfl := List.mem_singleton.mp hm''
      exact .inr hkey
  · have hnil := filter_other hne (l := [m']) (by simpa using hkey)
    simp [List.filter_append, hnil]
  · funext w'
    simp [count, hne]
  · refine hlinked.congr ?_ rfl (fun _ => rfl) ?_ rfl rfl
    · simp [State.project, List.filter_append, hkey]
    · funext w'
      by_cases he : w' = w
      · subst he
        simp [State.project, count]
      · simp [State.project, count, he]

/-- Servers that have switched see the tree in force. -/
theorem Safe.sees_of_switched (h : Safe sys appId s) {sh : Shard n} {T : RootedTree (Fin n)}
    {t : Convergecast.State (Fin n) ℚ} {updates : List (Fin n × NDArray)}
    (hA : Aggregates s sh T t updates) {c : Fin n} (hs : Switched s c) :
    SeesTree T c (s.vans (serverRankToID c)).parents (s.vans (serverRankToID c)).sons := by
  have hsees := hA.sees c
  rcases h.tables.adopted c hs.1 with ⟨-, hvan, -⟩ | ⟨hflag, -⟩
  · rwa [← hvan] at hsees
  · rw [hs.2] at hflag
    cases hflag

/-- A push reaches the handler of a server only when no release for the server is in flight. -/
theorem Safe.not_awaits_of_arrived (h : Safe sys appId s) {sh : Shard n} {T : RootedTree (Fin n)}
    {t : Convergecast.State (Fin n) ℚ} {updates : List (Fin n × NDArray)}
    (hA : Aggregates s sh T t updates) {m : Message NDArray} (hm : m ∈ s.net) (hok : InOrder s m)
    {x : Source (Fin n)} {a : Fin sh.length → ℚ} (hp : IsPush sh.job x a m) {c : Fin n}
    (htarget : x.target T = c) (hrecver : m.recver = serverRankToID c)
    (hfinal : (∃ w, x = .leaf w) ∨ m.dst = m.recver) : ¬ Awaits s c := by
  rintro ⟨row, hrow, hrow'⟩
  cases x with
  | leaf w =>
    obtain rfl : w = c := htarget
    have hmem : m ∈ (s.project sh.job.key updates).net :=
      List.mem_filter.mpr ⟨hm, hasKey_of_push hp⟩
    have hpos := hA.linked.sent_pos hA.inv hmem hp
    have hstarted := h.control.started sh.job.key w (Nat.ne_of_gt hpos)
    have hbehind := h.control.behind w row hrow
    omega
  | node d =>
    have hdst : m.dst = m.recver := by
      rcases hfinal with ⟨w, hw⟩ | hdst
      · cases hw
      · exact hdst
    have hsender := hok hp.request hdst c row hrow hrow' hrecver
    rw [hp.sender_] at hsender
    exact absurd hsender (by simp [sourceId])

/-- A delivery leaves the van as it was, or the van notices a push of its own worker. -/
theorem TablesOk.deliver (ht : TablesOk sys appId s) {r iters : ℤ} {v : Van}
    (hvan : v = s.vans r ∨ (∃ c : Fin n, r = serverRankToID c) ∧ v = (s.vans r).notice iters)
    (net : List (Message NDArray)) (inbox : List (ℤ × Message NDArray)) :
    TablesOk sys appId
        { s with vans := Function.update s.vans r v, net := net, inbox := inbox } ∧
      ∀ c, Switched s c →
        Switched { s with vans := Function.update s.vans r v, net := net, inbox := inbox } c := by
  rcases hvan with rfl | ⟨⟨c, rfl⟩, rfl⟩
  · rw [Function.update_eq_self]
    exact ⟨⟨ht.cluster, ht.appId, ht.decided, ht.measured, ht.bound, ht.stamp, ht.late, ht.adopted,
      ht.awaiting⟩, fun c hc => hc⟩
  · have hflag := notice_initFlag (s.vans (serverRankToID c)) iters
    refine ⟨ht.server rfl (Function.update_eq_self c s.kvs).symm rfl rfl rfl rfl
      (fun _ _ _ => Iff.rfl) (ht.cluster.update (Van.notice_like _ _)) (ht.appId c)
      (ht.stamp c) (fun hor => ht.late c (hflag ▸ hor)) (fun ha => (ht.adopted c ha).notice _)
      fun row hrow => ?_, switched_of_update rfl (fun _ ha => ha) fun hf => hflag.trans hf⟩
    obtain ⟨old, hold, hbrings⟩ := ht.awaiting c row hrow
    exact ⟨old, hold.notice _, hbrings⟩

theorem Safe.deliver (hsys : sys.Sound appId) (h : Safe sys appId s)
    {l₁ l₂ : List (Message NDArray)} {m : Message NDArray} (hnet : s.net = l₁ ++ m :: l₂)
    (hok : InOrder s m) {queue : ℤ → ℕ} {queues : ℕ → ℤ → ℕ} {v : Van} {out : Dispatch NDArray}
    {sent : List (Message NDArray)} {acc : List (ℤ × Message NDArray)}
    (hreceive : (s.vans m.recver).receiving queue ((s.vans m.recver).recvMsg m) = some (v, out))
    (hperform : v.perform queues out = some (sent, acc)) :
    Safe sys appId { s with
      vans := Function.update s.vans m.recver v
      net := l₁ ++ l₂ ++ sent
      inbox := s.inbox ++ acc } := by
  have hm : m ∈ s.net := hnet ▸ by simp
  obtain ⟨sh, hsh, hkey⟩ := h.data.net m hm
  obtain ⟨T, t, updates, hA⟩ := h.data.shards sh hsh
  have hproj : (s.project sh.job.key updates).net =
      l₁.filter (hasKey sh.job.key) ++ m :: l₂.filter (hasKey sh.job.key) := by
    rw [State.project, hnet]
    exact filter_middle l₁ l₂ hkey
  have hsees : Down sh.job T m → ∀ c : Fin n,
      SeesTree T c (s.vans (serverRankToID c)).parents (s.vans (serverRankToID c)).sons := by
    intro hdown c
    have hpos := hA.linked.updates_pos (List.mem_filter.mpr ⟨hm, hkey⟩) hdown
    have htouched : t.Touched c := .inr (.inr (List.ne_nil_of_length_pos hpos))
    exact h.sees_of_switched hA (hA.switched c htouched)
  obtain ⟨v', out', sent', acc', hreceive', hperform', hvan, harr, hlinked⟩ :=
    hA.linked.deliver (hsys.setting hsh) h.tables.cluster hproj hsees queue queues
  have hsame := hreceive.symm.trans hreceive'
  rw [Option.some.injEq, Prod.mk.injEq] at hsame
  obtain ⟨rfl, rfl⟩ := hsame
  have hsame := hperform.symm.trans hperform'
  rw [Option.some.injEq, Prod.mk.injEq] at hsame
  obtain ⟨rfl, rfl⟩ := hsame
  have hsentKey : ∀ m' ∈ sent, hasKey sh.job.key m' = true := fun m' hm' =>
    hasKey_net hlinked (List.mem_append_right _ hm')
  have haccKey : ∀ e ∈ acc, hasKey sh.job.key e.2 = true := fun e he =>
    hasKey_inbox hlinked (List.mem_append_right _ he)
  set s' : State n := { s with
    vans := Function.update s.vans m.recver v
    net := l₁ ++ l₂ ++ sent
    inbox := s.inbox ++ acc }
  obtain ⟨htables, hswitched⟩ : TablesOk sys appId s' ∧ ∀ c, Switched s c → Switched s' c :=
    h.tables.deliver hvan _ _
  have hc := h.control
  refine ⟨⟨hc.workers, hc.behind, hc.resumes, hc.once, hc.resumesOnce, hc.notices, hc.asked,
    hc.future, hc.sentOnce, hc.started⟩, htables,
    h.data.shard hsys hsh rfl rfl rfl (fun m' hm' => ?_) (fun e he => ?_) (fun key hne => ?_)
      (fun key hne => ?_) (fun _ _ _ => rfl) (fun _ _ => rfl) (fun _ _ => rfl)
      (fun c m' hm' => ?_) hswitched ⟨T, t, updates, hA.root, hA.sees, hA.inv, ?_,
        fun c hc => hswitched c (hA.switched c hc)⟩⟩
  · rcases List.mem_append.mp hm' with hm' | hm'
    · exact .inl (mem_of_mem_taken hnet hm')
    · exact .inr (hsentKey m' hm')
  · rcases List.mem_append.mp he with he | he
    · exact .inl he
    · exact .inr (haccKey e he)
  · rw [List.filter_append, filter_other hne hsentKey, List.append_nil]
    exact filter_taken hnet (hasKey_eq_false hne hkey)
  · simp [s', List.filter_append, filter_other_snd hne haccKey]
  · rcases List.mem_append.mp hm' with hm' | hm'
    · exact h.data.arrived c m' hm'
    · rcases hlinked.inbox _ (List.mem_append_right _ hm') with ⟨x, a, hx⟩ | ⟨⟨w, hw⟩, -⟩
      · obtain ⟨hrecver, hp, hfinal⟩ := harr _ hm' x a hx
        have htarget : x.target T = c := by
          have := hx.at_target
          simp only [serverRankToID_inj, Fin.val_inj] at this
          exact this.symm
        exact h.not_awaits_of_arrived hA hm hok hp htarget hrecver.symm hfinal
      · exact absurd hw (by simp)
  · refine hlinked.congr ?_ ?_ (fun _ => rfl) rfl rfl rfl
    · have hall := List.filter_eq_self.mpr hsentKey
      simp [s', State.project, List.filter_append, hall]
    · have hall : (acc.filter fun e => hasKey sh.job.key e.2) = acc :=
        List.filter_eq_self.mpr haccKey
      simp [s', State.project, List.filter_append, hall]

/-- The tables that a waiting push is handled with are those in force. -/
theorem Safe.refresh_of_arrived (hsys : sys.Sound appId) (h : Safe sys appId s) {c : Fin n}
    {m : Message NDArray} (hm : (serverRankToID c, m) ∈ s.inbox) :
    m.iters = s.iter ∧
      ((s.kvs c).refresh (s.vans (serverRankToID c)) m).2.initFlag = true ∧
      (((s.kvs c).refresh (s.vans (serverRankToID c)) m).2.parents,
        ((s.kvs c).refresh (s.vans (serverRankToID c)) m).2.sons) = s.inForce c ∧
      (((s.kvs c).refresh (s.vans (serverRankToID c)) m).1.parents,
        ((s.kvs c).refresh (s.vans (serverRankToID c)) m).1.sons) = s.inForce c := by
  obtain ⟨sh, hsh, hkey⟩ := h.data.inbox _ hm
  obtain ⟨T, t, updates, hA⟩ := h.data.shards sh hsh
  have hmem : (serverRankToID c, m) ∈ (s.project sh.job.key updates).inbox :=
    List.mem_filter.mpr ⟨hm, hkey⟩
  have hiters : m.iters = s.iter := by
    rcases hA.linked.inbox _ hmem with ⟨x, a, he⟩ | ⟨⟨w, hw⟩, -⟩
    · obtain ⟨w, r, hiters⟩ := he.push.iters
      exact hiters.trans (hsys.iters hsh w r)
    · exact absurd hw (by simp)
  refine ⟨hiters, (h.tables.adopted c (h.data.arrived c m hm)).refresh m fun hflag heq => ?_⟩
  have hbound := h.tables.bound
  rcases h.tables.late c (.inr hflag) with hlate | hlate
  · omega
  · omega

theorem Safe.handle (hsys : sys.Sound appId) (h : Safe sys appId s)
    {l₁ l₂ : List (ℤ × Message NDArray)} {c : Fin n} {m : Message NDArray}
    (hinbox : s.inbox = l₁ ++ (serverRankToID c, m) :: l₂) {unset : ℤ} {queue : ℤ → ℕ}
    {queues : ℕ → ℤ → ℕ} {kv : KVServer} {v : Van} {hd : Handled}
    {sent : List (List (Message NDArray))}
    (hprocess : (s.kvs c).process (sys.cfg c) (s.vans (serverRankToID c)) unset (s.servers c) m =
      some (kv, v, hd))
    (hcalls : hd.calls.mapM (kv.call v queue queues) = some sent) :
    Safe sys appId { s with
      vans := Function.update s.vans (serverRankToID c) v
      kvs := Function.update s.kvs c kv
      servers := Function.update s.servers c hd.server
      net := s.net ++ sent.flatten
      inbox := l₁ ++ l₂ } := by
  have hm : (serverRankToID c, m) ∈ s.inbox := hinbox ▸ by simp
  obtain ⟨sh, hsh, hkey⟩ := h.data.inbox _ hm
  obtain ⟨T, t, updates, hA⟩ := h.data.shards sh hsh
  obtain ⟨hiters, hflag, hvanTables, hkvTables⟩ := h.refresh_of_arrived hsys hm
  have hproj : (s.project sh.job.key updates).inbox = (l₁.filter fun e => hasKey sh.job.key e.2) ++
      (serverRankToID c, m) :: l₂.filter fun e => hasKey sh.job.key e.2 := by
    rw [State.project, hinbox]
    exact filter_middle (p := fun e => hasKey sh.job.key e.2) l₁ l₂ hkey
  have hsees : SeesTree T c ((s.kvs c).refresh (s.vans (serverRankToID c)) m).1.parents
      ((s.kvs c).refresh (s.vans (serverRankToID c)) m).1.sons := by
    have hsees := hA.sees c
    rwa [← hkvTables] at hsees
  have happ : (s.kvs c).appId = sh.job.appId := (h.tables.appId c).trans (hsys.appId hsh).symm
  obtain ⟨sent', x, a, rest, hcalls', hrefresh, htarget, hflying, hlinked⟩ :=
    hA.linked.handle (hsys.setting hsh) (fun c => views_unseen (sys.cfg c)) h.tables.cluster hA.inv
      hA.root hproj happ hsees hprocess
  obtain rfl := Option.some.inj (hcalls.symm.trans hcalls')
  have hrefresh' : (s.kvs c).refresh (s.vans (serverRankToID c)) m = (kv, v) := hrefresh
  have hlike := (s.kvs c).refresh_like (s.vans (serverRankToID c)) m
  have happ' := ((s.kvs c).refresh_appId (s.vans (serverRankToID c)) m).trans (h.tables.appId c)
  have hnumber := refresh_iters (s.kvs c) (s.vans (serverRankToID c)) m
  rw [hrefresh'] at hflag hvanTables hkvTables hlike happ' hnumber
  dsimp only at hflag hvanTables hkvTables hlike happ' hnumber
  have hawait := h.data.arrived c m hm
  have hsentKey : ∀ m' ∈ sent.flatten, hasKey sh.job.key m' = true := fun m' hm' =>
    hasKey_net hlinked (List.mem_append_right _ hm')
  have hsub : ∀ e, e ∈ l₁ ++ l₂ → e ∈ s.inbox := fun _ => mem_of_mem_taken hinbox
  set s' : State n := { s with
    vans := Function.update s.vans (serverRankToID c) v
    kvs := Function.update s.kvs c kv
    servers := Function.update s.servers c hd.server
    net := s.net ++ sent.flatten
    inbox := l₁ ++ l₂ } with hs'
  have hswitched : ∀ c', Switched s c' → Switched s' c' :=
    switched_of_update rfl (fun _ ha => ha) fun _ => hflag
  have hc := h.control
  refine ⟨⟨hc.workers, hc.behind, hc.resumes, hc.once, hc.resumesOnce, hc.notices, hc.asked,
    hc.future, hc.sentOnce, hc.started⟩,
    h.tables.server rfl rfl rfl rfl rfl rfl (fun _ _ _ => Iff.rfl) (h.tables.cluster.update hlike)
      happ' ?_ (fun hor => ?_) (fun _ => .inl ⟨hflag, hvanTables, hkvTables⟩)
      fun row hrow => ?_,
    h.data.shard hsys hsh rfl rfl rfl (fun m' hm' => ?_) (fun e he => .inl (hsub e he))
      (fun key hne => ?_) (fun key hne => ?_) (fun c' key hslot => ?_) (fun _ _ => rfl)
      (fun _ _ => rfl) (fun c' m' hm' => h.data.arrived c' m' (hsub _ hm')) hswitched
      ⟨T, _, _, hA.root, hA.sees, hA.inv.step (.arrive hflying), hlinked.congr ?_ ?_ (fun _ => rfl)
        rfl rfl rfl, fun c' hc' => ?_⟩⟩
  · rcases hnumber with hn | hn
    · rw [Late, hn]
      exact h.tables.stamp c
    · left
      rw [hn, hiters]
      omega
  · rcases hor with ha | hf
    · exact absurd ha hawait
    · rw [hflag] at hf
      cases hf
  · refine ⟨_, .inl ⟨hflag, hvanTables, hkvTables⟩, .inl ⟨?_, rfl⟩⟩
    by_contra hne
    exact hawait ⟨row, hrow, hne⟩
  · rcases List.mem_append.mp hm' with hm' | hm'
    · exact .inl hm'
    · exact .inr (hsentKey m' hm')
  · simp [s', List.filter_append, filter_other hne hsentKey]
  · exact filter_taken (p := fun e => hasKey key e.2) hinbox (hasKey_eq_false hne hkey)
  · by_cases he : c' = c
    · subst he
      simpa [s'] using KVServer.process_sameElsewhere hprocess (hasKey_iff.mp hkey) hslot
    · simp [s', he]
  · have hall := List.filter_eq_self.mpr hsentKey
    simp [s', State.project, State.handled, List.filter_append, hall]
  · simp [s', State.project, State.handled, List.filter_append]
  · by_cases he : c' = c
    · subst he
      exact ⟨hawait, by simpa [s'] using hflag⟩
    · refine hswitched c' (hA.switched c' (hA.inv.touched_of_arrive hflying hc' ?_))
      rwa [htarget]

theorem Safe.response (hsys : sys.Sound appId) (h : Safe sys appId s)
    {l₁ l₂ : List (ℤ × Message NDArray)} {w : Fin n} {m : Message NDArray} {key : ℕ}
    (hinbox : s.inbox = l₁ ++ (workerRankToID w, m) :: l₂) (hkey : hasKey key m = true) :
    Safe sys appId { s with
      inbox := l₁ ++ l₂
      received := count s.received (s.workerIter w) key w } := by
  have hm : (workerRankToID w, m) ∈ s.inbox := hinbox ▸ by simp
  obtain ⟨sh, hsh, hkey'⟩ := h.data.inbox _ hm
  obtain rfl := hasKey_unique hkey' hkey
  obtain ⟨T, t, updates, hA⟩ := h.data.shards sh hsh
  have hproj : (s.project sh.job.key updates).inbox = (l₁.filter fun e => hasKey sh.job.key e.2) ++
      (workerRankToID w, m) :: l₂.filter fun e => hasKey sh.job.key e.2 := by
    rw [State.project, hinbox]
    exact filter_middle (p := fun e => hasKey sh.job.key e.2) l₁ l₂ hkey'
  have hlinked := hA.linked.response hproj
  have hw : s.workerIter w = s.iter := by
    have hpos : 0 < receivedBy w (s.project sh.job.key updates).inbox := by
      rw [hproj]
      exact List.countP_pos_iff.mpr ⟨(workerRankToID w, m), by simp, by simp⟩
    have hanswered := hA.linked.answered w
    have hsent := hA.linked.sent w
    have hne : (s.project sh.job.key updates).sent w ≠ 0 := by omega
    exact h.control.started sh.job.key w hne
  rw [hw]
  have hsub : ∀ e, e ∈ l₁ ++ l₂ → e ∈ s.inbox := fun _ => mem_of_mem_taken hinbox
  have hc := h.control
  have ht := h.tables
  refine ⟨⟨hc.workers, hc.behind, hc.resumes, hc.once, hc.resumesOnce, hc.notices,
    fun w' hwait hiter sh' hsh' => ?_, fun t key w' hlt => ⟨(hc.future t key w' hlt).1, ?_⟩,
    hc.sentOnce, hc.started⟩, ⟨ht.cluster, ht.appId, ht.decided, ht.measured, ht.bound, ht.stamp,
    ht.late, ht.adopted, ht.awaiting⟩,
    h.data.shard hsys hsh rfl rfl rfl (fun m' hm' => .inl hm') (fun e he => .inl (hsub e he))
      (fun _ _ => rfl) (fun key hne => ?_) (fun _ _ _ => rfl) (fun _ _ => rfl)
      (fun key hne => ?_) (fun c m' hm' => h.data.arrived c m' (hsub _ hm')) (fun _ hs => hs)
      ⟨T, t, updates, hA.root, hA.sees, hA.inv, hlinked.congr rfl ?_ (fun _ => rfl)
        rfl ?_ rfl, hA.switched⟩⟩
  · have := hc.asked w' hwait hiter sh' hsh'
    simp only [count]
    omega
  · have hne : t ≠ s.iter := Nat.ne_of_gt hlt
    simp [count, hne, (hc.future t key w' hlt).2]
  · exact filter_taken (p := fun e => hasKey key e.2) hinbox (hasKey_eq_false hne hkey)
  · funext w'
    simp [count, hne]
  · simp [State.project, List.filter_append]
  · funext w'
    by_cases he : w' = w
    · subst he
      simp [State.project, count]
    · simp [State.project, count, he]

end DataSteps

section Barrier
variable {n : ℕ} {sys : System n} {appId : ℤ} {s : State n}

/-- When every worker waits for the next release, nothing is left of the iteration. -/
theorem Safe.quiet (h : Safe sys appId s)
    (hall : ∀ w, s.waiting w = true ∧ s.workerIter w = s.iter) :
    s.net = [] ∧ s.inbox = [] ∧ ∀ c key, ((s.servers c).updateBuf (slot key)).request = [] := by
  have hshard : ∀ sh ∈ sys.plan s.iter s.perf, ∃ updates,
      (s.project sh.job.key updates).net = [] ∧ (s.project sh.job.key updates).inbox = [] ∧
        ∀ c, (s.project sh.job.key updates).requests sh.job c = [] := by
    intro sh hsh
    obtain ⟨T, t, updates, hA⟩ := h.data.shards sh hsh
    have hread : ∀ w, w ∉ t.pushed ∧ (s.project sh.job.key updates).received w =
        t.updates.length := by
      intro w
      have hasked := h.control.asked w (hall w).1 (hall w).2 sh hsh
      have hone := h.control.sentOnce sh.job.key w
      have hanswered := hA.linked.answered w
      have hsent := hA.linked.sent w
      simp only [State.project] at hanswered hsent ⊢
      split_ifs at hsent with hw
      · omega
      · exact ⟨hw, by omega⟩
    have hpushed : t.pushed = ∅ := Finset.eq_empty_of_forall_notMem fun w => (hread w).1
    exact ⟨updates, hA.linked.quiet hA.inv hpushed fun w => (hread w).2⟩
  refine ⟨?_, ?_, fun c key => ?_⟩
  · refine List.eq_nil_iff_forall_not_mem.mpr fun m hm => ?_
    obtain ⟨sh, hsh, hkey⟩ := h.data.net m hm
    obtain ⟨updates, hnet, -⟩ := hshard sh hsh
    exact List.eq_nil_iff_forall_not_mem.mp hnet m (List.mem_filter.mpr ⟨hm, hkey⟩)
  · refine List.eq_nil_iff_forall_not_mem.mpr fun e he => ?_
    obtain ⟨sh, hsh, hkey⟩ := h.data.inbox e he
    obtain ⟨updates, -, hinbox, -⟩ := hshard sh hsh
    exact List.eq_nil_iff_forall_not_mem.mp hinbox e (List.mem_filter.mpr ⟨he, hkey⟩)
  · by_cases hkey : ∃ sh ∈ sys.plan s.iter s.perf, slot sh.job.key = slot key
    · obtain ⟨sh, hsh, hslot⟩ := hkey
      obtain ⟨updates, -, -, hrequests⟩ := hshard sh hsh
      rw [← hslot]
      exact hrequests c
    · push Not at hkey
      exact h.data.elsewhere c key hkey

/-- The vectors of a release, and the policy that is in force after it. -/
theorem TablesOk.decide (ht : TablesOk sys appId s) {v : SchedulerVan} {policy : List (List ℚ)}
    (hrun : s.scheduler.processRouteReleaseCommand n = some (v, some policy)) :
    s.scheduler.notifyCount + 1 = n ∧ v.notifyCount = 0 ∧ v.perfUpdateFlag = false ∧
      policy.length = n ∧
      (∀ c : Fin n, Brings c (policy.getD c []) (s.inForce c)
        (released n c (policy.getD c []) (s.inForce c))) ∧
      Decided sys (if s.scheduler.perfUpdateFlag = true then s.scheduler.perf else s.perf)
        fun c => released n c (policy.getD c []) (s.inForce c) := by
  rw [SchedulerVan.processRouteReleaseCommand] at hrun
  split_ifs at hrun with hcount hflag
  · obtain ⟨policy', hdecision, hrun⟩ := Option.bind_eq_some_iff.mp hrun
    obtain ⟨rfl, hpolicy⟩ := Prod.mk.inj (Option.some.inj hrun)
    obtain rfl := Option.some.inj hpolicy
    obtain ⟨hlen, links, hroute⟩ := ht.measured hflag
    obtain ⟨nextHops, hlist⟩ : ∃ nextHops, nextHopList n s.scheduler.route = some nextHops := by
      obtain ⟨nextHops, hlist, -⟩ := Option.bind_eq_some_iff.mp hdecision
      exact ⟨nextHops, hlist⟩
    have hpolicy := hdecision.symm.trans (policyDecision_eq hlen hlist)
    rw [Option.some.injEq] at hpolicy
    have hrow : ∀ c : Fin n, policy'.getD c [] = policyRow n s.scheduler.perf nextHops c := by
      intro c
      simp [hpolicy]
    have hne : ∀ c : Fin n, policyRow n s.scheduler.perf nextHops c ≠ [] := by
      intro c hnil
      have := congrArg List.length hnil
      simp only [policyRow, List.length_append, hlen, List.length_nil] at this
      have := c.isLt
      omega
    have hparse := fun c : Fin n => parsePolicy_policyRow hlen nextHops c
    have hreleased : ∀ c : Fin n, parsePolicy n (serverRankToID c)
        (policyRow n s.scheduler.perf nextHops c) = some ⟨s.scheduler.perf,
          (released n c (policyRow n s.scheduler.perf nextHops c) (s.inForce c)).1,
          (released n c (policyRow n s.scheduler.perf nextHops c) (s.inForce c)).2⟩ := by
      intro c
      simp only [released, hne c, if_false, hparse c, Option.map_some, Option.getD_some]
    refine ⟨hcount, rfl, rfl, by simp [hpolicy], fun c => ?_, s.scheduler.route, ?_, fun c => ?_⟩
    · rw [hrow c]
      exact .inr ⟨hne c, _, hreleased c⟩
    · rw [if_pos hflag]
      exact ⟨hlen, links, hroute⟩
    · dsimp only
      rw [if_pos hflag, hrow c]
      refine ⟨policy', policyRow n s.scheduler.perf nextHops c, hdecision, ?_, hreleased c⟩
      simp [hpolicy]
  · obtain ⟨rfl, hpolicy⟩ := Prod.mk.inj (Option.some.inj hrun)
    obtain rfl := Option.some.inj hpolicy
    have hrow : ∀ c : Fin n, (List.replicate n ([] : List ℚ)).getD c [] = [] := by
      intro c
      simp
    have hkeep : ∀ c : Fin n, released n c ((List.replicate n ([] : List ℚ)).getD c [])
        (s.inForce c) = s.inForce c := by
      intro c
      rw [hrow, released, if_pos rfl]
    refine ⟨hcount, rfl, by simpa using hflag, by simp, fun c => .inl ⟨hrow c, (hkeep c).symm⟩, ?_⟩
    rw [if_neg hflag, funext hkeep]
    rcases ht.decided with hdec | ⟨-, hflag'⟩
    · exact hdec
    · exact absurd hflag' hflag
  · cases (Prod.mk.inj (Option.some.inj hrun)).2

theorem mem_zip_finRange {α : Type*} {l : List α} (hl : l.length = n) {d : α} {c : Fin n} {a : α} :
    (c, a) ∈ (List.finRange n).zip l ↔ a = l.getD c d := by
  have hc : (c : ℕ) < l.length := hl ▸ c.isLt
  constructor
  · intro hmem
    obtain ⟨i, hi, heq⟩ := List.getElem_of_mem hmem
    rw [List.getElem_zip, Prod.mk.injEq, List.getElem_finRange] at heq
    obtain ⟨rfl, rfl⟩ := heq
    exact (List.getD_eq_getElem l d hc).symm
  · rintro rfl
    refine List.mem_iff_getElem.mpr ⟨c, by simp [hl], ?_⟩
    rw [List.getElem_zip, List.getD_eq_getElem l d hc]
    simp

/-- When the scheduler has counted all workers, every worker waits and nothing of the last
release is left. -/
theorem Control.all_waiting (hc : Control sys s) {l₁ l₂ : List (Fin n)} {w : Fin n}
    (hnotices : s.notices = l₁ ++ w :: l₂) (hcount : s.scheduler.notifyCount + 1 = n) :
    (∀ w, s.waiting w = true ∧ s.workerIter w = s.iter) ∧ l₁ ++ l₂ = [] ∧ s.releases = [] ∧
      s.resumes = [] := by
  have hcard := hc.notices
  rw [hnotices, List.length_append, List.length_cons] at hcard
  have hle := Finset.card_le_univ
    (Finset.univ.filter fun w => s.waiting w = true ∧ s.workerIter w = s.iter)
  rw [Fintype.card_fin] at hle
  have hall : ∀ w, s.waiting w = true ∧ s.workerIter w = s.iter := by
    have huniv := (Finset.card_eq_iff_eq_univ (Finset.univ.filter fun w =>
      s.waiting w = true ∧ s.workerIter w = s.iter)).mp (by rw [Fintype.card_fin]; omega)
    intro w
    have hw := Finset.mem_univ w
    rw [← huniv, Finset.mem_filter] at hw
    exact hw.2
  refine ⟨hall, ?_, List.eq_nil_iff_forall_not_mem.mpr fun e he => ?_,
    List.eq_nil_iff_forall_not_mem.mpr fun c hmem => ?_⟩
  · rw [← List.length_eq_zero_iff, List.length_append]
    omega
  · have := hc.behind e.1 e.2 he
    have := (hall e.1).2
    omega
  · have := (hc.resumes c hmem).1
    have := (hall c).2
    omega

theorem Safe.barrier (hsys : sys.Sound appId) (h : Safe sys appId s) {l₁ l₂ : List (Fin n)}
    {w : Fin n} (hnotices : s.notices = l₁ ++ w :: l₂) {v : SchedulerVan} {policy : List (List ℚ)}
    (hint : (s.iter : ℤ) + 1 < kEmpty)
    (hrun : s.scheduler.processRouteReleaseCommand n = some (v, some policy)) :
    Safe sys appId { s with
      scheduler := v
      notices := l₁ ++ l₂
      releases := s.releases ++ (List.finRange n).zip policy
      iter := s.iter + 1
      perf := if s.scheduler.perfUpdateFlag = true then s.scheduler.perf else s.perf
      inForce := fun c => released n c (policy.getD c []) (s.inForce c) } := by
  have hc := h.control
  have ht := h.tables
  obtain ⟨hcount, hzero, hflag, hlen, hbrings, hdecided⟩ := ht.decide hrun
  obtain ⟨hall, hnil, hreleases, hresumes⟩ := hc.all_waiting hnotices hcount
  have hadopted : ∀ c : Fin n, Adopts (s.vans (serverRankToID c)) (s.kvs c) (s.inForce c) := by
    refine fun c => ht.adopted c ?_
    rintro ⟨row, hrow, -⟩
    rw [hreleases] at hrow
    cases hrow
  obtain ⟨hnet, hinbox, hempty⟩ := h.quiet hall
  rw [hreleases, List.nil_append, hnil]
  set s' : State n := { s with
    scheduler := v
    notices := []
    releases := (List.finRange n).zip policy
    iter := s.iter + 1
    perf := if s.scheduler.perfUpdateFlag = true then s.scheduler.perf else s.perf
    inForce := fun c => released n c (policy.getD c []) (s.inForce c) }
  have hmem : ∀ c row, (c, row) ∈ s'.releases ↔ row = policy.getD c [] := fun c row =>
    mem_zip_finRange hlen
  have hbehind : ∀ c, s'.workerIter c + 1 = s'.iter := fun c => congrArg (· + 1) (hall c).2
  refine ⟨⟨fun w => .inr ⟨hbehind w, (hall w).1⟩, fun c _ _ => hbehind c, ?_, ?_, hc.resumesOnce, ?_,
    fun w _ hiter => ?_, fun t key w hlt => hc.future t key w ((Nat.lt_succ_self _).trans hlt),
    fun key w => ?_, fun key w hne => ?_⟩,
    ⟨ht.cluster, ht.appId, .inl hdecided, ?_, by simpa [s'] using hint,
      fun c => (ht.stamp c).mono (Nat.le_succ _), fun c _ => ht.stamp c,
      fun c hno => ?_, fun c row hrow => ?_⟩,
    ⟨?_, ?_, fun c key _ => hempty c key, ?_, fun sh hsh => ?_⟩⟩
  · rw [show s'.resumes = [] from hresumes]
    simp
  · have hfst : ((List.finRange n).zip policy).map Prod.fst = List.finRange n :=
      List.map_fst_zip (by simp [hlen])
    rw [show s'.releases.map Prod.fst = List.finRange n from hfst]
    exact List.nodup_finRange n
  · have hnone : (Finset.univ.filter fun w => s'.waiting w = true ∧ s'.workerIter w = s'.iter) =
        ∅ := by
      refine Finset.filter_eq_empty_iff.mpr fun w _ hw => ?_
      have := hbehind w
      omega
    rw [hnone, Finset.card_empty]
    simp [s', hzero]
  · have := hbehind w
    omega
  · have := (hc.future (s.iter + 1) key w (Nat.lt_succ_self _)).1
    simp [s', this]
  · exact absurd (hc.future (s.iter + 1) key w (Nat.lt_succ_self _)).1 hne
  · intro htrue
    rw [show s'.scheduler.perfUpdateFlag = false from hflag] at htrue
    cases htrue
  · rcases hbrings c with ⟨-, hsame⟩ | ⟨hne, -⟩
    · have hforce : s'.inForce c = s.inForce c := hsame.symm
      rw [hforce]
      exact hadopted c
    · exact absurd ⟨_, (hmem c _).mpr rfl, hne⟩ hno
  · obtain rfl := (hmem c row).mp hrow
    exact ⟨s.inForce c, hadopted c, hbrings c⟩
  · rw [show s'.net = [] from hnet]
    simp
  · rw [show s'.inbox = [] from hinbox]
    simp
  · rw [show s'.inbox = [] from hinbox]
    simp
  · obtain ⟨route, ⟨hperf, links, hroute⟩, hinstalled⟩ := hdecided
    obtain ⟨T, hroot, hT⟩ := CheapestHops.exists_sees hsys.random hroute hperf sh.job.root
      (hsys.weight hsh)
    have hstarts : (s'.project sh.job.key []).Starts sh.job := by
      refine ⟨?_, ?_, ?_, ?_, rfl, fun c => hempty c sh.job.key⟩
      · simp [State.project, s', hnet]
      · simp [State.project, s', hinbox]
      · funext w
        exact (hc.future (s.iter + 1) sh.job.key w (Nat.lt_succ_self _)).1
      · funext w
        exact (hc.future (s.iter + 1) sh.job.key w (Nat.lt_succ_self _)).2
    refine ⟨T, _, [], hroot.symm, fun c => hT c _ _ (hinstalled c), Inv.init 0, hstarts.linked,
      fun c hc => ?_⟩
    simp [Convergecast.State.Touched] at hc

end Barrier

section Main
variable {n : ℕ} {sys : System n} {appId : ℤ} {s s' : State n}

/-- Every step in order is safe. -/
theorem Safe.step (hsys : sys.Sound appId) (h : Safe sys appId s) (hstep : Step sys InOrder s s') :
    Safe sys appId s' := by
  cases hstep with
  | measure links hroute hperf => exact h.measure links hroute hperf
  | reroute htable => exact h.reroute htable
  | topoUpdate hidle hall => exact h.topoUpdate hidle hall
  | notify hnotices hrun => exact h.notify hnotices hrun
  | barrier hnotices hint hrun => exact h.barrier hsys hnotices hint hrun
  | release hreleases hrun => exact h.release hreleases hrun
  | resume hresumes => exact h.resume hresumes
  | push hidle hplan honce hsend => exact h.push hsys hidle hplan honce hsend
  | deliver hnet hok queue queues hreceive hperform =>
    exact h.deliver hsys hnet hok hreceive hperform
  | handle hinbox unset queue queues hprocess hcalls => exact h.handle hsys hinbox hprocess hcalls
  | response hinbox hkey => exact h.response hsys hinbox hkey
  | other hpush hiters => exact h.other hiters

/-- Before the first iteration: nothing is under way, and a policy is in force or about to be
released. -/
structure Starts (sys : System n) (appId : ℤ) (s : State n) : Prop where
  cluster : Cluster n s.vans
  appId : ∀ c, (s.kvs c).appId = appId
  decided : Decided sys s.perf s.inForce ∨ s.scheduler.perfUpdateFlag = true
  measured : s.scheduler.perfUpdateFlag = true → Measured sys s.scheduler.perf s.scheduler.route
  initFlag : ∀ c : Fin n, (s.vans (serverRankToID c)).initFlag = true
  vanTables : ∀ c : Fin n, ((s.vans (serverRankToID c)).parents,
    (s.vans (serverRankToID c)).sons) = s.inForce c
  kvTables : ∀ c, ((s.kvs c).parents, (s.kvs c).sons) = s.inForce c
  kvIters : ∀ c, (s.kvs c).iters ≤ 0
  notifyCount : s.scheduler.notifyCount = 0
  net : s.net = []
  inbox : s.inbox = []
  notices : s.notices = []
  releases : s.releases = []
  resumes : s.resumes = []
  iter : s.iter = 0
  workerIter : s.workerIter = 0
  waiting : ∀ w, s.waiting w = false
  sent : s.sent = 0
  received : s.received = 0
  requests : ∀ c key, ((s.servers c).updateBuf (slot key)).request = []

/-- The parents and sons that van and `KVServer` of server `c` use. -/
def State.tables (s : State n) (c : Fin n) : Tables × Tables :=
  (((s.vans (serverRankToID c)).parents, (s.vans (serverRankToID c)).sons),
    ((s.kvs c).parents, (s.kvs c).sons))

end Main

end NetStorm.PolicySwitch

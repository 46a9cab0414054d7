import NetStorm.Node
import NetStorm.Library.Steps
import Mathlib.Data.List.Nodup
import Mathlib.Logic.Function.Basic

/-!
# Barriers

A node that calls `Postoffice::Barrier` sends the scheduler a request for a group and sleeps
until `barrier_done_` is set. The scheduler counts the requests for every group, and with the
last one it releases all members. A release does not say which group it is for. Every node has
one customer, and no nodes are shared; handlers are atomic and messages may overtake one another.
-/
namespace NetStorm.Barrier

/-- The numbers of workers and servers. -/
structure Cluster where
  numWorkers : ℕ
  numServers : ℕ

/-- `Postoffice::GetNodeIDs`, as `Postoffice::Start` fills the table: the bits of a group are the
scheduler, the servers and the workers; any other number is a node. -/
def Cluster.getNodeIDs (c : Cluster) (group : ℕ) : List ℤ :=
  if group < 8 then
    (if group.testBit 2 then (List.range c.numWorkers).map workerRankToID else []) ++
      (if group.testBit 1 then (List.range c.numServers).map serverRankToID else []) ++
      (if group.testBit 0 then [kScheduler] else [])
  else [(group : ℤ)]

theorem Cluster.nodup_getNodeIDs (c : Cluster) (group : ℕ) : (c.getNodeIDs group).Nodup := by
  have hw : ((List.range c.numWorkers).map workerRankToID).Nodup :=
    List.nodup_range.map workerRankToID_injective
  have hs : ((List.range c.numServers).map serverRankToID).Nodup :=
    List.nodup_range.map serverRankToID_injective
  have hk : ∀ a : ℕ, workerRankToID a ≠ kScheduler ∧ serverRankToID a ≠ kScheduler := by
    intro a
    simp only [workerRankToID, serverRankToID, kScheduler]
    omega
  rw [Cluster.getNodeIDs]
  split
  · refine List.nodup_append.mpr ⟨List.nodup_append.mpr ⟨?_, ?_, ?_⟩, ?_, ?_⟩
    · split_ifs <;> simp [hw]
    · split_ifs <;> simp [hs]
    · split_ifs <;> simp
    · split_ifs <;> simp
    · intro a ha b hb
      have hb : b = kScheduler := by
        split_ifs at hb
        · exact List.mem_singleton.mp hb
        · cases hb
      rw [hb]
      rcases List.mem_append.mp ha with ha | ha
      · split_ifs at ha
        · obtain ⟨i, -, rfl⟩ := List.mem_map.mp ha
          exact (hk i).1
        · cases ha
      · split_ifs at ha
        · obtain ⟨i, -, rfl⟩ := List.mem_map.mp ha
          exact (hk i).2
        · cases ha
  · simp

/-- `Van::ProcessBarrierCommand` on a request: the counters, and the nodes that are released. -/
def processBarrierCommand (c : Cluster) (barrierCount : ℕ → ℕ) (group : ℕ) :
    (ℕ → ℕ) × List ℤ :=
  if barrierCount group + 1 = (c.getNodeIDs group).length then
    (Function.update barrierCount group 0, c.getNodeIDs group)
  else (Function.update barrierCount group (barrierCount group + 1), [])

/-- A node: the group of the barrier it waits in, `barrier_done_`, and for every group how often
it has entered and left a barrier, how many of its requests the scheduler has received, and how
many releases the scheduler has sent to it. -/
structure Member where
  waits : Option ℕ := none
  barrierDone : Bool := false
  entered : ℕ → ℕ := fun _ => 0
  received : ℕ → ℕ := fun _ => 0
  released : ℕ → ℕ := fun _ => 0
  returned : ℕ → ℕ := fun _ => 0

/-- The counters of the scheduler, the nodes, and the requests and releases in flight. The group
of a release is not on the wire. The barriers that were completed are counted by group. -/
structure State where
  barrierCount : ℕ → ℕ := fun _ => 0
  members : ℤ → Member := fun _ => {}
  requests : List (ℤ × ℕ) := []
  releases : List (ℤ × ℕ) := []
  completed : ℕ → ℕ := fun _ => 0

/-- One more for group `g`. -/
def bump (f : ℕ → ℕ) (g : ℕ) : ℕ → ℕ := Function.update f g (f g + 1)

/-- The request of `n` for `g` has been received, and the given nodes are released. -/
def receiveRequest (members : ℤ → Member) (n : ℤ) (g : ℕ) (out : List ℤ) : ℤ → Member :=
  fun r => { members r with
    received := if r = n then bump (members r).received g else (members r).received
    released := if r ∈ out then bump (members r).released g else (members r).released }

/-- One step of the nodes and the scheduler. -/
inductive Step (c : Cluster) : State → State → Prop
  | enter {s : State} {n : ℤ} {g : ℕ} (hidle : (s.members n).waits = none)
      (hmem : n ∈ c.getNodeIDs g) (hsize : 1 < (c.getNodeIDs g).length) :
      Step c s { s with
        requests := s.requests ++ [(n, g)]
        members := Function.update s.members n
          { s.members n with
            waits := some g
            barrierDone := false
            entered := bump (s.members n).entered g } }
  | request {s : State} {l₁ l₂ : List (ℤ × ℕ)} {n : ℤ} {g : ℕ}
      (hrequests : s.requests = l₁ ++ (n, g) :: l₂) {count : ℕ → ℕ} {out : List ℤ}
      (hrun : processBarrierCommand c s.barrierCount g = (count, out)) :
      Step c s { s with
        barrierCount := count
        requests := l₁ ++ l₂
        releases := s.releases ++ out.map fun r => (r, g)
        members := receiveRequest s.members n g out
        completed := if out = [] then s.completed else bump s.completed g }
  | manage {s : State} {l₁ l₂ : List (ℤ × ℕ)} {n : ℤ} {g : ℕ}
      (hreleases : s.releases = l₁ ++ (n, g) :: l₂) :
      Step c s { s with
        releases := l₁ ++ l₂
        members := Function.update s.members n { s.members n with barrierDone := true } }
  | leave {s : State} {n : ℤ} {g : ℕ} (hwaits : (s.members n).waits = some g)
      (hdone : (s.members n).barrierDone = true) :
      Step c s { s with
        members := Function.update s.members n
          { s.members n with
            waits := none
            returned := bump (s.members n).returned g } }

/-- The groups of the messages from or to `n`. -/
def groupsOf (n : ℤ) (l : List (ℤ × ℕ)) : List ℕ := (l.filter fun e => e.1 = n).map Prod.snd

theorem groupsOf_append (n : ℤ) (l₁ l₂ : List (ℤ × ℕ)) :
    groupsOf n (l₁ ++ l₂) = groupsOf n l₁ ++ groupsOf n l₂ := by
  simp [groupsOf]

theorem groupsOf_cons_self (n : ℤ) (g : ℕ) (l : List (ℤ × ℕ)) :
    groupsOf n ((n, g) :: l) = g :: groupsOf n l := by
  simp [groupsOf]

theorem groupsOf_cons_of_ne {n n' : ℤ} (h : n' ≠ n) (g : ℕ) (l : List (ℤ × ℕ)) :
    groupsOf n ((n', g) :: l) = groupsOf n l := by
  simp [groupsOf, h]

/-- Counters that differ from the barriers left by the given numbers for group `g`, and by
nothing for the others. -/
structure Counts (m : Member) (g : ℕ) (entered received released : ℕ) : Prop where
  entered : ∀ k, m.entered k = m.returned k + if k = g then entered else 0
  received : ∀ k, m.received k = m.returned k + if k = g then received else 0
  released : ∀ k, m.released k = m.returned k + if k = g then released else 0

/-- What node `n` may be doing. -/
inductive Stage (c : Cluster) (n : ℤ) (m : Member) (asks frees : List ℕ) : Prop
  | idle (hwaits : m.waits = none) (hasks : asks = []) (hfrees : frees = [])
      (hcounts : Counts m 0 0 0 0)
  | asked (g : ℕ) (hmem : n ∈ c.getNodeIDs g) (hwaits : m.waits = some g)
      (hdone : m.barrierDone = false) (hasks : asks = [g]) (hfrees : frees = [])
      (hcounts : Counts m g 1 0 0)
  | joined (g : ℕ) (hmem : n ∈ c.getNodeIDs g) (hwaits : m.waits = some g)
      (hdone : m.barrierDone = false) (hasks : asks = []) (hfrees : frees = [])
      (hcounts : Counts m g 1 1 0)
  | released (g : ℕ) (hmem : n ∈ c.getNodeIDs g) (hwaits : m.waits = some g)
      (hdone : m.barrierDone = false) (hasks : asks = []) (hfrees : frees = [g])
      (hcounts : Counts m g 1 1 1)
  | done (g : ℕ) (hmem : n ∈ c.getNodeIDs g) (hwaits : m.waits = some g)
      (hdone : m.barrierDone = true) (hasks : asks = []) (hfrees : frees = [])
      (hcounts : Counts m g 1 1 1)

/-- The members of group `g` whose request was received and that have not been released. -/
def waiting (c : Cluster) (s : State) (g : ℕ) : ℕ :=
  (c.getNodeIDs g).countP fun r => (s.members r).released g < (s.members r).received g

/-- The invariant. -/
structure Synchronised (c : Cluster) (s : State) : Prop where
  stage : ∀ n, Stage c n (s.members n) (groupsOf n s.requests) (groupsOf n s.releases)
  count : ∀ g, s.barrierCount g = waiting c s g
  completed : ∀ g, ∀ n ∈ c.getNodeIDs g, (s.members n).released g = s.completed g

theorem bump_self (f : ℕ → ℕ) (g : ℕ) : bump f g g = f g + 1 := Function.update_self ..

theorem bump_of_ne (f : ℕ → ℕ) {g k : ℕ} (h : k ≠ g) : bump f g k = f k :=
  Function.update_of_ne h ..

theorem groupsOf_map {l : List ℤ} (hl : l.Nodup) (n : ℤ) (g : ℕ) :
    groupsOf n (l.map fun r => (r, g)) = if n ∈ l then [g] else [] := by
  induction l with
  | nil => rfl
  | cons r l ih =>
    obtain ⟨hr, hl⟩ := List.nodup_cons.mp hl
    rw [List.map_cons]
    by_cases hn : r = n
    · subst hn
      rw [groupsOf_cons_self, ih hl, if_neg hr, if_pos (List.mem_cons_self ..)]
    · rw [groupsOf_cons_of_ne hn, ih hl]
      simp [Ne.symm hn]

/-- A request that is taken out of the network. -/
theorem groupsOf_remove {n : ℤ} {g : ℕ} {l l₁ l₂ : List (ℤ × ℕ)} (h : l = l₁ ++ (n, g) :: l₂)
    {n' : ℤ} (hne : n' ≠ n) : groupsOf n' (l₁ ++ l₂) = groupsOf n' l := by
  rw [h, groupsOf_append, groupsOf_append, groupsOf_cons_of_ne hne.symm]

theorem groupsOf_remove_self {n : ℤ} {g k : ℕ} {l l₁ l₂ : List (ℤ × ℕ)}
    (h : l = l₁ ++ (n, g) :: l₂) (hone : groupsOf n l = [k]) :
    g = k ∧ groupsOf n (l₁ ++ l₂) = [] := by
  rw [h, groupsOf_append, groupsOf_cons_self] at hone
  rw [groupsOf_append]
  cases hl₁ : groupsOf n l₁ with
  | nil =>
    rw [hl₁, List.nil_append, List.cons.injEq] at hone
    exact ⟨hone.1, by rw [hone.2, List.nil_append]⟩
  | cons a as =>
    rw [hl₁] at hone
    simp at hone

theorem groupsOf_ne_nil {n : ℤ} {g : ℕ} {l l₁ l₂ : List (ℤ × ℕ)}
    (h : l = l₁ ++ (n, g) :: l₂) : groupsOf n l ≠ [] := by
  rw [h, groupsOf_append, groupsOf_cons_self]
  simp

/-- The counters are those of another group with nothing to count. -/
theorem Counts.zero {m : Member} {g : ℕ} (h : Counts m g 0 0 0) (k : ℕ) : Counts m k 0 0 0 where
  entered j := by simpa using h.entered j
  received j := by simpa using h.received j
  released j := by simpa using h.released j

namespace Stage
variable {c : Cluster} {n : ℤ} {m : Member} {asks frees : List ℕ}

/-- The node with a request in flight. -/
theorem of_asks (h : Stage c n m asks frees) (hasks : asks ≠ []) :
    ∃ g, n ∈ c.getNodeIDs g ∧ m.waits = some g ∧ m.barrierDone = false ∧ asks = [g] ∧
      frees = [] ∧ Counts m g 1 0 0 := by
  cases h with
  | asked g hmem hwaits hdone hasks hfrees hcounts =>
    exact ⟨g, hmem, hwaits, hdone, hasks, hfrees, hcounts⟩
  | idle | joined | released | done => contradiction

/-- The node with a release in flight. -/
theorem of_frees (h : Stage c n m asks frees) (hfrees : frees ≠ []) :
    ∃ g, n ∈ c.getNodeIDs g ∧ m.waits = some g ∧ asks = [] ∧ frees = [g] ∧ Counts m g 1 1 1 := by
  cases h with
  | released g hmem hwaits hdone hasks hfrees hcounts =>
    exact ⟨g, hmem, hwaits, hasks, hfrees, hcounts⟩
  | idle | asked | joined | done => contradiction

/-- The node whose request was received and that has not been released. -/
theorem of_lt {g : ℕ} (h : Stage c n m asks frees) (hlt : m.released g < m.received g) :
    n ∈ c.getNodeIDs g ∧ m.waits = some g ∧ m.barrierDone = false ∧ asks = [] ∧ frees = [] ∧
      Counts m g 1 1 0 := by
  cases h with
  | joined k hmem hwaits hdone hasks hfrees hcounts =>
    have hreceived := hcounts.received g
    have hreleased := hcounts.released g
    obtain rfl : g = k := by
      by_contra hne
      simp only [hne, if_false] at hreceived hreleased
      omega
    exact ⟨hmem, hwaits, hdone, hasks, hfrees, hcounts⟩
  | idle _ _ _ hcounts | asked _ _ _ _ _ _ hcounts | released _ _ _ _ _ _ hcounts
  | done _ _ _ _ _ _ hcounts =>
    have hreceived := hcounts.received g
    have hreleased := hcounts.released g
    split_ifs at hreceived hreleased <;> omega

theorem counters (h : Stage c n m asks frees) (g : ℕ) :
    m.returned g ≤ m.released g ∧ m.released g ≤ m.received g ∧ m.received g ≤ m.entered g := by
  cases h with
  | idle _ _ _ hcounts | asked _ _ _ _ _ _ hcounts | joined _ _ _ _ _ _ hcounts
  | released _ _ _ _ _ _ hcounts | done _ _ _ _ _ _ hcounts =>
    have hentered := hcounts.entered g
    have hreceived := hcounts.received g
    have hreleased := hcounts.released g
    split_ifs at hentered hreceived hreleased <;> omega

end Stage

namespace Synchronised
variable {c : Cluster} {s : State}

theorem start : Synchronised c {} where
  stage n := .idle rfl rfl rfl ⟨by simp, by simp, by simp⟩
  count g := by simp [waiting]
  completed g n _ := rfl

/-- A node moves on, and the counters of the scheduler's messages stay. -/
theorem update (h : Synchronised c s) (requests releases : List (ℤ × ℕ)) {n : ℤ} {m : Member}
    (hreceived : m.received = (s.members n).received)
    (hreleased : m.released = (s.members n).released)
    (hrequests : ∀ n' ≠ n, groupsOf n' requests = groupsOf n' s.requests)
    (hreleases : ∀ n' ≠ n, groupsOf n' releases = groupsOf n' s.releases)
    (hstage : Stage c n m (groupsOf n requests) (groupsOf n releases)) :
    Synchronised c { s with
      requests := requests
      releases := releases
      members := Function.update s.members n m } := by
  have hboth : ∀ r, (Function.update s.members n m r).received = (s.members r).received ∧
      (Function.update s.members n m r).released = (s.members r).released := by
    intro r
    by_cases hr : r = n
    · subst hr
      rw [Function.update_self]
      exact ⟨hreceived, hreleased⟩
    · rw [Function.update_of_ne hr]
      exact ⟨rfl, rfl⟩
  refine ⟨?_, ?_, ?_⟩
  · intro n'
    by_cases hn : n' = n
    · subst hn
      simpa using hstage
    · simpa [hn, hrequests n' hn, hreleases n' hn] using h.stage n'
  · intro g
    rw [h.count g]
    simp only [waiting, (hboth _).1, (hboth _).2]
  · intro g r hr
    simp only [(hboth _).2]
    exact h.completed g r hr

theorem enter (h : Synchronised c s) {n : ℤ} {g : ℕ} (hidle : (s.members n).waits = none)
    (hmem : n ∈ c.getNodeIDs g) :
    Synchronised c { s with
      requests := s.requests ++ [(n, g)]
      members := Function.update s.members n
        { s.members n with
          waits := some g
          barrierDone := false
          entered := bump (s.members n).entered g } } := by
  cases h.stage n with
  | asked _ _ hwaits | joined _ _ hwaits | released _ _ hwaits | done _ _ hwaits =>
    rw [hidle] at hwaits
    cases hwaits
  | idle _ hasks hfrees hcounts =>
    refine h.update _ s.releases rfl rfl ?_ (fun _ _ => rfl) ?_
    · intro n' hn
      rw [groupsOf_append, groupsOf_cons_of_ne hn.symm]
      exact List.append_nil _
    · refine .asked g hmem rfl rfl ?_ hfrees ?_
      · rw [groupsOf_append, hasks, groupsOf_cons_self]
        rfl
      · have hcounts := hcounts.zero g
        refine ⟨fun k => ?_, hcounts.received, hcounts.released⟩
        have hk := hcounts.entered k
        by_cases hne : k = g
        · subst hne
          simpa [bump_self] using hk
        · simpa [bump_of_ne _ hne, hne] using hk

theorem manage (h : Synchronised c s) {l₁ l₂ : List (ℤ × ℕ)} {n : ℤ} {g : ℕ}
    (hreleases : s.releases = l₁ ++ (n, g) :: l₂) :
    Synchronised c { s with
      releases := l₁ ++ l₂
      members := Function.update s.members n { s.members n with barrierDone := true } } := by
  obtain ⟨k, hmem, hwaits, hasks, hfrees, hcounts⟩ :=
    (h.stage n).of_frees (groupsOf_ne_nil hreleases)
  refine h.update s.requests _ rfl rfl (fun _ _ => rfl)
    (fun n' hn => groupsOf_remove hreleases hn) ?_
  exact .done k hmem hwaits rfl hasks (groupsOf_remove_self hreleases hfrees).2
    ⟨hcounts.entered, hcounts.received, hcounts.released⟩

theorem leave (h : Synchronised c s) {n : ℤ} {g : ℕ} (hwaits : (s.members n).waits = some g)
    (hdone : (s.members n).barrierDone = true) :
    Synchronised c { s with
      members := Function.update s.members n
        { s.members n with
          waits := none
          returned := bump (s.members n).returned g } } := by
  cases h.stage n with
  | idle hwaits' =>
    rw [hwaits] at hwaits'
    cases hwaits'
  | asked _ _ _ hdone' | joined _ _ _ hdone' | released _ _ _ hdone' =>
    rw [hdone] at hdone'
    cases hdone'
  | done k _ hwaits' _ hasks hfrees hcounts =>
    obtain rfl : g = k := Option.some.inj (hwaits.symm.trans hwaits')
    refine h.update s.requests s.releases rfl rfl (fun _ _ => rfl) (fun _ _ => rfl)
      (.idle rfl hasks hfrees ?_)
    have hbump : ∀ {f : ℕ → ℕ} {r : ℕ → ℕ}, (∀ k, f k = r k + if k = g then 1 else 0) →
        ∀ k, f k = bump r g k + if k = 0 then 0 else 0 := by
      intro f r hf k
      rw [hf k]
      by_cases hk : k = g
      · subst hk
        simp [bump_self]
      · simp [bump_of_ne _ hk, hk]
    exact ⟨hbump hcounts.entered, hbump hcounts.received, hbump hcounts.released⟩

/-- What a request does to the counters of node `r`, in group `g`. -/
theorem receiveRequest_counts {members : ℤ → Member} (n : ℤ) {r : ℤ} {g : ℕ} (out : List ℤ)
    {received released : ℕ} (h : Counts (members r) g 1 received released) :
    Counts (receiveRequest members n g out r) g 1 (received + if r = n then 1 else 0)
      (released + if r ∈ out then 1 else 0) := by
  have hbump : ∀ {f : ℕ → ℕ} {a : ℕ} {P : Prop} [Decidable P],
      (∀ k, f k = (members r).returned k + if k = g then a else 0) →
      ∀ k, (if P then bump f g else f) k =
        (members r).returned k + if k = g then a + (if P then 1 else 0) else 0 := by
    intro f a P _ hf k
    by_cases hP : P
    · rw [if_pos hP, if_pos hP]
      by_cases hk : k = g
      · subst hk
        rw [bump_self, hf k, if_pos rfl, if_pos rfl, Nat.add_assoc]
      · rw [bump_of_ne _ hk, hf k, if_neg hk, if_neg hk]
    · rw [if_neg hP, if_neg hP, hf k, Nat.add_zero]
  exact ⟨h.entered, hbump h.received, hbump h.released⟩

/-- Nodes that are neither the sender of the request nor released. -/
theorem receiveRequest_of_ne {members : ℤ → Member} {n r : ℤ} {g : ℕ} {out : List ℤ}
    (hn : r ≠ n) (hr : r ∉ out) : receiveRequest members n g out r = members r := by
  rw [receiveRequest, if_neg hn, if_neg hr]

/-- The counters of other groups. -/
theorem receiveRequest_group {members : ℤ → Member} {n r : ℤ} {g k : ℕ} {out : List ℤ}
    (hk : k ≠ g) : (receiveRequest members n g out r).received k = (members r).received k ∧
      (receiveRequest members n g out r).released k = (members r).released k := by
  simp only [receiveRequest]
  constructor
  · split_ifs
    · exact bump_of_ne _ hk
    · rfl
  · split_ifs
    · exact bump_of_ne _ hk
    · rfl

/-- In a list without repetitions one more node satisfies the predicate. -/
theorem countP_insert {l : List ℤ} (hl : l.Nodup) {n : ℤ} (hn : n ∈ l) {p q : ℤ → Bool}
    (hp : p n = false) (hq : q n = true) (h : ∀ r, r ≠ n → q r = p r) :
    l.countP q = l.countP p + 1 := by
  induction l with
  | nil => cases hn
  | cons r l ih =>
    obtain ⟨hr, hl⟩ := List.nodup_cons.mp hl
    rcases List.mem_cons.mp hn with rfl | hn
    · have hsame : l.countP q = l.countP p :=
        List.countP_congr fun x hx => by rw [h x (by rintro rfl; exact hr hx)]
      rw [List.countP_cons_of_pos hq, List.countP_cons_of_neg (by simp [hp]), hsame]
    · have hne : r ≠ n := by
        rintro rfl
        exact hr hn
      rw [List.countP_cons, List.countP_cons, ih hl hn, h r hne]
      omega

theorem waiting_request (h : Synchronised c s) {l₁ l₂ : List (ℤ × ℕ)} {n : ℤ} {g : ℕ}
    (hrequests : s.requests = l₁ ++ (n, g) :: l₂) (s' : State)
    (hs' : s'.members = receiveRequest s.members n g []) :
    waiting c s' g = waiting c s g + 1 := by
  obtain ⟨k, hmem, -, -, hasks, -, hcounts⟩ := (h.stage n).of_asks (groupsOf_ne_nil hrequests)
  obtain rfl := (groupsOf_remove_self hrequests hasks).1
  have hnew := receiveRequest_counts n [] hcounts
  refine countP_insert (c.nodup_getNodeIDs g) hmem ?_ ?_ fun r hr => ?_
  · have hreceived := hcounts.received g
    have hreleased := hcounts.released g
    simp only [if_true] at hreceived hreleased
    rw [decide_eq_false_iff_not]
    omega
  · have hreceived := hnew.received g
    have hreleased := hnew.released g
    simp only [if_true, List.not_mem_nil, if_false] at hreceived hreleased
    rw [hs', decide_eq_true_iff]
    omega
  · rw [hs', receiveRequest_of_ne hr (List.not_mem_nil)]

theorem waiting_of_ne {s s' : State} {n : ℤ} {g k : ℕ} {out : List ℤ} (hk : k ≠ g)
    (hs' : s'.members = receiveRequest s.members n g out) : waiting c s' k = waiting c s k := by
  simp only [waiting, hs', (receiveRequest_group hk).1, (receiveRequest_group hk).2]

/-- A request that does not complete the barrier. -/
theorem join (h : Synchronised c s) {l₁ l₂ : List (ℤ × ℕ)} {n : ℤ} {g : ℕ}
    (hrequests : s.requests = l₁ ++ (n, g) :: l₂) :
    Synchronised c { s with
      barrierCount := Function.update s.barrierCount g (s.barrierCount g + 1)
      requests := l₁ ++ l₂
      members := receiveRequest s.members n g [] } := by
  obtain ⟨k, hmem, hwaits, hdone, hasks, hfrees, hcounts⟩ :=
    (h.stage n).of_asks (groupsOf_ne_nil hrequests)
  obtain ⟨rfl, hnone⟩ := groupsOf_remove_self hrequests hasks
  refine ⟨fun r => ?_, fun k => ?_, fun k r hr => ?_⟩
  · by_cases hr : r = n
    · subst hr
      refine .joined g hmem hwaits hdone hnone hfrees ?_
      simpa using receiveRequest_counts r [] hcounts
    · simp only [receiveRequest_of_ne hr List.not_mem_nil, groupsOf_remove hrequests hr]
      exact h.stage r
  · by_cases hk : k = g
    · subst hk
      rw [h.waiting_request hrequests _ rfl]
      simp [h.count]
    · rw [waiting_of_ne hk rfl, ← h.count]
      simp [hk]
  · simpa [receiveRequest] using h.completed k r hr

/-- The last request for a group finds all other members waiting. -/
theorem lt_of_full (h : Synchronised c s) {l₁ l₂ : List (ℤ × ℕ)} {n : ℤ} {g : ℕ}
    (hrequests : s.requests = l₁ ++ (n, g) :: l₂)
    (hfull : s.barrierCount g + 1 = (c.getNodeIDs g).length) {r : ℤ} (hr : r ∈ c.getNodeIDs g)
    (hne : r ≠ n) : (s.members r).released g < (s.members r).received g := by
  obtain ⟨k, hmem, -, -, hasks, -, hcounts⟩ := (h.stage n).of_asks (groupsOf_ne_nil hrequests)
  obtain rfl := (groupsOf_remove_self hrequests hasks).1
  have hcount : (c.getNodeIDs g).countP (fun r =>
      decide ((s.members r).released g < (s.members r).received g) || decide (r = n)) =
      waiting c s g + 1 := by
    refine countP_insert (c.nodup_getNodeIDs g) hmem ?_ (by simp) fun r hr => by simp [hr]
    have hreceived := hcounts.received g
    have hreleased := hcounts.released g
    simp only [if_true] at hreceived hreleased
    rw [decide_eq_false_iff_not]
    omega
  rw [← h.count, hfull, List.countP_eq_length] at hcount
  simpa [hne] using hcount r hr

/-- When the last request of a barrier arrives, the nodes of the group wait and nothing is on its
way to or from them. -/
theorem waits_of_full (h : Synchronised c s) {l₁ l₂ : List (ℤ × ℕ)} {n : ℤ} {g : ℕ}
    (hrequests : s.requests = l₁ ++ (n, g) :: l₂)
    (hfull : s.barrierCount g + 1 = (c.getNodeIDs g).length) {r : ℤ} (hr : r ∈ c.getNodeIDs g) :
    Counts (receiveRequest s.members n g (c.getNodeIDs g) r) g 1 1 1 ∧
      (s.members r).waits = some g ∧ (s.members r).barrierDone = false ∧
      groupsOf r (l₁ ++ l₂) = [] ∧ groupsOf r s.releases = [] := by
  by_cases hne : r = n
  · subst hne
    obtain ⟨k, -, hwaits, hdone, hasks, hfrees, hcounts⟩ :=
      (h.stage r).of_asks (groupsOf_ne_nil hrequests)
    obtain ⟨rfl, hnone⟩ := groupsOf_remove_self hrequests hasks
    refine ⟨?_, hwaits, hdone, hnone, hfrees⟩
    simpa [hr] using receiveRequest_counts r (c.getNodeIDs g) hcounts
  · obtain ⟨-, hwaits, hdone, hasks, hfrees, hcounts⟩ :=
      (h.stage r).of_lt (h.lt_of_full hrequests hfull hr hne)
    refine ⟨?_, hwaits, hdone, (groupsOf_remove hrequests hne).trans hasks, hfrees⟩
    simpa [hr, hne] using receiveRequest_counts n (c.getNodeIDs g) hcounts

/-- The request that completes the barrier. -/
theorem complete (h : Synchronised c s) {l₁ l₂ : List (ℤ × ℕ)} {n : ℤ} {g : ℕ}
    (hrequests : s.requests = l₁ ++ (n, g) :: l₂)
    (hfull : s.barrierCount g + 1 = (c.getNodeIDs g).length) :
    Synchronised c { s with
      barrierCount := Function.update s.barrierCount g 0
      requests := l₁ ++ l₂
      releases := s.releases ++ (c.getNodeIDs g).map fun r => (r, g)
      members := receiveRequest s.members n g (c.getNodeIDs g)
      completed := bump s.completed g } := by
  have hfrees : ∀ r, groupsOf r (s.releases ++ (c.getNodeIDs g).map fun r => (r, g)) =
      groupsOf r s.releases ++ if r ∈ c.getNodeIDs g then [g] else [] := by
    intro r
    rw [groupsOf_append, groupsOf_map (c.nodup_getNodeIDs g)]
  have hmem : n ∈ c.getNodeIDs g := by
    obtain ⟨k, hmem, -, -, hasks, -⟩ := (h.stage n).of_asks (groupsOf_ne_nil hrequests)
    obtain rfl := (groupsOf_remove_self hrequests hasks).1
    exact hmem
  refine ⟨fun r => ?_, fun k => ?_, fun k r hr => ?_⟩
  · by_cases hr : r ∈ c.getNodeIDs g
    · obtain ⟨hcounts, hwaits, hdone, hasks, hreleases⟩ := h.waits_of_full hrequests hfull hr
      refine .released g hr hwaits hdone hasks ?_ hcounts
      rw [hfrees, hreleases, if_pos hr, List.nil_append]
    · have hne : r ≠ n := by
        rintro rfl
        exact hr hmem
      simp only [receiveRequest_of_ne hne hr, groupsOf_remove hrequests hne, hfrees, if_neg hr,
        List.append_nil]
      exact h.stage r
  · by_cases hk : k = g
    · subst hk
      simp only [Function.update_self]
      rw [eq_comm, waiting, List.countP_eq_zero]
      intro r hr
      have hcounts := (h.waits_of_full hrequests hfull hr).1
      rw [hcounts.received, hcounts.released]
      simp
    · rw [waiting_of_ne hk rfl, ← h.count]
      simp [hk]
  · by_cases hk : k = g
    · subst hk
      simp only [receiveRequest, if_pos hr, bump_self]
      rw [h.completed k r hr]
    · simp only [(receiveRequest_group hk).2, bump_of_ne _ hk]
      exact h.completed k r hr

theorem step (h : Synchronised c s) {s' : State} (hstep : Step c s s') : Synchronised c s' := by
  cases hstep with
  | enter hidle hmem _ => exact h.enter hidle hmem
  | @request l₁ l₂ n g hrequests count out hrun =>
    rw [processBarrierCommand] at hrun
    split at hrun
    · next hfull =>
      obtain ⟨rfl, rfl⟩ := Prod.mk.inj hrun
      have hne : c.getNodeIDs g ≠ [] := by
        intro hnil
        simp [hnil] at hfull
      simpa [hne] using h.complete hrequests hfull
    · obtain ⟨rfl, rfl⟩ := Prod.mk.inj hrun
      simpa using h.join hrequests
  | manage hreleases => exact h.manage hreleases
  | leave hwaits hdone => exact h.leave hwaits hdone

end Synchronised

/-- Barriers never release early. The counter of a group is the number of its members whose
request was received and that have not been released; every member is sent one release for each
completed barrier, and only after the requests of all members; and no member has left more
barriers of the group than any member has entered. -/
theorem barrier_never_early {c : Cluster} {k : ℕ} {s : State} (h : Steps (Step c) k {} s) :
    (∀ g, s.barrierCount g = waiting c s g) ∧
    (∀ g, ∀ n ∈ c.getNodeIDs g, (s.members n).released g = s.completed g ∧
      s.completed g ≤ (s.members n).received g) ∧
    ∀ g, ∀ n ∈ c.getNodeIDs g, ∀ n' ∈ c.getNodeIDs g,
      (s.members n).returned g ≤ (s.members n').entered g := by
  have hs := h.invariant Synchronised.start fun _ _ hb => hb.step
  have hreceived : ∀ g, ∀ n ∈ c.getNodeIDs g, s.completed g ≤ (s.members n).received g := by
    intro g n hn
    rw [← hs.completed g n hn]
    exact ((hs.stage n).counters g).2.1
  refine ⟨hs.count, fun g n hn => ⟨hs.completed g n hn, hreceived g n hn⟩, ?_⟩
  intro g n hn n' hn'
  calc (s.members n).returned g ≤ (s.members n).released g := ((hs.stage n).counters g).1
    _ = s.completed g := hs.completed g n hn
    _ ≤ (s.members n').received g := hreceived g n' hn'
    _ ≤ (s.members n').entered g := ((hs.stage n').counters g).2.2

/-- A worker and a server in a barrier of their group. The worker has left it. -/
theorem barrier_never_early_two_nodes :
    ∃ (k : ℕ) (s : State), Steps (Step ⟨1, 1⟩) k {} s ∧ (s.members 9).returned 6 = 1 ∧
      s.completed 6 = 1 ∧ s.releases = [(8, 6)] ∧
      (s.members 9).returned 6 ≤ (s.members 8).entered 6 := by
  have h₁ := (Steps.refl ({} : State)).tail
    (@Step.enter ⟨1, 1⟩ {} 9 6 rfl (by decide) (by decide))
  have h₂ := h₁.tail (@Step.enter ⟨1, 1⟩ _ 8 6 rfl (by decide) (by decide))
  have h₃ := h₂.tail (@Step.request ⟨1, 1⟩ _ [] [(8, 6)] 9 6 rfl _ _ rfl)
  have h₄ := h₃.tail (@Step.request ⟨1, 1⟩ _ [] [] 8 6 rfl _ _ rfl)
  have h₅ := (h₄.tail (@Step.manage ⟨1, 1⟩ _ [] [(8, 6)] 9 6 rfl)).tail
    (@Step.leave ⟨1, 1⟩ _ 9 6 rfl rfl)
  exact ⟨_, _, h₅, rfl, rfl, rfl,
    (barrier_never_early h₅).2.2 6 9 (by decide) 8 (by decide)⟩

end NetStorm.Barrier

import NetStorm.PlanRun

/-!
# Execution with the memory plan

The nodes run in order on a memory of blocks, where an entry is stored under the id that the
plan gives it. An entry without an id has memory of its own. Every read that is not ignored
finds what the producer of the entry wrote, and so do the outputs of the graph at the end.
-/
namespace NetStorm
namespace PlanMemory

variable {α : Type}

/-- The blocks, the memory of entries without one, and what the producers wrote. -/
structure Memory (α : Type) where
  pool : ℤ → α
  own : NodeEntry → α
  written : NodeEntry → α

namespace Memory

/-- The memory before the first node. Variables hold their values. -/
def init (pool : ℤ → α) (own : NodeEntry → α) : Memory α := ⟨pool, own, own⟩

/-- Reads an entry at the place of the plan. -/
def read (storage : NodeEntry → ℤ) (x : Memory α) (e : NodeEntry) : α :=
  if 0 ≤ storage e then x.pool (storage e) else x.own e

/-- Writes an entry to the place of the plan. -/
def write (storage : NodeEntry → ℤ) (x : Memory α) (e : NodeEntry) (v : α) : Memory α :=
  if 0 ≤ storage e then
    { x with pool := Function.update x.pool (storage e) v, written := Function.update x.written e v }
  else { x with own := Function.update x.own e v, written := Function.update x.written e v }

/-- Writes outputs of a node. -/
def writeOutputs (storage : NodeEntry → ℤ) (nid : ℕ) (f : ℕ → α) (x : Memory α) (js : List ℕ) :
    Memory α :=
  js.foldl (fun x j => x.write storage ⟨nid, j⟩ (f j)) x

end Memory

/-- Runs a node: it computes its outputs from the inputs it finds in the memory. -/
def execNode (g : Graph) (compute : ℕ → List α → ℕ → α) (storage : NodeEntry → ℤ) (x : Memory α)
    (nid : ℕ) : Memory α :=
  match g.nodes[nid]? with
  | none => x
  | some node =>
    if node.isVariable then x
    else x.writeOutputs storage nid (compute nid (node.inputs.map (x.read storage)))
      (List.range node.numOutputs)

/-- Runs the first `k` nodes. -/
def exec (g : Graph) (compute : ℕ → List α → ℕ → α) (storage : NodeEntry → ℤ) (x : Memory α)
    (k : ℕ) : Memory α :=
  (List.range k).foldl (execNode g compute storage) x

/-- The output of an identity pair equals its input. -/
def RespectsIdentity (g : Graph) (compute : ℕ → List α → ℕ → α) : Prop :=
  ∀ nid node pairs p eIn, g.nodes[nid]? = some node → node.inplacePairs = some pairs →
    p ∈ pairs → node.inputs[p.1.1]? = some eIn →
    realIdentity g p.2 ⟨nid, p.1.2⟩ eIn = some true →
    ∀ vals : List α, vals.length = node.inputs.length →
      vals[p.1.1]? = some (compute nid vals p.1.2)

namespace Memory
variable {storage : NodeEntry → ℤ} {x : Memory α} {nid : ℕ} {f : ℕ → α} {js : List ℕ}

@[simp] theorem write_written (e : NodeEntry) (v : α) :
    (x.write storage e v).written = Function.update x.written e v := by
  rw [write]
  split_ifs <;> rfl

theorem write_own (h : ∀ e, storage e < 0 → x.own e = x.written e) (e : NodeEntry) (v : α) :
    ∀ e', storage e' < 0 → (x.write storage e v).own e' = (x.write storage e v).written e' := by
  intro e' he'
  rw [write_written, write]
  by_cases heq : e' = e
  · subst heq
    rw [if_neg (not_le.mpr he')]
    simp
  · rw [Function.update_of_ne heq, ← h e' he']
    split_ifs
    · rfl
    · exact Function.update_of_ne heq _ _

theorem writeOutputs_own (h : ∀ e, storage e < 0 → x.own e = x.written e) :
    ∀ e, storage e < 0 →
      (x.writeOutputs storage nid f js).own e = (x.writeOutputs storage nid f js).written e := by
  induction js generalizing x with
  | nil => exact h
  | cons j js ih => exact ih (write_own h _ _)

theorem writeOutputs_written_of_ne {e : NodeEntry} (he : e.nodeId ≠ nid) :
    (x.writeOutputs storage nid f js).written e = x.written e := by
  induction js generalizing x with
  | nil => rfl
  | cons j js ih =>
    have hne : e ≠ ⟨nid, j⟩ := fun heq => he (by rw [heq])
    exact ih.trans (by rw [write_written, Function.update_of_ne hne])

theorem writeOutputs_written {j : ℕ} (h : x.written ⟨nid, j⟩ = f j ∨ j ∈ js) :
    (x.writeOutputs storage nid f js).written ⟨nid, j⟩ = f j := by
  induction js generalizing x with
  | nil => simpa [writeOutputs] using h
  | cons i js ih =>
    refine ih ?_
    rw [write_written]
    by_cases hij : j = i
    · subst hij
      exact .inl (Function.update_self ..)
    · rw [Function.update_of_ne (fun heq => hij (congrArg NodeEntry.index heq))]
      simpa [hij] using h

/-- A block holds a value after the outputs of a node are written if it did before, or one of
them is stored there, and all of them that are have this value. -/
theorem writeOutputs_pool {s : ℤ} {v : α} (hs : 0 ≤ s)
    (hval : ∀ j ∈ js, storage ⟨nid, j⟩ = s → f j = v)
    (h : x.pool s = v ∨ ∃ j ∈ js, storage ⟨nid, j⟩ = s) :
    (x.writeOutputs storage nid f js).pool s = v := by
  induction js generalizing x with
  | nil => simpa [writeOutputs] using h
  | cons i js ih =>
    refine ih (fun j hj => hval j (List.mem_cons_of_mem _ hj)) ?_
    by_cases hi : storage ⟨nid, i⟩ = s
    · left
      change (x.write storage ⟨nid, i⟩ (f i)).pool s = v
      rw [write, if_pos (hi ▸ hs)]
      simp [hi, hval i List.mem_cons_self hi]
    · have hpool : (x.write storage ⟨nid, i⟩ (f i)).pool s = x.pool s := by
        rw [write]
        split_ifs
        · exact Function.update_of_ne (Ne.symm hi) _ _
        · rfl
      rw [hpool]
      simpa [hi] using h

end Memory

section Run
variable {g : Graph} {m : MatchConfig} {storage₀ storage : NodeEntry → ℤ} {k : ℕ}
  {compute : ℕ → List α → ℕ → α} {x : Memory α}

variable (g storage k) in
/-- Every entry that is still read is stored as its producer wrote it. -/
structure ExecInv (x : Memory α) : Prop where
  own : ∀ e, storage e < 0 → x.own e = x.written e
  pool : ∀ e ∈ pendingFrom g k, e.nodeId < k → 0 ≤ storage e → x.pool (storage e) = x.written e

theorem ExecInv.read_eq (h : ExecInv g storage k x) {e : NodeEntry} (he : e ∈ pendingFrom g k)
    (hlt : e.nodeId < k) : x.read storage e = x.written e := by
  rw [Memory.read]
  split_ifs with hs
  · exact h.pool e he hlt hs
  · exact h.own e (not_le.mp hs)

/-- An output with the storage of an input gets the value that is stored there. -/
theorem shared_value (hident : RespectsIdentity g compute) {node : INode} {nid j : ℕ}
    (hk : g.nodes[nid]? = some node)
    (hs : 0 ≤ storage ⟨nid, j⟩) (h : Shared g node storage ⟨nid, j⟩) :
    compute nid (node.inputs.map (x.read storage)) j = x.pool (storage ⟨nid, j⟩) := by
  obtain ⟨pairs, p, eIn, hpairs, hp, rfl, hread, hid, heq⟩ := h
  have hin := (INode.readAt_eq_some_iff.mp hread).2
  have hval := hident nid node pairs p eIn hk hpairs hp hin hid
    (node.inputs.map (x.read storage)) (List.length_map _)
  rw [List.getElem?_map, hin, Option.map_some, Option.some.injEq] at hval
  rw [← hval, Memory.read, heq, if_pos hs]

variable (hcompat : ∀ node ∈ g.nodes, node.Compatible) (hneg : ∀ e, storage₀ e < 0)
  {st : AllocState} (hplan : mxAllocMemory g m storage₀ = some st)
  (hident : RespectsIdentity g compute)
include hcompat hneg hplan hident

theorem ExecInv.step (h : ExecInv g st.storage k x) (hk : k < g.nodes.length) :
    ExecInv g st.storage (k + 1) (execNode g compute st.storage x k) := by
  have hnode : g.nodes[k]? = some g.nodes[k] := List.getElem?_eq_getElem hk
  set node := g.nodes[k]
  have hsuffix : ∀ e ∈ pendingFrom g (k + 1), e ∈ pendingFrom g k := fun e he => by
    rw [pendingFrom_eq hnode]
    exact List.mem_append_right _ he
  simp only [execNode, hnode]
  by_cases hvar : node.isVariable = true
  · rw [if_pos hvar]
    refine ⟨h.own, fun e he hlt hs => ?_⟩
    by_cases hek : e.nodeId = k
    · exact absurd (mxAllocMemory_variable hcompat hneg hplan (hek ▸ hnode) hvar) (not_lt.mpr hs)
    · exact h.pool e (hsuffix e he) (by omega) hs
  rw [if_neg hvar]
  refine ⟨Memory.writeOutputs_own h.own, fun e he hlt hs => ?_⟩
  by_cases hek : e.nodeId = k
  · -- An output of this node: what is stored with it has its value too.
    obtain ⟨node', hnode', hindex⟩ := pendingFrom_index_lt he
    obtain ⟨nid, j⟩ := e
    obtain rfl : nid = k := hek
    obtain rfl : node = node' := Option.some.inj (hnode.symm.trans hnode')
    have hj : j ∈ List.range node.numOutputs := List.mem_range.mpr hindex
    rw [Memory.writeOutputs_written (.inr hj)]
    refine Memory.writeOutputs_pool hs (fun i _ hi => ?_) (.inr ⟨j, hj, rfl⟩)
    by_cases hij : i = j
    · rw [hij]
    have hne : (⟨nid, i⟩ : NodeEntry) ≠ ⟨nid, j⟩ := fun heq => hij (congrArg NodeEntry.index heq)
    obtain ⟨-, hshared | ⟨-, halone⟩⟩ := mxAllocMemory_placed hcompat hneg hplan hnode hs
    · obtain ⟨-, hshared' | ⟨-, halone⟩⟩ :=
        mxAllocMemory_placed (e := ⟨nid, i⟩) hcompat hneg hplan hnode (hi ▸ hs)
      · rw [shared_value hident hnode hs hshared,
          shared_value hident hnode (hi ▸ hs) hshared', hi]
      · exact absurd hi.symm (halone ⟨nid, j⟩ rfl hne.symm)
    · exact absurd hi (halone ⟨nid, i⟩ rfl hne)
  · -- An earlier entry: an output that is stored with it is identical to what is there.
    have hlt' : e.nodeId < k := by omega
    have hold := h.pool e (hsuffix e he) hlt' hs
    rw [Memory.writeOutputs_written_of_ne hek]
    refine Memory.writeOutputs_pool hs (fun i _ hi => ?_) (.inl hold)
    obtain ⟨-, hshared | ⟨hlater, -⟩⟩ :=
      mxAllocMemory_placed (e := ⟨k, i⟩) hcompat hneg hplan hnode (hi ▸ hs)
    · rw [shared_value hident hnode (hi ▸ hs) hshared, hi, hold]
    · exact absurd hi.symm (hlater e he hlt')

theorem exec_inv (hk : k ≤ g.nodes.length) (pool : ℤ → α) (own : NodeEntry → α) :
    ExecInv g st.storage k (exec g compute st.storage (Memory.init pool own) k) := by
  induction k with
  | zero => exact ⟨fun _ _ => rfl, fun e _ hlt => absurd hlt (Nat.not_lt_zero _)⟩
  | succ k ih =>
    rw [exec, List.range_succ, List.foldl_append]
    exact (ih (by omega)).step hcompat hneg hplan hident hk

end Run

/-- The plan is the result of `MXAllocMemory` for one of the match ranges. -/
theorem searchPlan_spec {g : Graph} {c : PlanConfig} {storage : NodeEntry → ℤ}
    {fuel matchRange minBytes : ℕ} {best : Option Plan} {plan : Plan}
    (hbest : ∀ p, best = some p → ∃ m st, mxAllocMemory g m storage = some st ∧
      p.storageId = st.storage)
    (h : searchPlan g c storage fuel matchRange minBytes best = some (some plan)) :
    ∃ m st, mxAllocMemory g m storage = some st ∧ plan.storageId = st.storage := by
  induction fuel generalizing matchRange minBytes best with
  | zero => simp [searchPlan] at h
  | succ fuel ih =>
    rw [searchPlan] at h
    by_cases hend : c.maxMatchRange < matchRange
    · rw [if_pos hend] at h
      exact hbest plan (Option.some.inj h)
    rw [if_neg hend, Option.bind_eq_bind, Option.bind_eq_some_iff] at h
    obtain ⟨st, hst, h⟩ := h
    have hbest' : ∀ p, (if st.allocator.totalAllocBytes < minBytes then
        some ⟨st.storage, st.inplaceIndex, st.allocator.totalAllocBytes, st.numNotAllocated⟩
        else best) = some p →
        ∃ m st, mxAllocMemory g m storage = some st ∧ p.storageId = st.storage := by
      intro p hp
      split_ifs at hp
      · exact ⟨_, st, hst, by rw [← Option.some.inj hp]⟩
      · exact hbest p hp
    by_cases hzero : c.maxMatchRange = 0
    · simp only [if_pos hzero] at h
      exact hbest' plan (Option.some.inj h)
    · simp only [if_neg hzero] at h
      exact ih hbest' h

/-- The memory plan never clobbers a value that is still read. Each input that is not ignored
and each output of the graph holds what its producer wrote, and at every moment of the planner
the free blocks are distinct and hold nothing that is still read. -/
theorem memory_plan_keeps_live_values (g : Graph) (hcompat : ∀ node ∈ g.nodes, node.Compatible)
    (storage : NodeEntry → ℤ) (hneg : ∀ e, storage e < 0) :
    (∀ (c : PlanConfig) (plan : Plan), mxPlanMemory g c storage = some (some plan) →
      ∀ (α : Type) (compute : ℕ → List α → ℕ → α), RespectsIdentity g compute →
      ∀ (pool : ℤ → α) (own : NodeEntry → α),
        (∀ nid node i e, g.nodes[nid]? = some node → node.isVariable = false →
          i ∉ node.ignored → node.inputs[i]? = some e →
          (exec g compute plan.storageId (Memory.init pool own) nid).read plan.storageId e =
            (exec g compute plan.storageId (Memory.init pool own) nid).written e) ∧
        ∀ e ∈ g.outputs,
          (exec g compute plan.storageId (Memory.init pool own) g.nodes.length).read
              plan.storageId e =
            (exec g compute plan.storageId (Memory.init pool own) g.nodes.length).written e) ∧
    ∀ (m : MatchConfig) (st : AllocState) (pending : List NodeEntry),
      Moment g m storage st pending → st.allocator.freeIds.Nodup ∧
        ∀ e ∈ pending, st.storage e ∉ st.allocator.freeIds := by
  refine ⟨fun c plan hplan α compute hident pool own => ?_, fun m st pending hmoment => ?_⟩
  · obtain ⟨m, st, hst, hstorage⟩ := searchPlan_spec (by simp) hplan
    rw [hstorage]
    refine ⟨fun nid node i e hk hop hi he => ?_, fun e he => ?_⟩
    · have hlt := (List.getElem?_eq_some_iff.mp hk).1
      refine (exec_inv hcompat hneg hst hident hlt.le pool own).read_eq ?_
        (g.input_lt nid node hk e (List.mem_of_getElem? he))
      rw [pendingFrom_eq hk]
      exact List.mem_append_left _ (INode.mem_reads hop hi he)
    · obtain ⟨node, hnode, -⟩ := g.index_lt e (.inl he)
      refine (exec_inv hcompat hneg hst hident le_rfl pool own).read_eq ?_
        (List.getElem?_eq_some_iff.mp hnode).1
      exact List.mem_append_right _ he
  · have hinv := hmoment.inv hcompat hneg
    refine ⟨hinv.valid.nodup, fun e he hfree => ?_⟩
    exact hinv.not_free he (GraphAllocator.nonneg_of_mem_freeIds hfree) hfree

/-- A variable, an operator on it, an identity of the result, a sum of both, where the second
input is there twice and ignored once, and an operator that can work in place. -/
def sharingGraph : Graph where
  nodes :=
    [⟨true, 1, 1, [], none, none, none⟩,
      ⟨false, 1, 1, [⟨0, 0⟩], none, none, none⟩,
      ⟨false, 1, 1, [⟨1, 0⟩], some [(0, 0)], some [true], none⟩,
      ⟨false, 3, 1, [⟨2, 0⟩, ⟨1, 0⟩, ⟨1, 0⟩], some [(0, 0)], none, some [2]⟩,
      ⟨false, 1, 1, [⟨3, 0⟩], some [(0, 0)], none, none⟩]
  outputs := [⟨4, 0⟩]
  shape := fun _ => some [some 2, some 3]
  dtype := fun _ => .float32
  device := none
  input_lt := by
    intro nid node h e he
    rcases nid with _ | _ | _ | _ | _ | nid <;> simp_all <;> grind
  index_lt := by
    intro e he
    simp only [List.mem_cons, List.not_mem_nil, or_false, exists_eq_or_imp, exists_eq_left,
      false_or] at he
    rcases he with rfl | rfl | rfl | (rfl | rfl | rfl) | rfl <;> exact ⟨_, rfl, by decide⟩
  pair_lt := by decide
  ignored_lt := by decide
  ignored_nodup := by decide

/-- What the nodes of `sharingGraph` compute. -/
def sharingCompute (nid : ℕ) (vals : List ℤ) (_ : ℕ) : ℤ :=
  match nid with
  | 1 => vals.sum + 1
  | 2 => vals.sum
  | 3 => vals.getD 0 0 + vals.getD 1 0
  | _ => 2 * vals.sum

theorem sharingGraph_compatible : ∀ node ∈ sharingGraph.nodes, node.Compatible := by
  intro node hnode pairs hpairs p hp hignored
  simp only [sharingGraph, List.mem_cons, List.not_mem_nil, or_false] at hnode
  obtain rfl | rfl | rfl | rfl | rfl := hnode
  case inr.inr.inr.inl =>
    obtain rfl : [((0, 0), false)] = pairs := by simpa [INode.inplacePairs] using hpairs
    obtain rfl : p = ((0, 0), false) := by simpa using hp
    simp [INode.ignored] at hignored
  all_goals simp [INode.ignored] at hignored

theorem sharingCompute_respectsIdentity : RespectsIdentity sharingGraph sharingCompute := by
  intro nid node pairs p eIn hk hpairs hp _ hreal vals hlen
  have hflag := realIdentity_flag hreal
  rcases nid with _ | _ | _ | _ | _ | nid <;> simp [sharingGraph] at hk <;> subst hk <;>
    simp [INode.inplacePairs] at hpairs <;> subst hpairs <;> simp at hp <;> subst hp
  · obtain ⟨v, rfl⟩ := List.length_eq_one_iff.mp hlen
    simp [sharingCompute]
  · simp at hflag
  · simp at hflag

theorem memory_plan_keeps_live_values_sharing :
    ∃ plan, mxPlanMemory sharingGraph ⟨16, false, []⟩ (fun _ => -1) = some (some plan) ∧
      (List.range 5).map (fun nid => plan.storageId ⟨nid, 0⟩) = [-1, 0, 0, 1, 1] ∧
      (exec sharingGraph sharingCompute plan.storageId
          (Memory.init (fun _ => 0) fun _ => 20) 5).read plan.storageId ⟨4, 0⟩ =
        (exec sharingGraph sharingCompute plan.storageId
          (Memory.init (fun _ => 0) fun _ => 20) 5).written ⟨4, 0⟩ := by
  have hsome : ((mxPlanMemory sharingGraph ⟨16, false, []⟩ fun _ => -1).bind id).isSome = true := by
    decide +kernel
  obtain ⟨plan, hplan⟩ := Option.isSome_iff_exists.mp hsome
  obtain ⟨best, hbest, hplan⟩ := Option.bind_eq_some_iff.mp hplan
  obtain rfl : best = some plan := hplan
  have hids : ((mxPlanMemory sharingGraph ⟨16, false, []⟩ fun _ => -1).bind id).map
      (fun plan => (List.range 5).map fun nid => plan.storageId ⟨nid, 0⟩) =
        some [-1, 0, 0, 1, 1] := by
    decide +kernel
  rw [hbest] at hids
  refine ⟨plan, hbest, Option.some.inj hids, ?_⟩
  exact ((memory_plan_keeps_live_values sharingGraph sharingGraph_compatible _
    (fun _ => by decide)).1 _ plan hbest ℤ sharingCompute sharingCompute_respectsIdentity _ _).2
      ⟨4, 0⟩ (by decide)

end PlanMemory
end NetStorm

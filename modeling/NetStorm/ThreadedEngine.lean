import NetStorm.Library.Steps
import NetStorm.ThreadedVar
import Mathlib.Data.List.Count

/-!
# The dependency engine

A pushed operation waits for each of its variables and for the end of its own push; the thread
that takes the last of these away dispatches it. Every call of the engine is a list of tasks that
one thread works off, and a task is a section under the lock of a variable or one decrement of a
wait counter. The calls are interleaved without restriction, so a thread that makes one call after
another is a special case. A failing check has no result. What an operation computes, its context
and priority, and the counter of pending operations are left out.
-/
namespace NetStorm

/-- `ThreadedOpr`. The function of an operation with `deletes` calls `SetToDelete`; it comes from
`ThreadedEngine::DeleteVariable`. -/
structure ThreadedOpr where
  constVars : List ℕ := []
  mutableVars : List ℕ := []
  deletes : Bool := false

/-- One step of a call. -/
inductive Task
  | append (v : ℕ) (e : ℕ × Bool)
  | decrWait (op : ℕ)
  | setToDelete (v : ℕ)
  | complete (v : ℕ) (e : ℕ × Bool)
  deriving DecidableEq

namespace ThreadedOpr

def vars (o : ThreadedOpr) : List ℕ := o.constVars ++ o.mutableVars

/-- What `ThreadedEngine::Push` does after it has set the wait counter. -/
def pushTasks (o : ThreadedOpr) (op : ℕ) : List Task :=
  o.constVars.map (fun v => .append v (op, false)) ++
    o.mutableVars.map (fun v => .append v (op, true)) ++ [.decrWait op]

/-- The function of the operation, and then `ThreadedEngine::OnComplete`. -/
def executeTasks (o : ThreadedOpr) (op : ℕ) : List Task :=
  (if o.deletes = true then o.mutableVars.map .setToDelete else []) ++
    (o.constVars.map (fun v => .complete v (op, false)) ++
      o.mutableVars.map fun v => .complete v (op, true))

end ThreadedOpr

/-- The state shared by the threads. An `OprBlock` is the position of its push in `oprs`.
`dispatched` are the calls of `PushToExecute`, in their order, and `executed` the blocks whose
function has been run. -/
structure ThreadedEngine where
  oprs : List ThreadedOpr := []
  wait : ℕ → ℤ := fun _ => 0
  vars : ℕ → VarHistory := fun _ => {}
  dispatched : List ℕ := []
  executed : List ℕ := []

namespace ThreadedEngine

/-- `OprBlock::decr_wait`. -/
def decrWait (s : ThreadedEngine) (op : ℕ) : Option ThreadedEngine :=
  if s.wait op - 1 < 0 then none
  else some { s with wait := Function.update s.wait op (s.wait op - 1) }

/-- Run one task. The second component is what the call has to do next because of it. -/
def run (s : ThreadedEngine) : Task → Option (ThreadedEngine × List Task)
  | .append v e => do
    let (h, granted) ← (s.vars v).append e
    let s := { s with vars := Function.update s.vars v h }
    -- the counter is decremented under the lock, and it cannot get to zero before the push ends
    (if granted = [] then some s else s.decrWait e.1).map fun s => (s, [])
  | .decrWait op => do
    let s ← s.decrWait op
    return (if s.wait op = 0 then { s with dispatched := s.dispatched ++ [op] } else s, [])
  | .setToDelete v =>
    some ({ s with vars := Function.update s.vars v (s.vars v).setToDelete }, [])
  | .complete v e => do
    let (h, granted) ← (s.vars v).complete e
    return ({ s with vars := Function.update s.vars v h }, granted.map fun e => .decrWait e.1)

/-- The beginning of `ThreadedEngine::Push`. -/
def push (s : ThreadedEngine) (o : ThreadedOpr) : ThreadedEngine :=
  { s with
    oprs := s.oprs ++ [o]
    wait := Function.update s.wait s.oprs.length (o.constVars.length + o.mutableVars.length + 1) }

/-- One step of the engine and its calls. -/
inductive Step : ThreadedEngine × List (List Task) → ThreadedEngine × List (List Task) → Prop
  | push (s : ThreadedEngine) (calls : List (List Task)) (o : ThreadedOpr)
      (hnodup : o.vars.Nodup) :
      Step (s, calls) (s.push o, calls ++ [o.pushTasks s.oprs.length])
  | run (s s' : ThreadedEngine) (l₁ l₂ : List (List Task)) (t : Task) (rest next : List Task)
      (hrun : s.run t = some (s', next)) :
      Step (s, l₁ ++ (t :: rest) :: l₂) (s', l₁ ++ (next ++ rest) :: l₂)
  | execute (s : ThreadedEngine) (calls : List (List Task)) (op : ℕ) (o : ThreadedOpr)
      (hopr : s.oprs[op]? = some o) (hdispatched : op ∈ s.dispatched)
      (hexecuted : op ∉ s.executed) :
      Step (s, calls)
        ({ s with executed := s.executed ++ [op] }, calls ++ [o.executeTasks op])

variable {s s' : ThreadedEngine} {v op : ℕ} {e : ℕ × Bool} {next : List Task}

theorem decrWait_eq (hrun : s.decrWait op = some s') :
    0 < s.wait op ∧ s' = { s with wait := Function.update s.wait op (s.wait op - 1) } := by
  unfold decrWait at hrun
  split at hrun
  · cases hrun
  · exact ⟨by omega, (Option.some.inj hrun).symm⟩

/-- An append takes one from the wait counter for every entry that it grants. -/
theorem run_append (hok : (s.vars v).Ok) (hrun : s.run (.append v e) = some (s', next)) :
    ∃ h g, (s.vars v).append e = some (h, g) ∧ next = [] ∧ (g ≠ [] → 0 < s.wait e.1) ∧
      s' = { s with
        vars := Function.update s.vars v h
        wait := fun op => s.wait op - (g.countP (·.1 = op) : ℕ) } := by
  simp only [run, Option.bind_eq_bind, Option.bind_eq_some_iff, Option.map_eq_some_iff] at hrun
  obtain ⟨⟨h, g⟩, happend, s₁, hwait, heq⟩ := hrun
  obtain ⟨rfl, rfl⟩ := Prod.mk.inj heq
  refine ⟨h, g, happend, rfl, ?_⟩
  obtain ⟨x, hx, -⟩ := VarHistory.append_eq happend
  obtain ⟨-, -, rfl | rfl⟩ := ThreadedVar.append_spec hok.fits hx
  · obtain rfl := Option.some.inj hwait
    simp
  · obtain ⟨hpos, rfl⟩ := decrWait_eq hwait
    refine ⟨fun _ => hpos, ?_⟩
    congr 1
    funext op
    by_cases hop : op = e.1
    · simp [hop]
    · simp [hop, Ne.symm hop]

theorem run_decrWait (hrun : s.run (.decrWait op) = some (s', next)) :
    next = [] ∧ 0 < s.wait op ∧
      s' = { s with
        wait := Function.update s.wait op (s.wait op - 1)
        dispatched := if s.wait op = 1 then s.dispatched ++ [op] else s.dispatched } := by
  simp only [run, Option.bind_eq_bind, Option.bind_eq_some_iff] at hrun
  obtain ⟨s₁, hwait, heq⟩ := hrun
  obtain ⟨rfl, rfl⟩ := Prod.mk.inj (Option.some.inj heq)
  obtain ⟨hpos, rfl⟩ := decrWait_eq hwait
  refine ⟨rfl, hpos, ?_⟩
  by_cases hone : s.wait op = 1
  · simp [hone]
  · have : s.wait op - 1 ≠ 0 := by omega
    simp [hone, this]

theorem run_complete (hrun : s.run (.complete v e) = some (s', next)) :
    ∃ h g, (s.vars v).complete e = some (h, g) ∧ next = g.map (fun e => .decrWait e.1) ∧
      s' = { s with vars := Function.update s.vars v h } := by
  simp only [run, Option.bind_eq_bind, Option.bind_eq_some_iff] at hrun
  obtain ⟨⟨h, g⟩, hcomplete, heq⟩ := hrun
  obtain ⟨rfl, rfl⟩ := Prod.mk.inj (Option.some.inj heq)
  exact ⟨h, g, hcomplete, rfl, rfl⟩

end ThreadedEngine

/-- The operation at a position uses the variable as the entry says. -/
def Uses (oprs : List ThreadedOpr) (v : ℕ) (e : ℕ × Bool) : Prop :=
  ∃ o, oprs[e.1]? = some o ∧ v ∈ o.vars ∧ e.2 = decide (v ∈ o.mutableVars)

theorem Uses.lt {oprs : List ThreadedOpr} {v : ℕ} {e : ℕ × Bool} (h : Uses oprs v e) :
    e.1 < oprs.length := by
  obtain ⟨o, hopr, -⟩ := h
  exact (List.getElem?_eq_some_iff.mp hopr).1

theorem Uses.mem_vars {oprs : List ThreadedOpr} {v : ℕ} {e : ℕ × Bool} {o : ThreadedOpr}
    (huse : Uses oprs v e) (hopr : oprs[e.1]? = some o) : v ∈ o.vars := by
  obtain ⟨o', hopr', hv, -⟩ := huse
  rw [hopr] at hopr'
  exact Option.some.inj hopr' ▸ hv

theorem Uses.writes {oprs : List ThreadedOpr} {v : ℕ} {e : ℕ × Bool} (huse : Uses oprs v e)
    {o : ThreadedOpr} (hopr : oprs[e.1]? = some o) (hv : v ∈ o.mutableVars) : e.2 = true := by
  obtain ⟨o', hopr', -, he⟩ := huse
  rw [hopr] at hopr'
  obtain rfl := Option.some.inj hopr'
  rw [he]
  exact decide_eq_true hv

/-- An operation uses a variable in one way. -/
theorem Uses.eq_of_fst {oprs : List ThreadedOpr} {v : ℕ} {e e' : ℕ × Bool} (h : Uses oprs v e)
    (h' : Uses oprs v e') (heq : e.1 = e'.1) : e = e' := by
  obtain ⟨o, hopr, -, he⟩ := h
  obtain ⟨o', hopr', -, he'⟩ := h'
  rw [heq, hopr'] at hopr
  rw [← Option.some.inj hopr, ← he'] at he
  exact Prod.ext heq he

theorem uses_append {oprs : List ThreadedOpr} {o : ThreadedOpr} {v : ℕ} {e : ℕ × Bool} :
    Uses (oprs ++ [o]) v e ↔ Uses oprs v e ∨
      v ∈ o.vars ∧ e = (oprs.length, decide (v ∈ o.mutableVars)) := by
  constructor
  · rintro ⟨o', hopr, hv, he⟩
    rcases Nat.lt_or_ge e.1 oprs.length with hlt | hge
    · rw [List.getElem?_append_left hlt] at hopr
      exact .inl ⟨o', hopr, hv, he⟩
    · have hlt := (List.getElem?_eq_some_iff.mp hopr).1
      have hlast : e.1 = oprs.length := by
        simp only [List.length_append, List.length_singleton] at hlt
        omega
      rw [hlast, List.getElem?_concat_length] at hopr
      obtain rfl := Option.some.inj hopr
      exact .inr ⟨hv, Prod.ext hlast he⟩
  · rintro (⟨o', hopr, hv, he⟩ | ⟨hv, rfl⟩)
    · have hlt := (List.getElem?_eq_some_iff.mp hopr).1
      exact ⟨o', by rw [List.getElem?_append_left hlt, hopr], hv, he⟩
    · exact ⟨o, List.getElem?_concat_length, hv, rfl⟩

namespace Task

/-- The task takes one from the wait counter of the operation, or queues it. -/
def pays (op : ℕ) : Task → Bool
  | append _ e => e.1 = op
  | decrWait op' => op' = op
  | _ => false

/-- The task is for an operation that was pushed and uses the variable as the task says. -/
def Formed (oprs : List ThreadedOpr) : Task → Prop
  | append v e => Uses oprs v e
  | decrWait op => op < oprs.length
  | setToDelete _ => True
  | complete v e => Uses oprs v e

theorem Formed.lt_of_pays {oprs : List ThreadedOpr} {t : Task} {op : ℕ} (h : t.Formed oprs)
    (hpays : t.pays op = true) : op < oprs.length := by
  cases t with
  | append v e =>
    rw [← of_decide_eq_true hpays]
    exact Uses.lt h
  | decrWait op' =>
    rw [← of_decide_eq_true hpays]
    exact h
  | setToDelete v => cases hpays
  | complete v e => cases hpays

theorem Formed.append {oprs : List ThreadedOpr} {t : Task} (h : t.Formed oprs)
    (o : ThreadedOpr) : t.Formed (oprs ++ [o]) := by
  cases t with
  | append v e => exact uses_append.mpr (.inl h)
  | decrWait op => exact Nat.lt_of_lt_of_le h (by simp)
  | setToDelete v => trivial
  | complete v e => exact uses_append.mpr (.inl h)

end Task

namespace ThreadedOpr
variable {o : ThreadedOpr} {v op : ℕ} {e : ℕ × Bool}

/-- Every variable of an operation has one task, for the kind of its use. -/
theorem count_entries {f : ℕ → ℕ × Bool → Task} (hf : Function.Injective2 f)
    (hnodup : o.vars.Nodup) (hv : v ∈ o.vars) :
    (o.constVars.map (fun v => f v (op, false)) ++
      o.mutableVars.map fun v => f v (op, true)).count (f v (op, decide (v ∈ o.mutableVars))) =
      1 := by
  obtain ⟨hconst, hmutable, hdisjoint⟩ := List.nodup_append.mp hnodup
  refine List.count_eq_one_of_mem (List.nodup_append.mpr ⟨?_, ?_, ?_⟩) ?_
  · exact hconst.map fun u u' heq => (hf heq).1
  · exact hmutable.map fun u u' heq => (hf heq).1
  · intro t ht t' ht' heq
    obtain ⟨u, -, rfl⟩ := List.mem_map.mp ht
    obtain ⟨u', -, rfl⟩ := List.mem_map.mp ht'
    cases (hf heq).2
  · rcases List.mem_append.mp hv with hv | hv
    · have hnot : v ∉ o.mutableVars := fun hv' => hdisjoint v hv v hv' rfl
      exact List.mem_append_left _ (List.mem_map.mpr ⟨v, hv, by simp [hnot]⟩)
    · exact List.mem_append_right _ (List.mem_map.mpr ⟨v, hv, by simp [hv]⟩)

theorem mem_entries {f : ℕ → ℕ × Bool → Task} (hnodup : o.vars.Nodup) {t : Task}
    (ht : t ∈ o.constVars.map (fun v => f v (op, false)) ++
      o.mutableVars.map fun v => f v (op, true)) :
    ∃ v ∈ o.vars, t = f v (op, decide (v ∈ o.mutableVars)) := by
  obtain ⟨-, -, hdisjoint⟩ := List.nodup_append.mp hnodup
  rcases List.mem_append.mp ht with ht | ht
  · obtain ⟨v, hv, rfl⟩ := List.mem_map.mp ht
    have hnot : v ∉ o.mutableVars := fun hv' => hdisjoint v hv v hv' rfl
    exact ⟨v, List.mem_append_left _ hv, by simp [hnot]⟩
  · obtain ⟨v, hv, rfl⟩ := List.mem_map.mp ht
    exact ⟨v, List.mem_append_right _ hv, by simp [hv]⟩

theorem count_append_pushTasks (hnodup : o.vars.Nodup) (hv : v ∈ o.vars) :
    (o.pushTasks op).count (.append v (op, decide (v ∈ o.mutableVars))) = 1 := by
  have hinj : Function.Injective2 Task.append := fun _ _ _ _ heq => by
    simpa using heq
  rw [pushTasks, List.count_append, count_entries hinj hnodup hv]
  simp

theorem count_complete_executeTasks (hnodup : o.vars.Nodup) (hv : v ∈ o.vars) :
    (o.executeTasks op).count (.complete v (op, decide (v ∈ o.mutableVars))) = 1 := by
  have hinj : Function.Injective2 Task.complete := fun _ _ _ _ heq => by
    simpa using heq
  rw [executeTasks, List.count_append, count_entries hinj hnodup hv]
  simp only [Nat.add_eq_right, List.count_eq_zero]
  split <;> simp

theorem countP_pays_pushTasks (op' : ℕ) :
    (o.pushTasks op).countP (Task.pays op') =
      if op = op' then o.constVars.length + o.mutableVars.length + 1 else 0 := by
  by_cases hop : op = op' <;>
    simp [pushTasks, Task.pays, hop, Function.comp_def, List.countP_map, Nat.add_assoc]

theorem mem_pushTasks (hnodup : o.vars.Nodup) {t : Task} (ht : t ∈ o.pushTasks op) :
    t = .decrWait op ∨ ∃ v ∈ o.vars, t = .append v (op, decide (v ∈ o.mutableVars)) := by
  rcases List.mem_append.mp ht with ht | ht
  · exact .inr (mem_entries hnodup ht)
  · exact .inl (List.mem_singleton.mp ht)

theorem mem_executeTasks (hnodup : o.vars.Nodup) {t : Task} (ht : t ∈ o.executeTasks op) :
    (∃ v, t = .setToDelete v) ∨
      ∃ v ∈ o.vars, t = .complete v (op, decide (v ∈ o.mutableVars)) := by
  rcases List.mem_append.mp ht with ht | ht
  · split at ht
    · obtain ⟨u, -, rfl⟩ := List.mem_map.mp ht
      exact .inl ⟨u, rfl⟩
    · cases ht
  · exact .inr (mem_entries hnodup ht)

end ThreadedOpr

end NetStorm

import NetStorm.LinkedVar
import NetStorm.ConflictOrder

/-!
# The dependency engine over linked lists

The engine again, with the blocks of its variables, and with calls that belong to an operation: a
call is the push of the operation or its function together with `OnComplete`. A decrement of a
wait counter is made for a variable or at the end of the push. Every run is also one of the engine
over queues, so a check could only fail if the counters were wrong or a deleted variable were
used. The counter of an operation is the number of its variables that have not granted it access,
and one more during its push.
-/
namespace NetStorm

/-- One step of a call. -/
inductive LinkedTask
  | append (v : ℕ) (e : ℕ × Bool)
  | grant (v op : ℕ)
  | endPush (op : ℕ)
  | setToDelete (v : ℕ)
  | complete (v : ℕ) (e : ℕ × Bool)
  deriving DecidableEq

namespace ThreadedOpr

/-- What `ThreadedEngine::Push` does after it has set the wait counter. -/
def linkedPushTasks (o : ThreadedOpr) (op : ℕ) : List LinkedTask :=
  o.constVars.map (fun v => .append v (op, false)) ++
    o.mutableVars.map (fun v => .append v (op, true)) ++ [.endPush op]

/-- The function of the operation, and then `ThreadedEngine::OnComplete`. -/
def linkedExecuteTasks (o : ThreadedOpr) (op : ℕ) : List LinkedTask :=
  (if o.deletes = true then o.mutableVars.map .setToDelete else []) ++
    (o.constVars.map (fun v => .complete v (op, false)) ++
      o.mutableVars.map fun v => .complete v (op, true))

end ThreadedOpr

/-- The operation at a position comes from `DeleteVariable` of the variable. -/
def Deletes (oprs : List ThreadedOpr) (v op : ℕ) : Prop :=
  ∃ o, oprs[op]? = some o ∧ o.deletes = true ∧ v ∈ o.mutableVars

instance (oprs : List ThreadedOpr) (v op : ℕ) : Decidable (Deletes oprs v op) :=
  inferInstanceAs (Decidable (∃ o ∈ oprs[op]?, o.deletes = true ∧ v ∈ o.mutableVars))

theorem deletes_append {oprs : List ThreadedOpr} {o : ThreadedOpr} {v op : ℕ}
    (hlt : op < oprs.length) : Deletes (oprs ++ [o]) v op ↔ Deletes oprs v op := by
  unfold Deletes
  rw [List.getElem?_append_left hlt]

theorem Deletes.append {oprs : List ThreadedOpr} {v op : ℕ} (h : Deletes oprs v op)
    (o : ThreadedOpr) : Deletes (oprs ++ [o]) v op := by
  obtain ⟨o', hopr, -⟩ := id h
  exact (deletes_append (List.getElem?_eq_some_iff.mp hopr).1).mpr h

/-- The state shared by the threads, and two records that the engine does not keep: the entries
that were appended to each variable, and for which variable and operation a wait counter was
decremented. -/
structure LinkedEngine where
  oprs : List ThreadedOpr := []
  wait : ℕ → ℤ := fun _ => 0
  vars : ℕ → LinkedVar := fun _ => .newVariable 0
  dispatched : List ℕ := []
  executed : List ℕ := []
  appended : ℕ → List (ℕ × Bool) := fun _ => []
  grants : List (ℕ × ℕ) := []

namespace LinkedEngine

/-- `OprBlock::decr_wait`. -/
def decrWait (s : LinkedEngine) (op : ℕ) : Option LinkedEngine :=
  if s.wait op - 1 < 0 then none
  else some { s with wait := Function.update s.wait op (s.wait op - 1) }

def grant (s : LinkedEngine) (v op : ℕ) : Option LinkedEngine :=
  (s.decrWait op).map fun s => { s with grants := s.grants ++ [(v, op)] }

/-- `PushToExecute`, if the counter has got to zero. -/
def dispatch (s : LinkedEngine) (op : ℕ) : LinkedEngine :=
  if s.wait op = 0 then { s with dispatched := s.dispatched ++ [op] } else s

/-- Run one task, with a new block at the address `new`. The second component is what the call
has to do next because of it. -/
def run (s : LinkedEngine) (new fuel : ℕ) :
    LinkedTask → Option (LinkedEngine × List LinkedTask)
  | .append v e => do
    let (x, ops) ← (s.vars v).append new e
    let s := { s with
      vars := Function.update s.vars v x
      appended := Function.update s.appended v (s.appended v ++ [e]) }
    -- the push does not look at the counter that `decr_wait` returns here
    (if ops = [] then some s else s.grant v e.1).map fun s => (s, [])
  | .grant v op => do
    let s ← s.grant v op
    return (s.dispatch op, [])
  | .endPush op => do
    let s ← s.decrWait op
    return (s.dispatch op, [])
  | .setToDelete v =>
    some ({ s with vars := Function.update s.vars v (s.vars v).setToDelete }, [])
  | .complete v e => do
    let (x, ops) ← (s.vars v).complete fuel e
    return ({ s with vars := Function.update s.vars v x }, ops.map (.grant v))

/-- The beginning of `ThreadedEngine::Push`. -/
def push (s : LinkedEngine) (o : ThreadedOpr) : LinkedEngine :=
  { s with
    oprs := s.oprs ++ [o]
    wait := Function.update s.wait s.oprs.length (o.constVars.length + o.mutableVars.length + 1) }

/-- `VersionedVarBlock::New` returns a block that is not in use, and no variable is used after
its `DeleteVariable`. -/
def Ready (s : LinkedEngine) (new : ℕ) : LinkedTask → Prop
  | .append v _ => (s.vars v).blocks new = none ∧ ∀ e ∈ s.appended v, ¬ Deletes s.oprs v e.1
  | _ => True

/-- One step of the engine and its calls. -/
inductive Step : LinkedEngine × List (ℕ × List LinkedTask) →
    LinkedEngine × List (ℕ × List LinkedTask) → Prop
  | push (s : LinkedEngine) (calls : List (ℕ × List LinkedTask)) (o : ThreadedOpr)
      (hnodup : o.vars.Nodup) :
      Step (s, calls)
        (s.push o, calls ++ [(s.oprs.length, o.linkedPushTasks s.oprs.length)])
  | run (s s' : LinkedEngine) (l₁ l₂ : List (ℕ × List LinkedTask)) (op : ℕ) (t : LinkedTask)
      (rest next : List LinkedTask) (new fuel : ℕ) (hready : s.Ready new t)
      (hrun : s.run new fuel t = some (s', next)) :
      Step (s, l₁ ++ (op, t :: rest) :: l₂) (s', l₁ ++ (op, next ++ rest) :: l₂)
  | execute (s : LinkedEngine) (calls : List (ℕ × List LinkedTask)) (op : ℕ) (o : ThreadedOpr)
      (hopr : s.oprs[op]? = some o) (hdispatched : op ∈ s.dispatched)
      (hexecuted : op ∉ s.executed) :
      Step (s, calls)
        ({ s with executed := s.executed ++ [op] }, calls ++ [(op, o.linkedExecuteTasks op)])

variable {s s' : LinkedEngine} {new fuel v op : ℕ} {e : ℕ × Bool} {next : List LinkedTask}

theorem decrWait_eq (hrun : s.decrWait op = some s') :
    0 < s.wait op ∧ s' = { s with wait := Function.update s.wait op (s.wait op - 1) } := by
  unfold decrWait at hrun
  split at hrun
  · cases hrun
  · exact ⟨by omega, (Option.some.inj hrun).symm⟩

theorem dispatch_eq : s.dispatch op = { s with
    dispatched := if s.wait op = 0 then s.dispatched ++ [op] else s.dispatched } := by
  unfold dispatch
  split <;> rfl

theorem update_decrement (wait : ℕ → ℤ) (op : ℕ) :
    Function.update wait op (wait op - 1) = fun op' => wait op' - ([op].count op' : ℕ) := by
  funext op'
  by_cases hop : op' = op
  · simp [hop]
  · simp [hop, Ne.symm hop]

theorem decrWait_of_pos (hpos : 0 < s.wait op) :
    s.decrWait op = some { s with wait := Function.update s.wait op (s.wait op - 1) } := by
  unfold decrWait
  rw [if_neg (by omega)]

/-- An append grants access at most to the operation that it appends. -/
theorem run_append {x : LinkedVar} {ops : List ℕ} (happend : (s.vars v).append new e = some (x, ops))
    (hops : ops = [] ∨ ops = [e.1]) (hrun : s.run new fuel (.append v e) = some (s', next)) :
    next = [] ∧ s' = { s with
      vars := Function.update s.vars v x
      appended := Function.update s.appended v (s.appended v ++ [e])
      wait := fun op => s.wait op - (ops.count op : ℕ)
      grants := s.grants ++ ops.map fun op => (v, op) } := by
  simp only [run, happend, Option.bind_eq_bind, Option.bind_some, Option.map_eq_some_iff] at hrun
  obtain ⟨s₁, hwait, heq⟩ := hrun
  obtain ⟨rfl, rfl⟩ := Prod.mk.inj heq
  refine ⟨rfl, ?_⟩
  rcases hops with rfl | rfl
  · obtain rfl := Option.some.inj hwait
    simp
  · obtain ⟨s₂, hs₂, rfl⟩ := Option.map_eq_some_iff.mp hwait
    obtain ⟨-, rfl⟩ := decrWait_eq hs₂
    simp only [List.map_cons, List.map_nil, update_decrement]

theorem run_grant (hrun : s.run new fuel (.grant v op) = some (s', next)) :
    next = [] ∧ 0 < s.wait op ∧
      s' = dispatch { s with
        wait := Function.update s.wait op (s.wait op - 1)
        grants := s.grants ++ [(v, op)] } op := by
  simp only [run, grant, Option.bind_eq_bind, Option.bind_eq_some_iff,
    Option.map_eq_some_iff] at hrun
  obtain ⟨s₁, ⟨s₂, hs₂, rfl⟩, heq⟩ := hrun
  obtain ⟨hpos, rfl⟩ := decrWait_eq hs₂
  obtain ⟨rfl, rfl⟩ := Prod.mk.inj (Option.some.inj heq)
  exact ⟨rfl, hpos, rfl⟩

theorem run_endPush (hrun : s.run new fuel (.endPush op) = some (s', next)) :
    next = [] ∧ 0 < s.wait op ∧
      s' = dispatch { s with wait := Function.update s.wait op (s.wait op - 1) } op := by
  simp only [run, Option.bind_eq_bind, Option.bind_eq_some_iff] at hrun
  obtain ⟨s₁, hs₁, heq⟩ := hrun
  obtain ⟨hpos, rfl⟩ := decrWait_eq hs₁
  obtain ⟨rfl, rfl⟩ := Prod.mk.inj (Option.some.inj heq)
  exact ⟨rfl, hpos, rfl⟩

theorem run_complete (hrun : s.run new fuel (.complete v e) = some (s', next)) :
    ∃ x ops, (s.vars v).complete fuel e = some (x, ops) ∧ next = ops.map (.grant v) ∧
      s' = { s with vars := Function.update s.vars v x } := by
  simp only [run, Option.bind_eq_bind, Option.bind_eq_some_iff] at hrun
  obtain ⟨⟨x, ops⟩, hcomplete, heq⟩ := hrun
  obtain ⟨rfl, rfl⟩ := Prod.mk.inj (Option.some.inj heq)
  exact ⟨x, ops, hcomplete, rfl, rfl⟩

/-- No task appends to a variable because of another one. -/
theorem run_next {t : LinkedTask} (hrun : s.run new fuel t = some (s', next)) (u : ℕ)
    (e' : ℕ × Bool) : LinkedTask.append u e' ∉ next := by
  cases t with
  | append v e =>
    simp only [run, Option.bind_eq_bind, Option.bind_eq_some_iff, Option.map_eq_some_iff] at hrun
    obtain ⟨_, -, _, -, heq⟩ := hrun
    simp [← (Prod.mk.inj heq).2]
  | grant v op => simp [(run_grant hrun).1]
  | endPush op => simp [(run_endPush hrun).1]
  | setToDelete v => simp [← (Prod.mk.inj (Option.some.inj hrun)).2]
  | complete v e =>
    obtain ⟨x, ops, -, rfl, -⟩ := run_complete hrun
    simp

end LinkedEngine

end NetStorm

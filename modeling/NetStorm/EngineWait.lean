import NetStorm.EngineMemory

/-!
# Waiting for the engine

The thread that pushes waits for one variable or for all operations. `WaitForVar` returns at once
if no write is in the queue of the variable, and otherwise when an operation that reads it is run.
`WaitForAll` returns when the counter of pending operations is zero. Neither looks at what the
operations do, but then nothing is left that could still change the arrays. As in
`EngineMemory` the functions of the operations do not fail.
-/
namespace NetStorm

/-- `ThreadedVar::ready_to_read`. -/
def ThreadedVar.readyToRead (x : ThreadedVar) : Bool := x.queue.isEmpty

namespace RunningEngine
open ThreadedEngine
variable {α ε : Type} {p p' : RunningEngine α ε} {m₀ : EngineMemory α ε} {v : ℕ}

/-- `ThreadedEngine::WaitForVar` of the thread that pushes can return: the variable is ready to
read, or the operation of the wait, which was pushed last, is run. -/
inductive WaitForVarReturns (p : RunningEngine α ε) (v : ℕ) : Prop
  | ready (hpushed : ∀ u e, Task.append u e ∉ p.calls.flatten)
      (hready : (p.engine.vars v).var.readyToRead = true)
  | done (op : ℕ) (hlast : op + 1 = p.engine.oprs.length)
      (hopr : p.engine.oprs[op]? = some { constVars := [v] }) (hexecuted : op ∈ p.engine.executed)

/-- No operation that mutates a variable which is ready to read is left. -/
theorem settled_of_ready {s : ThreadedEngine} {tasks : List Task} (hc : s.Consistent tasks)
    (hpushed : ∀ u e, Task.append u e ∉ tasks) (hready : (s.vars v).var.readyToRead = true) :
    s.Settled v := by
  have hqueue : (s.vars v).var.queue = [] := List.isEmpty_iff.mp hready
  have hungranted : (s.vars v).var.ungranted = [] := by simp [ThreadedVar.ungranted, hqueue]
  have hreads : ∀ e ∈ (s.vars v).running, e.2 = false := by
    cases (hc.var v).ok.fits with
    | reading _ _ hrunning => exact hrunning
    | writing w rest hne | draining w rest hne => simp [hqueue] at hne
  rintro op ⟨o, hopr, hv⟩
  have huse : Uses s.oprs v (op, decide (v ∈ o.mutableVars)) :=
    ⟨o, hopr, List.mem_append_right _ hv, rfl⟩
  have happended : (op, decide (v ∈ o.mutableVars)) ∈ (s.vars v).appended := by
    have honce := (hc.var v).append_once _ huse
    rw [List.count_eq_zero.mpr (hpushed v _)] at honce
    exact List.count_pos_iff.mp (by omega)
  have hgranted : (op, decide (v ∈ o.mutableVars)) ∈ (s.vars v).granted := by
    rwa [(hc.var v).ok.appended_eq, hungranted, List.append_nil] at happended
  refine List.mem_map.mpr ⟨(op, decide (v ∈ o.mutableVars)), ?_, rfl⟩
  by_contra hnot
  have hread := hreads _ (List.mem_filter.mpr ⟨hgranted, decide_eq_true hnot⟩)
  simp [hv] at hread

/-- When an operation that uses a variable is run, the operations pushed before it that mutate the
variable have completed on it. -/
theorem completed_of_executed {s : ThreadedEngine} {tasks : List Task} (hc : s.Consistent tasks)
    (hordered : PushOrdered s) {op op' : ℕ} {o : ThreadedOpr} (hopr : s.oprs[op]? = some o)
    (hv : v ∈ o.vars) (hexecuted : op ∈ s.executed) (hmutates : s.Mutates v op') (hlt : op' < op) :
    op' ∈ (s.vars v).completed.map Prod.fst := by
  have huse : Uses s.oprs v (op, decide (v ∈ o.mutableVars)) := ⟨o, hopr, hv, rfl⟩
  obtain ⟨o', hopr', hv'⟩ := hmutates
  have huse' : Uses s.oprs v (op', decide (v ∈ o'.mutableVars)) :=
    ⟨o', hopr', List.mem_append_right _ hv', rfl⟩
  have hgranted := (hc.var v).granted _ (hc.executed_sub op hexecuted) huse
  obtain ⟨k₁, k₂, happended⟩ := List.append_of_mem ((hc.var v).ok.granted_sub hgranted)
  have hbefore := hordered v k₁ _ k₂ happended _ huse' hlt
  have hdone := (hc.var v).ok.completed_of_before happended hgranted hbefore
    (.inl (huse'.writes hopr' hv'))
  exact List.mem_map_of_mem hdone

/-- When `WaitForVar` returns, the variable has what the naive engine leaves in it. -/
theorem waitForVar_memory {k : ℕ} (h : Steps SerialStep k { mem := m₀ } p)
    (hreturns : p.WaitForVarReturns v) (l : Location) (hl : l.var = v) :
    p.mem l = ((List.range p.engine.oprs.length).map p.fn).foldl NaiveEngine.pushAsync m₀ l := by
  obtain ⟨hinv, hqueued⟩ := inv_of_steps h
  subst hl
  refine hinv.mem_eq hqueued.ordered ?_
  cases hreturns with
  | ready hpushed hready => exact settled_of_ready hinv.consistent hpushed hready
  | done op hlast hopr hexecuted =>
    intro op' hmutates
    have hlt : op' < p.engine.oprs.length := by
      obtain ⟨o, hopr', -⟩ := hmutates
      exact (List.getElem?_eq_some_iff.mp hopr').1
    have hne : op' ≠ op := by
      -- the operation of the wait only reads
      rintro rfl
      obtain ⟨o, hopr', hv⟩ := hmutates
      obtain rfl := Option.some.inj (hopr.symm.trans hopr')
      cases hv
    exact completed_of_executed hinv.consistent hqueued.ordered hopr (List.mem_singleton_self _)
      hexecuted hmutates (by omega)

theorem waitForVar_memory_conflict :
    ∃ p : RunningEngine ℕ Unit, p.engine.oprs.length = 2 ∧ p.mem (.data 0) = (8 : ℕ) ∧
      p.mem (.data 0) =
        ((List.range p.engine.oprs.length).map p.fn).foldl NaiveEngine.pushAsync threes
          (.data 0) := by
  obtain ⟨p, h, hmem, hcalls, hqueue, -, hlen, -⟩ := conflict_steps
  refine ⟨p, hlen, hmem, waitForVar_memory h (.ready ?_ ?_) (.data 0) rfl⟩
  · simp [hcalls]
  · simp [Location.var, ThreadedVar.readyToRead, hqueue]

end RunningEngine

/-- The engine with the counter of pending operations, and the operations whose `OnComplete` has
ended. -/
structure PendingEngine (α ε : Type) extends RunningEngine α ε where
  pending : ℤ := 0
  finished : List ℕ := []

namespace PendingEngine
open ThreadedEngine RunningEngine
variable {α ε : Type} {q q' : PendingEngine α ε} {m₀ : EngineMemory α ε}

inductive Step : PendingEngine α ε → PendingEngine α ε → Prop
  | push (q : PendingEngine α ε) (p : RunningEngine α ε) (hstep : SerialStep q.toRunningEngine p)
      (hpush : p.engine.oprs.length = q.engine.oprs.length + 1) :
      Step q { q with toRunningEngine := p, pending := q.pending + 1 }
  | other (q : PendingEngine α ε) (p : RunningEngine α ε)
      (hstep : SerialStep q.toRunningEngine p) (hoprs : p.engine.oprs = q.engine.oprs) :
      Step q { q with toRunningEngine := p }
  -- the end of `OnComplete`, after the operation has completed on all its variables
  | finish (q : PendingEngine α ε) (op : ℕ) (hexecuted : op ∈ q.engine.executed)
      (hfinished : op ∉ q.finished)
      (hcompleted : ∀ v e, Task.complete v e ∈ q.calls.flatten → e.1 ≠ op) :
      Step q { q with pending := q.pending - 1, finished := q.finished ++ [op] }

structure Inv (m₀ : EngineMemory α ε) (q : PendingEngine α ε) : Prop where
  running : q.toRunningEngine.Inv m₀
  queued : Queued q.engine q.calls.flatten
  pending_eq : q.pending = q.engine.oprs.length - q.finished.length
  finished_nodup : q.finished.Nodup
  finished_sub : ∀ op ∈ q.finished, op ∈ q.engine.executed
  completed : ∀ v e, Task.complete v e ∈ q.calls.flatten → e.1 ∉ q.finished

/-- A task that completes an operation is new only in the step that runs the operation. -/
theorem complete_of_step {p p' : RunningEngine α ε} (h : p.Inv m₀)
    (hstep : RunningEngine.Step p p') :
    (∀ op ∈ p.engine.executed, op ∈ p'.engine.executed) ∧
      ∀ v e, Task.complete v e ∈ p'.calls.flatten →
        Task.complete v e ∈ p.calls.flatten ∨ e.1 ∉ p.engine.executed := by
  cases hstep with
  | push o fn hnodup hfn =>
    refine ⟨fun _ hop => hop, fun v e he => .inl ?_⟩
    rw [List.flatten_append, List.flatten_singleton] at he
    refine (List.mem_append.mp he).resolve_right fun hnew => ?_
    rcases ThreadedOpr.mem_pushTasks hnodup hnew with heq | ⟨u, -, heq⟩ <;> cases heq
  | run s l₁ l₂ t others next hcalls hdone hrun =>
    have hold := h.consistent
    rw [hcalls, List.flatten_append, List.flatten_cons, List.cons_append] at hold
    have hfirst := hold.perm List.perm_middle
    have hnext : s.executed = p.engine.executed ∧ ∀ v e, Task.complete v e ∉ next := by
      cases t with
      | append v e =>
        obtain ⟨x, g, -, rfl, -, rfl⟩ := run_append (hfirst.var v).ok hrun
        simp
      | decrWait op =>
        obtain ⟨rfl, -, rfl⟩ := run_decrWait hrun
        simp
      | setToDelete v =>
        obtain ⟨rfl, rfl⟩ := Prod.mk.inj (Option.some.inj hrun)
        simp
      | complete v e =>
        obtain ⟨x, g, -, rfl, rfl⟩ := run_complete hrun
        simp
    refine ⟨fun op hop => by rwa [hnext.1], fun v e he => .inl ?_⟩
    rw [hcalls]
    simp only [List.flatten_append, List.flatten_cons, List.mem_append, List.mem_cons] at he ⊢
    have := hnext.2 v e
    tauto
  | execute op o hopr hdispatched hexecuted =>
    refine ⟨fun _ hop => List.mem_append_left _ hop, fun v e he => ?_⟩
    rw [List.flatten_append, List.flatten_singleton] at he
    refine (List.mem_append.mp he).imp_right fun hnew => ?_
    have hnodup := h.consistent.nodup o (List.mem_of_getElem? hopr)
    rcases ThreadedOpr.mem_executeTasks hnodup hnew with ⟨u, heq⟩ | ⟨u, -, heq⟩
    · cases heq
    · cases heq
      exact hexecuted
  | read | write => exact ⟨fun _ hop => hop, fun _ _ he => .inl he⟩

/-- The part of the invariant that is not about the counter. -/
theorem Inv.running_step (h : q.Inv m₀) {p : RunningEngine α ε}
    (hstep : SerialStep q.toRunningEngine p) :
    p.Inv m₀ ∧ Queued p.engine p.calls.flatten ∧ (∀ op ∈ q.finished, op ∈ p.engine.executed) ∧
      ∀ v e, Task.complete v e ∈ p.calls.flatten → e.1 ∉ q.finished := by
  obtain ⟨hexecuted, hcomplete⟩ := complete_of_step h.running hstep.1
  refine ⟨h.running.step hstep.1, h.queued.step h.running hstep,
    fun op hop => hexecuted op (h.finished_sub op hop), fun v e he hop => ?_⟩
  rcases hcomplete v e he with hold | hnew
  · exact h.completed v e hold hop
  · exact hnew (h.finished_sub e.1 hop)

theorem Inv.step (h : q.Inv m₀) (hstep : Step q q') : q'.Inv m₀ := by
  cases hstep with
  | push p hstep hpush =>
    obtain ⟨hrunning, hqueued, hsub, hcompleted⟩ := h.running_step hstep
    refine ⟨hrunning, hqueued, ?_, h.finished_nodup, hsub, hcompleted⟩
    have := h.pending_eq
    dsimp only
    omega
  | other p hstep hoprs =>
    obtain ⟨hrunning, hqueued, hsub, hcompleted⟩ := h.running_step hstep
    refine ⟨hrunning, hqueued, ?_, h.finished_nodup, hsub, hcompleted⟩
    dsimp only
    rw [hoprs]
    exact h.pending_eq
  | finish op hexecuted hfinished hcompleted =>
    refine ⟨h.running, h.queued, ?_, ?_, fun op' hop' => ?_, fun v e he hop' => ?_⟩
    · have := h.pending_eq
      simp only [List.length_append, List.length_singleton]
      omega
    · rw [← List.concat_eq_append, List.nodup_concat]
      exact ⟨hfinished, h.finished_nodup⟩
    · rcases List.mem_append.mp hop' with hop' | hop'
      · exact h.finished_sub op' hop'
      · rwa [List.mem_singleton.mp hop']
    · rcases List.mem_append.mp hop' with hop' | hop'
      · exact h.completed v e he hop'
      · exact hcompleted v e he (List.mem_singleton.mp hop')

theorem Inv.init (m₀ : EngineMemory α ε) : Inv m₀ { mem := m₀ } :=
  ⟨.init m₀, ⟨by simp [PushOrdered], by simp⟩, rfl, List.nodup_nil, by simp, by simp⟩

theorem Inv.finished_lt (h : q.Inv m₀) : ∀ op ∈ q.finished, op < q.engine.oprs.length :=
  fun op hop =>
    let hc := h.running.consistent
    hc.dispatched_lt op (hc.executed_sub op (h.finished_sub op hop))

theorem Inv.finished_length_le (h : q.Inv m₀) : q.finished.length ≤ q.engine.oprs.length := by
  have hsub : q.finished ⊆ List.range q.engine.oprs.length := fun op hop =>
    List.mem_range.mpr (h.finished_lt op hop)
  simpa using (List.subperm_of_subset h.finished_nodup hsub).length_le

/-- When no operation is pending, all of them have completed on their variables. -/
theorem Inv.settled (h : q.Inv m₀) (hpending : q.pending = 0) (v : ℕ) : q.engine.Settled v := by
  have hc := h.running.consistent
  rintro op ⟨o, hopr, hv⟩
  have hlt := (List.getElem?_eq_some_iff.mp hopr).1
  have hfinished : op ∈ q.finished := by
    have hperm : q.finished.Perm (List.range q.engine.oprs.length) := by
      refine List.Subperm.perm_of_length_le (List.subperm_of_subset h.finished_nodup
        fun op hop => List.mem_range.mpr (h.finished_lt op hop)) ?_
      have := h.pending_eq
      rw [List.length_range]
      omega
    exact hperm.mem_iff.mpr (List.mem_range.mpr hlt)
  have huse : Uses q.engine.oprs v (op, decide (v ∈ o.mutableVars)) :=
    ⟨o, hopr, List.mem_append_right _ hv, rfl⟩
  have hcount := (hc.var v).complete_once _ huse
  have hexecuted := List.count_pos_iff.mpr (h.finished_sub op hfinished)
  rw [List.count_eq_zero.mpr fun he => h.completed v _ he hfinished] at hcount
  dsimp only at hcount
  have hcompleted : (op, decide (v ∈ o.mutableVars)) ∈ (q.engine.vars v).completed :=
    List.count_pos_iff.mp (by omega)
  exact List.mem_map_of_mem hcompleted

/-- The check on the counter does not fail, and when `WaitForAll` returns the memory is that of the
naive engine. -/
theorem waitForAll_memory {k : ℕ} (h : Steps Step k { mem := m₀ } q) :
    0 ≤ q.pending ∧
      (q.pending = 0 →
        q.mem = ((List.range q.engine.oprs.length).map q.fn).foldl NaiveEngine.pushAsync m₀) := by
  have hinv : q.Inv m₀ :=
    Steps.invariant (P := Inv m₀) h (.init m₀) fun _ _ hq hstep => hq.step hstep
  refine ⟨?_, fun hpending => funext fun l => ?_⟩
  · have := hinv.pending_eq
    have := hinv.finished_length_le
    omega
  · exact hinv.running.mem_eq hinv.queued.ordered (hinv.settled hpending l.var)

theorem oprs_of_decrWait {s s' : ThreadedEngine} {op : ℕ} (h : s.decrWait op = some s') :
    s'.oprs = s.oprs := by
  rw [decrWait] at h
  split_ifs at h
  rw [← Option.some.inj h]

theorem oprs_of_run {s s' : ThreadedEngine} {t : Task} {next : List Task}
    (h : s.run t = some (s', next)) : s'.oprs = s.oprs := by
  cases t with
  | append v e =>
    obtain ⟨⟨x, granted⟩, -, h⟩ := Option.bind_eq_some_iff.mp h
    obtain ⟨s'', hs, h⟩ := Option.map_eq_some_iff.mp h
    rw [← (Prod.mk.inj h).1]
    split_ifs at hs
    · rw [← Option.some.inj hs]
    · rw [oprs_of_decrWait hs]
  | decrWait op =>
    obtain ⟨s'', hs, h⟩ := Option.bind_eq_some_iff.mp h
    rw [← (Prod.mk.inj (Option.some.inj h)).1]
    have hoprs := oprs_of_decrWait hs
    split_ifs <;> exact hoprs
  | setToDelete v => rw [← (Prod.mk.inj (Option.some.inj h)).1]
  | complete v e =>
    obtain ⟨⟨x, granted⟩, -, h⟩ := Option.bind_eq_some_iff.mp h
    rw [← (Prod.mk.inj (Option.some.inj h)).1]

/-- The engine pushes one operation, or none. -/
theorem oprs_of_step {p p' : RunningEngine α ε} (h : RunningEngine.Step p p') :
    p'.engine.oprs.length = p.engine.oprs.length + 1 ∨ p'.engine.oprs = p.engine.oprs := by
  cases h with
  | push o => exact .inl List.length_append
  | run s l₁ l₂ t others next hcalls hdone hrun => exact .inr (oprs_of_run hrun)
  | execute | read | write => exact .inr rfl

/-- A run of the engine counts the operations as pending until `OnComplete` ends. -/
theorem steps_of_running {k : ℕ} {p : RunningEngine α ε}
    (h : Steps SerialStep k { mem := m₀ } p) :
    Steps Step k { mem := m₀ } { toRunningEngine := p, pending := p.engine.oprs.length } := by
  generalize hstart : ({ mem := m₀ } : RunningEngine α ε) = p₀ at h
  induction h with
  | refl =>
    subst hstart
    exact .refl _
  | @tail k p₀ p p' hsteps hstep ih =>
    rcases oprs_of_step hstep.1 with hpush | hoprs
    · rw [hpush, Nat.cast_add, Nat.cast_one]
      exact (ih hstart).tail (.push _ p' hstep hpush)
    · rw [hoprs]
      exact (ih hstart).tail (.other _ p' hstep hoprs)

/-- After the two operations that conflict nothing is pending. -/
theorem waitForAll_memory_conflict :
    ∃ q : PendingEngine ℕ Unit, q.engine.oprs.length = 2 ∧ q.pending = 0 ∧
      q.mem (.data 0) = (8 : ℕ) ∧
      q.mem = ((List.range q.engine.oprs.length).map q.fn).foldl NaiveEngine.pushAsync threes := by
  obtain ⟨p, h, hmem, hcalls, -, hexecuted, hlen, -⟩ := conflict_steps
  have hdone : ∀ op : ℕ, ∀ v e, Task.complete v e ∈ p.calls.flatten → e.1 ≠ op := by
    simp [hcalls]
  have h₁ := (steps_of_running h).tail
    (.finish _ 0 (by simp [hexecuted]) (by simp) (hdone 0))
  have h₂ := h₁.tail (.finish _ 1 (by simp [hexecuted]) (by simp) (hdone 1))
  have hpending : ((p.engine.oprs.length : ℤ) - 1 - 1) = 0 := by omega
  exact ⟨_, hlen, hpending, hmem, (waitForAll_memory h₂).2 hpending⟩

end PendingEngine

end NetStorm

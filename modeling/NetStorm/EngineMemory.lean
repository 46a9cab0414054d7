import NetStorm.ConflictOrder
import NetStorm.Library.Serialization

/-!
# What the operations of the engine compute

An operation reads and writes the arrays of its variables one access at a time, from when a worker
executes it, and completes on a variable when it does not access it any more. The accesses of
operations that run at the same time are interleaved without restriction. When one thread pushes,
the arrays are nevertheless those of the naive engine, which runs every operation at its push. The
functions do not fail here: an operation whose function does makes the engine skip the operations
that depend on it, and these the naive engine runs.
-/
namespace NetStorm

/-- What an operation can access: the array behind a variable, and the exception at it. -/
inductive Location
  | data (v : ℕ)
  | exception (v : ℕ)
  deriving DecidableEq

def Location.var : Location → ℕ
  | data v => v
  | exception v => v

/-- The type of a location: an array, or an exception if there is one. -/
abbrev Contents (α ε : Type) : Location → Type
  | .data _ => α
  | .exception _ => Option ε

abbrev EngineMemory (α ε : Type) := (l : Location) → Contents α ε l

/-- The function of an operation. -/
abbrev AsyncFn (α ε : Type) := Program Location (Contents α ε) Unit

/-- The locations of some variables. -/
def locations (vs : List ℕ) : Set Location := { l | l.var ∈ vs }

/-- `NaiveEngine::PushAsync`, which runs the function. -/
def NaiveEngine.pushAsync {α ε : Type} (m : EngineMemory α ε) (fn : AsyncFn α ε) :
    EngineMemory α ε :=
  fn.run m

namespace ThreadedEngine

/-- The locations that an operation may access. -/
def uses (s : ThreadedEngine) (op : ℕ) : Set Location :=
  { l | ∃ o, s.oprs[op]? = some o ∧ l.var ∈ o.vars }

/-- The locations that an operation may write. -/
def mutates (s : ThreadedEngine) (op : ℕ) : Set Location := { l | s.Mutates l.var op }

/-- The locations that an operation has got and has not completed on. -/
def held (s : ThreadedEngine) (op : ℕ) : Set Location := { l | s.InUse l.var op }

/-- All operations pushed so far that mutate the variable have completed on it. -/
def Settled (s : ThreadedEngine) (v : ℕ) : Prop :=
  ∀ op, s.Mutates v op → op ∈ (s.vars v).completed.map Prod.fst

end ThreadedEngine

/-- The engine with the functions of its operations, what is left of each, and the memory. -/
structure RunningEngine (α ε : Type) where
  engine : ThreadedEngine := {}
  calls : List (List Task) := []
  fn : ℕ → AsyncFn α ε := fun _ => .pure ()
  rest : ℕ → AsyncFn α ε := fun _ => .pure ()
  mem : EngineMemory α ε

namespace RunningEngine
open ThreadedEngine
variable {α ε : Type}

/-- One step of the engine or of an operation. -/
inductive Step : RunningEngine α ε → RunningEngine α ε → Prop
  | push (p : RunningEngine α ε) (o : ThreadedOpr) (fn : AsyncFn α ε) (hnodup : o.vars.Nodup)
      (hfn : fn.Within (locations o.vars) (locations o.mutableVars)) :
      Step p
        { p with
          engine := p.engine.push o
          calls := p.calls ++ [o.pushTasks p.engine.oprs.length]
          fn := Function.update p.fn p.engine.oprs.length fn
          rest := Function.update p.rest p.engine.oprs.length fn }
  -- an operation completes on a variable that it does not access any more
  | run (p : RunningEngine α ε) (s : ThreadedEngine) (l₁ l₂ : List (List Task)) (t : Task)
      (others next : List Task) (hcalls : p.calls = l₁ ++ (t :: others) :: l₂)
      (hdone : ∀ v e, t = .complete v e →
        (p.rest e.1).Within { l | l.var ≠ v } { l | l.var ≠ v })
      (hrun : p.engine.run t = some (s, next)) :
      Step p { p with engine := s, calls := l₁ ++ (next ++ others) :: l₂ }
  | execute (p : RunningEngine α ε) (op : ℕ) (o : ThreadedOpr)
      (hopr : p.engine.oprs[op]? = some o) (hdispatched : op ∈ p.engine.dispatched)
      (hexecuted : op ∉ p.engine.executed) :
      Step p
        { p with
          engine := { p.engine with executed := p.engine.executed ++ [op] }
          calls := p.calls ++ [o.executeTasks op] }
  | read (p : RunningEngine α ε) (op : ℕ) (l : Location)
      (next : Contents α ε l → AsyncFn α ε) (hexecuted : op ∈ p.engine.executed)
      (hrest : p.rest op = .read l next) :
      Step p { p with rest := Function.update p.rest op (next (p.mem l)) }
  | write (p : RunningEngine α ε) (op : ℕ) (l : Location) (x : Contents α ε l)
      (next : AsyncFn α ε) (hexecuted : op ∈ p.engine.executed)
      (hrest : p.rest op = .write l x next) :
      Step p
        { p with
          rest := Function.update p.rest op next
          mem := Function.update p.mem l x }

/-- What holds in every run from the memory `m₀`. -/
structure Inv (m₀ : EngineMemory α ε) (p : RunningEngine α ε) : Prop where
  consistent : p.engine.Consistent p.calls.flatten
  serialized : Serialized p.fn p.engine.mutates m₀ p.engine.dispatched p.rest p.engine.held p.mem
  within : ∀ op, (p.fn op).Within (p.engine.uses op) (p.engine.mutates op)
  rest_within : ∀ op ∈ p.engine.dispatched,
    (p.rest op).Within (p.engine.held op) (p.engine.held op ∩ p.engine.mutates op)
  rest_eq : ∀ op ∉ p.engine.dispatched, p.rest op = p.fn op

theorem mutates_sub_uses (s : ThreadedEngine) (op : ℕ) : s.mutates op ⊆ s.uses op := by
  rintro l ⟨o, hopr, hl⟩
  exact ⟨o, hopr, List.mem_append_right _ hl⟩

/-- Two operations that are using a variable read it. -/
theorem exclusive {s : ThreadedEngine} {tasks : List Task} (hc : s.Consistent tasks) {v op op' : ℕ}
    (hop : s.InUse v op) (hop' : s.InUse v op') (hne : op ≠ op') : ¬ s.Mutates v op := by
  obtain ⟨e, he, rfl, huse⟩ := hc.running_of_inUse hop
  obtain ⟨e', he', rfl, -⟩ := hc.running_of_inUse hop'
  have hreads := (hc.var v).ok.fits.exclusive he he' (ne_of_apply_ne Prod.fst hne)
  rintro ⟨o, hopr, hv⟩
  exact absurd (huse.writes hopr hv) (by simp [hreads])

section Held
variable {s s' : ThreadedEngine}

theorem held_congr (hoprs : s'.oprs = s.oprs) (hdispatched : s'.dispatched = s.dispatched)
    (hcompleted : ∀ v, (s'.vars v).completed = (s.vars v).completed) : s'.held = s.held := by
  funext op
  ext l
  simp only [held, InUse, Set.mem_ofPred_eq, hoprs, hdispatched, hcompleted]

theorem mutates_congr (hoprs : s'.oprs = s.oprs) : s'.mutates = s.mutates := by
  funext op
  ext l
  simp only [mutates, Mutates, Set.mem_ofPred_eq, hoprs]

theorem uses_congr (hoprs : s'.oprs = s.oprs) : s'.uses = s.uses := by
  funext op
  ext l
  simp only [uses, Set.mem_ofPred_eq, hoprs]

end Held

variable {p p' : RunningEngine α ε} {m₀ : EngineMemory α ε}

/-- Only the tasks and the queues change. -/
theorem Inv.congr (h : p.Inv m₀) {s : ThreadedEngine} {calls : List (List Task)}
    (hc : s.Consistent calls.flatten) (hoprs : s.oprs = p.engine.oprs)
    (hdispatched : s.dispatched = p.engine.dispatched)
    (hcompleted : ∀ v, (s.vars v).completed = (p.engine.vars v).completed) :
    Inv m₀ { p with engine := s, calls := calls } where
  consistent := hc
  serialized := by
    dsimp only
    rw [held_congr hoprs hdispatched hcompleted, mutates_congr hoprs, hdispatched]
    exact h.serialized
  within op := by
    dsimp only
    rw [uses_congr hoprs, mutates_congr hoprs]
    exact h.within op
  rest_within op hop := by
    dsimp only at hop ⊢
    rw [held_congr hoprs hdispatched hcompleted, mutates_congr hoprs]
    exact h.rest_within op (hdispatched ▸ hop)
  rest_eq op hop := h.rest_eq op (hdispatched ▸ hop)

theorem getElem?_push {s : ThreadedEngine} {o : ThreadedOpr} {op : ℕ} (hne : op ≠ s.oprs.length) :
    (s.push o).oprs[op]? = s.oprs[op]? := by
  change (s.oprs ++ [o])[op]? = _
  rcases Nat.lt_or_gt_of_ne hne with hlt | hgt
  · exact List.getElem?_append_left hlt
  · rw [List.getElem?_eq_none (by simp; omega), List.getElem?_eq_none hgt.le]

theorem Inv.push (h : p.Inv m₀) (o : ThreadedOpr) (fn : AsyncFn α ε) (hnodup : o.vars.Nodup)
    (hfn : fn.Within (locations o.vars) (locations o.mutableVars)) :
    Inv m₀ { p with
      engine := p.engine.push o
      calls := p.calls ++ [o.pushTasks p.engine.oprs.length]
      fn := Function.update p.fn p.engine.oprs.length fn
      rest := Function.update p.rest p.engine.oprs.length fn } := by
  have hne : ∀ op ∈ p.engine.dispatched, op ≠ p.engine.oprs.length := fun op hop =>
    (h.consistent.dispatched_lt op hop).ne
  have huses : ∀ op, op ≠ p.engine.oprs.length → (p.engine.push o).uses op = p.engine.uses op := by
    intro op hop
    simp only [uses, getElem?_push hop]
  have hmutates : ∀ op, op ≠ p.engine.oprs.length →
      (p.engine.push o).mutates op = p.engine.mutates op := by
    intro op hop
    simp only [mutates, Mutates, getElem?_push hop]
  have hheld : ∀ op, op ≠ p.engine.oprs.length → (p.engine.push o).held op = p.engine.held op := by
    intro op hop
    simp only [held, InUse, getElem?_push hop]
    rfl
  have hlast : (p.engine.push o).oprs[p.engine.oprs.length]? = some o :=
    List.getElem?_concat_length
  refine ⟨?_, ?_, fun op => ?_, fun op hop => ?_, fun op hop => ?_⟩
  · exact Consistent.step h.consistent (.push _ _ o hnodup)
  · exact h.serialized.congr (fun op hop => Function.update_of_ne (hne op hop) ..)
      (fun op hop => hmutates op (hne op hop)) (fun op hop => Function.update_of_ne (hne op hop) ..)
      fun op hop => hheld op (hne op hop)
  · by_cases hop : op = p.engine.oprs.length
    · subst hop
      dsimp only
      rw [Function.update_self]
      exact hfn.mono (fun l hl => ⟨o, hlast, hl⟩) fun l hl => ⟨o, hlast, hl⟩
    · dsimp only
      rw [Function.update_of_ne hop, huses op hop, hmutates op hop]
      exact h.within op
  · dsimp only
    rw [Function.update_of_ne (hne op hop), hheld op (hne op hop), hmutates op (hne op hop)]
    exact h.rest_within op hop
  · dsimp only
    by_cases heq : op = p.engine.oprs.length
    · rw [heq, Function.update_self, Function.update_self]
    · rw [Function.update_of_ne heq, Function.update_of_ne heq, h.rest_eq op hop]

/-- An operation that is dispatched has got its variables, and no other one that uses them
conflicts with it. -/
theorem Inv.dispatch (h : p.Inv m₀) {s : ThreadedEngine} {calls : List (List Task)} {op : ℕ}
    (hc : s.Consistent calls.flatten) (hoprs : s.oprs = p.engine.oprs)
    (hdispatched : s.dispatched = p.engine.dispatched ++ [op])
    (hcompleted : ∀ v, (s.vars v).completed = (p.engine.vars v).completed)
    (hnew : op ∉ p.engine.dispatched) :
    Inv m₀ { p with engine := s, calls := calls } := by
  have hself : s.held op = p.engine.uses op := by
    ext l
    simp only [held, InUse, uses, Set.mem_ofPred_eq, hoprs, hdispatched, hcompleted]
    constructor
    · rintro ⟨o, hopr, hv, -⟩
      exact ⟨o, hopr, hv⟩
    · rintro ⟨o, hopr, hv⟩
      refine ⟨o, hopr, hv, by simp, fun hmem => hnew ?_⟩
      obtain ⟨e, he, rfl⟩ := List.mem_map.mp hmem
      exact h.consistent.dispatched_of_completed he
  have hother : ∀ op' ∈ p.engine.dispatched, s.held op' = p.engine.held op' := by
    intro op' hop'
    ext l
    simp only [held, InUse, Set.mem_ofPred_eq, hoprs, hdispatched, hcompleted, List.mem_append,
      hop', true_or]
  have hne : ∀ op' ∈ p.engine.dispatched, op' ≠ op := fun op' hop' heq => hnew (heq ▸ hop')
  have hstart := h.serialized.start hnew (h.within op) (mutates_sub_uses _ op)
    fun op' hop' l hl huse => by
      have hl' : s.InUse l.var op' := by
        change l ∈ s.held op'
        rwa [hother op' hop']
      have hop : s.InUse l.var op := by
        change l ∈ s.held op
        rwa [hself]
      rw [← mutates_congr hoprs]
      exact ⟨exclusive hc hl' hop (hne op' hop'), exclusive hc hop hl' (hne op' hop').symm⟩
  refine ⟨hc, ?_, fun op' => ?_, fun op' hop' => ?_, fun op' hop' => ?_⟩
  · dsimp only
    rw [mutates_congr hoprs, hdispatched]
    refine hstart.congr (fun _ _ => rfl) (fun _ _ => rfl) (fun op' hop' => ?_) fun op' hop' => ?_
    · by_cases heq : op' = op
      · rw [heq, Function.update_self, h.rest_eq op hnew]
      · rw [Function.update_of_ne heq]
    · by_cases heq : op' = op
      · rw [heq, Function.update_self, hself]
      · have hold : op' ∈ p.engine.dispatched := by simpa [heq] using hop'
        rw [Function.update_of_ne heq, hother op' hold]
  · dsimp only
    rw [uses_congr hoprs, mutates_congr hoprs]
    exact h.within op'
  · dsimp only at hop' ⊢
    rw [mutates_congr hoprs]
    rw [hdispatched] at hop'
    rcases List.mem_append.mp hop' with hop' | hop'
    · rw [hother op' hop']
      exact h.rest_within op' hop'
    · rw [List.mem_singleton.mp hop', hself, h.rest_eq op hnew]
      exact (h.within op).mono subset_rfl fun l hl => ⟨mutates_sub_uses _ op hl, hl⟩
  · refine h.rest_eq op' fun hold => hop' ?_
    dsimp only
    rw [hdispatched]
    exact List.mem_append_left _ hold

/-- An operation completes on a variable that it does not access any more. -/
theorem Inv.complete (h : p.Inv m₀) {s : ThreadedEngine} {calls : List (List Task)} {v : ℕ}
    {e : ℕ × Bool} (hc : s.Consistent calls.flatten) (hoprs : s.oprs = p.engine.oprs)
    (hdispatched : s.dispatched = p.engine.dispatched) (he : e.1 ∈ p.engine.dispatched)
    (hcompleted : ∀ u, (s.vars u).completed =
      if u = v then (p.engine.vars u).completed ++ [e] else (p.engine.vars u).completed)
    (hdone : (p.rest e.1).Within { l | l.var ≠ v } { l | l.var ≠ v }) :
    Inv m₀ { p with engine := s, calls := calls } := by
  have hself : s.held e.1 = p.engine.held e.1 ∩ { l | l.var ≠ v } := by
    ext l
    simp only [held, InUse, Set.mem_inter_iff, Set.mem_ofPred_eq, hoprs, hdispatched, hcompleted]
    by_cases hl : l.var = v <;> simp [hl]
  have hother : ∀ op, op ≠ e.1 → s.held op = p.engine.held op := by
    intro op hop
    ext l
    simp only [held, InUse, Set.mem_ofPred_eq, hoprs, hdispatched, hcompleted]
    by_cases hl : l.var = v <;> simp [hl, hop]
  have hrelease := h.serialized.release he (hself ▸ Set.inter_subset_left : s.held e.1 ⊆ _) hdone
    fun l hl hnot hne => hnot (hself ▸ ⟨hl, hne⟩)
  refine ⟨hc, ?_, fun op => ?_, fun op hop => ?_, fun op hop => h.rest_eq op (hdispatched ▸ hop)⟩
  · dsimp only
    rw [mutates_congr hoprs, hdispatched]
    refine hrelease.congr (fun _ _ => rfl) (fun _ _ => rfl) (fun _ _ => rfl) fun op _ => ?_
    by_cases hop : op = e.1
    · rw [hop, Function.update_self]
    · rw [Function.update_of_ne hop, hother op hop]
  · dsimp only
    rw [uses_congr hoprs, mutates_congr hoprs]
    exact h.within op
  · dsimp only at hop ⊢
    rw [hdispatched] at hop
    rw [mutates_congr hoprs]
    by_cases heq : op = e.1
    · subst heq
      rw [hself, Set.inter_right_comm]
      exact (h.rest_within e.1 hop).inter hdone
    · rw [hother op heq]
      exact h.rest_within op hop

theorem Inv.read (h : p.Inv m₀) {op : ℕ} {l : Location} {next : Contents α ε l → AsyncFn α ε}
    (hdispatched : op ∈ p.engine.dispatched) (hrest : p.rest op = .read l next) :
    Inv m₀ { p with rest := Function.update p.rest op (next (p.mem l)) } := by
  have hwithin := h.rest_within op hdispatched
  rw [hrest] at hwithin
  refine ⟨h.consistent, h.serialized.read hrest hwithin.1, h.within, fun op' hop' => ?_,
    fun op' hop' => ?_⟩
  · dsimp only
    by_cases heq : op' = op
    · rw [heq, Function.update_self]
      exact hwithin.2 _
    · rw [Function.update_of_ne heq]
      exact h.rest_within op' hop'
  · have hne : op' ≠ op := fun heq => hop' (heq ▸ hdispatched)
    dsimp only
    rw [Function.update_of_ne hne, h.rest_eq op' hop']

theorem Inv.write (h : p.Inv m₀) {op : ℕ} {l : Location} {x : Contents α ε l}
    {next : AsyncFn α ε} (hdispatched : op ∈ p.engine.dispatched)
    (hrest : p.rest op = .write l x next) :
    Inv m₀ { p with
      rest := Function.update p.rest op next
      mem := Function.update p.mem l x } := by
  have hwithin := h.rest_within op hdispatched
  rw [hrest] at hwithin
  refine ⟨h.consistent, h.serialized.write hdispatched hrest hwithin.1.1 hwithin.1.2, h.within,
    fun op' hop' => ?_, fun op' hop' => ?_⟩
  · dsimp only
    by_cases heq : op' = op
    · rw [heq, Function.update_self]
      exact hwithin.2
    · rw [Function.update_of_ne heq]
      exact h.rest_within op' hop'
  · have hne : op' ≠ op := fun heq => hop' (heq ▸ hdispatched)
    dsimp only
    rw [Function.update_of_ne hne, h.rest_eq op' hop']

theorem Inv.run (h : p.Inv m₀) {s : ThreadedEngine} {l₁ l₂ : List (List Task)} {t : Task}
    {others next : List Task} (hcalls : p.calls = l₁ ++ (t :: others) :: l₂)
    (hdone : ∀ v e, t = .complete v e → (p.rest e.1).Within { l | l.var ≠ v } { l | l.var ≠ v })
    (hrun : p.engine.run t = some (s, next)) :
    Inv m₀ { p with engine := s, calls := l₁ ++ (next ++ others) :: l₂ } := by
  have hold := h.consistent
  rw [hcalls] at hold
  have hc : s.Consistent (l₁ ++ (next ++ others) :: l₂).flatten :=
    Consistent.step (p := (p.engine, l₁ ++ (t :: others) :: l₂)) hold
      (.run _ _ l₁ l₂ t others next hrun)
  rw [List.flatten_append, List.flatten_cons, List.cons_append] at hold
  have hfirst := hold.perm List.perm_middle
  cases t with
  | append v e =>
    obtain ⟨x, g, happend, rfl, -, rfl⟩ := run_append (hfirst.var v).ok hrun
    obtain ⟨x, -, rfl⟩ := VarHistory.append_eq happend
    refine h.congr hc rfl rfl fun u => ?_
    by_cases hu : u = v <;> simp [hu]
  | decrWait op =>
    obtain ⟨rfl, hpos, rfl⟩ := run_decrWait hrun
    by_cases hone : p.engine.wait op = 1
    · refine h.dispatch hc rfl (if_pos hone) (fun _ => rfl) fun hop => ?_
      have := hfirst.dispatched_zero op hop
      omega
    · exact h.congr hc rfl (if_neg hone) fun _ => rfl
  | setToDelete v =>
    obtain ⟨rfl, rfl⟩ := Prod.mk.inj (Option.some.inj hrun)
    refine h.congr hc rfl rfl fun u => ?_
    by_cases hu : u = v
    · subst hu
      simp [VarHistory.setToDelete]
    · simp [hu]
  | complete v e =>
    have hrunning := hfirst.running_of_complete
    obtain ⟨x, g, hcomplete, rfl, rfl⟩ := run_complete hrun
    obtain ⟨x, -, rfl⟩ := VarHistory.complete_eq hcomplete
    have he : e.1 ∈ p.engine.dispatched := by
      have hcount := (hfirst.var v).complete_once e (hfirst.formed _ List.mem_cons_self)
      rw [List.count_cons_self] at hcount
      exact hfirst.executed_sub e.1 (List.count_pos_iff.mp (by omega))
    refine h.complete hc rfl rfl he (fun u => ?_) (hdone v e rfl)
    by_cases hu : u = v <;> simp [hu]

theorem Inv.step (h : p.Inv m₀) (hstep : Step p p') : p'.Inv m₀ := by
  cases hstep with
  | push o fn hnodup hfn => exact h.push o fn hnodup hfn
  | run s l₁ l₂ t others next hcalls hdone hrun => exact h.run hcalls hdone hrun
  | execute op o hopr hdispatched hexecuted =>
    exact h.congr (Consistent.step h.consistent (.execute _ _ op o hopr hdispatched hexecuted)) rfl
      rfl fun _ => rfl
  | read op l next hexecuted hrest => exact h.read (h.consistent.executed_sub op hexecuted) hrest
  | write op l x next hexecuted hrest =>
    exact h.write (h.consistent.executed_sub op hexecuted) hrest

/-- Every operation is queued at a variable behind those that were pushed before it and use the
variable. -/
def PushOrdered (s : ThreadedEngine) : Prop :=
  ∀ v k₁ e k₂, (s.vars v).appended = k₁ ++ e :: k₂ →
    ∀ e', Uses s.oprs v e' → e'.1 < e.1 → e' ∈ k₁

/-- The operations that have been dispatched, and then the other ones. -/
def dispatchedFirst (s : ThreadedEngine) : List ℕ :=
  s.dispatched ++ (List.range s.oprs.length).filter fun op => op ∉ s.dispatched

theorem dispatchedFirst_perm {s : ThreadedEngine} {tasks : List Task} (hc : s.Consistent tasks) :
    (dispatchedFirst s).Perm (List.range s.oprs.length) := by
  refine (List.perm_ext_iff_of_nodup ?_ List.nodup_range).mpr fun op => ?_
  · refine List.nodup_append.mpr ⟨hc.dispatched_nodup, List.nodup_range.filter _, ?_⟩
    rintro op hop op' hop' rfl
    simp [hop] at hop'
  · simp only [dispatchedFirst, List.mem_append, List.mem_filter, decide_eq_true_eq, List.mem_range]
    have := hc.dispatched_lt op
    tauto

theorem pairwise_of_split {r : ℕ → ℕ → Prop} {l : List ℕ}
    (h : ∀ l₁ a l₂, l = l₁ ++ a :: l₂ → ∀ b ∈ l₂, r a b) : l.Pairwise r := by
  induction l with
  | nil => exact List.Pairwise.nil
  | cons a l ih =>
    refine List.pairwise_cons.mpr ⟨fun b hb => h [] a l rfl b hb, ih fun l₁ c l₂ heq => ?_⟩
    exact h (a :: l₁) c l₂ (by rw [heq, List.cons_append])

/-- Of two conflicting operations the one that was pushed first comes first. -/
theorem dispatchedFirst_pairwise {s : ThreadedEngine} {tasks : List Task} (hc : s.Consistent tasks)
    (hordered : PushOrdered s) :
    (dispatchedFirst s).Pairwise fun op op' => Conflict s.uses s.mutates op op' → op ≤ op' := by
  -- an operation is dispatched after the ones pushed before it that conflict with it
  have hbefore : ∀ l₁ op l₂ op', s.dispatched = l₁ ++ op :: l₂ →
      Conflict s.uses s.mutates op op' → op' < op → op' ∈ l₁ := by
    rintro l₁ op l₂ op' hdispatched ⟨l, hconflict⟩ hlt
    have huses : l ∈ s.uses op ∧ l ∈ s.uses op' := by
      rcases hconflict with ⟨hl, hl'⟩ | ⟨hl, hl'⟩
      · exact ⟨mutates_sub_uses s op hl, hl'⟩
      · exact ⟨hl, mutates_sub_uses s op' hl'⟩
    obtain ⟨⟨o, hopr, hv⟩, o', hopr', hv'⟩ := huses
    have huse : Uses s.oprs l.var (op, decide (l.var ∈ o.mutableVars)) := ⟨o, hopr, hv, rfl⟩
    have huse' : Uses s.oprs l.var (op', decide (l.var ∈ o'.mutableVars)) := ⟨o', hopr', hv', rfl⟩
    have hgranted := (hc.var l.var).granted _ (by simp [hdispatched]) huse
    obtain ⟨k₁, k₂, happended⟩ :=
      List.append_of_mem ((hc.var l.var).ok.granted_sub hgranted)
    refine (hc.var l.var).ordered l₁ l₂ k₁ k₂ _ _ hdispatched happended
      (hordered l.var k₁ _ k₂ happended _ huse' hlt) ?_
    rcases hconflict with ⟨⟨o₁, hopr₁, hl⟩, -⟩ | ⟨-, o₁, hopr₁, hl⟩
    · exact .inr (huse.writes hopr₁ hl)
    · exact .inl (huse'.writes hopr₁ hl)
  refine List.pairwise_append.mpr ⟨?_, ?_, fun op hop op' hop' hconflict => ?_⟩
  · refine pairwise_of_split fun l₁ op l₂ hdispatched op' hop' hconflict => ?_
    by_contra hlt
    have hmem := hbefore l₁ op l₂ op' hdispatched hconflict (by omega)
    have hnodup := hc.dispatched_nodup
    rw [hdispatched] at hnodup
    exact (List.nodup_append.mp hnodup).2.2 op' hmem op' (List.mem_cons_of_mem _ hop') rfl
  · exact (List.pairwise_lt_range.imp fun hlt _ => hlt.le).filter _
  · by_contra hlt
    obtain ⟨l₁, l₂, hdispatched⟩ := List.append_of_mem hop
    have hmem := hbefore l₁ op l₂ op' hdispatched hconflict (by omega)
    simp [hdispatched, hmem] at hop'

/-- A variable on which the operations that mutate it have completed has the contents that the
operations leave there one after another, in the order of their pushes. -/
theorem Inv.mem_eq (h : p.Inv m₀) (hordered : PushOrdered p.engine) {l : Location}
    (hl : p.engine.Settled l.var) :
    p.mem l = Program.runAll ((List.range p.engine.oprs.length).map p.fn) m₀ l := by
  have hc := h.consistent
  have hdispatched : ∀ op, l ∈ p.engine.mutates op → op ∈ p.engine.dispatched := by
    intro op hop
    obtain ⟨e, he, rfl⟩ := List.mem_map.mp (hl op hop)
    exact hc.dispatched_of_completed he
  have hsorted : (dispatchedFirst p.engine).insertionSort (· ≤ ·) =
      List.range p.engine.oprs.length :=
    ((List.perm_insertionSort _ _).trans (dispatchedFirst_perm hc)).eq_of_pairwise
      (fun a b _ _ => le_antisymm) (List.pairwise_insertionSort _ _)
      (List.pairwise_lt_range.imp le_of_lt)
  have hsettled : p.mem l = Program.runAll (p.engine.dispatched.map p.fn) m₀ l := by
    refine h.serialized.settled l fun op _ hw hheld => ?_
    obtain ⟨-, -, -, -, hnot⟩ := hheld
    exact hnot (hl op hw)
  rw [← hsorted, runAll_insertionSort h.within (mutates_sub_uses _) (dispatchedFirst_pairwise hc
    hordered), dispatchedFirst, List.map_append, Program.runAll_append, Program.runAll_eq, hsettled]
  intro fn hfn m
  obtain ⟨op, hop, rfl⟩ := List.mem_map.mp hfn
  refine (h.within op).run_eq (fun hw => ?_) m
  simp [hdispatched op hw] at hop

theorem Inv.init (m₀ : EngineMemory α ε) : Inv m₀ { mem := m₀ } :=
  ⟨Consistent.empty, .empty .., fun _ => trivial, by simp, fun _ _ => rfl⟩

/-- A step when one thread pushes: a push begins after the appends of the one before it. -/
def SerialStep (p p' : RunningEngine α ε) : Prop :=
  Step p p' ∧ (p'.engine.oprs ≠ p.engine.oprs → ∀ v e, Task.append v e ∉ p.calls.flatten)

/-- What one pushing thread keeps: the appends that are left are those of the last push. -/
structure Queued (s : ThreadedEngine) (tasks : List Task) : Prop where
  ordered : PushOrdered s
  last : ∀ v e, Task.append v e ∈ tasks → e.1 + 1 = s.oprs.length

section Queued
variable {s s' : ThreadedEngine} {tasks others next : List Task}

theorem Queued.perm {tasks' : List Task} (h : Queued s tasks) (hperm : tasks.Perm tasks') :
    Queued s tasks' :=
  ⟨h.ordered, fun v e he => h.last v e (hperm.mem_iff.mpr he)⟩

theorem Queued.congr (h : Queued s tasks) {tasks' : List Task} (hoprs : s'.oprs = s.oprs)
    (happended : ∀ v, (s'.vars v).appended = (s.vars v).appended)
    (htasks : ∀ v e, Task.append v e ∈ tasks' → Task.append v e ∈ tasks) : Queued s' tasks' where
  ordered v k₁ e k₂ heq e' huse hlt := by
    rw [hoprs] at huse
    exact h.ordered v k₁ e k₂ (happended v ▸ heq) e' huse hlt
  last v e he := by
    rw [hoprs]
    exact h.last v e (htasks v e he)

/-- The operations before the new one that use the variable are in the queue already. -/
theorem Queued.append {v : ℕ} {e : ℕ × Bool} (hc : s.Consistent (.append v e :: others))
    (h : Queued s (.append v e :: others)) (hoprs : s'.oprs = s.oprs)
    (happended : ∀ u, (s'.vars u).appended =
      if u = v then (s.vars u).appended ++ [e] else (s.vars u).appended) : Queued s' others where
  ordered u k₁ e₁ k₂ heq e' huse hlt := by
    rw [hoprs] at huse
    rw [happended] at heq
    split_ifs at heq with hu
    · subst hu
      rcases concat_eq_split heq with ⟨rfl, rfl, rfl⟩ | ⟨k, rfl, hsplit⟩
      · have honce := (hc.var u).append_once e' huse
        have hnone : (Task.append u e :: others).count (.append u e') = 0 := by
          refine List.count_eq_zero.mpr fun hmem => ?_
          have := h.last u e List.mem_cons_self
          have := h.last u e' hmem
          omega
        exact List.count_pos_iff.mp (by omega)
      · exact h.ordered u k₁ e₁ k hsplit e' huse hlt
    · exact h.ordered u k₁ e₁ k₂ heq e' huse hlt
  last u e' he' := by
    rw [hoprs]
    exact h.last u e' (List.mem_cons_of_mem _ he')

theorem Queued.run {t : Task} (hc : s.Consistent (t :: others)) (h : Queued s (t :: others))
    (hrun : s.run t = some (s', next)) : Queued s' (next ++ others) := by
  cases t with
  | append v e =>
    obtain ⟨x, g, happend, rfl, -, rfl⟩ := run_append (hc.var v).ok hrun
    obtain ⟨x, -, rfl⟩ := VarHistory.append_eq happend
    refine h.append hc rfl fun u => ?_
    by_cases hu : u = v <;> simp [hu]
  | decrWait op =>
    obtain ⟨rfl, -, rfl⟩ := run_decrWait hrun
    exact h.congr rfl (fun _ => rfl) fun v e he => List.mem_cons_of_mem _ he
  | setToDelete v =>
    obtain ⟨rfl, rfl⟩ := Prod.mk.inj (Option.some.inj hrun)
    refine h.congr rfl (fun u => ?_) fun v e he => List.mem_cons_of_mem _ he
    by_cases hu : u = v
    · subst hu
      simp [VarHistory.setToDelete]
    · simp [hu]
  | complete v e =>
    obtain ⟨x, g, hcomplete, rfl, rfl⟩ := run_complete hrun
    obtain ⟨x, -, rfl⟩ := VarHistory.complete_eq hcomplete
    refine h.congr rfl (fun u => ?_) fun u e' he' => ?_
    · by_cases hu : u = v <;> simp [hu]
    · rcases List.mem_append.mp he' with hmem | hmem
      · obtain ⟨e₁, -, heq⟩ := List.mem_map.mp hmem
        cases heq
      · exact List.mem_cons_of_mem _ hmem

theorem Queued.push (hc : s.Consistent tasks) (h : Queued s tasks) {o : ThreadedOpr}
    (hnodup : o.vars.Nodup) (hserial : ∀ v e, Task.append v e ∉ tasks) :
    Queued (s.push o) (tasks ++ o.pushTasks s.oprs.length) where
  ordered v k₁ e k₂ heq e' huse hlt := by
    have he := ((hc.var v).uses e (by simpa using heq ▸ by simp)).lt
    refine h.ordered v k₁ e k₂ heq e' ?_ hlt
    exact (uses_append.mp huse).resolve_right fun ⟨_, heq'⟩ => by
      rw [heq'] at hlt
      simp only at hlt
      omega
  last v e he := by
    rcases List.mem_append.mp he with he | he
    · exact absurd he (hserial v e)
    · rcases ThreadedOpr.mem_pushTasks hnodup he with heq | ⟨u, -, heq⟩
      · cases heq
      · cases heq
        simp [ThreadedEngine.push]

end Queued

theorem Queued.step (hinv : p.Inv m₀) (h : Queued p.engine p.calls.flatten)
    (hstep : SerialStep p p') : Queued p'.engine p'.calls.flatten := by
  obtain ⟨hstep, hserial⟩ := hstep
  cases hstep with
  | push o fn hnodup hfn =>
    dsimp only
    rw [List.flatten_append, List.flatten_singleton]
    exact h.push hinv.consistent hnodup (hserial (by simp [ThreadedEngine.push]))
  | run s l₁ l₂ t others next hcalls hdone hrun =>
    have hperm : p.calls.flatten.Perm (t :: (l₁.flatten ++ (others ++ l₂.flatten))) := by
      rw [hcalls, List.flatten_append, List.flatten_cons, List.cons_append]
      exact List.perm_middle
    refine ((h.perm hperm).run (hinv.consistent.perm hperm) hrun).perm ?_
    rw [List.flatten_append, List.flatten_cons, List.append_assoc]
    exact List.perm_append_comm_assoc ..
  | execute op o hopr hdispatched hexecuted =>
    refine h.congr rfl (fun _ => rfl) fun v e he => ?_
    rw [List.flatten_append, List.flatten_singleton] at he
    rcases List.mem_append.mp he with he | he
    · exact he
    · rcases ThreadedOpr.mem_executeTasks (hinv.consistent.nodup o (List.mem_of_getElem? hopr)) he
        with ⟨u, heq⟩ | ⟨u, -, heq⟩ <;> cases heq
  | read | write => exact h

theorem inv_of_steps {k : ℕ} (h : Steps SerialStep k { mem := m₀ } p) :
    p.Inv m₀ ∧ Queued p.engine p.calls.flatten := by
  refine Steps.invariant (P := fun p => p.Inv m₀ ∧ Queued p.engine p.calls.flatten) h
    ⟨.init m₀, by simp [PushOrdered], by simp⟩ ?_
  exact fun p p' hp hstep => ⟨hp.1.step hstep.1, hp.2.step hp.1 hstep⟩

/-- A memory whose arrays all hold 3. -/
def threes : EngineMemory ℕ Unit
  | .data _ => (3 : ℕ)
  | .exception _ => none

/-- The function that replaces the array of variable 0 by what `f` makes of it. -/
def updateFn (f : ℕ → ℕ) : AsyncFn ℕ Unit :=
  .read (.data 0) fun x => .write (.data 0) (f x) (.pure ())

theorem updateFn_within (f : ℕ → ℕ) : (updateFn f).Within (locations [0]) (locations [0]) :=
  ⟨List.mem_singleton_self 0, fun _ => ⟨List.mem_singleton_self 0, trivial⟩⟩

/-- An operation that adds 1 to the array of variable 0, and one that doubles it and is pushed
between the read and the write of the first one. -/
theorem conflict_steps :
    ∃ p : RunningEngine ℕ Unit, Steps SerialStep 15 { mem := threes } p ∧
      p.mem (.data 0) = (8 : ℕ) ∧ p.calls.flatten = [] ∧ (p.engine.vars 0).var.queue = [] ∧
        p.engine.executed = [0, 1] ∧ p.engine.oprs.length = 2 ∧ p.engine.Settled 0 := by
  have hall : ∀ op < 2, op ∈ [0, 1] := by decide
  have h₁ := (@Steps.refl _ SerialStep ({ mem := threes } : RunningEngine ℕ Unit)).tail
    ⟨.push _ { mutableVars := [0] } (updateFn (· + 1)) (by decide) (updateFn_within _), by simp⟩
  have h₂ := h₁.tail ⟨.run _ _ [] [] _ _ _ rfl (by simp) rfl, fun hne => absurd rfl hne⟩
  have h₃ := h₂.tail ⟨.run _ _ [] [] _ _ _ rfl (by simp) rfl, fun hne => absurd rfl hne⟩
  have h₄ := h₃.tail ⟨.execute _ 0 _ rfl (by decide) (by decide), fun hne => absurd rfl hne⟩
  have h₅ := h₄.tail ⟨.read _ 0 (.data 0) _ (by decide) rfl, fun hne => absurd rfl hne⟩
  have h₆ := h₅.tail ⟨.push _ { mutableVars := [0] } (updateFn (· * 2)) (by decide)
    (updateFn_within _), fun _ v e => by simp [ThreadedOpr.executeTasks]⟩
  have h₇ := h₆.tail ⟨.run _ _ [[], [.complete 0 (0, true)]] [] _ _ _ rfl (by simp) rfl,
    fun hne => absurd rfl hne⟩
  have h₈ := h₇.tail ⟨.run _ _ [[], [.complete 0 (0, true)]] [] _ _ _ rfl (by simp) rfl,
    fun hne => absurd rfl hne⟩
  have h₉ := h₈.tail ⟨.write _ 0 (.data 0) _ _ (by decide) rfl, fun hne => absurd rfl hne⟩
  have h₁₀ := h₉.tail ⟨.run _ _ [[]] [[]] _ _ _ rfl (fun _ _ heq => by cases heq; trivial) rfl,
    fun hne => absurd rfl hne⟩
  have h₁₁ := h₁₀.tail ⟨.run _ _ [[]] [[]] _ _ _ rfl (by simp) rfl, fun hne => absurd rfl hne⟩
  have h₁₂ := h₁₁.tail ⟨.execute _ 1 _ rfl (by decide) (by decide), fun hne => absurd rfl hne⟩
  have h₁₃ := h₁₂.tail ⟨.read _ 1 (.data 0) _ (by decide) rfl, fun hne => absurd rfl hne⟩
  have h₁₄ := h₁₃.tail ⟨.write _ 1 (.data 0) _ _ (by decide) rfl, fun hne => absurd rfl hne⟩
  have h₁₅ := h₁₄.tail ⟨.run _ _ [[], [], []] [] _ _ _ rfl (fun _ _ heq => by cases heq; trivial)
    rfl, fun hne => absurd rfl hne⟩
  refine ⟨_, h₁₅, rfl, rfl, rfl, rfl, rfl, ?_⟩
  rintro op ⟨o, hopr, -⟩
  exact hall op (List.getElem?_eq_some_iff.mp hopr).1

/-- When one thread pushes, the operations leave the same contents in a variable as the naive
engine, which runs each of them at its push. They need only have completed on this variable. -/
theorem memory_sequential {k : ℕ} (h : Steps SerialStep k { mem := m₀ } p) (l : Location)
    (hl : p.engine.Settled l.var) :
    p.mem l = ((List.range p.engine.oprs.length).map p.fn).foldl NaiveEngine.pushAsync m₀ l :=
  (inv_of_steps h).1.mem_eq (inv_of_steps h).2.ordered hl

/-- Of the two operations that conflict, the second one doubles what the first one leaves. -/
theorem memory_sequential_conflict :
    ∃ p : RunningEngine ℕ Unit, p.engine.oprs.length = 2 ∧ p.mem (.data 0) = (8 : ℕ) ∧
      p.mem (.data 0) =
        ((List.range p.engine.oprs.length).map p.fn).foldl NaiveEngine.pushAsync threes
          (.data 0) := by
  obtain ⟨p, h, hmem, -, -, -, hlen, hsettled⟩ := conflict_steps
  exact ⟨p, hlen, hmem, memory_sequential h (.data 0) hsettled⟩

end RunningEngine

end NetStorm

import NetStorm.EngineMemory
import Mathlib.Data.List.Induction

/-!
# Where an exception of an operation gets to

An operation takes over the exception of a variable that it uses, is then skipped, and marks the
variables that it mutates. Operations run at the same time, so an exception moves along with the
dependencies. It gets exactly to the variables that depend on an operation that fails; the arrays
of all other variables are those of the functions that are run one after another. The runs end
where `WaitForVar`, `WaitForAll` or `Throw` first throws an exception to the thread that pushes: it
is then cleared, at all variables that share it. The shutdown phase is left out.
-/
namespace NetStorm

/-- The arrays of some variables. -/
def arrays (vs : List ℕ) : Set Location := { l | ∃ v ∈ vs, l = .data v }

/-- `ThreadedOpr` with its function. The result of the function is the error that it throws or
calls back with. `noSkip` is `FnProperty::kNoSkip`, and `WaitForVar` sets `wait`. -/
structure EngineOpr (α ε : Type) extends ThreadedOpr where
  noSkip : Bool := false
  wait : Bool := false
  fn : Program Location (Contents α ε) (Option ε)
  fn_within : fn.Within (arrays toThreadedOpr.vars) (arrays mutableVars)

variable {α ε : Type}

/-- The exception of the first of the variables that has one. -/
def firstException : List ℕ → Program Location (Contents α ε) (Option ε)
  | [] => .pure none
  | v :: vs => .read (.exception v) fun
    | some e => .pure (some e)
    | none => firstException vs

/-- Set the exception of all the variables, if there is one. -/
def setExceptions (e : Option ε) : List ℕ → AsyncFn α ε
  | [] => .pure ()
  | v :: vs => match e with
    | some _ => .write (.exception v) e (setExceptions e vs)
    | none => setExceptions e vs

namespace EngineOpr
variable (o : EngineOpr α ε)

/-- `ThreadedEngine::OnStart`. -/
def onStart : Program Location (Contents α ε) (Option ε) :=
  (firstException o.constVars).bind fun
    | some e => .pure (some e)
    | none => firstException o.mutableVars

/-- `ThreadedEngine::ExecuteOprBlock` up to the completions. An error of the function replaces the
exception that the operation has started with. -/
def executeOprBlock : AsyncFn α ε :=
  o.onStart.bind fun e =>
    (if e.isNone ∨ o.noSkip ∨ o.wait then o.fn.bind fun error => .pure (error <|> e)
      else .pure e).bind fun e => setExceptions e o.mutableVars

end EngineOpr

theorem firstException_within {vs us : List ℕ} (h : vs ⊆ us) (writes : Set Location) :
    (firstException vs : Program Location (Contents α ε) (Option ε)).Within (locations us)
      writes := by
  induction vs with
  | nil => trivial
  | cons v vs ih =>
    refine ⟨h List.mem_cons_self, fun e => ?_⟩
    cases e with
    | some _ => trivial
    | none => exact ih fun u hu => h (List.mem_cons_of_mem _ hu)

theorem setExceptions_within (e : Option ε) {vs us : List ℕ} (h : vs ⊆ us) (uses : Set Location) :
    (setExceptions e vs : AsyncFn α ε).Within uses (locations us) := by
  induction vs with
  | nil => trivial
  | cons v vs ih =>
    have hrest := ih fun u hu => h (List.mem_cons_of_mem _ hu)
    cases e with
    | some _ => exact ⟨h List.mem_cons_self, hrest⟩
    | none => exact hrest

/-- An operation with its exceptions accesses its own variables only. -/
theorem EngineOpr.executeOprBlock_within (o : EngineOpr α ε) :
    o.executeOprBlock.Within (locations o.vars) (locations o.mutableVars) := by
  have harrays : ∀ vs : List ℕ, arrays vs ⊆ locations vs := by
    rintro vs _ ⟨v, hv, rfl⟩
    exact hv
  have hstart : o.onStart.Within (locations o.vars) (locations o.mutableVars) := by
    refine (firstException_within (List.subset_append_left ..) _).bind fun e => ?_
    cases e with
    | some _ => trivial
    | none => exact firstException_within (List.subset_append_right ..) _
  refine hstart.bind fun e => Program.Within.bind ?_ fun e =>
    setExceptions_within e (List.Subset.refl _) _
  split_ifs
  · exact (o.fn_within.mono (harrays _) (harrays _)).bind fun _ => trivial
  · trivial

/-- The functions run one after another, without the exceptions. -/
def runFns (ops : List (EngineOpr α ε)) (m : EngineMemory α ε) : EngineMemory α ε :=
  ops.foldl (fun m o => o.fn.run m) m

/-- An operation fails if its function does where the functions run one after another, or if it
uses a variable that an operation that fails has mutated before. -/
inductive Fails (ops : List (EngineOpr α ε)) (m : EngineMemory α ε) : ℕ → Prop
  | raises (i : ℕ) (o : EngineOpr α ε) (hopr : ops[i]? = some o)
      (hraises : (o.fn.exec (runFns (ops.take i) m)).1 ≠ none) : Fails ops m i
  | depends (i j v : ℕ) (o o' : EngineOpr α ε) (hopr : ops[i]? = some o)
      (hopr' : ops[j]? = some o') (hlt : j < i) (hfails : Fails ops m j)
      (hmutates : v ∈ o'.mutableVars) (huses : v ∈ o.vars) : Fails ops m i

/-- A variable depends on an operation that fails. -/
def Spoiled (ops : List (EngineOpr α ε)) (m : EngineMemory α ε) (v : ℕ) : Prop :=
  ∃ (i : ℕ) (o : EngineOpr α ε), ops[i]? = some o ∧ v ∈ o.mutableVars ∧ Fails ops m i

section Exec

theorem firstException_exec (vs : List ℕ) (m : EngineMemory α ε) :
    (firstException vs).exec m = (vs.findSome? fun v => m (.exception v), m) := by
  induction vs with
  | nil => rfl
  | cons v vs ih =>
    rw [firstException, Program.exec, List.findSome?_cons]
    cases hv : (m (.exception v) : Option ε) with
    | none => exact ih
    | some e => rfl

theorem setExceptions_none (vs : List ℕ) (m : EngineMemory α ε) :
    (setExceptions none vs).run m = m := by
  induction vs with
  | nil => rfl
  | cons v vs ih => exact ih

theorem setExceptions_data (e : Option ε) (vs : List ℕ) (m : EngineMemory α ε) (v : ℕ) :
    (setExceptions e vs).run m (.data v) = m (.data v) := by
  induction vs generalizing m with
  | nil => rfl
  | cons u vs ih =>
    cases e with
    | none => exact ih m
    | some e =>
      rw [setExceptions, Program.run_write, ih, Function.update_of_ne (by simp)]

theorem setExceptions_exception (e : ε) (vs : List ℕ) (m : EngineMemory α ε) (v : ℕ) :
    (setExceptions (some e) vs).run m (.exception v) =
      if v ∈ vs then some e else m (.exception v) := by
  induction vs generalizing m with
  | nil => rfl
  | cons u vs ih =>
    rw [setExceptions, Program.run_write, ih]
    by_cases hu : v = u
    · subst hu
      simp
    · rw [Function.update_of_ne (by simp [hu])]
      simp [hu]

variable {o : EngineOpr α ε} {m : EngineMemory α ε} {v : ℕ}

theorem EngineOpr.onStart_exec (o : EngineOpr α ε) (m : EngineMemory α ε) :
    o.onStart.exec m = (o.vars.findSome? fun v => m (.exception v), m) := by
  rw [onStart, Program.exec_bind, firstException_exec, ThreadedOpr.vars, List.findSome?_append]
  cases o.constVars.findSome? fun v => m (.exception v) with
  | none => exact firstException_exec o.mutableVars m
  | some e => rfl

/-- The function of an operation does not access the exceptions. -/
theorem EngineOpr.fn_exception (o : EngineOpr α ε) (m : EngineMemory α ε) (v : ℕ) :
    o.fn.run m (.exception v) = m (.exception v) :=
  o.fn_within.run_eq (by simp [arrays]) m

theorem EngineOpr.fn_data (hv : v ∉ o.mutableVars) : o.fn.run m (.data v) = m (.data v) :=
  o.fn_within.run_eq (by simpa [arrays] using hv) m

/-- None of the variables of the operation has an exception. -/
theorem EngineOpr.executeOprBlock_run (h : ∀ u ∈ o.vars, m (.exception u) = none) :
    o.executeOprBlock.run m = (setExceptions (o.fn.exec m).1 o.mutableVars).run (o.fn.run m) := by
  have hnone : (o.vars.findSome? fun v => m (.exception v)) = none :=
    List.findSome?_eq_none_iff.mpr h
  have herror : ∀ error : Option ε, (error <|> none) = error := by
    rintro (_ | _) <;> rfl
  rw [Program.run, executeOprBlock, Program.exec_bind, onStart_exec, hnone, if_pos (by simp),
    Program.exec_bind, Program.exec_bind]
  simp only [Program.exec, herror]
  rfl

/-- A variable of the operation has an exception. -/
theorem EngineOpr.executeOprBlock_skip {u : ℕ} (hu : u ∈ o.vars)
    (hexception : m (.exception u) ≠ none) :
    ∃ e, o.executeOprBlock.run m = (setExceptions (some e) o.mutableVars).run m ∨
      o.executeOprBlock.run m = (setExceptions (some e) o.mutableVars).run (o.fn.run m) := by
  obtain ⟨e, he⟩ : ∃ e, (o.vars.findSome? fun v => m (.exception v)) = some e := by
    refine Option.isSome_iff_exists.mp (List.findSome?_isSome_iff.mpr ⟨u, hu, ?_⟩)
    exact Option.isSome_iff_ne_none.mpr hexception
  rw [Program.run, executeOprBlock, Program.exec_bind, onStart_exec, he]
  dsimp only
  split_ifs
  · rw [Program.exec_bind, Program.exec_bind]
    cases herror : (o.fn.exec m).1 with
    | none => exact ⟨e, .inr rfl⟩
    | some error => exact ⟨error, .inr rfl⟩
  · exact ⟨e, .inl rfl⟩

/-- What an operation leaves of the exceptions, and of the arrays without one. -/
theorem EngineOpr.executeOprBlock_spec (o : EngineOpr α ε) (m : EngineMemory α ε) (v : ℕ) :
    (o.executeOprBlock.run m (.exception v) ≠ none ↔
      m (.exception v) ≠ none ∨ v ∈ o.mutableVars ∧
        ((∃ u ∈ o.vars, m (.exception u) ≠ none) ∨ (o.fn.exec m).1 ≠ none)) ∧
    (o.executeOprBlock.run m (.exception v) = none →
      o.executeOprBlock.run m (.data v) = o.fn.run m (.data v)) := by
  by_cases hused : ∃ u ∈ o.vars, m (.exception u) ≠ none
  · obtain ⟨u, hu, hexception⟩ := hused
    obtain ⟨e, heq | heq⟩ := executeOprBlock_skip hu hexception
    all_goals
      rw [heq, setExceptions_exception, setExceptions_data]
      by_cases hv : v ∈ o.mutableVars
      · have hskips : ∃ u ∈ o.vars, m (.exception u) ≠ none := ⟨u, hu, hexception⟩
        simp [hv, hskips]
      · simp [hv, fn_exception, fn_data]
  · rw [executeOprBlock_run (by simpa using hused), setExceptions_data]
    refine ⟨?_, fun _ => rfl⟩
    cases herror : (o.fn.exec m).1 with
    | none => simp [setExceptions_none, fn_exception, hused]
    | some e =>
      rw [setExceptions_exception, fn_exception]
      by_cases hv : v ∈ o.mutableVars <;> simp [hv]

end Exec

section Sequential
variable {ops : List (EngineOpr α ε)} {o : EngineOpr α ε} {m m₀ : EngineMemory α ε} {i : ℕ}

theorem Fails.lt (h : Fails ops m i) : i < ops.length := by
  cases h with
  | raises _ o hopr | depends _ j v o o' hopr => exact (List.getElem?_eq_some_iff.mp hopr).1

theorem Fails.concat (h : Fails ops m i) : Fails (ops ++ [o]) m i := by
  induction h with
  | raises i o' hopr hraises =>
    have hlt := (List.getElem?_eq_some_iff.mp hopr).1
    refine .raises i o' (by rwa [List.getElem?_append_left hlt]) ?_
    rwa [List.take_append_of_le_length hlt.le]
  | depends i j v o₁ o₂ hopr hopr' hlt _ hmutates huses ih =>
    have hi := (List.getElem?_eq_some_iff.mp hopr).1
    refine .depends i j v o₁ o₂ (by rwa [List.getElem?_append_left hi]) ?_ hlt ih hmutates huses
    rwa [List.getElem?_append_left (by omega)]

theorem Fails.of_concat (h : Fails (ops ++ [o]) m i) (hi : i < ops.length) : Fails ops m i := by
  induction h with
  | raises i o' hopr hraises =>
    rw [List.getElem?_append_left hi] at hopr
    rw [List.take_append_of_le_length hi.le] at hraises
    exact .raises i o' hopr hraises
  | depends i j v o₁ o₂ hopr hopr' hlt _ hmutates huses ih =>
    rw [List.getElem?_append_left hi] at hopr
    rw [List.getElem?_append_left (by omega)] at hopr'
    exact .depends i j v o₁ o₂ hopr hopr' hlt (ih (by omega)) hmutates huses

/-- The last operation fails by itself or because of a variable that it uses. -/
theorem fails_concat_self : Fails (ops ++ [o]) m ops.length ↔
    (∃ u ∈ o.vars, Spoiled ops m u) ∨ (o.fn.exec (runFns ops m)).1 ≠ none := by
  constructor
  · intro h
    cases h with
    | raises _ o' hopr hraises =>
      obtain rfl : o = o' := by simpa using hopr
      exact .inr (by simpa using hraises)
    | depends _ j v o₁ o₂ hopr hopr' hlt hfails hmutates huses =>
      obtain rfl : o = o₁ := by simpa using hopr
      rw [List.getElem?_append_left hlt] at hopr'
      exact .inl ⟨v, huses, j, o₂, hopr', hmutates, hfails.of_concat hlt⟩
  · rintro (⟨u, hu, j, o', hopr, hmutates, hfails⟩ | hraises)
    · refine .depends _ j u o o' (by simp) ?_ hfails.lt hfails.concat hmutates hu
      rwa [List.getElem?_append_left hfails.lt]
    · exact .raises _ o (by simp) (by simpa using hraises)

theorem spoiled_concat {v : ℕ} : Spoiled (ops ++ [o]) m v ↔
    Spoiled ops m v ∨ v ∈ o.mutableVars ∧
      ((∃ u ∈ o.vars, Spoiled ops m u) ∨ (o.fn.exec (runFns ops m)).1 ≠ none) := by
  rw [← fails_concat_self]
  constructor
  · rintro ⟨i, o', hopr, hmutates, hfails⟩
    by_cases hi : i < ops.length
    · rw [List.getElem?_append_left hi] at hopr
      exact .inl ⟨i, o', hopr, hmutates, hfails.of_concat hi⟩
    · obtain rfl : i = ops.length := by
        have := hfails.lt
        rw [List.length_append, List.length_singleton] at this
        omega
      obtain rfl : o = o' := by simpa using hopr
      exact .inr ⟨hmutates, hfails⟩
  · rintro (⟨i, o', hopr, hmutates, hfails⟩ | ⟨hmutates, hfails⟩)
    · refine ⟨i, o', ?_, hmutates, hfails.concat⟩
      rwa [List.getElem?_append_left hfails.lt]
    · exact ⟨ops.length, o, by simp, hmutates, hfails⟩

/-- The operations run one after another. -/
theorem executeOprBlock_sequential (hm₀ : ∀ v, m₀ (.exception v) = none) (v : ℕ) :
    ((Program.runAll (ops.map EngineOpr.executeOprBlock) m₀) (.exception v) ≠ none ↔
      Spoiled ops m₀ v) ∧
    ((Program.runAll (ops.map EngineOpr.executeOprBlock) m₀) (.exception v) = none →
      (Program.runAll (ops.map EngineOpr.executeOprBlock) m₀) (.data v) =
        runFns ops m₀ (.data v)) := by
  induction ops using List.reverseRecOn generalizing v with
  | nil => simp [hm₀, Spoiled, runFns]
  | append_singleton ops o ih =>
    rw [List.map_append, Program.runAll_append, List.map_singleton, Program.runAll_cons,
      Program.runAll_nil, runFns, List.foldl_append, ← runFns, spoiled_concat]
    generalize hm : Program.runAll (ops.map EngineOpr.executeOprBlock) m₀ = m at *
    obtain ⟨hexception, hdata⟩ := o.executeOprBlock_spec m v
    -- where there is no exception yet, the function does what it does without the exceptions
    have hsame : ∀ l ∈ { l | ∃ u, m (.exception u) = none ∧ l = .data u },
        m l = runFns ops m₀ l := by
      rintro _ ⟨u, hu, rfl⟩
      exact (ih u).2 hu
    have hclean : (∀ u ∈ o.vars, m (.exception u) = none) →
        (o.fn.exec m).1 = (o.fn.exec (runFns ops m₀)).1 ∧
          (m (.exception v) = none →
            o.fn.run m (.data v) = o.fn.run (runFns ops m₀) (.data v)) := by
      intro hvars
      have hsub : arrays o.vars ⊆ { l | ∃ u, m (.exception u) = none ∧ l = .data u } := by
        rintro _ ⟨u, hu, rfl⟩
        exact ⟨u, hvars u hu, rfl⟩
      obtain ⟨hresult, hrun⟩ := o.fn_within.exec_congr hsub hsame
      exact ⟨hresult, fun hv => hrun _ ⟨v, hv, rfl⟩⟩
    have hused : (∃ u ∈ o.vars, m (.exception u) ≠ none) ↔ ∃ u ∈ o.vars, Spoiled ops m₀ u := by
      simp only [(ih _).1]
    refine ⟨?_, fun hnone => ?_⟩
    · rw [hexception, (ih v).1, hused]
      by_cases hspoiled : ∃ u ∈ o.vars, Spoiled ops m₀ u
      · simp [hspoiled]
      · have hvars : ∀ u ∈ o.vars, m (.exception u) = none := by
          simpa using hused.not.mpr hspoiled
        rw [(hclean hvars).1]
    · have hold : m (.exception v) = none := by
        by_contra hold
        exact hexception.mpr (.inl hold) hnone
      rw [hdata hnone]
      by_cases hv : v ∈ o.mutableVars
      · refine (hclean fun u hu => ?_).2 hold
        by_contra hnot
        exact hexception.mpr (.inr ⟨hv, .inl ⟨u, hu, hnot⟩⟩) hnone
      · rw [EngineOpr.fn_data hv, (ih v).2 hold]
        exact (EngineOpr.fn_data hv).symm

end Sequential

namespace RunningEngine
variable {p : RunningEngine α ε} {m₀ : EngineMemory α ε}

/-- These operations have been pushed. -/
structure Pushed (p : RunningEngine α ε) (ops : List (EngineOpr α ε)) : Prop where
  oprs_eq : p.engine.oprs = ops.map EngineOpr.toThreadedOpr
  fn_eq : (List.range ops.length).map p.fn = ops.map EngineOpr.executeOprBlock

/-- What the pushed operations leave one after another at a variable on which those that mutate it
have completed. -/
theorem Pushed.mem_eq {ops : List (EngineOpr α ε)} (hops : p.Pushed ops) {k : ℕ}
    (h : Steps SerialStep k { mem := m₀ } p) {l : Location} (hl : p.engine.Settled l.var) :
    p.mem l = Program.runAll (ops.map EngineOpr.executeOprBlock) m₀ l := by
  obtain ⟨hinv, hqueued⟩ := inv_of_steps h
  rw [hinv.mem_eq hqueued.ordered hl, hops.oprs_eq, List.length_map, hops.fn_eq]

/-- As long as no exception has been thrown to the thread that pushes, a variable on which the
operations that mutate it have completed has an exception exactly if it depends on an operation
that fails. Otherwise it has the array of the functions that are run one after another. -/
theorem exception_iff_spoiled {k : ℕ} (h : Steps SerialStep k { mem := m₀ } p)
    (hm₀ : ∀ v, m₀ (.exception v) = none) {ops : List (EngineOpr α ε)} (hops : p.Pushed ops)
    {v : ℕ} (hv : p.engine.Settled v) :
    (p.mem (.exception v) ≠ none ↔ Spoiled ops m₀ v) ∧
      (p.mem (.exception v) = none → p.mem (.data v) = runFns ops m₀ (.data v)) := by
  rw [hops.mem_eq h (l := .exception v) hv, hops.mem_eq h (l := .data v) hv]
  exact executeOprBlock_sequential hm₀ v

/-- An operation that fails. -/
def failing : EngineOpr ℕ Unit :=
  { mutableVars := [0], fn := .pure (some ()), fn_within := trivial }

/-- An operation that uses the variable of the first one. -/
def dependent : EngineOpr ℕ Unit :=
  { constVars := [0]
    mutableVars := [1]
    fn := .write (.data 1) (7 : ℕ) (.pure none)
    fn_within := ⟨⟨1, by decide, rfl⟩, trivial⟩ }

/-- An operation that does not. -/
def independent : EngineOpr ℕ Unit :=
  { mutableVars := [2]
    fn := .write (.data 2) (9 : ℕ) (.pure none)
    fn_within := ⟨⟨2, by decide, rfl⟩, trivial⟩ }

def failingFn : AsyncFn ℕ Unit :=
  .read (.exception 0) fun _ => .write (.exception 0) (some ()) (.pure ())

def dependentFn : AsyncFn ℕ Unit :=
  .read (.exception 0) fun
    | some () => .write (.exception 1) (some ()) (.pure ())
    | none => .read (.exception 1) fun
      | some () => .write (.exception 1) (some ()) (.pure ())
      | none => .write (.data 1) (7 : ℕ) (.pure ())

def independentFn : AsyncFn ℕ Unit :=
  .read (.exception 2) fun
    | some () => .write (.exception 2) (some ()) (.pure ())
    | none => .write (.data 2) (9 : ℕ) (.pure ())

theorem failing_executeOprBlock : failing.executeOprBlock = failingFn := by
  refine congrArg (Program.read (Location.exception 0)) (funext fun e => ?_)
  cases e <;> rfl

theorem dependent_executeOprBlock : dependent.executeOprBlock = dependentFn := by
  refine congrArg (Program.read (Location.exception 0)) (funext fun e => ?_)
  cases e with
  | some _ => rfl
  | none =>
    refine congrArg (Program.read (Location.exception 1)) (funext fun e => ?_)
    cases e <;> rfl

theorem independent_executeOprBlock : independent.executeOprBlock = independentFn := by
  refine congrArg (Program.read (Location.exception 2)) (funext fun e => ?_)
  cases e <;> rfl

theorem mixed_steps :
    ∃ p : RunningEngine ℕ Unit, Steps SerialStep 24 { mem := threes } p ∧
      p.Pushed [failing, dependent, independent] ∧
      (p.engine.vars 1).completed = [(1, true)] ∧ (p.engine.vars 2).completed = [(2, true)] ∧
      p.mem (.exception 1) = some () ∧ p.mem (.exception 2) = none := by
  have h₁ := (@Steps.refl _ SerialStep ({ mem := threes } : RunningEngine ℕ Unit)).tail
    ⟨.push _ { mutableVars := [0] } failingFn (by decide)
      (failing_executeOprBlock ▸ failing.executeOprBlock_within), by simp⟩
  have h₂ := h₁.tail ⟨.run _ _ [] [] _ _ _ rfl (by simp) rfl, fun hne => absurd rfl hne⟩
  have h₃ := h₂.tail ⟨.run _ _ [] [] _ _ _ rfl (by simp) rfl, fun hne => absurd rfl hne⟩
  have h₄ := h₃.tail ⟨.execute _ 0 _ rfl (by decide) (by decide), fun hne => absurd rfl hne⟩
  have h₅ := h₄.tail ⟨.read _ 0 (.exception 0) _ (by decide) rfl, fun hne => absurd rfl hne⟩
  -- the second operation is pushed while the first one runs
  have h₆ := h₅.tail ⟨.push _ { constVars := [0], mutableVars := [1] } dependentFn (by decide)
    (dependent_executeOprBlock ▸ dependent.executeOprBlock_within),
    fun _ v e => by simp [ThreadedOpr.executeTasks]⟩
  have h₇ := h₆.tail ⟨.run _ _ [[], [.complete 0 (0, true)]] [] _ _ _ rfl (by simp) rfl,
    fun hne => absurd rfl hne⟩
  have h₈ := h₇.tail ⟨.run _ _ [[], [.complete 0 (0, true)]] [] _ _ _ rfl (by simp) rfl,
    fun hne => absurd rfl hne⟩
  have h₉ := h₈.tail ⟨.run _ _ [[], [.complete 0 (0, true)]] [] _ _ _ rfl (by simp) rfl,
    fun hne => absurd rfl hne⟩
  have h₁₀ := h₉.tail ⟨.write _ 0 (.exception 0) _ _ (by decide) rfl, fun hne => absurd rfl hne⟩
  have h₁₁ := h₁₀.tail ⟨.run _ _ [[]] [[]] _ _ _ rfl (fun _ _ heq => by cases heq; trivial) rfl,
    fun hne => absurd rfl hne⟩
  have h₁₂ := h₁₁.tail ⟨.run _ _ [[]] [[]] _ _ _ rfl (by simp) rfl, fun hne => absurd rfl hne⟩
  have h₁₃ := h₁₂.tail ⟨.push _ { mutableVars := [2] } independentFn (by decide)
    (independent_executeOprBlock ▸ independent.executeOprBlock_within), fun _ v e => by simp⟩
  have h₁₄ := h₁₃.tail ⟨.run _ _ [[], [], []] [] _ _ _ rfl (by simp) rfl,
    fun hne => absurd rfl hne⟩
  have h₁₅ := h₁₄.tail ⟨.run _ _ [[], [], []] [] _ _ _ rfl (by simp) rfl,
    fun hne => absurd rfl hne⟩
  have h₁₆ := h₁₅.tail ⟨.execute _ 1 _ rfl (by decide) (by decide), fun hne => absurd rfl hne⟩
  have h₁₇ := h₁₆.tail ⟨.execute _ 2 _ rfl (by decide) (by decide), fun hne => absurd rfl hne⟩
  have h₁₈ := h₁₇.tail ⟨.read _ 1 (.exception 0) _ (by decide) rfl, fun hne => absurd rfl hne⟩
  have h₁₉ := h₁₈.tail ⟨.read _ 2 (.exception 2) _ (by decide) rfl, fun hne => absurd rfl hne⟩
  have h₂₀ := h₁₉.tail ⟨.write _ 1 (.exception 1) _ _ (by decide) rfl, fun hne => absurd rfl hne⟩
  have h₂₁ := h₂₀.tail ⟨.write _ 2 (.data 2) _ _ (by decide) rfl, fun hne => absurd rfl hne⟩
  have h₂₂ := h₂₁.tail ⟨.run _ _ [[], [], [], []] _ _ _ _ rfl
    (fun _ _ heq => by cases heq; trivial) rfl, fun hne => absurd rfl hne⟩
  have h₂₃ := h₂₂.tail ⟨.run _ _ [[], [], [], []] _ _ _ _ rfl
    (fun _ _ heq => by cases heq; trivial) rfl, fun hne => absurd rfl hne⟩
  have h₂₄ := h₂₃.tail ⟨.run _ _ [[], [], [], [], []] _ _ _ _ rfl
    (fun _ _ heq => by cases heq; trivial) rfl, fun hne => absurd rfl hne⟩
  refine ⟨_, h₂₄, ⟨rfl, ?_⟩, rfl, rfl, rfl, rfl⟩
  simp only [List.map_cons, List.map_nil, failing_executeOprBlock, dependent_executeOprBlock,
    independent_executeOprBlock]
  rfl

/-- The exception of the first operation gets to variable 1 and not to variable 2. -/
theorem exception_iff_spoiled_dependent :
    ∃ p : RunningEngine ℕ Unit, p.Pushed [failing, dependent, independent] ∧
      p.mem (.exception 1) = some () ∧ Spoiled [failing, dependent, independent] threes 1 ∧
      p.mem (.exception 2) = none ∧ ¬ Spoiled [failing, dependent, independent] threes 2 ∧
      p.mem (.data 2) = runFns [failing, dependent, independent] threes (.data 2) := by
  obtain ⟨p, h, hpushed, hone, htwo, hfirst, hsecond⟩ := mixed_steps
  have hsettled : ∀ v, (v = 1 ∨ v = 2) → p.engine.Settled v := by
    rintro v hv op ⟨o, hopr, hmutates⟩
    rw [hpushed.oprs_eq] at hopr
    have hop : op < 3 := (List.getElem?_eq_some_iff.mp hopr).1
    match op, hop with
    | 0, _ =>
      obtain rfl := Option.some.inj hopr
      obtain rfl := List.mem_singleton.mp hmutates
      simp at hv
    | 1, _ =>
      obtain rfl := Option.some.inj hopr
      obtain rfl := List.mem_singleton.mp hmutates
      simp [hone]
    | 2, _ =>
      obtain rfl := Option.some.inj hopr
      obtain rfl := List.mem_singleton.mp hmutates
      simp [htwo]
  have hnone : ∀ v, threes (.exception v) = none := fun _ => rfl
  obtain ⟨hspoiled, -⟩ := exception_iff_spoiled h hnone hpushed (hsettled 1 (.inl rfl))
  obtain ⟨hunspoiled, hdata⟩ := exception_iff_spoiled h hnone hpushed (hsettled 2 (.inr rfl))
  exact ⟨p, hpushed, hfirst, hspoiled.mp (by simp [hfirst]), hsecond,
    fun hno => hunspoiled.mpr hno hsecond, hdata hsecond⟩

end RunningEngine

end NetStorm

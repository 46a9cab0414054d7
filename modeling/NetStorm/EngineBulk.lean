import NetStorm.EngineExceptions

/-!
# Operations that are pushed in bulk

`PushSync` collects operations in a bulk of its thread, and pushes the bulk as one operation when it
is full, when the context changes, and before anything else is pushed or waited for. The variables
of the bulk are sorted and deduplicated, since the engine would wait for itself at a variable that
an operation names twice. As long as no function fails, what the arrays hold does not depend on how
the operations are bulked; a function that fails makes its bulk skip the functions behind it. With a
negative bulk size the calls throw a `length_error`, but only when the bulk has been pushed. The
profiler, and the flag in the context that says that a function is part of a bulk, are left out.
-/
namespace NetStorm

/-- `std::unique`: of adjacent equal elements the first one is left. -/
def unique : List ℕ → List ℕ
  | [] => []
  | [a] => [a]
  | a :: b :: l => if a = b then unique (b :: l) else a :: unique (b :: l)

/-- The loop of `DeduplicateVarHandle` over the reads, with the writes from `wit` on. -/
def removeWritten : List ℕ → List ℕ → List ℕ
  | [], _ => []
  | r :: reads, writes =>
    let writes := writes.dropWhile (· < r)
    if writes.head? = some r then removeWritten reads writes else r :: removeWritten reads writes

/-- `Engine::DeduplicateVarHandle`. -/
def deduplicateVarHandle (readVars writeVars : List ℕ) : List ℕ × List ℕ :=
  let writeVars := unique (writeVars.insertionSort (· ≤ ·))
  let readVars := unique (readVars.insertionSort (· ≤ ·))
  (removeWritten readVars writeVars, writeVars)

/-- Whether two neighbours are equal. -/
def hasDuplicate : List ℕ → Bool
  | [] => false
  | [_] => false
  | a :: b :: l => a == b || hasDuplicate (b :: l)

/-- The last loop of `CheckDuplicate`, with the mutated variables from `j` on. -/
def meets : List ℕ → List ℕ → Bool
  | [], _ => false
  | u :: use, mutate =>
    let mutate := mutate.dropWhile (· < u)
    if mutate = [] then false else mutate.head? == some u || meets use mutate

/-- `ThreadedEngine::CheckDuplicate`: whether no check fails. -/
def checkDuplicate (constVars mutableVars : List ℕ) : Bool :=
  let use := constVars.insertionSort (· ≤ ·)
  let mutate := mutableVars.insertionSort (· ≤ ·)
  !hasDuplicate use && !hasDuplicate mutate && !meets use mutate

section Deduplicate
variable {l reads writes : List ℕ}

@[simp] theorem mem_unique {a : ℕ} : a ∈ unique l ↔ a ∈ l := by
  induction l using unique.induct with
  | case1 | case2 => rfl
  | case3 b l ih => simp [unique, ih]
  | case4 b c l hne ih => simp [unique, hne, ih]

theorem unique_pairwise (h : l.Pairwise (· ≤ ·)) : (unique l).Pairwise (· < ·) := by
  induction l using unique.induct with
  | case1 => exact .nil
  | case2 => exact List.pairwise_singleton _ _
  | case3 b l ih =>
    rw [unique, if_pos rfl]
    exact ih (List.pairwise_cons.mp h).2
  | case4 b c l hne ih =>
    obtain ⟨hb, htail⟩ := List.pairwise_cons.mp h
    rw [unique, if_neg hne]
    refine List.pairwise_cons.mpr ⟨fun a ha => ?_, ih htail⟩
    have hbc := hb c List.mem_cons_self
    rcases List.mem_cons.mp (mem_unique.mp ha) with rfl | ha
    · omega
    · have := (List.pairwise_cons.mp htail).1 a ha
      omega

/-- The elements of a sorted list that are dropped are not above the bound. -/
theorem head?_dropWhile_lt {r : ℕ} (h : writes.Pairwise (· ≤ ·)) :
    (writes.dropWhile (· < r)).head? = some r ↔ r ∈ writes := by
  induction writes with
  | nil => simp
  | cons w writes ih =>
    obtain ⟨hw, htail⟩ := List.pairwise_cons.mp h
    rw [List.dropWhile_cons]
    by_cases hlt : w < r
    · rw [if_pos (by simpa using hlt), ih htail]
      simp [hlt.ne']
    · rw [if_neg (by simpa using hlt), List.head?_cons, Option.some.injEq, List.mem_cons]
      refine ⟨fun heq => .inl heq.symm, ?_⟩
      rintro (rfl | hmem)
      · rfl
      · have := hw r hmem
        omega

theorem mem_dropWhile_lt {r a : ℕ} (ha : r ≤ a) :
    a ∈ writes.dropWhile (· < r) ↔ a ∈ writes := by
  induction writes with
  | nil => rfl
  | cons w writes ih =>
    rw [List.dropWhile_cons]
    split_ifs with hlt
    · have hne : a ≠ w := by
        have : w < r := by simpa using hlt
        omega
      rw [ih, List.mem_cons, or_iff_right hne]
    · rfl

theorem mem_removeWritten {a : ℕ} (hreads : reads.Pairwise (· < ·))
    (hwrites : writes.Pairwise (· ≤ ·)) :
    a ∈ removeWritten reads writes ↔ a ∈ reads ∧ a ∉ writes := by
  induction reads generalizing writes with
  | nil => simp [removeWritten]
  | cons r reads ih =>
    obtain ⟨hr, htail⟩ := List.pairwise_cons.mp hreads
    have hdrop : (writes.dropWhile (· < r)).Pairwise (· ≤ ·) :=
      hwrites.sublist (List.dropWhile_sublist _)
    have hrest : a ∈ removeWritten reads (writes.dropWhile (· < r)) ↔ a ∈ reads ∧ a ∉ writes := by
      rw [ih htail hdrop]
      refine and_congr_right fun ha => not_congr ?_
      exact mem_dropWhile_lt (hr a ha).le
    rw [removeWritten]
    simp only [head?_dropWhile_lt hwrites]
    split_ifs with hmem
    · rw [hrest, List.mem_cons]
      refine and_congr_left fun ha => ?_
      exact (or_iff_right fun heq : a = r => ha (heq ▸ hmem)).symm
    · rw [List.mem_cons, hrest, List.mem_cons, or_and_right]
      exact or_congr_left (iff_self_and.mpr fun heq => heq ▸ hmem)

theorem removeWritten_sublist : (removeWritten reads writes).Sublist reads := by
  induction reads generalizing writes with
  | nil => exact .slnil
  | cons r reads ih =>
    rw [removeWritten]
    split_ifs
    · exact ih.cons r
    · exact ih.cons_cons r

theorem sorted_unique_sort (vs : List ℕ) : (unique (vs.insertionSort (· ≤ ·))).Pairwise (· < ·) :=
  unique_pairwise (List.pairwise_insertionSort _ _)

theorem mem_deduplicate_reads (readVars writeVars : List ℕ) (v : ℕ) :
    v ∈ (deduplicateVarHandle readVars writeVars).1 ↔ v ∈ readVars ∧ v ∉ writeVars := by
  rw [deduplicateVarHandle, mem_removeWritten (sorted_unique_sort _)
    ((sorted_unique_sort _).imp le_of_lt)]
  simp

theorem mem_deduplicate_writes (readVars writeVars : List ℕ) (v : ℕ) :
    v ∈ (deduplicateVarHandle readVars writeVars).2 ↔ v ∈ writeVars := by
  simp [deduplicateVarHandle]

theorem hasDuplicate_eq_false (h : l.Pairwise (· ≤ ·)) : hasDuplicate l = false ↔ l.Nodup := by
  induction l using hasDuplicate.induct with
  | case1 | case2 => simp [hasDuplicate]
  | case3 a b l ih =>
    obtain ⟨ha, htail⟩ := List.pairwise_cons.mp h
    rw [hasDuplicate, Bool.or_eq_false_iff, ih htail, List.nodup_cons (a := a),
      beq_eq_false_iff_ne]
    refine and_congr_left fun _ => ⟨fun hne hmem => ?_, ?_⟩
    · rcases List.mem_cons.mp hmem with rfl | hmem
      · exact hne rfl
      · have := ha b List.mem_cons_self
        have := (List.pairwise_cons.mp htail).1 a hmem
        omega
    · rintro hnot rfl
      exact hnot List.mem_cons_self

theorem meets_eq_false {use mutate : List ℕ} (huse : use.Pairwise (· ≤ ·))
    (hmutate : mutate.Pairwise (· ≤ ·)) :
    meets use mutate = false ↔ ∀ u ∈ use, u ∉ mutate := by
  induction use generalizing mutate with
  | nil => simp [meets]
  | cons u use ih =>
    obtain ⟨hu, htail⟩ := List.pairwise_cons.mp huse
    have hdrop : (mutate.dropWhile (· < u)).Pairwise (· ≤ ·) :=
      hmutate.sublist (List.dropWhile_sublist _)
    have hrest : (∀ a ∈ use, a ∉ mutate.dropWhile (· < u)) ↔ ∀ a ∈ use, a ∉ mutate :=
      forall₂_congr fun a ha => not_congr (mem_dropWhile_lt (hu a ha))
    rw [meets, List.forall_mem_cons, ← head?_dropWhile_lt hmutate, ← hrest]
    split_ifs with hnil
    · simp [hnil]
    · rw [Bool.or_eq_false_iff, ih htail hdrop, beq_eq_false_iff_ne]

end Deduplicate

/-- `CheckDuplicate` accepts exactly what the engine needs. -/
theorem checkDuplicate_iff (o : ThreadedOpr) :
    checkDuplicate o.constVars o.mutableVars = true ↔ o.vars.Nodup := by
  have hsorted (l : List ℕ) : (l.insertionSort (· ≤ ·)).Pairwise (· ≤ ·) :=
    List.pairwise_insertionSort _ _
  simp only [checkDuplicate, Bool.and_eq_true, Bool.not_eq_true',
    hasDuplicate_eq_false (hsorted _), meets_eq_false (hsorted _) (hsorted _),
    (List.perm_insertionSort _ _).nodup_iff, List.mem_insertionSort]
  rw [ThreadedOpr.vars, List.nodup_append, and_assoc]
  refine and_congr_right fun _ => and_congr_right fun _ => ?_
  exact ⟨fun h a ha b hb heq => h a ha (heq ▸ hb), fun h a ha hb => h a ha a hb rfl⟩

theorem deduplicate_nodup (readVars writeVars : List ℕ) :
    ((deduplicateVarHandle readVars writeVars).1 ++
      (deduplicateVarHandle readVars writeVars).2).Nodup := by
  refine List.nodup_append.mpr ⟨?_, (sorted_unique_sort _).imp ne_of_lt, ?_⟩
  · exact ((sorted_unique_sort _).imp ne_of_lt).sublist removeWritten_sublist
  · rintro a ha b hb rfl
    exact ((mem_deduplicate_reads readVars writeVars a).mp ha).2
      ((mem_deduplicate_writes readVars writeVars a).mp hb)

/-- `FnProperty`. -/
inductive FnProperty
  | normal
  | copyFromGPU
  | copyToGPU
  | cpuPrioritized
  | async
  | deleteVar
  | gpuPrioritized
  | noSkip
  deriving DecidableEq

variable {α ε C : Type}

/-- A function of an operation, with the error that it throws or calls back with. -/
abbrev OprFn (α ε : Type) := Program Location (Contents α ε) (Option ε)

/-- The arguments of a push. The function gets the context in which the engine runs it. -/
structure SyncOpr (α ε C : Type) extends ThreadedOpr where
  fn : C → OprFn α ε
  ctx : C
  prop : FnProperty := .normal
  priority : ℤ := 0

/-- What the engine runs. -/
def SyncOpr.program (o : SyncOpr α ε C) : OprFn α ε := o.fn o.ctx

/-- What the engine needs of an operation: it names a variable once, and its function accesses
the arrays of these variables only. -/
structure SyncOpr.Ok (o : SyncOpr α ε C) : Prop where
  nodup : o.vars.Nodup
  within : ∀ ctx, (o.fn ctx).Within (arrays o.vars) (arrays o.mutableVars)

/-- The operation that `PushAsync` makes. -/
def SyncOpr.engineOpr (o : SyncOpr α ε C) (h : o.Ok) : EngineOpr α ε where
  toThreadedOpr := o.toThreadedOpr
  noSkip := o.prop = .noSkip
  fn := o.program
  fn_within := h.within o.ctx

/-- The function that `BulkFlush` pushes. One that throws ends it. -/
def runFunctions : List (C → OprFn α ε) → C → OprFn α ε
  | [], _ => .pure none
  | fn :: functions, ctx => (fn ctx).bind fun
    | some e => .pure (some e)
    | none => runFunctions functions ctx

/-- `BulkStatus` of a thread. -/
structure BulkStatus (α ε C : Type) where
  bulkSize : ℤ := 0
  count : ℕ := 0
  ctx : C
  functions : List (C → OprFn α ε) := []
  constVars : List ℕ := []
  mutableVars : List ℕ := []

/-- What a call leaves: the bulk, what has got to `Push`, and whether it throws a `length_error`. -/
structure BulkResult (α ε C : Type) where
  status : BulkStatus α ε C
  pushed : List (SyncOpr α ε C) := []
  thrown : Bool := false

/-- The rest of a call, which an exception skips. -/
def BulkResult.andThen (r : BulkResult α ε C) (rest : BulkStatus α ε C → BulkResult α ε C) :
    BulkResult α ε C :=
  if r.thrown = true then r
  else { rest r.status with pushed := r.pushed ++ (rest r.status).pushed }

/-- A call that the thread makes. `WaitForVar` and `WaitForAll` begin with `BulkFlush`. -/
inductive BulkCall (α ε C : Type)
  | pushSync (o : SyncOpr α ε C)
  | pushAsync (o : SyncOpr α ε C)
  | setBulkSize (n : ℤ)
  | wait

/-- The operation that a call pushes. -/
def BulkCall.opr : BulkCall α ε C → List (SyncOpr α ε C)
  | pushSync o => [o]
  | pushAsync o => [o]
  | setBulkSize _ => []
  | wait => []

namespace BulkStatus

/-- `ThreadedEngine::BulkFlush`. `reserve` takes the bulk size as a `size_t`, and the variables,
which have been deduplicated in place, are cleared behind it. -/
def bulkFlush (s : BulkStatus α ε C) : BulkResult α ε C :=
  if s.count = 0 then { status := s }
  else
    let vars := deduplicateVarHandle s.constVars s.mutableVars
    let opr : SyncOpr α ε C :=
      { constVars := vars.1, mutableVars := vars.2, fn := runFunctions s.functions, ctx := s.ctx }
    let s := { s with count := 0, functions := [], constVars := vars.1, mutableVars := vars.2 }
    if s.bulkSize < 0 then { status := s, pushed := [opr], thrown := true }
    else { status := { s with constVars := [], mutableVars := [] }, pushed := [opr] }

/-- `ThreadedEngine::BulkAppend`. -/
def bulkAppend (s : BulkStatus α ε C) (o : SyncOpr α ε C) : BulkResult α ε C :=
  let s := { s with
    functions := s.functions ++ [o.fn]
    ctx := if s.count = 0 then o.ctx else s.ctx
    count := s.count + 1
    constVars := s.constVars ++ o.constVars
    mutableVars := s.mutableVars ++ o.mutableVars }
  if s.bulkSize ≤ s.count then s.bulkFlush else { status := s }

/-- `ThreadedEngine::PushAsync`, where `Push` begins with `BulkFlush`. -/
def pushAsync (s : BulkStatus α ε C) (o : SyncOpr α ε C) : BulkResult α ε C :=
  s.bulkFlush.andThen fun s => { status := s, pushed := [o] }

/-- `ThreadedEngine::set_bulk_size`. Behind the swap `bulk_size` is the old size. -/
def setBulkSize (s : BulkStatus α ε C) (n : ℤ) : BulkResult α ε C :=
  let old := s.bulkSize
  let s := { s with bulkSize := n }
  (if s.bulkSize ≤ s.count then s.bulkFlush else { status := s }).andThen fun s =>
    { status := s, thrown := old < 0 }

section Calls
variable [DecidableEq C]

/-- `ThreadedEngine::PushSync`. -/
def pushSync (s : BulkStatus α ε C) (o : SyncOpr α ε C) : BulkResult α ε C :=
  if s.bulkSize = 0 ∨ o.prop ≠ .normal ∨ o.priority ≠ 0 then s.pushAsync o
  else
    (if s.count ≠ 0 ∧ o.ctx ≠ s.ctx then s.bulkFlush else { status := s }).andThen fun s =>
      s.bulkAppend o

def call (s : BulkStatus α ε C) : BulkCall α ε C → BulkResult α ε C
  | .pushSync o => s.pushSync o
  | .pushAsync o => s.pushAsync o
  | .setBulkSize n => s.setBulkSize n
  | .wait => s.bulkFlush

/-- Some calls of the thread, which goes on after an exception. -/
def run (s : BulkStatus α ε C) : List (BulkCall α ε C) → BulkResult α ε C
  | [] => { status := s }
  | c :: calls =>
    let r := s.call c
    let later := r.status.run calls
    { later with pushed := r.pushed ++ later.pushed, thrown := r.thrown || later.thrown }

end Calls

/-- The bulk holds these operations, and maybe variables of older ones. -/
structure Holds (s : BulkStatus α ε C) (bulk : List (SyncOpr α ε C)) : Prop where
  count_eq : s.count = bulk.length
  functions_eq : s.functions = bulk.map SyncOpr.fn
  constVars_sub : ∀ o ∈ bulk, o.constVars ⊆ s.constVars
  mutableVars_sub : ∀ o ∈ bulk, o.mutableVars ⊆ s.mutableVars
  ctx_eq : ∀ o ∈ bulk, o.ctx = s.ctx

/-- Between two calls the bulk is empty if its size is negative. -/
structure Between (s : BulkStatus α ε C) (bulk : List (SyncOpr α ε C)) : Prop extends
    s.Holds bulk where
  empty : s.bulkSize < 0 → s.count = 0

/-- The memory behind a function, if it does not fail. -/
def attempt (fn : OprFn α ε) (m : EngineMemory α ε) : Option (EngineMemory α ε) :=
  match fn.exec m with
  | (none, m') => some m'
  | (some _, _) => none

/-- Operations run one after another, if none of them fails. -/
def runOprs (ops : List (SyncOpr α ε C)) (m : EngineMemory α ε) : Option (EngineMemory α ε) :=
  ops.foldlM (fun m o => attempt o.program m) m

/-- What is pushed when the bulk holds some operations and others are pushed: the same is run, and
the engine can take what is pushed. -/
structure Flushes (pushed bulk' ops : List (SyncOpr α ε C)) : Prop where
  run_eq : ∀ m : EngineMemory α ε, (runOprs pushed m).bind (runOprs bulk') = runOprs ops m
  ok : (∀ o ∈ ops, o.Ok) → (∀ o ∈ pushed, o.Ok) ∧ ∀ o ∈ bulk', o.Ok

variable {s : BulkStatus α ε C} {bulk bulk' ops ops' pushed pushed' : List (SyncOpr α ε C)}
  {o : SyncOpr α ε C} {m m' : EngineMemory α ε}

theorem attempt_eq_some {fn : OprFn α ε} :
    attempt fn m = some m' ↔ (fn.exec m).1 = none ∧ fn.run m = m' := by
  rw [attempt, Program.run]
  rcases fn.exec m with ⟨_ | e, m₁⟩ <;> simp

theorem attempt_bind (fn rest : OprFn α ε) (m : EngineMemory α ε) :
    attempt (fn.bind fun
      | some e => .pure (some e)
      | none => rest) m = (attempt fn m).bind (attempt rest) := by
  rw [attempt, Program.exec_bind, attempt]
  rcases fn.exec m with ⟨_ | e, m₁⟩ <;> rfl

@[simp] theorem runOprs_singleton (o : SyncOpr α ε C) (m : EngineMemory α ε) :
    runOprs [o] m = attempt o.program m := by
  rw [runOprs, List.foldlM_cons]
  cases attempt o.program m <;> rfl

theorem runOprs_append (m : EngineMemory α ε) :
    runOprs (ops ++ ops') m = (runOprs ops m).bind (runOprs ops') :=
  List.foldlM_append

theorem runFunctions_attempt (functions : List (C → OprFn α ε)) (ctx : C) (m : EngineMemory α ε) :
    attempt (runFunctions functions ctx) m =
      functions.foldlM (fun m fn => attempt (fn ctx) m) m := by
  induction functions generalizing m with
  | nil => rfl
  | cons fn functions ih =>
    rw [runFunctions, List.foldlM_cons]
    refine (attempt_bind _ _ m).trans ?_
    congr 1
    exact funext ih

theorem runFunctions_within {functions : List (C → OprFn α ε)} {ctx : C}
    {uses writes : Set Location} (h : ∀ fn ∈ functions, (fn ctx).Within uses writes) :
    (runFunctions functions ctx).Within uses writes := by
  induction functions with
  | nil => trivial
  | cons fn functions ih =>
    refine (h fn List.mem_cons_self).bind fun e => ?_
    cases e with
    | some _ => trivial
    | none => exact ih fun fn hfn => h fn (List.mem_cons_of_mem _ hfn)

theorem arrays_mono {vs vs' : List ℕ} (h : vs ⊆ vs') : arrays vs ⊆ arrays vs' := by
  rintro _ ⟨v, hv, rfl⟩
  exact ⟨v, h hv, rfl⟩

theorem Flushes.refl (ops : List (SyncOpr α ε C)) : Flushes [] ops ops :=
  ⟨fun _ => rfl, fun hok => ⟨by simp, hok⟩⟩

theorem Flushes.trans (h : Flushes pushed bulk ops) (h' : Flushes pushed' bulk' (bulk ++ ops')) :
    Flushes (pushed ++ pushed') bulk' (ops ++ ops') where
  run_eq m := by
    have hrun : ∀ m₁ : EngineMemory α ε,
        (runOprs pushed' m₁).bind (runOprs bulk') = (runOprs bulk m₁).bind (runOprs ops') :=
      fun m₁ => (h'.run_eq m₁).trans (runOprs_append m₁)
    rw [runOprs_append, runOprs_append, Option.bind_assoc, ← h.run_eq, Option.bind_assoc]
    simp only [hrun]
  ok hok := by
    obtain ⟨hpushed, hbulk⟩ := h.ok fun o ho => hok o (List.mem_append_left _ ho)
    obtain ⟨hpushed', hbulk'⟩ := h'.ok fun o ho => (List.mem_append.mp ho).elim (hbulk o)
      fun ho => hok o (List.mem_append_right _ ho)
    exact ⟨fun o ho => (List.mem_append.mp ho).elim (hpushed o) (hpushed' o), hbulk'⟩

/-- An operation is pushed directly. -/
theorem Flushes.direct (o : SyncOpr α ε C) : Flushes [o] [] [o] :=
  ⟨fun m => by cases h : runOprs [o] m <;> rfl, fun hok => ⟨hok, by simp⟩⟩

/-- Operations that were pushed with one context. -/
theorem runOprs_of_ctx {ctx : C} (h : ∀ o ∈ bulk, o.ctx = ctx) (m : EngineMemory α ε) :
    runOprs bulk m = (bulk.map SyncOpr.fn).foldlM (fun m fn => attempt (fn ctx) m) m := by
  induction bulk generalizing m with
  | nil => rfl
  | cons o bulk ih =>
    rw [runOprs, List.foldlM_cons, List.map_cons, List.foldlM_cons, SyncOpr.program,
      h o List.mem_cons_self]
    congr 1
    exact funext (ih fun o' ho' => h o' (List.mem_cons_of_mem _ ho'))

/-- The operation that stands for a bulk. -/
theorem Holds.flushes (h : s.Holds bulk) :
    Flushes [{ constVars := (deduplicateVarHandle s.constVars s.mutableVars).1
               mutableVars := (deduplicateVarHandle s.constVars s.mutableVars).2
               fn := runFunctions s.functions
               ctx := s.ctx }] [] bulk := by
  refine ⟨fun m => ?_, fun hok => ⟨fun o ho => ?_, by simp⟩⟩
  · -- every function of the bulk gets the context that its operation was pushed with
    rw [runOprs_singleton, SyncOpr.program, runFunctions_attempt, h.functions_eq,
      runOprs_of_ctx h.ctx_eq]
    cases (bulk.map SyncOpr.fn).foldlM (fun m fn => attempt (fn s.ctx) m) m <;> rfl
  · obtain rfl := List.mem_singleton.mp ho
    refine ⟨deduplicate_nodup _ _, fun ctx => runFunctions_within fun fn hfn => ?_⟩
    rw [h.functions_eq] at hfn
    obtain ⟨o, ho, rfl⟩ := List.mem_map.mp hfn
    refine ((hok o ho).within ctx).mono (arrays_mono fun v hv => ?_) (arrays_mono fun v hv => ?_)
    · rw [ThreadedOpr.vars, List.mem_append, mem_deduplicate_reads, mem_deduplicate_writes]
      have := List.mem_append.mp hv
      have hmutable : v ∈ o.mutableVars → v ∈ s.mutableVars := fun hv =>
        h.mutableVars_sub o ho hv
      have hconst : v ∈ o.constVars → v ∈ s.constVars := fun hv => h.constVars_sub o ho hv
      tauto
    · exact (mem_deduplicate_writes s.constVars _ v).mpr (h.mutableVars_sub o ho hv)

/-- `BulkFlush` pushes what is in the bulk, also when it throws. -/
theorem bulkFlush_spec (h : s.Holds bulk) :
    s.bulkFlush.status.Between [] ∧ Flushes s.bulkFlush.pushed [] bulk ∧
      s.bulkFlush.status.bulkSize = s.bulkSize ∧
      (s.bulkFlush.thrown = true → s.count ≠ 0 ∧ s.bulkSize < 0) := by
  rw [bulkFlush]
  by_cases hcount : s.count = 0
  · obtain rfl : bulk = [] := List.eq_nil_of_length_eq_zero (by rw [← h.count_eq, hcount])
    rw [if_pos hcount]
    exact ⟨⟨h, fun _ => hcount⟩, .refl [], rfl, fun hno => nomatch hno⟩
  rw [if_neg hcount]
  by_cases hsize : s.bulkSize < 0
  · dsimp only
    rw [if_pos hsize]
    exact ⟨⟨⟨rfl, rfl, by simp, by simp, by simp⟩, fun _ => rfl⟩, h.flushes, rfl,
      fun _ => ⟨hcount, hsize⟩⟩
  · dsimp only
    rw [if_neg hsize]
    exact ⟨⟨⟨rfl, rfl, by simp, by simp, by simp⟩, fun _ => rfl⟩, h.flushes, rfl,
      fun hno => nomatch hno⟩

/-- What a call has to do: push what it should, and throw with a negative size only. -/
structure Serves (s : BulkStatus α ε C) (r : BulkResult α ε C)
    (ops : List (SyncOpr α ε C)) : Prop where
  pushes : ∃ bulk', r.status.Between bulk' ∧ Flushes r.pushed bulk' ops
  size : r.status.bulkSize = s.bulkSize
  throws : r.thrown = true → s.bulkSize < 0

theorem bulkAppend_spec (h : s.Holds bulk) (hctx : s.count = 0 ∨ o.ctx = s.ctx) :
    Serves s (s.bulkAppend o) (bulk ++ [o]) := by
  have hnew : Holds { s with
      functions := s.functions ++ [o.fn]
      ctx := if s.count = 0 then o.ctx else s.ctx
      count := s.count + 1
      constVars := s.constVars ++ o.constVars
      mutableVars := s.mutableVars ++ o.mutableVars } (bulk ++ [o]) := by
    refine ⟨?_, ?_, fun o' ho' => ?_, fun o' ho' => ?_, fun o' ho' => ?_⟩
    · simp [h.count_eq]
    · simp [h.functions_eq]
    · rcases List.mem_append.mp ho' with ho' | ho'
      · exact List.subset_append_of_subset_left _ (h.constVars_sub o' ho')
      · obtain rfl := List.mem_singleton.mp ho'
        exact List.subset_append_right ..
    · rcases List.mem_append.mp ho' with ho' | ho'
      · exact List.subset_append_of_subset_left _ (h.mutableVars_sub o' ho')
      · obtain rfl := List.mem_singleton.mp ho'
        exact List.subset_append_right ..
    · dsimp only
      rcases List.mem_append.mp ho' with ho' | ho'
      · have hne : s.count ≠ 0 := by
          rw [h.count_eq]
          exact (List.length_pos_of_mem ho').ne'
        rw [if_neg hne, h.ctx_eq o' ho']
      · obtain rfl := List.mem_singleton.mp ho'
        split_ifs with hcount
        · rfl
        · exact hctx.resolve_left hcount
  by_cases hfull : s.bulkSize ≤ (s.count + 1 : ℕ)
  · rw [bulkAppend, if_pos hfull]
    obtain ⟨hbetween, hflushes, hsize, hthrows⟩ := bulkFlush_spec hnew
    exact ⟨⟨[], hbetween, hflushes⟩, hsize, fun hthrown => (hthrows hthrown).2⟩
  · have hempty : ¬ s.bulkSize < 0 := by omega
    rw [bulkAppend, if_neg hfull]
    exact ⟨⟨_, ⟨hnew, fun hno => absurd hno hempty⟩, .refl _⟩, rfl, fun hno => nomatch hno⟩

/-- Between two calls `BulkFlush` does not throw. -/
theorem Between.bulkFlush_thrown (h : s.Between bulk) : s.bulkFlush.thrown = false := by
  by_contra hthrown
  obtain ⟨hne, hsize⟩ := (bulkFlush_spec h.toHolds).2.2.2 (by simpa using hthrown)
  exact hne (h.empty hsize)

theorem andThen_of_not_thrown {r : BulkResult α ε C} (h : r.thrown = false)
    (rest : BulkStatus α ε C → BulkResult α ε C) :
    r.andThen rest = { rest r.status with pushed := r.pushed ++ (rest r.status).pushed } := by
  rw [BulkResult.andThen, h]
  rfl

theorem pushAsync_spec (h : s.Between bulk) : Serves s (s.pushAsync o) (bulk ++ [o]) := by
  obtain ⟨hbetween, hflushes, hsize, -⟩ := bulkFlush_spec h.toHolds
  rw [pushAsync, andThen_of_not_thrown h.bulkFlush_thrown]
  exact ⟨⟨[], hbetween, hflushes.trans (.direct o)⟩, hsize, fun hno => nomatch hno⟩

variable [DecidableEq C]

theorem pushSync_spec (h : s.Between bulk) : Serves s (s.pushSync o) (bulk ++ [o]) := by
  rw [pushSync]
  split_ifs with hdirect hctx
  · exact pushAsync_spec h
  · obtain ⟨hbetween, hflushes, hsize, -⟩ := bulkFlush_spec h.toHolds
    rw [andThen_of_not_thrown h.bulkFlush_thrown]
    obtain ⟨⟨bulk', hbetween', hflushes'⟩, hsize', hthrows⟩ :=
      bulkAppend_spec (o := o) hbetween.toHolds (.inl hbetween.count_eq)
    exact ⟨⟨bulk', hbetween', hflushes.trans hflushes'⟩, hsize'.trans hsize,
      fun hthrown => hsize ▸ hthrows hthrown⟩
  · have hctx : s.count = 0 ∨ o.ctx = s.ctx := by tauto
    rw [andThen_of_not_thrown rfl]
    exact bulkAppend_spec h.toHolds hctx

/-- A call pushes what it should. It throws only if the size of the bulk is negative, or is made
so. -/
theorem call_spec (h : s.Between bulk) (c : BulkCall α ε C) :
    ∃ bulk', (s.call c).status.Between bulk' ∧ Flushes (s.call c).pushed bulk' (bulk ++ c.opr) ∧
      (0 ≤ s.bulkSize → (∀ n, c = .setBulkSize n → 0 ≤ n) →
        (s.call c).thrown = false ∧ 0 ≤ (s.call c).status.bulkSize) := by
  have hserves : ∀ {r : BulkResult α ε C} {ops : List (SyncOpr α ε C)}, Serves s r ops →
      ∃ bulk', r.status.Between bulk' ∧ Flushes r.pushed bulk' ops ∧
        (0 ≤ s.bulkSize → (∀ n, c = .setBulkSize n → 0 ≤ n) →
          r.thrown = false ∧ 0 ≤ r.status.bulkSize) := by
    rintro r ops ⟨⟨bulk', hbetween, hflushes⟩, hsize, hthrows⟩
    refine ⟨bulk', hbetween, hflushes, fun hpos _ => ⟨?_, hsize ▸ hpos⟩⟩
    by_contra hthrown
    exact absurd (hthrows (by simpa using hthrown)) (by omega)
  cases c with
  | pushSync o => exact hserves (pushSync_spec h)
  | pushAsync o => exact hserves (pushAsync_spec h)
  | setBulkSize n =>
    have hresized : Holds { s with bulkSize := n } bulk := { h.toHolds with }
    rw [BulkCall.opr, List.append_nil, call, setBulkSize]
    dsimp only
    split_ifs with hfull
    · obtain ⟨hbetween, hflushes, hsize, hthrows⟩ := bulkFlush_spec hresized
      by_cases hthrown : (bulkFlush { s with bulkSize := n }).thrown = true
      · rw [BulkResult.andThen, if_pos hthrown]
        refine ⟨[], hbetween, hflushes, fun _ hpos => ?_⟩
        exact absurd (hthrows hthrown).2 (by simpa using hpos n rfl)
      · rw [andThen_of_not_thrown (by simpa using hthrown)]
        refine ⟨[], hbetween, by simpa using hflushes, fun hpos hn => ⟨?_, ?_⟩⟩
        · simpa using hpos
        · exact hsize.symm ▸ hn n rfl
    · rw [andThen_of_not_thrown rfl]
      refine ⟨bulk, ⟨hresized, fun hno => ?_⟩, .refl bulk, fun hpos hn => ⟨?_, hn n rfl⟩⟩
      · dsimp only at hno
        omega
      · simpa using hpos
  | wait =>
    rw [BulkCall.opr, List.append_nil]
    obtain ⟨hbetween, hflushes, hsize, -⟩ := bulkFlush_spec h.toHolds
    exact ⟨[], hbetween, hflushes, fun hpos _ => ⟨h.bulkFlush_thrown, hsize.symm ▸ hpos⟩⟩

theorem run_spec (h : s.Between bulk) (calls : List (BulkCall α ε C)) :
    ∃ bulk', (s.run calls).status.Between bulk' ∧
      Flushes (s.run calls).pushed bulk' (bulk ++ calls.flatMap BulkCall.opr) ∧
      (0 ≤ s.bulkSize → (∀ n, BulkCall.setBulkSize n ∈ calls → 0 ≤ n) →
        (s.run calls).thrown = false) := by
  induction calls generalizing s bulk with
  | nil => exact ⟨bulk, h, by simpa using .refl bulk, fun _ _ => rfl⟩
  | cons c calls ih =>
    obtain ⟨bulk₁, hbetween, hflushes, hthrown⟩ := call_spec h c
    obtain ⟨bulk₂, hbetween', hflushes', hthrown'⟩ := ih hbetween
    refine ⟨bulk₂, hbetween', ?_, fun hpos hn => ?_⟩
    · rw [List.flatMap_cons, ← List.append_assoc]
      exact hflushes.trans hflushes'
    · obtain ⟨hfirst, hpos'⟩ := hthrown hpos fun n heq => hn n (heq ▸ List.mem_cons_self)
      simp only [run, hfirst, Bool.false_or]
      exact hthrown' hpos' fun n hmem => hn n (List.mem_cons_of_mem _ hmem)

theorem run_concat_wait (s : BulkStatus α ε C) (calls : List (BulkCall α ε C)) :
    (s.run (calls ++ [.wait])).pushed =
      (s.run calls).pushed ++ (s.run calls).status.bulkFlush.pushed := by
  induction calls generalizing s with
  | nil => simp [run, call]
  | cons c calls ih => simp [run, ih]

/-- Nothing is in the bulk after a wait. -/
theorem run_wait (ctx : C) (calls : List (BulkCall α ε C)) :
    Flushes (run { ctx := ctx } (calls ++ [.wait])).pushed [] (calls.flatMap BulkCall.opr) ∧
      ((∀ n, BulkCall.setBulkSize n ∈ calls → 0 ≤ n) →
        (run { ctx := ctx } (calls ++ [.wait])).thrown = false) := by
  have hempty : Between ({ ctx := ctx } : BulkStatus α ε C) [] :=
    ⟨⟨rfl, rfl, by simp, by simp, by simp⟩, fun _ => rfl⟩
  refine ⟨?_, fun hn => ?_⟩
  · obtain ⟨bulk, hbetween, hflushes, -⟩ := run_spec hempty calls
    have hlast : Flushes (run { ctx := ctx } calls).status.bulkFlush.pushed [] (bulk ++ []) := by
      simpa using (bulkFlush_spec hbetween.toHolds).2.1
    rw [run_concat_wait]
    simpa using hflushes.trans hlast
  · obtain ⟨-, -, -, hthrown⟩ := run_spec hempty (calls ++ [.wait])
    exact hthrown le_rfl fun n hmem => hn n (by simpa using hmem)

end BulkStatus

/-- If the operations can be run one after another, none of them fails in the engine. -/
theorem not_fails_of_runOprs {ops : List (SyncOpr α ε C)} {m m' : EngineMemory α ε}
    (hok : ∀ o ∈ ops, o.Ok) (h : BulkStatus.runOprs ops m = some m') :
    runFns (ops.pmap SyncOpr.engineOpr hok) m = m' ∧
      ∀ i, ¬ Fails (ops.pmap SyncOpr.engineOpr hok) m i := by
  induction ops using List.reverseRecOn generalizing m' with
  | nil => exact ⟨Option.some.inj h, fun i hfails => absurd hfails.lt (Nat.not_lt_zero i)⟩
  | append_singleton ops o ih =>
    rw [BulkStatus.runOprs_append] at h
    obtain ⟨m₁, hops, hlast⟩ := Option.bind_eq_some_iff.mp h
    rw [BulkStatus.runOprs_singleton] at hlast
    obtain ⟨hnone, hrun⟩ := BulkStatus.attempt_eq_some.mp hlast
    have hok' : ∀ o ∈ ops, o.Ok := fun o ho => hok o (List.mem_append_left _ ho)
    obtain ⟨rfl, hnot⟩ := ih hok' hops
    rw [List.pmap_append]
    refine ⟨by rw [runFns, List.foldl_append]; exact hrun, fun i hfails => ?_⟩
    by_cases hi : i < (ops.pmap SyncOpr.engineOpr hok').length
    · exact hnot i (hfails.of_concat hi)
    · obtain rfl : i = (ops.pmap SyncOpr.engineOpr hok').length := by
        have := hfails.lt
        rw [List.length_append, List.pmap_cons, List.length_cons, List.pmap_nil] at this
        simp only [List.length_nil] at this
        omega
      rcases fails_concat_self.mp hfails with ⟨u, -, j, -, -, -, hfails⟩ | hraises
      · exact hnot j hfails
      · exact hraises hnone

namespace RunningEngine
variable [DecidableEq C] {p : RunningEngine α ε} {m₀ : EngineMemory α ε}

/-- These operations have been pushed. -/
structure PushedOprs (p : RunningEngine α ε) (ops : List (SyncOpr α ε C)) : Prop where
  ok : ∀ o ∈ ops, o.Ok
  pushed : p.Pushed (ops.pmap SyncOpr.engineOpr ok)

/-- Every operation that a thread pushes, in bulk or not, passes `CheckDuplicate` and accesses its
own variables only, and nothing is thrown as long as no bulk size is negative. If no function fails
where they run one after another, then however the operations are bulked, behind a wait a variable
has the array that they leave there. -/
theorem bulk_memory (ctx : C) (calls : List (BulkCall α ε C)) :
    ((∀ o ∈ calls.flatMap BulkCall.opr, o.Ok) →
      ∀ o ∈ (BulkStatus.run { ctx := ctx } (calls ++ [.wait])).pushed,
        o.Ok ∧ checkDuplicate o.constVars o.mutableVars = true) ∧
    ((∀ n, BulkCall.setBulkSize n ∈ calls → 0 ≤ n) →
      (BulkStatus.run { ctx := ctx } (calls ++ [.wait])).thrown = false) ∧
    ∀ k, Steps SerialStep k { mem := m₀ } p → (∀ v, m₀ (.exception v) = none) →
      p.PushedOprs (BulkStatus.run { ctx := ctx } (calls ++ [.wait])).pushed →
      ∀ m, BulkStatus.runOprs (calls.flatMap BulkCall.opr) m₀ = some m →
        ∀ v, p.engine.Settled v → p.mem (.exception v) = none ∧ p.mem (.data v) = m (.data v) := by
  obtain ⟨hflushes, hthrown⟩ := BulkStatus.run_wait ctx calls
  refine ⟨fun hok o ho => ?_, hthrown, fun k h hm₀ hpushed m hm v hv => ?_⟩
  · have hpushed := (hflushes.ok hok).1 o ho
    exact ⟨hpushed, (checkDuplicate_iff o.toThreadedOpr).mpr hpushed.nodup⟩
  obtain ⟨hok, hpushed⟩ := hpushed
  rw [← hflushes.run_eq] at hm
  obtain ⟨m₁, hrun, hm⟩ := Option.bind_eq_some_iff.mp hm
  obtain rfl := Option.some.inj hm
  obtain ⟨hfns, hnot⟩ := not_fails_of_runOprs hok hrun
  obtain ⟨hiff, hdata⟩ := executeOprBlock_sequential hm₀ v
  rw [hpushed.mem_eq h (l := .exception v) hv, hpushed.mem_eq h (l := .data v) hv]
  have hnone := not_not.mp (hiff.not.mpr fun ⟨i, _, _, _, hfails⟩ => hnot i hfails)
  exact ⟨hnone, by rw [hdata hnone, hfns]⟩

/-- An operation that adds 1 to the array of variable 0. -/
def increment : SyncOpr ℕ Unit Unit :=
  { mutableVars := [0], ctx := (),
    fn := fun _ => .read (.data 0) fun x => .write (.data 0) (Nat.succ x) (.pure none) }

theorem increment_ok : increment.Ok :=
  ⟨by decide, fun _ => ⟨⟨0, by decide, rfl⟩, fun _ => ⟨⟨0, by decide, rfl⟩, trivial⟩⟩⟩

/-- What the engine runs for a bulk of two of them. -/
def incrementTwice : AsyncFn ℕ Unit :=
  .read (.exception 0) fun
    | some () => .write (.exception 0) (some ()) (.pure ())
    | none => .read (.data 0) fun x => .write (.data 0) (Nat.succ x)
        (.read (.data 0) fun y => .write (.data 0) (Nat.succ y) (.pure ()))

theorem incrementTwice_steps :
    ∃ p : RunningEngine ℕ Unit, Steps SerialStep 10 { mem := threes } p ∧
      p.engine.oprs = [{ mutableVars := [0] }] ∧ p.fn 0 = incrementTwice ∧
      p.mem (.data 0) = (5 : ℕ) ∧ p.engine.Settled 0 := by
  have hall : ∀ op < 1, op ∈ [0] := by decide
  have hmem := List.mem_singleton_self 0
  have h₁ := (@Steps.refl _ SerialStep ({ mem := threes } : RunningEngine ℕ Unit)).tail
    ⟨.push _ { mutableVars := [0] } incrementTwice (by decide) ⟨hmem, fun
      | some () => ⟨hmem, trivial⟩
      | none => ⟨hmem, fun _ => ⟨hmem, hmem, fun _ => ⟨hmem, trivial⟩⟩⟩⟩, by simp⟩
  have h₂ := h₁.tail ⟨.run _ _ [] [] _ _ _ rfl (by simp) rfl, fun hne => absurd rfl hne⟩
  have h₃ := h₂.tail ⟨.run _ _ [] [] _ _ _ rfl (by simp) rfl, fun hne => absurd rfl hne⟩
  have h₄ := h₃.tail ⟨.execute _ 0 _ rfl (by decide) (by decide), fun hne => absurd rfl hne⟩
  have h₅ := h₄.tail ⟨.read _ 0 (.exception 0) _ (by decide) rfl, fun hne => absurd rfl hne⟩
  have h₆ := h₅.tail ⟨.read _ 0 (.data 0) _ (by decide) rfl, fun hne => absurd rfl hne⟩
  have h₇ := h₆.tail ⟨.write _ 0 (.data 0) _ _ (by decide) rfl, fun hne => absurd rfl hne⟩
  have h₈ := h₇.tail ⟨.read _ 0 (.data 0) _ (by decide) rfl, fun hne => absurd rfl hne⟩
  have h₉ := h₈.tail ⟨.write _ 0 (.data 0) _ _ (by decide) rfl, fun hne => absurd rfl hne⟩
  have h₁₀ := h₉.tail ⟨.run _ _ [[]] [] _ _ _ rfl (fun _ _ heq => by cases heq; trivial) rfl,
    fun hne => absurd rfl hne⟩
  refine ⟨_, h₁₀, rfl, rfl, rfl, ?_⟩
  rintro op ⟨o, hopr, -⟩
  exact hall op (List.getElem?_eq_some_iff.mp hopr).1

/-- Two operations in a bulk of size 2 get to the engine as one. -/
theorem bulk_memory_increments :
    ∃ p : RunningEngine ℕ Unit, p.engine.oprs.length = 1 ∧ p.mem (.exception 0) = none ∧
      p.mem (.data 0) = (5 : ℕ) ∧
      ∃ m, BulkStatus.runOprs [increment, increment] threes = some m ∧
        p.mem (.data 0) = m (.data 0) := by
  obtain ⟨p, h, hoprs, hfn, hmem, hsettled⟩ := incrementTwice_steps
  have hok : ∀ o ∈ [increment, increment], o.Ok := by
    intro o ho
    obtain rfl : o = increment := by simpa using ho
    exact increment_ok
  obtain ⟨hoks, -, hmemory⟩ :=
    bulk_memory () [.setBulkSize 2, .pushSync increment, .pushSync increment]
  have hpushed : p.PushedOprs (BulkStatus.run { ctx := () }
      ([.setBulkSize 2, .pushSync increment, .pushSync increment] ++ [.wait])).pushed := by
    refine ⟨fun o ho => (hoks hok o ho).1, hoprs, ?_⟩
    have hprogram : ∀ hbulk, (SyncOpr.engineOpr
        { mutableVars := [0], fn := runFunctions [increment.fn, increment.fn], ctx := () }
        hbulk).executeOprBlock = incrementTwice := fun hbulk => by
      refine congrArg (Program.read (Location.exception 0)) (funext fun e => ?_)
      cases e <;> rfl
    change [p.fn 0] = [_]
    rw [hfn]
    exact congrArg (fun fn => [fn]) (hprogram _).symm
  obtain ⟨hnone, hdata⟩ := hmemory 10 h (fun _ => rfl) hpushed _ rfl 0 hsettled
  exact ⟨p, by rw [hoprs]; rfl, hnone, hmem, _, rfl, hdata⟩

end RunningEngine

end NetStorm

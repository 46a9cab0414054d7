import NetStorm.FindTrace
import Mathlib.Data.List.Lex

/-!
# The variables of the path enumeration

`find_trace` changes its parameters `trace` and `max_tp` before a nested call and restores them
behind it, and appends what it finds to two members of the van. The members keep in step, and
what the walk appends is the list of `findTrace`, in lexicographic order.
-/
namespace NetStorm.Scheduler
open WeightedPath

/-- The members `traces` and `max_tps`. -/
structure Traces where
  traces : List (List ℕ) := []
  maxTps : List ℚ := []

/-- The variables of a call: the members, and the parameters that the loop changes. -/
structure WalkState extends Traces where
  maxTp : ℚ
  trace : List ℕ

/-- One pass of the loop of `find_trace`, for a nested call `call`. -/
def findTraceStep (tps : ℕ → ℕ → ℚ) (start stop : ℕ)
    (call : ℕ → ℚ → List ℕ → Traces → Option Traces) (s : WalkState) (i : ℕ) :
    Option WalkState :=
  if i = start ∨ tps start i = 0 then some s
  else if i = stop then
    let trace := s.trace ++ [i]
    let temp := s.maxTp
    let maxTp := s.maxTp + 1 / tps start i
    some ⟨⟨s.traces ++ [trace], s.maxTps ++ [maxTp]⟩, temp, trace.dropLast⟩
  else if iInTrace i s.trace then some s
  else do
    let trace := s.trace ++ [i]
    let temp := s.maxTp
    let maxTp := s.maxTp + 1 / tps start i
    let found ← call i maxTp trace s.toTraces
    some ⟨found, temp, trace.dropLast⟩

/-- `Van::find_trace`, as long as the calls are nested less than `depth` times. -/
def findTraceWithin (n : ℕ) (tps : ℕ → ℕ → ℚ) (stop : ℕ) :
    ℕ → ℕ → ℚ → List ℕ → Traces → Option Traces
  | 0, _, _, _, _ => none
  | depth + 1, start, maxTp, trace, found => do
    let s ← (List.range n).foldlM
      (findTraceStep tps start stop (findTraceWithin n tps stop depth)) ⟨found, maxTp, trace⟩
    some s.toTraces

/-- Paths with their costs, appended to the members. -/
def Traces.append (found : Traces) (paths : List (List ℕ × ℚ)) : Traces :=
  ⟨found.traces ++ paths.map Prod.fst, found.maxTps ++ paths.map Prod.snd⟩

@[simp] theorem Traces.append_nil (found : Traces) : found.append [] = found := by
  simp [Traces.append]

@[simp] theorem Traces.append_append (found : Traces) (paths paths' : List (List ℕ × ℚ)) :
    (found.append paths).append paths' = found.append (paths ++ paths') := by
  simp [Traces.append]

section Walk
variable {n : ℕ} {tps : ℕ → ℕ → ℚ} {start stop : ℕ} {maxTp : ℚ} {trace : List ℕ}

/-- What a call finds through one next node. -/
def branch (n : ℕ) (tps : ℕ → ℕ → ℚ) (start stop : ℕ) (maxTp : ℚ) (trace : List ℕ) (i : ℕ) :
    List (List ℕ × ℚ) :=
  if i = start ∨ tps start i = 0 then []
  else if i = stop then [(trace ++ [i], maxTp + 1 / tps start i)]
  else if iInTrace i trace then []
  else findTrace n tps i stop (maxTp + 1 / tps start i) (trace ++ [i])

theorem findTrace_eq_flatMap :
    findTrace n tps start stop maxTp trace =
      (List.range n).flatMap (branch n tps start stop maxTp trace) := by
  rw [findTrace, List.flatMap_subtype (g := branch n tps start stop maxTp trace) fun i hi => rfl,
    List.unattach_attach]

/-- One pass of the loop appends a branch, and leaves `trace` and `max_tp` as they were. -/
theorem findTraceStep_eq {call : ℕ → ℚ → List ℕ → Traces → Option Traces} {i : ℕ}
    (hcall : iInTrace i trace = false → ∀ maxTp found,
      call i maxTp (trace ++ [i]) found =
        some (found.append (findTrace n tps i stop maxTp (trace ++ [i])))) (found : Traces) :
    findTraceStep tps start stop call ⟨found, maxTp, trace⟩ i =
      some ⟨found.append (branch n tps start stop maxTp trace i), maxTp, trace⟩ := by
  rw [findTraceStep, branch]
  split_ifs with hlink hstop hseen
  · rw [Traces.append_nil]
  · simp [Traces.append]
  · rw [Traces.append_nil]
  · simp [hcall (Bool.eq_false_of_not_eq_true hseen)]

/-- The loop appends the branches one after the other. -/
theorem foldlM_findTraceStep {call : ℕ → ℚ → List ℕ → Traces → Option Traces} {l : List ℕ}
    (hcall : ∀ i ∈ l, iInTrace i trace = false → ∀ maxTp found,
      call i maxTp (trace ++ [i]) found =
        some (found.append (findTrace n tps i stop maxTp (trace ++ [i])))) (found : Traces) :
    l.foldlM (findTraceStep tps start stop call) ⟨found, maxTp, trace⟩ =
      some ⟨found.append (l.flatMap (branch n tps start stop maxTp trace)), maxTp, trace⟩ := by
  induction l generalizing found with
  | nil => simp
  | cons i l ih =>
    rw [List.foldlM_cons, findTraceStep_eq (hcall i List.mem_cons_self), Option.bind_eq_bind,
      Option.bind_some, ih fun j hj => hcall j (List.mem_cons_of_mem _ hj), Traces.append_append,
      List.flatMap_cons]

/-- Every nested call visits one more server, so the depth is bounded by those not visited. -/
theorem findTraceWithin_eq {depth : ℕ} (hdepth : unvisited n trace < depth) (found : Traces) :
    findTraceWithin n tps stop depth start maxTp trace found =
      some (found.append (findTrace n tps start stop maxTp trace)) := by
  induction depth generalizing start maxTp trace found with
  | zero => exact absurd hdepth (Nat.not_lt_zero _)
  | succ depth ih =>
    rw [findTraceWithin, foldlM_findTraceStep, findTrace_eq_flatMap]
    · rfl
    · intro i hi hseen maxTp found
      have hless := unvisited_append_lt hi (by rw [hseen]; exact Bool.false_ne_true)
      exact ih (by omega) found

/-- The paths behind a next node go through that node. -/
theorem exists_of_mem_branch {i : ℕ} {p : List ℕ} {c : ℚ}
    (h : (p, c) ∈ branch n tps start stop maxTp trace i) : ∃ q, p = trace ++ i :: q := by
  rw [branch] at h
  split_ifs at h
  · exact absurd h List.not_mem_nil
  · exact ⟨[], (Prod.mk.inj (List.mem_singleton.mp h)).1⟩
  · exact absurd h List.not_mem_nil
  · obtain ⟨q, -, rfl, -⟩ := (mem_findTrace ..).mp h
    exact ⟨q, by simp⟩

/-- The walk takes the next nodes in their order. -/
theorem findTrace_sorted (n : ℕ) (tps : ℕ → ℕ → ℚ) (start stop : ℕ) (maxTp : ℚ)
    (trace : List ℕ) :
    (findTrace n tps start stop maxTp trace).Pairwise (·.1 < ·.1) := by
  induction start, maxTp, trace using findTrace.induct n tps with
  | case1 start maxTp trace ih =>
    rw [findTrace_eq_flatMap, List.pairwise_flatMap]
    constructor
    · intro i hi
      rw [branch]
      split_ifs with hlink hstop hseen
      · exact .nil
      · exact List.pairwise_singleton _ _
      · exact .nil
      · exact ih i hi hseen
    · refine List.pairwise_lt_range.imp ?_
      rintro i j hij ⟨p, c⟩ hp ⟨p', c'⟩ hp'
      obtain ⟨q, rfl⟩ := exists_of_mem_branch hp
      obtain ⟨q', rfl⟩ := exists_of_mem_branch hp'
      exact List.append_left_lt (List.cons_lt_cons_iff.mpr (.inl hij))

end Walk

/-- The call `find_trace(start, stop, 0, [start])` returns and leaves in `traces` the simple
paths over non-zero links, each once and in lexicographic order, and in `max_tps` their costs. -/
theorem findTrace_enumerates {n : ℕ} {tps : ℕ → ℕ → ℚ} {start stop : ℕ} (hne : start ≠ stop) :
    ∃ found : Traces,
      (∀ depth, n < depth → findTraceWithin n tps stop depth start 0 [start] {} = some found) ∧
      (∀ p, p ∈ found.traces ↔ IsPath (Link n tps) start stop p) ∧ found.traces.Nodup ∧
      found.traces.Pairwise (· < ·) ∧
      found.maxTps = found.traces.map (pathCost (linkCost tps)) := by
  have hmem := @mem_findTrace_start n tps start stop hne
  have hsorted := List.pairwise_map.mpr (findTrace_sorted n tps start stop 0 [start])
  refine ⟨({} : Traces).append (findTrace n tps start stop 0 [start]), fun depth hdepth => ?_,
    fun p => ?_, ?_, ?_, ?_⟩
  · have hle : unvisited n [start] ≤ n := (List.length_filter_le _ _).trans (by simp)
    exact findTraceWithin_eq (by omega) {}
  · simp only [Traces.append, List.nil_append, List.mem_map, Prod.exists, exists_and_right,
      exists_eq_right, hmem]
  · exact hsorted.imp ne_of_lt
  · exact hsorted
  · simp only [Traces.append, List.nil_append, List.map_map]
    exact List.map_congr_left fun ⟨p, c⟩ hp => ((hmem p c).mp hp).2

theorem findTrace_enumerates_triangle :
    ∃ found : Traces, findTraceWithin 3 (fun a b => if a = b then 0 else 2) 2 4 0 0 [0] {} =
      some found ∧ [0, 1, 2] ∈ found.traces ∧ [0, 2] ∈ found.traces := by
  obtain ⟨found, hfound, hmem, -⟩ :=
    @findTrace_enumerates 3 (fun a b => if a = b then 0 else 2) 0 2 (by decide)
  exact ⟨found, hfound 4 (by decide), (hmem _).mpr ⟨rfl, rfl, by decide, by decide⟩,
    (hmem _).mpr ⟨rfl, rfl, by decide, by decide⟩⟩

end NetStorm.Scheduler

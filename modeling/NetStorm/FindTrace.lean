import NetStorm.Library.WeightedPath
import Mathlib.Data.Rat.Defs
import Mathlib.Algebra.Order.Ring.Rat
import Mathlib.Tactic.Linarith

/-!
# The scheduler's path enumeration

`find_trace` of van.cc walks the link matrix `tps` depth first and appends every
simple path between two servers to `traces`, with its cost (the sum of `1/tps`)
at the same index of `max_tps`. The two vectors are one list of pairs here.
Link values are exact rationals; a zero entry is an absent link.
-/
namespace NetStorm.Scheduler
open WeightedPath

/-- `Van::i_in_trace`. -/
def iInTrace (i : ℕ) (trace : List ℕ) : Bool := trace.any (fun it => it == i)

@[simp] theorem iInTrace_eq_true (i : ℕ) (trace : List ℕ) :
    iInTrace i trace = true ↔ i ∈ trace := by
  simp [iInTrace]

/-- How many of the `n` servers a trace has not visited. -/
def unvisited (n : ℕ) (trace : List ℕ) : ℕ :=
  ((List.range n).filter fun v => !iInTrace v trace).length

theorem unvisited_append_lt {n i : ℕ} {trace : List ℕ} (hi : i ∈ List.range n)
    (h : ¬ iInTrace i trace = true) : unvisited n (trace ++ [i]) < unvisited n trace := by
  have hsub : (List.range n).filter (fun v => !iInTrace v (trace ++ [i])) =
      ((List.range n).filter (fun v => !iInTrace v trace)).filter (fun v => !(v == i)) := by
    rw [List.filter_filter]
    apply List.filter_congr
    intro v _
    have hv : (i == v) = (v == i) := Bool.beq_comm
    simp [iInTrace, List.any_append, Bool.and_comm, hv]
  have hmem : i ∈ (List.range n).filter (fun v => !iInTrace v trace) := by
    simp only [List.mem_filter, Bool.not_eq_true']
    exact ⟨hi, by rwa [Bool.not_eq_true] at h⟩
  unfold unvisited
  rw [hsub]
  exact List.length_filter_lt_length_iff_exists.mpr ⟨i, hmem, by simp⟩

/-- `Van::find_trace`. Each nested call visits one more server, so the walk ends. -/
def findTrace (n : ℕ) (tps : ℕ → ℕ → ℚ) (start stop : ℕ) (maxTp : ℚ) (trace : List ℕ) :
    List (List ℕ × ℚ) :=
  (List.range n).attach.flatMap fun ⟨i, _⟩ =>
    if i = start ∨ tps start i = 0 then []
    else if i = stop then [(trace ++ [i], maxTp + 1 / tps start i)]
    else if _h : iInTrace i trace then []
    else findTrace n tps i stop (maxTp + 1 / tps start i) (trace ++ [i])
termination_by unvisited n trace
decreasing_by exact unvisited_append_lt ‹_› ‹_›

/-- A usable link of the matrix towards one of the `n` servers. -/
def Link (n : ℕ) (tps : ℕ → ℕ → ℚ) (a b : ℕ) : Prop := b < n ∧ tps a b ≠ 0

instance (n : ℕ) (tps : ℕ → ℕ → ℚ) (a b : ℕ) : Decidable (Link n tps a b) :=
  inferInstanceAs (Decidable (_ ∧ _))

/-- The cost of one link. -/
def linkCost (tps : ℕ → ℕ → ℚ) (a b : ℕ) : ℚ := 1 / tps a b

/-- What one call of `find_trace` appends behind its trace: `q` leaves `start`,
avoids the trace, and stops at the first visit of `stop`. -/
inductive Extends (n : ℕ) (tps : ℕ → ℕ → ℚ) (stop : ℕ) : List ℕ → ℕ → List ℕ → Prop
  | last {trace start} : Link n tps start stop → stop ≠ start → Extends n tps stop trace start [stop]
  | step {trace start i q} : Link n tps start i → i ≠ start → i ≠ stop → i ∉ trace →
      Extends n tps stop (trace ++ [i]) i q → Extends n tps stop trace start (i :: q)

theorem mem_findTrace (n : ℕ) (tps : ℕ → ℕ → ℚ) (start stop : ℕ) (maxTp : ℚ)
    (trace p : List ℕ) (c : ℚ) :
    (p, c) ∈ findTrace n tps start stop maxTp trace ↔
      ∃ q, Extends n tps stop trace start q ∧ p = trace ++ q ∧
        c = maxTp + pathCost (linkCost tps) (start :: q) := by
  induction start, maxTp, trace using findTrace.induct n tps with
  | case1 start maxTp trace ih =>
    rw [findTrace]
    simp only [List.mem_flatMap, List.mem_attach, true_and, Subtype.exists, List.mem_range]
    constructor
    · rintro ⟨i, hi, hmem⟩
      by_cases h0 : i = start ∨ tps start i = 0
      · simp [h0] at hmem
      have hlink : Link n tps start i := ⟨hi, fun h => h0 (.inr h)⟩
      have hne : i ≠ start := fun h => h0 (.inl h)
      by_cases hs : i = stop
      · subst hs
        simp only [h0, if_false, if_true, List.mem_singleton, Prod.mk.injEq] at hmem
        exact ⟨[i], .last hlink hne, hmem.1, by simp [hmem.2, linkCost]⟩
      by_cases hv : iInTrace i trace = true
      · simp [h0, hs, hv] at hmem
      simp only [h0, hs, hv, if_false] at hmem
      obtain ⟨q, hq, rfl, rfl⟩ := (ih i (List.mem_range.mpr hi) hv).mp hmem
      exact ⟨i :: q, .step hlink hne hs (by simpa using hv) hq, by simp,
        by simp [linkCost, add_assoc]⟩
    · rintro ⟨q, hq, rfl, rfl⟩
      cases hq with
      | last hlink hne =>
        refine ⟨stop, hlink.1, ?_⟩
        simp [hne, hlink.2, linkCost]
      | @step _ _ i q hlink hne hs hv hq =>
        have h0 : ¬ (i = start ∨ tps start i = 0) := by simp [hne, hlink.2]
        have hv' : ¬ iInTrace i trace = true := by simpa using hv
        refine ⟨i, hlink.1, ?_⟩
        simp only [h0, hs, hv', if_false]
        refine (ih i (List.mem_range.mpr hlink.1) hv').mpr
          ⟨q, hq, by simp, by simp [linkCost, add_assoc]⟩

/-- Under the walk's own invariant (the trace is duplicate free, ends its walk at
`start` and has not met `stop`) an extension is exactly the rest of a simple path. -/
theorem extends_iff {n : ℕ} {tps : ℕ → ℕ → ℚ} {stop : ℕ} {trace : List ℕ} {start : ℕ}
    {q : List ℕ} (hs : start ∈ trace) (hn : trace.Nodup) (hstop : stop ∉ trace) :
    Extends n tps stop trace start q ↔
      (start :: q).IsChain (Link n tps) ∧ (start :: q).getLast? = some stop ∧
        (trace ++ q).Nodup := by
  constructor
  · intro h
    induction h with
    | last hlink hne =>
      refine ⟨.cons_cons hlink (.singleton _), by simp, ?_⟩
      rw [List.nodup_append]
      exact ⟨hn, by simp, fun a ha b hb hab => hstop (by simp_all)⟩
    | @step trace start i q hlink hne hns hni _ ih =>
      have hn' : (trace ++ [i]).Nodup := by
        rw [List.nodup_append]
        exact ⟨hn, by simp, fun a ha b hb hab => hni (by simp_all)⟩
      obtain ⟨hc, hl, hnd⟩ := ih (by simp) hn' (by simp [hstop, Ne.symm hns])
      exact ⟨.cons_cons hlink hc, by simpa using hl, by simpa using hnd⟩
  · rintro ⟨hc, hl, hnd⟩
    induction q generalizing trace start with
    | nil =>
      obtain rfl : start = stop := by simpa using hl
      exact absurd hs hstop
    | cons i q ih =>
      have hne : i ≠ start := by
        rintro rfl
        exact (List.nodup_append.mp hnd).2.2 i hs i (by simp) rfl
      have hni : i ∉ trace := fun h => (List.nodup_append.mp hnd).2.2 i h i (by simp) rfl
      by_cases his : i = stop
      · subst his
        cases q with
        | nil => exact .last hc.rel hne
        | cons b q =>
          have hlast : i ∈ b :: q := List.mem_of_getLast? (by simpa using hl)
          exact absurd hlast (List.nodup_cons.mp (List.nodup_append.mp hnd).2.1).1
      · have hn' : (trace ++ [i]).Nodup := by
          refine (List.nodup_append.mp hnd).1.append (by simp) ?_
          simpa using hni
        exact .step hc.rel hne his hni (ih (by simp) hn' (by simp [hstop, Ne.symm his])
          hc.tail (by simpa using hl) (by simpa using hnd))

/-- The call `find_trace(start, stop, 0, [start])` lists exactly the simple paths
over non-zero links, each with the sum of `1/tps` over its links. -/
theorem mem_findTrace_start {n : ℕ} {tps : ℕ → ℕ → ℚ} {start stop : ℕ} (hne : start ≠ stop)
    (p : List ℕ) (c : ℚ) :
    (p, c) ∈ findTrace n tps start stop 0 [start] ↔
      IsPath (Link n tps) start stop p ∧ c = pathCost (linkCost tps) p := by
  rw [mem_findTrace]
  have hiff := @extends_iff n tps stop [start] start
  constructor
  · rintro ⟨q, hq, rfl, rfl⟩
    obtain ⟨hc, hl, hnd⟩ := (hiff (by simp) (by simp) (by simpa using Ne.symm hne)).mp hq
    exact ⟨⟨rfl, hl, hc, hnd⟩, by simp⟩
  · rintro ⟨⟨hh, hl, hc, hnd⟩, rfl⟩
    match p, hh with
    | a :: q, hh =>
      obtain rfl : a = start := by simpa using hh
      exact ⟨q, (hiff (by simp) (by simp) (by simpa using Ne.symm hne)).mpr ⟨hc, hl, hnd⟩,
        rfl, by simp⟩

end NetStorm.Scheduler

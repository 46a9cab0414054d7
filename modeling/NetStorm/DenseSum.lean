import NetStorm.KeyRanges
import NetStorm.Library.OptionTable
import NetStorm.Library.Serialization
import Mathlib.Algebra.BigOperators.Group.List.Basic
import Mathlib.Algebra.Order.Ring.Int
import Mathlib.Data.List.Range

/-!
# The parallel sum of dense arrays on the CPU

`ReduceSumCPU` adds the arrays to the first one in groups of at most four, element by element. Large
arrays are cut into blocks, which are the iterations of a parallel loop. The iterations run at the
same time, which includes every schedule that gives them to threads. The number of blocks is a
division by the size of a block, and the size of what is added becomes an `index_t` of 32 bits: both
can go wrong.
-/
namespace NetStorm
namespace DenseSum
variable {R : Type}

/-- Element `l.2` of array `l.1`. -/
abbrev Element := ℕ × ℕ

abbrev SumProgram (R : Type) := Program Element (fun _ => R) Unit

/-- The groups of arrays from array `i` on, by the cases of the `switch`. -/
def groups (n i : ℕ) : List (List ℕ) :=
  if i < n then
    (match n - i with
      | 1 => [i]
      | 2 => [i, i + 1]
      | 3 => [i, i + 1, i + 2]
      | _ => [i, i + 1, i + 2, i + 3]) :: groups n (i + 4)
  else []
termination_by n - i

/-- The parts of the arrays that are added by one call each, with their offset and their size. -/
def parts (bigarrayBound : ℕ) (nthreadReduction : ℤ) (total : ℕ) : List (ℕ × ℕ) :=
  let step := min bigarrayBound (4 <<< 10)
  let ntask := (total + step - 1) / step
  if total < bigarrayBound ∨ nthreadReduction ≤ 1 then [(0, total)]
  else
    (List.range ntask).map fun k =>
      (min (k * step) total, min ((k + 1) * step) total - min (k * step) total)

/-- A size as an `index_t`, and no size if it is negative. -/
def toIndex (size : ℕ) : Option ℕ :=
  if 0 ≤ toInt32 size then some (toInt32 size).toNat else none

/-- The parts with their sizes as `index_t`. A bound of 0 is a division by zero. -/
def blocks (bigarrayBound : ℕ) (nthreadReduction : ℤ) (total : ℕ) : Option (List (ℕ × ℕ)) :=
  if min bigarrayBound (4 <<< 10) = 0 then none
  else (parts bigarrayBound nthreadReduction total).mapM fun b => (toIndex b.2).map (b.1, ·)

section Programs
variable [Add R]

/-- The rest of `in_0 += x + in_1 + …` for an element. -/
def addRest (e : ℕ) : List ℕ → R → SumProgram R
  | [], x => .read (0, e) fun y => .write (0, e) (y + x) (.pure ())
  | i :: is, x => .read (i, e) fun y => addRest e is (x + y)

def addGroup (e : ℕ) : List ℕ → SumProgram R
  | [] => .pure ()
  | i :: is => .read (i, e) (addRest e is)

/-- `ReduceSumCPU` for `n` arrays. -/
def reduceSumCPU (n offset size : ℕ) : SumProgram R :=
  .forEach (fun is => .forEach (fun e => addGroup e is) (List.range' offset size)) (groups n 1)

/-- `ReduceSumCPUImpl`: the iterations over the blocks. -/
def reduceSumCPUImpl (n bigarrayBound : ℕ) (nthreadReduction : ℤ) (total : ℕ) :
    Option (List (SumProgram R)) :=
  (blocks bigarrayBound nthreadReduction total).map fun bs =>
    bs.map fun b => reduceSumCPU n b.1 b.2

end Programs

section Blocks

theorem groups_flatten (n i : ℕ) : (groups n i).flatten = List.range' i (n - i) := by
  induction i using groups.induct n with
  | case1 i h ih =>
    rw [groups, if_pos h, List.flatten_cons, ih]
    obtain ⟨k, rfl⟩ : ∃ k, n = i + k := ⟨n - i, by omega⟩
    match k with
    | 0 => omega
    | 1 => simp [List.range'_succ]
    | 2 => simp [List.range'_succ]
    | 3 => simp [List.range'_succ]
    | k + 4 =>
      have hgroup : i + (k + 4) - i = k + 4 := by omega
      have hrest : i + (k + 4) - (i + 4) = k := by omega
      rw [hgroup, hrest]
      simp [List.range'_succ, Nat.add_assoc]
  | case2 i h =>
    rw [groups, if_neg h]
    have hzero : n - i = 0 := by omega
    simp [hzero]

/-- The check of the last block: it ends with the arrays. -/
theorem blocks_end {step : ℕ} (hstep : 0 < step) (total : ℕ) :
    min ((total + step - 1) / step * step) total = total := by
  have hceil : total + step - 1 < (total + step - 1) / step * step + step :=
    Nat.lt_div_mul_add hstep
  omega

/-- The element is in the block. -/
def InBlock (b : ℕ × ℕ) (e : ℕ) : Prop := b.1 ≤ e ∧ e < b.1 + b.2

theorem exists_part {bigarrayBound total e : ℕ} (hbound : 0 < bigarrayBound)
    (nthreadReduction : ℤ) (he : e < total) :
    ∃ b ∈ parts bigarrayBound nthreadReduction total, InBlock b e := by
  unfold parts
  dsimp only
  split_ifs
  · exact ⟨_, List.mem_singleton_self _, Nat.zero_le e, by omega⟩
  · have hstep : 0 < min bigarrayBound (4 <<< 10) := by
      rw [Nat.lt_min]
      exact ⟨hbound, by decide⟩
    set step := min bigarrayBound (4 <<< 10)
    have hstart : e / step * step ≤ e := Nat.div_mul_le_self e step
    have hstop : e < e / step * step + step := Nat.lt_div_mul_add hstep
    have hceil := blocks_end hstep total
    refine ⟨_, List.mem_map.mpr ⟨e / step, List.mem_range.mpr ?_, rfl⟩, ?_⟩
    · by_contra hge
      have := Nat.mul_le_mul_right step (not_lt.mp hge)
      omega
    · unfold InBlock
      dsimp only
      rw [Nat.add_mul, Nat.one_mul]
      omega

theorem parts_pairwise (bigarrayBound : ℕ) (nthreadReduction : ℤ) (total : ℕ) :
    (parts bigarrayBound nthreadReduction total).Pairwise fun b b' =>
      ∀ e, InBlock b e → ¬ InBlock b' e := by
  unfold parts
  dsimp only
  split_ifs
  · exact List.pairwise_singleton _ _
  · set step := min bigarrayBound (4 <<< 10)
    rw [List.pairwise_map]
    refine List.pairwise_lt_range.imp fun {k k'} hlt e he he' => ?_
    have hle : (k + 1) * step ≤ k' * step := Nat.mul_le_mul_right step hlt
    unfold InBlock at he he'
    dsimp only at he he'
    omega

theorem part_le {bigarrayBound : ℕ} {nthreadReduction : ℤ} {total : ℕ} {b : ℕ × ℕ}
    (hb : b ∈ parts bigarrayBound nthreadReduction total) {e : ℕ} (he : InBlock b e) :
    e < total := by
  unfold parts at hb
  unfold InBlock at he
  dsimp only at hb
  split_ifs at hb
  · obtain rfl := List.mem_singleton.mp hb
    dsimp only at he
    omega
  · obtain ⟨k, -, rfl⟩ := List.mem_map.mp hb
    dsimp only at he
    omega

theorem toIndex_of_lt {size : ℕ} (h : size < 2 ^ 31) : toIndex size = some size := by
  rw [toIndex, toInt32_of_lt h, if_pos (Int.natCast_nonneg size), Int.toNat_natCast]

/-- The size of an array fits if it is small, or if it is cut into blocks. -/
def Fits (bigarrayBound : ℕ) (nthreadReduction : ℤ) (total : ℕ) : Prop :=
  total < 2 ^ 31 ∨ bigarrayBound ≤ total ∧ 1 < nthreadReduction

theorem part_size_lt {bigarrayBound : ℕ} {nthreadReduction : ℤ} {total : ℕ}
    (hfits : Fits bigarrayBound nthreadReduction total) {b : ℕ × ℕ}
    (hb : b ∈ parts bigarrayBound nthreadReduction total) : b.2 < 2 ^ 31 := by
  unfold parts at hb
  dsimp only at hb
  split_ifs at hb with hsmall
  · obtain rfl := List.mem_singleton.mp hb
    rcases hfits with hfits | hfits
    · exact hfits
    · omega
  · obtain ⟨k, -, rfl⟩ := List.mem_map.mp hb
    have hstep : min bigarrayBound (4 <<< 10) ≤ 4096 := Nat.min_le_right ..
    rw [Nat.add_mul, Nat.one_mul]
    omega

/-- Where nothing goes wrong the parts keep their sizes. -/
theorem blocks_eq {bigarrayBound : ℕ} (hbound : 0 < bigarrayBound) {nthreadReduction : ℤ}
    {total : ℕ} (hfits : Fits bigarrayBound nthreadReduction total) :
    blocks bigarrayBound nthreadReduction total =
      some (parts bigarrayBound nthreadReduction total) := by
  have hstep : ¬ min bigarrayBound (4 <<< 10) = 0 := by
    have : 0 < min bigarrayBound (4 <<< 10) := by
      rw [Nat.lt_min]
      exact ⟨hbound, by decide⟩
    omega
  have hsizes : ∀ b ∈ parts bigarrayBound nthreadReduction total,
      (toIndex b.2).map (b.1, ·) = some (id b) := fun b hb => by
    rw [toIndex_of_lt (part_size_lt hfits hb)]
    rfl
  rw [blocks, if_neg hstep, OptionTable.mapM_eq_some_map hsizes, List.map_id]

end Blocks

section Runs

variable [AddCommMonoid R]

theorem addRest_run (e : ℕ) (is : List ℕ) (x : R) (mem : Element → R) :
    (addRest e is x).run mem =
      Function.update mem (0, e) (mem (0, e) + (x + (is.map fun i => mem (i, e)).sum)) := by
  induction is generalizing x with
  | nil =>
    rw [List.map_nil, List.sum_nil, add_zero]
    rfl
  | cons i is ih =>
    rw [addRest, Program.run_read, ih, List.map_cons, List.sum_cons, add_assoc]

theorem addGroup_run (e : ℕ) (is : List ℕ) (mem : Element → R) :
    (addGroup e is).run mem =
      Function.update mem (0, e) (mem (0, e) + (is.map fun i => mem (i, e)).sum) := by
  cases is with
  | nil =>
    rw [List.map_nil, List.sum_nil, add_zero, Function.update_eq_self]
    rfl
  | cons i is => rw [addGroup, Program.run_read, addRest_run, List.map_cons, List.sum_cons]

theorem runAll_addGroup {es : List ℕ} (hes : es.Nodup) (is : List ℕ) (mem : Element → R) :
    Program.runAll (es.map fun e => addGroup e is) mem = fun l =>
      if l.1 = 0 ∧ l.2 ∈ es then mem l + (is.map fun i => mem (i, l.2)).sum else mem l := by
  induction es generalizing mem with
  | nil =>
    funext l
    simp
  | cons e es ih =>
    rw [List.nodup_cons] at hes
    rw [List.map_cons, Program.runAll_cons, ih hes.2, addGroup_run]
    funext l
    obtain ⟨i, e'⟩ := l
    dsimp only
    by_cases heq : e' = e
    · subst heq
      by_cases hi : i = 0
      · subst hi
        simp [hes.1]
      · simp [hi]
    · have hother : ∀ i, Function.update mem (0, e) (mem (0, e) +
          (is.map fun i => mem (i, e)).sum) (i, e') = mem (i, e') := fun i =>
        Function.update_of_ne (by simp [heq]) _ _
      simp only [hother, List.mem_cons, heq, false_or]

/-- The arrays of all groups are added to the first one. -/
theorem runAll_groups {gs : List (List ℕ)} (hgs : ∀ is ∈ gs, 0 ∉ is) {es : List ℕ}
    (hes : es.Nodup) (mem : Element → R) :
    Program.runAll (gs.map fun is => Program.forEach (fun e => addGroup e is) es) mem = fun l =>
      if l.1 = 0 ∧ l.2 ∈ es then mem l + (gs.flatten.map fun i => mem (i, l.2)).sum else mem l := by
  induction gs generalizing mem with
  | nil =>
    funext l
    simp
  | cons is gs ih =>
    have hgs' : ∀ is ∈ gs, 0 ∉ is := fun is his => hgs is (List.mem_cons_of_mem _ his)
    rw [List.map_cons, Program.runAll_cons, ih hgs', Program.run_forEach, runAll_addGroup hes]
    funext l
    obtain ⟨i, e⟩ := l
    dsimp only
    by_cases hl : i = 0 ∧ e ∈ es
    · have hkeep : gs.flatten.map (fun i => if i = 0 ∧ e ∈ es then
          mem (i, e) + (is.map fun i => mem (i, e)).sum else mem (i, e)) =
          gs.flatten.map fun i => mem (i, e) := by
        refine List.map_congr_left fun i hi => if_neg fun h => ?_
        obtain ⟨is, his, hmem⟩ := List.mem_flatten.mp hi
        exact hgs' is his (h.1 ▸ hmem)
      rw [if_pos hl, if_pos hl, if_pos hl, hkeep, List.flatten_cons, List.map_append,
        List.sum_append, add_assoc]
    · rw [if_neg hl, if_neg hl, if_neg hl]

theorem reduceSumCPU_run {n : ℕ} (hn : 0 < n) (b : ℕ × ℕ) (mem : Element → R) {e : ℕ}
    (he : InBlock b e) :
    (reduceSumCPU n b.1 b.2).run mem (0, e) = ((List.range n).map fun i => mem (i, e)).sum := by
  have hgs : ∀ is ∈ groups n 1, 0 ∉ is := fun is his hzero => by
    have hmem := List.mem_flatten.mpr ⟨is, his, hzero⟩
    rw [groups_flatten, List.mem_range'_1] at hmem
    omega
  rw [reduceSumCPU, Program.run_forEach, runAll_groups hgs List.nodup_range', groups_flatten]
  dsimp only
  obtain ⟨k, rfl⟩ : ∃ k, n = k + 1 := ⟨n - 1, by omega⟩
  rw [if_pos ⟨rfl, List.mem_range'_1.mpr he⟩, List.range_eq_range', List.range'_succ,
    List.map_cons, List.sum_cons, Nat.add_sub_cancel]

end Runs

section Parallel

/-- What the iteration over a block reads and writes. -/
def uses (b : ℕ × ℕ) : Set Element := { l | InBlock b l.2 }

def writes (b : ℕ × ℕ) : Set Element := { l | l.1 = 0 ∧ InBlock b l.2 }

theorem addRest_within [Add R] {b : ℕ × ℕ} {e : ℕ} (he : InBlock b e) (is : List ℕ) (x : R) :
    (addRest e is x).Within (uses b) (writes b) := by
  induction is generalizing x with
  | nil => exact ⟨he, fun _ => ⟨⟨rfl, he⟩, trivial⟩⟩
  | cons i is ih => exact ⟨he, fun y => ih (x + y)⟩

theorem reduceSumCPU_within [Add R] (n : ℕ) (b : ℕ × ℕ) :
    (reduceSumCPU (R := R) n b.1 b.2).Within (uses b) (writes b) := by
  refine Program.Within.forEach fun is _ => Program.Within.forEach fun e he => ?_
  have he : InBlock b e := List.mem_range'_1.mp he
  cases is with
  | nil => trivial
  | cons i is => exact ⟨he, fun x => addRest_within he is x⟩

/-- There is no division by zero, every run of the iterations ends, and then the first array has
the sum of all arrays, and the other arrays are as before. -/
theorem reduceSumCPUImpl_sum [AddCommMonoid R] (n : ℕ) (hn : 0 < n) (bigarrayBound : ℕ)
    (hbound : 0 < bigarrayBound) (nthreadReduction : ℤ) (total : ℕ)
    (hfits : Fits bigarrayBound nthreadReduction total) (mem : Element → R) :
    ∃ its, reduceSumCPUImpl n bigarrayBound nthreadReduction total = some its ∧
      (¬ ∃ run : ℕ → _ × (Element → R), run 0 = (its.get, mem) ∧
        ∀ k, ParallelStep (run k) (run (k + 1))) ∧
      ∀ k p, Steps ParallelStep k (its.get, mem) p → (∀ p', ¬ ParallelStep p p') →
        (∀ e < total, p.2 (0, e) = ((List.range n).map fun i => mem (i, e)).sum) ∧
        ∀ i e, i ≠ 0 ∨ total ≤ e → p.2 (i, e) = mem (i, e) := by
  set bs := parts bigarrayBound nthreadReduction total with hbs
  refine ⟨bs.map fun b => reduceSumCPU n b.1 b.2, ?_, fun ⟨run, _, hrun⟩ => ?_, ?_⟩
  · rw [reduceSumCPUImpl, blocks_eq hbound hfits, Option.map_some]
  · exact (wellFounded_iff_isEmpty_descending_chain.mp parallelStep_wellFounded).false ⟨run, hrun⟩
  rintro k ⟨rest, mem'⟩ h hstuck
  have hlen : (bs.map fun b => reduceSumCPU (R := R) n b.1 b.2).length = bs.length :=
    List.length_map _
  set its := bs.map fun b => reduceSumCPU (R := R) n b.1 b.2 with hits
  let block : Fin its.length → ℕ × ℕ := fun j => bs.get (j.cast hlen)
  have hget : ∀ j, its.get j = reduceSumCPU n (block j).1 (block j).2 := fun j => by
    simp [hits, block]
  have hwithin : ∀ j, (its.get j).Within (uses (block j)) (writes (block j)) := fun j => by
    rw [hget]
    exact reduceSumCPU_within n (block j)
  have hsub : ∀ j, writes (block j) ⊆ uses (block j) := fun j l hl => hl.2
  have hdisjoint : ∀ j j', j ≠ j' → ∀ l ∈ writes (block j), l ∉ uses (block j') := by
    intro j j' hne l hl hl'
    have hpairwise := List.pairwise_iff_getElem.mp
      (parts_pairwise bigarrayBound nthreadReduction total)
    rcases Nat.lt_or_gt_of_ne (Fin.val_ne_of_ne hne) with hlt | hgt
    · exact hpairwise j j' (hlen ▸ j.2) (hlen ▸ j'.2) hlt l.2 hl.2 hl'
    · exact hpairwise j' j (hlen ▸ j'.2) (hlen ▸ j.2) hgt l.2 hl' hl.2
  have hnodup : (List.finRange its.length).Nodup := List.nodup_finRange _
  refine ⟨fun e he => ?_, fun i e hie => ?_⟩
  · obtain ⟨b, hb, hin⟩ := exists_part hbound nthreadReduction he
    obtain ⟨j, hj, rfl⟩ := List.mem_iff_getElem.mp hb
    have hrun := parallel_eq_run hwithin hsub hdisjoint hnodup List.mem_finRange h
      (done_of_stuck hstuck) (i := ⟨j, hlen.symm ▸ hj⟩) (l := (0, e)) hin
    rw [hget] at hrun
    exact hrun.trans (reduceSumCPU_run hn _ mem hin)
  · have hkeep := parallel_eq hwithin hsub hdisjoint hnodup List.mem_finRange h
      (done_of_stuck hstuck)
    refine (congrFun hkeep _).trans (Program.runAll_eq (fun q hq m => ?_) mem)
    obtain ⟨j, -, rfl⟩ := List.mem_map.mp hq
    refine (hwithin j).run_eq (fun hw => ?_) m
    have hlt := part_le (List.get_mem bs _) hw.2
    rcases hie with hi | he
    · exact hi hw.1
    · exact absurd hlt (not_lt.mpr he)

/-- Three arrays in three blocks. -/
theorem reduceSumCPUImpl_sum_three :
    ∃ its : List (SumProgram ℤ), reduceSumCPUImpl 3 2 4 5 = some its ∧ its.length = 3 ∧
      ∃ k p, Steps ParallelStep k (its.get, fun l => (l.1 + l.2 : ℤ)) p ∧
        (∀ p', ¬ ParallelStep p p') ∧
        (∀ e < 5, p.2 (0, e) = ((List.range 3).map fun i => (i + e : ℤ)).sum) ∧
        ∀ i e, i ≠ 0 ∨ 5 ≤ e → p.2 (i, e) = (i + e : ℤ) := by
  obtain ⟨its, hits, -, hsum⟩ := reduceSumCPUImpl_sum 3 (by decide) 2 (by decide) 4 5
    (.inl (by decide)) (fun l => (l.1 + l.2 : ℤ))
  have hlen : (reduceSumCPUImpl (R := ℤ) 3 2 4 5).map List.length = some 3 := by decide
  rw [hits] at hlen
  obtain ⟨k, p, h, hstuck⟩ := exists_stuck (its.get, fun l => (l.1 + l.2 : ℤ))
  exact ⟨its, hits, Option.some.inj hlen, k, p, h, hstuck, hsum k p h hstuck⟩

end Parallel

end DenseSum
end NetStorm

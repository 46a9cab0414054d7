import NetStorm.RowSparseSum
import NetStorm.Library.Serialization

/-!
# The parallel sum of row-sparse arrays on the CPU

`ElementwiseSumRsp` sums row-sparse arrays with several threads. Each thread has a block of the
output rows. For every input it looks for the first row of its block by binary search, and then
walks through both index arrays at the same time. The threads access the buffers of the output
without any order between them, and take whole rows of any number of dimensions. The output is the
sum, and so what `ReduceSumCPUExSerial` computes where that is the sum. For no arrays at all the
output stays as it was.
-/
namespace NetStorm
namespace RowSparseSum
variable {m : ℕ} {R : Type}

/-- `ParallelSortHelper`. The two halves are sorted by two threads. -/
def parallelSortHelper (grainsize : ℕ) (hgrain : 2 ≤ grainsize) (l : List ℤ) : List ℤ :=
  if l.length < grainsize then l.mergeSort (· ≤ ·)
  else
    List.merge (parallelSortHelper grainsize hgrain (l.take (l.length / 2)))
      (parallelSortHelper grainsize hgrain (l.drop (l.length / 2))) (· ≤ ·)
termination_by l.length
decreasing_by
  · rw [List.length_take]
    omega
  · rw [List.length_drop]
    omega

def parallelSort (l : List ℤ) (numThreads : ℕ) : List ℤ :=
  parallelSortHelper (max (l.length / numThreads + 5) (1024 * 16)) (by omega) l

/-- `GetUniqueRspRowIdx`. -/
def getUniqueRspRowIdx (nds : List (RowSparse m R)) (nthreads : ℕ) : List ℤ :=
  unique (parallelSort (nds.flatMap fun nd => gathered (some nd)) nthreads)

/-- An element of the buffers of the output: an index, or an element of a row. -/
inductive OutLoc (m : ℕ)
  | index (i : ℕ)
  | value (i : ℕ) (j : Fin m)
  deriving DecidableEq

/-- The output row that an element belongs to. -/
def OutLoc.row : OutLoc m → ℕ
  | index i => i
  | value i _ => i

abbrev OutType (R : Type) : OutLoc m → Type
  | .index _ => ℤ
  | .value _ _ => R

abbrev OutBuffers (m : ℕ) (R : Type) := (l : OutLoc m) → OutType R l

abbrev OutProgram (m : ℕ) (R : Type) := Program (OutLoc m) (OutType R) Unit

/-- `std::lower_bound`. -/
def lowerBound (l : List ℤ) (x : ℤ) : ℕ := l.findIdx fun z => ¬ z < x

section Threads
variable [Add R]

/-- The innermost loop, over the elements of a row. -/
def addRow (irow : ℕ) (row : Fin m → R) : OutProgram m R :=
  .forEach (fun j => .read (.value irow j) fun x => .write (.value irow j) (x + row j) (.pure ()))
    (List.finRange m)

/-- The walk through the output rows of a block and the rows of an input. Each list is what the
position in it has ahead. -/
def mergeRows : List ℕ → List (ℤ × (Fin m → R)) → OutProgram m R
  | irow :: irows, (k, row) :: ahead =>
    .read (.index irow) fun x =>
      if x = k then (addRow irow row).bind fun _ => mergeRows irows ahead
      else if x < k then mergeRows irows ((k, row) :: ahead)
      else mergeRows (irow :: irows) ahead
  | _, _ => .pure ()
termination_by irows ahead => irows.length + ahead.length

/-- What a thread does with an input. -/
def addBlock (start stop : ℕ) (nd : RowSparse m R) : OutProgram m R :=
  if storageInitialized (some nd) then
    .read (.index start) fun first =>
      match nd.indices[lowerBound nd.indices first]? with
      | none => .pure ()
      | some k =>
        .read (.index (stop - 1)) fun last =>
          if last < k then .pure ()
          else mergeRows (List.range' start (stop - start))
            ((nd.indices.zip nd.values).drop (lowerBound nd.indices first))
  else .pure ()

/-- The length of the block of a thread. -/
def rowBlockLen (nnr numThreads : ℕ) : ℕ := (nnr + numThreads - 1) / numThreads

/-- `ElementwiseSumRspImpl` on thread `t`. -/
def elementwiseSumRspImpl (nds : List (RowSparse m R)) (uniqRowIdx : List ℤ) (numThreads : ℕ)
    (t : ℕ) : OutProgram m R :=
  let nnr := uniqRowIdx.length
  let start := t * rowBlockLen nnr numThreads
  if start < nnr then
    let stop := min (start + rowBlockLen nnr numThreads) nnr
    (Program.forEach (fun i => .write (.index i) (uniqRowIdx.getD i 0) (.pure ()))
      (List.range' start (stop - start))).bind fun _ =>
        .forEach (addBlock start stop) nds
  else .pure ()

/-- The output after `CheckAndAlloc`, with its values set to zero. -/
def zeroed [Zero R] (out : OutBuffers m R) : OutBuffers m R
  | .index i => out (.index i)
  | .value _ _ => 0

/-- The row-sparse array in the buffers. -/
def output (nnr : ℕ) (mem : OutBuffers m R) : RowSparse m R where
  indices := (List.range nnr).map fun i => mem (.index i)
  values := (List.range nnr).map fun i j => mem (.value i j)
  consistent := by simp

/-- The start of `ElementwiseSumRsp` with `numThreads` threads, for what the buffers of the output
hold. There is an early return for no arrays. -/
def elementwiseSumRsp [Zero R] (nds : List (RowSparse m R)) (numThreads : ℕ)
    (out : OutBuffers m R) : (Fin numThreads → OutProgram m R) × OutBuffers m R :=
  if nds.isEmpty then (fun _ => .pure (), out)
  else (fun t => elementwiseSumRspImpl nds (getUniqueRspRowIdx nds numThreads) numThreads t,
    zeroed out)

end Threads

section Sorting

theorem parallelSortHelper_perm (grainsize : ℕ) (hgrain : 2 ≤ grainsize) (l : List ℤ) :
    (parallelSortHelper grainsize hgrain l).Perm l := by
  induction l using parallelSortHelper.induct grainsize hgrain with
  | case1 l h =>
    rw [parallelSortHelper, if_pos h]
    exact List.mergeSort_perm _ _
  | case2 l h ih₁ ih₂ =>
    rw [parallelSortHelper, if_neg h]
    refine (List.merge_perm_append _).trans ?_
    simpa using ih₁.append ih₂

theorem parallelSortHelper_pairwise (grainsize : ℕ) (hgrain : 2 ≤ grainsize) (l : List ℤ) :
    (parallelSortHelper grainsize hgrain l).Pairwise (· ≤ ·) := by
  induction l using parallelSortHelper.induct grainsize hgrain with
  | case1 l h =>
    rw [parallelSortHelper, if_pos h]
    exact pairwise_sorted l
  | case2 l h ih₁ ih₂ =>
    rw [parallelSortHelper, if_neg h]
    have htrans : ∀ a b c : ℤ, decide (a ≤ b) → decide (b ≤ c) → decide (a ≤ c) := fun a b c => by
      simpa using le_trans
    have htotal : ∀ a b : ℤ, decide (a ≤ b) || decide (b ≤ a) := fun a b => by
      simpa using le_total a b
    have hmerge := List.pairwise_merge htrans htotal _ _
      (ih₁.imp fun h => by simpa using h) (ih₂.imp fun h => by simpa using h)
    exact hmerge.imp fun h => by simpa using h

/-- Sorting by several threads is sorting. -/
theorem parallelSort_eq (l : List ℤ) (numThreads : ℕ) :
    parallelSort l numThreads = l.mergeSort (· ≤ ·) :=
  ((parallelSortHelper_perm _ _ l).trans (List.mergeSort_perm l _).symm).eq_of_pairwise
    (fun _ _ _ _ => le_antisymm) (parallelSortHelper_pairwise _ _ l) (pairwise_sorted l)

end Sorting

section Blocks
variable [Add R]

/-- The elements of the output rows of a block. -/
def block (start stop : ℕ) : Set (OutLoc m) := { l | start ≤ l.row ∧ l.row < stop }

theorem addRow_within {start stop irow : ℕ} (hstart : start ≤ irow) (hstop : irow < stop)
    (row : Fin m → R) : (addRow irow row).Within (block start stop) (block start stop) :=
  Program.Within.forEach fun _ _ => ⟨⟨hstart, hstop⟩, fun _ => ⟨⟨hstart, hstop⟩, trivial⟩⟩

theorem mergeRows_within {start stop : ℕ} {irows : List ℕ}
    (hirows : ∀ i ∈ irows, start ≤ i ∧ i < stop) (ahead : List (ℤ × (Fin m → R))) :
    (mergeRows irows ahead).Within (block start stop) (block start stop) := by
  induction irows, ahead using mergeRows.induct with
  | case1 irow irows k row ahead ih₁ ih₂ ih₃ =>
    have hirow := hirows irow List.mem_cons_self
    have htail : ∀ i ∈ irows, start ≤ i ∧ i < stop := fun i hi =>
      hirows i (List.mem_cons_of_mem _ hi)
    rw [mergeRows]
    refine ⟨hirow, fun x => ?_⟩
    dsimp only
    split_ifs with heq hlt
    · exact (addRow_within hirow.1 hirow.2 row).bind fun _ => ih₁ htail
    · exact ih₂ htail
    · exact ih₃ hirows
  | case2 irows ahead h =>
    rw [mergeRows]
    · trivial
    · exact h

theorem addBlock_within {start stop : ℕ} (h : start < stop) (nd : RowSparse m R) :
    (addBlock start stop nd).Within (block start stop) (block start stop) := by
  unfold addBlock
  split_ifs
  · refine ⟨⟨le_rfl, h⟩, fun first => ?_⟩
    dsimp only
    cases nd.indices[lowerBound nd.indices first]? with
    | none => trivial
    | some k =>
      refine ⟨⟨by simp only [OutLoc.row]; omega, by simp only [OutLoc.row]; omega⟩, fun last => ?_⟩
      dsimp only
      split_ifs
      · trivial
      · refine mergeRows_within (fun i hi => ?_) _
        rw [List.mem_range'_1] at hi
        omega
  · trivial

/-- The output rows of thread `t`. -/
def ownRows (nnr numThreads t : ℕ) : Set (OutLoc m) :=
  { l | l.row < nnr ∧ l.row / rowBlockLen nnr numThreads = t }

theorem ownRows_disjoint {nnr numThreads t t' : ℕ} (h : t ≠ t') (l : OutLoc m)
    (hl : l ∈ ownRows nnr numThreads t) : l ∉ ownRows nnr numThreads t' :=
  fun hl' => h (hl.2.symm.trans hl'.2)

theorem block_subset (nnr numThreads t : ℕ) :
    (block (t * rowBlockLen nnr numThreads)
        (min (t * rowBlockLen nnr numThreads + rowBlockLen nnr numThreads) nnr) :
      Set (OutLoc m)) ⊆ ownRows nnr numThreads t := by
  rintro l ⟨hstart, hstop⟩
  refine ⟨by omega, Nat.div_eq_of_lt_le hstart ?_⟩
  rw [Nat.succ_mul]
  omega

theorem rowBlockLen_pos {nnr numThreads : ℕ} (hnnr : 0 < nnr) (hthreads : 0 < numThreads) :
    0 < rowBlockLen nnr numThreads :=
  Nat.div_pos (by omega) hthreads

theorem elementwiseSumRspImpl_within (nds : List (RowSparse m R)) (uniqRowIdx : List ℤ)
    {numThreads : ℕ} (hthreads : 0 < numThreads) (t : ℕ) :
    (elementwiseSumRspImpl nds uniqRowIdx numThreads t).Within
      (ownRows uniqRowIdx.length numThreads t) (ownRows uniqRowIdx.length numThreads t) := by
  unfold elementwiseSumRspImpl
  dsimp only
  split_ifs with hlt
  · refine Program.Within.mono ?_ (block_subset _ _ t) (block_subset _ _ t)
    have hpos := rowBlockLen_pos (Nat.zero_lt_of_lt hlt) hthreads
    set len := rowBlockLen uniqRowIdx.length numThreads
    have hne : t * len < min (t * len + len) uniqRowIdx.length := by omega
    refine (Program.Within.forEach fun i hi => ?_).bind fun _ =>
      Program.Within.forEach fun nd _ => addBlock_within hne nd
    rw [List.mem_range'_1] at hi
    exact ⟨⟨by simp only [OutLoc.row]; omega, by simp only [OutLoc.row]; omega⟩, trivial⟩
  · trivial

end Blocks

section Lookups

theorem lookup_cons_of_ne {k x : ℤ} (h : x ≠ k) (row : Fin m → R)
    (ahead : List (ℤ × (Fin m → R))) : ((k, row) :: ahead).lookup x = ahead.lookup x := by
  rw [List.lookup_cons, beq_eq_false_iff_ne.mpr h]

theorem lookup_of_lt {ahead : List (ℤ × (Fin m → R))} {x : ℤ} (h : ∀ p ∈ ahead, x < p.1) :
    ahead.lookup x = none :=
  List.lookup_eq_none_iff.mpr fun p hp => bne_iff_ne.mpr (h p hp).ne

/-- The search for the first row skips no row of the block. -/
theorem lookup_drop_lowerBound {nd : RowSparse m R} {first x : ℤ} (hx : first ≤ x) :
    ((nd.indices.zip nd.values).drop (lowerBound nd.indices first)).lookup x =
      stored (some nd) x := by
  set p := lowerBound nd.indices first with hp
  have hskipped : ((nd.indices.zip nd.values).take p).lookup x = none := by
    refine List.lookup_eq_none_iff.mpr fun q hq => bne_iff_ne.mpr ?_
    obtain ⟨n, hn, rfl⟩ := List.mem_iff_getElem.mp hq
    rw [List.length_take] at hn
    have hlt := List.not_of_lt_findIdx (show n < nd.indices.findIdx fun z => ¬ z < first by
      exact lt_of_lt_of_le hn (min_le_left _ _))
    have hlen : n < nd.indices.length :=
      (lt_of_lt_of_le hn (min_le_right _ _)).trans_le
        (by rw [List.length_zip]; exact min_le_left _ _)
    have hbelow : nd.indices[n] < first := by simpa using hlt
    simp only [List.getElem_take, List.getElem_zip]
    exact (hbelow.trans_le hx).ne'
  rw [stored, Option.elim_some]
  conv_rhs => rw [← List.take_append_drop p (nd.indices.zip nd.values), List.lookup_append,
    hskipped, Option.none_or]

/-- The rows from a position on have at least its index. -/
theorem le_of_mem_drop {nd : RowSparse m R} (hnd : nd.indices.Pairwise (· < ·)) {n : ℕ} {k : ℤ}
    (hk : nd.indices[n]? = some k) {p : ℤ × (Fin m → R)}
    (hp : p ∈ (nd.indices.zip nd.values).drop n) : k ≤ p.1 := by
  obtain ⟨hn, rfl⟩ := List.getElem?_eq_some_iff.mp hk
  obtain ⟨q, hq, rfl⟩ := List.mem_iff_getElem.mp hp
  simp only [List.getElem_drop, List.getElem_zip]
  rcases Nat.eq_zero_or_pos q with rfl | hpos
  · exact le_rfl
  · exact (List.pairwise_iff_getElem.mp hnd _ _ _ _ (by omega)).le

end Lookups

section Runs
variable [AddCommMonoid R]

theorem runAll_addRow {js : List (Fin m)} (hjs : js.Nodup) (irow : ℕ) (row : Fin m → R)
    (mem : OutBuffers m R) :
    Program.runAll (js.map fun j => Program.read (.value irow j) fun x =>
        .write (.value irow j) (x + row j) (.pure ())) mem =
      fun l => match l with
        | .index i => mem (.index i)
        | .value i j => mem (.value i j) + if i = irow ∧ j ∈ js then row j else 0 := by
  induction js generalizing mem with
  | nil =>
    funext l
    cases l <;> simp
  | cons j' js ih =>
    rw [List.nodup_cons] at hjs
    have hcell : (Program.read (R := Unit) (OutLoc.value irow j') fun x =>
        .write (.value irow j') (x + row j') (.pure ())).run mem =
          Function.update mem (.value irow j') (mem (.value irow j') + row j') := rfl
    rw [List.map_cons, Program.runAll_cons, ih hjs.2, hcell]
    funext l
    cases l with
    | index i => exact Function.update_of_ne (by simp) _ _
    | value i j =>
      dsimp only
      by_cases hij : i = irow ∧ j = j'
      · obtain ⟨rfl, rfl⟩ := hij
        simp [hjs.1]
      · rw [Function.update_of_ne (by simpa using hij)]
        congr 1
        simp only [List.mem_cons]
        split_ifs <;> tauto

theorem addRow_run (irow : ℕ) (row : Fin m → R) (mem : OutBuffers m R) :
    (addRow irow row).run mem = fun l => match l with
      | .index i => mem (.index i)
      | .value i j => mem (.value i j) + if i = irow then row j else 0 := by
  rw [addRow, Program.run_forEach, runAll_addRow (List.nodup_finRange m)]
  simp

/-- The rows ahead in an input are added to the output rows with their indices. -/
theorem mergeRows_run {irows : List ℕ} {ahead : List (ℤ × (Fin m → R))} {mem : OutBuffers m R}
    (hirows : irows.Pairwise fun i i' => mem (.index i) < mem (.index i'))
    (hahead : ahead.Pairwise fun a b => a.1 < b.1) :
    (mergeRows irows ahead).run mem = fun l => match l with
      | .index i => mem (.index i)
      | .value i j => mem (.value i j) +
          if i ∈ irows then (ahead.lookup (mem (.index i))).getD 0 j else 0 := by
  induction irows, ahead using mergeRows.induct generalizing mem with
  | case1 irow irows k row ahead ih₁ ih₂ ih₃ =>
    have hlater : ∀ i ∈ irows, mem (.index irow) < mem (.index i) := fun i hi =>
      List.rel_of_pairwise_cons hirows hi
    have hbehind : ∀ p ∈ ahead, k < p.1 := fun p hp => List.rel_of_pairwise_cons hahead hp
    rw [mergeRows, Program.run_read]
    split_ifs with heq hlt
    · rw [Program.run_bind, addRow_run, ih₁ (by simpa using hirows.of_cons) hahead.of_cons]
      funext l
      cases l with
      | index i => rfl
      | value i j =>
        dsimp only
        rw [add_assoc]
        congr 1
        by_cases hi : i = irow
        · subst hi
          have hnot : i ∉ irows := fun hmem => lt_irrefl _ (hlater i hmem)
          have hsome : ((k, row) :: ahead).lookup (mem (.index i)) = some row := by
            rw [heq, List.lookup_cons_self]
          rw [if_pos rfl, if_neg hnot, if_pos List.mem_cons_self, hsome, add_zero]
          rfl
        · rw [if_neg hi, zero_add]
          simp only [List.mem_cons, hi, false_or]
          split_ifs with hmem
          · rw [lookup_cons_of_ne (heq ▸ (hlater i hmem).ne')]
          · rfl
    · -- no row ahead has the index of this output row
      rw [ih₂ hirows.of_cons hahead]
      funext l
      cases l with
      | index i => rfl
      | value i j =>
        dsimp only
        congr 1
        by_cases hi : i = irow
        · subst hi
          have hnot : i ∉ irows := fun hmem => lt_irrefl _ (hlater i hmem)
          have hnone : ((k, row) :: ahead).lookup (mem (.index i)) = none :=
            lookup_of_lt (List.forall_mem_cons.mpr ⟨hlt, fun p hp => hlt.trans (hbehind p hp)⟩)
          rw [if_neg hnot, if_pos List.mem_cons_self, hnone]
          rfl
        · simp only [List.mem_cons, hi, false_or]
    · -- no output row has the index of this row
      rw [ih₃ hirows hahead.of_cons]
      have hgt : k < mem (.index irow) := lt_of_le_of_ne (not_lt.mp hlt) (Ne.symm heq)
      funext l
      cases l with
      | index i => rfl
      | value i j =>
        dsimp only
        congr 1
        split_ifs with hmem
        · have hne : mem (.index i) ≠ k := by
            rcases List.mem_cons.mp hmem with rfl | hmem
            · exact hgt.ne'
            · exact (hgt.trans (hlater i hmem)).ne'
          rw [lookup_cons_of_ne hne]
        · rfl
  | case2 irows ahead h =>
    rw [mergeRows]
    · funext l
      cases l with
      | index i => rfl
      | value i j =>
        match irows, ahead, h with
        | [], _, _ => simp [Program.run, Program.exec]
        | _ :: _, [], _ => simp [Program.run, Program.exec]
        | irow :: irows, (k, row) :: ahead, h => exact (h irow irows k row ahead rfl rfl).elim
    · exact h

/-- The indices of the output rows of a block increase. -/
def Increasing (start stop : ℕ) (mem : OutBuffers m R) : Prop :=
  ∀ i i', start ≤ i → i < i' → i' < stop → mem (.index i) < mem (.index i')

omit [AddCommMonoid R] in
theorem Increasing.le {start stop : ℕ} {mem : OutBuffers m R} (h : Increasing start stop mem)
    {i i' : ℕ} (hi : start ≤ i) (hle : i ≤ i') (hi' : i' < stop) :
    mem (.index i) ≤ mem (.index i') := by
  rcases hle.eq_or_lt with rfl | hlt
  · exact le_rfl
  · exact (h i i' hi hlt hi').le

/-- An input adds its rows to the output rows of the block. -/
theorem addBlock_run {nd : RowSparse m R} (hnd : nd.indices.Pairwise (· < ·)) {start stop : ℕ}
    {mem : OutBuffers m R} (hmem : Increasing start stop mem) :
    (addBlock start stop nd).run mem = fun l => match l with
      | .index i => mem (.index i)
      | .value i j => mem (.value i j) + if start ≤ i ∧ i < stop then
          (stored (some nd) (mem (.index i))).getD 0 j else 0 := by
  have hzip : (nd.indices.zip nd.values).Pairwise fun a b => a.1 < b.1 := by
    rw [← List.pairwise_map (f := Prod.fst) (R := (· < ·)), List.map_fst_zip nd.consistent.ge]
    exact hnd
  -- nothing is added when no row of the input is stored for a row of the block
  have hskip : (∀ i, start ≤ i → i < stop → stored (some nd) (mem (.index i)) = none) →
      mem = fun l => match l with
        | .index i => mem (.index i)
        | .value i j => mem (.value i j) + if start ≤ i ∧ i < stop then
            (stored (some nd) (mem (.index i))).getD 0 j else 0 := fun hnone => by
    funext l
    cases l with
    | index i => rfl
    | value i j =>
      dsimp only
      split_ifs with hi
      · rw [hnone i hi.1 hi.2]
        exact (add_zero _).symm
      · exact (add_zero _).symm
  unfold addBlock
  split_ifs with hinit
  · rw [Program.run_read]
    set first := mem (.index start) with hfirst
    have hlookup : ∀ i, start ≤ i → i < stop →
        ((nd.indices.zip nd.values).drop (lowerBound nd.indices first)).lookup (mem (.index i)) =
          stored (some nd) (mem (.index i)) := fun i hi hi' =>
      lookup_drop_lowerBound (hmem.le le_rfl hi hi')
    cases hk : nd.indices[lowerBound nd.indices first]? with
    | none =>
      refine hskip fun i hi hi' => ?_
      rw [← hlookup i hi hi', List.drop_eq_nil_of_le]
      · rfl
      · rw [List.length_zip]
        exact (min_le_left _ _).trans (List.getElem?_eq_none_iff.mp hk)
    | some k =>
      rw [Program.run_read]
      split_ifs with hlast
      · refine hskip fun i hi hi' => ?_
        rw [← hlookup i hi hi']
        have hle : mem (.index i) ≤ mem (.index (stop - 1)) := hmem.le hi (by omega) (by omega)
        exact lookup_of_lt fun p hp => (hle.trans_lt hlast).trans_le (le_of_mem_drop hnd hk hp)
      · have hrows : ∀ i, i ∈ List.range' start (stop - start) ↔ start ≤ i ∧ i < stop := fun i => by
          rw [List.mem_range'_1]
          omega
        rw [mergeRows_run]
        · funext l
          cases l with
          | index i => rfl
          | value i j =>
            dsimp only
            rw [if_congr (hrows i) rfl rfl]
            congr 1
            split_ifs with hi
            · rw [hlookup i hi.1 hi.2]
            · rfl
        · exact List.Pairwise.imp_of_mem
            (fun ha hb hlt => hmem _ _ ((hrows _).mp ha).1 hlt ((hrows _).mp hb).2)
            List.pairwise_lt_range'
        · exact hzip.sublist (List.drop_sublist _ _)
  · refine hskip fun i _ _ => ?_
    rw [storageInitialized_iff, not_not] at hinit
    simp [stored, hinit]

theorem runAll_addBlock {nds : List (RowSparse m R)}
    (hnds : ∀ nd ∈ nds, nd.indices.Pairwise (· < ·)) {start stop : ℕ} {mem : OutBuffers m R}
    (hmem : Increasing start stop mem) :
    Program.runAll (nds.map (addBlock start stop)) mem = fun l => match l with
      | .index i => mem (.index i)
      | .value i j => mem (.value i j) + if start ≤ i ∧ i < stop then
          (nds.map fun nd => (stored (some nd) (mem (.index i))).getD 0 j).sum else 0 := by
  induction nds generalizing mem with
  | nil =>
    funext l
    cases l <;> simp
  | cons nd nds ih =>
    have hrun := addBlock_run (hnds nd List.mem_cons_self) hmem
    have hmem' : Increasing start stop ((addBlock start stop nd).run mem) := by
      rw [hrun]
      exact hmem
    rw [List.map_cons, Program.runAll_cons,
      ih (fun nd' hnd' => hnds nd' (List.mem_cons_of_mem _ hnd')) hmem', hrun]
    funext l
    cases l with
    | index i => rfl
    | value i j =>
      dsimp only
      rw [add_assoc]
      split_ifs
      · rw [List.map_cons, List.sum_cons]
      · rw [add_zero]

omit [AddCommMonoid R] in
theorem runAll_indices (f : ℕ → ℤ) (is : List ℕ) (mem : OutBuffers m R) :
    Program.runAll (is.map fun i => Program.write (OutLoc.index i) (f i) (.pure ())) mem =
      fun l => match l with
        | .index i => if i ∈ is then f i else mem (.index i)
        | .value i j => mem (.value i j) := by
  induction is generalizing mem with
  | nil =>
    funext l
    cases l <;> simp
  | cons i is ih =>
    have hwrite : (Program.write (R := Unit) (OutLoc.index i) (f i) (.pure ())).run mem =
        Function.update mem (.index i) (f i) := rfl
    rw [List.map_cons, Program.runAll_cons, ih, hwrite]
    funext l
    cases l with
    | index i' =>
      dsimp only
      by_cases heq : i' = i
      · subst heq
        simp
      · rw [Function.update_of_ne (by simpa using heq)]
        simp [heq]
    | value i' j => exact Function.update_of_ne (by simp) _ _

theorem rowsAt_sum (nds : List (RowSparse m R)) (x : ℤ) (j : Fin m) :
    (rowsAt (nds.map some) x).sum j = (nds.map fun nd => (stored (some nd) x).getD 0 j).sum := by
  induction nds with
  | nil => rfl
  | cons nd nds ih =>
    conv_rhs => rw [List.map_cons, List.sum_cons, ← ih]
    rw [List.map_cons, rowsAt, List.filterMap_cons]
    cases stored (some nd) x with
    | none => exact (zero_add _).symm
    | some row =>
      rw [List.sum_cons]
      rfl

/-- What a thread leaves in its rows. -/
theorem elementwiseSumRspImpl_run {nds : List (RowSparse m R)}
    (hnds : ∀ nd ∈ nds, nd.indices.Pairwise (· < ·)) {uniqRowIdx : List ℤ}
    (huniq : uniqRowIdx.Pairwise (· < ·)) {numThreads : ℕ} (hthreads : 0 < numThreads)
    (mem : OutBuffers m R) {i : ℕ} {x : ℤ} (hi : uniqRowIdx[i]? = some x) :
    let mem' := (elementwiseSumRspImpl nds uniqRowIdx numThreads
      (i / rowBlockLen uniqRowIdx.length numThreads)).run mem
    mem' (.index i) = x ∧
      ∀ j, mem' (.value i j) = mem (.value i j) + (rowsAt (nds.map some) x).sum j := by
  obtain ⟨hlt, rfl⟩ := List.getElem?_eq_some_iff.mp hi
  have hpos := rowBlockLen_pos (Nat.zero_lt_of_lt hlt) hthreads
  unfold elementwiseSumRspImpl
  dsimp only
  set len := rowBlockLen uniqRowIdx.length numThreads
  have hstart : i / len * len ≤ i := Nat.div_mul_le_self i len
  have hstop : i < i / len * len + len := Nat.lt_div_mul_add hpos
  set start := i / len * len
  set stop := min (start + len) uniqRowIdx.length with hstopEq
  have hrows : ∀ k, k ∈ List.range' start (stop - start) ↔ start ≤ k ∧ k < stop := fun k => by
    rw [List.mem_range'_1]
    omega
  have hget : ∀ k (hk : k < uniqRowIdx.length), uniqRowIdx.getD k 0 = uniqRowIdx[k] :=
    fun k hk => by simp [hk]
  have hindices := runAll_indices (fun k => uniqRowIdx.getD k 0)
    (List.range' start (stop - start)) mem
  have hincreasing : Increasing start stop (Program.runAll
      ((List.range' start (stop - start)).map fun k =>
        Program.write (OutLoc.index k) (uniqRowIdx.getD k 0) (.pure ())) mem) := by
    intro k k' hk hkk hk'
    rw [hindices]
    dsimp only
    rw [if_pos ((hrows k).mpr ⟨hk, by omega⟩), if_pos ((hrows k').mpr ⟨by omega, hk'⟩),
      hget k (by omega), hget k' (by omega)]
    exact List.pairwise_iff_getElem.mp huniq _ _ _ _ hkk
  rw [if_pos (by omega), Program.run_bind, Program.run_forEach, Program.run_forEach,
    runAll_addBlock hnds hincreasing, hindices]
  dsimp only
  rw [if_pos ((hrows i).mpr ⟨hstart, by omega⟩), hget i hlt]
  refine ⟨rfl, fun j => ?_⟩
  rw [if_pos ⟨hstart, by omega⟩, rowsAt_sum]

end Runs

section Sum
variable [AddCommMonoid R]

omit [AddCommMonoid R] in
theorem getUniqueRspRowIdx_eq (nds : List (RowSparse m R)) (nthreads : ℕ) :
    getUniqueRspRowIdx nds nthreads = union (nds.map some) := by
  rw [getUniqueRspRowIdx, parallelSort_eq, union, List.flatMap_map]

/-- The output of the threads, whatever the order of their accesses. -/
theorem elementwiseSumRsp_output {nds : List (RowSparse m R)}
    (hnds : ∀ nd ∈ nds, nd.indices.Pairwise (· < ·)) (hne : nds ≠ []) {numThreads : ℕ}
    (hthreads : 0 < numThreads) {out : OutBuffers m R} {k : ℕ}
    {p : (Fin numThreads → OutProgram m R) × OutBuffers m R}
    (h : Steps ParallelStep k (elementwiseSumRsp nds numThreads out) p)
    (hstuck : ∀ p', ¬ ParallelStep p p') {i : ℕ} {x : ℤ}
    (hi : (getUniqueRspRowIdx nds numThreads)[i]? = some x) :
    p.2 (.index i) = x ∧ ∀ j, p.2 (.value i j) = (rowsAt (nds.map some) x).sum j := by
  rw [elementwiseSumRsp, if_neg (by simpa using hne)] at h
  set xs := getUniqueRspRowIdx nds numThreads with hxs
  have huniq : xs.Pairwise (· < ·) := by
    rw [hxs, getUniqueRspRowIdx_eq]
    exact (standing_union _).increasing
  have hlt : i < xs.length := (List.getElem?_eq_some_iff.mp hi).1
  have hpos := rowBlockLen_pos (Nat.zero_lt_of_lt hlt) hthreads
  have hthread : i / rowBlockLen xs.length numThreads < numThreads := by
    have hceil : xs.length + numThreads - 1 < rowBlockLen xs.length numThreads * numThreads +
      numThreads := Nat.lt_div_mul_add hthreads
    rw [Nat.div_lt_iff_lt_mul hpos, Nat.mul_comm]
    omega
  have hwithin : ∀ t : Fin numThreads, (elementwiseSumRspImpl nds xs numThreads t).Within
      (ownRows xs.length numThreads t) (ownRows xs.length numThreads t) := fun t =>
    elementwiseSumRspImpl_within nds xs hthreads t
  have hmem : ∀ l : OutLoc m, l.row = i →
      p.2 l = (elementwiseSumRspImpl nds xs numThreads
        (i / rowBlockLen xs.length numThreads)).run (zeroed out) l := fun l hl =>
    parallel_eq_run hwithin (fun t => subset_rfl)
      (fun t t' ht => ownRows_disjoint fun heq => ht (Fin.ext heq)) (List.nodup_finRange _)
      List.mem_finRange h (done_of_stuck hstuck) (i := ⟨_, hthread⟩)
      ⟨by rw [hl]; exact hlt, by rw [hl]⟩
  obtain ⟨hindex, hvalue⟩ := elementwiseSumRspImpl_run hnds huniq hthreads (zeroed out) hi
  refine ⟨(hmem _ rfl).trans hindex, fun j => ?_⟩
  rw [hmem _ rfl, hvalue]
  exact zero_add _

/-- With no arrays no thread does anything. -/
theorem elementwiseSumRsp_nil {numThreads : ℕ} {out : OutBuffers m R} {k : ℕ}
    {p : (Fin numThreads → OutProgram m R) × OutBuffers m R}
    (h : Steps ParallelStep k (elementwiseSumRsp [] numThreads out) p) : p.2 = out := by
  have hstart : p = (fun _ => .pure (), out) :=
    h.invariant (P := fun p => p = (fun _ => .pure (), out)) rfl fun q q' hq hstep => by
      subst hq
      cases hstep with
      | read _ _ i l next hrest => cases hrest
      | write _ _ i l x next hrest => cases hrest
  rw [hstart]

theorem elementwiseSumRsp_isSum {nds : List (RowSparse m R)}
    (hnds : ∀ nd ∈ nds, nd.indices.Pairwise (· < ·)) (hne : nds ≠ []) {numThreads : ℕ}
    (hthreads : 0 < numThreads) {out : OutBuffers m R} {k : ℕ}
    {p : (Fin numThreads → OutProgram m R) × OutBuffers m R}
    (h : Steps ParallelStep k (elementwiseSumRsp nds numThreads out) p)
    (hstuck : ∀ p', ¬ ParallelStep p p') :
    IsSum (nds.map some) (output (getUniqueRspRowIdx nds numThreads).length p.2) := by
  have hrows := fun i x hi =>
    elementwiseSumRsp_output hnds hne hthreads h hstuck (i := i) (x := x) hi
  set xs := getUniqueRspRowIdx nds numThreads with hxs
  have hunion : xs = union (nds.map some) := getUniqueRspRowIdx_eq nds numThreads
  refine isSum_of_union (List.ext_getElem? fun i => ?_) fun i x hi => ?_
  · show ((List.range xs.length).map fun i => p.2 (.index i))[i]? = _
    rw [← hunion, List.getElem?_map]
    cases hi : xs[i]? with
    | none => simpa using hi
    | some x =>
      rw [List.getElem?_range (List.getElem?_eq_some_iff.mp hi).1, Option.map_some,
        (hrows i x hi).1]
  · rw [← hunion] at hi
    rw [output, List.getElem?_map, List.getElem?_range (List.getElem?_eq_some_iff.mp hi).1,
      Option.map_some]
    exact congrArg some (funext (hrows i x hi).2)

/-- Only one array is the sum of given inputs. -/
theorem IsSum.unique {ins : List (Option (RowSparse m R))} {a b : RowSparse m R} (ha : IsSum ins a)
    (hb : IsSum ins b) : a = b := by
  have hindices : a.indices = b.indices := by
    refine List.Perm.eq_of_pairwise (fun _ _ _ _ h h' => absurd h h'.asymm) ha.increasing
      hb.increasing ((List.perm_ext_iff_of_nodup (ha.increasing.imp ne_of_lt)
        (hb.increasing.imp ne_of_lt)).mpr fun x => ?_)
    rw [ha.mem_indices, hb.mem_indices]
  refine RowSparse.ext hindices (List.ext_getElem? fun i => ?_)
  cases hi : a.indices[i]? with
  | some x => rw [ha.values i x hi, hb.values i x (hindices ▸ hi)]
  | none =>
    have hle : a.indices.length ≤ i := List.getElem?_eq_none_iff.mp hi
    rw [List.getElem?_eq_none (a.consistent.trans_le hle),
      List.getElem?_eq_none (b.consistent.trans_le (hindices ▸ hle))]

/-- Every run of the threads ends. What they leave is the sum, and what the serial sum computes
where it takes whole rows. -/
theorem elementwiseSumRsp_sum {dims : List ℕ} (nds : List (RowSparse dims.prod R))
    (hnds : ∀ nd ∈ nds, nd.indices.Pairwise (· < ·)) (numThreads : ℕ) (hthreads : 0 < numThreads)
    (out : OutBuffers dims.prod R) :
    (¬ ∃ run : ℕ → (Fin numThreads → OutProgram dims.prod R) × OutBuffers dims.prod R,
      run 0 = elementwiseSumRsp nds numThreads out ∧
        ∀ n, ParallelStep (run n) (run (n + 1))) ∧
    ∀ k p, Steps ParallelStep k (elementwiseSumRsp nds numThreads out) p →
      (∀ p', ¬ ParallelStep p p') →
        (nds = [] → p.2 = out) ∧
        (nds ≠ [] →
          IsSum (nds.map some) (output (getUniqueRspRowIdx nds numThreads).length p.2) ∧
          (SlicesAreRows dims (nds.map some) → ∀ (serialIdx : ℕ → ℤ) (serialVal : ℕ → R),
            reduceSumCPUExSerial dims (nds.map some) serialIdx serialVal =
              some (output (getUniqueRspRowIdx nds numThreads).length p.2))) := by
  refine ⟨fun ⟨run, _, hrun⟩ => ?_, fun k p h hstuck =>
    ⟨fun hnil => ?_, fun hne => ?_⟩⟩
  · exact (wellFounded_iff_isEmpty_descending_chain.mp parallelStep_wellFounded).false ⟨run, hrun⟩
  · subst hnil
    exact elementwiseSumRsp_nil h
  · have hsum := elementwiseSumRsp_isSum hnds hne hthreads h hstuck
    have hins : ∀ a ∈ nds.map some, (gathered a).Pairwise (· < ·) := fun a ha => by
      obtain ⟨nd, hnd, rfl⟩ := List.mem_map.mp ha
      rw [gathered_eq]
      exact hnds nd hnd
    refine ⟨hsum, fun hslices serialIdx serialVal => ?_⟩
    obtain ⟨serial, hserial, hserialSum⟩ := exists_isSum hins hslices serialIdx serialVal
    rw [hserial, hserialSum.unique hsum]

theorem elementwiseSumRsp_sum_two :
    ∃ k p, Steps ParallelStep k (elementwiseSumRsp (m := [2].prod) (R := ℤ)
        [⟨[1, 3], [![1, 2], ![3, 4]], rfl⟩, ⟨[3, 8], [![10, 20], ![5, 6]], rfl⟩] 2
        fun | .index _ => 0 | .value _ _ => (9 : ℤ)) p ∧
      (∀ p', ¬ ParallelStep p p') ∧
      IsSum (m := [2].prod) (R := ℤ) [some ⟨[1, 3], [![1, 2], ![3, 4]], rfl⟩,
          some ⟨[3, 8], [![10, 20], ![5, 6]], rfl⟩]
        (output (getUniqueRspRowIdx (m := [2].prod) (R := ℤ)
          [⟨[1, 3], [![1, 2], ![3, 4]], rfl⟩, ⟨[3, 8], [![10, 20], ![5, 6]], rfl⟩] 2).length
          p.2) := by
  obtain ⟨k, p, h, hstuck⟩ := exists_stuck (elementwiseSumRsp (m := [2].prod) (R := ℤ)
    [⟨[1, 3], [![1, 2], ![3, 4]], rfl⟩, ⟨[3, 8], [![10, 20], ![5, 6]], rfl⟩] 2
    fun | .index _ => 0 | .value _ _ => (9 : ℤ))
  exact ⟨k, p, h, hstuck, (((@elementwiseSumRsp_sum ℤ _ [2] _ (by decide) 2 (by decide)
    _).2 k p h hstuck).2 (by simp)).1⟩

end Sum

end RowSparseSum
end NetStorm

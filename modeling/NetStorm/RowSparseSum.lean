import Mathlib.Algebra.BigOperators.Group.List.Basic
import Mathlib.Algebra.Group.Pi.Basic
import Mathlib.Algebra.Order.Ring.Int
import Mathlib.Data.Fin.VecNotation
import Mathlib.Data.Fintype.Pi
import Mathlib.Logic.Function.Basic

/-!
# The sum of row-sparse arrays on the CPU

`ReduceSumCPUExSerial` gathers the row indices of all inputs, sorts them and drops repeated
ones. Every output row then asks each input for its next row: the offset of an input moves on
only when that row has the index that is asked for. The buffers of the output may hold anything
before, and have been allocated for as many rows as there are indices.

The rows that the code reads and writes are those of `FlatTo2D`, which are slices of the last
dimension. The output is the sum exactly if such a slice is a whole row: with one more dimension
a slice is a part of a row, and with one dimension less it is all rows at once.
-/
namespace NetStorm
namespace RowSparseSum
variable {m : ℕ} {R : Type}

/-- The aux data and the values of a row-sparse `NDArray` with rows of length `m`. Their numbers
of rows agree. -/
@[ext]
structure RowSparse (m : ℕ) (R : Type) where
  indices : List ℤ
  values : List (Fin m → R)
  consistent : values.length = indices.length

/-- `storage_initialized`. There is no array if `is_none`. -/
def storageInitialized : Option (RowSparse m R) → Bool
  | none => false
  | some a => a.indices.length ≠ 0

/-- `num_rows[i]`. -/
def numRows (a : Option (RowSparse m R)) : ℕ :=
  if storageInitialized a then (a.elim [] RowSparse.indices).length else 0

/-- The indices gathered from an input. -/
def gathered (a : Option (RowSparse m R)) : List ℤ :=
  if storageInitialized a then a.elim [] RowSparse.indices else []

/-- `std::unique`. -/
def unique : List ℤ → List ℤ
  | a :: b :: l => if a = b then unique (b :: l) else a :: unique (b :: l)
  | l => l

/-- `TShape::FlatTo2D`. -/
def flatTo2D (shape : List ℕ) : ℕ × ℕ := (shape.dropLast.prod, shape.getLastD 1)

/-- The memory behind the values. -/
def RowSparse.dptr (a : RowSparse m R) : List R := a.values.flatMap List.ofFn

/-- `in_vals[j][r]`, for values whose rows have the shape `dims`. There is none if it ends past the
memory. -/
def RowSparse.inVals {dims : List ℕ} (a : RowSparse dims.prod R) (r : ℕ) : Option (List R) :=
  let cols := (flatTo2D (a.indices.length :: dims)).2
  if (r + 1) * cols ≤ a.dptr.length then some ((a.dptr.drop (r * cols)).take cols) else none

/-- The buffers of the output and the offsets into the inputs. -/
structure Merge (R : Type) where
  idxData : ℕ → ℤ
  valData : ℕ → R
  offsets : ℕ → ℕ

/-- The array in the buffers of the output. -/
def Merge.output (nnr : ℕ) (s : Merge R) : RowSparse m R where
  indices := (List.range nnr).map s.idxData
  values := (List.range nnr).map fun i j => s.valData (i * m + j)
  consistent := by simp

variable [Add R]

/-- `Copy` to `val_data[i]` with the flag `zeros`, else `+=`. Both check that the lengths agree, and
neither is defined past the memory of the output. -/
def addVals (dims : List ℕ) (nnr i : ℕ) (s : (ℕ → R) × Bool) (row : List R) :
    Option ((ℕ → R) × Bool) :=
  let cols := (flatTo2D (nnr :: dims)).2
  if row.length = cols ∧ (i + 1) * cols ≤ nnr * dims.prod then
    some (fun p => if i * cols ≤ p then
      row[p - i * cols]?.elim (s.1 p) fun x => if s.2 then x else s.1 p + x else s.1 p, false)
  else none

/-- The loop over the inputs for output row `i`, with the flag `zeros`. -/
def addInput (dims : List ℕ) (nnr i : ℕ) (index : ℤ) (s : Merge R × Bool)
    (p : Option (RowSparse dims.prod R) × ℕ) : Option (Merge R × Bool) :=
  match p.1 with
  | none => some s
  | some a =>
    if storageInitialized (some a) then
      match a.indices[s.1.offsets p.2]? with
      | some k =>
        if index = k then do
          let row ← a.inVals (s.1.offsets p.2)
          let (valData, zeros) ← addVals dims nnr i (s.1.valData, s.2) row
          some ({ s.1 with
            valData := valData
            offsets := Function.update s.1.offsets p.2 (s.1.offsets p.2 + 1) }, zeros)
        else some s
      | none => some s
    else some s

/-- The body of the loop over the output rows. -/
def mergeRow (dims : List ℕ) (nnr : ℕ) (ins : List (Option (RowSparse dims.prod R))) (s : Merge R)
    (p : ℤ × ℕ) : Option (Merge R) :=
  (ins.zipIdx.foldlM (addInput dims nnr p.2 p.1)
    ({ s with idxData := Function.update s.idxData p.2 p.1 }, true)).map Prod.fst

/-- `ReduceSumCPUExSerial`, for rows of the shape `dims` and what the buffers of the output hold.
There is no output where a check fails or memory is accessed past its end. -/
def reduceSumCPUExSerial (dims : List ℕ) (ins : List (Option (RowSparse dims.prod R)))
    (idxData : ℕ → ℤ) (valData : ℕ → R) : Option (RowSparse dims.prod R) :=
  let indices := ins.flatMap gathered
  if indices.length ≠ (ins.map numRows).sum then none else
    let indices := unique (indices.mergeSort (· ≤ ·))
    let nnr := indices.length
    (indices.zipIdx.foldlM (mergeRow dims nnr ins) ⟨idxData, valData, fun _ => 0⟩).map
      (Merge.output nnr)

section Lists
variable {β : Type}

theorem mem_unique {x : ℤ} (l : List ℤ) : x ∈ unique l ↔ x ∈ l := by
  induction l using unique.induct with
  | case1 b l ih =>
    rw [unique, if_pos rfl, ih]
    simp
  | case2 a b l hab ih =>
    rw [unique, if_neg hab, List.mem_cons, ih]
    exact List.mem_cons.symm
  | case3 l h =>
    rw [unique]
    exact h

/-- What is left of a sorted list is strictly increasing. -/
theorem pairwise_unique {l : List ℤ} (h : l.Pairwise (· ≤ ·)) : (unique l).Pairwise (· < ·) := by
  induction l using unique.induct with
  | case1 b l ih =>
    rw [unique, if_pos rfl]
    exact ih h.of_cons
  | case2 a b l hab ih =>
    rw [unique, if_neg hab, List.pairwise_cons]
    refine ⟨fun y hy => ?_, ih h.of_cons⟩
    have hle : a ≤ b := List.rel_of_pairwise_cons h (by simp)
    rcases List.mem_cons.mp ((mem_unique _).mp hy) with rfl | hy
    · exact lt_of_le_of_ne hle hab
    · exact lt_of_lt_of_le (lt_of_le_of_ne hle hab) (List.rel_of_pairwise_cons h.of_cons hy)
  | case3 l h' =>
    match l, h' with
    | [], _ => exact .nil
    | [a], _ => exact List.pairwise_singleton _ a
    | a :: b :: l, h' => exact absurd rfl (h' a b l)

theorem pairwise_sorted (l : List ℤ) : (l.mergeSort (· ≤ ·)).Pairwise (· ≤ ·) := by
  have htrans : ∀ a b c : ℤ, decide (a ≤ b) → decide (b ≤ c) → decide (a ≤ c) := fun a b c => by
    simpa using le_trans
  have htotal : ∀ a b : ℤ, decide (a ≤ b) || decide (b ≤ a) := fun a b => by
    simpa using le_total a b
  exact (List.pairwise_mergeSort htrans htotal l).imp fun hab => by simpa using hab

/-- The numbers of a list below `x`, which is where `x` stands in an increasing list. -/
def countBelow (l : List ℤ) (x : ℤ) : ℕ := l.countP (· < x)

theorem countBelow_eq_zero {l : List ℤ} {x : ℤ} (h : ∀ z ∈ l, x ≤ z) : countBelow l x = 0 :=
  List.countP_eq_zero.mpr fun z hz => by simpa using h z hz

theorem countP_lt_or_eq {l : List ℤ} (hl : l.Nodup) (x : ℤ) :
    l.countP (fun z => z < x ∨ z = x) = countBelow l x + if x ∈ l then 1 else 0 := by
  induction l with
  | nil => rfl
  | cons z l ih =>
    rw [List.nodup_cons] at hl
    have h := ih hl.2
    simp only [countBelow, List.countP_cons] at h ⊢
    rw [h]
    rcases eq_or_ne z x with rfl | hne
    · simp [hl.1]
    · simp only [hne, or_false, List.mem_cons, Ne.symm hne, false_or]
      omega

/-- The value for an index is where the count of smaller indices points. -/
theorem lookup_zip {l : List ℤ} (hl : l.Pairwise (· < ·)) {vs : List β}
    (hlen : vs.length = l.length) (x : ℤ) :
    (l.zip vs).lookup x = if l[countBelow l x]? = some x then vs[countBelow l x]? else none := by
  induction l generalizing vs with
  | nil => simp
  | cons k l ih =>
    obtain ⟨v, vs, rfl⟩ : ∃ v vs', vs = v :: vs' := List.exists_cons_of_length_eq_add_one hlen
    have hk : ∀ z ∈ l, k < z := fun z hz => List.rel_of_pairwise_cons hl hz
    rcases lt_trichotomy k x with hlt | rfl | hgt
    · have hcount : countBelow (k :: l) x = countBelow l x + 1 := by
        simp [countBelow, hlt]
      rw [hcount, List.zip_cons_cons, List.lookup_cons, List.getElem?_cons_succ,
        List.getElem?_cons_succ, ← ih hl.of_cons (by simpa using hlen),
        beq_eq_false_iff_ne.mpr (by omega)]
    · have hcount : countBelow (k :: l) k = 0 :=
        countBelow_eq_zero fun z hz => by
          rcases List.mem_cons.mp hz with rfl | hz
          · exact le_rfl
          · exact (hk z hz).le
      simp [hcount]
    · have hcount : countBelow (k :: l) x = 0 :=
        countBelow_eq_zero fun z hz => by
          rcases List.mem_cons.mp hz with rfl | hz
          · exact hgt.le
          · exact (hgt.trans (hk z hz)).le
      have hcount' : countBelow l x = 0 :=
        countBelow_eq_zero fun z hz => (hgt.trans (hk z hz)).le
      rw [List.zip_cons_cons, List.lookup_cons, beq_eq_false_iff_ne.mpr (by omega),
        ih hl.of_cons (by simpa using hlen), hcount, hcount']
      have hne : ∀ y, l[0]? = some y → y ≠ x := fun y hy => by
        have hlt := hk y (List.mem_of_getElem? hy)
        omega
      rw [if_neg fun h => hne x h rfl, if_neg]
      simp
      omega

/-- In an increasing list the count of smaller numbers points at a number of the list. -/
theorem getElem?_countBelow {l : List ℤ} (hl : l.Pairwise (· < ·)) (x : ℤ) :
    l[countBelow l x]? = some x ↔ x ∈ l := by
  have hlookup := @lookup_zip ℤ l hl l rfl x
  constructor
  · exact List.mem_of_getElem?
  · intro hx
    by_contra hne
    rw [if_neg hne, List.lookup_eq_none_iff] at hlookup
    obtain ⟨i, hi, rfl⟩ := List.mem_iff_getElem.mp hx
    simpa using hlookup (l[i], l[i]) (List.mem_iff_getElem.mpr ⟨i, by simpa using hi, by simp⟩)

end Lists

section Rows
omit [Add R]

/-- The row of an input for an index. -/
def stored (a : Option (RowSparse m R)) (x : ℤ) : Option (Fin m → R) :=
  (a.elim [] fun a => a.indices.zip a.values).lookup x

/-- The rows that the inputs have for an index. -/
def rowsAt (ins : List (Option (RowSparse m R))) (x : ℤ) : List (Fin m → R) :=
  ins.filterMap fun a => stored a x

theorem gathered_eq (a : Option (RowSparse m R)) : gathered a = a.elim [] RowSparse.indices := by
  rcases a with _ | a
  · rfl
  · by_cases h : a.indices = [] <;> simp [gathered, storageInitialized, h]

theorem numRows_eq (a : Option (RowSparse m R)) : numRows a = (gathered a).length := by
  unfold numRows gathered
  split_ifs <;> rfl

theorem storageInitialized_iff (a : RowSparse m R) :
    storageInitialized (some a) = true ↔ a.indices ≠ [] := by
  simp [storageInitialized]

theorem stored_eq {a : RowSparse m R} (ha : a.indices.Pairwise (· < ·)) (x : ℤ) :
    stored (some a) x = if a.indices[countBelow a.indices x]? = some x then
      a.values[countBelow a.indices x]? else none :=
  lookup_zip ha a.consistent x

theorem stored_isSome {a : Option (RowSparse m R)} (x : ℤ) :
    (stored a x).isSome ↔ x ∈ gathered a := by
  rw [gathered_eq]
  rcases a with _ | a
  · simp [stored]
  · have hmap : (a.indices.zip a.values).map Prod.fst = a.indices :=
      List.map_fst_zip a.consistent.ge
    rw [stored, Option.elim_some, Option.elim_some, List.lookup_isSome_iff]
    conv_rhs => rw [← hmap, List.mem_map]
    simp only [beq_iff_eq, eq_comm (a := x)]

theorem rowsAt_ne_nil {ins : List (Option (RowSparse m R))} {x : ℤ}
    (h : ∃ a ∈ ins, x ∈ gathered a) : rowsAt ins x ≠ [] := by
  obtain ⟨a, ha, hx⟩ := h
  obtain ⟨row, hrow⟩ := Option.isSome_iff_exists.mp ((stored_isSome x).mpr hx)
  exact List.ne_nil_of_mem (List.mem_filterMap.mpr ⟨a, ha, hrow⟩)

/-- The inputs stand at the indices `xs` that are still to come: what they have gathered is
among these or below all of them. -/
structure Standing (ins : List (Option (RowSparse m R))) (xs : List ℤ) : Prop where
  increasing : xs.Pairwise (· < ·)
  wanted : ∀ x ∈ xs, ∃ a ∈ ins, x ∈ gathered a
  rest : ∀ a ∈ ins, ∀ z ∈ gathered a, z ∈ xs ∨ ∀ y ∈ xs, z < y

theorem Standing.tail {ins : List (Option (RowSparse m R))} {x : ℤ} {xs : List ℤ}
    (h : Standing ins (x :: xs)) : Standing ins xs where
  increasing := h.increasing.of_cons
  wanted y hy := h.wanted y (List.mem_cons_of_mem _ hy)
  rest a ha z hz := by
    rcases h.rest a ha z hz with hmem | hlt
    · rcases List.mem_cons.mp hmem with rfl | hmem
      · exact .inr fun y hy => List.rel_of_pairwise_cons h.increasing hy
      · exact .inl hmem
    · exact .inr fun y hy => hlt y (List.mem_cons_of_mem _ hy)

/-- Past an index, an input stands at the next one. -/
theorem Standing.countBelow_next {ins : List (Option (RowSparse m R))} {x y : ℤ} {xs : List ℤ}
    (h : Standing ins (x :: y :: xs)) {a : Option (RowSparse m R)} (ha : a ∈ ins)
    (hsorted : (gathered a).Pairwise (· < ·)) :
    countBelow (gathered a) y = countBelow (gathered a) x + (stored a x).toList.length := by
  have hxy : x < y := List.rel_of_pairwise_cons h.increasing (by simp)
  have hlt : ∀ z ∈ gathered a, decide (z < y) = true ↔ decide (z < x ∨ z = x) = true :=
    fun z hz => by
      rw [decide_eq_true_iff, decide_eq_true_iff]
      rcases h.rest a ha z hz with hmem | hbelow
      · rcases List.mem_cons.mp hmem with rfl | hmem
        · exact ⟨fun _ => .inr rfl, fun _ => hxy⟩
        · have hyz : y ≤ z := by
            rcases List.mem_cons.mp hmem with rfl | hmem
            · exact le_rfl
            · exact (List.rel_of_pairwise_cons h.increasing.of_cons hmem).le
          constructor
          · intro h
            omega
          · rintro (h | h) <;> omega
      · exact ⟨fun _ => .inl (hbelow x (by simp)), fun _ => hbelow y (by simp)⟩
  have hlen : (stored a x).toList.length = if x ∈ gathered a then 1 else 0 := by
    simp only [← stored_isSome]
    cases stored a x <;> rfl
  rw [hlen, ← countP_lt_or_eq (hsorted.imp fun h => h.ne), countBelow]
  exact List.countP_congr hlt

end Rows

section Merging
variable {dims : List ℕ}

omit [Add R] in
/-- What the memory of an input has for an index, if the input has the index. -/
def taken (x : ℤ) : Option (RowSparse dims.prod R) → Option (Option (List R))
  | none => none
  | some a => if x ∈ a.indices then some (a.inVals (countBelow a.indices x)) else none

omit [Add R] in
theorem taken_isSome (x : ℤ) (a : Option (RowSparse dims.prod R)) :
    (taken x a).isSome ↔ x ∈ gathered a := by
  rw [gathered_eq]
  cases a with
  | none => simp [taken]
  | some a =>
    unfold taken
    dsimp only [Option.elim_some]
    split_ifs with h <;> simpa using h

/-- One more row for an output row. -/
def addTaken (dims : List ℕ) (nnr i : ℕ) (s : (ℕ → R) × Bool) (row : Option (List R)) :
    Option ((ℕ → R) × Bool) :=
  row.bind (addVals dims nnr i s)

/-- An input that stands at an index adds its row if it has one, and moves on. -/
theorem addInput_eq {a : Option (RowSparse dims.prod R)} (ha : (gathered a).Pairwise (· < ·))
    (nnr i j : ℕ) (x : ℤ) {s : Merge R × Bool} (hs : s.1.offsets j = countBelow (gathered a) x) :
    addInput dims nnr i x s (a, j) = match taken x a with
      | none => some s
      | some row => (addTaken dims nnr i (s.1.valData, s.2) row).map fun v =>
          ({ s.1 with
            valData := v.1
            offsets := Function.update s.1.offsets j (s.1.offsets j + 1) }, v.2) := by
  rcases a with _ | a
  · rfl
  · rw [gathered_eq, Option.elim_some] at ha hs
    have hmem := getElem?_countBelow ha x
    by_cases hnil : a.indices = []
    · simp [addInput, taken, storageInitialized, hnil]
    · have hinit : storageInitialized (some a) = true := (storageInitialized_iff a).mpr hnil
      simp only [addInput, hinit, if_true, hs, taken]
      cases hk : a.indices[countBelow a.indices x]? with
      | none =>
        rw [hk] at hmem
        simp [← hmem]
      | some k =>
        rw [hk, Option.some.injEq] at hmem
        by_cases hx : x = k
        · rw [if_pos (hmem.mp hx.symm), hx]
          dsimp only
          rw [if_pos rfl]
          cases a.inVals (countBelow a.indices k) with
          | none => rfl
          | some row =>
            simp only [addTaken, Option.bind_some, Option.bind_eq_bind]
            cases addVals dims nnr i (s.1.valData, s.2) row <;> rfl
        · rw [if_neg fun h => hx (hmem.mpr h).symm]
          simp [hx]

/-- The loop over the inputs for output row `i`, from input `n` on, as a loop over the rows that
they have for it. -/
theorem foldlM_addInput (ins : List (Option (RowSparse dims.prod R)))
    (hins : ∀ a ∈ ins, (gathered a).Pairwise (· < ·)) (nnr i n : ℕ) (x : ℤ) (idxData : ℕ → ℤ)
    (offsets : ℕ → ℕ)
    (hs : ∀ j a, ins[j]? = some a → offsets (n + j) = countBelow (gathered a) x) :
    ∃ offsets' : ℕ → ℕ,
      (∀ v : (ℕ → R) × Bool,
        (ins.zipIdx n).foldlM (addInput dims nnr i x) (⟨idxData, v.1, offsets⟩, v.2) =
          ((ins.filterMap (taken x)).foldlM (addTaken dims nnr i) v).map
            fun v => (⟨idxData, v.1, offsets'⟩, v.2)) ∧
      (∀ j, j < n → offsets' j = offsets j) ∧
      ∀ j a, ins[j]? = some a →
        offsets' (n + j) = countBelow (gathered a) x + (stored a x).toList.length := by
  induction ins generalizing n offsets with
  | nil => exact ⟨offsets, fun v => rfl, fun _ _ => rfl, by simp⟩
  | cons a ins ih =>
    have hsize : (stored a x).toList.length = if (taken x a).isSome then 1 else 0 := by
      simp only [taken_isSome, ← stored_isSome]
      cases stored a x <;> rfl
    -- the input moves on if it has the index
    set offsets₁ := Function.update offsets n (offsets n + (stored a x).toList.length)
      with hoffsets₁
    obtain ⟨offsets', hfold, hlow, hoff⟩ :=
      ih (fun b hb => hins b (List.mem_cons_of_mem _ hb)) (n + 1) offsets₁ fun j b hb => by
        rw [hoffsets₁, Function.update_of_ne (by omega), Nat.add_assoc, Nat.add_comm 1 j]
        exact hs (j + 1) b hb
    refine ⟨offsets', fun v => ?_, fun j hj => ?_, fun j b hb => ?_⟩
    · have hstep := addInput_eq (hins a (by simp)) nnr i n x
        (s := (⟨idxData, v.1, offsets⟩, v.2)) (hs 0 a rfl)
      rw [List.zipIdx_cons, List.foldlM_cons, hstep, List.filterMap_cons]
      cases htaken : taken x a with
      | none =>
        have hsame : offsets₁ = offsets := by
          rw [hoffsets₁, hsize, htaken]
          exact Function.update_eq_self n offsets
        rw [hsame] at hfold
        exact hfold v
      | some row =>
        have hone : offsets₁ = Function.update offsets n (offsets n + 1) := by
          rw [hoffsets₁, hsize, htaken]
          rfl
        dsimp only
        rw [List.foldlM_cons]
        cases addTaken dims nnr i v row with
        | none => rfl
        | some v' =>
          rw [← hone]
          exact hfold v'
    · rw [hlow j (by omega), hoffsets₁, Function.update_of_ne (by omega)]
    · cases j with
      | zero =>
        obtain rfl : a = b := by simpa using hb
        rw [show n + 0 = n from rfl, hlow n (by omega), hoffsets₁, Function.update_self]
        exact congrArg (· + _) (hs 0 a rfl)
      | succ j =>
        rw [Nat.add_comm j 1, ← Nat.add_assoc]
        exact hoff j b hb

/-- The values of an output row, from the rows that the inputs have for its index. -/
def fillRow (dims : List ℕ) (nnr : ℕ) (ins : List (Option (RowSparse dims.prod R)))
    (valData : ℕ → R) (p : ℤ × ℕ) : Option (ℕ → R) :=
  ((ins.filterMap (taken p.1)).foldlM (addTaken dims nnr p.2) (valData, true)).map Prod.fst

/-- The loop over the output rows, from row `n` on, as a loop over their values. -/
theorem foldlM_mergeRow {ins : List (Option (RowSparse dims.prod R))}
    (hins : ∀ a ∈ ins, (gathered a).Pairwise (· < ·)) (nnr : ℕ) (xs : List ℤ)
    (hxs : Standing ins xs) (n : ℕ) (idxData : ℕ → ℤ) (offsets : ℕ → ℕ)
    (hs : ∀ x ∈ xs.head?, ∀ j a, ins[j]? = some a → offsets j = countBelow (gathered a) x) :
    ∃ (idxData' : ℕ → ℤ) (offsets' : ℕ → ℕ),
      (∀ valData : ℕ → R,
        (xs.zipIdx n).foldlM (mergeRow dims nnr ins) ⟨idxData, valData, offsets⟩ =
          ((xs.zipIdx n).foldlM (fillRow dims nnr ins) valData).map
            fun valData' => ⟨idxData', valData', offsets'⟩) ∧
      (∀ i < n, idxData' i = idxData i) ∧ ∀ k x, xs[k]? = some x → idxData' (n + k) = x := by
  induction xs generalizing n idxData offsets with
  | nil => exact ⟨idxData, offsets, fun _ => rfl, fun _ _ => rfl, by simp⟩
  | cons x xs ih =>
    obtain ⟨offsets₁, hrow, -, hoff⟩ := foldlM_addInput ins hins nnr n 0 x
      (Function.update idxData n x) offsets (by simpa using hs x (by simp))
    obtain ⟨idxData', offsets', hfold, hlow, hnext⟩ := ih hxs.tail (n + 1)
      (Function.update idxData n x) offsets₁ fun y hy j a ha => by
        obtain ⟨xs', rfl⟩ := List.head?_eq_some_iff.mp hy
        have hmem := List.mem_of_getElem? ha
        rw [hxs.countBelow_next hmem (hins a hmem), ← hoff j a ha, Nat.zero_add]
    refine ⟨idxData', offsets', fun valData => ?_, fun i hi => ?_, fun k y hy => ?_⟩
    · have hmerge : mergeRow dims nnr ins ⟨idxData, valData, offsets⟩ (x, n) =
          (fillRow dims nnr ins valData (x, n)).map
            fun v => ⟨Function.update idxData n x, v, offsets₁⟩ := by
        rw [mergeRow, fillRow]
        refine (congrArg (Option.map Prod.fst) (hrow (valData, true))).trans ?_
        rw [Option.map_map, Option.map_map]
        rfl
      rw [List.zipIdx_cons, List.foldlM_cons, List.foldlM_cons, hmerge]
      cases fillRow dims nnr ins valData (x, n) with
      | none => rfl
      | some v => exact hfold v
    · rw [hlow i (by omega), Function.update_of_ne (by omega)]
    · cases k with
      | zero =>
        obtain rfl : x = y := by simpa using hy
        rw [show n + 0 = n from rfl, hlow n (by omega), Function.update_self]
      | succ k =>
        rw [Nat.add_comm k 1, ← Nat.add_assoc]
        exact hnext k y hy

/-- The indices of the output. -/
def union (ins : List (Option (RowSparse m R))) : List ℤ :=
  unique ((ins.flatMap gathered).mergeSort (· ≤ ·))

omit [Add R] in
theorem mem_union {ins : List (Option (RowSparse m R))} {x : ℤ} :
    x ∈ union ins ↔ ∃ a ∈ ins, x ∈ gathered a := by
  rw [union, mem_unique, List.mem_mergeSort, List.mem_flatMap]

omit [Add R] in
theorem standing_union (ins : List (Option (RowSparse m R))) : Standing ins (union ins) :=
  ⟨pairwise_unique (pairwise_sorted _), fun _ hx => mem_union.mp hx,
    fun a ha _ hz => .inl (mem_union.mpr ⟨a, ha, hz⟩)⟩

/-- `ReduceSumCPUExSerial` without the offsets. -/
theorem reduceSumCPUExSerial_eq {ins : List (Option (RowSparse dims.prod R))}
    (hins : ∀ a ∈ ins, (gathered a).Pairwise (· < ·)) (idxData : ℕ → ℤ) :
    ∃ (idxData' : ℕ → ℤ) (offsets : ℕ → ℕ),
      (∀ valData : ℕ → R, reduceSumCPUExSerial dims ins idxData valData =
        ((union ins).zipIdx.foldlM (fillRow dims (union ins).length ins) valData).map
          fun valData' => Merge.output (union ins).length ⟨idxData', valData', offsets⟩) ∧
      (List.range (union ins).length).map idxData' = union ins := by
  have hlen : (ins.flatMap gathered).length = (ins.map numRows).sum := by
    rw [List.length_flatMap, funext numRows_eq]
  have hstand := standing_union ins
  obtain ⟨idxData', offsets, hfold, -, hidx⟩ := foldlM_mergeRow hins (union ins).length (union ins)
    hstand 0 idxData (fun _ => 0) fun x hx j a ha => by
      -- no input has a row before the first output row
      obtain ⟨xs', hxs'⟩ := List.head?_eq_some_iff.mp hx
      refine (countBelow_eq_zero fun z hz => ?_).symm
      have hz : z ∈ union ins := mem_union.mpr ⟨a, List.mem_of_getElem? ha, hz⟩
      have hincreasing := hstand.increasing
      rw [hxs'] at hz hincreasing
      rcases List.mem_cons.mp hz with rfl | hz
      · exact le_rfl
      · exact (List.rel_of_pairwise_cons hincreasing hz).le
  refine ⟨idxData', offsets, fun valData => ?_, List.ext_getElem? fun k => ?_⟩
  · rw [reduceSumCPUExSerial, if_neg (not_not.mpr hlen)]
    refine (congrArg (Option.map _) (hfold valData)).trans ?_
    rw [Option.map_map]
    rfl
  · rw [List.getElem?_map]
    cases hk : (union ins)[k]? with
    | none => simpa using hk
    | some x =>
      rw [List.getElem?_range (List.getElem?_eq_some_iff.mp hk).1, Option.map_some,
        ← Nat.zero_add k, hidx k x hk]

end Merging

section Slices
variable {dims : List ℕ}

omit [Add R] in
theorem length_dptr (values : List (Fin m → R)) :
    (values.flatMap List.ofFn).length = values.length * m := by
  rw [List.length_flatMap]
  simp

omit [Add R] in
/-- The memory at the place of a row holds the row. -/
theorem take_drop_dptr {values : List (Fin m → R)} {r : ℕ} {row : Fin m → R}
    (h : values[r]? = some row) :
    ((values.flatMap List.ofFn).drop (r * m)).take m = List.ofFn row := by
  induction values generalizing r with
  | nil => simp at h
  | cons row' values ih =>
    rw [List.flatMap_cons]
    cases r with
    | zero =>
      obtain rfl : row' = row := by simpa using h
      rw [Nat.zero_mul, List.drop_zero, List.take_append_of_le_length (by simp),
        List.take_of_length_le (by simp)]
    | succ r =>
      have hdrop : (r + 1) * m = (List.ofFn row').length + r * m := by
        rw [List.length_ofFn, Nat.add_mul, Nat.one_mul, Nat.add_comm]
      rw [hdrop, List.drop_length_add_append]
      exact ih (by simpa using h)

omit [Add R] in
/-- Where a slice is a whole row, the memory of an input has the row that is stored. -/
theorem taken_eq {a : Option (RowSparse dims.prod R)} (ha : (gathered a).Pairwise (· < ·))
    (hcols : ∀ x ∈ gathered a, (flatTo2D ((gathered a).length :: dims)).2 = dims.prod) (x : ℤ) :
    taken x a = (stored a x).map fun row => some (List.ofFn row) := by
  rcases a with _ | a
  · rfl
  · rw [gathered_eq, Option.elim_some] at ha hcols
    rw [stored_eq ha, if_congr (getElem?_countBelow ha x) rfl rfl]
    unfold taken
    dsimp only
    split_ifs with hx
    · have hk := (getElem?_countBelow ha x).mpr hx
      have hlt : countBelow a.indices x < a.values.length :=
        a.consistent ▸ (List.getElem?_eq_some_iff.mp hk).1
      have hrow := List.getElem?_eq_getElem hlt
      have hin : (countBelow a.indices x + 1) * dims.prod ≤ a.dptr.length := by
        rw [RowSparse.dptr, length_dptr]
        exact Nat.mul_le_mul_right _ hlt
      rw [hrow, Option.map_some, RowSparse.inVals, hcols x hx, if_pos hin, RowSparse.dptr,
        take_drop_dptr hrow]
    · rfl

/-- One more row for an output row. -/
def accumulate (s : (Fin m → R) × Bool) (row : Fin m → R) : (Fin m → R) × Bool :=
  (if s.2 then row else s.1 + row, false)

/-- Row `i` of the buffer of the values. -/
def bufferRow (m i : ℕ) (valData : ℕ → R) (j : Fin m) : R := valData (i * m + j)

/-- Where a slice is a whole row, a row is added to an output row and to no other element. -/
theorem addVals_ofFn {nnr i : ℕ} (hcols : (flatTo2D (nnr :: dims)).2 = dims.prod) (hi : i < nnr)
    (s : (ℕ → R) × Bool) (row : Fin dims.prod → R) :
    ∃ v, addVals dims nnr i s (List.ofFn row) = some v ∧
      (bufferRow dims.prod i v.1, v.2) = accumulate (bufferRow dims.prod i s.1, s.2) row ∧
      ∀ p, (p < i * dims.prod ∨ (i + 1) * dims.prod ≤ p) → v.1 p = s.1 p := by
  refine ⟨_, by
    rw [addVals, hcols]
    exact if_pos ⟨List.length_ofFn, Nat.mul_le_mul_right _ hi⟩, Prod.ext (funext fun j => ?_) rfl,
    fun p hp => ?_⟩
  · have hj : (List.ofFn row)[i * dims.prod + j - i * dims.prod]? = some (row j) := by
      rw [Nat.add_sub_cancel_left]
      simp
    simp only [bufferRow, accumulate]
    rw [if_pos (Nat.le_add_right _ _), hj]
    cases s.2 <;> rfl
  · by_cases hle : i * dims.prod ≤ p
    · rw [Nat.add_mul, Nat.one_mul] at hp
      refine (if_pos hle).trans ?_
      rw [List.getElem?_eq_none (by rw [List.length_ofFn]; omega)]
      rfl
    · exact if_neg hle

theorem foldlM_addTaken {nnr i : ℕ} (hcols : (flatTo2D (nnr :: dims)).2 = dims.prod) (hi : i < nnr)
    (rows : List (Fin dims.prod → R)) (s : (ℕ → R) × Bool) :
    ∃ v, (rows.map fun row => some (List.ofFn row)).foldlM (addTaken dims nnr i) s = some v ∧
      (bufferRow dims.prod i v.1, v.2) =
        rows.foldl accumulate (bufferRow dims.prod i s.1, s.2) ∧
      ∀ p, (p < i * dims.prod ∨ (i + 1) * dims.prod ≤ p) → v.1 p = s.1 p := by
  induction rows generalizing s with
  | nil => exact ⟨s, rfl, rfl, fun _ _ => rfl⟩
  | cons row rows ih =>
    obtain ⟨s₁, hadd, hacc, hsame⟩ := addVals_ofFn hcols hi s row
    obtain ⟨v, hfold, hacc', hsame'⟩ := ih s₁
    refine ⟨v, ?_, ?_, fun p hp => (hsame' p hp).trans (hsame p hp)⟩
    · rw [List.map_cons, List.foldlM_cons, addTaken, Option.bind_some, hadd]
      exact hfold
    · rw [hacc', hacc, List.foldl_cons]

/-- A slice that could be added lies in the memory of the output, and nothing else is written. -/
theorem addTaken_some {nnr i : ℕ} {s v : (ℕ → R) × Bool} {row : Option (List R)}
    (h : addTaken dims nnr i s row = some v) :
    (i + 1) * (flatTo2D (nnr :: dims)).2 ≤ nnr * dims.prod ∧
      ∀ p, (i + 1) * (flatTo2D (nnr :: dims)).2 ≤ p → v.1 p = s.1 p := by
  obtain ⟨row, rfl, hadd⟩ := Option.bind_eq_some_iff.mp h
  unfold addVals at hadd
  obtain ⟨hok, hv⟩ := Option.ite_none_right_eq_some.mp hadd
  obtain rfl := Option.some.inj hv
  refine ⟨hok.2, fun p hp => ?_⟩
  dsimp only
  rw [Nat.add_mul, Nat.one_mul] at hp
  rw [if_pos (by omega), List.getElem?_eq_none (by omega)]
  rfl

theorem foldlM_addTaken_some {nnr i : ℕ} {rows : List (Option (List R))} {s v : (ℕ → R) × Bool}
    (h : rows.foldlM (addTaken dims nnr i) s = some v) :
    (rows ≠ [] → (i + 1) * (flatTo2D (nnr :: dims)).2 ≤ nnr * dims.prod) ∧
      ∀ p, (i + 1) * (flatTo2D (nnr :: dims)).2 ≤ p → v.1 p = s.1 p := by
  induction rows generalizing s with
  | nil =>
    obtain rfl := Option.some.inj h
    exact ⟨fun hne => absurd rfl hne, fun _ _ => rfl⟩
  | cons row rows ih =>
    rw [List.foldlM_cons] at h
    obtain ⟨s₁, hadd, hrest⟩ := Option.bind_eq_some_iff.mp h
    obtain ⟨hle, hsame⟩ := addTaken_some hadd
    exact ⟨fun _ => hle, fun p hp => ((ih hrest).2 p hp).trans (hsame p hp)⟩

/-- If the loop over the output rows ends, all slices of the output lie in its memory, and what is
behind them is as it was. -/
theorem foldlM_fillRow_some {ins : List (Option (RowSparse dims.prod R))} {nnr n : ℕ} {xs : List ℤ}
    (hxs : ∀ x ∈ xs, ∃ a ∈ ins, x ∈ gathered a) {v v' : ℕ → R}
    (h : (xs.zipIdx n).foldlM (fillRow dims nnr ins) v = some v') :
    (xs ≠ [] → (n + xs.length) * (flatTo2D (nnr :: dims)).2 ≤ nnr * dims.prod) ∧
      ∀ p, (n + xs.length) * (flatTo2D (nnr :: dims)).2 ≤ p → v' p = v p := by
  induction xs generalizing n v with
  | nil =>
    obtain rfl := Option.some.inj h
    exact ⟨fun hne => absurd rfl hne, fun _ _ => rfl⟩
  | cons x xs ih =>
    rw [List.zipIdx_cons, List.foldlM_cons] at h
    obtain ⟨v₁, hfill, hrest⟩ := Option.bind_eq_some_iff.mp h
    obtain ⟨w, hfold, rfl⟩ := Option.map_eq_some_iff.mp hfill
    have htaken : ins.filterMap (taken x) ≠ [] := by
      obtain ⟨a, ha, hx⟩ := hxs x (by simp)
      obtain ⟨row, hrow⟩ := Option.isSome_iff_exists.mp ((taken_isSome x a).mpr hx)
      exact List.ne_nil_of_mem (List.mem_filterMap.mpr ⟨a, ha, hrow⟩)
    obtain ⟨hle, hsame⟩ := foldlM_addTaken_some hfold
    obtain ⟨hle', hsame'⟩ := ih (fun y hy => hxs y (List.mem_cons_of_mem _ hy)) hrest
    rw [show n + (x :: xs).length = n + 1 + xs.length by simp; omega]
    refine ⟨fun _ => ?_, fun p hp => ?_⟩
    · rcases eq_or_ne xs [] with rfl | hne
      · exact hle htaken
      · exact hle' hne
    · rw [hsame' p hp, hsame p ((Nat.mul_le_mul_right _ (by omega)).trans hp)]

end Slices

section Sum
variable {R : Type} [AddCommMonoid R] {dims : List ℕ}

theorem foldl_accumulate_false (rows : List (Fin m → R)) (v : Fin m → R) :
    rows.foldl accumulate (v, false) = (v + rows.sum, false) := by
  induction rows generalizing v with
  | nil => simp
  | cons row rows ih => simp [accumulate, ih, add_assoc]

/-- The first row is copied, so that nothing is left of what the output held. -/
theorem foldl_accumulate {rows : List (Fin m → R)} (h : rows ≠ []) (v : Fin m → R) :
    rows.foldl accumulate (v, true) = (rows.sum, false) := by
  obtain ⟨row, rows, rfl⟩ := List.exists_cons_of_ne_nil h
  simp [accumulate, foldl_accumulate_false]

/-- An array is the sum of the inputs: it has the indices of all of them in order, each with the
sum of the rows that the inputs have for it. -/
structure IsSum (ins : List (Option (RowSparse m R))) (out : RowSparse m R) : Prop where
  increasing : out.indices.Pairwise (· < ·)
  mem_indices : ∀ x, x ∈ out.indices ↔ ∃ a ∈ ins, x ∈ a.elim [] RowSparse.indices
  values : ∀ (k : ℕ) (x : ℤ), out.indices[k]? = some x → out.values[k]? = some (rowsAt ins x).sum

theorem isSum_of_union {ins : List (Option (RowSparse m R))} {out : RowSparse m R}
    (hindices : out.indices = union ins)
    (hvalues : ∀ (k : ℕ) (x : ℤ), (union ins)[k]? = some x →
      out.values[k]? = some (rowsAt ins x).sum) : IsSum ins out where
  increasing := hindices ▸ (standing_union ins).increasing
  mem_indices x := by
    rw [hindices, mem_union]
    simp only [gathered_eq]
  values := by
    rw [hindices]
    exact hvalues

/-- Where a slice is a whole row, every output row is filled with its sum. -/
theorem foldlM_fillRow {ins : List (Option (RowSparse dims.prod R))} {nnr : ℕ}
    (hins : ∀ a ∈ ins, (gathered a).Pairwise (· < ·))
    (hcols : (flatTo2D (nnr :: dims)).2 = dims.prod)
    (hcolsIn : ∀ a ∈ ins, ∀ x ∈ gathered a,
      (flatTo2D ((gathered a).length :: dims)).2 = dims.prod) (xs : List ℤ)
    (hxs : ∀ x ∈ xs, ∃ a ∈ ins, x ∈ gathered a) (n : ℕ) (hn : n + xs.length ≤ nnr) (v : ℕ → R) :
    ∃ v', (xs.zipIdx n).foldlM (fillRow dims nnr ins) v = some v' ∧
      (∀ p < n * dims.prod, v' p = v p) ∧
      ∀ k x, xs[k]? = some x → bufferRow dims.prod (n + k) v' = (rowsAt ins x).sum := by
  induction xs generalizing n v with
  | nil => exact ⟨v, rfl, fun _ _ => rfl, by simp⟩
  | cons x xs ih =>
    rw [List.length_cons] at hn
    have htaken : ins.filterMap (taken x) =
        (rowsAt ins x).map fun row => some (List.ofFn row) := by
      rw [rowsAt, List.map_filterMap]
      exact List.filterMap_congr fun a ha => taken_eq (hins a ha) (hcolsIn a ha) x
    obtain ⟨w, hfold, hrow, hsame⟩ :=
      foldlM_addTaken hcols (show n < nnr by omega) (rowsAt ins x) (v, true)
    rw [foldl_accumulate (rowsAt_ne_nil (hxs x (by simp)))] at hrow
    obtain ⟨v', hrest, hlow, hnext⟩ :=
      ih (fun y hy => hxs y (List.mem_cons_of_mem _ hy)) (n + 1) (by omega) w.1
    refine ⟨v', ?_, fun p hp => ?_, fun k y hy => ?_⟩
    · rw [List.zipIdx_cons, List.foldlM_cons, fillRow, htaken, hfold]
      exact hrest
    · rw [hlow p (hp.trans_le (Nat.mul_le_mul_right _ (Nat.le_succ n))), hsame p (.inl hp)]
    · cases k with
      | zero =>
        obtain rfl : x = y := by simpa using hy
        refine Eq.trans (funext fun j => ?_) (congrArg Prod.fst hrow)
        refine hlow _ ?_
        rw [Nat.add_zero, Nat.add_mul n 1, Nat.one_mul]
        exact Nat.add_lt_add_left j.isLt _
      | succ k =>
        rw [Nat.add_comm k 1, ← Nat.add_assoc]
        exact hnext k y hy

/-- A slice of the last dimension is a whole row. In data of one dimension it is all rows, of
which there must not be two. Or there are no rows at all. -/
def SlicesAreRows (dims : List ℕ) (ins : List (Option (RowSparse dims.prod R))) : Prop :=
  (∀ a ∈ ins, gathered a = []) ∨ dims.getLast? = some dims.prod ∨
    dims = [] ∧ ∀ a ∈ ins, ∀ x ∈ gathered a, ∀ b ∈ ins, ∀ y ∈ gathered b, x = y

instance (dims : List ℕ) (ins : List (Option (RowSparse dims.prod R))) :
    Decidable (SlicesAreRows dims ins) :=
  inferInstanceAs (Decidable (_ ∨ _ ∨ _))

omit [AddCommMonoid R] in
theorem flatTo2D_cols (n : ℕ) (dims : List ℕ) :
    (flatTo2D (n :: dims)).2 = dims.getLast?.getD n := by
  cases dims with
  | nil => rfl
  | cons d dims => simp [flatTo2D, List.getLastD_eq_getLast?, List.getLast?_cons]

omit [AddCommMonoid R] in
/-- If a slice is a whole row in the output, it is so in every input that has rows. -/
theorem cols_of_union {ins : List (Option (RowSparse dims.prod R))}
    (hins : ∀ a ∈ ins, (gathered a).Pairwise (· < ·))
    (h : (flatTo2D ((union ins).length :: dims)).2 = dims.prod) {a : Option (RowSparse dims.prod R)}
    (ha : a ∈ ins) {x : ℤ} (hx : x ∈ gathered a) :
    (flatTo2D ((gathered a).length :: dims)).2 = dims.prod := by
  rw [flatTo2D_cols] at h ⊢
  cases hlast : dims.getLast? with
  | some d => rwa [hlast] at h
  | none =>
    obtain rfl : dims = [] := List.getLast?_eq_none_iff.mp hlast
    have hone : (union ins).length = 1 := h
    have hle : (gathered a).length ≤ (union ins).length :=
      (List.Nodup.subperm ((hins a ha).imp ne_of_lt) fun z hz => mem_union.mpr ⟨a, ha, hz⟩).length_le
    have hpos := List.length_pos_of_mem hx
    show (gathered a).length = 1
    omega

omit [AddCommMonoid R] in
/-- The condition says that a slice of the output is a whole row, or that there are no rows. -/
theorem slicesAreRows_iff (ins : List (Option (RowSparse dims.prod R))) :
    SlicesAreRows dims ins ↔
      union ins = [] ∨ (flatTo2D ((union ins).length :: dims)).2 = dims.prod := by
  have hnil : union ins = [] ↔ ∀ a ∈ ins, gathered a = [] := by
    simp only [List.eq_nil_iff_forall_not_mem, mem_union]
    exact ⟨fun h a ha x hx => h x ⟨a, ha, hx⟩, fun h x ⟨a, ha, hx⟩ => h a ha x hx⟩
  rw [SlicesAreRows, ← hnil, flatTo2D_cols]
  by_cases hempty : union ins = []
  · simp [hempty]
  · simp only [hempty, false_or]
    cases dims with
    | nil =>
      have hone : (union ins).length = 1 ↔
          ∀ a ∈ ins, ∀ x ∈ gathered a, ∀ b ∈ ins, ∀ y ∈ gathered b, x = y := by
        constructor
        · intro h a ha x hx b hb y hy
          obtain ⟨z, hz⟩ := List.length_eq_one_iff.mp h
          have hmem : ∀ w, w ∈ union ins → w = z := fun w hw => by
            rw [hz] at hw
            exact List.mem_singleton.mp hw
          exact (hmem x (mem_union.mpr ⟨a, ha, hx⟩)).trans
            (hmem y (mem_union.mpr ⟨b, hb, hy⟩)).symm
        · intro h
          obtain ⟨x, l, hxl⟩ := List.exists_cons_of_ne_nil hempty
          cases l with
          | nil => rw [hxl, List.length_singleton]
          | cons y l =>
            obtain ⟨a, ha, hx⟩ := mem_union.mp (show x ∈ union ins by rw [hxl]; simp)
            obtain ⟨b, hb, hy⟩ := mem_union.mp (show y ∈ union ins by rw [hxl]; simp)
            have hlt := (standing_union ins).increasing
            rw [hxl] at hlt
            exact absurd (h a ha x hx b hb y hy) (List.rel_of_pairwise_cons hlt (by simp)).ne
      simp only [List.getLast?_nil, Option.getD_none, List.prod_nil, reduceCtorEq, true_and,
        false_or]
      exact hone.symm
    | cons d dims => simp [List.getLast?_cons]

/-- For all buffers of the output, the serial sum is the sum if a slice is a whole row. -/
theorem exists_isSum {ins : List (Option (RowSparse dims.prod R))}
    (hins : ∀ a ∈ ins, (gathered a).Pairwise (· < ·)) (h : SlicesAreRows dims ins)
    (idxData : ℕ → ℤ) (valData : ℕ → R) :
    ∃ out, reduceSumCPUExSerial dims ins idxData valData = some out ∧ IsSum ins out := by
  obtain ⟨idxData', offsets, heq, hindices⟩ := reduceSumCPUExSerial_eq hins idxData
  have hfill : ∃ v', (union ins).zipIdx.foldlM (fillRow dims (union ins).length ins) valData =
      some v' ∧ ∀ k x, (union ins)[k]? = some x →
        bufferRow dims.prod k v' = (rowsAt ins x).sum := by
    rcases (slicesAreRows_iff ins).mp h with hnil | hcols
    · rw [hnil]
      exact ⟨valData, rfl, by simp⟩
    · obtain ⟨v', hfold, -, hrows⟩ := foldlM_fillRow hins hcols
        (fun a ha x hx => cols_of_union hins hcols ha hx) (union ins)
        (fun x hx => mem_union.mp hx) 0 (by omega) valData
      refine ⟨v', hfold, fun k x hk => ?_⟩
      rw [← hrows k x hk, Nat.zero_add]
  obtain ⟨v', hfold, hrows⟩ := hfill
  refine ⟨_, by rw [heq, hfold]; rfl, isSum_of_union hindices fun k x hk => ?_⟩
  show ((List.range _).map fun i => bufferRow dims.prod i v')[k]? = _
  rw [List.getElem?_map, List.getElem?_range (List.getElem?_eq_some_iff.mp hk).1,
    Option.map_some, hrows k x hk]

/-- `ReduceSumCPUExSerial` gives the sum whatever is in the buffers of the output, if and only if
a slice of the last dimension is a whole row. -/
theorem reduceSumCPUExSerial_isSum_iff [Nontrivial R]
    (ins : List (Option (RowSparse dims.prod R)))
    (hins : ∀ a ∈ ins, (a.elim [] RowSparse.indices).Pairwise (· < ·)) :
    (∀ (idxData : ℕ → ℤ) (valData : ℕ → R),
      ∃ out, reduceSumCPUExSerial dims ins idxData valData = some out ∧ IsSum ins out) ↔
    SlicesAreRows dims ins := by
  simp only [← gathered_eq] at hins
  refine ⟨fun h => ?_, fun h idxData valData => exists_isSum hins h idxData valData⟩
  rw [slicesAreRows_iff, or_iff_not_imp_left]
  intro hne
  set nnr := (union ins).length with hnnr
  have hpos : 0 < nnr := List.length_pos_of_ne_nil hne
  obtain ⟨idxData', offsets, heq, hindices⟩ := reduceSumCPUExSerial_eq hins fun _ => 0
  obtain ⟨x, hx⟩ : ∃ x, (union ins)[nnr - 1]? = some x :=
    ⟨_, List.getElem?_eq_getElem (show nnr - 1 < (union ins).length by omega)⟩
  -- the last element of the output is behind the slices unless they are whole rows
  have hlast : ∀ c : R, nnr * (flatTo2D (nnr :: dims)).2 ≤ nnr * dims.prod ∧
      ∀ j : Fin dims.prod, nnr * (flatTo2D (nnr :: dims)).2 ≤ (nnr - 1) * dims.prod + j →
        (rowsAt ins x).sum j = c := fun c => by
    obtain ⟨out, hout, hsum⟩ := h (fun _ => 0) fun _ => c
    rw [heq] at hout
    obtain ⟨v', hfold, rfl⟩ := Option.map_eq_some_iff.mp hout
    obtain ⟨hle, hsame⟩ := foldlM_fillRow_some (fun x hx => mem_union.mp hx) hfold
    rw [Nat.zero_add] at hle hsame
    have hrow : ((List.range nnr).map fun i => bufferRow dims.prod i v')[nnr - 1]? =
        some (rowsAt ins x).sum :=
      hsum.values (nnr - 1) x ((congrArg (fun l : List ℤ => l[nnr - 1]?) hindices).trans hx)
    rw [List.getElem?_map, List.getElem?_range (by omega), Option.map_some,
      Option.some.injEq] at hrow
    exact ⟨hle hne, fun j hj => (congrFun hrow j).symm.trans (hsame _ hj)⟩
  obtain ⟨c, c', hc⟩ := exists_pair_ne R
  have hle : (flatTo2D (nnr :: dims)).2 ≤ dims.prod :=
    Nat.le_of_mul_le_mul_left (hlast c).1 hpos
  by_contra hcols
  have hlt : (flatTo2D (nnr :: dims)).2 < dims.prod := lt_of_le_of_ne hle hcols
  have hbehind : nnr * (flatTo2D (nnr :: dims)).2 ≤ (nnr - 1) * dims.prod + (dims.prod - 1) := by
    calc nnr * (flatTo2D (nnr :: dims)).2 ≤ nnr * (dims.prod - 1) :=
          Nat.mul_le_mul_left _ (by omega)
      _ = (nnr - 1) * (dims.prod - 1) + (dims.prod - 1) := by
          conv_lhs => rw [← Nat.sub_add_cancel hpos, Nat.add_mul, Nat.one_mul]
      _ ≤ (nnr - 1) * dims.prod + (dims.prod - 1) :=
          Nat.add_le_add_right (Nat.mul_le_mul_left _ (by omega)) _
  have hj : dims.prod - 1 < dims.prod := by omega
  exact hc (((hlast c).2 ⟨_, hj⟩ hbehind).symm.trans ((hlast c').2 ⟨_, hj⟩ hbehind))

theorem reduceSumCPUExSerial_isSum_iff_matrix :
    ∃ out, reduceSumCPUExSerial [1, 2] [some ⟨[1, 3], [![1, 2], ![3, 4]], rfl⟩, none,
        some ⟨[3], [![10, 20]], rfl⟩] (fun _ => 7) (fun _ => (9 : ℤ)) = some out ∧
      IsSum [some ⟨[1, 3], [![1, 2], ![3, 4]], rfl⟩, none, some ⟨[3], [![10, 20]], rfl⟩] out :=
  (@reduceSumCPUExSerial_isSum_iff ℤ _ [1, 2] _ _ (by decide)).mpr (by decide) (fun _ => 7)
    fun _ => 9

/-- With one more dimension the second half of the row is what was there before. -/
theorem reduceSumCPUExSerial_stale :
    ∃ out : RowSparse 4 ℤ,
      reduceSumCPUExSerial [2, 2] [some ⟨[1], [![1, 2, 3, 4]], rfl⟩,
        some ⟨[1], [![10, 20, 30, 40]], rfl⟩] (fun _ => 0) (fun _ => 9) = some out ∧
      out.indices = [1] ∧ out.values = [![11, 22, 9, 9]] ∧
      ¬ IsSum [some ⟨[1], [![1, 2, 3, 4]], rfl⟩, some ⟨[1], [![10, 20, 30, 40]], rfl⟩] out := by
  have hsort : ([1, 1] : List ℤ).mergeSort (· ≤ ·) = [1, 1] :=
    List.mergeSort_of_pairwise (by decide)
  refine ⟨⟨[1], [![11, 22, 9, 9]], rfl⟩, ?_, rfl, rfl, fun h => ?_⟩
  · have hunion : unique (List.mergeSort (List.flatMap gathered
        [some (⟨[1], [![1, 2, 3, 4]], rfl⟩ : RowSparse 4 ℤ),
          some ⟨[1], [![10, 20, 30, 40]], rfl⟩]) (· ≤ ·)) = [1] := congrArg unique hsort
    rw [reduceSumCPUExSerial, if_neg (by decide)]
    erw [hunion]
    exact congrArg some (RowSparse.ext (by decide +kernel) (by decide +kernel))
  · exact absurd (h.values 0 1 rfl) (by decide)

end Sum

end RowSparseSum
end NetStorm

import NetStorm.GpuTopology
import NetStorm.Library.TreeSearch
import Mathlib.Algebra.Order.Ring.Int

/-!
# Two searches for a reduction tree

`RecursiveBacktrack` is what `IterativeBacktrack` was made from. Both go over the same leaves
in the same order, the one on the call stack and the other with a stack of its own, whose
bottom element stands for no position.
-/
namespace NetStorm
namespace GpuTopology
open TreeSearch

/-- A loop over positions. It ends early if its body says so. -/
def untilStop {σ : Type} (body : ℕ → σ → Option (σ × Bool)) : List ℕ → σ → Option (σ × Bool)
  | [], c => some (c, false)
  | j :: positions, c => do
    let (c, stop) ← body j c
    if stop then some (c, true) else untilStop body positions c

section Recursive
variable {T : Type} [Add T] [Sub T] [Mul T] [IntCast T] [LT T] [DecidableLT T] [DecidableEq T]

/-- `RecursiveBacktrack`, with fuel for the depth of its calls. The state and the best tree are
passed along, and the result is whether to stop. -/
def recursiveBacktrack (W : ℕ → ℕ → T) (n depth : ℕ) (optimal : Bool) :
    ℕ → ℕ → List (Option ℕ) × Option (T × List ℕ) →
      Option ((List (Option ℕ) × Option (T × List ℕ)) × Bool)
  | 0, _, _ => none
  | fuel + 1, row, c =>
    if row = c.1.length then do
      let best ← keepBest W depth ⟨c.1, [], row, 0, c.2⟩
      some ((c.1, best), !optimal)
    else if c.1.length < row then none
    else untilStop (fun j c => do
      let state := c.1.set row (some j)
      if isValid W state n (row + 1) depth then
        let (c, stop) ← recursiveBacktrack W n depth optimal fuel (row + 1) (state, c.2)
        some ((c.1.set row none, c.2), stop)
      else some ((state.set row none, c.2), false)) (List.range n) c

end Recursive

/-- The state with the GPUs of the first rows. -/
def placed (size : ℕ) (rows : List ℕ) : List (Option ℕ) :=
  rows.map some ++ List.replicate (size - rows.length) none

/-! ### The state -/

theorem length_placed {size : ℕ} {rows : List ℕ} (h : rows.length ≤ size) :
    (placed size rows).length = size := by
  rw [placed, List.length_append, List.length_map, List.length_replicate]
  omega

theorem placed_eq_cons {size : ℕ} {rows : List ℕ} (h : rows.length < size) :
    placed size rows = rows.map some ++ none :: List.replicate (size - rows.length - 1) none := by
  rw [placed, ← List.replicate_succ, Nat.sub_add_cancel (Nat.sub_pos_of_lt h)]

theorem placed_append (size : ℕ) (rows : List ℕ) (pos : ℕ) :
    placed size (rows ++ [pos]) =
      rows.map some ++ some pos :: List.replicate (size - rows.length - 1) none := by
  rw [placed, List.map_append, List.length_append, List.length_singleton, Nat.sub_add_eq,
    List.append_assoc]
  rfl

theorem set_placed {size : ℕ} {rows : List ℕ} (h : rows.length < size) (pos : ℕ) :
    (placed size rows).set rows.length (some pos) = placed size (rows ++ [pos]) := by
  rw [placed_eq_cons h, placed_append, List.set_append_right _ _ (by rw [List.length_map]),
    List.length_map, Nat.sub_self, List.set_cons_zero]

theorem unset_placed {size : ℕ} {rows : List ℕ} (h : rows.length < size) (pos : ℕ) :
    (placed size (rows ++ [pos])).set rows.length none = placed size rows := by
  rw [placed_eq_cons h, placed_append, List.set_append_right _ _ (by rw [List.length_map]),
    List.length_map, Nat.sub_self, List.set_cons_zero]

theorem filterMap_placed (size : ℕ) (rows : List ℕ) : (placed size rows).filterMap id = rows := by
  rw [placed, List.filterMap_append, List.filterMap_map]
  simp

theorem mapM_placed {size : ℕ} {leaf : List ℕ} (h : leaf.length = size) :
    (placed size leaf).mapM id = some leaf := by
  rw [placed, h, Nat.sub_self, List.replicate_zero, List.append_nil]
  induction leaf generalizing size with
  | nil => rfl
  | cons x leaf ih => simp [ih rfl]

section Search
variable {T : Type} [CommRing T] [LinearOrder T]
  {W : ℕ → ℕ → T} {n depth : ℕ} {optimal : Bool}

/-- Whether the first rows pass `IsValid`. -/
def accepts (W : ℕ → ℕ → T) (n depth : ℕ) (rows : List ℕ) : Bool :=
  isValid W (placed (2 ^ depth) rows) n rows.length depth

/-- The weight of the postprocessed tree of a leaf. -/
def treeWeight (W : ℕ → ℕ → T) (depth : ℕ) (leaf : List ℕ) : T :=
  computeTreeWeight W (postprocess leaf depth) depth true

/-- A full state that starts at the root. Every beginning of it passes `IsValid`. -/
def IsLeaf (W : ℕ → ℕ → T) (n depth root : ℕ) (leaf : List ℕ) : Prop :=
  leaf.length = 2 ^ depth ∧ leaf[0]? = some root ∧ ∀ row, 0 < row → row ≤ 2 ^ depth →
    isValid W (placed (2 ^ depth) (leaf.take row)) n row depth = true

/-- What is kept of a leaf. -/
def keepLeaf (W : ℕ → ℕ → T) (depth : ℕ) : Option (T × List ℕ) → List ℕ → Option (T × List ℕ) :=
  keepHeavier (treeWeight W depth) fun leaf => postprocess leaf depth

theorem keepBest_placed {leaf : List ℕ} (h : leaf.length = 2 ^ depth) (stack : List ℕ)
    (row pos : ℕ) (best : Option (T × List ℕ)) :
    keepBest W depth ⟨placed (2 ^ depth) leaf, stack, row, pos, best⟩ =
      some (keepLeaf W depth best leaf) := by
  rw [keepBest, mapM_placed h]
  rfl

theorem lt_of_accepts {rows : List ℕ} (h : accepts W n depth rows = true) :
    ∀ gpu ∈ rows, gpu < n := by
  rw [accepts, isValid, filterMap_placed, Bool.and_eq_true, Bool.and_eq_true] at h
  intro gpu hgpu
  exact of_decide_eq_true (List.all_eq_true.mp h.1.2 gpu (List.mem_dedup.mpr hgpu))

/-! ### The recursive search -/

theorem untilStop_sweep {σ α β : Type} {keep : β → α → β} {all : Bool}
    {body : ℕ → σ → Option (σ × Bool)} {below : ℕ → List α} {positions : List ℕ}
    (encode : β → σ) (hbody : ∀ j ∈ positions, ∀ best, body j (encode best) =
      some (encode (sweep keep all best (below j)).1, (sweep keep all best (below j)).2))
    (best : β) :
    untilStop body positions (encode best) =
      some (encode (sweep keep all best (positions.flatMap below)).1,
        (sweep keep all best (positions.flatMap below)).2) := by
  induction positions generalizing best with
  | nil => rfl
  | cons j positions ih =>
    have ih := ih fun i hi => hbody i (List.mem_cons_of_mem j hi)
    rw [untilStop, hbody j List.mem_cons_self, List.flatMap_cons, sweep_append]
    cases hstop : (sweep keep all best (below j)).2 with
    | true => simp [hstop]
    | false => simpa [hstop] using ih _

/-- The recursive search keeps what is to be kept of the leaves below its rows, and leaves the
state as it was. -/
theorem recursiveBacktrack_eq {remaining fuel : ℕ} {rows : List ℕ}
    (hsize : rows.length + remaining = 2 ^ depth) (hfuel : remaining < fuel)
    (best : Option (T × List ℕ)) :
    recursiveBacktrack W n depth optimal fuel rows.length (placed (2 ^ depth) rows, best) =
      some ((placed (2 ^ depth) rows, (sweep (keepLeaf W depth) optimal best
        (leaves (accepts W n depth) n remaining rows)).1),
        (sweep (keepLeaf W depth) optimal best
          (leaves (accepts W n depth) n remaining rows)).2) := by
  induction remaining generalizing rows fuel best with
  | zero =>
    obtain ⟨fuel, rfl⟩ := Nat.exists_eq_succ_of_ne_zero hfuel.ne'
    rw [recursiveBacktrack, if_pos (by rw [length_placed (by omega)]; omega),
      keepBest_placed (by omega)]
    cases optimal <;> rfl
  | succ remaining ih =>
    obtain ⟨fuel, rfl⟩ := Nat.exists_eq_succ_of_ne_zero (Nat.ne_zero_of_lt hfuel)
    have hlt : rows.length < 2 ^ depth := by omega
    have hlen : (placed (2 ^ depth) rows).length = 2 ^ depth := length_placed hlt.le
    rw [recursiveBacktrack, if_neg (by rw [hlen]; omega), if_neg (by rw [hlen]; omega), leaves_succ]
    refine untilStop_sweep (fun best => (placed (2 ^ depth) rows, best)) (fun j _ best => ?_) best
    have hchildSize : (rows ++ [j]).length + remaining = 2 ^ depth := by
      rw [List.length_append, List.length_singleton]
      omega
    have hchild := ih hchildSize (show remaining < fuel by omega) best
    rw [List.length_append, List.length_singleton] at hchild
    have haccepts : isValid W (placed (2 ^ depth) (rows ++ [j])) n (rows.length + 1) depth =
        accepts W n depth (rows ++ [j]) := by
      rw [accepts, List.length_append, List.length_singleton]
    simp only [set_placed hlt, haccepts, leavesBelow]
    split_ifs with h
    · simp [hchild, unset_placed hlt]
    · simp [sweep, unset_placed hlt]

/-! ### The iterative search -/

/-- The stack for the rows below the root. -/
def stackOf (rows : List ℕ) : List ℕ := rows.tail.reverse ++ [0]

theorem stackOf_ne_nil (rows : List ℕ) : stackOf rows ≠ [] := by simp [stackOf]

theorem stackOf_append {rows : List ℕ} (hne : rows ≠ []) (pos : ℕ) :
    stackOf (rows ++ [pos]) = pos :: stackOf rows := by
  obtain ⟨root, rest, rfl⟩ := List.exists_cons_of_ne_nil hne
  simp [stackOf]

theorem length_stackOf {rows : List ℕ} (hne : rows ≠ []) : (stackOf rows).length = rows.length := by
  obtain ⟨root, rest, rfl⟩ := List.exists_cons_of_ne_nil hne
  simp [stackOf]

/-- The variables when a position of the next row is to be tried. -/
def frame (size : ℕ) (rows : List ℕ) (pos : ℕ) (best : Option (T × List ℕ)) : SearchState T :=
  ⟨placed size rows, stackOf rows, rows.length, pos, best⟩

theorem unwind_of_lt {n row pos : ℕ} (hpos : pos < n) (state : List (Option ℕ)) (stack : List ℕ) :
    stack ≠ [] → unwind n state row pos stack = (state, row, pos, stack) := by
  intro hne
  obtain ⟨top, rest, rfl⟩ := List.exists_cons_of_ne_nil hne
  rw [unwind, if_neg (not_le.mpr hpos)]

/-- Going back one row leaves its position in the state. -/
theorem unwind_append {n size pos p : ℕ} (hpos : n ≤ pos) {rows : List ℕ} (hne : rows ≠ [])
    {state : List (Option ℕ)}
    (hstate : state.set (rows.length + 1) none = placed size (rows ++ [p])) :
    unwind n state (rows.length + 1) pos (stackOf (rows ++ [p])) =
      unwind n (placed size (rows ++ [p])) rows.length (p + 1) (stackOf rows) := by
  rw [stackOf_append hne, unwind, if_pos hpos, length_stackOf hne, hstate, Nat.add_sub_cancel]

/-- The loop goes on from where going back ends. -/
theorem iterativeBacktrack_congr {s s' : SearchState T} (hbest : s.best = s'.best)
    (hunwind : unwind n s.state s.row s.pos s.stack = unwind n s'.state s'.row s'.pos s'.stack)
    (fuel : ℕ) :
    iterativeBacktrack W n depth optimal fuel s = iterativeBacktrack W n depth optimal fuel s' := by
  cases fuel with
  | zero => rfl
  | succ fuel => rw [iterativeBacktrack, iterativeBacktrack, hunwind, hbest]

/-- What is left at the row of the search makes no difference. -/
theorem iterativeBacktrack_stale {fuel pos : ℕ} {rows : List ℕ} (hne : rows ≠ [])
    (hlt : rows.length < 2 ^ depth) {state : List (Option ℕ)}
    (hstate : state.set rows.length none = placed (2 ^ depth) rows) (best : Option (T × List ℕ)) :
    iterativeBacktrack W n depth optimal fuel ⟨state, stackOf rows, rows.length, pos, best⟩ =
      iterativeBacktrack W n depth optimal fuel (frame (2 ^ depth) rows pos best) := by
  have hplaced : (placed (2 ^ depth) rows).set rows.length none = placed (2 ^ depth) rows := by
    rw [← unset_placed hlt 0, List.set_set]
  rcases Nat.lt_or_ge pos n with hpos | hpos
  · have hlen : state.length = (placed (2 ^ depth) rows).length := by
      rw [← hstate, List.length_set]
    have hset : state.set rows.length (some pos) =
        (placed (2 ^ depth) rows).set rows.length (some pos) := by
      rw [← hstate, List.set_set]
    cases fuel with
    | zero => rfl
    | succ fuel =>
      simp only [iterativeBacktrack, frame, unwind_of_lt hpos _ _ (stackOf_ne_nil rows), hlen,
        tryPosition, hset]
  · apply iterativeBacktrack_congr
    · rfl
    obtain ⟨top, rest, hstack⟩ := List.exists_cons_of_ne_nil (stackOf_ne_nil rows)
    have hrest : rest.length + 1 = rows.length := by
      rw [← length_stackOf hne, hstack, List.length_cons]
    rw [frame, hstack, unwind, unwind, if_pos hpos, if_pos hpos, hrest, hstate, hplaced]

/-- After the last position of a row comes the next one of the row before. -/
theorem iterativeBacktrack_back {fuel p : ℕ} {rows : List ℕ} (hne : rows ≠ [])
    (hlt : rows.length + 1 < 2 ^ depth) (best : Option (T × List ℕ)) :
    iterativeBacktrack W n depth optimal fuel (frame (2 ^ depth) (rows ++ [p]) n best) =
      iterativeBacktrack W n depth optimal fuel (frame (2 ^ depth) rows (p + 1) best) := by
  have hplaced : (placed (2 ^ depth) (rows ++ [p])).set (rows.length + 1) none =
      placed (2 ^ depth) (rows ++ [p]) := by
    have hlen : (rows ++ [p]).length = rows.length + 1 := by simp
    rw [← hlen, ← unset_placed (by rw [hlen]; exact hlt) 0, List.set_set]
  have hunset := unset_placed (Nat.lt_of_succ_lt hlt) p
  rw [← iterativeBacktrack_stale hne (Nat.lt_of_succ_lt hlt) hunset]
  apply iterativeBacktrack_congr
  · rfl
  rw [frame, List.length_append, List.length_singleton]
  exact unwind_append le_rfl hne hplaced

/-- The search ends after the last position of the first row. -/
theorem iterativeBacktrack_end {fuel root : ℕ} (best : Option (T × List ℕ)) :
    iterativeBacktrack W n depth optimal (fuel + 1) (frame (2 ^ depth) [root] n best) =
      some best := by
  simp [iterativeBacktrack, frame, stackOf, unwind]

/-- One pass of the loop tries a position. -/
theorem iterativeBacktrack_try {fuel pos : ℕ} {rows : List ℕ} (hne : rows ≠ []) (hpos : pos < n)
    (hlt : rows.length < 2 ^ depth) (best : Option (T × List ℕ)) :
    iterativeBacktrack W n depth optimal (fuel + 1) (frame (2 ^ depth) rows pos best) =
      if accepts W n depth (rows ++ [pos]) then
        if rows.length + 1 = 2 ^ depth then
          if optimal then iterativeBacktrack W n depth optimal fuel
            (frame (2 ^ depth) rows (pos + 1) (keepLeaf W depth best (rows ++ [pos])))
          else some (keepLeaf W depth best (rows ++ [pos]))
        else iterativeBacktrack W n depth optimal fuel (frame (2 ^ depth) (rows ++ [pos]) 0 best)
      else iterativeBacktrack W n depth optimal fuel (frame (2 ^ depth) rows (pos + 1) best) := by
  have hlen : (placed (2 ^ depth) rows).length = 2 ^ depth := length_placed hlt.le
  have hchild : (rows ++ [pos]).length = rows.length + 1 := by simp
  have hlenChild : (placed (2 ^ depth) (rows ++ [pos])).length = 2 ^ depth :=
    length_placed (by rw [hchild]; exact hlt)
  have haccepts : isValid W (placed (2 ^ depth) (rows ++ [pos])) n (rows.length + 1) depth =
      accepts W n depth (rows ++ [pos]) := by
    rw [accepts, hchild]
  rw [iterativeBacktrack]
  simp only [frame, unwind_of_lt hpos _ _ (stackOf_ne_nil rows), if_neg (stackOf_ne_nil rows), hlen,
    if_neg (not_le.mpr hlt), tryPosition, set_placed hlt, haccepts]
  by_cases h : accepts W n depth (rows ++ [pos]) = true
  · by_cases hleaf : rows.length + 1 = 2 ^ depth
    · simp only [if_pos h, hlenChild, if_pos hleaf, keepBest_placed (hchild.trans hleaf),
        length_stackOf hne, Nat.add_sub_cancel, unset_placed hlt]
      rfl
    · simp only [if_pos h, hlenChild, if_neg hleaf, stackOf_append hne, hchild]
  · simp only [if_neg h, hlen, if_neg hlt.ne, unset_placed hlt]

/-- From one position to the next: what a pass keeps of the leaves below each position adds up. -/
theorem iterativeBacktrack_positions {rows : List ℕ} {below : ℕ → List (List ℕ)}
    (hbelow : ∀ pos < n, ∃ passes, ∀ fuel best,
      iterativeBacktrack W n depth optimal (fuel + passes) (frame (2 ^ depth) rows pos best) =
        if (sweep (keepLeaf W depth) optimal best (below pos)).2 then
          some (sweep (keepLeaf W depth) optimal best (below pos)).1
        else iterativeBacktrack W n depth optimal fuel (frame (2 ^ depth) rows (pos + 1)
          (sweep (keepLeaf W depth) optimal best (below pos)).1))
    {count pos : ℕ} (hcount : pos + count = n) :
    ∃ passes, ∀ fuel best,
      iterativeBacktrack W n depth optimal (fuel + passes) (frame (2 ^ depth) rows pos best) =
        let kept := sweep (keepLeaf W depth) optimal best ((List.range' pos count).flatMap below)
        if kept.2 then some kept.1
        else iterativeBacktrack W n depth optimal fuel (frame (2 ^ depth) rows n kept.1) := by
  induction count generalizing pos with
  | zero =>
    obtain rfl : pos = n := hcount
    exact ⟨0, fun fuel best => rfl⟩
  | succ count ih =>
    obtain ⟨first, hfirst⟩ := hbelow pos (by omega)
    obtain ⟨rest, hrest⟩ := ih (show pos + 1 + count = n by omega)
    refine ⟨rest + first, fun fuel best => ?_⟩
    rw [← Nat.add_assoc, hfirst, hrest, List.range'_succ, List.flatMap_cons, sweep_append]
    cases hstop : (sweep (keepLeaf W depth) optimal best (below pos)).2 with
    | true => simp [hstop]
    | false => simp

variable (W n optimal) in
/-- The iterative search keeps what is to be kept of the leaves below its rows, and goes on
behind them unless it stops. -/
theorem iterativeBacktrack_frame {remaining : ℕ} {rows : List ℕ} (hne : rows ≠ [])
    (hsize : rows.length + (remaining + 1) = 2 ^ depth) :
    ∃ passes, ∀ fuel best,
      iterativeBacktrack W n depth optimal (fuel + passes) (frame (2 ^ depth) rows 0 best) =
        let kept := sweep (keepLeaf W depth) optimal best
          (leaves (accepts W n depth) n (remaining + 1) rows)
        if kept.2 then some kept.1
        else iterativeBacktrack W n depth optimal fuel (frame (2 ^ depth) rows n kept.1) := by
  induction remaining generalizing rows with
  | zero =>
    rw [leaves_succ, List.range_eq_range']
    refine iterativeBacktrack_positions (fun pos hpos => ⟨1, fun fuel best => ?_⟩) (Nat.zero_add n)
    have hleaf : rows.length + 1 = 2 ^ depth := by omega
    rw [iterativeBacktrack_try hne hpos (by omega), leavesBelow]
    by_cases h : accepts W n depth (rows ++ [pos]) = true
    · rw [if_pos h, if_pos h, if_pos hleaf]
      cases optimal <;> rfl
    · rw [if_neg h, if_neg h]
      rfl
  | succ remaining ih =>
    rw [leaves_succ, List.range_eq_range']
    refine iterativeBacktrack_positions (fun pos hpos => ?_) (Nat.zero_add n)
    have hlt : rows.length + 1 < 2 ^ depth := by omega
    have hchildSize : (rows ++ [pos]).length + (remaining + 1) = 2 ^ depth := by
      rw [List.length_append, List.length_singleton]
      omega
    obtain ⟨passes, hpasses⟩ := ih (List.append_ne_nil_of_left_ne_nil hne [pos]) hchildSize
    by_cases h : accepts W n depth (rows ++ [pos]) = true
    · refine ⟨passes + 1, fun fuel best => ?_⟩
      rw [← Nat.add_assoc, iterativeBacktrack_try hne hpos (by omega), if_pos h,
        if_neg hlt.ne, hpasses, leavesBelow, if_pos h]
      simp only [iterativeBacktrack_back hne hlt]
    · refine ⟨1, fun fuel best => ?_⟩
      rw [iterativeBacktrack_try hne hpos (by omega), if_neg h, leavesBelow, if_neg h]
      rfl

/-! ### The leaves -/

theorem steps_of_le {start stop step : ℕ} (hstep : 0 < step) (h : stop ≤ start) :
    steps start stop step = [] := by
  rw [steps, Nat.sub_eq_zero_of_le h, Nat.zero_add, Nat.div_eq_of_lt (Nat.sub_lt hstep Nat.one_pos)]
  rfl

/-- `ComputeDepth` gives a tree with a leaf for every GPU. -/
theorem le_two_pow_computeDepth (h : computeDepth n ≠ 0) : n ≤ 2 ^ computeDepth n := by
  rw [computeDepth] at h ⊢
  cases hfind : (List.range 16).find? fun depth => decide (n ≤ 2 * 2 ^ depth) with
  | none => simp [hfind] at h
  | some depth =>
    have hle := List.find?_some hfind
    rw [Option.elim_some, Nat.pow_succ, Nat.mul_comm]
    exact of_decide_eq_true hle

/-- The root alone passes `IsValid`. -/
theorem accepts_root {root : ℕ} (hroot : root < n) (hn : n ≤ 2 ^ depth) (hdepth : depth ≠ 0) :
    accepts W n depth [root] = true := by
  have hsize : 2 ≤ 2 ^ depth := Nat.le_self_pow hdepth 2
  have hlinked : linked W (placed (2 ^ depth) [root]) 1 depth = true := by
    rw [linked, List.all_eq_true]
    intro i _
    have hstride : 1 ≤ 2 ^ i := Nat.one_le_two_pow
    rw [steps_of_le (by omega) (Nat.sub_eq_zero_of_le hstride).le]
    rfl
  have hlen : (placed (2 ^ depth) [root]).length = 2 ^ depth := length_placed (by simp; omega)
  have hdedup : [root].dedup = [root] := List.dedup_eq_self.mpr (List.nodup_singleton root)
  have hmodifier : ¬ (([root].length : ℤ) < (1 : ℕ) - (2 ^ depth - n)) := by
    have hcast : (n : ℤ) ≤ 2 ^ depth := by exact_mod_cast hn
    push_cast [List.length_singleton]
    omega
  rw [accepts, isValid, List.length_singleton, hlinked, filterMap_placed, hlen, hdedup]
  rw [if_neg (show ¬ 1 = 2 ^ depth by omega), decide_eq_false hmodifier]
  simp [hroot]

theorem mem_leaves_iff_isLeaf {root : ℕ} (hn : n ≤ 2 ^ depth) (hdepth : depth ≠ 0) {leaf : List ℕ} :
    leaf ∈ leaves (accepts W n depth) n (2 ^ depth - 1) [root] ↔ IsLeaf W n depth root leaf := by
  have hsize : 2 ≤ 2 ^ depth := Nat.le_self_pow hdepth 2
  have hlt : ∀ node pos, accepts W n depth (node ++ [pos]) = true → pos < n := fun node pos h =>
    lt_of_accepts h pos (List.mem_append_right node List.mem_cons_self)
  have hstarts : [root] <+: leaf ↔ leaf[0]? = some root := by
    cases leaf <;> simp [eq_comm]
  have haccepts : ∀ row ≤ leaf.length, accepts W n depth (leaf.take row) =
      isValid W (placed (2 ^ depth) (leaf.take row)) n row depth := by
    intro row hrow
    rw [accepts, List.length_take_of_le hrow]
  rw [mem_leaves_iff hlt, hstarts, IsLeaf, List.length_singleton]
  constructor
  · rintro ⟨hroot, hlen, hrows⟩
    have hlen : leaf.length = 2 ^ depth := by omega
    refine ⟨hlen, hroot, fun row hpos hrow => ?_⟩
    rw [← haccepts row (by omega)]
    rcases Nat.lt_or_ge 1 row with hrow' | hrow'
    · exact hrows row hrow' (by omega)
    · obtain rfl : row = 1 := by omega
      obtain ⟨rest, rfl⟩ := hstarts.mpr hroot
      have htwo := hrows 2 Nat.one_lt_two (by omega)
      exact accepts_root (lt_of_accepts htwo root (by simp)) hn hdepth
  · rintro ⟨hlen, hroot, hrows⟩
    refine ⟨hroot, by omega, fun row hpos hrow => ?_⟩
    rw [haccepts row hrow]
    exact hrows row (by omega) (by omega)

/-! ### From the root -/

/-- The state with nothing but the root. -/
def startState (depth root : ℕ) : List (Option ℕ) :=
  (List.replicate (2 ^ depth) none).set 0 (some root)

theorem startState_eq (depth root : ℕ) : startState depth root = placed (2 ^ depth) [root] := by
  have hlt : ([] : List ℕ).length < 2 ^ depth := Nat.two_pow_pos depth
  exact set_placed hlt root

/-- What a search from the root keeps, and whether it stopped. -/
def searched (W : ℕ → ℕ → T) (n depth root : ℕ) (optimal : Bool) (best : Option (T × List ℕ)) :
    Option (T × List ℕ) × Bool :=
  sweep (keepLeaf W depth) optimal best (leaves (accepts W n depth) n (2 ^ depth - 1) [root])

/-- The iterative search ends. -/
theorem iterativeBacktrack_start (root : ℕ) (hdepth : depth ≠ 0) (best : Option (T × List ℕ)) :
    ∃ bound, ∀ fuel ≥ bound,
      iterativeBacktrack W n depth optimal fuel ⟨startState depth root, [0], 1, 0, best⟩ =
        some (searched W n depth root optimal best).1 := by
  have hsize : 2 ≤ 2 ^ depth := Nat.le_self_pow hdepth 2
  obtain ⟨remaining, hremaining⟩ : ∃ remaining, 2 ^ depth = 1 + (remaining + 1) :=
    ⟨2 ^ depth - 2, by omega⟩
  have hrows : [root].length + (remaining + 1) = 2 ^ depth := hremaining.symm
  have hlevels : 2 ^ depth - 1 = remaining + 1 := by omega
  obtain ⟨passes, hpasses⟩ := iterativeBacktrack_frame W n optimal (List.cons_ne_nil root []) hrows
  refine ⟨passes + 1, fun fuel hfuel => ?_⟩
  obtain ⟨extra, rfl⟩ := Nat.exists_eq_add_of_le' hfuel
  have hrun := hpasses (extra + 1) best
  simp only [iterativeBacktrack_end, ite_self] at hrun
  rw [startState_eq, searched, hlevels, ← hrun, Nat.add_assoc extra 1, Nat.add_comm 1]
  rfl

/-- The recursive search ends. -/
theorem recursiveBacktrack_start {fuel : ℕ} (root : ℕ) (hfuel : 2 ^ depth ≤ fuel)
    (best : Option (T × List ℕ)) :
    recursiveBacktrack W n depth optimal fuel 1 (startState depth root, best) =
      some ((startState depth root, (searched W n depth root optimal best).1),
        (searched W n depth root optimal best).2) := by
  have hpos := Nat.two_pow_pos depth
  have hrows : [root].length + (2 ^ depth - 1) = 2 ^ depth := Nat.add_sub_cancel' hpos
  rw [startState_eq]
  exact recursiveBacktrack_eq hrows (by omega) best

theorem searched_chosen {root : ℕ} (hn : n ≤ 2 ^ depth) (hdepth : depth ≠ 0)
    {best : Option (T × List ℕ)}
    (hbest : ∀ b ∈ best, ∀ leaf, IsLeaf W n depth root leaf → b.1 < treeWeight W depth leaf) :
    Chosen (treeWeight W depth) (fun leaf => postprocess leaf depth) optimal
      (IsLeaf W n depth root) best (searched W n depth root optimal best).1 := by
  have hleaves : (· ∈ leaves (accepts W n depth) n (2 ^ depth - 1) [root]) =
      IsLeaf W n depth root :=
    funext fun leaf => propext (mem_leaves_iff_isLeaf hn hdepth)
  rw [← hleaves] at hbest ⊢
  exact sweep_chosen (leaves_pairwise _ _) hbest optimal

/-- The iterative search ends, with what the recursive one finds: of all leaves the
lexicographically first one of maximal weight, or the lexicographically first one. -/
theorem iterativeBacktrack_eq_recursiveBacktrack (W : ℕ → ℕ → T) (n root : ℕ) (optimal : Bool)
    (best : Option (T × List ℕ)) (hdepth : computeDepth n ≠ 0)
    (hbest : ∀ b ∈ best, ∀ leaf, IsLeaf W n (computeDepth n) root leaf →
      b.1 < treeWeight W (computeDepth n) leaf) :
    ∃ result,
      (∃ bound, ∀ fuel ≥ bound, iterativeBacktrack W n (computeDepth n) optimal fuel
        ⟨startState (computeDepth n) root, [0], 1, 0, best⟩ = some result) ∧
      (∃ stop, ∀ fuel ≥ 2 ^ computeDepth n, recursiveBacktrack W n (computeDepth n) optimal fuel 1
        (startState (computeDepth n) root, best) =
          some ((startState (computeDepth n) root, result), stop)) ∧
      Chosen (treeWeight W (computeDepth n)) (fun leaf => postprocess leaf (computeDepth n)) optimal
        (IsLeaf W n (computeDepth n) root) best result :=
  ⟨_, iterativeBacktrack_start root hdepth best,
    ⟨_, fun _ hfuel => recursiveBacktrack_start root hfuel best⟩,
    searched_chosen (le_two_pow_computeDepth hdepth) hdepth hbest⟩

end Search

/-- Four GPUs. All but `0` and `3` have a link, and `0` and `2`, `1` and `3` have two. -/
def quadLinks (a b : ℕ) : ℤ :=
  match min a b, max a b with
  | 0, 1 | 1, 2 | 2, 3 => 1
  | 0, 2 | 1, 3 => 2
  | _, _ => 0

theorem isLeaf_quadLinks (leaf : List ℕ) :
    IsLeaf quadLinks 4 (computeDepth 4) 0 leaf ↔ leaf = [0, 1, 2, 3] ∨ leaf = [0, 2, 1, 3] := by
  have hleaves : leaves (accepts quadLinks 4 (computeDepth 4)) 4 (2 ^ computeDepth 4 - 1) [0] =
      [[0, 1, 2, 3], [0, 2, 1, 3]] := by
    decide
  rw [← mem_leaves_iff_isLeaf (by decide) (by decide), hleaves]
  simp

/-- Both searches for the best tree find the second of the two leaves, the heavier one. -/
theorem iterativeBacktrack_eq_recursiveBacktrack_quad :
    (∃ bound, ∀ fuel ≥ bound, iterativeBacktrack quadLinks 4 (computeDepth 4) true fuel
        ⟨startState (computeDepth 4) 0, [0], 1, 0, some (-1, [])⟩ =
          some (some (5, [0, 2, 1, 3]))) ∧
      ∃ stop, ∀ fuel ≥ 4, recursiveBacktrack quadLinks 4 (computeDepth 4) true fuel 1
        (startState (computeDepth 4) 0, some (-1, [])) =
          some ((startState (computeDepth 4) 0, some (5, [0, 2, 1, 3])), stop) := by
  have hbest : ∀ b ∈ some ((-1 : ℤ), ([] : List ℕ)), ∀ leaf,
      IsLeaf quadLinks 4 (computeDepth 4) 0 leaf →
        b.1 < treeWeight quadLinks (computeDepth 4) leaf := by
    intro b hb leaf hleaf
    obtain rfl := Option.mem_some.mp hb
    rcases (isLeaf_quadLinks leaf).mp hleaf with rfl | rfl <;> decide
  obtain ⟨result, hiterative, hrecursive, hchosen⟩ := iterativeBacktrack_eq_recursiveBacktrack
    quadLinks 4 0 true (some (-1, [])) (by decide) hbest
  have hheavy := (isLeaf_quadLinks [0, 2, 1, 3]).mpr (.inr rfl)
  rcases hchosen with ⟨hnone, -⟩ | ⟨leaf, hleaf, hresult, hmax⟩
  · exact absurd hheavy (hnone _)
  · rcases (isLeaf_quadLinks leaf).mp hleaf with rfl | rfl
    · exact absurd (hmax _ hheavy).1 (by decide)
    · rw [hresult] at hiterative hrecursive
      exact ⟨hiterative, hrecursive⟩

end GpuTopology
end NetStorm

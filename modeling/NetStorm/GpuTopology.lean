import Mathlib.Algebra.Ring.Int.Defs
import Mathlib.Algebra.Ring.Nat
import Mathlib.Data.List.Basic
import Mathlib.Data.List.Dedup
import Mathlib.Data.Int.Notation
import Mathlib.Data.Nat.Notation
import Mathlib.Logic.Function.Basic

/-!
# Reduction trees by backtracking

A balanced binary tree over the GPUs is the list of its leaves; the GPU of an inner node is
that of its left child. The search fills the leaves from left to right, with links of the
network between children, and takes the tree of maximal weight. A GPU may be there several
times, which stands for nothing to send. Weights are of any type with the operations that the
template uses; every weight is above the initial one of the search.
-/
namespace NetStorm
namespace GpuTopology

/-- The indices of a loop from `start` below `stop` with steps of `step`. -/
def steps (start stop step : ℕ) : List ℕ :=
  (List.range ((stop - start + step - 1) / step)).map fun k => start + step * k

/-- `ComputeDepth`. -/
def computeDepth (n : ℕ) : ℕ :=
  ((List.range 16).find? fun depth => n ≤ 2 * 2 ^ depth).elim 0 fun depth => depth + 1

variable {T : Type} [Add T] [Sub T] [Mul T] [IntCast T] [LT T] [DecidableLT T] [DecidableEq T]

/-- Whether there is a link for every edge of the tree among the first `row` leaves, which are
placed. -/
def linked (W : ℕ → ℕ → T) (state : List (Option ℕ)) (row depth : ℕ) : Bool :=
  (List.range depth).all fun i =>
    (steps 0 (row - 2 ^ i) (2 * 2 ^ i)).all fun j =>
      match state[j]?.join, state[j + 2 ^ i]?.join with
      | some sender, some dest => !(W sender dest == ((0 : ℤ) : T) && sender != dest)
      | _, _ => false

/-- `IsValid`. -/
def isValid (W : ℕ → ℕ → T) (state : List (Option ℕ)) (n row depth : ℕ) : Bool :=
  let found := (state.filterMap id).dedup
  let modifier : ℤ := 2 ^ depth - n
  linked W state row depth && found.all (fun val => val < n) &&
    (if row < n then !(row < found.length || ((found.length : ℤ) < row - modifier))
    else if row = state.length then (List.range n).all fun i => i ∈ found
    else true)

/-- The values at the indices of a loop. -/
def valuesAt (result : List ℕ) (indices : List ℕ) : List ℕ := indices.map fun i => result.getD i 0

/-- A level of `Postprocess`: from the right, a send by a GPU that is there more than once, or
in the level above, becomes a send of the destination to itself. -/
def postprocessLevel (result : List ℕ) (stride : ℕ) : List ℕ :=
  let above := valuesAt result (steps 0 result.length (2 * stride))
  let histogram : ℕ → ℤ := fun val => (valuesAt result (steps 0 result.length stride)).count val
  ((steps stride result.length (2 * stride)).reverse.foldl (fun (c : List ℕ × (ℕ → ℤ)) i =>
    let sender := c.1.getD i 0
    let dest := c.1.getD (i - stride) 0
    if (1 < c.2 sender ∨ sender ∈ above) ∧ sender ≠ dest then
      (c.1.set i dest, Function.update c.2 sender (c.2 sender - 1))
    else c) (result, histogram)).1

/-- `Postprocess`. -/
def postprocess (result : List ℕ) (depth : ℕ) : List ℕ :=
  (List.range depth).reverse.foldl (fun result level => postprocessLevel result (2 ^ level)) result

/-- The variables of `ComputeTreeWeight`, with the sets as lists. -/
structure WeightState (T : Type) where
  weight : T
  linksUsed : List (ℕ × ℕ)
  nodesUsed : List ℕ

/-- An edge in `ComputeTreeWeight`, on level `i` from the leaves. -/
def weighEdge (W : ℕ → ℕ → T) (penalty : Bool) (i : ℕ) (c : WeightState T) (edge : ℕ × ℕ) :
    WeightState T :=
  let c := if edge.1 = edge.2 then c else
    { c with
      weight := if c.linksUsed.contains edge ∧ penalty then
          c.weight + W edge.1 edge.2 - ((100 : ℤ) : T)
        else c.weight + W edge.1 edge.2
      linksUsed := edge :: (edge.2, edge.1) :: c.linksUsed }
  let nodesUsed := edge.1 :: c.nodesUsed
  { c with
    weight := if 0 < i ∧ edge.2 ∈ nodesUsed ∧ penalty then c.weight - ((10 : ℤ) : T) else c.weight
    nodesUsed := edge.2 :: nodesUsed }

/-- `ComputeTreeWeight`. -/
def computeTreeWeight (W : ℕ → ℕ → T) (result : List ℕ) (depth : ℕ) (penalty : Bool) : T :=
  ((List.range depth).foldl (fun (c : WeightState T) i =>
    ((steps 0 (result.length - 2 ^ i) (2 * 2 ^ i)).map fun j =>
      (result.getD j 0, result.getD (j + 2 ^ i) 0)).foldl (weighEdge W penalty i)
        { c with nodesUsed := [] }) ⟨((0 : ℤ) : T), [], []⟩).weight

/-- A level in `FormTopology`. -/
def formLevel (result : List ℕ) (depth : ℕ) (c : List ℕ × List ℕ) (i : ℕ) : List ℕ × List ℕ :=
  let topo := c.1 ++ valuesAt result (steps 0 result.length (2 ^ (depth - i)))
  (topo, c.2 ++ [topo.length])

/-- `FormTopology` for a result whose values are all set. -/
def formTopology (result : List ℕ) (depth : ℕ) : List ℕ × List ℕ :=
  let c := (List.range depth).foldl (formLevel result depth) ([], [0])
  (c.1 ++ result, c.2 ++ [(c.1 ++ result).length])

/-- The variables of `IterativeBacktrack`. -/
structure SearchState (T : Type) where
  state : List (Option ℕ)
  stack : List ℕ
  row : ℕ
  pos : ℕ
  best : Option (T × List ℕ)

/-- The inner loop of `IterativeBacktrack`: back to the last row with a position to try. -/
def unwind (n : ℕ) (state : List (Option ℕ)) (row pos : ℕ) :
    List ℕ → List (Option ℕ) × ℕ × ℕ × List ℕ
  | [] => (state, row, pos, [])
  | top :: stack =>
    if n ≤ pos then unwind n (state.set (stack.length + 1) none) (row - 1) (top + 1) stack
    else (state, row, pos, top :: stack)

/-- Tries the position of a search in its row. -/
def tryPosition (W : ℕ → ℕ → T) (n depth : ℕ) (s : SearchState T) : SearchState T :=
  let state := s.state.set s.row (some s.pos)
  if isValid W state n (s.row + 1) depth then
    { s with state := state, stack := s.pos :: s.stack, pos := 0, row := s.row + 1 }
  else { s with state := state.set s.row none, pos := s.pos + 1 }

/-- Keeps the tree of a full state if its weight is the highest so far. -/
def keepBest (W : ℕ → ℕ → T) (depth : ℕ) (s : SearchState T) : Option (Option (T × List ℕ)) := do
  let result ← s.state.mapM id
  let result := postprocess result depth
  let weight := computeTreeWeight W result depth true
  some (if s.best.all fun best => best.1 < weight then some (weight, result) else s.best)

/-- `IterativeBacktrack`, with fuel for its loop. -/
def iterativeBacktrack (W : ℕ → ℕ → T) (n depth : ℕ) (optimal : Bool) :
    ℕ → SearchState T → Option (Option (T × List ℕ))
  | 0, _ => none
  | fuel + 1, s =>
    let (state, row, pos, stack) := unwind n s.state s.row s.pos s.stack
    if stack = [] then some s.best
    else if state.length ≤ row then none
    else
      let s := tryPosition W n depth { s with state := state, row := row, pos := pos, stack := stack }
      if s.row = s.state.length then do
        let best ← keepBest W depth s
        if optimal then
          match s.stack with
          | [] => none
          | top :: stack =>
            iterativeBacktrack W n depth optimal fuel
              ⟨s.state.set stack.length none, stack, s.row - 1, top + 1, best⟩
        else some best
      else iterativeBacktrack W n depth optimal fuel s

/-- `BacktrackGenerateBinaryTree`. Without a tree the result is full of `-1`, which
`FormTopology` refuses. -/
def backtrackGenerateBinaryTree (fuel : ℕ) (W : ℕ → ℕ → T) (n root : ℕ) :
    Option (List ℕ × List ℕ) := do
  let depth := computeDepth n
  let state := (List.replicate (2 ^ depth) none).set 0 (some root)
  let best ← iterativeBacktrack W n depth (decide (depth ≤ 3)) fuel ⟨state, [0], 1, 0, none⟩
  let (_, result) ← best
  some (formTopology result depth)

end GpuTopology
end NetStorm

import NetStorm.GpuTopology
import NetStorm.Library.OptionSpec
import Mathlib.Algebra.BigOperators.Group.List.Basic
import Mathlib.Algebra.Module.NatInt

/-!
# Reduction along a tree

`ReduceInner` goes over the levels of the tree from the leaves to the root. In a level the nodes
are pairs; the second of a pair sends its buffer into the copy buffer of the first, unless both
are the same GPU, and then every first one adds up its own buffer and its copy buffer. The
`i`th input is on the `i`th device. An index that is out of range is where there is no result.
-/
namespace NetStorm
namespace CommTree

variable {M : Type}

/-- The `merged` and `copy_buf` of every GPU, at the row of the reduction. There is one copy
buffer, since a node has two children. -/
structure TreeBuffers (M : Type) where
  merged : ℕ → M
  copyBuf : ℕ → M

/-- The arrays that `reduce` of a GPU refers to. -/
inductive Slot
  | merged
  | copyBuf
deriving DecidableEq

/-- The value of an array now. -/
def TreeBuffers.value (bufs : TreeBuffers M) (gpu : ℕ) : Slot → M
  | .merged => bufs.merged gpu
  | .copyBuf => bufs.copyBuf gpu

/-- `kBranch`. -/
def kBranch : ℕ := 2

/-- The variables of the loop over the nodes of a level. -/
structure LevelCopy (M : Type) where
  isDest : ℕ
  destId : ℕ
  bufs : TreeBuffers M
  reduce : ℕ → List Slot

/-- A node of the level: it is a destination, or it sends. -/
def copyStep (n : ℕ) (s : LevelCopy M) (topoId : ℕ) : Option (LevelCopy M) :=
  let destId := if s.isDest = 0 then topoId else s.destId
  let isDest := if s.isDest = kBranch - 1 then 0 else s.isDest + 1
  if n ≤ topoId ∨ n ≤ destId then none
  else if s.isDest = 0 then
    some { s with
      isDest := isDest
      destId := destId
      reduce := if (s.reduce destId).length = 0 then Function.update s.reduce destId [.merged]
        else s.reduce }
  else if destId = topoId then some { s with isDest := isDest, destId := destId }
  else
    some {
      isDest := isDest
      destId := destId
      bufs := { s.bufs with
        copyBuf := Function.update s.bufs.copyBuf destId (s.bufs.merged topoId) }
      reduce := Function.update s.reduce destId (s.reduce destId ++ [.copyBuf]) }

/-- The nodes of a level of the tree. -/
def levelIds (topology scan : List ℕ) (level : ℕ) : Option (List ℕ) := do
  let start ← scan[level]?
  let stop ← scan[level + 1]?
  if topology.length < stop then none else some ((topology.drop start).take (stop - start))

variable [AddCommMonoid M]

/-- `ElementwiseSum` at a parent, if it has something to add. The second component is the
position of its children. -/
def sumStep (n : ℕ) (topology : List ℕ) (reduce : ℕ → List Slot) (c : TreeBuffers M × ℕ)
    (gpuId : ℕ) : Option (TreeBuffers M × ℕ) := do
  let destId ← topology[c.2]?
  let fromId ← topology[c.2 + 1]?
  if n ≤ gpuId then none
  else if 1 < (reduce gpuId).length ∧ destId ≠ fromId then
    some ({ c.1 with
      merged := Function.update c.1.merged gpuId ((reduce gpuId).map (c.1.value gpuId)).sum },
      c.2 + 2)
  else some (c.1, c.2 + 2)

/-- A level of `ReduceInner`. -/
def reduceLevel (n : ℕ) (topology scan : List ℕ) (bufs : TreeBuffers M) (level : ℕ) :
    Option (TreeBuffers M) := do
  let ids ← levelIds topology scan level
  let s ← ids.foldlM (copyStep n) ⟨0, 0, bufs, fun _ => []⟩
  let parents ← levelIds topology scan (level - 1)
  let source ← scan[level]?
  let c ← parents.foldlM (sumStep n topology s.reduce) (s.bufs, source)
  some c.1

/-- Copies the input of a device to the leaves of its GPU. -/
def copyInput (n : ℕ) (leaves : List ℕ) (src : ℕ → M) (bufs : TreeBuffers M) (i : ℕ) :
    Option (TreeBuffers M) :=
  leaves.foldlM (fun bufs topoId =>
    if n ≤ topoId then none
    else if topoId = i then
      some { bufs with merged := Function.update bufs.merged topoId (src i) }
    else some bufs) bufs

/-- `ReduceInner`, with the buffer that it returns. -/
def reduceInner (n : ℕ) (topology scan : List ℕ) (src : ℕ → M) (bufs : TreeBuffers M) :
    Option M := do
  let depth := GpuTopology.computeDepth n
  let leaves ← levelIds topology scan depth
  let bufs ← (List.range n).foldlM (copyInput n leaves src) bufs
  let bufs ← ((List.range depth).map fun i => depth - i).foldlM (reduceLevel n topology scan) bufs
  let topoId ← topology[0]?
  some (bufs.merged topoId)

end CommTree
end NetStorm

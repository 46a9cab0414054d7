import NetStorm.GpuTopology

/-!
# Reduction trees by partitioning

The other generator splits the GPUs into halves by Kernighan and Lin's method, and from the
root on adds for every GPU of the last level the best link into the other half. It may fail,
and then starts again, with a generator of random numbers that goes on. `std::shuffle` and the
order in which an `unordered_set` is traversed are parameters. A negative index, and one behind
the end, is where there is no result.
-/
namespace NetStorm
namespace GpuTopology

variable {T : Type} [Add T] [Sub T] [Mul T] [IntCast T] [LT T] [DecidableLT T] [DecidableEq T]

/-- `gemv`. -/
def gemv (W : ℕ → ℕ → T) (x : List ℤ) : List T :=
  (List.range x.length).map fun row =>
    (List.range x.length).foldl (fun y col => y + W row col * ((x.getD col 0 : ℤ) : T)) ((0 : ℤ) : T)

/-- `ewisemult`. -/
def ewisemult (u : List ℤ) (alpha : T) (w : List T) : List T :=
  List.zipWith (fun w u => w * (alpha * ((u : ℤ) : T))) w u

/-- `D` of Kernighan and Lin: external less internal costs. -/
def costs (W : ℕ → ℕ → T) (P : List ℤ) : List T := ewisemult P ((-1 : ℤ) : T) (gemv W P)

/-- `FindBestMove`. The move is missing where `a` and `b` stay `-1`. -/
def findBestMove (W : ℕ → ℕ → T) (P : List ℤ) (D : List T) (used : List ℕ) :
    Option (ℕ × ℕ) × T :=
  (List.range P.length).foldl (fun c row =>
    if P.getD row 0 = 0 ∨ row ∈ used then c else
    (steps (row + 1) P.length 1).foldl (fun c col =>
      if P.getD col 0 = 0 ∨ P.getD row 0 = P.getD col 0 then c else
      let cost := D.getD row ((0 : ℤ) : T) + D.getD col ((0 : ℤ) : T) - ((2 : ℤ) : T) * W row col
      if c.2 < cost then (some (row, col), cost) else c) c) (none, ((0 : ℤ) : T))

/-- A move of Kernighan and Lin with its score. -/
structure Move (T : Type) where
  a : ℕ
  b : ℕ
  g : T

/-- The candidates for moving, with `P_temp` and `g_max` at the end of their loop. -/
def findMoves (W : ℕ → ℕ → T) :
    ℕ → List ℤ → List T → List ℕ → List (Move T) → T → List ℤ × List (Move T) × T
  | 0, P, _, _, moves, gMax => (P, moves, gMax)
  | iters + 1, P, D, used, moves, gMax =>
    match findBestMove W P D used with
    | (none, _) => (P, moves, ((0 : ℤ) : T))
    | (some (a, b), g) =>
      let P := (P.modify a (-1 * ·)).modify b (-1 * ·)
      let D := ((costs W P).set a ((0 : ℤ) : T)).set b ((0 : ℤ) : T)
      findMoves W iters P D (a :: b :: used) (moves ++ [⟨a, b, g⟩]) gMax

/-- The linear scan through the scores, with `g_max`, `g_k` and the last sum. -/
def scanMoves (moves : List (Move T)) (gMax : T) (gk : ℕ) : T × ℕ :=
  let c := (moves.zipIdx).foldl (fun (c : T × ℕ × Option T) m =>
    let g := c.2.2.elim m.1.g fun last => m.1.g + last
    if c.1 < g then (g, m.2 + 1, some g) else (c.1, c.2.1, some g)) (gMax, gk, none)
  (c.1, c.2.1)

/-- Exchanges the sides of the first moves. -/
def commitMoves (P : List ℤ) (moves : List (Move T)) : List ℤ :=
  moves.foldl (fun P m => (P.set m.a (P.getD m.b 0)).set m.b (P.getD m.a 0)) P

/-- The iterations until convergence. `g_k` is zero before it is set, where the source has
`-1`: no move is committed then. -/
def refine (W : ℕ → ℕ → T) (size : ℕ) : ℕ → List ℤ → T → ℕ → Option (List ℤ)
  | 0, P, _, _ => some P
  | count + 1, P, gMax, gk => do
    let (moved, moves, gMax) := findMoves W (size / 2) P (costs W P) [] [] gMax
    let (gMax, gk) := scanMoves moves gMax gk
    if ((0 : ℤ) : T) < gMax then
      if moves.length < gk then none
      else refine W size count (if gk = 0 then moved else commitMoves P (moves.take gk)) gMax gk
    else some P

/-- The variables of `KernighanLin`. -/
structure Partition (σ : Type) where
  P : List ℕ
  numPartitions : ℕ
  clusterPairs : List (ℕ × ℤ)
  gen : σ

section Random
variable {σ : Type} (shuffle : σ → List ℕ → List ℕ × σ) (traverse : List ℕ → List ℕ)

/-- One partition of `KernighanLin`, whose size is taken before the loop. -/
def splitCluster (W : ℕ → ℕ → T) (histogram : ℕ → ℕ) (c : Partition σ × Bool) (color : ℕ) :
    Option (Partition σ × Bool) :=
  let s := c.1
  let size := histogram color
  if size ≤ 2 then
    some ({ s with clusterPairs := s.clusterPairs ++ [(color, -(size : ℤ))] }, c.2)
  else do
    let cluster := (List.range s.P.length).filter fun i => s.P[i]? = some color
    let (shuffled, gen) := shuffle s.gen cluster
    let side := fun i =>
      if i ∈ shuffled.take (size / 2) then (1 : ℤ) else if i ∈ shuffled then -1 else 0
    let sides ← refine W size (s.P.length + 1) ((List.range s.P.length).map side) ((0 : ℤ) : T) 0
    let P := (s.P.zip sides).map fun p => if p.2 = -1 then s.numPartitions else p.1
    some (⟨P, s.numPartitions + 1, s.clusterPairs ++ [(color, (s.numPartitions : ℤ))], gen⟩, false)

/-- `KernighanLin`, with `stop`. -/
def kernighanLin (W : ℕ → ℕ → T) (s : Partition σ) : Option (Partition σ × Bool) :=
  (List.range s.numPartitions).foldlM (splitCluster shuffle W fun color => s.P.count color) (s, true)

/-- `GetRoot`. -/
def getRoot (P : List ℕ) (color : ℤ) (roots : List ℕ) : Option ℕ :=
  (traverse roots).find? fun root => P[root]?.any fun c => (c : ℤ) = color

/-- `GetChild`. -/
def getChild (P : List ℕ) (color : ℤ) (parent : ℕ) : Option ℕ :=
  (List.range P.length).find? fun i => (P[i]?.any fun c => (c : ℤ) = color) && i != parent

/-- `FindBestEdge`. `-1` among the candidates is `none`. -/
def findBestEdge (W : ℕ → ℕ → T) (P : List ℕ) (parent : ℕ) (destCluster : ℤ) :
    List (Option ℕ) :=
  ((List.range P.length).foldl (fun (c : List (Option ℕ) × T) col =>
    if col = parent ∨ (P[col]?.all fun c => (c : ℤ) ≠ destCluster) then c else
    let cost := W parent col
    if c.2 < cost then ([some col], cost)
    else if cost < c.2 then c
    else (c.1 ++ [some col], cost)) ([none], ((0 : ℤ) : T))).1

/-- `new_roots`, `new_topo` and the generator. -/
structure LevelState (σ : Type) where
  newRoots : List ℕ
  newTopo : List (ℕ × ℕ)
  gen : σ

/-- One pair of clusters in `KLGenerateBinaryTree`. The inner `none` is its return of `1`, with
the generator. -/
def clusterEdge (W : ℕ → ℕ → T) (P : List ℕ) (roots : List ℕ) (c : LevelState σ)
    (pair : ℕ × ℤ) : Option (LevelState σ ⊕ σ) :=
  if pair.2 = -2 then
    match getRoot traverse P pair.1 roots with
    | none => some (.inr c.gen)
    | some parent => do
      let child ← getChild P pair.1 parent
      some (.inl { c with newTopo := (parent, child) :: c.newTopo })
  else if pair.2 = -1 then
    match getRoot traverse P pair.1 roots with
    | none => some (.inr c.gen)
    | some parent => some (.inl { c with newTopo := (parent, parent) :: c.newTopo })
  else do
    let first := getRoot traverse P pair.1 roots
    let fromCluster : ℤ := if first.isNone then pair.2 else pair.1
    let parent ← if first.isNone then getRoot traverse P pair.2 roots else first
    let destCluster : ℤ := if fromCluster = pair.1 then pair.2 else pair.1
    let candidates := findBestEdge W P parent destCluster
    if candidates.head? = some none then some (.inr c.gen)
    else do
      let (shuffled, gen) := shuffle c.gen (candidates.filterMap id)
      let child ← shuffled.head?
      some (.inl ⟨parent :: child :: c.newRoots, (parent, child) :: c.newTopo, gen⟩)

/-- The loop over the pairs of clusters, which ends at a return of `1`. -/
def clusterEdges (W : ℕ → ℕ → T) (P : List ℕ) (roots : List ℕ) :
    List (ℕ × ℤ) → LevelState σ → Option (LevelState σ ⊕ σ)
  | [], c => some (.inl c)
  | pair :: pairs, c => do
    match ← clusterEdge shuffle traverse W P roots c pair with
    | .inl c => clusterEdges W P roots pairs c
    | .inr gen => some (.inr gen)

/-- The child of the node at position `i` of the topology. A GPU that is missing in `new_topo`
has the child `0`. -/
def newChild (newTopo : List (ℕ × ℕ)) (topo : List ℕ) (start i : ℕ) : Option ℕ := do
  let parent ← topo[i]?
  if i ≠ start ∧ topo[i - 1]? = some parent then some parent
  else some ((newTopo.find? fun p => p.1 = parent).elim 0 Prod.snd)

/-- The new level of the tree. -/
def appendLevel (newTopo : List (ℕ × ℕ)) (topo scan : List ℕ) : Option (List ℕ) := do
  let start ← scan[scan.length - 2]?
  let stop ← scan[scan.length - 1]?
  let pairs ← (steps start stop 1).mapM fun i => do
    let parent ← topo[i]?
    let child ← newChild newTopo topo start i
    some (parent, child)
  some (topo ++ pairs.flatMap fun p => [p.1, p.2])

/-- The variables of `ComputeTreesFromRoot`. -/
structure TreeState (σ : Type) where
  partition : Partition σ
  roots : List ℕ
  topo : List ℕ
  scan : List ℕ

/-- `KLGenerateBinaryTree`. The inner `none` is its return of `1`. -/
def klGenerateBinaryTree (W : ℕ → ℕ → T) (s : TreeState σ) : Option (TreeState σ ⊕ σ) := do
  let pairs := s.partition.clusterPairs
  let scan := if pairs = [] then s.scan else s.scan ++ [s.topo.length]
  match ← clusterEdges shuffle traverse W s.partition.P s.roots pairs ⟨[], [], s.partition.gen⟩ with
  | .inr gen => some (.inr gen)
  | .inl c => do
    if scan.length < 2 then none else do
    let topo ← appendLevel c.newTopo s.topo scan
    some (.inl ⟨{ s.partition with clusterPairs := [], gen := c.gen }, c.newRoots, topo, scan⟩)

/-- The state that `ComputeTreesFromRoot` begins with, and rewinds to. -/
def TreeState.init (n root : ℕ) (gen : σ) : TreeState σ where
  partition := ⟨List.replicate n 0, 1, [], gen⟩
  roots := [root]
  topo := [root]
  scan := [0]

/-- The loop of `ComputeTreesFromRoot`, which gives up after `level` resets. -/
def klLoop (W : ℕ → ℕ → T) (n root : ℕ) :
    ℕ → ℕ → TreeState σ → Option (Option (TreeState σ))
  | 0, _, _ => none
  | fuel + 1, level, s => do
    let (partition, stop) ← kernighanLin shuffle W s.partition
    match ← klGenerateBinaryTree shuffle traverse W { s with partition := partition } with
    | .inr gen =>
      if 10 < level + 1 then some none else klLoop W n root fuel (level + 1) (.init n root gen)
    | .inl s => if stop then some (some s) else klLoop W n root fuel level s

/-- `UpdateWeight`. -/
def updateWeight (W : ℕ → ℕ → T) (topo : List ℕ) (n : ℕ) (alpha : T) : ℕ → ℕ → T :=
  (steps 1 (topo.length - 1) 2).foldl (fun W i =>
    let parent := topo.getD i 0
    let child := topo.getD (i + 1) 0
    if parent < n * n ∧ child < n * n ∧ parent ≠ child then
      let W := Function.update W parent (Function.update (W parent) child (W parent child * alpha))
      Function.update W child (Function.update (W child) parent (W child parent * alpha))
    else W) W

/-- The tree of the loop, or one by backtracking. -/
def takeTree (fuel : ℕ) (W : ℕ → ℕ → T) (n root : ℕ) :
    Option (TreeState σ) → Option (List ℕ × List ℕ)
  | none => backtrackGenerateBinaryTree fuel W n root
  | some s => some (s.topo, s.scan ++ [s.topo.length])

/-- `ComputeTreesFromRoot`, from the vectors that `ComputeTrees` gives it. -/
def computeTreesFromRoot (fuel : ℕ) (W : ℕ → ℕ → T) (n root : ℕ) (alpha : T) (backtrack : Bool)
    (gen : σ) : Option ((ℕ → ℕ → T) × List ℕ × List ℕ) :=
  let search := if backtrack then some none
    else klLoop shuffle traverse W n root fuel 0 (.init n root gen)
  do
  let found ← search
  let (topo, scan) ← takeTree fuel W n root found
  some (updateWeight W topo n alpha, topo, scan)

end Random

end GpuTopology
end NetStorm

import Mathlib.Algebra.BigOperators.Group.Finset.Basic
import Mathlib.Algebra.Order.BigOperators.Group.Finset
import Mathlib.Algebra.Ring.Nat
import Mathlib.Data.List.Nodup

/-!
# Visiting a graph in post-order

`PostOrderDFSVisit` keeps a stack of nodes, each with the number of its children that were
looked at, and the set of the nodes that were ever pushed. On a graph without cycles it visits
the nodes below the heads once, every node after its children.
-/
namespace NetStorm
namespace DFSVisit
variable {ν : Type} [DecidableEq ν]

/-- The stack, the set `visited`, and the nodes that `fvisit` was called with. -/
structure State (ν : Type) where
  stack : List (ν × ℕ) := []
  visited : List ν := []
  order : List ν := []

variable (children : ν → List ν)

/-- One pass of the loop of `PostOrderDFSVisit`, on the top `(n, k)` of the stack. -/
def visitTop (s : State ν) (n : ν) (k : ℕ) (stack : List (ν × ℕ)) : State ν :=
  match (children n)[k]? with
  | none => { s with stack := stack, order := s.order ++ [n] }
  | some c =>
    if c ∈ s.visited then { s with stack := (n, k + 1) :: stack }
    else { s with stack := (c, 0) :: (n, k + 1) :: stack, visited := c :: s.visited }

/-- The loop of `PostOrderDFSVisit`, for at most `fuel` passes. -/
def visitLoop : ℕ → State ν → Option (State ν)
  | 0, s => if s.stack = [] then some s else none
  | fuel + 1, s =>
    match s.stack with
    | [] => some s
    | (n, k) :: stack => visitLoop fuel (visitTop children s n k stack)

/-- The visit of one head. -/
def visitHead (fuel : ℕ) (s : State ν) (head : ν) : Option (State ν) :=
  if head ∈ s.visited then visitLoop children fuel s
  else visitLoop children fuel
    { s with stack := (head, 0) :: s.stack, visited := head :: s.visited }

/-- `PostOrderDFSVisit`. -/
def postOrderDFSVisit (fuel : ℕ) (heads : List ν) : Option (List ν) :=
  (heads.foldlM (visitHead children fuel) {}).map State.order

/-- Every node stands after its children. -/
def TopoSorted (order : List ν) : Prop :=
  ∀ a n b, order = a ++ n :: b → ∀ c ∈ children n, c ∈ a

/-- What the loop keeps. The stack leads down from its bottom to its top. -/
structure Inv (rank : ν → ℕ) (s : State ν) : Prop where
  nodup : (s.stack.map Prod.fst ++ s.order).Nodup
  visited : ∀ n, n ∈ s.visited ↔ n ∈ s.stack.map Prod.fst ∨ n ∈ s.order
  ranks : s.stack.Pairwise fun a b => rank a.1 < rank b.1
  seen : ∀ f ∈ s.stack, ∀ c ∈ (children f.1).take f.2, c ∈ s.visited
  sorted : TopoSorted children s.order

/-- The passes that are left: for the unvisited nodes and for the children on the stack. -/
def work (nodes : Finset ν) (s : State ν) : ℕ :=
  ∑ n ∈ nodes.filter (· ∉ s.visited), ((children n).length + 1) +
    (s.stack.map fun f => (children f.1).length - f.2 + 1).sum

variable {children}

omit [DecidableEq ν] in
theorem TopoSorted.append {order : List ν} (h : TopoSorted children order) {n : ν}
    (hn : ∀ c ∈ children n, c ∈ order) : TopoSorted children (order ++ [n]) := by
  intro a m b hab c hc
  rcases List.eq_nil_or_concat b with rfl | ⟨b, last, rfl⟩
  · obtain ⟨rfl, hlast⟩ := List.append_inj' hab rfl
    obtain rfl : n = m := by simpa using hlast
    exact hn c hc
  · rw [List.concat_eq_append, ← List.cons_append, ← List.append_assoc] at hab
    obtain ⟨horder, -⟩ := List.append_inj' hab rfl
    exact h a m b horder c hc

section Step
variable {rank : ν → ℕ} (hrank : ∀ n, ∀ c ∈ children n, rank c < rank n)

omit [DecidableEq ν] in
include hrank in
/-- A node is finished when all its children are: none of them is still on the stack. -/
theorem Inv.pop {s : State ν} (h : Inv children rank s) {n : ν} {k : ℕ} {stack : List (ν × ℕ)}
    (hs : s.stack = (n, k) :: stack) (hk : (children n)[k]? = none) :
    Inv children rank { s with stack := stack, order := s.order ++ [n] } := by
  have hperm : (s.stack.map Prod.fst ++ s.order).Perm
      (stack.map Prod.fst ++ (s.order ++ [n])) := by
    rw [hs, ← List.append_assoc]
    exact (List.perm_append_singleton n _).symm
  have hchildren : ∀ c ∈ children n, c ∈ s.order := by
    intro c hc
    have hseen : c ∈ s.visited := by
      apply h.seen (n, k) (by simp [hs])
      rwa [List.take_of_length_le (List.getElem?_eq_none_iff.mp hk)]
    have hlt := hrank n c hc
    have hr := h.ranks
    rw [hs] at hr
    rcases (h.visited c).mp hseen with hmem | hmem
    · obtain ⟨f, hf, rfl⟩ := List.mem_map.mp hmem
      rw [hs] at hf
      rcases List.mem_cons.mp hf with rfl | hf
      · exact absurd hlt (lt_irrefl _)
      · exact absurd hlt (not_lt.mpr ((List.pairwise_cons.mp hr).1 f hf).le)
    · exact hmem
  constructor
  · exact hperm.nodup_iff.mp h.nodup
  · intro m
    rw [h.visited, ← List.mem_append, hperm.mem_iff, List.mem_append]
  · have hr := h.ranks
    rw [hs] at hr
    exact (List.pairwise_cons.mp hr).2
  · intro f hf
    exact h.seen f (by rw [hs]; exact List.mem_cons_of_mem _ hf)
  · exact h.sorted.append hchildren

omit [DecidableEq ν] in
theorem Inv.skip {s : State ν} (h : Inv children rank s) {n c : ν} {k : ℕ}
    {stack : List (ν × ℕ)} (hs : s.stack = (n, k) :: stack) (hk : (children n)[k]? = some c)
    (hc : c ∈ s.visited) : Inv children rank { s with stack := (n, k + 1) :: stack } := by
  obtain ⟨hnodup, hvisited, hranks, hseen, hsorted⟩ := h
  rw [hs] at hnodup hvisited hranks hseen
  refine ⟨hnodup, hvisited, ?_, ?_, hsorted⟩
  · rw [List.pairwise_cons] at hranks ⊢
    exact hranks
  · intro f hf d hd
    rcases List.mem_cons.mp hf with rfl | hf
    · rw [List.take_add_one, hk, Option.toList_some, List.mem_append, List.mem_singleton] at hd
      rcases hd with hd | rfl
      · exact hseen (n, k) List.mem_cons_self d hd
      · exact hc
    · exact hseen f (List.mem_cons_of_mem _ hf) d hd

omit [DecidableEq ν] in
theorem Inv.push {s : State ν} (h : Inv children rank s) {c : ν} (hc : c ∉ s.visited)
    (hlt : ∀ f ∈ s.stack, rank c < rank f.1) :
    Inv children rank { s with stack := (c, 0) :: s.stack, visited := c :: s.visited } := by
  constructor
  · apply List.nodup_cons.mpr ⟨?_, h.nodup⟩
    intro hmem
    exact hc ((h.visited c).mpr (List.mem_append.mp hmem))
  · intro m
    simp only [List.map_cons, List.mem_cons, h.visited m]
    tauto
  · exact List.pairwise_cons.mpr ⟨hlt, h.ranks⟩
  · intro f hf d hd
    rcases List.mem_cons.mp hf with rfl | hf
    · simp at hd
    · exact List.mem_cons_of_mem _ (h.seen f hf d hd)
  · exact h.sorted

include hrank in
theorem Inv.visitTop {s : State ν} (h : Inv children rank s) {n : ν} {k : ℕ}
    {stack : List (ν × ℕ)} (hs : s.stack = (n, k) :: stack) :
    Inv children rank (visitTop children s n k stack) := by
  unfold DFSVisit.visitTop
  split
  next hk => exact h.pop hrank hs hk
  next c hk =>
    split_ifs with hc
    · exact h.skip hs hk hc
    · have hlt : ∀ f ∈ s.stack, rank c < rank f.1 := by
        have hcn := hrank n c (List.mem_of_getElem? hk)
        have hr := h.ranks
        rw [hs] at hr ⊢
        intro f hf
        rcases List.mem_cons.mp hf with rfl | hf
        · exact hcn
        · exact hcn.trans ((List.pairwise_cons.mp hr).1 f hf)
      -- The child is pushed first, and then it counts as looked at.
      have hpush := h.push hc hlt
      obtain ⟨hnodup, hvisited, hranks, hseen, hsorted⟩ := hpush
      simp only [hs] at hnodup hvisited hranks hseen
      refine ⟨hnodup, hvisited, ?_, ?_, hsorted⟩
      · simpa only [List.pairwise_cons, List.forall_mem_cons] using hranks
      · intro f hf d hd
        rcases List.mem_cons.mp hf with rfl | hf
        · simp at hd
        rcases List.mem_cons.mp hf with rfl | hf
        · rw [List.take_add_one, hk, Option.toList_some, List.mem_append, List.mem_singleton] at hd
          rcases hd with hd | rfl
          · exact hseen (n, k) (by simp) d hd
          · exact List.mem_cons_self
        · exact hseen f (by simp [hf]) d hd

/-- A node that is visited now is no more among the unvisited. -/
theorem sum_unvisited {nodes : Finset ν} {visited : List ν} {c : ν} (hc : c ∈ nodes)
    (hvisited : c ∉ visited) (f : ν → ℕ) :
    f c + ∑ n ∈ nodes.filter (· ∉ c :: visited), f n = ∑ n ∈ nodes.filter (· ∉ visited), f n := by
  have herase : (nodes.filter (· ∉ c :: visited)) = (nodes.filter (· ∉ visited)).erase c := by
    ext m
    simp only [Finset.mem_filter, Finset.mem_erase, List.mem_cons]
    tauto
  rw [herase, Finset.add_sum_erase _ _ (Finset.mem_filter.mpr ⟨hc, hvisited⟩)]

/-- Every pass takes from the work that is left. -/
theorem work_visitTop {nodes : Finset ν} (hclosed : ∀ n ∈ nodes, ∀ c ∈ children n, c ∈ nodes)
    {s : State ν} {n : ν} {k : ℕ} {stack : List (ν × ℕ)} (hs : s.stack = (n, k) :: stack)
    (hn : n ∈ nodes) : work children nodes (visitTop children s n k stack) + 1 ≤
      work children nodes s := by
  unfold work visitTop
  rw [hs]
  split
  next hk =>
    simp only [List.map_cons, List.sum_cons]
    omega
  next c hk =>
    obtain ⟨hlt, -⟩ := List.getElem?_eq_some_iff.mp hk
    split_ifs with hc
    · simp only [List.map_cons, List.sum_cons]
      omega
    · have hsum := sum_unvisited (hclosed n hn c (List.mem_of_getElem? hk)) hc
        fun m => (children m).length + 1
      simp only [List.map_cons, List.sum_cons]
      omega

end Step

section Loop
variable {rank : ν → ℕ} {nodes : Finset ν} (hrank : ∀ n, ∀ c ∈ children n, rank c < rank n)
  (hclosed : ∀ n ∈ nodes, ∀ c ∈ children n, c ∈ nodes)

include hrank hclosed in
/-- The loop ends with an empty stack, and has visited all that was visited before. -/
theorem visitLoop_spec {fuel : ℕ} {s : State ν} (h : Inv children rank s)
    (hnodes : ∀ n ∈ s.visited, n ∈ nodes) (hfuel : work children nodes s ≤ fuel) :
    ∃ s', visitLoop children fuel s = some s' ∧ Inv children rank s' ∧ s'.stack = [] ∧
      (∀ n ∈ s'.visited, n ∈ nodes) ∧ s.visited ⊆ s'.visited := by
  induction fuel generalizing s with
  | zero =>
    cases hs : s.stack with
    | nil => exact ⟨s, by simp only [visitLoop, hs, if_true], h, hs, hnodes, List.Subset.refl _⟩
    | cons f stack =>
      have hpos : 0 < work children nodes s := by simp [work, hs]
      omega
  | succ fuel ih =>
    cases hs : s.stack with
    | nil => exact ⟨s, by simp only [visitLoop, hs], h, hs, hnodes, List.Subset.refl _⟩
    | cons f stack =>
      obtain ⟨n, k⟩ := f
      have hn : n ∈ nodes := hnodes n ((h.visited n).mpr (Or.inl (by simp [hs])))
      have hwork := work_visitTop hclosed hs hn
      have hsub : s.visited ⊆ (visitTop children s n k stack).visited := by
        unfold visitTop
        split
        · exact List.Subset.refl _
        · split_ifs
          · exact List.Subset.refl _
          · exact List.subset_cons_self _ _
      have hnodes' : ∀ m ∈ (visitTop children s n k stack).visited, m ∈ nodes := by
        unfold visitTop
        split
        next => exact hnodes
        next c hk =>
          split_ifs
          · exact hnodes
          · exact List.forall_mem_cons.mpr ⟨hclosed n hn c (List.mem_of_getElem? hk), hnodes⟩
      obtain ⟨s', hrun, hinv, hstack, hin, hvis⟩ := ih (h.visitTop hrank hs) hnodes' (by omega)
      refine ⟨s', ?_, hinv, hstack, hin, List.Subset.trans hsub hvis⟩
      simp only [visitLoop, hs]
      exact hrun

include hrank hclosed in
/-- The visit of a head, from a state between two heads. -/
theorem visitHead_spec {s : State ν} (h : Inv children rank s) (hstack : s.stack = [])
    (hnodes : ∀ n ∈ s.visited, n ∈ nodes) {head : ν} (hhead : head ∈ nodes) :
    ∃ s', visitHead children (∑ n ∈ nodes, ((children n).length + 1)) s head = some s' ∧
      Inv children rank s' ∧ s'.stack = [] ∧ (∀ n ∈ s'.visited, n ∈ nodes) ∧
      s.visited ⊆ s'.visited ∧ head ∈ s'.visited := by
  have hle : work children nodes s ≤ ∑ n ∈ nodes, ((children n).length + 1) := by
    unfold work
    rw [hstack, List.map_nil, List.sum_nil, Nat.add_zero]
    exact Finset.sum_le_sum_of_subset (Finset.filter_subset _ _)
  unfold visitHead
  split_ifs with hvisited
  · obtain ⟨s', hrun, hinv, hempty, hin, hsub⟩ := visitLoop_spec hrank hclosed h hnodes hle
    exact ⟨s', hrun, hinv, hempty, hin, hsub, hsub hvisited⟩
  · have hpush := h.push hvisited (by simp [hstack])
    have hwork : work children nodes
        { s with stack := (head, 0) :: s.stack, visited := head :: s.visited } ≤
          ∑ n ∈ nodes, ((children n).length + 1) := by
      have hsum := sum_unvisited hhead hvisited fun m => (children m).length + 1
      unfold work at hle ⊢
      simp only [List.map_cons, List.sum_cons]
      omega
    obtain ⟨s', hrun, hinv, hempty, hin, hsub⟩ := visitLoop_spec hrank hclosed hpush
      (List.forall_mem_cons.mpr ⟨hhead, hnodes⟩) hwork
    exact ⟨s', hrun, hinv, hempty, hin, fun n hn => hsub (List.mem_cons_of_mem _ hn),
      hsub List.mem_cons_self⟩

include hrank hclosed in
theorem foldlM_visitHead_spec {heads : List ν} (hheads : ∀ n ∈ heads, n ∈ nodes) {s : State ν}
    (h : Inv children rank s) (hstack : s.stack = []) (hnodes : ∀ n ∈ s.visited, n ∈ nodes) :
    ∃ s', heads.foldlM (visitHead children (∑ n ∈ nodes, ((children n).length + 1))) s =
        some s' ∧ Inv children rank s' ∧ s'.stack = [] ∧ (∀ n ∈ s'.visited, n ∈ nodes) ∧
      s.visited ⊆ s'.visited ∧ ∀ n ∈ heads, n ∈ s'.visited := by
  induction heads generalizing s with
  | nil => exact ⟨s, rfl, h, hstack, hnodes, List.Subset.refl _, by simp⟩
  | cons head heads ih =>
    obtain ⟨s₁, hrun₁, h₁, hstack₁, hnodes₁, hsub₁, hhead⟩ :=
      visitHead_spec hrank hclosed h hstack hnodes (hheads head List.mem_cons_self)
    obtain ⟨s₂, hrun₂, h₂, hstack₂, hnodes₂, hsub₂, hrest⟩ :=
      ih (fun n hn => hheads n (List.mem_cons_of_mem _ hn)) h₁ hstack₁ hnodes₁
    refine ⟨s₂, by simp [List.foldlM_cons, hrun₁, hrun₂], h₂, hstack₂, hnodes₂,
      List.Subset.trans hsub₁ hsub₂, List.forall_mem_cons.mpr ⟨hsub₂ hhead, hrest⟩⟩

include hrank hclosed in
/-- The visit ends. It gives the heads and all below them once, every node after its children. -/
theorem postOrderDFSVisit_spec {heads : List ν} (hheads : ∀ n ∈ heads, n ∈ nodes) :
    ∃ order, postOrderDFSVisit children (∑ n ∈ nodes, ((children n).length + 1)) heads =
        some order ∧ order.Nodup ∧ TopoSorted children order ∧ (∀ n ∈ heads, n ∈ order) ∧
      ∀ n ∈ order, n ∈ nodes := by
  have hinit : Inv children rank {} :=
    ⟨by simp, by simp, by simp, by simp, fun a n b hab => by simp at hab⟩
  obtain ⟨s, hrun, h, hstack, hnodes, -, hvisited⟩ :=
    foldlM_visitHead_spec hrank hclosed hheads hinit rfl (by simp)
  have hmem : ∀ n, n ∈ s.visited ↔ n ∈ s.order := fun n => by rw [h.visited n]; simp [hstack]
  refine ⟨s.order, by rw [postOrderDFSVisit, hrun]; rfl, ?_, h.sorted,
    fun n hn => (hmem n).mp (hvisited n hn), fun n hn => hnodes n ((hmem n).mpr hn)⟩
  simpa [hstack] using h.nodup

end Loop

section AnyGraph
variable {P : ν → Prop} {s s' : State ν}

/-- What holds of a visit of any graph, also of one with cycles. -/
structure Visiting (P : ν → Prop) (s : State ν) : Prop where
  nodup : (s.stack.map Prod.fst ++ s.order).Nodup
  visited : ∀ n ∈ s.stack.map Prod.fst ++ s.order, n ∈ s.visited
  holds : ∀ n ∈ s.stack.map Prod.fst ++ s.order, P n

omit [DecidableEq ν] in
theorem Visiting.push (h : Visiting P s) {c : ν} (hc : c ∉ s.visited) (hP : P c) :
    Visiting P { s with stack := (c, 0) :: s.stack, visited := c :: s.visited } where
  nodup := List.nodup_cons.mpr ⟨fun hmem => hc (h.visited c hmem), h.nodup⟩
  visited := List.forall_mem_cons.mpr
    ⟨List.mem_cons_self, fun n hn => List.mem_cons_of_mem _ (h.visited n hn)⟩
  holds := List.forall_mem_cons.mpr ⟨hP, h.holds⟩

theorem Visiting.visitTop (h : Visiting P s) (hclosed : ∀ n, P n → ∀ c ∈ children n, P c) {n : ν}
    {k : ℕ} {stack : List (ν × ℕ)} (hs : s.stack = (n, k) :: stack) :
    Visiting P (visitTop children s n k stack) := by
  obtain ⟨hnodup, hvisited, hholds⟩ := h
  rw [hs] at hnodup hvisited hholds
  unfold DFSVisit.visitTop
  split
  next hk =>
    have hperm : (stack.map Prod.fst ++ (s.order ++ [n])).Perm
        (((n, k) :: stack).map Prod.fst ++ s.order) := by
      rw [← List.append_assoc]
      exact List.perm_append_singleton n _
    exact ⟨hperm.nodup_iff.mpr hnodup, fun m hm => hvisited m (hperm.mem_iff.mp hm),
      fun m hm => hholds m (hperm.mem_iff.mp hm)⟩
  next c hk =>
    have htop : Visiting P { s with stack := (n, k + 1) :: stack } := ⟨hnodup, hvisited, hholds⟩
    split_ifs with hc
    · exact htop
    · exact htop.push hc (hclosed n (hholds n (by simp)) c (List.mem_of_getElem? hk))

theorem Visiting.visitLoop (hclosed : ∀ n, P n → ∀ c ∈ children n, P c) {fuel : ℕ}
    (h : Visiting P s) (hrun : visitLoop children fuel s = some s') :
    Visiting P s' ∧ s'.stack = [] := by
  induction fuel generalizing s with
  | zero =>
    rw [DFSVisit.visitLoop] at hrun
    split_ifs at hrun with hstack
    obtain rfl := Option.some.inj hrun
    exact ⟨h, hstack⟩
  | succ fuel ih =>
    rw [DFSVisit.visitLoop] at hrun
    cases hs : s.stack with
    | nil =>
      rw [hs] at hrun
      obtain rfl := Option.some.inj hrun
      exact ⟨h, hs⟩
    | cons f stack =>
      rw [hs] at hrun
      exact ih (h.visitTop hclosed hs) hrun

/-- If the visit of any graph ends, it gives every node once, and what holds of the heads and is
handed down to the children holds of all nodes. -/
theorem postOrderDFSVisit_closed {fuel : ℕ} {heads order : List ν}
    (hrun : postOrderDFSVisit children fuel heads = some order) (hheads : ∀ n ∈ heads, P n)
    (hclosed : ∀ n, P n → ∀ c ∈ children n, P c) : order.Nodup ∧ ∀ n ∈ order, P n := by
  obtain ⟨s, hfold, rfl⟩ := Option.map_eq_some_iff.mp hrun
  have hinit : Visiting P ({} : State ν) := ⟨by simp, by simp, by simp⟩
  have hall : ∀ (heads : List ν) (s s' : State ν), (∀ n ∈ heads, P n) → Visiting P s →
      s.stack = [] → heads.foldlM (visitHead children fuel) s = some s' →
        Visiting P s' ∧ s'.stack = [] := by
    intro heads
    induction heads with
    | nil =>
      intro s s' _ h hstack hfold
      obtain rfl := Option.some.inj hfold
      exact ⟨h, hstack⟩
    | cons head heads ih =>
      intro s s' hheads h hstack hfold
      simp only [List.foldlM_cons, Option.bind_eq_bind, Option.bind_eq_some_iff] at hfold
      obtain ⟨s₁, hfirst, hrest⟩ := hfold
      have h₁ : Visiting P s₁ ∧ s₁.stack = [] := by
        rw [visitHead] at hfirst
        split_ifs at hfirst with hvisited
        · exact h.visitLoop hclosed hfirst
        · exact (h.push hvisited (hheads head List.mem_cons_self)).visitLoop hclosed hfirst
      exact ih s₁ s' (fun n hn => hheads n (List.mem_cons_of_mem _ hn)) h₁.1 h₁.2 hrest
  obtain ⟨h, hstack⟩ := hall heads {} s hheads hinit rfl hfold
  have hnodup := h.nodup
  have hholds := h.holds
  rw [hstack] at hnodup hholds
  exact ⟨hnodup, hholds⟩

end AnyGraph

end DFSVisit
end NetStorm

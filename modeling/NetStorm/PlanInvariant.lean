import NetStorm.PlanMemory
import NetStorm.Library.OptionSpec
import NetStorm.Library.OptionTable
import Mathlib.Algebra.Order.Ring.Int
import Mathlib.Data.List.Count
import Mathlib.Data.List.Nodup

/-!
# Storage counts are pending reads

The reads that are still to come are a list of entries, which begins as the reads of all nodes
with the outputs of the graph behind them. The count of every storage id is the number of
these reads whose entry is stored there, from the first node to the last.
-/
namespace NetStorm
namespace PlanMemory

namespace INode

/-- What input `i` reads, unless it is ignored. -/
def readAt (node : INode) (i : ℕ) : Option NodeEntry :=
  if i ∈ node.ignored then none else node.inputs[i]?

/-- The reads of a node, in the order of its inputs. -/
def reads (node : INode) : List NodeEntry :=
  if node.isVariable then [] else (List.range node.inputs.length).filterMap node.readAt

theorem readAt_eq_some_iff {node : INode} {i : ℕ} {e : NodeEntry} :
    node.readAt i = some e ↔ i ∉ node.ignored ∧ node.inputs[i]? = some e := by
  rw [readAt]
  split_ifs with h <;> simp [h]

theorem reads_of_op {node : INode} (h : node.isVariable = false) :
    node.reads = (List.range node.inputs.length).filterMap node.readAt := by
  rw [reads, if_neg (by simp [h])]

theorem mem_inputs_of_mem_reads {node : INode} {e : NodeEntry} (h : e ∈ node.reads) :
    e ∈ node.inputs := by
  rw [reads] at h
  split_ifs at h
  · simp at h
  · obtain ⟨i, -, hi⟩ := List.mem_filterMap.mp h
    exact List.mem_of_getElem? (readAt_eq_some_iff.mp hi).2

theorem mem_reads {node : INode} (hop : node.isVariable = false) {i : ℕ} {e : NodeEntry}
    (hi : i ∉ node.ignored) (he : node.inputs[i]? = some e) : e ∈ node.reads := by
  rw [reads_of_op hop]
  exact List.mem_filterMap.mpr ⟨i, List.mem_range.mpr (List.getElem?_eq_some_iff.mp he).1,
    readAt_eq_some_iff.mpr ⟨hi, he⟩⟩

end INode

variable (g : Graph)

/-- The reads from node `k` on, and those of the outputs of the graph. -/
def pendingFrom (k : ℕ) : List NodeEntry := (g.nodes.drop k).flatMap INode.reads ++ g.outputs

variable {g} {k : ℕ} {node : INode}

theorem pendingFrom_eq (hk : g.nodes[k]? = some node) :
    pendingFrom g k = node.reads ++ pendingFrom g (k + 1) := by
  obtain ⟨hlt, rfl⟩ := List.getElem?_eq_some_iff.mp hk
  rw [pendingFrom, List.drop_eq_getElem_cons hlt, List.flatMap_cons, List.append_assoc, pendingFrom]

theorem pendingFrom_index_lt {e : NodeEntry} (he : e ∈ pendingFrom g k) :
    ∃ node, g.nodes[e.nodeId]? = some node ∧ e.index < node.numOutputs := by
  refine g.index_lt e ?_
  obtain he | he := List.mem_append.mp he
  · obtain ⟨node, hnode, he⟩ := List.mem_flatMap.mp he
    exact .inr ⟨node, List.mem_of_mem_drop hnode, INode.mem_inputs_of_mem_reads he⟩
  · exact .inl he

section RefCounts

theorem foldl_countUp (l : List NodeEntry) (rc : NodeEntry → ℤ) (e : NodeEntry) :
    l.foldl countUp rc e = rc e + l.count e := by
  induction l generalizing rc with
  | nil => simp
  | cons a l ih =>
    rw [List.foldl_cons, ih, countUp, List.count_cons]
    by_cases h : e = a
    · subst h
      simp only [Function.update_self, beq_self_eq_true, if_true]
      omega
    · simp [Function.update_of_ne h, Ne.symm h]

theorem foldl_revoke (inputs : List NodeEntry) (l : List ℕ) (rc : NodeEntry → ℤ) (e : NodeEntry) :
    l.foldl (fun rc i => inputs[i]?.elim rc fun e => Function.update rc e (rc e - 1)) rc e =
      rc e - l.countP fun i => inputs[i]? = some e := by
  induction l generalizing rc with
  | nil => simp
  | cons i l ih =>
    rw [List.foldl_cons, ih, List.countP_cons]
    cases hi : inputs[i]? with
    | none => simp
    | some a =>
      by_cases h : e = a
      · subst h
        simp only [Option.elim_some, Function.update_self, decide_true, if_true]
        omega
      · simp [Function.update_of_ne h, Ne.symm h]

theorem count_eq_countP_range (l : List NodeEntry) (e : NodeEntry) :
    l.count e = (List.range l.length).countP fun i => l[i]? = some e := by
  induction l with
  | nil => simp
  | cons a l ih =>
    rw [List.length_cons, List.range_succ_eq_map, List.countP_cons, List.countP_map,
      List.count_cons, ih]
    simp [Function.comp_def, beq_iff_eq]

/-- The reads of an entry are its inputs less the ignored ones. -/
theorem count_reads (hop : node.isVariable = false) (hlt : ∀ i ∈ node.ignored, i < node.inputs.length)
    (hnodup : node.ignored.Nodup) (e : NodeEntry) :
    (node.reads.count e : ℤ) =
      node.inputs.count e - node.ignored.countP fun i => node.inputs[i]? = some e := by
  have hreads : node.reads.count e = (List.range node.inputs.length).countP
      fun i => node.inputs[i]? = some e ∧ i ∉ node.ignored := by
    rw [INode.reads_of_op hop, List.count, List.countP_filterMap]
    refine List.countP_congr fun i _ => ?_
    simp only [INode.readAt]
    split_ifs with h <;> cases node.inputs[i]? <;> simp [h]
  have hignored : node.ignored.countP (fun i => node.inputs[i]? = some e) =
      (List.range node.inputs.length).countP
        fun i => node.inputs[i]? = some e ∧ i ∈ node.ignored := by
    have hperm : node.ignored.Perm
        ((List.range node.inputs.length).filter fun i => i ∈ node.ignored) := by
      refine (List.perm_ext_iff_of_nodup hnodup (List.nodup_range.filter _)).mpr fun i => ?_
      simpa [List.mem_filter] using hlt i
    rw [hperm.countP_eq, List.countP_filter]
    simp
  rw [hreads, hignored, count_eq_countP_range, List.countP_eq_countP_filter_add _
    (fun i => decide (node.inputs[i]? = some e)) (fun i => decide (i ∈ node.ignored))]
  simp [List.countP_filter]

theorem foldl_countNode (nodes : List INode)
    (hlt : ∀ node ∈ nodes, ∀ i ∈ node.ignored, i < node.inputs.length)
    (hnodup : ∀ node ∈ nodes, node.ignored.Nodup) (rc : NodeEntry → ℤ) (e : NodeEntry) :
    nodes.foldl countNode rc e = rc e + (nodes.flatMap INode.reads).count e := by
  induction nodes generalizing rc with
  | nil => simp
  | cons node nodes ih =>
    rw [List.foldl_cons, ih (fun n hn => hlt n (List.mem_cons_of_mem _ hn))
      (fun n hn => hnodup n (List.mem_cons_of_mem _ hn)), List.flatMap_cons, List.count_append]
    rw [countNode]
    split_ifs with hvar
    · simp [INode.reads, hvar]
    · have := count_reads (by simpa using hvar) (hlt node List.mem_cons_self)
        (hnodup node List.mem_cons_self) e
      rw [foldl_revoke, foldl_countUp]
      push_cast
      omega

theorem refCounts_eq (e : NodeEntry) : refCounts g e = (pendingFrom g 0).count e := by
  rw [refCounts, foldl_countUp, foldl_countNode g.nodes g.ignored_lt g.ignored_nodup, pendingFrom,
    List.drop_zero, List.count_append]
  simp

/-- Nothing before node `k` reads an output of it or of a later one. -/
theorem count_pendingFrom {e : NodeEntry} (hk : k ≤ g.nodes.length) (he : k ≤ e.nodeId) :
    ((pendingFrom g k).count e : ℤ) = refCounts g e := by
  induction k with
  | zero => exact (refCounts_eq e).symm
  | succ k ih =>
    have hnode : g.nodes[k]? = some (g.nodes[k]) := List.getElem?_eq_getElem hk
    have hreads : (g.nodes[k]).reads.count e = 0 := by
      refine List.count_eq_zero.mpr fun hmem => ?_
      have := g.input_lt k _ hnode e (INode.mem_inputs_of_mem_reads hmem)
      omega
    rw [← ih (by omega) (by omega), pendingFrom_eq hnode, List.count_append, hreads]
    simp

end RefCounts

/-- The counts are the pending reads, and those of free blocks are zero. -/
structure Inv (st : AllocState) (pending : List NodeEntry) : Prop where
  refs : ∀ s, 0 ≤ s → st.refCount s = pending.countP fun e => st.storage e = s
  valid : st.allocator.Valid
  free : ∀ s ∈ st.allocator.freeIds, st.refCount s = 0
  lt : ∀ e, st.storage e < st.allocator.data.length

section Inv
variable {st : AllocState} {pending : List NodeEntry}

theorem Inv.init (storage : NodeEntry → ℤ) (hneg : ∀ e, storage e < 0)
    (pending : List NodeEntry) : Inv (AllocState.init storage) pending where
  refs := by
    intro s hs
    refine ((Int.natCast_eq_zero).mpr (List.countP_eq_zero.mpr fun e _ => ?_)).symm
    have hne : storage e ≠ s := by
      have := hneg e
      omega
    exact fun h => hne (of_decide_eq_true h)
  valid := ⟨List.nodup_nil, by simp [AllocState.init, GraphAllocator.freeIds]⟩
  free := by simp [AllocState.init, GraphAllocator.freeIds]
  lt := fun e => hneg e

/-- A storage id that holds a pending read has a positive count. -/
theorem Inv.refCount_pos (h : Inv st pending) {e : NodeEntry} (he : e ∈ pending)
    (hs : 0 ≤ st.storage e) : 0 < st.refCount (st.storage e) := by
  rw [h.refs _ hs]
  exact Int.natCast_pos.mpr (List.countP_pos_iff.mpr ⟨e, he, by simp⟩)

/-- Nothing that is still read lies in a free block. -/
theorem Inv.not_free (h : Inv st pending) {e : NodeEntry} (he : e ∈ pending)
    (hs : 0 ≤ st.storage e) : st.storage e ∉ st.allocator.freeIds := by
  intro hfree
  have := h.free _ hfree
  have := h.refCount_pos he hs
  omega

/-- Two pending reads of a storage id count twice. -/
theorem two_le_countP {α : Type*} {l : List α} {p : α → Bool} {a b : α} (hab : a ≠ b)
    (ha : a ∈ l) (hb : b ∈ l) (hpa : p a = true) (hpb : p b = true) : 2 ≤ l.countP p := by
  classical
  obtain ⟨l₁, l₂, rfl⟩ := List.append_of_mem ha
  have hb : b ∈ l₁ ++ l₂ := by simpa [hab.symm] using hb
  have hpos : 0 < (l₁ ++ l₂).countP p := List.countP_pos_iff.mpr ⟨b, hb, hpb⟩
  rw [List.countP_append] at hpos
  rw [List.countP_append, List.countP_cons, if_pos hpa]
  omega

/-- A new place for an entry that had none. -/
theorem countP_update (l : List NodeEntry) (storage : NodeEntry → ℤ) {e : NodeEntry} {s s' : ℤ}
    (he : storage e ≠ s) :
    l.countP (fun a => Function.update storage e s' a = s) =
      l.countP (fun a => storage a = s) + if s' = s then l.count e else 0 := by
  induction l with
  | nil => simp
  | cons a l ih =>
    rw [List.countP_cons, List.countP_cons, List.count_cons, ih]
    by_cases h : a = e
    · subst h
      by_cases hs : s' = s <;> simp [hs, he]
      omega
    · simp [h]
      omega

end Inv

end PlanMemory
end NetStorm

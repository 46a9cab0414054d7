import NetStorm.PlanPhases

/-!
# The run of the memory planner

The moments of `MXAllocMemory` are the states between its nodes and within each of the four
loops of a node, with the reads that are still pending. The counts are these reads at every
moment, and the storage of an output is placed once and for all when its node is passed.
-/
namespace NetStorm
namespace PlanMemory

variable {g : Graph} {m : MatchConfig} {nid : ℕ} {node : INode} {st₀ st : AllocState}

/-- The outputs that request storage do not have any. -/
theorem requested_spec {eids : List NodeEntry} (h : requested g nid node st = some eids) :
    eids.Nodup ∧ ∀ e ∈ eids, e.nodeId = nid ∧ st.storage e = kBadStorageID := by
  simp only [requested, Option.bind_eq_bind, Option.bind_eq_some_iff, Option.some.injEq] at h
  obtain ⟨sized, hsized, rfl⟩ := h
  set missing := (outputEntries nid node).filter fun e => st.storage e = kBadStorageID
  have hmap : sized.map Prod.snd = missing := by
    refine OptionTable.map_eq_of_mapM_eq_some (fun e p hp => ?_) hsized
    obtain ⟨size, -, rfl⟩ := Option.map_eq_some_iff.mp hp
    rfl
  have hperm : ((sized.foldl multimapInsert []).reverse.map Prod.snd).Perm missing := by
    rw [← hmap]
    refine (List.Perm.map Prod.snd (List.reverse_perm _)).trans ?_
    simpa using (foldl_multimapInsert_perm sized []).map Prod.snd
  constructor
  · refine hperm.nodup_iff.mpr ((List.Nodup.map ?_ List.nodup_range).filter _)
    intro i j hij
    exact congrArg NodeEntry.index hij
  · intro e he
    obtain ⟨he, hbad⟩ := List.mem_filter.mp (hperm.mem_iff.mp he)
    obtain ⟨i, -, rfl⟩ := List.mem_map.mp he
    exact ⟨rfl, of_decide_eq_true hbad⟩

variable (g m nid node st₀) in
/-- The states within a node that begins in `st₀`, with the reads that are pending in them. -/
inductive During : AllocState → List NodeEntry → Prop
  | inplace {l r : List ((ℕ × ℕ) × Bool)} {c : AllocState × List ℕ}
      (hl : node.inplacePairs = some (l ++ r))
      (hc : l.foldlM (inplaceStep g nid node) (st₀, []) = some c) : During c.1 (pendingFrom g nid)
  | request {st₁ st : AllocState} {l r : List NodeEntry}
      (h₁ : inplaceLoop g nid node st₀ = some st₁) (hl : requested g nid node st₁ = some (l ++ r))
      (hst : l.foldlM (requestStep g m nid) st₁ = some st) : During st (pendingFrom g nid)
  | freeInputs {st₁ st₂ st : AllocState} {l r : List ℕ}
      (h₁ : inplaceLoop g nid node st₀ = some st₁) (h₂ : requestLoop g m nid node st₁ = some st₂)
      (hl : List.range node.inputs.length = l ++ r)
      (hst : l.foldlM (freeInput nid node) st₂ = some st) :
      During st (r.filterMap node.readAt ++ pendingFrom g (nid + 1))
  | outputs {st₁ st₂ st₃ st : AllocState} {l r : List ℕ}
      (h₁ : inplaceLoop g nid node st₀ = some st₁) (h₂ : requestLoop g m nid node st₁ = some st₂)
      (h₃ : freeLoop nid node st₂ = some st₃) (hl : List.range node.numOutputs = l ++ r)
      (hst : l.foldlM (releaseOutput nid) st₃ = some st) : During st (pendingFrom g (nid + 1))

variable (g m) in
/-- The states of `MXAllocMemory`, with the reads that are pending in them. -/
inductive Moment (storage : NodeEntry → ℤ) : AllocState → List NodeEntry → Prop
  | between {k : ℕ} {st : AllocState} (hk : k ≤ g.nodes.length)
      (hst : allocNodes g m storage k = some st) : Moment storage st (pendingFrom g k)
  | during {nid : ℕ} {node : INode} {st₀ st : AllocState} {pending : List NodeEntry}
      (hst₀ : allocNodes g m storage nid = some st₀) (hk : g.nodes[nid]? = some node)
      (hop : node.isVariable = false) (h : During g m nid node st₀ st pending) :
      Moment storage st pending

section Node
variable (hk : g.nodes[nid]? = some node) (hop : node.isVariable = false)
  (hcompat : node.Compatible) (hfuture : ∀ e, nid ≤ e.nodeId → st₀.storage e < 0)
  (hinv : Inv st₀ (pendingFrom g nid))
include hk hop hcompat hfuture hinv

theorem inplace_inv {l r : List ((ℕ × ℕ) × Bool)} (hl : node.inplacePairs = some (l ++ r))
    {c : AllocState × List ℕ} (hc : l.foldlM (inplaceStep g nid node) (st₀, []) = some c) :
    InplaceInv g nid node st₀ c := by
  have hinit : InplaceInv g nid node st₀ (st₀, []) :=
    ⟨hinv, fun _ _ => rfl, fun e he hs => absurd (hfuture e he.ge) (not_lt.mpr hs)⟩
  refine (foldlM_remaining (P := fun todo c => (∀ p ∈ todo, p ∈ l ++ r) ∧
    InplaceInv g nid node st₀ c) (fun p todo c c' h hs => ⟨fun q hq =>
      h.1 q (List.mem_cons_of_mem _ hq), ?_⟩) ⟨fun p hp => hp, hinit⟩ hc).2
  exact h.2.step hk hop hcompat hfuture hl (h.1 p List.mem_cons_self) hs

theorem request_inv {st₁ : AllocState} (h₁ : inplaceLoop g nid node st₀ = some st₁)
    {l r : List NodeEntry} (hl : requested g nid node st₁ = some (l ++ r))
    (hst : l.foldlM (requestStep g m nid) st₁ = some st) : RequestInv g nid node st₀ r st := by
  simp only [inplaceLoop, Option.bind_eq_bind, Option.bind_eq_some_iff, Option.some.injEq] at h₁
  obtain ⟨pairs, hpairs, c, hc, rfl⟩ := h₁
  have hplace := inplace_inv hk hop hcompat hfuture hinv (by rwa [List.append_nil]) hc
  obtain ⟨hnodup, hbad⟩ := requested_spec hl
  exact foldlM_remaining (P := RequestInv g nid node st₀)
    (fun e todo st st' h hs => h.step hk hfuture hs) (hplace.request hk hop hnodup hbad) hst

theorem free_inv {st₁ st₂ : AllocState} (h₁ : inplaceLoop g nid node st₀ = some st₁)
    (h₂ : requestLoop g m nid node st₁ = some st₂) {l r : List ℕ}
    (hl : List.range node.inputs.length = l ++ r)
    (hst : l.foldlM (freeInput nid node) st₂ = some st) :
    FreeInv nid (pendingFrom g (nid + 1)) (List.range node.numOutputs)
      (r.filterMap node.readAt ++ pendingFrom g (nid + 1)) st := by
  obtain ⟨eids, heids, h₂⟩ := Option.bind_eq_some_iff.mp h₂
  have hrequest := request_inv hk hop hcompat hfuture hinv h₁ (by rwa [List.append_nil]) h₂
  have hfree := hrequest.free hk
  rw [pendingFrom_eq hk, INode.reads_of_op hop, hl] at hfree
  exact foldlM_remaining (P := fun r => FreeInv nid (pendingFrom g (nid + 1))
    (List.range node.numOutputs) (r.filterMap node.readAt ++ pendingFrom g (nid + 1)))
    (fun i r st st' h hs => h.step hs) hfree hst

theorem output_inv {st₁ st₂ st₃ : AllocState} (h₁ : inplaceLoop g nid node st₀ = some st₁)
    (h₂ : requestLoop g m nid node st₁ = some st₂) (h₃ : freeLoop nid node st₂ = some st₃)
    {l r : List ℕ} (hl : List.range node.numOutputs = l ++ r)
    (hst : l.foldlM (releaseOutput nid) st₃ = some st) :
    FreeInv nid (pendingFrom g (nid + 1)) r (pendingFrom g (nid + 1)) st := by
  have hfree := free_inv hk hop hcompat hfuture hinv h₁ h₂ (List.append_nil _).symm h₃
  rw [hl] at hfree
  exact foldlM_remaining (P := fun r => FreeInv nid (pendingFrom g (nid + 1)) r
    (pendingFrom g (nid + 1))) (fun i r st st' h hs => h.output hs) hfree hst

/-- The counts are the pending reads at every moment of the node. -/
theorem During.inv {pending : List NodeEntry} (h : During g m nid node st₀ st pending) :
    Inv st pending := by
  cases h with
  | inplace hl hc => exact (inplace_inv hk hop hcompat hfuture hinv hl hc).inv
  | request h₁ hl hst => exact (request_inv hk hop hcompat hfuture hinv h₁ hl hst).inv
  | freeInputs h₁ h₂ hl hst => exact (free_inv hk hop hcompat hfuture hinv h₁ h₂ hl hst).inv
  | outputs h₁ h₂ h₃ hl hst => exact (output_inv hk hop hcompat hfuture hinv h₁ h₂ h₃ hl hst).inv

end Node

theorem freeInput_storage {i : ℕ} {st' : AllocState} (h : freeInput nid node st i = some st') :
    st'.storage = st.storage := by
  rw [freeInput] at h
  split_ifs at h
  · rw [Option.some.inj h]
  · simp only [Option.bind_eq_bind, Option.bind_eq_some_iff] at h
    obtain ⟨e, -, h⟩ := h
    split_ifs at h
    · rw [Option.some.inj h]
    · simp only [Option.bind_eq_some_iff, Option.some.injEq] at h
      obtain ⟨a, -, rfl⟩ := h
      rfl
    · rw [← Option.some.inj h]

theorem releaseOutput_storage {i : ℕ} {st' : AllocState}
    (h : releaseOutput nid st i = some st') : st'.storage = st.storage := by
  simp only [releaseOutput, releaseUnread, Option.bind_eq_bind, Option.bind_eq_some_iff] at h
  obtain ⟨st₁, h₁, h⟩ := h
  have hst₁ : st₁.storage = st.storage := by
    split_ifs at h₁
    · simp only [Option.bind_eq_some_iff, Option.some.injEq] at h₁
      obtain ⟨a, -, rfl⟩ := h₁
      rfl
    · rw [Option.some.inj h₁]
  rw [← hst₁]
  split_ifs at h
  · rw [← Option.some.inj h]
  · rw [Option.some.inj h]

/-- What a node does: the reads up to it are over, and its outputs are placed. -/
theorem allocNode_spec (hk : g.nodes[nid]? = some node) (hcompat : node.Compatible)
    (hfuture : ∀ e, nid ≤ e.nodeId → st₀.storage e < 0) (hinv : Inv st₀ (pendingFrom g nid))
    (h : allocNode g m st₀ nid = some st) :
    Inv st (pendingFrom g (nid + 1)) ∧ (∀ e, e.nodeId ≠ nid → st.storage e = st₀.storage e) ∧
      ∀ e, e.nodeId = nid → 0 ≤ st.storage e →
        node.isVariable = false ∧ Placed g nid node st₀.storage st.storage e := by
  simp only [allocNode, hk, Option.bind_eq_bind, Option.bind_some] at h
  by_cases hop : node.isVariable = true
  · rw [if_pos hop] at h
    obtain rfl := Option.some.inj h
    rw [pendingFrom_eq hk, INode.reads, if_pos hop, List.nil_append] at hinv
    exact ⟨hinv, fun _ _ => rfl, fun e he hs => absurd (hfuture e he.ge) (not_lt.mpr hs)⟩
  · rw [if_neg hop] at h
    have hop : node.isVariable = false := by simpa using hop
    simp only [Option.bind_eq_some_iff] at h
    obtain ⟨st₁, h₁, st₂, h₂, st₃, h₃, h⟩ := h
    have hend := output_inv hk hop hcompat hfuture hinv h₁ h₂ h₃ (List.append_nil _).symm h
    obtain ⟨eids, heids, hst₂⟩ := Option.bind_eq_some_iff.mp h₂
    have hrequest := request_inv hk hop hcompat hfuture hinv h₁ (by rwa [List.append_nil]) hst₂
    have hstorage₃ : st₃.storage = st₂.storage :=
      foldlM_remaining (P := fun _ st => st.storage = st₂.storage) (r := [])
        (fun _ _ _ _ hs hstep => (freeInput_storage hstep).trans hs) rfl h₃
    have hstorage : st.storage = st₂.storage :=
      foldlM_remaining (P := fun _ st => st.storage = st₂.storage) (r := [])
        (fun _ _ _ _ hs hstep => (releaseOutput_storage hstep).trans hs) hstorage₃ h
    rw [hstorage]
    exact ⟨hend.inv, hrequest.others, fun e he hs => ⟨hop, hrequest.placed e he hs⟩⟩

theorem allocNodes_succ {storage : NodeEntry → ℤ} {k : ℕ}
    (h : allocNodes g m storage (k + 1) = some st) :
    ∃ st₀, allocNodes g m storage k = some st₀ ∧ allocNode g m st₀ k = some st := by
  rw [allocNodes, List.range_succ, List.foldlM_append, Option.bind_eq_bind,
    Option.bind_eq_some_iff] at h
  obtain ⟨st₀, hst₀, h⟩ := h
  exact ⟨st₀, hst₀, by simpa using h⟩

section Run
variable (hcompat : ∀ node ∈ g.nodes, node.Compatible) {storage : NodeEntry → ℤ}
  (hneg : ∀ e, storage e < 0)
include hcompat hneg

theorem allocNodes_inv {k : ℕ} (hk : k ≤ g.nodes.length)
    (h : allocNodes g m storage k = some st) :
    Inv st (pendingFrom g k) ∧ ∀ e, k ≤ e.nodeId → st.storage e < 0 := by
  induction k generalizing st with
  | zero =>
    obtain rfl : AllocState.init storage = st := by simpa [allocNodes] using h
    exact ⟨Inv.init storage hneg _, fun e _ => hneg e⟩
  | succ k ih =>
    obtain ⟨st₀, hst₀, hstep⟩ := allocNodes_succ h
    obtain ⟨hinv, hfuture⟩ := ih (by omega) hst₀
    have hnode : g.nodes[k]? = some g.nodes[k] := List.getElem?_eq_getElem hk
    obtain ⟨hinv', hothers, -⟩ := allocNode_spec hnode (hcompat _ (List.getElem_mem hk)) hfuture
      hinv hstep
    refine ⟨hinv', fun e he => ?_⟩
    rw [hothers e (by omega)]
    exact hfuture e (by omega)

/-- The counts are the pending reads at every moment. -/
theorem Moment.inv {pending : List NodeEntry} (h : Moment g m storage st pending) :
    Inv st pending := by
  cases h with
  | between hk hst => exact (allocNodes_inv hcompat hneg hk hst).1
  | during hst₀ hk hop h =>
    obtain ⟨hlt, rfl⟩ := List.getElem?_eq_some_iff.mp hk
    obtain ⟨hinv, hfuture⟩ := allocNodes_inv hcompat hneg hlt.le hst₀
    exact h.inv hk hop (hcompat _ (List.getElem_mem hlt)) hfuture hinv

/-- The storage of an entry does not change once its node is passed. -/
theorem allocNodes_le {k k' : ℕ} (hk : k ≤ k') (hk' : k' ≤ g.nodes.length)
    (h : allocNodes g m storage k' = some st) :
    ∃ st', allocNodes g m storage k = some st' ∧
      ∀ e, e.nodeId < k → st.storage e = st'.storage e := by
  induction k', hk using Nat.le_induction generalizing st with
  | base => exact ⟨st, h, fun _ _ => rfl⟩
  | succ k' hkk' ih =>
    obtain ⟨st₀, hst₀, hstep⟩ := allocNodes_succ h
    obtain ⟨hinv, hfuture⟩ := allocNodes_inv hcompat hneg (by omega) hst₀
    have hnode : g.nodes[k']? = some g.nodes[k'] := List.getElem?_eq_getElem hk'
    obtain ⟨-, hothers, -⟩ := allocNode_spec hnode (hcompat _ (List.getElem_mem hk')) hfuture
      hinv hstep
    obtain ⟨st', hst', hsame⟩ := ih (by omega) hst₀
    exact ⟨st', hst', fun e he => by rw [hothers e (by omega), hsame e he]⟩

/-- Where the finished plan places an output. -/
theorem mxAllocMemory_placed (h : mxAllocMemory g m storage = some st) {e : NodeEntry}
    (hk : g.nodes[e.nodeId]? = some node) (hs : 0 ≤ st.storage e) :
    node.isVariable = false ∧ (Shared g node st.storage e ∨
      ((∀ a ∈ pendingFrom g (e.nodeId + 1), a.nodeId < e.nodeId → st.storage a ≠ st.storage e) ∧
        Alone e.nodeId st.storage e)) := by
  obtain ⟨hlt, rfl⟩ := List.getElem?_eq_some_iff.mp hk
  obtain ⟨st₁, hst₁, hsame⟩ := allocNodes_le hcompat hneg hlt le_rfl h
  obtain ⟨st₀, hst₀, hstep⟩ := allocNodes_succ hst₁
  obtain ⟨hinv, hfuture⟩ := allocNodes_inv hcompat hneg hlt.le hst₀
  obtain ⟨-, hothers, hplaced⟩ := allocNode_spec hk (hcompat _ (List.getElem_mem hlt)) hfuture
    hinv hstep
  have he := hsame e (Nat.lt_succ_self _)
  obtain ⟨hop, hplaced⟩ := hplaced e rfl (he ▸ hs)
  refine ⟨hop, ?_⟩
  obtain ⟨pairs, p, eIn, hpairs, hp, hindex, hread, hident, heq⟩ | ⟨hlater, halone⟩ := hplaced
  · have hin := nodeId_lt_of_readAt hk hread
    exact .inl ⟨pairs, p, eIn, hpairs, hp, hindex, hread, hident,
      by rw [hsame eIn (by omega), heq, he]⟩
  · refine .inr ⟨fun a ha hlt' => ?_, fun e' he' hne => ?_⟩
    · rw [hsame a (by omega), hothers a hlt'.ne, he]
      exact hlater a ha
    · rw [hsame e' (by omega), he]
      exact halone e' he' hne

/-- A variable keeps its own memory. -/
theorem mxAllocMemory_variable (h : mxAllocMemory g m storage = some st) {e : NodeEntry}
    (hk : g.nodes[e.nodeId]? = some node) (hvar : node.isVariable = true) : st.storage e < 0 := by
  by_contra hs
  have := (mxAllocMemory_placed hcompat hneg h hk (not_lt.mp hs)).1
  simp [hvar] at this

end Run

end PlanMemory
end NetStorm

import NetStorm.PlanInvariant

/-!
# The phases of a node

What each of the four loops of a node keeps. An output shares its storage with an input by an
identity pair, or it is the only one of the node's outputs there and nothing that is read
later is stored with it.
-/
namespace NetStorm
namespace PlanMemory

/-- The output has the storage of a read input that it is identical to. -/
def Shared (g : Graph) (node : INode) (storage : NodeEntry → ℤ) (e : NodeEntry) : Prop :=
  ∃ pairs p eIn, node.inplacePairs = some pairs ∧ p ∈ pairs ∧ p.1.2 = e.index ∧
    node.readAt p.1.1 = some eIn ∧ realIdentity g p.2 e eIn = some true ∧
    storage eIn = storage e

/-- No other output of the node has the storage of this one. -/
def Alone (nid : ℕ) (storage : NodeEntry → ℤ) (e : NodeEntry) : Prop :=
  ∀ e' : NodeEntry, e'.nodeId = nid → e' ≠ e → storage e' ≠ storage e

variable {g : Graph} {nid : ℕ} {node : INode}

theorem nodeId_lt_of_readAt (hk : g.nodes[nid]? = some node) {i : ℕ} {e : NodeEntry}
    (he : node.readAt i = some e) : e.nodeId < nid :=
  g.input_lt nid node hk _ (List.mem_of_getElem? (INode.readAt_eq_some_iff.mp he).2)

/-- The storage of another output of the node does not matter. -/
theorem Shared.update (hk : g.nodes[nid]? = some node) {storage : NodeEntry → ℤ}
    {e e' : NodeEntry} (h : Shared g node storage e') (hne : e' ≠ e) (he : e.nodeId = nid) (s : ℤ) :
    Shared g node (Function.update storage e s) e' := by
  obtain ⟨pairs, p, eIn, hpairs, hp, hindex, hread, hident, hs⟩ := h
  have hin : eIn ≠ e := fun heq => by
    have := nodeId_lt_of_readAt hk hread
    rw [heq, he] at this
    exact lt_irrefl _ this
  refine ⟨pairs, p, eIn, hpairs, hp, hindex, hread, hident, ?_⟩
  rw [Function.update_of_ne hin, Function.update_of_ne hne, hs]

theorem Alone.update {storage : NodeEntry → ℤ} {e e' : NodeEntry} (h : Alone nid storage e')
    (hne : e' ≠ e) {s : ℤ} (hs : storage e' ≠ s) : Alone nid (Function.update storage e s) e' := by
  intro a ha hae
  rw [Function.update_of_ne hne]
  by_cases heq : a = e
  · rw [heq, Function.update_self]
    exact hs.symm
  · rw [Function.update_of_ne heq]
    exact h a ha hae

section Inplace
variable {c c' : AllocState × List ℕ} {p : (ℕ × ℕ) × Bool}

/-- All that an in-place pair can do. -/
theorem inplaceStep_cases (h : inplaceStep g nid node c p = some c') :
    c' = c ∨ ∃ eIn identity, node.inputs[p.1.1]? = some eIn ∧
      realIdentity g p.2 ⟨nid, p.1.2⟩ eIn = some identity ∧ p.1.1 ∉ c.2 ∧
      c.1.storage ⟨nid, p.1.2⟩ = kBadStorageID ∧ 0 ≤ c.1.storage eIn ∧
      ((c.1.refCount (c.1.storage eIn) = 1 ∧ node.ignoreAllInputs = false) ∨ identity = true) ∧
      0 < refCounts g ⟨nid, p.1.2⟩ ∧
      c' = (c.1.share (refCounts g ⟨nid, p.1.2⟩) ⟨nid, p.1.2⟩ eIn p.1.1, p.1.1 :: c.2) := by
  simp only [inplaceStep, Option.bind_eq_bind, Option.bind_eq_some_iff] at h
  obtain ⟨eIn, hin, identity, hident, h⟩ := h
  split_ifs at h with hcond
  · obtain ⟨same, -, h⟩ := Option.bind_eq_some_iff.mp h
    split_ifs at h
    · obtain ⟨h₁, h₂, h₃, h₄, h₅⟩ := hcond
      exact .inr ⟨eIn, identity, hin, hident, h₁, h₂, h₃, h₄, h₅, (Option.some.inj h).symm⟩
    · exact .inl (Option.some.inj h).symm
  · exact .inl (Option.some.inj h).symm

/-- Identity needs the flag of the pair. -/
theorem realIdentity_flag {identity : Bool} {eOut eIn : NodeEntry}
    (h : realIdentity g identity eOut eIn = some true) : identity = true := by
  cases identity with
  | true => rfl
  | false => simp [realIdentity] at h

variable (g nid node) in
/-- The state within the loop over the in-place pairs. -/
structure InplaceInv (st₀ : AllocState) (c : AllocState × List ℕ) : Prop where
  inv : Inv c.1 (pendingFrom g nid)
  others : ∀ e, e.nodeId ≠ nid → c.1.storage e = st₀.storage e
  placed : ∀ e, e.nodeId = nid → 0 ≤ c.1.storage e → e ∈ pendingFrom g nid ∧
    (∃ i ∈ c.2, ∃ eIn, node.readAt i = some eIn ∧ c.1.storage eIn = c.1.storage e) ∧
    (Shared g node c.1.storage e ∨
      ((pendingFrom g nid).countP (fun a => st₀.storage a = c.1.storage e) = 1 ∧
        Alone nid c.1.storage e))

theorem Inv.share {st : AllocState} {pending : List NodeEntry} (h : Inv st pending)
    {eOut eIn : NodeEntry} {count : ℤ} (input : ℕ) (hout : st.storage eOut < 0)
    (hin : 0 ≤ st.storage eIn) (hmem : eIn ∈ pending) (hcount : pending.count eOut = count) :
    Inv (st.share count eOut eIn input) pending where
  refs := by
    intro s hs
    change Function.update st.refCount (st.storage eIn) (st.refCount (st.storage eIn) + count) s =
      pending.countP fun e => Function.update st.storage eOut (st.storage eIn) e = s
    rw [countP_update pending st.storage (by omega), Nat.cast_add, ← h.refs s hs]
    by_cases hs' : st.storage eIn = s
    · rw [if_pos hs', hs', Function.update_self, hcount]
    · rw [if_neg hs', Function.update_of_ne (Ne.symm hs'), Nat.cast_zero, add_zero]
  valid := h.valid
  free := by
    intro s hs
    have hne : s ≠ st.storage eIn := fun heq => h.not_free hmem hin (heq ▸ hs)
    simp only [AllocState.share, Function.update_of_ne hne]
    exact h.free s hs
  lt := by
    intro e
    by_cases he : e = eOut
    · rw [he]
      simpa [AllocState.share] using h.lt eIn
    · simpa [AllocState.share, Function.update_of_ne he] using h.lt e

/-- Two inputs that are read from one storage id are two pending reads of it. -/
theorem two_le_countP_reads (storage : NodeEntry → ℤ) (hk : g.nodes[nid]? = some node)
    (hop : node.isVariable = false) {i j : ℕ} (hij : i ≠ j) {a b : NodeEntry}
    (ha : node.readAt i = some a) (hb : node.readAt j = some b) (hab : storage a = storage b) :
    2 ≤ (pendingFrom g nid).countP fun e => storage e = storage b := by
  have hlt : ∀ {i : ℕ} {e : NodeEntry}, node.readAt i = some e →
      i ∈ List.range node.inputs.length := fun he =>
    List.mem_range.mpr (List.getElem?_eq_some_iff.mp (INode.readAt_eq_some_iff.mp he).2).1
  have htwo : 2 ≤ node.reads.countP fun e => storage e = storage b := by
    rw [INode.reads_of_op hop, List.countP_filterMap]
    exact two_le_countP hij (hlt ha) (hlt hb) (by simp [ha, hab]) (by simp [hb])
  rw [pendingFrom_eq hk, List.countP_append]
  omega

/-- An output that shares storage does so with an input that is read. -/
theorem readAt_of_share (hcompat : node.Compatible) {pairs : List ((ℕ × ℕ) × Bool)}
    (hpairs : node.inplacePairs = some pairs) (hp : p ∈ pairs) {eIn : NodeEntry} {identity : Bool}
    (hin : node.inputs[p.1.1]? = some eIn)
    (hident : realIdentity g p.2 ⟨nid, p.1.2⟩ eIn = some identity)
    (hcond : (c.1.refCount (c.1.storage eIn) = 1 ∧ node.ignoreAllInputs = false) ∨
      identity = true) : node.readAt p.1.1 = some eIn := by
  refine INode.readAt_eq_some_iff.mpr ⟨fun hignored => ?_, hin⟩
  obtain ⟨hflag, hall⟩ := hcompat pairs hpairs p hp hignored
  obtain ⟨-, hnot⟩ | rfl := hcond
  · simp [hall] at hnot
  · simp [realIdentity_flag hident] at hflag

variable (hk : g.nodes[nid]? = some node) (hop : node.isVariable = false)
  (hcompat : node.Compatible) {st₀ : AllocState} (hfuture : ∀ e, nid ≤ e.nodeId → st₀.storage e < 0)
include hk hop hcompat hfuture

omit hk hop hcompat in
/-- The one pending read of a storage id did so already at the start of the node. -/
theorem InplaceInv.countP_eq_one (h : InplaceInv g nid node st₀ c) {eIn : NodeEntry}
    (hlt : eIn.nodeId < nid) (hmem : eIn ∈ pendingFrom g nid) (hsin : 0 ≤ c.1.storage eIn)
    (hone : (pendingFrom g nid).countP (fun e => c.1.storage e = c.1.storage eIn) = 1) :
    (pendingFrom g nid).countP (fun a => st₀.storage a = c.1.storage eIn) = 1 := by
  refine le_antisymm ?_ (List.countP_pos_iff.mpr ⟨eIn, hmem, ?_⟩)
  · rw [← hone]
    refine List.countP_mono_left fun a _ ha => ?_
    have ha : st₀.storage a = c.1.storage eIn := of_decide_eq_true ha
    have hne : a.nodeId ≠ nid := fun heq => by
      have := hfuture a heq.ge
      omega
    simpa [h.others a hne] using ha
  · simpa using (h.others eIn hlt.ne).symm

omit hk hop hcompat hfuture in
/-- An output that has the only pending read of a storage id is there alone. -/
theorem InplaceInv.alone (h : InplaceInv g nid node st₀ c) {eIn e : NodeEntry}
    (hlt : eIn.nodeId < nid) (hmem : eIn ∈ pendingFrom g nid) (hsin : 0 ≤ c.1.storage eIn)
    (hone : (pendingFrom g nid).countP (fun e => c.1.storage e = c.1.storage eIn) = 1)
    {storage : NodeEntry → ℤ} (hself : storage e = c.1.storage eIn)
    (hold : ∀ e', e' ≠ e → storage e' = c.1.storage e') : Alone nid storage e := by
  intro e' he' hne heq
  rw [hold e' hne, hself] at heq
  have hmem' := (h.placed e' he' (heq ▸ hsin)).1
  have hdiff : eIn ≠ e' := fun h => by
    rw [h, he'] at hlt
    exact lt_irrefl _ hlt
  have := two_le_countP hdiff hmem hmem' (p := fun e => c.1.storage e = c.1.storage eIn)
    (by simp) (by simp [heq])
  omega

theorem InplaceInv.step (h : InplaceInv g nid node st₀ c) {pairs : List ((ℕ × ℕ) × Bool)}
    (hpairs : node.inplacePairs = some pairs) (hp : p ∈ pairs)
    (hs : inplaceStep g nid node c p = some c') : InplaceInv g nid node st₀ c' := by
  obtain rfl | ⟨eIn, identity, hin, hident, htaken, hout, hsin, hcond, hrc, rfl⟩ :=
    inplaceStep_cases hs
  · exact h
  have hread := readAt_of_share hcompat hpairs hp hin hident hcond
  have hlt : ∀ {i : ℕ} {e : NodeEntry}, node.readAt i = some e → e.nodeId < nid :=
    nodeId_lt_of_readAt hk
  have hmem : eIn ∈ pendingFrom g nid := by
    rw [pendingFrom_eq hk]
    exact List.mem_append_left _ (INode.mem_reads hop (INode.readAt_eq_some_iff.mp hread).1 hin)
  have hcount : ((pendingFrom g nid).count ⟨nid, p.1.2⟩ : ℤ) = refCounts g ⟨nid, p.1.2⟩ :=
    count_pendingFrom (List.getElem?_eq_some_iff.mp hk).1.le (Nat.le_refl nid)
  have hout' : c.1.storage ⟨nid, p.1.2⟩ < 0 := by
    rw [hout]
    decide
  set st' := c.1.share (refCounts g ⟨nid, p.1.2⟩) ⟨nid, p.1.2⟩ eIn p.1.1 with hst'
  have hnew : st'.storage ⟨nid, p.1.2⟩ = c.1.storage eIn := by simp [hst', AllocState.share]
  have hold : ∀ e : NodeEntry, e ≠ ⟨nid, p.1.2⟩ → st'.storage e = c.1.storage e := fun e he => by
    simp [hst', AllocState.share, Function.update_of_ne he]
  have hinput : ∀ {i : ℕ} {e : NodeEntry}, node.readAt i = some e →
      st'.storage e = c.1.storage e := fun he => hold _ fun heq => by
    have := hlt he
    rw [heq] at this
    exact lt_irrefl _ this
  refine ⟨h.inv.share _ hout' hsin hmem hcount, fun e he => ?_, fun e he hse => ?_⟩
  · rw [hold e fun heq => he (by rw [heq]), h.others e he]
  by_cases heq : e = ⟨nid, p.1.2⟩
  · subst heq
    have hmemOut : (⟨nid, p.1.2⟩ : NodeEntry) ∈ pendingFrom g nid :=
      List.count_pos_iff.mp (by omega)
    refine ⟨hmemOut, ⟨p.1.1, List.mem_cons_self, eIn, hread, ?_⟩, ?_⟩
    · rw [hinput hread, hnew]
    obtain ⟨hone, -⟩ | rfl := hcond
    · right
      rw [h.inv.refs _ hsin] at hone
      have hone : (pendingFrom g nid).countP (fun e => c.1.storage e = c.1.storage eIn) = 1 := by
        exact_mod_cast hone
      rw [hnew]
      exact ⟨h.countP_eq_one hfuture (hlt hread) hmem hsin hone,
        h.alone (hlt hread) hmem hsin hone hnew hold⟩
    · exact .inl ⟨pairs, p, eIn, hpairs, hp, rfl, hread, hident, by rw [hinput hread, hnew]⟩
  · rw [hold e heq] at hse
    obtain ⟨hmem', ⟨i, hi, a, ha, has⟩, hplaced⟩ := h.placed e he hse
    refine ⟨hmem', ⟨i, List.mem_cons_of_mem _ hi, a, ha, by rw [hinput ha, hold e heq, has]⟩, ?_⟩
    obtain hshared | ⟨hone, halone⟩ := hplaced
    · exact .inl (hshared.update hk heq rfl _)
    · right
      rw [hold e heq]
      refine ⟨hone, halone.update heq fun hse' => ?_⟩
      -- The input of the new output would be a second read of this storage.
      have htwo := two_le_countP_reads st₀.storage hk hop (fun hij : i = p.1.1 => htaken (hij ▸ hi))
        ha hread (by rw [← h.others a (hlt ha).ne, ← h.others eIn (hlt hread).ne, has, hse'])
      rw [← h.others eIn (hlt hread).ne, ← hse'] at htwo
      omega

end Inplace

variable (g nid node) in
/-- Where an output is placed: with an input that it is identical to, or apart from the other
outputs and all that is read by later nodes. -/
def Placed (before storage : NodeEntry → ℤ) (e : NodeEntry) : Prop :=
  Shared g node storage e ∨
    ((∀ a ∈ pendingFrom g (nid + 1), before a ≠ storage e) ∧ Alone nid storage e)

variable (g nid node) in
/-- The state within the loop of requests, with the outputs that are still to come. -/
structure RequestInv (st₀ : AllocState) (todo : List NodeEntry) (st : AllocState) : Prop where
  inv : Inv st (pendingFrom g nid)
  others : ∀ e, e.nodeId ≠ nid → st.storage e = st₀.storage e
  placed : ∀ e, e.nodeId = nid → 0 ≤ st.storage e → Placed g nid node st₀.storage st.storage e
  held : ∀ e, e.nodeId = nid → 0 ≤ st.storage e → st.storage e ∉ st.allocator.freeIds
  unread : ∀ e, e.nodeId = nid → 0 ≤ st.storage e → e ∉ pendingFrom g nid →
    st.refCount (st.storage e) = 0 ∧ Alone nid st.storage e
  todo_nodup : todo.Nodup
  todo_bad : ∀ e ∈ todo, e.nodeId = nid ∧ st.storage e = kBadStorageID

section Request
variable {st₀ st st' : AllocState} {todo : List NodeEntry} {e : NodeEntry} {m : MatchConfig}

/-- After the in-place pairs, nothing else that is read later is stored with an output that
shares without identity. -/
theorem InplaceInv.request {c : AllocState × List ℕ} (hk : g.nodes[nid]? = some node)
    (hop : node.isVariable = false) (h : InplaceInv g nid node st₀ c) (hnodup : todo.Nodup)
    (hbad : ∀ e ∈ todo, e.nodeId = nid ∧ c.1.storage e = kBadStorageID) :
    RequestInv g nid node st₀ todo c.1 where
  inv := h.inv
  others := h.others
  placed := by
    intro e he hs
    obtain ⟨-, ⟨i, -, a, ha, has⟩, hshared | ⟨hone, halone⟩⟩ := h.placed e he hs
    · exact .inl hshared
    refine .inr ⟨fun b hb hbs => ?_, halone⟩
    have hreads : 0 < node.reads.countP fun a => st₀.storage a = c.1.storage e := by
      obtain ⟨hi, hin⟩ := INode.readAt_eq_some_iff.mp ha
      refine List.countP_pos_iff.mpr ⟨a, INode.mem_reads hop hi hin, ?_⟩
      simpa [← h.others a (nodeId_lt_of_readAt hk ha).ne] using has
    have hlater : 0 < (pendingFrom g (nid + 1)).countP fun a => st₀.storage a = c.1.storage e :=
      List.countP_pos_iff.mpr ⟨b, hb, by simpa using hbs⟩
    rw [pendingFrom_eq hk, List.countP_append] at hone
    omega
  held := fun e he hs => h.inv.not_free (h.placed e he hs).1 hs
  unread := fun e he hs hnot => absurd (h.placed e he hs).1 hnot
  todo_nodup := hnodup
  todo_bad := hbad

theorem requestStep_cases (h : requestStep g m nid st e = some st') : ∃ devId sid a,
    GraphAllocator.request m.matchRange m.nodeColor st.allocator devId (g.shape e) nid =
      some (sid, a) ∧
    st' = { st with
      allocator := a
      refCount := if 0 ≤ sid then Function.update st.refCount sid (refCounts g e) else st.refCount
      storage := Function.update st.storage e sid } := by
  simp only [requestStep, Option.bind_eq_bind, Option.bind_eq_some_iff, Option.some.injEq] at h
  obtain ⟨⟨sid, a⟩, hr, rfl⟩ := h
  exact ⟨_, sid, a, hr, rfl⟩

/-- A block is granted to an output that has none. No pending read may be stored there. -/
theorem Inv.grant {pending : List NodeEntry} (h : Inv st pending) {sid : ℤ} {a : GraphAllocator}
    (hvalid : a.Valid) (hgrant : st.allocator.Granted sid a) (hneg : st.storage e < 0)
    (hfresh : ∀ b ∈ pending, st.storage b ≠ sid) {count : ℤ} (hcount : (pending.count e : ℤ) = count) :
    Inv { st with
      allocator := a
      refCount := Function.update st.refCount sid count
      storage := Function.update st.storage e sid } pending where
  refs := by
    intro s hs
    change Function.update st.refCount sid count s =
      pending.countP fun a => Function.update st.storage e sid a = s
    rw [countP_update _ st.storage (by omega), Nat.cast_add]
    by_cases hsid : sid = s
    · subst hsid
      have hzero : pending.countP (fun a => st.storage a = sid) = 0 :=
        List.countP_eq_zero.mpr fun b hb hbs => hfresh b hb (of_decide_eq_true hbs)
      rw [if_pos rfl, Function.update_self, hzero, hcount, Nat.cast_zero, zero_add]
    · rw [if_neg hsid, Function.update_of_ne (Ne.symm hsid), h.refs s hs, Nat.cast_zero, add_zero]
  valid := hvalid
  free := by
    intro s hs
    have hne : s ≠ sid := fun heq => hgrant.notMem (heq ▸ hs)
    simp only [Function.update_of_ne hne]
    exact h.free s (hgrant.subset s hs)
  lt := by
    intro b
    by_cases hb : b = e
    · simpa [hb] using hgrant.id_lt
    · simp only [Function.update_of_ne hb]
      have := h.lt b
      have := hgrant.mono
      omega

/-- What is stored in a granted block is from before the node, and is not read any more. -/
theorem RequestInv.fresh (h : RequestInv g nid node st₀ todo st) {sid : ℤ} {a : GraphAllocator}
    (hgrant : st.allocator.Granted sid a) {b : NodeEntry} (hb : st.storage b = sid) :
    b.nodeId ≠ nid ∧ b ∉ pendingFrom g nid := by
  have hs : 0 ≤ st.storage b := hb ▸ hgrant.nonneg
  obtain hfree | hnew := hgrant.source
  · exact ⟨fun hid => h.held b hid hs (hb ▸ hfree), fun hmem => h.inv.not_free hmem hs (hb ▸ hfree)⟩
  · have := h.inv.lt b
    omega

variable (hk : g.nodes[nid]? = some node)
  (hfuture : ∀ e, nid ≤ e.nodeId → st₀.storage e < 0)
include hk hfuture

/-- A granted block. -/
theorem RequestInv.grant (h : RequestInv g nid node st₀ (e :: todo) st) {sid : ℤ}
    {a : GraphAllocator} (hvalid : a.Valid) (hgrant : st.allocator.Granted sid a) :
    RequestInv g nid node st₀ todo { st with
      allocator := a
      refCount := Function.update st.refCount sid (refCounts g e)
      storage := Function.update st.storage e sid } := by
  obtain ⟨he, hbad⟩ := h.todo_bad e List.mem_cons_self
  have hneg : st.storage e < 0 := by
    rw [hbad]
    decide
  have hfresh : ∀ b, st.storage b = sid → b.nodeId ≠ nid ∧ b ∉ pendingFrom g nid :=
    fun b => h.fresh hgrant
  have hcount : ((pendingFrom g nid).count e : ℤ) = refCounts g e :=
    count_pendingFrom (List.getElem?_eq_some_iff.mp hk).1.le he.ge
  have halone : Alone nid (Function.update st.storage e sid) e := by
    intro b hb hne
    rw [Function.update_self, Function.update_of_ne hne]
    exact fun hs => (hfresh b hs).1 hb
  refine ⟨h.inv.grant hvalid hgrant hneg (fun b hb hs => (hfresh b hs).2 hb) hcount, ?_, ?_, ?_, ?_,
    (List.nodup_cons.mp h.todo_nodup).2, ?_⟩
  · intro b hb
    have hne : b ≠ e := fun heq => hb (heq ▸ he)
    simp only [Function.update_of_ne hne]
    exact h.others b hb
  · intro b hb hs
    by_cases hbe : b = e
    · subst hbe
      refine .inr ⟨fun x hx hxs => ?_, halone⟩
      simp only [Function.update_self] at hxs
      have hne : x.nodeId ≠ nid := fun heq => by
        have := hfuture x heq.ge
        have := hgrant.nonneg
        omega
      rw [← h.others x hne] at hxs
      refine (hfresh x hxs).2 ?_
      rw [pendingFrom_eq hk]
      exact List.mem_append_right _ hx
    · have hb' : Function.update st.storage e sid b = st.storage b := Function.update_of_ne hbe _ _
      obtain hshared | ⟨hlater, hb₁⟩ := h.placed b hb (hb' ▸ hs)
      · exact .inl (hshared.update hk hbe he sid)
      · exact .inr ⟨by simpa only [hb'] using hlater, hb₁.update hbe fun hs => (hfresh b hs).1 hb⟩
  · intro b hb hs
    by_cases hbe : b = e
    · subst hbe
      simpa using hgrant.notMem
    · simp only [Function.update_of_ne hbe] at hs ⊢
      exact fun hmem => h.held b hb hs (hgrant.subset _ hmem)
  · intro b hb hs hnot
    by_cases hbe : b = e
    · subst hbe
      refine ⟨?_, halone⟩
      simp only [Function.update_self]
      rw [← hcount, List.count_eq_zero.mpr hnot, Nat.cast_zero]
    · have hb' : Function.update st.storage e sid b = st.storage b := Function.update_of_ne hbe _ _
      have hne : st.storage b ≠ sid := fun hs => (hfresh b hs).1 hb
      obtain ⟨hzero, hb₁⟩ := h.unread b hb (hb' ▸ hs) hnot
      exact ⟨by simpa [hb', Function.update_of_ne hne] using hzero, hb₁.update hbe hne⟩
  · intro b hb
    have hne : b ≠ e := fun heq => (List.nodup_cons.mp h.todo_nodup).1 (heq ▸ hb)
    simp only [Function.update_of_ne hne]
    exact h.todo_bad b (List.mem_cons_of_mem _ hb)

theorem RequestInv.step (h : RequestInv g nid node st₀ (e :: todo) st)
    (hs : requestStep g m nid st e = some st') : RequestInv g nid node st₀ todo st' := by
  obtain ⟨devId, sid, a, hr, rfl⟩ := requestStep_cases hs
  obtain ⟨rfl, rfl⟩ | ⟨hvalid, hgrant⟩ := GraphAllocator.request_cases h.inv.valid hr
  · have hself : Function.update st.storage e kBadStorageID = st.storage :=
      Function.update_eq_self_iff.mpr (h.todo_bad e List.mem_cons_self).2.symm
    rw [if_neg (by decide), hself]
    exact { h with
      todo_nodup := (List.nodup_cons.mp h.todo_nodup).2
      todo_bad := fun b hb => h.todo_bad b (List.mem_cons_of_mem _ hb) }
  · rw [if_pos hgrant.nonneg]
    exact h.grant hk hfuture hvalid hgrant

end Request

variable (nid) in
/-- The state while inputs are freed, and the outputs with these indices after them. An output
that nothing reads still has its storage for itself. -/
structure FreeInv (later : List NodeEntry) (indices : List ℕ) (pending : List NodeEntry)
    (st : AllocState) : Prop where
  inv : Inv st pending
  nodup : indices.Nodup
  unread : ∀ e : NodeEntry, e.nodeId = nid → e.index ∈ indices → 0 ≤ st.storage e → e ∉ later →
    st.refCount (st.storage e) = 0 ∧ st.storage e ∉ st.allocator.freeIds ∧
      Alone nid st.storage e

section Free
variable {st₀ st st' : AllocState} {pending later : List NodeEntry} {indices : List ℕ}

theorem RequestInv.free (hk : g.nodes[nid]? = some node) {todo : List NodeEntry}
    (h : RequestInv g nid node st₀ todo st) :
    FreeInv nid (pendingFrom g (nid + 1)) (List.range node.numOutputs) (pendingFrom g nid) st where
  inv := h.inv
  nodup := List.nodup_range
  unread := by
    intro e he _ hs hnot
    have hnot' : e ∉ pendingFrom g nid := by
      rw [pendingFrom_eq hk, List.mem_append, not_or]
      refine ⟨fun hmem => ?_, hnot⟩
      have := g.input_lt nid node hk e (INode.mem_inputs_of_mem_reads hmem)
      exact absurd he this.ne
    obtain ⟨hzero, halone⟩ := h.unread e he hs hnot'
    exact ⟨hzero, h.held e he hs, halone⟩

/-- A block without pending reads becomes free. -/
theorem Inv.release (h : Inv st pending) {sid : ℤ} {node : ℕ} {a : GraphAllocator}
    (hs : 0 ≤ sid) (hzero : st.refCount sid = 0) (hfree : sid ∉ st.allocator.freeIds)
    (hr : st.allocator.release sid node = some a) : Inv { st with allocator := a } pending := by
  obtain ⟨hvalid, hmem, hlen⟩ := GraphAllocator.release_spec h.valid hs hfree hr
  refine ⟨h.refs, hvalid, fun s hs' => ?_, fun e => ?_⟩
  · obtain rfl | hs' := (hmem s).mp hs'
    · exact hzero
    · exact h.free s hs'
  · simpa [hlen] using h.lt e

/-- The next pending read happens. -/
theorem Inv.read {e : NodeEntry} (h : Inv st (e :: pending)) (hs : 0 ≤ st.storage e) :
    Inv { st with
      refCount := Function.update st.refCount (st.storage e) (st.refCount (st.storage e) - 1) }
      pending where
  refs := by
    intro s hs'
    change Function.update st.refCount (st.storage e) (st.refCount (st.storage e) - 1) s =
      pending.countP fun a => st.storage a = s
    have hrefs := h.refs s hs'
    rw [List.countP_cons, Nat.cast_add] at hrefs
    by_cases heq : st.storage e = s
    · subst heq
      simpa [sub_eq_iff_eq_add] using hrefs
    · simpa [Function.update_of_ne (Ne.symm heq), heq] using hrefs
  valid := h.valid
  free := by
    intro s hs'
    have hne : s ≠ st.storage e := fun heq => h.not_free List.mem_cons_self hs (heq ▸ hs')
    simpa [Function.update_of_ne hne] using h.free s hs'
  lt := h.lt

theorem Inv.skip {e : NodeEntry} (h : Inv st (e :: pending)) (hs : st.storage e < 0) :
    Inv st pending where
  refs := by
    intro s hs'
    have hne : st.storage e ≠ s := by omega
    simpa [List.countP_cons, hne] using h.refs s hs'
  valid := h.valid
  free := h.free
  lt := h.lt

theorem FreeInv.step {i : ℕ} {r : List ℕ}
    (h : FreeInv nid later indices ((i :: r).filterMap node.readAt ++ later) st)
    (hs : freeInput nid node st i = some st') :
    FreeInv nid later indices (r.filterMap node.readAt ++ later) st' := by
  rw [freeInput] at hs
  by_cases hi : i ∈ node.ignored
  · have hnone : node.readAt i = none := if_pos hi
    rw [if_pos hi] at hs
    rw [List.filterMap_cons_none hnone] at h
    exact Option.some.inj hs ▸ h
  rw [if_neg hi, Option.bind_eq_bind, Option.bind_eq_some_iff] at hs
  obtain ⟨e, he, hs⟩ := hs
  rw [List.filterMap_cons_some (INode.readAt_eq_some_iff.mpr ⟨hi, he⟩), List.cons_append] at h
  by_cases hneg : st.storage e < 0
  · rw [if_pos hneg] at hs
    obtain rfl := Option.some.inj hs
    exact ⟨h.inv.skip hneg, h.nodup, h.unread⟩
  have hnonneg : 0 ≤ st.storage e := by omega
  have hpos := h.inv.refCount_pos List.mem_cons_self hnonneg
  have hread := h.inv.read hnonneg
  rw [if_neg hneg] at hs
  dsimp only at hs
  set refCount := Function.update st.refCount (st.storage e) (st.refCount (st.storage e) - 1)
  -- An output that nothing reads is not stored where this input is.
  have hother : ∀ {s : ℤ}, st.refCount s = 0 → s ≠ st.storage e ∧ refCount s = 0 := by
    intro s hzero
    have hne : s ≠ st.storage e := fun heq => by
      rw [heq] at hzero
      omega
    exact ⟨hne, by simp [refCount, Function.update_of_ne hne, hzero]⟩
  split_ifs at hs with hzero
  · simp only [Option.bind_eq_bind, Option.bind_eq_some_iff, Option.some.injEq] at hs
    obtain ⟨a, ha, rfl⟩ := hs
    have hfree := h.inv.not_free List.mem_cons_self hnonneg
    obtain ⟨-, hmem, -⟩ := GraphAllocator.release_spec h.inv.valid hnonneg hfree ha
    refine ⟨hread.release hnonneg hzero hfree ha, h.nodup, fun b hb hindex hs hnot => ?_⟩
    obtain ⟨hzero', hfree', halone⟩ := h.unread b hb hindex hs hnot
    exact ⟨(hother hzero').2, fun hin => ((hmem _).mp hin).elim (hother hzero').1 hfree', halone⟩
  · obtain rfl := Option.some.inj hs
    refine ⟨hread, h.nodup, fun b hb hindex hs hnot => ?_⟩
    obtain ⟨hzero', hfree', halone⟩ := h.unread b hb hindex hs hnot
    exact ⟨(hother hzero').2, hfree', halone⟩

theorem FreeInv.output {j : ℕ} (h : FreeInv nid later (j :: indices) later st)
    (hs : releaseOutput nid st j = some st') : FreeInv nid later indices later st' := by
  have hnodup := List.nodup_cons.mp h.nodup
  have htail : FreeInv nid later indices later st :=
    ⟨h.inv, hnodup.2, fun e he hindex => h.unread e he (List.mem_cons_of_mem _ hindex)⟩
  simp only [releaseOutput, Option.bind_eq_bind, Option.bind_eq_some_iff] at hs
  obtain ⟨st₁, hs₁, hs⟩ := hs
  suffices hst₁ : FreeInv nid later indices later st₁ by
    split_ifs at hs
    · obtain rfl := Option.some.inj hs
      exact ⟨⟨hst₁.inv.refs, hst₁.inv.valid, hst₁.inv.free, hst₁.inv.lt⟩, hst₁.nodup, hst₁.unread⟩
    · exact Option.some.inj hs ▸ hst₁
  rw [releaseUnread] at hs₁
  split_ifs at hs₁ with hcond
  · simp only [Option.bind_eq_bind, Option.bind_eq_some_iff, Option.some.injEq] at hs₁
    obtain ⟨a, ha, rfl⟩ := hs₁
    have hnot : (⟨nid, j⟩ : NodeEntry) ∉ later := fun hmem => by
      have := h.inv.refCount_pos hmem hcond.1
      omega
    obtain ⟨-, hfree, halone⟩ := h.unread ⟨nid, j⟩ rfl List.mem_cons_self hcond.1 hnot
    obtain ⟨-, hmem, -⟩ := GraphAllocator.release_spec h.inv.valid hcond.1 hfree ha
    have hinv := h.inv.release hcond.1 hcond.2 hfree ha
    refine ⟨⟨hinv.refs, hinv.valid, hinv.free, hinv.lt⟩, hnodup.2, fun b hb hindex hs hnot' => ?_⟩
    obtain ⟨hzero', hfree', halone'⟩ := htail.unread b hb hindex hs hnot'
    have hne : b ≠ ⟨nid, j⟩ := fun heq => hnodup.1 (by simpa [heq] using hindex)
    exact ⟨hzero', fun hin => ((hmem _).mp hin).elim (halone b hb hne) hfree', halone'⟩
  · exact Option.some.inj hs₁ ▸ htail

end Free

end PlanMemory
end NetStorm

import NetStorm.ThreadedVar

/-!
# The linked list behind a variable

`ThreadedVar` of the dependency engine as the source stores it, with the blocks by their address.
A failing check or assertion, and a null or deleted block that is read, has no result. The
functions are the sections under the lock. What `CompleteWriteDependency` does with the detached
blocks after it has left the lock is done at once: nobody else can reach them. `Represents` says
which queue the blocks stand for, and every function does to the blocks what its namesake of
`ThreadedVar` does to the queue.
-/
namespace NetStorm

/-- `VersionedVarBlock`. -/
structure VersionedVarBlock where
  next : Option ℕ := none
  trigger : Option ℕ := none
  write : Bool := false

/-- `ThreadedVar`. -/
structure LinkedVar where
  blocks : ℕ → Option VersionedVarBlock
  head : ℕ
  pendingWrite : Option ℕ := none
  numPendingReads : ℤ := 0
  toDelete : Bool := false

namespace LinkedVar
open ThreadedVar (kWriteTriggered)

/-- `ThreadedEngine::NewVariable`. -/
def newVariable (address : ℕ) : LinkedVar where
  blocks := Function.update (fun _ => none) address (some {})
  head := address

/-- Fill the empty block `head_` and put the new one behind it. -/
def attach (x : LinkedVar) (new op : ℕ) (write : Bool) : Option LinkedVar := do
  let b ← x.blocks x.head
  if b.next ≠ none ∨ b.trigger ≠ none ∨ b.write = true then none
  else some { x with
    blocks := Function.update (Function.update x.blocks x.head (some ⟨some new, some op, write⟩))
      new (some {})
    head := new }

/-- `ThreadedVar::AppendReadDependency`, with the operations whose wait counter is decremented. -/
def appendReadDependency (x : LinkedVar) (new op : ℕ) : Option (LinkedVar × List ℕ) :=
  if x.pendingWrite = none then
    if x.numPendingReads < 0 then none
    else some ({ x with numPendingReads := x.numPendingReads + 1 }, [op])
  else (x.attach new op false).map fun x => (x, [])

/-- `ThreadedVar::AppendWriteDependency`. -/
def appendWriteDependency (x : LinkedVar) (new op : ℕ) : Option (LinkedVar × List ℕ) := do
  let y ← x.attach new op true
  if x.pendingWrite = none then
    if x.numPendingReads < 0 then none
    else if x.numPendingReads = 0 then
      some ({ y with pendingWrite := some x.head, numPendingReads := kWriteTriggered }, [op])
    else some ({ y with pendingWrite := some x.head }, [])
  else if x.numPendingReads = 0 then none
  else some (y, [])

/-- `ThreadedVar::CompleteReadDependency`. -/
def completeReadDependency (x : LinkedVar) : Option (LinkedVar × List ℕ) :=
  if x.numPendingReads ≤ 0 then none
  else if x.numPendingReads - 1 = 0 then
    match x.pendingWrite with
    | none => some ({ x with numPendingReads := 0 }, [])
    | some p =>
      (x.blocks p).map fun b => ({ x with numPendingReads := kWriteTriggered }, b.trigger.toList)
  else some ({ x with numPendingReads := x.numPendingReads - 1 }, [])

/-- The search for `end_of_read_chain` from a block on, in at most `fuel` steps, with the number
of reads that it passes. -/
def searchChain (x : LinkedVar) : ℕ → ℕ → Option (ℕ × ℕ)
  | 0, _ => none
  | fuel + 1, a =>
    if a = x.head then some (0, a)
    else do
      let b ← x.blocks a
      if b.write = true then some (0, a)
      else
        let (reads, stop) ← x.searchChain fuel (← b.next)
        return (reads + 1, stop)

/-- The dispatching of the detached blocks up to `stop`, which deletes them. -/
def dispatchChain (stop : ℕ) : ℕ → (ℕ → Option VersionedVarBlock) → ℕ →
    Option (List ℕ × (ℕ → Option VersionedVarBlock))
  | 0, _, _ => none
  | fuel + 1, blocks, a =>
    if a = stop then some ([], blocks)
    else do
      let b ← blocks a
      let op ← b.trigger
      let (ops, blocks) ← dispatchChain stop fuel (Function.update blocks a none) (← b.next)
      return (op :: ops, blocks)

/-- `ThreadedVar::CompleteWriteDependency`. -/
def completeWriteDependency (x : LinkedVar) (fuel : ℕ) : Option (LinkedVar × List ℕ) := do
  let last ← x.blocks x.head
  let old ← x.pendingWrite
  if last.next ≠ none ∨ x.numPendingReads ≠ kWriteTriggered then none
  else
    let first ← (← x.blocks old).next
    let blocks := Function.update x.blocks old none
    if x.toDelete = true then
      if x.head ≠ first then none
      else some ({ x with blocks := Function.update blocks first none }, [])
    else
      let (reads, stop) ← x.searchChain fuel first
      let (ops, blocks) ← dispatchChain stop fuel blocks first
      if stop = x.head then
        some ({ x with blocks := blocks, pendingWrite := none, numPendingReads := reads }, ops)
      else
        let b ← blocks stop
        if b.write = false then none
        else if reads = 0 then
          some ({ x with
            blocks := blocks, pendingWrite := some stop, numPendingReads := kWriteTriggered },
            b.trigger.toList)
        else
          some ({ x with blocks := blocks, pendingWrite := some stop, numPendingReads := reads },
            ops)

/-- `ThreadedVar::AppendReadDependency` or `ThreadedVar::AppendWriteDependency`. -/
def append (x : LinkedVar) (new : ℕ) (e : ℕ × Bool) : Option (LinkedVar × List ℕ) :=
  if e.2 = true then x.appendWriteDependency new e.1 else x.appendReadDependency new e.1

/-- `ThreadedVar::CompleteReadDependency` or `ThreadedVar::CompleteWriteDependency`. -/
def complete (x : LinkedVar) (fuel : ℕ) (e : ℕ × Bool) : Option (LinkedVar × List ℕ) :=
  if e.2 = true then x.completeWriteDependency fuel else x.completeReadDependency

/-- `ThreadedVar::SetToDelete`. -/
def setToDelete (x : LinkedVar) : LinkedVar := { x with toDelete := true }

/-- From the first of the addresses on, the blocks hold the entries and lead to `head`. -/
def Chain (blocks : ℕ → Option VersionedVarBlock) (head : ℕ) : List ℕ → List (ℕ × Bool) → Prop
  | [], [] => True
  | a :: as, e :: es =>
    blocks a = some ⟨some (as.headD head), some e.1, e.2⟩ ∧ Chain blocks head as es
  | _, _ => False

/-- The blocks at the addresses are the queue of the variable. -/
structure Stores (l : LinkedVar) (x : ThreadedVar) (as : List ℕ) : Prop where
  nodup : (l.head :: as).Nodup
  last : l.blocks l.head = some {}
  chain : Chain l.blocks l.head as x.queue
  pendingWrite : l.pendingWrite = as.head?
  numPendingReads : l.numPendingReads = x.numPendingReads
  toDelete : l.toDelete = x.toDelete

def Represents (l : LinkedVar) (x : ThreadedVar) : Prop := ∃ as, Stores l x as

theorem represents_newVariable (address : ℕ) : Represents (newVariable address) {} :=
  ⟨[], by simp, by simp [newVariable], trivial, rfl, rfl, rfl⟩

section Chains
variable {blocks blocks' : ℕ → Option VersionedVarBlock} {head new : ℕ} {as : List ℕ}
  {es : List (ℕ × Bool)} {e : ℕ × Bool}

theorem Chain.congr (h : Chain blocks head as es) (hsame : ∀ a ∈ as, blocks' a = blocks a) :
    Chain blocks' head as es := by
  induction as generalizing es with
  | nil =>
    cases es with
    | nil => trivial
    | cons e es => exact h.elim
  | cons a as ih =>
    cases es with
    | nil => exact h.elim
    | cons e es =>
      refine ⟨?_, ih h.2 fun a' ha' => hsame a' (List.mem_cons_of_mem _ ha')⟩
      rw [hsame a (List.mem_cons_self ..)]
      exact h.1

theorem Chain.length_eq (h : Chain blocks head as es) : as.length = es.length := by
  induction as generalizing es with
  | nil =>
    cases es with
    | nil => rfl
    | cons e es => exact h.elim
  | cons a as ih =>
    cases es with
    | nil => exact h.elim
    | cons e es => rw [List.length_cons, List.length_cons, ih h.2]

theorem Chain.ne_none (h : Chain blocks head as es) {a : ℕ} (ha : a ∈ as) : blocks a ≠ none := by
  induction as generalizing es with
  | nil => cases ha
  | cons a' as ih =>
    cases es with
    | nil => exact h.elim
    | cons e es =>
      rcases List.mem_cons.mp ha with rfl | ha
      · rw [h.1]
        simp
      · exact ih h.2 ha

/-- Every entry has its block. -/
theorem Chain.exists_block (h : Chain blocks head as es) (he : e ∈ es) :
    ∃ a b, blocks a = some b ∧ b.trigger = some e.1 := by
  induction as generalizing es with
  | nil =>
    cases es with
    | nil => cases he
    | cons e es => exact h.elim
  | cons a as ih =>
    cases es with
    | nil => exact h.elim
    | cons e' es =>
      rcases List.mem_cons.mp he with rfl | he
      · exact ⟨a, _, h.1, rfl⟩
      · exact ih h.2 he

/-- The block `head` is filled, and `new` is the empty block now. -/
theorem Chain.concat (h : Chain blocks head as es)
    (hhead : blocks head = some ⟨some new, some e.1, e.2⟩) :
    Chain blocks new (as ++ [head]) (es ++ [e]) := by
  induction as generalizing es with
  | nil =>
    cases es with
    | nil => exact ⟨hhead, trivial⟩
    | cons e' es => exact h.elim
  | cons a as ih =>
    cases es with
    | nil => exact h.elim
    | cons e' es =>
      refine ⟨?_, ih h.2⟩
      rw [h.1]
      cases as <;> rfl

/-- A chain splits where its entries do. -/
theorem chain_append {bs : List ℕ} {es' : List (ℕ × Bool)} (hlength : as.length = es.length) :
    Chain blocks head (as ++ bs) (es ++ es') ↔
      Chain blocks (bs.headD head) as es ∧ Chain blocks head bs es' := by
  induction as generalizing es with
  | nil =>
    obtain rfl := List.length_eq_zero_iff.mp hlength.symm
    simp [Chain]
  | cons a as ih =>
    cases es with
    | nil => cases hlength
    | cons e es =>
      have hnext : (as ++ bs).headD head = as.headD (bs.headD head) := by cases as <;> rfl
      simp only [List.cons_append, Chain, hnext, ih (Nat.succ.inj hlength), and_assoc]

/-- The search passes the reads. It stops at `head_` or at a write. -/
theorem searchChain_eq {l : LinkedVar} {cs : List ℕ} {ws : List (ℕ × Bool)}
    (hreads : Chain l.blocks (cs.headD l.head) as es) (hread : ∀ e ∈ es, e.2 = false)
    (hwrites : Chain l.blocks l.head cs ws) (hwrite : ∀ e ∈ ws.head?, e.2 = true)
    (hhead : l.head ∉ as) {fuel : ℕ} (hfuel : as.length < fuel) :
    l.searchChain fuel ((as ++ cs).headD l.head) = some (es.length, cs.headD l.head) := by
  obtain ⟨fuel, rfl⟩ : ∃ f, fuel = f + 1 := ⟨fuel - 1, by omega⟩
  induction as generalizing es fuel with
  | nil =>
    obtain rfl : es = [] := List.length_eq_zero_iff.mp hreads.length_eq.symm
    unfold searchChain
    split
    · next heq => rfl
    · next hne =>
      cases cs with
      | nil => exact absurd rfl hne
      | cons c cs =>
        cases ws with
        | nil => exact hwrites.elim
        | cons e ws =>
          have hblock : l.blocks c = _ := hwrites.1
          simp [hblock, hwrite e (by simp)]
  | cons a as ih =>
    cases es with
    | nil => exact hreads.elim
    | cons e es =>
      rw [List.mem_cons, not_or] at hhead
      simp only [List.length_cons] at hfuel
      obtain ⟨fuel, rfl⟩ : ∃ f, fuel = f + 1 := ⟨fuel - 1, by omega⟩
      have hrest := ih hreads.2 (fun e he => hread e (List.mem_cons_of_mem _ he)) hhead.2 fuel
        (by omega)
      have hnext : as.headD (cs.headD l.head) = (as ++ cs).headD l.head := by cases as <;> rfl
      have hblock : l.blocks a = _ := hreads.1
      have hfalse : e.2 = false := hread e (List.mem_cons_self ..)
      rw [List.cons_append, List.headD_cons, searchChain, if_neg (Ne.symm hhead.1)]
      simp [hblock, hfalse, -List.headD_eq_head?_getD, hnext, hrest]

/-- The detached blocks are dispatched and deleted. -/
theorem dispatchChain_eq {stop : ℕ} (h : Chain blocks stop as es) (hnodup : as.Nodup)
    (hstop : stop ∉ as) {fuel : ℕ} (hfuel : as.length < fuel) :
    dispatchChain stop fuel blocks (as.headD stop) =
      some (es.map Prod.fst, fun a => if a ∈ as then none else blocks a) := by
  obtain ⟨fuel, rfl⟩ : ∃ f, fuel = f + 1 := ⟨fuel - 1, by omega⟩
  induction as generalizing es fuel blocks with
  | nil =>
    obtain rfl : es = [] := List.length_eq_zero_iff.mp h.length_eq.symm
    simp [dispatchChain]
  | cons a as ih =>
    cases es with
    | nil => exact h.elim
    | cons e es =>
      rw [List.mem_cons, not_or] at hstop
      rw [List.nodup_cons] at hnodup
      simp only [List.length_cons] at hfuel
      obtain ⟨fuel, rfl⟩ : ∃ f, fuel = f + 1 := ⟨fuel - 1, by omega⟩
      have hchain : Chain (Function.update blocks a none) stop as es :=
        h.2.congr fun a' ha' => Function.update_of_ne (ne_of_mem_of_not_mem ha' hnodup.1) ..
      have hrest := ih hchain hnodup.2 hstop.2 fuel (by omega)
      have hblock : blocks a = _ := h.1
      rw [List.headD_cons, dispatchChain, if_neg (Ne.symm hstop.1)]
      simp only [hblock, Option.bind_eq_bind, Option.bind_some, hrest, Option.pure_def,
        Option.some.injEq, Prod.mk.injEq, List.map_cons, true_and]
      funext a'
      by_cases ha' : a' = a <;> simp [ha']

theorem searchChain_mono {l : LinkedVar} {fuel fuel' a : ℕ} (hle : fuel ≤ fuel') {r : ℕ × ℕ}
    (h : l.searchChain fuel a = some r) : l.searchChain fuel' a = some r := by
  induction fuel generalizing fuel' a r with
  | zero => cases h
  | succ fuel ih =>
    obtain ⟨fuel', rfl⟩ : ∃ f, fuel' = f + 1 := ⟨fuel' - 1, by omega⟩
    rw [searchChain] at h ⊢
    split at h
    · next heq => rwa [if_pos heq]
    · next hne =>
      rw [if_neg hne]
      obtain ⟨b, hb, h⟩ := Option.bind_eq_some_iff.mp h
      refine Option.bind_eq_some_iff.mpr ⟨b, hb, ?_⟩
      split at h
      · next hwrite => rwa [if_pos hwrite]
      · next hwrite =>
        rw [if_neg hwrite]
        obtain ⟨next, hnext, h⟩ := Option.bind_eq_some_iff.mp h
        obtain ⟨r', hr', h⟩ := Option.bind_eq_some_iff.mp h
        refine Option.bind_eq_some_iff.mpr ⟨next, hnext, ?_⟩
        exact Option.bind_eq_some_iff.mpr ⟨r', ih (by omega) hr', h⟩

theorem dispatchChain_mono {stop fuel fuel' a : ℕ} (hle : fuel ≤ fuel')
    {r : List ℕ × (ℕ → Option VersionedVarBlock)}
    (h : dispatchChain stop fuel blocks a = some r) :
    dispatchChain stop fuel' blocks a = some r := by
  induction fuel generalizing fuel' a r blocks with
  | zero => cases h
  | succ fuel ih =>
    obtain ⟨fuel', rfl⟩ : ∃ f, fuel' = f + 1 := ⟨fuel' - 1, by omega⟩
    rw [dispatchChain] at h ⊢
    split at h
    · next heq => rwa [if_pos heq]
    · next hne =>
      rw [if_neg hne]
      obtain ⟨b, hb, h⟩ := Option.bind_eq_some_iff.mp h
      obtain ⟨op, hop, h⟩ := Option.bind_eq_some_iff.mp h
      obtain ⟨next, hnext, h⟩ := Option.bind_eq_some_iff.mp h
      obtain ⟨r', hr', h⟩ := Option.bind_eq_some_iff.mp h
      refine Option.bind_eq_some_iff.mpr ⟨b, hb, Option.bind_eq_some_iff.mpr ⟨op, hop, ?_⟩⟩
      refine Option.bind_eq_some_iff.mpr ⟨next, hnext, ?_⟩
      exact Option.bind_eq_some_iff.mpr ⟨r', ih (by omega) hr', h⟩

end Chains

section Refinement
variable {l : LinkedVar} {x x' : ThreadedVar} {as : List ℕ} {new op : ℕ} {e : ℕ × Bool}
  {g : List (ℕ × Bool)}

theorem Stores.pendingWrite_eq_none (h : Stores l x as) :
    l.pendingWrite = none ↔ x.queue = [] := by
  rw [h.pendingWrite, List.head?_eq_none_iff, ← List.length_eq_zero_iff, h.chain.length_eq,
    List.length_eq_zero_iff]

theorem Stores.pendingWrite_concat (h : Stores l x as) (hqueue : x.queue ≠ []) :
    l.pendingWrite = (as ++ [l.head]).head? := by
  cases as with
  | nil => exact absurd (h.pendingWrite_eq_none.mp h.pendingWrite) hqueue
  | cons a as => exact h.pendingWrite

/-- No assertion on `head_` fails. -/
theorem Stores.attach (h : Stores l x as) (hnew : l.blocks new = none) (e : ℕ × Bool) :
    ∃ blocks, l.attach new e.1 e.2 = some { l with blocks := blocks, head := new } ∧
      (new :: (as ++ [l.head])).Nodup ∧ blocks new = some {} ∧
      Chain blocks new (as ++ [l.head]) (x.queue ++ [e]) := by
  have hhead : new ≠ l.head := by
    rintro rfl
    rw [h.last] at hnew
    cases hnew
  have hfresh : new ∉ as := fun ha => h.chain.ne_none ha hnew
  obtain ⟨hnot, hnodup⟩ := List.nodup_cons.mp h.nodup
  refine ⟨Function.update (Function.update l.blocks l.head (some ⟨some new, some e.1, e.2⟩)) new
    (some {}), ?_, ?_, Function.update_self .., Chain.concat (h.chain.congr fun a ha => ?_) ?_⟩
  · simp [LinkedVar.attach, h.last]
  · refine List.nodup_cons.mpr ⟨by simp [hfresh, hhead], ?_⟩
    exact (List.perm_append_singleton l.head as).nodup_iff.mpr h.nodup
  · rw [Function.update_of_ne (ne_of_mem_of_not_mem ha hfresh),
      Function.update_of_ne (ne_of_mem_of_not_mem ha hnot)]
  · rw [Function.update_of_ne hhead.symm, Function.update_self]

theorem Represents.append (h : Represents l x) (hnew : l.blocks new = none)
    (hrun : x.append e = some (x', g)) :
    ∃ l', l.append new e = some (l', g.map Prod.fst) ∧ Represents l' x' := by
  obtain ⟨as, h⟩ := h
  obtain ⟨blocks, hattach, hnodup, hlast, hchain⟩ := h.attach hnew e
  have hnone := h.pendingWrite_eq_none
  have hnum := h.numPendingReads
  obtain ⟨op, write⟩ := e
  unfold LinkedVar.append
  unfold ThreadedVar.append at hrun
  cases write with
  | false =>
    simp only [Bool.false_eq_true, if_false] at hrun ⊢
    unfold ThreadedVar.appendReadDependency at hrun
    unfold LinkedVar.appendReadDependency
    split at hrun
    · next hqueue =>
      rw [if_pos (hnone.mpr hqueue), hnum]
      split at hrun
      · cases hrun
      · next hneg =>
        obtain ⟨rfl, rfl⟩ := Prod.mk.inj (Option.some.inj hrun)
        rw [if_neg hneg]
        exact ⟨_, rfl, as, h.nodup, h.last, h.chain, h.pendingWrite, rfl, h.toDelete⟩
    · next hqueue =>
      obtain ⟨rfl, rfl⟩ := Prod.mk.inj (Option.some.inj hrun)
      rw [if_neg (mt hnone.mp hqueue), hattach]
      exact ⟨_, rfl, as ++ [l.head], hnodup, hlast, hchain, h.pendingWrite_concat hqueue, hnum,
        h.toDelete⟩
  | true =>
    simp only [if_true] at hrun ⊢
    unfold ThreadedVar.appendWriteDependency at hrun
    unfold LinkedVar.appendWriteDependency
    rw [hattach]
    simp only [Option.bind_eq_bind, Option.bind_some]
    split at hrun
    · next hqueue =>
      have has : as = [] := List.length_eq_zero_iff.mp (by rw [h.chain.length_eq, hqueue]; rfl)
      rw [if_pos (hnone.mpr hqueue), hnum]
      split at hrun
      · cases hrun
      · next hneg =>
        rw [if_neg hneg]
        split at hrun
        · next hzero =>
          obtain ⟨rfl, rfl⟩ := Prod.mk.inj (Option.some.inj hrun)
          rw [if_pos hzero]
          exact ⟨_, rfl, as ++ [l.head], hnodup, hlast, hchain, by simp [has], rfl, h.toDelete⟩
        · next hzero =>
          obtain ⟨rfl, rfl⟩ := Prod.mk.inj (Option.some.inj hrun)
          rw [if_neg hzero]
          exact ⟨_, rfl, as ++ [l.head], hnodup, hlast, hchain, by simp [has], rfl, h.toDelete⟩
    · next hqueue =>
      rw [if_neg (mt hnone.mp hqueue), hnum]
      split at hrun
      · cases hrun
      · next hzero =>
        obtain ⟨rfl, rfl⟩ := Prod.mk.inj (Option.some.inj hrun)
        rw [if_neg hzero]
        exact ⟨_, rfl, as ++ [l.head], hnodup, hlast, hchain, h.pendingWrite_concat hqueue, rfl,
          h.toDelete⟩

theorem Represents.setToDelete (h : Represents l x) :
    Represents l.setToDelete x.setToDelete := by
  obtain ⟨as, h⟩ := h
  exact ⟨as, h.nodup, h.last, h.chain, h.pendingWrite, h.numPendingReads, rfl⟩

theorem Represents.completeReadDependency (h : Represents l x)
    (hrun : x.completeReadDependency = some (x', g)) :
    ∃ l', l.completeReadDependency = some (l', g.map Prod.fst) ∧ Represents l' x' := by
  obtain ⟨as, h⟩ := h
  unfold ThreadedVar.completeReadDependency at hrun
  unfold LinkedVar.completeReadDependency
  rw [h.numPendingReads]
  split at hrun
  · cases hrun
  · next hpos =>
    rw [if_neg hpos]
    split at hrun
    · next hlast =>
      rw [if_pos hlast, h.pendingWrite]
      have hchain := h.chain
      cases as with
      | nil =>
        have hqueue : x.queue = [] := List.length_eq_zero_iff.mp hchain.length_eq.symm
        rw [hqueue] at hrun
        obtain ⟨rfl, rfl⟩ := Prod.mk.inj (Option.some.inj hrun)
        refine ⟨_, rfl, [], h.nodup, h.last, ?_, rfl, rfl, h.toDelete⟩
        trivial
      | cons a as =>
        cases hqueue : x.queue with
        | nil =>
          rw [hqueue] at hchain
          exact hchain.elim
        | cons e rest =>
          rw [hqueue] at hrun hchain
          obtain ⟨rfl, rfl⟩ := Prod.mk.inj (Option.some.inj hrun)
          rw [List.head?_cons]
          dsimp only
          rw [hchain.1]
          exact ⟨_, rfl, a :: as, h.nodup, h.last, hchain, rfl, rfl, h.toDelete⟩
    · next hlast =>
      rw [if_neg hlast]
      obtain ⟨rfl, rfl⟩ := Prod.mk.inj (Option.some.inj hrun)
      exact ⟨_, rfl, as, h.nodup, h.last, h.chain, h.pendingWrite, rfl, h.toDelete⟩

/-- The list behind the old `pending_write_`: the reads that are detached, and what is left. -/
theorem Stores.split (h : Stores l x as) {rest reads writes : List (ℕ × Bool)}
    (hqueue : x.queue = e :: rest) (hrest : rest = reads ++ writes) :
    ∃ a bs cs, as = a :: (bs ++ cs) ∧
      l.blocks a = some ⟨some ((bs ++ cs).headD l.head), some e.1, e.2⟩ ∧
      Chain l.blocks (cs.headD l.head) bs reads ∧ Chain l.blocks l.head cs writes := by
  have hchain := h.chain
  rw [hqueue, hrest] at hchain
  cases as with
  | nil => exact hchain.elim
  | cons a as =>
    have hlength := hchain.2.length_eq
    rw [List.length_append] at hlength
    have htake : (as.take reads.length).length = reads.length := by
      rw [List.length_take]
      omega
    obtain ⟨hfirst, hchain⟩ := hchain
    rw [← List.take_append_drop reads.length as, chain_append htake] at hchain
    refine ⟨a, as.take reads.length, as.drop reads.length, ?_, ?_, hchain.1, hchain.2⟩
    · rw [List.take_append_drop]
    · rw [List.take_append_drop]
      exact hfirst

/-- `CompleteWriteDependency` on a variable that stays: the reads behind the write are detached,
and the first of the rest is the next `pending_write_`. -/
theorem Stores.completeWriteDependency (h : Stores l x as) {rest reads writes : List (ℕ × Bool)}
    (hnum : x.numPendingReads = kWriteTriggered) (hstay : x.toDelete = false)
    (hqueue : x.queue = e :: rest) (hrest : rest = reads ++ writes)
    (hreads : ∀ e ∈ reads, e.2 = false) (hwrites : ∀ e ∈ writes.head?, e.2 = true) :
    ∃ blocks cs, (l.head :: cs).Nodup ∧ blocks l.head = some {} ∧
      Chain blocks l.head cs writes ∧
      ∀ fuel, as.length < fuel → l.completeWriteDependency fuel =
        some ({ l with
          blocks := blocks
          pendingWrite := cs.head?
          numPendingReads :=
            if reads = [] ∧ writes ≠ [] then kWriteTriggered else reads.length },
          if reads = [] then writes.head?.toList.map Prod.fst else reads.map Prod.fst) := by
  obtain ⟨a, bs, cs, rfl, hfirst, hchain, hchain'⟩ := h.split hqueue hrest
  have hnodup := h.nodup
  simp only [List.nodup_cons, List.mem_cons, List.mem_append, not_or, List.nodup_append] at hnodup
  obtain ⟨⟨hheada, hheadbs, hheadcs⟩, ⟨habs, hacs⟩, hbs, hcs, hdisjoint⟩ := hnodup
  let blocks := fun b => if b ∈ bs then none else Function.update l.blocks a none b
  have hsame : ∀ b, b ∉ bs → b ≠ a → blocks b = l.blocks b := by
    intro b hb hne
    simp only [blocks, if_neg hb, Function.update_of_ne hne]
  have hrestChain : Chain blocks l.head cs writes := by
    refine hchain'.congr fun b hb => hsame b ?_ ?_
    · exact fun hb' => hdisjoint b hb' b hb rfl
    · exact ne_of_mem_of_not_mem hb hacs
  refine ⟨blocks, cs, ?_, ?_, hrestChain, ?_⟩
  · exact List.nodup_cons.mpr ⟨hheadcs, hcs⟩
  · rw [hsame _ hheadbs hheada, h.last]
  · intro fuel hfuel
    simp only [List.length_cons, List.length_append] at hfuel
    have hsearch := searchChain_eq hchain hreads hchain' hwrites hheadbs
      (show bs.length < fuel by omega)
    have hstop : cs.headD l.head ∉ bs := by
      cases cs with
      | nil => exact hheadbs
      | cons c cs => exact fun hc => hdisjoint c hc c (List.mem_cons_self ..) rfl
    have hdetached : Chain (Function.update l.blocks a none) (cs.headD l.head) bs reads :=
      hchain.congr fun b hb => Function.update_of_ne (ne_of_mem_of_not_mem hb habs) ..
    have hdispatch := dispatchChain_eq hdetached hbs hstop (show bs.length < fuel by omega)
    have hnext : (bs ++ cs).headD l.head = bs.headD (cs.headD l.head) := by cases bs <;> rfl
    have hpending : l.pendingWrite = some a := h.pendingWrite
    have hkeep : ¬ l.toDelete = true := by simp [h.toDelete, hstay]
    unfold LinkedVar.completeWriteDependency
    rw [h.last, hpending]
    simp only [Option.bind_eq_bind, Option.bind_some, hfirst, h.numPendingReads, hnum, ne_eq,
      not_true_eq_false, or_self, if_false, if_neg hkeep, hsearch]
    rw [hnext, hdispatch]
    simp only [Option.bind_some]
    cases cs with
    | nil =>
      obtain rfl : writes = [] := List.length_eq_zero_iff.mp hchain'.length_eq.symm
      rw [if_pos (by rfl)]
      by_cases hnone : reads = [] <;> simp [hnone, blocks]
    | cons c cs =>
      cases writes with
      | nil => exact hchain'.elim
      | cons w writes =>
        have hne : c ≠ l.head := fun heq => hheadcs (heq ▸ List.mem_cons_self ..)
        have hblock : blocks c = _ := hrestChain.1
        have hwrite : w.2 = true := hwrites w rfl
        rw [List.headD_cons, if_neg hne]
        change (blocks c).bind _ = _
        rw [hblock]
        by_cases hnone : reads = [] <;> simp [hnone, hwrite, blocks]

/-- `CompleteWriteDependency` on a variable that goes: both blocks are deleted. -/
theorem Stores.completeWriteDependency_delete (h : Stores l x as)
    (hnum : x.numPendingReads = kWriteTriggered) (hdelete : x.toDelete = true)
    (hqueue : x.queue = [e]) :
    ∃ l', ∀ fuel, l.completeWriteDependency fuel = some (l', []) := by
  have hchain := h.chain
  rw [hqueue] at hchain
  obtain ⟨a, rfl⟩ : ∃ a, as = [a] := List.length_eq_one_iff.mp hchain.length_eq
  have hfirst : l.blocks a = some ⟨some l.head, some e.1, e.2⟩ := hchain.1
  have hpending : l.pendingWrite = some a := h.pendingWrite
  refine ⟨{ l with blocks := Function.update (Function.update l.blocks a none) l.head none },
    fun fuel => ?_⟩
  unfold LinkedVar.completeWriteDependency
  rw [h.last, hpending]
  simp [hfirst, h.numPendingReads, hnum, h.toDelete, hdelete]

theorem Represents.completeWriteDependency (h : Represents l x)
    (hrun : x.completeWriteDependency = some (x', g)) :
    ∃ l' n, (∀ fuel, n < fuel → l.completeWriteDependency fuel = some (l', g.map Prod.fst)) ∧
      (x.toDelete = false → Represents l' x') := by
  obtain ⟨as, h⟩ := h
  unfold ThreadedVar.completeWriteDependency at hrun
  split at hrun
  · cases hrun
  · next hnum =>
    rw [not_not] at hnum
    split at hrun
    · cases hrun
    · next e rest hqueue =>
      split at hrun
      · next hdelete =>
        split at hrun
        · next hrest =>
          obtain ⟨rfl, rfl⟩ := Prod.mk.inj (Option.some.inj hrun)
          rw [hrest] at hqueue
          obtain ⟨l', hl'⟩ := h.completeWriteDependency_delete hnum hdelete hqueue
          exact ⟨l', 0, fun fuel _ => hl' fuel, fun hstay => by simp [hdelete] at hstay⟩
        · cases hrun
      · next hstay =>
        rw [Bool.not_eq_true] at hstay
        have hsplit : rest = (rest.takeWhile fun e => !e.2) ++ rest.dropWhile fun e => !e.2 :=
          List.takeWhile_append_dropWhile.symm
        have hreads : ∀ e ∈ rest.takeWhile fun e => !e.2, e.2 = false := by
          intro e he
          have := List.mem_takeWhile_imp he
          simpa using this
        have hwrites : ∀ e ∈ (rest.dropWhile fun e => !e.2).head?, e.2 = true := by
          intro e he
          have := List.head?_dropWhile_not (fun e : ℕ × Bool => !e.2) rest
          rw [Option.mem_def] at he
          rw [he] at this
          simpa using this
        obtain ⟨blocks, cs, hnodup, hlast, hchain, hlinked⟩ :=
          h.completeWriteDependency hnum hstay hqueue hsplit hreads hwrites
        have hrep : ∀ num, Represents
            { l with blocks := blocks, pendingWrite := cs.head?, numPendingReads := num }
            { x with queue := rest.dropWhile fun e => !e.2, numPendingReads := num } :=
          fun num => ⟨cs, hnodup, hlast, hchain, rfl, rfl, h.toDelete⟩
        dsimp only at hrun
        split at hrun
        · next hdrop =>
          obtain ⟨rfl, rfl⟩ := Prod.mk.inj (Option.some.inj hrun)
          rw [hdrop] at hlinked hrep
          refine ⟨_, as.length, fun fuel hfuel => (hlinked fuel hfuel).trans ?_,
            fun _ => hrep (rest.takeWhile fun e => !e.2).length⟩
          by_cases hnone : (rest.takeWhile fun e => !e.2) = [] <;> simp [hnone]
        · next w writes hdrop =>
          rw [hdrop] at hlinked hrep
          split at hrun
          · next hnone =>
            obtain ⟨rfl, rfl⟩ := Prod.mk.inj (Option.some.inj hrun)
            refine ⟨_, as.length, fun fuel hfuel => (hlinked fuel hfuel).trans ?_,
              fun _ => hrep kWriteTriggered⟩
            simp [hnone]
          · next hsome =>
            obtain ⟨rfl, rfl⟩ := Prod.mk.inj (Option.some.inj hrun)
            refine ⟨_, as.length, fun fuel hfuel => (hlinked fuel hfuel).trans ?_,
              fun _ => hrep (rest.takeWhile fun e => !e.2).length⟩
            simp [hsome]

theorem completeWriteDependency_mono {fuel fuel' : ℕ} (hle : fuel ≤ fuel')
    {r : LinkedVar × List ℕ} (hrun : l.completeWriteDependency fuel = some r) :
    l.completeWriteDependency fuel' = some r := by
  unfold completeWriteDependency at hrun ⊢
  simp only [Option.bind_eq_bind, Option.bind_eq_some_iff] at hrun ⊢
  obtain ⟨last, hlast, old, hold, hrun⟩ := hrun
  refine ⟨last, hlast, old, hold, ?_⟩
  split at hrun
  · cases hrun
  · next hchecks =>
    rw [if_neg hchecks]
    simp only [Option.bind_eq_some_iff] at hrun ⊢
    obtain ⟨b, hb, first, hfirst, hrun⟩ := hrun
    refine ⟨b, hb, first, hfirst, ?_⟩
    split at hrun
    · next hdelete => rwa [if_pos hdelete]
    · next hstay =>
      rw [if_neg hstay]
      simp only [Option.bind_eq_some_iff] at hrun ⊢
      obtain ⟨⟨reads, stop⟩, hsearch, ⟨ops, blocks⟩, hdispatch, hrun⟩ := hrun
      exact ⟨_, searchChain_mono hle hsearch, _, dispatchChain_mono hle hdispatch, hrun⟩

theorem complete_mono {fuel fuel' : ℕ} (hle : fuel ≤ fuel') {r : LinkedVar × List ℕ}
    (hrun : l.complete fuel e = some r) : l.complete fuel' e = some r := by
  unfold LinkedVar.complete at hrun ⊢
  split at hrun
  · next hwrite =>
    rw [if_pos hwrite]
    exact completeWriteDependency_mono hle hrun
  · next hread => rwa [if_neg hread]

/-- A completion on the blocks ends, fails no check and does what the one on the queue does. -/
theorem Represents.complete (h : Represents l x) (hrun : x.complete e = some (x', g)) :
    ∃ l' n, (∀ fuel, n < fuel → l.complete fuel e = some (l', g.map Prod.fst)) ∧
      ((e.2 = true → x.toDelete = false) → Represents l' x') := by
  unfold ThreadedVar.complete at hrun
  unfold LinkedVar.complete
  split at hrun
  · next hwrite =>
    simp only [hwrite, if_true, forall_const]
    exact h.completeWriteDependency hrun
  · next hread =>
    obtain ⟨l', hl', hrep⟩ := h.completeReadDependency hrun
    exact ⟨l', 0, fun _ _ => (if_neg hread).trans hl', fun _ => hrep⟩

end Refinement

end LinkedVar

end NetStorm

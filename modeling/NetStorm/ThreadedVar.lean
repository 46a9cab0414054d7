import Mathlib.Data.List.Nodup
import Mathlib.Data.List.Pairwise
import Mathlib.Data.List.TakeWhile
import Mathlib.Tactic.Linarith

/-!
# A variable of the dependency engine

`ThreadedVar` is a queue of operations that read or write the variable. The linked list from
`pending_write_` up to the empty block `head_` is the list `queue` here: it is empty exactly if
`pending_write_` is null, and otherwise its first entry is the next write. Every function is the
section under the lock, and returns the entries that may use the variable now. A failing check
or assertion has no result. The version number is left out.
-/
namespace NetStorm

/-- `ThreadedVar`. An entry of the queue is an operation, with `true` if it writes. -/
structure ThreadedVar where
  queue : List (ℕ × Bool) := []
  numPendingReads : ℤ := 0
  toDelete : Bool := false

namespace ThreadedVar

/-- `kWriteTriggered`. -/
def kWriteTriggered : ℤ := -1

/-- `ThreadedVar::AppendReadDependency`. -/
def appendReadDependency (x : ThreadedVar) (op : ℕ) : Option (ThreadedVar × List (ℕ × Bool)) :=
  if x.queue = [] then
    if x.numPendingReads < 0 then none
    else some ({ x with numPendingReads := x.numPendingReads + 1 }, [(op, false)])
  else some ({ x with queue := x.queue ++ [(op, false)] }, [])

/-- `ThreadedVar::AppendWriteDependency`. -/
def appendWriteDependency (x : ThreadedVar) (op : ℕ) : Option (ThreadedVar × List (ℕ × Bool)) :=
  let x' := { x with queue := x.queue ++ [(op, true)] }
  if x.queue = [] then
    if x.numPendingReads < 0 then none
    else if x.numPendingReads = 0 then
      some ({ x' with numPendingReads := kWriteTriggered }, [(op, true)])
    else some (x', [])
  else if x.numPendingReads = 0 then none
  else some (x', [])

/-- The locked part of `ThreadedVar::CompleteReadDependency`. -/
def completeReadDependency (x : ThreadedVar) : Option (ThreadedVar × List (ℕ × Bool)) :=
  if x.numPendingReads ≤ 0 then none
  else if x.numPendingReads - 1 = 0 then
    match x.queue with
    | [] => some ({ x with numPendingReads := 0 }, [])
    | e :: _ => some ({ x with numPendingReads := kWriteTriggered }, [e])
  else some ({ x with numPendingReads := x.numPendingReads - 1 }, [])

/-- The locked part of `ThreadedVar::CompleteWriteDependency`. A variable that is to be deleted
has no other operations left. -/
def completeWriteDependency (x : ThreadedVar) : Option (ThreadedVar × List (ℕ × Bool)) :=
  if x.numPendingReads ≠ kWriteTriggered then none
  else
    match x.queue with
    | [] => none
    | _ :: rest =>
      if x.toDelete = true then
        if rest = [] then some ({ x with queue := [], numPendingReads := 0 }, []) else none
      else
        let reads := rest.takeWhile fun e => !e.2
        match rest.dropWhile fun e => !e.2 with
        | [] => some ({ x with queue := [], numPendingReads := reads.length }, reads)
        | e :: writes =>
          if reads = [] then
            some ({ x with queue := e :: writes, numPendingReads := kWriteTriggered }, [e])
          else some ({ x with queue := e :: writes, numPendingReads := reads.length }, reads)

/-- `ThreadedVar::AppendReadDependency` or `ThreadedVar::AppendWriteDependency`. -/
def append (x : ThreadedVar) (e : ℕ × Bool) : Option (ThreadedVar × List (ℕ × Bool)) :=
  if e.2 = true then x.appendWriteDependency e.1 else x.appendReadDependency e.1

/-- `ThreadedVar::CompleteReadDependency` or `ThreadedVar::CompleteWriteDependency`. -/
def complete (x : ThreadedVar) (e : ℕ × Bool) : Option (ThreadedVar × List (ℕ × Bool)) :=
  if e.2 = true then x.completeWriteDependency else x.completeReadDependency

/-- `ThreadedVar::SetToDelete`. -/
def setToDelete (x : ThreadedVar) : ThreadedVar := { x with toDelete := true }

/-- The entries that may not use the variable yet. -/
def ungranted (x : ThreadedVar) : List (ℕ × Bool) :=
  if x.numPendingReads = kWriteTriggered then x.queue.tail else x.queue

/-- How the fields fit the operations that may use the variable and have not completed. Either
one of them writes, or all of them read, and then a write may be waiting for them. -/
inductive Fits (x : ThreadedVar) (running : List (ℕ × Bool)) : Prop
  | writing (w : ℕ) (rest : List (ℕ × Bool)) (hqueue : x.queue = (w, true) :: rest)
      (hnum : x.numPendingReads = kWriteTriggered) (hrunning : running = [(w, true)])
  | reading (hqueue : x.queue = []) (hnum : x.numPendingReads = running.length)
      (hrunning : ∀ e ∈ running, e.2 = false)
  | draining (w : ℕ) (rest : List (ℕ × Bool)) (hqueue : x.queue = (w, true) :: rest)
      (hnum : x.numPendingReads = running.length) (hpos : 0 < running.length)
      (hrunning : ∀ e ∈ running, e.2 = false)

variable {x x' : ThreadedVar} {running granted : List (ℕ × Bool)} {op : ℕ}

theorem ne_kWriteTriggered {n : ℕ} : (n : ℤ) ≠ kWriteTriggered := by
  rw [kWriteTriggered]
  omega

theorem Fits.setToDelete (h : x.Fits running) : x.setToDelete.Fits running := by
  cases h with
  | writing w rest hqueue hnum hrunning => exact .writing w rest hqueue hnum hrunning
  | reading hqueue hnum hrunning => exact .reading hqueue hnum hrunning
  | draining w rest hqueue hnum hpos hrunning => exact .draining w rest hqueue hnum hpos hrunning

/-- An operation that writes runs alone. -/
theorem Fits.pairwise (h : x.Fits running) :
    running.Pairwise fun e e' => e.2 = false ∧ e'.2 = false := by
  cases h with
  | writing w rest _ _ hrunning =>
    rw [hrunning]
    exact List.pairwise_singleton _ _
  | reading _ _ hrunning | draining _ _ _ _ _ hrunning =>
    exact List.Pairwise.imp_of_mem (fun he he' _ => ⟨hrunning _ he, hrunning _ he'⟩)
      (List.pairwise_of_forall (R := fun _ _ => True) fun _ _ => trivial)

theorem Fits.exclusive (h : x.Fits running) {e e' : ℕ × Bool} (he : e ∈ running)
    (he' : e' ∈ running) (hne : e ≠ e') : e.2 = false ∧ e'.2 = false := by
  have : Std.Symm fun e e' : ℕ × Bool => e.2 = false ∧ e'.2 = false := ⟨fun _ _ h => h.symm⟩
  exact h.pairwise.forall he he' hne

theorem appendReadDependency_spec (h : x.Fits running)
    (hrun : x.appendReadDependency op = some (x', granted)) :
    x'.Fits (running ++ granted) ∧ x.ungranted ++ [(op, false)] = granted ++ x'.ungranted ∧
      (granted = [] ∨ granted = [(op, false)]) := by
  unfold appendReadDependency at hrun
  cases h with
  | writing w rest hqueue hnum hrunning =>
    rw [if_neg (by simp [hqueue])] at hrun
    obtain ⟨rfl, rfl⟩ := Prod.mk.inj (Option.some.inj hrun)
    refine ⟨?_, ?_, .inl rfl⟩
    · rw [List.append_nil]
      exact .writing w (rest ++ [(op, false)]) (by simp [hqueue]) hnum hrunning
    · simp [ungranted, hnum, hqueue]
  | reading hqueue hnum hrunning =>
    rw [if_pos hqueue, if_neg (by omega)] at hrun
    obtain ⟨rfl, rfl⟩ := Prod.mk.inj (Option.some.inj hrun)
    refine ⟨.reading hqueue (by simp [hnum]) ?_, ?_, .inr rfl⟩
    · intro e he
      rcases List.mem_append.mp he with he | he
      · exact hrunning e he
      · rw [List.mem_singleton.mp he]
    · simp [ungranted, hqueue]
  | draining w rest hqueue hnum hpos hrunning =>
    rw [if_neg (by simp [hqueue])] at hrun
    obtain ⟨rfl, rfl⟩ := Prod.mk.inj (Option.some.inj hrun)
    refine ⟨?_, ?_, .inl rfl⟩
    · rw [List.append_nil]
      exact .draining w (rest ++ [(op, false)]) (by simp [hqueue]) hnum hpos hrunning
    · simp [ungranted, hnum, ne_kWriteTriggered]

theorem appendWriteDependency_spec (h : x.Fits running)
    (hrun : x.appendWriteDependency op = some (x', granted)) :
    x'.Fits (running ++ granted) ∧ x.ungranted ++ [(op, true)] = granted ++ x'.ungranted ∧
      (granted = [] ∨ granted = [(op, true)]) := by
  unfold appendWriteDependency at hrun
  cases h with
  | writing w rest hqueue hnum hrunning =>
    have hne : x.numPendingReads ≠ 0 := by
      rw [hnum, kWriteTriggered]
      omega
    rw [if_neg (by simp [hqueue]), if_neg hne] at hrun
    obtain ⟨rfl, rfl⟩ := Prod.mk.inj (Option.some.inj hrun)
    refine ⟨?_, ?_, .inl rfl⟩
    · rw [List.append_nil]
      exact .writing w (rest ++ [(op, true)]) (by simp [hqueue]) hnum hrunning
    · simp [ungranted, hnum, hqueue]
  | reading hqueue hnum hrunning =>
    rw [if_pos hqueue, if_neg (by omega)] at hrun
    by_cases hzero : x.numPendingReads = 0
    · rw [if_pos hzero] at hrun
      obtain ⟨rfl, rfl⟩ := Prod.mk.inj (Option.some.inj hrun)
      obtain rfl : running = [] := List.eq_nil_of_length_eq_zero (by omega)
      refine ⟨.writing op [] (by simp [hqueue]) rfl rfl, ?_, .inr rfl⟩
      simp [ungranted, hqueue]
    · rw [if_neg hzero] at hrun
      obtain ⟨rfl, rfl⟩ := Prod.mk.inj (Option.some.inj hrun)
      refine ⟨?_, ?_, .inl rfl⟩
      · rw [List.append_nil]
        exact .draining op [] (by simp [hqueue]) hnum (by omega) hrunning
      · simp [ungranted, hnum, ne_kWriteTriggered]
  | draining w rest hqueue hnum hpos hrunning =>
    rw [if_neg (by simp [hqueue]), if_neg (by omega)] at hrun
    obtain ⟨rfl, rfl⟩ := Prod.mk.inj (Option.some.inj hrun)
    refine ⟨?_, ?_, .inl rfl⟩
    · rw [List.append_nil]
      exact .draining w (rest ++ [(op, true)]) (by simp [hqueue]) hnum hpos hrunning
    · simp [ungranted, hnum, ne_kWriteTriggered]

/-- While an operation reads the variable, `num_pending_reads_` counts the readers. -/
theorem Fits.of_read (h : x.Fits running) (hmem : (op, false) ∈ running) :
    x.numPendingReads = running.length ∧ (∀ e ∈ running, e.2 = false) ∧
      (x.queue = [] ∨ ∃ w rest, x.queue = (w, true) :: rest) := by
  cases h with
  | writing w rest _ _ hrunning =>
    rw [hrunning] at hmem
    simp at hmem
  | reading hqueue hnum hrunning => exact ⟨hnum, hrunning, .inl hqueue⟩
  | draining w rest hqueue hnum _ hrunning => exact ⟨hnum, hrunning, .inr ⟨w, rest, hqueue⟩⟩

/-- A reader completes. -/
theorem completeReadDependency_spec (h : x.Fits running) (hmem : (op, false) ∈ running)
    {running' : List (ℕ × Bool)} (hlength : running'.length + 1 = running.length)
    (hsub : ∀ e ∈ running', e ∈ running)
    (hrun : x.completeReadDependency = some (x', granted)) :
    x'.Fits (running' ++ granted) ∧ x.ungranted = granted ++ x'.ungranted := by
  obtain ⟨hnum, hread, hqueue⟩ := h.of_read hmem
  have hungranted : x.ungranted = x.queue := by
    rw [ungranted, if_neg (hnum ▸ ne_kWriteTriggered)]
  unfold completeReadDependency at hrun
  rw [if_neg (by omega)] at hrun
  by_cases hlast : x.numPendingReads - 1 = 0
  · obtain rfl : running' = [] := List.eq_nil_of_length_eq_zero (by omega)
    rw [if_pos hlast] at hrun
    rcases hqueue with hqueue | ⟨w, rest, hqueue⟩
    · rw [hqueue] at hrun
      obtain ⟨rfl, rfl⟩ := Prod.mk.inj (Option.some.inj hrun)
      refine ⟨.reading rfl rfl (by simp), ?_⟩
      rw [hungranted, hqueue]
      simp [ungranted]
    · rw [hqueue] at hrun
      obtain ⟨rfl, rfl⟩ := Prod.mk.inj (Option.some.inj hrun)
      refine ⟨.writing w rest rfl rfl rfl, ?_⟩
      rw [hungranted, hqueue]
      simp [ungranted]
  · rw [if_neg hlast] at hrun
    obtain ⟨rfl, rfl⟩ := Prod.mk.inj (Option.some.inj hrun)
    have hnum' : x.numPendingReads - 1 = running'.length := by omega
    have hread' : ∀ e ∈ running', e.2 = false := fun e he => hread e (hsub e he)
    refine ⟨?_, ?_⟩
    · rw [List.append_nil]
      rcases hqueue with hqueue | ⟨w, rest, hqueue⟩
      · exact .reading hqueue hnum' hread'
      · exact .draining w rest hqueue hnum' (by omega) hread'
    · rw [hungranted, ungranted, if_neg (by rw [hnum']; exact ne_kWriteTriggered)]
      rfl

/-- The writer completes. -/
theorem completeWriteDependency_spec (h : x.Fits running) (hmem : (op, true) ∈ running)
    (hrun : x.completeWriteDependency = some (x', granted)) :
    running = [(op, true)] ∧ x'.Fits granted ∧ x.ungranted = granted ++ x'.ungranted := by
  unfold completeWriteDependency at hrun
  cases h with
  | reading _ _ hrunning | draining _ _ _ _ _ hrunning => simpa using hrunning _ hmem
  | writing w rest hqueue hnum hrunning =>
    obtain rfl : op = w := by
      rw [hrunning] at hmem
      simpa using hmem
    refine ⟨hrunning, ?_⟩
    have hungranted : x.ungranted = rest := by simp [ungranted, hnum, hqueue]
    rw [if_neg (not_not.mpr hnum), hqueue] at hrun
    dsimp only at hrun
    split at hrun
    · split at hrun
      · next hrest =>
        obtain ⟨rfl, rfl⟩ := Prod.mk.inj (Option.some.inj hrun)
        refine ⟨.reading rfl rfl (by simp), ?_⟩
        rw [hungranted, hrest]
        simp [ungranted]
      · cases hrun
    · have hsplit : rest = (rest.takeWhile fun e => !e.2) ++ rest.dropWhile fun e => !e.2 :=
        List.takeWhile_append_dropWhile.symm
      have hreads : ∀ e ∈ rest.takeWhile fun e => !e.2, e.2 = false := by
        intro e he
        have := List.mem_takeWhile_imp he
        simpa using this
      cases hdrop : rest.dropWhile fun e => !e.2 with
      | nil =>
        rw [hdrop] at hrun
        obtain ⟨rfl, rfl⟩ := Prod.mk.inj (Option.some.inj hrun)
        refine ⟨.reading rfl rfl hreads, ?_⟩
        rw [hdrop] at hsplit
        rw [hungranted]
        simpa [ungranted] using hsplit
      | cons e writes =>
        have hwrite : ∃ v, e = (v, true) := by
          have hhead := List.head_dropWhile_not (fun e : ℕ × Bool => !e.2)
            (show rest.dropWhile (fun e => !e.2) ≠ [] by simp [hdrop])
          simp only [hdrop, List.head_cons, Bool.not_eq_false'] at hhead
          exact ⟨e.1, by rw [← hhead]⟩
        obtain ⟨v, rfl⟩ := hwrite
        rw [hdrop] at hrun hsplit
        dsimp only at hrun
        split at hrun
        · next hnone =>
          obtain ⟨rfl, rfl⟩ := Prod.mk.inj (Option.some.inj hrun)
          refine ⟨.writing v writes rfl rfl rfl, ?_⟩
          rw [hungranted, hsplit, hnone]
          simp [ungranted]
        · next hsome =>
          obtain ⟨rfl, rfl⟩ := Prod.mk.inj (Option.some.inj hrun)
          refine ⟨.draining v writes rfl rfl ?_ hreads, ?_⟩
          · exact List.length_pos_iff.mpr hsome
          · rw [hungranted, ungranted, if_neg ne_kWriteTriggered]
            exact hsplit

theorem append_spec {e : ℕ × Bool} (h : x.Fits running)
    (hrun : x.append e = some (x', granted)) :
    x'.Fits (running ++ granted) ∧ x.ungranted ++ [e] = granted ++ x'.ungranted ∧
      (granted = [] ∨ granted = [e]) := by
  obtain ⟨op, write⟩ := e
  unfold append at hrun
  cases write with
  | false => exact appendReadDependency_spec h hrun
  | true => exact appendWriteDependency_spec h hrun

theorem complete_spec {e : ℕ × Bool} (h : x.Fits running) (hnodup : running.Nodup)
    (hmem : e ∈ running) (hrun : x.complete e = some (x', granted)) :
    x'.Fits (running.filter (· != e) ++ granted) ∧ x.ungranted = granted ++ x'.ungranted := by
  obtain ⟨op, write⟩ := e
  unfold complete at hrun
  cases write with
  | false =>
    refine completeReadDependency_spec h hmem ?_ (fun e he => (List.mem_filter.mp he).1) hrun
    have hpos := List.length_pos_of_mem hmem
    have herase := List.length_erase_of_mem hmem
    rw [hnodup.erase_eq_filter] at herase
    omega
  | true =>
    obtain ⟨hrunning, hfits, hungranted⟩ := completeWriteDependency_spec h hmem hrun
    rw [hrunning]
    exact ⟨by simpa using hfits, hungranted⟩

theorem append_toDelete {e : ℕ × Bool} (hrun : x.append e = some (x', granted)) :
    x'.toDelete = x.toDelete := by
  unfold append appendWriteDependency appendReadDependency at hrun
  split at hrun <;> split_ifs at hrun <;>
    rw [← (Prod.mk.inj (Option.some.inj hrun)).1]

theorem complete_toDelete {e : ℕ × Bool} (hrun : x.complete e = some (x', granted)) :
    x'.toDelete = x.toDelete := by
  unfold complete completeWriteDependency completeReadDependency at hrun
  dsimp only at hrun
  repeat' split at hrun
  all_goals cases hrun
  all_goals rfl

/-- No check of an append fails. -/
theorem append_isSome (h : x.Fits running) (e : ℕ × Bool) : (x.append e).isSome := by
  unfold append appendWriteDependency appendReadDependency
  cases h with
  | writing w rest hqueue hnum =>
    have hne : x.numPendingReads ≠ 0 := by
      rw [hnum, kWriteTriggered]
      omega
    simp only [hqueue, reduceCtorEq, if_false, if_neg hne]
    split_ifs <;> rfl
  | reading hqueue hnum =>
    have hnonneg : ¬ x.numPendingReads < 0 := by omega
    simp only [hqueue, if_true, if_neg hnonneg]
    split_ifs <;> rfl
  | draining w rest hqueue hnum hpos =>
    have hne : x.numPendingReads ≠ 0 := by omega
    simp only [hqueue, reduceCtorEq, if_false, if_neg hne]
    split_ifs <;> rfl

/-- No check of a completion fails, if nothing waits for a variable that is to be deleted. -/
theorem complete_isSome {e : ℕ × Bool} (h : x.Fits running) (hmem : e ∈ running)
    (hdelete : x.toDelete = true → x.ungranted = []) : (x.complete e).isSome := by
  unfold complete completeWriteDependency completeReadDependency
  cases h with
  | writing w rest hqueue hnum hrunning =>
    rw [hrunning, List.mem_singleton] at hmem
    have hrest : x.toDelete = true → rest = [] := by simpa [ungranted, hnum, hqueue] using hdelete
    simp only [hmem, hnum, hqueue, if_true, ne_eq, not_true, if_false]
    split
    · next hset => simp [hrest hset]
    · split
      · rfl
      · split <;> rfl
  | reading hqueue hnum hrunning | draining w rest hqueue hnum hpos hrunning =>
    have hread : e.2 = false := hrunning e hmem
    have hlength := List.length_pos_of_mem hmem
    have hpositive : ¬ x.numPendingReads ≤ 0 := by omega
    simp only [hread, hpositive, hqueue, if_false, Bool.false_eq_true]
    split_ifs <;> rfl

end ThreadedVar

/-- A variable and its history: the entries in the order in which they were appended, those that
may use the variable, in the order in which they got it, and those that have completed on it. -/
structure VarHistory where
  var : ThreadedVar := {}
  appended : List (ℕ × Bool) := []
  granted : List (ℕ × Bool) := []
  completed : List (ℕ × Bool) := []

namespace VarHistory

def append (h : VarHistory) (e : ℕ × Bool) : Option (VarHistory × List (ℕ × Bool)) :=
  (h.var.append e).map fun (x, granted) =>
    ({ h with var := x, appended := h.appended ++ [e], granted := h.granted ++ granted }, granted)

def complete (h : VarHistory) (e : ℕ × Bool) : Option (VarHistory × List (ℕ × Bool)) :=
  (h.var.complete e).map fun (x, granted) =>
    ({ h with var := x, granted := h.granted ++ granted, completed := h.completed ++ [e] },
      granted)

def setToDelete (h : VarHistory) : VarHistory := { h with var := h.var.setToDelete }

/-- How often an operation waits for the variable. -/
def waiting (h : VarHistory) (op : ℕ) : ℕ := h.var.ungranted.countP (·.1 = op)

/-- The operations that may use the variable and have not completed on it. -/
def running (h : VarHistory) : List (ℕ × Bool) :=
  h.granted.filter fun e => e ∉ h.completed

/-- What holds of a variable at every time. An operation gets the variable only if the operations
before it that conflict with it have completed. -/
structure Ok (h : VarHistory) : Prop where
  appended_eq : h.appended = h.granted ++ h.var.ungranted
  nodup : h.appended.Nodup
  completed_sub : ∀ e ∈ h.completed, e ∈ h.granted
  fits : h.var.Fits h.running
  serial : h.granted.Pairwise fun e e' => e.2 = true ∨ e'.2 = true → e ∈ h.completed

variable {h h' : VarHistory} {e : ℕ × Bool} {g : List (ℕ × Bool)}

theorem Ok.empty : Ok {} :=
  ⟨rfl, by simp, by simp, .reading rfl rfl (by simp [running]), by simp⟩

theorem Ok.setToDelete (hok : h.Ok) : h.setToDelete.Ok :=
  ⟨hok.appended_eq, hok.nodup, hok.completed_sub, hok.fits.setToDelete, hok.serial⟩

theorem Ok.nodup_granted (hok : h.Ok) : h.granted.Nodup := by
  have hnodup := hok.nodup
  rw [hok.appended_eq] at hnodup
  exact hnodup.of_append_left

theorem Ok.granted_sub (hok : h.Ok) (he : e ∈ h.granted) : e ∈ h.appended := by
  rw [hok.appended_eq]
  exact List.mem_append_left _ he

theorem append_eq (hrun : h.append e = some (h', g)) :
    ∃ x, h.var.append e = some (x, g) ∧
      h' = { h with var := x, appended := h.appended ++ [e], granted := h.granted ++ g } := by
  obtain ⟨⟨x, g'⟩, hx, heq⟩ := Option.map_eq_some_iff.mp hrun
  obtain ⟨rfl, rfl⟩ := Prod.mk.inj heq
  exact ⟨x, hx, rfl⟩

theorem complete_eq (hrun : h.complete e = some (h', g)) :
    ∃ x, h.var.complete e = some (x, g) ∧
      h' = { h with var := x, granted := h.granted ++ g, completed := h.completed ++ [e] } := by
  obtain ⟨⟨x, g'⟩, hx, heq⟩ := Option.map_eq_some_iff.mp hrun
  obtain ⟨rfl, rfl⟩ := Prod.mk.inj heq
  exact ⟨x, hx, rfl⟩

theorem filter_notMem {completed : List (ℕ × Bool)} (hg : ∀ e ∈ g, e ∉ completed) :
    (g.filter fun e => e ∉ completed) = g :=
  List.filter_eq_self.mpr fun e he => decide_eq_true (hg e he)

/-- New entries get the variable: the ones before them that conflict have completed, since the
others are still running. -/
theorem serial_append {granted completed : List (ℕ × Bool)}
    (hserial : granted.Pairwise fun e e' => e.2 = true ∨ e'.2 = true → e ∈ completed)
    (hpair : ((granted.filter fun e => e ∉ completed) ++ g).Pairwise fun e e' =>
      e.2 = false ∧ e'.2 = false) :
    (granted ++ g).Pairwise fun e e' => e.2 = true ∨ e'.2 = true → e ∈ completed := by
  obtain ⟨-, hg, hcross⟩ := List.pairwise_append.mp hpair
  refine List.pairwise_append.mpr ⟨hserial, ?_, ?_⟩
  · refine hg.imp fun hreads hwrites => ?_
    simp [hreads] at hwrites
  · intro e he e' he' hwrites
    by_contra hrunning
    have hreads := hcross e (List.mem_filter.mpr ⟨he, by simpa using hrunning⟩) e' he'
    simp [hreads] at hwrites

theorem Ok.append (hok : h.Ok) (he : e ∉ h.appended) (hrun : h.append e = some (h', g)) :
    h'.Ok := by
  obtain ⟨x, hx, rfl⟩ := append_eq hrun
  obtain ⟨hfits, hungranted, hg⟩ := ThreadedVar.append_spec hok.fits hx
  have hnew : ∀ e' ∈ g, e' ∉ h.completed := by
    intro e' he' hmem
    rcases hg with rfl | rfl
    · cases he'
    · rw [List.mem_singleton.mp he'] at hmem
      rw [hok.appended_eq] at he
      exact he (List.mem_append_left _ (hok.completed_sub e hmem))
  have hrunning : (h.granted ++ g).filter (fun e => e ∉ h.completed) = h.running ++ g := by
    rw [List.filter_append, filter_notMem hnew, running]
  refine ⟨?_, ?_, ?_, ?_, ?_⟩
  · rw [hok.appended_eq, List.append_assoc, List.append_assoc, hungranted]
  · exact List.nodup_append.mpr ⟨hok.nodup, List.nodup_singleton e, by grind⟩
  · exact fun e' he' => List.mem_append_left _ (hok.completed_sub e' he')
  · rw [VarHistory.running, hrunning]
    exact hfits
  · exact serial_append hok.serial hfits.pairwise

theorem Ok.complete (hok : h.Ok) (he : e ∈ h.running) (hrun : h.complete e = some (h', g)) :
    h'.Ok := by
  obtain ⟨x, hx, rfl⟩ := complete_eq hrun
  obtain ⟨hfits, hungranted⟩ :=
    ThreadedVar.complete_spec hok.fits (hok.nodup_granted.filter _) he hx
  have happended := hok.appended_eq
  rw [hungranted, ← List.append_assoc] at happended
  have hnodup := hok.nodup
  rw [happended] at hnodup
  have hnew : ∀ e' ∈ g, e' ∉ h.completed ++ [e] := by
    intro e' he' hmem
    have hold : e' ∈ h.granted := by
      rcases List.mem_append.mp hmem with hmem | hmem
      · exact hok.completed_sub e' hmem
      · rw [List.mem_singleton.mp hmem]
        exact (List.mem_filter.mp he).1
    exact (List.nodup_append.mp hnodup.of_append_left).2.2 e' hold e' he' rfl
  have hfilter : h.granted.filter (fun e' => e' ∉ h.completed ++ [e]) =
      h.running.filter (· != e) := by
    rw [running, List.filter_filter]
    refine List.filter_congr fun e' _ => ?_
    by_cases heq : e' = e <;> simp [heq]
  have hrunning : (h.granted ++ g).filter (fun e' => e' ∉ h.completed ++ [e]) =
      h.running.filter (· != e) ++ g := by
    rw [List.filter_append, filter_notMem hnew, hfilter]
  refine ⟨happended, hok.nodup, ?_, ?_, ?_⟩
  · intro e' he'
    rcases List.mem_append.mp he' with he' | he'
    · exact List.mem_append_left _ (hok.completed_sub e' he')
    · rw [List.mem_singleton.mp he']
      exact List.mem_append_left _ (List.mem_filter.mp he).1
  · rw [VarHistory.running, hrunning]
    exact hfits
  · refine serial_append (hok.serial.imp fun hmem hwrites => ?_) ?_
    · exact List.mem_append_left _ (hmem hwrites)
    · rw [hfilter]
      exact hfits.pairwise

theorem Ok.waiting_append (hok : h.Ok) (hrun : h.append e = some (h', g)) (op : ℕ) :
    h.waiting op + [e].countP (·.1 = op) = g.countP (·.1 = op) + h'.waiting op := by
  obtain ⟨x, hx, rfl⟩ := append_eq hrun
  obtain ⟨-, hungranted, -⟩ := ThreadedVar.append_spec hok.fits hx
  unfold waiting
  rw [← List.countP_append, ← List.countP_append, hungranted]

theorem Ok.waiting_complete (hok : h.Ok) (he : e ∈ h.running)
    (hrun : h.complete e = some (h', g)) (op : ℕ) :
    h.waiting op = g.countP (·.1 = op) + h'.waiting op := by
  obtain ⟨x, hx, rfl⟩ := complete_eq hrun
  obtain ⟨-, hungranted⟩ :=
    ThreadedVar.complete_spec hok.fits (hok.nodup_granted.filter _) he hx
  unfold waiting
  rw [hungranted, List.countP_append]

/-- If an entry has got the variable, the entries appended before it that conflict with it have
completed. -/
theorem Ok.completed_of_before (hok : h.Ok) {e' : ℕ × Bool} {k₁ k₂ : List (ℕ × Bool)}
    (happended : h.appended = k₁ ++ e' :: k₂) (he' : e' ∈ h.granted) (he : e ∈ k₁)
    (hwrites : e.2 = true ∨ e'.2 = true) : e ∈ h.completed := by
  obtain ⟨l₁, l₂, hgranted⟩ := List.append_of_mem he'
  have hsplit : h.appended = l₁ ++ e' :: (l₂ ++ h.var.ungranted) := by
    rw [hok.appended_eq, hgranted]
    simp
  have hl : l₁ = k₁ := by
    -- the entry occurs once
    have hnodup := hok.nodup
    rw [hsplit, List.nodup_middle, List.nodup_cons, List.mem_append, not_or] at hnodup
    rw [hsplit] at happended
    exact ((List.append_cons_inj_of_notMem hnodup.1.1 hnodup.1.2).mp happended).1
  have hserial := hok.serial
  rw [hgranted, hl] at hserial
  exact (List.pairwise_append.mp hserial).2.2 e he e' (List.mem_cons_self ..) hwrites

end VarHistory

end NetStorm

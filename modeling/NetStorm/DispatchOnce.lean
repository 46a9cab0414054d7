import NetStorm.LinkedEngine

/-!
# Every operation is dispatched once

`Refines` relates the engine over linked lists to the one over queues, and says where the
decrements of the wait counters are: every entry that a variable has granted has had its decrement
or has it in one of the calls. No check fails, since no check of the engine over queues does and
nothing waits for a variable that is to be deleted.
-/
namespace NetStorm

namespace LinkedTask

/-- The task without the reason of a decrement. -/
def forget : LinkedTask → Task
  | append v e => .append v e
  | grant _ op => .decrWait op
  | endPush op => .decrWait op
  | setToDelete v => .setToDelete v
  | complete v e => .complete v e

/-- The push of an operation ends after its appends. -/
def Closed : List LinkedTask → Prop
  | [] => True
  | t :: rest => (∀ v e, t = append v e → endPush e.1 ∈ rest) ∧ Closed rest

theorem Closed.append {l₁ l₂ : List LinkedTask} (h₁ : Closed l₁) (h₂ : Closed l₂) :
    Closed (l₁ ++ l₂) := by
  induction l₁ with
  | nil => exact h₂
  | cons t l₁ ih => exact ⟨fun v e ht => List.mem_append_left _ (h₁.1 v e ht), ih h₁.2⟩

theorem closed_of_notMem {l : List LinkedTask} (h : ∀ v e, append v e ∉ l) : Closed l := by
  induction l with
  | nil => trivial
  | cons t l ih =>
    refine ⟨fun v e ht => ?_, ih fun v e he => h v e (List.mem_cons_of_mem _ he)⟩
    rw [ht] at h
    exact absurd (List.mem_cons_self ..) (h v e)

end LinkedTask

namespace ThreadedOpr
variable {o : ThreadedOpr} {op : ℕ}

theorem map_forget_linkedPushTasks :
    (o.linkedPushTasks op).map LinkedTask.forget = o.pushTasks op := by
  simp [linkedPushTasks, pushTasks, LinkedTask.forget, Function.comp_def]

theorem map_forget_linkedExecuteTasks :
    (o.linkedExecuteTasks op).map LinkedTask.forget = o.executeTasks op := by
  unfold linkedExecuteTasks executeTasks
  split <;> simp [LinkedTask.forget, Function.comp_def]

theorem closed_linkedPushTasks : LinkedTask.Closed (o.linkedPushTasks op) := by
  have happends : ∀ (l : List ℕ) (b : Bool) (rest : List LinkedTask),
      LinkedTask.endPush op ∈ rest → LinkedTask.Closed rest →
      LinkedTask.endPush op ∈ l.map (fun v => LinkedTask.append v (op, b)) ++ rest ∧
        LinkedTask.Closed (l.map (fun v => LinkedTask.append v (op, b)) ++ rest) := by
    intro l b rest hmem hclosed
    induction l with
    | nil => exact ⟨hmem, hclosed⟩
    | cons v l ih =>
      refine ⟨List.mem_cons_of_mem _ ih.1, fun u e ht => ?_, ih.2⟩
      cases ht
      exact ih.1
  unfold linkedPushTasks
  rw [List.append_assoc]
  obtain ⟨hmem, hclosed⟩ := happends o.mutableVars true [.endPush op] (by simp)
    (LinkedTask.closed_of_notMem (by simp))
  exact (happends o.constVars false _ hmem hclosed).2

theorem closed_linkedExecuteTasks : LinkedTask.Closed (o.linkedExecuteTasks op) := by
  refine LinkedTask.closed_of_notMem fun v e he => ?_
  unfold linkedExecuteTasks at he
  split at he <;> simp at he

theorem count_grant_linkedPushTasks (v op' : ℕ) :
    (o.linkedPushTasks op).count (.grant v op') = 0 := by
  simp [linkedPushTasks, List.count_eq_zero]

theorem count_endPush_linkedPushTasks (op' : ℕ) :
    (o.linkedPushTasks op).count (.endPush op') = if op' = op then 1 else 0 := by
  have happends : ∀ (l : List ℕ) (b : Bool),
      (l.map fun v => LinkedTask.append v (op, b)).count (.endPush op') = 0 := by
    simp [List.count_eq_zero]
  unfold linkedPushTasks
  rw [List.count_append, List.count_append, happends, happends, List.count_singleton]
  by_cases hop : op' = op <;> simp [hop, Ne.symm]

theorem mem_linkedExecuteTasks_setToDelete {v : ℕ}
    (h : LinkedTask.setToDelete v ∈ o.linkedExecuteTasks op) :
    o.deletes = true ∧ v ∈ o.mutableVars := by
  unfold linkedExecuteTasks at h
  split at h
  · next hdeletes => exact ⟨hdeletes, by simpa using h⟩
  · simp at h

theorem count_linkedExecuteTasks {t : LinkedTask} (ht : ∀ v, t ≠ .setToDelete v)
    (ht' : ∀ v e, t ≠ .complete v e) : (o.linkedExecuteTasks op).count t = 0 := by
  rw [List.count_eq_zero]
  unfold linkedExecuteTasks
  intro hmem
  split at hmem
  · simp [Ne.symm (ht _), Ne.symm (ht' _ _)] at hmem
  · simp [Ne.symm (ht' _ _)] at hmem

end ThreadedOpr

namespace LinkedEngine

/-- The engine over the queues `hs`. -/
def withQueues (l : LinkedEngine) (hs : ℕ → VarHistory) : ThreadedEngine where
  oprs := l.oprs
  wait := l.wait
  vars := hs
  dispatched := l.dispatched
  executed := l.executed

/-- What the calls still have to do. -/
def tasksOf (calls : List (ℕ × List LinkedTask)) : List LinkedTask :=
  (calls.map Prod.snd).flatten

/-- What holds of the state, the tasks of all calls and the queues. -/
structure Refines (l : LinkedEngine) (tasks : List LinkedTask) (hs : ℕ → VarHistory) : Prop where
  consistent : (l.withQueues hs).Consistent (tasks.map LinkedTask.forget)
  appended : ∀ v, l.appended v = (hs v).appended
  represents : ∀ v, (∃ e ∈ (hs v).completed, Deletes l.oprs v e.1) ∨
    (l.vars v).Represents (hs v).var
  last : ∀ v k₁ e k₂, (hs v).appended = k₁ ++ e :: k₂ → Deletes l.oprs v e.1 → k₂ = []
  marked : ∀ v, (hs v).var.toDelete = true ∨ LinkedTask.setToDelete v ∈ tasks →
    ∃ e ∈ (hs v).granted, Deletes l.oprs v e.1
  granted : ∀ v op, tasks.count (.grant v op) + l.grants.count (v, op) =
    (hs v).granted.countP (·.1 = op)
  wait_eq : ∀ op o, l.oprs[op]? = some o →
    l.wait op = (o.vars.countP fun v => (v, op) ∉ l.grants : ℕ) +
      (tasks.count (.endPush op) : ℕ)
  endPush_once : ∀ op, tasks.count (.endPush op) ≤ 1
  dispatched : ∀ op, op < l.oprs.length → l.wait op = 0 → op ∈ l.dispatched

variable {l l' : LinkedEngine} {tasks others next : List LinkedTask} {hs : ℕ → VarHistory}
  {new fuel v op : ℕ} {e : ℕ × Bool}

theorem getElem?_push_of_le {o o' : ThreadedOpr} (hop : l.oprs.length ≤ op)
    (hopr : (l.push o).oprs[op]? = some o') : op = l.oprs.length ∧ o = o' := by
  have hlt := (List.getElem?_eq_some_iff.mp hopr).1
  have heq : op = l.oprs.length := by
    simp only [LinkedEngine.push, List.length_append, List.length_singleton] at hlt
    omega
  rw [heq] at hopr
  exact ⟨heq, Option.some.inj ((List.getElem?_concat_length).symm.trans hopr)⟩

theorem push_wait_of_lt {o : ThreadedOpr} (hop : op < l.oprs.length) :
    (l.push o).wait op = l.wait op := by
  unfold LinkedEngine.push
  exact Function.update_of_ne hop.ne ..

/-- One more variable has granted access to the operation. -/
theorem countP_grants {vs : List ℕ} {grants : List (ℕ × ℕ)} (hnodup : vs.Nodup) (hv : v ∈ vs)
    (hnew : (v, op) ∉ grants) :
    (vs.countP fun u => (u, op) ∉ grants) =
      (vs.countP fun u => (u, op) ∉ grants ++ [(v, op)]) + 1 := by
  obtain ⟨k₁, k₂, rfl⟩ := List.append_of_mem hv
  rw [List.nodup_middle, List.nodup_cons, List.mem_append, not_or] at hnodup
  have hother : ∀ k : List ℕ, v ∉ k → (k.countP fun u => (u, op) ∉ grants ++ [(v, op)]) =
      k.countP fun u => (u, op) ∉ grants := by
    intro k hk
    refine List.countP_congr fun u hu => ?_
    simp [ne_of_mem_of_not_mem hu hk]
  simp only [List.countP_append, hother k₁ hnodup.1.1, List.countP_cons, hother k₂ hnodup.1.2]
  simp [hnew]
  omega

theorem countP_grants_of_ne {vs : List ℕ} {grants : List (ℕ × ℕ)} {op' : ℕ} (hop : op' ≠ op) :
    (vs.countP fun u => (u, op') ∉ grants ++ [(v, op)]) = vs.countP fun u => (u, op') ∉ grants :=
  List.countP_congr fun u _ => by simp [hop]

theorem count_map_fst (g : List (ℕ × Bool)) (op : ℕ) :
    (g.map Prod.fst).count op = g.countP (·.1 = op) := by
  rw [List.count, List.countP_map]
  exact List.countP_congr fun e _ => by simp

theorem refines_empty : Refines {} [] fun _ => {} where
  consistent := ThreadedEngine.Consistent.empty
  appended _ := rfl
  represents _ := .inr (LinkedVar.represents_newVariable 0)
  last := by simp
  marked := by simp
  granted := by simp
  wait_eq := by simp
  endPush_once := by simp
  dispatched := by simp

/-- The calls differ, but not the tasks that are left. -/
theorem Refines.perm {tasks' : List LinkedTask} (h : Refines l tasks hs)
    (hperm : tasks.Perm tasks') : Refines l tasks' hs where
  consistent := h.consistent.perm (hperm.map _)
  appended := h.appended
  represents := h.represents
  last := h.last
  marked v hv := h.marked v (hv.imp_right hperm.mem_iff.mpr)
  granted v op := hperm.count_eq (.grant v op) ▸ h.granted v op
  wait_eq op o hopr := hperm.count_eq (.endPush op) ▸ h.wait_eq op o hopr
  endPush_once op := hperm.count_eq (.endPush op) ▸ h.endPush_once op
  dispatched := h.dispatched

theorem Refines.lt_of_endPush (h : Refines l tasks hs) (hop : LinkedTask.endPush op ∈ tasks) :
    op < l.oprs.length :=
  h.consistent.formed (.decrWait op) (List.mem_map_of_mem hop)

theorem Refines.uses (h : Refines l tasks hs) (he : e ∈ (hs v).appended) : Uses l.oprs v e :=
  (h.consistent.var v).uses e he

theorem Refines.ok (h : Refines l tasks hs) (v : ℕ) : (hs v).Ok := (h.consistent.var v).ok

/-- A variable grants an operation access once. -/
theorem Refines.countP_granted (h : Refines l tasks hs) (he : e ∈ (hs v).granted) :
    (hs v).granted.countP (·.1 = e.1) = 1 := by
  rw [← List.count_eq_one_of_mem (h.ok v).nodup_granted he, List.count]
  refine List.countP_congr fun e' he' => ?_
  have huse := h.uses ((h.ok v).granted_sub he)
  have huse' := h.uses ((h.ok v).granted_sub he')
  rw [decide_eq_true_iff, beq_iff_eq]
  exact ⟨fun heq => huse'.eq_of_fst huse heq, congrArg Prod.fst⟩

theorem Refines.countP_granted_le (h : Refines l tasks hs) (v op : ℕ) :
    (hs v).granted.countP (·.1 = op) ≤ 1 := by
  rcases Nat.eq_zero_or_pos ((hs v).granted.countP (·.1 = op)) with hzero | hpos
  · omega
  · obtain ⟨e, he, heq⟩ := List.countP_pos_iff.mp hpos
    rw [← of_decide_eq_true heq, h.countP_granted he]

/-- An operation that was not appended has no access. -/
theorem Refines.countP_granted_eq_zero (h : Refines l tasks hs)
    (hnew : ∀ e ∈ (hs v).appended, e.1 ≠ op) : (hs v).granted.countP (·.1 = op) = 0 := by
  refine List.countP_eq_zero.mpr fun e he heq => ?_
  exact hnew e ((h.ok v).granted_sub he) (of_decide_eq_true heq)

theorem Refines.push {o : ThreadedOpr} (h : Refines l tasks hs) (ho : o.vars.Nodup) :
    Refines (l.push o) (tasks ++ o.linkedPushTasks l.oprs.length) hs := by
  have hlt : ∀ v e, e ∈ (hs v).appended → e.1 < l.oprs.length := fun v e he => (h.uses he).lt
  have hnone : ∀ v, (v, l.oprs.length) ∉ l.grants := by
    intro v hmem
    have hcount := h.granted v l.oprs.length
    rw [h.countP_granted_eq_zero fun e he => (hlt v e he).ne] at hcount
    have hpos := List.count_pos_iff.mpr hmem
    omega
  refine ⟨?_, h.appended, ?_, ?_, ?_, ?_, ?_, ?_, ?_⟩
  · rw [List.map_append, ThreadedOpr.map_forget_linkedPushTasks]
    exact h.consistent.push ho
  · intro v
    refine (h.represents v).imp_left ?_
    rintro ⟨e, he, hdeletes⟩
    exact ⟨e, he, hdeletes.append o⟩
  · intro v k₁ e k₂ happended hdeletes
    refine h.last v k₁ e k₂ happended ((deletes_append (hlt v e ?_)).mp hdeletes)
    simp [happended]
  · intro v hv
    obtain ⟨e, he, hdeletes⟩ := h.marked v (hv.imp_right fun hmem => by
      simpa [ThreadedOpr.linkedPushTasks] using hmem)
    exact ⟨e, he, hdeletes.append o⟩
  · intro v op
    rw [List.count_append, ThreadedOpr.count_grant_linkedPushTasks]
    exact h.granted v op
  · intro op o' hopr
    rw [List.count_append, ThreadedOpr.count_endPush_linkedPushTasks]
    rcases Nat.lt_or_ge op l.oprs.length with hop | hop
    · have hwait := h.wait_eq op o' (by
        rw [← hopr, LinkedEngine.push, List.getElem?_append_left hop])
      rw [if_neg hop.ne, push_wait_of_lt hop]
      exact hwait
    · obtain ⟨rfl, heq⟩ := getElem?_push_of_le hop hopr
      rw [← heq]
      have hzero : tasks.count (.endPush l.oprs.length) = 0 :=
        List.count_eq_zero.mpr fun hmem => (h.lt_of_endPush hmem).false
      have hall : (o.vars.countP fun v => (v, l.oprs.length) ∉ l.grants) = o.vars.length :=
        List.countP_eq_length.mpr fun v _ => decide_eq_true (hnone v)
      rw [if_pos rfl, hzero]
      have hself : (l.push o).wait l.oprs.length = _ := Function.update_self ..
      rw [hself]
      change _ = ((o.vars.countP fun v => (v, l.oprs.length) ∉ l.grants : ℕ) : ℤ) + _
      rw [hall]
      simp [ThreadedOpr.vars]
  · intro op
    rw [List.count_append, ThreadedOpr.count_endPush_linkedPushTasks]
    split
    · next hop =>
      have hzero : tasks.count (.endPush op) = 0 :=
        List.count_eq_zero.mpr fun hmem => (h.lt_of_endPush hmem).ne hop
      omega
    · exact h.endPush_once op
  · intro op hop hwait
    rcases Nat.lt_or_ge op l.oprs.length with hlt' | hge
    · rw [push_wait_of_lt hlt'] at hwait
      exact h.dispatched op hlt' hwait
    · have heq : op = l.oprs.length := by
        simp only [LinkedEngine.push, List.length_append, List.length_singleton] at hop
        omega
      simp only [LinkedEngine.push, heq, Function.update_self] at hwait
      omega

/-- The decrement for a variable is made once. -/
theorem Refines.not_granted (h : Refines l tasks hs) (hpos : 0 < tasks.count (.grant v op)) :
    (v, op) ∉ l.grants := by
  intro hmem
  have hcount := h.granted v op
  have hle := h.countP_granted_le v op
  have hpos' := List.count_pos_iff.mpr hmem
  omega

/-- The counter after a decrement for a variable. -/
theorem Refines.wait_grant {o : ThreadedOpr} (h : Refines l tasks hs)
    (hopr : l.oprs[op]? = some o) {op' : ℕ} {e : ℕ × Bool} (huse : Uses l.oprs v e) (he : e.1 = op')
    (hnew : (v, op') ∉ l.grants) :
    l.wait op - ([op'].count op : ℕ) =
      (o.vars.countP fun u => (u, op) ∉ l.grants ++ [(v, op')] : ℕ) +
        (tasks.count (.endPush op) : ℕ) := by
  have hwait := h.wait_eq op o hopr
  by_cases hop : op = op'
  · have hv : v ∈ o.vars := huse.mem_vars (by rw [he, ← hop]; exact hopr)
    have hnodup := h.consistent.nodup o (List.mem_of_getElem? hopr)
    have hcount := countP_grants hnodup hv hnew
    rw [← hop] at hcount ⊢
    rw [List.count_singleton_self]
    omega
  · rw [countP_grants_of_ne hop, List.count_singleton, if_neg (by simpa using Ne.symm hop)]
    simpa using hwait

/-- An operation is appended to a variable once. -/
theorem Refines.not_appended (h : Refines l (.append v e :: others) hs) {e' : ℕ × Bool}
    (he' : e' ∈ (hs v).appended) : e'.1 ≠ e.1 := by
  intro heq
  have huse : Uses l.oprs v e := h.consistent.formed (.append v e) (List.mem_cons_self ..)
  have honce : ((LinkedTask.append v e :: others).map LinkedTask.forget).count (.append v e) +
      (hs v).appended.count e = 1 := (h.consistent.var v).append_once e huse
  rw [List.map_cons, LinkedTask.forget, List.count_cons_self] at honce
  have happended : e ∉ (hs v).appended := List.count_eq_zero.mp (by omega)
  exact happended ((h.uses he').eq_of_fst huse heq ▸ he')

theorem Refines.not_granted_of_append (h : Refines l (.append v e :: others) hs) :
    (v, e.1) ∉ l.grants := by
  intro hmem
  have hcount := h.granted v e.1
  rw [h.countP_granted_eq_zero fun e' he' => h.not_appended he'] at hcount
  have hpos := List.count_pos_iff.mpr hmem
  omega

/-- The counters after an append, which grants the operation access at once or not. -/
theorem Refines.wait_append {o : ThreadedOpr} {g : List (ℕ × Bool)}
    (h : Refines l (.append v e :: others) hs) (hg : g = [] ∨ g = [e])
    (hopr : l.oprs[op]? = some o) :
    l.wait op - ((g.map Prod.fst).count op : ℕ) =
      (o.vars.countP fun u => (u, op) ∉ l.grants ++ (g.map Prod.fst).map fun op => (v, op) : ℕ) +
        (others.count (.endPush op) : ℕ) := by
  have hcons : (LinkedTask.append v e :: others).count (.endPush op) =
      others.count (.endPush op) := List.count_cons_of_ne (by simp)
  rcases hg with rfl | rfl
  · have hwait := h.wait_eq op o hopr
    rw [hcons] at hwait
    simpa using hwait
  · have huse : Uses l.oprs v e := h.consistent.formed (.append v e) (List.mem_cons_self ..)
    have hwait := h.wait_grant hopr huse rfl h.not_granted_of_append
    rw [hcons] at hwait
    exact hwait

/-- A variable is marked for deletion as before, and its deleter keeps its access. -/
theorem Refines.marked_update {t : LinkedTask} {x : VarHistory} {g : List (ℕ × Bool)} {u : ℕ}
    (h : Refines l (t :: others) hs) (hdelete : x.var.toDelete = (hs v).var.toDelete)
    (hgranted : x.granted = (hs v).granted ++ g)
    (hu : (Function.update hs v x u).var.toDelete = true ∨ LinkedTask.setToDelete u ∈ others) :
    ∃ e ∈ (Function.update hs v x u).granted, Deletes l.oprs u e.1 := by
  rcases eq_or_ne u v with rfl | hne
  · rw [Function.update_self] at hu ⊢
    rw [hdelete] at hu
    obtain ⟨e, he, hdeletes⟩ := h.marked u (hu.imp_right (List.mem_cons_of_mem _))
    rw [hgranted]
    exact ⟨e, List.mem_append_left _ he, hdeletes⟩
  · rw [Function.update_of_ne hne] at hu ⊢
    exact h.marked u (hu.imp_right (List.mem_cons_of_mem _))

/-- A variable that is appended to has not been deleted. -/
theorem Refines.represents_of_append (h : Refines l tasks hs)
    (hundeleted : ∀ e ∈ l.appended v, ¬ Deletes l.oprs v e.1) :
    (l.vars v).Represents (hs v).var := by
  refine (h.represents v).resolve_left ?_
  rintro ⟨e', he', hdeletes⟩
  refine hundeleted e' ?_ hdeletes
  rw [h.appended]
  exact (h.ok v).granted_sub ((h.ok v).completed_sub e' he')

theorem Refines.append (h : Refines l (.append v e :: others) hs)
    (hready : l.Ready new (.append v e)) (hpush : LinkedTask.endPush e.1 ∈ others)
    (hrun : l.run new fuel (.append v e) = some (l', next)) :
    ∃ hs', Refines l' (next ++ others) hs' := by
  have hrep := h.represents_of_append hready.2
  obtain ⟨hfresh, hundeleted⟩ := hready
  have hsome := h.consistent.run_isSome (t := .append v e) (by simp)
  obtain ⟨⟨s', next'⟩, hrun'⟩ := Option.isSome_iff_exists.mp hsome
  have hconsistent := h.consistent.run (t := .append v e) hrun'
  obtain ⟨h', g, happend, rfl, -, rfl⟩ := ThreadedEngine.run_append (h.ok v) hrun'
  obtain ⟨x, hx, rfl⟩ := VarHistory.append_eq happend
  obtain ⟨y, hy, hrep'⟩ := hrep.append hfresh hx
  obtain ⟨-, -, hg⟩ := ThreadedVar.append_spec (h.ok v).fits hx
  have hops : g.map Prod.fst = [] ∨ g.map Prod.fst = [e.1] := by
    rcases hg with rfl | rfl <;> simp
  obtain ⟨rfl, rfl⟩ := run_append hy hops hrun
  have hwait := fun op o (hopr : l.oprs[op]? = some o) => h.wait_append hg hopr
  refine ⟨Function.update hs v
    { hs v with var := x, appended := (hs v).appended ++ [e], granted := (hs v).granted ++ g }, ?_⟩
  refine ⟨?_, fun u => ?_, fun u => ?_, fun u k₁ e' k₂ => ?_, fun u => ?_, fun u op => ?_, hwait,
    fun op => ?_, fun op hlt hzero => ?_⟩
  · have hsame : (fun op => l.wait op - ((g.map Prod.fst).count op : ℕ)) =
        fun op => l.wait op - (g.countP (·.1 = op) : ℕ) := by
      simp only [count_map_fst]
    unfold withQueues
    dsimp only
    rw [hsame]
    exact hconsistent
  · rcases eq_or_ne u v with rfl | hu
    · simp [h.appended]
    · simp [hu, h.appended]
  · rcases eq_or_ne u v with rfl | hu
    · simp [hrep']
    · simp only [Function.update_of_ne hu]
      exact h.represents u
  · rcases eq_or_ne u v with rfl | hu
    · simp only [Function.update_self]
      intro happended hdeletes
      rcases List.eq_nil_or_concat k₂ with hk₂ | ⟨k₂, z, rfl⟩
      · exact hk₂
      · rw [List.concat_eq_append, ← List.cons_append, ← List.append_assoc] at happended
        have heq := (List.append_inj' happended rfl).1
        refine absurd hdeletes (hundeleted e' ?_)
        simp [h.appended, heq]
    · simp only [Function.update_of_ne hu]
      exact h.last u k₁ e' k₂
  · exact h.marked_update (ThreadedVar.append_toDelete hx) rfl
  · have hgranted := h.granted u op
    rw [List.count_cons_of_ne (by simp)] at hgranted
    simp only [List.nil_append, List.count_append]
    rcases eq_or_ne u v with rfl | hu
    · have hinj : ((g.map Prod.fst).map fun op => (u, op)).count (u, op) =
          (g.map Prod.fst).count op :=
        List.count_map_of_injective _ _ (Prod.mk_right_injective u) op
      rw [Function.update_self, List.countP_append, hinj, count_map_fst, ← hgranted, Nat.add_assoc]
    · have hother : ((g.map Prod.fst).map fun op => (v, op)).count (u, op) = 0 := by
        simp [List.count_eq_zero, Ne.symm hu]
      rw [Function.update_of_ne hu, hother]
      exact hgranted
  · have honce := h.endPush_once op
    rw [List.count_cons_of_ne (by simp)] at honce
    exact honce
  · dsimp only at hzero
    by_cases hop : op = e.1
    · -- the push of the operation has not ended
      have hwait' := hwait op _ (List.getElem?_eq_getElem hlt)
      have hpos := List.count_pos_iff.mpr hpush
      rw [← hop] at hpos
      omega
    · have hnone : (g.map Prod.fst).count op = 0 := by
        rcases hops with hnil | hone
        · simp [hnil]
        · simp [hone, Ne.symm hop]
      rw [hnone] at hzero
      exact h.dispatched op hlt (by simpa using hzero)

theorem withQueues_dispatch (grants : List (ℕ × ℕ)) (hpos : 0 < l.wait op) :
    (l.withQueues hs).run (.decrWait op) = some
      ((dispatch { l with
        wait := Function.update l.wait op (l.wait op - 1), grants := grants } op).withQueues hs,
        []) := by
  simp only [ThreadedEngine.run, ThreadedEngine.decrWait]
  rw [if_neg (by change ¬ l.wait op - 1 < 0; omega)]
  unfold dispatch
  split <;> simp_all [withQueues]

/-- The decrement of a wait counter, for a variable or at the end of a push. -/
theorem Refines.dispatch {grants : List (ℕ × ℕ)} {t : LinkedTask}
    (h : Refines l (t :: others) hs) (ht : t.forget = .decrWait op) (hpos : 0 < l.wait op)
    (hgranted : ∀ v op, others.count (.grant v op) + grants.count (v, op) =
      (hs v).granted.countP (·.1 = op))
    (hwait : ∀ op' o, l.oprs[op']? = some o → l.wait op' - ([op].count op' : ℕ) =
      (o.vars.countP fun v => (v, op') ∉ grants : ℕ) + (others.count (.endPush op') : ℕ)) :
    Refines (dispatch { l with
      wait := Function.update l.wait op (l.wait op - 1), grants := grants } op) others hs := by
  have hconsistent := h.consistent
  rw [List.map_cons, ht] at hconsistent
  have hafter := hconsistent.run (withQueues_dispatch grants hpos)
  rw [dispatch_eq] at hafter ⊢
  refine ⟨hafter, h.appended, h.represents, h.last, fun v hv => ?_, hgranted, fun op' o hopr => ?_,
    fun op' => ?_, fun op' hlt hzero => ?_⟩
  · exact h.marked v (hv.imp_right (List.mem_cons_of_mem _))
  · dsimp only
    rw [update_decrement]
    exact hwait op' o hopr
  · exact (List.count_le_count_cons ..).trans (h.endPush_once op')
  · dsimp only at hzero ⊢
    by_cases hop : op' = op
    · rw [hop] at hzero ⊢
      rw [if_pos hzero]
      simp
    · rw [Function.update_of_ne hop] at hzero
      have hold := h.dispatched op' hlt hzero
      split
      · exact List.mem_append_left _ hold
      · exact hold

theorem Refines.grant (h : Refines l (.grant v op :: others) hs)
    (hrun : l.run new fuel (.grant v op) = some (l', next)) : Refines l' (next ++ others) hs := by
  obtain ⟨rfl, hpos, rfl⟩ := run_grant hrun
  have hnew : (v, op) ∉ l.grants := h.not_granted (by simp)
  have huse : ∃ e, e.1 = op ∧ Uses l.oprs v e := by
    have hgranted := h.granted v op
    rw [List.count_cons_self] at hgranted
    obtain ⟨e, he, heq⟩ := List.countP_pos_iff.mp
      (show 0 < (hs v).granted.countP (·.1 = op) by omega)
    exact ⟨e, of_decide_eq_true heq, h.uses ((h.ok v).granted_sub he)⟩
  obtain ⟨e, he, huse⟩ := huse
  refine h.dispatch rfl hpos (fun u op' => ?_) fun op' o hopr => ?_
  · have hgranted := h.granted u op'
    rw [List.count_append, List.count_singleton, ← hgranted, List.count_cons]
    by_cases heq : v = u ∧ op = op'
    · obtain ⟨rfl, rfl⟩ := heq
      simp only [beq_self_eq_true, if_true]
      omega
    · simp [heq]
  · have hwait := h.wait_grant hopr huse he hnew
    have hcons : (LinkedTask.grant v op :: others).count (.endPush op') =
        others.count (.endPush op') := List.count_cons_of_ne (by simp)
    rw [hcons] at hwait
    exact hwait

theorem Refines.endPush (h : Refines l (.endPush op :: others) hs)
    (hrun : l.run new fuel (.endPush op) = some (l', next)) : Refines l' (next ++ others) hs := by
  obtain ⟨rfl, hpos, rfl⟩ := run_endPush hrun
  refine h.dispatch rfl hpos (fun u op' => ?_) fun op' o hopr => ?_
  · have hgranted := h.granted u op'
    rw [List.count_cons_of_ne (by simp)] at hgranted
    exact hgranted
  · have hwait := h.wait_eq op' o hopr
    rw [List.count_cons] at hwait
    rw [List.count_singleton]
    by_cases hop : op = op'
    · simp [hop] at hwait ⊢
      omega
    · simp [hop] at hwait ⊢
      exact hwait

theorem Refines.setToDelete (h : Refines l (.setToDelete v :: others) hs)
    (hrun : l.run new fuel (.setToDelete v) = some (l', next)) :
    Refines l' (next ++ others) (Function.update hs v (hs v).setToDelete) := by
  obtain ⟨rfl, rfl⟩ := Prod.mk.inj (Option.some.inj hrun)
  have hsame : ∀ u, (Function.update hs v (hs v).setToDelete u).appended = (hs u).appended ∧
      (Function.update hs v (hs v).setToDelete u).granted = (hs u).granted ∧
      (Function.update hs v (hs v).setToDelete u).completed = (hs u).completed := by
    intro u
    rcases eq_or_ne u v with rfl | hu
    · rw [Function.update_self]
      exact ⟨rfl, rfl, rfl⟩
    · rw [Function.update_of_ne hu]
      exact ⟨rfl, rfl, rfl⟩
  refine ⟨?_, fun u => ?_, fun u => ?_, fun u k₁ e k₂ => ?_, fun u hu' => ?_, fun u op => ?_,
    fun op o hopr => ?_, fun op => ?_, h.dispatched⟩
  · exact h.consistent.run (t := .setToDelete v) rfl
  · rw [(hsame u).1]
    exact h.appended u
  · rw [(hsame u).2.2]
    refine (h.represents u).imp_right fun hrep => ?_
    rcases eq_or_ne u v with rfl | hu
    · simp only [Function.update_self]
      exact hrep.setToDelete
    · simp only [Function.update_of_ne hu]
      exact hrep
  · rw [(hsame u).1]
    exact h.last u k₁ e k₂
  · rw [(hsame u).2.1]
    refine h.marked u ?_
    rcases eq_or_ne u v with rfl | hu
    · exact .inr (List.mem_cons_self ..)
    · rw [Function.update_of_ne hu] at hu'
      exact hu'.imp_right (List.mem_cons_of_mem _)
  · rw [(hsame u).2.1, ← h.granted u op, List.count_cons_of_ne (by simp)]
    rfl
  · have hwait := h.wait_eq op o hopr
    rw [List.count_cons_of_ne (by simp)] at hwait
    exact hwait
  · have honce := h.endPush_once op
    rw [List.count_cons_of_ne (by simp)] at honce
    exact honce

/-- The operation that deletes a variable is the last one that was appended to it. -/
theorem Refines.last_granted (h : Refines l tasks hs) (he : e ∈ (hs v).granted)
    (hdeletes : Deletes l.oprs v e.1) :
    ∃ k, (hs v).granted = k ++ [e] ∧ (hs v).appended = k ++ [e] ∧ (hs v).var.ungranted = [] := by
  obtain ⟨k₁, k₂, hgranted⟩ := List.append_of_mem he
  have happended : (hs v).appended = k₁ ++ e :: (k₂ ++ (hs v).var.ungranted) := by
    rw [(h.ok v).appended_eq, hgranted]
    simp
  have hnil := List.append_eq_nil_iff.mp (h.last v k₁ e _ happended hdeletes)
  rw [hnil.1] at hgranted
  rw [hnil.1, hnil.2] at happended
  exact ⟨k₁, hgranted, happended, hnil.2⟩

/-- Nothing waits for a variable that is to be deleted. -/
theorem Refines.ungranted_eq_nil (h : Refines l tasks hs)
    (hdelete : (hs v).var.toDelete = true) : (hs v).var.ungranted = [] := by
  obtain ⟨e, he, hdeletes⟩ := h.marked v (.inl hdelete)
  obtain ⟨-, -, -, hnil⟩ := h.last_granted he hdeletes
  exact hnil

/-- Only the operation that deletes a variable can still run on it after it has got it. -/
theorem Refines.eq_of_deletes {e' : ℕ × Bool} (h : Refines l tasks hs)
    (he : e ∈ (hs v).running) (he' : e' ∈ (hs v).granted) (hdeletes : Deletes l.oprs v e'.1) :
    e = e' := by
  obtain ⟨he, hcompleted⟩ := List.mem_filter.mp he
  obtain ⟨k, hgranted, happended, -⟩ := h.last_granted he' hdeletes
  rw [hgranted] at he
  rcases List.mem_append.mp he with he | he
  · -- an earlier operation would have completed
    obtain ⟨o, hopr, -, hv⟩ := hdeletes
    have hwrites := (h.uses ((h.ok v).granted_sub he')).writes hopr hv
    have := (h.ok v).completed_of_before happended he' he (.inr hwrites)
    exact absurd this (of_decide_eq_true hcompleted)
  · exact List.mem_singleton.mp he

/-- A variable is not deleted while an operation runs on it. -/
theorem Refines.represents_of_complete (h : Refines l (.complete v e :: others) hs) :
    (l.vars v).Represents (hs v).var := by
  refine (h.represents v).resolve_left ?_
  rintro ⟨e', he', hdeletes⟩
  have hrunning : e ∈ (hs v).running := h.consistent.running_of_complete
  have heq := h.eq_of_deletes hrunning ((h.ok v).completed_sub e' he') hdeletes
  exact absurd (heq ▸ he') (of_decide_eq_true (List.mem_filter.mp hrunning).2)

theorem Refines.complete (h : Refines l (.complete v e :: others) hs)
    (hrun : l.run new fuel (.complete v e) = some (l', next)) :
    ∃ hs', Refines l' (next ++ others) hs' := by
  have hrunning : e ∈ (hs v).running := h.consistent.running_of_complete
  have hsome := h.consistent.run_isSome (t := .complete v e) fun u e' heq hdelete => by
    cases heq
    exact h.ungranted_eq_nil hdelete
  obtain ⟨⟨s', next'⟩, hrun'⟩ := Option.isSome_iff_exists.mp hsome
  have hconsistent := h.consistent.run (t := .complete v e) hrun'
  obtain ⟨h', g, hcomplete, rfl, rfl⟩ := ThreadedEngine.run_complete hrun'
  obtain ⟨x, hx, rfl⟩ := VarHistory.complete_eq hcomplete
  obtain ⟨y, n, hy, hrep⟩ := h.represents_of_complete.complete hx
  obtain ⟨y', ops, hy', rfl, rfl⟩ := run_complete hrun
  obtain ⟨rfl, rfl⟩ : y' = y ∧ ops = g.map Prod.fst := by
    have hmono := LinkedVar.complete_mono (Nat.le_add_right fuel (n + 1)) hy'
    rw [hy (fuel + (n + 1)) (by omega)] at hmono
    obtain ⟨rfl, rfl⟩ := Prod.mk.inj (Option.some.inj hmono)
    exact ⟨rfl, rfl⟩
  refine ⟨Function.update hs v
    { hs v with
      var := x, granted := (hs v).granted ++ g, completed := (hs v).completed ++ [e] }, ?_⟩
  refine ⟨?_, fun u => ?_, fun u => ?_, fun u k₁ e' k₂ => ?_, fun u hu' => ?_, fun u op => ?_,
    fun op o hopr => ?_, fun op => ?_, h.dispatched⟩
  · rw [List.map_append, List.map_map, List.map_map]
    exact hconsistent
  · rcases eq_or_ne u v with rfl | hu
    · simp [h.appended]
    · simp [hu, h.appended]
  · rcases eq_or_ne u v with rfl | hu
    · simp only [Function.update_self]
      by_cases hgone : e.2 = true → (hs u).var.toDelete = false
      · exact .inr (hrep hgone)
      · obtain ⟨-, hdelete⟩ := Classical.not_imp.mp hgone
        obtain ⟨e', he', hdeletes⟩ := h.marked u (.inl (by simpa using hdelete))
        obtain rfl := h.eq_of_deletes hrunning he' hdeletes
        exact .inl ⟨e, by simp, hdeletes⟩
    · simp only [Function.update_of_ne hu]
      exact h.represents u
  · rcases eq_or_ne u v with rfl | hu
    · simp only [Function.update_self]
      exact h.last u k₁ e' k₂
    · simp only [Function.update_of_ne hu]
      exact h.last u k₁ e' k₂
  · simp only [List.mem_append, List.mem_map, reduceCtorEq, and_false, exists_false,
      false_or] at hu'
    exact h.marked_update (ThreadedVar.complete_toDelete hx) rfl hu'
  · have hgranted := h.granted u op
    rw [List.count_cons_of_ne (by simp)] at hgranted
    rw [List.count_append]
    rcases eq_or_ne u v with rfl | hu
    · have hinj : ((g.map Prod.fst).map (LinkedTask.grant u)).count (.grant u op) =
          (g.map Prod.fst).count op :=
        List.count_map_of_injective _ _ (fun op op' heq => by simpa using heq) op
      rw [Function.update_self, List.countP_append, hinj, count_map_fst, ← hgranted]
      dsimp only
      omega
    · have hother : ((g.map Prod.fst).map (LinkedTask.grant v)).count (.grant u op) = 0 := by
        simp [List.count_eq_zero, Ne.symm hu]
      rw [Function.update_of_ne hu, hother, Nat.zero_add]
      exact hgranted
  · have hwait := h.wait_eq op o hopr
    rw [List.count_cons_of_ne (by simp)] at hwait
    have hother : ((g.map Prod.fst).map (LinkedTask.grant v)).count (.endPush op) = 0 := by
      simp [List.count_eq_zero]
    rw [List.count_append, hother, Nat.zero_add]
    exact hwait
  · have honce := h.endPush_once op
    rw [List.count_cons_of_ne (by simp)] at honce
    have hother : ((g.map Prod.fst).map (LinkedTask.grant v)).count (.endPush op) = 0 := by
      simp [List.count_eq_zero]
    rw [List.count_append, hother, Nat.zero_add]
    exact honce

theorem Refines.execute {o : ThreadedOpr} (h : Refines l tasks hs) (hopr : l.oprs[op]? = some o)
    (hdispatched : op ∈ l.dispatched) (hexecuted : op ∉ l.executed) :
    Refines { l with executed := l.executed ++ [op] } (tasks ++ o.linkedExecuteTasks op) hs := by
  refine ⟨?_, h.appended, h.represents, h.last, fun v hv => ?_, fun v op' => ?_,
    fun op' o' hopr' => ?_, fun op' => ?_, h.dispatched⟩
  · rw [List.map_append, ThreadedOpr.map_forget_linkedExecuteTasks]
    exact h.consistent.execute hopr hdispatched hexecuted
  · by_cases hold : (hs v).var.toDelete = true ∨ LinkedTask.setToDelete v ∈ tasks
    · exact h.marked v hold
    · rw [not_or] at hold
      have hmem := (List.mem_append.mp (hv.resolve_left hold.1)).resolve_left hold.2
      obtain ⟨hdeletes, hmutable⟩ := ThreadedOpr.mem_linkedExecuteTasks_setToDelete hmem
      refine ⟨(op, decide (v ∈ o.mutableVars)), ?_, o, hopr, hdeletes, hmutable⟩
      exact (h.consistent.var v).granted _ hdispatched
        ⟨o, hopr, List.mem_append_right _ hmutable, rfl⟩
  · rw [List.count_append, ThreadedOpr.count_linkedExecuteTasks (by simp) (by simp)]
    exact h.granted v op'
  · rw [List.count_append, ThreadedOpr.count_linkedExecuteTasks (by simp) (by simp)]
    exact h.wait_eq op' o' hopr'
  · rw [List.count_append, ThreadedOpr.count_linkedExecuteTasks (by simp) (by simp)]
    exact h.endPush_once op'

theorem Refines.run {t : LinkedTask} (h : Refines l (t :: others) hs) (hready : l.Ready new t)
    (hpush : ∀ v e, t = .append v e → LinkedTask.endPush e.1 ∈ others)
    (hrun : l.run new fuel t = some (l', next)) : ∃ hs', Refines l' (next ++ others) hs' := by
  cases t with
  | append v e => exact h.append hready (hpush v e rfl) hrun
  | grant v op => exact ⟨hs, h.grant hrun⟩
  | endPush op => exact ⟨hs, h.endPush hrun⟩
  | setToDelete v => exact ⟨_, h.setToDelete hrun⟩
  | complete v e => exact h.complete hrun

theorem Refines.wait_pos {t : LinkedTask} (h : Refines l (t :: others) hs)
    (hpays : t.forget.pays op = true) : 0 < l.wait op := by
  have hconsistent := h.consistent
  rw [List.map_cons] at hconsistent
  exact hconsistent.wait_pos hpays

/-- No check fails, and the loops of a completion end. -/
theorem Refines.run_isSome {t : LinkedTask} (h : Refines l (t :: others) hs)
    (hready : l.Ready new t) : ∃ n, ∀ fuel, n < fuel → (l.run new fuel t).isSome := by
  cases t with
  | append v e =>
    refine ⟨0, fun fuel _ => ?_⟩
    obtain ⟨⟨x, g⟩, hx⟩ :=
      Option.isSome_iff_exists.mp (ThreadedVar.append_isSome (h.ok v).fits e)
    obtain ⟨y, hy, -⟩ := (h.represents_of_append hready.2).append hready.1 hx
    have hpos : 0 < l.wait e.1 := h.wait_pos (by simp [LinkedTask.forget, Task.pays])
    simp only [LinkedEngine.run, hy, Option.bind_eq_bind, Option.bind_some, Option.isSome_map]
    split
    · rfl
    · rw [LinkedEngine.grant, Option.isSome_map, decrWait_of_pos (by exact hpos)]
      rfl
  | grant v op =>
    refine ⟨0, fun fuel _ => ?_⟩
    have hpos : 0 < l.wait op := h.wait_pos (by simp [LinkedTask.forget, Task.pays])
    simp [LinkedEngine.run, LinkedEngine.grant, decrWait_of_pos hpos]
  | endPush op =>
    refine ⟨0, fun fuel _ => ?_⟩
    have hpos : 0 < l.wait op := h.wait_pos (by simp [LinkedTask.forget, Task.pays])
    simp [LinkedEngine.run, decrWait_of_pos hpos]
  | setToDelete v => exact ⟨0, fun fuel _ => rfl⟩
  | complete v e =>
    obtain ⟨⟨x, g⟩, hx⟩ := Option.isSome_iff_exists.mp
      (ThreadedVar.complete_isSome (h.ok v).fits h.consistent.running_of_complete
        fun hdelete => h.ungranted_eq_nil hdelete)
    obtain ⟨y, n, hy, -⟩ := h.represents_of_complete.complete hx
    refine ⟨n, fun fuel hfuel => ?_⟩
    simp [LinkedEngine.run, hy fuel hfuel]

/-- An operation that has not been granted access is still to be appended, or a call will grant
it, or it has a block on the list of the variable. -/
theorem Refines.of_not_granted {o : ThreadedOpr} (h : Refines l tasks hs)
    (hopr : l.oprs[op]? = some o) (hv : v ∈ o.vars) (hgrant : (v, op) ∉ l.grants) :
    (∃ b, LinkedTask.append v (op, b) ∈ tasks) ∨ LinkedTask.grant v op ∈ tasks ∨
      ∃ a b, (l.vars v).blocks a = some b ∧ b.trigger = some op := by
  obtain ⟨e, rfl, huse⟩ : ∃ e, e.1 = op ∧ Uses l.oprs v e :=
    ⟨(op, decide (v ∈ o.mutableVars)), rfl, o, hopr, hv, rfl⟩
  have honce : (tasks.map LinkedTask.forget).count (.append v e) + (hs v).appended.count e = 1 :=
    (h.consistent.var v).append_once e huse
  by_cases happended : e ∈ (hs v).appended
  · right
    rw [(h.ok v).appended_eq] at happended
    rcases List.mem_append.mp happended with he | he
    · left
      have hcount := h.granted v e.1
      rw [h.countP_granted he, List.count_eq_zero.mpr hgrant] at hcount
      exact List.count_pos_iff.mp (by omega)
    · right
      have hqueue : e ∈ (hs v).var.queue := by
        unfold ThreadedVar.ungranted at he
        split at he
        · exact List.mem_of_mem_tail he
        · exact he
      rcases h.represents v with ⟨e', he', hdeletes⟩ | ⟨as, hstores⟩
      · -- the variable would have been deleted with an operation in its queue
        obtain ⟨-, -, -, hnil⟩ := h.last_granted ((h.ok v).completed_sub e' he') hdeletes
        rw [hnil] at he
        cases he
      · exact hstores.chain.exists_block hqueue
  · left
    rw [List.count_eq_zero.mpr happended] at honce
    obtain ⟨t, ht, heq⟩ := List.mem_map.mp (List.count_pos_iff.mp
      (show 0 < (tasks.map LinkedTask.forget).count (.append v e) by omega))
    cases t with
    | append u e' =>
      cases heq
      exact ⟨e.2, ht⟩
    | grant u op | endPush op | setToDelete u | complete u e' => cases heq

/-- What holds in every state: the queues exist, and a push ends after its appends. -/
def Sound (p : LinkedEngine × List (ℕ × List LinkedTask)) : Prop :=
  (∃ hs, Refines p.1 (tasksOf p.2) hs) ∧ ∀ c ∈ p.2, LinkedTask.Closed c.2

theorem tasksOf_perm (l₁ l₂ : List (ℕ × List LinkedTask)) (op : ℕ) (ts rest : List LinkedTask) :
    (tasksOf (l₁ ++ (op, ts ++ rest) :: l₂)).Perm (ts ++ (tasksOf l₁ ++ (rest ++ tasksOf l₂))) := by
  unfold tasksOf
  rw [List.map_append, List.map_cons, List.flatten_append, List.flatten_cons, List.append_assoc]
  exact List.perm_append_comm_assoc ..

theorem Sound.step {p p' : LinkedEngine × List (ℕ × List LinkedTask)} (h : Sound p)
    (hstep : Step p p') : Sound p' := by
  obtain ⟨⟨hs, href⟩, hclosed⟩ := h
  cases hstep with
  | push s calls o hnodup =>
    refine ⟨⟨hs, ?_⟩, ?_⟩
    · have := href.push hnodup
      simpa [tasksOf] using this
    · refine List.forall_mem_append.mpr ⟨hclosed, ?_⟩
      simpa using ThreadedOpr.closed_linkedPushTasks
  | run s s' l₁ l₂ op t rest next new fuel hready hrun =>
    have hcall : LinkedTask.Closed (t :: rest) := hclosed (op, t :: rest) (by simp)
    obtain ⟨hs', href'⟩ := (href.perm (tasksOf_perm l₁ l₂ op [t] rest)).run hready
      (fun v e ht => by simp [hcall.1 v e ht]) hrun
    refine ⟨⟨hs', href'.perm (tasksOf_perm l₁ l₂ op next rest).symm⟩, ?_⟩
    rw [List.forall_mem_append, List.forall_mem_cons] at hclosed ⊢
    exact ⟨hclosed.1, (LinkedTask.closed_of_notMem (run_next hrun)).append hcall.2, hclosed.2.2⟩
  | execute s calls op o hopr hdispatched hexecuted =>
    refine ⟨⟨hs, ?_⟩, ?_⟩
    · have := href.execute hopr hdispatched hexecuted
      simpa [tasksOf] using this
    · refine List.forall_mem_append.mpr ⟨hclosed, ?_⟩
      simpa using ThreadedOpr.closed_linkedExecuteTasks

theorem sound_of_steps {k : ℕ} {p : LinkedEngine × List (ℕ × List LinkedTask)}
    (h : Steps Step k ({}, []) p) : Sound p := by
  refine Steps.invariant (P := Sound) h ⟨⟨fun _ => {}, refines_empty⟩, by simp⟩ ?_
  exact fun _ _ hp hstep => hp.step hstep

/-- In every run, the wait counter of an operation is the number of its variables that have not
granted it access, and one more while its push is unfinished. A variable grants access once, and
an operation that lacks it is not lost: it is still to be appended or granted by a call, or has a
block on the list. An operation is dispatched once and exactly if its counter has got to zero. The
next task of every call can run, so that no check fails. -/
theorem dispatched_exactly_once {k : ℕ} {s : LinkedEngine} {calls : List (ℕ × List LinkedTask)}
    (h : Steps Step k ({}, []) (s, calls)) :
    (∀ op o, s.oprs[op]? = some o →
      s.wait op = (o.vars.countP fun v => (v, op) ∉ s.grants : ℕ) +
        if LinkedTask.endPush op ∈ tasksOf calls then 1 else 0) ∧
    s.grants.Nodup ∧
    (∀ op o v, s.oprs[op]? = some o → v ∈ o.vars → (v, op) ∉ s.grants →
      (∃ b, LinkedTask.append v (op, b) ∈ tasksOf calls) ∨
        LinkedTask.grant v op ∈ tasksOf calls ∨
        ∃ a b, (s.vars v).blocks a = some b ∧ b.trigger = some op) ∧
    s.dispatched.Nodup ∧
    (∀ op, op ∈ s.dispatched ↔ op < s.oprs.length ∧ s.wait op = 0) ∧
    ∀ l₁ l₂ op t rest new, calls = l₁ ++ (op, t :: rest) :: l₂ → s.Ready new t →
      ∃ n, ∀ fuel, n < fuel → (s.run new fuel t).isSome := by
  obtain ⟨⟨hs, href⟩, hclosed⟩ := sound_of_steps h
  refine ⟨fun op o hopr => ?_, ?_, fun op o v hopr hv hgrant => href.of_not_granted hopr hv hgrant,
    href.consistent.dispatched_nodup, fun op => ⟨fun hop => ?_, ?_⟩, ?_⟩
  · rw [href.wait_eq op o hopr]
    split
    · next hmem =>
      have hpos := List.count_pos_iff.mpr hmem
      have hle := href.endPush_once op
      dsimp only at hpos hle ⊢
      omega
    · next hmem => simp [List.count_eq_zero.mpr hmem]
  · refine List.nodup_iff_count_le_one.mpr fun ⟨v, op⟩ => ?_
    have hcount := href.granted v op
    have hle := href.countP_granted_le v op
    dsimp only at hcount
    omega
  · exact ⟨href.consistent.dispatched_lt op hop, href.consistent.dispatched_zero op hop⟩
  · exact fun hop => href.dispatched op hop.1 hop.2
  · rintro l₁ l₂ op t rest new rfl hready
    exact (href.perm (tasksOf_perm l₁ l₂ op [t] rest)).run_isSome hready

/-- An operation writes a variable. A second one reads it and waits, is queued in the block that
was the empty one, and gets the variable when the first one completes. -/
theorem dispatched_exactly_once_two_operations :
    ∃ s calls, Steps Step 9 ({}, []) (s, calls) ∧ s.grants = [(0, 0), (0, 1)] ∧
      s.dispatched = [0, 1] ∧ s.dispatched.Nodup ∧ s.wait 1 = 0 := by
  have h₁ := (@Steps.refl _ Step ({}, [])).tail
    (Step.push _ _ { mutableVars := [0] } (by decide))
  have h₂ := h₁.tail (Step.run _ _ [] [] 0 _ _ _ 1 0 ⟨rfl, by decide⟩ rfl)
  have h₃ := h₂.tail (Step.run _ _ [] [] 0 _ _ _ 0 0 trivial rfl)
  have h₄ := h₃.tail (Step.push _ _ { constVars := [0] } (by decide))
  have h₅ := h₄.tail (Step.run _ _ [(0, [])] [] 1 _ _ _ 2 0 ⟨rfl, by decide⟩ rfl)
  have h₆ := h₅.tail (Step.run _ _ [(0, [])] [] 1 _ _ _ 0 0 trivial rfl)
  have h₇ := h₆.tail (Step.execute _ _ 0 _ rfl (by decide) (by decide))
  have h₈ := h₇.tail (Step.run _ _ [(0, []), (1, [])] [] 0 _ _ _ 0 3 trivial rfl)
  have h₉ := h₈.tail (Step.run _ _ [(0, []), (1, [])] [] 0 _ _ _ 0 0 trivial rfl)
  obtain ⟨-, -, -, hnodup, hdispatched, -⟩ := dispatched_exactly_once h₉
  exact ⟨_, _, h₉, rfl, rfl, hnodup, ((hdispatched 1).mp (by decide)).2⟩

end LinkedEngine

end NetStorm

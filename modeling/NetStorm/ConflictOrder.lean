import NetStorm.ThreadedEngine

/-!
# Conflicting operations are serialised

The wait counter of an operation counts the tasks that will still take one from it and the
variables that it waits for. So when it gets to zero the operation has got each of its variables,
and an operation gets a variable only if the earlier ones that conflict with it have completed.
-/
namespace NetStorm

/-- Changing one variable changes the number of waits of an operation by the change of its waits
for this variable. -/
theorem sum_waiting_update {l : List ℕ} (hl : l.Nodup) (vars : ℕ → VarHistory) (h : VarHistory)
    (v op : ℕ) (hv : v ∉ l → (vars v).waiting op = h.waiting op) :
    (l.map fun u => (Function.update vars v h u).waiting op).sum + (vars v).waiting op =
      (l.map fun u => (vars u).waiting op).sum + h.waiting op := by
  have hother : ∀ k : List ℕ, v ∉ k →
      (k.map fun u => (Function.update vars v h u).waiting op) =
        k.map fun u => (vars u).waiting op := by
    intro k hk
    refine List.map_congr_left fun u hu => ?_
    rw [Function.update_of_ne (ne_of_mem_of_not_mem hu hk)]
  by_cases hmem : v ∈ l
  · obtain ⟨l₁, l₂, rfl⟩ := List.append_of_mem hmem
    rw [List.nodup_middle, List.nodup_cons, List.mem_append, not_or] at hl
    simp only [List.map_append, List.map_cons, List.sum_append, List.sum_cons,
      hother l₁ hl.1.1, hother l₂ hl.1.2, Function.update_self]
    omega
  · rw [hother l hmem, hv hmem]

namespace ThreadedEngine

/-- What holds of a variable, of the operations and of the tasks of all calls. -/
structure VarConsistent (oprs : List ThreadedOpr) (dispatched executed : List ℕ)
    (tasks : List Task) (v : ℕ) (h : VarHistory) : Prop where
  ok : h.Ok
  uses : ∀ e ∈ h.appended, Uses oprs v e
  append_once : ∀ e, Uses oprs v e → tasks.count (.append v e) + h.appended.count e = 1
  complete_once : ∀ e, Uses oprs v e →
    tasks.count (.complete v e) + h.completed.count e = executed.count e.1
  granted : ∀ e, e.1 ∈ dispatched → Uses oprs v e → e ∈ h.granted
  ordered : ∀ l₁ l₂ k₁ k₂ e e', dispatched = l₁ ++ e'.1 :: l₂ →
    h.appended = k₁ ++ e' :: k₂ → e ∈ k₁ → e.2 = true ∨ e'.2 = true → e.1 ∈ l₁

/-- What holds of the shared state and the tasks of all calls. -/
structure Consistent (s : ThreadedEngine) (tasks : List Task) : Prop where
  nodup : ∀ o ∈ s.oprs, o.vars.Nodup
  formed : ∀ t ∈ tasks, t.Formed s.oprs
  var : ∀ v, VarConsistent s.oprs s.dispatched s.executed tasks v (s.vars v)
  wait_eq : ∀ op o, s.oprs[op]? = some o →
    s.wait op = (tasks.countP (Task.pays op) : ℕ) +
      ((o.vars.map fun v => (s.vars v).waiting op).sum : ℕ)
  dispatched_lt : ∀ op ∈ s.dispatched, op < s.oprs.length
  dispatched_zero : ∀ op ∈ s.dispatched, s.wait op = 0
  dispatched_nodup : s.dispatched.Nodup
  executed_sub : ∀ op ∈ s.executed, op ∈ s.dispatched
  executed_nodup : s.executed.Nodup

variable {s s' : ThreadedEngine} {tasks others next : List Task} {v op : ℕ} {e : ℕ × Bool}

theorem Consistent.empty : Consistent {} [] where
  nodup := by simp
  formed := by simp
  var v :=
    { ok := .empty
      uses := by simp
      append_once := fun e huse => absurd huse.lt (by simp)
      complete_once := fun e huse => absurd huse.lt (by simp)
      granted := by simp
      ordered := by simp }
  wait_eq := by simp
  dispatched_lt := by simp
  dispatched_zero := by simp
  dispatched_nodup := List.nodup_nil
  executed_sub := by simp
  executed_nodup := List.nodup_nil

/-- Of the tasks, only those that append to the variable or complete on it matter. -/
theorem VarConsistent.congr {oprs : List ThreadedOpr} {dispatched executed : List ℕ}
    {tasks' : List Task} {h : VarHistory}
    (hv : VarConsistent oprs dispatched executed tasks v h)
    (happend : ∀ e, tasks'.count (.append v e) = tasks.count (.append v e))
    (hcomplete : ∀ e, tasks'.count (.complete v e) = tasks.count (.complete v e)) :
    VarConsistent oprs dispatched executed tasks' v h :=
  { hv with
    append_once := fun e huse => by
      rw [happend]
      exact hv.append_once e huse
    complete_once := fun e huse => by
      rw [hcomplete]
      exact hv.complete_once e huse }

/-- The next task is not about a variable. -/
theorem VarConsistent.of_cons {oprs : List ThreadedOpr} {dispatched executed : List ℕ}
    {h : VarHistory} {t : Task} (hv : VarConsistent oprs dispatched executed (t :: others) v h)
    (happend : ∀ e, t ≠ .append v e) (hcomplete : ∀ e, t ≠ .complete v e) :
    VarConsistent oprs dispatched executed others v h :=
  hv.congr (fun e => (List.count_cons_of_ne (happend e)).symm)
    fun e => (List.count_cons_of_ne (hcomplete e)).symm

/-- The calls differ, but not the tasks that are left. -/
theorem Consistent.perm {tasks' : List Task} (hc : s.Consistent tasks) (h : tasks.Perm tasks') :
    s.Consistent tasks' :=
  { hc with
    formed := fun t ht => hc.formed t (h.mem_iff.mpr ht)
    var := fun v => (hc.var v).congr (fun _ => h.symm.count_eq _) fun _ => h.symm.count_eq _
    wait_eq := fun op o hopr => by
      rw [← h.countP_eq]
      exact hc.wait_eq op o hopr }

/-- An operation that has completed on a variable was dispatched. -/
theorem Consistent.dispatched_of_completed (hc : s.Consistent tasks)
    (he : e ∈ (s.vars v).completed) : e.1 ∈ s.dispatched := by
  have huse := (hc.var v).uses e ((hc.var v).ok.granted_sub ((hc.var v).ok.completed_sub e he))
  have hcount := (hc.var v).complete_once e huse
  have hpos := List.count_pos_iff.mpr he
  exact hc.executed_sub e.1 (List.count_pos_iff.mp (by omega))

/-- An operation does not wait for a variable that it does not use. -/
theorem Consistent.waiting_eq_zero (hc : s.Consistent tasks)
    (hop : ∀ e, Uses s.oprs v e → e.1 ≠ op) : (s.vars v).waiting op = 0 := by
  refine List.countP_eq_zero.mpr fun e he heq => ?_
  have happended : e ∈ (s.vars v).appended := by
    rw [(hc.var v).ok.appended_eq]
    exact List.mem_append_right _ he
  exact hop e ((hc.var v).uses e happended) (of_decide_eq_true heq)

/-- The new operation has its tasks, and nothing was done for it yet. -/
theorem Consistent.var_push {o : ThreadedOpr} (hc : s.Consistent tasks) (ho : o.vars.Nodup)
    (v : ℕ) :
    VarConsistent (s.oprs ++ [o]) s.dispatched s.executed
      (tasks ++ o.pushTasks s.oprs.length) v (s.vars v) where
  ok := (hc.var v).ok
  uses e he := uses_append.mpr (.inl ((hc.var v).uses e he))
  append_once e huse := by
    rw [List.count_append]
    rcases uses_append.mp huse with huse | ⟨hv, rfl⟩
    · have hnew : (o.pushTasks s.oprs.length).count (.append v e) = 0 := by
        refine List.count_eq_zero.mpr fun ht => ?_
        rcases ThreadedOpr.mem_pushTasks ho ht with heq | ⟨u, -, heq⟩
        · cases heq
        · have hlt := huse.lt
          cases heq
          exact lt_irrefl _ hlt
      rw [hnew]
      exact (hc.var v).append_once e huse
    · have hold : tasks.count (.append v (s.oprs.length, decide (v ∈ o.mutableVars))) = 0 :=
        List.count_eq_zero.mpr fun ht => lt_irrefl _ (Uses.lt (hc.formed _ ht))
      have happended :
          (s.vars v).appended.count (s.oprs.length, decide (v ∈ o.mutableVars)) = 0 :=
        List.count_eq_zero.mpr fun he => lt_irrefl _ ((hc.var v).uses _ he).lt
      rw [hold, happended, ThreadedOpr.count_append_pushTasks ho hv]
  complete_once e huse := by
    have hnew : (o.pushTasks s.oprs.length).count (.complete v e) = 0 := by
      refine List.count_eq_zero.mpr fun ht => ?_
      rcases ThreadedOpr.mem_pushTasks ho ht with heq | ⟨u, -, heq⟩ <;> cases heq
    rw [List.count_append, hnew]
    rcases uses_append.mp huse with huse | ⟨hv, rfl⟩
    · exact (hc.var v).complete_once e huse
    · have hold : tasks.count (.complete v (s.oprs.length, decide (v ∈ o.mutableVars))) = 0 :=
        List.count_eq_zero.mpr fun ht => lt_irrefl _ (Uses.lt (hc.formed _ ht))
      have hcompleted :
          (s.vars v).completed.count (s.oprs.length, decide (v ∈ o.mutableVars)) = 0 :=
        List.count_eq_zero.mpr fun he =>
          lt_irrefl _ (hc.dispatched_lt _ (hc.dispatched_of_completed he))
      have hexecuted : s.executed.count s.oprs.length = 0 :=
        List.count_eq_zero.mpr fun he => lt_irrefl _ (hc.dispatched_lt _ (hc.executed_sub _ he))
      rw [hold, hcompleted, hexecuted]
  granted e hop huse := by
    rcases uses_append.mp huse with huse | ⟨-, rfl⟩
    · exact (hc.var v).granted e hop huse
    · exact absurd (hc.dispatched_lt _ hop) (lt_irrefl _)
  ordered := (hc.var v).ordered

theorem Consistent.push {o : ThreadedOpr} (hc : s.Consistent tasks) (ho : o.vars.Nodup) :
    (s.push o).Consistent (tasks ++ o.pushTasks s.oprs.length) where
  nodup o' ho' := by
    rcases List.mem_append.mp ho' with ho' | ho'
    · exact hc.nodup o' ho'
    · rw [List.mem_singleton.mp ho']
      exact ho
  formed t ht := by
    rcases List.mem_append.mp ht with ht | ht
    · exact (hc.formed t ht).append o
    · rcases ThreadedOpr.mem_pushTasks ho ht with rfl | ⟨u, hu, rfl⟩
      · simp [Task.Formed, ThreadedEngine.push]
      · exact uses_append.mpr (.inr ⟨hu, rfl⟩)
  var := hc.var_push ho
  wait_eq op o' hopr := by
    rw [List.countP_append, ThreadedOpr.countP_pays_pushTasks]
    by_cases hop : op = s.oprs.length
    · subst hop
      obtain rfl : o = o' := by simpa [ThreadedEngine.push] using hopr
      have hold : tasks.countP (Task.pays s.oprs.length) = 0 :=
        List.countP_eq_zero.mpr fun t ht hpays =>
          lt_irrefl _ ((hc.formed t ht).lt_of_pays hpays)
      have hwaiting : (o.vars.map fun v => (s.vars v).waiting s.oprs.length).sum = 0 := by
        refine List.sum_eq_zero_iff_forall_eq_nat.mpr fun n hn => ?_
        obtain ⟨v, -, rfl⟩ := List.mem_map.mp hn
        exact hc.waiting_eq_zero fun e huse => huse.lt.ne
      simp [ThreadedEngine.push, hold, hwaiting]
    · have hlt : op < s.oprs.length := by
        have := (List.getElem?_eq_some_iff.mp hopr).1
        simp only [ThreadedEngine.push, List.length_append, List.length_singleton] at this
        omega
      have hopr' : s.oprs[op]? = some o' := by
        simpa [ThreadedEngine.push, List.getElem?_append_left hlt] using hopr
      simp only [ThreadedEngine.push, Function.update_of_ne hop, if_neg (Ne.symm hop)]
      exact hc.wait_eq op o' hopr'
  dispatched_lt op hop := Nat.lt_of_lt_of_le (hc.dispatched_lt op hop) (by
    simp [ThreadedEngine.push])
  dispatched_zero op hop := by
    have hne : op ≠ s.oprs.length := (hc.dispatched_lt op hop).ne
    simp only [ThreadedEngine.push, Function.update_of_ne hne]
    exact hc.dispatched_zero op hop
  dispatched_nodup := hc.dispatched_nodup
  executed_sub := hc.executed_sub
  executed_nodup := hc.executed_nodup

theorem Consistent.notMem_appended (hc : s.Consistent (.append v e :: others)) :
    e ∉ (s.vars v).appended := by
  have hcount := (hc.var v).append_once e (hc.formed _ (List.mem_cons_self ..))
  rw [List.count_cons_self] at hcount
  exact List.count_eq_zero.mp (by omega)

/-- The new entry is the last one of its variable, and its operation is not dispatched yet. -/
theorem Consistent.var_append {h : VarHistory} {g : List (ℕ × Bool)}
    (hc : s.Consistent (.append v e :: others)) (hrun : (s.vars v).append e = some (h, g)) :
    VarConsistent s.oprs s.dispatched s.executed others v h := by
  have hv := hc.var v
  have huse : Uses s.oprs v e := hc.formed _ (List.mem_cons_self ..)
  have hok := hv.ok.append hc.notMem_appended hrun
  obtain ⟨x, -, rfl⟩ := VarHistory.append_eq hrun
  refine ⟨hok, ?_, ?_, ?_, ?_, ?_⟩
  · intro e' he'
    rcases List.mem_append.mp he' with he' | he'
    · exact hv.uses e' he'
    · rw [List.mem_singleton.mp he']
      exact huse
  · intro e' huse'
    have hcount := hv.append_once e' huse'
    rw [List.count_cons] at hcount
    simp only [List.count_append, List.count_singleton]
    simp only [beq_iff_eq, Task.append.injEq, true_and] at hcount ⊢
    omega
  · intro e' huse'
    have hcount := hv.complete_once e' huse'
    rw [List.count_cons_of_ne (by simp)] at hcount
    exact hcount
  · exact fun e' hop huse' => List.mem_append_left _ (hv.granted e' hop huse')
  · intro l₁ l₂ k₁ k₂ e₁ e₂ hdispatched happended he₁ hwrites
    have hne : e ≠ e₂ := by
      rintro rfl
      have hmem : e.1 ∈ s.dispatched := by
        rw [hdispatched]
        exact List.mem_append_right _ (List.mem_cons_self ..)
      exact hc.notMem_appended (hv.ok.granted_sub (hv.granted e hmem huse))
    rcases List.eq_nil_or_concat k₂ with rfl | ⟨k, a, rfl⟩
    · exact absurd (List.append_inj' happended rfl).2 (by simpa using hne)
    · have hconcat : (s.vars v).appended ++ [e] = k₁ ++ e₂ :: k ++ [a] := by
        simpa using happended
      have hold : (s.vars v).appended = k₁ ++ e₂ :: k := (List.append_inj' hconcat rfl).1
      exact hv.ordered l₁ l₂ k₁ k e₁ e₂ hdispatched hold he₁ hwrites

theorem Consistent.append (hc : s.Consistent (.append v e :: others))
    (hrun : s.run (.append v e) = some (s', next)) : s'.Consistent (next ++ others) := by
  have hv := hc.var v
  obtain ⟨h, g, happend, rfl, hpos, rfl⟩ := run_append hv.ok hrun
  have huse : Uses s.oprs v e := hc.formed _ (List.mem_cons_self ..)
  have hgranted : ∀ op, op ≠ e.1 ∨ g = [] → g.countP (·.1 = op) = 0 := by
    obtain ⟨x, hx, -⟩ := VarHistory.append_eq happend
    obtain ⟨-, -, hg⟩ := ThreadedVar.append_spec hv.ok.fits hx
    rintro op (hop | rfl)
    · rcases hg with rfl | rfl
      · rfl
      · simp [hop.symm]
    · rfl
  refine
    { hc with
      formed := fun t ht => hc.formed t (List.mem_cons_of_mem _ ht)
      var := (Function.forall_update_iff _ fun u h =>
        VarConsistent s.oprs s.dispatched s.executed others u h).mpr
          ⟨hc.var_append happend, fun u hu => (hc.var u).of_cons (by simp [Ne.symm hu]) (by simp)⟩
      wait_eq := fun op o hopr => ?_
      dispatched_zero := fun op hop => ?_ }
  · have hwait := hc.wait_eq op o hopr
    have hq := hv.ok.waiting_append happend op
    have hsum := sum_waiting_update (hc.nodup o (List.mem_of_getElem? hopr)) s.vars h v op
      fun hv => ?_
    · rw [List.countP_cons] at hwait
      simp only [List.countP_singleton, Task.pays, decide_eq_true_eq, List.nil_append]
        at hwait hq ⊢
      omega
    · have hop : op ≠ e.1 := by
        rintro rfl
        exact hv (huse.mem_vars hopr)
      rw [hgranted op (.inl hop)] at hq
      simpa [hop.symm] using hq
  · have hzero := hc.dispatched_zero op hop
    have hnone : op ≠ e.1 ∨ g = [] := by
      by_contra hcon
      rw [not_or, not_not] at hcon
      have := hpos hcon.2
      rw [← hcon.1] at this
      omega
    dsimp only
    rw [hzero, hgranted op hnone]
    rfl

/-- The last task that an operation waits for: it has got each of its variables. -/
theorem Consistent.granted_of_wait (hc : s.Consistent (.decrWait op :: others))
    (hone : s.wait op = 1) (he : e.1 = op) (huse : Uses s.oprs v e) :
    e ∈ (s.vars v).granted := by
  obtain ⟨o, hopr, hv, -⟩ := id huse
  rw [he] at hopr
  have hwait := hc.wait_eq op o hopr
  rw [List.countP_cons_of_pos (by simp [Task.pays])] at hwait
  have hother : others.countP (Task.pays op) = 0 := by omega
  have hsum : (o.vars.map fun v => (s.vars v).waiting op).sum = 0 := by omega
  have hcount := (hc.var v).append_once e huse
  have happend : (Task.decrWait op :: others).count (.append v e) = 0 := by
    refine List.count_eq_zero.mpr fun ht => ?_
    rcases List.mem_cons.mp ht with heq | ht
    · cases heq
    · exact List.countP_eq_zero.mp hother _ ht (by simp [Task.pays, he])
  have happended : e ∈ (s.vars v).appended := List.count_pos_iff.mp (by omega)
  rw [(hc.var v).ok.appended_eq] at happended
  rcases List.mem_append.mp happended with hmem | hmem
  · exact hmem
  · have hzero := List.sum_eq_zero_iff_forall_eq_nat.mp hsum _ (List.mem_map.mpr ⟨v, hv, rfl⟩)
    exact absurd (decide_eq_true he) (List.countP_eq_zero.mp hzero e hmem)

/-- The operation is dispatched after the ones before it that conflict with it. -/
theorem Consistent.var_dispatch (hc : s.Consistent (.decrWait op :: others))
    (hone : s.wait op = 1) (v : ℕ) :
    VarConsistent s.oprs (s.dispatched ++ [op]) s.executed others v (s.vars v) := by
  have hv : VarConsistent s.oprs s.dispatched s.executed others v (s.vars v) :=
    (hc.var v).of_cons (by simp) (by simp)
  refine { hv with granted := fun e hop huse => ?_, ordered := ?_ }
  · rcases List.mem_append.mp hop with hop | hop
    · exact hv.granted e hop huse
    · exact hc.granted_of_wait hone (List.mem_singleton.mp hop) huse
  · intro l₁ l₂ k₁ k₂ e e' hdispatched happended he hwrites
    rcases List.eq_nil_or_concat l₂ with rfl | ⟨l, a, rfl⟩
    · obtain ⟨rfl, hlast⟩ := List.append_inj' hdispatched rfl
      have hop : e'.1 = op := by simpa using hlast.symm
      have huse' : Uses s.oprs v e' := hv.uses e' (by simp [happended])
      have hgranted := hc.granted_of_wait hone hop huse'
      exact hc.dispatched_of_completed
        (hv.ok.completed_of_before happended hgranted he hwrites)
    · have hconcat : s.dispatched ++ [op] = l₁ ++ e'.1 :: l ++ [a] := by
        simpa using hdispatched
      exact hv.ordered l₁ l k₁ k₂ e e' (List.append_inj' hconcat rfl).1 happended he hwrites

theorem Consistent.decrWait (hc : s.Consistent (.decrWait op :: others))
    (hrun : s.run (.decrWait op) = some (s', next)) : s'.Consistent (next ++ others) := by
  obtain ⟨rfl, hpos, rfl⟩ := run_decrWait hrun
  have hnew : op ∉ s.dispatched := fun hop => by
    have := hc.dispatched_zero op hop
    omega
  have hlt : op < s.oprs.length := hc.formed _ (List.mem_cons_self ..)
  refine
    { hc with
      formed := fun t ht => hc.formed t (List.mem_cons_of_mem _ ht)
      var := fun v => ?_
      wait_eq := fun op' o hopr => ?_
      dispatched_lt := fun op' hop' => ?_
      dispatched_zero := fun op' hop' => ?_
      dispatched_nodup := ?_
      executed_sub := fun op' hop' => ?_ }
  · dsimp only
    split
    · next hone => exact hc.var_dispatch hone v
    · exact (hc.var v).of_cons (by simp) (by simp)
  · have hwait := hc.wait_eq op' o hopr
    rw [List.countP_cons] at hwait
    by_cases hop : op' = op
    · subst hop
      simp only [Task.pays, decide_true, if_true] at hwait
      simp only [Function.update_self, List.nil_append]
      omega
    · simp only [Task.pays, Ne.symm hop, decide_false] at hwait
      simpa [Function.update_of_ne hop] using hwait
  · dsimp only at hop' ⊢
    split at hop'
    · rcases List.mem_append.mp hop' with hop' | hop'
      · exact hc.dispatched_lt op' hop'
      · rw [List.mem_singleton.mp hop']
        exact hlt
    · exact hc.dispatched_lt op' hop'
  · dsimp only at hop' ⊢
    by_cases hop : op' = op
    · subst hop
      rw [Function.update_self]
      split at hop'
      · omega
      · exact absurd hop' hnew
    · rw [Function.update_of_ne hop]
      refine hc.dispatched_zero op' ?_
      split at hop'
      · simpa [hop] using hop'
      · exact hop'
  · dsimp only
    split
    · exact List.nodup_append.mpr ⟨hc.dispatched_nodup, List.nodup_singleton op, by grind⟩
    · exact hc.dispatched_nodup
  · dsimp only
    split
    · exact List.mem_append_left _ (hc.executed_sub op' hop')
    · exact hc.executed_sub op' hop'

theorem Consistent.setToDelete (hc : s.Consistent (.setToDelete v :: others))
    (hrun : s.run (.setToDelete v) = some (s', next)) : s'.Consistent (next ++ others) := by
  obtain ⟨rfl, rfl⟩ := Prod.mk.inj (Option.some.inj hrun)
  have hother : ∀ u, VarConsistent s.oprs s.dispatched s.executed others u (s.vars u) :=
    fun u => (hc.var u).of_cons (by simp) (by simp)
  refine
    { hc with
      formed := fun t ht => hc.formed t (List.mem_cons_of_mem _ ht)
      var := (Function.forall_update_iff _ fun u h =>
        VarConsistent s.oprs s.dispatched s.executed others u h).mpr
          ⟨{ hother v with ok := (hother v).ok.setToDelete }, fun u _ => hother u⟩
      wait_eq := fun op o hopr => ?_ }
  have hwait := hc.wait_eq op o hopr
  rw [List.countP_cons_of_neg (by simp [Task.pays])] at hwait
  have hsum := sum_waiting_update (hc.nodup o (List.mem_of_getElem? hopr)) s.vars
    (s.vars v).setToDelete v op fun _ => rfl
  have hself : (s.vars v).setToDelete.waiting op = (s.vars v).waiting op := rfl
  simp only [List.nil_append]
  omega

/-- An operation completes on a variable that it has got, and once. -/
theorem Consistent.running_of_complete (hc : s.Consistent (.complete v e :: others)) :
    e ∈ (s.vars v).running := by
  have huse : Uses s.oprs v e := hc.formed _ (List.mem_cons_self ..)
  have hcount := (hc.var v).complete_once e huse
  rw [List.count_cons_self] at hcount
  have hexecuted : e.1 ∈ s.executed := List.count_pos_iff.mp (by omega)
  rw [List.count_eq_one_of_mem hc.executed_nodup hexecuted] at hcount
  have hcompleted : e ∉ (s.vars v).completed := List.count_eq_zero.mp (by omega)
  have hgranted := (hc.var v).granted e (hc.executed_sub e.1 hexecuted) huse
  exact List.mem_filter.mpr ⟨hgranted, decide_eq_true hcompleted⟩

/-- The operations that get the variable are queued already, so only the list of those that have
completed counts. -/
theorem Consistent.var_complete {h : VarHistory} {g : List (ℕ × Bool)}
    (hc : s.Consistent (.complete v e :: others))
    (hrun : (s.vars v).complete e = some (h, g)) :
    VarConsistent s.oprs s.dispatched s.executed others v h := by
  have hv := hc.var v
  have hok := hv.ok.complete hc.running_of_complete hrun
  obtain ⟨x, -, rfl⟩ := VarHistory.complete_eq hrun
  refine { hv with ok := hok, append_once := ?_, complete_once := ?_, granted := ?_ }
  · intro e' huse'
    have hcount := hv.append_once e' huse'
    rw [List.count_cons_of_ne (by simp)] at hcount
    exact hcount
  · intro e' huse'
    have hcount := hv.complete_once e' huse'
    rw [List.count_cons] at hcount
    simp only [List.count_append, List.count_singleton]
    simp only [beq_iff_eq, Task.complete.injEq, true_and] at hcount ⊢
    omega
  · exact fun e' hop huse' => List.mem_append_left _ (hv.granted e' hop huse')

theorem Consistent.complete (hc : s.Consistent (.complete v e :: others))
    (hrun : s.run (.complete v e) = some (s', next)) : s'.Consistent (next ++ others) := by
  have hv := hc.var v
  obtain ⟨h, g, hcomplete, rfl, rfl⟩ := run_complete hrun
  have hvar : ∀ u, VarConsistent s.oprs s.dispatched s.executed others u
      (Function.update s.vars v h u) :=
    (Function.forall_update_iff _ fun u h =>
      VarConsistent s.oprs s.dispatched s.executed others u h).mpr
        ⟨hc.var_complete hcomplete, fun u hu => (hc.var u).of_cons (by simp)
          (by simp [Ne.symm hu])⟩
  refine
    { hc with
      formed := fun t ht => ?_
      var := fun u => (hvar u).congr (fun e' => ?_) fun e' => ?_
      wait_eq := fun op o hopr => ?_ }
  · rcases List.mem_append.mp ht with ht | ht
    · obtain ⟨e', he', rfl⟩ := List.mem_map.mp ht
      have hok := hv.ok.complete hc.running_of_complete hcomplete
      obtain ⟨x, -, rfl⟩ := VarHistory.complete_eq hcomplete
      exact (hv.uses e' (hok.granted_sub (List.mem_append_right _ he'))).lt
    · exact hc.formed t (List.mem_cons_of_mem _ ht)
  · simp [List.count_append, List.count_eq_zero]
  · simp [List.count_append, List.count_eq_zero]
  · have hwait := hc.wait_eq op o hopr
    have hq := hv.ok.waiting_complete hc.running_of_complete hcomplete op
    have hsum := sum_waiting_update (hc.nodup o (List.mem_of_getElem? hopr)) s.vars h v op
      fun hv => ?_
    · have hpays : (g.map fun e => Task.decrWait e.1).countP (Task.pays op) =
          g.countP (·.1 = op) := by
        rw [List.countP_map]
        rfl
      rw [List.countP_cons_of_neg (by simp [Task.pays])] at hwait
      simp only [List.countP_append, hpays]
      omega
    · have hzero : (s.vars v).waiting op = 0 := by
        refine hc.waiting_eq_zero fun e' huse' heq => ?_
        exact hv (huse'.mem_vars (heq ▸ hopr))
      omega

theorem Consistent.execute {o : ThreadedOpr} (hc : s.Consistent tasks)
    (hopr : s.oprs[op]? = some o) (hdispatched : op ∈ s.dispatched) (hexecuted : op ∉ s.executed) :
    Consistent { s with executed := s.executed ++ [op] } (tasks ++ o.executeTasks op) := by
  have ho := hc.nodup o (List.mem_of_getElem? hopr)
  have happend : ∀ u e, (o.executeTasks op).count (.append u e) = 0 := by
    refine fun u e => List.count_eq_zero.mpr fun ht => ?_
    rcases ThreadedOpr.mem_executeTasks ho ht with ⟨v, heq⟩ | ⟨v, -, heq⟩ <;> cases heq
  refine
    { hc with
      formed := fun t ht => ?_
      var := fun v => { hc.var v with append_once := fun e huse => ?_, complete_once := ?_ }
      wait_eq := fun op' o' hopr' => ?_
      executed_sub := fun op' hop' => ?_
      executed_nodup := ?_ }
  · rcases List.mem_append.mp ht with ht | ht
    · exact hc.formed t ht
    · rcases ThreadedOpr.mem_executeTasks ho ht with ⟨v, rfl⟩ | ⟨v, hv, rfl⟩
      · trivial
      · exact ⟨o, hopr, hv, rfl⟩
  · rw [List.count_append, happend]
    exact (hc.var v).append_once e huse
  · intro e huse
    have hcount := (hc.var v).complete_once e huse
    rw [List.count_append, List.count_append, List.count_singleton]
    by_cases hop : e.1 = op
    · obtain ⟨o', hopr', hv, he⟩ := huse
      rw [hop, hopr] at hopr'
      obtain rfl := Option.some.inj hopr'
      have hnew : (o.executeTasks op).count (.complete v e) = 1 := by
        rw [← ThreadedOpr.count_complete_executeTasks ho hv, ← he, ← hop]
      rw [hnew, if_pos (by simp [hop])]
      dsimp only
      omega
    · have hnew : (o.executeTasks op).count (.complete v e) = 0 := by
        refine List.count_eq_zero.mpr fun ht => ?_
        rcases ThreadedOpr.mem_executeTasks ho ht with ⟨u, heq⟩ | ⟨u, -, heq⟩
        · cases heq
        · cases heq
          exact hop rfl
      rw [hnew, if_neg (by simp [Ne.symm hop])]
      exact hcount
  · have hpays : (o.executeTasks op).countP (Task.pays op') = 0 := by
      refine List.countP_eq_zero.mpr fun t ht => ?_
      rcases ThreadedOpr.mem_executeTasks ho ht with ⟨v, rfl⟩ | ⟨v, -, rfl⟩ <;> simp [Task.pays]
    rw [List.countP_append, hpays]
    exact hc.wait_eq op' o' hopr'
  · rcases List.mem_append.mp hop' with hop' | hop'
    · exact hc.executed_sub op' hop'
    · rw [List.mem_singleton.mp hop']
      exact hdispatched
  · exact List.nodup_append.mpr ⟨hc.executed_nodup, List.nodup_singleton op, by grind⟩

theorem Consistent.run {t : Task} (hc : s.Consistent (t :: others))
    (hrun : s.run t = some (s', next)) : s'.Consistent (next ++ others) := by
  cases t with
  | append v e => exact hc.append hrun
  | decrWait op => exact hc.decrWait hrun
  | setToDelete v => exact hc.setToDelete hrun
  | complete v e => exact hc.complete hrun

theorem Consistent.wait_pos {t : Task} (hc : s.Consistent (t :: others))
    (hpays : t.pays op = true) : 0 < s.wait op := by
  have hlt := (hc.formed t (List.mem_cons_self ..)).lt_of_pays hpays
  have hwait := hc.wait_eq op _ (List.getElem?_eq_getElem hlt)
  rw [List.countP_cons_of_pos hpays] at hwait
  omega

theorem decrWait_isSome (hpos : 0 < s.wait op) : (s.decrWait op).isSome := by
  unfold ThreadedEngine.decrWait
  rw [if_neg (by omega)]
  rfl

/-- No check fails, if nothing waits for a variable that is to be deleted. -/
theorem Consistent.run_isSome {t : Task} (hc : s.Consistent (t :: others))
    (hdelete : ∀ v e, t = .complete v e → (s.vars v).var.toDelete = true →
      (s.vars v).var.ungranted = []) : (s.run t).isSome := by
  cases t with
  | append v e =>
    obtain ⟨⟨x, g⟩, hx⟩ := Option.isSome_iff_exists.mp
      (ThreadedVar.append_isSome (hc.var v).ok.fits e)
    have hwait : 0 < s.wait e.1 := hc.wait_pos (by simp [Task.pays])
    simp only [ThreadedEngine.run, VarHistory.append, hx, Option.map_some,
      Option.bind_eq_bind, Option.bind_some, Option.isSome_map]
    split
    · rfl
    · exact decrWait_isSome hwait
  | decrWait op =>
    have hwait : 0 < s.wait op := hc.wait_pos (by simp [Task.pays])
    obtain ⟨s₁, hs₁⟩ := Option.isSome_iff_exists.mp (decrWait_isSome hwait)
    simp [ThreadedEngine.run, hs₁]
  | setToDelete v => rfl
  | complete v e =>
    obtain ⟨⟨x, g⟩, hx⟩ := Option.isSome_iff_exists.mp
      (ThreadedVar.complete_isSome (hc.var v).ok.fits hc.running_of_complete (hdelete v e rfl))
    simp [ThreadedEngine.run, VarHistory.complete, hx]

theorem Consistent.step {p p' : ThreadedEngine × List (List Task)}
    (hc : p.1.Consistent p.2.flatten) (h : Step p p') : p'.1.Consistent p'.2.flatten := by
  cases h with
  | push s calls o hnodup =>
    rw [List.flatten_append]
    simpa using hc.push hnodup
  | run s s' l₁ l₂ t rest next hrun =>
    have hbefore : (l₁ ++ (t :: rest) :: l₂).flatten.Perm
        (t :: (l₁.flatten ++ (rest ++ l₂.flatten))) := by
      rw [List.flatten_append, List.flatten_cons, List.cons_append]
      exact List.perm_middle
    have hafter : (next ++ (l₁.flatten ++ (rest ++ l₂.flatten))).Perm
        (l₁ ++ (next ++ rest) :: l₂).flatten := by
      rw [List.flatten_append, List.flatten_cons, List.append_assoc]
      exact List.perm_append_comm_assoc ..
    exact ((hc.perm hbefore).run hrun).perm hafter
  | execute s calls op o hopr hdispatched hexecuted =>
    rw [List.flatten_append]
    simpa using hc.execute hopr hdispatched hexecuted

theorem consistent_of_steps {k : ℕ} {p : ThreadedEngine × List (List Task)}
    (h : Steps Step k ({}, []) p) : p.1.Consistent p.2.flatten := by
  refine Steps.invariant (P := fun p => p.1.Consistent p.2.flatten) h Consistent.empty ?_
  exact fun _ _ hc hstep => Consistent.step hc hstep

/-- The next task of a call can always run, unless it completes on a variable that is to be
deleted and another operation was appended to it after that. -/
theorem next_task_runs {k : ℕ} {t : Task} {rest : List Task} {l₁ l₂ : List (List Task)}
    (h : Steps Step k ({}, []) (s, l₁ ++ (t :: rest) :: l₂))
    (hdelete : ∀ v e, t = .complete v e → (s.vars v).var.toDelete = true →
      (s.vars v).var.ungranted = []) : (s.run t).isSome := by
  have hc : s.Consistent (l₁ ++ (t :: rest) :: l₂).flatten := consistent_of_steps h
  rw [List.flatten_append, List.flatten_cons, List.cons_append] at hc
  exact (hc.perm List.perm_middle).run_isSome hdelete

/-- The operation mutates the variable. -/
def Mutates (s : ThreadedEngine) (v op : ℕ) : Prop :=
  ∃ o, s.oprs[op]? = some o ∧ v ∈ o.mutableVars

/-- The operation uses the variable, has been dispatched and has not completed on the variable.
So it is in use at least until `OnComplete` is called. -/
def InUse (s : ThreadedEngine) (v op : ℕ) : Prop :=
  ∃ o, s.oprs[op]? = some o ∧ v ∈ o.vars ∧ op ∈ s.dispatched ∧
    op ∉ (s.vars v).completed.map Prod.fst

theorem Consistent.running_of_inUse (hc : s.Consistent tasks) (h : s.InUse v op) :
    ∃ e ∈ (s.vars v).running, e.1 = op ∧ Uses s.oprs v e := by
  obtain ⟨o, hopr, hv, hdispatched, hcompleted⟩ := h
  have huse : Uses s.oprs v (op, decide (v ∈ o.mutableVars)) := ⟨o, hopr, hv, rfl⟩
  refine ⟨_, List.mem_filter.mpr ⟨(hc.var v).granted _ hdispatched huse, ?_⟩, rfl, huse⟩
  exact decide_eq_true fun hmem => hcompleted (List.mem_map_of_mem hmem)

/-- In every run, an operation that mutates a variable is the only one that uses it, operations
are dispatched once, and conflicting operations are dispatched in the order in which they were
appended to the variable. -/
theorem conflicts_serialised {k : ℕ} {calls : List (List Task)}
    (h : Steps Step k ({}, []) (s, calls)) :
    (∀ v op op', s.InUse v op → s.InUse v op' → op ≠ op' →
      ¬ s.Mutates v op ∧ ¬ s.Mutates v op') ∧
    s.dispatched.Nodup ∧
    ∀ v k₁ k₂ l₁ l₂ op op', (s.vars v).appended.map Prod.fst = k₁ ++ op' :: k₂ → op ∈ k₁ →
      s.Mutates v op ∨ s.Mutates v op' → s.dispatched = l₁ ++ op' :: l₂ → op ∈ l₁ := by
  have hc : s.Consistent calls.flatten := consistent_of_steps h
  refine ⟨?_, hc.dispatched_nodup, ?_⟩
  · intro v op op' hop hop' hne
    obtain ⟨e, he, rfl, huse⟩ := hc.running_of_inUse hop
    obtain ⟨e', he', rfl, huse'⟩ := hc.running_of_inUse hop'
    have hreads := (hc.var v).ok.fits.exclusive he he' (ne_of_apply_ne Prod.fst hne)
    constructor
    · rintro ⟨o, hopr, hv⟩
      exact absurd (huse.writes hopr hv) (by simp [hreads])
    · rintro ⟨o, hopr, hv⟩
      exact absurd (huse'.writes hopr hv) (by simp [hreads])
  · intro v k₁ k₂ l₁ l₂ op op' happended hop hmutates hdispatched
    obtain ⟨m₁, m₂', hsplit, rfl, htail⟩ := List.map_eq_append_iff.mp happended
    obtain ⟨e', m₂, rfl, rfl, -⟩ := List.map_eq_cons_iff.mp htail
    obtain ⟨e, he, rfl⟩ := List.mem_map.mp hop
    have huse : Uses s.oprs v e := (hc.var v).uses e (by simp [hsplit, he])
    have huse' : Uses s.oprs v e' := (hc.var v).uses e' (by simp [hsplit])
    refine (hc.var v).ordered l₁ l₂ m₁ m₂ e e' hdispatched hsplit he ?_
    rcases hmutates with ⟨o, hopr, hv⟩ | ⟨o, hopr, hv⟩
    · exact .inl (huse.writes hopr hv)
    · exact .inr (huse'.writes hopr hv)

/-- One operation writes a variable, a second one reads it and waits. -/
theorem conflicts_serialised_two_operations :
    ∃ s calls, Steps Step 9 ({}, []) (s, calls) ∧ s.dispatched = [0, 1] ∧
      ∀ l₁ l₂, s.dispatched = l₁ ++ 1 :: l₂ → 0 ∈ l₁ := by
  have h₁ := (@Steps.refl _ Step ({}, [])).tail
    (Step.push _ _ { mutableVars := [0] } (by decide))
  have h₂ := h₁.tail (Step.run _ _ [] [] _ _ _ rfl)
  have h₃ := h₂.tail (Step.run _ _ [] [] _ _ _ rfl)
  have h₄ := h₃.tail (Step.push _ _ { constVars := [0] } (by decide))
  have h₅ := h₄.tail (Step.run _ _ [[]] [] _ _ _ rfl)
  have h₆ := h₅.tail (Step.run _ _ [[]] [] _ _ _ rfl)
  have h₇ := h₆.tail (Step.execute _ _ 0 _ rfl (by decide) (by decide))
  have h₈ := h₇.tail (Step.run _ _ [[], []] [] _ _ _ rfl)
  have h₉ := h₈.tail (Step.run _ _ [[], []] [] _ _ _ rfl)
  refine ⟨_, _, h₉, rfl, ?_⟩
  intro l₁ l₂ hdispatched
  exact (conflicts_serialised h₉).2.2 0 [0] [] l₁ l₂ 0 1 rfl (by decide)
    (.inl ⟨_, rfl, by decide⟩) hdispatched

end ThreadedEngine

end NetStorm

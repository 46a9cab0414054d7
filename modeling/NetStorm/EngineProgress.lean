import NetStorm.Library.Acyclic
import NetStorm.DispatchOnce

/-!
# Deadlocks of the dependency engine

`Push` appends an operation to its variables one after the other, with no lock around all of
them. So two pushes can each get behind the other, and then neither operation is ever dispatched.
If no append puts an operation behind one that is behind it already, some operation runs as long
as one has not completed: the operations that wait, with those before them, have no cycle.
-/
namespace NetStorm

namespace LinkedEngine
open Relation

/-- Both operations were appended to a variable, the first one first, and they conflict. -/
def Precedes (s : LinkedEngine) (op op' : ℕ) : Prop :=
  ∃ v k₁ k₂ e e', s.appended v = k₁ ++ e' :: k₂ ∧ e ∈ k₁ ∧ (e.2 = true ∨ e'.2 = true) ∧
    e.1 = op ∧ e'.1 = op'

/-- The function of the operation has run, and its `OnComplete` has returned. -/
def Completed (p : LinkedEngine × List (ℕ × List LinkedTask)) (op : ℕ) : Prop :=
  op ∈ p.1.executed ∧ ∀ c ∈ p.2, c.1 = op → c.2 = []

/-- If no push is in progress and some operation has not completed, one that was dispatched has
not. -/
def Progresses (p : LinkedEngine × List (ℕ × List LinkedTask)) : Prop :=
  (∀ op, LinkedTask.endPush op ∉ tasksOf p.2) →
    (∃ op, op < p.1.oprs.length ∧ ¬ Completed p op) → ∃ op ∈ p.1.dispatched, ¬ Completed p op

/-- A step that puts no operation behind one that is behind it, directly or through others. -/
def OrderedStep (p p' : LinkedEngine × List (ℕ × List LinkedTask)) : Prop :=
  Step p p' ∧ ∀ v e, p'.1.appended v = p.1.appended v ++ [e] →
    ∀ e' ∈ p.1.appended v, e'.2 = true ∨ e.2 = true → ¬ TransGen p.1.Precedes e.1 e'.1

/-- Every call that is not at its end is for an operation that runs, or is a push. -/
def Labelled (p : LinkedEngine × List (ℕ × List LinkedTask)) : Prop :=
  ∀ c ∈ p.2, c.2 = [] ∨ c.1 ∈ p.1.executed ∨
    ∃ ts, c.2 = ts ++ [.endPush c.1] ∧ ∀ t ∈ ts, ∃ v e, t = LinkedTask.append v e

variable {s s' : LinkedEngine} {calls : List (ℕ × List LinkedTask)} {tasks : List LinkedTask}
  {hs : ℕ → VarHistory} {v op : ℕ} {e : ℕ × Bool}

/-- An append is recorded. -/
theorem run_append_appended {new fuel : ℕ} {next : List LinkedTask}
    (hrun : s.run new fuel (.append v e) = some (s', next)) :
    next = [] ∧ s'.executed = s.executed ∧
      s'.appended = Function.update s.appended v (s.appended v ++ [e]) := by
  simp only [run, Option.bind_eq_bind, Option.bind_eq_some_iff, Option.map_eq_some_iff] at hrun
  obtain ⟨⟨x, ops⟩, -, s₁, hwait, heq⟩ := hrun
  obtain ⟨rfl, rfl⟩ := Prod.mk.inj heq
  split at hwait
  · obtain rfl := Option.some.inj hwait
    exact ⟨rfl, rfl, rfl⟩
  · obtain ⟨s₂, hs₂, rfl⟩ := Option.map_eq_some_iff.mp hwait
    obtain ⟨-, rfl⟩ := decrWait_eq hs₂
    exact ⟨rfl, rfl, rfl⟩

/-- The other tasks append nothing. -/
theorem run_other_appended {new fuel : ℕ} {t : LinkedTask} {next : List LinkedTask}
    (ht : ∀ v e, t ≠ .append v e) (hrun : s.run new fuel t = some (s', next)) :
    s'.executed = s.executed ∧ s'.appended = s.appended := by
  cases t with
  | append v e => exact absurd rfl (ht v e)
  | grant v op =>
    obtain ⟨-, -, rfl⟩ := run_grant hrun
    rw [dispatch_eq]
    exact ⟨rfl, rfl⟩
  | endPush op =>
    obtain ⟨-, -, rfl⟩ := run_endPush hrun
    rw [dispatch_eq]
    exact ⟨rfl, rfl⟩
  | setToDelete v =>
    obtain ⟨rfl, -⟩ := Prod.mk.inj (Option.some.inj hrun)
    exact ⟨rfl, rfl⟩
  | complete v e =>
    obtain ⟨x, ops, -, -, rfl⟩ := run_complete hrun
    exact ⟨rfl, rfl⟩

theorem run_executed {new fuel : ℕ} {t : LinkedTask} {next : List LinkedTask}
    (hrun : s.run new fuel t = some (s', next)) : s'.executed = s.executed := by
  by_cases ht : ∃ v e, t = .append v e
  · obtain ⟨v, e, rfl⟩ := ht
    exact (run_append_appended hrun).2.1
  · exact (run_other_appended (fun v e heq => ht ⟨v, e, heq⟩) hrun).1

theorem Labelled.step {p p' : LinkedEngine × List (ℕ × List LinkedTask)} (h : Labelled p)
    (hstep : Step p p') : Labelled p' := by
  cases hstep with
  | push s calls o hnodup =>
    refine List.forall_mem_append.mpr ⟨h, ?_⟩
    rw [List.forall_mem_singleton]
    refine .inr (.inr ⟨_, rfl, fun t ht => ?_⟩)
    rcases List.mem_append.mp ht with ht | ht
    · obtain ⟨v, -, rfl⟩ := List.mem_map.mp ht
      exact ⟨v, _, rfl⟩
    · obtain ⟨v, -, rfl⟩ := List.mem_map.mp ht
      exact ⟨v, _, rfl⟩
  | run s s' l₁ l₂ op t rest next new fuel hready hrun =>
    have hexecuted := run_executed hrun
    unfold Labelled at h ⊢
    simp only [hexecuted]
    rw [List.forall_mem_append, List.forall_mem_cons] at h ⊢
    refine ⟨h.1, ?_, h.2.2⟩
    rcases h.2.1 with hnil | hop | ⟨ts, hts, hall⟩
    · cases hnil
    · exact .inr (.inl hop)
    · replace hts : t :: rest = ts ++ [.endPush op] := hts
      cases ts with
      | nil =>
        obtain ⟨rfl, rfl⟩ := List.cons.inj hts
        exact .inl (by simp [(run_endPush hrun).1])
      | cons t' ts =>
        obtain ⟨rfl, rfl⟩ := List.cons.inj hts
        obtain ⟨v, e, rfl⟩ := hall t (List.mem_cons_self ..)
        rw [(run_append_appended hrun).1]
        exact .inr (.inr ⟨ts, rfl, fun t ht => hall t (List.mem_cons_of_mem _ ht)⟩)
  | execute s calls op o hopr hdispatched hexecuted =>
    refine List.forall_mem_append.mpr ⟨fun c hc => ?_, ?_⟩
    · exact (h c hc).imp_right (.imp_left fun hop => List.mem_append_left _ hop)
    · simp

/-- The new entry of a variable is behind the ones before it. -/
theorem precedes_append
    (happended : s'.appended = Function.update s.appended v (s.appended v ++ [e])) {a b : ℕ}
    (h : s'.Precedes a b) : s.Precedes a b ∨
      b = e.1 ∧ ∃ e' ∈ s.appended v, (e'.2 = true ∨ e.2 = true) ∧ e'.1 = a := by
  obtain ⟨u, k₁, k₂, e₁, e₂, hsplit, hmem, hconflict, rfl, rfl⟩ := h
  rw [happended] at hsplit
  rcases eq_or_ne u v with rfl | hu
  · rw [Function.update_self] at hsplit
    rcases List.eq_nil_or_concat k₂ with rfl | ⟨k₂, z, rfl⟩
    · obtain ⟨rfl, heq⟩ := List.append_inj' hsplit rfl
      obtain rfl := List.singleton_inj.mp heq
      exact .inr ⟨rfl, e₁, hmem, hconflict, rfl⟩
    · rw [List.concat_eq_append, ← List.cons_append, ← List.append_assoc] at hsplit
      exact .inl ⟨u, k₁, k₂, e₁, e₂, (List.append_inj' hsplit rfl).1, hmem, hconflict, rfl, rfl⟩
  · rw [Function.update_of_ne hu] at hsplit
    exact .inl ⟨u, k₁, k₂, e₁, e₂, hsplit, hmem, hconflict, rfl, rfl⟩

theorem acyclic_congr (happended : s'.appended = s.appended) (h : Acyclic s.Precedes) :
    Acyclic s'.Precedes := by
  have hsame : s'.Precedes = s.Precedes := by
    unfold Precedes
    rw [happended]
  rw [hsame]
  exact h

theorem acyclic_step {p p' : LinkedEngine × List (ℕ × List LinkedTask)} (hsound : Sound p)
    (h : Acyclic p.1.Precedes) (hstep : OrderedStep p p') : Acyclic p'.1.Precedes := by
  obtain ⟨hstep, hordered⟩ := hstep
  cases hstep with
  | push s calls o hnodup => exact h
  | run s s' l₁ l₂ op t rest next new fuel hready hrun =>
    by_cases ht : ∃ v e, t = .append v e
    · obtain ⟨v, e, rfl⟩ := ht
      have happended := (run_append_appended hrun).2.2
      refine acyclic_of_new_edges h (fun a b => precedes_append happended) ?_
      rintro a ⟨e', he', hconflict, rfl⟩ hreach
      rcases reflTransGen_iff_eq_or_transGen.mp hreach with heq | hreach
      · obtain ⟨⟨hs, href⟩, -⟩ := hsound
        have href' := href.perm (tasksOf_perm l₁ l₂ op [.append v e] rest)
        refine href'.not_appended ?_ heq
        rw [← href'.appended]
        exact he'
      · refine hordered v e ?_ e' he' hconflict hreach
        simp [happended]
    · exact acyclic_congr (run_other_appended (fun v e heq => ht ⟨v, e, heq⟩) hrun).2 h
  | execute s calls op o hopr hdispatched hexecuted => exact h

/-- With nothing left to do in the calls, an operation that was dispatched has completed on its
variables. -/
theorem Refines.completed_of_dispatched (h : Refines s [] hs)
    (hdone : ∀ op ∈ s.dispatched, op ∈ s.executed) (he : e ∈ (hs v).granted)
    (hop : e.1 ∈ s.dispatched) : e ∈ (hs v).completed := by
  have honce : ([] : List Task).count (.complete v e) + (hs v).completed.count e =
      s.executed.count e.1 :=
    (h.consistent.var v).complete_once e (h.uses ((h.ok v).granted_sub he))
  have hpos := List.count_pos_iff.mpr (hdone e.1 hop)
  exact List.count_pos_iff.mp (by rw [List.count_nil] at honce; omega)

/-- An operation that waits for a variable is behind one that has not been dispatched, if the
operations that were dispatched have completed. -/
theorem Refines.exists_precedes (h : Refines s [] hs)
    (hdone : ∀ op ∈ s.dispatched, op ∈ s.executed) (he : e ∈ (hs v).var.ungranted) :
    ∃ op, op < s.oprs.length ∧ op ∉ s.dispatched ∧ s.Precedes op e.1 := by
  have hok := h.ok v
  obtain ⟨k₁, k₂, hsplit⟩ := List.append_of_mem he
  have happended : s.appended v = ((hs v).granted ++ k₁) ++ e :: k₂ := by
    rw [h.appended, hok.appended_eq, hsplit, List.append_assoc]
  -- an entry before this one that conflicts with it
  have hbefore : ∀ e' ∈ (hs v).granted ++ k₁, e'.2 = true ∨ e.2 = true → e'.1 ∉ s.dispatched →
      ∃ op, op < s.oprs.length ∧ op ∉ s.dispatched ∧ s.Precedes op e.1 := by
    intro e' he' hconflict hnot
    have hmem : e' ∈ (hs v).appended := by
      rw [← h.appended, happended]
      exact List.mem_append_left _ he'
    exact ⟨e'.1, (h.uses hmem).lt, hnot, v, _, k₂, e', e, happended, he', hconflict, rfl, rfl⟩
  have hrunning : ∀ e' ∈ (hs v).running, e'.1 ∉ s.dispatched := by
    intro e' he' hop
    obtain ⟨hgranted, hcompleted⟩ := List.mem_filter.mp he'
    exact of_decide_eq_true hcompleted (h.completed_of_dispatched hdone hgranted hop)
  have hgranted : ∀ e' ∈ (hs v).running, e' ∈ (hs v).granted ++ k₁ := fun e' he' =>
    List.mem_append_left _ (List.mem_filter.mp he').1
  cases hok.fits with
  | writing w rest hqueue hnum hrun =>
    have hw : (w, true) ∈ (hs v).running := by simp [hrun]
    exact hbefore _ (hgranted _ hw) (.inl rfl) (hrunning _ hw)
  | reading hqueue hnum hrun =>
    unfold ThreadedVar.ungranted at he
    rw [hqueue] at he
    simp at he
  | draining w rest hqueue hnum hpos hrun =>
    have hungranted : (hs v).var.ungranted = (w, true) :: rest := by
      rw [ThreadedVar.ungranted, hnum, if_neg ThreadedVar.ne_kWriteTriggered, hqueue]
    rw [hungranted] at hsplit
    cases k₁ with
    | nil =>
      obtain ⟨rfl, -⟩ := List.cons.inj hsplit
      obtain ⟨r, hr⟩ := List.exists_mem_of_length_pos hpos
      exact hbefore _ (hgranted _ hr) (.inr rfl) (hrunning _ hr)
    | cons e' k₁ =>
      obtain ⟨rfl, -⟩ := List.cons.inj hsplit
      refine hbefore (w, true) (by simp) (.inl rfl) fun hop => ?_
      -- an operation that was dispatched has got the variable
      have hmem : (w, true) ∈ (hs v).appended := by
        rw [hok.appended_eq, hungranted]
        simp
      have hgot := (h.consistent.var v).granted (w, true) hop (h.uses hmem)
      have hnodup := hok.nodup
      rw [hok.appended_eq, hungranted] at hnodup
      exact (List.nodup_append.mp hnodup).2.2 _ hgot _ (List.mem_cons_self ..) rfl

/-- An operation that was not dispatched waits for a variable, if the calls are at their end. -/
theorem Refines.exists_ungranted (h : Refines s [] hs) (hlt : op < s.oprs.length)
    (hop : op ∉ s.dispatched) : ∃ v, ∃ e ∈ (hs v).var.ungranted, e.1 = op := by
  have hopr := List.getElem?_eq_getElem hlt
  have hwait := h.wait_eq op _ hopr
  have hne : s.wait op ≠ 0 := fun hzero => hop (h.dispatched op hlt hzero)
  rw [List.count_nil, Nat.cast_zero, add_zero] at hwait
  obtain ⟨v, hv, hgrant⟩ := List.countP_pos_iff.mp
    (Nat.pos_of_ne_zero fun hzero => hne (hwait.trans (congrArg Nat.cast hzero)))
  replace hgrant : (v, op) ∉ s.grants := of_decide_eq_true hgrant
  obtain ⟨e, rfl, huse⟩ : ∃ e, e.1 = op ∧ Uses s.oprs v e :=
    ⟨(op, decide (v ∈ s.oprs[op].mutableVars)), rfl, _, hopr, hv, rfl⟩
  refine ⟨v, e, ?_, rfl⟩
  have honce : ([] : List Task).count (.append v e) + (hs v).appended.count e = 1 :=
    (h.consistent.var v).append_once e huse
  rw [List.count_nil, Nat.zero_add] at honce
  have happended : e ∈ (hs v).appended := List.count_pos_iff.mp (by omega)
  rw [(h.ok v).appended_eq] at happended
  refine (List.mem_append.mp happended).resolve_left fun hgranted => ?_
  have hcount := h.granted v e.1
  rw [h.countP_granted hgranted, List.count_nil, List.count_eq_zero.mpr hgrant] at hcount
  cases hcount

/-- No push is in progress and everything that was dispatched has completed: the calls are at
their end. -/
theorem tasksOf_eq_nil (hlabelled : Labelled (s, calls)) (href : Refines s (tasksOf calls) hs)
    (hpush : ∀ op, LinkedTask.endPush op ∉ tasksOf calls)
    (hdone : ∀ op ∈ s.dispatched, Completed (s, calls) op) : tasksOf calls = [] := by
  refine List.flatten_eq_nil_iff.mpr fun ts hts => ?_
  obtain ⟨c, hc, rfl⟩ := List.mem_map.mp hts
  rcases hlabelled c hc with hnil | hop | ⟨ts, hts, -⟩
  · exact hnil
  · exact (hdone c.1 (href.consistent.executed_sub c.1 hop)).2 c hc rfl
  · refine absurd (List.mem_flatten.mpr ⟨c.2, List.mem_map_of_mem hc, ?_⟩) (hpush c.1)
    rw [hts]
    simp

theorem progresses_of_acyclic (hsound : Sound (s, calls)) (hlabelled : Labelled (s, calls))
    (hacyclic : Acyclic s.Precedes) : Progresses (s, calls) := by
  rintro hpush ⟨op, hlt, hop⟩
  by_contra hstuck
  have hdone : ∀ op ∈ s.dispatched, Completed (s, calls) op := by
    intro op' hop'
    by_contra hnot
    exact hstuck ⟨op', hop', hnot⟩
  obtain ⟨⟨hs, href⟩, -⟩ := hsound
  have hnil := tasksOf_eq_nil hlabelled href hpush hdone
  dsimp only at href
  rw [hnil] at href
  obtain ⟨op₀, ⟨hlt₀, hop₀⟩, hfirst⟩ := hacyclic.exists_first
    (s := { op | op < s.oprs.length ∧ op ∉ s.dispatched })
    ((Set.finite_lt_nat s.oprs.length).subset fun _ h => h.1) ⟨op, hlt, fun h => hop (hdone op h)⟩
  obtain ⟨v, e, he, rfl⟩ := href.exists_ungranted hlt₀ hop₀
  obtain ⟨op', hlt', hop', hprecedes⟩ :=
    href.exists_precedes (fun op h => (hdone op h).1) he
  exact hfirst op' ⟨hlt', hop'⟩ hprecedes

/-- In every run whose appends put no operation behind one that is behind it already, the engine
does not deadlock. -/
theorem progresses_of_ordered {k : ℕ} {p : LinkedEngine × List (ℕ × List LinkedTask)}
    (h : Steps OrderedStep k ({}, []) p) : Progresses p := by
  have hinv : Sound p ∧ Labelled p ∧ Acyclic p.1.Precedes := by
    refine Steps.invariant (P := fun p => Sound p ∧ Labelled p ∧ Acyclic p.1.Precedes) h ?_ ?_
    · refine ⟨⟨⟨fun _ => {}, refines_empty⟩, by simp⟩, by simp [Labelled], fun op hop => ?_⟩
      obtain ⟨op', -, v, k₁, k₂, e, e', hsplit, -⟩ := TransGen.tail'_iff.mp hop
      simp at hsplit
    · rintro p p' ⟨hsound, hlabelled, hacyclic⟩ hstep
      exact ⟨hsound.step hstep.1, hlabelled.step hstep.1, acyclic_step hsound hacyclic hstep⟩
  exact progresses_of_acyclic hinv.1 hinv.2.1 hinv.2.2

/-- Two operations are pushed one after the other. The second one waits, and the first one has
been dispatched. -/
theorem progresses_of_ordered_two_operations :
    ∃ p, Steps OrderedStep 6 ({}, []) p ∧ p.1.dispatched = [0] ∧
      ∃ op ∈ p.1.dispatched, ¬ Completed p op := by
  have hnone : ∀ {s : LinkedEngine} {a b : ℕ}, (∀ v, (s.appended v).length ≤ 1) →
      ¬ TransGen s.Precedes a b := by
    intro s a b hshort hpath
    obtain ⟨c, ⟨v, k₁, k₂, e, e', happended, hmem, -⟩, -⟩ := TransGen.head'_iff.mp hpath
    have hle := hshort v
    have hpos := List.length_pos_of_mem hmem
    rw [happended] at hle
    simp only [List.length_append, List.length_cons] at hle
    omega
  have hsame : ∀ {l : List (ℕ × Bool)} {e : ℕ × Bool}, ¬ l = l ++ [e] := by simp
  have h₁ := (@Steps.refl _ OrderedStep ({}, [])).tail
    ⟨Step.push _ _ { mutableVars := [0] } (by decide), fun v e hv => absurd hv hsame⟩
  have h₂ := h₁.tail ⟨Step.run _ _ [] [] 0 _ _ _ 1 0 ⟨rfl, by decide⟩ rfl,
    fun v e _ e' _ _ => hnone fun v => by simp [push]⟩
  have h₃ := h₂.tail
    ⟨Step.run _ _ [] [] 0 _ _ _ 0 0 trivial rfl, fun v e hv => absurd hv hsame⟩
  have h₄ := h₃.tail
    ⟨Step.push _ _ { constVars := [0] } (by decide), fun v e hv => absurd hv hsame⟩
  have h₅ := h₄.tail ⟨Step.run _ _ [(0, [])] [] 1 _ _ _ 2 0 ⟨rfl, by decide⟩ rfl,
    fun v e _ e' _ _ => hnone fun v => ?_⟩
  · have h₆ := h₅.tail
      ⟨Step.run _ _ [(0, [])] [] 1 _ _ _ 0 0 trivial rfl, fun v e hv => absurd hv hsame⟩
    exact ⟨_, h₆, rfl, progresses_of_ordered h₆ (fun op hmem => by cases hmem)
      ⟨0, by decide, fun hcompleted => by cases hcompleted.1⟩⟩
  · change (Function.update (fun _ : ℕ => ([] : List (ℕ × Bool))) 0 [(0, true)] v).length ≤ 1
    by_cases hv : v = 0 <;> simp [hv]

/-- The condition cannot be dropped: the operations of a cycle are never dispatched. -/
theorem not_dispatched_of_cycle {k : ℕ} (h : Steps Step k ({}, []) (s, calls))
    (hcycle : TransGen s.Precedes op op) : op ∉ s.dispatched := by
  obtain ⟨⟨hs, href⟩, -⟩ := sound_of_steps h
  have hedge : ∀ a b l₁ l₂, s.Precedes a b → s.dispatched = l₁ ++ b :: l₂ → a ∈ l₁ := by
    rintro a b l₁ l₂ ⟨v, k₁, k₂, e, e', happended, hmem, hconflict, rfl, rfl⟩ hdispatched
    rw [href.appended] at happended
    exact (href.consistent.var v).ordered l₁ l₂ k₁ k₂ e e' hdispatched happended hmem hconflict
  have hpath : ∀ a b, TransGen s.Precedes a b →
      ∀ l₁ l₂, s.dispatched = l₁ ++ b :: l₂ → a ∈ l₁ := by
    intro a b hab
    induction hab with
    | single hab => exact fun l₁ l₂ => hedge _ _ l₁ l₂ hab
    | tail hab hbc ih =>
      intro l₁ l₂ hdispatched
      obtain ⟨m₁, m₂, rfl⟩ := List.append_of_mem (hedge _ _ l₁ l₂ hbc hdispatched)
      rw [List.append_assoc, List.cons_append] at hdispatched
      exact List.mem_append_left _ (ih m₁ _ hdispatched)
  intro hop
  obtain ⟨l₁, l₂, hdispatched⟩ := List.append_of_mem hop
  have hnodup : s.dispatched.Nodup := href.consistent.dispatched_nodup
  rw [hdispatched, List.nodup_middle, List.nodup_cons, List.mem_append, not_or] at hnodup
  exact hnodup.1.1 (hpath op op hcycle l₁ l₂ hdispatched)

/-- One operation reads the first variable and writes the second one, another one the other way
round. Their pushes take turns: both reads are granted, and both writes wait for them. -/
theorem not_progresses_interleaved :
    ¬ ∀ k p, Steps Step k ({}, []) p → Progresses p := by
  have h₁ := (@Steps.refl _ Step ({}, [])).tail
    (Step.push _ _ { constVars := [0], mutableVars := [1] } (by decide))
  have h₂ := h₁.tail (Step.push _ _ { constVars := [1], mutableVars := [0] } (by decide))
  have h₃ := h₂.tail (Step.run _ _ [] [(1, _)] 0 _ _ _ 1 0 ⟨rfl, by decide⟩ rfl)
  have h₄ := h₃.tail (Step.run _ _ [(0, _)] [] 1 _ _ _ 1 0 ⟨rfl, by decide⟩ rfl)
  have h₅ := h₄.tail (Step.run _ _ [] [(1, _)] 0 _ _ _ 2 0 ⟨rfl, by decide⟩ rfl)
  have h₆ := h₅.tail (Step.run _ _ [(0, _)] [] 1 _ _ _ 2 0 ⟨rfl, by decide⟩ rfl)
  have h₇ := h₆.tail (Step.run _ _ [] [(1, _)] 0 _ _ _ 0 0 trivial rfl)
  have h₈ := h₇.tail (Step.run _ _ [(0, _)] [] 1 _ _ _ 0 0 trivial rfl)
  intro hall
  obtain ⟨op, hop, -⟩ := hall _ _ h₈ (fun op hmem => by cases hmem)
    ⟨0, by decide, fun hcompleted => by cases hcompleted.1⟩
  cases hop

end LinkedEngine

end NetStorm

import NetStorm.Library.Steps
import Mathlib.Data.DFinsupp.WellFounded
import Mathlib.Data.List.Induction
import Mathlib.Data.List.Sort
import Mathlib.Data.Set.Basic
import Mathlib.Logic.Function.Basic
import Mathlib.SetTheory.Cardinal.Order

/-!
# Serializability of programs that hold their locations

A program accesses a memory one location at a time. Programs run at the same time: each one holds
all its locations from its start on, and gives them back one after another. When a program starts
only if nothing that it writes is held and nothing that it uses is held by a writer, the memory
is that of the programs run one after another in the order of their starts. Any other order that
keeps the conflicting programs in place gives the same memory.
-/
namespace NetStorm

/-- What a program does with a memory, one access at a time, and its result. -/
inductive Program (L : Type*) (V : L → Type*) (R : Type*)
  | pure (r : R)
  | read (l : L) (next : V l → Program L V R)
  | write (l : L) (x : V l) (next : Program L V R)

namespace Program
variable {L : Type*} {V : L → Type*} {R R' : Type*}

def bind (p : Program L V R) (f : R → Program L V R') : Program L V R' :=
  match p with
  | pure r => f r
  | read l next => read l fun x => (next x).bind f
  | write l x next => write l x (next.bind f)

/-- A loop over a list. -/
def forEach {α : Type*} (p : α → Program L V Unit) : List α → Program L V Unit
  | [] => pure ()
  | a :: l => (p a).bind fun _ => forEach p l

/-- The program reads and writes these locations only. -/
def Within (uses writes : Set L) : Program L V R → Prop
  | pure _ => True
  | read l next => l ∈ uses ∧ ∀ x, (next x).Within uses writes
  | write l _ next => l ∈ writes ∧ next.Within uses writes

theorem Within.mono {uses writes uses' writes' : Set L} {p : Program L V R}
    (h : p.Within uses writes) (huses : uses ⊆ uses') (hwrites : writes ⊆ writes') :
    p.Within uses' writes' := by
  induction p with
  | pure r => trivial
  | read l next ih => exact ⟨huses h.1, fun x => ih x (h.2 x)⟩
  | write l x next ih => exact ⟨hwrites h.1, ih h.2⟩

theorem Within.inter {uses writes uses' writes' : Set L} {p : Program L V R}
    (h : p.Within uses writes) (h' : p.Within uses' writes') :
    p.Within (uses ∩ uses') (writes ∩ writes') := by
  induction p with
  | pure r => trivial
  | read l next ih => exact ⟨⟨h.1, h'.1⟩, fun x => ih x (h.2 x) (h'.2 x)⟩
  | write l x next ih => exact ⟨⟨h.1, h'.1⟩, ih h.2 h'.2⟩

theorem Within.bind {uses writes : Set L} {p : Program L V R} {f : R → Program L V R'}
    (h : p.Within uses writes) (hf : ∀ r, (f r).Within uses writes) :
    (p.bind f).Within uses writes := by
  induction p with
  | pure r => exact hf r
  | read l next ih => exact ⟨h.1, fun x => ih x (h.2 x)⟩
  | write l x next ih => exact ⟨h.1, ih h.2⟩

theorem Within.forEach {α : Type*} {uses writes : Set L} {p : α → Program L V Unit} {l : List α}
    (h : ∀ a ∈ l, (p a).Within uses writes) : (forEach p l).Within uses writes := by
  induction l with
  | nil => trivial
  | cons a l ih =>
    exact (h a List.mem_cons_self).bind fun _ => ih fun b hb => h b (List.mem_cons_of_mem _ hb)

/-- The program is what the other one is behind its first access. -/
def Behind (p' : Program L V R) : Program L V R → Prop
  | .pure _ => False
  | .read _ next => ∃ x, p' = next x
  | .write _ _ next => p' = next

theorem behind_wellFounded : WellFounded (Behind (L := L) (V := V) (R := R)) := by
  refine ⟨fun p => ?_⟩
  induction p with
  | pure r => exact ⟨_, fun p' h => h.elim⟩
  | read l next ih =>
    refine ⟨_, fun p' h => ?_⟩
    obtain ⟨x, rfl⟩ := h
    exact ih x
  | write l x next ih =>
    refine ⟨_, fun p' h => ?_⟩
    obtain rfl : p' = next := h
    exact ih

variable [DecidableEq L]

/-- The result and the memory behind the program, when nothing else runs. -/
def exec : Program L V R → ((l : L) → V l) → R × ((l : L) → V l)
  | pure r, m => (r, m)
  | read l next, m => (next (m l)).exec m
  | write l x next, m => next.exec (Function.update m l x)

/-- The memory behind the program. -/
def run (p : Program L V R) (m : (l : L) → V l) : (l : L) → V l := (p.exec m).2

theorem exec_bind (p : Program L V R) (f : R → Program L V R') (m : (l : L) → V l) :
    (p.bind f).exec m = (f (p.exec m).1).exec (p.exec m).2 := by
  induction p generalizing m with
  | pure r => rfl
  | read l next ih => exact ih (m l) m
  | write l x next ih => exact ih (Function.update m l x)

theorem run_read (l : L) (next : V l → Program L V R) (m : (l : L) → V l) :
    (read l next).run m = (next (m l)).run m := rfl

theorem run_write (l : L) (x : V l) (next : Program L V R) (m : (l : L) → V l) :
    (write l x next).run m = next.run (Function.update m l x) := rfl

/-- A location that the program does not write keeps its value. -/
theorem Within.run_eq {uses writes : Set L} {p : Program L V R} (h : p.Within uses writes) {l : L}
    (hl : l ∉ writes) (m : (l : L) → V l) : p.run m l = m l := by
  induction p generalizing m with
  | pure r => rfl
  | read l' next ih => exact ih (m l') (h.2 _) m
  | write l' x next ih =>
    have hne : l ≠ l' := fun heq => hl (heq ▸ h.1)
    rw [run_write, ih h.2, Function.update_of_ne hne]

/-- The program does the same on memories that agree on what it reads. -/
theorem Within.exec_congr {uses writes : Set L} {p : Program L V R} (h : p.Within uses writes)
    {m m' : (l : L) → V l} {s : Set L} (hsub : uses ⊆ s) (hm : ∀ l ∈ s, m l = m' l) :
    (p.exec m).1 = (p.exec m').1 ∧ ∀ l ∈ s, p.run m l = p.run m' l := by
  induction p generalizing m m' with
  | pure r => exact ⟨rfl, hm⟩
  | read l next ih =>
    rw [run_read, run_read, exec, exec, hm l (hsub h.1)]
    exact ih _ (h.2 _) hm
  | write l x next ih =>
    refine ih h.2 fun l' hl' => ?_
    by_cases heq : l' = l
    · subst heq
      rw [Function.update_self, Function.update_self]
    · rw [Function.update_of_ne heq, Function.update_of_ne heq, hm l' hl']

/-- Programs commute when neither writes what the other one uses. -/
theorem Within.commute {uses writes uses' writes' : Set L} {p : Program L V R}
    {q : Program L V R'} (hp : p.Within uses writes) (hq : q.Within uses' writes')
    (hsub : writes ⊆ uses) (hsub' : writes' ⊆ uses')
    (hdisjoint : ∀ l ∈ writes, l ∉ uses') (hdisjoint' : ∀ l ∈ writes', l ∉ uses)
    (m : (l : L) → V l) : p.run (q.run m) = q.run (p.run m) := by
  have hfirst : ∀ l ∈ uses, p.run (q.run m) l = p.run m l :=
    (hp.exec_congr subset_rfl fun l hl => hq.run_eq (fun hw => hdisjoint' l hw hl) m).2
  have hsecond : ∀ l ∈ uses', q.run (p.run m) l = q.run m l :=
    (hq.exec_congr subset_rfl fun l hl => hp.run_eq (fun hw => hdisjoint l hw hl) m).2
  funext l
  by_cases hl : l ∈ uses
  · rw [hfirst l hl, hq.run_eq (fun hw => hdisjoint' l hw hl)]
  · rw [hp.run_eq fun hw => hl (hsub hw)]
    by_cases hl' : l ∈ uses'
    · rw [hsecond l hl']
    · rw [hq.run_eq fun hw => hl' (hsub' hw), hq.run_eq fun hw => hl' (hsub' hw),
        hp.run_eq fun hw => hl (hsub hw)]

/-- Programs one after another. -/
def runAll (ps : List (Program L V R)) (m : (l : L) → V l) : (l : L) → V l :=
  ps.foldl (fun m p => p.run m) m

@[simp] theorem runAll_nil (m : (l : L) → V l) : runAll ([] : List (Program L V R)) m = m := rfl

@[simp] theorem runAll_cons (p : Program L V R) (ps : List (Program L V R)) (m : (l : L) → V l) :
    runAll (p :: ps) m = runAll ps (p.run m) := rfl

@[simp] theorem runAll_append (ps ps' : List (Program L V R)) (m : (l : L) → V l) :
    runAll (ps ++ ps') m = runAll ps' (runAll ps m) := List.foldl_append

theorem run_bind (p : Program L V Unit) (f : Unit → Program L V R) (m : (l : L) → V l) :
    (p.bind f).run m = (f ()).run (p.run m) :=
  congrArg Prod.snd (exec_bind p f m)

theorem run_forEach {α : Type*} (p : α → Program L V Unit) (l : List α) (m : (l : L) → V l) :
    (forEach p l).run m = runAll (l.map p) m := by
  induction l generalizing m with
  | nil => rfl
  | cons a l ih =>
    rw [forEach, run_bind, ih]
    rfl

theorem runAll_eq {ps : List (Program L V R)} {l : L}
    (h : ∀ p ∈ ps, ∀ m : (l : L) → V l, p.run m l = m l) (m : (l : L) → V l) :
    runAll ps m l = m l := by
  induction ps generalizing m with
  | nil => rfl
  | cons p ps ih =>
    rw [runAll_cons, ih fun q hq => h q (List.mem_cons_of_mem _ hq), h p List.mem_cons_self]

end Program

/-- Where a list with one more element can be split. -/
theorem concat_eq_split {α : Type*} {l l₁ l₂ : List α} {a b : α}
    (h : l ++ [a] = l₁ ++ b :: l₂) :
    (l = l₁ ∧ a = b ∧ l₂ = []) ∨ ∃ k, l₂ = k ++ [a] ∧ l = l₁ ++ b :: k := by
  rcases List.eq_nil_or_concat l₂ with rfl | ⟨k, c, rfl⟩
  · obtain ⟨rfl, heq⟩ := List.append_inj' h rfl
    exact .inl ⟨rfl, (List.cons.inj heq).1, rfl⟩
  · rw [List.concat_eq_append, ← List.cons_append, ← List.append_assoc] at h
    obtain ⟨rfl, heq⟩ := List.append_inj' h rfl
    exact .inr ⟨k, by rw [List.concat_eq_append, (List.cons.inj heq).1], rfl⟩

section Serialization
variable {ι L : Type*} {V : L → Type*} {R : Type*} [DecidableEq L]

/-- The shared memory in the middle of a run. `order` are the programs that have started, `rest`
is what is left of each, and `held` are the locations that it has not given back. -/
structure Serialized (prog : ι → Program L V R) (writes : ι → Set L) (m₀ : (l : L) → V l)
    (order : List ι) (rest : ι → Program L V R) (held : ι → Set L) (mem : (l : L) → V l) :
    Prop where
  nodup : order.Nodup
  within : ∀ i ∈ order, ∃ uses, (prog i).Within uses (writes i)
  unfinished : ∀ l₁ i l₂, order = l₁ ++ i :: l₂ → ∃ m, (∀ l ∈ held i, mem l = m l) ∧
    (rest i).run m = (prog i).run (Program.runAll (l₁.map prog) m₀)
  settled : ∀ l, (∀ i ∈ order, l ∈ writes i → l ∉ held i) →
    mem l = Program.runAll (order.map prog) m₀ l
  exclusive : ∀ i ∈ order, ∀ j ∈ order, i ≠ j → ∀ l ∈ held i, l ∈ held j → l ∉ writes i
  last : ∀ l₁ i l₂, order = l₁ ++ i :: l₂ → ∀ l ∈ held i, ∀ j ∈ l₂, l ∉ writes j

namespace Serialized
variable {prog : ι → Program L V R} {writes : ι → Set L} {m₀ mem : (l : L) → V l}
  {order : List ι} {rest : ι → Program L V R} {held : ι → Set L} {i : ι}

theorem empty (prog : ι → Program L V R) (writes : ι → Set L) (m₀ : (l : L) → V l)
    (rest : ι → Program L V R) (held : ι → Set L) :
    Serialized prog writes m₀ [] rest held m₀ where
  nodup := List.nodup_nil
  within := by simp
  unfinished := by simp
  settled _ _ := rfl
  exclusive := by simp
  last := by simp

/-- Only the programs that have started matter. -/
theorem congr (h : Serialized prog writes m₀ order rest held mem) {prog' : ι → Program L V R}
    {writes' : ι → Set L} {rest' : ι → Program L V R} {held' : ι → Set L}
    (hprog : ∀ i ∈ order, prog' i = prog i) (hwrites : ∀ i ∈ order, writes' i = writes i)
    (hrest : ∀ i ∈ order, rest' i = rest i) (hheld : ∀ i ∈ order, held' i = held i) :
    Serialized prog' writes' m₀ order rest' held' mem where
  nodup := h.nodup
  within i hi := by
    rw [hprog i hi, hwrites i hi]
    exact h.within i hi
  unfinished l₁ i l₂ horder := by
    have hi : i ∈ order := by simp [horder]
    have hmap : l₁.map prog' = l₁.map prog :=
      List.map_congr_left fun j hj => hprog j (by simp [horder, hj])
    rw [hheld i hi, hrest i hi, hprog i hi, hmap]
    exact h.unfinished l₁ i l₂ horder
  settled l hl := by
    rw [List.map_congr_left hprog]
    refine h.settled l fun i hi hw => ?_
    rw [← hheld i hi]
    exact hl i hi (hwrites i hi ▸ hw)
  exclusive i hi j hj hne l hl hl' := by
    rw [hheld i hi] at hl
    rw [hheld j hj] at hl'
    rw [hwrites i hi]
    exact h.exclusive i hi j hj hne l hl hl'
  last l₁ i l₂ horder l hl j hj := by
    rw [hheld i (by simp [horder])] at hl
    rw [hwrites j (by simp [horder, hj])]
    exact h.last l₁ i l₂ horder l hl j hj

variable [DecidableEq ι]

/-- A program starts when nothing that it writes is held and nothing that it uses is held by a
writer. -/
theorem start (h : Serialized prog writes m₀ order rest held mem) (hnew : i ∉ order)
    {uses : Set L} (hwithin : (prog i).Within uses (writes i)) (hsub : writes i ⊆ uses)
    (hfree : ∀ j ∈ order, ∀ l ∈ held j, l ∈ uses → l ∉ writes j ∧ l ∉ writes i) :
    Serialized prog writes m₀ (order ++ [i]) (Function.update rest i (prog i))
      (Function.update held i uses) mem := by
  have hother : ∀ j ∈ order, j ≠ i := fun j hj heq => hnew (heq ▸ hj)
  have hheld : ∀ j ∈ order, Function.update held i uses j = held j := fun j hj =>
    Function.update_of_ne (hother j hj) ..
  have hwriter : ∀ l ∈ uses, ∀ j ∈ order, l ∈ writes j → l ∉ held j := fun l hl j hj hw hheld =>
    (hfree j hj l hheld hl).1 hw
  refine ⟨?_, fun j hj => ?_, fun l₁ j l₂ horder => ?_, fun l hl => ?_,
    fun j hj k hk hne l hl hl' => ?_, fun l₁ j l₂ horder l hl k hk => ?_⟩
  · rw [← List.concat_eq_append, List.nodup_concat]
    exact ⟨hnew, h.nodup⟩
  · rcases List.mem_append.mp hj with hj | hj
    · exact h.within j hj
    · obtain rfl := List.mem_singleton.mp hj
      exact ⟨uses, hwithin⟩
  · rcases concat_eq_split horder with ⟨rfl, rfl, rfl⟩ | ⟨k, rfl, rfl⟩
    · rw [Function.update_self, Function.update_self]
      exact ⟨_, fun l hl => h.settled l (hwriter l hl), rfl⟩
    · have hj : j ∈ l₁ ++ j :: k := by simp
      rw [hheld j hj, Function.update_of_ne (hother j hj)]
      exact h.unfinished l₁ j k rfl
  · have hi : l ∉ writes i := by
      intro hw
      refine hl i (by simp) hw ?_
      rw [Function.update_self]
      exact hsub hw
    rw [List.map_append, Program.runAll_append, List.map_singleton, Program.runAll_cons,
      Program.runAll_nil, hwithin.run_eq hi]
    refine h.settled l fun j hj hw => ?_
    rw [← hheld j hj]
    exact hl j (List.mem_append_left _ hj) hw
  · rcases List.mem_append.mp hj with hold | hnew₁ <;>
      rcases List.mem_append.mp hk with hold' | hnew₂
    · rw [hheld j hold] at hl
      rw [hheld k hold'] at hl'
      exact h.exclusive j hold k hold' hne l hl hl'
    · obtain rfl := List.mem_singleton.mp hnew₂
      rw [hheld j hold] at hl
      rw [Function.update_self] at hl'
      exact (hfree j hold l hl hl').1
    · obtain rfl := List.mem_singleton.mp hnew₁
      rw [Function.update_self] at hl
      rw [hheld k hold'] at hl'
      exact (hfree k hold' l hl' hl).2
    · exact absurd ((List.mem_singleton.mp hnew₁).trans (List.mem_singleton.mp hnew₂).symm) hne
  · rcases concat_eq_split horder with ⟨rfl, rfl, rfl⟩ | ⟨k', rfl, rfl⟩
    · cases hk
    · have hj : j ∈ l₁ ++ j :: k' := by simp
      rw [hheld j hj] at hl
      rcases List.mem_append.mp hk with hk | hk
      · exact h.last l₁ j k' rfl l hl k hk
      · obtain rfl := List.mem_singleton.mp hk
        intro hw
        exact (hfree j hj l hl (hsub hw)).2 hw

theorem read (h : Serialized prog writes m₀ order rest held mem) {l : L}
    {next : V l → Program L V R} (hrest : rest i = .read l next) (hl : l ∈ held i) :
    Serialized prog writes m₀ order (Function.update rest i (next (mem l))) held mem := by
  refine ⟨h.nodup, h.within, fun l₁ j l₂ horder => ?_, h.settled, h.exclusive, h.last⟩
  obtain ⟨m, hm, hrun⟩ := h.unfinished l₁ j l₂ horder
  refine ⟨m, hm, ?_⟩
  by_cases hj : j = i
  · subst hj
    rw [Function.update_self, ← hrun, hrest, Program.run_read, hm l hl]
  · rw [Function.update_of_ne hj, hrun]

theorem write (h : Serialized prog writes m₀ order rest held mem) (hi : i ∈ order) {l : L}
    {x : V l} {next : Program L V R} (hrest : rest i = .write l x next) (hl : l ∈ held i)
    (hw : l ∈ writes i) :
    Serialized prog writes m₀ order (Function.update rest i next) held
      (Function.update mem l x) := by
  refine ⟨h.nodup, h.within, fun l₁ j l₂ horder => ?_, fun l' hl' => ?_, h.exclusive, h.last⟩
  · obtain ⟨m, hm, hrun⟩ := h.unfinished l₁ j l₂ horder
    by_cases hj : j = i
    · subst hj
      refine ⟨Function.update m l x, fun l' hl' => ?_, ?_⟩
      · by_cases heq : l' = l
        · subst heq
          rw [Function.update_self, Function.update_self]
        · rw [Function.update_of_ne heq, Function.update_of_ne heq, hm l' hl']
      · rw [Function.update_self, ← hrun, hrest, Program.run_write]
    · refine ⟨m, fun l' hl' => ?_, by rw [Function.update_of_ne hj, hrun]⟩
      have hne : l' ≠ l := by
        rintro rfl
        exact h.exclusive i hi j (by simp [horder]) (Ne.symm hj) l' hl hl' hw
      rw [Function.update_of_ne hne, hm l' hl']
  · have hne : l' ≠ l := by
      rintro rfl
      exact hl' i hi hw hl
    rw [Function.update_of_ne hne, h.settled l' hl']

/-- A program gives back locations that it does not access any more. -/
theorem release (h : Serialized prog writes m₀ order rest held mem) (hi : i ∈ order)
    {kept uses' writes' : Set L} (hkept : kept ⊆ held i) (hrest : (rest i).Within uses' writes')
    (hdone : ∀ l ∈ held i, l ∉ kept → l ∉ writes') :
    Serialized prog writes m₀ order rest (Function.update held i kept) mem := by
  have hsub : ∀ j, Function.update held i kept j ⊆ held j := by
    intro j
    by_cases hj : j = i
    · subst hj
      rw [Function.update_self]
      exact hkept
    · rw [Function.update_of_ne hj]
  refine ⟨h.nodup, h.within, fun l₁ j l₂ horder => ?_, fun l hl => ?_,
    fun j hj k hk hne l hl hl' => h.exclusive j hj k hk hne l (hsub j hl) (hsub k hl'),
    fun l₁ j l₂ horder l hl => h.last l₁ j l₂ horder l (hsub j hl)⟩
  · obtain ⟨m, hm, hrun⟩ := h.unfinished l₁ j l₂ horder
    exact ⟨m, fun l hl => hm l (hsub j hl), hrun⟩
  · by_cases hback : l ∈ writes i ∧ l ∈ held i
    · -- what the program has left in the location is what it would leave on its own
      have hnot : l ∉ kept := by
        have := hl i hi hback.1
        rwa [Function.update_self] at this
      obtain ⟨l₁, l₂, horder⟩ := List.append_of_mem hi
      obtain ⟨m, hm, hrun⟩ := h.unfinished l₁ i l₂ horder
      have hlater : ∀ p ∈ l₂.map prog, ∀ m : (l : L) → V l, p.run m l = m l := by
        intro p hp m
        obtain ⟨j, hj, rfl⟩ := List.mem_map.mp hp
        obtain ⟨uses, hwithin⟩ := h.within j (by simp [horder, hj])
        exact hwithin.run_eq (h.last l₁ i l₂ horder l hback.2 j hj) m
      rw [horder, List.map_append, List.map_cons, Program.runAll_append, Program.runAll_cons,
        Program.runAll_eq hlater, ← hrun, hrest.run_eq (hdone l hback.2 hnot), hm l hback.2]
    · refine h.settled l fun j hj hw hheld => hl j hj hw ?_
      have hj : j ≠ i := by
        rintro rfl
        exact hback ⟨hw, hheld⟩
      rwa [Function.update_of_ne hj]

end Serialized

/-- One of the programs writes a location that the other one uses. -/
def Conflict (uses writes : ι → Set L) (i j : ι) : Prop :=
  ∃ l, l ∈ writes i ∧ l ∈ uses j ∨ l ∈ uses i ∧ l ∈ writes j

section Order
variable [LinearOrder ι] {prog : ι → Program L V R} {uses writes : ι → Set L} {order : List ι}

theorem runAll_orderedInsert (hwithin : ∀ i, (prog i).Within (uses i) (writes i))
    (hsub : ∀ i, writes i ⊆ uses i) {i : ι}
    (horder : ∀ j ∈ order, Conflict uses writes i j → i ≤ j) (m : (l : L) → V l) :
    Program.runAll ((order.orderedInsert (· ≤ ·) i).map prog) m =
      Program.runAll ((i :: order).map prog) m := by
  induction order generalizing m with
  | nil => rfl
  | cons j order ih =>
    rw [List.orderedInsert]
    split_ifs with hle
    · rfl
    · have hnot : ¬ Conflict uses writes i j := fun hc => hle (horder j List.mem_cons_self hc)
      have hcommute := (hwithin i).commute (hwithin j) (hsub i) (hsub j)
        (fun l hl hl' => hnot ⟨l, .inl ⟨hl, hl'⟩⟩) (fun l hl hl' => hnot ⟨l, .inr ⟨hl', hl⟩⟩) m
      rw [List.map_cons, Program.runAll_cons, ih fun k hk => horder k (List.mem_cons_of_mem _ hk)]
      simp only [List.map_cons, Program.runAll_cons]
      rw [hcommute]

/-- Programs in an order that keeps the conflicting ones in place, and in the sorted order. -/
theorem runAll_insertionSort (hwithin : ∀ i, (prog i).Within (uses i) (writes i))
    (hsub : ∀ i, writes i ⊆ uses i)
    (horder : order.Pairwise fun i j => Conflict uses writes i j → i ≤ j) (m : (l : L) → V l) :
    Program.runAll ((order.insertionSort (· ≤ ·)).map prog) m =
      Program.runAll (order.map prog) m := by
  induction order generalizing m with
  | nil => rfl
  | cons i order ih =>
    obtain ⟨hi, horder⟩ := List.pairwise_cons.mp horder
    rw [List.insertionSort_cons, runAll_orderedInsert hwithin hsub fun j hj =>
      hi j ((List.mem_insertionSort _).mp hj)]
    simp only [List.map_cons, Program.runAll_cons]
    exact ih horder _

end Order

section Parallel
variable [DecidableEq ι] {prog rest rest' : ι → Program L V R} {uses writes : ι → Set L}
  {m₀ mem mem' : (l : L) → V l}

/-- One access of one of the programs that run at the same time. -/
inductive ParallelStep : (ι → Program L V R) × ((l : L) → V l) →
    (ι → Program L V R) × ((l : L) → V l) → Prop
  | read (rest : ι → Program L V R) (mem : (l : L) → V l) (i : ι) (l : L)
      (next : V l → Program L V R) (hrest : rest i = .read l next) :
      ParallelStep (rest, mem) (Function.update rest i (next (mem l)), mem)
  | write (rest : ι → Program L V R) (mem : (l : L) → V l) (i : ι) (l : L) (x : V l)
      (next : Program L V R) (hrest : rest i = .write l x next) :
      ParallelStep (rest, mem) (Function.update rest i next, Function.update mem l x)

/-- Programs that do not use what another one writes can all start. -/
theorem Serialized.startAll (hwithin : ∀ i, (prog i).Within (uses i) (writes i))
    (hsub : ∀ i, writes i ⊆ uses i) (hdisjoint : ∀ i j, i ≠ j → ∀ l ∈ writes i, l ∉ uses j)
    (m₀ : (l : L) → V l) {order : List ι} (hnodup : order.Nodup) :
    Serialized prog writes m₀ order prog uses m₀ := by
  induction order using List.reverseRecOn with
  | nil => exact .empty prog writes m₀ prog uses
  | append_singleton order i ih =>
    rw [← List.concat_eq_append, List.nodup_concat] at hnodup
    have hne : ∀ j ∈ order, j ≠ i := fun j hj heq => hnodup.1 (heq ▸ hj)
    have h := (ih hnodup.2).start hnodup.1 (hwithin i) (hsub i) fun j hj l hl hl' =>
      ⟨fun hw => hdisjoint j i (hne j hj) l hw hl', fun hw => hdisjoint i j (hne j hj).symm l hw hl⟩
    simpa using h

/-- Programs that do not use what another one writes do the same at the same time as one after
another, in any order. -/
theorem parallel_eq (hwithin : ∀ i, (prog i).Within (uses i) (writes i))
    (hsub : ∀ i, writes i ⊆ uses i) (hdisjoint : ∀ i j, i ≠ j → ∀ l ∈ writes i, l ∉ uses j)
    {order : List ι} (hnodup : order.Nodup) (hall : ∀ i, i ∈ order) {k : ℕ}
    (h : Steps ParallelStep k (prog, m₀) (rest, mem)) (hdone : ∀ i, ∃ r, rest i = .pure r) :
    mem = Program.runAll (order.map prog) m₀ := by
  have hinv : Serialized prog writes m₀ order rest uses mem ∧
      ∀ i, (rest i).Within (uses i) (writes i) := by
    refine Steps.invariant (P := fun p => Serialized prog writes m₀ order p.1 uses p.2 ∧
      ∀ i, (p.1 i).Within (uses i) (writes i)) h
      ⟨.startAll hwithin hsub hdisjoint m₀ hnodup, hwithin⟩ ?_
    rintro p p' ⟨hserialized, hrest⟩ hstep
    cases hstep with
    | read rest mem i l next hnext =>
      have hi := hrest i
      dsimp only at hi
      rw [hnext] at hi
      refine ⟨hserialized.read hnext hi.1, fun j => ?_⟩
      by_cases hj : j = i
      · subst hj
        simpa using hi.2 (mem l)
      · simpa [hj] using hrest j
    | write rest mem i l x next hnext =>
      have hi := hrest i
      dsimp only at hi
      rw [hnext] at hi
      refine ⟨hserialized.write (hall i) hnext (hsub i hi.1) hi.1, fun j => ?_⟩
      by_cases hj : j = i
      · subst hj
        simpa using hi.2
      · simpa [hj] using hrest j
  obtain ⟨hserialized, -⟩ := hinv
  funext l
  by_cases hwritten : ∃ i, l ∈ writes i
  · obtain ⟨i, hi⟩ := hwritten
    obtain ⟨l₁, l₂, horder⟩ := List.append_of_mem (hall i)
    obtain ⟨m, hm, hrun⟩ := hserialized.unfinished l₁ i l₂ horder
    obtain ⟨r, hr⟩ := hdone i
    have hlater : ∀ p ∈ l₂.map prog, ∀ m : (l : L) → V l, p.run m l = m l := by
      intro p hp m
      obtain ⟨j, hj, rfl⟩ := List.mem_map.mp hp
      have hne : i ≠ j := by
        rintro rfl
        rw [horder] at hnodup
        exact (List.nodup_cons.mp (List.nodup_append.mp hnodup).2.1).1 hj
      exact (hwithin j).run_eq (fun hw => hdisjoint i j hne l hi (hsub j hw)) m
    rw [horder, List.map_append, List.map_cons, Program.runAll_append, Program.runAll_cons,
      Program.runAll_eq hlater, ← hrun, hr, hm l (hsub i hi)]
    rfl
  · exact hserialized.settled l fun i _ hi => absurd ⟨i, hi⟩ hwritten

/-- What uses a location that no other program writes leaves there what it leaves alone. -/
theorem parallel_eq_run (hwithin : ∀ i, (prog i).Within (uses i) (writes i))
    (hsub : ∀ i, writes i ⊆ uses i) (hdisjoint : ∀ i j, i ≠ j → ∀ l ∈ writes i, l ∉ uses j)
    {order : List ι} (hnodup : order.Nodup) (hall : ∀ i, i ∈ order) {k : ℕ}
    (h : Steps ParallelStep k (prog, m₀) (rest, mem)) (hdone : ∀ i, ∃ r, rest i = .pure r) {i : ι}
    {l : L} (hl : l ∈ uses i) : mem l = (prog i).run m₀ l := by
  obtain ⟨l₁, l₂, horder⟩ := List.append_of_mem (hall i)
  rw [horder, List.nodup_append, List.nodup_cons] at hnodup
  have hother : ∀ j, j ≠ i → ∀ l ∈ uses i, ∀ m : (l : L) → V l, (prog j).run m l = m l :=
    fun j hj l hl m => (hwithin j).run_eq (fun hw => hdisjoint j i hj l hw hl) m
  have hbefore : ∀ l ∈ uses i, Program.runAll (l₁.map prog) m₀ l = m₀ l := fun l hl => by
    refine Program.runAll_eq (fun p hp m => ?_) m₀
    obtain ⟨j, hj, rfl⟩ := List.mem_map.mp hp
    exact hother j (hnodup.2.2 j hj i List.mem_cons_self) l hl m
  have hafter : ∀ p ∈ l₂.map prog, ∀ m : (l : L) → V l, p.run m l = m l := fun p hp m => by
    obtain ⟨j, hj, rfl⟩ := List.mem_map.mp hp
    exact hother j (fun heq => hnodup.2.1.1 (heq ▸ hj)) l hl m
  have hnodup' : order.Nodup := by
    rw [horder, List.nodup_append, List.nodup_cons]
    exact hnodup
  rw [parallel_eq hwithin hsub hdisjoint hnodup' hall h hdone, horder, List.map_append,
    List.map_cons, Program.runAll_append, Program.runAll_cons, Program.runAll_eq hafter]
  exact ((hwithin i).exec_congr subset_rfl hbefore).2 l hl

/-- Programs that cannot go on are done. -/
theorem done_of_stuck (h : ∀ p, ¬ ParallelStep (rest, mem) p) (i : ι) : ∃ r, rest i = .pure r := by
  cases hi : rest i with
  | pure r => exact ⟨r, rfl⟩
  | read l next => exact absurd (.read rest mem i l next hi) (h _)
  | write l x next => exact absurd (.write rest mem i l x next hi) (h _)

/-- Every run of finitely many programs ends. -/
theorem parallelStep_wellFounded [Finite ι] :
    WellFounded fun p p' : (ι → Program L V R) × ((l : L) → V l) => ParallelStep p' p := by
  have hlex : WellFounded (Pi.Lex (WellOrderingRel : ι → ι → Prop)
      fun {_} => Program.Behind (L := L) (V := V) (R := R)) :=
    Pi.Lex.wellFounded _ fun _ => Program.behind_wellFounded
  refine (InvImage.wf Prod.fst hlex).mono ?_
  rintro p p' h
  cases h with
  | read rest mem i l next hnext =>
    refine ⟨i, fun j hj => Function.update_of_ne (fun heq => ?_) _ _, ?_⟩
    · exact irrefl_of WellOrderingRel i (heq ▸ hj)
    · dsimp only
      rw [Function.update_self, hnext]
      exact ⟨_, rfl⟩
  | write rest mem i l x next hnext =>
    refine ⟨i, fun j hj => Function.update_of_ne (fun heq => ?_) _ _, ?_⟩
    · exact irrefl_of WellOrderingRel i (heq ▸ hj)
    · dsimp only
      rw [Function.update_self, hnext]
      rfl

theorem exists_stuck [Finite ι] (p₀ : (ι → Program L V R) × ((l : L) → V l)) :
    ∃ k p, Steps ParallelStep k p₀ p ∧ ∀ p', ¬ ParallelStep p p' := by
  obtain ⟨p, ⟨k, h⟩, hmin⟩ := parallelStep_wellFounded.has_min
    (fun p => ∃ k, Steps ParallelStep k p₀ p) ⟨p₀, 0, .refl p₀⟩
  exact ⟨k, p, h, fun p' hp' => hmin p' ⟨k + 1, h.tail hp'⟩ hp'⟩

end Parallel

end Serialization

end NetStorm

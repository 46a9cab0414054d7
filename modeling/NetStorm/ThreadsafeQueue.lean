import NetStorm.Message
import NetStorm.Library.BinaryHeap
import Mathlib.Algebra.Order.Ring.Int
import Mathlib.Data.Option.Basic

/-!
# The message queue

`ThreadsafeQueue` keeps messages in a heap by their priorities. A call holds the lock from its
beginning to its end, so that a run is a sequence of calls. `Compare` lets a message pass those
of the same priority, and a heap keeps no order among these: the queue is first-in first-out
only as long as a message that is popped has its priority for itself.
-/
namespace NetStorm
open BinaryHeap

variable {V : Type}

/-- `Compare`. -/
def comparePriority (l r : Message V) : Bool := decide (l.priority ≤ r.priority)

theorem comparePriority_compares :
    Compares (fun l r : Message V => l.priority ≤ r.priority) comparePriority where
  refl _ := le_rfl
  trans _ _ _ := le_trans
  below _ _ h := of_decide_eq_true h
  above _ _ h := (not_le.mp (of_decide_eq_false h)).le

/-- `ThreadsafeQueue`. -/
structure ThreadsafeQueue (V : Type) where
  queue : PriorityQueue fun l r : Message V => l.priority ≤ r.priority

/-- The calls that change a queue. -/
inductive QueueCall (V : Type)
  | push (newValue : Message V)
  | queuePush (newValue : Message V)
  | waitAndPop
  | waitAndPop2

/-- The message that a call puts in the queue. -/
def QueueCall.pushed : QueueCall V → List (Message V)
  | .push m | .queuePush m => [m]
  | .waitAndPop | .waitAndPop2 => []

namespace ThreadsafeQueue

def init : ThreadsafeQueue V := ⟨.empty⟩

/-- The messages in the queue. -/
def contents (q : ThreadsafeQueue V) : List (Message V) := q.queue.contents

/-- `Push`. -/
def push (q : ThreadsafeQueue V) (newValue : Message V) : ThreadsafeQueue V :=
  ⟨q.queue.push comparePriority_compares newValue⟩

/-- `WaitAndPop`, which returns when the queue is not empty. -/
def waitAndPop (q : ThreadsafeQueue V) : Option (Message V × ThreadsafeQueue V) :=
  (q.queue.pop comparePriority_compares).map fun r => (r.1, ⟨r.2⟩)

/-- `QueuePush`. -/
def queuePush (q : ThreadsafeQueue V) (newValue : Message V) : ThreadsafeQueue V :=
  ⟨q.queue.push comparePriority_compares newValue⟩

/-- `WaitAndPop2`, which does not wait and is not defined for an empty queue. -/
def waitAndPop2 (q : ThreadsafeQueue V) : Option (Message V × ThreadsafeQueue V) :=
  (q.queue.pop comparePriority_compares).map fun r => (r.1, ⟨r.2⟩)

/-- `top`, which an empty queue does not have. -/
def top (q : ThreadsafeQueue V) : Option (Message V) := q.queue.top

/-- A call with the message that it returns. -/
def call (q : ThreadsafeQueue V) : QueueCall V → Option (List (Message V) × ThreadsafeQueue V)
  | .push m => some ([], q.push m)
  | .queuePush m => some ([], q.queuePush m)
  | .waitAndPop => q.waitAndPop.map fun r => ([r.1], r.2)
  | .waitAndPop2 => q.waitAndPop2.map fun r => ([r.1], r.2)

end ThreadsafeQueue

/-- The first message of the highest priority. -/
def firstHighest (waiting : List (Message V)) : Option (Message V) :=
  waiting.find? fun m => waiting.all fun x => decide (x.priority ≤ m.priority)

section Order
variable [DecidableEq V]

/-- What a call is for, on the messages waiting in the order of their pushes: a pop takes the
first one of the highest priority. -/
def callInOrder (waiting : List (Message V)) :
    QueueCall V → Option (List (Message V) × List (Message V))
  | .push m | .queuePush m => some ([], waiting ++ [m])
  | .waitAndPop | .waitAndPop2 =>
    (firstHighest waiting).map fun m => ([m], waiting.erase m)

/-- Only one message has the highest priority. -/
def Untied (waiting : List (Message V)) : Prop :=
  ∀ m ∈ firstHighest waiting, ∀ x ∈ waiting.erase m, x.priority < m.priority

/-- Only one message has the highest priority whenever a message is popped. -/
def UntiedRun : List (Message V) → List (QueueCall V) → Prop
  | _, [] => True
  | waiting, c :: cs => (c.pushed = [] → Untied waiting) ∧
    ∀ r ∈ callInOrder waiting c, UntiedRun r.2 cs

end Order

/-- The messages that a sequence of calls returns, and the state behind it. -/
def runCalls {σ : Type} (call : σ → QueueCall V → Option (List (Message V) × σ)) :
    σ → List (QueueCall V) → Option (List (Message V) × σ)
  | s, [] => some ([], s)
  | s, c :: cs => do
    let (m, s) ← call s c
    let (ms, s) ← runCalls call s cs
    some (m ++ ms, s)

/-- The messages that a sequence of calls returns. -/
def returned {σ : Type} (call : σ → QueueCall V → Option (List (Message V) × σ)) (s : σ)
    (cs : List (QueueCall V)) : Option (List (Message V)) :=
  (runCalls call s cs).map Prod.fst

theorem runCalls_cons {σ : Type} (call : σ → QueueCall V → Option (List (Message V) × σ)) (s : σ)
    (c : QueueCall V) (cs : List (QueueCall V)) :
    runCalls call s (c :: cs) = (call s c).bind fun r =>
      (runCalls call r.2 cs).map fun r' => (r.1 ++ r'.1, r'.2) := by
  rw [runCalls]
  cases call s c with
  | none => rfl
  | some r => cases h : runCalls call r.2 cs <;> simp [h]

theorem returned_cons {σ : Type} (call : σ → QueueCall V → Option (List (Message V) × σ)) (s : σ)
    (c : QueueCall V) (cs : List (QueueCall V)) :
    returned call s (c :: cs) = (call s c).bind fun r =>
      (returned call r.2 cs).map fun ms => r.1 ++ ms := by
  rw [returned, runCalls_cons, Option.map_bind]
  simp only [returned, Function.comp_def, Option.map_map]

/-- What two queues return by a pop and after it agrees when both agree. -/
theorem eq_of_map_cons_eq {a b : Message V} {x y : Option (List (Message V))} (hx : x.isSome)
    (h : x.map (fun ms => [a] ++ ms) = y.map fun ms => [b] ++ ms) : a = b ∧ x = y := by
  obtain ⟨ms, rfl⟩ := Option.isSome_iff_exists.mp hx
  obtain ⟨ms', rfl, heq⟩ := Option.map_eq_some_iff.mp h.symm
  obtain ⟨rfl, rfl⟩ := List.cons.inj heq
  exact ⟨rfl, rfl⟩

namespace ThreadsafeQueue
variable {q q' : ThreadsafeQueue V} {m : Message V}

theorem contents_push (q : ThreadsafeQueue V) (m : Message V) :
    (q.push m).contents.Perm (q.contents ++ [m]) :=
  PriorityQueue.contents_push comparePriority_compares q.queue m

theorem waitAndPop_eq_none : q.waitAndPop = none ↔ q.contents = [] := by
  rw [waitAndPop, Option.map_eq_none_iff]
  exact PriorityQueue.pop_eq_none_iff

/-- A pop returns the top, which is of the highest priority, and leaves the other messages. -/
theorem waitAndPop_spec (h : q.waitAndPop = some (m, q')) :
    q.top = some m ∧ (∀ x ∈ q.contents, x.priority ≤ m.priority) ∧
      q.contents.Perm (m :: q'.contents) := by
  obtain ⟨r, hr, heq⟩ := Option.map_eq_some_iff.mp h
  obtain ⟨rfl, rfl⟩ := Prod.mk.inj heq
  exact PriorityQueue.pop_spec hr

/-- A message of the highest priority passes all that wait. -/
theorem top_push (h : ∀ x ∈ q.contents, x.priority ≤ m.priority) : (q.push m).top = some m :=
  PriorityQueue.top_push comparePriority_compares (fun _ _ hle => decide_eq_true hle) h

theorem top_eq_none (h : q.contents = []) : q.top = none := by
  rw [top, PriorityQueue.top, ← Vector.getElem?_toList]
  exact List.getElem?_eq_none (List.length_eq_zero_iff.mpr h).le

theorem returned_push (q : ThreadsafeQueue V) (m : Message V) (cs : List (QueueCall V)) :
    returned call q (.push m :: cs) = returned call (q.push m) cs := by
  rw [returned_cons, call, Option.bind_some]
  simp only [List.nil_append, Option.map_id']

theorem returned_of_top (h : q.top = some m) : returned call q [.waitAndPop] = some [m] := by
  rw [returned_cons, call]
  cases hq : q.waitAndPop with
  | none =>
    rw [top_eq_none (waitAndPop_eq_none.mp hq)] at h
    exact absurd h.symm (Option.some_ne_none m)
  | some r =>
    obtain rfl := Option.some.inj ((waitAndPop_spec hq).1.symm.trans h)
    rfl

end ThreadsafeQueue

/-- A call puts a message in or takes one out. -/
theorem QueueCall.cases [DecidableEq V] (c : QueueCall V) :
    (∃ m, c.pushed = [m] ∧ (∀ q : ThreadsafeQueue V, q.call c = some ([], q.push m)) ∧
      ∀ waiting, callInOrder waiting c = some ([], waiting ++ [m])) ∨
    c.pushed = [] ∧
      (∀ q : ThreadsafeQueue V, q.call c = q.waitAndPop.map fun r => ([r.1], r.2)) ∧
      ∀ waiting, callInOrder waiting c =
        (firstHighest waiting).map fun m => ([m], waiting.erase m) := by
  cases c with
  | push m => exact .inl ⟨m, rfl, fun _ => rfl, fun _ => rfl⟩
  | queuePush m => exact .inl ⟨m, rfl, fun _ => rfl, fun _ => rfl⟩
  | waitAndPop => exact .inr ⟨rfl, fun _ => rfl, fun _ => rfl⟩
  | waitAndPop2 => exact .inr ⟨rfl, fun _ => rfl, fun _ => rfl⟩

theorem firstHighest_isSome {waiting : List (Message V)} {m : Message V} (hm : m ∈ waiting)
    (hmax : ∀ x ∈ waiting, x.priority ≤ m.priority) : (firstHighest waiting).isSome :=
  List.find?_isSome.mpr ⟨m, hm, List.all_eq_true.mpr fun x hx => decide_eq_true (hmax x hx)⟩

/-- Those before the first message of the highest priority have lower ones. -/
theorem exists_split_of_firstHighest [DecidableEq V] {waiting : List (Message V)} {m : Message V}
    (h : firstHighest waiting = some m) :
    ∃ l₁ l₂, waiting = l₁ ++ m :: l₂ ∧ waiting.erase m = l₁ ++ l₂ ∧
      (∀ x ∈ l₁, x.priority < m.priority) ∧ ∀ x ∈ l₂, x.priority ≤ m.priority := by
  obtain ⟨hmax, l₁, l₂, hsplit, hbefore⟩ := List.find?_eq_some_iff_append.mp h
  have hmax : ∀ x ∈ waiting, x.priority ≤ m.priority := fun x hx =>
    of_decide_eq_true (List.all_eq_true.mp hmax x hx)
  have hlow : ∀ x ∈ l₁, x.priority < m.priority := by
    intro x hx
    by_contra hge
    have hall : (waiting.all fun y => decide (y.priority ≤ x.priority)) = true :=
      List.all_eq_true.mpr fun y hy => decide_eq_true ((hmax y hy).trans (not_lt.mp hge))
    simpa [hall] using hbefore x hx
  have hnew : m ∉ l₁ := fun hm => absurd (hlow m hm) (lt_irrefl _)
  refine ⟨l₁, l₂, hsplit, ?_, hlow, fun x hx => hmax x (by simp [hsplit, hx])⟩
  rw [hsplit, List.erase_append_right _ hnew, List.erase_cons_head]

namespace ThreadsafeQueue
variable [DecidableEq V] {q q' : ThreadsafeQueue V} {m : Message V} {waiting : List (Message V)}
  {cs : List (QueueCall V)}

/-- Whatever is pushed is returned once or still there. -/
theorem contents_of_run {out : List (Message V)} (h : runCalls call q cs = some (out, q')) :
    (q.contents ++ cs.flatMap QueueCall.pushed).Perm (out ++ q'.contents) := by
  induction cs generalizing q out with
  | nil =>
    obtain ⟨rfl, rfl⟩ := Prod.mk.inj (Option.some.inj h)
    rw [List.flatMap_nil, List.append_nil]
    exact .refl _
  | cons c cs ih =>
    rw [runCalls_cons, Option.bind_eq_some_iff] at h
    obtain ⟨⟨out₁, q₁⟩, hcall, h⟩ := h
    obtain ⟨⟨out₂, q₂⟩, hrun, heq⟩ := Option.map_eq_some_iff.mp h
    obtain ⟨rfl, rfl⟩ := Prod.mk.inj heq
    have hperm := ih hrun
    rw [List.flatMap_cons]
    obtain ⟨m, hpushed, hpush, -⟩ | ⟨hpushed, hpop, -⟩ := c.cases
    · obtain ⟨rfl, rfl⟩ := Prod.mk.inj (Option.some.inj ((hpush q).symm.trans hcall))
      rw [hpushed, ← List.append_assoc, List.nil_append]
      exact ((contents_push q m).symm.append_right _).trans hperm
    · rw [hpop] at hcall
      obtain ⟨⟨m, q₁'⟩, hpop, heq⟩ := Option.map_eq_some_iff.mp hcall
      obtain ⟨rfl, rfl⟩ := Prod.mk.inj heq
      rw [hpushed, List.nil_append]
      exact ((waitAndPop_spec hpop).2.2.append_right _).trans (hperm.cons m)

/-- The only message of the highest priority is the one that a pop returns. -/
theorem firstHighest_of_waitAndPop (hperm : q.contents.Perm waiting)
    (hpop : q.waitAndPop = some (m, q')) (huntied : Untied waiting) :
    firstHighest waiting = some m := by
  obtain ⟨-, hmax, hcons⟩ := waitAndPop_spec hpop
  have hm : m ∈ waiting := hperm.mem_iff.mp (hcons.mem_iff.mpr List.mem_cons_self)
  have hsome := firstHighest_isSome hm fun x hx => hmax x (hperm.mem_iff.mpr hx)
  obtain ⟨a, hfirst⟩ := Option.isSome_iff_exists.mp hsome
  rw [hfirst]
  by_contra hne
  have hrest : m ∈ waiting.erase a :=
    (List.mem_erase_of_ne fun h => hne (congrArg some h.symm)).mpr hm
  have hlt := huntied a hfirst m hrest
  exact absurd (hmax a (hperm.mem_iff.mpr (List.mem_of_find?_eq_some hfirst))) (not_le.mpr hlt)

theorem contents_of_waitAndPop (hperm : q.contents.Perm waiting)
    (hpop : q.waitAndPop = some (m, q')) : q'.contents.Perm (waiting.erase m) := by
  have h := ((waitAndPop_spec hpop).2.2.symm.trans hperm).erase m
  rwa [List.erase_cons_head] at h

/-- As long as there are no ties the messages come in the order of their priorities and
pushes. -/
theorem returned_eq_inOrder (hperm : q.contents.Perm waiting) (h : UntiedRun waiting cs) :
    returned call q cs = returned callInOrder waiting cs := by
  induction cs generalizing q waiting with
  | nil => rfl
  | cons c cs ih =>
    obtain ⟨huntied, hrest⟩ := h
    rw [returned_cons, returned_cons]
    obtain ⟨m, -, hpush, horder⟩ | ⟨hpushed, hpop, horder⟩ := c.cases
    · rw [hpush, horder, Option.bind_some, Option.bind_some]
      rw [ih ((contents_push q m).trans (hperm.append_right _)) (hrest _ (horder waiting))]
    · rw [hpop, horder]
      cases hq : q.waitAndPop with
      | none =>
        obtain rfl : waiting = [] := (waitAndPop_eq_none.mp hq ▸ hperm).nil_eq.symm
        rfl
      | some r =>
        obtain ⟨m, q'⟩ := r
        have hfirst := firstHighest_of_waitAndPop hperm hq (huntied hpushed)
        have horder := horder waiting
        rw [hfirst] at horder ⊢
        simp only [Option.map_some, Option.bind_some]
        rw [ih (contents_of_waitAndPop hperm hq) (hrest _ horder)]

/-- The first of distinct messages with one priority is only the last when it is alone. -/
theorem eq_singleton_of_firstHighest {p : ℤ} (hp : ∀ x ∈ waiting, x.priority = p)
    (hnodup : waiting.Nodup) (hlast : waiting.getLast? = some m)
    (hfirst : firstHighest waiting = some m) : waiting = [m] := by
  obtain ⟨l₁, l₂, rfl, -, hlow, -⟩ := exists_split_of_firstHighest hfirst
  obtain rfl : l₁ = [] := List.eq_nil_iff_forall_not_mem.mpr fun x hx =>
    absurd ((hp x (by simp [hx])).trans (hp m (by simp)).symm) (hlow x hx).ne
  rcases List.eq_nil_or_concat' l₂ with rfl | ⟨l, a, rfl⟩
  · rfl
  · rw [List.nil_append, ← List.cons_append, List.getLast?_concat] at hlast
    obtain rfl := Option.some.inj hlast
    simp at hnodup

/-- The pop of the only message is no tie. -/
theorem untiedRun_singleton {c : QueueCall V}
    (horder : callInOrder [m] c = (firstHighest [m]).map fun a => ([a], [m].erase a))
    (h : UntiedRun [] cs) : UntiedRun [m] (c :: cs) := by
  have hfirst : firstHighest [m] = some m := by simp [firstHighest]
  refine ⟨fun _ a ha x hx => ?_, fun r hr => ?_⟩
  · obtain rfl := Option.some.inj (hfirst.symm.trans ha)
    rw [List.erase_cons_head] at hx
    exact absurd hx List.not_mem_nil
  · rw [hfirst, Option.map_some, List.erase_cons_head] at horder
    obtain rfl := Option.some.inj (horder.symm.trans hr)
    exact h

/-- When all messages have one priority, the top is the last one that was pushed, or the only
one: the first pop of a tie is out of order. -/
theorem untiedRun_of_returned_eq {p : ℤ} (hperm : q.contents.Perm waiting)
    (htop : q.top = waiting.getLast?) (hnodup : (waiting ++ cs.flatMap QueueCall.pushed).Nodup)
    (hp : ∀ m ∈ waiting ++ cs.flatMap QueueCall.pushed, m.priority = p)
    (hrun : (returned call q cs).isSome)
    (heq : returned call q cs = returned callInOrder waiting cs) : UntiedRun waiting cs := by
  induction cs generalizing q waiting with
  | nil => trivial
  | cons c cs ih =>
    rw [returned_cons] at hrun
    rw [returned_cons, returned_cons] at heq
    rw [List.flatMap_cons] at hnodup hp
    obtain ⟨m, hpushed, hpush, horder⟩ | ⟨hpushed, hpop, horder⟩ := c.cases
    · rw [hpushed, ← List.append_assoc] at hnodup hp
      simp only [hpush, horder, Option.bind_some, List.nil_append, Option.map_id'] at hrun heq
      refine ⟨fun h => absurd (hpushed.symm.trans h) (List.cons_ne_nil _ _), fun r hr => ?_⟩
      obtain rfl := Option.some.inj ((horder waiting).symm.trans hr)
      refine ih ((contents_push q m).trans (hperm.append_right _)) ?_ hnodup hp hrun heq
      rw [List.getLast?_concat]
      refine top_push fun x hx => (?_ : x.priority = m.priority).le
      rw [hp x (by simp [hperm.mem_iff.mp hx]), hp m (by simp)]
    · rw [hpushed, List.nil_append] at hnodup hp
      rw [hpop] at hrun heq
      rw [horder] at heq
      cases hq : q.waitAndPop with
      | none =>
        rw [hq] at hrun
        exact absurd hrun Bool.false_ne_true
      | some r =>
        obtain ⟨m, q'⟩ := r
        obtain ⟨htop', hmax, hcons⟩ := waitAndPop_spec hq
        have hm : m ∈ waiting := hperm.mem_iff.mp (hcons.mem_iff.mpr List.mem_cons_self)
        obtain ⟨a, hfirst⟩ := Option.isSome_iff_exists.mp
          (firstHighest_isSome hm fun x hx => hmax x (hperm.mem_iff.mpr hx))
        simp only [hq, hfirst, Option.map_some, Option.bind_some, Option.isSome_map] at hrun heq
        obtain ⟨rfl, heq⟩ := eq_of_map_cons_eq hrun heq
        obtain rfl := eq_singleton_of_firstHighest
          (fun x hx => hp x (List.mem_append_left _ hx)) (List.nodup_append.mp hnodup).1
          (htop ▸ htop') hfirst
        have hempty := contents_of_waitAndPop hperm hq
        rw [List.erase_cons_head] at hempty heq
        exact untiedRun_singleton (horder [m]) (ih hempty (top_eq_none hempty.eq_nil)
          (List.nodup_append.mp hnodup).2.1 (fun x hx => hp x (List.mem_append_right _ hx)) hrun
          heq)

end ThreadsafeQueue

/-- In every run a pop returns a message of the highest priority, and what is pushed is returned
once or still there. In a run without ties the messages of one priority come in the order of
their pushes. Of the runs with a single priority these are the only ones in order. -/
theorem threadsafeQueue_in_order [DecidableEq V] (calls : List (QueueCall V)) :
    (∀ (q : ThreadsafeQueue V) m q', q.waitAndPop = some (m, q') → m ∈ q.contents ∧
      (∀ x ∈ q.contents, x.priority ≤ m.priority) ∧ q.contents.Perm (m :: q'.contents)) ∧
    (∀ out q, runCalls ThreadsafeQueue.call .init calls = some (out, q) →
      (calls.flatMap QueueCall.pushed).Perm (out ++ q.contents)) ∧
    (UntiedRun [] calls →
      returned ThreadsafeQueue.call .init calls = returned callInOrder [] calls) ∧
    ∀ p, (∀ m ∈ calls.flatMap QueueCall.pushed, m.priority = p) →
      (calls.flatMap QueueCall.pushed).Nodup →
      (returned ThreadsafeQueue.call .init calls).isSome →
      (returned ThreadsafeQueue.call .init calls = returned callInOrder [] calls ↔
        UntiedRun [] calls) := by
  refine ⟨fun q m q' h => ?_, fun out q h => ThreadsafeQueue.contents_of_run h,
    ThreadsafeQueue.returned_eq_inOrder (.refl _), fun p hp hnodup hrun => ⟨fun h => ?_,
      ThreadsafeQueue.returned_eq_inOrder (.refl _)⟩⟩
  · obtain ⟨-, hmax, hperm⟩ := ThreadsafeQueue.waitAndPop_spec h
    exact ⟨hperm.mem_iff.mpr List.mem_cons_self, hmax, hperm⟩
  · exact ThreadsafeQueue.untiedRun_of_returned_eq (.refl _) rfl hnodup hp hrun h

/-- The second of two messages with one priority is popped first. -/
theorem not_threadsafeQueue_in_order_pair :
    returned ThreadsafeQueue.call .init
      [.push { timestamp := 1 }, .push { timestamp := 2 }, .waitAndPop] =
        some [({ timestamp := 2 } : Message Unit)] ∧
    returned callInOrder [] [.push { timestamp := 1 }, .push { timestamp := 2 }, .waitAndPop] =
      some [({ timestamp := 1 } : Message Unit)] := by
  constructor
  · rw [ThreadsafeQueue.returned_push, ThreadsafeQueue.returned_push]
    refine ThreadsafeQueue.returned_of_top (ThreadsafeQueue.top_push fun x hx => ?_)
    have hx := (ThreadsafeQueue.contents_push .init _).mem_iff.mp hx
    rw [List.mem_singleton.mp hx]
  · decide

end NetStorm

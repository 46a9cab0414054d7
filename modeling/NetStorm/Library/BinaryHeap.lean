import Mathlib.Data.List.Perm.Basic
import Mathlib.Data.Nat.Init

/-!
# Binary heaps with a hole

`push_heap` and `pop_heap` of the C++ library, as libstdc++ has them. They do not swap, but move
a hole to where the value belongs. The order is a total preorder `le`. The comparison tells
whether its first argument may go below the second, and may do so for equal elements or not.
-/
namespace NetStorm.BinaryHeap
variable {α : Type*} {n : ℕ}

section Definitions
variable (comp : α → α → Bool) (value : α)

/-- `__push_heap` from the top index `0`: the hole goes up, then takes the value. -/
def pushHeap (first : Vector α n) (hole : ℕ) (h : hole < n) : Vector α n :=
  if 0 < hole ∧ comp first[(hole - 1) / 2] value then
    pushHeap (first.set hole first[(hole - 1) / 2]) ((hole - 1) / 2) (by omega)
  else first.set hole value
termination_by hole

/-- `__adjust_heap`: the hole goes down to a leaf, past the children that are not below their
siblings, and the value goes up from there. -/
def adjustHeap (first : Vector α n) (hole : ℕ) (h : hole < n) : Vector α n :=
  if hloop : hole < (n - 1) / 2 then
    if comp first[2 * (hole + 1)] first[2 * (hole + 1) - 1] then
      adjustHeap (first.set hole first[2 * (hole + 1) - 1]) (2 * (hole + 1) - 1) (by omega)
    else adjustHeap (first.set hole first[2 * (hole + 1)]) (2 * (hole + 1)) (by omega)
  else if hlast : n % 2 = 0 ∧ hole = (n - 2) / 2 then
    pushHeap comp value (first.set hole first[2 * (hole + 1) - 1]) (2 * (hole + 1) - 1) (by omega)
  else pushHeap comp value first hole h
termination_by n - hole

end Definitions

/-- The position `i` is below `j` in the tree. -/
def IsChild (i j : ℕ) : Prop := 0 < i ∧ (i - 1) / 2 = j

theorem IsChild.lt {i j : ℕ} (h : IsChild i j) : j < i := by
  obtain ⟨hpos, rfl⟩ := h
  omega

section Order
variable (le : α → α → Prop)

/-- No element is above its parent. -/
def IsHeap (v : Vector α n) : Prop :=
  ∀ i j (hi : i < n) (hj : j < n), IsChild i j → le v[i] v[j]

/-- A heap apart from a hole: the order holds beside the hole and across it. -/
structure Hole (first : Vector α n) (hole : ℕ) : Prop where
  beside : ∀ i j (hi : i < n) (hj : j < n), IsChild i j → i ≠ hole → j ≠ hole →
    le first[i] first[j]
  across : ∀ i j (hi : i < n) (hj : j < n), IsChild i hole → IsChild hole j →
    le first[i] first[j]

/-- The children of the hole are not above the value. -/
def Below (first : Vector α n) (hole : ℕ) (value : α) : Prop :=
  ∀ i (hi : i < n), IsChild i hole → le first[i] value

/-- The comparison goes by the order. What it says of equal elements is left open. -/
structure Compares (comp : α → α → Bool) : Prop where
  refl : ∀ a, le a a
  trans : ∀ a b c, le a b → le b c → le a c
  below : ∀ a b, comp a b = true → le a b
  above : ∀ a b, comp a b = false → le b a

variable {le} {first v : Vector α n} {hole : ℕ} {value : α} {comp : α → α → Bool}

/-- Nothing in a heap is above the root. -/
theorem IsHeap.le_root (hcomp : Compares le comp) (h : IsHeap le v) (i : ℕ) (hi : i < n) :
    le v[i] v[0] := by
  induction i using Nat.strong_induction_on with
  | _ i ih =>
    rcases Nat.eq_zero_or_pos i with rfl | hpos
    · exact hcomp.refl _
    · have hparent := h i ((i - 1) / 2) hi (by omega) ⟨hpos, rfl⟩
      exact hcomp.trans _ _ _ hparent (ih _ (by omega) (by omega))

/-- The hole goes up. -/
theorem Hole.up (hcomp : Compares le comp) (h : Hole le first hole) (hhole : hole < n) {p : ℕ}
    (hp : IsChild hole p) (hpn : p < n) : Hole le (first.set hole first[p]) p := by
  have hlt := hp.lt
  constructor
  · intro i j hi hj hchild hip hjp
    have hij := hchild.lt
    have hih : hole ≠ i := fun heq => hjp (by rw [← hchild.2, ← heq, hp.2])
    rw [Vector.getElem_set_ne hhole hi hih, Vector.getElem_set]
    split_ifs with hj'
    · subst hj'
      exact h.across i p hi hpn hchild hp
    · exact h.beside i j hi hj hchild (Ne.symm hih) (Ne.symm hj')
  · intro i j hi hj hchild hchild'
    have hjp := hchild'.lt
    have habove := h.beside p j hpn hj hchild' (by omega) (by omega)
    rw [Vector.getElem_set_ne hhole hj (by omega), Vector.getElem_set]
    split_ifs with hi'
    · exact habove
    · have hparent := h.beside i p hi hpn hchild (Ne.symm hi') (by omega)
      exact hcomp.trans _ _ _ hparent habove

theorem Hole.below_up (hcomp : Compares le comp) (h : Hole le first hole) (hhole : hole < n)
    {p : ℕ} (hp : IsChild hole p) (hpn : p < n) (hle : le first[p] value) :
    Below le (first.set hole first[p]) p value := by
  have hlt := hp.lt
  intro i hi hchild
  rw [Vector.getElem_set]
  split_ifs with hi'
  · exact hle
  · have hparent := h.beside i p hi hpn hchild (Ne.symm hi') (by omega)
    exact hcomp.trans _ _ _ hparent hle

/-- The hole goes down, where its highest child was. -/
theorem Hole.down (h : Hole le first hole) (hhole : hole < n) {c : ℕ} (hc : IsChild c hole)
    (hcn : c < n) (hmax : ∀ i (hi : i < n), IsChild i hole → le first[i] first[c]) :
    Hole le (first.set hole first[c]) c := by
  have hlt := hc.lt
  constructor
  · intro i j hi hj hchild hic hjc
    have hij := hchild.lt
    rw [Vector.getElem_set, Vector.getElem_set]
    split_ifs with hi' hj' hj'
    · omega
    · subst hi'
      exact h.across c j hcn hj hc hchild
    · subst hj'
      exact hmax i hi hchild
    · exact h.beside i j hi hj hchild (Ne.symm hi') (Ne.symm hj')
  · intro i j hi hj hchild hchild'
    obtain rfl : hole = j := hc.2.symm.trans hchild'.2
    have hci := hchild.lt
    rw [Vector.getElem_set_ne hhole hi (by omega), Vector.getElem_set_self]
    exact h.beside i c hi hcn hchild (by omega) (by omega)

/-- The value is put in the hole. -/
theorem Hole.fill (h : Hole le first hole) (hhole : hole < n) (hbelow : Below le first hole value)
    (habove : ∀ p (hp : p < n), IsChild hole p → le value first[p]) :
    IsHeap le (first.set hole value) := by
  intro i j hi hj hchild
  have hij := hchild.lt
  rw [Vector.getElem_set, Vector.getElem_set]
  split_ifs with hi' hj' hj'
  · omega
  · subst hi'
    exact habove j hj hchild
  · subst hj'
    exact hbelow i hi hchild
  · exact h.beside i j hi hj hchild (Ne.symm hi') (Ne.symm hj')

theorem pushHeap_isHeap (hcomp : Compares le comp) (hhole : hole < n)
    (h : Hole le first hole) (hbelow : Below le first hole value) :
    IsHeap le (pushHeap comp value first hole hhole) := by
  induction hole using Nat.strong_induction_on generalizing first with
  | _ hole ih =>
    rw [pushHeap]
    split_ifs with hup
    · have hp : IsChild hole ((hole - 1) / 2) := ⟨hup.1, rfl⟩
      have hle := hcomp.below _ _ hup.2
      exact ih _ hp.lt _ (h.up hcomp hhole hp _) (h.below_up hcomp hhole hp _ hle)
    · refine h.fill hhole hbelow fun p hp hchild => ?_
      obtain ⟨hpos, rfl⟩ := hchild
      exact hcomp.above _ _ (eq_false_of_ne_true fun hc => hup ⟨hpos, hc⟩)

/-- A hole at a leaf has no children. -/
theorem below_of_leaf (hleaf : n ≤ 2 * hole + 1) : Below le first hole value := by
  rintro i hi ⟨hpos, rfl⟩
  omega

theorem adjustHeap_isHeap (hcomp : Compares le comp) (hhole : hole < n)
    (h : Hole le first hole) : IsHeap le (adjustHeap comp value first hole hhole) := by
  induction hm : n - hole using Nat.strong_induction_on generalizing first hole with
  | _ m ih =>
    rw [adjustHeap]
    split_ifs with hloop hright hlast
    · refine ih _ (by omega) _ (h.down hhole ⟨by omega, by omega⟩ _ fun i hi hchild => ?_) rfl
      obtain ⟨hpos, hparent⟩ := hchild
      obtain rfl | rfl : i = 2 * (hole + 1) - 1 ∨ i = 2 * (hole + 1) := by omega
      · exact hcomp.refl _
      · exact hcomp.below _ _ hright
    · refine ih _ (by omega) _ (h.down hhole ⟨by omega, by omega⟩ _ fun i hi hchild => ?_) rfl
      obtain ⟨hpos, hparent⟩ := hchild
      obtain rfl | rfl : i = 2 * (hole + 1) - 1 ∨ i = 2 * (hole + 1) := by omega
      · exact hcomp.above _ _ (eq_false_of_ne_true hright)
      · exact hcomp.refl _
    · refine pushHeap_isHeap hcomp _ (h.down hhole ⟨by omega, by omega⟩ _ fun i hi hchild => ?_)
        (below_of_leaf (by omega))
      obtain ⟨hpos, hparent⟩ := hchild
      obtain rfl : i = 2 * (hole + 1) - 1 := by omega
      exact hcomp.refl _
    · exact pushHeap_isHeap hcomp _ h (below_of_leaf (by omega))

/-- A comparison that lets equal elements pass takes a value that nothing is above to the
root. -/
theorem pushHeap_root (hpass : ∀ a b, le a b → comp a b = true) (hhole : hole < n)
    (hall : ∀ i (hi : i < n), i ≠ hole → le first[i] value) :
    (pushHeap comp value first hole hhole)[0] = value := by
  induction hole using Nat.strong_induction_on generalizing first with
  | _ hole ih =>
    rw [pushHeap]
    split_ifs with hup
    · refine ih _ (by omega) _ fun i hi hne => ?_
      rw [Vector.getElem_set]
      split_ifs with hi'
      · exact hall _ (by omega) (by omega)
      · exact hall i hi (Ne.symm hi')
    · obtain rfl : hole = 0 := by
        by_contra hne
        exact hup ⟨Nat.pos_of_ne_zero hne, hpass _ _ (hall _ (by omega) (by omega))⟩
      exact Vector.getElem_set_self _

end Order

section Contents
variable {comp : α → α → Bool} {value : α} {first : Vector α n}

/-- Moving the hole exchanges two positions. -/
theorem set_set_perm {i j : ℕ} (hi : i < n) (hj : j < n) (hne : i ≠ j) :
    ((first.set i first[j]).set j value).Perm (first.set i value) := by
  have hswap : (first.set i first[j]).set j value = (first.set i value).swap i j := by
    ext k hk
    grind
  rw [hswap]
  exact Vector.swap_perm hi hj

theorem pushHeap_perm {hole : ℕ} (hhole : hole < n) :
    (pushHeap comp value first hole hhole).Perm (first.set hole value) := by
  induction hole using Nat.strong_induction_on generalizing first with
  | _ hole ih =>
    rw [pushHeap]
    split_ifs with hup
    · exact (ih _ (by omega) _).trans (set_set_perm hhole _ (by omega))
    · exact .refl _

theorem adjustHeap_perm {hole : ℕ} (hhole : hole < n) :
    (adjustHeap comp value first hole hhole).Perm (first.set hole value) := by
  induction hm : n - hole using Nat.strong_induction_on generalizing first hole with
  | _ m ih =>
    rw [adjustHeap]
    split_ifs with hloop hright hlast
    · exact (ih _ (by omega) _ rfl).trans (set_set_perm hhole _ (by omega))
    · exact (ih _ (by omega) _ rfl).trans (set_set_perm hhole _ (by omega))
    · exact (pushHeap_perm _).trans (set_set_perm hhole _ (by omega))
    · exact pushHeap_perm hhole

end Contents

/-- `std::priority_queue`, whose vector is always a heap. -/
structure PriorityQueue (le : α → α → Prop) where
  size : ℕ
  vec : Vector α size
  heap : IsHeap le vec

namespace PriorityQueue
variable {le : α → α → Prop} {comp : α → α → Bool}

/-- The elements in the order of the vector. -/
def contents (q : PriorityQueue le) : List α := q.vec.toList

/-- `top`, which an empty queue does not have. -/
def top (q : PriorityQueue le) : Option α := q.vec[0]?

def empty : PriorityQueue le := ⟨0, #v[], fun _ _ hi => absurd hi (Nat.not_lt_zero _)⟩

theorem hole_push {n : ℕ} {vec : Vector α n} (h : IsHeap le vec) (value : α) :
    Hole le (vec.push value) n := by
  constructor
  · intro i j hi hj hchild hin hjn
    rw [Vector.getElem_push_lt (by omega), Vector.getElem_push_lt (by omega)]
    exact h i j _ _ hchild
  · intro i j hi _ hchild
    have := hchild.lt
    omega

theorem hole_pop {n : ℕ} {vec : Vector α (n + 1)} (h : IsHeap le vec) : Hole le vec.pop 0 := by
  constructor
  · intro i j hi hj hchild _ _
    rw [Vector.getElem_pop, Vector.getElem_pop]
    exact h i j _ _ hchild
  · intro i j _ _ _ hchild
    exact absurd hchild.lt (Nat.not_lt_zero _)

/-- `push`: `push_back`, then `push_heap`. -/
def push (hcomp : Compares le comp) (q : PriorityQueue le) (value : α) : PriorityQueue le where
  size := q.size + 1
  vec := pushHeap comp value (q.vec.push value) q.size (Nat.lt_succ_self _)
  heap := pushHeap_isHeap hcomp _ (hole_push q.heap value) (below_of_leaf (by omega))

/-- `pop`: `pop_heap`, which moves the last element to the hole at the root, then `pop_back`.
The element at the root is returned as well. -/
def pop (hcomp : Compares le comp) : PriorityQueue le → Option (α × PriorityQueue le)
  | ⟨0, _, _⟩ => none
  | ⟨n + 1, vec, h⟩ => some (vec[0], if hn : 0 < n then
      ⟨n, adjustHeap comp vec[n] vec.pop 0 hn, adjustHeap_isHeap hcomp hn (hole_pop h)⟩ else empty)

variable {hcomp : Compares le comp} {q q' : PriorityQueue le} {a : α}

theorem contents_push (hcomp : Compares le comp) (q : PriorityQueue le) (a : α) :
    (q.push hcomp a).contents.Perm (q.contents ++ [a]) := by
  have hset : (q.vec.push a).set q.size a = q.vec.push a := by
    rw [Vector.set_push, dif_neg (Nat.lt_irrefl _)]
  rw [contents, contents, ← Vector.toList_push, ← hset]
  exact (pushHeap_perm _).toList

theorem toList_eq_pop_append {n : ℕ} (vec : Vector α (n + 1)) :
    vec.toList = vec.pop.toList ++ [vec[n]] := by
  conv_lhs => rw [← Vector.push_pop_back vec, Vector.toList_push, Vector.back_eq_getElem]
  rfl

/-- Taking the root out and moving the last element there leaves the other elements. -/
theorem cons_set_zero_perm {n : ℕ} {vec : Vector α (n + 1)} (hn : 0 < n) :
    (vec[0] :: (vec.pop.set 0 vec[n]).toList).Perm vec.toList := by
  have hroot : vec.pop.toList[0]? = some vec[0] := by
    rw [Vector.getElem?_toList, Vector.getElem?_eq_getElem (by omega), Vector.getElem_pop]
  rw [toList_eq_pop_append vec, Vector.toList_set]
  cases hl : vec.pop.toList with
  | nil => simp [hl] at hroot
  | cons b t =>
    rw [hl, List.getElem?_cons_zero, Option.some_inj] at hroot
    rw [← hroot]
    exact (List.perm_append_singleton vec[n] t).symm.cons b

theorem pop_eq_none_iff : q.pop hcomp = none ↔ q.contents = [] := by
  obtain ⟨n, vec, h⟩ := q
  cases n with
  | zero => simp [pop, contents]
  | succ n =>
    simp only [pop, contents, reduceCtorEq, false_iff]
    exact List.ne_nil_of_length_pos (by simp)

/-- What `pop` returns is the top, which nothing is above, and leaves the other elements. -/
theorem pop_spec (h : q.pop hcomp = some (a, q')) :
    q.top = some a ∧ (∀ x ∈ q.contents, le x a) ∧ q.contents.Perm (a :: q'.contents) := by
  obtain ⟨n, vec, hheap⟩ := q
  cases n with
  | zero => simp [pop] at h
  | succ n =>
    obtain ⟨rfl, rfl⟩ := Prod.mk.inj (Option.some.inj h)
    refine ⟨by simp [top], fun x hx => ?_, ?_⟩
    · obtain ⟨i, hi, rfl⟩ := Vector.mem_iff_getElem.mp (Vector.mem_toList_iff.mp hx)
      exact hheap.le_root hcomp i hi
    · split_ifs with hn
      · exact (cons_set_zero_perm hn).symm.trans ((adjustHeap_perm hn).toList.symm.cons _)
      · obtain rfl : n = 0 := by omega
        have hpop : vec.pop.toList = [] := List.eq_nil_of_length_eq_zero Vector.length_toList
        rw [contents, toList_eq_pop_append, hpop]
        exact .refl _

/-- A comparison that lets equal elements pass puts an element that nothing is above on top. -/
theorem top_push (hcomp : Compares le comp) (hpass : ∀ a b, le a b → comp a b = true)
    (hall : ∀ x ∈ q.contents, le x a) : (q.push hcomp a).top = some a := by
  rw [top, push, Vector.getElem?_eq_getElem (Nat.succ_pos _)]
  refine congrArg some (pushHeap_root hpass _ fun i hi hne => ?_)
  rw [Vector.getElem_push_lt (by omega)]
  exact hall _ (Vector.mem_toList_iff.mpr (Vector.getElem_mem _))

end PriorityQueue
end NetStorm.BinaryHeap

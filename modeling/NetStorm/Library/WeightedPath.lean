import Mathlib.Algebra.Order.Field.Basic
import Mathlib.Data.List.Chain
import Mathlib.Data.List.Nodup
import Mathlib.Logic.Relation
import Mathlib.Order.Bounds.Basic
import Mathlib.Tactic.Linarith

/-!
# Simple paths and their costs in a weighted digraph

Vertices, adjacency and link costs are arbitrary. A path is the list of its
vertices. The only order facts used are that link costs of adjacent vertices are
positive and that sums are monotone, so every statement is over an ordered field.
-/
namespace NetStorm.WeightedPath

variable {α K : Type*}

/-- The sum of the link costs along a vertex list. -/
def pathCost [Zero K] [Add K] (w : α → α → K) : List α → K
  | a :: b :: rest => w a b + pathCost w (b :: rest)
  | _ => 0

@[simp] theorem pathCost_nil [Zero K] [Add K] (w : α → α → K) : pathCost w [] = 0 := rfl

@[simp] theorem pathCost_singleton [Zero K] [Add K] (w : α → α → K) (a : α) :
    pathCost w [a] = 0 := rfl

@[simp] theorem pathCost_cons_cons [Zero K] [Add K] (w : α → α → K) (a b : α) (p : List α) :
    pathCost w (a :: b :: p) = w a b + pathCost w (b :: p) := rfl

/-- A simple path from `s` to `t`: no vertex repeats and every step is a link. -/
structure IsPath (adj : α → α → Prop) (s t : α) (p : List α) : Prop where
  head : p.head? = some s
  last : p.getLast? = some t
  chain : p.IsChain adj
  nodup : p.Nodup

namespace IsPath
variable {adj : α → α → Prop} {s t : α} {p : List α}

theorem ne_nil (h : IsPath adj s t p) : p ≠ [] := by
  rintro rfl
  simpa using h.head

theorem singleton (s : α) : IsPath adj s s [s] := ⟨rfl, rfl, .singleton s, by simp⟩

/-- A path between distinct vertices has a first hop, and dropping its source
leaves a path from that hop. -/
theorem exists_cons (h : IsPath adj s t p) (hst : s ≠ t) :
    ∃ b q, p = s :: b :: q ∧ adj s b ∧ IsPath adj b t (b :: q) := by
  obtain ⟨hh, hl, hc, hn⟩ := h
  match p, hh with
  | [a], hh =>
    simp only [List.head?_cons, Option.some.injEq] at hh
    simp only [List.getLast?_singleton, Option.some.injEq] at hl
    exact absurd (hh.symm.trans hl) hst
  | a :: b :: q, hh =>
    obtain rfl : a = s := by simpa using hh
    refine ⟨b, q, rfl, hc.rel, ⟨rfl, ?_, hc.tail, hn.tail⟩⟩
    simpa using hl

/-- Two connected vertices are joined by a simple path: prepend the next vertex, or
cut the path back to where it occurs. -/
theorem of_reflTransGen [DecidableEq α] (h : Relation.ReflTransGen adj s t) :
    ∃ p, IsPath adj s t p := by
  induction h using Relation.ReflTransGen.head_induction_on with
  | refl => exact ⟨[t], .singleton t⟩
  | @head a b hab _ ih =>
    obtain ⟨p, hp⟩ := ih
    by_cases ha : a ∈ p
    · obtain ⟨l, r, rfl⟩ := List.append_of_mem ha
      refine ⟨a :: r, rfl, ?_, hp.chain.right_of_append, hp.nodup.of_append_right⟩
      simpa using hp.last
    · match p, hp with
      | c :: q, hp =>
        obtain rfl : c = b := by simpa using hp.head
        refine ⟨a :: c :: q, rfl, by simpa using hp.last, .cons_cons hab hp.chain, ?_⟩
        exact List.nodup_cons.mpr ⟨ha, hp.nodup⟩

end IsPath

section Order
variable [Field K] [LinearOrder K] [IsStrictOrderedRing K] {adj : α → α → Prop} {w : α → α → K}

/-- The costs of the simple paths between two vertices. -/
def costs (adj : α → α → Prop) (w : α → α → K) (s t : α) : Set K :=
  {c | ∃ p, IsPath adj s t p ∧ pathCost w p = c}

theorem pathCost_nonneg (hw : ∀ a b, adj a b → 0 < w a b) {p : List α} (hp : p.IsChain adj) :
    0 ≤ pathCost w p := by
  induction p with
  | nil => simp
  | cons a p ih =>
    cases p with
    | nil => simp
    | cons b q =>
      have hab := hw a b hp.rel
      have hq := ih hp.tail
      simp only [pathCost_cons_cons]
      linarith

theorem costs_bddBelow (hw : ∀ a b, adj a b → 0 < w a b) {s t : α} {c : K}
    (hc : c ∈ costs adj w s t) : 0 ≤ c := by
  obtain ⟨p, hp, rfl⟩ := hc
  exact pathCost_nonneg hw hp.chain

theorem costs_self_isLeast (hw : ∀ a b, adj a b → 0 < w a b) (s : α) :
    IsLeast (costs adj w s s) 0 :=
  ⟨⟨[s], .singleton s, rfl⟩, fun _ hc => costs_bddBelow hw hc⟩

/-- Moving to the first hop of a cheapest path strictly lowers the cost left:
the rest of the path is a path from the hop, cheaper by the first link. -/
theorem costs_firstHop_lt (hw : ∀ a b, adj a b → 0 < w a b) {s b t : α} {q : List α}
    (hp : IsPath adj s t (s :: b :: q)) {c c' : K}
    (hcost : pathCost w (s :: b :: q) = c)
    (hst : s ≠ t) (hmin' : IsLeast (costs adj w b t) c') : c' < c := by
  obtain ⟨b', q', he, hadj, hrest⟩ := hp.exists_cons hst
  obtain ⟨rfl, rfl⟩ : b = b' ∧ q = q' := by simpa using he
  have hle : c' ≤ pathCost w (b :: q) := hmin'.2 ⟨_, hrest, rfl⟩
  have hpos := hw s b hadj
  rw [pathCost_cons_cons] at hcost
  linarith

end Order

end NetStorm.WeightedPath

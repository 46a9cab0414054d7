import Mathlib.Algebra.BigOperators.Group.Finset.Basic
import Mathlib.Data.Fintype.Card
import Mathlib.Data.Fintype.BigOperators
import Mathlib.Tactic.Linarith

/-!
# Finite rooted in-trees

A tree is a parent map under which every vertex reaches the root. Depths,
children and subtrees are derived. A subtree is its root together with the
disjoint subtrees of its children, and sums over it split accordingly.
-/
namespace NetStorm

/-- Steps inside a finite set that strictly lower a rank until the target is met do
meet it, and visit no vertex twice before. -/
theorem exists_iterate_of_rank_lt {α ι : Type*} [LinearOrder ι] (S : Finset α) (next : α → α)
    (rank : α → ι) (t : α) (h : ∀ v ∈ S, v ≠ t → next v ∈ S ∧ rank (next v) < rank v)
    {v : α} (hv : v ∈ S) :
    ∃ k, next^[k] v = t ∧ (∀ a ≤ k, next^[a] v ∈ S) ∧
      ∀ a b, a < b → b ≤ k → rank (next^[b] v) < rank (next^[a] v) := by
  have hwf : WellFounded (fun a b : S => rank a < rank b) :=
    Finite.wellFounded_of_trans_of_irrefl (fun a b : S => rank a < rank b)
  suffices hmain : ∀ u : S, ∃ k, next^[k] u.1 = t ∧ (∀ a ≤ k, next^[a] u.1 ∈ S) ∧
      ∀ a b, a < b → b ≤ k → rank (next^[b] u.1) < rank (next^[a] u.1) from hmain ⟨v, hv⟩
  intro u
  induction u using hwf.induction with
  | _ u ih =>
    by_cases hu : u.1 = t
    · exact ⟨0, hu, fun a ha => by simp [Nat.le_zero.mp ha], fun a b hab hb => by omega⟩
    · obtain ⟨hmem, hlt⟩ := h u.1 u.2 hu
      obtain ⟨k, hk, hin, hdec⟩ := ih ⟨next u.1, hmem⟩ hlt
      refine ⟨k + 1, hk, fun a ha => ?_, fun a b hab hb => ?_⟩
      · cases a with
        | zero => exact u.2
        | succ a => exact hin a (by omega)
      · cases b with
        | zero => omega
        | succ b =>
          have hb' : rank (next^[b + 1] u.1) ≤ rank (next u.1) := by
            cases b with
            | zero => exact le_rfl
            | succ b => exact (hdec 0 (b + 1) (by omega) (by omega)).le
          cases a with
          | zero => exact hb'.trans_lt hlt
          | succ a => exact hdec a b (by omega) (by omega)

/-- The parent map loops at the root and leads there from everywhere, so no other
cycle exists. -/
structure RootedTree (α : Type*) where
  root : α
  parent : α → α
  parent_root : parent root = root
  reaches : ∀ v, ∃ k, parent^[k] v = root

namespace RootedTree
open Finset
variable {α : Type*} [DecidableEq α] (T : RootedTree α)

/-- The number of steps from a vertex to the root. -/
def depth (v : α) : ℕ := Nat.find (T.reaches v)

theorem iterate_depth (v : α) : T.parent^[T.depth v] v = T.root := Nat.find_spec (T.reaches v)

@[simp] theorem depth_root : T.depth T.root = 0 := (Nat.find_eq_zero _).mpr rfl

theorem depth_eq_zero {v : α} : T.depth v = 0 ↔ v = T.root := by
  constructor
  · intro h
    simpa [h] using T.iterate_depth v
  · rintro rfl
    exact T.depth_root

theorem depth_parent {v : α} (hv : v ≠ T.root) : T.depth (T.parent v) + 1 = T.depth v := by
  obtain ⟨d, hd⟩ : ∃ d, T.depth v = d + 1 :=
    Nat.exists_eq_succ_of_ne_zero (fun h => hv (T.depth_eq_zero.mp h))
  have hle : T.depth (T.parent v) ≤ d :=
    Nat.find_min' _ (by have := T.iterate_depth v; rwa [hd, Function.iterate_succ_apply] at this)
  have hge : T.depth v ≤ T.depth (T.parent v) + 1 :=
    Nat.find_min' _ (by rw [Function.iterate_succ_apply]; exact T.iterate_depth _)
  omega

theorem depth_iterate {v : α} {k : ℕ} (hk : k ≤ T.depth v) :
    T.depth (T.parent^[k] v) = T.depth v - k := by
  induction k with
  | zero => simp
  | succ k ih =>
    have h := ih (by omega)
    have hne : T.parent^[k] v ≠ T.root := by
      intro he
      rw [he, depth_root] at h
      omega
    have hp := T.depth_parent hne
    rw [Function.iterate_succ_apply']
    omega

/-- A depth-indexed ranking whose parent steps go strictly down gives a tree. -/
def ofRank {ι : Type*} [Fintype α] [LinearOrder ι] (root : α) (parent : α → α) (rank : α → ι)
    (hroot : parent root = root) (hlt : ∀ v, v ≠ root → rank (parent v) < rank v) :
    RootedTree α where
  root := root
  parent := parent
  parent_root := hroot
  reaches v := by
    obtain ⟨k, hk, -⟩ := exists_iterate_of_rank_lt Finset.univ parent rank root
      (fun v _ hv => ⟨Finset.mem_univ _, hlt v hv⟩) (Finset.mem_univ v)
    exact ⟨k, hk⟩

theorem parent_ne {v : α} (hv : v ≠ T.root) : T.parent v ≠ v := by
  intro he
  have := T.depth_parent hv
  rw [he] at this
  omega

section Fintype
variable [Fintype α]

def children (c : α) : Finset α := univ.filter fun v => v ≠ T.root ∧ T.parent v = c

@[simp] theorem mem_children {c v : α} : v ∈ T.children c ↔ v ≠ T.root ∧ T.parent v = c := by
  simp [children]

theorem depth_of_mem_children {c v : α} (h : v ∈ T.children c) : T.depth v = T.depth c + 1 := by
  obtain ⟨hv, rfl⟩ := T.mem_children.mp h
  exact (T.depth_parent hv).symm

/-- The vertices whose way to the root passes through `c`. -/
def subtree (c : α) : Finset α :=
  univ.filter fun v => T.depth c ≤ T.depth v ∧ T.parent^[T.depth v - T.depth c] v = c

theorem mem_subtree {c v : α} :
    v ∈ T.subtree c ↔ T.depth c ≤ T.depth v ∧ T.parent^[T.depth v - T.depth c] v = c := by
  simp [subtree]

theorem subtree_root : T.subtree T.root = univ := by
  ext v
  simp [mem_subtree, iterate_depth]

theorem mem_subtree_child {c d v : α} (hd : d ∈ T.children c) :
    v ∈ T.subtree d → v ∈ T.subtree c ∧ v ≠ c := by
  have hdepth := T.depth_of_mem_children hd
  intro h
  obtain ⟨hle, hit⟩ := T.mem_subtree.mp h
  refine ⟨T.mem_subtree.mpr ⟨by omega, ?_⟩, ?_⟩
  · have hs : T.depth v - T.depth c = T.depth v - T.depth d + 1 := by omega
    rw [hs, Function.iterate_succ_apply', hit]
    exact (T.mem_children.mp hd).2
  · rintro rfl
    omega

theorem exists_child_of_mem_subtree {c v : α} (hv : v ∈ T.subtree c) (hne : v ≠ c) :
    ∃ d ∈ T.children c, v ∈ T.subtree d := by
  obtain ⟨hle, hit⟩ := T.mem_subtree.mp hv
  have hlt : T.depth c < T.depth v := by
    refine lt_of_le_of_ne hle fun he => hne ?_
    rwa [he, Nat.sub_self] at hit
  obtain ⟨k, hk⟩ : ∃ k, T.depth v - T.depth c = k + 1 := ⟨T.depth v - T.depth c - 1, by omega⟩
  rw [hk, Function.iterate_succ_apply'] at hit
  have hdepth := T.depth_iterate (v := v) (k := k) (by omega)
  have hroot : T.parent^[k] v ≠ T.root := by
    intro he
    rw [he, depth_root] at hdepth
    omega
  refine ⟨T.parent^[k] v, T.mem_children.mpr ⟨hroot, hit⟩, T.mem_subtree.mpr ⟨by omega, ?_⟩⟩
  rw [hdepth]
  congr 1
  omega

theorem subtree_disjoint {c d e v : α} (hd : d ∈ T.children c) (he : e ∈ T.children c)
    (hvd : v ∈ T.subtree d) (hve : v ∈ T.subtree e) : d = e := by
  have h₁ := (T.mem_subtree.mp hvd).2
  have h₂ := (T.mem_subtree.mp hve).2
  rw [T.depth_of_mem_children hd] at h₁
  rw [T.depth_of_mem_children he] at h₂
  exact h₁.symm.trans h₂

theorem self_mem_subtree (c : α) : c ∈ T.subtree c := T.mem_subtree.mpr ⟨le_rfl, by simp⟩

/-- A subtree is its top vertex and the disjoint union of the children's subtrees. -/
theorem sum_subtree {M : Type*} [AddCommMonoid M] (f : α → M) (c : α) :
    ∑ v ∈ T.subtree c, f v = f c + ∑ d ∈ T.children c, ∑ v ∈ T.subtree d, f v := by
  have hsplit : T.subtree c = insert c ((T.children c).biUnion T.subtree) := by
    ext v
    simp only [mem_insert, mem_biUnion]
    constructor
    · intro hv
      by_cases hne : v = c
      · exact .inl hne
      · exact .inr (T.exists_child_of_mem_subtree hv hne)
    · rintro (rfl | ⟨d, hd, hv⟩)
      · exact T.self_mem_subtree v
      · exact (T.mem_subtree_child hd hv).1
  rw [hsplit, sum_insert, sum_biUnion]
  · intro d hd e he hne
    rw [Function.onFun, disjoint_left]
    intro v hvd hve
    exact hne (T.subtree_disjoint hd he hvd hve)
  · simp only [mem_biUnion, not_exists, not_and]
    intro d hd hc
    exact (T.mem_subtree_child hd hc).2 rfl

/-- The root is nobody's child. -/
theorem card_children_lt (c : α) : (T.children c).card < Fintype.card α := by
  rw [← card_univ]
  refine card_lt_card (ssubset_univ_iff.mpr fun h => ?_)
  have hroot : T.root ∈ T.children c := h ▸ mem_univ _
  exact (T.mem_children.mp hroot).1 rfl

/-- Depths are below the number of vertices: the way to the root visits distinct
vertices. -/
theorem depth_lt_card (v : α) : T.depth v < Fintype.card α := by
  have hinj : Set.InjOn (fun k => T.parent^[k] v) (range (T.depth v + 1)) := by
    intro a ha b hb hab
    have h₁ := T.depth_iterate (v := v) (k := a) (by simpa [Nat.lt_succ_iff] using ha)
    have h₂ := T.depth_iterate (v := v) (k := b) (by simpa [Nat.lt_succ_iff] using hb)
    simp only [coe_range, Set.mem_Iio] at ha hb
    dsimp only at hab
    rw [hab] at h₁
    omega
  have hcard := card_image_of_injOn hinj
  rw [card_range] at hcard
  have hle := card_le_univ ((range (T.depth v + 1)).image fun k => T.parent^[k] v)
  omega

/-- Induction from the leaves: a property of a vertex may use it for the children. -/
theorem induction_children {P : α → Prop} (h : ∀ c, (∀ d ∈ T.children c, P d) → P c) (c : α) :
    P c := by
  obtain ⟨m, hm⟩ : ∃ m, m = Fintype.card α - T.depth c := ⟨_, rfl⟩
  induction m using Nat.strong_induction_on generalizing c with
  | _ m ih =>
    refine h c fun d hd => ih (Fintype.card α - T.depth d) ?_ d rfl
    have hdepth := T.depth_of_mem_children hd
    have hlt := T.depth_lt_card d
    omega

end Fintype
end RootedTree

end NetStorm

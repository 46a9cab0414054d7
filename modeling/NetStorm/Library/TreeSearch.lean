import Mathlib.Data.List.Lex
import Mathlib.Data.List.MinMax

/-!
# Searching a tree of positions

The nodes of the tree are lists of positions, and a node has the children whose lists are
accepted. A search goes over the leaves in the order of the positions, which is the
lexicographic one, and keeps the first leaf, or the first leaf of maximal weight.
-/
namespace NetStorm.TreeSearch

section Leaves
variable (accepts : List ℕ → Bool) (n : ℕ)

/-- The leaves `depth` levels below a node. -/
def leaves : ℕ → List ℕ → List (List ℕ)
  | 0, node => [node]
  | depth + 1, node => (List.range n).flatMap fun pos =>
    if accepts (node ++ [pos]) then leaves depth (node ++ [pos]) else []

/-- The leaves below a child. -/
def leavesBelow (depth : ℕ) (node : List ℕ) (pos : ℕ) : List (List ℕ) :=
  if accepts (node ++ [pos]) then leaves accepts n depth (node ++ [pos]) else []

theorem leaves_succ (depth : ℕ) (node : List ℕ) :
    leaves accepts n (depth + 1) node =
      (List.range n).flatMap (leavesBelow accepts n depth node) := rfl

variable {accepts n}

theorem prefix_of_mem_leaves {depth : ℕ} {node leaf : List ℕ}
    (h : leaf ∈ leaves accepts n depth node) : node <+: leaf := by
  induction depth generalizing node with
  | zero =>
    obtain rfl : leaf = node := List.mem_singleton.mp h
    exact List.prefix_refl leaf
  | succ depth ih =>
    rw [leaves_succ, List.mem_flatMap] at h
    obtain ⟨pos, -, h⟩ := h
    rw [leavesBelow] at h
    split_ifs at h
    · exact (List.prefix_append node [pos]).trans (ih h)
    · exact absurd h List.not_mem_nil

/-- The leaves are the lists of the right length whose beginnings are accepted. -/
theorem mem_leaves_iff (hlt : ∀ node pos, accepts (node ++ [pos]) = true → pos < n) {depth : ℕ}
    {node leaf : List ℕ} :
    leaf ∈ leaves accepts n depth node ↔ node <+: leaf ∧ leaf.length = node.length + depth ∧
      ∀ row, node.length < row → row ≤ leaf.length → accepts (leaf.take row) = true := by
  induction depth generalizing node with
  | zero =>
    rw [leaves, List.mem_singleton]
    constructor
    · rintro rfl
      exact ⟨List.prefix_refl leaf, rfl, fun row hlo hhi => absurd hlo (not_lt.mpr hhi)⟩
    · rintro ⟨hstarts, hlen, -⟩
      exact (hstarts.eq_of_length hlen.symm).symm
  | succ depth ih =>
    rw [leaves_succ, List.mem_flatMap]
    constructor
    · rintro ⟨pos, -, h⟩
      rw [leavesBelow] at h
      split_ifs at h with haccepts
      · obtain ⟨hstarts, hlen, hrows⟩ := ih.mp h
        rw [List.length_append, List.length_singleton] at hlen hrows
        refine ⟨(List.prefix_append node [pos]).trans hstarts, by omega, ?_⟩
        intro row hlo hhi
        rcases Nat.lt_or_ge (node.length + 1) row with hrow | hrow
        · exact hrows row hrow hhi
        · have hrow : row = (node ++ [pos]).length := by
            rw [List.length_append, List.length_singleton]
            omega
          rw [hrow, ← List.prefix_iff_eq_take.mp hstarts]
          exact haccepts
      · exact absurd h List.not_mem_nil
    · rintro ⟨⟨rest, rfl⟩, hlen, hrows⟩
      rw [List.length_append] at hlen
      obtain ⟨pos, rest, rfl⟩ := List.exists_cons_of_length_pos (l := rest) (by omega)
      have hnode : node ++ pos :: rest = node ++ [pos] ++ rest := by simp
      have hchild : accepts (node ++ [pos]) = true := by
        have h := hrows (node.length + 1) (Nat.lt_succ_self _) (by
          rw [List.length_append, List.length_cons]
          omega)
        rwa [hnode, List.take_left' (by simp)] at h
      refine ⟨pos, List.mem_range.mpr (hlt node pos hchild), ?_⟩
      rw [leavesBelow, if_pos hchild, ih]
      rw [hnode] at hrows ⊢
      refine ⟨List.prefix_append _ _, by simp at hlen ⊢; omega, fun row hlo hhi => ?_⟩
      rw [List.length_append, List.length_singleton] at hlo
      exact hrows row (by omega) hhi

/-- The leaves come in lexicographic order. -/
theorem leaves_pairwise (depth : ℕ) (node : List ℕ) :
    (leaves accepts n depth node).Pairwise (· < ·) := by
  induction depth generalizing node with
  | zero => exact List.pairwise_singleton _ _
  | succ depth ih =>
    rw [leaves_succ, List.pairwise_flatMap]
    have hbelow : ∀ pos, ∀ leaf ∈ leavesBelow accepts n depth node pos, ∃ rest,
        leaf = node ++ pos :: rest := by
      intro pos leaf hleaf
      rw [leavesBelow] at hleaf
      split_ifs at hleaf
      · obtain ⟨rest, rfl⟩ := prefix_of_mem_leaves hleaf
        exact ⟨rest, by simp⟩
      · exact absurd hleaf List.not_mem_nil
    constructor
    · intro pos _
      rw [leavesBelow]
      split_ifs
      · exact ih _
      · exact List.Pairwise.nil
    · apply List.pairwise_lt_range.imp
      intro i j hij a ha b hb
      obtain ⟨x, rfl⟩ := hbelow i a ha
      obtain ⟨y, rfl⟩ := hbelow j b hb
      exact List.append_left_lt (List.cons_lt_cons_iff.mpr (Or.inl hij))

end Leaves

section Sweep
variable {α β : Type}

/-- What is kept of the leaves of a search, and whether it stopped: at the first leaf, or never
if all are to be seen. -/
def sweep (keep : β → α → β) (all : Bool) : β → List α → β × Bool
  | best, [] => (best, false)
  | best, leaf :: leaves =>
    if all then sweep keep all (keep best leaf) leaves else (keep best leaf, true)

variable {keep : β → α → β} {all : Bool}

theorem sweep_append (best : β) (front back : List α) :
    sweep keep all best (front ++ back) =
      if (sweep keep all best front).2 then sweep keep all best front
      else sweep keep all (sweep keep all best front).1 back := by
  induction front generalizing best with
  | nil => rfl
  | cons leaf front ih =>
    cases all with
    | false => rfl
    | true => exact ih (keep best leaf)

theorem sweep_true (best : β) (leaves : List α) :
    sweep keep true best leaves = (leaves.foldl keep best, false) := by
  induction leaves generalizing best with
  | nil => rfl
  | cons leaf leaves ih => exact ih (keep best leaf)

end Sweep

section Maximum
variable {α β T : Type} [LinearOrder T] {weight : α → T} {value : α → β}

/-- Keeps a leaf that is heavier than what was kept so far. -/
def keepHeavier (weight : α → T) (value : α → β) (best : Option (T × β)) (leaf : α) :
    Option (T × β) :=
  if best.all fun b => b.1 < weight leaf then some (weight leaf, value leaf) else best

theorem foldl_keepHeavier {best : Option (T × β)} {leaves : List α}
    (hlow : ∀ b ∈ best, ∀ leaf ∈ leaves, b.1 < weight leaf) :
    leaves.foldl (keepHeavier weight value) best =
      (leaves.argmax weight).elim best fun leaf => some (weight leaf, value leaf) := by
  induction leaves using List.reverseRecOn with
  | nil => rfl
  | append_singleton leaves leaf ih =>
    rw [List.foldl_append, ih fun b hb l hl => hlow b hb l (List.mem_append_left _ hl),
      List.foldl_cons, List.foldl_nil, List.argmax_concat]
    cases hmax : leaves.argmax weight with
    | none =>
      have hall : best.all (fun b => b.1 < weight leaf) = true := by
        rw [Option.all_eq_true]
        intro b hb
        exact decide_eq_true (hlow b hb leaf (List.mem_append_right _ List.mem_cons_self))
      exact if_pos hall
    | some m =>
      rw [Option.elim_some, keepHeavier, Option.all_some]
      by_cases hlt : weight m < weight leaf
      · simp [hlt]
      · simp [hlt]

variable [LinearOrder α]

/-- Among sorted leaves the first one of maximal weight is the least. -/
theorem le_of_argmax {leaves : List α} (hsorted : leaves.Pairwise (· < ·)) {m leaf : α}
    (hm : m ∈ leaves.argmax weight) (hleaf : leaf ∈ leaves) (hweight : weight leaf = weight m) :
    m ≤ leaf := by
  have hmem := List.argmax_mem hm
  have hidx := List.index_of_argmax hm hleaf hweight.ge
  have hi := List.idxOf_lt_length_of_mem hmem
  have hj := List.idxOf_lt_length_of_mem hleaf
  rcases hidx.eq_or_lt with heq | hlt
  · rw [(List.idxOf_inj hmem).mp heq]
  · have h := List.pairwise_iff_getElem.mp hsorted _ _ hi hj hlt
    rw [List.getElem_idxOf, List.getElem_idxOf] at h
    exact h.le

/-- What a search keeps: of all leaves the least one of maximal weight, or the least one. -/
def Chosen (weight : α → T) (value : α → β) (all : Bool) (IsLeaf : α → Prop)
    (best result : Option (T × β)) : Prop :=
  ((∀ leaf, ¬ IsLeaf leaf) ∧ result = best) ∨
    ∃ leaf, IsLeaf leaf ∧ result = some (weight leaf, value leaf) ∧ ∀ other, IsLeaf other →
      if all then weight other ≤ weight leaf ∧ (weight other = weight leaf → leaf ≤ other)
      else leaf ≤ other

theorem sweep_chosen {best : Option (T × β)} {leaves : List α} (hsorted : leaves.Pairwise (· < ·))
    (hlow : ∀ b ∈ best, ∀ leaf ∈ leaves, b.1 < weight leaf) (all : Bool) :
    Chosen weight value all (· ∈ leaves) best
      (sweep (keepHeavier weight value) all best leaves).1 := by
  cases all with
  | true =>
    rw [sweep_true, foldl_keepHeavier hlow]
    cases hmax : leaves.argmax weight with
    | none =>
      rw [List.argmax_eq_none] at hmax
      exact Or.inl ⟨fun leaf h => absurd h (by rw [hmax]; exact List.not_mem_nil), rfl⟩
    | some m =>
      refine Or.inr ⟨m, List.argmax_mem hmax, rfl, fun other hother => ?_⟩
      exact ⟨List.le_of_mem_argmax hother hmax, le_of_argmax hsorted hmax hother⟩
  | false =>
    cases leaves with
    | nil => exact Or.inl ⟨fun _ => List.not_mem_nil, rfl⟩
    | cons leaf leaves =>
      have hall : best.all (fun b => b.1 < weight leaf) = true := by
        rw [Option.all_eq_true]
        intro b hb
        exact decide_eq_true (hlow b hb leaf List.mem_cons_self)
      refine Or.inr ⟨leaf, List.mem_cons_self, if_pos hall, fun other hother => ?_⟩
      rcases List.mem_cons.mp hother with rfl | hother
      · exact le_rfl
      · exact ((List.pairwise_cons.mp hsorted).1 other hother).le

end Maximum

end NetStorm.TreeSearch

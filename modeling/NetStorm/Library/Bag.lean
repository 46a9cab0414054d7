import Mathlib.Data.List.Basic

/-!
# Taking an element out of a list

Messages in flight are a list from which any element may be taken: `l₁ ++ a :: l₂` becomes
`l₁ ++ l₂`.
-/
namespace NetStorm
variable {α : Type*} {l l₁ l₂ : List α} {a e : α} {p : α → Bool}

/-- What is left was there before. -/
theorem mem_of_mem_taken (hl : l = l₁ ++ a :: l₂) (he : e ∈ l₁ ++ l₂) : e ∈ l := by
  rw [hl]
  exact ((List.sublist_cons_self a l₂).append_left l₁).subset he

theorem filter_middle (l₁ l₂ : List α) (ha : p a = true) :
    (l₁ ++ a :: l₂).filter p = l₁.filter p ++ a :: l₂.filter p := by
  simp [List.filter_append, ha]

/-- An element outside a selection does not change it. -/
theorem filter_taken (hl : l = l₁ ++ a :: l₂) (ha : p a = false) :
    (l₁ ++ l₂).filter p = l.filter p := by
  simp [hl, List.filter_append, ha]

end NetStorm

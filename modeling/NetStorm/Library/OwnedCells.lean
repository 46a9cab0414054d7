import Mathlib.Data.List.Nodup

/-!
# Loops whose steps own their cells

A kernel runs one step for every index, in an unknown order. When every step changes the
cells of its own index only, the loop changes every cell once, in whatever order it runs.
-/
namespace NetStorm
namespace OwnedCells
variable {σ ι κ γ : Type} [DecidableEq ι]

/-- On a valid state the step `i` has a result, which is valid, and it puts every cell of `i` to
its new content and leaves the others. -/
def OwnStep (step : σ → ι → Option σ) (valid : σ → Prop) (owner : κ → ι) (view : σ → κ → γ)
    (new : κ → γ → γ) (i : ι) : Prop :=
  ∀ s, valid s → ∃ s', step s i = some s' ∧ valid s' ∧
    ∀ k, view s' k = if owner k = i then new k (view s k) else view s k

/-- A loop over distinct indices does every cell of its indices once. -/
theorem foldlM_own {step : σ → ι → Option σ} {valid : σ → Prop} {owner : κ → ι}
    {view : σ → κ → γ} {new : κ → γ → γ} {is : List ι} (hnodup : is.Nodup)
    (h : ∀ i ∈ is, OwnStep step valid owner view new i) (s : σ) (hs : valid s) :
    ∃ s', is.foldlM step s = some s' ∧ valid s' ∧
      ∀ k, view s' k = if owner k ∈ is then new k (view s k) else view s k := by
  induction is generalizing s with
  | nil => exact ⟨s, rfl, hs, by simp⟩
  | cons i is ih =>
    obtain ⟨hi, hnodup⟩ := List.nodup_cons.mp hnodup
    obtain ⟨s₁, hstep, hs₁, hview₁⟩ := h i List.mem_cons_self s hs
    obtain ⟨s₂, hloop, hs₂, hview₂⟩ :=
      ih hnodup (fun j hj => h j (List.mem_cons_of_mem _ hj)) s₁ hs₁
    refine ⟨s₂, by simp [List.foldlM_cons, hstep, hloop], hs₂, fun k => ?_⟩
    rw [hview₂, hview₁]
    by_cases hk : owner k = i
    · have hnot : owner k ∉ is := hk ▸ hi
      rw [if_neg hnot, if_pos hk, if_pos (List.mem_cons.mpr (Or.inl hk))]
    · have hiff : owner k ∈ i :: is ↔ owner k ∈ is := by simp [hk]
      simp only [if_neg hk, hiff]

end OwnedCells
end NetStorm

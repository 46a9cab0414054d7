import Mathlib.Order.WellFoundedSet

/-!
# Relations without cycles

New edges to one vertex close no cycle if none of their sources can be reached from it. A finite
set has a member that is not behind another member.
-/
namespace NetStorm
open Relation

variable {α : Type*} {r r' : α → α → Prop}

def Acyclic (r : α → α → Prop) : Prop := ∀ a, ¬ TransGen r a a

theorem acyclic_of_new_edges {x : α} {P : α → Prop} (hr : Acyclic r)
    (hedges : ∀ a b, r' a b → r a b ∨ b = x ∧ P a)
    (hnew : ∀ a, P a → ¬ ReflTransGen r x a) : Acyclic r' := by
  -- a path from `x` has no new edge, since the source of the first one would be reached from `x`
  have hfrom : ∀ b, ReflTransGen r' x b → ReflTransGen r x b := by
    intro b hb
    induction hb with
    | refl => exact .refl
    | tail _ hbc ih =>
      rcases hedges _ _ hbc with hold | ⟨-, hP⟩
      · exact ih.tail hold
      · exact absurd ih (hnew _ hP)
  have hlast : ∀ a b, TransGen r' a b →
      TransGen r a b ∨ ∃ c, ReflTransGen r' a c ∧ P c ∧ ReflTransGen r' x b := by
    intro a b hab
    induction hab with
    | single hab =>
      rcases hedges _ _ hab with hold | ⟨rfl, hP⟩
      · exact .inl (.single hold)
      · exact .inr ⟨a, .refl, hP, .refl⟩
    | tail hab hbc ih =>
      rcases hedges _ _ hbc with hold | ⟨rfl, hP⟩
      · refine ih.imp (·.tail hold) ?_
        rintro ⟨c, hac, hP, hxb⟩
        exact ⟨c, hac, hP, hxb.tail hbc⟩
      · exact .inr ⟨_, hab.to_reflTransGen, hP, .refl⟩
  intro a ha
  rcases hlast a a ha with hold | ⟨c, hac, hP, hxa⟩
  · exact hr a hold
  · exact hnew c hP (hfrom c (hxa.trans hac))

theorem Acyclic.exists_first (hr : Acyclic r) {s : Set α} (hfinite : s.Finite)
    (hs : s.Nonempty) : ∃ a ∈ s, ∀ b ∈ s, ¬ r b a := by
  have : IsStrictOrder α (TransGen r) := { irrefl := hr, trans := fun _ _ _ => TransGen.trans }
  obtain ⟨a, -, hmin⟩ := (hfinite.wellFoundedOn (r := TransGen r)).has_min Set.univ
    ⟨⟨hs.some, hs.some_mem⟩, trivial⟩
  exact ⟨a, a.2, fun b hb hba => hmin ⟨b, hb⟩ trivial (.single hba)⟩

end NetStorm

import Mathlib.Data.Option.Basic

/-!
# Specifications of fallible computations

A computation meets its specification when every result is right and, as long as a
resource bound holds, there is a result.
-/
namespace NetStorm

/-- Results satisfy `P`, and there is one if `fits` holds. -/
def OptionSpec {α : Type*} (x : Option α) (fits : Prop) (P : α → Prop) : Prop :=
  (∀ a, x = some a → P a) ∧ (fits → ∃ a, x = some a)

namespace OptionSpec
variable {α β : Type*} {fits : Prop} {P Q : α → Prop}

theorem pure {a : α} (h : P a) : OptionSpec (some a) fits P :=
  ⟨fun _ hb => Option.some.inj hb ▸ h, fun _ => ⟨a, rfl⟩⟩

theorem mono {x : Option α} (h : OptionSpec x fits P) (hPQ : ∀ a, P a → Q a) :
    OptionSpec x fits Q :=
  ⟨fun a ha => hPQ a (h.1 a ha), h.2⟩

/-- The resources may be more than needed. -/
theorem of_imp {fits' : Prop} {x : Option α} (h : OptionSpec x fits P) (himp : fits' → fits) :
    OptionSpec x fits' P :=
  ⟨h.1, fun h' => h.2 (himp h')⟩

theorem bind {x : Option α} {f : α → Option β} {R : β → Prop} (hx : OptionSpec x fits P)
    (hf : ∀ a, P a → OptionSpec (f a) fits R) : OptionSpec (x.bind f) fits R := by
  constructor
  · intro b hb
    obtain ⟨a, ha, hb⟩ := Option.bind_eq_some_iff.mp hb
    exact (hf a (hx.1 a ha)).1 b hb
  · intro hfits
    obtain ⟨a, ha⟩ := hx.2 hfits
    obtain ⟨b, hb⟩ := (hf a (hx.1 a ha)).2 hfits
    exact ⟨b, by rw [ha]; exact hb⟩

/-- A check that can only fail when the resources do not suffice. -/
theorem guarded {x : Option α} {c : Prop} [Decidable c] (hc : fits → c)
    (hx : c → OptionSpec x fits P) : OptionSpec (if c then x else none) fits P := by
  by_cases h : c
  · rw [if_pos h]
    exact hx h
  · rw [if_neg h]
    exact ⟨by simp, fun hfits => absurd (hc hfits) h⟩

end OptionSpec

/-- What every step of a fallible loop keeps, given the elements that are still to come, holds
after any part of the loop. -/
theorem foldlM_remaining {α β : Type*} {f : β → α → Option β} {P : List α → β → Prop}
    (hstep : ∀ a l b b', P (a :: l) b → f b a = some b' → P l b') {l r : List α} {b b' : β}
    (h : P (l ++ r) b) (hf : l.foldlM f b = some b') : P r b' := by
  induction l generalizing b with
  | nil => exact Option.some.inj hf ▸ h
  | cons a l ih =>
    rw [List.foldlM_cons, Option.bind_eq_bind, Option.bind_eq_some_iff] at hf
    obtain ⟨c, hc, hf⟩ := hf
    exact ih (hstep a (l ++ r) b c h hc) hf

end NetStorm

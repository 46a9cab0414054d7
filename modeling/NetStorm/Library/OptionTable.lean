import Mathlib.Data.List.Basic

/-!
# Tables built by a fallible computation

A list of results computed one index at a time, where any single failure fails
the whole computation.
-/
namespace NetStorm.OptionTable

variable {α β : Type*}

theorem mapM_eq_some_iff {f : α → Option β} {l : List α} {r : List β} :
    l.mapM f = some r ↔ r.length = l.length ∧ ∀ i < l.length, r[i]? = l[i]?.bind f := by
  induction l generalizing r with
  | nil => cases r <;> simp
  | cons a l ih =>
    simp only [List.mapM_cons, Option.bind_eq_bind, Option.bind_eq_some_iff]
    constructor
    · rintro ⟨b, hb, bs, hbs, hr⟩
      obtain rfl : r = b :: bs := by simpa using hr.symm
      obtain ⟨hlen, hget⟩ := ih.mp hbs
      refine ⟨by simp [hlen], fun i hi => ?_⟩
      cases i with
      | zero => simp [hb]
      | succ i => simpa using hget i (by simpa using hi)
    · rintro ⟨hlen, hget⟩
      cases r with
      | nil => simp at hlen
      | cons b bs =>
        have hb : f a = some b := by simpa using (hget 0 (by simp)).symm
        refine ⟨b, hb, bs, ih.mpr ⟨by simpa using hlen, fun i hi => ?_⟩, rfl⟩
        simpa using hget (i + 1) (by simpa using hi)

/-- A table over `0 .. n-1` succeeds exactly when every entry does, and then holds
the entries. -/
theorem mapM_range_eq_some_iff {n : ℕ} {f : ℕ → Option β} {r : List β} :
    (List.range n).mapM f = some r ↔ r.length = n ∧ ∀ i < n, r[i]? = f i := by
  rw [mapM_eq_some_iff]
  simp only [List.length_range]
  constructor
  · rintro ⟨hlen, hget⟩
    exact ⟨hlen, fun i hi => by simpa [List.getElem?_range hi] using hget i hi⟩
  · rintro ⟨hlen, hget⟩
    exact ⟨hlen, fun i hi => by simpa [List.getElem?_range hi] using hget i hi⟩

/-- When the entries are known, so is the list. -/
theorem mapM_eq_some_map {f : α → Option β} {g : α → β} {l : List α}
    (h : ∀ a ∈ l, f a = some (g a)) : l.mapM f = some (l.map g) := by
  rw [mapM_eq_some_iff]
  refine ⟨List.length_map g, fun i hi => ?_⟩
  rw [List.getElem?_map, List.getElem?_eq_getElem hi, Option.bind_some, h _ (List.getElem_mem hi),
    Option.map_some]

theorem mapM_range_eq_some {n : ℕ} {f : ℕ → Option β} {g : ℕ → β}
    (h : ∀ i < n, f i = some (g i)) : (List.range n).mapM f = some ((List.range n).map g) :=
  mapM_eq_some_map fun i hi => h i (List.mem_range.mp hi)

/-- Encoding every entry and decoding it again gives the list back exactly if it does so for
every entry. -/
theorem mapM_map_eq_some_self_iff {g : α → β} {f : β → Option α} {l : List α} :
    (l.map g).mapM f = some l ↔ ∀ a ∈ l, f (g a) = some a := by
  induction l with
  | nil => simp
  | cons a l ih =>
    simp only [List.map_cons, List.mapM_cons, Option.bind_eq_bind, Option.bind_eq_some_iff,
      List.mem_cons, forall_eq_or_imp]
    constructor
    · rintro ⟨b, hb, bs, hbs, hr⟩
      obtain ⟨rfl, rfl⟩ : b = a ∧ bs = l := by simpa using hr
      exact ⟨hb, ih.mp hbs⟩
    · rintro ⟨ha, hl⟩
      exact ⟨a, ha, l, ih.mpr hl, rfl⟩

/-- When every entry can be computed so as to meet `P`, so can the list. -/
theorem exists_mapM_eq_some {f : α → Option β} {P : α → β → Prop} {l : List α}
    (h : ∀ a ∈ l, ∃ b, f a = some b ∧ P a b) : ∃ r, l.mapM f = some r ∧ List.Forall₂ P l r := by
  induction l with
  | nil => exact ⟨[], rfl, .nil⟩
  | cons a l ih =>
    obtain ⟨b, hb, hP⟩ := h a List.mem_cons_self
    obtain ⟨r, hr, hall⟩ := ih fun a ha => h a (List.mem_cons_of_mem _ ha)
    exact ⟨b :: r, by simp [hb, hr], .cons hP hall⟩

/-- The results lead back to the list where each of them does to its element. -/
theorem map_eq_of_mapM_eq_some {f : α → Option β} {g : β → α}
    (hg : ∀ a b, f a = some b → g b = a) {l : List α} {r : List β} (h : l.mapM f = some r) :
    r.map g = l := by
  obtain ⟨hlen, hget⟩ := mapM_eq_some_iff.mp h
  refine List.ext_getElem? fun i => ?_
  rw [List.getElem?_map]
  by_cases hi : i < l.length
  · have hr : r[i]? = some r[i] := List.getElem?_eq_getElem (hlen ▸ hi)
    have hf : f l[i] = some r[i] := by
      rw [← hr, hget i hi, List.getElem?_eq_getElem hi, Option.bind_some]
    rw [hr, List.getElem?_eq_getElem hi, Option.map_some, hg _ _ hf]
  · rw [List.getElem?_eq_none (by omega), List.getElem?_eq_none (by omega), Option.map_none]

end NetStorm.OptionTable

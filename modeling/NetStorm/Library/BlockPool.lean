import Mathlib.Algebra.BigOperators.Group.List.Basic
import Mathlib.Algebra.Ring.Nat
import Mathlib.Data.List.Perm.Basic

/-!
# Accounts of blocks in a pool

Blocks are owned by a pool, which has some of them in use and keeps the others for reuse. A
block is an address with the number of its bytes. The lists stand for multisets: what is owned
is what is in use together with what is kept, and no address is owned twice.
-/
namespace NetStorm.BlockPool
variable {P : Type*}

/-- The bytes of some blocks. -/
def bytes (l : List (P × ℕ)) : ℕ := (l.map Prod.snd).sum

@[simp] theorem bytes_nil : bytes ([] : List (P × ℕ)) = 0 := rfl

@[simp] theorem bytes_cons (b : P × ℕ) (l : List (P × ℕ)) : bytes (b :: l) = b.2 + bytes l := by
  simp [bytes]

theorem bytes_perm {l l' : List (P × ℕ)} (h : l.Perm l') : bytes l = bytes l' :=
  (h.map Prod.snd).sum_eq

/-- What is owned is in use or kept. -/
structure Accounts (owned used kept : List (P × ℕ)) : Prop where
  perm : owned.Perm (used ++ kept)
  nodup : (owned.map Prod.fst).Nodup

namespace Accounts
variable {owned used kept : List (P × ℕ)} {b : P × ℕ}

theorem nil : Accounts ([] : List (P × ℕ)) [] [] := ⟨.nil, .nil⟩

theorem of_perm {owned' used' kept' : List (P × ℕ)} (h : Accounts owned used kept)
    (ho : owned.Perm owned') (hu : used.Perm used') (hk : kept.Perm kept') :
    Accounts owned' used' kept' :=
  ⟨ho.symm.trans (h.perm.trans (hu.append hk)), ((ho.map Prod.fst).nodup_iff).mp h.nodup⟩

/-- A new block is put to use. -/
theorem grow (h : Accounts owned used kept) (hb : b.1 ∉ owned.map Prod.fst) :
    Accounts (b :: owned) (b :: used) kept :=
  ⟨h.perm.cons b, List.nodup_cons.mpr ⟨hb, h.nodup⟩⟩

/-- A kept block is put to use again. -/
theorem reuse (h : Accounts owned used (b :: kept)) : Accounts owned (b :: used) kept :=
  ⟨h.perm.trans List.perm_middle, h.nodup⟩

/-- A block in use is kept. -/
theorem keep (h : Accounts owned (b :: used) kept) : Accounts owned used (b :: kept) :=
  ⟨h.perm.trans List.perm_middle.symm, h.nodup⟩

/-- A block in use is given back. -/
theorem drop (h : Accounts (b :: owned) (b :: used) kept) : Accounts owned used kept :=
  ⟨h.perm.cons_inv, h.nodup.of_cons⟩

/-- A kept block is given back. -/
theorem release (h : Accounts (b :: owned) used (b :: kept)) : Accounts owned used kept :=
  h.reuse.drop

theorem mem_of_used (h : Accounts owned used kept) (hb : b ∈ used) : b ∈ owned :=
  h.perm.mem_iff.mpr (List.mem_append_left _ hb)

theorem mem_of_kept (h : Accounts owned used kept) (hb : b ∈ kept) : b ∈ owned :=
  h.perm.mem_iff.mpr (List.mem_append_right _ hb)

/-- No block in use has the address of another one. -/
theorem ne_of_cons (h : Accounts owned (b :: used) kept) {c : P × ℕ} (hc : c ∈ used) :
    c.1 ≠ b.1 := by
  have hnodup := ((h.perm.map Prod.fst).nodup_iff).mp h.nodup
  rw [List.cons_append, List.map_cons, List.nodup_cons] at hnodup
  intro he
  exact hnodup.1 (he ▸ List.mem_map_of_mem (List.mem_append_left _ hc))

end Accounts

section Remove
variable [DecidableEq P]

/-- Takes the block at an address out of what is owned, if there is one. -/
def remove (owned : List (P × ℕ)) (p : P) : Option (List (P × ℕ)) :=
  if p ∈ owned.map Prod.fst then some (owned.eraseP (·.1 = p)) else none

theorem remove_of_mem {owned : List (P × ℕ)} {b : P × ℕ} (h : (owned.map Prod.fst).Nodup)
    (hb : b ∈ owned) : ∃ owned', remove owned b.1 = some owned' ∧ owned.Perm (b :: owned') := by
  refine ⟨_, if_pos (List.mem_map_of_mem hb), ?_⟩
  induction owned with
  | nil => cases hb
  | cons c owned ih =>
    rw [List.map_cons, List.nodup_cons] at h
    rcases List.mem_cons.mp hb with rfl | hb
    · simp
    · have hne : c.1 ≠ b.1 := fun he => h.1 (he ▸ List.mem_map_of_mem hb)
      rw [List.eraseP_cons_of_neg (by simpa using hne)]
      exact ((ih h.2 hb).cons c).trans (List.Perm.swap b c _)

end Remove

end NetStorm.BlockPool

import NetStorm.KernighanLin
import Mathlib.Algebra.Order.Ring.Int
import Mathlib.Data.List.GetD
import Mathlib.Data.List.Perm.Basic
import Mathlib.Tactic.IntervalCases
import Mathlib.Tactic.Linarith

/-!
# Balanced splits

Every move of `KernighanLin` exchanges a GPU of the one side with one of the other, so whatever
the links and the order of the GPUs, the sides keep the sizes that they begin with. A move that
is committed is always one of the round at hand: a round that ends early has no moves, or its
first move is better than what it starts from.
-/
namespace NetStorm
namespace GpuTopology

/-- A rearrangement of the sides among those who have one. -/
structure SameSides (start P : List ℤ) : Prop where
  perm : P.Perm start
  support : ∀ i, P.getD i 0 = 0 ↔ start.getD i 0 = 0

/-- Everyone is on the side `1`, on the side `-1`, or takes no part. -/
def IsSides (P : List ℤ) : Prop := ∀ x ∈ P, x = 0 ∨ x = 1 ∨ x = -1

/-- Both ends of a move take part. -/
def TakesPart (start : List ℤ) (a b : ℕ) : Prop := start.getD a 0 ≠ 0 ∧ start.getD b 0 ≠ 0

/-- Exchanges two sides. -/
def exchange (P : List ℤ) (a b : ℕ) : List ℤ := (P.set a (P.getD b 0)).set b (P.getD a 0)

/-! ### Exchanging sides -/

theorem lt_length_of_getD_ne {P : List ℤ} {i : ℕ} (h : P.getD i 0 ≠ 0) : i < P.length := by
  by_contra hge
  exact h (List.getD_eq_default P 0 (not_lt.mp hge))

theorem SameSides.refl (start : List ℤ) : SameSides start start :=
  ⟨List.Perm.refl start, fun _ => Iff.rfl⟩

theorem SameSides.length_eq {start P : List ℤ} (h : SameSides start P) :
    P.length = start.length := h.perm.length_eq

theorem SameSides.isSides {start P : List ℤ} (h : SameSides start P) (hstart : IsSides start) :
    IsSides P := fun x hx => hstart x (h.perm.mem_iff.mp hx)

theorem SameSides.exchange {start P : List ℤ} {a b : ℕ} (h : SameSides start P)
    (hpart : TakesPart start a b) : SameSides start (exchange P a b) := by
  have ha : P.getD a 0 ≠ 0 := fun hzero => hpart.1 ((h.support a).mp hzero)
  have hb : P.getD b 0 ≠ 0 := fun hzero => hpart.2 ((h.support b).mp hzero)
  have hal := lt_length_of_getD_ne ha
  have hbl := lt_length_of_getD_ne hb
  constructor
  · rw [GpuTopology.exchange, List.getD_eq_getElem P 0 hal, List.getD_eq_getElem P 0 hbl]
    exact (List.set_set_perm hal hbl).trans h.perm
  · intro i
    rw [List.getD_eq_getElem P 0 hal] at ha
    rw [List.getD_eq_getElem P 0 hbl] at hb
    rw [← h.support i, GpuTopology.exchange, List.getD_eq_getElem?_getD, List.getElem?_set,
      List.getElem?_set, List.length_set]
    by_cases hbi : b = i
    · subst hbi
      simp [hal, hbl, ha, hb]
    · by_cases hai : a = i
      · subst hai
        simp [hbi, hal, hbl, ha, hb]
      · simp [hbi, hai]

/-- On opposite sides, to change both is to exchange them. -/
theorem flip_eq_exchange {P : List ℤ} {a b : ℕ} (hne : a ≠ b) (ha : a < P.length)
    (hb : b < P.length) (hopposite : P.getD a 0 = -P.getD b 0) :
    (P.modify a (-1 * ·)).modify b (-1 * ·) = exchange P a b := by
  apply List.ext_getElem
  · simp [exchange]
  intro i h₁ h₂
  have hi : i < P.length := by simpa using h₁
  rw [List.getD_eq_getElem P 0 ha, List.getD_eq_getElem P 0 hb] at hopposite
  simp only [exchange, List.getElem_modify, List.getElem_set, List.getD_eq_getElem P 0 ha,
    List.getD_eq_getElem P 0 hb]
  by_cases hbi : b = i
  · subst hbi
    simp [hne, hopposite]
  · by_cases hai : a = i
    · subst hai
      simp [hbi, hopposite]
    · simp [hbi, hai]

theorem opposite_of_ne {P : List ℤ} (hP : IsSides P) {a b : ℕ} (ha : P.getD a 0 ≠ 0)
    (hb : P.getD b 0 ≠ 0) (hne : P.getD a 0 ≠ P.getD b 0) : P.getD a 0 = -P.getD b 0 := by
  have hmem : ∀ {i}, P.getD i 0 ≠ 0 → P.getD i 0 = 1 ∨ P.getD i 0 = -1 := by
    intro i hi
    have hlen := lt_length_of_getD_ne hi
    have h := hP _ (List.getElem_mem hlen)
    rw [← List.getD_eq_getElem P 0 hlen] at h
    exact h.resolve_left hi
  rcases hmem ha with ha | ha <;> rcases hmem hb with hb | hb <;> omega

theorem commitMoves_sameSides {T : Type} {start P : List ℤ} (hP : SameSides start P)
    {moves : List (Move T)}
    (hmoves : ∀ m ∈ moves, TakesPart start m.a m.b) : SameSides start (commitMoves P moves) := by
  rw [commitMoves]
  apply List.foldlRecOn _ _ hP
  intro P hP m hm
  exact hP.exchange (hmoves m hm)

section Moves
variable {T : Type} [CommRing T] [LinearOrder T] {W : ℕ → ℕ → T}

/-! ### The moves of a round -/

theorem mem_steps_one {start stop i : ℕ} (h : i ∈ steps start stop 1) : start ≤ i ∧ i < stop := by
  rw [steps, List.mem_map] at h
  obtain ⟨k, hk, rfl⟩ := h
  rw [List.mem_range, Nat.div_one] at hk
  omega

/-- What is known of a candidate of `FindBestMove`. -/
def IsCandidate (P : List ℤ) (c : Option (ℕ × ℕ) × T) : Prop :=
  ((0 : ℤ) : T) ≤ c.2 ∧ ∀ a b, c.1 = some (a, b) → ((0 : ℤ) : T) < c.2 ∧ a < b ∧
    P.getD a 0 ≠ 0 ∧ P.getD b 0 ≠ 0 ∧ P.getD a 0 ≠ P.getD b 0

/-- The best move is between two GPUs on opposite sides. -/
theorem findBestMove_isCandidate (P : List ℤ) (D : List T) (used : List ℕ) :
    IsCandidate P (findBestMove W P D used) := by
  rw [findBestMove]
  apply List.foldlRecOn
  · exact ⟨le_rfl, fun a b h => by cases h⟩
  intro c hc row _
  split_ifs with hrow
  · exact hc
  · apply List.foldlRecOn _ _ hc
    intro c hc col hcol
    dsimp only
    split_ifs with hskip hcost
    · exact hc
    · refine ⟨(hc.1.trans_lt hcost).le, fun a b h => ?_⟩
      obtain ⟨rfl, rfl⟩ : row = a ∧ col = b := by simpa using h
      push Not at hrow hskip
      exact ⟨hc.1.trans_lt hcost, (mem_steps_one hcol).1, hrow.1, hskip.1, hskip.2⟩
    · exact hc

/-- The moves of a round take part and are each for the better. Only a round that is not full
ends with `g_max` zero. -/
structure IsRound (start : List ℤ) (bound : ℕ) (r : List ℤ × List (Move T) × T) : Prop where
  sides : SameSides start r.1
  moves : ∀ m ∈ r.2.1, TakesPart start m.a m.b ∧ ((0 : ℤ) : T) < m.g
  length_le : r.2.1.length ≤ bound
  full : r.2.1.length = bound ∨ r.2.2 = ((0 : ℤ) : T)

theorem findMoves_isRound {start P : List ℤ} (hstart : IsSides start) (hP : SameSides start P)
    {iters bound : ℕ} {D : List T} {used : List ℕ} {moves : List (Move T)} {gMax : T}
    (hmoves : ∀ m ∈ moves, TakesPart start m.a m.b ∧ ((0 : ℤ) : T) < m.g)
    (hbound : moves.length + iters = bound) :
    IsRound start bound (findMoves W iters P D used moves gMax) := by
  induction iters generalizing P D used moves with
  | zero => exact ⟨hP, hmoves, hbound.le, Or.inl hbound⟩
  | succ iters ih =>
    have hbest := findBestMove_isCandidate (W := W) P D used
    rw [findMoves]
    cases hmove : findBestMove W P D used with
    | mk move g =>
      rw [hmove] at hbest
      cases move with
      | none =>
        refine ⟨hP, hmoves, ?_, Or.inr rfl⟩
        change moves.length ≤ bound
        omega
      | some move =>
        obtain ⟨a, b⟩ := move
        obtain ⟨hg, hab, ha, hb, hne⟩ := hbest.2 a b rfl
        have hpart : TakesPart start a b :=
          ⟨fun h => ha ((hP.support a).mpr h), fun h => hb ((hP.support b).mpr h)⟩
        have hflip := flip_eq_exchange hab.ne (lt_length_of_getD_ne ha) (lt_length_of_getD_ne hb)
          (opposite_of_ne (hP.isSides hstart) ha hb hne)
        apply ih
        · rw [hflip]
          exact hP.exchange hpart
        · intro m hm
          rcases List.mem_append.mp hm with hm | hm
          · exact hmoves m hm
          · rw [List.mem_singleton.mp hm]
            exact ⟨hpart, hg⟩
        · rw [List.length_append, List.length_singleton]
          omega

/-! ### The moves that are committed -/

/-- The scan stays among the moves if it starts there. -/
theorem scanMoves_le {moves : List (Move T)} {gMax : T} {gk : ℕ} (hgk : gk ≤ moves.length) :
    (scanMoves moves gMax gk).2 ≤ moves.length := by
  rw [scanMoves]
  apply List.foldlRecOn (motive := fun c : T × ℕ × Option T => c.2.1 ≤ moves.length) _ _ hgk
  intro c hc m hm
  have hlt := List.snd_lt_of_mem_zipIdx hm
  dsimp only
  split_ifs
  · exact hlt
  · exact hc

/-- A first move that is good enough is among the moves to commit. -/
theorem scanMoves_le_of_lt {m : Move T} {moves : List (Move T)} {gMax : T} {gk : ℕ}
    (h : gMax < m.g) : (scanMoves (m :: moves) gMax gk).2 ≤ (m :: moves).length := by
  rw [scanMoves, List.zipIdx_cons, List.foldl_cons]
  rw [Option.elim_none, if_pos h]
  apply List.foldlRecOn (motive := fun c : T × ℕ × Option T => c.2.1 ≤ (m :: moves).length) _ _
    (by simp)
  intro c hc m' hm
  have hlt := List.snd_lt_add_of_mem_zipIdx hm
  dsimp only
  split_ifs
  · rw [List.length_cons]
    dsimp only
    omega
  · exact hc

/-- The iterations end without an index out of range, and rearrange the sides. -/
theorem refine_sameSides {start : List ℤ} (hstart : IsSides start) {size count gk : ℕ}
    {P : List ℤ} {gMax : T} (hP : SameSides start P) (hgk : gk ≤ size / 2) :
    ∃ sides, refine W size count P gMax gk = some sides ∧ SameSides start sides := by
  induction count generalizing P gMax gk with
  | zero => exact ⟨P, rfl, hP⟩
  | succ count ih =>
    have hround : IsRound start (size / 2) (findMoves W (size / 2) P (costs W P) [] [] gMax) :=
      findMoves_isRound hstart hP (by simp) (by simp)
    rw [refine]
    generalize findMoves W (size / 2) P (costs W P) [] [] gMax = r at hround ⊢
    obtain ⟨moved, moves, g⟩ := r
    dsimp only at hround ⊢
    by_cases hgood : ((0 : ℤ) : T) < (scanMoves moves g gk).1
    · have hle : (scanMoves moves g gk).2 ≤ moves.length := by
        rcases hround.full with hfull | hzero
        · exact scanMoves_le (hgk.trans hfull.ge)
        · -- the round ended early: what is kept of earlier ones is given up
          obtain rfl : g = ((0 : ℤ) : T) := hzero
          cases moves with
          | nil => exact absurd hgood (lt_irrefl _)
          | cons m moves => exact scanMoves_le_of_lt (hround.moves m List.mem_cons_self).2
      rw [if_pos hgood, if_neg (not_lt.mpr hle)]
      apply ih
      · split_ifs
        · exact hround.sides
        · exact commitMoves_sameSides hP fun m hm =>
            (hround.moves m (List.mem_of_mem_take hm)).1
      · exact hle.trans hround.length_le
    · rw [if_neg hgood]
      exact ⟨P, rfl, hP⟩

end Moves

/-! ### The sides before the first round -/

/-- The first half of the shuffled part is on the side `1`. -/
def initialSides (n half : ℕ) (shuffled : List ℕ) : List ℤ :=
  (List.range n).map fun i =>
    if i ∈ shuffled.take half then 1 else if i ∈ shuffled then -1 else 0

theorem countP_range_mem {n : ℕ} {l : List ℕ} (hnodup : l.Nodup) (hlt : ∀ x ∈ l, x < n) :
    (List.range n).countP (fun i => decide (i ∈ l)) = l.length := by
  rw [List.countP_eq_length_filter]
  apply List.Perm.length_eq
  rw [List.perm_ext_iff_of_nodup (List.nodup_range.filter _) hnodup]
  intro i
  rw [List.mem_filter, List.mem_range, decide_eq_true_iff]
  exact ⟨And.right, fun h => ⟨hlt i h, h⟩⟩

theorem isSides_initialSides (n half : ℕ) (shuffled : List ℕ) :
    IsSides (initialSides n half shuffled) := by
  intro x hx
  rw [initialSides, List.mem_map] at hx
  obtain ⟨i, -, rfl⟩ := hx
  split_ifs <;> simp

theorem initialSides_eq_zero_iff {n half i : ℕ} {shuffled : List ℕ} (hi : i < n) :
    (initialSides n half shuffled).getD i 0 = 0 ↔ i ∉ shuffled := by
  rw [List.getD_eq_getElem _ _ (by simpa [initialSides] using hi)]
  simp only [initialSides, List.getElem_map, List.getElem_range]
  split_ifs with htake hmem
  · simp [List.mem_of_mem_take htake]
  · simp [hmem]
  · simp [hmem]

theorem count_one_initialSides {n half : ℕ} {shuffled : List ℕ} (hnodup : shuffled.Nodup)
    (hlt : ∀ x ∈ shuffled, x < n) :
    (initialSides n half shuffled).count 1 = (shuffled.take half).length := by
  rw [initialSides, List.count_eq_countP, List.countP_map,
    ← countP_range_mem (hnodup.sublist (List.take_sublist half shuffled))
      fun x hx => hlt x (List.mem_of_mem_take hx)]
  apply List.countP_congr
  intro i _
  by_cases htake : i ∈ shuffled.take half
  · simp [htake]
  · by_cases hmem : i ∈ shuffled <;> simp [htake, hmem]

theorem count_neg_initialSides {n half : ℕ} {shuffled : List ℕ} (hnodup : shuffled.Nodup)
    (hlt : ∀ x ∈ shuffled, x < n) :
    (initialSides n half shuffled).count (-1) = (shuffled.drop half).length := by
  rw [initialSides, List.count_eq_countP, List.countP_map,
    ← countP_range_mem (hnodup.sublist (List.drop_sublist half shuffled))
      fun x hx => hlt x (List.mem_of_mem_drop hx)]
  apply List.countP_congr
  intro i _
  have hsplit : i ∈ shuffled ↔ i ∈ shuffled.take half ∨ i ∈ shuffled.drop half := by
    rw [← List.mem_append, List.take_append_drop]
  by_cases htake : i ∈ shuffled.take half
  · have hdrop : i ∉ shuffled.drop half := fun hdrop =>
      List.disjoint_take_drop hnodup le_rfl htake hdrop
    simp [htake, hdrop]
  · by_cases hdrop : i ∈ shuffled.drop half <;> simp [htake, hdrop, hsplit]

/-! ### The new colour -/

/-- The side `-1` gets the new colour. -/
def recolor (fresh : ℕ) (P : List ℕ) (sides : List ℤ) : List ℕ :=
  (P.zip sides).map fun p => if p.2 = -1 then fresh else p.1

/-- The sides are those of the part with a colour. -/
def SidesOf (color : ℕ) (P : List ℕ) (sides : List ℤ) : Prop :=
  ∀ p ∈ P.zip sides, p.2 = 0 ∧ p.1 ≠ color ∨ (p.2 = 1 ∨ p.2 = -1) ∧ p.1 = color

section Recolor
variable {fresh color : ℕ} {P : List ℕ} {sides : List ℤ}

theorem count_color_recolor (hlen : sides.length = P.length) (hsides : SidesOf color P sides)
    (hfresh : fresh ≠ color) : (recolor fresh P sides).count color = sides.count 1 := by
  have hsnd : (P.zip sides).map Prod.snd = sides := List.map_snd_zip hlen.le
  conv_rhs => rw [← hsnd]
  rw [recolor, List.count_eq_countP, List.count_eq_countP, List.countP_map, List.countP_map]
  apply List.countP_congr
  intro p hp
  rcases hsides p hp with ⟨hzero, hne⟩ | ⟨hone | hneg, heq⟩
  · simp [hzero, hne]
  · simp [hone, heq]
  · simp [hneg, hfresh]

theorem count_fresh_recolor (hlen : sides.length = P.length) (hfresh : fresh ∉ P) :
    (recolor fresh P sides).count fresh = sides.count (-1) := by
  have hsnd : (P.zip sides).map Prod.snd = sides := List.map_snd_zip hlen.le
  conv_rhs => rw [← hsnd]
  rw [recolor, List.count_eq_countP, List.count_eq_countP, List.countP_map, List.countP_map]
  apply List.countP_congr
  intro p hp
  have hne : p.1 ≠ fresh := fun h => hfresh (h ▸ (List.of_mem_zip hp).1)
  by_cases hneg : p.2 = -1 <;> simp [hneg, hne]

theorem count_other_recolor (hlen : sides.length = P.length) (hsides : SidesOf color P sides)
    {c : ℕ} (hcolor : c ≠ color) (hfresh : c ≠ fresh) :
    (recolor fresh P sides).count c = P.count c := by
  have hfst : (P.zip sides).map Prod.fst = P := List.map_fst_zip hlen.ge
  conv_rhs => rw [← hfst]
  rw [recolor, List.count_eq_countP, List.count_eq_countP, List.countP_map, List.countP_map]
  apply List.countP_congr
  intro p hp
  rcases hsides p hp with ⟨hzero, hne⟩ | ⟨hone | hneg, heq⟩
  · simp [hzero]
  · simp [hone]
  · simp [hneg, heq, hfresh.symm, hcolor.symm]

end Recolor

/-- A part of the partition is split: one half keeps the colour, the other has a fresh one. -/
structure IsSplit (color fresh : ℕ) (P P' : List ℕ) : Prop where
  length_eq : P'.length = P.length
  other : ∀ i c : ℕ, P[i]? = some c → c ≠ color → P'[i]? = some c
  part : ∀ i : ℕ, P[i]? = some color → P'[i]? = some color ∨ P'[i]? = some fresh
  count_color : P'.count color = P.count color / 2
  count_fresh : P'.count fresh = P.count color - P.count color / 2
  count_other : ∀ c, c ≠ color → c ≠ fresh → P'.count c = P.count c

theorem getElem?_recolor {fresh i c : ℕ} {P : List ℕ} {sides : List ℤ}
    (hlen : sides.length = P.length) (hi : P[i]? = some c) :
    (recolor fresh P sides)[i]? = some (if sides.getD i 0 = -1 then fresh else c) := by
  obtain ⟨hlt, rfl⟩ := List.getElem?_eq_some_iff.mp hi
  rw [List.getD_eq_getElem sides 0 (hlen ▸ hlt), recolor, List.getElem?_map,
    List.getElem?_eq_getElem (by rw [List.length_zip, hlen, min_self]; exact hlt)]
  simp

/-- The vertices of a part, in some order. -/
structure IsPart (color : ℕ) (P vertices : List ℕ) : Prop where
  nodup : vertices.Nodup
  mem_iff : ∀ i, i ∈ vertices ↔ P[i]? = some color

theorem IsPart.lt_length {color : ℕ} {P vertices : List ℕ} (h : IsPart color P vertices) :
    ∀ i ∈ vertices, i < P.length := by
  intro i hi
  exact (List.getElem?_eq_some_iff.mp ((h.mem_iff i).mp hi)).1

theorem isPart_filter (color : ℕ) (P : List ℕ) :
    IsPart color P ((List.range P.length).filter fun i => P[i]? = some color) := by
  refine ⟨List.nodup_range.filter _, fun i => ?_⟩
  rw [List.mem_filter, List.mem_range, decide_eq_true_iff]
  refine ⟨And.right, fun h => ⟨(List.getElem?_eq_some_iff.mp h).1, h⟩⟩

theorem IsPart.perm {color : ℕ} {P l l' : List ℕ} (h : IsPart color P l) (hperm : l'.Perm l) :
    IsPart color P l' :=
  ⟨hperm.nodup_iff.mpr h.nodup, fun i => by rw [hperm.mem_iff, h.mem_iff]⟩

theorem countP_range_getElem? (P : List ℕ) (color : ℕ) :
    (List.range P.length).countP (fun i => decide (P[i]? = some color)) = P.count color := by
  induction P with
  | nil => rfl
  | cons c P ih =>
    rw [List.length_cons, List.range_succ_eq_map, List.countP_cons, List.countP_map,
      List.count_cons, ← ih]
    congr 1
    simp

theorem IsPart.length_eq {color : ℕ} {P vertices : List ℕ} (h : IsPart color P vertices) :
    vertices.length = P.count color := by
  rw [← countP_range_mem h.nodup h.lt_length, ← countP_range_getElem?]
  apply List.countP_congr
  intro i _
  rw [decide_eq_true_iff, decide_eq_true_iff, h.mem_iff]

/-- A rearrangement of the first sides splits a part into halves. -/
theorem isSplit_recolor {color fresh : ℕ} {P shuffled : List ℕ} {sides : List ℤ}
    (hpart : IsPart color P shuffled) (hfresh : fresh ∉ P) (hne : fresh ≠ color)
    (hsides : SameSides (initialSides P.length (P.count color / 2) shuffled) sides) :
    IsSplit color fresh P (recolor fresh P sides) := by
  have hlen : sides.length = P.length := by rw [hsides.length_eq]; simp [initialSides]
  have hvalue := hsides.isSides (isSides_initialSides _ _ _)
  have hzero : ∀ i < P.length, sides.getD i 0 = 0 ↔ P[i]? ≠ some color := by
    intro i hi
    rw [hsides.support, initialSides_eq_zero_iff hi, hpart.mem_iff]
  have hof : SidesOf color P sides := by
    intro p hp
    obtain ⟨i, hi, rfl⟩ := List.mem_iff_getElem.mp hp
    rw [List.length_zip, hlen, min_self] at hi
    have h := hzero i hi
    rw [List.getD_eq_getElem sides 0 (hlen ▸ hi), List.getElem?_eq_getElem hi] at h
    have hmem := hvalue _ (List.getElem_mem (hlen ▸ hi))
    rw [List.getElem_zip]
    by_cases heq : P[i] = color
    · refine Or.inr ⟨hmem.resolve_left fun h0 => ?_, heq⟩
      exact (h.mp h0) (by rw [heq])
    · exact Or.inl ⟨h.mpr fun hsome => heq (Option.some.inj hsome), heq⟩
  constructor
  · rw [recolor, List.length_map, List.length_zip, hlen, min_self]
  · intro i c hi hc
    have hlt := (List.getElem?_eq_some_iff.mp hi).1
    have h0 := (hzero i hlt).mpr (by rw [hi]; simpa using hc)
    rw [getElem?_recolor hlen hi, h0, if_neg (by decide)]
  · intro i hi
    rw [getElem?_recolor hlen hi]
    split_ifs
    · exact Or.inr rfl
    · exact Or.inl rfl
  · rw [count_color_recolor hlen hof hne, hsides.perm.count_eq,
      count_one_initialSides hpart.nodup hpart.lt_length, List.length_take, hpart.length_eq]
    omega
  · rw [count_fresh_recolor hlen hfresh, hsides.perm.count_eq,
      count_neg_initialSides hpart.nodup hpart.lt_length, List.length_drop, hpart.length_eq]
  · intro c hc hcf
    exact count_other_recolor hlen hof hc hcf

/-! ### All parts -/

section Run
variable {T : Type} [CommRing T] [LinearOrder T] {σ : Type}
  {shuffle : σ → List ℕ → List ℕ × σ} {W : ℕ → ℕ → T} {s : Partition σ}

/-- The colour that is new when the parts before have been split. -/
def freshColor (s : Partition σ) (color : ℕ) : ℕ :=
  s.numPartitions + (List.range color).countP fun c => 2 < s.P.count c

theorem freshColor_succ (color : ℕ) :
    freshColor s (color + 1) = freshColor s color + if 2 < s.P.count color then 1 else 0 := by
  rw [freshColor, List.range_succ, List.countP_append, freshColor, Nat.add_assoc]
  by_cases h : 2 < s.P.count color <;> simp [h]

theorem freshColor_mono {c d : ℕ} (h : c ≤ d) : freshColor s c ≤ freshColor s d := by
  apply Nat.add_le_add_left
  exact (List.range_sublist.mpr h).countP_le

/-- Parts that are split have different new colours. -/
theorem freshColor_lt {c d : ℕ} (h : c < d) (hc : 2 < s.P.count c) :
    freshColor s c < freshColor s d := by
  have hsucc := freshColor_succ (s := s) c
  have hmono := freshColor_mono (s := s) (show c + 1 ≤ d from h)
  rw [if_pos hc] at hsucc
  omega

/-- What `cluster_pairs` receives for a part. -/
def clusterPair (s : Partition σ) (color : ℕ) : ℕ × ℤ :=
  (color, if s.P.count color ≤ 2 then -(s.P.count color : ℤ) else freshColor s color)

/-- Where the loop is when the colours below `k` are done. -/
structure DoneBelow (s : Partition σ) (k : ℕ) (r : Partition σ × Bool) : Prop where
  length_eq : r.1.P.length = s.P.length
  kept : ∀ i c : ℕ, s.P[i]? = some c → (k ≤ c ∨ s.P.count c ≤ 2) → r.1.P[i]? = some c
  split : ∀ i c : ℕ, s.P[i]? = some c → c < k → 2 < s.P.count c →
    r.1.P[i]? = some c ∨ r.1.P[i]? = some (freshColor s c)
  pending : ∀ c, k ≤ c → c < s.numPartitions → r.1.P.count c = s.P.count c
  halves : ∀ c < k, 2 < s.P.count c → r.1.P.count c = s.P.count c / 2 ∧
    r.1.P.count (freshColor s c) = s.P.count c - s.P.count c / 2
  numPartitions : r.1.numPartitions = freshColor s k
  clusterPairs : r.1.clusterPairs = s.clusterPairs ++ (List.range k).map (clusterPair s)
  stop : r.2 = true ↔ ∀ c < k, s.P.count c ≤ 2

theorem DoneBelow.zero (s : Partition σ) : DoneBelow s 0 (s, true) where
  length_eq := rfl
  kept _ _ h _ := h
  split _ _ _ h := absurd h (Nat.not_lt_zero _)
  pending _ _ _ := rfl
  halves _ h := absurd h (Nat.not_lt_zero _)
  numPartitions := rfl
  clusterPairs := (List.append_nil _).symm
  stop := ⟨fun _ _ h => absurd h (Nat.not_lt_zero _), fun _ => rfl⟩

/-- A vertex has its colour, or the new one of its part. -/
theorem DoneBelow.getElem?_cases {k : ℕ} {r : Partition σ × Bool} (h : DoneBelow s k r) {i d : ℕ}
    (hi : r.1.P[i]? = some d) : ∃ c, s.P[i]? = some c ∧
      (d = c ∨ d = freshColor s c ∧ c < k ∧ 2 < s.P.count c) := by
  have hlt := (List.getElem?_eq_some_iff.mp hi).1
  rw [h.length_eq] at hlt
  refine ⟨s.P[i], List.getElem?_eq_getElem hlt, ?_⟩
  by_cases hdone : s.P[i] < k ∧ 2 < s.P.count s.P[i]
  · rcases h.split i _ (List.getElem?_eq_getElem hlt) hdone.1 hdone.2 with hc | hc
    · exact Or.inl (Option.some.inj (hi.symm.trans hc))
    · exact Or.inr ⟨Option.some.inj (hi.symm.trans hc), hdone⟩
  · have hc := h.kept i _ (List.getElem?_eq_getElem hlt) (by omega)
    exact Or.inl (Option.some.inj (hi.symm.trans hc))

/-- The new colours are not in use. -/
theorem DoneBelow.not_mem_fresh {k : ℕ} {r : Partition σ × Bool} (h : DoneBelow s k r)
    (hcolors : ∀ c ∈ s.P, c < s.numPartitions) : freshColor s k ∉ r.1.P := by
  intro hmem
  obtain ⟨i, hi⟩ := List.mem_iff_getElem?.mp hmem
  obtain ⟨c, hc, heq | ⟨heq, hlt, hsplit⟩⟩ := h.getElem?_cases hi
  · have hbound := hcolors c (List.mem_iff_getElem?.mpr ⟨i, hc⟩)
    have hfresh : s.numPartitions ≤ freshColor s k := Nat.le_add_right _ _
    omega
  · exact absurd heq (freshColor_lt hlt hsplit).ne'

theorem splitCluster_small {histogram : ℕ → ℕ} {k : ℕ} (r : Partition σ × Bool)
    (h : histogram k ≤ 2) :
    splitCluster shuffle W histogram r k =
      some ({ r.1 with clusterPairs := r.1.clusterPairs ++ [(k, -(histogram k : ℤ))] }, r.2) := by
  rw [splitCluster]
  exact if_pos h

/-- Whatever the shuffle does, a part of more than two is split. -/
theorem splitCluster_large (hshuffle : ∀ gen l, (shuffle gen l).1.Perm l) (histogram : ℕ → ℕ)
    {k : ℕ} {r : Partition σ × Bool} (h : 2 < histogram k) (hsize : r.1.P.count k = histogram k)
    (hfresh : r.1.numPartitions ∉ r.1.P) :
    ∃ P gen, splitCluster shuffle W histogram r k =
        some (⟨P, r.1.numPartitions + 1, r.1.clusterPairs ++ [(k, (r.1.numPartitions : ℤ))], gen⟩,
          false) ∧
      IsSplit k r.1.numPartitions r.1.P P := by
  have hne : r.1.numPartitions ≠ k := by
    rintro rfl
    rw [List.count_eq_zero_of_not_mem hfresh] at hsize
    omega
  have hpart := (isPart_filter k r.1.P).perm (hshuffle r.1.gen _)
  generalize hshuffled : shuffle r.1.gen ((List.range r.1.P.length).filter fun i =>
    r.1.P[i]? = some k) = shuffled at hpart
  have hrefine : ∃ sides, refine W (histogram k) (r.1.P.length + 1)
      (initialSides r.1.P.length (histogram k / 2) shuffled.1) ((0 : ℤ) : T) 0 = some sides ∧
        SameSides (initialSides r.1.P.length (histogram k / 2) shuffled.1) sides :=
    refine_sameSides (isSides_initialSides _ _ _) (SameSides.refl _) (Nat.zero_le _)
  obtain ⟨sides, hsome, hsides⟩ := hrefine
  refine ⟨recolor r.1.numPartitions r.1.P sides, shuffled.2, ?_,
    isSplit_recolor hpart hfresh hne (hsize ▸ hsides)⟩
  have hloop : splitCluster shuffle W histogram r k =
      (refine W (histogram k) (r.1.P.length + 1)
        (initialSides r.1.P.length (histogram k / 2) shuffled.1) ((0 : ℤ) : T) 0).bind fun sides =>
          some (⟨recolor r.1.numPartitions r.1.P sides, r.1.numPartitions + 1,
            r.1.clusterPairs ++ [(k, (r.1.numPartitions : ℤ))], shuffled.2⟩, false) := by
    rw [splitCluster, ← hshuffled]
    exact if_neg (not_le.mpr h)
  rw [hloop, hsome]
  rfl

theorem DoneBelow.small {k : ℕ} {r : Partition σ × Bool} (h : DoneBelow s k r)
    (hsmall : s.P.count k ≤ 2) :
    DoneBelow s (k + 1)
      ({ r.1 with clusterPairs := r.1.clusterPairs ++ [(k, -(s.P.count k : ℤ))] }, r.2) := by
  have hbelow : ∀ c < k + 1, 2 < s.P.count c → c < k := by
    rintro c hc hsplit
    rcases Nat.lt_succ_iff_lt_or_eq.mp hc with hc | rfl
    · exact hc
    · omega
  constructor
  · exact h.length_eq
  · exact fun i c hi hc => h.kept i c hi (hc.imp_left Nat.le_of_succ_le)
  · exact fun i c hi hc hsplit => h.split i c hi (hbelow c hc hsplit) hsplit
  · exact fun c hc => h.pending c (Nat.le_of_succ_le hc)
  · exact fun c hc hsplit => h.halves c (hbelow c hc hsplit) hsplit
  · rw [freshColor_succ, if_neg (not_lt.mpr hsmall)]
    exact h.numPartitions
  · dsimp only
    rw [h.clusterPairs, List.range_succ, List.map_append, List.append_assoc, List.map_singleton,
      clusterPair, if_pos hsmall]
  · rw [h.stop, Nat.forall_lt_succ_right]
    exact (and_iff_left hsmall).symm

theorem DoneBelow.large {k : ℕ} {r : Partition σ × Bool} (h : DoneBelow s k r)
    (hk : k < s.numPartitions) (hlarge : 2 < s.P.count k) {P : List ℕ} {gen : σ}
    (hsplit : IsSplit k (freshColor s k) r.1.P P) :
    DoneBelow s (k + 1) (⟨P, freshColor s k + 1,
      r.1.clusterPairs ++ [(k, (freshColor s k : ℤ))], gen⟩, false) := by
  have hfresh : ∀ c, s.numPartitions ≤ freshColor s c := fun c => Nat.le_add_right _ _
  have hfreshk := hfresh k
  constructor
  · exact hsplit.length_eq.trans h.length_eq
  · intro i c hi hc
    have hck : c ≠ k := by
      rintro rfl
      omega
    exact hsplit.other i c (h.kept i c hi (hc.imp_left Nat.le_of_succ_le)) hck
  · intro i c hi hc hcount
    rcases Nat.lt_succ_iff_lt_or_eq.mp hc with hc | rfl
    · have hfreshc := hfresh c
      rcases h.split i c hi hc hcount with hi' | hi'
      · exact Or.inl (hsplit.other i c hi' hc.ne)
      · exact Or.inr (hsplit.other i _ hi' (by omega))
    · exact hsplit.part i (h.kept i c hi (Or.inl le_rfl))
  · intro c hc hcn
    rw [← h.pending c (Nat.le_of_succ_le hc) hcn]
    exact hsplit.count_other c (by omega) (by omega)
  · intro c hc hcount
    rcases Nat.lt_succ_iff_lt_or_eq.mp hc with hc | rfl
    · have hfreshc := hfresh c
      have hlt := freshColor_lt hc hcount
      dsimp only
      rw [hsplit.count_other c hc.ne (by omega),
        hsplit.count_other (freshColor s c) (by omega) hlt.ne]
      exact h.halves c hc hcount
    · rw [← h.pending c le_rfl hk]
      exact ⟨hsplit.count_color, hsplit.count_fresh⟩
  · rw [freshColor_succ, if_pos hlarge]
  · dsimp only
    rw [h.clusterPairs, List.range_succ, List.map_append, List.append_assoc, List.map_singleton,
      clusterPair, if_neg (not_le.mpr hlarge)]
  · refine ⟨fun h => absurd h Bool.false_ne_true, fun hall => ?_⟩
    exact absurd (hall k (Nat.lt_succ_self k)) (not_le.mpr hlarge)

/-- One pass of the loop over the colours. -/
theorem DoneBelow.step (hshuffle : ∀ gen l, (shuffle gen l).1.Perm l)
    (hcolors : ∀ c ∈ s.P, c < s.numPartitions) {k : ℕ} (hk : k < s.numPartitions)
    {r : Partition σ × Bool} (h : DoneBelow s k r) :
    ∃ r', splitCluster shuffle W (fun color => s.P.count color) r k = some r' ∧
      DoneBelow s (k + 1) r' := by
  rcases Nat.lt_or_ge 2 (s.P.count k) with hlarge | hsmall
  · have hnew := h.not_mem_fresh hcolors
    rw [← h.numPartitions] at hnew
    obtain ⟨P, gen, hsome, hsplit⟩ := splitCluster_large (W := W) hshuffle
      (fun color => s.P.count color) hlarge (h.pending k le_rfl hk) hnew
    rw [h.numPartitions] at hsome hsplit
    exact ⟨_, hsome, h.large hk hlarge hsplit⟩
  · exact ⟨_, splitCluster_small r hsmall, h.small hsmall⟩

theorem DoneBelow.run (hshuffle : ∀ gen l, (shuffle gen l).1.Perm l)
    (hcolors : ∀ c ∈ s.P, c < s.numPartitions) {k : ℕ} (hk : k ≤ s.numPartitions) :
    ∃ r, (List.range k).foldlM (splitCluster shuffle W fun color => s.P.count color) (s, true) =
      some r ∧ DoneBelow s k r := by
  induction k with
  | zero => exact ⟨_, rfl, DoneBelow.zero s⟩
  | succ k ih =>
    obtain ⟨r, hr, hdone⟩ := ih (Nat.le_of_succ_le hk)
    obtain ⟨r', hr', hdone'⟩ := hdone.step (W := W) hshuffle hcolors hk
    refine ⟨r', ?_, hdone'⟩
    rw [List.range_succ, List.foldlM_append, hr]
    simpa using hr'

/-- What a call does to the parts: those of more than two are halved, and the new halves have
new colours. -/
structure Halves (s s' : Partition σ) (fresh : ℕ → ℕ) : Prop where
  length_eq : s'.P.length = s.P.length
  kept : ∀ i c : ℕ, s.P[i]? = some c → s.P.count c ≤ 2 → s'.P[i]? = some c
  split : ∀ i c : ℕ, s.P[i]? = some c → 2 < s.P.count c →
    s'.P[i]? = some c ∨ s'.P[i]? = some (fresh c)
  count_color : ∀ c < s.numPartitions, 2 < s.P.count c → s'.P.count c = s.P.count c / 2
  count_fresh : ∀ c < s.numPartitions, 2 < s.P.count c →
    s'.P.count (fresh c) = (s.P.count c + 1) / 2
  fresh_new : ∀ c < s.numPartitions, 2 < s.P.count c →
    s.numPartitions ≤ fresh c ∧ fresh c < s'.numPartitions
  fresh_inj : ∀ c < s.numPartitions, ∀ d < s.numPartitions, 2 < s.P.count c → 2 < s.P.count d →
    fresh c = fresh d → c = d
  numPartitions : s'.numPartitions =
    s.numPartitions + (List.range s.numPartitions).countP fun c => 2 < s.P.count c
  clusterPairs : s'.clusterPairs = s.clusterPairs ++ (List.range s.numPartitions).map fun c =>
    (c, if s.P.count c ≤ 2 then -(s.P.count c : ℤ) else fresh c)

/-- For all weights and all shuffles there is a result, in which the parts are halved, and it
says to stop exactly if no part was. Moves are between vertices of the graph. -/
theorem kernighanLin_halves (W : ℕ → ℕ → T) (shuffle : σ → List ℕ → List ℕ × σ)
    (hshuffle : ∀ gen l, (shuffle gen l).1.Perm l) (s : Partition σ)
    (hcolors : ∀ c ∈ s.P, c < s.numPartitions) :
    (∀ (P : List ℤ) (D : List T) (used : List ℕ) (a b : ℕ),
      (findBestMove W P D used).1 = some (a, b) → a < P.length ∧ b < P.length) ∧
    ∃ s' stop fresh, kernighanLin shuffle W s = some (s', stop) ∧ Halves s s' fresh ∧
      (stop = true ↔ ∀ c < s.numPartitions, s.P.count c ≤ 2) := by
  constructor
  · intro P D used a b hmove
    obtain ⟨-, -, ha, hb, -⟩ := (findBestMove_isCandidate P D used).2 a b hmove
    exact ⟨lt_length_of_getD_ne ha, lt_length_of_getD_ne hb⟩
  · obtain ⟨⟨s', stop⟩, hrun, hdone⟩ := DoneBelow.run (W := W) hshuffle hcolors le_rfl
    refine ⟨s', stop, freshColor s, hrun, ?_, hdone.stop⟩
    have hlt : ∀ {i c : ℕ}, s.P[i]? = some c → c < s.numPartitions := fun hi =>
      hcolors _ (List.mem_iff_getElem?.mpr ⟨_, hi⟩)
    constructor
    · exact hdone.length_eq
    · exact fun i c hi hc => hdone.kept i c hi (Or.inr hc)
    · exact fun i c hi hc => hdone.split i c hi (hlt hi) hc
    · exact fun c hc hsplit => (hdone.halves c hc hsplit).1
    · intro c hc hsplit
      have h := (hdone.halves c hc hsplit).2
      dsimp only at h
      omega
    · intro c hc hsplit
      have h := freshColor_lt hc hsplit
      rw [← hdone.numPartitions] at h
      exact ⟨Nat.le_add_right _ _, h⟩
    · intro c _ d _ hc hd heq
      rcases lt_trichotomy c d with h | h | h
      · exact absurd heq (freshColor_lt h hc).ne
      · exact h
      · exact absurd heq (freshColor_lt h hd).ne'
    · exact hdone.numPartitions
    · exact hdone.clusterPairs

end Run

theorem kernighanLin_halves_four : ∃ s' fresh,
    kernighanLin (fun (gen : ℕ) l => (l.reverse, gen + 1)) (fun i j => ((i + j : ℕ) : ℤ))
      ⟨[0, 1, 0, 0], 2, [], 0⟩ = some (s', false) ∧
      Halves (⟨[0, 1, 0, 0], 2, [], 0⟩ : Partition ℕ) s' fresh := by
  obtain ⟨-, s', stop, fresh, hsome, hhalves, hstop⟩ := kernighanLin_halves
    (fun i j => ((i + j : ℕ) : ℤ)) (fun (gen : ℕ) l => (l.reverse, gen + 1))
    (fun _ l => List.reverse_perm l) ⟨[0, 1, 0, 0], 2, [], 0⟩ (by decide)
  have hfalse : stop = false := by
    rw [← Bool.not_eq_true, hstop]
    decide
  rw [hfalse] at hsome
  exact ⟨s', fresh, hsome, hhalves⟩

end GpuTopology
end NetStorm

import NetStorm.TreeSum

/-!
# A level of the reduction

The two loops of `ReduceInner` over a level, on the pairs of its nodes. The copy buffer of a
destination is that of its last sender, but it is summed once for every sender, by every pair
that has the destination.
-/
namespace NetStorm
namespace CommTree

variable {M : Type} {n : ℕ} {ps : List (ℕ × ℕ)}

@[simp] theorem expand_cons (p : ℕ × ℕ) (ps : List (ℕ × ℕ)) :
    expand (p :: ps) = p.1 :: p.2 :: expand ps := rfl

/-- The copies of a pair. -/
def copyPair (s : LevelCopy M) (p : ℕ × ℕ) : LevelCopy M where
  isDest := 0
  destId := p.1
  bufs := if p.1 = p.2 then s.bufs else
    { s.bufs with copyBuf := Function.update s.bufs.copyBuf p.1 (s.bufs.merged p.2) }
  reduce :=
    let own := if s.reduce p.1 = [] then [Slot.merged] else s.reduce p.1
    Function.update s.reduce p.1 (if p.1 = p.2 then own else own ++ [.copyBuf])

theorem copyStep_pair {s : LevelCopy M} (hs : s.isDest = 0) {p : ℕ × ℕ} (h₁ : p.1 < n)
    (h₂ : p.2 < n) :
    (copyStep n s p.1).bind (fun s => copyStep n s p.2) = some (copyPair s p) := by
  obtain ⟨isDest, destId, bufs, reduce⟩ := s
  obtain rfl : isDest = 0 := hs
  obtain ⟨d, f⟩ := p
  by_cases heq : d = f
  · subst heq
    by_cases hnil : reduce d = [] <;>
      simp [copyStep, copyPair, kBranch, not_le.mpr h₁, hnil]
  · by_cases hnil : reduce d = [] <;>
      simp [copyStep, copyPair, kBranch, not_le.mpr h₁, not_le.mpr h₂, heq, hnil]

theorem foldlM_copyStep (hlt : ∀ g ∈ expand ps, g < n) {s : LevelCopy M} (hs : s.isDest = 0) :
    (expand ps).foldlM (copyStep n) s = some (ps.foldl copyPair s) := by
  induction ps generalizing s with
  | nil => rfl
  | cons p ps ih =>
    have h₁ : p.1 < n := hlt _ (by simp)
    have h₂ : p.2 < n := hlt _ (by simp)
    rw [expand_cons, List.foldlM_cons, List.foldl_cons]
    simp only [List.foldlM_cons, Option.bind_eq_bind]
    rw [← Option.bind_assoc, copyStep_pair hs h₁ h₂, Option.bind_some]
    exact ih (fun g hg => hlt g (by simp [hg])) rfl

theorem sends_append (ps : List (ℕ × ℕ)) (p : ℕ × ℕ) :
    sends (ps ++ [p]) = if p.1 = p.2 then sends ps else sends ps ++ [p] := by
  by_cases h : p.1 = p.2 <;> simp [sends, h]

theorem received_append (ps : List (ℕ × ℕ)) (p : ℕ × ℕ) (d : ℕ) :
    received (ps ++ [p]) d = received ps d + if p.1 ≠ p.2 ∧ p.1 = d then 1 else 0 := by
  rw [received, sends_append]
  by_cases h : p.1 = p.2
  · simp [h, received]
  · rw [if_neg h, List.map_append, List.count_append]
    simp [h, received, List.count_singleton]

theorem lastFrom_append (ps : List (ℕ × ℕ)) (p : ℕ × ℕ) (d : ℕ) :
    lastFrom (ps ++ [p]) d = if p.1 ≠ p.2 ∧ p.1 = d then some p.2 else lastFrom ps d := by
  rw [lastFrom, sends_append]
  by_cases h : p.1 = p.2
  · simp [h, lastFrom]
  · rw [if_neg h, List.reverse_append, List.reverse_singleton, List.singleton_append,
      List.find?_cons]
    by_cases hd : p.1 = d
    · simp [hd, hd ▸ h]
    · simp [hd, lastFrom]

/-- What the copies leave: the last sender in the copy buffer, and a reference to it for each. -/
theorem foldl_copyPair (bufs : TreeBuffers M) (ps : List (ℕ × ℕ)) :
    let s := ps.foldl copyPair ⟨0, 0, bufs, fun _ => []⟩
    s.bufs.merged = bufs.merged ∧
      (∀ d, s.bufs.copyBuf d = (lastFrom ps d).elim (bufs.copyBuf d) bufs.merged) ∧
      ∀ d, s.reduce d = if d ∈ ps.map Prod.fst then
        .merged :: List.replicate (received ps d) .copyBuf else [] := by
  induction ps using List.reverseRecOn with
  | nil => simp [lastFrom, sends]
  | append_singleton ps p ih =>
    obtain ⟨hmerged, hcopy, hreduce⟩ := ih
    rw [List.foldl_append]
    set s := ps.foldl copyPair ⟨0, 0, bufs, fun _ => []⟩
    refine ⟨?_, fun d => ?_, fun d => ?_⟩
    · by_cases h : p.1 = p.2 <;> simp [copyPair, h, hmerged]
    · rw [lastFrom_append]
      by_cases h : p.1 = p.2
      · simp [copyPair, h, hcopy]
      · by_cases hd : p.1 = d
        · simp [copyPair, hd ▸ h, hd, hmerged]
        · simp [copyPair, h, hd, Function.update_of_ne (Ne.symm hd), hcopy]
    · rw [received_append]
      have hown : (if s.reduce p.1 = [] then [Slot.merged] else s.reduce p.1) =
          .merged :: List.replicate (received ps p.1) .copyBuf := by
        rw [hreduce]
        by_cases hmem : p.1 ∈ ps.map Prod.fst
        · simp [hmem]
        · have hzero : received ps p.1 = 0 := List.count_eq_zero.mpr fun hsend => hmem (by
            obtain ⟨q, hq, hqp⟩ := List.mem_map.mp hsend
            exact List.mem_map.mpr ⟨q, (mem_of_mem_sends hq).1, hqp⟩)
          simp [hmem, hzero]
      by_cases hd : p.1 = d
      · subst hd
        by_cases h : p.1 = p.2
        · simp [copyPair, h, h ▸ hown]
        · simp [copyPair, h, hown, List.replicate_succ']
      · have hmem : d ∈ (ps ++ [p]).map Prod.fst ↔ d ∈ ps.map Prod.fst := by
          simp only [List.map_append, List.map_singleton, List.mem_append, List.mem_singleton,
            Ne.symm hd, or_false]
        have hsame : ¬ (p.1 ≠ p.2 ∧ p.1 = d) := fun h => hd h.2
        rw [if_congr hmem rfl rfl, if_neg hsame, add_zero, ← hreduce]
        exact Function.update_of_ne (Ne.symm hd) _ _

section Sum
variable [AddCommMonoid M]

theorem sum_slots (bufs : TreeBuffers M) (gpu k : ℕ) :
    ((.merged :: List.replicate k .copyBuf).map (bufs.value gpu)).sum =
      bufs.merged gpu + k • bufs.copyBuf gpu := by
  simp [TreeBuffers.value]

/-- Every pair with something to send adds the copy buffer of its destination `k` times. -/
theorem foldlM_sumStep {topology rest : List ℕ} {reduce : ℕ → List Slot} {k : ℕ → ℕ}
    (hlt : ∀ g ∈ expand ps, g < n)
    (hreduce : ∀ p ∈ ps, reduce p.1 = .merged :: List.replicate (k p.1) .copyBuf)
    (hk : ∀ p ∈ sends ps, 0 < k p.1) {source : ℕ} (hsource : topology.drop source = expand ps ++ rest)
    (bufs : TreeBuffers M) :
    ∃ bufs', (ps.map Prod.fst).foldlM (sumStep n topology reduce) (bufs, source) =
        some (bufs', source + 2 * ps.length) ∧ bufs'.copyBuf = bufs.copyBuf ∧
      ∀ d, bufs'.merged d = bufs.merged d + received ps d • (k d • bufs.copyBuf d) := by
  induction ps generalizing bufs source with
  | nil => exact ⟨bufs, rfl, rfl, fun d => by simp [received, sends]⟩
  | cons p ps ih =>
    have hfirst : topology[source]? = some p.1 := by
      have := congrArg (·[0]?) hsource
      simpa using this
    have hsecond : topology[source + 1]? = some p.2 := by
      have := congrArg (·[1]?) hsource
      simpa using this
    have hsource' : topology.drop (source + 2) = expand ps ++ rest := by
      rw [← List.drop_drop, hsource]
      rfl
    have hp : ¬ n ≤ p.1 := not_le.mpr (hlt p.1 (by simp))
    have hreduce' : ∀ q ∈ ps, reduce q.1 = .merged :: List.replicate (k q.1) .copyBuf :=
      fun q hq => hreduce q (List.mem_cons_of_mem _ hq)
    have hlt' : ∀ g ∈ expand ps, g < n := fun g hg => hlt g (by simp [hg])
    rw [List.map_cons, List.foldlM_cons]
    by_cases heq : p.1 = p.2
    · have hsends : sends (p :: ps) = sends ps := by simp [sends, heq]
      obtain ⟨bufs', hrun, hcopy, hmerged⟩ := ih hlt' hreduce' (hsends ▸ hk) hsource' bufs
      refine ⟨bufs', ?_, hcopy, by simpa [received, hsends] using hmerged⟩
      simp only [sumStep, hfirst, hsecond, Option.bind_eq_bind, Option.bind_some, heq, ne_eq,
        not_true_eq_false, and_false, if_false]
      rw [← heq, if_neg hp, Option.bind_some, hrun, List.length_cons]
      congr 2
      omega
    · have hsends : sends (p :: ps) = p :: sends ps := by simp [sends, heq]
      have hpos : 0 < k p.1 := hk p (by simp [hsends])
      have hown := hreduce p List.mem_cons_self
      have hmore : 1 < (reduce p.1).length ∧ p.1 ≠ p.2 := ⟨by rw [hown]; simpa using hpos, heq⟩
      obtain ⟨bufs', hrun, hcopy, hmerged⟩ := ih hlt' hreduce'
        (fun q hq => hk q (by simp [hsends, hq])) hsource' { bufs with
          merged := Function.update bufs.merged p.1
            ((reduce p.1).map (bufs.value p.1)).sum }
      refine ⟨bufs', ?_, hcopy, fun d => ?_⟩
      · simp only [sumStep, hfirst, hsecond, Option.bind_eq_bind, Option.bind_some, if_neg hp,
          if_pos hmore]
        rw [hrun, List.length_cons]
        congr 2
        omega
      · rw [hmerged d, received, received, hsends, List.map_cons, List.count_cons]
        by_cases hd : d = p.1
        · subst hd
          simp only [Function.update_self, hown, sum_slots, beq_self_eq_true, if_true, add_smul,
            one_smul]
          rw [add_assoc, add_comm (_ • (_ • _)), add_comm (k p.1 • _)]
        · simp [Function.update_of_ne hd, Ne.symm hd]

/-- A level of the reduction on the pairs of its nodes. -/
theorem reduceLevel_eq {topology scan : List ℕ} {level : ℕ} (hlt : ∀ g ∈ expand ps, g < n)
    (hids : levelIds topology scan level = some (expand ps))
    (hparents : levelIds topology scan (level - 1) = some (ps.map Prod.fst))
    (bufs : TreeBuffers M) :
    ∃ bufs', reduceLevel n topology scan bufs level = some bufs' ∧
      bufs'.merged = levelSum ps bufs.merged := by
  have hids' := hids
  simp only [levelIds, Option.bind_eq_bind, Option.bind_eq_some_iff] at hids'
  obtain ⟨source, hsource, stop, -, hslice⟩ := hids'
  split_ifs at hslice
  have hdrop : topology.drop source = expand ps ++ (topology.drop source).drop (stop - source) := by
    rw [← Option.some.inj hslice, List.take_append_drop]
  obtain ⟨hmerged, hcopy, hreduce⟩ := foldl_copyPair bufs ps
  set s := ps.foldl copyPair ⟨0, 0, bufs, fun _ => []⟩
  have hslots : ∀ p ∈ ps, s.reduce p.1 = .merged :: List.replicate (received ps p.1) .copyBuf :=
    fun p hp => by rw [hreduce, if_pos (List.mem_map_of_mem hp)]
  obtain ⟨bufs', hrun, -, hsum⟩ := foldlM_sumStep hlt hslots
    (fun p hp => List.count_pos_iff.mpr (List.mem_map_of_mem hp)) hdrop s.bufs
  refine ⟨bufs', ?_, funext fun d => ?_⟩
  · simp only [reduceLevel, hids, hparents, hsource, Option.bind_eq_bind, Option.bind_some,
      foldlM_copyStep hlt]
    rw [hrun, Option.bind_some]
  · rw [hsum, hmerged, hcopy, levelSum, smul_smul]
    cases hlast : lastFrom ps d with
    | some f => rfl
    | none =>
      have hzero : received ps d = 0 := List.count_eq_zero.mpr fun hmem => by
        obtain ⟨f, hf⟩ := lastFrom_isSome hmem
        simp [hf] at hlast
      simp [hzero]

end Sum

end CommTree
end NetStorm

import NetStorm.KVWorker
import Mathlib.Algebra.BigOperators.Group.List.Basic
import Mathlib.Algebra.BigOperators.Ring.Finset
import Mathlib.Data.List.SplitLengths
import Mathlib.Data.List.TakeWhile

/-!
# Cutting a request into slices

`DefaultSlicer` cuts the keys, values and lengths of a request at the ends of the ranges of
the servers. It moves a position in the keys and an offset in the values, and it leaves out
the servers that have no key. What a failed check of the source stops has no result here.
The arrays are sorted where `std::lower_bound` is used on them.
-/
namespace NetStorm

/-- `std::lower_bound` as an index, on a sorted array. -/
def lowerBound (l : List ℕ) (x : ℕ) : ℕ := (l.takeWhile (· < x)).length

/-- `SArray::segment`. -/
def segment {β : Type} (l : List β) (first last : ℤ) : Option (List β) :=
  if 0 ≤ first ∧ first ≤ last ∧ last ≤ l.length then
    some ((l.drop first.toNat).take (last - first).toNat)
  else none

/-- `Range` as its begin and its end. -/
def InRange (r : ℕ × ℕ) (key : ℕ) : Prop := r.1 ≤ key ∧ key < r.2

instance (r : ℕ × ℕ) : DecidablePred (InRange r) :=
  fun key => inferInstanceAs (Decidable (r.1 ≤ key ∧ key < r.2))

/-- `Postoffice::GetServerKeyRanges`. -/
def serverKeyRanges (n : ℕ) : List (ℕ × ℕ) :=
  (List.range n).map fun i => (rangeBegin n i, rangeEnd n i)

/-- `pos[i+1]` and the later positions, for the position `pos[i]` and the end of the range
before. -/
def positionsFrom (keys : List ℕ) (pos prev : ℕ) : List (ℕ × ℕ) → Option (List ℕ)
  | [] => some []
  | r :: ranges =>
    if prev ≠ r.1 then none
    else
      let next := pos + lowerBound (keys.drop pos) r.2
      (positionsFrom keys next r.2 ranges).map (next :: ·)

/-- The array `pos` of `DefaultSlicer`. -/
def positions (keys : List ℕ) : List (ℕ × ℕ) → Option (List ℕ)
  | [] => some [0]
  | r :: ranges =>
    let pos := lowerBound keys r.1
    (positionsFrom keys pos r.1 (r :: ranges)).map (pos :: ·)

namespace KVPairs
variable {α : Type}

/-- The loop of `DefaultSlicer` over the servers. A server that gets nothing is not marked. -/
def sliceLoop (send : KVPairs (List α)) (k : ℕ) (valBegin : ℤ) :
    List ℕ → Option (List (Bool × KVPairs (List α)))
  | p :: q :: pos =>
    if q = p then (sliceLoop send k valBegin (q :: pos)).map ((false, ⟨[], [], []⟩) :: ·)
    else do
      let keys ← segment send.keys p q
      if send.lens = [] then
        let vals ← segment send.vals (p * k : ℕ) (q * k : ℕ)
        (sliceLoop send k valBegin (q :: pos)).map ((true, ⟨keys, vals, []⟩) :: ·)
      else
        let lens ← segment send.lens p q
        let valEnd := valBegin + lens.sum
        let vals ← segment send.vals valBegin valEnd
        (sliceLoop send k valEnd (q :: pos)).map ((true, ⟨keys, vals, lens⟩) :: ·)
  | _ => some []

/-- `KVWorker::DefaultSlicer` with the values. -/
def defaultSlicer (ranges : List (ℕ × ℕ)) (send : KVPairs (List α)) :
    Option (List (Bool × KVPairs (List α))) := do
  let pos ← positions send.keys ranges
  if pos.getLast? ≠ some send.keys.length then none
  else if send.keys = [] then some (ranges.map fun _ => (false, ⟨[], [], []⟩))
  else if send.lens = [] then
    let k := send.vals.length / send.keys.length
    if k * send.keys.length ≠ send.vals.length then none else sliceLoop send k 0 pos
  else if send.keys.length ≠ send.lens.length then none
  else sliceLoop send 0 0 pos

/-- One length for every key, or values of equal lengths. -/
def WellFormed (kv : KVPairs (List α)) : Prop :=
  (kv.lens.length = kv.keys.length ∧ (∀ l ∈ kv.lens, 0 ≤ l) ∧ kv.lens.sum = kv.vals.length) ∨
    (kv.lens = [] ∧ kv.keys.length ∣ kv.vals.length)

/-- The number of values of every key. -/
def valLens (kv : KVPairs (List α)) : List ℕ :=
  if kv.lens = [] then List.replicate kv.keys.length (kv.vals.length / kv.keys.length)
  else kv.lens.map Int.toNat

/-- The keys with their values. -/
def entries (kv : KVPairs (List α)) : List (ℕ × List α) :=
  kv.keys.zip (kv.valLens.splitLengths kv.vals)

/-- The arrays of some keys with their values, with lengths or without. -/
def ofEntries (withLens : Bool) (es : List (ℕ × List α)) : KVPairs (List α) where
  keys := es.map Prod.fst
  vals := es.flatMap Prod.snd
  lens := if withLens then es.map fun e => (e.2.length : ℤ) else []

/-- The keys of a range, with their values and lengths. -/
def restrict (kv : KVPairs (List α)) (r : ℕ × ℕ) : KVPairs (List α) :=
  ofEntries (kv.lens ≠ []) (kv.entries.filter fun e => InRange r e.1)

/-- The arrays one after another. -/
def concat (kvs : List (KVPairs (List α))) : KVPairs (List α) :=
  ⟨kvs.flatMap keys, kvs.flatMap vals, kvs.flatMap lens⟩

/-- The slices that are sent. -/
def marked (sliced : List (Bool × KVPairs (List α))) : List (KVPairs (List α)) :=
  (sliced.filter fun s => s.1).map Prod.snd

end KVPairs

theorem segment_append {β : Type} (a b c : List β) :
    segment (a ++ (b ++ c)) a.length (a.length + b.length : ℕ) = some b := by
  have h : (0 : ℤ) ≤ a.length ∧ (a.length : ℤ) ≤ (a.length + b.length : ℕ) ∧
      ((a.length + b.length : ℕ) : ℤ) ≤ (a ++ (b ++ c)).length := by
    simp only [List.length_append]
    omega
  have hlen : ((a.length + b.length : ℕ) - (a.length : ℤ)).toNat = b.length := by omega
  unfold segment
  rw [if_pos h, hlen, Int.toNat_natCast, List.drop_left, List.take_left]

theorem lowerBound_append {a c : List ℕ} {x : ℕ} (ha : ∀ y ∈ a, y < x) (hc : ∀ y ∈ c, x ≤ y) :
    lowerBound (a ++ c) x = a.length := by
  have hnil : c.takeWhile (· < x) = [] := by
    cases c with
    | nil => rfl
    | cons y c => simp [not_lt.mpr (hc y (by simp))]
  unfold lowerBound
  rw [List.takeWhile_append_of_pos (by simpa using ha), hnil, List.append_nil]

/-- Every range begins where the range before ends. -/
def Contiguous (prev : ℕ) : List (ℕ × ℕ) → Prop
  | [] => True
  | r :: ranges => prev = r.1 ∧ r.1 ≤ r.2 ∧ Contiguous r.2 ranges

theorem Contiguous.le_begin {prev : ℕ} {ranges : List (ℕ × ℕ)} (h : Contiguous prev ranges)
    {r : ℕ × ℕ} (hr : r ∈ ranges) : prev ≤ r.1 := by
  induction ranges generalizing prev with
  | nil => simp at hr
  | cons r' ranges ih =>
    obtain ⟨heq, hle, hrest⟩ := h
    rcases List.mem_cons.mp hr with rfl | hr
    · exact heq.le
    · have := ih hrest hr
      omega

theorem contiguous_map_range (n m i : ℕ) :
    Contiguous (rangeBegin n i)
      ((List.range m).map fun j => (rangeBegin n (i + j), rangeEnd n (i + j))) := by
  induction m generalizing i with
  | zero => trivial
  | succ m ih =>
    rw [List.range_succ_eq_map, List.map_cons, List.map_map]
    refine ⟨rfl, Nat.mul_le_mul_left _ (Nat.le_succ _), ?_⟩
    have h := ih (i + 1)
    have hfun : ((fun j => (rangeBegin n (i + j), rangeEnd n (i + j))) ∘ Nat.succ) =
        fun j => (rangeBegin n (i + 1 + j), rangeEnd n (i + 1 + j)) := by
      ext j <;> simp [Nat.add_comm, Nat.add_left_comm]
    rw [hfun]
    exact h

theorem contiguous_serverKeyRanges (n : ℕ) : Contiguous 0 (serverKeyRanges n) := by
  simpa [rangeBegin, serverKeyRanges] using contiguous_map_range n n 0

section Sorted
variable {β : Type} {f : β → ℕ} {l : List β}

theorem le_of_mem_dropWhile {x : ℕ} (h : l.Pairwise fun a b => f a < f b) {e : β}
    (he : e ∈ l.dropWhile fun e => f e < x) : x ≤ f e := by
  induction l with
  | nil => simp at he
  | cons a l ih =>
    obtain ⟨hhead, htail⟩ := List.pairwise_cons.mp h
    by_cases hx : f a < x
    · rw [List.dropWhile_cons_of_pos (by simpa using hx)] at he
      exact ih htail he
    · rw [List.dropWhile_cons_of_neg (by simpa using hx)] at he
      rcases List.mem_cons.mp he with rfl | he
      · exact not_lt.mp hx
      · have := hhead e he
        omega

/-- Of the entries from the begin of a range on, those before its end are its entries. -/
theorem filter_inRange_eq {r : ℕ × ℕ} (h : l.Pairwise fun a b => f a < f b)
    (hr : ∀ e ∈ l, r.1 ≤ f e) :
    (l.filter fun e => InRange r (f e)) = l.takeWhile fun e => f e < r.2 := by
  have hpart : ((l.takeWhile fun e => f e < r.2).filter fun e => InRange r (f e)) =
      l.takeWhile fun e => f e < r.2 := by
    apply List.filter_eq_self.mpr
    intro e he
    have hlt := List.mem_takeWhile_imp he
    have hmem := hr e ((List.takeWhile_prefix _).subset he)
    simpa [InRange, hmem] using hlt
  have hrest : ((l.dropWhile fun e => f e < r.2).filter fun e => InRange r (f e)) = [] := by
    apply List.filter_eq_nil_iff.mpr
    intro e he
    have := le_of_mem_dropWhile h he
    rw [decide_eq_true_eq, InRange]
    omega
  conv_lhs => rw [← List.takeWhile_append_dropWhile (p := fun e : β => decide (f e < r.2))
    (l := l)]
  rw [List.filter_append, hpart, hrest, List.append_nil]

/-- A later range has no entry before its begin. -/
theorem filter_dropWhile_eq {r : ℕ × ℕ} {x : ℕ} (hx : x ≤ r.1) :
    ((l.dropWhile fun e => f e < x).filter fun e => InRange r (f e)) =
      l.filter fun e => InRange r (f e) := by
  have hpart : ((l.takeWhile fun e => f e < x).filter fun e => InRange r (f e)) = [] := by
    apply List.filter_eq_nil_iff.mpr
    intro e he
    have hlt := List.mem_takeWhile_imp he
    simp only [decide_eq_true_eq] at hlt
    rw [decide_eq_true_eq, InRange]
    omega
  conv_rhs => rw [← List.takeWhile_append_dropWhile (p := fun e : β => decide (f e < x))
    (l := l)]
  rw [List.filter_append, hpart, List.nil_append]

/-- The entries of the ranges one after another are all entries. -/
theorem flatten_filter_inRange {prev : ℕ} {ranges : List (ℕ × ℕ)}
    (hranges : Contiguous prev ranges) (h : l.Pairwise fun a b => f a < f b)
    (hprev : ∀ e ∈ l, prev ≤ f e) (hin : ∀ e ∈ l, ∃ r ∈ ranges, InRange r (f e)) :
    (ranges.map fun r => l.filter fun e => InRange r (f e)).flatten = l := by
  induction ranges generalizing prev l with
  | nil =>
    symm
    apply List.eq_nil_iff_forall_not_mem.mpr
    intro e he
    obtain ⟨r, hr, -⟩ := hin e he
    simp at hr
  | cons r ranges ih =>
    obtain ⟨rfl, hle, hrest⟩ := hranges
    have hsub := List.dropWhile_sublist (fun e : β => decide (f e < r.2)) (l := l)
    have htail := ih hrest (h.sublist hsub) (fun e he => le_of_mem_dropWhile h he) (by
      intro e he
      obtain ⟨r', hr', hmem⟩ := hin e (hsub.subset he)
      rcases List.mem_cons.mp hr' with rfl | hr'
      · exact absurd hmem.2 (not_lt.mpr (le_of_mem_dropWhile h he))
      · exact ⟨r', hr', hmem⟩)
    rw [List.map_congr_left fun r' hr' => filter_dropWhile_eq (hrest.le_begin hr')] at htail
    rw [List.map_cons, List.flatten_cons, htail, filter_inRange_eq h hprev,
      List.takeWhile_append_dropWhile]

theorem slices_eq_filter {prev : ℕ} {ranges : List (ℕ × ℕ)} {keys : List ℕ}
    (hranges : Contiguous prev ranges) (h : keys.Pairwise (· < ·))
    (hprev : ∀ x ∈ keys, prev ≤ x) :
    slices keys (ranges.map Prod.snd) = ranges.map fun r => keys.filter (InRange r) := by
  induction ranges generalizing prev keys with
  | nil => rfl
  | cons r ranges ih =>
    obtain ⟨rfl, hle, hrest⟩ := hranges
    have hsub := List.dropWhile_sublist (fun x => decide (x < r.2)) (l := keys)
    rw [List.map_cons, slices, ih hrest (h.sublist hsub)
      (fun x hx => le_of_mem_dropWhile (f := id) h hx), List.map_cons]
    congr 1
    · exact (filter_inRange_eq (f := id) h hprev).symm
    · apply List.map_congr_left
      intro r' hr'
      exact filter_dropWhile_eq (f := id) (hrest.le_begin hr')

end Sorted

namespace KVPairs
variable {α : Type}

/-- What a server gets of the entries in its range. -/
def sliceOf (withLens : Bool) (part : List (ℕ × List α)) : Bool × KVPairs (List α) :=
  (decide (part.map Prod.fst ≠ []), ofEntries withLens part)

/-- The offset in the values, after some entries. It is moved with the lengths only. -/
def valOffset (withLens : Bool) (es : List (ℕ × List α)) : ℤ :=
  if withLens then (es.flatMap Prod.snd).length else 0

theorem sum_map_length (es : List (ℕ × List α)) :
    (es.map fun e => (e.2.length : ℤ)).sum = (es.flatMap Prod.snd).length := by
  induction es with
  | nil => rfl
  | cons e es ih => simp [ih]

theorem length_flatMap_of_equal {k : ℕ} {es : List (ℕ × List α)} (h : ∀ e ∈ es, e.2.length = k) :
    (es.flatMap Prod.snd).length = es.length * k := by
  induction es with
  | nil => simp
  | cons e es ih =>
    have htail := ih fun e' he' => h e' (List.mem_cons_of_mem _ he')
    rw [List.flatMap_cons, List.length_append, htail, h e List.mem_cons_self, List.length_cons]
    ring

theorem segment_keys (withLens : Bool) (pre part rest : List (ℕ × List α)) :
    segment (ofEntries withLens (pre ++ (part ++ rest))).keys pre.length
      (pre.length + part.length : ℕ) = some (part.map Prod.fst) := by
  have h := segment_append (pre.map Prod.fst) (part.map Prod.fst) (rest.map Prod.fst)
  simpa [ofEntries] using h

theorem segment_lens (pre part rest : List (ℕ × List α)) :
    segment (ofEntries true (pre ++ (part ++ rest))).lens pre.length
      (pre.length + part.length : ℕ) = some (part.map fun e => (e.2.length : ℤ)) := by
  have h := segment_append (pre.map fun e => (e.2.length : ℤ))
    (part.map fun e => (e.2.length : ℤ)) (rest.map fun e => (e.2.length : ℤ))
  simpa [ofEntries] using h

theorem segment_vals (withLens : Bool) (pre part rest : List (ℕ × List α)) :
    segment (ofEntries withLens (pre ++ (part ++ rest))).vals (pre.flatMap Prod.snd).length
      ((pre.flatMap Prod.snd).length + (part.flatMap Prod.snd).length : ℕ) =
        some (part.flatMap Prod.snd) := by
  have h := segment_append (pre.flatMap Prod.snd) (part.flatMap Prod.snd) (rest.flatMap Prod.snd)
  simpa [ofEntries] using h

/-- One step of the loop cuts off the entries between two positions. -/
theorem sliceLoop_step (withLens : Bool) (k : ℕ) (pre part rest : List (ℕ × List α))
    (pos : List ℕ) (hk : withLens = false → ∀ e ∈ pre ++ (part ++ rest), e.2.length = k) :
    sliceLoop (ofEntries withLens (pre ++ (part ++ rest))) k (valOffset withLens pre)
        (pre.length :: (pre.length + part.length) :: pos) =
      (sliceLoop (ofEntries withLens (pre ++ (part ++ rest))) k
        (valOffset withLens (pre ++ part)) ((pre.length + part.length) :: pos)).map
          (sliceOf withLens part :: ·) := by
  rcases eq_or_ne part [] with rfl | hpart
  · rw [sliceLoop, if_pos (by simp), List.append_nil]
    cases withLens <;> rfl
  have hne : pre.length + part.length ≠ pre.length := by
    have := List.length_pos_of_ne_nil hpart
    omega
  have hmark : decide (part.map Prod.fst ≠ []) = true := by simpa using hpart
  rw [sliceLoop, if_neg hne, segment_keys]
  cases withLens with
  | true =>
    have hlens : (ofEntries true (pre ++ (part ++ rest))).lens ≠ [] := by
      simp [ofEntries, hpart]
    have hend : valOffset true pre + (part.map fun e => (e.2.length : ℤ)).sum =
        ((pre.flatMap Prod.snd).length + (part.flatMap Prod.snd).length : ℕ) := by
      rw [sum_map_length]
      simp [valOffset]
    have hnext : valOffset true (pre ++ part) =
        ((pre.flatMap Prod.snd).length + (part.flatMap Prod.snd).length : ℕ) := by
      simp [valOffset]
    have hvals := segment_vals true pre part rest
    simp only [Option.bind_eq_bind, Option.bind_some, if_neg hlens, segment_lens]
    rw [hend, hnext]
    simp only [valOffset, if_true, hvals, Option.bind_some]
    simp [sliceOf, ofEntries, hpart]
  | false =>
    have hpre : (pre.flatMap Prod.snd).length = pre.length * k :=
      length_flatMap_of_equal fun e he => hk rfl e (by simp [he])
    have hmid : (part.flatMap Prod.snd).length = part.length * k :=
      length_flatMap_of_equal fun e he => hk rfl e (by simp [he])
    have hvals := segment_vals false pre part rest
    rw [hpre, hmid, ← Nat.add_mul] at hvals
    have hlens : (ofEntries false (pre ++ (part ++ rest))).lens = [] := rfl
    simp only [Option.bind_eq_bind, Option.bind_some, if_pos hlens, hvals]
    simp [sliceOf, ofEntries, hpart, valOffset]

/-- The positions from some entries on, and the slices that are cut at them. -/
theorem sliceLoop_positionsFrom (withLens : Bool) (k prev : ℕ) (pre suf : List (ℕ × List α))
    (ranges : List (ℕ × ℕ)) (hranges : Contiguous prev ranges)
    (hsorted : suf.Pairwise fun a b => a.1 < b.1) (hprev : ∀ e ∈ suf, prev ≤ e.1)
    (hin : ∀ e ∈ suf, ∃ r ∈ ranges, InRange r e.1)
    (hk : withLens = false → ∀ e ∈ pre ++ suf, e.2.length = k) :
    ∃ pos, positionsFrom (ofEntries withLens (pre ++ suf)).keys pre.length prev ranges =
        some pos ∧
      (pre.length :: pos).getLast? = some (pre ++ suf).length ∧
      sliceLoop (ofEntries withLens (pre ++ suf)) k (valOffset withLens pre)
        (pre.length :: pos) =
          some (ranges.map fun r => sliceOf withLens (suf.filter fun e => InRange r e.1)) := by
  induction ranges generalizing prev pre suf with
  | nil =>
    have hnil : suf = [] := by
      apply List.eq_nil_iff_forall_not_mem.mpr
      intro e he
      obtain ⟨r, hr, -⟩ := hin e he
      simp at hr
    subst hnil
    exact ⟨[], rfl, by simp, rfl⟩
  | cons r ranges ih =>
    obtain ⟨hbegin, hle, hrest⟩ := hranges
    have hsplit := List.takeWhile_append_dropWhile (p := fun e : ℕ × List α => decide (e.1 < r.2))
      (l := suf)
    have hfirst := filter_inRange_eq hsorted (hbegin ▸ hprev)
    have hge : ∀ e ∈ suf.dropWhile fun e => e.1 < r.2, r.2 ≤ e.1 := fun e he =>
      le_of_mem_dropWhile hsorted he
    have hlater : ∀ r' ∈ ranges, ((suf.dropWhile fun e => e.1 < r.2).filter fun e =>
        InRange r' e.1) = suf.filter fun e => InRange r' e.1 := fun r' hr' =>
      filter_dropWhile_eq (hrest.le_begin hr')
    have hsub := List.dropWhile_sublist (fun e : ℕ × List α => decide (e.1 < r.2)) (l := suf)
    rw [← hfirst] at hsplit
    generalize hpart : (suf.filter fun e => InRange r e.1) = part at hsplit hfirst
    generalize (suf.dropWhile fun e => e.1 < r.2) = rest at hsplit hge hlater hsub
    have hlt : ∀ e ∈ part, e.1 < r.2 := by
      intro e he
      rw [← hpart] at he
      exact (by simpa using (List.mem_filter.mp he).2 : InRange r e.1).2
    have hin' : ∀ e ∈ rest, ∃ r' ∈ ranges, InRange r' e.1 := by
      intro e he
      obtain ⟨r', hr', hmem⟩ := hin e (hsub.subset he)
      rcases List.mem_cons.mp hr' with rfl | hr'
      · have := hge e he
        exact absurd hmem.2 (by omega)
      · exact ⟨r', hr', hmem⟩
    have hbound : lowerBound ((ofEntries withLens (pre ++ suf)).keys.drop pre.length) r.2 =
        part.length := by
      have hdrop : (ofEntries withLens (pre ++ suf)).keys.drop pre.length =
          part.map Prod.fst ++ rest.map Prod.fst := by
        rw [← hsplit]
        simp [ofEntries]
      rw [hdrop, lowerBound_append, List.length_map]
      · simpa using fun a b h => hlt (a, b) h
      · simpa using fun a b h => hge (a, b) h
    obtain ⟨pos, hpos, hlast, hloop⟩ := ih r.2 (pre ++ part) rest hrest (hsorted.sublist hsub) hge
      hin' (by rwa [List.append_assoc, hsplit])
    rw [List.append_assoc, hsplit, List.length_append] at hpos hlast hloop
    refine ⟨(pre.length + part.length) :: pos, ?_, ?_, ?_⟩
    · rw [positionsFrom, if_neg (by simpa using hbegin), hbound]
      simp only [hpos, Option.map_some]
    · rw [List.getLast?_cons_cons]
      simpa using hlast
    · have hstep := sliceLoop_step withLens k pre part rest pos (by rwa [hsplit])
      rw [hsplit] at hstep
      rw [hstep, hloop, Option.map_some, List.map_cons, hpart]
      congr 2
      apply List.map_congr_left
      intro r' hr'
      rw [hlater r' hr']

/-- On entries in the ranges the slicer gives to every server the entries of its range. -/
theorem defaultSlicer_ofEntries (withLens : Bool) (prev : ℕ) (es : List (ℕ × List α))
    (ranges : List (ℕ × ℕ)) (hranges : Contiguous prev ranges)
    (hsorted : es.Pairwise fun a b => a.1 < b.1) (hin : ∀ e ∈ es, ∃ r ∈ ranges, InRange r e.1)
    (hk : withLens = false → ∃ k, ∀ e ∈ es, e.2.length = k) :
    defaultSlicer ranges (ofEntries withLens es) =
      some (ranges.map fun r => sliceOf withLens (es.filter fun e => InRange r e.1)) := by
  have hprev : ∀ e ∈ es, prev ≤ e.1 := by
    intro e he
    obtain ⟨r, hr, hmem⟩ := hin e he
    exact (hranges.le_begin hr).trans hmem.1
  obtain ⟨k, hk, hzero⟩ : ∃ k, (withLens = false → ∀ e ∈ es, e.2.length = k) ∧
      (withLens = true → k = 0) := by
    cases withLens with
    | true => exact ⟨0, by simp⟩
    | false =>
      obtain ⟨k, hk⟩ := hk rfl
      exact ⟨k, fun _ => hk, by simp⟩
  obtain ⟨pos, hpos, hlast, hloop⟩ :=
    sliceLoop_positionsFrom withLens k prev [] es ranges hranges hsorted hprev hin hk
  simp only [List.nil_append, List.length_nil] at hpos hlast hloop
  have hpositions : positions (ofEntries withLens es).keys ranges = some (0 :: pos) := by
    cases ranges with
    | nil =>
      rw [positionsFrom, Option.some_inj] at hpos
      rw [positions, ← hpos]
    | cons r ranges =>
      obtain rfl := hranges.1
      have hzero : lowerBound (ofEntries withLens es).keys r.1 = 0 := by
        apply lowerBound_append (a := [])
        · simp
        · simpa [ofEntries] using fun a b h => hprev (a, b) h
      rw [positions, hzero, hpos]
      rfl
  have hlen : (ofEntries withLens es).keys.length = es.length := by simp [ofEntries]
  rw [defaultSlicer, hpositions, Option.bind_eq_bind, Option.bind_some,
    if_neg (by simpa [hlen] using hlast)]
  rcases eq_or_ne es [] with rfl | hes
  · cases withLens <;> rfl
  rw [if_neg (by simpa [ofEntries] using hes)]
  cases withLens with
  | true =>
    rw [if_neg (by simpa [ofEntries] using hes), if_neg (by simp [ofEntries])]
    rw [hzero rfl] at hloop
    exact hloop
  | false =>
    have hvals : (ofEntries false es).vals.length = es.length * k :=
      length_flatMap_of_equal (hk rfl)
    have hdiv : (ofEntries false es).vals.length / (ofEntries false es).keys.length = k := by
      rw [hvals, hlen, Nat.mul_div_cancel_left _ (List.length_pos_of_ne_nil hes)]
    rw [if_pos (show (ofEntries false es).lens = [] from rfl)]
    simp only [hdiv]
    rw [if_neg (by simp [hvals, hlen, Nat.mul_comm k])]
    exact hloop

theorem WellFormed.valLens_length {kv : KVPairs (List α)} (h : kv.WellFormed) :
    kv.valLens.length = kv.keys.length := by
  unfold valLens
  split_ifs with hlens
  · simp
  · rcases h with ⟨hlen, -, -⟩ | ⟨hnil, -⟩
    · simpa using hlen
    · exact absurd hnil hlens

theorem map_cast_toNat {l : List ℤ} (h : ∀ x ∈ l, 0 ≤ x) :
    (l.map Int.toNat).map ((↑) : ℕ → ℤ) = l := by
  rw [List.map_map, List.map_congr_left, List.map_id]
  intro x hx
  simpa using h x hx

theorem WellFormed.valLens_sum {kv : KVPairs (List α)} (h : kv.WellFormed) :
    kv.valLens.sum = kv.vals.length := by
  rcases eq_or_ne kv.lens [] with hnil | hne
  · have hdvd : kv.keys.length ∣ kv.vals.length := by
      rcases h with ⟨hlen, -, hsum⟩ | ⟨-, hdvd⟩
      · simp only [hnil, List.sum_nil] at hsum
        simp [show kv.vals.length = 0 by omega]
      · exact hdvd
    rw [valLens, if_pos hnil, List.sum_replicate, smul_eq_mul, Nat.mul_div_cancel' hdvd]
  · rcases h with ⟨-, hnonneg, hsum⟩ | ⟨hnil, -⟩
    · rw [valLens, if_neg hne]
      have hcast := congrArg List.sum (map_cast_toNat hnonneg)
      rw [← Nat.cast_list_sum, hsum] at hcast
      exact_mod_cast hcast
    · exact absurd hnil hne

/-- The arrays of a request are those of its entries. -/
theorem WellFormed.ofEntries_entries {kv : KVPairs (List α)} (h : kv.WellFormed) :
    ofEntries (kv.lens ≠ []) kv.entries = kv := by
  have hlen : (kv.valLens.splitLengths kv.vals).length = kv.keys.length := by
    rw [List.length_splitLengths, h.valLens_length]
  have hkeys : kv.entries.map Prod.fst = kv.keys := List.map_fst_zip hlen.ge
  have hsnd : kv.entries.map Prod.snd = kv.valLens.splitLengths kv.vals := List.map_snd_zip hlen.le
  have hvals : kv.entries.flatMap Prod.snd = kv.vals := by
    rw [List.flatMap_def, hsnd, List.flatten_splitLengths _ _ h.valLens_sum.ge]
  have hlens : (kv.entries.map fun e => (e.2.length : ℤ)) = kv.valLens.map (↑) := by
    rw [← List.map_splitLengths_length kv.vals kv.valLens h.valLens_sum.le, ← hsnd, List.map_map,
      List.map_map]
    rfl
  rcases eq_or_ne kv.lens [] with hnil | hne
  · have hpack : ofEntries (kv.lens ≠ []) kv.entries =
        ⟨kv.entries.map Prod.fst, kv.entries.flatMap Prod.snd, []⟩ := by simp [ofEntries, hnil]
    rw [hpack, hkeys, hvals, ← hnil]
  · have hnonneg : ∀ l ∈ kv.lens, 0 ≤ l := by
      rcases h with ⟨-, hnonneg, -⟩ | ⟨hnil, -⟩
      · exact hnonneg
      · exact absurd hnil hne
    rw [valLens, if_neg hne, map_cast_toNat hnonneg] at hlens
    simp [ofEntries, hne, hkeys, hvals, hlens]

theorem WellFormed.entries_equal {kv : KVPairs (List α)} (h : kv.WellFormed)
    (hnil : kv.lens = []) : ∃ k, ∀ e ∈ kv.entries, e.2.length = k := by
  refine ⟨kv.vals.length / kv.keys.length, fun e he => ?_⟩
  have hmem : e.2.length ∈ kv.valLens := by
    rw [← List.map_splitLengths_length kv.vals kv.valLens h.valLens_sum.le]
    exact List.mem_map_of_mem (List.of_mem_zip he).2
  rw [valLens, if_pos hnil] at hmem
  exact List.eq_of_mem_replicate hmem

theorem WellFormed.entries_keys {kv : KVPairs (List α)} (h : kv.WellFormed) :
    kv.entries.map Prod.fst = kv.keys := by
  conv_rhs => rw [← h.ofEntries_entries]
  rfl

theorem flatten_filter_ne_nil {β : Type} (L : List (List (ℕ × β))) :
    (L.filter fun l => l.map Prod.fst ≠ []).flatten = L.flatten := by
  induction L with
  | nil => rfl
  | cons l L ih =>
    cases l with
    | nil =>
      rw [List.filter_cons_of_neg (by simp), ih]
      rfl
    | cons e l => rw [List.filter_cons_of_pos (by simp), List.flatten_cons, ih, List.flatten_cons]

theorem marked_sliceOf (withLens : Bool) (parts : List (List (ℕ × List α))) :
    marked (parts.map (sliceOf withLens)) =
      (parts.filter fun l => l.map Prod.fst ≠ []).map (ofEntries withLens) := by
  rw [marked, List.filter_map, List.map_map]
  rfl

theorem concat_ofEntries (withLens : Bool) (parts : List (List (ℕ × List α))) :
    concat (parts.map (ofEntries withLens)) = ofEntries withLens parts.flatten := by
  induction parts with
  | nil => cases withLens <;> rfl
  | cons part parts ih =>
    simp only [concat, ofEntries, KVPairs.mk.injEq, List.flatMap_map] at ih ⊢
    cases withLens <;> simp_all [List.flatMap_cons]

theorem WellFormed.entries_sorted {kv : KVPairs (List α)} (h : kv.WellFormed)
    (hsorted : kv.keys.Pairwise (· < ·)) : kv.entries.Pairwise fun a b => a.1 < b.1 := by
  rwa [← h.entries_keys, List.pairwise_map] at hsorted

section Request
variable {send : KVPairs (List α)} {n : ℕ} (hwf : send.WellFormed)
  (hsorted : send.keys.Pairwise (· < ·))
  (hin : ∀ key ∈ send.keys, ∃ r ∈ serverKeyRanges n, InRange r key)

include hwf hin in
theorem entries_inRange : ∀ e ∈ send.entries, ∃ r ∈ serverKeyRanges n, InRange r e.1 := by
  intro e he
  apply hin
  rw [← hwf.entries_keys]
  exact List.mem_map_of_mem he

include hwf in
theorem map_restrict_eq (ranges : List (ℕ × ℕ)) :
    (ranges.map fun r => (decide (∃ key ∈ send.keys, InRange r key), send.restrict r)) =
      (ranges.map fun r => send.entries.filter fun e => InRange r e.1).map
        (sliceOf (send.lens ≠ [])) := by
  rw [List.map_map]
  apply List.map_congr_left
  intro r _
  have hmark : ((send.entries.filter fun e => InRange r e.1).map Prod.fst ≠ []) ↔
      ∃ key ∈ send.keys, InRange r key := by
    simp [← hwf.entries_keys, List.filter_eq_nil_iff]
  simp only [Function.comp_apply, sliceOf, restrict, hmark]

include hwf hsorted hin in
/-- The slicer fails no check, and every server gets the part of its range. -/
theorem defaultSlicer_eq :
    defaultSlicer (serverKeyRanges n) send =
      some ((serverKeyRanges n).map fun r =>
        (decide (∃ key ∈ send.keys, InRange r key), send.restrict r)) := by
  have h := defaultSlicer_ofEntries (send.lens ≠ []) 0 send.entries (serverKeyRanges n)
    (contiguous_serverKeyRanges n) (hwf.entries_sorted hsorted) (entries_inRange hwf hin)
    (fun hlens => hwf.entries_equal (by simpa using hlens))
  rw [hwf.ofEntries_entries] at h
  rw [h, map_restrict_eq hwf, List.map_map]
  rfl

include hwf hsorted hin in
/-- The slices that are sent are the request, in the order of the servers. -/
theorem concat_marked :
    concat (marked ((serverKeyRanges n).map fun r =>
      (decide (∃ key ∈ send.keys, InRange r key), send.restrict r))) = send := by
  rw [map_restrict_eq hwf, marked_sliceOf, concat_ofEntries, flatten_filter_ne_nil,
    flatten_filter_inRange (contiguous_serverKeyRanges n) (hwf.entries_sorted hsorted)
      (fun _ _ => Nat.zero_le _) (entries_inRange hwf hin), hwf.ofEntries_entries]

include hwf in
theorem keys_ne_nil_of_mem_marked (ranges : List (ℕ × ℕ)) :
    ∀ kv ∈ marked (ranges.map fun r =>
      (decide (∃ key ∈ send.keys, InRange r key), send.restrict r)), kv.keys ≠ [] := by
  intro kv hkv
  rw [map_restrict_eq hwf, marked_sliceOf] at hkv
  obtain ⟨part, hpart, rfl⟩ := List.mem_map.mp hkv
  simpa [ofEntries] using (List.mem_filter.mp hpart).2

include hwf hsorted hin in
/-- The keys of the slices are those of the slicer without values. -/
theorem defaultSlicer_keys :
    (defaultSlicer (serverKeyRanges n) send).map (List.map fun s => s.2.keys) =
      NetStorm.defaultSlicer n send.keys := by
  have hslices : slices send.keys ((List.range n).map (rangeEnd n)) =
      (serverKeyRanges n).map fun r => send.keys.filter (InRange r) := by
    rw [← slices_eq_filter (contiguous_serverKeyRanges n) hsorted (fun _ _ => Nat.zero_le _),
      serverKeyRanges, List.map_map]
    rfl
  have hlen : ((slices send.keys ((List.range n).map (rangeEnd n))).map List.length).sum =
      send.keys.length := by
    rw [← List.length_flatten, hslices]
    congr 1
    exact flatten_filter_inRange (f := id) (contiguous_serverKeyRanges n) hsorted
      (fun _ _ => Nat.zero_le _) hin
  rw [NetStorm.defaultSlicer, if_pos hlen, hslices, defaultSlicer_eq hwf hsorted hin,
    Option.map_some, List.map_map]
  congr 1
  apply List.map_congr_left
  intro r _
  rw [← hwf.entries_keys, List.filter_map]
  rfl

end Request

end KVPairs
end NetStorm

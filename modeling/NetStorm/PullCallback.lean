import NetStorm.KVSlicer

/-!
# Putting together the answers of a pull

The callback of `Pull_` runs with the answers of all servers, in the order of their arrival.
It checks every answer against the keys of the request, sorts the answers by their first key
and copies their values and lengths to the buffers of the caller.
-/
namespace NetStorm

/-- `FindRange`. -/
def findRange (arr : List ℕ) (lower upper : ℕ) : ℕ × ℕ :=
  if upper ≤ lower then (0, 0) else (lowerBound arr lower, lowerBound arr upper)

/-- `memcpy` of some data to a position of a buffer. -/
def memcpy {β : Type} (buf : List β) (pos : ℕ) (data : List β) : Option (List β) :=
  if pos + data.length ≤ buf.length then
    some (buf.take pos ++ data ++ buf.drop (pos + data.length))
  else none

/-- An empty buffer gets the size, another has to have it. -/
def resizeOrCheck {β : Type} [Inhabited β] (buf : List β) (size : ℕ) : Option (List β) :=
  match buf with
  | [] => some (List.replicate size default)
  | x :: buf => if (x :: buf).length ≠ size then none else some (x :: buf)

namespace KVPairs
variable {α : Type}

/-- The checks of the callback of `Pull_` on one answer. -/
def checkAnswer (keys : List ℕ) (hasLens : Bool) (s : KVPairs (List α)) : Bool :=
  match s.keys.head?, s.keys.getLast? with
  | some front, some back =>
    let range := findRange keys front ((back + 1) % 2 ^ 64)
    (range.2 - range.1 == s.keys.length) && (!hasLens || s.lens.length == s.keys.length)
  | _, _ => false

/-- The copy loop of the callback. The lengths are copied if the caller asked for them. -/
def fill : List (KVPairs (List α)) → ℕ → List α → ℕ → Option (List ℤ) →
    Option (List α × Option (List ℤ))
  | [], _, vals, _, lens => some (vals, lens)
  | s :: kvs, pVals, vals, pLens, lens => do
    let vals ← memcpy vals pVals s.vals
    match lens with
    | none => fill kvs (pVals + s.vals.length) vals pLens none
    | some lens =>
      let lens ← memcpy lens pLens s.lens
      fill kvs (pVals + s.vals.length) vals (pLens + s.lens.length) (some lens)

/-- The comparison of `std::sort` in the callback. -/
def frontLE (a b : KVPairs (List α)) : Bool := decide (a.keys.headD 0 ≤ b.keys.headD 0)

/-- The callback of `KVWorker::Pull_`, with the answers `kvs` in `recv_kvs_` and the buffers of
the caller, which are absent for a null pointer. -/
def pullCallback [Inhabited α] (keys : List ℕ) (vals : Option (List α)) (lens : Option (List ℤ))
    (kvs : List (KVPairs (List α))) : Option (List α × Option (List ℤ)) :=
  if ¬ kvs.all (checkAnswer keys lens.isSome) then none
  else if (kvs.map fun s => s.keys.length).sum ≠ keys.length then none
  else do
    let sorted := kvs.mergeSort frontLE
    let vals ← vals
    let vals ← resizeOrCheck vals (kvs.map fun s => s.vals.length).sum
    match lens with
    | none => fill sorted 0 vals 0 none
    | some lens =>
      let lens ← resizeOrCheck lens keys.length
      fill sorted 0 vals 0 (some lens)

/-- An answer that has the values of its keys, and their lengths if they are asked for. -/
structure Answers (value : ℕ → List α) (hasLens : Bool) (s : KVPairs (List α)) : Prop where
  vals : s.vals = s.keys.flatMap value
  lens : hasLens = true → s.lens = s.keys.map fun key => ((value key).length : ℤ)

end KVPairs

theorem length_of_resizeOrCheck {β : Type} [Inhabited β] {buf : List β} {size : ℕ}
    (h : buf = [] ∨ buf.length = size) :
    ∃ buf', resizeOrCheck buf size = some buf' ∧ buf'.length = size := by
  cases buf with
  | nil => exact ⟨_, rfl, by simp⟩
  | cons x buf =>
    have hsize : (x :: buf).length = size := by simpa using h
    exact ⟨x :: buf, by simp only [resizeOrCheck, hsize]; simp, hsize⟩

theorem memcpy_append {β : Type} (a rest data : List β) (h : data.length ≤ rest.length) :
    memcpy (a ++ rest) a.length data = some (a ++ data ++ rest.drop data.length) := by
  unfold memcpy
  rw [if_pos (by simpa using h), List.take_left, List.drop_append, List.drop_of_length_le (by omega),
    Nat.add_sub_cancel_left, List.nil_append]

/-- The blocks of the keys that the answers have are found in the keys of the request. -/
theorem findRange_of_mem {keys : List ℕ} {blocks : List (List ℕ)} (hflat : blocks.flatten = keys)
    (hsorted : keys.Pairwise (· < ·)) {block : List ℕ} (hmem : block ∈ blocks) {front back : ℕ}
    (hfront : block.head? = some front) (hback : block.getLast? = some back) :
    (findRange keys front (back + 1)).2 - (findRange keys front (back + 1)).1 =
      block.length := by
  obtain ⟨before, after, rfl⟩ := List.append_of_mem hmem
  rw [List.flatten_append, List.flatten_cons] at hflat
  subst hflat
  obtain ⟨-, hmid, hbefore⟩ := List.pairwise_append.mp hsorted
  obtain ⟨hblock, -, hafter⟩ := List.pairwise_append.mp hmid
  obtain ⟨tail, rfl⟩ := List.head?_eq_some_iff.mp hfront
  obtain ⟨init, hinit⟩ := List.getLast?_eq_some_iff.mp hback
  have hge : ∀ x ∈ front :: tail, front ≤ x := by
    simpa using fun x hx => (List.pairwise_cons.mp hblock).1 x hx |>.le
  have hle : ∀ x ∈ front :: tail, x ≤ back := by
    intro x hx
    rw [hinit] at hblock hx
    rcases List.mem_append.mp hx with hx | hx
    · exact ((List.pairwise_append.mp hblock).2.2 x hx back (by simp)).le
    · exact (List.mem_singleton.mp hx).le
  have hback' : back ∈ front :: tail := by simp [hinit]
  have hlower : lowerBound (before.flatten ++ (front :: tail ++ after.flatten)) front =
      before.flatten.length := by
    apply lowerBound_append
    · exact fun x hx => hbefore x hx front (by simp)
    · intro x hx
      rcases List.mem_append.mp hx with hx | hx
      · exact hge x hx
      · exact (hafter front (by simp) x hx).le
  have hupper : lowerBound (before.flatten ++ (front :: tail ++ after.flatten)) (back + 1) =
      before.flatten.length + (front :: tail).length := by
    rw [← List.append_assoc, ← List.length_append]
    apply lowerBound_append
    · intro x hx
      rcases List.mem_append.mp hx with hx | hx
      · have := hbefore x hx back (List.mem_append_left _ hback')
        omega
      · have := hle x hx
        omega
    · exact fun x hx => hafter back hback' x hx
  have hlt : ¬ back + 1 ≤ front := by
    have := hge back hback'
    omega
  rw [findRange, if_neg hlt, hlower, hupper, Nat.add_sub_cancel_left]

namespace KVPairs
variable {α : Type}

/-- The copy loop fills the rest of the value buffer with the values of the answers. -/
theorem fill_vals (kvs : List (KVPairs (List α))) (vals rest : List α)
    (hvals : rest.length = (kvs.flatMap KVPairs.vals).length) (p : ℕ) :
    fill kvs vals.length (vals ++ rest) p none =
      some (vals ++ kvs.flatMap KVPairs.vals, none) := by
  induction kvs generalizing vals rest with
  | nil => simp_all [fill]
  | cons s kvs ih =>
    rw [List.flatMap_cons, List.length_append] at hvals
    have hnext := ih (vals ++ s.vals) (rest.drop s.vals.length) (by rw [List.length_drop]; omega)
    rw [List.length_append] at hnext
    rw [fill, memcpy_append _ _ _ (by omega), List.flatMap_cons, ← List.append_assoc]
    exact hnext

/-- The copy loop fills the rest of both buffers with the arrays of the answers. -/
theorem fill_vals_lens (kvs : List (KVPairs (List α))) (vals rest : List α)
    (lens lensRest : List ℤ) (hvals : rest.length = (kvs.flatMap KVPairs.vals).length)
    (hlens : lensRest.length = (kvs.flatMap KVPairs.lens).length) :
    fill kvs vals.length (vals ++ rest) lens.length (some (lens ++ lensRest)) =
      some (vals ++ kvs.flatMap KVPairs.vals, some (lens ++ kvs.flatMap KVPairs.lens)) := by
  induction kvs generalizing vals rest lens lensRest with
  | nil => simp_all [fill]
  | cons s kvs ih =>
    rw [List.flatMap_cons, List.length_append] at hvals hlens
    have hnext := ih (vals ++ s.vals) (rest.drop s.vals.length) (lens ++ s.lens)
      (lensRest.drop s.lens.length) (by rw [List.length_drop]; omega)
      (by rw [List.length_drop]; omega)
    rw [List.length_append, List.length_append] at hnext
    rw [fill, memcpy_append _ _ _ (by omega), List.flatMap_cons, ← List.append_assoc,
      List.flatMap_cons, ← List.append_assoc]
    simp only [Option.bind_eq_bind, Option.bind_some, memcpy_append lens lensRest s.lens (by omega)]
    exact hnext

/-- Sorted by their first keys the answers have the keys in the order of the request. -/
theorem keys_of_mergeSort {kvs : List (KVPairs (List α))} {blocks : List (List ℕ)}
    (hperm : (kvs.map keys).Perm blocks) (hsorted : blocks.flatten.Pairwise (· < ·))
    (hne : ∀ block ∈ blocks, block ≠ []) : (kvs.mergeSort frontLE).map keys = blocks := by
  have hfront : ∀ block ∈ blocks, block.headD 0 ∈ block := by
    intro block hblock
    obtain ⟨x, tail, rfl⟩ := List.exists_cons_of_ne_nil (hne block hblock)
    simp
  have hpw := (List.pairwise_flatten.mp hsorted).2
  have hblocks : blocks.Pairwise fun a b => a.headD 0 < b.headD 0 := by
    apply hpw.imp_of_mem
    intro a b ha hb h
    exact h _ (hfront a ha) _ (hfront b hb)
  have hsort : ((kvs.mergeSort frontLE).map keys).Pairwise fun a b => a.headD 0 ≤ b.headD 0 := by
    rw [List.pairwise_map]
    have h : (kvs.mergeSort frontLE).Pairwise fun a b => frontLE a b = true :=
      List.pairwise_mergeSort (by simp only [frontLE, decide_eq_true_eq]; omega)
        (by simp only [frontLE, Bool.or_eq_true, decide_eq_true_eq]; omega) kvs
    exact h.imp fun h => of_decide_eq_true h
  have hperm' : ((kvs.mergeSort frontLE).map keys).Perm blocks :=
    ((List.mergeSort_perm kvs frontLE).map keys).trans hperm
  apply List.Perm.eq_of_pairwise ?_ hsort (hblocks.imp le_of_lt) hperm'
  intro a b ha hb hab hba
  have hnodup : (blocks.map fun block => block.headD 0).Nodup :=
    List.pairwise_map.mpr (hblocks.imp ne_of_lt)
  exact List.inj_on_of_nodup_map hnodup (hperm'.mem_iff.mp ha) hb (le_antisymm hab hba)

theorem flatMap_of_keys {β : Type} {kvs : List (KVPairs (List α))} {f : KVPairs (List α) → List β}
    {g : ℕ → List β} (h : ∀ s ∈ kvs, f s = s.keys.flatMap g) :
    kvs.flatMap f = (kvs.map keys).flatten.flatMap g := by
  induction kvs with
  | nil => rfl
  | cons s kvs ih =>
    have htail := ih fun s' hs' => h s' (List.mem_cons_of_mem _ hs')
    rw [List.flatMap_cons, htail, h s List.mem_cons_self, List.map_cons, List.flatten_cons,
      List.flatMap_append]

theorem checkAnswer_of_mem {keys : List ℕ} {blocks : List (List ℕ)}
    (hflat : blocks.flatten = keys) (hsorted : keys.Pairwise (· < ·))
    (hmax : ∀ key ∈ keys, key < kMaxKey) (hne : ∀ block ∈ blocks, block ≠ [])
    {value : ℕ → List α} {hasLens : Bool} {s : KVPairs (List α)} (hmem : s.keys ∈ blocks)
    (hs : Answers value hasLens s) : checkAnswer keys hasLens s = true := by
  have hfront := List.head?_eq_some_head (hne _ hmem)
  have hback := List.getLast?_eq_some_getLast (hne _ hmem)
  have hlt : s.keys.getLast (hne _ hmem) < kMaxKey := by
    apply hmax
    rw [← hflat]
    exact List.mem_flatten_of_mem hmem (List.getLast_mem _)
  have hmod : (s.keys.getLast (hne _ hmem) + 1) % 2 ^ 64 = s.keys.getLast (hne _ hmem) + 1 := by
    apply Nat.mod_eq_of_lt
    unfold kMaxKey at hlt
    omega
  have hrange := findRange_of_mem hflat hsorted hmem hfront hback
  rw [checkAnswer, hfront, hback]
  simp only [hmod, hrange, beq_self_eq_true, Bool.true_and]
  cases hasLens with
  | false => rfl
  | true => simp [hs.lens rfl]

/-- The callback puts the values in the order of the keys, whatever the order of the answers. -/
theorem pullCallback_eq [Inhabited α] {keys : List ℕ} {blocks : List (List ℕ)}
    (hflat : blocks.flatten = keys) (hsorted : keys.Pairwise (· < ·))
    (hmax : ∀ key ∈ keys, key < kMaxKey) (hne : ∀ block ∈ blocks, block ≠ [])
    {kvs : List (KVPairs (List α))} (hperm : (kvs.map KVPairs.keys).Perm blocks)
    {value : ℕ → List α} {vals : List α} {lens : Option (List ℤ)}
    (hanswers : ∀ s ∈ kvs, Answers value lens.isSome s)
    (hvals : vals = [] ∨ vals.length = (keys.flatMap value).length)
    (hlens : ∀ l, lens = some l → l = [] ∨ l.length = keys.length) :
    pullCallback keys (some vals) lens kvs =
      some (keys.flatMap value,
        lens.map fun _ => keys.map fun key => ((value key).length : ℤ)) := by
  have hkeys := keys_of_mergeSort hperm (by rwa [hflat]) hne
  have hmem : ∀ s ∈ kvs, s.keys ∈ blocks := fun s hs =>
    hperm.mem_iff.mp (List.mem_map_of_mem hs)
  have hcheck : kvs.all (checkAnswer keys lens.isSome) = true := List.all_eq_true.mpr fun s hs =>
    checkAnswer_of_mem hflat hsorted hmax hne (hmem s hs) (hanswers s hs)
  have htotal : (kvs.map fun s => s.keys.length).sum = keys.length := by
    rw [← hflat, ← hperm.flatten.length_eq, List.length_flatten, List.map_map]
    rfl
  have hsort := List.mergeSort_perm kvs frontLE
  have hall : ∀ s ∈ kvs.mergeSort frontLE, Answers value lens.isSome s := fun s hs =>
    hanswers s (hsort.mem_iff.mp hs)
  have hsortedVals : (kvs.mergeSort frontLE).flatMap KVPairs.vals = keys.flatMap value := by
    rw [flatMap_of_keys fun s hs => (hall s hs).vals, hkeys, hflat]
  have htotalVal : (kvs.map fun s => s.vals.length).sum = (keys.flatMap value).length := by
    rw [← hsortedVals, (hsort.flatMap_right KVPairs.vals).length_eq, List.length_flatMap]
  obtain ⟨buf, hbuf, hbufLen⟩ := length_of_resizeOrCheck hvals
  rw [pullCallback, if_neg (by simp [hcheck]), if_neg (by simp [htotal]), htotalVal]
  simp only [Option.bind_eq_bind, Option.bind_some, hbuf]
  cases lens with
  | none =>
    have h := fill_vals (kvs.mergeSort frontLE) [] buf (by rw [hsortedVals, hbufLen]) 0
    rw [hsortedVals] at h
    exact h
  | some l =>
    have hsortedLens : (kvs.mergeSort frontLE).flatMap KVPairs.lens =
        keys.map fun key => ((value key).length : ℤ) := by
      rw [flatMap_of_keys fun s hs => (hall s hs).lens rfl |>.trans List.map_eq_flatMap, hkeys,
        hflat, List.map_eq_flatMap]
    obtain ⟨lensBuf, hlensBuf, hlensLen⟩ := length_of_resizeOrCheck (hlens l rfl)
    have h := fill_vals_lens (kvs.mergeSort frontLE) [] buf [] lensBuf
      (by rw [hsortedVals, hbufLen]) (by rw [hsortedLens, hlensLen, List.length_map])
    rw [hsortedVals, hsortedLens] at h
    simp only [hlensBuf, Option.bind_some]
    exact h

theorem key_lt_kMaxKey {n key : ℕ} (h : ∃ r ∈ serverKeyRanges n, InRange r key) :
    key < kMaxKey := by
  obtain ⟨r, hr, hkey⟩ := h
  obtain ⟨i, hi, rfl⟩ := List.mem_map.mp hr
  calc key < kMaxKey / n * (i + 1) := hkey.2
    _ ≤ kMaxKey / n * n := Nat.mul_le_mul_left _ (List.mem_range.mp hi)
    _ ≤ kMaxKey := Nat.div_mul_le_self _ _

/-- Slicing and putting together are inverse. The slicer fails no check, marks the servers that
have a key in their range, gives them the keys of their range with values and lengths, and the
marked slices are the request. When the servers answer a pull of the keys they were sent, the
callback fills the buffers in the order of the keys, in whatever order the answers came. -/
theorem slicer_pull_inverse [Inhabited α] (n : ℕ) (send : KVPairs (List α))
    (hsorted : send.keys.Pairwise (· < ·))
    (hin : ∀ key ∈ send.keys, ∃ r ∈ serverKeyRanges n, InRange r key) (hwf : send.WellFormed) :
    (∃ sliced, defaultSlicer (serverKeyRanges n) send = some sliced ∧ sliced.length = n ∧
      (∀ i s, sliced[i]? = some s →
        (s.1 = true ↔ ∃ key ∈ send.keys, InRange (rangeBegin n i, rangeEnd n i) key) ∧
        s.2 = send.restrict (rangeBegin n i, rangeEnd n i)) ∧
      concat (marked sliced) = send) ∧
    ∃ sliced, defaultSlicer (serverKeyRanges n) ⟨send.keys, ([] : List α), []⟩ = some sliced ∧
      ∀ (kvs : List (KVPairs (List α))) (value : ℕ → List α) (vals : List α)
        (lens : Option (List ℤ)),
        (kvs.map keys).Perm ((marked sliced).map keys) →
        (∀ s ∈ kvs, Answers value lens.isSome s) →
        (vals = [] ∨ vals.length = (send.keys.flatMap value).length) →
        (∀ l, lens = some l → l = [] ∨ l.length = send.keys.length) →
        pullCallback send.keys (some vals) lens kvs =
          some (send.keys.flatMap value,
            lens.map fun _ => send.keys.map fun key => ((value key).length : ℤ)) := by
  constructor
  · refine ⟨_, defaultSlicer_eq hwf hsorted hin, by simp [serverKeyRanges], ?_,
      concat_marked hwf hsorted hin⟩
    intro i s hs
    rw [serverKeyRanges, List.map_map, List.getElem?_map] at hs
    obtain ⟨j, hj, rfl⟩ := Option.map_eq_some_iff.mp hs
    obtain ⟨-, rfl⟩ := List.getElem?_eq_some_iff.mp hj
    simp
  · have hpull : (⟨send.keys, [], []⟩ : KVPairs (List α)).WellFormed := Or.inr ⟨rfl, dvd_zero _⟩
    refine ⟨_, defaultSlicer_eq hpull hsorted hin, ?_⟩
    intro kvs value vals lens hperm hanswers hvals hlens
    have hflat := congrArg KVPairs.keys (concat_marked hpull hsorted hin)
    refine pullCallback_eq hflat hsorted (fun key hkey => key_lt_kMaxKey (hin key hkey)) ?_ hperm
      hanswers hvals hlens
    intro block hblock
    obtain ⟨kv, hkv, rfl⟩ := List.mem_map.mp hblock
    exact keys_ne_nil_of_mem_marked hpull _ kv hkv

/-- Two keys at two servers, with the answer of the second server first. -/
theorem slicer_pull_inverse_two_servers :
    defaultSlicer (serverKeyRanges 2) (⟨[3, 2 ^ 63], [10, 20, 30], [2, 1]⟩ : KVPairs (List ℕ)) =
        some [(true, ⟨[3], [10, 20], [2]⟩), (true, ⟨[2 ^ 63], [30], [1]⟩)] ∧
      pullCallback [3, 2 ^ 63] (some ([] : List ℕ)) (some [])
          [⟨[2 ^ 63], [30], [1]⟩, ⟨[3], [10, 20], [2]⟩] =
        some ([10, 20, 30], some [2, 1]) := by
  obtain ⟨⟨sliced, hsliced, -⟩, pulled, hpulled, hpull⟩ := slicer_pull_inverse 2
    (⟨[3, 2 ^ 63], [10, 20, 30], [2, 1]⟩ : KVPairs (List ℕ)) (by decide +kernel)
    (by decide +kernel) (Or.inl (by decide +kernel))
  have hslices : defaultSlicer (serverKeyRanges 2) (⟨[3, 2 ^ 63], ([] : List ℕ), []⟩) =
      some [(true, ⟨[3], [], []⟩), (true, ⟨[2 ^ 63], [], []⟩)] := by decide +kernel
  obtain rfl := Option.some_inj.mp (hslices.symm.trans hpulled)
  refine ⟨by decide +kernel, ?_⟩
  refine hpull _ (fun key => if key = 3 then [10, 20] else [30]) [] (some [])
    (by decide +kernel) ?_ (Or.inl rfl) (by simp)
  intro s hs
  simp only [List.mem_cons, List.not_mem_nil, or_false] at hs
  rcases hs with rfl | rfl <;> exact ⟨by decide +kernel, fun _ => by decide +kernel⟩

end KVPairs
end NetStorm

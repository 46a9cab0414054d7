import NetStorm.Library.OwnedCells
import Mathlib.Algebra.BigOperators.Group.List.Basic
import Mathlib.Algebra.Order.Ring.Int
import Mathlib.Data.List.GetD
import Mathlib.Tactic.IntervalCases
import Mathlib.Tactic.LinearCombination

/-!
# Two-bit gradient compression

A block of sixteen gradients is one `float` of the compressed buffer, four gradients to a
byte: `11` stands for the threshold, `10` for its negative and `00` for zero. What is lost is
kept in the residual and added to the gradient of the next round. The buffers are lists, of
bytes for the compressed one; what reads or writes outside a buffer, or overflows an `int`,
has no result. The arithmetic of the gradients is exact.
-/
namespace NetStorm
namespace GradientCompression

/-- `GradientCompression::GetCompressedSize` for the factor of two bits. -/
def getCompressedSize (originalSize : ℕ) : ℕ :=
  if originalSize % 16 = 0 then originalSize / 16 else originalSize / 16 + 1

/-- The masks of the codes `11`. -/
def posbits : ℕ → BitVec 8
  | 0 => 0xc0
  | 1 => 0x30
  | 2 => 0x0c
  | _ => 0x03

/-- The masks of the codes `10`. -/
def negbits : ℕ → BitVec 8
  | 0 => 0x80
  | 1 => 0x20
  | 2 => 0x08
  | _ => 0x02

/-- `|` of a `char` and a mask. Both are promoted to `int`, the `char` with its sign. -/
def charOr (ch mask : BitVec 8) : BitVec 8 :=
  (ch.signExtend 32 ||| mask.setWidth 32).setWidth 8

/-- `&` of a `char` and a mask. -/
def charAnd (ch mask : BitVec 8) : BitVec 8 :=
  (ch.signExtend 32 &&& mask.setWidth 32).setWidth 8

/-- A result of `int` arithmetic that is not negative. -/
def asInt (x : ℕ) : Option ℕ := if x < 2 ^ 31 then some x else none

/-- `0` written to a `float` of the compressed buffer. -/
def storeZero (out : List (BitVec 8)) (blockId : ℕ) : Option (List (BitVec 8)) :=
  if out.length < 4 * blockId + 4 then none
  else some ((((out.set (4 * blockId) 0).set (4 * blockId + 1) 0).set (4 * blockId + 2) 0).set
    (4 * blockId + 3) 0)

variable {R : Type} [CommRing R] [LinearOrder R]

/-- One pass of the loop of `quantize_2bit::Map`, on the compressed buffer and the residual. -/
def quantizeStep (blockId start : ℕ) (grad : List R) (negThreshold posThreshold : R)
    (s : List (BitVec 8) × List R) (i : ℕ) : Option (List (BitVec 8) × List R) := do
  let currByte := 4 * blockId + (i - start) >>> 2
  let g ← grad[i]?
  let r ← s.2[i]?
  let x := r + g
  if posThreshold ≤ x then
    let ch ← s.1[currByte]?
    some (s.1.set currByte (charOr ch (posbits (i &&& 3))), s.2.set i (x - posThreshold))
  else if x ≤ negThreshold then
    let ch ← s.1[currByte]?
    some (s.1.set currByte (charOr ch (negbits (i &&& 3))), s.2.set i (x - negThreshold))
  else some (s.1, s.2.set i x)

/-- `quantize_2bit::Map`. -/
def quantize2bit (originalSize : ℕ) (grad : List R) (negThreshold posThreshold : R)
    (s : List (BitVec 8) × List R) (blockId : ℕ) : Option (List (BitVec 8) × List R) := do
  let out ← storeZero s.1 blockId
  let start ← asInt (blockId <<< 4)
  let next ← asInt (start + 16)
  let last := if next ≤ originalSize then next else originalSize
  (List.range' start (last - start)).foldlM
    (quantizeStep blockId start grad negThreshold posThreshold) (out, s.2)

/-- `dequantize_2bit::Map`. -/
def dequantize2bit (compressed : List (BitVec 8)) (negThreshold posThreshold : R) (out : List R)
    (i : ℕ) : Option (List R) := do
  let ch ← compressed[4 * (i >>> 4) + (i &&& 15) >>> 2]?
  let mask := posbits (i &&& 3)
  let negmask := negbits (i &&& 3)
  let masked := charAnd ch mask
  if out.length ≤ i then none
  else some (out.set i
    (if masked = mask then posThreshold else if masked = negmask then negThreshold else 0))

/-- `Quantize2BitKernelLaunch`. The kernel runs the blocks in the order `blocks`. -/
def quantize2BitKernelLaunch (blocks : List ℕ) (compressed : List (BitVec 8))
    (grad residual : List R) (threshold : R) : Option (List (BitVec 8) × List R) :=
  blocks.foldlM (quantize2bit grad.length grad (-1 * threshold) threshold) (compressed, residual)

/-- `Dequantize2BitKernelLaunch`. The kernel runs the positions in the order `positions`. -/
def dequantize2BitKernelLaunch (positions : List ℕ) (compressed : List (BitVec 8)) (out : List R)
    (threshold : R) : Option (List R) :=
  positions.foldlM (dequantize2bit compressed (-1 * threshold) threshold) out

/-- One round: the gradients, what the buffers for the compressed and the restored gradients hold
before, and the orders in which the kernels run. -/
structure Round (R : Type) where
  grad : List R
  compressed : List (BitVec 8)
  out : List R
  blocks : List ℕ
  positions : List ℕ

/-- The buffers are for `n` gradients, and the kernels run all blocks and all positions. -/
structure Round.For (round : Round R) (n : ℕ) : Prop where
  grad : round.grad.length = n
  compressed : round.compressed.length = 4 * getCompressedSize n
  out : round.out.length = n
  blocks : round.blocks.Perm (List.range (getCompressedSize n))
  positions : round.positions.Perm (List.range n)

/-- Compression and decompression: the restored gradients and the new residual. -/
def compressRound (threshold : R) (residual : List R) (round : Round R) :
    Option (List R × List R) := do
  let s ← quantize2BitKernelLaunch round.blocks round.compressed round.grad residual threshold
  let out ← dequantize2BitKernelLaunch round.positions s.1 round.out threshold
  some (out, s.2)

/-- The rounds one after another: the restored gradients of every round and the last residual. -/
def compressRounds (threshold : R) (residual : List R) :
    List (Round R) → Option (List (List R) × List R)
  | [] => some ([], residual)
  | round :: rounds => do
    let (out, residual) ← compressRound threshold residual round
    let (outs, residual) ← compressRounds threshold residual rounds
    some (out :: outs, residual)

theorem setWidth_signExtend (ch : BitVec 8) : (ch.signExtend 32).setWidth 8 = ch := by
  apply BitVec.eq_of_getLsbD_eq
  intro i hi
  have hlt : i < 32 := by omega
  simp [BitVec.getElem_signExtend, hi, hlt]

@[simp] theorem charOr_eq (ch mask : BitVec 8) : charOr ch mask = ch ||| mask := by
  unfold charOr
  rw [BitVec.setWidth_or, setWidth_signExtend, BitVec.setWidth_setWidth_of_le _ (by decide),
    BitVec.setWidth_eq]

@[simp] theorem charAnd_eq (ch mask : BitVec 8) : charAnd ch mask = ch &&& mask := by
  unfold charAnd
  rw [BitVec.setWidth_and, setWidth_signExtend, BitVec.setWidth_setWidth_of_le _ (by decide),
    BitVec.setWidth_eq]

/-- The codes of a column: each is in its own field, and in no other. -/
theorem mask_and_posbits : ∀ c < 4, ∀ c' < 4, ∀ mask ∈ [posbits c, negbits c, 0],
    mask &&& posbits c' = if c' = c then mask else 0 := by decide

theorem negbits_ne : ∀ c < 4, negbits c ≠ posbits c ∧ posbits c ≠ 0 ∧ negbits c ≠ 0 := by decide

/-- A mask put to a byte changes the field of its column only. -/
theorem field_or {c c' : ℕ} (hc : c < 4) (hc' : c' < 4) {mask : BitVec 8}
    (hmask : mask ∈ [posbits c, negbits c, 0]) (ch : BitVec 8) :
    (ch ||| mask) &&& posbits c' =
      if c' = c then ch &&& posbits c' ||| mask else ch &&& posbits c' := by
  rw [BitVec.and_or_distrib_right, mask_and_posbits c hc c' hc' mask hmask]
  split_ifs with h
  · rfl
  · simp

/-- What the kernels see of a position: its field in the compressed buffer, and its residual. -/
def cell {n : ℕ} (s : List (BitVec 8) × List R) (j : Fin n) : BitVec 8 × R :=
  (s.1.getD (j / 4) 0 &&& posbits (j % 4), s.2.getD j 0)

/-- The new content of a cell: `11` or `10` in its field, and what is left over. -/
def quantizeCell {n : ℕ} (grad : List R) (threshold : R) (j : Fin n) (v : BitVec 8 × R) :
    BitVec 8 × R :=
  let x := v.2 + grad.getD j 0
  if threshold ≤ x then (v.1 ||| posbits (j % 4), x - threshold)
  else if x ≤ -1 * threshold then (v.1 ||| negbits (j % 4), x - -1 * threshold)
  else (v.1, x)

/-- The buffers have their sizes. -/
def Sized (n : ℕ) (s : List (BitVec 8) × List R) : Prop :=
  s.1.length = 4 * getCompressedSize n ∧ s.2.length = n

theorem lt_compressed {n j : ℕ} (hj : j < n) : j / 4 < 4 * getCompressedSize n := by
  unfold getCompressedSize
  split_ifs <;> omega

omit [LinearOrder R] in
/-- Setting the byte of a position and its residual. -/
theorem cell_set {n : ℕ} {s : List (BitVec 8) × List R} (hs : Sized n s) {i : ℕ} (hi : i < n)
    (j : Fin n) {mask : BitVec 8} (hmask : mask ∈ [posbits (i % 4), negbits (i % 4), 0]) (x : R) :
    cell (s.1.set (i / 4) (s.1.getD (i / 4) 0 ||| mask), s.2.set i x) j =
      if j.val = i then ((cell s j).1 ||| mask, x) else cell s j := by
  have hbyte : i / 4 < s.1.length := hs.1 ▸ lt_compressed hi
  have hres : i < s.2.length := hs.2 ▸ hi
  have hfield : (s.1.set (i / 4) (s.1.getD (i / 4) 0 ||| mask)).getD (j / 4) 0 &&& posbits (j % 4) =
      if j.val = i then s.1.getD (j / 4) 0 &&& posbits (j % 4) ||| mask
      else s.1.getD (j / 4) 0 &&& posbits (j % 4) := by
    by_cases hbytes : j.val / 4 = i / 4
    · rw [hbytes, List.getD_eq_getElem _ _ (by simpa using hbyte), List.getElem_set_self,
        field_or (Nat.mod_lt _ (by decide)) (Nat.mod_lt _ (by decide)) hmask]
      have hiff : j.val % 4 = i % 4 ↔ j.val = i := by omega
      simp only [hiff]
    · have hne : j.val ≠ i := fun h => hbytes (by rw [h])
      rw [if_neg hne]
      simp [List.getD_eq_getElem?_getD, List.getElem?_set_ne (Ne.symm hbytes)]
  have hresidual : (s.2.set i x).getD j 0 = if j.val = i then x else s.2.getD j 0 := by
    split_ifs with h
    · rw [h, List.getD_eq_getElem _ _ (by simpa using hres), List.getElem_set_self]
    · simp [List.getD_eq_getElem?_getD, List.getElem?_set_ne (Ne.symm h)]
  unfold cell
  rw [hfield, hresidual]
  split_ifs <;> rfl

omit [CommRing R] [LinearOrder R] in
theorem Sized.set {n : ℕ} {s : List (BitVec 8) × List R} (hs : Sized n s) (k i : ℕ)
    (b : BitVec 8) (x : R) : Sized n (s.1.set k b, s.2.set i x) := by
  simpa [Sized] using hs

theorem or_zero (ch : BitVec 8) : ch ||| 0 = ch := BitVec.or_zero

theorem set_or_zero (out : List (BitVec 8)) (k : ℕ) : out.set k (out.getD k 0 ||| 0) = out := by
  rw [or_zero]
  apply List.ext_getElem?
  intro m
  rw [List.getElem?_set]
  split_ifs with hm hlt
  · subst hm
    rw [List.getD_eq_getElem _ _ hlt, List.getElem?_eq_getElem hlt]
  · subst hm
    rw [List.getElem?_eq_none (not_lt.mp hlt)]
  · rfl

theorem getD_set_zero (out : List (BitVec 8)) (m k : ℕ) :
    (out.set m 0).getD k 0 = if k = m then 0 else out.getD k 0 := by
  rw [List.getD_eq_getElem?_getD, List.getElem?_set]
  split_ifs <;> simp_all

theorem storeZero_getD {out : List (BitVec 8)} {blockId : ℕ} (h : 4 * blockId + 4 ≤ out.length) :
    ∃ out', storeZero out blockId = some out' ∧ out'.length = out.length ∧
      ∀ k, out'.getD k 0 = if k / 4 = blockId then 0 else out.getD k 0 := by
  refine ⟨_, if_neg (not_lt.mpr h), by simp, fun k => ?_⟩
  simp only [getD_set_zero]
  split_ifs <;> first | rfl | omega

omit [LinearOrder R] in
/-- Clearing a block clears the fields of its positions. -/
theorem cell_storeZero {n : ℕ} {s : List (BitVec 8) × List R} {blockId : ℕ}
    {out : List (BitVec 8)}
    (h : ∀ k, out.getD k 0 = if k / 4 = blockId then 0 else s.1.getD k 0) (j : Fin n) :
    cell (out, s.2) j = if j.val / 16 = blockId then (0, (cell s j).2) else cell s j := by
  have hiff : j.val / 4 / 4 = blockId ↔ j.val / 16 = blockId := by omega
  unfold cell
  rw [h]
  simp only [hiff]
  split_ifs <;> simp

section Kernel
variable {n : ℕ} {grad : List R} (hgrad : grad.length = n) (threshold : R)

include hgrad in
/-- A pass of the loop does its own position. -/
theorem quantizeStep_own {blockId i : ℕ} (hi : i < n) (hblock : i / 16 = blockId) :
    OwnedCells.OwnStep (quantizeStep blockId (16 * blockId) grad (-1 * threshold) threshold)
      (Sized n) (fun j : Fin n => j.val) cell (quantizeCell grad threshold) i := by
  intro s hs
  have hbyte : 4 * blockId + (i - 16 * blockId) >>> 2 = i / 4 := by
    rw [Nat.shiftRight_eq_div_pow]
    omega
  have hcol : i &&& 3 = i % 4 := Nat.and_two_pow_sub_one_eq_mod i 2
  have hlt : i / 4 < s.1.length := hs.1 ▸ lt_compressed hi
  have hg : grad[i]? = some (grad.getD i 0) := by
    rw [List.getElem?_eq_getElem (hgrad ▸ hi), List.getD_eq_getElem _ _ (hgrad ▸ hi)]
  have hr : s.2[i]? = some (s.2.getD i 0) := by
    rw [List.getElem?_eq_getElem (hs.2 ▸ hi), List.getD_eq_getElem _ _ (hs.2 ▸ hi)]
  have hch : s.1[i / 4]? = some (s.1.getD (i / 4) 0) := by
    rw [List.getElem?_eq_getElem hlt, List.getD_eq_getElem _ _ hlt]
  simp only [quantizeStep, hbyte, hcol, hg, hr, hch, Option.bind_eq_bind, Option.bind_some,
    charOr_eq]
  split_ifs with hpos hneg
  · refine ⟨_, rfl, hs.set _ _ _ _, fun j => ?_⟩
    rw [cell_set hs hi j (by simp)]
    split_ifs with hj
    · subst hj
      exact (if_pos hpos).symm
    · rfl
  · refine ⟨_, rfl, hs.set _ _ _ _, fun j => ?_⟩
    rw [cell_set hs hi j (by simp)]
    split_ifs with hj
    · subst hj
      exact ((if_neg hpos).trans (if_pos hneg)).symm
    · rfl
  · refine ⟨_, rfl, ⟨hs.1, by simpa using hs.2⟩, fun j => ?_⟩
    nth_rewrite 1 [← set_or_zero s.1 (i / 4)]
    rw [cell_set hs hi j (by simp)]
    split_ifs with hj
    · subst hj
      rw [or_zero]
      exact ((if_neg hpos).trans (if_neg hneg)).symm
    · rfl

include hgrad in
/-- The kernel on a block does the positions of the block. -/
theorem quantize2bit_own (hn : n < 2 ^ 31 - 16) {blockId : ℕ}
    (hblock : blockId < getCompressedSize n) :
    OwnedCells.OwnStep (quantize2bit n grad (-1 * threshold) threshold) (Sized n)
      (fun j : Fin n => j.val / 16) cell (fun j v => quantizeCell grad threshold j (0, v.2))
      blockId := by
  intro s hs
  have hstart : 16 * blockId < n := by
    unfold getCompressedSize at hblock
    split_ifs at hblock <;> omega
  have hfits : 4 * blockId + 4 ≤ s.1.length := by
    rw [hs.1]
    omega
  obtain ⟨out, hstore, hlen, hout⟩ := storeZero_getD hfits
  have hsize : Sized n (out, s.2) := ⟨hlen.trans hs.1, hs.2⟩
  have hshift : blockId <<< 4 = 16 * blockId := by rw [Nat.shiftLeft_eq, Nat.mul_comm]
  have hint₁ : asInt (16 * blockId) = some (16 * blockId) := if_pos (by omega)
  have hint₂ : asInt (16 * blockId + 16) = some (16 * blockId + 16) := if_pos (by omega)
  have hmem : ∀ i, i ∈ List.range' (16 * blockId)
      ((if 16 * blockId + 16 ≤ n then 16 * blockId + 16 else n) - 16 * blockId) ↔
        i < n ∧ i / 16 = blockId := by
    intro i
    rw [List.mem_range'_1]
    split_ifs <;> omega
  obtain ⟨s', hloop, hs', hview⟩ := OwnedCells.foldlM_own List.nodup_range'
    (fun i hi => quantizeStep_own hgrad threshold ((hmem i).mp hi).1 ((hmem i).mp hi).2)
    (out, s.2) hsize
  refine ⟨s', ?_, hs', fun j => ?_⟩
  · simp only [quantize2bit, hstore, hshift, hint₁, hint₂, Option.bind_eq_bind, Option.bind_some]
    exact hloop
  · have hj : j.val ∈ List.range' (16 * blockId)
        ((if 16 * blockId + 16 ≤ n then 16 * blockId + 16 else n) - 16 * blockId) ↔
          j.val / 16 = blockId := by simp [hmem, j.isLt]
    rw [hview, cell_storeZero hout]
    simp only [hj]
    split_ifs <;> rfl

include hgrad in
/-- The kernel does every position once. -/
theorem quantize2BitKernelLaunch_cells (hn : n < 2 ^ 31 - 16) {blocks : List ℕ}
    (hblocks : blocks.Perm (List.range (getCompressedSize n))) {s : List (BitVec 8) × List R}
    (hs : Sized n s) :
    ∃ s', quantize2BitKernelLaunch blocks s.1 grad s.2 threshold = some s' ∧ Sized n s' ∧
      ∀ j : Fin n, cell s' j = quantizeCell grad threshold j (0, (cell s j).2) := by
  have hmem : ∀ b, b ∈ blocks ↔ b < getCompressedSize n := fun b => by
    rw [hblocks.mem_iff, List.mem_range]
  obtain ⟨s', hrun, hs', hview⟩ := OwnedCells.foldlM_own
    (hblocks.nodup_iff.mpr List.nodup_range)
    (fun b hb => quantize2bit_own hgrad threshold hn ((hmem b).mp hb)) s hs
  refine ⟨s', by rw [quantize2BitKernelLaunch, hgrad]; exact hrun, hs', fun j => ?_⟩
  have hj : j.val / 16 ∈ blocks := by
    rw [hmem, getCompressedSize]
    split_ifs <;> omega
  rw [hview, if_pos hj]

end Kernel

/-- The value that a field stands for. -/
def decode (threshold : R) (c : ℕ) (masked : BitVec 8) : R :=
  if masked = posbits c then threshold else if masked = negbits c then -1 * threshold else 0

omit [LinearOrder R] in
theorem dequantize2bit_own {n : ℕ} {compressed : List (BitVec 8)}
    (hcompressed : compressed.length = 4 * getCompressedSize n) (threshold : R) {i : ℕ}
    (hi : i < n) :
    OwnedCells.OwnStep (dequantize2bit compressed (-1 * threshold) threshold)
      (fun out => out.length = n) (fun j : Fin n => j.val) (fun out j => out.getD j 0)
      (fun j _ => decode threshold (j % 4) (compressed.getD (j / 4) 0 &&& posbits (j % 4))) i := by
  intro out hout
  have hbyte : 4 * (i >>> 4) + (i &&& 15) >>> 2 = i / 4 := by
    have hlow : i &&& 15 = i % 16 := Nat.and_two_pow_sub_one_eq_mod i 4
    rw [hlow, Nat.shiftRight_eq_div_pow, Nat.shiftRight_eq_div_pow]
    omega
  have hcol : i &&& 3 = i % 4 := Nat.and_two_pow_sub_one_eq_mod i 2
  have hlt : i / 4 < compressed.length := hcompressed ▸ lt_compressed hi
  have hch : compressed[i / 4]? = some (compressed.getD (i / 4) 0) := by
    rw [List.getElem?_eq_getElem hlt, List.getD_eq_getElem _ _ hlt]
  have hstep : dequantize2bit compressed (-1 * threshold) threshold out i = some (out.set i
      (decode threshold (i % 4) (compressed.getD (i / 4) 0 &&& posbits (i % 4)))) := by
    simp only [dequantize2bit, hbyte, hcol, hch, Option.bind_eq_bind, Option.bind_some,
      charAnd_eq]
    exact if_neg (by omega)
  refine ⟨_, hstep, by simpa using hout, fun j => ?_⟩
  split_ifs with hj
  · obtain rfl : j.val = i := hj
    simp [List.getD_eq_getElem?_getD, hout]
  · simp [List.getD_eq_getElem?_getD, List.getElem?_set_ne (Ne.symm hj)]

/-- The restored value and the new residual make up for the gradient and the old residual. -/
theorem decode_quantizeCell {n : ℕ} (grad : List R) (threshold : R) (j : Fin n) (r : R) :
    (decode threshold (j % 4) (quantizeCell grad threshold j (0, r)).1 = threshold ∨
      decode threshold (j % 4) (quantizeCell grad threshold j (0, r)).1 = -threshold ∨
      decode threshold (j % 4) (quantizeCell grad threshold j (0, r)).1 = 0) ∧
    decode threshold (j % 4) (quantizeCell grad threshold j (0, r)).1 +
      (quantizeCell grad threshold j (0, r)).2 = r + grad.getD j 0 := by
  obtain ⟨hneg, hpos₀, hneg₀⟩ := negbits_ne (j % 4) (Nat.mod_lt _ (by decide))
  have hzero : ∀ mask : BitVec 8, 0 ||| mask = mask := fun mask => BitVec.zero_or
  have hdecode : decode threshold (j % 4) 0 = 0 := by
    rw [decode, if_neg hpos₀.symm, if_neg hneg₀.symm]
  simp only [quantizeCell, hzero]
  split_ifs
  · simp [decode]
  · simp [decode, hneg]
  · simp only [hdecode, or_true, zero_add, and_self]

/-- One round fails nowhere, restores only the threshold, its negative and zero, and loses
nothing. -/
theorem compressRound_spec {n : ℕ} (hn : n < 2 ^ 31 - 16) (threshold : R) {residual : List R}
    (hres : residual.length = n) {round : Round R} (hround : round.For n) :
    ∃ out residual', compressRound threshold residual round = some (out, residual') ∧
      out.length = n ∧ residual'.length = n ∧
      ∀ i < n, (out.getD i 0 = threshold ∨ out.getD i 0 = -threshold ∨ out.getD i 0 = 0) ∧
        out.getD i 0 + residual'.getD i 0 = residual.getD i 0 + round.grad.getD i 0 := by
  obtain ⟨s', hq, hs', hcells⟩ := quantize2BitKernelLaunch_cells hround.grad threshold hn
    hround.blocks (s := (round.compressed, residual)) ⟨hround.compressed, hres⟩
  obtain ⟨out, hd, hout, hvals⟩ := OwnedCells.foldlM_own
    (hround.positions.nodup_iff.mpr List.nodup_range)
    (fun i hi => dequantize2bit_own hs'.1 threshold
      (List.mem_range.mp (hround.positions.mem_iff.mp hi))) round.out hround.out
  refine ⟨out, s'.2, ?_, hout, hs'.2, fun i hi => ?_⟩
  · simp only [compressRound, hq, Option.bind_eq_bind, Option.bind_some,
      dequantize2BitKernelLaunch, hd]
  · have hmem : i ∈ round.positions := hround.positions.mem_iff.mpr (List.mem_range.mpr hi)
    have hval := hvals ⟨i, hi⟩
    rw [if_pos hmem] at hval
    have hcell := hcells ⟨i, hi⟩
    have hspec := decode_quantizeCell round.grad threshold ⟨i, hi⟩ (residual.getD i 0)
    have hfield : s'.1.getD (i / 4) 0 &&& posbits (i % 4) = _ := congrArg Prod.fst hcell
    have hnew : s'.2.getD i 0 = _ := congrArg Prod.snd hcell
    simp only [hfield] at hval
    rw [hval, hnew]
    exact hspec

/-- Compression loses nothing but the residual. A round restores the threshold, its negative or
zero at every position, and this with the new residual is the gradient with the old residual.
Over any rounds the restored gradients and the last residual make up for the gradients and the
first residual. No kernel reads or writes outside its buffers. -/
theorem lossless_up_to_residual (n : ℕ) (hn : n < 2 ^ 31 - 16) (threshold : R)
    (residual : List R) (hres : residual.length = n) :
    (∀ round : Round R, round.For n →
      ∃ out residual', compressRound threshold residual round = some (out, residual') ∧
        out.length = n ∧ residual'.length = n ∧
        ∀ i < n, (out.getD i 0 = threshold ∨ out.getD i 0 = -threshold ∨ out.getD i 0 = 0) ∧
          out.getD i 0 + residual'.getD i 0 = residual.getD i 0 + round.grad.getD i 0) ∧
    ∀ rounds : List (Round R), (∀ round ∈ rounds, round.For n) →
      ∃ outs residual', compressRounds threshold residual rounds = some (outs, residual') ∧
        outs.length = rounds.length ∧ residual'.length = n ∧
        ∀ i < n, (outs.map fun out => out.getD i 0).sum + residual'.getD i 0 =
          (rounds.map fun round => round.grad.getD i 0).sum + residual.getD i 0 := by
  refine ⟨fun round hround => compressRound_spec hn threshold hres hround, fun rounds => ?_⟩
  induction rounds generalizing residual with
  | nil => exact fun _ => ⟨[], residual, rfl, rfl, hres, by simp⟩
  | cons round rounds ih =>
    intro h
    obtain ⟨out, r₁, hrun, -, hr₁, hspec⟩ :=
      compressRound_spec hn threshold hres (h round List.mem_cons_self)
    obtain ⟨outs, r₂, hruns, hlen, hr₂, hsum⟩ :=
      ih r₁ hr₁ fun rd hrd => h rd (List.mem_cons_of_mem _ hrd)
    refine ⟨out :: outs, r₂, ?_, by simp [hlen], hr₂, fun i hi => ?_⟩
    · simp only [compressRounds, hrun, hruns, Option.bind_eq_bind, Option.bind_some]
    · simp only [List.map_cons, List.sum_cons]
      linear_combination hsum i hi + (hspec i hi).2

/-- Two rounds of two gradients, over a compressed buffer that was not empty. -/
theorem lossless_up_to_residual_two_rounds :
    ∃ outs residual', compressRounds (2 : ℤ) [0, 1]
        [⟨[3, -5], [255, 255, 255, 255], [9, 9], [0], [1, 0]⟩,
          ⟨[1, 0], [255, 0, 255, 0], [9, 9], [0], [0, 1]⟩] = some (outs, residual') ∧
      outs = [[2, -2], [2, -2]] ∧ residual' = [0, 0] ∧
      ∀ i < 2, (outs.map fun out => out.getD i 0).sum + residual'.getD i 0 =
        ([[3, -5], [1, 0]].map fun grad : List ℤ => grad.getD i 0).sum + [0, 1].getD i 0 := by
  obtain ⟨outs, residual', hrun, -, -, hsum⟩ :=
    (lossless_up_to_residual 2 (by decide) (2 : ℤ) [0, 1] rfl).2
      [⟨[3, -5], [255, 255, 255, 255], [9, 9], [0], [1, 0]⟩,
        ⟨[1, 0], [255, 0, 255, 0], [9, 9], [0], [0, 1]⟩] (by
      intro round hround
      simp only [List.mem_cons, List.not_mem_nil, or_false] at hround
      rcases hround with rfl | rfl <;> constructor <;> decide)
  have hvalue : compressRounds (2 : ℤ) [0, 1]
      [⟨[3, -5], [255, 255, 255, 255], [9, 9], [0], [1, 0]⟩,
        ⟨[1, 0], [255, 0, 255, 0], [9, 9], [0], [0, 1]⟩] =
      some ([[2, -2], [2, -2]], [0, 0]) := by decide
  obtain ⟨rfl, rfl⟩ := Prod.mk.inj (Option.some_inj.mp (hvalue.symm.trans hrun))
  exact ⟨_, _, hrun, rfl, rfl, hsum⟩

end GradientCompression
end NetStorm

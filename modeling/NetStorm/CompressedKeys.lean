import Mathlib.Data.List.Forall2
import Mathlib.Data.List.SplitLengths
import NetStorm.GradientCompression
import NetStorm.Library.NearestEven
import NetStorm.RowSparseKeys

/-!
# Keys for compressed gradients

`EncodeCompressedKey` divides a compressed array among the servers and sends the size of each
original part inside a key. The bounds of the parts are computed in double precision. The
last server gets what is left, and what is left is an unsigned number.
-/
namespace NetStorm
open NearestEven GradientCompression

/-- `double`. Its largest exponent is out of reach. -/
def binary64 : Format where
  precision := 53
  minExponent := -1074
  pos := by norm_num

/-- The conversion to `size_t`. -/
def toSizeT (z : ℤ) : ℕ := (z % 2 ^ 64).toNat

/-- `ComprPSKV`. -/
structure ComprPSKV where
  push : PSKV := {}
  pull : PSKV := {}
deriving DecidableEq

/-- The member of `ComprPSKV` for pushes or for pulls. -/
def ComprPSKV.get (s : ComprPSKV) (isPush : Bool) : PSKV := if isPush = true then s.push else s.pull

namespace ShardConfig
variable (cfg : ShardConfig)

/-- `static_cast<double>(compr_num_elem)/num_servers`. -/
def comprQuotient (comprNumElem : ℕ) : ℚ :=
  binary64.round (binary64.round comprNumElem / cfg.numServers)

/-- `round(static_cast<double>(compr_num_elem)/num_servers*i)`. -/
def comprBound (comprNumElem i : ℕ) : ℕ :=
  ⌊binary64.round (cfg.comprQuotient comprNumElem * i) + 1 / 2⌋.toNat

/-- The part of server `i`. -/
def pushCompressed (key : ℤ) (comprNumElem originalNumElem numBytes : ℕ) (s : ComprPSKV)
    (i : ℕ) : Option ComprPSKV :=
  let partCompr := if i + 1 = cfg.numServers then toSizeT (comprNumElem - s.push.size)
    else toSizeT ((cfg.comprBound comprNumElem (i + 1) : ℤ) - cfg.comprBound comprNumElem i)
  let partOrig := if i + 1 = cfg.numServers then toSizeT (originalNumElem - s.pull.size)
    else partCompr * 16 % 2 ^ 64
  let psKeyDummy := (rangeBegin cfg.numServers i + partOrig) % 2 ^ 64
  if psKeyDummy < rangeEnd cfg.numServers i then
    let psKey := cfg.originalKey key i
    if psKey < rangeEnd cfg.numServers i then
      some {
        push := {
          keys := s.push.keys ++ [psKeyDummy, psKey]
          lens := s.push.lens ++ [0, toInt32 (partCompr * numBytes)]
          size := Int.bmod (s.push.size + partCompr) (2 ^ 32) }
        pull := {
          keys := s.pull.keys ++ [psKey]
          lens := s.pull.lens ++ [toInt32 (partOrig * numBytes)]
          size := Int.bmod (s.pull.size + partOrig) (2 ^ 32) } }
    else none
  else none

/-- The first call of `EncodeCompressedKey` for an array of few elements. -/
def encodeSingle (key : ℤ) (comprNumElem originalNumElem numBytes : ℕ) (s : ComprPSKV) :
    Option ComprPSKV :=
  let server := (key * 9973).tmod cfg.numServers
  if key * 9973 < -2 ^ 31 ∨ 2 ^ 31 ≤ key * 9973 ∨ server < 0 then none
  else
    let psKey := cfg.originalKey key server.toNat
    if psKey < rangeEnd cfg.numServers server.toNat then
      let comprSize := toInt32 (comprNumElem * numBytes)
      let originalSize := toInt32 (originalNumElem * numBytes)
      some {
        push := {
          keys := s.push.keys ++
            [(rangeBegin cfg.numServers server.toNat + originalNumElem) % 2 ^ 64, psKey]
          lens := s.push.lens ++ [0, comprSize]
          size := comprSize }
        pull := {
          keys := s.pull.keys ++ [psKey]
          lens := s.pull.lens ++ [originalSize]
          size := originalSize } }
    else none

/-- The first call of `EncodeCompressedKey` for an array that is partitioned. -/
def encodeSharded (key : ℤ) (comprNumElem originalNumElem numBytes : ℕ) (s : ComprPSKV) :
    Option ComprPSKV := do
  let s ← (List.range cfg.numServers).foldlM
    (cfg.pushCompressed key comprNumElem originalNumElem numBytes)
    { push := { s.push with size := 0 }, pull := { s.pull with size := 0 } }
  if toSizeT s.push.size = comprNumElem ∧ toSizeT s.pull.size = originalNumElem ∧
      s.push.lens.length = cfg.numServers * 2 then
    some {
      push := { s.push with size := Int.bmod (s.push.size * numBytes) (2 ^ 32) }
      pull := { s.pull with size := Int.bmod (s.pull.size * numBytes) (2 ^ 32) } }
  else none

/-- `KVStoreDist::EncodeCompressedKey`, on the map `compr_ps_kv_`. -/
def encodeCompressedKey (comprPsKv : ℤ → ComprPSKV) (key : ℤ) (originalNumElem : ℕ)
    (isPush : Bool) (numBytes : ℕ) : Option (PSKV × (ℤ → ComprPSKV)) :=
  if cfg.numServers = 0 then none
  else
    let comprNumElem := getCompressedSize originalNumElem
    let pskv := (comprPsKv key).get isPush
    if pskv.keys ≠ [] then
      let numElem := if isPush = true then comprNumElem else originalNumElem
      if toSizeT pskv.size = numElem * numBytes % 2 ^ 64 then some (pskv, comprPsKv) else none
    else do
      let s ← if originalNumElem < cfg.bigarrayBound then
          cfg.encodeSingle key comprNumElem originalNumElem numBytes (comprPsKv key)
        else cfg.encodeSharded key comprNumElem originalNumElem numBytes (comprPsKv key)
      some (s.get isPush, Function.update comprPsKv key s)

end ShardConfig

section Bounds
variable {cfg : ShardConfig} {C : ℕ}

theorem holds_mul_zpow {m : ℕ} (hm : m < 2 ^ 53) (e : ℤ) (he : -1074 ≤ e) :
    binary64.Holds (m * 2 ^ e) := ⟨m, e, hm, he, rfl⟩

theorem holds_natCast {m : ℕ} (hm : m < 2 ^ 53) : binary64.Holds m :=
  ⟨m, 0, hm, by norm_num [binary64], by norm_num⟩

theorem comprBound_zero : cfg.comprBound C 0 = 0 := by
  rw [ShardConfig.comprBound, Nat.cast_zero, mul_zero, Format.round_zero]
  norm_num

theorem comprQuotient_nonneg : 0 ≤ cfg.comprQuotient C :=
  Format.round_nonneg (div_nonneg (Format.round_nonneg (Nat.cast_nonneg C)) (Nat.cast_nonneg _))

theorem comprBound_step (i : ℕ) : cfg.comprBound C i ≤ cfg.comprBound C (i + 1) := by
  have hle : cfg.comprQuotient C * i ≤ cfg.comprQuotient C * (i + 1 : ℕ) :=
    mul_le_mul_of_nonneg_left (by exact_mod_cast Nat.le_succ i) comprQuotient_nonneg
  exact Int.toNat_le_toNat (Int.floor_le_floor (add_le_add_left
    (Format.round_mono (mul_nonneg comprQuotient_nonneg (Nat.cast_nonneg i)) hle) _))

/-- The quotient times the number of the other servers: what is missing to the whole is the
exact quotient, up to an error of `2^-28`. -/
theorem others_bounds (hn₀ : 0 < cfg.numServers) (hn : cfg.numServers < 2 ^ 31) (hC₀ : 0 < C)
    (hC : C ≤ 2 ^ 25) :
    C - (C : ℚ) / cfg.numServers - 1 / 2 ^ 28 ≤
        cfg.comprQuotient C * (cfg.numServers - 1 : ℕ) ∧
      cfg.comprQuotient C * (cfg.numServers - 1 : ℕ) ≤
        C - (C : ℚ) / cfg.numServers + 1 / 2 ^ 28 ∧
      cfg.comprQuotient C * (cfg.numServers - 1 : ℕ) ≤ C := by
  have hk : (1 : ℚ) ≤ cfg.numServers := by exact_mod_cast hn₀
  have hk' : (cfg.numServers : ℚ) ≤ 2 ^ 31 := by exact_mod_cast hn.le
  have hCq : (1 : ℚ) ≤ C := by exact_mod_cast hC₀
  have hCq' : (C : ℚ) ≤ 2 ^ 25 := by exact_mod_cast hC
  rw [ShardConfig.comprQuotient, Format.round_eq_self (holds_natCast (show C < 2 ^ 53 by omega)),
    Nat.cast_pred hn₀]
  set k : ℚ := (cfg.numServers : ℚ)
  set q : ℚ := C / k with hq
  have hqk : q * k = C := div_mul_cancel₀ _ (by positivity)
  have hsmall : (C : ℚ) / 2 ^ 53 ≤ q := div_le_div_of_nonneg_left (by positivity) (by positivity)
    (hk'.trans (by norm_num))
  have hnormal : (2 : ℚ) ^ (binary64.minExponent + binary64.precision) ≤ q := by
    calc (2 : ℚ) ^ (binary64.minExponent + binary64.precision) ≤ 2 ^ (-53 : ℤ) :=
          zpow_le_zpow_right₀ one_le_two (by decide)
      _ = 1 / 2 ^ 53 := by norm_num
      _ ≤ C / 2 ^ 53 := div_le_div_of_nonneg_right hCq (by positivity)
      _ ≤ q := hsmall
  obtain ⟨hlo, hhi⟩ := Format.round_sub_le_mul hnormal
  set x := binary64.round q
  have hprec : binary64.precision = 53 := rfl
  rw [hprec] at hlo hhi
  have herror : q / 2 ^ 53 * (k - 1) ≤ C / 2 ^ 53 := by
    rw [div_mul_eq_mul_div, mul_sub, hqk, mul_one]
    exact div_le_div_of_nonneg_right (by linarith [show 0 ≤ q by positivity]) (by positivity)
  have h₁ := mul_le_mul_of_nonneg_right hlo (sub_nonneg.mpr hk)
  have h₂ := mul_le_mul_of_nonneg_right hhi (sub_nonneg.mpr hk)
  rw [sub_mul, mul_sub q, hqk, mul_one] at h₁
  rw [add_mul, mul_sub q, hqk, mul_one] at h₂
  have hC28 : (C : ℚ) / 2 ^ 53 ≤ 1 / 2 ^ 28 := by
    rw [div_le_div_iff₀ (by positivity) (by positivity)]
    linarith
  exact ⟨by linarith, by linarith, by linarith⟩

theorem comprBound_last_le (hn₀ : 0 < cfg.numServers) (hn : cfg.numServers < 2 ^ 31)
    (hC₀ : 0 < C) (hC : C ≤ 2 ^ 25) : cfg.comprBound C (cfg.numServers - 1) ≤ C := by
  obtain ⟨-, -, hle⟩ := others_bounds hn₀ hn hC₀ hC
  have hround := Format.round_mono (F := binary64)
    (mul_nonneg comprQuotient_nonneg (Nat.cast_nonneg _)) hle
  rw [Format.round_eq_self (holds_natCast (show C < 2 ^ 53 by omega))] at hround
  rw [ShardConfig.comprBound, Int.toNat_le, ← Int.lt_add_one_iff, Int.floor_lt]
  push_cast
  linarith

/-- More than half as many blocks as servers: rounding leaves a block for the last server. -/
theorem comprBound_last_lt (hn₀ : 0 < cfg.numServers) (hn : cfg.numServers < 2 ^ 31)
    (hC : C ≤ 2 ^ 25) (h : cfg.numServers < 2 * C) :
    cfg.comprBound C (cfg.numServers - 1) < C := by
  obtain ⟨-, hhi, -⟩ := others_bounds hn₀ hn (by omega) hC
  have hk : (0 : ℚ) < cfg.numServers := by exact_mod_cast hn₀
  have hk' : (cfg.numServers : ℚ) ≤ 2 ^ 26 := by exact_mod_cast (by omega : cfg.numServers ≤ 2 ^ 26)
  have hq : (1 : ℚ) / 2 + 1 / 2 ^ 27 ≤ C / cfg.numServers := by
    have h2C : (cfg.numServers : ℚ) + 1 ≤ 2 * C := by exact_mod_cast h
    rw [le_div_iff₀ hk]
    linarith
  obtain ⟨m, hm⟩ : ∃ m, C * 2 ^ 28 = m + 2 ^ 27 + 1 := ⟨C * 2 ^ 28 - 2 ^ 27 - 1, by omega⟩
  have hmq : (C : ℚ) * 2 ^ 28 = m + 2 ^ 27 + 1 := by exact_mod_cast hm
  have hgap : cfg.comprQuotient C * (cfg.numServers - 1 : ℕ) ≤ m * 2 ^ (-28 : ℤ) := by
    rw [zpow_neg, ← div_eq_mul_inv, le_div_iff₀ (by positivity)]
    norm_num at hhi hq hmq ⊢
    linarith
  have hpos : 0 ≤ cfg.comprQuotient C * (cfg.numServers - 1 : ℕ) :=
    mul_nonneg comprQuotient_nonneg (Nat.cast_nonneg _)
  have hround := Format.round_mono (F := binary64) hpos hgap
  rw [Format.round_eq_self (holds_mul_zpow (by omega) _ (by norm_num)), zpow_neg,
    ← div_eq_mul_inv, le_div_iff₀ (by positivity)] at hround
  have hzero := Format.round_nonneg (F := binary64) hpos
  rw [ShardConfig.comprBound, Int.toNat_lt (Int.floor_nonneg.mpr (by linarith)), Int.floor_lt,
    Int.cast_natCast]
  norm_num at hround hmq ⊢
  linarith

/-- At most half as many blocks as servers: the others already get all. -/
theorem le_comprBound_last (hn₀ : 0 < cfg.numServers) (hn : cfg.numServers < 2 ^ 31)
    (hC₀ : 0 < C) (hC : C ≤ 2 ^ 25) (h : 2 * C ≤ cfg.numServers) :
    C ≤ cfg.comprBound C (cfg.numServers - 1) := by
  have hk : (0 : ℚ) < cfg.numServers := by exact_mod_cast hn₀
  have hhalf : (C : ℚ) - 1 / 2 ≤ cfg.comprQuotient C * (cfg.numServers - 1 : ℕ) := by
    rcases h.eq_or_lt with heq | hlt
    · -- the quotient is one half, without an error
      have hquot : cfg.comprQuotient C = 1 / 2 := by
        have hdiv : (C : ℚ) / cfg.numServers = (1 : ℕ) * 2 ^ (-1 : ℤ) := by
          rw [← heq]
          push_cast
          field_simp
        rw [ShardConfig.comprQuotient,
          Format.round_eq_self (holds_natCast (show C < 2 ^ 53 by omega)), hdiv,
          Format.round_eq_self (holds_mul_zpow (by norm_num) _ (by norm_num))]
        norm_num
      rw [hquot, ← heq, Nat.cast_sub (by omega)]
      push_cast
      linarith
    · obtain ⟨hlo, -, -⟩ := others_bounds hn₀ hn hC₀ hC
      have hq : (C : ℚ) / cfg.numServers ≤ 1 / 2 - 1 / 2 ^ 28 := by
        rw [div_le_iff₀ hk]
        rcases lt_or_ge cfg.numServers (4 * C) with hfew | hmany
        · have h2C : (2 : ℚ) * C + 1 ≤ cfg.numServers := by exact_mod_cast hlt
          have h27 : (cfg.numServers : ℚ) ≤ 2 ^ 27 := by
            exact_mod_cast (by omega : cfg.numServers ≤ 2 ^ 27)
          linarith
        · have h4C : (4 : ℚ) * C ≤ cfg.numServers := by exact_mod_cast hmany
          linarith
      linarith
  obtain ⟨m, hm⟩ : ∃ m, 2 * C = m + 1 := ⟨2 * C - 1, by omega⟩
  have hmq : (2 : ℚ) * C = m + 1 := by exact_mod_cast hm
  have hrep : (C : ℚ) - 1 / 2 = m * 2 ^ (-1 : ℤ) := by
    rw [zpow_neg_one]
    linarith
  have hround := Format.round_mono (F := binary64) (by rw [hrep]; positivity) hhalf
  rw [hrep, Format.round_eq_self (holds_mul_zpow (by omega) _ (by norm_num)), ← hrep] at hround
  rw [ShardConfig.comprBound, Int.le_toNat (Int.floor_nonneg.mpr (by
    have : (1 : ℚ) ≤ C := by exact_mod_cast hC₀
    linarith)), Int.le_floor, Int.cast_natCast]
  linarith

theorem comprBound_last_lt_iff (hn₀ : 0 < cfg.numServers) (hn : cfg.numServers < 2 ^ 31)
    (hC₀ : 0 < C) (hC : C ≤ 2 ^ 25) :
    cfg.comprBound C (cfg.numServers - 1) < C ↔ cfg.numServers < 2 * C :=
  ⟨fun h => by
    by_contra hle
    exact absurd (le_comprBound_last hn₀ hn hC₀ hC (not_lt.mp hle)) (not_le.mpr h),
    comprBound_last_lt hn₀ hn hC⟩

end Bounds

/-- The part of a compressed array that goes to one server: the numbers of its blocks and of
the elements they stand for. -/
structure ComprPart where
  server : ℕ
  compr : ℕ
  orig : ℕ

/-- On any buffer and in any order the kernel restores the values. -/
def Restores {R : Type} [CommRing R] (threshold : R) (compressed : List (BitVec 8))
    (vals : List R) : Prop :=
  ∀ positions out, positions.Perm (List.range vals.length) → out.length = vals.length →
    dequantize2BitKernelLaunch positions compressed out threshold = some vals

/-- The segments of the compressed array that the parts get. -/
def segments (parts : List ComprPart) (compressed : List (BitVec 8)) : List (List (BitVec 8)) :=
  (parts.map fun p => 4 * p.compr).splitLengths compressed

/-- The parts decode to the whole array. An element has four bytes. -/
structure DecodesWhole (cfg : ShardConfig) (key : ℤ) (originalNumElem : ℕ) (s : ComprPSKV)
    (parts : List ComprPart) : Prop where
  servers : parts.map ComprPart.server = if originalNumElem < cfg.bigarrayBound then
    [(key * 9973 % cfg.numServers).toNat] else List.range cfg.numServers
  pushKeys : s.push.keys = parts.flatMap fun p =>
    [rangeBegin cfg.numServers p.server + p.orig, cfg.originalKey key p.server]
  pushLens : s.push.lens = parts.flatMap fun p => [0, ((p.compr * 4 : ℕ) : ℤ)]
  pullKeys : s.pull.keys = parts.map fun p => cfg.originalKey key p.server
  pullLens : s.pull.lens = parts.map fun p => ((p.orig * 4 : ℕ) : ℤ)
  within : ∀ p ∈ parts, p.compr ≤ getCompressedSize originalNumElem ∧ p.orig ≤ originalNumElem
  pushTotal : s.push.lens.sum = getCompressedSize originalNumElem * 4
  pullTotal : s.pull.lens.sum = originalNumElem * 4
  decodedSize : ∀ p ∈ parts, decodeKey cfg.numServers p.server
    (rangeBegin cfg.numServers p.server + p.orig) = p.orig
  decodedKey : ∀ p ∈ parts,
    decodeKey cfg.numServers p.server (cfg.originalKey key p.server) = key
  restored : ∀ {R : Type} [CommRing R] (threshold : R) (compressed : List (BitVec 8)),
    compressed.length = 4 * getCompressedSize originalNumElem →
      ∃ vals : List (List R),
        List.Forall₂ (fun x v => v.length = x.2.orig ∧ Restores threshold x.1 v)
          ((segments parts compressed).zip parts) vals ∧
        vals.flatten.length = originalNumElem ∧ Restores threshold compressed vals.flatten

theorem DecodesWhole.pull_nonneg {cfg : ShardConfig} {key : ℤ} {O : ℕ} {s : ComprPSKV}
    {parts : List ComprPart} (h : DecodesWhole cfg key O s parts) : ∀ x ∈ s.pull.lens, 0 ≤ x := by
  rw [h.pullLens]
  exact List.forall_mem_map.mpr fun p _ => Int.natCast_nonneg _

section Restore
variable {R : Type} [CommRing R] (threshold : R)

/-- The values that the fields of a compressed array stand for. -/
def restored (compressed : List (BitVec 8)) (n : ℕ) : List R :=
  (List.range n).map fun j =>
    decode threshold (j % 4) (compressed.getD (j / 4) 0 &&& posbits (j % 4))

@[simp] theorem restored_length (compressed : List (BitVec 8)) (n : ℕ) :
    (restored threshold compressed n).length = n := by simp [restored]

theorem restores_restored {compressed : List (BitVec 8)} {n : ℕ}
    (hcompressed : compressed.length = 4 * getCompressedSize n) :
    Restores threshold compressed (restored threshold compressed n) := by
  intro positions out hpos hout
  rw [restored_length] at hpos hout
  obtain ⟨out', hrun, hout', hvals⟩ := OwnedCells.foldlM_own
    (hpos.nodup_iff.mpr List.nodup_range)
    (fun i hi => dequantize2bit_own hcompressed threshold
      (List.mem_range.mp (hpos.mem_iff.mp hi))) out hout
  rw [dequantize2BitKernelLaunch, hrun]
  refine congrArg some (List.ext_getElem (by rw [hout', restored_length]) fun i hi hi' => ?_)
  rw [hout'] at hi
  have hval := hvals ⟨i, hi⟩
  rw [if_pos (hpos.mem_iff.mpr (List.mem_range.mpr hi)),
    List.getD_eq_getElem _ _ (by omega : i < out'.length)] at hval
  rw [hval]
  simp [restored]

/-- The blocks of a beginning and those that follow. -/
theorem restored_append (compressed : List (BitVec 8)) {c n : ℕ} (h : 16 * c ≤ n) :
    restored threshold (compressed.take (4 * c)) (16 * c) ++
      restored threshold (compressed.drop (4 * c)) (n - 16 * c) =
        restored threshold compressed n := by
  obtain ⟨m, rfl⟩ := Nat.exists_eq_add_of_le h
  simp only [restored, Nat.add_sub_cancel_left, List.range_add, List.map_append, List.map_map]
  congr 1
  · refine List.map_congr_left fun j hj => ?_
    have hlt : j / 4 < 4 * c := by
      have := List.mem_range.mp hj
      omega
    simp only [List.getD_eq_getElem?_getD, List.getElem?_take, if_pos hlt]
  · refine List.map_congr_left fun j _ => ?_
    have hcol : (16 * c + j) % 4 = j % 4 := by omega
    have hbyte : (16 * c + j) / 4 = 4 * c + j / 4 := by omega
    simp only [Function.comp_apply, List.getD_eq_getElem?_getD, List.getElem?_drop, hcol, hbyte]

/-- The segments of parts that are full blocks but for the last one, restored one by one. -/
theorem restored_segments {init : List ComprPart} (hinit : ∀ p ∈ init, p.orig = 16 * p.compr)
    (last : ComprPart) {compressed : List (BitVec 8)}
    (hlen : compressed.length = 4 * (((init ++ [last]).map ComprPart.compr).sum)) :
    (((segments (init ++ [last]) compressed).zip (init ++ [last])).map fun x =>
      restored threshold x.1 x.2.orig).flatten =
        restored threshold compressed (((init ++ [last]).map ComprPart.orig).sum) := by
  induction init generalizing compressed with
  | nil =>
    have htake : compressed.take (4 * last.compr) = compressed :=
      List.take_of_length_le (by simpa using hlen.le)
    simp [segments, List.splitLengths, htake]
  | cons p init ih =>
    have horig := hinit p List.mem_cons_self
    have hdrop : (compressed.drop (4 * p.compr)).length =
        4 * ((init ++ [last]).map ComprPart.compr).sum := by
      simp only [List.cons_append, List.map_cons, List.sum_cons] at hlen
      rw [List.length_drop]
      omega
    have hrest := ih (fun q hq => hinit q (List.mem_cons_of_mem p hq)) hdrop
    simp only [segments, List.cons_append, List.map_cons, List.splitLengths, List.splitAt_eq,
      List.zip_cons_cons, List.flatten_cons, List.sum_cons] at hrest ⊢
    rw [hrest, horig]
    have happend := restored_append threshold compressed
      (Nat.le_add_right (16 * p.compr) ((init ++ [last]).map ComprPart.orig).sum)
    rw [Nat.add_sub_cancel_left] at happend
    exact happend

theorem length_segments {parts : List ComprPart} {compressed : List (BitVec 8)}
    (hlen : compressed.length = 4 * ((parts.map ComprPart.compr).sum)) :
    ∀ x ∈ (segments parts compressed).zip parts, x.1.length = 4 * x.2.compr := by
  induction parts generalizing compressed with
  | nil => simp [segments]
  | cons p parts ih =>
    simp only [List.map_cons, List.sum_cons] at hlen
    simp only [segments, List.map_cons, List.splitLengths, List.splitAt_eq, List.zip_cons_cons,
      List.forall_mem_cons]
    exact ⟨by rw [List.length_take]; omega, ih (by rw [List.length_drop]; omega)⟩

end Restore


section Encode
variable (cfg : ShardConfig) (key : ℤ) (C : ℕ)

/-- The part of a server that is not the last. -/
def comprPart (i : ℕ) : ComprPart where
  server := i
  compr := cfg.comprBound C (i + 1) - cfg.comprBound C i
  orig := 16 * (cfg.comprBound C (i + 1) - cfg.comprBound C i)

/-- The parts of the first `m` servers, none of them the last. -/
def comprParts (m : ℕ) : List ComprPart := (List.range m).map (comprPart cfg C)

/-- What the vectors hold after some parts. -/
def comprEncoded (parts : List ComprPart) : ComprPSKV where
  push := {
    keys := parts.flatMap fun p =>
      [rangeBegin cfg.numServers p.server + p.orig, cfg.originalKey key p.server]
    lens := parts.flatMap fun p => [0, toInt32 (p.compr * 4)]
    size := ((parts.map ComprPart.compr).sum : ℕ) }
  pull := {
    keys := parts.map fun p => cfg.originalKey key p.server
    lens := parts.map fun p => toInt32 (p.orig * 4)
    size := ((parts.map ComprPart.orig).sum : ℕ) }

variable {cfg key C}

theorem comprParts_succ (m : ℕ) :
    comprParts cfg C (m + 1) = comprParts cfg C m ++ [comprPart cfg C m] := by
  rw [comprParts, List.range_succ, List.map_append, List.map_singleton, comprParts]

variable (cfg C) in
theorem sum_comprParts (m : ℕ) :
    ((comprParts cfg C m).map ComprPart.compr).sum = cfg.comprBound C m ∧
      ((comprParts cfg C m).map ComprPart.orig).sum = 16 * cfg.comprBound C m := by
  induction m with
  | zero => simp [comprParts, comprBound_zero]
  | succ m ih =>
    have hstep : cfg.comprBound C m ≤ cfg.comprBound C (m + 1) := comprBound_step m
    simp only [comprParts_succ, List.map_append, List.sum_append, ih, List.map_singleton,
      List.sum_singleton, comprPart]
    omega

theorem toSizeT_sub {a b : ℕ} (hab : b ≤ a) (ha : a < 2 ^ 64) : toSizeT ((a : ℤ) - b) = a - b := by
  rw [toSizeT]
  omega

/-- The size of a part fits into the key range of its server. -/
theorem rangeBegin_add_small (hn : cfg.numServers < 2 ^ 31) {i x : ℕ} (hi : i < cfg.numServers)
    (hx : x < 2 ^ 31) :
    (rangeBegin cfg.numServers i + x) % 2 ^ 64 = rangeBegin cfg.numServers i + x ∧
      rangeBegin cfg.numServers i + x < rangeEnd cfg.numServers i := by
  have hle := rangeBegin_add_le hi
  have hq := rangeSize_gt (by omega) hn
  have hend : rangeEnd cfg.numServers i =
      rangeBegin cfg.numServers i + kMaxKey / cfg.numServers := Nat.mul_succ _ _
  constructor
  · rw [kMaxKey] at hle hq
    omega
  · omega

/-- One turn of the loop over the servers, for the part that it computes. -/
theorem pushCompressed_encoded (hn : cfg.numServers < 2 ^ 31) (hkey : 0 ≤ key)
    (hlt : key < 2 ^ 31) {O : ℕ} (parts : List ComprPart) (p : ComprPart)
    (hp : p.server < cfg.numServers)
    (hcompr : (if p.server + 1 = cfg.numServers then
        toSizeT ((C : ℤ) - ((parts.map ComprPart.compr).sum : ℕ))
      else toSizeT ((cfg.comprBound C (p.server + 1) : ℤ) - cfg.comprBound C p.server)) = p.compr)
    (horig : (if p.server + 1 = cfg.numServers then
        toSizeT ((O : ℤ) - ((parts.map ComprPart.orig).sum : ℕ))
      else p.compr * 16 % 2 ^ 64) = p.orig)
    (hcomprSum : (parts.map ComprPart.compr).sum + p.compr < 2 ^ 31)
    (horigSum : (parts.map ComprPart.orig).sum + p.orig < 2 ^ 31) :
    cfg.pushCompressed key C O 4 (comprEncoded cfg key parts) p.server =
      some (comprEncoded cfg key (parts ++ [p])) := by
  obtain ⟨hdummy, hin⟩ := rangeBegin_add_small hn hp (show p.orig < 2 ^ 31 by omega)
  have hdata := (originalKey_ofServer hn hp hkey hlt).2.2
  have hcomprSize : Int.bmod (((parts.map ComprPart.compr).sum : ℕ) + (p.compr : ℤ)) (2 ^ 32) =
      (((parts ++ [p]).map ComprPart.compr).sum : ℕ) := by
    rw [← Nat.cast_add, bmod_of_lt hcomprSum]
    simp
  have horigSize : Int.bmod (((parts.map ComprPart.orig).sum : ℕ) + (p.orig : ℤ)) (2 ^ 32) =
      (((parts ++ [p]).map ComprPart.orig).sum : ℕ) := by
    rw [← Nat.cast_add, bmod_of_lt horigSum]
    simp
  simp only [ShardConfig.pushCompressed, comprEncoded, hcompr, horig, hdummy, if_pos hin,
    if_pos hdata, hcomprSize, horigSize, List.flatMap_append, List.flatMap_singleton,
    List.map_append, List.map_singleton]

theorem comprBound_le (hn₀ : 0 < cfg.numServers) (hn : cfg.numServers < 2 ^ 31) (hC₀ : 0 < C)
    (hC : C ≤ 2 ^ 25) {i : ℕ} (hi : i < cfg.numServers) : cfg.comprBound C i ≤ C :=
  (monotone_nat_of_le_succ comprBound_step (by omega)).trans (comprBound_last_le hn₀ hn hC₀ hC)

/-- All servers but the last, by induction on the servers done. -/
theorem foldlM_pushCompressed (hn : cfg.numServers < 2 ^ 31) (hkey : 0 ≤ key)
    (hlt : key < 2 ^ 31) (hC₀ : 0 < C) (hC : C ≤ 2 ^ 25) (O : ℕ) {m : ℕ}
    (hm : m < cfg.numServers) :
    (List.range m).foldlM (cfg.pushCompressed key C O 4) (comprEncoded cfg key []) =
      some (comprEncoded cfg key (comprParts cfg C m)) := by
  induction m with
  | zero => rfl
  | succ m ih =>
    have hstep : cfg.comprBound C m ≤ cfg.comprBound C (m + 1) := comprBound_step m
    have hle := comprBound_le (by omega) hn hC₀ hC hm
    obtain ⟨hcompr, horig⟩ := sum_comprParts cfg C m
    have hnext := pushCompressed_encoded (C := C) (O := O) hn hkey hlt
      (comprParts cfg C m) (comprPart cfg C m) (by exact Nat.lt_of_succ_lt hm)
      (by
        rw [if_neg (by dsimp only [comprPart]; omega)]
        exact toSizeT_sub hstep (by dsimp only [comprPart]; omega))
      (by
        rw [if_neg (by dsimp only [comprPart]; omega)]
        dsimp only [comprPart]
        omega)
      (by rw [hcompr]; dsimp only [comprPart]; omega)
      (by rw [horig]; dsimp only [comprPart]; omega)
    rw [List.range_succ, List.foldlM_append, ih (by omega), comprParts_succ]
    simp only [Option.bind_eq_bind, Option.bind_some, List.foldlM_cons, List.foldlM_nil]
    rw [show cfg.pushCompressed key C O 4 (comprEncoded cfg key (comprParts cfg C m)) m =
      _ from hnext]
    rfl

/-- The number of blocks of an array whose bytes are an `int`. -/
theorem getCompressedSize_bounds {O : ℕ} (hO : 1 ≤ O) (hbytes : O * 4 < 2 ^ 31) :
    0 < getCompressedSize O ∧ getCompressedSize O ≤ 2 ^ 25 ∧ O ≤ 16 * getCompressedSize O ∧
      16 * getCompressedSize O < O + 16 := by
  rw [getCompressedSize]
  split_ifs <;> omega

/-- The part that is left for the last server. -/
def lastPart (cfg : ShardConfig) (O : ℕ) : ComprPart where
  server := cfg.numServers - 1
  compr := getCompressedSize O - cfg.comprBound (getCompressedSize O) (cfg.numServers - 1)
  orig := O - 16 * cfg.comprBound (getCompressedSize O) (cfg.numServers - 1)

/-- The parts of all servers. -/
def allParts (cfg : ShardConfig) (O : ℕ) : List ComprPart :=
  comprParts cfg (getCompressedSize O) (cfg.numServers - 1) ++ [lastPart cfg O]

theorem sum_allParts {O : ℕ} (hle : 16 * cfg.comprBound (getCompressedSize O)
    (cfg.numServers - 1) ≤ O) :
    ((allParts cfg O).map ComprPart.compr).sum = getCompressedSize O ∧
      ((allParts cfg O).map ComprPart.orig).sum = O := by
  obtain ⟨hcompr, horig⟩ := sum_comprParts cfg (getCompressedSize O) (cfg.numServers - 1)
  have hge : O ≤ 16 * getCompressedSize O := by
    rw [getCompressedSize]
    split_ifs <;> omega
  simp only [allParts, List.map_append, List.sum_append, hcompr, horig, List.map_singleton,
    List.sum_singleton, lastPart]
  omega

theorem range_pred (hn₀ : 0 < cfg.numServers) :
    List.range cfg.numServers = List.range (cfg.numServers - 1) ++ [cfg.numServers - 1] := by
  rw [← List.range_succ, Nat.succ_eq_add_one, Nat.sub_add_cancel hn₀]

/-- What the last server gets is what is left, if anything is. -/
theorem encodeSharded_eq (hn₀ : 0 < cfg.numServers) (hn : cfg.numServers < 2 ^ 31)
    (hkey : 0 ≤ key) (hlt : key < 2 ^ 31) {O : ℕ} (hO : 1 ≤ O) (hbytes : O * 4 < 2 ^ 31)
    (hle : 16 * cfg.comprBound (getCompressedSize O) (cfg.numServers - 1) ≤ O) :
    cfg.encodeSharded key (getCompressedSize O) O 4 {} =
      some {
        push := { (comprEncoded cfg key (allParts cfg O)).push with
          size := (getCompressedSize O * 4 : ℕ) }
        pull := { (comprEncoded cfg key (allParts cfg O)).pull with size := (O * 4 : ℕ) } } := by
  obtain ⟨hC₀, hC, hge, -⟩ := getCompressedSize_bounds hO hbytes
  obtain ⟨hcompr, horig⟩ := sum_comprParts cfg (getCompressedSize O) (cfg.numServers - 1)
  obtain ⟨hcomprAll, horigAll⟩ := sum_allParts hle
  have hbound := comprBound_last_le hn₀ hn hC₀ hC
  have hlast : (lastPart cfg O).server + 1 = cfg.numServers := Nat.sub_add_cancel hn₀
  have hnext := pushCompressed_encoded (C := getCompressedSize O) (O := O) hn hkey hlt
    (comprParts cfg (getCompressedSize O) (cfg.numServers - 1)) (lastPart cfg O) (by omega)
    (by rw [if_pos hlast, hcompr, toSizeT_sub hbound (by omega)]; rfl)
    (by rw [if_pos hlast, horig, toSizeT_sub hle (by omega)]; rfl)
    (by rw [hcompr]; dsimp only [lastPart]; omega)
    (by rw [horig]; dsimp only [lastPart]; omega)
  have hloop : (List.range cfg.numServers).foldlM
      (cfg.pushCompressed key (getCompressedSize O) O 4) (comprEncoded cfg key []) =
        some (comprEncoded cfg key (allParts cfg O)) := by
    rw [range_pred hn₀, List.foldlM_append,
      foldlM_pushCompressed hn hkey hlt hC₀ hC O (by omega)]
    simp only [Option.bind_eq_bind, Option.bind_some, List.foldlM_cons, List.foldlM_nil]
    rw [show cfg.pushCompressed key (getCompressedSize O) O 4 (comprEncoded cfg key
      (comprParts cfg (getCompressedSize O) (cfg.numServers - 1))) (cfg.numServers - 1) =
      _ from hnext]
    rfl
  have hlens : (comprEncoded cfg key (allParts cfg O)).push.lens.length = cfg.numServers * 2 := by
    simp only [comprEncoded, List.length_flatMap, List.length_cons, List.length_nil,
      List.map_const', List.sum_replicate, allParts, comprParts, List.length_append,
      List.length_map, List.length_range, smul_eq_mul]
    omega
  have hstart : (⟨{ ({} : PSKV) with size := 0 }, { ({} : PSKV) with size := 0 }⟩ : ComprPSKV) =
      comprEncoded cfg key [] := rfl
  have hpush : (comprEncoded cfg key (allParts cfg O)).push.size = (getCompressedSize O : ℕ) :=
    congrArg Nat.cast hcomprAll
  have hpull : (comprEncoded cfg key (allParts cfg O)).pull.size = (O : ℕ) :=
    congrArg Nat.cast horigAll
  simp only [ShardConfig.encodeSharded, hstart, hloop, Option.bind_eq_bind, Option.bind_some, hpush,
    hpull]
  rw [if_pos ⟨by rw [toSizeT]; omega, by rw [toSizeT]; omega, hlens⟩]
  have hfour : ∀ x : ℕ, x * 4 < 2 ^ 31 → Int.bmod ((x : ℤ) * (4 : ℕ)) (2 ^ 32) = (x * 4 : ℕ) :=
    fun x hx => by rw [← Nat.cast_mul, bmod_of_lt hx]
  rw [hfour _ (by omega), hfour _ hbytes]

theorem toInt32_neg {w d : ℕ} (hw : w + d = 2 ^ 64) (hd : 0 < d) (hlt : d < 16) :
    toInt32 (w * 4) < 0 :=
  have h : ∀ x : ℤ, x + 4 * d = 2 ^ 66 → Int.bmod x 4294967296 < 0 :=
    fun x _ => by rw [Int.bmod_def]; omega
  h _ (by omega)

/-- The length that the last server gets. -/
theorem pushCompressed_last {C O numBytes i : ℕ} (hi : i + 1 = cfg.numServers)
    {s s' : ComprPSKV} (h : cfg.pushCompressed key C O numBytes s i = some s') :
    toInt32 (toSizeT (O - s.pull.size) * numBytes) ∈ s'.pull.lens := by
  simp only [ShardConfig.pushCompressed, if_pos hi] at h
  split_ifs at h
  obtain rfl := Option.some.inj h
  exact List.mem_append_right _ (List.mem_singleton_self _)

theorem encodeSharded_lens {C O numBytes : ℕ} {s s' : ComprPSKV}
    (h : cfg.encodeSharded key C O numBytes s = some s') :
    ∃ s₁, (List.range cfg.numServers).foldlM (cfg.pushCompressed key C O numBytes)
      ⟨{ s.push with size := 0 }, { s.pull with size := 0 }⟩ = some s₁ ∧
        s'.pull.lens = s₁.pull.lens := by
  obtain ⟨s₁, hloop, h⟩ := Option.bind_eq_some_iff.mp h
  split_ifs at h
  obtain rfl := Option.some.inj h
  exact ⟨s₁, hloop, rfl⟩

/-- When the others already have more than the array, the length for the last server is
negative. -/
theorem encodeSharded_neg (hn₀ : 0 < cfg.numServers) (hn : cfg.numServers < 2 ^ 31)
    (hkey : 0 ≤ key) (hlt : key < 2 ^ 31) {O : ℕ} (hO : 1 ≤ O) (hbytes : O * 4 < 2 ^ 31)
    (hgt : O < 16 * cfg.comprBound (getCompressedSize O) (cfg.numServers - 1)) {s : ComprPSKV}
    (hs : cfg.encodeSharded key (getCompressedSize O) O 4 {} = some s) :
    ∃ x ∈ s.pull.lens, x < 0 := by
  obtain ⟨hC₀, hC, -, hlow⟩ := getCompressedSize_bounds hO hbytes
  obtain ⟨-, horig⟩ := sum_comprParts cfg (getCompressedSize O) (cfg.numServers - 1)
  have hbound := comprBound_last_le hn₀ hn hC₀ hC
  obtain ⟨d, hd⟩ := Nat.exists_eq_add_of_le hgt.le
  obtain ⟨s₁, hloop, hlens⟩ := encodeSharded_lens hs
  rw [range_pred hn₀, List.foldlM_append] at hloop
  obtain ⟨s₀, hinit, hlast⟩ := Option.bind_eq_some_iff.mp hloop
  obtain rfl := Option.some.inj
    (hinit.symm.trans (foldlM_pushCompressed hn hkey hlt hC₀ hC O (by omega)))
  rw [List.foldlM_cons] at hlast
  obtain ⟨s₂, hpush, hdone⟩ := Option.bind_eq_some_iff.mp hlast
  obtain rfl := Option.some.inj hdone
  have hmem := pushCompressed_last (Nat.sub_add_cancel hn₀) hpush
  rw [← hlens] at hmem
  refine ⟨_, hmem, toInt32_neg (d := d) ?_ (by omega) (by omega)⟩
  simp only [comprEncoded, horig, hd, toSizeT]
  omega

/-- An array of few elements goes to one server. -/
theorem encodeSingle_eq (hn₀ : 0 < cfg.numServers) (hn : cfg.numServers < 2 ^ 31)
    (hkey : 0 ≤ key) (hhash : key * 9973 < 2 ^ 31) {O : ℕ} (hO : 1 ≤ O)
    (hbytes : O * 4 < 2 ^ 31) :
    cfg.encodeSingle key (getCompressedSize O) O 4 {} =
      some {
        push := { (comprEncoded cfg key
            [⟨(key * 9973 % cfg.numServers).toNat, getCompressedSize O, O⟩]).push with
          size := (getCompressedSize O * 4 : ℕ) }
        pull := { (comprEncoded cfg key
            [⟨(key * 9973 % cfg.numServers).toNat, getCompressedSize O, O⟩]).pull with
          size := (O * 4 : ℕ) } } := by
  obtain ⟨-, hC, -, -⟩ := getCompressedSize_bounds hO hbytes
  have hserver : (key * 9973).tmod cfg.numServers = key * 9973 % cfg.numServers :=
    Int.tmod_eq_emod_of_nonneg (by omega)
  have hpos : 0 ≤ key * 9973 % cfg.numServers := Int.emod_nonneg _ (by omega)
  have hlt : key * 9973 % cfg.numServers < cfg.numServers := Int.emod_lt_of_pos _ (by omega)
  have hi : (key * 9973 % cfg.numServers).toNat < cfg.numServers := by omega
  have hdummy := (rangeBegin_add_small hn hi (show O < 2 ^ 31 by omega)).1
  have hdata := (originalKey_ofServer hn hi hkey (by omega)).2.2
  simp only [ShardConfig.encodeSingle, hserver]
  rw [if_neg (by omega), if_pos hdata, hdummy]
  simp [comprEncoded, toInt32_of_lt (show getCompressedSize O * 4 < 2 ^ 31 by omega),
    toInt32_of_lt hbytes]

/-- The vectors that the first call leaves behind. -/
def filled (cfg : ShardConfig) (key : ℤ) (O : ℕ) (parts : List ComprPart) : ComprPSKV where
  push := { (comprEncoded cfg key parts).push with size := (getCompressedSize O * 4 : ℕ) }
  pull := { (comprEncoded cfg key parts).pull with size := (O * 4 : ℕ) }

/-- A part of `orig` elements in as many blocks as they need. -/
structure Fits (cfg : ShardConfig) (O : ℕ) (p : ComprPart) : Prop where
  server : p.server < cfg.numServers
  compr : p.compr = getCompressedSize p.orig
  within : p.compr ≤ getCompressedSize O ∧ p.orig ≤ O

theorem sum_pushLens (parts : List ComprPart) :
    (parts.flatMap fun p => [0, ((p.compr * 4 : ℕ) : ℤ)]).sum =
      ((parts.map ComprPart.compr).sum * 4 : ℕ) := by
  induction parts with
  | nil => rfl
  | cons p parts ih =>
    simp only [List.flatMap_cons, List.sum_append, ih, List.sum_cons, List.sum_nil, List.map_cons]
    push_cast
    ring

theorem sum_pullLens (parts : List ComprPart) :
    (parts.map fun p => ((p.orig * 4 : ℕ) : ℤ)).sum =
      ((parts.map ComprPart.orig).sum * 4 : ℕ) := by
  induction parts with
  | nil => rfl
  | cons p parts ih =>
    simp only [List.map_cons, List.sum_cons, ih]
    push_cast
    ring

/-- Parts that fit and make up the whole decode to it. -/
theorem filled_decodesWhole (hn : cfg.numServers < 2 ^ 31) (hkey : 0 ≤ key) (hlt : key < 2 ^ 31)
    {O : ℕ} (hO : 1 ≤ O) (hbytes : O * 4 < 2 ^ 31) (init : List ComprPart) (last : ComprPart)
    (hinit : ∀ p ∈ init, p.orig = 16 * p.compr) (hfits : ∀ p ∈ init ++ [last], Fits cfg O p)
    (hservers : (init ++ [last]).map ComprPart.server = if O < cfg.bigarrayBound then
      [(key * 9973 % cfg.numServers).toNat] else List.range cfg.numServers)
    (hcompr : ((init ++ [last]).map ComprPart.compr).sum = getCompressedSize O)
    (horig : ((init ++ [last]).map ComprPart.orig).sum = O) :
    DecodesWhole cfg key O (filled cfg key O (init ++ [last])) (init ++ [last]) := by
  obtain ⟨-, hC, -, -⟩ := getCompressedSize_bounds hO hbytes
  have hcomprLen : ∀ p ∈ init ++ [last], toInt32 (p.compr * 4) = (p.compr * 4 : ℕ) :=
    fun p hp => toInt32_of_lt (by have := (hfits p hp).within; omega)
  have horigLen : ∀ p ∈ init ++ [last], toInt32 (p.orig * 4) = (p.orig * 4 : ℕ) :=
    fun p hp => toInt32_of_lt (by have := (hfits p hp).within; omega)
  have hpushLens : (filled cfg key O (init ++ [last])).push.lens =
      (init ++ [last]).flatMap fun p => [0, ((p.compr * 4 : ℕ) : ℤ)] :=
    List.flatMap_congr fun p hp => by rw [hcomprLen p hp]
  have hpullLens : (filled cfg key O (init ++ [last])).pull.lens =
      (init ++ [last]).map fun p => ((p.orig * 4 : ℕ) : ℤ) :=
    List.map_congr_left horigLen
  refine ⟨hservers, rfl, hpushLens, rfl, hpullLens, fun p hp => (hfits p hp).within, ?_, ?_,
    fun p hp => ?_, fun p hp => decodeKey_originalKey hn (hfits p hp).server hkey hlt,
    fun {R} _ threshold compressed hlen => ?_⟩
  · rw [hpushLens, sum_pushLens, hcompr]
    push_cast
    rfl
  · rw [hpullLens, sum_pullLens, horig]
    push_cast
    rfl
  · have hsize : (p.orig : ℤ) < 2 ^ 31 := by
      have := (hfits p hp).within
      omega
    have hdummy := originalKey_cast hn (hfits p hp).server (Int.natCast_nonneg p.orig) hsize
    have hdecode := decodeKey_originalKey hn (hfits p hp).server (Int.natCast_nonneg p.orig) hsize
    rwa [show cfg.originalKey p.orig p.server = rangeBegin cfg.numServers p.server + p.orig by
      omega] at hdecode
  · have hblocks := hlen
    rw [← hcompr] at hblocks
    have hwhole := restored_segments threshold hinit last hblocks
    rw [horig] at hwhole
    refine ⟨((segments (init ++ [last]) compressed).zip (init ++ [last])).map fun x =>
      restored threshold x.1 x.2.orig, ?_, by rw [hwhole, restored_length], ?_⟩
    · refine List.forall₂_map_right_iff.mpr (List.forall₂_same.mpr fun x hx => ?_)
      have hfit := hfits x.2 (List.of_mem_zip hx).2
      exact ⟨restored_length _ _ _, restores_restored threshold
        (by rw [length_segments hblocks x hx, hfit.compr])⟩
    · rw [hwhole]
      exact restores_restored threshold hlen

theorem getCompressedSize_mul (c : ℕ) : getCompressedSize (16 * c) = c := by
  rw [getCompressedSize, if_pos (Nat.mul_mod_right 16 c)]
  omega

theorem getCompressedSize_sub {O b : ℕ} (hle : 16 * b ≤ O) :
    getCompressedSize (O - 16 * b) = getCompressedSize O - b := by
  simp only [getCompressedSize]
  split_ifs <;> omega

/-- The parts of a partitioned array fit, if the others leave enough for the last server. -/
theorem allParts_fits (hn₀ : 0 < cfg.numServers) (hn : cfg.numServers < 2 ^ 31) {O : ℕ}
    (hO : 1 ≤ O) (hbytes : O * 4 < 2 ^ 31)
    (hle : 16 * cfg.comprBound (getCompressedSize O) (cfg.numServers - 1) ≤ O) :
    ∀ p ∈ allParts cfg O, Fits cfg O p := by
  obtain ⟨hC₀, hC, -, -⟩ := getCompressedSize_bounds hO hbytes
  intro p hp
  rcases List.mem_append.mp hp with hp | hp
  · obtain ⟨i, hi, rfl⟩ := List.mem_map.mp hp
    have hi := List.mem_range.mp hi
    have hmono : cfg.comprBound (getCompressedSize O) (i + 1) ≤
        cfg.comprBound (getCompressedSize O) (cfg.numServers - 1) :=
      monotone_nat_of_le_succ comprBound_step (by omega)
    have hlast := comprBound_last_le hn₀ hn hC₀ hC
    refine ⟨by dsimp only [comprPart]; omega, (getCompressedSize_mul _).symm, ?_⟩
    dsimp only [comprPart]
    omega
  · obtain rfl := List.mem_singleton.mp hp
    refine ⟨by dsimp only [lastPart]; omega, (getCompressedSize_sub hle).symm, ?_⟩
    dsimp only [lastPart]
    omega

theorem servers_allParts (hn₀ : 0 < cfg.numServers) (O : ℕ) :
    (allParts cfg O).map ComprPart.server = List.range cfg.numServers := by
  rw [range_pred hn₀, allParts, List.map_append, comprParts, List.map_map]
  exact congrArg (· ++ [cfg.numServers - 1]) (List.map_id _)

end Encode

section Calls
variable {cfg : ShardConfig} {key : ℤ} {O : ℕ} {comprPsKv : ℤ → ComprPSKV}

/-- Every later call finds the vectors of the first one. -/
theorem encodeCompressedKey_filled (hn₀ : 0 < cfg.numServers) {parts : List ComprPart}
    (hparts : parts ≠ []) (hO : 1 ≤ O) (hbytes : O * 4 < 2 ^ 31)
    (hkv : comprPsKv key = filled cfg key O parts) (isPush : Bool) :
    cfg.encodeCompressedKey comprPsKv key O isPush 4 =
      some ((filled cfg key O parts).get isPush, comprPsKv) := by
  obtain ⟨-, hC, -, -⟩ := getCompressedSize_bounds hO hbytes
  obtain ⟨p, parts, rfl⟩ := List.exists_cons_of_ne_nil hparts
  have hkeys : ((filled cfg key O (p :: parts)).get isPush).keys ≠ [] := by
    cases isPush <;> simp [ComprPSKV.get, filled, comprEncoded]
  have hsize : toSizeT ((filled cfg key O (p :: parts)).get isPush).size =
      (if isPush = true then getCompressedSize O else O) * 4 % 2 ^ 64 := by
    cases isPush <;> simp only [ComprPSKV.get, filled, toSizeT, if_true, if_false,
      Bool.false_eq_true] <;> omega
  simp only [ShardConfig.encodeCompressedKey, if_neg hn₀.ne', hkv]
  rw [if_pos hkeys, if_pos hsize]

theorem encodeCompressedKey_first (hn₀ : 0 < cfg.numServers) (hfirst : comprPsKv key = {})
    (isPush : Bool) :
    cfg.encodeCompressedKey comprPsKv key O isPush 4 =
      (if O < cfg.bigarrayBound then cfg.encodeSingle key (getCompressedSize O) O 4 {}
        else cfg.encodeSharded key (getCompressedSize O) O 4 {}).map fun s =>
          (s.get isPush, Function.update comprPsKv key s) := by
  have hkeys : (({} : ComprPSKV).get isPush).keys = [] := by cases isPush <;> rfl
  simp only [ShardConfig.encodeCompressedKey, if_neg hn₀.ne', hfirst, hkeys, ne_eq,
    not_true_eq_false, if_false]
  split_ifs <;> exact Option.map_eq_bind.symm

theorem encoded_of_call (hn₀ : 0 < cfg.numServers) (hfirst : comprPsKv key = {}) {isPush : Bool}
    {s : ComprPSKV} (h : cfg.encodeCompressedKey comprPsKv key O isPush 4 =
      some (s.get isPush, Function.update comprPsKv key s)) :
    (if O < cfg.bigarrayBound then cfg.encodeSingle key (getCompressedSize O) O 4 {}
      else cfg.encodeSharded key (getCompressedSize O) O 4 {}) = some s := by
  rw [encodeCompressedKey_first hn₀ hfirst] at h
  obtain ⟨s', hs', heq⟩ := Option.map_eq_some_iff.mp h
  have hsame := congrFun (congrArg Prod.snd heq) key
  simp only [Function.update_self] at hsame
  rw [hs', hsame]

/-- A filled entry answers the first call and all later ones. -/
theorem calls_of_filled (hn₀ : 0 < cfg.numServers) (hfirst : comprPsKv key = {})
    (parts : List ComprPart) (hparts : parts ≠ []) (hO : 1 ≤ O) (hbytes : O * 4 < 2 ^ 31)
    (hencode : (if O < cfg.bigarrayBound then cfg.encodeSingle key (getCompressedSize O) O 4 {}
      else cfg.encodeSharded key (getCompressedSize O) O 4 {}) = some (filled cfg key O parts)) :
    (∀ isPush, cfg.encodeCompressedKey comprPsKv key O isPush 4 =
      some ((filled cfg key O parts).get isPush,
        Function.update comprPsKv key (filled cfg key O parts))) ∧
    ∀ isPush, cfg.encodeCompressedKey
      (Function.update comprPsKv key (filled cfg key O parts)) key O isPush 4 =
        some ((filled cfg key O parts).get isPush,
          Function.update comprPsKv key (filled cfg key O parts)) :=
  ⟨fun isPush => by rw [encodeCompressedKey_first hn₀ hfirst, hencode, Option.map_some],
    encodeCompressedKey_filled hn₀ hparts hO hbytes (Function.update_self _ _ _)⟩

end Calls

/-- Compressed pushes decode to the whole array exactly when the key's hash is an `int`, for one
server, and when the array ends with a full block or has more than half as many blocks as there
are servers, for all. -/
theorem compressed_decodes_iff {cfg : ShardConfig} (hn₀ : 0 < cfg.numServers)
    (hn : cfg.numServers < 2 ^ 31) {key : ℤ} (hkey : 0 ≤ key) (hlt : key < 2 ^ 31) {O : ℕ}
    (hO : 1 ≤ O) (hbytes : O * 4 < 2 ^ 31) {comprPsKv : ℤ → ComprPSKV}
    (hfirst : comprPsKv key = {}) :
    (∃ s parts, (∀ isPush, cfg.encodeCompressedKey comprPsKv key O isPush 4 =
        some (s.get isPush, Function.update comprPsKv key s)) ∧
      (∀ isPush, cfg.encodeCompressedKey (Function.update comprPsKv key s) key O isPush 4 =
        some (s.get isPush, Function.update comprPsKv key s)) ∧
      DecodesWhole cfg key O s parts) ↔
    if O < cfg.bigarrayBound then key * 9973 < 2 ^ 31
    else 16 ∣ O ∨ cfg.numServers < 2 * getCompressedSize O := by
  obtain ⟨hC₀, hC, hge, hlow⟩ := getCompressedSize_bounds hO hbytes
  have hlast := comprBound_last_le hn₀ hn hC₀ hC
  have hiff := comprBound_last_lt_iff hn₀ hn hC₀ hC
  constructor
  · rintro ⟨s, parts, hcall, -, hdec⟩
    have hs' := encoded_of_call hn₀ hfirst (hcall false)
    split_ifs with hsmall
    · rw [if_pos hsmall, ShardConfig.encodeSingle] at hs'
      by_contra hge
      simp only [not_lt.mp hge, true_or, or_true, if_true] at hs'
      cases hs'
    · rw [if_neg hsmall] at hs'
      by_contra hnot
      rw [not_or, ← hiff] at hnot
      obtain ⟨x, hx, hneg⟩ := encodeSharded_neg hn₀ hn hkey hlt hO hbytes (by omega) hs'
      exact absurd (hdec.pull_nonneg x hx) (not_le.mpr hneg)
  · intro h
    split_ifs at h with hsmall
    · have hi : (key * 9973 % cfg.numServers).toNat < cfg.numServers := by
        have := Int.emod_lt_of_pos (key * 9973) (show (0 : ℤ) < cfg.numServers by omega)
        omega
      set single : ComprPart := ⟨(key * 9973 % cfg.numServers).toNat, getCompressedSize O, O⟩
      obtain ⟨hfirstCall, hlater⟩ := calls_of_filled hn₀ hfirst [single] (List.cons_ne_nil _ _)
        hO hbytes (by rw [if_pos hsmall]; exact encodeSingle_eq hn₀ hn hkey h hO hbytes)
      have hfit : Fits cfg O single := ⟨hi, rfl, le_rfl, le_rfl⟩
      refine ⟨_, [single], hfirstCall, hlater, filled_decodesWhole hn hkey hlt hO hbytes [] single
        (by simp) (List.forall_mem_singleton.mpr hfit) ?_ (by simp [single]) (by simp [single])⟩
      rw [if_pos hsmall]
      rfl
    · have hle : 16 * cfg.comprBound (getCompressedSize O) (cfg.numServers - 1) ≤ O := by
        rw [← hiff] at h
        omega
      obtain ⟨hcomprSum, horigSum⟩ := sum_allParts hle
      obtain ⟨hfirstCall, hlater⟩ := calls_of_filled hn₀ hfirst (allParts cfg O)
        (by simp [allParts]) hO hbytes
        (by rw [if_neg hsmall]; exact encodeSharded_eq hn₀ hn hkey hlt hO hbytes hle)
      refine ⟨_, _, hfirstCall, hlater, filled_decodesWhole hn hkey hlt hO hbytes _ _
        (fun p hp => ?_) (allParts_fits hn₀ hn hO hbytes hle) ?_ hcomprSum horigSum⟩
      · obtain ⟨i, -, rfl⟩ := List.mem_map.mp hp
        rfl
      · rw [if_neg hsmall]
        exact servers_allParts hn₀ O

/-- Forty elements, three blocks, on two servers: they decode. -/
theorem compressed_decodes_iff_forty :
    ∃ s parts, (∀ isPush, (ShardConfig.mk 2 1 false .single).encodeCompressedKey (fun _ => {}) 3 40
        isPush 4 = some (s.get isPush, Function.update (fun _ => {}) 3 s)) ∧
      (∀ isPush, (ShardConfig.mk 2 1 false .single).encodeCompressedKey
        (Function.update (fun _ => {}) 3 s) 3 40 isPush 4 =
          some (s.get isPush, Function.update (fun _ => {}) 3 s)) ∧
      DecodesWhole (ShardConfig.mk 2 1 false .single) 3 40 s parts :=
  (compressed_decodes_iff (by decide) (by decide) (by decide)
    (by decide) (by decide) (by decide) rfl).mpr (by decide)

/-- One element on two servers: the first server gets the block, and the length for the second
one is negative. -/
theorem not_compressed_decodes_one :
    ¬ ∃ s parts, (∀ isPush, (ShardConfig.mk 2 1 false .single).encodeCompressedKey (fun _ => {}) 0 1
        isPush 4 = some (s.get isPush, Function.update (fun _ => {}) 0 s)) ∧
      DecodesWhole (ShardConfig.mk 2 1 false .single) 0 1 s parts := by
  rintro ⟨s, parts, hcall, hdec⟩
  have hs := encoded_of_call (by decide) rfl (hcall false)
  rw [if_neg (by decide)] at hs
  have hlast : getCompressedSize 1 ≤
      (ShardConfig.mk 2 1 false .single).comprBound (getCompressedSize 1) (2 - 1) :=
    le_comprBound_last (by decide) (by decide) (by decide) (by decide) (by decide)
  have hone : getCompressedSize 1 = 1 := rfl
  have hgt : 1 < 16 * (ShardConfig.mk 2 1 false .single).comprBound (getCompressedSize 1) (2 - 1) := by
    omega
  obtain ⟨x, hx, hneg⟩ := encodeSharded_neg (by decide) (by decide) (by decide) (by decide)
    (by decide) (by decide) hgt hs
  exact absurd (hdec.pull_nonneg x hx) (not_le.mpr hneg)

end NetStorm

import Mathlib.Data.List.Nodup
import Mathlib.Data.List.Pairwise
import Mathlib.Data.Rat.Floor
import NetStorm.HandedOutKeys
import NetStorm.Library.SortedWindows

/-!
# Row-sparse keys

`EncodeRowSparseKey` gives every row of a row-sparse array a key of its own: the key of the
array plus the row's place in the part of one server. `DecodeRowIds` finds the place again.
-/
namespace NetStorm
open SortedWindows

/-- `KVStoreDistServer::DecodeKey` at the server of a rank. -/
def decodeKey (n rank k : ℕ) : ℤ := toInt32 (((k : ℤ) - rangeBegin n rank) % 2 ^ 64).toNat

/-- One iteration of `DecodeRowIds`. -/
def decodeRowId (n rank : ℕ) (keys : List ℕ) (masterKey : ℤ) (indices : List ℤ) (i : ℕ) :
    Option (List ℤ) := do
  let psKey ← keys[i]?
  if i - 1 < indices.length then
    some (indices.set (i - 1) (decodeKey n rank psKey - masterKey))
  else none

/-- `DecodeRowIds`, which writes into the vector `indices`. -/
def decodeRowIds (n rank : ℕ) (keys : List ℕ) (indices : List ℤ) (masterKey : ℤ) (numRows : ℕ) :
    Option (List ℤ) :=
  if indices = [] then none
  else (List.range' 1 numRows).foldlM (decodeRowId n rank keys masterKey) (indices.set 0 0)

namespace ShardConfig
variable (cfg : ShardConfig)

/-- `llround(total_num_rows / num_servers * i)`, rounded exactly. -/
def rowBound (totalNumRows i : ℕ) : ℤ := ⌊(totalNumRows : ℚ) / cfg.numServers * i + 1 / 2⌋

/-- The push of one row's key, for an `offset` of the part that begins at `startRow`. -/
def pushRow (key : ℤ) (unitLen numBytes : ℕ) (i : ℕ) (startRow : ℤ) (pskv : PSKV)
    (offset : ℤ) : Option PSKV :=
  let psKey := cfg.originalKey (key + (offset - startRow)) i
  if psKey < rangeEnd cfg.numServers i then
    let partSize := toInt32 (unitLen * numBytes)
    some {
      keys := pskv.keys ++ [psKey]
      lens := pskv.lens ++ [partSize]
      size := Int.bmod (pskv.size + partSize) (2 ^ 32) }
  else none

/-- The part of server `i`, beginning at `s.2`. -/
def pushPart (key : ℤ) (numElem : ℕ) (offsets : List ℤ) (unitLen totalNumRows numBytes : ℕ)
    (s : PSKV × ℤ) (i : ℕ) : Option (PSKV × ℤ) :=
  let (pskv, startRow) := s
  let masterKey := cfg.originalKey key i
  let pskv := { pskv with keys := pskv.keys ++ [masterKey], lens := pskv.lens ++ [0] }
  if 0 < numElem then do
    let partNumRows := cfg.rowBound totalNumRows (i + 1) - cfg.rowBound totalNumRows i
    let endRow := startRow + partNumRows
    let lb := lowerBound offsets startRow
    let ub := upperBound offsets (endRow - 1)
    let pskv ← (window offsets lb ub).foldlM (cfg.pushRow key unitLen numBytes i startRow) pskv
    some (pskv, endRow)
  else some (pskv, startRow)

/-- The push of one row's key when one server gets the array. -/
def pushSingleRow (key : ℤ) (unitLen numBytes server : ℕ) (pskv : PSKV) (offset : ℤ) :
    Option PSKV :=
  let psKey := cfg.originalKey (key + offset) server
  if psKey < rangeEnd cfg.numServers server then
    some { pskv with
      keys := pskv.keys ++ [psKey]
      lens := pskv.lens ++ [toInt32 (unitLen * numBytes)] }
  else none

/-- The array is partitioned to all servers. -/
def Partitioned (totalNumRows unitLen : ℕ) : Prop :=
  cfg.bigarrayBound ≤ totalNumRows * unitLen % 2 ^ 64

instance (totalNumRows unitLen : ℕ) : Decidable (cfg.Partitioned totalNumRows unitLen) :=
  inferInstanceAs (Decidable (_ ≤ _))

/-- `KVStoreDist::EncodeRowSparseKey`; `num_rows` is the length of `offsets`. -/
def encodeRowSparseKey (key : ℤ) (numElem : ℕ) (offsets : List ℤ)
    (unitLen totalNumRows numBytes : ℕ) : Option PSKV :=
  if cfg.numServers = 0 then none
  else if cfg.Partitioned totalNumRows unitLen then do
    let (pskv, _) ← (List.range cfg.numServers).foldlM
      (cfg.pushPart key numElem offsets unitLen totalNumRows numBytes) (⟨[], [], 0⟩, 0)
    if pskv.size % 2 ^ 64 = (numElem * numBytes : ℤ) % 2 ^ 64 then some pskv else none
  else
    let server := (key * 9973).tmod cfg.numServers
    if key * 9973 < -2 ^ 31 ∨ 2 ^ 31 ≤ key * 9973 ∨ server < 0 then none
    else do
      let masterKey := cfg.originalKey key server.toNat
      let pskv ← offsets.foldlM (cfg.pushSingleRow key unitLen numBytes server.toNat)
        ⟨[masterKey], [0], 0⟩
      some { pskv with size := toInt32 (numElem * numBytes) }

end ShardConfig

/-- The rows of an array that go to one server: they lie between two bounds. -/
structure RowPart where
  server : ℕ
  firstRow : ℤ
  endRow : ℤ
  rows : List ℤ

namespace RowPart
variable (cfg : ShardConfig) (key : ℤ) (p : RowPart)

def rowKeys : List ℕ := p.rows.map fun r => cfg.originalKey (key + (r - p.firstRow)) p.server

/-- The keys that the server of a part gets. -/
def keys : List ℕ := cfg.originalKey key p.server :: p.rowKeys cfg key

end RowPart

/-- Each row of the array is carried to one server and back. -/
structure Carries (cfg : ShardConfig) (key : ℤ) (offsets : List ℤ)
    (unitLen totalNumRows numBytes : ℕ) (pskv : PSKV) (parts : List RowPart) : Prop where
  servers : parts.map RowPart.server = if cfg.Partitioned totalNumRows unitLen then
    List.range cfg.numServers else [(key * 9973 % cfg.numServers).toNat]
  bounds : ∀ p ∈ parts, (p.firstRow, p.endRow) = if cfg.Partitioned totalNumRows unitLen then
    (cfg.rowBound totalNumRows p.server, cfg.rowBound totalNumRows (p.server + 1))
    else (0, (totalNumRows : ℤ))
  keys : pskv.keys = parts.flatMap (RowPart.keys cfg key)
  lens : pskv.lens = parts.flatMap fun p => 0 :: p.rows.map fun _ => (unitLen * numBytes : ℤ)
  increasing : ∀ p ∈ parts, (p.rowKeys cfg key).Pairwise (· < ·)
  owned : ∀ p ∈ parts, ∀ k ∈ p.keys cfg key, OfServer cfg.numServers p.server k
  covered : parts.flatMap RowPart.rows = offsets
  once : ∀ r ∈ offsets, ∃! p, p ∈ parts ∧ r ∈ p.rows
  inside : ∀ p ∈ parts, ∀ r ∈ p.rows, p.firstRow ≤ r ∧ r < p.endRow
  decoded : ∀ p ∈ parts, p.rows ≠ [] →
    decodeRowIds cfg.numServers p.server (p.keys cfg key) (List.replicate p.rows.length 0)
      (decodeKey cfg.numServers p.server (cfg.originalKey key p.server)) p.rows.length =
        some (p.rows.map (· - p.firstRow))
  total : pskv.lens.sum = offsets.length * unitLen * numBytes

section Keys
variable {cfg : ShardConfig} {i : ℕ}

/-- A small key lies in the range of its server. -/
theorem originalKey_cast (hn : cfg.numServers < 2 ^ 31) (hi : i < cfg.numServers) {z : ℤ}
    (hz : 0 ≤ z) (hlt : z < 2 ^ 31) :
    (cfg.originalKey z i : ℤ) = rangeBegin cfg.numServers i + z := by
  have hq := rangeSize_gt (by omega) hn
  have hend := rangeBegin_add_le hi
  rw [kMaxKey] at hq hend
  rw [ShardConfig.originalKey]
  omega

theorem originalKey_ofServer (hn : cfg.numServers < 2 ^ 31) (hi : i < cfg.numServers) {z : ℤ}
    (hz : 0 ≤ z) (hlt : z < 2 ^ 31) : OfServer cfg.numServers i (cfg.originalKey z i) := by
  have hq := rangeSize_gt (by omega) hn
  have hkey := originalKey_cast hn hi hz hlt
  have hend : rangeEnd cfg.numServers i = rangeBegin cfg.numServers i + kMaxKey / cfg.numServers :=
    Nat.mul_succ _ _
  exact ⟨hi, by omega, by omega⟩

theorem decodeKey_originalKey (hn : cfg.numServers < 2 ^ 31) (hi : i < cfg.numServers) {z : ℤ}
    (hz : 0 ≤ z) (hlt : z < 2 ^ 31) :
    decodeKey cfg.numServers i (cfg.originalKey z i) = z := by
  have hnat : (((cfg.originalKey z i : ℤ) - rangeBegin cfg.numServers i) % 2 ^ 64).toNat =
      z.toNat := by
    rw [originalKey_cast hn hi hz hlt]
    omega
  rw [decodeKey, hnat, toInt32_of_lt (by omega)]
  omega

end Keys

section Decode
variable {n rank : ℕ}

theorem set_map_take {α : Type} (f : ℕ → α) {ks : List ℕ} {indices : List α}
    (hlen : indices.length = ks.length) {j : ℕ} (hj : j < ks.length) :
    ((ks.take j).map f ++ indices.drop j).set j (f ks[j]) =
      (ks.take (j + 1)).map f ++ indices.drop (j + 1) := by
  have hlt : j < indices.length := by omega
  rw [List.set_append_right _ _ (by simp), List.drop_eq_getElem_cons hlt, List.take_add_one,
    List.getElem?_eq_getElem hj, List.map_append, List.append_assoc]
  simp only [List.length_map, List.length_take, Nat.min_eq_left hj.le, Nat.sub_self,
    List.set_cons_zero, Option.toList_some, List.map_cons, List.map_nil, List.singleton_append]

/-- The loop of `DecodeRowIds`, by induction on its iterations. -/
theorem foldlM_decodeRowId (masterKey : ℤ) (k : ℕ) (ks : List ℕ) {indices : List ℤ}
    (hlen : indices.length = ks.length) {j : ℕ} (hj : j ≤ ks.length) :
    (List.range' 1 j).foldlM (decodeRowId n rank (k :: ks) masterKey) indices =
      some ((ks.take j).map (fun k => decodeKey n rank k - masterKey) ++ indices.drop j) := by
  induction j with
  | zero => simp
  | succ j ih =>
    have hks : j < ks.length := hj
    rw [List.range'_concat, List.foldlM_append, ih (by omega)]
    simp only [Option.bind_eq_bind, Option.bind_some, List.foldlM_cons, List.foldlM_nil,
      decodeRowId, Nat.one_mul, Nat.add_comm 1 j, List.getElem?_cons_succ,
      List.getElem?_eq_getElem hks, Nat.add_sub_cancel]
    rw [if_pos (by simp; omega), set_map_take (fun k => decodeKey n rank k - masterKey) hlen hks]
    rfl

theorem decodeRowIds_eq (masterKey : ℤ) (k : ℕ) {ks : List ℕ} (hks : ks ≠ []) :
    decodeRowIds n rank (k :: ks) (List.replicate ks.length 0) masterKey ks.length =
      some (ks.map fun k => decodeKey n rank k - masterKey) := by
  have hlen : 0 < ks.length := List.length_pos_iff.mpr hks
  rw [decodeRowIds, if_neg (by simpa using hks),
    foldlM_decodeRowId masterKey k ks (by simp) le_rfl]
  simp

end Decode

section Bounds
variable (cfg : ShardConfig) (totalNumRows : ℕ)

theorem rowBound_zero : cfg.rowBound totalNumRows 0 = 0 := by
  rw [ShardConfig.rowBound, Int.floor_eq_iff]
  norm_num

theorem rowBound_last (hn : 0 < cfg.numServers) :
    cfg.rowBound totalNumRows cfg.numServers = totalNumRows := by
  have hne : (cfg.numServers : ℚ) ≠ 0 := by exact_mod_cast hn.ne'
  rw [ShardConfig.rowBound, div_mul_cancel₀ _ hne, Int.floor_eq_iff]
  push_cast
  constructor <;> linarith

theorem rowBound_step (i : ℕ) :
    cfg.rowBound totalNumRows i ≤ cfg.rowBound totalNumRows (i + 1) := by
  have hstep : (0 : ℚ) ≤ (totalNumRows : ℚ) / cfg.numServers := by positivity
  apply Int.floor_le_floor
  push_cast
  linarith

theorem rowBound_mono {i j : ℕ} (hij : i ≤ j) :
    cfg.rowBound totalNumRows i ≤ cfg.rowBound totalNumRows j :=
  monotone_nat_of_le_succ (rowBound_step cfg totalNumRows) hij

end Bounds

section Encode
variable (cfg : ShardConfig) (key : ℤ) (offsets : List ℤ) (totalNumRows : ℕ)

/-- The part of a server in a partitioned array. -/
def rowPart (i : ℕ) : RowPart where
  server := i
  firstRow := cfg.rowBound totalNumRows i
  endRow := cfg.rowBound totalNumRows (i + 1)
  rows := window offsets (lowerBound offsets (cfg.rowBound totalNumRows i))
    (lowerBound offsets (cfg.rowBound totalNumRows (i + 1)))

/-- The parts of the first `m` servers. -/
def rowParts (m : ℕ) : List RowPart := (List.range m).map (rowPart cfg offsets totalNumRows)

theorem rowParts_succ (m : ℕ) : rowParts cfg offsets totalNumRows (m + 1) =
    rowParts cfg offsets totalNumRows m ++ [rowPart cfg offsets totalNumRows m] := by
  rw [rowParts, List.range_succ, List.map_append, List.map_singleton, rowParts]

theorem flatMap_rowParts (m : ℕ) :
    (rowParts cfg offsets totalNumRows m).flatMap RowPart.rows =
      window offsets (lowerBound offsets (cfg.rowBound totalNumRows 0))
        (lowerBound offsets (cfg.rowBound totalNumRows m)) := by
  rw [rowParts, List.flatMap_map]
  exact flatMap_window offsets (rowBound_step cfg totalNumRows) m

theorem length_rowParts_succ_le (i : ℕ) :
    ((rowParts cfg offsets totalNumRows i).flatMap RowPart.rows).length +
      (rowPart cfg offsets totalNumRows i).rows.length ≤ offsets.length := by
  have hrows := flatMap_rowParts cfg offsets totalNumRows (i + 1)
  rw [rowParts_succ, List.flatMap_append, List.flatMap_singleton] at hrows
  rw [← List.length_append, hrows, window, List.length_drop, List.length_take]
  omega

/-- What the vectors hold after some parts, with `B` bytes a row. -/
def encoded (B : ℕ) (parts : List RowPart) : PSKV where
  keys := parts.flatMap (RowPart.keys cfg key)
  lens := parts.flatMap fun p => 0 :: p.rows.map fun _ => (B : ℤ)
  size := ((parts.flatMap RowPart.rows).length * B : ℕ)

variable {cfg key offsets totalNumRows}

theorem encoded_sum (B : ℕ) (parts : List RowPart) :
    (encoded cfg key B parts).lens.sum = (parts.flatMap RowPart.rows).length * B := by
  induction parts with
  | nil => simp [encoded]
  | cons p parts ih =>
    simp only [encoded, List.flatMap_cons, List.sum_append, List.sum_cons, List.map_const',
      List.sum_replicate, List.length_append, nsmul_eq_mul] at ih ⊢
    push_cast
    linarith

theorem bmod_of_lt {x : ℕ} (h : x < 2 ^ 31) : Int.bmod x (2 ^ 32) = x := toInt32_of_lt h

/-- The rows of one part, as long as the bytes fit an `int`. -/
theorem foldlM_pushRow {i unitLen numBytes : ℕ} {startRow : ℤ} {rows : List ℤ}
    (hcheck : ∀ r ∈ rows, cfg.originalKey (key + (r - startRow)) i < rangeEnd cfg.numServers i)
    (keys : List ℕ) (lens : List ℤ) {size : ℕ}
    (hbytes : size + rows.length * (unitLen * numBytes) < 2 ^ 31) :
    rows.foldlM (cfg.pushRow key unitLen numBytes i startRow) ⟨keys, lens, size⟩ =
      some ⟨keys ++ rows.map fun r => cfg.originalKey (key + (r - startRow)) i,
        lens ++ rows.map fun _ => ((unitLen * numBytes : ℕ) : ℤ),
        (size + rows.length * (unitLen * numBytes) : ℕ)⟩ := by
  induction rows generalizing keys lens size with
  | nil => simp
  | cons r rows ih =>
    have hlen : (r :: rows).length * (unitLen * numBytes) =
        rows.length * (unitLen * numBytes) + unitLen * numBytes := Nat.succ_mul _ _
    have hpart : toInt32 (unitLen * numBytes) = (unitLen * numBytes : ℕ) :=
      toInt32_of_lt (by omega)
    have hsize : Int.bmod ((size : ℤ) + (unitLen * numBytes : ℕ)) (2 ^ 32) =
        (size + unitLen * numBytes : ℕ) := by
      rw [← Nat.cast_add, bmod_of_lt (by omega)]
    simp only [List.foldlM_cons, ShardConfig.pushRow, if_pos (hcheck r List.mem_cons_self), hpart,
      hsize, Option.bind_eq_bind, Option.bind_some]
    rw [ih (fun r' hr' => hcheck r' (List.mem_cons_of_mem r hr')) _ _ (by omega)]
    simp only [List.map_cons, List.append_assoc, List.singleton_append, hlen, Option.some.injEq,
      PSKV.mk.injEq, true_and]
    push_cast
    ring

/-- The rows of a part lie between its bounds. -/
theorem rowPart_inside (hsorted : offsets.Pairwise (· < ·)) {i : ℕ} {r : ℤ}
    (hr : r ∈ (rowPart cfg offsets totalNumRows i).rows) :
    cfg.rowBound totalNumRows i ≤ r ∧ r < cfg.rowBound totalNumRows (i + 1) :=
  mem_window hsorted hr

theorem rowPart_sorted (hsorted : offsets.Pairwise (· < ·)) (i : ℕ) :
    (rowPart cfg offsets totalNumRows i).rows.Pairwise (· < ·) :=
  hsorted.sublist ((List.drop_sublist _ _).trans (List.take_sublist _ _))

theorem mem_rowParts {m : ℕ} {p : RowPart} : p ∈ rowParts cfg offsets totalNumRows m ↔
    ∃ i < m, rowPart cfg offsets totalNumRows i = p := by
  simp [rowParts]

/-- The place of a row in its part, added to the key, is an `int`. -/
theorem rowPart_place (hn₀ : 0 < cfg.numServers) (hkey : 0 ≤ key)
    (hrows : key + totalNumRows < 2 ^ 31) (hsorted : offsets.Pairwise (· < ·)) {i : ℕ}
    (hi : i < cfg.numServers) {r : ℤ} (hr : r ∈ (rowPart cfg offsets totalNumRows i).rows) :
    0 ≤ key + (r - cfg.rowBound totalNumRows i) ∧
      key + (r - cfg.rowBound totalNumRows i) < 2 ^ 31 := by
  obtain ⟨hlo, hhi⟩ := rowPart_inside hsorted hr
  have hfirst := rowBound_mono cfg totalNumRows (Nat.zero_le i)
  have hlast := rowBound_mono cfg totalNumRows (show i + 1 ≤ cfg.numServers from hi)
  rw [rowBound_zero] at hfirst
  rw [rowBound_last cfg totalNumRows hn₀] at hlast
  constructor <;> omega

/-- One turn of the loop over the servers. -/
theorem pushPart_encoded (hn₀ : 0 < cfg.numServers) (hn : cfg.numServers < 2 ^ 31)
    (hkey : 0 ≤ key) (hrows : key + totalNumRows < 2 ^ 31)
    (hsorted : offsets.Pairwise (· < ·)) {unitLen numBytes : ℕ} (hunit : 1 ≤ unitLen)
    (hbytes : offsets.length * (unitLen * numBytes) < 2 ^ 31) {i : ℕ} (hi : i < cfg.numServers) :
    cfg.pushPart key (offsets.length * unitLen) offsets unitLen totalNumRows numBytes
      (encoded cfg key (unitLen * numBytes) (rowParts cfg offsets totalNumRows i),
        if offsets = [] then 0 else cfg.rowBound totalNumRows i) i =
      some (encoded cfg key (unitLen * numBytes) (rowParts cfg offsets totalNumRows (i + 1)),
        if offsets = [] then 0 else cfg.rowBound totalNumRows (i + 1)) := by
  rw [rowParts_succ]
  by_cases hempty : offsets = []
  · simp [ShardConfig.pushPart, encoded, hempty, RowPart.keys, RowPart.rowKeys, rowPart, window]
  · have hpos : 0 < offsets.length * unitLen :=
      Nat.mul_pos (List.length_pos_iff.mpr hempty) hunit
    have hend : cfg.rowBound totalNumRows i +
        (cfg.rowBound totalNumRows (i + 1) - cfg.rowBound totalNumRows i) =
          cfg.rowBound totalNumRows (i + 1) := by omega
    have hfit := (Nat.mul_le_mul_right (unitLen * numBytes)
      (length_rowParts_succ_le cfg offsets totalNumRows i)).trans_lt hbytes
    rw [Nat.add_mul] at hfit
    have hcheck : ∀ r ∈ (rowPart cfg offsets totalNumRows i).rows,
        cfg.originalKey (key + (r - cfg.rowBound totalNumRows i)) i < rangeEnd cfg.numServers i :=
      fun r hr =>
        have hplace := rowPart_place hn₀ hkey hrows hsorted hi hr
        (originalKey_ofServer hn hi hplace.1 hplace.2).2.2
    have hloop := foldlM_pushRow hcheck
      ((encoded cfg key (unitLen * numBytes) (rowParts cfg offsets totalNumRows i)).keys ++
        [cfg.originalKey key i])
      ((encoded cfg key (unitLen * numBytes) (rowParts cfg offsets totalNumRows i)).lens ++ [0])
      hfit
    simp only [ShardConfig.pushPart, if_pos hpos, if_neg hempty, hend, upperBound_pred,
      Option.bind_eq_bind]
    refine (congrArg (Option.bind · fun pskv =>
      some (pskv, cfg.rowBound totalNumRows (i + 1))) hloop).trans ?_
    simp [encoded, RowPart.keys, RowPart.rowKeys, rowPart, Nat.add_mul]

/-- The loop over the servers, by induction on the servers done. -/
theorem foldlM_pushPart (hn₀ : 0 < cfg.numServers) (hn : cfg.numServers < 2 ^ 31)
    (hkey : 0 ≤ key) (hrows : key + totalNumRows < 2 ^ 31)
    (hsorted : offsets.Pairwise (· < ·)) {unitLen numBytes : ℕ} (hunit : 1 ≤ unitLen)
    (hbytes : offsets.length * (unitLen * numBytes) < 2 ^ 31) {m : ℕ}
    (hm : m ≤ cfg.numServers) :
    (List.range m).foldlM
      (cfg.pushPart key (offsets.length * unitLen) offsets unitLen totalNumRows numBytes)
      (⟨[], [], 0⟩, 0) =
      some (encoded cfg key (unitLen * numBytes) (rowParts cfg offsets totalNumRows m),
        if offsets = [] then 0 else cfg.rowBound totalNumRows m) := by
  induction m with
  | zero => simp [encoded, rowParts, rowBound_zero]
  | succ m ih =>
    rw [List.range_succ, List.foldlM_append, ih (by omega)]
    simp only [Option.bind_eq_bind, Option.bind_some, List.foldlM_cons, List.foldlM_nil,
      pushPart_encoded hn₀ hn hkey hrows hsorted hunit hbytes hm]
    rfl

theorem flatMap_rowParts_all (hn₀ : 0 < cfg.numServers)
    (hrange : ∀ r ∈ offsets, 0 ≤ r ∧ r < totalNumRows) :
    (rowParts cfg offsets totalNumRows cfg.numServers).flatMap RowPart.rows = offsets := by
  rw [rowParts, List.flatMap_map]
  exact flatMap_window_all (rowBound_step cfg totalNumRows)
    (fun r hr => by rw [rowBound_zero]; exact (hrange r hr).1)
    (fun r hr => by rw [rowBound_last cfg totalNumRows hn₀]; exact (hrange r hr).2)

/-- The rows of an array for one server. -/
theorem foldlM_pushSingleRow {unitLen numBytes server : ℕ} {rows : List ℤ}
    (hcheck : ∀ r ∈ rows, cfg.originalKey (key + r) server < rangeEnd cfg.numServers server)
    (hpart : rows ≠ [] → unitLen * numBytes < 2 ^ 31) (pskv : PSKV) :
    rows.foldlM (cfg.pushSingleRow key unitLen numBytes server) pskv =
      some { pskv with
        keys := pskv.keys ++ rows.map fun r => cfg.originalKey (key + r) server
        lens := pskv.lens ++ rows.map fun _ => ((unitLen * numBytes : ℕ) : ℤ) } := by
  induction rows generalizing pskv with
  | nil => simp
  | cons r rows ih =>
    have hlen : toInt32 (unitLen * numBytes) = (unitLen * numBytes : ℕ) :=
      toInt32_of_lt (hpart (List.cons_ne_nil _ _))
    simp only [List.foldlM_cons, ShardConfig.pushSingleRow,
      if_pos (hcheck r List.mem_cons_self), hlen, Option.bind_eq_bind, Option.bind_some]
    rw [ih (fun r' hr' => hcheck r' (List.mem_cons_of_mem r hr'))
      (fun _ => hpart (List.cons_ne_nil _ _))]
    simp

end Encode

section Carry
variable {cfg : ShardConfig} {key : ℤ} {offsets : List ℤ} {unitLen totalNumRows numBytes : ℕ}

/-- A row that occurs once among all parts is in one of them. -/
theorem existsUnique_part {parts : List RowPart} (hnodup : (parts.flatMap RowPart.rows).Nodup)
    {r : ℤ} (hr : r ∈ parts.flatMap RowPart.rows) : ∃! p, p ∈ parts ∧ r ∈ p.rows := by
  obtain ⟨p, hp, hrp⟩ := List.mem_flatMap.mp hr
  refine ⟨p, ⟨hp, hrp⟩, fun q hq => ?_⟩
  by_contra hne
  have : Std.Symm (Function.onFun List.Disjoint RowPart.rows) := ⟨fun _ _ h _ hx hy => h hy hx⟩
  exact (List.nodup_flatMap.mp hnodup).2.forall hq.1 hp hne hq.2 hrp

/-- The keys of a part, whose rows are at small places. -/
structure Placed (cfg : ShardConfig) (key : ℤ) (p : RowPart) : Prop where
  server : p.server < cfg.numServers
  sorted : p.rows.Pairwise (· < ·)
  place : ∀ r ∈ p.rows, 0 ≤ key + (r - p.firstRow) ∧ key + (r - p.firstRow) < 2 ^ 31

namespace Placed
variable {p : RowPart}

theorem increasing (hn : cfg.numServers < 2 ^ 31) (h : Placed cfg key p) :
    (p.rowKeys cfg key).Pairwise (· < ·) := by
  refine List.pairwise_map.mpr (h.sorted.imp_of_mem fun {r r'} hr hr' hlt => ?_)
  have hkey := originalKey_cast hn h.server (h.place r hr).1 (h.place r hr).2
  have hkey' := originalKey_cast hn h.server (h.place r' hr').1 (h.place r' hr').2
  omega

theorem owned (hn : cfg.numServers < 2 ^ 31) (hkey : 0 ≤ key) (hlt : key < 2 ^ 31)
    (h : Placed cfg key p) : ∀ k ∈ p.keys cfg key, OfServer cfg.numServers p.server k := by
  refine List.forall_mem_cons.mpr
    ⟨originalKey_ofServer hn h.server hkey hlt, List.forall_mem_map.mpr fun r hr => ?_⟩
  exact originalKey_ofServer hn h.server (h.place r hr).1 (h.place r hr).2

theorem decoded (hn : cfg.numServers < 2 ^ 31) (hkey : 0 ≤ key) (hlt : key < 2 ^ 31)
    (h : Placed cfg key p) (hne : p.rows ≠ []) :
    decodeRowIds cfg.numServers p.server (p.keys cfg key) (List.replicate p.rows.length 0)
      (decodeKey cfg.numServers p.server (cfg.originalKey key p.server)) p.rows.length =
        some (p.rows.map (· - p.firstRow)) := by
  have hlen : p.rows.length = (p.rowKeys cfg key).length := (List.length_map _).symm
  rw [hlen, RowPart.keys, decodeRowIds_eq _ _ (by simpa [RowPart.rowKeys] using hne),
    decodeKey_originalKey hn h.server hkey hlt, RowPart.rowKeys, List.map_map]
  refine congrArg some (List.map_congr_left fun r hr => ?_)
  rw [Function.comp_apply, decodeKey_originalKey hn h.server (h.place r hr).1 (h.place r hr).2]
  ring

end Placed

/-- What follows for any parts that cover the rows. -/
theorem Carries.of_placed (hn : cfg.numServers < 2 ^ 31) (hkey : 0 ≤ key) (hlt : key < 2 ^ 31)
    (hsorted : offsets.Pairwise (· < ·)) {parts : List RowPart}
    (hplaced : ∀ p ∈ parts, Placed cfg key p)
    (hservers : parts.map RowPart.server = if cfg.Partitioned totalNumRows unitLen then
      List.range cfg.numServers else [(key * 9973 % cfg.numServers).toNat])
    (hbounds : ∀ p ∈ parts,
      (p.firstRow, p.endRow) = if cfg.Partitioned totalNumRows unitLen then
        (cfg.rowBound totalNumRows p.server, cfg.rowBound totalNumRows (p.server + 1))
        else (0, (totalNumRows : ℤ)))
    (hcovered : parts.flatMap RowPart.rows = offsets)
    (hinside : ∀ p ∈ parts, ∀ r ∈ p.rows, p.firstRow ≤ r ∧ r < p.endRow) {pskv : PSKV}
    (hkeys : pskv.keys = (encoded cfg key (unitLen * numBytes) parts).keys)
    (hlens : pskv.lens = (encoded cfg key (unitLen * numBytes) parts).lens) :
    Carries cfg key offsets unitLen totalNumRows numBytes pskv parts where
  servers := hservers
  bounds := hbounds
  keys := hkeys
  lens := by rw [hlens, encoded]; push_cast; rfl
  increasing p hp := (hplaced p hp).increasing hn
  owned p hp := (hplaced p hp).owned hn hkey hlt
  covered := hcovered
  once r hr := existsUnique_part
    (by rw [hcovered]; exact hsorted.imp ne_of_lt) (by rwa [hcovered])
  inside := hinside
  decoded p hp := (hplaced p hp).decoded hn hkey hlt
  total := by rw [hlens, encoded_sum, hcovered]; push_cast; ring

end Carry

/-- The rows of a large array go to all servers. -/
theorem encodeRowSparseKey_partitioned {cfg : ShardConfig} (hn₀ : 0 < cfg.numServers)
    (hn : cfg.numServers < 2 ^ 31) {key : ℤ} (hkey : 0 ≤ key) (hlt : key < 2 ^ 31)
    {totalNumRows : ℕ} (hrows : key + totalNumRows < 2 ^ 31) {offsets : List ℤ}
    (hsorted : offsets.Pairwise (· < ·)) (hrange : ∀ r ∈ offsets, 0 ≤ r ∧ r < totalNumRows)
    {unitLen numBytes : ℕ} (hunit : 1 ≤ unitLen) (hpart : cfg.Partitioned totalNumRows unitLen)
    (hfit : offsets.length * (unitLen * numBytes) < 2 ^ 31) :
    ∃ pskv parts, cfg.encodeRowSparseKey key (offsets.length * unitLen) offsets unitLen
      totalNumRows numBytes = some pskv ∧
        Carries cfg key offsets unitLen totalNumRows numBytes pskv parts := by
  have hcovered := flatMap_rowParts_all hn₀ hrange
  have hsize : (encoded cfg key (unitLen * numBytes)
      (rowParts cfg offsets totalNumRows cfg.numServers)).size % 2 ^ 64 =
      ((offsets.length * unitLen : ℕ) * numBytes : ℤ) % 2 ^ 64 := by
    rw [encoded, hcovered]
    push_cast
    rw [mul_assoc]
  rw [ShardConfig.encodeRowSparseKey, if_neg hn₀.ne', if_pos hpart,
    foldlM_pushPart hn₀ hn hkey hrows hsorted hunit hfit le_rfl]
  refine ⟨_, _, by simp only [Option.bind_eq_bind, Option.bind_some, if_pos hsize],
    Carries.of_placed hn hkey hlt hsorted (fun p hp => ?_) ?_ (fun p hp => ?_) hcovered
      (fun p hp r hr => ?_) rfl rfl⟩
  · obtain ⟨i, hi, rfl⟩ := mem_rowParts.mp hp
    exact ⟨hi, rowPart_sorted hsorted i, fun r hr => rowPart_place hn₀ hkey hrows hsorted hi hr⟩
  · rw [if_pos hpart, rowParts, List.map_map]
    exact List.map_id _
  · obtain ⟨i, hi, rfl⟩ := mem_rowParts.mp hp
    rw [if_pos hpart]
    rfl
  · obtain ⟨i, hi, rfl⟩ := mem_rowParts.mp hp
    exact rowPart_inside hsorted hr

/-- A small array goes to the server that its key is hashed to. -/
theorem encodeRowSparseKey_single {cfg : ShardConfig} (hn₀ : 0 < cfg.numServers)
    (hn : cfg.numServers < 2 ^ 31) {key : ℤ} (hkey : 0 ≤ key) (hhash : key * 9973 < 2 ^ 31)
    {totalNumRows : ℕ} (hrows : key + totalNumRows < 2 ^ 31) {offsets : List ℤ}
    (hsorted : offsets.Pairwise (· < ·)) (hrange : ∀ r ∈ offsets, 0 ≤ r ∧ r < totalNumRows)
    {unitLen numBytes : ℕ} (hpart : ¬ cfg.Partitioned totalNumRows unitLen)
    (hfit : offsets ≠ [] → unitLen * numBytes < 2 ^ 31) :
    ∃ pskv parts, cfg.encodeRowSparseKey key (offsets.length * unitLen) offsets unitLen
      totalNumRows numBytes = some pskv ∧
        Carries cfg key offsets unitLen totalNumRows numBytes pskv parts := by
  have hserver : (key * 9973).tmod cfg.numServers = key * 9973 % cfg.numServers :=
    Int.tmod_eq_emod_of_nonneg (by omega)
  have hpos : 0 ≤ key * 9973 % cfg.numServers := Int.emod_nonneg _ (by omega)
  have hlt : key * 9973 % cfg.numServers < cfg.numServers := Int.emod_lt_of_pos _ (by omega)
  have hrow : ∀ r ∈ offsets, 0 ≤ key + (r - 0) ∧ key + (r - 0) < 2 ^ 31 := fun r hr => by
    have := hrange r hr
    omega
  have hi : (key * 9973 % cfg.numServers).toNat < cfg.numServers := by omega
  have hcheck : ∀ r ∈ offsets, cfg.originalKey (key + r) (key * 9973 % cfg.numServers).toNat <
      rangeEnd cfg.numServers (key * 9973 % cfg.numServers).toNat := fun r hr => by
    have hplace := hrow r hr
    rw [sub_zero] at hplace
    exact (originalKey_ofServer hn hi hplace.1 hplace.2).2.2
  rw [ShardConfig.encodeRowSparseKey, if_neg hn₀.ne', if_neg hpart]
  simp only [hserver]
  rw [if_neg (by omega), foldlM_pushSingleRow hcheck hfit]
  refine ⟨_, [⟨(key * 9973 % cfg.numServers).toNat, 0, totalNumRows, offsets⟩], rfl,
    Carries.of_placed hn hkey (by omega) hsorted (List.forall_mem_singleton.mpr ?_) ?_
      (List.forall_mem_singleton.mpr ?_) ?_ (List.forall_mem_singleton.mpr hrange) ?_ ?_⟩
  · exact ⟨hi, hsorted, hrow⟩
  · rw [if_neg hpart]
    rfl
  · rw [if_neg hpart]
  · simp
  · simp [encoded, RowPart.keys, RowPart.rowKeys]
  · simp [encoded]

/-- Row-sparse keys carry each row to one server and back, as long as the bytes are an `int`. -/
theorem encodeRowSparseKey_carries {cfg : ShardConfig} (hn₀ : 0 < cfg.numServers)
    (hn : cfg.numServers < 2 ^ 31) {key : ℤ} (hkey : 0 ≤ key) (hhash : key * 9973 < 2 ^ 31)
    {totalNumRows : ℕ} (hrows : key + totalNumRows < 2 ^ 31) {offsets : List ℤ}
    (hsorted : offsets.Pairwise (· < ·)) (hrange : ∀ r ∈ offsets, 0 ≤ r ∧ r < totalNumRows)
    {unitLen numBytes : ℕ} (hunit : 1 ≤ unitLen)
    (hbytes : offsets ≠ [] → (if cfg.Partitioned totalNumRows unitLen then
      offsets.length * unitLen else unitLen) * numBytes < 2 ^ 31) :
    ∃ pskv parts, cfg.encodeRowSparseKey key (offsets.length * unitLen) offsets unitLen
      totalNumRows numBytes = some pskv ∧
        Carries cfg key offsets unitLen totalNumRows numBytes pskv parts := by
  by_cases hpart : cfg.Partitioned totalNumRows unitLen
  · have hfit : offsets.length * (unitLen * numBytes) < 2 ^ 31 := by
      rcases eq_or_ne offsets [] with rfl | hne
      · simp
      · have := hbytes hne
        rwa [if_pos hpart, Nat.mul_assoc] at this
    exact encodeRowSparseKey_partitioned hn₀ hn hkey (by omega) hrows hsorted hrange hunit hpart hfit
  · have hfit : offsets ≠ [] → unitLen * numBytes < 2 ^ 31 := fun hne => by
      simpa [hpart] using hbytes hne
    exact encodeRowSparseKey_single hn₀ hn hkey hhash hrows hsorted hrange hpart hfit

/-- A partitioned array of five rows on two servers. -/
theorem encodeRowSparseKey_carries_five :
    ∃ pskv parts, (ShardConfig.mk 2 4 false .single).encodeRowSparseKey 3
      (List.length [(0 : ℤ), 2, 4] * 1) [0, 2, 4] 1 5 4 = some pskv ∧
        Carries (ShardConfig.mk 2 4 false .single) 3 [0, 2, 4] 1 5 4 pskv parts :=
  encodeRowSparseKey_carries (by decide) (by decide) (by decide) (by decide) (by decide)
    (by decide) (by decide) (by decide) (fun _ => by decide)

/-- One row of `2^29` elements of four bytes: its length is stored as a negative number. -/
theorem not_encodeRowSparseKey_carries_long :
    ¬ ∃ pskv parts, (ShardConfig.mk 1 (2 ^ 30) false .single).encodeRowSparseKey 0 (1 * 2 ^ 29) [0]
      (2 ^ 29) 1 4 = some pskv ∧
        Carries (ShardConfig.mk 1 (2 ^ 30) false .single) 0 [0] (2 ^ 29) 1 4 pskv parts := by
  rintro ⟨pskv, parts, hrun, h⟩
  have hlens : ((ShardConfig.mk 1 (2 ^ 30) false .single).encodeRowSparseKey 0 (1 * 2 ^ 29) [0]
      (2 ^ 29) 1 4).map PSKV.lens = some [0, -2 ^ 31] := by
    decide
  rw [hrun, Option.map_some] at hlens
  have htotal := h.total
  rw [Option.some.inj hlens] at htotal
  norm_num at htotal

end NetStorm

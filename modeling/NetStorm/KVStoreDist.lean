import NetStorm.KeyRanges
import NetStorm.Library.Arithmetic
import Mathlib.Data.Rat.Floor

/-!
# The sharding state of a worker

`EncodeDefaultKey` divides an array into segments and takes a key for each from the
range of some server. The division is kept in `ps_kv_` and made again when the
performances of the servers change: `seg_update_flag` is `2` during a pass that divides
by performance. Performances are of type `float`; what they do in exact arithmetic is studied
beside it. Failing a `CHECK`, reading outside a vector, overflowing an `int` or a `float`,
dividing by zero and looping forever all give `none`. Gradient compression is off.
-/
namespace NetStorm

/-- `PSKV`. -/
structure PSKV where
  keys : List ℕ := []
  lens : List ℤ := []
  size : ℤ := 0
deriving DecidableEq

/-- What does not change while the worker runs. The source computes with performances in
`Arithmetic.single`. -/
structure ShardConfig where
  numServers : ℕ
  bigarrayBound : ℕ
  enableOriginal : Bool
  arith : Arithmetic

/-- The members of `KVStoreDist` that sharding uses. -/
structure KVStoreDist where
  psKv : ℤ → PSKV
  keyTemp : ℕ → ℕ
  serverPerf : List ℚ
  serverPerfTemp : List ℚ
  segUpdateFlag : ℕ
  serverLog : ℕ
  taskCache : Bool
  numPara : ℕ
  numParaFlag : ℕ
  numParaCount : List ℕ

/-- The initial values of the members. -/
def KVStoreDist.init : KVStoreDist where
  psKv := fun _ => {}
  keyTemp := 0
  serverPerf := []
  serverPerfTemp := []
  segUpdateFlag := 3
  serverLog := 0
  taskCache := false
  numPara := 0
  numParaFlag := 0
  numParaCount := []

/-- A segment of an array: the server whose range its key is taken from, the key, and the
number of bytes. -/
structure Segment where
  server : ℕ
  key : ℕ
  bytes : ℕ
deriving DecidableEq

/-- An array to be encoded. -/
structure Entry where
  key : ℤ
  elems : ℕ
  numBytes : ℕ

/-- `KVStoreDist::TaskDivisionUpdate`. -/
def KVStoreDist.taskDivisionUpdate (st : KVStoreDist) (perf : List ℚ) : KVStoreDist :=
  if st.segUpdateFlag ≠ 3 then
    if 4 ≤ st.segUpdateFlag then { st with serverPerf := perf }
    else if st.segUpdateFlag = 2 then { st with serverPerfTemp := perf, taskCache := true }
    else st
  else { st with serverPerf := perf, segUpdateFlag := st.segUpdateFlag + 1 }

namespace ShardConfig
variable (cfg : ShardConfig)

/-- The counting of parameters at the head of `EncodeDefaultKey`. -/
def countPara (st : KVStoreDist) (a : Entry) : KVStoreDist :=
  let st := if st.numParaFlag < 2 then
      let st := if a.key = 0 then
          { st with
            numParaFlag := st.numParaFlag + 1
            numParaCount := if st.numParaCount = [] then List.replicate cfg.numServers 0
              else st.numParaCount }
        else st
      if st.numParaFlag = 1 then { st with numPara := st.numPara + a.elems } else st
    else st
  if st.numParaFlag = 2 then { st with numParaFlag := st.numParaFlag + 1 } else st

/-- `server_log++` for a counter of type `int`. -/
def nextLog (log : ℕ) : Option ℕ := if log + 1 < 2 ^ 31 then some (log + 1) else none

/-- The clearing of `key_temp`, `num_para_count` and `server_log`. -/
def restart (st : KVStoreDist) : Option KVStoreDist :=
  if st.numParaCount.length < cfg.numServers then none
  else some { st with
    keyTemp := fun i => if i < cfg.numServers then rangeBegin cfg.numServers i else st.keyTemp i
    numParaCount := List.replicate cfg.numServers 0 ++ st.numParaCount.drop cfg.numServers
    serverLog := 0 }

/-- A performance as a number of elements. The division, the conversion of `num_para` and the
product round; the `ceil` of a value is one. -/
def quota (perfSum : ℚ) (numPara : ℕ) (perf : ℚ) : Option ℚ :=
  if perfSum = 0 then none
  else do
    let share ← cfg.arith.round (perf / perfSum)
    let total ← cfg.arith.round numPara
    let elems ← cfg.arith.round (share * total)
    some ⌈elems⌉

/-- The reset inside the segment loop: the performances become numbers of elements. -/
def redivide (st : KVStoreDist) : Option KVStoreDist :=
  if st.serverPerf.length < cfg.numServers then none
  else do
    let perfSum ← cfg.arith.sum (st.serverPerf.take cfg.numServers)
    let quotas ← (st.serverPerf.take cfg.numServers).mapM (cfg.quota perfSum st.numPara)
    let st ← cfg.restart st
    some { st with serverPerf := quotas ++ st.serverPerf.drop cfg.numServers }

/-- The search for a server that has not reached its number of elements. The comparison converts
the count. After as many steps as there are servers it would go round for ever. -/
def findServer (counts : List ℕ) (perf : List ℚ) : ℕ → ℕ → Option ℕ
  | 0, _ => none
  | fuel + 1, log => do
    let c ← counts[log % cfg.numServers]?
    let p ← perf[log % cfg.numServers]?
    let c ← cfg.arith.round c
    if p ≤ c then do
      let log ← nextLog log
      findServer counts perf fuel log
    else some log

/-- The key of the next segment, of `s` elements at most, from the current server. -/
def takeKey (st : KVStoreDist) (s numBytes : ℕ) : Option (Segment × KVStoreDist) :=
  let server := st.serverLog % cfg.numServers
  let psKey := st.keyTemp server
  let len := if cfg.bigarrayBound < s then cfg.bigarrayBound else s
  if psKey < rangeEnd cfg.numServers server ∧ server < st.numParaCount.length then do
    let log ← nextLog st.serverLog
    some (⟨server, psKey, len * numBytes⟩, { st with
      keyTemp := Function.update st.keyTemp server (psKey + 1)
      numParaCount := st.numParaCount.modify server (· + len)
      serverLog := log })
  else none

/-- One iteration of the segment loop. -/
def nextSegment (st : KVStoreDist) (key : ℤ) (s numBytes : ℕ) :
    Option (Segment × KVStoreDist) :=
  if st.segUpdateFlag = 2 then do
    let st ← if key = 0 then cfg.redivide st else some st
    let log ← cfg.findServer st.numParaCount st.serverPerf cfg.numServers st.serverLog
    cfg.takeKey { st with serverLog := log } s numBytes
  else cfg.takeKey st s numBytes

/-- The segment loop. With a bound of `0` it never ends. -/
def segments (key : ℤ) (numBytes : ℕ) : ℕ → ℕ → KVStoreDist → Option (List Segment × KVStoreDist)
  | 0, _, _ => none
  | fuel + 1, s, st => do
    let (seg, st) ← cfg.nextSegment st key s numBytes
    if cfg.bigarrayBound < s then do
      let (rest, st) ← segments key numBytes fuel (s - cfg.bigarrayBound) st
      some (seg :: rest, st)
    else some ([seg], st)

/-- The key `krs[server].begin() + key` in 64 bits. -/
def originalKey (key : ℤ) (server : ℕ) : ℕ :=
  (((rangeBegin cfg.numServers server : ℤ) + key) % 2 ^ 64).toNat

/-- The division with `enable_original`: one server, or equal parts for all. -/
def originalSegments (a : Entry) : Option (List Segment) :=
  if a.elems < cfg.bigarrayBound then
    let server := (a.key * 9973).tmod cfg.numServers
    if a.key * 9973 < -2 ^ 31 ∨ 2 ^ 31 ≤ a.key * 9973 ∨ server < 0 then none
    else some [⟨server.toNat, cfg.originalKey a.key server.toNat, a.elems * a.numBytes⟩]
  else some ((List.range cfg.numServers).map fun i =>
    ⟨i, cfg.originalKey a.key i,
      (⌊(a.elems : ℚ) / cfg.numServers * (i + 1) + 1 / 2⌋.toNat -
        ⌊(a.elems : ℚ) / cfg.numServers * i + 1 / 2⌋.toNat) * a.numBytes⟩)

/-- The segments of an array that has no division yet. -/
def divide (st : KVStoreDist) (a : Entry) : Option (List Segment × KVStoreDist) :=
  if cfg.numServers = 0 then none
  else if cfg.enableOriginal = true then do
    let segs ← cfg.originalSegments a
    if ∀ g ∈ segs, g.key < rangeEnd cfg.numServers g.server then some (segs, st) else none
  else do
    let st ← if a.key = 0 ∧ st.segUpdateFlag ≠ 2 then cfg.restart st else some st
    cfg.segments a.key a.numBytes (a.elems + 1) a.elems st

/-- The `PSKV` that the appended segments leave behind; `size` is an `int`. -/
def pskvOf (old : PSKV) (segs : List Segment) : PSKV where
  keys := old.keys ++ segs.map Segment.key
  lens := old.lens ++ segs.map (fun g => toInt32 g.bytes)
  size := segs.foldl (fun size g => Int.bmod (size + g.bytes) (2 ^ 32)) 0

/-- `KVStoreDist::EncodeDefaultKey`, with the segments it handed out. -/
def encodeDefaultKey (st : KVStoreDist) (a : Entry) : Option (List Segment × KVStoreDist) :=
  let st := cfg.countPara st a
  let pskvSize : ℤ := a.elems * a.numBytes
  if (st.psKv a.key).keys ≠ [] then
    if (st.psKv a.key).size % 2 ^ 64 = pskvSize then some ([], st) else none
  else do
    let (segs, st) ← cfg.divide st a
    let pskv := pskvOf (st.psKv a.key) segs
    if pskv.size % 2 ^ 64 = pskvSize then
      some (segs, { st with psKv := Function.update st.psKv a.key pskv })
    else none

/-- The arrays of one pass, in order: the segments of each, and the state after it. -/
def encodePass : List Entry → KVStoreDist → Option (List (List Segment) × KVStoreDist)
  | [], st => some ([], st)
  | a :: rest, st => do
    let (segs, st) ← cfg.encodeDefaultKey st a
    let (log, st) ← encodePass rest st
    some (segs :: log, st)

end ShardConfig

/-- The loop of `PushDefault`: every key with its part of the values, from `len` on. -/
def pushDefault {α : Type*} (vals : List α) : ℕ → List ℕ → List ℤ → List (ℕ × List α)
  | len, key :: keys, l :: lens =>
    (key, (vals.drop len).take l.toNat) :: pushDefault vals (len + l.toNat) keys lens
  | _, _, _ => []

end NetStorm

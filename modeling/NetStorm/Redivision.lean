import NetStorm.ShardingPass
import Mathlib.Algebra.BigOperators.Ring.Finset
import Mathlib.Algebra.Order.Floor.Ring

/-!
# The keys of a whole pass

An even pass tiles every array with distinct keys. So does a pass by performance, unless
key 0's array needs a second segment: the reset sits inside the segment loop, so that
segment starts again from the first key.
-/
namespace NetStorm

/-- The slices sent one after the other make up the values from `len` on. -/
theorem pushDefault_flatten {α : Type*} (vals : List α) (lens : List ℤ) :
    ∀ (keys : List ℕ) (len : ℕ), keys.length = lens.length →
      (pushDefault vals len keys lens).map Prod.fst = keys ∧
      ((pushDefault vals len keys lens).map Prod.snd).flatten =
        (vals.drop len).take (lens.map Int.toNat).sum := by
  induction lens with
  | nil =>
    intro keys len h
    obtain rfl : keys = [] := by simpa using h
    simp [pushDefault]
  | cons l lens ih =>
    intro keys len h
    cases keys with
    | nil => simp at h
    | cons k keys =>
      obtain ⟨hkeys, hflat⟩ := ih keys (len + l.toNat) (by simpa using h)
      refine ⟨by simp [pushDefault, hkeys], ?_⟩
      simp only [pushDefault, List.map_cons, List.flatten_cons, hflat, List.sum_cons]
      rw [List.take_add, List.drop_drop]

namespace ShardConfig

/-- The state in which a pass over `arrays` begins. A pass by performance needs the
parameters to have been counted by an earlier one. -/
structure PassStart (cfg : ShardConfig) (st : KVStoreDist) (arrays : List Entry) : Prop where
  servers : 1 ≤ cfg.numServers
  bound : 1 ≤ cfg.bigarrayBound
  original : cfg.enableOriginal = false
  first : (arrays.map Entry.key).head? = some 0
  pending : Pending st arrays
  counts : st.numParaCount.length = cfg.numServers ∨ (st.numParaCount = [] ∧ st.numParaFlag < 2)
  weighted : st.segUpdateFlag = 2 → st.serverPerf.length = cfg.numServers ∧
    (∀ p ∈ st.serverPerf, cfg.arith.Value p) ∧ 0 < st.serverPerf.sum ∧
    1 ≤ st.numParaFlag ∧ st.numPara = (arrays.map Entry.elems).sum

/-- The slices that `PushDefault` sends for array `a` tile it. -/
structure Tiles (st : KVStoreDist) (a : Entry) : Prop where
  length_eq : (st.psKv a.key).keys.length = (st.psKv a.key).lens.length
  sum_lens : (st.psKv a.key).lens.sum = a.elems * a.numBytes
  flatten_eq : ∀ vals : List UInt8, vals.length = a.elems * a.numBytes →
    (pushDefault vals 0 (st.psKv a.key).keys (st.psKv a.key).lens).map Prod.fst =
        (st.psKv a.key).keys ∧
      ((pushDefault vals 0 (st.psKv a.key).keys (st.psKv a.key).lens).map Prod.snd).flatten = vals

/-- What a pass is for: the segments sent tile every array, every key lies in the range of
the server it was taken for, and no key is handed out twice. -/
structure Shards (cfg : ShardConfig) (arrays : List Entry)
    (r : List (List Segment) × KVStoreDist) : Prop where
  arrays : List.Forall₂ (fun a segs => Tiles r.2 a ∧
    (r.2.psKv a.key).keys = segs.map Segment.key ∧ ∀ g ∈ segs, cfg.InRange g) arrays r.1
  nodup : (r.1.flatten.map Segment.key).Nodup

variable {cfg : ShardConfig}

/-- An array that got its segments is tiled by them. -/
theorem Sharded.tiles {st : KVStoreDist} {a : Entry} {segs : List Segment}
    (h : Sharded cfg st a segs) : Tiles st a := by
  have hlen : (st.psKv a.key).keys.length = (st.psKv a.key).lens.length := by
    simp [h.pskv, pskvFor]
  have hnat : ((st.psKv a.key).lens.map Int.toNat).sum = a.elems * a.numBytes := by
    rw [h.pskv, pskvFor, List.map_map, ← h.bytes]
    rfl
  refine ⟨hlen, ?_, fun vals hvals => ?_⟩
  · have hsum : ((segs.map Segment.bytes).sum : ℤ) = a.elems * a.numBytes := by
      exact_mod_cast h.bytes
    rw [h.pskv, pskvFor, ← hsum, Nat.cast_list_sum, List.map_map]
    rfl
  · obtain ⟨hfst, hsnd⟩ := pushDefault_flatten vals _ _ 0 hlen
    refine ⟨hfst, ?_⟩
    rw [hsnd, hnat, List.drop_zero, ← hvals, List.take_length]

theorem Passed.shards {st : KVStoreDist} {arrays : List Entry}
    {r : List (List Segment) × KVStoreDist} (h : Passed cfg st [] arrays r) :
    cfg.Shards arrays r :=
  ⟨h.sharded.imp fun _ _ hs => ⟨hs.tiles, by rw [hs.pskv]; rfl, hs.inRange⟩,
    by simpa using h.nodup⟩

section Start
variable {st : KVStoreDist} {a : Entry} {rest : List Entry}

/-- A pass that resets only before its first segment shards. -/
theorem PassStart.encodePass_spec (h : cfg.PassStart st (a :: rest))
    (hgood : st.segUpdateFlag ≠ 2 ∨ a.elems ≤ cfg.bigarrayBound) :
    OptionSpec (cfg.encodePass (a :: rest) st)
      (cfg.numServers * ((a :: rest).map fun a => cfg.segCount a.elems).sum < 2 ^ 31 ∧
        (st.segUpdateFlag = 2 → cfg.QuotasCover st.serverPerf st.numPara))
      (cfg.Shards (a :: rest)) := by
  have ha : a.key = 0 := by simpa using h.first
  have hs := (h.pending.sizes a List.mem_cons_self).1
  obtain ⟨hcount, hpara⟩ := countPara_first cfg st ha h.counts
  obtain ⟨-, hflag, hperf, -⟩ := countPara_frame cfg st a
  have hbudget : st.segUpdateFlag = 2 → 2 ≤ (cfg.countPara st a).numParaFlag ∧
      0 + ((a :: rest).map Entry.elems).sum ≤ (cfg.countPara st a).numPara := by
    intro h2
    obtain ⟨-, -, -, hone, hnum⟩ := h.weighted h2
    obtain ⟨hp₁, hp₂⟩ := hpara hone
    exact ⟨hp₂, by omega⟩
  have hlater : ∀ b ∈ rest, b.key ≠ 0 := by
    intro b hb hzero
    exact (List.nodup_cons.mp h.pending.nodup).1 (ha ▸ hzero ▸ List.mem_map_of_mem hb)
  rw [List.map_cons, List.sum_cons]
  refine (encodePass_cons h.pending hlater ?_ hbudget fun st' segs hlen hunder =>
    ShardConfig.encodePass_spec h.servers h.bound h.original rest hunder ?_).mono
      fun r hr => hr.shards
  · by_cases h2 : st.segUpdateFlag = 2
    · obtain ⟨hlen, -, -, hone, -⟩ := h.weighted h2
      have hroom := (hbudget h2).2
      rw [List.map_cons, List.sum_cons] at hroom
      exact divide_spec_first_weighted h.servers h.original hs ha (hflag.trans h2)
        (hgood.resolve_left (not_not_intro h2)) hcount (hperf ▸ hlen)
        (fun hcover => by rw [hperf, (hpara hone).1]; exact hcover h2) (by omega)
        (Nat.succ_le_succ (Nat.zero_le _) |>.trans (Nat.le_add_right _ _))
    · exact divide_spec_first_even h.servers h.bound h.original hs ha (hflag.trans_ne h2) hcount
        (Nat.le_add_right _ _)
  · simp [hlen]

end Start

/-- A worker that has counted `numPara` parameters and divides by performance next. -/
def redividing (perf : List ℚ) (numPara : ℕ) : KVStoreDist :=
  { KVStoreDist.init with
    serverPerf := perf
    segUpdateFlag := 2
    numPara := numPara
    numParaFlag := 1
    numParaCount := List.replicate perf.length 0 }

/-- From `2 ^ 24` elements on the quotas may not suffice: the counts are rounded as well, and the
search for a server goes round for ever. -/
example : (encodePass ⟨1, 2 ^ 24, false, .single⟩ [⟨0, 2 ^ 24, 4⟩, ⟨1, 1, 4⟩]
    (redividing [1] (2 ^ 24 + 1))).isNone = true := by
  decide +kernel

end ShardConfig

end NetStorm

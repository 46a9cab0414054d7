import NetStorm.KVStoreDistServer
import NetStorm.Redivision

/-!
# The slots of an even pass

An even pass goes round the servers, so its keys are known in advance. At a server that
aggregates for several roots they meet in `update_buf_`, whose keys are `int`.
-/
namespace NetStorm

/-- The key that an even pass hands out in step `t`. -/
def evenKey (n t : ℕ) : ℕ := rangeBegin n (t % n) + t / n

theorem evenKey_even {n t : ℕ} (hn : 0 < n) (ht : t < 2 ^ 31) : EvenKey n (evenKey n t) :=
  ⟨t % n, t / n, Nat.mod_lt _ hn, (Nat.div_mul_le_self t n).trans_lt ht, rfl⟩

namespace ShardConfig
variable {cfg : ShardConfig} {st : KVStoreDist}

/-- After `t` steps of an even pass. -/
structure Even (cfg : ShardConfig) (st : KVStoreDist) (t : ℕ) : Prop where
  flag : st.segUpdateFlag ≠ 2
  log : st.serverLog = t
  log_lt : t < 2 ^ 31
  keyTemp : ∀ i < cfg.numServers, st.keyTemp i =
    rangeBegin cfg.numServers i + (t + (cfg.numServers - 1 - i)) / cfg.numServers

theorem div_eq_of_eq {n a b x : ℕ} (hx : x = n * a + b) (hb : b < n) : x / n = a := by
  rw [hx, Nat.mul_add_div (by omega), Nat.div_eq_of_lt hb, Nat.add_zero]

/-- The round: only the server whose turn it is moves on. -/
theorem round_succ {n i t : ℕ} (hi : i < n) :
    (t + 1 + (n - 1 - i)) / n = (t + (n - 1 - i)) / n + if i = t % n then 1 else 0 := by
  have hr : t % n < n := Nat.mod_lt _ (by omega)
  have ht := Nat.div_add_mod t n
  have hsucc : n * (t / n + 1) = n * (t / n) + n := Nat.mul_succ _ _
  rcases lt_trichotomy i (t % n) with h | h | h
  · have h₁ : (t + 1 + (n - 1 - i)) / n = t / n + 1 :=
      div_eq_of_eq (b := t % n - i) (by omega) (by omega)
    have h₂ : (t + (n - 1 - i)) / n = t / n + 1 :=
      div_eq_of_eq (b := t % n - i - 1) (by omega) (by omega)
    rw [if_neg h.ne, h₁, h₂]
  · have h₁ : (t + 1 + (n - 1 - i)) / n = t / n + 1 :=
      div_eq_of_eq (b := 0) (by omega) (by omega)
    have h₂ : (t + (n - 1 - i)) / n = t / n :=
      div_eq_of_eq (b := n - 1) (by omega) (by omega)
    rw [if_pos h, h₁, h₂]
  · have h₁ : (t + 1 + (n - 1 - i)) / n = t / n :=
      div_eq_of_eq (b := t % n + (n - i)) (by omega) (by omega)
    have h₂ : (t + (n - 1 - i)) / n = t / n :=
      div_eq_of_eq (b := t % n + (n - 1 - i)) (by omega) (by omega)
    rw [if_neg h.ne', h₁, h₂, Nat.add_zero]

theorem round_eq {n t : ℕ} (hn : 0 < n) : (t + (n - 1 - t % n)) / n = t / n := by
  have hr := Nat.mod_lt t hn
  have ht := Nat.div_add_mod t n
  exact div_eq_of_eq (b := n - 1) (by omega) (by omega)

/-- A segment of an even pass gets the next key. -/
theorem Even.nextSegment (hn : 0 < cfg.numServers) {t : ℕ} (h : Even cfg st t) {key : ℤ}
    {s numBytes : ℕ} {r : Segment × KVStoreDist}
    (hr : cfg.nextSegment st key s numBytes = some r) :
    r.1.key = evenKey cfg.numServers t ∧ Even cfg r.2 (t + 1) := by
  have hlt := Nat.mod_lt t hn
  simp only [ShardConfig.nextSegment, h.flag, if_false, takeKey, nextLog, h.log] at hr
  split_ifs at hr with hcond hlog
  all_goals simp only [Option.bind_eq_bind, Option.bind_some, Option.bind_none] at hr
  all_goals cases hr
  all_goals
    refine ⟨(h.keyTemp _ hlt).trans (by rw [round_eq hn]; rfl), h.flag, rfl, hlog, fun i hi => ?_⟩
    simp only [round_succ hi, Function.update_apply]
    split_ifs with his
    · rw [h.keyTemp _ hlt, his]
      rfl
    · exact h.keyTemp i hi

/-- The segment loop of an even pass, by induction on its iterations. -/
theorem Even.segments (hn : 0 < cfg.numServers) {key : ℤ} {numBytes : ℕ} (fuel : ℕ) {s t : ℕ}
    (h : Even cfg st t) {r : List Segment × KVStoreDist}
    (hr : cfg.segments key numBytes fuel s st = some r) :
    r.1.map Segment.key = (List.range' t r.1.length).map (evenKey cfg.numServers) ∧
      Even cfg r.2 (t + r.1.length) := by
  induction fuel generalizing s st t r with
  | zero => cases hr
  | succ fuel ih =>
    obtain ⟨⟨g, st₁⟩, hg, hrest⟩ := Option.bind_eq_some_iff.mp hr
    obtain ⟨hkey, h₁⟩ := h.nextSegment hn hg
    dsimp only at hrest
    split_ifs at hrest
    · obtain ⟨r', hr', hout⟩ := Option.bind_eq_some_iff.mp hrest
      obtain ⟨hkeys, h₂⟩ := ih h₁ hr'
      cases hout
      refine ⟨?_, ?_⟩
      · simpa [List.range'_succ, hkeys] using hkey
      · rwa [List.length_cons, Nat.add_comm r'.1.length, ← Nat.add_assoc]
    · cases hrest
      exact ⟨by simpa using hkey, h₁⟩

/-- An array of an even pass, and key 0 restarts the round. -/
theorem Even.encodeDefaultKey (hn : 0 < cfg.numServers) (ho : cfg.enableOriginal = false)
    {a : Entry} {t : ℕ} (hflag : st.segUpdateFlag ≠ 2) (h : a.key ≠ 0 → Even cfg st t)
    (ht : a.key = 0 → t = 0) (hempty : (st.psKv a.key).keys = [])
    {r : List Segment × KVStoreDist} (hr : cfg.encodeDefaultKey st a = some r) :
    r.1.map Segment.key = (List.range' t r.1.length).map (evenKey cfg.numServers) ∧
      Even cfg r.2 (t + r.1.length) := by
  obtain ⟨hpsKv, hflag', -⟩ := countPara_frame cfg st a
  have hkeys : ¬ ((cfg.countPara st a).psKv a.key).keys ≠ [] := by simp [hpsKv, hempty]
  rw [ShardConfig.encodeDefaultKey, if_neg hkeys] at hr
  obtain ⟨⟨segs, st₁⟩, hdiv, hr⟩ := Option.bind_eq_some_iff.mp hr
  have hsegs : segs.map Segment.key = (List.range' t segs.length).map (evenKey cfg.numServers) ∧
      Even cfg st₁ (t + segs.length) := by
    simp only [divide, hn.ne', if_false, ho, Bool.false_eq_true, Option.bind_eq_bind] at hdiv
    by_cases ha : a.key = 0
    · obtain rfl := ht ha
      rw [if_pos ⟨ha, hflag'.trans_ne hflag⟩] at hdiv
      obtain ⟨st₀, hst₀, hdiv⟩ := Option.bind_eq_some_iff.mp hdiv
      rw [restart] at hst₀
      split_ifs at hst₀
      obtain rfl := Option.some.inj hst₀
      refine Even.segments hn _ ?_ hdiv
      refine ⟨hflag'.trans_ne hflag, rfl, Nat.two_pow_pos 31, fun i hi => ?_⟩
      simp only [hi, if_true]
      rw [Nat.div_eq_of_lt (by omega), Nat.add_zero]
    · rw [if_neg (fun hc => ha hc.1), Option.bind_some] at hdiv
      obtain ⟨htemp, -, hlog, -⟩ := countPara_later cfg st ha
      exact Even.segments hn _ ⟨hflag'.trans_ne hflag, hlog.trans (h ha).log, (h ha).log_lt,
        htemp ▸ (h ha).keyTemp⟩ hdiv
  dsimp only at hr
  split_ifs at hr
  obtain rfl := Option.some.inj hr
  exact ⟨hsegs.1, hsegs.2.flag, hsegs.2.log, hsegs.2.log_lt, hsegs.2.keyTemp⟩

/-- The arrays after key 0 go on with the round, by induction on the list. -/
theorem Even.encodePass (hn : 0 < cfg.numServers) (ho : cfg.enableOriginal = false)
    (rest : List Entry) {t : ℕ} (h : Even cfg st t) (hpend : Pending st rest)
    (hlater : ∀ a ∈ rest, a.key ≠ 0) {r : List (List Segment) × KVStoreDist}
    (hr : cfg.encodePass rest st = some r) :
    r.1.flatten.map Segment.key =
        (List.range' t r.1.flatten.length).map (evenKey cfg.numServers) ∧
      t + r.1.flatten.length < 2 ^ 31 := by
  induction rest generalizing st t r with
  | nil =>
    obtain rfl := Option.some.inj hr
    exact ⟨rfl, h.log_lt⟩
  | cons a rest ih =>
    obtain ⟨r₁, hr₁, hrest⟩ := Option.bind_eq_some_iff.mp hr
    obtain ⟨r₂, hr₂, hout⟩ := Option.bind_eq_some_iff.mp hrest
    obtain rfl := Option.some.inj hout
    have ha := hlater a List.mem_cons_self
    obtain ⟨hkeys, h₁⟩ := Even.encodeDefaultKey hn ho h.flag (fun _ => h) (fun h0 => absurd h0 ha)
      (hpend.cleared a List.mem_cons_self).1 hr₁
    obtain ⟨hkeys', hlt⟩ := ih h₁ (hpend.tail (encodeDefaultKey_psKv
      (hpend.cleared a List.mem_cons_self).1 hr₁))
      (fun b hb => hlater b (List.mem_cons_of_mem _ hb)) hr₂
    refine ⟨?_, by simpa [Nat.add_assoc] using hlt⟩
    rw [List.flatten_cons, List.map_append, hkeys, hkeys', List.length_append, ← List.map_append,
      List.range'_append_1]

/-- An even pass hands out the keys of the round in order, as many as an `int` counts. -/
theorem PassStart.even_keys {arrays : List Entry} (h : cfg.PassStart st arrays)
    (hflag : st.segUpdateFlag ≠ 2) {r : List (List Segment) × KVStoreDist}
    (hr : cfg.encodePass arrays st = some r) :
    r.1.flatten.map Segment.key =
        (List.range r.1.flatten.length).map (evenKey cfg.numServers) ∧
      r.1.flatten.length < 2 ^ 31 := by
  cases arrays with
  | nil => simpa using h.first
  | cons a rest =>
    have ha : a.key = 0 := by simpa using h.first
    have hlater : ∀ b ∈ rest, b.key ≠ 0 := by
      intro b hb hzero
      exact (List.nodup_cons.mp h.pending.nodup).1 (ha ▸ hzero ▸ List.mem_map_of_mem hb)
    have hempty := (h.pending.cleared a List.mem_cons_self).1
    obtain ⟨r₁, hr₁, hrest⟩ := Option.bind_eq_some_iff.mp hr
    obtain ⟨r₂, hr₂, hout⟩ := Option.bind_eq_some_iff.mp hrest
    obtain rfl := Option.some.inj hout
    obtain ⟨hkeys, h₁⟩ := Even.encodeDefaultKey (t := 0) h.servers h.original hflag
      (fun hne => absurd ha hne) (fun _ => rfl) hempty hr₁
    rw [Nat.zero_add] at h₁
    obtain ⟨hkeys', hlt⟩ := h₁.encodePass h.servers h.original rest
      (h.pending.tail (encodeDefaultKey_psKv hempty hr₁)) hlater hr₂
    refine ⟨?_, by simpa using hlt⟩
    rw [List.flatten_cons, List.map_append, hkeys, hkeys', List.length_append, ← List.map_append,
      List.range_eq_range', ← List.range'_append_1, Nat.zero_add]

end ShardConfig

/-- Two keys have slots of their own: a request for one leaves the buffer of the other
alone at every server. -/
def OwnSlots (k k' : ℕ) : Prop :=
  slot k ≠ slot k' ∧ ∀ (cfg : StoreConfig) (st : KVStoreDistServer) (sons : List (List ℤ))
    (req : KVMeta) (data : KVPairs NDArray) (h : Handled), data.keys = [k'] →
      cfg.dataHandleDefault st sons req data = some h →
        h.server.updateBuf (slot k) = st.updateBuf (slot k)

theorem ownSlots_iff {k k' : ℕ} : OwnSlots k k' ↔ slot k ≠ slot k' := by
  refine ⟨And.left, fun hne => ⟨hne, fun cfg st sons req data h hkeys hrun => ?_⟩⟩
  exact (StoreConfig.dataHandleDefault_sameElsewhere hrun fun key hkey => by
    rw [hkeys, List.mem_singleton] at hkey
    exact hkey ▸ hne).1

/-- The keys of an even pass have slots of their own exactly when the ranges are apart
modulo `2^32`. For up to 46341 servers that is when their number is odd. -/
theorem update_slots {n : ℕ} (hn : 1 ≤ n) (hint : n < 2 ^ 31) :
    ((∀ k k', EvenKey n k → EvenKey n k' → k ≠ k' → OwnSlots k k') ↔ SlotsApart n) ∧
      (n * (n - 1) ≤ 2 ^ 31 → (SlotsApart n ↔ Odd n)) ∧
      ∀ (b : ℕ) (st : KVStoreDist) (arrays : List Entry) (r : List (List Segment) × KVStoreDist),
        ShardConfig.PassStart ⟨n, b, false, .single⟩ st arrays → st.segUpdateFlag ≠ 2 →
          ShardConfig.encodePass ⟨n, b, false, .single⟩ arrays st = some r →
            ∀ k ∈ r.1.flatten.map Segment.key, EvenKey n k := by
  refine ⟨?_, slotsApart_iff_odd hn, fun b st arrays r hstart hflag hr k hk => ?_⟩
  · simp only [ownSlots_iff]
    exact slots_distinct_iff_apart hint
  · obtain ⟨hkeys, hlt⟩ := hstart.even_keys hflag hr
    rw [hkeys] at hk
    obtain ⟨t, ht, rfl⟩ := List.mem_map.mp hk
    exact evenKey_even hn ((List.mem_range.mp ht).trans hlt)

/-- With three servers a worker's even pass has slots of its own for all keys. -/
theorem update_slots_three_servers :
    SlotsApart 3 ∧ ∀ k k', EvenKey 3 k → EvenKey 3 k' → k ≠ k' → OwnSlots k k' := by
  obtain ⟨hown, hodd, -⟩ := update_slots (n := 3) (by decide) (by decide)
  have hapart : SlotsApart 3 := (hodd (by decide)).mpr (by decide)
  exact ⟨hapart, hown.mpr hapart⟩

/-- With two servers an array of four segments gets the keys `0` and `2^63` in one pass, and
both index slot 0. -/
theorem update_slots_two_servers :
    (ShardConfig.encodePass ⟨2, 1, false, .single⟩ [⟨0, 4, 4⟩] KVStoreDist.init).map
        (fun r => r.1.flatten.map Segment.key) = some [0, 2 ^ 63 - 1, 1, 2 ^ 63] ∧
      EvenKey 2 0 ∧ EvenKey 2 (2 ^ 63) ∧ slot 0 = 0 ∧ slot (2 ^ 63) = 0 ∧
      ¬ OwnSlots 0 (2 ^ 63) := by
  have h₀ : slot 0 = 0 := by decide
  have h₁ : slot (2 ^ 63) = 0 := by decide
  refine ⟨by decide +kernel, ⟨0, 0, by decide, by decide, rfl⟩, ⟨1, 1, by decide, by decide, ?_⟩,
    h₀, h₁, fun h => h.1 (h₀.trans h₁.symm)⟩
  decide

end NetStorm

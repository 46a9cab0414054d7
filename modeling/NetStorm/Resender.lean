import NetStorm.Wire

/-!
# The resender of a van

The resender keeps every message it sends until an acknowledgement with the key of the message
comes back, and drops received messages with a key that it has seen. The key packs the
application, the ids of the two ends of the link, the timestamp and the request flag into 64
bits. The shift of a timestamp wraps around. A failing `CHECK` has no result.
-/
namespace NetStorm

/-- The bits of `Resender::GetKey`. The shifted timestamp is an `int`, and it is widened with
its sign. -/
def packKey (id : BitVec 16) (sender recver : BitVec 8) (timestamp : BitVec 32)
    (request : Bool) : BitVec 64 :=
  id.setWidth 64 <<< 48 ||| sender.setWidth 64 <<< 40 ||| recver.setWidth 64 <<< 32 |||
    (timestamp <<< 1).signExtend 64 ||| (BitVec.ofBool request).setWidth 64

/-- `Resender::GetKey` at node `myId`. -/
def getKey (myId : ℤ) (m : WireMeta) : Option UInt64 :=
  if m.timestamp = kEmpty then none
  else some ⟨packKey (.ofInt 16 m.appId) (.ofInt 8 (if m.sender = kEmpty then myId else m.sender))
    (.ofInt 8 m.recver) (.ofInt 32 m.timestamp) m.request⟩

/-- The members `send_buff_` and `acked_` of a resender. Not in the source is the number of the
call of `Van::Send` that stands with every message of the buffer. -/
structure Resender where
  sendBuff : List (UInt64 × ℕ × WireMeta) := []
  acked : List UInt64 := []

/-- `Resender::AddOutgoing`. -/
def Resender.addOutgoing (r : Resender) (myId : ℤ) (ticket : ℕ) (m : WireMeta) :
    Option Resender :=
  if m.cmd = .ack then some r
  else do
    let key ← getKey myId m
    if key ∈ r.sendBuff.map Prod.fst then some r
    else some { r with sendBuff := r.sendBuff ++ [(key, ticket, m)] }

/-- The acknowledgement that `AddIncomming` builds; two of its fields are not set. -/
def ackMeta (m : WireMeta) (key : UInt64) (startTime : BitVec 64) (barrierGroup : ℤ) : WireMeta where
  recver := m.sender
  sender := m.recver
  cmd := .ack
  msgSig := key
  startTime := startTime
  barrierGroup := barrierGroup

/-- `Resender::AddIncomming`: what it returns and the acknowledgement it sends. -/
def Resender.addIncomming (r : Resender) (myId : ℤ) (startTime : BitVec 64) (barrierGroup : ℤ)
    (m : WireMeta) : Option (Resender × Bool × Option WireMeta) :=
  if m.cmd = .terminate then some (r, false, none)
  else if m.cmd = .ack then
    some ({ r with sendBuff := r.sendBuff.filter fun e => e.1 ≠ m.msgSig }, true, none)
  else do
    let key ← getKey myId m
    let ack := ackMeta m key startTime barrierGroup
    if key ∈ r.acked then some (r, true, some ack)
    else some ({ r with acked := key :: r.acked }, false, some ack)

theorem getLsbD_packKey (id : BitVec 16) (sender recver : BitVec 8) (timestamp : BitVec 32)
    (request : Bool) {i : ℕ} (hi : i < 64) :
    (packKey id sender recver timestamp request).getLsbD i =
      if i = 0 then request
      else if i < 32 then timestamp.getLsbD (i - 1)
      else (timestamp.getLsbD 30 || if i < 40 then recver.getLsbD (i - 32)
        else if i < 48 then sender.getLsbD (i - 40) else id.getLsbD (i - 48)) := by
  simp only [packKey, BitVec.getLsbD_or, BitVec.getLsbD_shiftLeft, BitVec.getLsbD_setWidth,
    BitVec.getLsbD_signExtend, BitVec.getLsbD_ofBool, BitVec.msb_shiftLeft,
    BitVec.getMsbD_eq_getLsbD]
  by_cases h₀ : i = 0
  · subst h₀
    simp
  by_cases h₁ : i < 32
  · have h₂ : i < 40 := by omega
    have h₃ : i < 48 := by omega
    simp [h₀, h₁, h₂, h₃, hi]
  by_cases h₂ : i < 40
  · have h₃ : i < 48 := by omega
    have hr : i - 32 < 64 := by omega
    simp [h₀, h₁, h₂, h₃, hi, hr, Bool.or_comm]
  have hrecver : recver.getLsbD (i - 32) = false := BitVec.getLsbD_of_ge _ _ (by omega)
  by_cases h₃ : i < 48
  · have hs : i - 40 < 64 := by omega
    simp [h₀, h₁, h₂, h₃, hi, hs, hrecver, Bool.or_comm]
  · have hid : i - 48 < 64 := by omega
    have hsender : sender.getLsbD (i - 40) = false := BitVec.getLsbD_of_ge _ _ (by omega)
    simp [h₀, h₁, h₂, h₃, hi, hid, hrecver, hsender, Bool.or_comm]

/-- Two keys agree if the flags and the low 31 bits of the timestamps do, and if the sign of the
shifted timestamp has not overwritten the ids, the ids agree as well. -/
theorem packKey_eq_iff {id id' : BitVec 16} {sender sender' recver recver' : BitVec 8}
    {timestamp timestamp' : BitVec 32} {request request' : Bool} :
    packKey id sender recver timestamp request = packKey id' sender' recver' timestamp' request' ↔
      request = request' ∧ timestamp.setWidth 31 = timestamp'.setWidth 31 ∧
        (timestamp.getLsbD 30 = true ∨ id = id' ∧ sender = sender' ∧ recver = recver') := by
  constructor
  · intro h
    have hbit : ∀ i < 64, (packKey id sender recver timestamp request).getLsbD i =
        (packKey id' sender' recver' timestamp' request').getLsbD i := fun i _ => by rw [h]
    have hlow : ∀ i < 31, timestamp.getLsbD i = timestamp'.getLsbD i := by
      intro i hi
      have := hbit (i + 1) (by omega)
      rw [getLsbD_packKey _ _ _ _ _ (by omega), getLsbD_packKey _ _ _ _ _ (by omega)] at this
      simpa [show i + 1 < 32 by omega] using this
    refine ⟨?_, ?_, ?_⟩
    · have := hbit 0 (by omega)
      rwa [getLsbD_packKey _ _ _ _ _ (by omega), getLsbD_packKey _ _ _ _ _ (by omega)] at this
    · refine BitVec.eq_of_getLsbD_eq fun i hi => ?_
      simp [hi, hlow i hi]
    · rcases Bool.eq_false_or_eq_true (timestamp.getLsbD 30) with hsign | hsign
      · exact .inl hsign
      · have hsign' : timestamp'.getLsbD 30 = false := (hlow 30 (by omega)).symm.trans hsign
        have hhigh : ∀ i < 64, ¬ i < 32 →
            (if i < 40 then recver.getLsbD (i - 32)
              else if i < 48 then sender.getLsbD (i - 40) else id.getLsbD (i - 48)) =
            if i < 40 then recver'.getLsbD (i - 32)
              else if i < 48 then sender'.getLsbD (i - 40) else id'.getLsbD (i - 48) := by
          intro i hi hlt
          have := hbit i hi
          rw [getLsbD_packKey _ _ _ _ _ hi, getLsbD_packKey _ _ _ _ _ hi, hsign, hsign'] at this
          simpa only [show i ≠ 0 by omega, hlt, if_false, Bool.false_or] using this
        refine .inr ⟨?_, ?_, ?_⟩
        · refine BitVec.eq_of_getLsbD_eq fun i hi => ?_
          simpa [show ¬ i + 48 < 40 by omega] using hhigh (i + 48) (by omega) (by omega)
        · refine BitVec.eq_of_getLsbD_eq fun i hi => ?_
          simpa [show i + 40 < 48 by omega] using hhigh (i + 40) (by omega) (by omega)
        · refine BitVec.eq_of_getLsbD_eq fun i hi => ?_
          simpa [show i + 32 < 40 by omega] using hhigh (i + 32) (by omega) (by omega)
  · rintro ⟨rfl, hlow, hids⟩
    have hlow' : ∀ i < 31, timestamp.getLsbD i = timestamp'.getLsbD i := by
      intro i hi
      have := congrArg (fun b : BitVec 31 => b.getLsbD i) hlow
      simpa [hi] using this
    refine BitVec.eq_of_getLsbD_eq fun i hi => ?_
    rw [getLsbD_packKey _ _ _ _ _ hi, getLsbD_packKey _ _ _ _ _ hi, ← hlow' 30 (by omega)]
    by_cases h₀ : i = 0
    · simp [h₀]
    · by_cases h₁ : i < 32
      · simp [h₀, h₁, hlow' (i - 1) (by omega)]
      · rcases hids with hsign | ⟨rfl, rfl, rfl⟩
        · simp only [h₀, h₁, if_false, hsign, Bool.true_or]
        · simp only [h₀, h₁, if_false]

theorem ofInt_eq_ofInt_iff {w : ℕ} {a b : ℤ} :
    BitVec.ofInt w a = BitVec.ofInt w b ↔ a % 2 ^ w = b % 2 ^ w := by
  rw [← BitVec.toNat_inj, BitVec.toNat_ofInt, BitVec.toNat_ofInt]
  have ha := Int.emod_nonneg a (b := ((2 ^ w : ℕ) : ℤ)) (by positivity)
  have hb := Int.emod_nonneg b (b := ((2 ^ w : ℕ) : ℤ)) (by positivity)
  push_cast at ha hb ⊢
  omega

/-- The sign of the shifted timestamp overwrites the ids. -/
def Overflows (timestamp : ℤ) : Prop := 2 ^ 30 ≤ timestamp % 2 ^ 31

theorem getLsbD_ofInt_iff {timestamp : ℤ} :
    (BitVec.ofInt 32 timestamp).getLsbD 30 = true ↔ Overflows timestamp := by
  rw [BitVec.getLsbD, Nat.testBit_eq_decide_div_mod_eq, decide_eq_true_iff, BitVec.toNat_ofInt,
    Overflows]
  push_cast
  omega

theorem setWidth_ofInt_eq_iff {a b : ℤ} :
    (BitVec.ofInt 32 a).setWidth 31 = (BitVec.ofInt 32 b).setWidth 31 ↔
      a % 2 ^ 31 = b % 2 ^ 31 := by
  rw [← BitVec.toNat_inj, BitVec.toNat_setWidth, BitVec.toNat_setWidth, BitVec.toNat_ofInt,
    BitVec.toNat_ofInt]
  push_cast
  omega

/-- The messages get the same key from nodes that take them to come from `a` and from `a'`. -/
def SameKey (a a' : ℤ) (m m' : WireMeta) : Prop :=
  m.request = m'.request ∧ m.timestamp % 2 ^ 31 = m'.timestamp % 2 ^ 31 ∧
    (Overflows m.timestamp ∨ m.appId % 2 ^ 16 = m'.appId % 2 ^ 16 ∧ a % 2 ^ 8 = a' % 2 ^ 8 ∧
      m.recver % 2 ^ 8 = m'.recver % 2 ^ 8)

theorem getKey_eq_iff {a a' : ℤ} {m m' : WireMeta} (hm : m.timestamp ≠ kEmpty)
    (hm' : m'.timestamp ≠ kEmpty) :
    getKey a m = getKey a' m' ↔
      SameKey (if m.sender = kEmpty then a else m.sender)
        (if m'.sender = kEmpty then a' else m'.sender) m m' := by
  rw [getKey, getKey, if_neg hm, if_neg hm', Option.some.injEq, UInt64.ofBitVec.injEq,
    packKey_eq_iff, getLsbD_ofInt_iff, setWidth_ofInt_eq_iff, ofInt_eq_ofInt_iff,
    ofInt_eq_ofInt_iff, ofInt_eq_ofInt_iff, SameKey]

end NetStorm

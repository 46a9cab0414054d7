import NetStorm.Library.NearestEven
import Mathlib.Tactic.NormNum

/-!
# Compression parameters as text

The workers send the type and the threshold of the compression to the servers as a text.
`to_string` prints six decimals of the threshold, and `stof` reads the float nearest to what
was printed. An exception has no result.
-/
namespace NetStorm
open NearestEven

/-- The values of a `float`. -/
inductive SingleFloat
  | nan
  | infinity (negative : Bool)
  | finite (negative : Bool) (magnitude : ℚ) (holds : binary32.Holds magnitude)
      (lt : magnitude < 2 ^ 128)

namespace SingleFloat

theorem holds_div {m k : ℕ} (hm : m < 2 ^ 24) (hk : k ≤ 149) : binary32.Holds (m / 2 ^ k) := by
  refine ⟨m, -k, hm, ?_, ?_⟩
  · change (-149 : ℤ) ≤ -k
    omega
  · rw [zpow_neg, zpow_natCast, div_eq_mul_inv]

/-- `m / 2 ^ k`. -/
def dyadic (m k : ℕ) (hm : m < 2 ^ 24) (hk : k ≤ 149) : SingleFloat :=
  .finite false (m / 2 ^ k) (holds_div hm hk) <| by
    have hcast : (m : ℚ) < 2 ^ 24 := by exact_mod_cast hm
    have hone : (1 : ℚ) ≤ 2 ^ k := one_le_pow₀ one_le_two
    calc (m : ℚ) / 2 ^ k ≤ m := div_le_self (Nat.cast_nonneg m) hone
      _ < 2 ^ 24 := hcast
      _ < 2 ^ 128 := by norm_num

/-- `x > 0`. -/
def Positive : SingleFloat → Prop
  | infinity false => True
  | finite false magnitude _ _ => 0 < magnitude
  | _ => False

instance : DecidablePred Positive
  | nan => inferInstanceAs (Decidable False)
  | infinity false => inferInstanceAs (Decidable True)
  | infinity true => inferInstanceAs (Decidable False)
  | finite false magnitude _ _ => inferInstanceAs (Decidable (0 < magnitude))
  | finite true _ _ _ => inferInstanceAs (Decidable False)

/-- The float nearest to `n / 10 ^ decimals`. There is none if that is too large, or too small
to be kept with all bits. -/
def ofDecimal (negative : Bool) (n decimals : ℕ) : Option SingleFloat :=
  if h : binary32.round (n / 10 ^ decimals) < 2 ^ 128 then
    if binary32.round (n / 10 ^ decimals) < 2 ^ (-126 : ℤ) ∧
        binary32.round (n / 10 ^ decimals) ≠ n / 10 ^ decimals then none
    else some (finite negative _ (Format.holds_round (by positivity)) h)
  else none

/-- What `%f` prints, as a number of millionths. -/
def millionths (magnitude : ℚ) : ℕ := (nearest (magnitude * 10 ^ 6)).toNat

/-- The six digits behind the point. -/
def decimals (n : ℕ) : List Char := (Nat.toDigits 10 (n % 10 ^ 6)).leftpad 6 '0'

/-- A number of millionths, printed. -/
def printFixed (n : ℕ) : List Char := Nat.toDigits 10 (n / 10 ^ 6) ++ '.' :: decimals n

/-- The sign in a text. -/
def sign (negative : Bool) : List Char := if negative = true then ['-'] else []

/-- `std::to_string`. -/
def toString : SingleFloat → List Char
  | nan => "nan".toList
  | infinity negative => sign negative ++ "inf".toList
  | finite negative magnitude _ _ => sign negative ++ printFixed (millionths magnitude)

/-- A number without its sign: the digits and how many of them are decimals. -/
def readDecimal (s : List Char) : Option (ℕ × ℕ) :=
  if s.takeWhile Char.isDigit = [] then none
  else match s.dropWhile Char.isDigit with
    | [] => some (Nat.ofDigitChars 10 s 0, 0)
    | '.' :: decimals =>
      if decimals.all Char.isDigit then
        some (Nat.ofDigitChars 10 (s.takeWhile Char.isDigit ++ decimals) 0, decimals.length)
      else none
    | _ => none

/-- `std::stof`, of the texts that `std::to_string` can write. -/
def stof (s : List Char) : Option SingleFloat :=
  let negative := s.head? == some '-'
  let body := if negative then s.tail else s
  if body = "inf".toList then some (infinity negative)
  else if body = "nan".toList then some nan
  else (readDecimal body).bind fun d => ofDecimal negative d.1 d.2

end SingleFloat

/-- `CompressionType`. Every `int` can be cast to it. -/
inductive CompressionType
  | kNone
  | kTwoBit
  | unnamed (value : ℤ)
deriving DecidableEq

/-- The cast to `int`. -/
def CompressionType.toInt : CompressionType → ℤ
  | kNone => 0
  | kTwoBit => 1
  | unnamed value => value

/-- The cast from `int`. -/
def CompressionType.ofInt (value : ℤ) : CompressionType :=
  if value = 0 then kNone else if value = 1 then kTwoBit else unnamed value

/-- `std::to_string` of an `int`. -/
def intToString (value : ℤ) : List Char :=
  SingleFloat.sign (decide (value < 0)) ++ Nat.toDigits 10 value.natAbs

/-- `std::stoi`, of a text without blanks in front. -/
def stoi (s : List Char) : Option ℤ :=
  let negative := s.head? == some '-'
  let digits := (if negative then s.tail else s).takeWhile Char.isDigit
  let magnitude : ℤ := Nat.ofDigitChars 10 digits 0
  let value := if negative then -magnitude else magnitude
  if digits = [] ∨ value < -2 ^ 31 ∨ 2 ^ 31 ≤ value then none else some value

/-- `split`. Nothing follows the last delimiter. -/
def split (s : List Char) (delim : Char) : List (List Char) :=
  if (s.splitOn delim).getLast? = some [] then (s.splitOn delim).dropLast else s.splitOn delim

/-- `GradientCompressionParam`. -/
structure GradientCompressionParam where
  type : String
  threshold : SingleFloat := .dyadic 1 1 (by decide) (by decide)

/-- The parameters of `GradientCompression`. -/
structure GradientCompression where
  type : CompressionType := .kNone
  threshold : SingleFloat := .dyadic 0 0 (by decide) (by decide)

namespace GradientCompression

def setTwoBitCompression (gc : GradientCompression) (threshold : SingleFloat) :
    GradientCompression :=
  { gc with type := .kTwoBit, threshold := threshold }

def setParams (gc : GradientCompression) (params : GradientCompressionParam) :
    Option GradientCompression :=
  if params.threshold.Positive then
    if params.type = "2bit" then some (gc.setTwoBitCompression params.threshold) else none
  else none

def getTypeStr (gc : GradientCompression) : List Char := intToString gc.type.toInt

def encodeParams (gc : GradientCompression) : List Char :=
  if gc.type = .kTwoBit then gc.getTypeStr ++ ',' :: gc.threshold.toString else gc.getTypeStr

def decodeParams (gc : GradientCompression) (s : List Char) : Option GradientCompression :=
  match split s ',' with
  | [] => none
  | typeText :: elems => do
    let type := CompressionType.ofInt (← stoi typeText)
    match elems with
    | [] => some { gc with type := type }
    | [] :: _ => some { gc with type := type }
    | text :: _ => some { gc with type := type, threshold := ← SingleFloat.stof text }

/-- A server that decodes the parameters has the type and the threshold of the worker, and
its threshold is not zero. -/
def ParamsSurvive (gc : GradientCompression) : Prop :=
  ∃ decoded, decodeParams {} gc.encodeParams = some decoded ∧ decoded.type = gc.type ∧
    decoded.threshold = gc.threshold ∧ decoded.threshold.Positive

/-! ### The text -/

end GradientCompression

namespace SingleFloat

theorem isDigit_toDigits {n : ℕ} : ∀ c ∈ Nat.toDigits 10 n, c.isDigit = true :=
  fun _ => Nat.isDigit_of_mem_toDigits (by decide) (by decide)

theorem isDigit_decimals {n : ℕ} : ∀ c ∈ decimals n, c.isDigit = true := by
  intro c hc
  rw [decimals, List.leftpad, List.mem_append] at hc
  rcases hc with hc | hc
  · rw [List.eq_of_mem_replicate hc]
    decide
  · exact isDigit_toDigits c hc

@[simp] theorem length_decimals (n : ℕ) : (decimals n).length = 6 := by
  have hlen := (Nat.length_toDigits_le_iff (b := 10) (k := 6) (by decide) (by decide)).mpr
    (Nat.mod_lt n (by decide))
  rw [decimals, List.length_leftpad]
  omega

theorem ofDigitChars_decimals (n : ℕ) : Nat.ofDigitChars 10 (decimals n) 0 = n % 10 ^ 6 := by
  rw [decimals, List.leftpad, Nat.ofDigitChars_append, Nat.ofDigitChars_replicate_zero, mul_zero,
    Nat.ofDigitChars_ten_toDigits]

/-- What was printed is read. -/
theorem readDecimal_printFixed (n : ℕ) : readDecimal (printFixed n) = some (n, 6) := by
  have htake : (printFixed n).takeWhile Char.isDigit = Nat.toDigits 10 (n / 10 ^ 6) := by
    rw [printFixed, List.takeWhile_append_of_pos isDigit_toDigits]
    simp
  have hdrop : (printFixed n).dropWhile Char.isDigit = '.' :: decimals n := by
    rw [printFixed, List.dropWhile_append_of_pos isDigit_toDigits]
    simp
  have hvalue : Nat.ofDigitChars 10 (Nat.toDigits 10 (n / 10 ^ 6) ++ decimals n) 0 = n := by
    rw [Nat.ofDigitChars_append, Nat.ofDigitChars_ten_toDigits,
      Nat.ofDigitChars_eq_ofDigitChars_zero, length_decimals, ofDigitChars_decimals,
      Nat.div_add_mod]
  rw [readDecimal, htake, hdrop, if_neg Nat.toDigits_ne_nil]
  simp only [List.all_eq_true.mpr isDigit_decimals, if_true, hvalue, length_decimals]

/-- A printed number starts with a digit. -/
theorem printFixed_eq_cons (n : ℕ) : ∃ c s, printFixed n = c :: s ∧ c.isDigit = true := by
  obtain ⟨c, s, hcons⟩ := List.exists_cons_of_ne_nil (Nat.toDigits_ne_nil (n := n / 10 ^ 6)
    (b := 10))
  refine ⟨c, s ++ '.' :: decimals n, by rw [printFixed, hcons]; rfl, ?_⟩
  exact isDigit_toDigits c (hcons ▸ List.mem_cons_self)

theorem stof_printFixed (n : ℕ) : stof (printFixed n) = ofDecimal false n 6 := by
  obtain ⟨c, s, hcons, hdigit⟩ := printFixed_eq_cons n
  have hsign : ((printFixed n).head? == some '-') = false := by
    rw [hcons, List.head?_cons, beq_eq_false_iff_ne]
    rintro ⟨⟩
    exact absurd hdigit (by decide)
  have hinf : printFixed n ≠ "inf".toList := by
    rw [hcons]
    rintro ⟨⟩
    exact absurd hdigit (by decide)
  have hnan : printFixed n ≠ "nan".toList := by
    rw [hcons]
    rintro ⟨⟩
    exact absurd hdigit (by decide)
  simp only [stof, hsign, Bool.false_eq_true, if_false, if_neg hinf, if_neg hnan,
    readDecimal_printFixed, Option.bind_some]

/-- No delimiter is printed. -/
theorem ne_comma_of_mem_printFixed {n : ℕ} : ∀ c ∈ printFixed n, (c == ',') = false := by
  intro c hc
  rw [printFixed, List.mem_append, List.mem_cons] at hc
  have hcomma : c.isDigit = true → (c == ',') = false := by
    rw [beq_eq_false_iff_ne]
    rintro hdigit rfl
    exact absurd hdigit (by decide)
  rcases hc with hc | rfl | hc
  · exact hcomma (isDigit_toDigits c hc)
  · decide
  · exact hcomma (isDigit_decimals c hc)

end SingleFloat

namespace GradientCompression

/-- The two texts of `encodeParams` are found again. -/
theorem split_encoded {text : List Char} (hne : text ≠ [])
    (hcomma : ∀ c ∈ text, (c == ',') = false) : split ('1' :: ',' :: text) ',' = [['1'], text] := by
  have hsplit : ('1' :: ',' :: text).splitOn ',' = [['1'], text] := by
    have hone : ∀ c ∈ ['1'], (c == ',') = false := by simp
    have h := List.splitOnP_append_cons_of_forall_mem hone ',' rfl text
    rw [List.splitOnP_eq_singleton hcomma] at h
    exact h
  have hlast : ([['1'], text] : List (List Char)).getLast? = some text := rfl
  rw [split, hsplit, hlast, if_neg (by simpa using hne)]

theorem decodeParams_encoded (gc : GradientCompression) {text : List Char} (hne : text ≠ [])
    (hcomma : ∀ c ∈ text, (c == ',') = false) :
    gc.decodeParams ('1' :: ',' :: text) = (SingleFloat.stof text).map
      fun threshold => { type := .kTwoBit, threshold := threshold } := by
  have htype : stoi ['1'] = some 1 := by decide
  obtain ⟨c, s, rfl⟩ := List.exists_cons_of_ne_nil hne
  rw [decodeParams, split_encoded hne hcomma]
  simp only [htype]
  cases SingleFloat.stof (c :: s) <;> rfl

end GradientCompression

/-! ### The threshold -/

namespace SingleFloat

theorem cast_millionths {v : ℚ} (hv : 0 ≤ v) : (millionths v : ℤ) = nearest (v * 10 ^ 6) := by
  have hnonneg := nearest_mono (show ((0 : ℤ) : ℚ) ≤ v * 10 ^ 6 by
    rw [Int.cast_zero]
    positivity)
  rw [nearest_intCast] at hnonneg
  exact Int.toNat_of_nonneg hnonneg

/-- What is printed is off by half a millionth at most. -/
theorem millionths_bounds {v : ℚ} (hv : 0 ≤ v) :
    v - 1 / (2 * 10 ^ 6) ≤ millionths v / 10 ^ 6 ∧
      (millionths v : ℚ) / 10 ^ 6 ≤ v + 1 / (2 * 10 ^ 6) := by
  have hcast : (millionths v : ℚ) = nearest (v * 10 ^ 6) := by exact_mod_cast cast_millionths hv
  obtain ⟨hlo, hhi⟩ := nearest_bounds (v * 10 ^ 6)
  rw [hcast]
  constructor <;> linarith

/-- A natural number below is below what is printed. -/
theorem le_millionths_div {v : ℚ} {n : ℕ} (h : (n : ℚ) ≤ v) : (n : ℚ) ≤ millionths v / 10 ^ 6 := by
  have hmono := nearest_mono (show ((n * 10 ^ 6 : ℕ) : ℤ) ≤ v * 10 ^ 6 by
    push_cast
    linarith)
  rw [nearest_intCast, ← cast_millionths ((Nat.cast_nonneg n).trans h)] at hmono
  have hcast : (n : ℚ) * 10 ^ 6 ≤ millionths v := by exact_mod_cast hmono
  linarith

/-- From sixteen on the last bit of a float stands for at least `2 ^ -19`. -/
theorem exponent_of_le {v : ℚ} (hle : 16 ≤ v) :
    ∃ e : ℕ, binary32.exponent v = e - 19 ∧ ((2 ^ (4 + e) : ℕ) : ℚ) ≤ v := by
  have hpos : 0 < v := by linarith
  have hlog : 4 ≤ Int.log 2 v :=
    (Int.zpow_le_iff_le_log (b := 2) one_lt_two hpos).mp (by norm_num; exact hle)
  obtain ⟨e, he⟩ : ∃ e : ℕ, Int.log 2 v = 4 + e := ⟨(Int.log 2 v - 4).toNat, by omega⟩
  refine ⟨e, ?_, ?_⟩
  · change max (Int.log 2 v + 1 - 24) (-149) = (e : ℤ) - 19
    omega
  · have hself := Int.zpow_log_le_self (b := 2) one_lt_two hpos
    rw [he] at hself
    exact_mod_cast hself

/-- A float, by its digits and the place of the last one. -/
theorem exists_digits {v : ℚ} (hv : binary32.Holds v) {E : ℤ} (hE : binary32.exponent v = E) :
    ∃ M : ℤ, M < 2 ^ binary32.precision ∧ v = M * 2 ^ E := by
  have hM : v = nearest (v / 2 ^ E) * 2 ^ E := by
    rw [← hE]
    exact (Format.round_eq_self hv).symm
  have hlt := Format.lt_two_zpow (F := binary32) (x := v)
  rw [hE, zpow_add₀ two_ne_zero, mul_comm, zpow_natCast] at hlt
  refine ⟨_, ?_, hM⟩
  rw [hM] at hlt
  exact_mod_cast lt_of_mul_lt_mul_right hlt (Format.two_zpow_pos E).le

/-- Six decimals show all bits of a float from sixteen on. -/
theorem round_millionths_of_le {v : ℚ} (hv : binary32.Holds v) (hle : 16 ≤ v) :
    binary32.round (millionths v / 10 ^ 6) = v := by
  obtain ⟨e, hexp, hself⟩ := exponent_of_le hle
  obtain ⟨M, hM, hdigits⟩ := exists_digits hv hexp
  have hlo : (2 : ℚ) ^ ((e : ℤ) - 19 + binary32.precision - 1) ≤ millionths v / 10 ^ 6 := by
    have hexponent : (e : ℤ) - 19 + binary32.precision - 1 = ((4 + e : ℕ) : ℤ) := by
      change (e : ℤ) - 19 + 24 - 1 = _
      push_cast
      ring
    have hle := le_millionths_div hself
    rw [hexponent, zpow_natCast]
    exact_mod_cast hle
  have hmin : binary32.minExponent ≤ (e : ℤ) - 19 := by
    change (-149 : ℤ) ≤ e - 19
    omega
  have hhalf : (2 : ℚ) ^ (-19 : ℤ) ≤ 2 ^ ((e : ℤ) - 19) :=
    zpow_le_zpow_right₀ one_le_two (by omega)
  have hnear : |(millionths v : ℚ) / 10 ^ 6 - M * 2 ^ ((e : ℤ) - 19)| < 2 ^ ((e : ℤ) - 19) / 2 := by
    obtain ⟨h₁, h₂⟩ := millionths_bounds (show 0 ≤ v by linarith)
    norm_num at hhalf
    rw [← hdigits, abs_lt]
    constructor <;> linarith
  rw [Format.round_eq_of_near hmin hM hlo hnear, hdigits]

/-- Below sixteen a float is as near to its number of millionths as to no other. -/
theorem millionths_eq_of_lt {v : ℚ} {k : ℕ} (hv : binary32.round (k / 10 ^ 6) = v)
    (hlt : v < 16) : millionths v = k := by
  have hk : (k : ℚ) / 10 ^ 6 < 16 := by
    by_contra hge
    have hself : binary32.round 16 = 16 :=
      Format.round_eq_self ⟨1, 4, by decide, by decide, by norm_num⟩
    have hmono := Format.round_mono (F := binary32) (by norm_num) (not_lt.mp hge)
    rw [hself, hv] at hmono
    linarith
  have hnonneg : (0 : ℚ) ≤ k / 10 ^ 6 := by positivity
  rcases hnonneg.eq_or_lt with hzero | hpos
  · have hk0 : (k : ℚ) = 0 := by linarith
    rw [← hzero, Format.round_zero] at hv
    have hk : k = 0 := by exact_mod_cast hk0
    rw [← hv, hk]
    simp [millionths, nearest]
  · have hlog : Int.log 2 ((k : ℚ) / 10 ^ 6) < 4 :=
      (Int.lt_zpow_iff_log_lt (b := 2) one_lt_two hpos).mp (by norm_num at hk ⊢; exact hk)
    have hexp : binary32.exponent ((k : ℚ) / 10 ^ 6) ≤ -20 := by
      change max (Int.log 2 ((k : ℚ) / 10 ^ 6) + 1 - 24) (-149) ≤ -20
      omega
    have hunit : (2 : ℚ) ^ binary32.exponent ((k : ℚ) / 10 ^ 6) ≤ 1 / 2 ^ 20 := by
      have h : (2 : ℚ) ^ binary32.exponent ((k : ℚ) / 10 ^ 6) ≤ 2 ^ (-20 : ℤ) :=
        zpow_le_zpow_right₀ one_le_two hexp
      norm_num at h ⊢
      exact h
    obtain ⟨h₁, h₂⟩ := Format.round_sub_le (F := binary32) ((k : ℚ) / 10 ^ 6)
    rw [hv] at h₁ h₂
    norm_num at hunit
    rw [millionths, nearest_eq_of_lt (n := k) (by push_cast; linarith) (by push_cast; linarith)]
    rfl

/-- Which floats are found again behind six decimals. -/
theorem round_millionths_iff {v : ℚ} (hv : binary32.Holds v) :
    binary32.round (millionths v / 10 ^ 6) = v ↔ ∃ k : ℕ, binary32.round (k / 10 ^ 6) = v := by
  constructor
  · intro h
    exact ⟨_, h⟩
  · rintro ⟨k, hk⟩
    rcases lt_or_ge v 16 with hlt | hge
    · rw [millionths_eq_of_lt hk hlt, hk]
    · exact round_millionths_of_le hv hge

/-- What is printed is never too small. -/
theorem ofDecimal_eq_some_iff {n : ℕ} {v : ℚ} (hv : binary32.Holds v) (hlt : v < 2 ^ 128)
    (hpos : 0 < v) :
    ofDecimal false n 6 = some (finite false v hv hlt) ↔ binary32.round (n / 10 ^ 6) = v := by
  constructor
  · intro h
    rw [ofDecimal] at h
    split_ifs at h with h₁ h₂
    simpa using h
  · rintro rfl
    have hn : 1 ≤ n := by
      rcases Nat.eq_zero_or_pos n with rfl | hn
      · rw [Nat.cast_zero, zero_div, Format.round_zero] at hpos
        exact absurd hpos (lt_irrefl _)
      · exact hn
    have hsmall : (2 : ℚ) ^ (-126 : ℤ) ≤ binary32.round (n / 10 ^ 6) := by
      have hself : binary32.round (2 ^ (-126 : ℤ)) = 2 ^ (-126 : ℤ) :=
        Format.round_eq_self ⟨1, -126, by decide, by decide, by norm_num⟩
      have hle : (2 : ℚ) ^ (-126 : ℤ) ≤ n / 10 ^ 6 := by
        have hcast : (1 : ℚ) ≤ n := by exact_mod_cast hn
        norm_num
        linarith
      rw [← hself]
      exact Format.round_mono (by positivity) hle
    rw [ofDecimal, dif_pos hlt, if_neg (fun h => absurd h.1 (not_lt.mpr hsmall))]

end SingleFloat

namespace GradientCompression

theorem setParams_cases {prior gc : GradientCompression} {params : GradientCompressionParam}
    (h : prior.setParams params = some gc) :
    params.threshold.Positive ∧ gc = { type := .kTwoBit, threshold := params.threshold } := by
  rw [setParams] at h
  split_ifs at h with hpos htype
  exact ⟨hpos, (Option.some.inj h).symm⟩

theorem encodeParams_kTwoBit (threshold : SingleFloat) :
    encodeParams { type := .kTwoBit, threshold := threshold } =
      '1' :: ',' :: threshold.toString := by
  have htype : intToString 1 = ['1'] := by decide
  simp [encodeParams, getTypeStr, CompressionType.toInt, htype]

/-- The threshold is sent as infinite, or as a number of millionths. -/
theorem decodeParams_finite {magnitude : ℚ} (holds : binary32.Holds magnitude)
    (lt : magnitude < 2 ^ 128) :
    decodeParams {} (encodeParams ⟨.kTwoBit, .finite false magnitude holds lt⟩) =
      (SingleFloat.ofDecimal false (SingleFloat.millionths magnitude) 6).map
        fun threshold => { type := .kTwoBit, threshold := threshold } := by
  obtain ⟨c, s, hcons, -⟩ := SingleFloat.printFixed_eq_cons (SingleFloat.millionths magnitude)
  rw [encodeParams_kTwoBit]
  change decodeParams {} ('1' :: ',' :: SingleFloat.printFixed _) = _
  rw [decodeParams_encoded _ (by rw [hcons]; exact List.cons_ne_nil c s)
    SingleFloat.ne_comma_of_mem_printFixed, SingleFloat.stof_printFixed]

theorem paramsSurvive_infinity : ParamsSurvive ⟨.kTwoBit, .infinity false⟩ := by
  refine ⟨⟨.kTwoBit, .infinity false⟩, ?_, rfl, rfl, trivial⟩
  rw [encodeParams_kTwoBit]
  change decodeParams {} ('1' :: ',' :: ['i', 'n', 'f']) = _
  rw [decodeParams_encoded _ (List.cons_ne_nil _ _) (by simp)]
  rfl

theorem paramsSurvive_finite_iff {magnitude : ℚ} {holds : binary32.Holds magnitude}
    {lt : magnitude < 2 ^ 128} (hpos : 0 < magnitude) :
    ParamsSurvive ⟨.kTwoBit, .finite false magnitude holds lt⟩ ↔
      ∃ k : ℕ, SingleFloat.ofDecimal false k 6 = some (.finite false magnitude holds lt) := by
  have hiff : ParamsSurvive ⟨.kTwoBit, .finite false magnitude holds lt⟩ ↔
      SingleFloat.ofDecimal false (SingleFloat.millionths magnitude) 6 =
        some (.finite false magnitude holds lt) := by
    rw [ParamsSurvive, decodeParams_finite]
    constructor
    · rintro ⟨decoded, hdecoded, -, hthreshold, -⟩
      obtain ⟨threshold, hsome, rfl⟩ := Option.map_eq_some_iff.mp hdecoded
      rw [hsome]
      exact congrArg some hthreshold
    · intro hsome
      rw [hsome]
      exact ⟨_, rfl, rfl, rfl, hpos⟩
  rw [hiff, SingleFloat.ofDecimal_eq_some_iff holds lt hpos,
    SingleFloat.round_millionths_iff holds]
  simp only [SingleFloat.ofDecimal_eq_some_iff holds lt hpos]

/-- The threshold survives the command if it is infinite, or the float nearest to a number of
millionths, and in no other case. -/
theorem paramsSurvive_iff (prior gc : GradientCompression) (params : GradientCompressionParam)
    (hset : prior.setParams params = some gc) :
    ParamsSurvive gc ↔ params.threshold = .infinity false ∨
      ∃ k : ℕ, SingleFloat.ofDecimal false k 6 = some params.threshold := by
  obtain ⟨hpos, rfl⟩ := setParams_cases hset
  obtain ⟨type, threshold⟩ := params
  cases threshold with
  | nan => exact hpos.elim
  | infinity negative =>
    cases negative with
    | false => simp [paramsSurvive_infinity]
    | true => exact hpos.elim
  | finite negative magnitude holds lt =>
    cases negative with
    | false => simp [paramsSurvive_finite_iff hpos]
    | true => exact hpos.elim

theorem paramsSurvive_iff_micro :
    ParamsSurvive ⟨.kTwoBit, .dyadic 8796093 43 (by decide) (by decide)⟩ := by
  have hround : binary32.round ((1 : ℕ) / 10 ^ 6) = (8796093 : ℕ) / 2 ^ 43 := by
    have h := Format.round_eq_of_near (F := binary32) (y := 1 / 10 ^ 6) (M := 8796093) (E := -43)
      (by decide) (by decide) (by change (2 : ℚ) ^ ((-43 : ℤ) + 24 - 1) ≤ _; norm_num)
      (by rw [abs_lt]; constructor <;> norm_num)
    rw [Nat.cast_one, h]
    norm_num
  have hpos : (0 : ℚ) < (8796093 : ℕ) / 2 ^ 43 := by norm_num
  have hset : setParams {} ⟨"2bit", .dyadic 8796093 43 (by decide) (by decide)⟩ =
      some ⟨.kTwoBit, .dyadic 8796093 43 (by decide) (by decide)⟩ := if_pos hpos
  exact (paramsSurvive_iff _ _ _ hset).mpr
    (Or.inr ⟨1, (SingleFloat.ofDecimal_eq_some_iff _ _ hpos).mpr hround⟩)

/-- Of a tenth of a millionth only zeros are printed. -/
theorem not_paramsSurvive_tenth :
    ∃ gc, setParams {} ⟨"2bit", .dyadic 14073749 47 (by decide) (by decide)⟩ = some gc ∧
      decodeParams {} gc.encodeParams =
        some ⟨.kTwoBit, .dyadic 0 0 (by decide) (by decide)⟩ ∧
      ¬ ParamsSurvive gc := by
  have hpos : (0 : ℚ) < (14073749 : ℕ) / 2 ^ 47 := by norm_num
  have hprint : SingleFloat.millionths ((14073749 : ℕ) / 2 ^ 47) = 0 := by
    rw [SingleFloat.millionths, nearest_eq_of_lt (n := 0) (by norm_num) (by norm_num)]
    rfl
  have hread : SingleFloat.ofDecimal false 0 6 = some (.dyadic 0 0 (by decide) (by decide)) := by
    simp [SingleFloat.ofDecimal, SingleFloat.dyadic, Format.round_zero]
  have hholds := SingleFloat.holds_div (m := 14073749) (k := 47) (by norm_num) (by norm_num)
  have hdecoded := decodeParams_finite hholds (by norm_num)
  rw [hprint, hread] at hdecoded
  refine ⟨_, if_pos hpos, hdecoded, ?_⟩
  rintro ⟨decoded, hsome, -, -, hthreshold⟩
  obtain rfl := Option.some.inj (hdecoded.symm.trans hsome)
  have hzero : ¬ (0 : ℚ) < (0 : ℕ) / 2 ^ 0 := by norm_num
  exact hzero hthreshold

end GradientCompression

end NetStorm

import NetStorm.Library.RoundTrip
import Mathlib.Data.Int.Notation
import Mathlib.Data.List.Forall2

/-!
# Writing and reading JSON

`JSONWriter` and `JSONReader` of dmlc, with their scopes: an array or an object that is written item
by item is read item by item. A text is a list of characters. A throw of `dmlc::Error` is an error
with the text of its message.
-/
namespace NetStorm
namespace Json
open RoundTrip

/-- `isspace`, in the C locale. -/
def isspace (c : Char) : Bool :=
  c = ' ' || c = '\t' || c = '\n' || c = '\x0b' || c = '\x0c' || c = '\r'

/-! ## The reader -/

structure JSONReader where
  is : List Char
  lineCountR : ℕ := 0
  lineCountN : ℕ := 0
  scopeCounter : List ℕ := []

abbrev Reader := StateT JSONReader (Except String)

instance : Source JSONReader Char (List ℕ) := ⟨JSONReader.is, JSONReader.scopeCounter⟩

/-- `NextChar`. The end of the text is `none`. -/
def nextChar : Reader (Option Char) := fun s => .ok (s.is.head?, { s with is := s.is.tail })

/-- `PeekNextChar`. -/
def peekNextChar : Reader (Option Char) := fun s => .ok (s.is.head?, s)

/-- The counters of lines, behind one character. -/
def JSONReader.countLine (s : JSONReader) (c : Char) : JSONReader :=
  { s with
    lineCountN := if c = '\n' then s.lineCountN + 1 else s.lineCountN
    lineCountR := if c = '\r' then s.lineCountR + 1 else s.lineCountR }

/-- The spaces at the front of the text, in the loops of `NextNonSpace` and `PeekNextNonSpace`. -/
def JSONReader.skipSpace (s : JSONReader) : List Char → JSONReader
  | [] => { s with is := [] }
  | c :: is => if isspace c then (s.countLine c).skipSpace is else { s with is := c :: is }

/-- `NextNonSpace`. -/
def nextNonSpace : Reader (Option Char) := do
  modify fun s => s.skipSpace s.is
  nextChar

/-- `PeekNextNonSpace`. -/
def peekNextNonSpace : Reader (Option Char) := do
  modify fun s => s.skipSpace s.is
  peekNextChar

/-- `line_info`, with at most 63 characters of the line. -/
def lineInfo (s : JSONReader) : String :=
  " Line " ++ toString (max s.lineCountR s.lineCountN) ++ ", around ^`" ++
    String.ofList ((s.is.takeWhile (· ≠ '\n')).take 63) ++ "`"

/-- `static_cast<char>(ch)`, where `EOF` is -1. -/
def charText (ch : Option Char) : String := String.singleton (ch.getD '\xff')

/-- `CHECK`. -/
def check (condition : Bool) (message : JSONReader → String) : Reader Unit :=
  fun s => if condition then .ok ((), s) else .error (message s)

/-- `NextNonSpace` and the check that it is `c`. -/
def expect (c : Char) (expected : String) : Reader Unit := do
  let ch ← nextNonSpace
  check (ch = some c) fun s =>
    "Error at" ++ lineInfo s ++ ", Expect '" ++ expected ++ "' but get '" ++ charText ch ++ "'"

/-- The escapes of `ReadString`. -/
def unescape (sch : Char) : Option Char :=
  if sch = 'r' then some '\r'
  else if sch = 'n' then some '\n'
  else if sch = '\\' then some '\\'
  else if sch = 't' then some '\t'
  else if sch = '"' then some '"'
  else none

/-- The loop of `ReadString`: what it gives out and what it leaves. -/
def readChars (s : JSONReader) : List Char → Except String (List Char × List Char)
  | [] => .error ("Error at" ++ lineInfo { s with is := [] } ++
      ", Expect '\"' but reach end of line ")
  | ch :: is =>
    if ch = '\\' then
      match is with
      | [] => .error ("unknown string escape \\" ++ charText none)
      | sch :: is =>
        match unescape sch with
        | none => .error ("unknown string escape \\" ++ charText (some sch))
        | some c => (readChars s is).map fun p => (c :: p.1, p.2)
    else if ch = '"' then .ok ([], is)
    else if ch = '\r' || ch = '\n' then
      .error ("Error at" ++ lineInfo { s with is := is } ++ ", Expect '\"' but reach end of line ")
    else (readChars s is).map fun p => (ch :: p.1, p.2)

/-- The part of `ReadString` behind the opening quote. -/
def readQuoted : Reader String := fun s =>
  (readChars s s.is).map fun p => (String.ofList p.1, { s with is := p.2 })

/-- `ReadString`. -/
def readString : Reader String := do
  expect '"' "\""
  readQuoted

/-- `ReadNumber`. `value` is the number of the type for a sign and digits, if there is one. -/
def readNumber {α : Type} (value : Bool → ℕ → Option α) : Reader α := fun s =>
  let is := s.is.dropWhile isspace
  let negative := is.head? = some '-'
  let is := if negative || is.head? = some '+' then is.tail else is
  let digits := is.takeWhile Char.isDigit
  let fail := .error ("Error at" ++ lineInfo { s with is := is.dropWhile Char.isDigit } ++
    ", Expect number")
  if digits = [] then fail
  else match value negative (Nat.ofDigitChars 10 digits 0) with
    | none => fail
    | some v => .ok (v, { s with is := is.dropWhile Char.isDigit })

/-- `BeginObject` and `BeginArray`, which name the same bracket in their message. -/
def beginScope (bracket : Char) : Reader Unit := do
  expect bracket "\x7b"
  modify fun s => { s with scopeCounter := 0 :: s.scopeCounter }

def beginObject : Reader Unit := beginScope '{'
def beginArray : Reader Unit := beginScope '['

/-- Whether there is a next item, in `NextObjectItem` and `NextArrayItem`. -/
def isNext (bracket : Char) (message : String → String) (count : ℕ) : Reader Bool := do
  if count ≠ 0 then
    let ch ← nextNonSpace
    if ch = none then return false
    else if ch = some bracket then return false
    else
      check (ch = some ',') fun s => "Error at" ++ lineInfo s ++ message (charText ch)
      return true
  else
    let ch ← peekNextNonSpace
    if ch = some bracket then
      let _ ← nextChar
      return false
    else return true

/-- The step to the next item, with the counter of the scope. -/
def nextItem (bracket : Char) (message : String → String) : Reader Bool := do
  match (← get).scopeCounter with
  | [] => throw "scope_counter_.back() of an empty vector"
  | count :: scopes =>
    let next ← isNext bracket message count
    modify fun s => { s with scopeCounter := if next then (count + 1) :: scopes else scopes }
    return next

/-- `NextArrayItem`. -/
def nextArrayItem : Reader Bool :=
  nextItem ']' fun ch => ", JSON array expect ']' or ','. Get '" ++ ch ++ "' instead"

/-- The key of the next item. -/
def readKey : Reader String := do
  let key ← readString
  expect ':' ":"
  return key

/-- `NextObjectItem`. -/
def nextObjectItem : Reader (Option String) := do
  if ← nextItem '}' fun ch => ", JSON object expect '\x7d' or ',' '" ++ ch ++ "'" then
    some <$> readKey
  else return none

/-- The body of `while (reader->NextArrayItem())`. -/
def arrayItem {α : Type} (step : α → Reader α) (a : α) : Reader (Option α) := do
  if ← nextArrayItem then some <$> step a else return none

/-- The body of `while (reader->NextObjectItem(&key))`. -/
def objectItem {α : Type} (step : String → α → Reader α) (a : α) : Reader (Option α) := do
  match ← nextObjectItem with
  | none => return none
  | some key => some <$> step key a

/-- The loop over the items of an array or an object. Every pass reads a character. -/
def readItems {α : Type} (item : α → Reader (Option α)) (a : α) : Reader α :=
  perInput fun n => whileSome "more items than characters" item (n + 1) a

/-! ## The writer -/

structure JSONWriter where
  os : List Char := []
  scopeCounter : List ℕ := []
  scopeMultiLine : List Bool := []

abbrev Writer := StateT JSONWriter (Except String)

instance : Sink JSONWriter Char (List ℕ × List Bool) :=
  ⟨JSONWriter.os, fun w => (w.scopeCounter, w.scopeMultiLine)⟩

/-- `Extend`. -/
def extend (item : List Char) : Writer Unit := fun w => .ok ((), { w with os := w.os ++ item })

/-- What `WriteSeperator` writes in these scopes. -/
def seperator : List Bool → List Char
  | [] => ['\n']
  | false :: _ => []
  | true :: multi => '\n' :: List.replicate ((multi.length + 1) * 2) ' '

/-- `WriteSeperator`. -/
def writeSeperator : Writer Unit := do extend (seperator (← get).scopeMultiLine)

/-- The escapes of `WriteString`. -/
def escape (ch : Char) : List Char :=
  if ch = '\r' then ['\\', 'r']
  else if ch = '\n' then ['\\', 'n']
  else if ch = '\\' then ['\\', '\\']
  else if ch = '\t' then ['\\', 't']
  else if ch = '"' then ['\\', '"']
  else [ch]

/-- `WriteString`. -/
def writeString (s : String) : Writer Unit := do
  extend ['"']
  extend (s.toList.flatMap escape)
  extend ['"']

/-- The text of a number of a sign and an absolute value. -/
def numberText (negative : Bool) (n : ℕ) : List Char :=
  (if negative then ['-'] else []) ++ Nat.toDigits 10 n

/-- `WriteNumber`. -/
def writeNumber (z : ℤ) : Writer Unit := extend (numberText (z < 0) z.natAbs)

/-- `BeginObject` and `BeginArray`. -/
def openScope (bracket : Char) (multiLine : Bool) : Writer Unit := do
  extend [bracket]
  modify fun w => { w with
    scopeMultiLine := multiLine :: w.scopeMultiLine, scopeCounter := 0 :: w.scopeCounter }

/-- `EndObject` and `EndArray`. -/
def closeScope (bracket : Char) : Writer Unit := do
  let w ← get
  match w.scopeMultiLine, w.scopeCounter with
  | newline :: multi, nelem :: counter =>
    set { w with scopeMultiLine := multi, scopeCounter := counter }
    if newline && nelem != 0 then writeSeperator
    extend [bracket]
  | [], _ => throw "Check failed: scope_multi_line_.size() != 0"
  | _, [] => throw "Check failed: scope_counter_.size() != 0"

/-- `WriteArraySeperator`. -/
def writeArraySeperator : Writer Unit := do
  match (← get).scopeCounter with
  | [] => throw "scope_counter_.back() of an empty vector"
  | count :: counter =>
    if count ≠ 0 then extend [',', ' ']
    modify fun w => { w with scopeCounter := (count + 1) :: counter }
    writeSeperator

/-- `WriteArrayItem`. -/
def writeArrayItem (value : Writer Unit) : Writer Unit := do
  writeArraySeperator
  value

/-- `WriteObjectKeyValue`. The key is written as it is. -/
def writeObjectKeyValue (key : String) (value : Writer Unit) : Writer Unit := do
  match (← get).scopeCounter with
  | [] => throw "scope_counter_.back() of an empty vector"
  | count :: counter =>
    if count > 0 then extend [',', ' ']
    writeSeperator
    extend ['"']
    extend key.toList
    extend ['"', ':', ' ']
    modify fun w => { w with scopeCounter := (count + 1) :: counter }
    value

/-- `JSONWriter::Write`, which checks that all scopes are closed. -/
def writeChecked (value : Writer Unit) : Writer Unit := do
  let nscope := (← get).scopeMultiLine.length
  value
  if nscope ≠ (← get).scopeMultiLine.length then
    throw "Uneven scope, did you call EndArray/EndObject after each BeginObject/Array?"

/-- An array of these items. -/
def writeArray (multiLine : Bool) (items : List (Writer Unit)) : Writer Unit := do
  openScope '[' multiLine
  items.forM writeArrayItem
  closeScope ']'

/-- An object of these keys and values. -/
def writeObject (multiLine : Bool) (items : List (String × Writer Unit)) : Writer Unit := do
  openScope '{' multiLine
  items.forM fun kv => writeObjectKeyValue kv.1 kv.2
  closeScope '}'

/-! ## What the reader takes -/

/-- A text of spaces. -/
def Spaces (sp : List Char) : Prop := ∀ c ∈ sp, isspace c = true

/-- A text that a number can stand in front of. -/
def EndsNumber (rest : List Char) : Prop := ∀ c ∈ rest.head?, c.isDigit = false

/-- Any text. -/
def Anything (_ : List Char) : Prop := True

section Reading
variable {f : List ℕ} {sp : List Char} {c : Char} {m : String}

theorem skipSpace_spaces (hsp : Spaces sp) {rest : List Char}
    (hrest : ∀ c ∈ rest.head?, isspace c = false) (s : JSONReader) :
    (s.skipSpace (sp ++ rest)).is = rest ∧
      (s.skipSpace (sp ++ rest)).scopeCounter = s.scopeCounter := by
  induction sp generalizing s with
  | nil =>
    cases rest with
    | nil => simp [JSONReader.skipSpace]
    | cons c is =>
      have hc : isspace c = false := hrest c rfl
      simp [JSONReader.skipSpace, hc]
  | cons c sp ih =>
    have hc : isspace c = true := hsp c List.mem_cons_self
    rw [List.cons_append, JSONReader.skipSpace, if_pos hc]
    exact ih (fun d hd => hsp d (List.mem_cons_of_mem _ hd)) (s.countLine c)

theorem reads_nextNonSpace (hsp : Spaces sp) (hc : isspace c = false) :
    Reads nextNonSpace f f (sp ++ [c]) Anything (some c) := by
  intro s rest hs hf _
  have hs : s.is = sp ++ ([c] ++ rest) := by rw [← List.append_assoc]; exact hs
  have hhead : ∀ d ∈ ([c] ++ rest).head?, isspace d = false := by simpa using hc
  obtain ⟨his, hscope⟩ := skipSpace_spaces hsp hhead s
  rw [← hs] at his hscope
  refine ⟨{ s.skipSpace s.is with is := rest }, ?_, rfl, hscope.trans hf⟩
  calc nextNonSpace s = nextChar (s.skipSpace s.is) := rfl
    _ = .ok (some c, { s.skipSpace s.is with is := rest }) := by rw [nextChar, his]; rfl

/-- `PeekNextNonSpace` takes the spaces only. -/
theorem reads_peekNextNonSpace (hsp : Spaces sp) {c : Char} (hc : isspace c = false) :
    Reads peekNextNonSpace f f sp (fun rest => rest.head? = some c) (some c) := by
  intro s rest hs hf hrest
  have hhead : ∀ d ∈ rest.head?, isspace d = false := by simpa [hrest] using hc
  obtain ⟨his, hscope⟩ := skipSpace_spaces hsp hhead s
  have hs : s.is = sp ++ rest := hs
  rw [← hs] at his hscope
  refine ⟨s.skipSpace s.is, ?_, his, hscope.trans hf⟩
  calc peekNextNonSpace s = peekNextChar (s.skipSpace s.is) := rfl
    _ = .ok (some c, s.skipSpace s.is) := by rw [peekNextChar, his, hrest]

theorem reads_check {condition : Bool} (h : condition = true) {message : JSONReader → String} :
    Reads (check condition message) f f [] Anything () := by
  intro s rest hs hf _
  exact ⟨s, by rw [check, if_pos h], hs, hf⟩

theorem reads_expect (hsp : Spaces sp) (hc : isspace c = false) :
    Reads (expect c m) f f (sp ++ [c]) Anything () := by
  have hread := (reads_nextNonSpace (f := f) hsp hc).bind (k := fun ch => check (ch = some c)
    fun s => "Error at" ++ lineInfo s ++ ", Expect '" ++ m ++ "' but get '" ++ charText ch ++ "'")
    (reads_check (by simp)) fun _ _ => trivial
  rwa [List.append_nil] at hread

theorem reads_beginScope (hsp : Spaces sp) (hc : isspace c = false) :
    Reads (beginScope c) f (0 :: f) (sp ++ [c]) Anything () := by
  intro s rest hs hf hrest
  obtain ⟨s', hs', his, hscope⟩ := reads_expect hsp hc s rest hs hf hrest
  refine ⟨{ s' with scopeCounter := 0 :: s'.scopeCounter }, ?_, his, ?_⟩
  · calc beginScope c s =
        (expect c "\x7b" s >>= fun p => .ok ((), { p.2 with scopeCounter := 0 :: p.2.scopeCounter })) :=
          rfl
      _ = .ok ((), { s' with scopeCounter := 0 :: s'.scopeCounter }) := by rw [hs']; rfl
  · exact congrArg (List.cons 0) hscope

/-- A text of a value: it starts with no space, and with none of the closing brackets. -/
def IsValue (text : List Char) : Prop :=
  ∃ c l, text = c :: l ∧ isspace c = false ∧ c ≠ ']' ∧ c ≠ '}'

section Items
variable {bracket : Char} {message : String → String} {count : ℕ} {t : List Char}
  {F : List Char → Prop} {next : Bool}

theorem reads_nextItem (h : Reads (isNext bracket message count) (count :: f) (count :: f) t F next) :
    Reads (nextItem bracket message) (count :: f)
      (if next then (count + 1) :: f else f) t F next := by
  intro s rest hs hf hrest
  obtain ⟨s', hs', his, -⟩ := h s rest hs hf hrest
  refine ⟨{ s' with scopeCounter := if next then (count + 1) :: f else f }, ?_, his, rfl⟩
  have hf : s.scopeCounter = count :: f := hf
  simp [nextItem, hf, hs']

theorem reads_isNext_first {c : Char} (hsp : Spaces sp) (hc : isspace c = false)
    (hbracket : c ≠ bracket) : Reads (isNext bracket message 0) f f sp
      (fun rest => rest.head? = some c) true := by
  have hread := (reads_peekNextNonSpace (f := f) hsp hc).bind (G := fun rest => rest.head? = some c)
    (k := fun ch => if ch = some bracket then do let _ ← nextChar; return false else return true)
    (b := true) (u := []) (by simpa [hbracket] using Reads.pure) fun rest hrest => hrest
  rwa [List.append_nil] at hread

theorem reads_isNext_next (hsp : Spaces sp) (hbracket : bracket ≠ ',') :
    Reads (isNext bracket message (count + 1)) f f (sp ++ [',']) Anything true := by
  rw [← List.append_nil (sp ++ [','])]
  apply (reads_nextNonSpace hsp (c := ',') rfl).bind ?_ fun _ _ => trivial
  rw [if_neg (by simp), if_neg (by simpa using hbracket.symm)]
  exact (reads_check (by simp)).bind Reads.pure fun _ _ => trivial

theorem reads_isNext_last (hsp : Spaces sp) (hbracket : isspace bracket = false) :
    Reads (isNext bracket message count) f f (sp ++ [bracket]) Anything false := by
  cases count with
  | succ count =>
    rw [← List.append_nil (sp ++ [bracket])]
    apply (reads_nextNonSpace hsp hbracket).bind ?_ fun _ _ => trivial
    rw [if_neg (by simp), if_pos rfl]
    exact Reads.pure
  | zero =>
    apply (reads_peekNextNonSpace hsp hbracket).bind ?_ fun _ _ => rfl
    rw [if_pos rfl]
    intro s rest hs hf _
    have hs : s.is = bracket :: rest := hs
    exact ⟨{ s with is := s.is.tail }, rfl, by rw [hs]; rfl, hf⟩

end Items

section Strings

/-- A character that `ReadString` takes as it is. -/
def Plain (c : Char) : Prop := c ≠ '"' ∧ c ≠ '\\' ∧ c ≠ '\r' ∧ c ≠ '\n'

/-- A key that is read as it is written. -/
def CleanKey (key : String) : Prop := ∀ c ∈ key.toList, Plain c

theorem readChars_quote (s : JSONReader) (rest : List Char) :
    readChars s ('"' :: rest) = .ok ([], rest) := by
  rw [readChars.eq_def]
  simp

theorem readChars_plain (s : JSONReader) {c : Char} (hc : Plain c) {is l rest : List Char}
    (h : readChars s is = .ok (l, rest)) : readChars s (c :: is) = .ok (c :: l, rest) := by
  obtain ⟨hquote, hback, hr, hn⟩ := hc
  rw [readChars.eq_def]
  simp [hquote, hback, hr, hn, h, Except.map]

theorem readChars_escape (s : JSONReader) (l rest : List Char) :
    readChars s (l.flatMap escape ++ '"' :: rest) = .ok (l, rest) := by
  induction l with
  | nil => exact readChars_quote s rest
  | cons c l ih =>
    rw [List.flatMap_cons, List.append_assoc, escape]
    split_ifs with hr hn hback ht hquote
    · simp [readChars, unescape, ih, Except.map, hr]
    · simp [readChars, unescape, ih, Except.map, hn]
    · simp [readChars, unescape, ih, Except.map, hback]
    · simp [readChars, unescape, ih, Except.map, ht]
    · simp [readChars, unescape, ih, Except.map, hquote]
    · exact readChars_plain s ⟨hquote, hback, hr, hn⟩ ih

theorem readChars_clean (s : JSONReader) {l : List Char} (hl : ∀ c ∈ l, Plain c)
    (rest : List Char) : readChars s (l ++ '"' :: rest) = .ok (l, rest) := by
  induction l with
  | nil => exact readChars_quote s rest
  | cons c l ih =>
    apply readChars_plain s (hl c List.mem_cons_self)
    exact ih fun d hd => hl d (List.mem_cons_of_mem _ hd)

/-- A quoted text that gives out a string. -/
theorem reads_readString (hsp : Spaces sp) {text : List Char} {value : String}
    (h : ∀ s rest, readChars s (text ++ '"' :: rest) = .ok (value.toList, rest)) :
    Reads readString f f (sp ++ '"' :: (text ++ ['"'])) Anything value := by
  have hquoted : Reads readQuoted f f (text ++ ['"']) Anything value := by
    intro s rest hs hf _
    have hs : s.is = text ++ '"' :: rest := by simpa using (show s.is = _ from hs)
    refine ⟨{ s with is := rest }, ?_, rfl, hf⟩
    rw [readQuoted, hs, h]
    simp [Except.map]
  rw [List.append_cons sp '"']
  exact (reads_expect hsp rfl).bind hquoted fun _ _ => trivial

theorem reads_string (hsp : Spaces sp) (value : String) :
    Reads readString f f (sp ++ '"' :: (value.toList.flatMap escape ++ ['"'])) Anything value :=
  reads_readString hsp fun s rest => readChars_escape s value.toList rest

theorem spaces_nil : Spaces [] := fun c hc => by simp at hc

theorem reads_readKey (hsp : Spaces sp) {key : String} (hkey : CleanKey key) :
    Reads readKey f f (sp ++ '"' :: (key.toList ++ ['"']) ++ [':']) Anything key := by
  have hstring : Reads readString f f (sp ++ '"' :: (key.toList ++ ['"'])) Anything key :=
    reads_readString hsp fun s rest => readChars_clean s hkey rest
  apply hstring.bind ?_ fun _ _ => trivial
  exact (reads_expect spaces_nil rfl).bind_pure

end Strings

section Numbers
variable {α : Type} {value : Bool → ℕ → Option α} {v : α}

theorem isspace_of_isDigit {c : Char} (hc : c.isDigit = true) : isspace c = false := by
  simp only [isspace, Bool.or_eq_false_iff, decide_eq_false_iff_not]
  refine ⟨⟨⟨⟨⟨?_, ?_⟩, ?_⟩, ?_⟩, ?_⟩, ?_⟩ <;> rintro rfl <;> simp at hc

theorem digit_of_mem_toDigits {n : ℕ} {c : Char} (hc : c ∈ Nat.toDigits 10 n) : c.isDigit = true :=
  Nat.isDigit_of_mem_toDigits (by decide) (Nat.le_refl 10) hc

theorem numberText_eq_cons (negative : Bool) (n : ℕ) : ∃ c l, numberText negative n = c :: l ∧
    isspace c = false ∧ c ≠ ']' ∧ c ≠ '}' ∧ (negative = false → c ≠ '-' ∧ c ≠ '+') := by
  cases negative with
  | true => exact ⟨'-', Nat.toDigits 10 n, rfl, rfl, by decide, by decide, by simp⟩
  | false =>
    cases hdigits : Nat.toDigits 10 n with
    | nil => exact absurd hdigits Nat.toDigits_ne_nil
    | cons c l =>
      have hc : c.isDigit = true := digit_of_mem_toDigits (n := n) (by simp [hdigits])
      have hne : ∀ d : Char, d.isDigit = false → c ≠ d := by
        rintro d hd rfl
        rw [hc] at hd
        contradiction
      exact ⟨c, l, by simp [numberText, hdigits], isspace_of_isDigit hc, hne _ rfl, hne _ rfl,
        fun _ => ⟨hne _ rfl, hne _ rfl⟩⟩

theorem reads_readNumber (hsp : Spaces sp) {negative : Bool} {n : ℕ}
    (hv : value negative n = some v) :
    Reads (readNumber value) f f (sp ++ numberText negative n) EndsNumber v := by
  intro s rest hs hf hrest
  obtain ⟨c, l, htext, hspace, -, -, hfirst⟩ := numberText_eq_cons negative n
  have hdrop : s.is.dropWhile isspace = numberText negative n ++ rest := by
    have hs : s.is = sp ++ numberText negative n ++ rest := hs
    rw [hs, List.append_assoc, List.dropWhile_append_of_pos hsp, htext]
    simp [hspace]
  have hminus : decide ((numberText negative n ++ rest).head? = some '-') = negative := by
    cases negative with
    | true => simp [numberText]
    | false => simpa [htext] using (hfirst rfl).1
  have hsign : (if negative || (numberText negative n ++ rest).head? = some '+' then
      (numberText negative n ++ rest).tail else numberText negative n ++ rest) =
        Nat.toDigits 10 n ++ rest := by
    cases negative with
    | true => simp [numberText]
    | false =>
      rw [if_neg (by simpa [htext] using (hfirst rfl).2)]
      simp [numberText]
  have htake : (Nat.toDigits 10 n ++ rest).takeWhile Char.isDigit = Nat.toDigits 10 n := by
    rw [List.takeWhile_append_of_pos fun c hc => digit_of_mem_toDigits hc]
    cases rest with
    | nil => simp
    | cons d rest => simp [hrest d rfl]
  have hskip : (Nat.toDigits 10 n ++ rest).dropWhile Char.isDigit = rest := by
    rw [List.dropWhile_append_of_pos fun c hc => digit_of_mem_toDigits hc]
    cases rest with
    | nil => simp
    | cons d rest => simp [hrest d rfl]
  refine ⟨{ s with is := rest }, ?_, rfl, hf⟩
  simp only [readNumber, hdrop, hminus, hsign, htake, hskip, Nat.toDigits_ne_nil, if_false,
    Nat.ofDigitChars_toDigits (by decide : 1 < 10) (Nat.le_refl 10), hv]

end Numbers

end Reading

/-! ## Scopes -/

/-- The text of the items of a scope, from the item number `k` on. -/
def itemsText (multi : List Bool) : ℕ → List (List Char) → List Char
  | _, [] => []
  | k, t :: ts =>
    (if k = 0 then [] else [',', ' ']) ++ seperator multi ++ t ++ itemsText multi (k + 1) ts

/-- The text behind the opening bracket. -/
def closingText (bracket : Char) (multiLine : Bool) (multi : List Bool) (ts : List (List Char)) :
    List Char :=
  itemsText (multiLine :: multi) 0 ts ++
    ((if multiLine && ts.length != 0 then seperator multi else []) ++ [bracket])

section WritingScopes
variable {multi : List Bool} {counts : List ℕ} {t : List Char} {w : JSONWriter} {k : ℕ}

/-- The writer adds an item with this text to a scope. -/
def WritesItem (multi : List Bool) (item : Writer Unit) (t : List Char) : Prop :=
  ∀ k counts, Writes item (k :: counts, multi) ((k + 1) :: counts, multi)
    ((if k = 0 then [] else [',', ' ']) ++ seperator multi ++ t)

theorem writes_extend (item : List Char) :
    Writes (extend item) (counts, multi) (counts, multi) item := by
  intro w hw
  exact ⟨{ w with os := w.os ++ item }, rfl, rfl, hw⟩

theorem writes_arraySeperator : Writes writeArraySeperator (k :: counts, multi)
    ((k + 1) :: counts, multi) ((if k = 0 then [] else [',', ' ']) ++ seperator multi) := by
  intro w hw
  obtain ⟨hcounter, hmulti⟩ := Prod.mk.inj hw
  refine ⟨{ w with
    os := w.os ++ ((if k = 0 then [] else [',', ' ']) ++ seperator multi)
    scopeCounter := (k + 1) :: counts }, ?_, rfl, congrArg (Prod.mk _) hmulti⟩
  by_cases hk : k = 0
  · simp [writeArraySeperator, writeSeperator, extend, hcounter, hmulti, hk]
  · simp [writeArraySeperator, writeSeperator, extend, hcounter, hmulti, hk]

theorem writesItem_array {value : Writer Unit}
    (h : ∀ counts, Writes value (counts, multi) (counts, multi) t) :
    WritesItem multi (writeArrayItem value) t :=
  fun _ _ => writes_arraySeperator.seq (h _)

/-- The counter of the scope goes up before the value is written. -/
theorem writesItem_object {key : String} {value : Writer Unit}
    (h : ∀ counts, Writes value (counts, multi) (counts, multi) t) :
    WritesItem multi (writeObjectKeyValue key value)
      ('"' :: (key.toList ++ ['"', ':', ' '] ++ t)) := by
  intro k counts w hw
  obtain ⟨hcounter, hmulti⟩ := Prod.mk.inj hw
  obtain ⟨w', hrun, htext, hframe⟩ := h ((k + 1) :: counts) { w with
    os := w.os ++ ((if k = 0 then [] else [',', ' ']) ++ seperator multi ++
      '"' :: (key.toList ++ ['"', ':', ' ']))
    scopeCounter := (k + 1) :: counts } (congrArg (Prod.mk _) hmulti)
  refine ⟨w', ?_, ?_, hframe⟩
  · rw [← hrun]
    by_cases hk : k = 0
    · simp [writeObjectKeyValue, writeSeperator, extend, hcounter, hmulti, hk]
    · simp [writeObjectKeyValue, writeSeperator, extend, hcounter, hmulti, hk, Nat.pos_of_ne_zero]
  · rw [htext]
    simp [Sink.output]

theorem writes_items {ι : Type} {write : ι → Writer Unit} {items : List ι} {ts : List (List Char)}
    (h : List.Forall₂ (fun i t => WritesItem multi (write i) t) items ts) :
    Writes (items.forM write) (k :: counts, multi) ((k + ts.length) :: counts, multi)
      (itemsText multi k ts) := by
  induction h generalizing k with
  | nil => exact Writes.pure
  | cons hitem _ ih =>
    have hrest := (hitem k counts).seq (ih (k := k + 1))
    rw [Nat.add_assoc, Nat.add_comm 1] at hrest
    exact hrest

/-- A scope is written with its brackets, and leaves the scopes around it as they were. -/
theorem writes_scope {ι : Type} {write : ι → Writer Unit} {items : List ι} {ts : List (List Char)}
    {left right : Char} {multiLine : Bool}
    (h : List.Forall₂ (fun i t => WritesItem (multiLine :: multi) (write i) t) items ts) :
    Writes (do openScope left multiLine; items.forM write; closeScope right)
      (counts, multi) (counts, multi) (left :: closingText right multiLine multi ts) := by
  have hopen : Writes (openScope left multiLine) (counts, multi)
      (0 :: counts, multiLine :: multi) [left] := by
    intro w hw
    obtain ⟨hcounter, hmulti⟩ := Prod.mk.inj hw
    exact ⟨_, rfl, rfl, by rw [← hcounter, ← hmulti]; rfl⟩
  have hclose : Writes (closeScope right) ((0 + ts.length) :: counts, multiLine :: multi)
      (counts, multi) ((if multiLine && ts.length != 0 then seperator multi else []) ++ [right]) := by
    intro w hw
    obtain ⟨hcounter, hmulti⟩ := Prod.mk.inj hw
    rw [Nat.zero_add] at hcounter
    refine ⟨{ w with
      os := w.os ++ ((if multiLine && ts.length != 0 then seperator multi else []) ++ [right])
      scopeCounter := counts, scopeMultiLine := multi }, ?_, rfl, rfl⟩
    by_cases hline : multiLine = true ∧ ¬ts = []
    · simp [closeScope, writeSeperator, extend, hcounter, hmulti, hline]
    · simp [closeScope, extend, hcounter, hmulti, hline]
  exact hopen.seq ((writes_items h).seq hclose)

end WritingScopes

section ReadingScopes
variable {α : Type} {step : α → Reader α} {item : α → Reader (Option α)} {bracket : Char}
  {f : List ℕ} {sp : List Char} {multi : List Bool} {k : ℕ} {a a' : α}

/-- The loop body reads the items of a scope that ends with this bracket. -/
structure LoopsOver (item : α → Reader (Option α)) (bracket : Char) (step : α → Reader α) :
    Prop where
  body : ∃ message, ∀ a, item a = do
    if ← nextItem bracket message then some <$> step a else return none
  space : isspace bracket = false
  digit : bracket.isDigit = false
  comma : bracket ≠ ','
  value : ∀ t, IsValue t → ∃ c, t.head? = some c ∧ isspace c = false ∧ c ≠ bracket

/-- One item after the other is read. -/
inductive ReadsItems (step : α → Reader α) (f : List ℕ) : List (List Char) → α → α → Prop
  | nil {a : α} : ReadsItems step f [] a a
  | cons {t : List Char} {ts : List (List Char)} {a a₁ a₂ : α} : IsValue t →
      (∀ k sp, Spaces sp → Reads (step a) (k :: f) (k :: f) (sp ++ t) EndsNumber a₁) →
      ReadsItems step f ts a₁ a₂ → ReadsItems step f (t :: ts) a a₂

theorem loopsOver_array (step : α → Reader α) : LoopsOver (arrayItem step) ']' step where
  body := ⟨_, fun _ => rfl⟩
  space := rfl
  digit := rfl
  comma := by decide
  value := by
    rintro t ⟨c, l, rfl, hc, hne, -⟩
    exact ⟨c, rfl, hc, hne⟩

theorem loopsOver_object (step : String → α → Reader α) : LoopsOver (objectItem step) '}'
    (fun a => do let key ← readKey; step key a) where
  body := by
    refine ⟨fun ch => ", JSON object expect '\x7d' or ',' '" ++ ch ++ "'", fun a => ?_⟩
    rw [objectItem, nextObjectItem, bind_assoc]
    congr 1
    ext next : 1
    cases next <;> simp
  space := rfl
  digit := rfl
  comma := by decide
  value := by
    rintro t ⟨c, l, rfl, hc, -, hne⟩
    exact ⟨c, rfl, hc, hne⟩

theorem spaces_seperator (multi : List Bool) : Spaces (seperator multi) := by
  intro c hc
  match multi with
  | [] => simp_all [seperator, isspace]
  | false :: _ => simp [seperator] at hc
  | true :: _ =>
    rcases List.mem_cons.mp hc with rfl | hc
    · rfl
    · rw [(List.mem_replicate.mp hc).2]
      rfl

theorem endsNumber_spaces (hsp : Spaces sp) {rest : List Char} (hrest : EndsNumber rest) :
    EndsNumber (sp ++ rest) := by
  cases sp with
  | nil => exact hrest
  | cons c sp =>
    intro d hd
    obtain rfl : c = d := by simpa using hd
    by_contra hdigit
    have hspace := hsp c List.mem_cons_self
    rw [isspace_of_isDigit (by simpa using hdigit)] at hspace
    contradiction

variable (hloop : LoopsOver item bracket step)
include hloop

theorem endsNumber_items (hsp : Spaces sp) (ts : List (List Char)) (rest : List Char) :
    EndsNumber (itemsText multi (k + 1) ts ++ (sp ++ [bracket]) ++ rest) := by
  cases ts with
  | nil =>
    rw [itemsText, List.nil_append, List.append_assoc]
    apply endsNumber_spaces hsp
    intro c hc
    obtain rfl : bracket = c := by simpa using hc
    exact hloop.digit
  | cons t ts =>
    intro c hc
    obtain rfl : ',' = c := by simpa [itemsText] using hc
    rfl

theorem reads_lastItem (hsp : Spaces sp) :
    Reads (item a) (k :: f) f (sp ++ [bracket]) Anything none := by
  obtain ⟨message, hbody⟩ := hloop.body
  rw [hbody, ← List.append_nil (sp ++ [bracket])]
  apply (reads_nextItem (reads_isNext_last hsp hloop.space)).bind ?_ fun _ _ => trivial
  exact Reads.pure

theorem reads_nextOne {t : List Char}
    (hread : ∀ k sp, Spaces sp → Reads (step a) (k :: f) (k :: f) (sp ++ t) EndsNumber a') :
    Reads (item a) ((k + 1) :: f) ((k + 2) :: f) ([',', ' '] ++ seperator multi ++ t) EndsNumber
      (some a') := by
  obtain ⟨message, hbody⟩ := hloop.body
  rw [hbody]
  have hspaces : Spaces (' ' :: seperator multi) := by
    intro c hc
    rcases List.mem_cons.mp hc with rfl | hc
    · rfl
    · exact spaces_seperator multi c hc
  have hnext : Reads (isNext bracket message (k + 1)) ((k + 1) :: f) ((k + 1) :: f) ([] ++ [','])
      Anything true := reads_isNext_next spaces_nil hloop.comma
  exact (reads_nextItem hnext).bind (hread (k + 2) _ hspaces).map fun _ _ => trivial

theorem reads_firstItem {t : List Char} (ht : IsValue t)
    (hread : ∀ k sp, Spaces sp → Reads (step a) (k :: f) (k :: f) (sp ++ t) EndsNumber a') :
    Reads (item a) (0 :: f) (1 :: f) (seperator multi ++ t) EndsNumber (some a') := by
  obtain ⟨message, hbody⟩ := hloop.body
  obtain ⟨c, hhead, hc, hne⟩ := hloop.value t ht
  rw [hbody]
  apply (reads_nextItem (reads_isNext_first (spaces_seperator multi) hc hne)).bind
    (hread 1 [] spaces_nil).map
  intro rest _
  simp [hhead]

theorem reads_moreItems {ts : List (List Char)} (h : ReadsItems step f ts a a') (hsp : Spaces sp)
    {fuel : ℕ} (hfuel : ts.length < fuel) {stuck : String} :
    Reads (whileSome stuck item fuel a) ((k + 1) :: f) f
      (itemsText multi (k + 1) ts ++ (sp ++ [bracket])) Anything a' := by
  induction h generalizing k fuel with
  | nil =>
    obtain ⟨fuel, rfl⟩ := Nat.exists_eq_add_one_of_ne_zero (Nat.ne_of_gt (Nat.zero_lt_of_lt hfuel))
    exact (reads_lastItem hloop hsp).while_none
  | @cons t ts a a₁ a₂ ht hread _ ih =>
    obtain ⟨fuel, rfl⟩ := Nat.exists_eq_add_one_of_ne_zero (Nat.ne_of_gt (Nat.zero_lt_of_lt hfuel))
    have hone : Reads (item a) ((k + 1) :: f) ((k + 2) :: f) ([',', ' '] ++ seperator multi ++ t)
        EndsNumber (some a₁) := reads_nextOne hloop hread
    have hrest := hone.while_some (ih (k := k + 1) (Nat.lt_of_succ_lt_succ hfuel))
      fun rest _ => endsNumber_items hloop hsp ts rest
    simpa [itemsText] using hrest

/-- The loop reads a scope to its end. -/
theorem reads_items {ts : List (List Char)} (h : ReadsItems step f ts a a') (hsp : Spaces sp)
    {fuel : ℕ} (hfuel : ts.length < fuel) {stuck : String} :
    Reads (whileSome stuck item fuel a) (0 :: f) f
      (itemsText multi 0 ts ++ (sp ++ [bracket])) Anything a' := by
  obtain ⟨fuel, rfl⟩ := Nat.exists_eq_add_one_of_ne_zero (Nat.ne_of_gt (Nat.zero_lt_of_lt hfuel))
  cases h with
  | nil => exact (reads_lastItem hloop hsp).while_none
  | @cons t ts _ a₁ _ ht hread hts =>
    have hone : Reads (item a) (0 :: f) (1 :: f) (seperator multi ++ t) EndsNumber (some a₁) :=
      reads_firstItem hloop ht hread
    have hmore : Reads (whileSome stuck item fuel a₁) (1 :: f) f
        (itemsText multi 1 ts ++ (sp ++ [bracket])) Anything a' :=
      reads_moreItems hloop hts hsp (Nat.lt_of_succ_lt_succ hfuel)
    have hrest := hone.while_some hmore fun rest _ => endsNumber_items hloop hsp ts rest
    simpa [itemsText] using hrest

omit hloop in
theorem ReadsItems.length_le {ts : List (List Char)} (h : ReadsItems step f ts a a') :
    ts.length ≤ (itemsText multi k ts).length := by
  induction h generalizing k with
  | nil => exact Nat.zero_le _
  | cons ht _ _ ih =>
    obtain ⟨c, l, rfl, -⟩ := ht
    simp only [itemsText, List.length_append, List.length_cons]
    have hle := ih (k := k + 1)
    omega

/-- A scope is read with its brackets. -/
theorem reads_scope {left : Char} (hleft : isspace left = false) {multiLine : Bool}
    {ts : List (List Char)} (h : ReadsItems step f ts a a') (hsp : Spaces sp) :
    Reads (do beginScope left; readItems item a) f f
      (sp ++ left :: closingText bracket multiLine multi ts) Anything a' := by
  have hclosing : Spaces (if multiLine && ts.length != 0 then seperator multi else []) := by
    split_ifs
    · exact spaces_seperator multi
    · exact spaces_nil
  rw [List.append_cons]
  apply (reads_beginScope hsp hleft).bind ?_ fun _ _ => trivial
  apply Reads.perInput
  intro n hn
  apply reads_items hloop h hclosing
  have hle : ts.length ≤ (itemsText (multiLine :: multi) 0 ts).length := h.length_le
  rw [closingText, List.length_append] at hn
  omega

end ReadingScopes

section Trips
variable {α ι : Type} {multi : List Bool} {write : ι → Writer Unit} {step : α → Reader α}

/-- The item that is written, and what the reader makes of it. -/
def ItemTrips (multi : List Bool) (write : Writer Unit) (step : α → Reader α) (a a' : α) : Prop :=
  ∃ t, IsValue t ∧ WritesItem multi write t ∧
    ∀ f sp, Spaces sp → Reads (step a) f f (sp ++ t) EndsNumber a'

/-- The items of a scope, and what the reader makes of them. -/
inductive ItemsTrip (multi : List Bool) (write : ι → Writer Unit) (step : α → Reader α) :
    List ι → α → α → Prop
  | nil {a : α} : ItemsTrip multi write step [] a a
  | cons {i : ι} {items : List ι} {a a₁ a₂ : α} : ItemTrips multi (write i) step a a₁ →
      ItemsTrip multi write step items a₁ a₂ → ItemsTrip multi write step (i :: items) a a₂

theorem ItemsTrip.texts {items : List ι} {a a' : α} (h : ItemsTrip multi write step items a a') :
    ∃ ts, List.Forall₂ (fun i t => WritesItem multi (write i) t) items ts ∧
      ∀ f, ReadsItems step f ts a a' := by
  induction h with
  | nil => exact ⟨[], List.Forall₂.nil, fun _ => ReadsItems.nil⟩
  | cons hitem _ ih =>
    obtain ⟨t, hvalue, hwrite, hread⟩ := hitem
    obtain ⟨ts, hwrites, hreads⟩ := ih
    exact ⟨t :: ts, List.Forall₂.cons hwrite hwrites,
      fun f => ReadsItems.cons hvalue (fun k => hread (k :: f)) (hreads f)⟩

/-- What is written of a scope is read as the items are. -/
theorem ItemsTrip.scope {items : List ι} {a a' : α} {multiLine : Bool}
    (h : ItemsTrip (multiLine :: multi) write step items a a') (left : Char) {right : Char}
    {item : α → Reader (Option α)} (hloop : LoopsOver item right step)
    (hleft : isspace left = false) (hne : left ≠ ']' ∧ left ≠ '}') :
    ∃ text, IsValue text ∧
      (∀ counts, Writes (do openScope left multiLine; items.forM write; closeScope right)
        (counts, multi) (counts, multi) text) ∧
      ∀ sp f, Spaces sp →
        Reads (do beginScope left; readItems item a) f f (sp ++ text) Anything a' := by
  obtain ⟨ts, hwrites, hreads⟩ := h.texts
  refine ⟨left :: closingText right multiLine multi ts, ⟨left, _, rfl, hleft, hne⟩, ?_, ?_⟩
  · exact fun counts => writes_scope hwrites
  · exact fun sp f hsp => reads_scope hloop hleft (hreads f) hsp

end Trips

end Json
end NetStorm

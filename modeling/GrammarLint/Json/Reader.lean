import GrammarLint.Json.Value

namespace GrammarLint.Json

open Text (CodePoint Loose)

inductive Problem where
  | expectingValue
  | expectingName
  | expectingColon
  | expectingComma
  | extraData
  | unterminatedString
  | controlCharacter
  | unknownEscape
  | unicodeEscape
  | byteOrderMark
deriving DecidableEq, Repr

def Problem.text : Problem → String
  | .expectingValue => "Expecting value"
  | .expectingName => "Expecting property name enclosed in double quotes"
  | .expectingColon => "Expecting ':' delimiter"
  | .expectingComma => "Expecting ',' delimiter"
  | .extraData => "Extra data"
  | .unterminatedString => "Unterminated string starting at"
  | .controlCharacter => "Invalid control character at"
  | .unknownEscape => "Invalid \\escape"
  | .unicodeEscape => "Invalid \\uXXXX escape"
  | .byteOrderMark => "Unexpected UTF-8 BOM (decode using utf-8-sig)"

/-- A problem, and how many characters are left from its place on. -/
structure Mistake where
  problem : Problem
  left : Nat
deriving DecidableEq, Repr

/-- The problem with its line, column and index in a text. -/
def Mistake.message (mistake : Mistake) (text : List Char) : String :=
  let index := text.length - mistake.left
  let before := text.take index
  let line := before.count '\n' + 1
  let column := (before.reverse.takeWhile (· != '\n')).length + 1
  s!"{mistake.problem.text}: line {line} column {column} (char {index})"

/-- What a reader takes: how deep arrays and objects may lie in each other, and how many digits a
whole number may have. -/
structure Limits where
  nesting : Nat
  digits : Nat

inductive Container where
  | array
  | object
deriving DecidableEq, Repr

def Container.name : Container → String
  | .array => "array"
  | .object => "object"

/-- Why a text gives no value: it is no JSON, or it goes beyond a limit. -/
inductive ReadError where
  | mistake (cause : Mistake)
  | tooDeep (container : Container)
  | tooLong (most digits : Nat)
deriving DecidableEq, Repr

/-- Why a number of digits is refused, where a number was read. -/
def tooLongText (most digits : Nat) : String :=
  s!"Exceeds the limit ({most} digits) for integer string conversion: value has {digits} digits; " ++
    "use sys.set_int_max_str_digits() to increase the limit"

def ReadError.message (error : ReadError) (text : List Char) : String :=
  match error with
  | .mistake cause => cause.message text
  | .tooDeep container =>
    s!"maximum recursion depth exceeded while decoding a JSON {container.name} from a unicode string"
  | .tooLong most digits => tooLongText most digits

def isBlank (c : Char) : Bool := c == ' ' || c == '\t' || c == '\n' || c == '\r'

def skipBlanks (cs : List Char) : List Char := cs.dropWhile isBlank

/-- A character of a quoted text, or a code unit given by an escape. -/
inductive TextUnit where
  | char (c : Char)
  | code (n : Nat)
deriving DecidableEq, Repr

def isHigh (n : Nat) : Bool := decide (0xd800 ≤ n) && decide (n < 0xdc00)

def isLow (n : Nat) : Bool := decide (0xdc00 ≤ n) && decide (n < 0xe000)

/-- A code unit is half of a pair, or stands for a character. -/
def pointOfCode (n : Nat) : CodePoint :=
  if isHigh n || isLow n then .half (Fin.ofNat 0x800 (n - 0xd800)) else .char (Char.ofNat n)

/-- Joins the two halves of a pair. -/
def joinUnits : List TextUnit → List CodePoint
  | [] => []
  | .char c :: rest => .char c :: joinUnits rest
  | [.code n] => [pointOfCode n]
  | .code n :: .char c :: rest => pointOfCode n :: .char c :: joinUnits rest
  | .code n :: .code m :: rest =>
    if isHigh n && isLow m then
      .char (Char.ofNat (0x10000 + (n - 0xd800) * 1024 + (m - 0xdc00))) :: joinUnits rest
    else pointOfCode n :: joinUnits (.code m :: rest)

def hexValue (c : Char) : Option Nat :=
  if '0' ≤ c ∧ c ≤ '9' then some (c.toNat - '0'.toNat)
  else if 'a' ≤ c ∧ c ≤ 'f' then some (c.toNat - 'a'.toNat + 10)
  else if 'A' ≤ c ∧ c ≤ 'F' then some (c.toNat - 'A'.toNat + 10)
  else none

def hexCode (a b c d : Char) : Option Nat := do
  return (← hexValue a) * 4096 + (← hexValue b) * 256 + (← hexValue c) * 16 + (← hexValue d)

def shortEscape (c : Char) : Option Char :=
  if c == '"' || c == '\\' || c == '/' then some c
  else if c == 'b' then some '\x08'
  else if c == 'f' then some '\x0c'
  else if c == 'n' then some '\n'
  else if c == 'r' then some '\r'
  else if c == 't' then some '\t'
  else none

/-- The units of a quoted text up to its closing quote, and what is behind that. `begun` counts
the characters left from the opening quote on. -/
def readUnits (begun : Nat) : List Char → Except Mistake (List TextUnit × List Char)
  | [] => .error ⟨.unterminatedString, begun⟩
  | c :: rest =>
    if c == '"' then .ok ([], rest)
    else if c == '\\' then
      match rest with
      | [] => .error ⟨.unterminatedString, begun⟩
      | e :: rest =>
        if e == 'u' then
          match rest with
          | w :: x :: y :: z :: after =>
            match hexCode w x y z, after with
            | some n, _ :: _ => do
              let (units, behind) ← readUnits begun after
              return (.code n :: units, behind)
            | _, _ => .error ⟨.unicodeEscape, rest.length + 1⟩
          | _ => .error ⟨.unicodeEscape, rest.length + 1⟩
        else
          match shortEscape e with
          | some escaped => do
            let (units, behind) ← readUnits begun rest
            return (.char escaped :: units, behind)
          | none => .error ⟨.unknownEscape, rest.length + 2⟩
    else if c.toNat < 0x20 then .error ⟨.controlCharacter, rest.length + 1⟩
    else do
      let (units, behind) ← readUnits begun rest
      return (.char c :: units, behind)

def readString (cs : List Char) : Except Mistake (Loose × List Char) := do
  let (units, rest) ← readUnits (cs.length + 1) cs
  return (⟨joinUnits units⟩, rest)

def isDecimalDigit (c : Char) : Bool := decide ('0' ≤ c) && decide (c ≤ '9')

def spanDigits (cs : List Char) : List Char × List Char :=
  (cs.takeWhile isDecimalDigit, cs.dropWhile isDecimalDigit)

def digitsValue (digits : List Char) : Nat :=
  digits.foldl (fun n c => 10 * n + (c.toNat - '0'.toNat)) 0

/-- The floating point number next to `mantissa · 10 ^ exponent`. Exponents far out of range
are cut, which changes nothing. -/
def decimalFloat (mantissa : Nat) (exponent : Int) : Float :=
  let size : Int := (Nat.toDigits 10 mantissa).length
  let exponent := max (-400 - size) (min exponent 400)
  if exponent < 0 then Float.ofScientific mantissa true (-exponent).toNat
  else Float.ofScientific mantissa false exponent.toNat

/-- The digits before the point of a number: a zero, or digits that start with none. -/
def readWhole : List Char → Option (List Char × List Char)
  | '0' :: rest => some (['0'], rest)
  | c :: rest =>
    if isDecimalDigit c then
      let (digits, rest) := spanDigits rest
      some (c :: digits, rest)
    else none
  | [] => none

def readFraction : List Char → Option (List Char) × List Char
  | '.' :: rest =>
    match spanDigits rest with
    | ([], _) => (none, '.' :: rest)
    | (digits, rest) => (some digits, rest)
  | cs => (none, cs)

def readExponent (cs : List Char) : Option Int × List Char :=
  match cs with
  | c :: rest =>
    if c == 'e' || c == 'E' then
      let (negative, digitsFrom) := match rest with
        | '-' :: rest => (true, rest)
        | '+' :: rest => (false, rest)
        | rest => (false, rest)
      match spanDigits digitsFrom with
      | ([], _) => (none, cs)
      | (digits, rest) =>
        let n : Int := digitsValue digits
        (some (if negative then -n else n), rest)
    else (none, cs)
  | [] => (none, cs)

structure Numeral where
  negative : Bool
  whole : List Char
  fraction : Option (List Char)
  exponent : Option Int

def readNumeral (cs : List Char) : Option (Numeral × List Char) := do
  let (negative, unsigned) := match cs with
    | '-' :: rest => (true, rest)
    | cs => (false, cs)
  let (whole, rest) ← readWhole unsigned
  let (fraction, rest) := readFraction rest
  let (exponent, rest) := readExponent rest
  return (⟨negative, whole, fraction, exponent⟩, rest)

def Numeral.isWhole (n : Numeral) : Bool := n.fraction.isNone && n.exponent.isNone

def Numeral.value (n : Numeral) : Value :=
  if n.isWhole then
    let size : Int := digitsValue n.whole
    .int (if n.negative then -size else size)
  else
    let decimals := n.fraction.getD []
    let size := decimalFloat (digitsValue (n.whole ++ decimals)) (n.exponent.getD 0 - decimals.length)
    .float (if n.negative then -size else size)

def words : List (List Char × Value) := [
  ("null".toList, .null),
  ("true".toList, .bool true),
  ("false".toList, .bool false),
  ("NaN".toList, .float (0.0 / 0.0)),
  ("Infinity".toList, .float (1.0 / 0.0)),
  ("-Infinity".toList, .float (-1.0 / 0.0))]

def readPlain (limits : Limits) (cs : List Char) : Except ReadError (Value × List Char) :=
  match words.find? (·.1.isPrefixOf cs) with
  | some (word, value) => .ok (value, cs.drop word.length)
  | none =>
    match readNumeral cs with
    | some (numeral, rest) =>
      if numeral.isWhole && limits.digits < numeral.whole.length then
        .error (.tooLong limits.digits numeral.whole.length)
      else .ok (numeral.value, rest)
    | none => .error (.mistake ⟨.expectingValue, cs.length⟩)

mutual
/-- A value at the front of a text, in which arrays and objects may go on for `room` levels. Every
other step takes a character, so twice the length of the text is fuel enough. -/
def readValue (limits : Limits) : (fuel room : Nat) → List Char →
    Except ReadError (Value × List Char)
  | 0, _, cs => .error (.mistake ⟨.expectingValue, cs.length⟩)
  | fuel + 1, room, cs =>
    match cs, room with
    | '"' :: rest, _ => do
      let (s, rest) ← (readString rest).mapError .mistake
      return (.str s, rest)
    | '[' :: _, 0 => .error (.tooDeep .array)
    | '[' :: rest, room + 1 =>
      match skipBlanks rest with
      | ']' :: rest => .ok (.arr [], rest)
      | rest => do
        let (items, rest) ← readItems limits fuel room rest
        return (.arr items, rest)
    | '{' :: _, 0 => .error (.tooDeep .object)
    | '{' :: rest, room + 1 =>
      match skipBlanks rest with
      | '}' :: rest => .ok (.obj [], rest)
      | rest => do
        let (fields, rest) ← readFields limits fuel room [] rest
        return (.obj fields, rest)
    | cs, _ => readPlain limits cs

def readItems (limits : Limits) : (fuel room : Nat) → List Char →
    Except ReadError (List Value × List Char)
  | 0, _, cs => .error (.mistake ⟨.expectingValue, cs.length⟩)
  | fuel + 1, room, cs => do
    let (item, rest) ← readValue limits fuel room cs
    match skipBlanks rest with
    | ']' :: rest => return ([item], rest)
    | ',' :: rest =>
      let (items, rest) ← readItems limits fuel room (skipBlanks rest)
      return (item :: items, rest)
    | rest => .error (.mistake ⟨.expectingComma, rest.length⟩)

/-- The fields of an object up to its end, put to those before them. -/
def readFields (limits : Limits) : (fuel room : Nat) → List (Loose × Value) → List Char →
    Except ReadError (List (Loose × Value) × List Char)
  | 0, _, _, cs => .error (.mistake ⟨.expectingValue, cs.length⟩)
  | fuel + 1, room, fields, cs =>
    match cs with
    | '"' :: rest => do
      let (key, rest) ← (readString rest).mapError .mistake
      match skipBlanks rest with
      | ':' :: rest =>
        let (value, rest) ← readValue limits fuel room (skipBlanks rest)
        let fields := Value.insert key value fields
        match skipBlanks rest with
        | '}' :: rest => return (fields, rest)
        | ',' :: rest => readFields limits fuel room fields (skipBlanks rest)
        | rest => .error (.mistake ⟨.expectingComma, rest.length⟩)
      | rest => .error (.mistake ⟨.expectingColon, rest.length⟩)
    | cs => .error (.mistake ⟨.expectingName, cs.length⟩)
end

/-- Reads a text that is one value with blanks around it. -/
def read (limits : Limits) (text : List Char) : Except ReadError Value :=
  match text with
  | '\ufeff' :: _ => .error (.mistake ⟨.byteOrderMark, text.length⟩)
  | _ => do
    let (value, rest) ← readValue limits (2 * text.length + 1) limits.nesting (skipBlanks text)
    match skipBlanks rest with
    | [] => return value
    | rest => .error (.mistake ⟨.extraData, rest.length⟩)

end GrammarLint.Json

import Mathlib.Algebra.Ring.Nat
import Mathlib.Data.Int.Notation
import Castle.Status
import Castle.Lib.BoundedOutput
import Castle.Serialization.Json.Grammar

/-!
# Characters, strings and numbers (`json.hpp`, namespace `detail`)

`decode_string` and `valid_number` run over a text by position; here they run over what the
text has from that position on, and keep the position for the diagnostics.
-/

namespace Castle.Serialization.Json

inductive ErrorCode where
  | none | unexpectedEnd | unexpectedToken | invalidString | invalidEscape | invalidUnicodeEscape
  | invalidNumber | invalidLiteral | depthExceeded | capacity | outputFull | invalidArgument
  deriving DecidableEq

structure Result where
  status : Status := .ok
  code : ErrorCode := .none
  offset : ℕ := 0
  line : ℕ := 1
  column : ℕ := 1
  deriving DecidableEq

def Result.succeeded (r : Result) : Bool := r.status = .ok

def isSpace (c : UInt8) : Bool := c = space || c = tab || c = carriageReturn || c = lineFeed

def isDigit (c : UInt8) : Bool := digitZero ≤ c && c ≤ digitNine

def isHex (c : UInt8) : Bool :=
  (digitZero ≤ c && c ≤ digitNine) || (letterLowerA ≤ c && c ≤ letterLowerF) ||
    (letterUpperA ≤ c && c ≤ letterUpperF)

def hexValue (c : UInt8) : ℕ :=
  if digitZero ≤ c && c ≤ digitNine then c.toNat - digitZero.toNat
  else if letterLowerA ≤ c && c ≤ letterLowerF then c.toNat - letterLowerA.toNat + 10
  else c.toNat - letterUpperA.toNat + 10

def isControl (c : UInt8) : Bool := c < 0x20

def isNumberDelimiter (c : UInt8) : Bool :=
  isSpace c || c = comma || c = closeBracket || c = closeBrace

/-- What `parse_number` takes into a token. -/
def isNumberChar (c : UInt8) : Bool :=
  isDigit c || c = minus || c = plus || c = period || c = letterLowerE || c = letterUpperE

/-- `push_back` of one byte after the other, up to the first that does not fit. -/
def pushAll (cap : ℕ) (output : Bytes) : Bytes → Bool × Bytes
  | [] => (true, output)
  | b :: bytes => if output.length = cap then (false, output) else pushAll cap (output ++ [b]) bytes

/-- The bytes that `append_utf8` pushes. -/
def utf8Bytes (codeUnit : ℕ) : Bytes :=
  if codeUnit ≤ 0x7f then [UInt8.ofNat codeUnit]
  else if codeUnit ≤ 0x7ff then
    [UInt8.ofNat (0xc0 ||| codeUnit >>> 6), UInt8.ofNat (0x80 ||| codeUnit &&& 0x3f)]
  else
    [UInt8.ofNat (0xe0 ||| codeUnit >>> 12), UInt8.ofNat (0x80 ||| codeUnit >>> 6 &&& 0x3f),
      UInt8.ofNat (0x80 ||| codeUnit &&& 0x3f)]

def appendUtf8 (cap codeUnit : ℕ) (output : Bytes) : Bool × Bytes :=
  if 0xd800 ≤ codeUnit && codeUnit ≤ 0xdfff then (false, output)
  else pushAll cap output (utf8Bytes codeUnit)

/-- The `switch` of `decode_string`, without the case of `\u`. -/
def unescape (escape : UInt8) : Option UInt8 :=
  if escape = quote then some quote
  else if escape = backslash then some backslash
  else if escape = slash then some slash
  else if escape = letterLowerB then some backspace
  else if escape = letterLowerF then some formFeed
  else if escape = letterLowerN then some lineFeed
  else if escape = letterLowerR then some carriageReturn
  else if escape = letterLowerT then some tab
  else none

def codeOf (digits : Bytes) : ℕ := digits.foldl (fun code c => code * 16 + hexValue c) 0

/-- The loop of `decode_string` after the opening quote: the result, the position, and the
output. -/
def decodeLoop (cap : ℕ) : Bytes → ℕ → Bytes → Result × ℕ × Bytes
  | [], position, output =>
    ({ status := .invalidArgument, code := .unexpectedEnd, offset := position }, position, output)
  | c :: rest, position, output =>
    if c = quote then ({}, position + 1, output)
    else if isControl c then
      ({ status := .invalidArgument, code := .invalidString, offset := position }, position + 1,
        output)
    else if c ≠ backslash then
      if output.length = cap then
        ({ status := .full, code := .capacity, offset := position }, position + 1, output)
      else decodeLoop cap rest (position + 1) (output ++ [c])
    else
      match rest with
      | [] =>
        ({ status := .invalidArgument, code := .unexpectedEnd, offset := position + 1 }, position + 1,
          output)
      | escape :: rest =>
        match unescape escape with
        | some decoded =>
          if output.length = cap then
            ({ status := .full, code := .capacity, offset := position + 1 }, position + 2, output)
          else decodeLoop cap rest (position + 2) (output ++ [decoded])
        | none =>
          if escape = letterLowerU then
            match rest with
            | c₁ :: c₂ :: c₃ :: c₄ :: rest =>
              match [c₁, c₂, c₃, c₄].findIdx? fun c => !isHex c with
              | some i =>
                ({ status := .invalidArgument, code := .invalidUnicodeEscape,
                   offset := position + 2 + i }, position + 2, output)
              | none =>
                let (appended, output) := appendUtf8 cap (codeOf [c₁, c₂, c₃, c₄]) output
                if !appended then
                  ({ status := .invalidArgument, code := .invalidUnicodeEscape,
                     offset := position + 2 }, position + 6, output)
                else decodeLoop cap rest (position + 6) output
            | _ =>
              ({ status := .invalidArgument, code := .invalidUnicodeEscape, offset := position },
                position + 2, output)
          else
            ({ status := .invalidArgument, code := .invalidEscape, offset := position + 1 },
              position + 2, output)

/-- `decode_string` from a position on, with room for `cap` bytes. -/
def decodeString (cap : ℕ) (source : Bytes) (position : ℕ) : Result × ℕ × Bytes :=
  match source.drop position with
  | [] =>
    ({ status := .invalidArgument, code := .invalidString, offset := position }, position, [])
  | c :: rest =>
    if c ≠ quote then
      ({ status := .invalidArgument, code := .invalidString, offset := position }, position, [])
    else decodeLoop cap rest (position + 1) []

def skipDigits (text : Bytes) : Bytes := text.dropWhile isDigit

def afterDigits : Bytes → Option Bytes
  | [] => none
  | c :: text => if isDigit c then some (skipDigits (c :: text)) else none

def afterInteger (c : UInt8) (text : Bytes) : Option Bytes :=
  if c = digitZero then
    match text with
    | [] => some []
    | d :: _ => if isDigit d then none else some text
  else if c < digitOne || c > digitNine then none
  else some (skipDigits (c :: text))

def afterFraction : Bytes → Option Bytes
  | [] => some []
  | c :: text => if c = period then afterDigits text else some (c :: text)

/-- After the letter of an exponent. -/
def afterSign : Bytes → Option Bytes
  | [] => none
  | c :: text => if c = plus || c = minus then afterDigits text else afterDigits (c :: text)

def afterExponent : Bytes → Option Bytes
  | [] => some []
  | c :: text => if c = letterLowerE || c = letterUpperE then afterSign text else some (c :: text)

/-- `valid_number` after the sign. -/
def validUnsigned : Bytes → Bool
  | [] => false
  | c :: text =>
    match (afterInteger c text).bind fun rest => (afterFraction rest).bind afterExponent with
    | none => false
    | some rest => rest.isEmpty

def validNumber (text : Bytes) : Bool :=
  validUnsigned (if text.head? = some minus then text.tail else text)

/-- The digits of a magnitude, the last digit first, as `format_integer` finds them. -/
def digitsOf : ℕ → ℕ → Bytes
  | 0, _ => []
  | fuel + 1, magnitude =>
    let digit := UInt8.ofNat (digitZero.toNat + magnitude % 10)
    if magnitude / 10 = 0 then [digit] else digit :: digitsOf fuel (magnitude / 10)

/-- `format_integer`, into a string of 32 characters. -/
def formatInteger (value : ℤ) : Option Bytes :=
  let digits := (digitsOf (value.natAbs + 1) value.natAbs).reverse
  let text := if value < 0 then minus :: digits else digits
  if text.length ≤ 32 then some text else none

def pushBack (cap : ℕ) (c : UInt8) (output : Bytes) : Except Status Bytes :=
  if output.length = cap then .error .full else .ok (output ++ [c])

def appendView (cap : ℕ) (view output : Bytes) : Except Status Bytes :=
  if view.length > cap - output.length then .error .full else .ok (output ++ view)

/-- The `switch` of `append_escaped`. -/
def escapeText (c : UInt8) : Option Bytes :=
  if c = quote then some [backslash, quote]
  else if c = backslash then some [backslash, backslash]
  else if c = backspace then some [backslash, letterLowerB]
  else if c = formFeed then some [backslash, letterLowerF]
  else if c = lineFeed then some [backslash, letterLowerN]
  else if c = carriageReturn then some [backslash, letterLowerR]
  else if c = tab then some [backslash, letterLowerT]
  else none

def appendEscapedLoop (cap : ℕ) : Bytes → Bytes → Except Status Bytes
  | [], output => .ok output
  | c :: value, output => do
    let output ←
      match escapeText c with
      | some escaped => appendView cap escaped output
      | none => if isControl c then .error .invalidArgument else pushBack cap c output
    appendEscapedLoop cap value output

def appendEscaped (cap : ℕ) (value output : Bytes) : Except Status Bytes := do
  let output ← pushBack cap quote output
  let output ← appendEscapedLoop cap value output
  pushBack cap quote output

end Castle.Serialization.Json

import Mathlib.Algebra.Ring.Nat
import Mathlib.Data.List.Basic
import Castle.Status

/-!
# Header fields (`headers.hpp` and `token_char` of `types.hpp`)

A collection of fields has room for a number of fields, and for names and values up to a size.
-/

namespace Castle.Http

abbrev Bytes := List UInt8

structure Field where
  name : Bytes
  value : Bytes
  deriving DecidableEq, Repr

def between (low high c : UInt8) : Bool := low ≤ c && c ≤ high

/-- `tchar`: digits, letters and fifteen other characters. -/
def tokenChar (c : UInt8) : Bool :=
  between 0x30 0x39 c || between 0x41 0x5a c || between 0x61 0x7a c ||
    [0x21, 0x23, 0x24, 0x25, 0x26, 0x27, 0x2a, 0x2b, 0x2d, 0x2e, 0x5e, 0x5f, 0x60, 0x7c,
      0x7e].contains c

/-- A token, or the name of a pseudo-header: a token after a colon. -/
def validName : Bytes → Bool
  | [] => false
  | c :: name => if c = 0x3a then !name.isEmpty && name.all tokenChar else tokenChar c && name.all tokenChar

/-- No control characters but the tab. -/
def validValue (value : Bytes) : Bool :=
  value.all fun c => !(c < 0x20 && c ≠ 0x09) && c ≠ 0x7f

/-- The template parameters of `basic_headers`. -/
structure HeadersCapacity where
  maxHeaders : ℕ
  maxNameSize : ℕ
  maxValueSize : ℕ

/-- The fields of a collection, in the order in which they were added. -/
abbrev Headers := List Field

def Headers.add (cap : HeadersCapacity) (headers : Headers) (name value : Bytes) :
    Status × Headers :=
  if !validName name || !validValue value then (.invalidArgument, headers)
  else if headers.length = cap.maxHeaders then (.full, headers)
  else if name.length > cap.maxNameSize || value.length > cap.maxValueSize then
    (.outOfRange, headers)
  else (.ok, headers ++ [⟨name, value⟩])

/-!
## Shared HTTP vocabulary (`types.hpp`)
-/

inductive ErrorCode where
  | ok | malformedMessage | malformedStatusLine | invalidHeader | headerLimit | headerLineLimit
  | bodyLimit | chunkedNotSupported | invalidChunk | invalidFrame | frameSizeLimit
  | compressionError | dynamicTableLimit | streamLimit | streamClosed | flowControlError
  | protocolError | connectionClosed | outputFull | requestInProgress | unsupportedFeature
  | goawayReceived | streamReset
  deriving DecidableEq, Repr

def toStatus : ErrorCode → Status
  | .ok => .ok
  | .headerLimit | .headerLineLimit | .bodyLimit | .frameSizeLimit | .dynamicTableLimit
  | .streamLimit | .outputFull => .outOfRange
  | .connectionClosed => .dataLoss
  | .requestInProgress => .invalidConfig
  | .unsupportedFeature | .chunkedNotSupported => .invalidConfig
  | .goawayReceived | .streamReset | .streamClosed => .dataLoss
  | _ => .invalidArgument

theorem toStatus_eq_ok_iff {e : ErrorCode} : toStatus e = .ok ↔ e = .ok := by
  cases e <;> simp [toStatus]

/-- `version`, without the HTTP/2 that no text names. -/
inductive Version where
  | http10 | http11
  deriving DecidableEq, Repr

/-- `method` of `types.hpp` -/
inductive Method where
  | get | post | put | delete | head | options | patch | custom
  deriving DecidableEq, Repr

def octets (text : String) : Bytes := text.toList.map fun c => UInt8.ofNat c.toNat

def methodToken : Method → Bytes
  | .get => octets "GET" | .post => octets "POST" | .put => octets "PUT"
  | .delete => octets "DELETE" | .head => octets "HEAD" | .options => octets "OPTIONS"
  | .patch => octets "PATCH" | .custom => []

def lowerCase (c : UInt8) : UInt8 := if between 0x41 0x5a c then c + 0x20 else c

def asciiIequal (lhs rhs : Bytes) : Bool := lhs.map lowerCase = rhs.map lowerCase

/-- Visible characters without upper-case letters. A byte from 128 on is a negative `char`. -/
def asciiLowercase (value : Bytes) : Bool :=
  value.all fun c => !between 0x41 0x5a c && 0x20 < c && c < 0x7f

def isToken (value : Bytes) : Bool := !value.isEmpty && value.all tokenChar

def isVisibleText (value : Bytes) : Bool :=
  !value.isEmpty && value.all fun c => 0x20 < c && c ≠ 0x7f

/-- The loop of `parse_decimal`; none for a character that is no digit and for an overflow. -/
def parseDecimalLoop : Bytes → ℕ → Option ℕ
  | [], result => some result
  | c :: value, result =>
    if !between 0x30 0x39 c then none
    else
      let digit := c.toNat - 0x30
      if result > (2 ^ 64 - 1 - digit) / 10 then none
      else parseDecimalLoop value (result * 10 + digit)

def parseDecimal (value : Bytes) : Option ℕ :=
  if value.isEmpty then none else parseDecimalLoop value 0

end Castle.Http

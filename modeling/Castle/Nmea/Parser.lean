import Mathlib.Algebra.Ring.Nat
import Mathlib.Data.List.DropRight
import Castle.Lib.Lines
import Castle.Lib.Transducer

/-!
# NMEA 0183 sentences (`protocols/nmea/nmea.hpp`)

A view is the bytes it shows.
-/

namespace Castle.Nmea

abbrev Bytes := List UInt8

def startChar : UInt8 := 0x24
def checksumChar : UInt8 := 0x2a
def fieldSep : UInt8 := 0x2c
def carriageReturn : UInt8 := 0x0d
def lineFeed : UInt8 := 0x0a

structure MessageView where
  talker : Bytes := []
  type : Bytes := []
  fields : List Bytes := []
  checksum : UInt8 := 0
  checksumPresent : Bool := false
  deriving DecidableEq

/-- `update` of the `checksum_accumulator` -/
def updateChecksum (value byte : UInt8) : UInt8 := value ^^^ byte

def computeChecksum (data : Bytes) : UInt8 := data.foldl updateChecksum 0

def isHexDigit (c : UInt8) : Bool :=
  (0x30 ≤ c && c ≤ 0x39) || (0x41 ≤ c && c ≤ 0x46) || (0x61 ≤ c && c ≤ 0x66)

def hexNibble (c : UInt8) : UInt8 :=
  if c ≤ 0x39 then c - 0x30 else (if c ≥ 0x61 then c - 0x61 else c - 0x41) + 10

def parseHexByte (hi lo : UInt8) : Option UInt8 :=
  if !isHexDigit hi || !isHexDigit lo then none else some (hexNibble hi <<< 4 ||| hexNibble lo)

/-- The talker and the type of an identifier. -/
def splitIdentifier (id : Bytes) : Bytes × Bytes :=
  if id.isEmpty then ([], [])
  else if id.head? = some 0x50 then (id.take 1, id.drop 1)
  else if id.length ≥ 5 then (id.take 2, id.drop 2)
  else ([], id)

/-- The loop of `tokenize_fields`, for as many fields as there is room for. -/
def fieldsLoop : ℕ → Bytes → List Bytes
  | 0, _ => []
  | capacity + 1, remaining =>
    match cut fieldSep remaining with
    | none => [remaining]
    | some (field, remaining) => field :: fieldsLoop capacity remaining

/-- The talker, the type and the fields of a content. -/
def tokenizeFields (content : Bytes) (capacity : ℕ) : Bytes × Bytes × List Bytes :=
  if content.isEmpty then ([], [], [])
  else
    match cut fieldSep content with
    | none => ((splitIdentifier content).1, (splitIdentifier content).2, [])
    | some (id, remaining) =>
      ((splitIdentifier id).1, (splitIdentifier id).2, fieldsLoop capacity remaining)

/-- What follows the checksum field in `decode_sentence`: the answer and the output. -/
def decodeContent (content : Bytes) (capacity : ℕ) (receivedChecksum : UInt8) (checksumPresent : Bool) :
    Bool × MessageView :=
  let (talker, type, fields) := tokenizeFields content capacity
  (!type.isEmpty && !(checksumPresent && computeChecksum content ≠ receivedChecksum),
    ⟨talker, type, fields, receivedChecksum, checksumPresent⟩)

def decodeSentence (line : Bytes) (capacity : ℕ) : Bool × MessageView :=
  let line := if line.head? = some startChar then line.tail else line
  let line := line.rdropWhile fun c => c = carriageReturn || c = lineFeed
  match cut checksumChar line with
  | none => decodeContent line capacity 0 false
  | some (content, hi :: lo :: _) =>
    match parseHexByte hi lo with
    | none => (false, {})
    | some receivedChecksum => decodeContent content capacity receivedChecksum true
  | some _ => (false, {})

/-- A character that the framing has a use for. -/
def reserved (c : UInt8) : Bool :=
  c = startChar || c = checksumChar || c = carriageReturn || c = lineFeed

/-- A sentence with a correct checksum, and with a content that has at most `maxLength` bytes. -/
structure Sentence (maxLength : ℕ) where
  content : Bytes
  hi : UInt8
  lo : UInt8
  clean : ∀ c ∈ content, reserved c = false
  fits : content.length ≤ maxLength
  checksum : parseHexByte hi lo = some (computeChecksum content)

variable {maxLength : ℕ}

def Sentence.bytes (s : Sentence maxLength) : Bytes :=
  startChar :: (s.content ++ [checksumChar, s.hi, s.lo, carriageReturn, lineFeed])

/-- What a callback is to see of a sentence. -/
def Sentence.view (s : Sentence maxLength) (maxFields : ℕ) : MessageView where
  talker := (tokenizeFields s.content maxFields).1
  type := (tokenizeFields s.content maxFields).2.1
  fields := (tokenizeFields s.content maxFields).2.2
  checksum := computeChecksum s.content
  checksumPresent := true

end Castle.Nmea

/-!
## The streaming parser (`parsers/nmea_parser/nmea_parser.hpp`)

A byte gives the next state and the callbacks that are made. The buffer is the bytes that are
in use of `buffer_`.
-/

namespace Castle.Nmea

/-- The template parameters. -/
structure ParserCapacity where
  maxSentenceLen : ℕ
  maxFields : ℕ
  maxSentenceLen_pos : 0 < maxSentenceLen
  maxFields_pos : 0 < maxFields

inductive ParseState where
  | waitDollar | accumulate | waitChecksumHi | waitChecksumLo | waitLf
  deriving DecidableEq

inductive ParserErrorCode where
  | none | checksumMismatch | sentenceTooLong | unexpectedStartInSentence | invalidArgument
  deriving DecidableEq

structure ParseError where
  code : ParserErrorCode := .none
  talker : Bytes := []
  type : Bytes := []
  deriving DecidableEq

/-- A call of the message callback or of the error callback. -/
inductive Event where
  | message (message : MessageView)
  | error (error : ParseError)
  deriving DecidableEq

structure Parser where
  state : ParseState := .waitDollar
  buffer : Bytes := []
  checksum : UInt8 := 0
  checksumPresent : Bool := false
  receivedChecksum : UInt8 := 0
  checksumHi : UInt8 := 0
  messagesDecoded : ℕ := 0
  messagesDiscarded : ℕ := 0
  deriving DecidableEq

namespace Parser

variable (cap : ParserCapacity) (p : Parser)

def startSentence : Parser :=
  { p with buffer := [], checksum := 0, checksumPresent := false, state := .accumulate }

def emitError (error : ParseError) : Parser × List Event :=
  ({ p with
      messagesDiscarded := p.messagesDiscarded + 1
      buffer := []
      checksum := 0
      checksumPresent := false
      state := .waitDollar },
    [.error error])

/-- A new `$` before the end of a sentence. -/
def restart : Parser × List Event :=
  ((p.emitError { code := .unexpectedStartInSentence }).1.startSentence,
    (p.emitError { code := .unexpectedStartInSentence }).2)

def onSentenceComplete : Parser × List Event :=
  let (talker, type, fields) := tokenizeFields p.buffer cap.maxFields
  if p.checksumPresent && p.checksum ≠ p.receivedChecksum then
    p.emitError { code := .checksumMismatch, talker := talker, type := type }
  else
    ({ p with
        messagesDecoded := p.messagesDecoded + 1
        buffer := []
        checksum := 0
        checksumPresent := false
        state := .waitDollar },
      [.message ⟨talker, type, fields, p.receivedChecksum, p.checksumPresent⟩])

def processByte (byte : UInt8) : Parser × List Event :=
  match p.state with
  | .waitDollar => if byte = startChar then (p.startSentence, []) else (p, [])
  | .accumulate =>
    if byte = startChar then p.restart
    else if byte = checksumChar then
      ({ p with checksumPresent := true, state := .waitChecksumHi }, [])
    else if byte = carriageReturn then ({ p with checksumPresent := false, state := .waitLf }, [])
    else if byte = lineFeed then { p with checksumPresent := false }.onSentenceComplete cap
    else if p.buffer.length ≥ cap.maxSentenceLen then p.emitError { code := .sentenceTooLong }
    else
      ({ p with buffer := p.buffer ++ [byte], checksum := updateChecksum p.checksum byte }, [])
  | .waitChecksumHi => ({ p with checksumHi := byte, state := .waitChecksumLo }, [])
  | .waitChecksumLo =>
    match parseHexByte p.checksumHi byte with
    | none => p.emitError { code := .checksumMismatch }
    | some parsed => ({ p with receivedChecksum := parsed, state := .waitLf }, [])
  | .waitLf =>
    if byte = carriageReturn then (p, [])
    else if byte = lineFeed then p.onSentenceComplete cap
    else if byte = startChar then p.restart
    else (p, [])

/-- `feed` of a range of bytes. -/
def feed (data : Bytes) : Parser × List Event := Transducer.feed (processByte cap) p data

/-- What the message callback sees while `data` is fed. -/
def delivered (data : Bytes) : List MessageView :=
  (p.feed cap data).2.filterMap fun
    | .message message => some message
    | .error _ => none

end Parser
end Castle.Nmea

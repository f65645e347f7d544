import Mathlib.Data.List.DropRight
import Castle.Serialization.Json.Scanner

/-!
# INI documents and their parser (`serialization/ini.hpp`)

The loop of `parse_document` finds a line and handles it before it looks for the next one; here
the text is split into its lines first. A view is the bytes it shows.
-/

namespace Castle.Serialization.Ini

open Json (pushBack appendView)

abbrev Bytes := List UInt8

def space : UInt8 := 0x20
def carriageReturn : UInt8 := 0x0d
def lineFeed : UInt8 := 0x0a
def quote : UInt8 := 0x22
def apostrophe : UInt8 := 0x27
def backslash : UInt8 := 0x5c
def openBracket : UInt8 := 0x5b
def closeBracket : UInt8 := 0x5d
def equalsSign : UInt8 := 0x3d
def colon : UInt8 := 0x3a
def hash : UInt8 := 0x23
def semicolon : UInt8 := 0x3b

def asciiControlMax : UInt8 := 0x20

inductive ErrorCode where
  | none | invalidSection | invalidKey | invalidAssignment | invalidQuote | invalidEscape | capacity
  | outputFull
  deriving DecidableEq

structure Result where
  status : Status := .ok
  code : ErrorCode := .none
  line : ℕ := 0
  column : ℕ := 0
  deriving DecidableEq

def isSpace (c : UInt8) : Bool := c = space || c = 0x09 || c = 0x0b || c = 0x0c

def isLineEnd (c : UInt8) : Bool := c = carriageReturn || c = lineFeed

def trim (value : Bytes) : Bytes := ((value.dropWhile isSpace).rdropWhile isSpace).rdropWhile isLineEnd

def startsWithComment (line : Bytes) : Bool := line.head? = some hash || line.head? = some semicolon

/-- A control character that is no blank. -/
def isControl (c : UInt8) : Bool := c < asciiControlMax && !isSpace c

def validSectionName (name : Bytes) : Bool :=
  name.all fun c => !(c = openBracket || c = closeBracket || isLineEnd c || isControl c)

def validKeyName (key : Bytes) : Bool :=
  !key.isEmpty && key.all fun c =>
    !(c = equalsSign || c = colon || c = openBracket || c = closeBracket || isLineEnd c || isControl c)

def findSeparator (line : Bytes) : Option ℕ := line.findIdx? fun c => c = equalsSign || c = colon

/-- A character that is written between quotes only. -/
def isSpecial (c : UInt8) : Bool :=
  isSpace c || c = hash || c = semicolon || c = equalsSign || c = colon || c = openBracket || c = closeBracket ||
    c = quote || c = backslash || isLineEnd c || c < asciiControlMax

def needsQuotes (value : Bytes) : Bool :=
  value.isEmpty || value.head?.any isSpace || value.getLast?.any isSpace || value.any isSpecial

/-- `valid_escape` and `decode_escape` -/
def decodeEscape (c : UInt8) : Option UInt8 :=
  if c = quote then some quote
  else if c = backslash then some backslash
  else if c = 0x6e then some lineFeed
  else if c = 0x72 then some carriageReturn
  else if c = 0x74 then some 0x09
  else none

/-- A value without quotes, from the index `i` on. -/
def decodePlain (maxValueLength line column : ℕ) : ℕ → Bytes → Bytes → Except Result Bytes
  | _, [], output => .ok output
  | i, c :: raw, output =>
    if isLineEnd c then
      .error { status := .invalidArgument, code := .invalidAssignment, line := line, column := column + i }
    else if output.length = maxValueLength then
      .error { status := .full, code := .capacity, line := line, column := column + i }
    else decodePlain maxValueLength line column (i + 1) raw (output ++ [c])

/-- What stands between the quotes of a value, from the index `i` on. -/
def decodeQuoted (maxValueLength line column : ℕ) (delimiter : UInt8) :
    ℕ → Bytes → Bytes → Except Result Bytes
  | _, [], output => .ok output
  | i, c :: raw, output =>
    if c = backslash then
      match raw with
      | [] => .error { status := .invalidArgument, code := .invalidEscape, line := line, column := column + i }
      | escaped :: raw =>
        match decodeEscape escaped with
        | none =>
          .error { status := .invalidArgument, code := .invalidEscape, line := line, column := column + (i + 1) }
        | some decoded =>
          if output.length = maxValueLength then
            .error { status := .full, code := .capacity, line := line, column := column + (i + 1) }
          else decodeQuoted maxValueLength line column delimiter (i + 2) raw (output ++ [decoded])
    else if c = delimiter then
      .error { status := .invalidArgument, code := .invalidQuote, line := line, column := column + i }
    else if output.length = maxValueLength then
      .error { status := .full, code := .capacity, line := line, column := column + i }
    else decodeQuoted maxValueLength line column delimiter (i + 1) raw (output ++ [c])

def decodeValue (maxValueLength : ℕ) (raw : Bytes) (line column : ℕ) : Except Result Bytes :=
  match trim raw with
  | [] => .ok []
  | c :: text =>
    if c ≠ quote && c ≠ apostrophe then decodePlain maxValueLength line column 0 (c :: text) []
    else if text.getLast? ≠ some c then
      .error { status := .invalidArgument, code := .invalidQuote, line := line, column := column }
    else decodeQuoted maxValueLength line column c 1 text.dropLast []

/-- The template parameters. -/
structure Capacity where
  maxEntries : ℕ
  maxSectionLength : ℕ
  maxKeyLength : ℕ
  maxValueLength : ℕ

structure Entry where
  section_ : Bytes
  key : Bytes
  value : Bytes
  deriving DecidableEq

abbrev Document := List Entry

namespace Document

variable (cap : Capacity) (d : Document) (name key value : Bytes)

def findIndex : Option ℕ := d.findIdx? fun e => e.section_ = name && e.key = key

def setEntry : Except Status Document :=
  if !validSectionName name then .error .invalidArgument
  else if !validKeyName key then .error .invalidArgument
  else if name.length > cap.maxSectionLength || key.length > cap.maxKeyLength then .error .full
  else if value.length > cap.maxValueLength then .error .full
  else
    match d.findIndex name key with
    | some i => .ok (d.set i ⟨name, key, value⟩)
    | none => if d.length = cap.maxEntries then .error .full else .ok (d ++ [⟨name, key, value⟩])

end Document

inductive Line where
  | blank
  | header (name : Bytes)
  | assignment (key value : Bytes) (separator : ℕ)
  deriving DecidableEq

def readHeader (cap : Capacity) (number : ℕ) (trimmed : Bytes) : Except Result Line :=
  match trimmed.findIdx? (· = closeBracket) with
  | none => .error { status := .invalidArgument, code := .invalidSection, line := number, column := 1 }
  | some close =>
    let suffix := trim (trimmed.drop (close + 1))
    if !suffix.isEmpty && !startsWithComment suffix then
      .error { status := .invalidArgument, code := .invalidSection, line := number, column := close + 2 }
    else
      let name := trim ((trimmed.drop 1).take (close - 1))
      if name.isEmpty || !validSectionName name || name.length > cap.maxSectionLength then
        .error {
          status := if name.length > cap.maxSectionLength then .full else .invalidArgument
          code := if name.length > cap.maxSectionLength then .capacity else .invalidSection
          line := number
          column := 2 }
      else .ok (.header name)

def readAssignment (cap : Capacity) (number : ℕ) (trimmed : Bytes) : Except Result Line :=
  match findSeparator trimmed with
  | none => .error { status := .invalidArgument, code := .invalidAssignment, line := number, column := 1 }
  | some separator =>
    let key := trim (trimmed.take separator)
    if !validKeyName key || key.length > cap.maxKeyLength then
      .error {
        status := if key.length > cap.maxKeyLength then .full else .invalidArgument
        code := if key.length > cap.maxKeyLength then .capacity else .invalidKey
        line := number
        column := 1 }
    else do
      let value ← decodeValue cap.maxValueLength (trimmed.drop (separator + 1)) number (separator + 2)
      .ok (.assignment key value separator)

/-- The body of the loop of `parse_document`, up to the change of the document. -/
def readLine (cap : Capacity) (number : ℕ) (line : Bytes) : Except Result Line :=
  let trimmed := trim line
  if trimmed.isEmpty || startsWithComment trimmed then .ok .blank
  else if trimmed.head? = some openBracket then readHeader cap number trimmed
  else readAssignment cap number trimmed

/-- `output` and `current_section` -/
structure State where
  output : Document := []
  currentSection : Bytes := []
  deriving DecidableEq

def State.apply (cap : Capacity) (number : ℕ) (s : State) : Line → Except Result State
  | .blank => .ok s
  | .header name => .ok { s with currentSection := name }
  | .assignment key value separator =>
    match s.output.setEntry cap s.currentSection key value with
    | .ok output => .ok { s with output := output }
    | .error status =>
      .error {
        status := status
        code := if status = .full then .capacity else .invalidAssignment
        line := number
        column := separator + 1 }

/-- The lines of a text. Behind the last line end there is one more line only if the text goes on. -/
def splitLines : Bytes → List Bytes
  | [] => [[]]
  | c :: text =>
    if c = carriageReturn && text.head? = some lineFeed then splitLines text
    else if isLineEnd c then [] :: if text.isEmpty then [] else splitLines text
    else
      match splitLines text with
      | [] => [[c]]
      | line :: lines => (c :: line) :: lines

def parseLines (cap : Capacity) : ℕ → State → List Bytes → Except Result State
  | _, s, [] => .ok s
  | number, s, line :: lines => do
    let read ← readLine cap number line
    let s ← s.apply cap number read
    parseLines cap (number + 1) s lines

/-- `parse`; a failure clears the document. -/
def parse (cap : Capacity) (input : Bytes) : Except Result Document := do
  let s ← parseLines cap 1 {} (splitLines input)
  .ok s.output

/-- The `switch` of `append_escaped_value`. -/
def escapeChar (c : UInt8) : Bytes :=
  if c = quote then [backslash, quote]
  else if c = backslash then [backslash, backslash]
  else if c = lineFeed then [backslash, 0x6e]
  else if c = carriageReturn then [backslash, 0x72]
  else if c = 0x09 then [backslash, 0x74]
  else [c]

/-- The loop of `append_escaped_value`. -/
def appendChars (maxOutput : ℕ) (quoted : Bool) : Bytes → Bytes → Except Status Bytes
  | [], output => .ok output
  | c :: value, output => do
    let output ←
      if quoted && escapeChar c ≠ [c] then appendView maxOutput (escapeChar c) output
      else pushBack maxOutput c output
    appendChars maxOutput quoted value output

def appendEscapedValue (maxOutput : ℕ) (value output : Bytes) : Except Status Bytes := do
  let quoted := needsQuotes value
  let output ← if quoted then pushBack maxOutput quote output else .ok output
  let output ← appendChars maxOutput quoted value output
  if quoted then pushBack maxOutput quote output else .ok output

def appendLine (maxOutput : ℕ) (key value output : Bytes) : Except Status Bytes := do
  let output ← appendView maxOutput key output
  let output ← appendView maxOutput [space, equalsSign, space] output
  let output ← appendEscapedValue maxOutput value output
  pushBack maxOutput lineFeed output

def appendEntries (maxOutput : ℕ) (name : Bytes) : Document → Bytes → Except Status Bytes
  | [], output => .ok output
  | e :: entries, output => do
    let output ← if e.section_ = name then appendLine maxOutput e.key e.value output else .ok output
    appendEntries maxOutput name entries output

/-- The header of a section, its entries and an empty line. -/
def appendSection (maxOutput : ℕ) (input : Document) (name output : Bytes) : Except Status Bytes := do
  let output ← appendView maxOutput [openBracket] output
  let output ← appendView maxOutput name output
  let output ← appendView maxOutput [closeBracket, lineFeed] output
  let output ← appendEntries maxOutput name input output
  pushBack maxOutput lineFeed output

/-- The sections, each where its first entry is. -/
def appendSections (maxOutput : ℕ) (input : Document) : Document → Document → Bytes → Except Status Bytes
  | _, [], output => .ok output
  | previous, e :: entries, output => do
    let output ←
      if e.section_ = [] then .ok output
      else if previous.any (·.section_ = e.section_) then .ok output
      else appendSection maxOutput input e.section_ output
    appendSections maxOutput input (previous ++ [e]) entries output

/-- The empty line behind the entries without a section. -/
def appendGlobalEnd (maxOutput : ℕ) (input : Document) (output : Bytes) : Except Status Bytes :=
  if input.any (·.section_ = []) then pushBack maxOutput lineFeed output else .ok output

/-- `serialize`; an output is there only if it succeeds. -/
def serialize (maxOutput : ℕ) (input : Document) : Except Result Bytes :=
  (do
    let output ← appendEntries maxOutput [] input []
    let output ← appendGlobalEnd maxOutput input output
    appendSections maxOutput input [] input output : Except Status Bytes).mapError fun status =>
      { status := status, code := .outputFull }

end Castle.Serialization.Ini

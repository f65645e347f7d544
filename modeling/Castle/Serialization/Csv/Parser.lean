import Castle.Serialization.Json.Scanner

/-!
# CSV documents and their parser (`serialization/csv.hpp`)

The loop of `parser::run` goes over the text by index; here it goes over what the text has from
that index on. The strings of a document are the bytes they hold.
-/

namespace Castle.Serialization.Csv

open Json (pushBack appendView)

abbrev Bytes := List UInt8

def quote : UInt8 := 0x22
def carriageReturn : UInt8 := 0x0d
def lineFeed : UInt8 := 0x0a

def utf8Bom : Bytes := [0xef, 0xbb, 0xbf]

inductive ErrorCode where
  | none | unexpectedEnd | invalidQuote | invalidCharacter | invalidDelimiter | inconsistentColumns
  | capacity | outputFull | invalidArgument
  deriving DecidableEq

structure Result where
  status : Status := .ok
  code : ErrorCode := .none
  offset : ℕ := 0
  line : ℕ := 0
  column : ℕ := 0
  deriving DecidableEq

structure Options where
  delimiter : UInt8 := 0x2c
  strictColumns : Bool := false

def isLineEnd (value : UInt8) : Bool := value = carriageReturn || value = lineFeed

def isValidDelimiter (value : UInt8) : Bool := value ≠ 0 && value ≠ quote && !isLineEnd value

def containsNul (value : Bytes) : Bool := value.any (· = 0)

/-- The template parameters, with the assertions about them. -/
structure Capacity where
  maxRows : ℕ
  maxColumns : ℕ
  maxFieldLength : ℕ
  maxRows_pos : 0 < maxRows
  maxColumns_pos : 0 < maxColumns
  maxFieldLength_pos : 0 < maxFieldLength

/-- The rows of a document and their fields, as far as they are in use. -/
abbrev Document := List (List Bytes)

namespace Document

variable (cap : Capacity) (d : Document)

def fields (row : ℕ) : List Bytes := d.getD row []

def columnCount (row : ℕ) : ℕ := (d.fields row).length

def addRow : Except Status (ℕ × Document) :=
  if d.length = cap.maxRows then .error .full else .ok (d.length, d ++ [[]])

/-- `append` of a field behind a row. -/
def append (row : ℕ) (value : Bytes) : Except Status Document :=
  if row ≥ d.length then .error .outOfRange
  else if containsNul value then .error .invalidArgument
  else if d.columnCount row = cap.maxColumns then .error .full
  else if value.length > cap.maxFieldLength then .error .full
  else .ok (d.set row (d.fields row ++ [value]))

def appendCharacter (row column : ℕ) (value : UInt8) : Except Status Document :=
  if row ≥ d.length || column ≥ d.columnCount row then .error .outOfRange
  else if value = 0 then .error .invalidArgument
  else if ((d.fields row).getD column []).length = cap.maxFieldLength then .error .full
  else .ok (d.set row ((d.fields row).set column ((d.fields row).getD column [] ++ [value])))

end Document

/-- `offset_`, `line_` and `column_` -/
structure Position where
  offset : ℕ := 0
  line : ℕ := 1
  column : ℕ := 1
  deriving DecidableEq

/-- `consume_plain_char` -/
def Position.consumed (position : Position) : Position :=
  ⟨position.offset + 1, position.line, position.column + 1⟩

def Position.advanced (position : Position) : Position := ⟨position.offset + 1, position.line + 1, 1⟩

structure Parser where
  output : Document := []
  position : Position := {}
  row : Option ℕ := none
  fieldStarted : Bool := false
  inQuotes : Bool := false
  quoteClosed : Bool := false
  expectedColumns : ℕ := 0
  deriving DecidableEq

namespace Parser

variable (cap : Capacity) (options : Options) (p : Parser)

/-- `row_` where it is not `npos`. -/
def currentRow : ℕ := p.row.getD p.output.length

def fail (code : ErrorCode) : Result :=
  { status := if code = .capacity || code = .outputFull then .full else .invalidArgument
    code := code
    offset := p.position.offset
    line := p.position.line
    column := p.position.column }

def failCapacity (status : Status) : Result :=
  { p.fail .capacity with
    status := if status = .invalidArgument then .invalidArgument else .full
    code := if status = .invalidArgument then .invalidCharacter else .capacity }

def store (change : Except Status Document) : Except Result Parser :=
  match change with
  | .ok output => .ok { p with output := output }
  | .error status => .error (p.failCapacity status)

def ensureRow : Except Result Parser :=
  match p.output.addRow cap with
  | .ok (row, output) => .ok { p with output := output, row := some row }
  | .error status => .error (p.failCapacity status)

def ensureField : Except Result Parser :=
  if p.output.columnCount p.currentRow ≠ 0 || p.fieldStarted || p.quoteClosed then .ok p
  else p.store (p.output.append cap p.currentRow [])

def beginNextField : Except Result Parser :=
  { p with fieldStarted := false, quoteClosed := false }.store (p.output.append cap p.currentRow [])

def appendChar (value : UInt8) : Except Result Parser :=
  p.store <|
    if value = 0 then .error .invalidArgument
    else if p.output.columnCount p.currentRow = 0 then .error .outOfRange
    else p.output.appendCharacter cap p.currentRow (p.output.columnCount p.currentRow - 1) value

def finishRecord : Except Result Parser :=
  let columns := p.output.columnCount p.currentRow
  let next : Parser := { p with row := none, fieldStarted := false, inQuotes := false, quoteClosed := false }
  if options.strictColumns then
    if p.expectedColumns = 0 then .ok { next with expectedColumns := columns }
    else if columns ≠ p.expectedColumns then .error (p.fail .inconsistentColumns)
    else .ok next
  else .ok next

def consumed : Parser := { p with position := p.position.consumed }

def advanced : Parser := { p with position := p.position.advanced }

/-- Whether a line ends with two characters. -/
def isCrLf (current : UInt8) (rest : Bytes) :
    Bool := current = carriageReturn && rest.head? = some lineFeed

/-- A character between quotes. -/
def stepInQuotes (current : UInt8) (rest : Bytes) : Except Result (Parser × Bytes) :=
  if current = quote then
    if rest.head? = some quote then do
      let p ← p.appendChar cap quote
      .ok (p.consumed.consumed, rest.tail)
    else .ok ({ p with inQuotes := false, quoteClosed := true }.consumed, rest)
  else do
    let p ← p.appendChar cap current
    if isLineEnd current then
      if isCrLf current rest then
        let p ← p.appendChar cap lineFeed
        .ok (p.consumed.advanced, rest.tail)
      else .ok (p.advanced, rest)
    else .ok (p.consumed, rest)

/-- The end of a record, behind which a line feed may belong to its carriage return. -/
def stepLineEnd (current : UInt8) (rest : Bytes) : Except Result (Parser × Bytes) := do
  let p ← p.finishRecord options
  if isCrLf current rest then .ok (p.consumed.advanced, rest.tail) else .ok (p.advanced, rest)

def stepQuoteClosed (current : UInt8) (rest : Bytes) : Except Result (Parser × Bytes) :=
  if current = options.delimiter then do
    let p ← p.beginNextField cap
    .ok (p.consumed, rest)
  else if isLineEnd current then p.stepLineEnd options current rest
  else .error (p.fail .invalidQuote)

/-- A character outside of quotes. -/
def stepPlain (current : UInt8) (rest : Bytes) : Except Result (Parser × Bytes) :=
  if current = options.delimiter then do
    let p ← p.ensureField cap
    let p ← { p with fieldStarted := false }.beginNextField cap
    .ok (p.consumed, rest)
  else if isLineEnd current then do
    let p ← p.ensureField cap
    p.stepLineEnd options current rest
  else if current = quote then
    if p.fieldStarted then .error (p.fail .invalidQuote)
    else do
      let p ← p.ensureField cap
      .ok ({ p with fieldStarted := true, inQuotes := true }.consumed, rest)
  else do
    let p ← p.ensureField cap
    let p ← { p with fieldStarted := true }.appendChar cap current
    .ok (p.consumed, rest)

/-- The row that a character belongs to. -/
def inRow : Except Result Parser := if p.row = none then p.ensureRow cap else .ok p

/-- One round of the loop of `run`. -/
def step (current : UInt8) (rest : Bytes) : Except Result (Parser × Bytes) := do
  let p ← p.inRow cap
  if p.inQuotes then p.stepInQuotes cap current rest
  else if p.quoteClosed then p.stepQuoteClosed cap options current rest
  else p.stepPlain cap options current rest

/-- The loop of `run` and what follows it. Every round takes at least one character. -/
def loop : ℕ → Parser → Bytes → Except Result Parser
  | _, p, [] => if p.inQuotes then .error (p.fail .unexpectedEnd) else .ok p
  | 0, p, _ :: _ => .ok p
  | fuel + 1, p, current :: rest => do
    let (p, rest) ← p.step cap options current rest
    loop fuel p rest

end Parser

/-- `parse`; a failure clears the document. -/
def parse (cap : Capacity) (source : Bytes) (options : Options) : Except Result Document :=
  if !isValidDelimiter options.delimiter then .error (({} : Parser).fail .invalidDelimiter)
  else do
    let marked := utf8Bom.isPrefixOf source
    let text := if marked then source.drop 3 else source
    let p ← ({ position.offset := if marked then 3 else 0 } : Parser).loop cap options text.length text
    .ok p.output

/-- The first loop of `append_serialized_field`. -/
def needsQuotes (delimiter : UInt8) (value : Bytes) : Bool :=
  value.any fun c => c = delimiter || c = quote || c = carriageReturn || c = lineFeed

/-- The second loop of `append_serialized_field`. -/
def appendQuoted (maxOutput : ℕ) : Bytes → Bytes → Except Status Bytes
  | [], output => .ok output
  | c :: value, output => do
    let output ← if c = quote then appendView maxOutput [quote, quote] output else pushBack maxOutput c output
    appendQuoted maxOutput value output

def appendSerializedField (maxOutput : ℕ) (value : Bytes) (delimiter : UInt8) (output : Bytes) :
    Except Status Bytes :=
  if containsNul value then .error .invalidArgument
  else if !needsQuotes delimiter value then appendView maxOutput value output
  else do
    let output ← pushBack maxOutput quote output
    let output ← appendQuoted maxOutput value output
    pushBack maxOutput quote output

def outputFailure (status : Status) : Result :=
  { status := status, code := if status = .invalidArgument then .invalidCharacter else .outputFull }

/-- The fields of a row from one of its columns on. -/
def serializeFields (maxOutput : ℕ) (delimiter : UInt8) : ℕ → List Bytes → Bytes → Except Status Bytes
  | _, [], output => .ok output
  | column, field :: fields, output => do
    let output ← if column > 0 then pushBack maxOutput delimiter output else .ok output
    let output ← appendSerializedField maxOutput field delimiter output
    serializeFields maxOutput delimiter (column + 1) fields output

def serializeRows (maxOutput : ℕ) (delimiter : UInt8) : Document → Bytes → Except Status Bytes
  | [], output => .ok output
  | row :: rows, output => do
    let output ← serializeFields maxOutput delimiter 0 row output
    let output ← pushBack maxOutput lineFeed output
    serializeRows maxOutput delimiter rows output

/-- `serialize`; an output is there only if it succeeds. -/
def serialize (maxOutput : ℕ) (input : Document) (options : Options) : Except Result Bytes :=
  if !isValidDelimiter options.delimiter then
    .error { status := .invalidArgument, code := .invalidDelimiter }
  else (serializeRows maxOutput options.delimiter input []).mapError outputFailure

end Castle.Serialization.Csv

/-!
## The texts of CSV documents

A field stands in a text as it is, or between quotes, where a quote is doubled. `Reads` tells
which documents a text may be read as. `documentText` is the text the serializer writes.
-/

namespace Castle.Serialization.Csv

/-- A character that may stand in a field without quotes. -/
def ordinary (delimiter c : UInt8) : Bool := c ≠ 0 && c ≠ delimiter && c ≠ quote && !isLineEnd c

def escaped (field : Bytes) : Bytes := field.flatMap fun c => if c = quote then [quote, quote] else [c]

def quotedText (field : Bytes) : Bytes := quote :: (escaped field ++ [quote])

inductive FieldText (delimiter : UInt8) : Bytes → Bytes → Prop
  | plain (field : Bytes) (h : ∀ c ∈ field, ordinary delimiter c = true) : FieldText delimiter field field
  | quoted (field : Bytes) (h : ∀ c ∈ field, c ≠ 0) : FieldText delimiter (quotedText field) field

def LineEnd (eol text : Bytes) : Prop :=
  eol = [lineFeed] ∨ eol = [carriageReturn, lineFeed] ∨
    (eol = [carriageReturn] ∧ text.head? ≠ some lineFeed)

/-- The rows that a text is read as, at the begin of a row or behind the fields of a row. -/
inductive Reads (delimiter : UInt8) : Option (List Bytes) → Bytes → Document → Prop
  | nil : Reads delimiter none [] []
  | first {t field text : Bytes} {rows : Document} (hfield : FieldText delimiter t field) (hne : t ++ text ≠ [])
    (hrest : Reads delimiter (some [field]) text rows) : Reads delimiter none (t ++ text) rows
  | next {row : List Bytes} {t field text : Bytes} {rows : Document} (hfield : FieldText delimiter t field)
    (hrest : Reads delimiter (some (row ++ [field])) text rows) :
    Reads delimiter (some row) (delimiter :: (t ++ text)) rows
  | line {row : List Bytes} {eol text : Bytes} {rows : Document} (heol : LineEnd eol text)
    (hrest : Reads delimiter none text rows) : Reads delimiter (some row) (eol ++ text) (row :: rows)
  | last {row : List Bytes} : Reads delimiter (some row) [] [row]

def fieldText (delimiter : UInt8) (field : Bytes) : Bytes :=
  if needsQuotes delimiter field then quotedText field else field

/-- The fields of a row behind its first. -/
def moreText (delimiter : UInt8) (fields : List Bytes) : Bytes :=
  fields.flatMap fun field => delimiter :: fieldText delimiter field

def rowText (delimiter : UInt8) : List Bytes → Bytes
  | [] => []
  | field :: fields => fieldText delimiter field ++ moreText delimiter fields

def documentText (delimiter : UInt8) (rows : Document) : Bytes :=
  rows.flatMap fun row => rowText delimiter row ++ [lineFeed]

/-- A row that a document of this capacity has room for. -/
structure RowFits (cap : Capacity) (row : List Bytes) : Prop where
  columns : row.length ≤ cap.maxColumns
  fields : ∀ field ∈ row, field.length ≤ cap.maxFieldLength

structure Fits (cap : Capacity) (rows : Document) : Prop where
  count : rows.length ≤ cap.maxRows
  row : ∀ row ∈ rows, RowFits cap row

/-- Rows as a text can have them. -/
structure WellFormedRow (row : List Bytes) : Prop where
  nonempty : row ≠ []
  noNul : ∀ field ∈ row, ∀ c ∈ field, c ≠ 0

variable {delimiter : UInt8}

theorem FieldText.noNul {t field : Bytes} (h : FieldText delimiter t field) : ∀ c ∈ field, c ≠ 0 := by
  cases h with
  | plain _ h =>
    intro c hc
    have hordinary := h c hc
    simp only [ordinary, Bool.and_eq_true, decide_eq_true_eq] at hordinary
    exact hordinary.1.1.1
  | quoted _ h => exact h

theorem Reads.wellFormed {start : Option (List Bytes)} {text : Bytes} {rows : Document}
    (h : Reads delimiter start text rows) (hstart : ∀ row ∈ start, WellFormedRow row) :
    ∀ row ∈ rows, WellFormedRow row := by
  induction h with
  | nil =>
    intro row hrow
    cases hrow
  | first hfield hne hrest ih =>
    apply ih
    rintro row ⟨⟩
    refine ⟨List.cons_ne_nil _ _, fun field hmem => ?_⟩
    rw [List.mem_singleton.mp hmem]
    exact hfield.noNul
  | next hfield hrest ih =>
    apply ih
    rintro row ⟨⟩
    refine ⟨List.append_ne_nil_of_right_ne_nil _ (List.cons_ne_nil _ _), fun field hmem => ?_⟩
    rcases List.mem_append.mp hmem with hmem | hmem
    · exact (hstart _ rfl).noNul field hmem
    · rw [List.mem_singleton.mp hmem]
      exact hfield.noNul
  | line heol hrest ih =>
    intro row hrow
    rcases List.mem_cons.mp hrow with rfl | hrow
    · exact hstart _ rfl
    · exact ih (fun row hnone => nomatch hnone) row hrow
  | last =>
    intro row hrow
    rw [List.mem_singleton.mp hrow]
    exact hstart _ rfl

theorem fieldText_spells {field : Bytes} (h : ∀ c ∈ field, c ≠ 0) :
    FieldText delimiter (fieldText delimiter field) field := by
  rw [fieldText]
  split
  · exact .quoted field h
  next hplain =>
    refine .plain field fun c hc => ?_
    rw [needsQuotes, List.any_eq_true] at hplain
    have hc0 := h c hc
    have hother : ¬(c = delimiter ∨ c = quote ∨ c = carriageReturn ∨ c = lineFeed) :=
      fun hspecial => hplain ⟨c, hc, by simpa [or_assoc] using hspecial⟩
    simp only [ordinary, isLineEnd, Bool.and_eq_true, decide_eq_true_eq, Bool.not_eq_true',
      Bool.or_eq_false_iff, decide_eq_false_iff_not]
    simp only [not_or] at hother
    exact ⟨⟨⟨hc0, hother.1⟩, hother.2.1⟩, hother.2.2⟩

end Castle.Serialization.Csv

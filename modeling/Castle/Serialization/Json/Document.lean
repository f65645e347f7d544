import Castle.Serialization.Json.Scanner

/-!
# Documents (`json.hpp`, class `document`)

Nodes are linked by indices: to the parent, the first and the last child, and the next
sibling. Keys and scalars are ranges of one storage of bytes. Handles are `none` for `npos`.
-/

namespace Castle.Serialization.Json

/-- The template parameters. -/
structure Capacity where
  maxNodes : ℕ
  maxStringBytes : ℕ
  maxDepth : ℕ
  maxNodes_pos : 0 < maxNodes
  maxStringBytes_pos : 0 < maxStringBytes
  maxDepth_pos : 0 < maxDepth

structure Node where
  kind : Kind := .null
  parent : Option ℕ := none
  firstChild : Option ℕ := none
  lastChild : Option ℕ := none
  nextSibling : Option ℕ := none
  keyOffset : ℕ := 0
  keySize : ℕ := 0
  valueOffset : ℕ := 0
  valueSize : ℕ := 0
  deriving DecidableEq

/-- The nodes and bytes in use. -/
structure Document (cap : Capacity) where
  nodes : List Node
  storage : Bytes
  deriving DecidableEq

namespace Document

variable {cap : Capacity} (d : Document cap)

def empty : Document cap := ⟨[], []⟩

def valid : Option ℕ → Bool
  | none => false
  | some i => i < d.nodes.length

def root : Option ℕ := if d.nodes.length = 0 then none else some 0

def node (i : ℕ) : Node := d.nodes[i]?.getD {}

def kind (id : Option ℕ) : Kind :=
  match id with
  | none => .null
  | some i => if i < d.nodes.length then (d.node i).kind else .null

def firstChild (i : ℕ) : Option ℕ := (d.node i).firstChild

def nextSibling (i : ℕ) : Option ℕ := (d.node i).nextSibling

def view (offset length : ℕ) : Bytes :=
  if length = 0 then [] else (d.storage.drop offset).take length

def key (i : ℕ) : Bytes := d.view (d.node i).keyOffset (d.node i).keySize

def scalar (i : ℕ) : Bytes := d.view (d.node i).valueOffset (d.node i).valueSize

/-- The offset and length of the stored bytes; none when they do not fit. -/
def store (value : Bytes) : Option (ℕ × ℕ × Document cap) :=
  if value.length > cap.maxStringBytes - d.storage.length then none
  else some (d.storage.length, value.length, { d with storage := d.storage ++ value })

/-- The end of `add_node`: node `out` is a child of `parent`. -/
def linkChild (nodes : List Node) (parent out : ℕ) : List Node :=
  let nodes :=
    match (nodes[parent]?.getD {}).firstChild with
    | none => nodes.modify parent fun n => { n with firstChild := some out }
    | some _ =>
      match (nodes[parent]?.getD {}).lastChild with
      | none => nodes
      | some last => nodes.modify last fun n => { n with nextSibling := some out }
  nodes.modify parent fun n => { n with lastChild := some out }

def addNode (kind : Kind) (parent : Option ℕ) (keyName value : Bytes) :
    Status × Option ℕ × Document cap :=
  if parent ≠ none && !d.valid parent then (.invalidArgument, none, d)
  else
    let value := if kind.isContainer then [] else value
    if parent = none && d.nodes.length ≠ 0 then (.alreadyExists, none, d)
    else if parent ≠ none && d.kind parent = .object && keyName.isEmpty then
      (.invalidArgument, none, d)
    else if parent ≠ none && d.kind parent = .array && !keyName.isEmpty then
      (.invalidArgument, none, d)
    else if d.nodes.length = cap.maxNodes then (.full, none, d)
    else
      match d.store keyName with
      | none => (.full, none, d)
      | some (keyOffset, keySize, d₁) =>
        match d₁.store value with
        | none => (.full, none, d)
        | some (valueOffset, valueSize, d₂) =>
          let out := d₂.nodes.length
          let nodes :=
            d₂.nodes ++ [{ kind, parent, keyOffset, keySize, valueOffset, valueSize }]
          let nodes :=
            match parent with
            | none => nodes
            | some p => linkChild nodes p out
          (.ok, some out, { d₂ with nodes })

def setNull (parent : Option ℕ) (keyName : Bytes) : Status × Option ℕ × Document cap :=
  d.addNode .null parent keyName []

def setBool (value : Bool) (parent : Option ℕ) (keyName : Bytes) :
    Status × Option ℕ × Document cap :=
  d.addNode .boolean parent keyName (if value then trueText else falseText)

def setString (value : Bytes) (parent : Option ℕ) (keyName : Bytes) :
    Status × Option ℕ × Document cap :=
  d.addNode .string parent keyName value

def setNumber (value : Bytes) (parent : Option ℕ) (keyName : Bytes) :
    Status × Option ℕ × Document cap :=
  if !validNumber value then (.invalidArgument, none, d)
  else d.addNode .number parent keyName value

def makeObject (parent : Option ℕ) (keyName : Bytes) : Status × Option ℕ × Document cap :=
  d.addNode .object parent keyName []

def makeArray (parent : Option ℕ) (keyName : Bytes) : Status × Option ℕ × Document cap :=
  d.addNode .array parent keyName []

def setInteger (value : ℤ) (parent : Option ℕ) (keyName : Bytes) :
    Status × Option ℕ × Document cap :=
  match formatInteger value with
  | none => (.full, none, d)
  | some encoded => d.setNumber encoded parent keyName

def append (parent : Option ℕ) (kind : Kind) (value keyName : Bytes) :
    Status × Option ℕ × Document cap :=
  if !d.valid parent || (d.kind parent ≠ .array && d.kind parent ≠ .object) then
    (.invalidArgument, none, d)
  else if d.kind parent = .object && keyName.isEmpty then (.invalidArgument, none, d)
  else d.addNode kind parent keyName value

/-- The nodes from `id` on along the siblings. -/
def siblings : ℕ → Option ℕ → List ℕ
  | _, none => []
  | 0, some _ => []
  | fuel + 1, some i => i :: siblings fuel (d.nextSibling i)

def children (i : ℕ) : List ℕ := d.siblings d.nodes.length (d.firstChild i)

end Document

/-- Children in a list, with their keys. -/
def Forest.ofList : List (Bytes × Tree) → Forest
  | [] => .nil
  | (key, child) :: rest => .cons key child (ofList rest)

namespace Document

variable {cap : Capacity} (d : Document cap)

/-- What a node stands for; a null node has no text. -/
def treeAt : ℕ → ℕ → Tree
  | 0, _ => .node .null [] .nil
  | fuel + 1, i =>
    .node (d.node i).kind (if (d.node i).kind = .null then [] else d.scalar i)
      (Forest.ofList ((d.children i).map fun c => (d.key c, treeAt fuel c)))

def tree : Tree := d.treeAt d.nodes.length 0

end Document

/-!
## Parsing (`json.hpp`, class `parser`)

The recursion runs on fuel, and `none` means that the fuel ran out. The handle that a
value is stored under goes to the loop of its container only.
-/

/-- The members of `parser` that change. -/
structure Parser (cap : Capacity) where
  doc : Document cap
  position : ℕ
  depth : ℕ

namespace Parser

variable {cap : Capacity} (source : Bytes) (p : Parser cap)

def lineColumn (text : Bytes) : ℕ × ℕ :=
  text.foldl (fun at' c => if c = lineFeed then (at'.1 + 1, 1) else (at'.1, at'.2 + 1)) (1, 1)

def fail (code : ErrorCode) : Result where
  status := .invalidArgument
  code := code
  offset := p.position
  line := (lineColumn (source.take p.position)).1
  column := (lineColumn (source.take p.position)).2

def capacityResult (s : Status) : Result where
  status := s
  code := .capacity
  offset := p.position

/-- `++position_` -/
def advance : Parser cap := { p with position := p.position + 1 }

/-- `--depth_` -/
def leave : Parser cap := { p with depth := p.depth - 1 }

def skipSpace : Parser cap :=
  { p with position := p.position + ((source.drop p.position).takeWhile isSpace).length }

/-- The end of every function that adds a node. -/
def stored (added : Status × Option ℕ × Document cap) : Result × Parser cap :=
  let p := { p with doc := added.2.2 }
  (if added.1 = .ok then {} else p.capacityResult added.1, p)

def parseLiteral (parent : Option ℕ) (keyName literal : Bytes) (kind : Kind) :
    Result × Parser cap :=
  if p.position + literal.length > source.length then (p.fail source .unexpectedEnd, p)
  else if (source.drop p.position).take literal.length ≠ literal then
    (p.fail source .invalidLiteral, p)
  else
    let p := { p with position := p.position + literal.length }
    if kind = .boolean then
      p.stored (p.doc.setBool (literal.head? = some letterLowerT) parent keyName)
    else p.stored (p.doc.setNull parent keyName)

/-- The loop of `parse_number`: whether it ends at a delimiter, and where. -/
def scanNumber : Bytes → ℕ → Bool × ℕ
  | [], position => (true, position)
  | c :: rest, position =>
    if isNumberDelimiter c then (true, position)
    else if !isNumberChar c then (false, position)
    else scanNumber rest (position + 1)

def parseNumber (parent : Option ℕ) (keyName : Bytes) : Result × Parser cap :=
  let start := p.position
  let (delimited, position) := scanNumber (source.drop start) start
  let p := { p with position }
  if !delimited then (p.fail source .invalidNumber, p)
  else
    let number := (source.drop start).take (position - start)
    if !validNumber number then (p.fail source .invalidNumber, p)
    else p.stored (p.doc.setNumber number parent keyName)

def parseStringValue (parent : Option ℕ) (keyName : Bytes) : Result × Parser cap :=
  let (r, position, value) := decodeString cap.maxStringBytes source p.position
  let p := { p with position }
  if !r.succeeded then (r, p) else p.stored (p.doc.setString value parent keyName)

/-- What follows a child in both loops. -/
def afterChild (close : UInt8) (loop : Parser cap → Option (Result × Parser cap)) :
    Option (Result × Parser cap) :=
  let p := p.skipSpace source
  if source[p.position]? = some close then some ({}, p.advance.leave)
  else if source[p.position]? ≠ some comma then
    some (p.fail source .unexpectedToken, p.leave)
  else loop (p.advance.skipSpace source)

/-- `parse_object` and `parse_array` up to the loop. -/
def parseContainer (make : Document cap → Status × Option ℕ × Document cap) (close : UInt8)
    (loop : Option ℕ → Parser cap → Option (Result × Parser cap)) :
    Option (Result × Parser cap) :=
  let p := { p.advance with depth := p.depth + 1 }
  if p.depth > cap.maxDepth then some (p.fail source .depthExceeded, p.leave)
  else
    let (s, out, doc) := make p.doc
    let p := { p with doc }
    if s ≠ .ok then some (p.capacityResult s, p.leave)
    else
      let p := p.skipSpace source
      if source[p.position]? = some close then some ({}, p.advance.leave) else loop out p

def parseObject (parent : Option ℕ) (keyName : Bytes)
    (loop : Option ℕ → Parser cap → Option (Result × Parser cap)) :
    Option (Result × Parser cap) :=
  p.parseContainer source (fun doc => doc.makeObject parent keyName) closeBrace loop

def parseArray (parent : Option ℕ) (keyName : Bytes)
    (loop : Option ℕ → Parser cap → Option (Result × Parser cap)) :
    Option (Result × Parser cap) :=
  p.parseContainer source (fun doc => doc.makeArray parent keyName) closeBracket loop

mutual

def parseValue (source : Bytes) :
    ℕ → Option ℕ → Bytes → Parser cap → Option (Result × Parser cap)
  | 0, _, _, _ => none
  | fuel + 1, parent, keyName, p =>
    let p := p.skipSpace source
    match source[p.position]? with
    | none => some (p.fail source .unexpectedEnd, p)
    | some c =>
      if c = openBrace then p.parseObject source parent keyName (objectLoop source fuel)
      else if c = openBracket then p.parseArray source parent keyName (arrayLoop source fuel)
      else if c = quote then some (p.parseStringValue source parent keyName)
      else if c = letterLowerT then
        some (p.parseLiteral source parent keyName trueText .boolean)
      else if c = letterLowerF then
        some (p.parseLiteral source parent keyName falseText .boolean)
      else if c = letterLowerN then some (p.parseLiteral source parent keyName nullText .null)
      else if c = minus || isDigit c then some (p.parseNumber source parent keyName)
      else some (p.fail source .unexpectedToken, p)

/-- The loop of `parse_object`. -/
def objectLoop (source : Bytes) : ℕ → Option ℕ → Parser cap → Option (Result × Parser cap)
  | 0, _, _ => none
  | fuel + 1, out, p =>
    match source[p.position]? with
    | none => some (p.fail source .unexpectedEnd, p.leave)
    | some c =>
      if c ≠ quote then some (p.fail source .unexpectedToken, p.leave)
      else
        let (kr, position, key) := decodeString cap.maxStringBytes source p.position
        let p := { p with position }
        if !kr.succeeded then some (kr, p.leave)
        else
          let p := p.skipSpace source
          if source[p.position]? ≠ some colon then
            some (p.fail source .unexpectedToken, p.leave)
          else
            match parseValue source fuel out key p.advance with
            | none => none
            | some (vr, p) =>
              if !vr.succeeded then some (vr, p.leave)
              else p.afterChild source closeBrace (objectLoop source fuel out)

/-- The loop of `parse_array`. -/
def arrayLoop (source : Bytes) : ℕ → Option ℕ → Parser cap → Option (Result × Parser cap)
  | 0, _, _ => none
  | fuel + 1, out, p =>
    match source[p.position]? with
    | none => some (p.fail source .unexpectedEnd, p.leave)
    | some _ =>
      match parseValue source fuel out [] p with
      | none => none
      | some (vr, p) =>
        if !vr.succeeded then some (vr, p.leave)
        else p.afterChild source closeBracket (arrayLoop source fuel out)

end

/-- `run`, with more fuel than the text has use for. A document with trailing text behind it
stays as it is. -/
def run (cap : Capacity) (source : Bytes) : Option (Result × Document cap) :=
  let p : Parser cap := skipSpace source ⟨.empty, 0, 0⟩
  match parseValue source (2 * source.length + 2) none [] p with
  | none => none
  | some (r, p) =>
    if !r.succeeded then some (r, .empty)
    else
      let p := p.skipSpace source
      if p.position ≠ source.length then some (p.fail source .unexpectedToken, p.doc)
      else some (r, p.doc)

end Parser

/-- `parse` clears the document before anything else. -/
def parse {cap : Capacity} (_ : Document cap) (source : Bytes) : Option (Result × Document cap) :=
  Parser.run cap source

/-!
## Serializing (`json.hpp`, `serialize_node` and `serialize`)

The recursion runs on fuel; the error `none` means that the fuel ran out.
-/

/-- The output of a writer that runs on fuel. -/
abbrev Written := Except (Option Status) Bytes

/-- A writer without fuel. -/
def failing (written : Except Status Bytes) : Written := written.mapError some

def writeSpaces (cap : ℕ) : ℕ → Bytes → Except Status Bytes
  | 0, output => .ok output
  | n + 1, output => do
    let output ← pushBack cap space output
    writeSpaces cap n output

/-- The product is taken in `size_type`. -/
def writeIndent (cap depth spaces : ℕ) (output : Bytes) : Except Status Bytes :=
  writeSpaces cap (depth * spaces % 2 ^ 64) output

/-- What `pretty` adds. -/
def whenPretty (pretty : Bool) (write : Bytes → Except Status Bytes) (output : Bytes) :
    Except Status Bytes :=
  if pretty then write output else .ok output

structure Layout where
  pretty : Bool
  spaces : ℕ

namespace Document

variable {cap : Capacity} (d : Document cap) (maxOutput : ℕ) (layout : Layout)

def string (i : ℕ) : Bytes := if d.kind (some i) = .string then d.scalar i else []

def writeSeparator (first : Bool) (output : Bytes) : Except Status Bytes :=
  if first then .ok output
  else do
    let output ← pushBack maxOutput comma output
    whenPretty layout.pretty (pushBack maxOutput lineFeed) output

/-- The key of a member. Every failure is reported as `full`. -/
def writeKey (object : Bool) (key output : Bytes) : Except Status Bytes :=
  if object then do
    let output ← (appendEscaped maxOutput key output).mapError fun _ => .full
    let output ← pushBack maxOutput colon output
    whenPretty layout.pretty (pushBack maxOutput space) output
  else .ok output

/-- The body of the loop over the children, up to the recursive call. -/
def serializeKey (object first : Bool) (depth child : ℕ) (output : Bytes) :
    Except Status Bytes := do
  let output ← writeSeparator maxOutput layout first output
  let output ←
    whenPretty layout.pretty (writeIndent maxOutput (depth + 1) layout.spaces) output
  writeKey maxOutput layout object (d.key child) output

def serializeChildren (serializeChild : ℕ → Bytes → Written) (object : Bool) (depth : ℕ) :
    Bool → List ℕ → Bytes → Written
  | _, [], output => .ok output
  | first, child :: children, output => do
    let output ← failing (d.serializeKey maxOutput layout object first depth child output)
    let output ← serializeChild child output
    serializeChildren serializeChild object depth false children output

def serializeNode : ℕ → ℕ → ℕ → Bytes → Written
  | 0, _, _, _ => .error none
  | fuel + 1, id, depth, output =>
    match d.kind (some id) with
    | .null => failing (appendView maxOutput nullText output)
    | .boolean | .number => failing (appendView maxOutput (d.scalar id) output)
    | .string => failing (appendEscaped maxOutput (d.string id) output)
    | kind => do
      let object := decide (kind = .object)
      let close := if object then closeBrace else closeBracket
      let output ← failing (pushBack maxOutput (if object then openBrace else openBracket) output)
      if d.firstChild id = none then failing (pushBack maxOutput close output)
      else do
        let output ← failing (whenPretty layout.pretty (pushBack maxOutput lineFeed) output)
        let output ← d.serializeChildren maxOutput layout
          (fun child => serializeNode fuel child (depth + 1)) object depth true (d.children id) output
        let output ← failing (whenPretty layout.pretty (pushBack maxOutput lineFeed) output)
        let output ← failing
          (whenPretty layout.pretty (writeIndent maxOutput depth layout.spaces) output)
        failing (pushBack maxOutput close output)

/-- The result and the output; `none` when the fuel runs out. -/
def serialize : Option (Result × Bytes) :=
  match d.root with
  | none => some ({ status := .empty }, [])
  | some root =>
    match d.serializeNode maxOutput layout d.nodes.length root 0 [] with
    | .error none => none
    | .error (some s) => some ({ status := s, code := .outputFull }, [])
    | .ok output => some ({}, output)

end Document
end Castle.Serialization.Json

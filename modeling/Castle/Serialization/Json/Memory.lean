import Castle.Lib.Table
import Castle.Serialization.Json.Builder

/-!
# Documents in memory (`json.hpp`, classes `document` and `parser`)

All slots of `nodes_` and all bytes of `storage_`, those in use and those behind them. `clear` only
resets the two counters, so that later calls find slots and bytes with what was in them before.
The parser is the one over documents, with the document in memory.
-/

namespace Castle.Serialization.Json

/-- `storage_` and `used_` -/
structure Arena (size : ℕ) where
  storage : Table size UInt8
  used : ℕ
  used_le : used ≤ size

namespace Arena

variable {size : ℕ} (a : Arena size)

def empty (size : ℕ) : Arena size := ⟨.replicate size 0, 0, Nat.zero_le size⟩

/-- `used_ = 0` -/
def clear : Arena size := ⟨a.storage, 0, Nat.zero_le size⟩

/-- The loop of `store`. -/
def copyTo : Bytes → ℕ → Bytes → Bytes
  | storage, _, [] => storage
  | storage, i, c :: value => copyTo (storage.set i c) (i + 1) value

@[simp] theorem length_copyTo (storage : Bytes) (i : ℕ) (value : Bytes) :
    (copyTo storage i value).length = storage.length := by
  induction value generalizing storage i with
  | nil => rfl
  | cons c value ih => rw [copyTo, ih, List.length_set]

theorem stored_le {used length : ℕ} (hle : used ≤ size) (h : ¬ length > size - used) :
    used + length ≤ size := by omega

/-- The offset and the length of the stored bytes; none when they do not fit. -/
def store (value : Bytes) : Option (ℕ × ℕ × Arena size) :=
  if h : value.length > size - a.used then none
  else some (a.used, value.length,
    { storage := ⟨copyTo a.storage.cells a.used value,
        (length_copyTo _ _ _).trans a.storage.size_eq⟩
      used := a.used + value.length
      used_le := stored_le a.used_le h })

/-- `used_ -= length` -/
def release (length : ℕ) : Arena size :=
  ⟨a.storage, a.used - length, (Nat.sub_le _ _).trans a.used_le⟩

end Arena

/-- The members of `document`. -/
structure Memory (cap : Capacity) where
  nodes : Table cap.maxNodes Node
  nodeCount : ℕ
  arena : Arena cap.maxStringBytes
  count_le : nodeCount ≤ cap.maxNodes

namespace Memory

open Document (linkChild)

variable {cap : Capacity} (m : Memory cap)

def initial (cap : Capacity) : Memory cap :=
  ⟨.replicate cap.maxNodes {}, 0, .empty cap.maxStringBytes, Nat.zero_le _⟩

def clear : Memory cap := ⟨m.nodes, 0, m.arena.clear, Nat.zero_le _⟩

def valid : Option ℕ → Bool
  | none => false
  | some i => i < m.nodeCount

/-- `nodes_[i]` -/
def node (i : ℕ) : Node := m.nodes.cells[i]?.getD {}

def kind (id : Option ℕ) : Kind :=
  match id with
  | none => .null
  | some i => if i < m.nodeCount then (m.node i).kind else .null

theorem length_linkChild (nodes : List Node) (parent out : ℕ) :
    (linkChild nodes parent out).length = nodes.length := by
  unfold linkChild
  dsimp only
  rw [List.length_modify]
  split
  · rw [List.length_modify]
  · split
    · rfl
    · rw [List.length_modify]

/-- The slots after `nodes_[out] = candidate` and the links of its parent. -/
def linked (nodes : List Node) (out : ℕ) (candidate : Node) : List Node :=
  match candidate.parent with
  | none => nodes.set out candidate
  | some p => linkChild (nodes.set out candidate) p out

theorem length_linked (nodes : List Node) (out : ℕ) (candidate : Node) :
    (linked nodes out candidate).length = nodes.length := by
  unfold linked
  split
  · rw [List.length_set]
  · rw [length_linkChild, List.length_set]

/-- The candidate in the next slot. -/
def push (candidate : Node) (h : m.nodeCount ≠ cap.maxNodes) : Memory cap where
  nodes := ⟨linked m.nodes.cells m.nodeCount candidate,
    (length_linked _ _ _).trans m.nodes.size_eq⟩
  nodeCount := m.nodeCount + 1
  arena := m.arena
  count_le := Nat.lt_of_le_of_ne m.count_le h

def addNode (kind : Kind) (parent : Option ℕ) (keyName value : Bytes) :
    Status × Option ℕ × Memory cap :=
  if parent ≠ none && !m.valid parent then (.invalidArgument, none, m)
  else
    let value := if kind.isContainer then [] else value
    if parent = none && m.nodeCount ≠ 0 then (.alreadyExists, none, m)
    else if parent ≠ none && m.kind parent = .object && keyName.isEmpty then
      (.invalidArgument, none, m)
    else if parent ≠ none && m.kind parent = .array && !keyName.isEmpty then
      (.invalidArgument, none, m)
    else if hfull : m.nodeCount = cap.maxNodes then (.full, none, m)
    else
      match m.arena.store keyName with
      | none => (.full, none, m)
      | some (keyOffset, keySize, arena) =>
        match arena.store value with
        | none => (.full, none, { m with arena := arena.release keySize })
        | some (valueOffset, valueSize, arena) =>
          (.ok, some m.nodeCount, Memory.push { m with arena }
            { kind, parent, keyOffset, keySize, valueOffset, valueSize } hfull)

def setNumber (value : Bytes) (parent : Option ℕ) (keyName : Bytes) :
    Status × Option ℕ × Memory cap :=
  if !validNumber value then (.invalidArgument, none, m)
  else m.addNode .number parent keyName value

def setInteger (value : ℤ) (parent : Option ℕ) (keyName : Bytes) :
    Status × Option ℕ × Memory cap :=
  match formatInteger value with
  | none => (.full, none, m)
  | some encoded => m.setNumber encoded parent keyName

/-- `set_floating`, after the value was formatted; `none` for NaN, the infinities and what was
truncated. -/
def setFloating (encoded : Option Bytes) (parent : Option ℕ) (keyName : Bytes) :
    Status × Option ℕ × Memory cap :=
  match encoded with
  | none => (.invalidArgument, none, m)
  | some encoded => m.setNumber encoded parent keyName

def append (parent : Option ℕ) (kind : Kind) (value keyName : Bytes) :
    Status × Option ℕ × Memory cap :=
  if !m.valid parent || (m.kind parent ≠ .array && m.kind parent ≠ .object) then
    (.invalidArgument, none, m)
  else if m.kind parent = .object && keyName.isEmpty then (.invalidArgument, none, m)
  else m.addNode kind parent keyName value

/-- The calls that create nodes; `set_enum` is `set_integer` of the underlying value. -/
def call : Call → Status × Option ℕ × Memory cap
  | .setNull parent key => m.addNode .null parent key []
  | .setBool value parent key => m.addNode .boolean parent key (if value then trueText else falseText)
  | .setString value parent key => m.addNode .string parent key value
  | .setNumber value parent key => m.setNumber value parent key
  | .setInteger value parent key => m.setInteger value parent key
  | .makeObject parent key => m.addNode .object parent key []
  | .makeArray parent key => m.addNode .array parent key []
  | .append parent kind value key => m.append parent kind value key

/-- The members of `parser` that change. -/
structure Parser (cap : Capacity) where
  doc : Memory cap
  position : ℕ
  depth : ℕ

namespace Parser

variable {cap : Capacity} (source : Bytes) (p : Parser cap)

def fail (code : ErrorCode) : Result where
  status := .invalidArgument
  code := code
  offset := p.position
  line := (Json.Parser.lineColumn (source.take p.position)).1
  column := (Json.Parser.lineColumn (source.take p.position)).2

def capacityResult (s : Status) : Result where
  status := s
  code := .capacity
  offset := p.position

/-- `++position_` -/
def advance : Parser cap := { p with position := p.position + 1 }

/-- `--depth_` -/
def leave : Parser cap := { p with depth := p.depth - 1 }

def skipSpace : Parser cap :=
  { p with position := p.position + ((source.drop p.position).takeWhile isSpace).length }

/-- The end of every function that adds a node. -/
def stored (added : Status × Option ℕ × Memory cap) : Result × Parser cap :=
  let p := { p with doc := added.2.2 }
  (if added.1 = .ok then {} else p.capacityResult added.1, p)

def parseLiteral (parent : Option ℕ) (keyName literal : Bytes) (kind : Kind) :
    Result × Parser cap :=
  if p.position + literal.length > source.length then (p.fail source .unexpectedEnd, p)
  else if (source.drop p.position).take literal.length ≠ literal then
    (p.fail source .invalidLiteral, p)
  else
    let p := { p with position := p.position + literal.length }
    if kind = .boolean then
      p.stored (p.doc.call (.setBool (literal.head? = some letterLowerT) parent keyName))
    else p.stored (p.doc.call (.setNull parent keyName))

def parseNumber (parent : Option ℕ) (keyName : Bytes) : Result × Parser cap :=
  let start := p.position
  let (delimited, position) := Json.Parser.scanNumber (source.drop start) start
  let p := { p with position }
  if !delimited then (p.fail source .invalidNumber, p)
  else
    let number := (source.drop start).take (position - start)
    if !validNumber number then (p.fail source .invalidNumber, p)
    else p.stored (p.doc.call (.setNumber number parent keyName))

def parseStringValue (parent : Option ℕ) (keyName : Bytes) : Result × Parser cap :=
  let (r, position, value) := decodeString cap.maxStringBytes source p.position
  let p := { p with position }
  if !r.succeeded then (r, p) else p.stored (p.doc.call (.setString value parent keyName))

/-- What follows a child in both loops. -/
def afterChild (close : UInt8) (loop : Parser cap → Option (Result × Parser cap)) :
    Option (Result × Parser cap) :=
  let p := p.skipSpace source
  if source[p.position]? = some close then some ({}, p.advance.leave)
  else if source[p.position]? ≠ some comma then
    some (p.fail source .unexpectedToken, p.leave)
  else loop (p.advance.skipSpace source)

/-- `parse_object` and `parse_array` up to the loop. -/
def parseContainer (make : Call) (close : UInt8)
    (loop : Option ℕ → Parser cap → Option (Result × Parser cap)) :
    Option (Result × Parser cap) :=
  let p := { p.advance with depth := p.depth + 1 }
  if p.depth > cap.maxDepth then some (p.fail source .depthExceeded, p.leave)
  else
    let (s, out, doc) := p.doc.call make
    let p := { p with doc }
    if s ≠ .ok then some (p.capacityResult s, p.leave)
    else
      let p := p.skipSpace source
      if source[p.position]? = some close then some ({}, p.advance.leave) else loop out p

mutual

def parseValue (source : Bytes) :
    ℕ → Option ℕ → Bytes → Parser cap → Option (Result × Parser cap)
  | 0, _, _, _ => none
  | fuel + 1, parent, keyName, p =>
    let p := p.skipSpace source
    match source[p.position]? with
    | none => some (p.fail source .unexpectedEnd, p)
    | some c =>
      if c = openBrace then
        p.parseContainer source (.makeObject parent keyName) closeBrace (objectLoop source fuel)
      else if c = openBracket then
        p.parseContainer source (.makeArray parent keyName) closeBracket (arrayLoop source fuel)
      else if c = quote then some (p.parseStringValue source parent keyName)
      else if c = letterLowerT then
        some (p.parseLiteral source parent keyName trueText .boolean)
      else if c = letterLowerF then
        some (p.parseLiteral source parent keyName falseText .boolean)
      else if c = letterLowerN then some (p.parseLiteral source parent keyName nullText .null)
      else if c = minus || isDigit c then some (p.parseNumber source parent keyName)
      else some (p.fail source .unexpectedToken, p)

/-- The loop of `parse_object`. -/
def objectLoop (source : Bytes) : ℕ → Option ℕ → Parser cap → Option (Result × Parser cap)
  | 0, _, _ => none
  | fuel + 1, out, p =>
    match source[p.position]? with
    | none => some (p.fail source .unexpectedEnd, p.leave)
    | some c =>
      if c ≠ quote then some (p.fail source .unexpectedToken, p.leave)
      else
        let (kr, position, key) := decodeString cap.maxStringBytes source p.position
        let p := { p with position }
        if !kr.succeeded then some (kr, p.leave)
        else
          let p := p.skipSpace source
          if source[p.position]? ≠ some colon then
            some (p.fail source .unexpectedToken, p.leave)
          else
            match parseValue source fuel out key p.advance with
            | none => none
            | some (vr, p) =>
              if !vr.succeeded then some (vr, p.leave)
              else p.afterChild source closeBrace (objectLoop source fuel out)

/-- The loop of `parse_array`. -/
def arrayLoop (source : Bytes) : ℕ → Option ℕ → Parser cap → Option (Result × Parser cap)
  | 0, _, _ => none
  | fuel + 1, out, p =>
    match source[p.position]? with
    | none => some (p.fail source .unexpectedEnd, p.leave)
    | some _ =>
      match parseValue source fuel out [] p with
      | none => none
      | some (vr, p) =>
        if !vr.succeeded then some (vr, p.leave)
        else p.afterChild source closeBracket (arrayLoop source fuel out)

end

end Parser

/-- `run`, with more fuel than the text has use for. -/
def parse (source : Bytes) : Option (Result × Memory cap) :=
  let p : Parser cap := Parser.skipSpace source ⟨m.clear, 0, 0⟩
  match Parser.parseValue source (2 * source.length + 2) none [] p with
  | none => none
  | some (r, p) =>
    if !r.succeeded then some (r, p.doc.clear)
    else
      let p := p.skipSpace source
      if p.position ≠ source.length then some (p.fail source .unexpectedToken, p.doc)
      else some (r, p.doc)

end Memory

end Castle.Serialization.Json

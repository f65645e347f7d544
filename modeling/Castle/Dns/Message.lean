import Mathlib.Algebra.Ring.Nat
import Castle.Net.Sockets

/-!
# DNS messages (`message.hpp` and `types.hpp`)

Questions are encoded and responses decoded between bytes and texts. A text that is not decoded
to its end is left out: nothing reads it.
-/

namespace Castle.Dns

open Net

abbrev Bytes := List UInt8

/-- `record_type`; a message can hold any value of 16 bits. -/
abbrev RecordType := UInt16

namespace RecordType

def a : RecordType := 1
def ns : RecordType := 2
def cname : RecordType := 5
def mx : RecordType := 15
def aaaa : RecordType := 28

end RecordType

/-- `record_class::internet` -/
def internet : UInt16 := 1

inductive Section where
  | answer | authority | additional
  deriving DecidableEq, Repr

structure ResourceRecord where
  type : RecordType := RecordType.a
  klass : UInt16 := internet
  sourceSection : Section := .answer
  ttl : UInt32 := 0
  address : Endpoint := {}
  owner : Bytes := []
  target : Bytes := []
  preference : UInt16 := 0
  deriving DecidableEq

/-- The values of `response_code` with a name. -/
def noError : ℕ := 0
def formatError : ℕ := 1
def nameError : ℕ := 3

/-- `response`; behind `recordCount` stand the records of earlier responses. -/
structure Response where
  transactionId : UInt16 := 0
  flags : UInt16 := 0
  questionCount : UInt16 := 0
  answerCount : UInt16 := 0
  authorityCount : UInt16 := 0
  additionalCount : UInt16 := 0
  questionType : RecordType := RecordType.a
  questionClass : UInt16 := internet
  rcode : ℕ := noError
  authoritative : Bool := false
  truncated : Bool := false
  recursionDesired : Bool := false
  recursionAvailable : Bool := false
  questionName : Bytes := []
  records : List ResourceRecord
  recordCount : ℕ := 0
  deriving DecidableEq

namespace Response

def init (maxRecords : ℕ) : Response := { records := List.replicate maxRecords {} }

def clear (response : Response) : Response := { records := response.records }

end Response

def headerSize : ℕ := 12
def maxMessageSize : ℕ := 65535
def classicUdpLimit : ℕ := 512

def dot : UInt8 := 0x2e

def writeBe16 (value : UInt16) :
    Bytes := [UInt8.ofNat (value.toNat / 256), UInt8.ofNat (value.toNat % 256)]

def readByte (data : Bytes) (offset : ℕ) : ℕ := (data.getD offset 0).toNat

def readBe16 (data : Bytes) (offset : ℕ) : UInt16 :=
  UInt16.ofNat (readByte data offset * 256 + readByte data (offset + 1))

def readBe32 (data : Bytes) (offset : ℕ) : UInt32 :=
  UInt32.ofNat ((readBe16 data offset).toNat * 65536 + (readBe16 data (offset + 2)).toNat)

def validQueryType (type : RecordType) : Bool :=
  [RecordType.a, RecordType.aaaa, RecordType.cname, RecordType.ns, RecordType.mx].contains type

/-- The loop of `encode_query` that checks the labels: the size of the last label, and the size of
the name on the wire without it. -/
def checkLabels : Bytes → ℕ → ℕ → Except Status (ℕ × ℕ)
  | [], label, wire => .ok (label, wire)
  | c :: name, label, wire =>
    if c = dot then
      if label = 0 ∨ label > 63 then .error .invalidArgument
      else if wire > 255 - (label + 1) then .error .outOfRange
      else checkLabels name 0 (wire + label + 1)
    else if c = 0 ∨ c > 127 then .error .invalidArgument
    else checkLabels name (label + 1) wire

def withoutDot (name : Bytes) : Bytes := if name.getLast? = some dot then name.dropLast else name

def writeLabel (label : Bytes) : Bytes := UInt8.ofNat label.length :: label

def writeName (name : Bytes) : Bytes := (name.splitOn dot).flatMap writeLabel ++ [0]

/-- RD is set, and there is one question. -/
def queryHeader (id : UInt16) : Bytes := writeBe16 id ++ [0x01, 0x00, 0x00, 0x01, 0, 0, 0, 0, 0, 0]

def encodeQuery (name : Bytes) (type : RecordType) (id : UInt16) (capacity : ℕ) : Except Status Bytes :=
  if capacity < headerSize then .error .full
  else if !validQueryType type || name.isEmpty then .error .invalidArgument
  else if name = [dot] then
    if headerSize + 1 + 4 > capacity then .error .full
    else .ok (queryHeader id ++ [0] ++ writeBe16 type ++ writeBe16 internet)
  else
    match checkLabels (withoutDot name) 0 1 with
    | .error result => .error result
    | .ok (label, wire) =>
      if label = 0 ∨ label > 63 ∨ wire > 255 - (label + 1) then .error .invalidArgument
      else if headerSize + (wire + label + 1) + 4 > capacity then .error .full
      else .ok (queryHeader id ++ writeName (withoutDot name) ++ writeBe16 type ++ writeBe16 internet)

/-- What the loop of `decode_name` keeps. -/
structure NameCursor where
  cursor : ℕ
  text : Bytes := []
  wireSize : ℕ := 0
  jumped : Bool := false
  consumed : ℕ := 0
  deriving DecidableEq

/-- A pass of the loop of `decode_name`: it fails, it ends, or it goes on. -/
inductive NameStep where
  | failed (result : Status)
  | finished (state : NameCursor)
  | next (state : NameCursor)

/-- The bytes of a label are copied behind a dot, unless they are the first ones. -/
def NameCursor.label (data : Bytes) (capacity : ℕ) (length : ℕ) (s : NameCursor) : NameStep :=
  if s.text ≠ [] ∧ s.text.length + 1 ≥ capacity then .failed .full
  else
    let text := if s.text ≠ [] then s.text ++ [dot] else s.text
    if length > capacity - 1 - text.length then .failed .full
    else
      let bytes := (data.drop s.cursor).take length
      if bytes.any fun c => c = 0 || c > 127 then .failed .invalidArgument
      else
        .next { s with
          text := text ++ bytes
          cursor := s.cursor + length
          consumed := if s.jumped then s.consumed else s.consumed + length }

def NameCursor.step (data : Bytes) (capacity : ℕ) (s : NameCursor) : NameStep :=
  if s.cursor ≥ data.length then .failed .invalidArgument
  else
    let length := data.getD s.cursor 0
    if length &&& 0xC0 = 0xC0 then
      if s.cursor + 1 ≥ data.length then .failed .invalidArgument
      else
        let pointer := (length &&& 0x3F).toNat * 256 + readByte data (s.cursor + 1)
        if pointer ≥ data.length ∨ pointer ≥ s.cursor then .failed .invalidArgument
        else
          .next { s with
            cursor := pointer
            jumped := true
            consumed := if s.jumped then s.consumed else s.consumed + 2 }
    else if length &&& 0xC0 ≠ 0 ∨ length > 63 then .failed .invalidArgument
    else if s.wireSize ≥ 255 then .failed .invalidArgument
    else
      let s := { s with
        cursor := s.cursor + 1
        consumed := if s.jumped then s.consumed else s.consumed + 1
        wireSize := s.wireSize + 1 }
      if length = 0 then .finished s
      else if length.toNat > data.length - s.cursor ∨ s.wireSize + length.toNat > 255 then .failed .invalidArgument
      else { s with wireSize := s.wireSize + length.toNat }.label data capacity length.toNat

/-- The loop of `decode_name`, with the passes that are left. -/
def decodeNameLoop (data : Bytes) (capacity : ℕ) : ℕ → NameCursor → Except Status (Bytes × ℕ)
  | 0, _ => .error .invalidArgument
  | hops + 1, s =>
    match s.step data capacity with
    | .failed result => .error result
    | .finished s => .ok (s.text, s.consumed)
    | .next s => decodeNameLoop data capacity hops s

/-- The text of a name and the bytes that it takes where it stands. -/
def decodeName (data : Bytes) (offset capacity : ℕ) : Except Status (Bytes × ℕ) :=
  if capacity = 0 ∨ offset ≥ data.length then .error .invalidArgument
  else decodeNameLoop data capacity 128 { cursor := offset }

def isTruncatedPacket (data : Bytes) : Bool :=
  data.length ≥ 4 && (readBe16 data 2 &&& 0x0200 ≠ 0)

/-- The size of the buffers for texts. -/
def textCapacity : ℕ := 256

/-- The record at the end of the list, when there is one. -/
def Response.setRecord (output : Response) (record : ResourceRecord) : Response :=
  { output with records := output.records.set output.recordCount record }

def Response.sectionOf (output : Response) (index : ℕ) : Section :=
  if index ≥ output.answerCount.toNat + output.authorityCount.toNat then .additional
  else if index ≥ output.answerCount.toNat then .authority
  else .answer

/-- The data of a record that is kept, and whether they fit its type. -/
def decodeData (data : Bytes) (type : RecordType) (rdata rdlength : ℕ) (record : ResourceRecord) :
    Bool × ResourceRecord :=
  if type = RecordType.a then
    if rdlength ≠ 4 then (false, record)
    else (true, { record with address := ⟨(data.drop rdata).take 4, .ipv4, 0, 0⟩ })
  else if type = RecordType.aaaa then
    if rdlength ≠ 16 then (false, record)
    else (true, { record with address := ⟨(data.drop rdata).take 16, .ipv6, 0, 0⟩ })
  else if type = RecordType.mx then
    if rdlength < 3 then (false, record)
    else
      let record := { record with preference := readBe16 data rdata }
      match decodeName data (rdata + 2) textCapacity with
      | .ok (target, consumed) => (consumed + 2 = rdlength, { record with target := target })
      | .error _ => (false, record)
  else
    match decodeName data rdata textCapacity with
    | .ok (target, consumed) => (consumed = rdlength, { record with target := target })
    | .error _ => (false, record)

/-- A record whose header has been read. -/
def parseRecord (data : Bytes) (maxRecords index : ℕ) (owner : Bytes) (type klass : UInt16) (ttl : UInt32)
    (rdata rdlength : ℕ) (output : Response) : Status × Response :=
  if klass ≠ internet then (.ok, output)
  else if !([RecordType.a, RecordType.aaaa, RecordType.cname, RecordType.ns, RecordType.mx].contains type) then
    (.ok, output)
  else if output.recordCount ≥ maxRecords then (.full, output)
  else
    let record := { output.records.getD output.recordCount {} with
      type := type
      klass := internet
      sourceSection := output.sectionOf index
      ttl := ttl
      owner := owner }
    match decodeData data type rdata rdlength record with
    | (false, record) => (.invalidArgument, output.setRecord record)
    | (true, record) => (.ok, { output.setRecord record with recordCount := output.recordCount + 1 })

/-- The loop of `parse_response`: so many records are left, and the next one stands at the offset. -/
def parseRecords (data : Bytes) (maxRecords total : ℕ) : ℕ → ℕ → Response → Status × Response
  | 0, offset, output => (if offset = data.length then .ok else .invalidArgument, output)
  | left + 1, offset, output =>
    match decodeName data offset textCapacity with
    | .error result => (result, output)
    | .ok (owner, consumed) =>
      let offset := offset + consumed
      if offset > data.length ∨ data.length - offset < 10 then (.invalidArgument, output)
      else
        let rdlength := (readBe16 data (offset + 8)).toNat
        let rdata := offset + 10
        if rdlength > data.length - rdata then (.invalidArgument, output)
        else
          match parseRecord data maxRecords (total - (left + 1)) owner (readBe16 data offset)
              (readBe16 data (offset + 2)) (readBe32 data (offset + 4)) rdata rdlength output with
          | (.ok, output) => parseRecords data maxRecords total left (rdata + rdlength) output
          | failure => failure

/-- The flags of a header, with their bits. -/
def Response.withFlags (output : Response) (flags : UInt16) : Response :=
  { output with
    flags := flags
    authoritative := flags &&& 0x0400 ≠ 0
    truncated := flags &&& 0x0200 ≠ 0
    recursionDesired := flags &&& 0x0100 ≠ 0
    recursionAvailable := flags &&& 0x0080 ≠ 0
    rcode := (flags &&& 0x000F).toNat }

def parseQuestion (data : Bytes) (maxRecords : ℕ) (output : Response) : Status × Response :=
  match decodeName data headerSize textCapacity with
  | .error result => (result, output)
  | .ok (name, consumed) =>
    let output := { output with questionName := name }
    let offset := headerSize + consumed
    if offset > data.length ∨ data.length - offset < 4 then (.invalidArgument, output)
    else
      let output := { output with
        questionType := readBe16 data offset
        questionClass := readBe16 data (offset + 2) }
      let total := output.answerCount.toNat + output.authorityCount.toNat + output.additionalCount.toNat
      parseRecords data maxRecords total total (offset + 4) output

/-- `parse_response` into a response whose records may be those of an earlier one. -/
def parseResponse (data : Bytes) (expectedId : UInt16) (maxRecords : ℕ) (output : Response) :
    Status × Response :=
  let output := output.clear
  if data.length < headerSize ∨ data.length > maxMessageSize then (.invalidArgument, output)
  else
    let output := { output with transactionId := readBe16 data 0 }
    if output.transactionId ≠ expectedId then (.invalidArgument, output)
    else
      let flags := readBe16 data 2
      if flags &&& 0x8000 = 0 ∨ flags &&& 0x7800 ≠ 0 ∨ flags &&& 0x0070 ≠ 0 then
        (.invalidArgument, { output with flags := flags })
      else
        let output : Response := { output.withFlags flags with
          questionCount := readBe16 data 4
          answerCount := readBe16 data 6
          authorityCount := readBe16 data 8
          additionalCount := readBe16 data 10 }
        if output.questionCount ≠ 1 then (.invalidArgument, output)
        else parseQuestion data maxRecords output

/-- `same_name`: ASCII names without case, the expected one with or without its last dot. -/
def lowerCase (c : UInt8) : UInt8 := if 0x41 ≤ c ∧ c ≤ 0x5a then c + 0x20 else c

def sameName (expected name : Bytes) : Bool :=
  (withoutDot expected).map lowerCase = name.map lowerCase

end Castle.Dns

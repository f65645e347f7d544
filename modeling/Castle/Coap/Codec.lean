import Mathlib.Data.List.DropRight
import Mathlib.Algebra.Ring.Nat
import Castle.Status

/-!
# CoAP messages (`types.hpp`)

The used parts of the arrays of a message are lists.
-/

namespace Castle.Coap

abbrev Bytes := List UInt8

def protocolVersion : UInt8 := 1

def maximumTokenLength : ℕ := 8

inductive MessageType where
  | confirmable | nonConfirmable | acknowledgement | reset
  deriving DecidableEq, Repr

def MessageType.value : MessageType → ℕ
  | .confirmable => 0
  | .nonConfirmable => 1
  | .acknowledgement => 2
  | .reset => 3

def MessageType.ofBits : ℕ → MessageType
  | 0 => .confirmable
  | 1 => .nonConfirmable
  | 2 => .acknowledgement
  | _ => .reset

theorem MessageType.value_lt (type : MessageType) : type.value < 4 := by
  cases type <;> decide

@[simp] theorem MessageType.ofBits_value (type : MessageType) : ofBits type.value = type := by
  cases type <;> rfl

def emptyCode : UInt8 := 0

/-- The four request methods. -/
def isRequestCode (value : UInt8) : Bool := 0x01 ≤ value && value ≤ 0x04

/-- The classes 2.xx to 5.xx. -/
def isResponseCode (value : UInt8) : Bool :=
  let klass := value >>> 5
  2 ≤ klass && klass ≤ 5

def isCriticalOption (number : UInt16) : Bool := number &&& 0x01 ≠ 0

def observeNumber : UInt16 := 6

def isSupportedOption (number : UInt16) : Bool :=
  [1, 3, 4, 5, 6, 7, 8, 11, 12, 14, 15, 17, 20, 23, 27, 28, 35, 39, 60].contains number

structure MessageOption where
  number : UInt16
  value : Bytes
  deriving DecidableEq, Repr

/-- The template parameters of `message`, with the assertions about them. -/
structure MessageCapacity where
  maxOptions : ℕ
  optionValueCapacity : ℕ
  payloadCapacity : ℕ
  maxOptions_pos : 0 < maxOptions
  optionValueCapacity_pos : 0 < optionValueCapacity
  payloadCapacity_pos : 0 < payloadCapacity

structure Message where
  version : UInt8 := protocolVersion
  type : MessageType := .confirmable
  codeValue : UInt8 := emptyCode
  messageId : UInt16 := 0
  token : Bytes := []
  options : List MessageOption := []
  payload : Bytes := []
  deriving DecidableEq, Repr

/-- The loop of `find_option`: it stops at a larger number. -/
def findOption (number : UInt16) : List MessageOption → Option MessageOption
  | [] => none
  | option :: options =>
    if option.number = number then some option
    else if option.number > number then none
    else findOption number options

/-- The options with one more, behind the last one that is not larger. -/
def insertOption (options : List MessageOption) (option : MessageOption) : List MessageOption :=
  options.rdropWhile (fun other => other.number > option.number) ++
    option :: options.rtakeWhile fun other => other.number > option.number

namespace Message

variable (m : Message)

/-! A source of bytes is `none` for `nullptr` with a size other than 0. -/

def setToken (bytes : Option Bytes) : Status × Message :=
  match bytes with
  | none => (.invalidArgument, m)
  | some bytes =>
    if bytes.length > maximumTokenLength then (.invalidArgument, m)
    else (.ok, { m with token := bytes })

def setPayload (cap : MessageCapacity) (bytes : Option Bytes) : Status × Message :=
  match bytes with
  | none => (.invalidArgument, m)
  | some bytes =>
    if bytes.length > cap.payloadCapacity then (.full, m) else (.ok, { m with payload := bytes })

def appendOption (cap : MessageCapacity) (number : UInt16) (bytes : Option Bytes) :
    Status × Message :=
  match bytes with
  | none => (.invalidArgument, m)
  | some bytes =>
    if number = 0 then (.invalidArgument, m)
    else if bytes.length > cap.optionValueCapacity then (.outOfRange, m)
    else if m.options.length ≥ cap.maxOptions then (.full, m)
    else (.ok, { m with options := insertOption m.options ⟨number, bytes⟩ })

end Message

/-!
## Encoding and decoding CoAP messages (`codec.hpp`)
-/

inductive DecodeError where
  | none | malformedHeader | unsupportedVersion | invalidTokenLength | malformedOption
  | unknownCriticalOption | capacityExceeded
  deriving DecidableEq, Repr

def writeBe16 (value : ℕ) : Bytes := [UInt8.ofNat (value / 2 ^ 8), UInt8.ofNat value]

/-- `read_be16`, of two bytes. -/
def readBe16 (high low : UInt8) : ℕ := high.toNat * 2 ^ 8 + low.toNat

def writeByte (capacity : ℕ) (value : UInt8) (output : Bytes) : Except Status Bytes :=
  if output.length ≥ capacity then .error .full else .ok (output ++ [value])

def writeExtended (capacity nibble value : ℕ) (output : Bytes) : Except Status Bytes :=
  if nibble < 13 then .ok output
  else if nibble = 13 then writeByte capacity (UInt8.ofNat (value - 13)) output
  else if nibble = 14 then
    if capacity - output.length < 2 then .error .full else .ok (output ++ writeBe16 (value - 269))
  else .error .invalidArgument

/-- The value and the rest of the input. -/
def decodeNibble (nibble : ℕ) (input : Bytes) : Option (ℕ × Bytes) :=
  if nibble < 13 then some (nibble, input)
  else if nibble = 13 then
    match input with
    | [] => none
    | c :: input => some (13 + c.toNat, input)
  else if nibble = 14 then
    match input with
    | high :: low :: input => some (269 + readBe16 high low, input)
    | _ => none
  else none

def encodeNibble (value : ℕ) : ℕ := if value < 13 then value else if value < 269 then 13 else 14

def validOptionLength (number : UInt16) (length : ℕ) : Bool :=
  if number = 1 then length ≤ 8
  else if number = 3 then 1 ≤ length && length ≤ 255
  else if number = 4 then 1 ≤ length && length ≤ 8
  else if number = 5 then length = 0
  else if number = 6 then length ≤ 3
  else if number = 7 then length ≤ 2
  else if number = 8 || number = 11 || number = 15 || number = 20 then length ≤ 255
  else if number = 12 || number = 17 then length ≤ 2
  else if number = 14 then length ≤ 4
  else if number = 23 || number = 27 then length ≤ 3
  else if number = 28 || number = 60 then length ≤ 4
  else if number = 35 then 1 ≤ length && length ≤ 1034
  else if number = 39 then 1 ≤ length && length ≤ 255
  else false

def isRepeatableOption (number : UInt16) : Bool :=
  number = 1 || number = 8 || number = 11 || number = 15 || number = 20

/-- One pass of the loop over the options. -/
def encodeOption (cap : MessageCapacity) (capacity : ℕ) (previous : UInt16)
    (option : MessageOption) (output : Bytes) : Except Status Bytes :=
  if option.number = 0 || option.number < previous ||
      option.number.toNat - previous.toNat > 65804 ||
      option.value.length > cap.optionValueCapacity ||
      (isSupportedOption option.number &&
        !validOptionLength option.number option.value.length) then .error .invalidArgument
  else
    let delta := option.number.toNat - previous.toNat
    let length := option.value.length
    if length > 65804 then .error .invalidArgument
    else
      let deltaNibble := encodeNibble delta
      let lengthNibble := encodeNibble length
      let header := do
        let output ← writeByte capacity (UInt8.ofNat (deltaNibble <<< 4 ||| lengthNibble)) output
        let output ← writeExtended capacity deltaNibble delta output
        writeExtended capacity lengthNibble length output
      match header with
      | .error _ => .error .full
      | .ok output =>
        if length > capacity - output.length then .error .full else .ok (output ++ option.value)

def encodeOptions (cap : MessageCapacity) (capacity : ℕ) :
    UInt16 → List MessageOption → Bytes → Except Status Bytes
  | _, [], output => .ok output
  | previous, option :: options, output => do
    encodeOptions cap capacity option.number options
      (← encodeOption cap capacity previous option output)

def encodePayload (capacity : ℕ) (payload output : Bytes) : Except Status Bytes :=
  if payload.length ≠ 0 then
    if capacity - output.length < payload.length + 1 then .error .full
    else .ok (output ++ 0xff :: payload)
  else .ok output

/-- The checks of `encode_message` before it writes. -/
def Message.refused (cap : MessageCapacity) (m : Message) : Bool :=
  m.version ≠ protocolVersion || m.token.length > maximumTokenLength ||
    m.options.length > cap.maxOptions || m.payload.length > cap.payloadCapacity ||
    (m.codeValue = emptyCode &&
      (m.token.length ≠ 0 || m.options.length ≠ 0 || m.payload.length ≠ 0 ||
        (m.type ≠ .acknowledgement && m.type ≠ .reset))) ||
    (m.type = .reset && m.codeValue ≠ emptyCode) ||
    (m.type = .acknowledgement && m.codeValue >>> 5 = 0 && m.codeValue ≠ emptyCode)

/-- The four bytes of the header, and the token. -/
def Message.header (m : Message) : Bytes :=
  [UInt8.ofNat (1 <<< 6 ||| m.type.value <<< 4 ||| m.token.length), m.codeValue] ++
    writeBe16 m.messageId.toNat ++ m.token

/-- The capacity is `none` for `nullptr`. -/
def encodeMessage (cap : MessageCapacity) (input : Message) (capacity : Option ℕ) :
    Except Status Bytes :=
  match capacity with
  | none => .error .invalidArgument
  | some capacity =>
    if input.refused cap then .error .invalidArgument
    else if capacity < 4 + input.token.length then .error .full
    else do
      encodePayload capacity input.payload
        (← encodeOptions cap capacity 0 input.options input.header)

/-- The status, the error, and the message that is read so far. -/
structure Decoded where
  status : Status
  error : DecodeError
  message : Message
  deriving DecidableEq

/-- The loop over the options, which have the given numbers behind `number`. Every pass reads a
byte, and the fuel is their number. -/
def decodeOptions (cap : MessageCapacity) : ℕ → ℕ → Bytes → Message → Decoded
  | 0, _, _, output => ⟨.ok, .none, output⟩
  | _ + 1, _, [], output => ⟨.ok, .none, output⟩
  | fuel + 1, number, header :: input, output =>
    if header = 0xff then
      if input = [] then ⟨.invalidArgument, .malformedOption, output⟩
      else
        match output.setPayload cap (some input) with
        | (copied, output) =>
          if copied ≠ .ok then ⟨copied, .capacityExceeded, output⟩ else ⟨.ok, .none, output⟩
    else
      let deltaNibble := header.toNat >>> 4
      let lengthNibble := header.toNat &&& 0x0f
      if deltaNibble = 15 ∨ lengthNibble = 15 then ⟨.invalidArgument, .malformedOption, output⟩
      else
        let nibbles := do
          let (delta, input) ← decodeNibble deltaNibble input
          let (length, input) ← decodeNibble lengthNibble input
          some (delta, length, input)
        match nibbles with
        | none => ⟨.invalidArgument, .malformedOption, output⟩
        | some (delta, length, input) =>
          if delta > 65535 - number ∨ length > input.length then
            ⟨.invalidArgument, .malformedOption, output⟩
          else if number + delta = 0 then ⟨.invalidArgument, .malformedOption, output⟩
          else
            let current := UInt16.ofNat (number + delta)
            let recognized := isSupportedOption current && validOptionLength current length &&
              !(!isRepeatableOption current && (findOption current output.options).isSome)
            if !recognized then
              if isCriticalOption current then
                ⟨.notConfigured, .unknownCriticalOption, output⟩
              else decodeOptions cap fuel (number + delta) (input.drop length) output
            else
              match output.appendOption cap current (some (input.take length)) with
              | (result, output) =>
                if result ≠ .ok then ⟨result, .capacityExceeded, output⟩
                else decodeOptions cap fuel (number + delta) (input.drop length) output

/-- What follows the header, in a message with the header and the token. -/
def decodeBody (cap : MessageCapacity) (size : ℕ) (input : Bytes) (output : Message) : Decoded :=
  if output.codeValue = 0 then
    if output.token.length ≠ 0 ∨ size ≠ 4 ∨
        (output.type ≠ .acknowledgement ∧ output.type ≠ .reset) then
      ⟨.invalidArgument, .malformedHeader, output⟩
    else ⟨.ok, .none, output⟩
  else if output.type = .reset ∨ (output.type = .acknowledgement ∧ output.codeValue >>> 5 = 0) then
    ⟨.invalidArgument, .malformedHeader, output⟩
  else decodeOptions cap input.length 0 input output

/-- The input is `none` for `nullptr`. -/
def decodeMessage (cap : MessageCapacity) (input : Option Bytes) : Decoded :=
  match input with
  | some (first :: code :: high :: low :: input) =>
    let tokenLength := first.toNat &&& 0x0f
    if first.toNat >>> 6 ≠ protocolVersion.toNat then
      ⟨.invalidArgument, .unsupportedVersion, {}⟩
    else if tokenLength > maximumTokenLength ∨ input.length < tokenLength then
      ⟨.invalidArgument, .invalidTokenLength, {}⟩
    else
      decodeBody cap (4 + input.length) (input.drop tokenLength)
        { type := .ofBits (first.toNat >>> 4 &&& 0x03)
          codeValue := code
          messageId := UInt16.ofNat (readBe16 high low)
          token := input.take tokenLength }
  | _ => ⟨.invalidArgument, .malformedHeader, {}⟩

/-- `decode_uint_option`; none for a value that is too long. -/
def decodeUintOption (value : Bytes) : Option ℕ :=
  if value.length > 4 then none
  else some (value.foldl (fun output c => output * 2 ^ 8 + c.toNat) 0)

end Castle.Coap

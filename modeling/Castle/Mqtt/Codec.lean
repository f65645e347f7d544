import Castle.Mqtt.Types

/-!
# Fixed header, Remaining Length, packet cursors and property sections (`codec.hpp`)

A buffer argument `(pointer, size)` is the list of its bytes; no caller passes a
null pointer with a non-zero size. A status with an output parameter is an
`Except Status`, except for `packet_reader`, whose sticky status outlives a
failed call and is kept.
-/

namespace Castle.Mqtt

abbrev Bytes := List UInt8

def maximumRemainingLength : ℕ := 268435455

/-- The `do … while` of `encode_remaining_length` with `n` digits left. -/
def remainingLengthDigits : ℕ → ℕ → Bytes
  | 0, _ => []
  | n + 1, value =>
    let digit := UInt8.ofNat (value % 128)
    if value / 128 ≠ 0 then (digit ||| 0x80) :: remainingLengthDigits n (value / 128)
    else [digit]

def encodeRemainingLength (value : ℕ) : Except Status Bytes :=
  if value > maximumRemainingLength then .error .outOfRange
  else .ok (remainingLengthDigits 4 value)

/-- The loop of `decode_remaining_length` at byte `i`, with `n` bytes left to try:
the value and the number of length bytes. -/
def decodeLengthFrom : ℕ → ℕ → ℕ → Bytes → Except Status (ℕ × ℕ)
  | 0, _, _, _ => .error .invalidArgument
  | _ + 1, _, _, [] => .error .empty
  | n + 1, i, value, digit :: rest =>
    let value := value + (digit &&& 0x7F).toNat * 128 ^ i
    if digit &&& 0x80 = 0 then
      if value > maximumRemainingLength then .error .outOfRange
      else if i ≠ 0 ∧ value < 128 ^ i then .error .invalidArgument
      else .ok (value, i + 1)
    else decodeLengthFrom n (i + 1) value rest

def decodeRemainingLength (input : Bytes) : Except Status (ℕ × ℕ) :=
  decodeLengthFrom 4 0 0 input

theorem decodeLengthFrom_error_ne_ok {n i value : ℕ} {input : Bytes} {status : Status}
    (h : decodeLengthFrom n i value input = .error status) : status ≠ .ok := by
  induction n generalizing i value input with
  | zero =>
    cases h
    decide
  | succ n ih =>
    cases input with
    | nil =>
      cases h
      decide
    | cons digit rest =>
      simp only [decodeLengthFrom] at h
      split at h
      · split at h
        · cases h
          decide
        split at h
        · cases h
          decide
        · cases h
      · exact ih h

/-- A complete packet found at the front of a stream. -/
structure PacketView where
  type : PacketType
  flags : UInt8
  remainingLength : ℕ
  headerSize : ℕ
  packetSize : ℕ
  body : Bytes
  deriving DecidableEq, Repr

def validFixedHeader (type : PacketType) (flags : UInt8) : Bool :=
  match type with
  | .publish =>
    let quality := (flags >>> 1) &&& 0x03
    quality ≠ 3 && !(quality = 0 && flags &&& 0x08 ≠ 0)
  | .pubrel | .subscribe | .unsubscribe => flags = 0x02 || flags = 0x0A
  | _ => flags = 0

def inspectPacket (input : Bytes) (maximumPacketSize : ℕ) : Except Status PacketView :=
  if maximumPacketSize < 2 then .error .invalidArgument
  else
    match input with
    | first :: second :: rest =>
      let typeValue := (first >>> 4).toNat
      let flags := first &&& 0x0F
      if typeValue = 0 ∨ validFixedHeader (.ofCode typeValue) flags = false then
        .error .invalidArgument
      else
        match decodeRemainingLength (second :: rest) with
        | .error status => .error status
        | .ok (remaining, lengthBytes) =>
          let headerSize := 1 + lengthBytes
          if remaining > maximumPacketSize ∨ headerSize > maximumPacketSize - remaining then
            .error .outOfRange
          else
            let packetSize := headerSize + remaining
            if input.length < packetSize then .error .empty
            else .ok
              { type := .ofCode typeValue
                flags := flags
                remainingLength := remaining
                headerSize := headerSize
                packetSize := packetSize
                body := (input.drop headerSize).take remaining }
    | _ => .error .empty

def writeBe16 (value : UInt16) : Bytes :=
  [UInt8.ofNat (value.toNat / 256), UInt8.ofNat (value.toNat % 256)]

def writeBe32 (value : UInt32) : Bytes :=
  [UInt8.ofNat (value.toNat / 16777216), UInt8.ofNat (value.toNat / 65536 % 256),
    UInt8.ofNat (value.toNat / 256 % 256), UInt8.ofNat (value.toNat % 256)]

structure PacketWriter where
  capacity : ℕ
  data : Bytes := []
  status : Status := .ok

namespace PacketWriter

variable (w : PacketWriter)

def fail (status : Status) : PacketWriter := { w with status := status }

def putU8 (value : UInt8) : PacketWriter :=
  if w.status ≠ .ok then w
  else if w.capacity ≤ w.data.length then w.fail .full
  else { w with data := w.data ++ [value] }

/-- `put_u16`, `put_u32` and `put_bytes` check only the room left. -/
def putBytes (bytes : Bytes) : PacketWriter :=
  if w.capacity - w.data.length < bytes.length then w.fail .full
  else { w with data := w.data ++ bytes }

def putU16 (value : UInt16) : PacketWriter := w.putBytes (writeBe16 value)

def putU32 (value : UInt32) : PacketWriter := w.putBytes (writeBe32 value)

/-- `put_utf8` and `put_binary`: a two-byte length and the bytes. -/
def putUtf8 (value : Bytes) : PacketWriter :=
  if 65535 < value.length then w.fail .outOfRange
  else
    let w := w.putU16 (UInt16.ofNat value.length)
    if w.status = .ok then w.putBytes value else w

def putBinary (value : Bytes) : PacketWriter := w.putUtf8 value

def putVarint (value : ℕ) : PacketWriter :=
  match encodeRemainingLength value with
  | .ok bytes => w.putBytes bytes
  | .error status => w.fail status

theorem putU16_data {capacity : ℕ} (hcap : 8 ≤ capacity) (value : UInt16) :
    (({ capacity } : PacketWriter).putU16 value).data = writeBe16 value := by
  have hroom : ¬capacity < 2 := by omega
  simp [putU16, putBytes, writeBe16, hroom]

end PacketWriter

def readBe16 (hi lo : UInt8) : UInt16 := UInt16.ofNat (hi.toNat * 256 + lo.toNat)

def readBe32 (a b c d : UInt8) : UInt32 :=
  UInt32.ofNat (((a.toNat * 256 + b.toNat) * 256 + c.toNat) * 256 + d.toNat)

/-- A reader is the bytes not consumed yet and the sticky `result_`. -/
structure PacketReader where
  rest : Bytes
  status : Status := .ok
  deriving DecidableEq

/-- What a reader method returns: its status, the output parameter, the reader. -/
structure Read (α : Type) where
  status : Status
  value : α
  reader : PacketReader

/-- The output and the reader of a call that succeeded. -/
def Read.ok? {α : Type} (r : Read α) : Option (α × PacketReader) :=
  if r.status = .ok then some (r.value, r.reader) else none

namespace PacketReader

variable (r : PacketReader)

def remaining : ℕ := r.rest.length

def fail {α : Type} [Inhabited α] (status : Status) : Read α :=
  ⟨status, default, { r with status := status }⟩

/-- The reader after `count` bytes; the call returns the sticky status. -/
def advance {α : Type} (count : ℕ) (value : α) : Read α :=
  ⟨r.status, value, { r with rest := r.rest.drop count }⟩

def getU8 : Read UInt8 :=
  match r.rest with
  | x :: _ => r.advance 1 x
  | [] => r.fail .invalidArgument

def getU16 : Read UInt16 :=
  match r.rest with
  | hi :: lo :: _ => r.advance 2 (readBe16 hi lo)
  | _ => r.fail .invalidArgument

def getU32 : Read UInt32 :=
  match r.rest with
  | a :: b :: c :: d :: _ => r.advance 4 (readBe32 a b c d)
  | _ => r.fail .invalidArgument

/-- `get_utf8`: a two-byte count and that many bytes, fewer than `capacity`. -/
def getUtf8 (capacity : ℕ) : Read Bytes :=
  let count := r.getU16
  if count.status ≠ .ok then ⟨count.status, [], count.reader⟩
  else if capacity ≤ count.value.toNat then count.reader.fail .outOfRange
  else if count.reader.remaining < count.value.toNat then count.reader.fail .invalidArgument
  else count.reader.advance count.value.toNat (count.reader.rest.take count.value.toNat)

/-- `get_binary`: as `get_utf8`, but the bytes may fill the whole capacity. -/
def getBinary (capacity : ℕ) : Read Bytes := r.getUtf8 (capacity + 1)

def getVarint : Read ℕ :=
  match decodeRemainingLength r.rest with
  | .error status => r.fail status
  | .ok (value, used) => r.advance used value

def skip (count : ℕ) : Read Unit :=
  if r.remaining < count then r.fail .invalidArgument else r.advance count ()

end PacketReader

open PropertyId

def propertyIsByte (id : PropertyId) : Bool :=
  id = payloadFormatIndicator || id = requestProblemInformation ||
    id = requestResponseInformation || id = maximumQos || id = retainAvailable ||
    id = wildcardSubscriptionAvailable || id = subscriptionIdentifierAvailable ||
    id = sharedSubscriptionAvailable

def propertyIsU16 (id : PropertyId) : Bool :=
  id = receiveMaximum || id = topicAliasMaximum || id = topicAlias || id = serverKeepAlive

def propertyIsU32 (id : PropertyId) : Bool :=
  id = messageExpiryInterval || id = sessionExpiryInterval || id = willDelayInterval ||
    id = PropertyId.maximumPacketSize

def propertyIsVarint (id : PropertyId) : Bool := id = subscriptionIdentifier

def propertyIsBinary (id : PropertyId) : Bool := id = correlationData || id = authenticationData

def propertyIsString (id : PropertyId) : Bool :=
  id = contentType || id = responseTopic || id = assignedClientIdentifier ||
    id = authenticationMethod || id = responseInformation || id = serverReference ||
    id = reasonString

def propertyIsPair (id : PropertyId) : Bool := id = userProperty

/-- `property_known(raw)`: the cast keeps the low byte of the identifier. -/
def propertyKnown (raw : ℕ) : Bool :=
  [payloadFormatIndicator, messageExpiryInterval, contentType, responseTopic, correlationData,
    subscriptionIdentifier, sessionExpiryInterval, assignedClientIdentifier, serverKeepAlive,
    authenticationMethod, authenticationData, requestProblemInformation, willDelayInterval,
    requestResponseInformation, responseInformation, serverReference, reasonString,
    receiveMaximum, topicAliasMaximum, topicAlias, maximumQos, retainAvailable, userProperty,
    PropertyId.maximumPacketSize, wildcardSubscriptionAvailable,
    subscriptionIdentifierAvailable, sharedSubscriptionAvailable].contains (UInt8.ofNat raw)

/-- The value of one property, read by the class of its identifier. -/
def decodePropertyValue (limits : PropertyLimits) (id : PropertyId) (r : PacketReader) :
    Except Status (Property × PacketReader) :=
  if propertyIsByte id then
    let value := r.getU8
    if value.status ≠ .ok then .error value.status
    else if value.value > 1 then .error .invalidArgument
    else .ok ({ id, integer := value.value.toUInt32 }, value.reader)
  else if propertyIsU16 id then
    let value := r.getU16
    if value.status ≠ .ok then .error value.status
    else if value.value = 0 ∧ (id = receiveMaximum ∨ id = topicAlias) then .error .invalidArgument
    else .ok ({ id, integer := value.value.toUInt32 }, value.reader)
  else if propertyIsU32 id then
    let value := r.getU32
    if value.status ≠ .ok then .error value.status
    else .ok ({ id, integer := value.value }, value.reader)
  else if propertyIsVarint id then
    let value := r.getVarint
    if value.status ≠ .ok then .error value.status
    else if value.value = 0 then .error .invalidArgument
    else .ok ({ id, integer := UInt32.ofNat value.value }, value.reader)
  else if propertyIsBinary id then
    let value := r.getBinary limits.binaryCapacity
    if value.status ≠ .ok then .error value.status
    else .ok ({ id, binaryValue := value.value }, value.reader)
  else if propertyIsString id || propertyIsPair id then
    let text := r.getUtf8 limits.stringCapacity
    if text.status ≠ .ok then .error text.status
    else if propertyIsPair id then
      let user := text.reader.getUtf8 limits.stringCapacity
      if user.status ≠ .ok then .error user.status
      else .ok ({ id, stringValue := text.value, userValue := user.value }, user.reader)
    else .ok ({ id, stringValue := text.value }, text.reader)
  else .error .invalidArgument

/-- The loop of `decode_properties` over the section `r`, which is done when the
section is used up or an unknown identifier ends a lenient decode. Every turn
consumes a byte, so `fuel` is the length of the section. -/
def decodePropertyList (limits : PropertyLimits) (ignoreUnknown : Bool) :
    ℕ → PacketReader → List Property → Except Status (List Property)
  | 0, _, output => .ok output
  | fuel + 1, r, output =>
    if r.remaining = 0 then .ok output
    else
      let rawId := r.getVarint
      if rawId.status ≠ .ok ∨ propertyKnown rawId.value = false then
        if ignoreUnknown then .ok output else .error .invalidArgument
      else if output.length = limits.maxProperties then .error .full
      else
        match decodePropertyValue limits (UInt8.ofNat rawId.value) rawId.reader with
        | .error status => .error status
        | .ok (item, rest) => decodePropertyList limits ignoreUnknown fuel rest (output ++ [item])

/-- `decode_properties`. An error inside the section leaves the status of the
outer reader as it was. -/
def decodeProperties (limits : PropertyLimits) (r : PacketReader) (ignoreUnknown : Bool) :
    Read (List Property) :=
  let propertyLength := r.getVarint
  if propertyLength.status ≠ .ok then ⟨propertyLength.status, [], propertyLength.reader⟩
  else if propertyLength.reader.remaining < propertyLength.value then
    ⟨.invalidArgument, [], propertyLength.reader⟩
  else
    let properties := propertyLength.reader.rest.take propertyLength.value
    match decodePropertyList limits ignoreUnknown properties.length ⟨properties, .ok⟩ [] with
    | .error status => ⟨status, [], propertyLength.reader⟩
    | .ok output =>
      let skipped := propertyLength.reader.skip propertyLength.value
      ⟨skipped.status, output, skipped.reader⟩

/-- The optional reason code and property section of an acknowledgement or a
DISCONNECT. When the section is rejected the handler returns the status of the
outer reader. The reason is 0 when it is absent. -/
def readOptionalReason (limits : PropertyLimits) (level : UInt8) (reader : PacketReader) :
    Except Status UInt8 :=
  if level = 5 ∧ reader.remaining ≠ 0 then
    let reason := reader.getU8
    if reason.reader.remaining ≠ 0 then
      let properties := decodeProperties limits reason.reader true
      if properties.status ≠ .ok then .error properties.reader.status else .ok reason.value
    else .ok reason.value
  else if level ≠ 5 ∧ reader.remaining ≠ 0 then .error .invalidArgument
  else .ok 0

/-- The packet identifier and the reason code of an acknowledgement. -/
def readAcknowledgement (limits : PropertyLimits) (level : UInt8) (reader : PacketReader) :
    Except Status (UInt16 × UInt8) :=
  match reader.getU16.ok? with
  | none => .error .invalidArgument
  | some (identifier, reader) =>
    if identifier = 0 then .error .invalidArgument
    else
      match readOptionalReason limits level reader with
      | .error status => .error status
      | .ok reason => .ok (identifier, reason)

/-- One entry of `encode_properties`. -/
def encodeProperty (w : PacketWriter) (item : Property) : Except Status PacketWriter :=
  let w := w.putVarint item.id.toNat
  if w.status ≠ .ok then .error w.status
  else if propertyIsByte item.id then .ok (w.putU8 item.integer.toUInt8)
  else if propertyIsU16 item.id then .ok (w.putU16 item.integer.toUInt16)
  else if propertyIsU32 item.id then .ok (w.putU32 item.integer)
  else if propertyIsVarint item.id then .ok (w.putVarint item.integer.toNat)
  else if propertyIsBinary item.id then .ok (w.putBinary item.binaryValue)
  else if propertyIsPair item.id then
    let w := w.putUtf8 (cstr item.stringValue)
    .ok (if w.status = .ok then w.putUtf8 (cstr item.userValue) else w)
  else if propertyIsString item.id then .ok (w.putUtf8 (cstr item.stringValue))
  else .error .invalidArgument

def encodePropertyBody : PacketWriter → List Property → Except Status PacketWriter
  | w, [] => .ok w
  | w, item :: items =>
    match encodeProperty w item with
    | .error status => .error status
    | .ok w => if w.status ≠ .ok then .error w.status else encodePropertyBody w items

/-- `encode_properties`: the list behind its Property Length. -/
def encodeProperties (limits : PropertyLimits) (properties : List Property) (capacity : ℕ) :
    Except Status Bytes :=
  if properties.length > limits.maxProperties then .error .invalidArgument
  else if capacity < 4 then .error .full
  else
    let size := limits.maxProperties * (limits.stringCapacity * 2 + limits.binaryCapacity + 12) + 1
    match encodePropertyBody { capacity := size } properties with
    | .error status => .error status
    | .ok body =>
      let target := ({ capacity } : PacketWriter).putVarint body.data.length
      let target := if target.status = .ok then target.putBytes body.data else target
      if target.status = .ok then .ok target.data else .error target.status

/-- `encode_packet`: fixed header and body, at most `capacity` bytes. -/
def encodePacket (type : PacketType) (flags : UInt8) (body : Bytes) (capacity : ℕ) :
    Except Status Bytes :=
  if validFixedHeader type flags = false then .error .invalidArgument
  else if body.length > maximumRemainingLength then .error .outOfRange
  else
    match encodeRemainingLength body.length with
    | .error status => .error status
    | .ok length =>
      if capacity < 1 + length.length ∨ capacity - 1 - length.length < body.length then
        .error .full
      else .ok ((UInt8.ofNat (type.code * 16) ||| flags) :: (length ++ body))

theorem encodePacket_error_ne_ok {type : PacketType} {flags : UInt8} {body : Bytes}
    {capacity : ℕ} {status : Status} (h : encodePacket type flags body capacity = .error status) :
    status ≠ .ok := by
  unfold encodePacket at h
  split at h
  · cases h
    decide
  split at h
  · cases h
    decide
  next hlen =>
  unfold encodeRemainingLength at h
  rw [if_neg hlen] at h
  dsimp only at h
  split at h
  · cases h
    decide
  · cases h

end Castle.Mqtt

import Mathlib.Algebra.Ring.Nat
import Mathlib.Data.List.Nodup
import Mathlib.Data.List.Perm.Subperm
import Mathlib.Logic.Function.Iterate
import Castle.Status

/-!
# MQTT protocol types (`types.hpp`)

A text or payload argument is the list of its bytes. A `char` array member that
the code fills with `copy_text` and reads back up to the first NUL is the C
string it holds (`cstr`).
-/

namespace Castle.Mqtt

/-- The C string read back from an array that `copy_text` filled with `v`. -/
def cstr (v : List UInt8) : List UInt8 := v.takeWhile (· ≠ 0)

inductive Qos where
  | atMostOnce | atLeastOnce | exactlyOnce
  deriving DecidableEq, Repr, Inhabited

namespace Qos

def toNat : Qos → ℕ
  | atMostOnce => 0
  | atLeastOnce => 1
  | exactlyOnce => 2

/-- `static_cast<qos>` together with the range check that follows it. -/
def ofNat? : ℕ → Option Qos
  | 0 => some atMostOnce
  | 1 => some atLeastOnce
  | 2 => some exactlyOnce
  | _ => none

@[simp] theorem ofNat?_toNat (q : Qos) : ofNat? q.toNat = some q := by cases q <;> rfl

end Qos

inductive PacketType where
  | reserved | connect | connack | publish | puback | pubrec | pubrel | pubcomp
  | subscribe | suback | unsubscribe | unsuback | pingreq | pingresp | disconnect | auth
  deriving DecidableEq, Repr, Inhabited

namespace PacketType

def code : PacketType → ℕ
  | reserved => 0 | connect => 1 | connack => 2 | publish => 3
  | puback => 4 | pubrec => 5 | pubrel => 6 | pubcomp => 7
  | subscribe => 8 | suback => 9 | unsubscribe => 10 | unsuback => 11
  | pingreq => 12 | pingresp => 13 | disconnect => 14 | auth => 15

/-- `static_cast<packet_type>` of a four-bit value. -/
def ofCode : ℕ → PacketType
  | 1 => connect | 2 => connack | 3 => publish
  | 4 => puback | 5 => pubrec | 6 => pubrel | 7 => pubcomp
  | 8 => subscribe | 9 => suback | 10 => unsubscribe | 11 => unsuback
  | 12 => pingreq | 13 => pingresp | 14 => disconnect | 15 => auth
  | _ => reserved

@[simp] theorem ofCode_code (t : PacketType) : ofCode t.code = t := by cases t <;> rfl

theorem code_lt (t : PacketType) : t.code < 16 := by cases t <;> decide

end PacketType

/-- `reason_code` is cast from arbitrary bytes, so it is the byte itself. -/
abbrev ReasonCode := UInt8

namespace ReasonCode

def success : ReasonCode := 0x00
def normalDisconnection : ReasonCode := 0x00
def grantedQos1 : ReasonCode := 0x01
def grantedQos2 : ReasonCode := 0x02
def noMatchingSubscribers : ReasonCode := 0x10
def noSubscriptionExisted : ReasonCode := 0x11
def malformedPacket : ReasonCode := 0x81
def protocolError : ReasonCode := 0x82
def unsupportedProtocolVersion : ReasonCode := 0x84
def clientIdentifierNotValid : ReasonCode := 0x85
def badUserNameOrPassword : ReasonCode := 0x86
def serverUnavailable : ReasonCode := 0x88
def serverBusy : ReasonCode := 0x89
def topicNameInvalid : ReasonCode := 0x90
def packetIdentifierInUse : ReasonCode := 0x91
def packetIdentifierNotFound : ReasonCode := 0x92
def receiveMaximumExceeded : ReasonCode := 0x93
def packetTooLarge : ReasonCode := 0x95

end ReasonCode

open ReasonCode in
/-- `to_status`: failure reasons mapped onto the status domain. -/
def toStatus (reason : ReasonCode) : Status :=
  if reason = success ∨ reason = grantedQos1 ∨ reason = grantedQos2 ∨
      reason = noMatchingSubscribers ∨ reason = noSubscriptionExisted then .ok
  else if reason = unsupportedProtocolVersion then .invalidConfig
  else if reason = clientIdentifierNotValid ∨ reason = topicNameInvalid ∨
      reason = malformedPacket ∨ reason = protocolError then .invalidArgument
  else if reason = packetTooLarge then .outOfRange
  else if reason = packetIdentifierInUse ∨ reason = receiveMaximumExceeded then .full
  else if reason = packetIdentifierNotFound then .notFound
  else if reason = serverUnavailable ∨ reason = serverBusy then .timeOut
  else .unknownError

theorem toStatus_ne_ok {reason : ReasonCode} (h : reason ≥ 0x80) : toStatus reason ≠ .ok := by
  unfold toStatus
  split_ifs with hr
  · -- the codes that map to `ok` are below 0x80
    rcases hr with rfl | rfl | rfl | rfl | rfl <;> exact absurd h (by decide)
  all_goals decide

/-- `property_id` is cast from arbitrary integers, so it is the byte itself. -/
abbrev PropertyId := UInt8

namespace PropertyId

def payloadFormatIndicator : PropertyId := 0x01
def messageExpiryInterval : PropertyId := 0x02
def contentType : PropertyId := 0x03
def responseTopic : PropertyId := 0x08
def correlationData : PropertyId := 0x09
def subscriptionIdentifier : PropertyId := 0x0B
def sessionExpiryInterval : PropertyId := 0x11
def assignedClientIdentifier : PropertyId := 0x12
def serverKeepAlive : PropertyId := 0x13
def authenticationMethod : PropertyId := 0x15
def authenticationData : PropertyId := 0x16
def requestProblemInformation : PropertyId := 0x17
def willDelayInterval : PropertyId := 0x18
def requestResponseInformation : PropertyId := 0x19
def responseInformation : PropertyId := 0x1A
def serverReference : PropertyId := 0x1C
def reasonString : PropertyId := 0x1F
def receiveMaximum : PropertyId := 0x21
def topicAliasMaximum : PropertyId := 0x22
def topicAlias : PropertyId := 0x23
def maximumQos : PropertyId := 0x24
def retainAvailable : PropertyId := 0x25
def userProperty : PropertyId := 0x26
def maximumPacketSize : PropertyId := 0x27
def wildcardSubscriptionAvailable : PropertyId := 0x28
def subscriptionIdentifierAvailable : PropertyId := 0x29
def sharedSubscriptionAvailable : PropertyId := 0x2A

end PropertyId

/-- One entry of a `property_list`. -/
structure Property where
  id : PropertyId := PropertyId.reasonString
  integer : UInt32 := 0
  stringValue : List UInt8 := []
  binaryValue : List UInt8 := []
  userValue : List UInt8 := []
  deriving DecidableEq, Repr, Inhabited

/-- The capacities of a `property_list`. -/
structure PropertyLimits where
  maxProperties : ℕ
  stringCapacity : ℕ
  binaryCapacity : ℕ

def findProperty (id : PropertyId) (properties : List Property) : Option Property :=
  properties.find? fun p => p.id = id

/-- The message handed to the application callback. -/
structure MessageView where
  topic : List UInt8
  payload : List UInt8
  quality : Qos
  duplicate : Bool := false
  retain : Bool
  packetIdentifier : UInt16
  deriving DecidableEq, Repr

/-!
## Packet identifier counters

The broker (`send_publish_to`) and the client (`allocate_identifier`) draw
identifiers from a wrapping 16-bit counter with the same loop.
-/

/-- `++counter; if (counter == 0) ++counter;` -/
def nextIdentifier (counter : UInt16) : UInt16 :=
  if counter + 1 = 0 then counter + 1 + 1 else counter + 1

/-- At most `attempts` steps of the counter, up to the first value not in use:
the counter and whether such a value was found. -/
def searchIdentifier (inUse : UInt16 → Bool) : ℕ → UInt16 → UInt16 × Bool
  | 0, counter => (counter, false)
  | attempts + 1, counter =>
    let counter := nextIdentifier counter
    if inUse counter then searchIdentifier inUse attempts counter else (counter, true)

theorem toNat_nextIdentifier (c : UInt16) : (nextIdentifier c).toNat = c.toNat % 65535 + 1 := by
  have hc : c.toNat < 65536 := c.toNat_lt
  have h1 : (c + 1).toNat = (c.toNat + 1) % 65536 := by simp [UInt16.toNat_add]
  by_cases h : c + 1 = 0
  · have h0 : (c.toNat + 1) % 65536 = 0 := by rw [← h1, h]; rfl
    have hv : c.toNat = 65535 := by omega
    simp [nextIdentifier, h, hv]
  · have hne : (c.toNat + 1) % 65536 ≠ 0 := by
      intro h0
      exact h (UInt16.toNat_inj.mp (by rw [h1, h0]; rfl))
    rw [nextIdentifier, if_neg h, h1]
    omega

theorem nextIdentifier_ne_zero (c : UInt16) : nextIdentifier c ≠ 0 := by
  intro h
  have := toNat_nextIdentifier c
  rw [h] at this
  simp at this

theorem toNat_iterate_nextIdentifier (c : UInt16) (k : ℕ) :
    (nextIdentifier^[k + 1] c).toNat = (c.toNat + k) % 65535 + 1 := by
  induction k with
  | zero => simpa using toNat_nextIdentifier c
  | succ k ih =>
    rw [Function.iterate_succ_apply', toNat_nextIdentifier, ih]
    omega

theorem exists_iterate_nextIdentifier (c id : UInt16) (h : id ≠ 0) :
    ∃ k < 65535, nextIdentifier^[k + 1] c = id := by
  have hid : id.toNat < 65536 := id.toNat_lt
  have hpos : id.toNat ≠ 0 := fun h0 => h (UInt16.toNat_inj.mp (by simpa using h0))
  refine ⟨(id.toNat - 1 + 65535 - c.toNat % 65535) % 65535, Nat.mod_lt _ (by decide), ?_⟩
  apply UInt16.toNat_inj.mp
  rw [toNat_iterate_nextIdentifier]
  omega

theorem searchIdentifier_ne_zero (inUse : UInt16 → Bool) (attempts : ℕ) (c : UInt16)
    (h : (searchIdentifier inUse attempts c).2 = true) :
    (searchIdentifier inUse attempts c).1 ≠ 0 := by
  induction attempts generalizing c with
  | zero => simp [searchIdentifier] at h
  | succ attempts ih =>
    simp only [searchIdentifier] at h ⊢
    split_ifs at h ⊢ with hu
    · exact ih _ h
    · exact nextIdentifier_ne_zero c

theorem searchIdentifier_unused (inUse : UInt16 → Bool) (attempts : ℕ) (c : UInt16)
    (h : (searchIdentifier inUse attempts c).2 = true) :
    inUse (searchIdentifier inUse attempts c).1 = false := by
  induction attempts generalizing c with
  | zero => simp [searchIdentifier] at h
  | succ attempts ih =>
    simp only [searchIdentifier] at h ⊢
    split_ifs at h ⊢ with hu
    · exact ih _ h
    · simpa using hu

theorem searchIdentifier_failed (inUse : UInt16 → Bool) (attempts : ℕ) (c : UInt16)
    (h : (searchIdentifier inUse attempts c).2 = false) (k : ℕ) (hk : k < attempts) :
    inUse (nextIdentifier^[k + 1] c) = true := by
  induction attempts generalizing c k with
  | zero => exact absurd hk (Nat.not_lt_zero k)
  | succ attempts ih =>
    simp only [searchIdentifier] at h
    split_ifs at h with hu
    cases k with
    | zero => simpa using hu
    | succ k =>
      rw [Function.iterate_succ_apply]
      exact ih _ h k (Nat.lt_of_succ_lt_succ hk)

def nonzeroIdentifiers : List UInt16 := (List.range 65535).map fun k => UInt16.ofNat (k + 1)

theorem length_nonzeroIdentifiers : nonzeroIdentifiers.length = 65535 := by
  rw [nonzeroIdentifiers, List.length_map, List.length_range]

theorem nodup_nonzeroIdentifiers : nonzeroIdentifiers.Nodup := by
  refine List.Nodup.map_on ?_ List.nodup_range
  intro j hj k hk h
  rw [List.mem_range] at hj hk
  have hn := congrArg UInt16.toNat h
  rw [UInt16.toNat_ofNat', UInt16.toNat_ofNat'] at hn
  omega

theorem ne_zero_of_mem_nonzeroIdentifiers {id : UInt16} (h : id ∈ nonzeroIdentifiers) : id ≠ 0 := by
  obtain ⟨k, hk, rfl⟩ := List.mem_map.mp h
  rw [List.mem_range] at hk
  intro h0
  have hn := congrArg UInt16.toNat h0
  rw [UInt16.toNat_ofNat'] at hn
  simp only [UInt16.toNat_zero] at hn
  omega

theorem searchIdentifier_succeeds (inUse : UInt16 → Bool) (c : UInt16) (taken : List UInt16)
    (ht : ∀ id, inUse id = true → id ∈ taken) (hlen : taken.length < 65535) :
    (searchIdentifier inUse 65535 c).2 = true := by
  by_contra hf
  have hfail : (searchIdentifier inUse 65535 c).2 = false := by simpa using hf
  have hsub : nonzeroIdentifiers ⊆ taken := by
    intro id hid
    obtain ⟨k, hk, rfl⟩ :=
      exists_iterate_nextIdentifier c id (ne_zero_of_mem_nonzeroIdentifiers hid)
    exact ht _ (searchIdentifier_failed inUse 65535 c hfail k hk)
  have hle := (nodup_nonzeroIdentifiers.subperm hsub).length_le
  rw [length_nonzeroIdentifiers] at hle
  omega

end Castle.Mqtt

import Mathlib.Data.List.GetD
import Castle.Ubx.Parser

/-!
# The streaming parser and the decoder agree

The parser holds on to the bytes from the last synchronization on.
-/

namespace Castle.Ubx

theorem toNat_readLe16 (low high : UInt8) :
    (readLe16 low high).toNat = high.toNat * 256 + low.toNat := by
  have hlow := low.toNat_lt
  have hhigh := high.toNat_lt
  rw [readLe16, UInt16.toNat_or, UInt16.toNat_shiftLeft, UInt8.toNat_toUInt16, UInt8.toNat_toUInt16,
    show (8 : UInt16).toNat % 16 = 8 from rfl, Nat.or_comm, Nat.shiftLeft_eq,
    Nat.mod_eq_of_lt (by omega), Nat.mul_comm high.toNat, ← Nat.two_pow_add_eq_or_of_lt (by omega)]

theorem toNat_lowByte (value : UInt16) : (lowByte value).toNat = value.toNat % 256 := by
  rw [lowByte, UInt16.toNat_toUInt8, UInt16.toNat_and, show (0xff : UInt16).toNat = 2 ^ 8 - 1 from rfl,
    Nat.and_two_pow_sub_one_eq_mod]
  omega

theorem toNat_highByte (value : UInt16) : (highByte value).toNat = value.toNat / 256 := by
  have h := value.toNat_lt
  rw [highByte, UInt16.toNat_toUInt8, UInt16.toNat_and, UInt16.toNat_shiftRight,
    show (0xff : UInt16).toNat = 2 ^ 8 - 1 from rfl, Nat.and_two_pow_sub_one_eq_mod,
    show (8 : UInt16).toNat % 16 = 8 from rfl, Nat.shiftRight_eq_div_pow]
  omega

theorem lowByte_readLe16 (low high : UInt8) : lowByte (readLe16 low high) = low := by
  have hlow := low.toNat_lt
  apply UInt8.toNat_inj.mp
  rw [toNat_lowByte, toNat_readLe16]
  omega

theorem highByte_readLe16 (low high : UInt8) : highByte (readLe16 low high) = high := by
  have hlow := low.toNat_lt
  apply UInt8.toNat_inj.mp
  rw [toNat_highByte, toNat_readLe16]
  omega

theorem readLe16_bytes (value : UInt16) : readLe16 (lowByte value) (highByte value) = value := by
  apply UInt16.toNat_inj.mp
  rw [toNat_readLe16, toNat_lowByte, toNat_highByte]
  omega

/-- The checksum of a frame whose length is in these two bytes. -/
def headerChecksum (msgClass msgId low high : UInt8) : Checksum :=
  ((({} : Checksum).update msgClass).update msgId).update low |>.update high

theorem computeFrameChecksum_eq (msgClass msgId low high : UInt8) (payload : Bytes) :
    computeFrameChecksum msgClass msgId (readLe16 low high) payload =
      payload.foldl Checksum.update (headerChecksum msgClass msgId low high) := by
  rw [computeFrameChecksum, lowByte_readLe16, highByte_readLe16]
  rfl

/-- The bytes in front of a payload. -/
def headerBytes (msgClass msgId low high : UInt8) : Bytes :=
  [syncChar1, syncChar2, msgClass, msgId, low, high]

theorem decodeFrame_eq {msgClass msgId low high ckA ckB : UInt8} {payload : Bytes}
    (hlen : payload.length = (readLe16 low high).toNat)
    (hsum : payload.foldl Checksum.update (headerChecksum msgClass msgId low high) = ⟨ckA, ckB⟩) :
    decodeFrame (headerBytes msgClass msgId low high ++ payload ++ [ckA, ckB]) =
      some ⟨⟨msgClass, msgId, readLe16 low high⟩, payload, ⟨ckA, ckB⟩⟩ := by
  have hsize : (headerBytes msgClass msgId low high ++ payload ++ [ckA, ckB]).length =
      frameSize (readLe16 low high).toNat := by
    simp only [headerBytes, List.length_append, List.length_cons, List.length_nil, hlen, frameSize,
      frameOverhead]
    omega
  have hdrop : (headerBytes msgClass msgId low high ++ payload ++ [ckA, ckB]).drop 6 =
      payload ++ [ckA, ckB] := rfl
  have hget : ∀ i, (headerBytes msgClass msgId low high ++ payload ++ [ckA, ckB]).getD (6 + i) 0 =
      (payload ++ [ckA, ckB]).getD i 0 := by
    intro i
    rw [← hdrop, List.getD_eq_getElem?_getD, List.getD_eq_getElem?_getD, List.getElem?_drop]
  have hA := hget payload.length
  have hB := hget (payload.length + 1)
  rw [List.getD_append_right _ _ _ _ (Nat.le_refl _), Nat.sub_self] at hA
  rw [List.getD_append_right _ _ _ _ (Nat.le_add_right _ _), Nat.add_sub_cancel_left] at hB
  have hfirst : (headerBytes msgClass msgId low high ++ payload ++ [ckA, ckB]).getD 0 0 = syncChar1 := rfl
  have hsecond : (headerBytes msgClass msgId low high ++ payload ++ [ckA, ckB]).getD 1 0 = syncChar2 := rfl
  rw [decodeFrame, if_neg (by rw [hsize, frameSize]; omega),
    if_neg (by rw [hfirst, hsecond]; decide)]
  dsimp only
  rw [show List.getD (headerBytes msgClass msgId low high ++ payload ++ [ckA, ckB]) 2 0 = msgClass from rfl,
    show List.getD (headerBytes msgClass msgId low high ++ payload ++ [ckA, ckB]) 3 0 = msgId from rfl,
    show List.getD (headerBytes msgClass msgId low high ++ payload ++ [ckA, ckB]) 4 0 = low from rfl,
    show List.getD (headerBytes msgClass msgId low high ++ payload ++ [ckA, ckB]) 5 0 = high from rfl,
    if_neg (not_not.mpr hsize), hdrop, ← hlen, List.take_left, computeFrameChecksum_eq, hsum, hA,
    Nat.add_assoc, hB, if_neg (by simp)]
  rfl

namespace Parser

variable (cap : ParserCapacity)

/-- A part of a payload, or all of it, behind the header that announces it. -/
structure InPayload (p : Parser) (front : Bytes) : Prop where
  front : ∃ low high, p.header.payloadLength = readLe16 low high ∧
    front = headerBytes p.header.msgClass p.header.msgId low high ++ p.payload ∧
    p.checksum = p.payload.foldl Checksum.update (headerChecksum p.header.msgClass p.header.msgId low high)
  fits : p.header.payloadLength.toNat ≤ cap.maxPayload

/-- The bytes since the last synchronization, in each state. -/
def Holds (p : Parser) (held : Bytes) : Prop :=
  p.overrun = false ∧
  match p.state with
  | .waitSync1 => held = []
  | .waitSync2 => held = [syncChar1]
  | .waitClass => held = [syncChar1, syncChar2] ∧ p.checksum = {}
  | .waitId => held = [syncChar1, syncChar2, p.header.msgClass] ∧
    p.checksum = ({} : Checksum).update p.header.msgClass
  | .waitLengthLow => held = [syncChar1, syncChar2, p.header.msgClass, p.header.msgId] ∧
    p.checksum = (({} : Checksum).update p.header.msgClass).update p.header.msgId
  | .waitLengthHigh => ∃ low, p.header.payloadLength = low.toUInt16 ∧
    held = [syncChar1, syncChar2, p.header.msgClass, p.header.msgId, low] ∧
    p.checksum = ((({} : Checksum).update p.header.msgClass).update p.header.msgId).update low
  | .readPayload => p.InPayload cap held ∧ p.payload.length < p.header.payloadLength.toNat
  | .waitChecksumA => p.InPayload cap held ∧ p.payload.length = p.header.payloadLength.toNat
  | .waitChecksumB => ∃ front, held = front ++ [p.receivedCkA] ∧ p.InPayload cap front ∧
    p.payload.length = p.header.payloadLength.toNat

variable {cap} {p : Parser} {held : Bytes}

theorem ofNat_maxPayload (cap : ParserCapacity) :
    (UInt16.ofNat cap.maxPayload).toNat = cap.maxPayload := by
  have hle : cap.maxPayload ≤ 65535 := cap.maxPayload_le
  rw [UInt16.toNat_ofNat', Nat.mod_eq_of_lt (by omega)]

theorem holds_resetFrame (h : p.overrun = false) : p.resetFrame.Holds cap [] := ⟨h, rfl⟩

theorem holds_lengthHigh (h : p.Holds cap held) (hs : p.state = .waitLengthHigh) (byte : UInt8) :
    ((p.processByte cap byte).1.Holds cap [] ∨ (p.processByte cap byte).1.Holds cap (held ++ [byte])) ∧
      messages (p.processByte cap byte).2 = [] := by
  obtain ⟨hover, h⟩ := h
  rw [hs] at h
  obtain ⟨low, hlow, rfl, hsum⟩ := h
  rw [processByte, hs]
  dsimp only
  split
  · exact ⟨.inl (holds_resetFrame hover), rfl⟩
  next hfits =>
    have hle : (readLe16 low byte).toNat ≤ cap.maxPayload := by
      rw [← ofNat_maxPayload cap]
      rw [hlow] at hfits
      exact UInt16.not_lt.mp hfits
    have hin : ∀ state, ({ p.summed byte with
        header.payloadLength := p.header.payloadLength ||| byte.toUInt16 <<< 8,
        payload := [], state := state } : Parser).InPayload cap
          (headerBytes p.header.msgClass p.header.msgId low byte) := by
      intro state
      refine ⟨⟨low, byte, ?_, (List.append_nil _).symm, ?_⟩, ?_⟩
      · rw [hlow]
        rfl
      · show p.checksum.update byte = _
        rw [hsum]
        rfl
      · rw [hlow]
        exact hle
    refine ⟨.inr ⟨hover, ?_⟩, rfl⟩
    by_cases hzero : p.header.payloadLength ||| byte.toUInt16 <<< 8 = 0
    · have hcase := hin .waitChecksumA
      simp only [summed, hzero, if_true] at hcase ⊢
      exact ⟨hcase, rfl⟩
    · have hcase := hin .readPayload
      simp only [summed, hzero, if_false] at hcase ⊢
      refine ⟨hcase, Nat.pos_of_ne_zero fun h0 => hzero ?_⟩
      exact UInt16.toNat_inj.mp h0

theorem holds_payload (h : p.Holds cap held) (hs : p.state = .readPayload) (byte : UInt8) :
    (p.processByte cap byte).1.Holds cap (held ++ [byte]) ∧ messages (p.processByte cap byte).2 = [] := by
  obtain ⟨hover, h⟩ := h
  rw [hs] at h
  obtain ⟨⟨⟨low, high, hlength, rfl, hsum⟩, hfits⟩, hlt⟩ := h
  have hroom : (p.overrun || decide (cap.maxPayload ≤ p.payload.length)) = false := by
    rw [hover, Bool.false_or, decide_eq_false_iff_not]
    omega
  have hin : ∀ state, ({ p.summed byte with
      overrun := p.overrun || decide (cap.maxPayload ≤ p.payload.length),
      payload := p.payload ++ [byte], state := state } : Parser).InPayload cap
        (headerBytes p.header.msgClass p.header.msgId low high ++ p.payload ++ [byte]) := by
    intro state
    refine ⟨⟨low, high, hlength, List.append_assoc .., ?_⟩, hfits⟩
    show p.checksum.update byte = _
    rw [hsum, List.foldl_append]
    rfl
  rw [processByte, hs]
  dsimp only
  split
  next hlast => exact ⟨⟨hroom, hin _, hlast⟩, rfl⟩
  next hmore =>
    have hcase := hin p.state
    refine ⟨⟨hroom, ?_⟩, rfl⟩
    dsimp only [summed] at hcase hmore ⊢
    rw [hs] at hcase ⊢
    refine ⟨hcase, ?_⟩
    rw [List.length_append, List.length_singleton] at hmore ⊢
    omega

theorem holds_checksumB (h : p.Holds cap held) (hs : p.state = .waitChecksumB) (byte : UInt8) :
    (p.processByte cap byte).1.Holds cap [] ∧ (messages (p.processByte cap byte).2 = [] ∨
      ∃ view, decodeFrame (held ++ [byte]) = some view ∧ messages (p.processByte cap byte).2 = [view]) := by
  obtain ⟨hover, h⟩ := h
  rw [hs] at h
  obtain ⟨front, rfl, ⟨⟨low, high, hlength, rfl, hsum⟩, hfits⟩, hlast⟩ := h
  rw [processByte, hs]
  dsimp only
  split
  · exact ⟨holds_resetFrame hover, .inl rfl⟩
  next heq =>
    simp only [ne_eq, Bool.or_eq_true, decide_eq_true_eq, not_or, not_not] at heq
    refine ⟨holds_resetFrame hover, .inr ⟨_, ?_, rfl⟩⟩
    rw [List.append_assoc, List.singleton_append]
    rw [decodeFrame_eq (by rw [hlast, hlength]) (by rw [← hsum, ← heq.1, ← heq.2])]
    rw [← hlength]

theorem holding (cap : ParserCapacity) : Transducer.Holding (processByte cap) Event.message?
    (fun part view => decodeFrame part = some view) (Holds cap) := by
  intro p held byte h
  have hover := h.1
  have hheld := h.2
  cases hs : p.state with
  | waitSync1 =>
    rw [hs] at hheld
    rw [processByte, hs, hheld]
    dsimp only
    by_cases hsync : byte = syncChar1
    · exact .keep (by rw [if_pos hsync, hsync]; exact ⟨hover, rfl⟩) rfl
    · exact .drop (by rw [if_neg hsync]; exact ⟨hover, by rw [hs]⟩) rfl
  | waitSync2 =>
    rw [hs] at hheld
    rw [processByte, hs, hheld]
    dsimp only
    by_cases hsync2 : byte = syncChar2
    · exact .keep (by rw [if_pos hsync2, hsync2]; exact ⟨hover, rfl, rfl⟩) rfl
    by_cases hsync1 : byte = syncChar1
    -- a second `syncChar1` may be the first of a frame
    · exact .skip [syncChar1] [syncChar1] (by rw [hsync1])
        (by rw [if_neg hsync2, if_pos hsync1]; exact ⟨hover, rfl⟩) rfl
    · exact .drop (by rw [if_neg hsync2, if_neg hsync1]; exact ⟨hover, rfl⟩) rfl
  | waitClass =>
    rw [hs] at hheld
    obtain ⟨rfl, hsum⟩ := hheld
    rw [processByte, hs]
    dsimp only [summed]
    exact .keep ⟨hover, rfl, by rw [← hsum]⟩ rfl
  | waitId =>
    rw [hs] at hheld
    obtain ⟨rfl, hsum⟩ := hheld
    rw [processByte, hs]
    dsimp only [summed]
    exact .keep ⟨hover, rfl, by rw [← hsum]⟩ rfl
  | waitLengthLow =>
    rw [hs] at hheld
    obtain ⟨rfl, hsum⟩ := hheld
    rw [processByte, hs]
    dsimp only [summed]
    exact .keep ⟨hover, byte, rfl, rfl, by rw [← hsum]⟩ rfl
  | waitLengthHigh =>
    obtain ⟨hcase, hquiet⟩ := holds_lengthHigh h hs byte
    exact hcase.elim (.drop · hquiet) (.keep · hquiet)
  | readPayload =>
    obtain ⟨hcase, hquiet⟩ := holds_payload h hs byte
    exact .keep hcase hquiet
  | waitChecksumA =>
    rw [hs] at hheld
    obtain ⟨hin, hlast⟩ := hheld
    rw [processByte, hs]
    dsimp only [summed]
    exact .keep ⟨hover, held, rfl, ⟨hin.front, hin.fits⟩, hlast⟩ rfl
  | waitChecksumB =>
    obtain ⟨hreset, hquiet | ⟨view, hview, hmessage⟩⟩ := holds_checksumB h hs byte
    · exact .drop hreset hquiet
    · exact .give view hview hreset hmessage

theorem feed_append (l m : Bytes) : p.feed cap (l ++ m) =
    (((p.feed cap l).1.feed cap m).1, (p.feed cap l).2 ++ ((p.feed cap l).1.feed cap m).2) :=
  Transducer.feed_append ..

theorem feed_payload (hs : p.state = .readPayload) {rest : Bytes} (hne : rest ≠ [])
    (hlen : p.payload.length + rest.length = p.header.payloadLength.toNat) :
    ∃ q, p.feed cap rest = (q, []) ∧ q.state = .waitChecksumA ∧ q.header = p.header ∧
      q.payload = p.payload ++ rest ∧ q.checksum = rest.foldl Checksum.update p.checksum := by
  induction rest generalizing p with
  | nil => exact absurd rfl hne
  | cons byte rest ih =>
    rw [List.length_cons] at hlen
    cases rest with
    | nil =>
      have hlast : p.payload.length + 1 = p.header.payloadLength.toNat := hlen
      rw [feed, Transducer.feed, Transducer.feed, processByte, hs]
      simp only [summed, List.length_append, List.length_singleton, hlast, if_true]
      exact ⟨_, rfl, rfl, rfl, rfl, rfl⟩
    | cons next rest =>
      have hmore : p.payload.length + 1 ≠ p.header.payloadLength.toNat := by
        rw [List.length_cons] at hlen
        omega
      rw [feed, Transducer.feed, processByte, hs]
      simp only [summed, List.length_append, List.length_singleton, hmore, if_false, List.nil_append]
      obtain ⟨q, hfeed, hstate, hheader, hpayload, hsum⟩ := ih (p := { p with
        checksum := p.checksum.update byte
        overrun := p.overrun || decide (cap.maxPayload ≤ p.payload.length)
        payload := p.payload ++ [byte] }) hs (List.cons_ne_nil _ _) (by
          show (p.payload ++ [byte]).length + _ = p.header.payloadLength.toNat
          rw [List.length_append, List.length_singleton]
          omega)
      rw [feed] at hfeed
      rw [hfeed]
      exact ⟨q, rfl, hstate, hheader, by rw [hpayload, List.append_assoc]; rfl, hsum⟩

theorem feed_header (hs : p.state = .waitSync1) (msgClass msgId : UInt8) {low high : UInt8}
    (hfits : (readLe16 low high).toNat ≤ cap.maxPayload) :
    p.feed cap (headerBytes msgClass msgId low high) =
      ({ p with
          state := if readLe16 low high = 0 then .waitChecksumA else .readPayload
          header := ⟨msgClass, msgId, readLe16 low high⟩
          checksum := headerChecksum msgClass msgId low high
          payload := [] }, []) := by
  have hfront : p.feed cap [syncChar1, syncChar2, msgClass, msgId, low] =
      ({ p with
          state := .waitLengthHigh
          header := ⟨msgClass, msgId, low.toUInt16⟩
          checksum := ((({} : Checksum).update msgClass).update msgId).update low }, []) := by
    simp only [feed, Transducer.feed, processByte, hs, if_true, summed]
    rfl
  have hin : ¬(low.toUInt16 ||| high.toUInt16 <<< 8) > UInt16.ofNat cap.maxPayload := by
    rw [gt_iff_lt, UInt16.not_lt, UInt16.le_iff_toNat_le, ofNat_maxPayload]
    exact hfits
  rw [show headerBytes msgClass msgId low high = [syncChar1, syncChar2, msgClass, msgId, low] ++ [high] from rfl,
    feed_append, hfront, feed, Transducer.feed, Transducer.feed, processByte]
  dsimp only [summed]
  rw [if_neg hin]
  rfl

theorem feed_checksum (hs : p.state = .waitChecksumA) :
    (p.feed cap [p.checksum.ckA, p.checksum.ckB]).1.state = .waitSync1 ∧
      messages (p.feed cap [p.checksum.ckA, p.checksum.ckB]).2 = [⟨p.header, p.payload, p.checksum⟩] := by
  have hfeed : p.feed cap [p.checksum.ckA, p.checksum.ckB] =
      ({ p with receivedCkA := p.checksum.ckA, receivedCkB := p.checksum.ckB } : Parser).onFrameComplete := by
    simp [feed, Transducer.feed, processByte, hs, onFrameComplete, resetFrame]
  rw [hfeed]
  exact ⟨rfl, rfl⟩

variable (cap) in
theorem feed_frame (hs : p.state = .waitSync1) {msgClass msgId : UInt8} {payload : Bytes}
    (hfits : payload.length ≤ cap.maxPayload) {outputCapacity : ℕ}
    (hroom : frameSize payload.length ≤ outputCapacity) :
    ((p.feed cap (encodeFrame msgClass msgId payload outputCapacity).2).1).state = .waitSync1 ∧
      messages (p.feed cap (encodeFrame msgClass msgId payload outputCapacity).2).2 =
        [⟨⟨msgClass, msgId, UInt16.ofNat payload.length⟩, payload,
          computeFrameChecksum msgClass msgId (UInt16.ofNat payload.length) payload⟩] := by
  have hcap : cap.maxPayload ≤ maxPayloadLen := cap.maxPayload_le
  generalize hlength : UInt16.ofNat payload.length = length
  have hnat : length.toNat = payload.length := by
    rw [← hlength, UInt16.toNat_ofNat', Nat.mod_eq_of_lt (by rw [maxPayloadLen] at hcap; omega)]
  have hread : readLe16 (lowByte length) (highByte length) = length := readLe16_bytes length
  have hsum : computeFrameChecksum msgClass msgId length payload =
      payload.foldl Checksum.update (headerChecksum msgClass msgId (lowByte length) (highByte length)) := by
    rw [← computeFrameChecksum_eq, hread]
  have hbytes : (encodeFrame msgClass msgId payload outputCapacity).2 =
      headerBytes msgClass msgId (lowByte length) (highByte length) ++ (payload ++
        [(computeFrameChecksum msgClass msgId length payload).ckA,
          (computeFrameChecksum msgClass msgId length payload).ckB]) := by
    rw [encodeFrame, if_neg (by omega), if_neg (by omega), ← hlength, ← List.append_assoc]
    rfl
  rw [hbytes, feed_append, feed_header hs msgClass msgId (by rw [hread, hnat]; exact hfits), hread,
    List.nil_append]
  dsimp only
  by_cases hempty : payload = []
  · have hzero : length = 0 := by
      rw [hempty] at hlength
      exact hlength.symm
    rw [if_pos hzero, hempty, List.nil_append, ← hempty, hsum, hempty]
    exact @feed_checksum cap ({ p with
      state := .waitChecksumA
      header := ⟨msgClass, msgId, length⟩
      checksum := headerChecksum msgClass msgId (lowByte length) (highByte length)
      payload := [] }) rfl
  · have hpos : length ≠ 0 := by
      intro hzero
      rw [hzero] at hnat
      exact hempty (List.eq_nil_of_length_eq_zero hnat.symm)
    rw [if_neg hpos, feed_append]
    obtain ⟨q, hfeed, hstate, hheader, hpayload, hcheck⟩ := @feed_payload cap ({ p with
      state := .readPayload
      header := ⟨msgClass, msgId, length⟩
      checksum := headerChecksum msgClass msgId (lowByte length) (highByte length)
      payload := [] }) rfl _ hempty (by rw [hnat]; exact Nat.zero_add _)
    dsimp only at hheader hpayload hcheck
    rw [hfeed, hsum, ← hcheck, List.nil_append]
    have hlast := @feed_checksum cap _ hstate
    rw [hheader, hpayload] at hlast
    exact hlast

end Parser

/-- A piece of a stream: bytes without a `syncChar1`, or what `encodeFrame` writes for a payload
that the parser has room for. -/
inductive Piece (cap : ParserCapacity) where
  | noise (noise : Bytes) (hquiet : ∀ byte ∈ noise, byte ≠ syncChar1)
  | frame (msgClass msgId : UInt8) (payload : Bytes) (hfits : payload.length ≤ cap.maxPayload)
    (outputCapacity : ℕ) (hroom : frameSize payload.length ≤ outputCapacity)

namespace Piece

variable {cap : ParserCapacity}

def bytes : Piece cap → Bytes
  | .noise bytes _ => bytes
  | .frame msgClass msgId payload _ outputCapacity _ => (encodeFrame msgClass msgId payload outputCapacity).2

def view? : Piece cap → Option MessageView
  | .noise _ _ => none
  | .frame msgClass msgId payload _ _ _ =>
    some ⟨⟨msgClass, msgId, UInt16.ofNat payload.length⟩, payload,
      computeFrameChecksum msgClass msgId (UInt16.ofNat payload.length) payload⟩

end Piece

namespace Parser

variable {cap : ParserCapacity}

theorem feed_pieces (pieces : List (Piece cap)) {p : Parser} (hs : p.state = .waitSync1) :
    messages (p.feed cap (pieces.flatMap Piece.bytes)).2 = pieces.filterMap Piece.view? := by
  induction pieces generalizing p with
  | nil => rfl
  | cons piece pieces ih =>
    rw [List.flatMap_cons, feed_append, messages, List.filterMap_append, List.filterMap_cons]
    cases piece with
    | noise noise hquiet =>
      have hidle : p.feed cap noise = (p, []) := by
        refine Transducer.feed_idle _ fun byte hbyte => ?_
        rw [processByte, hs]
        dsimp only
        rw [if_neg (hquiet byte hbyte)]
      rw [Piece.bytes, hidle]
      exact ih hs
    | frame msgClass msgId payload hfits outputCapacity hroom =>
      obtain ⟨hstate, hmessage⟩ := @feed_frame cap _ hs msgClass msgId _ hfits _ hroom
      rw [messages] at hmessage
      rw [Piece.bytes, hmessage, Piece.view?]
      exact congrArg _ (ih hstate)

/-- The parser delivers the frames of a stream, and what it delivers are frames of the stream. -/
theorem delivers_frames (cap : ParserCapacity) :
    (∀ (pieces : List (Piece cap)) (chunks : List Bytes), chunks.flatten = pieces.flatMap Piece.bytes →
      messages (({} : Parser).feedChunks cap chunks).2 = pieces.filterMap Piece.view?) ∧
    ∀ chunks : List Bytes,
      (∃ parts, Scattered chunks.flatten parts ∧ List.Forall₂ (fun part view => decodeFrame part = some view) parts
        (messages (({} : Parser).feedChunks cap chunks).2)) ∧
      (({} : Parser).feedChunks cap chunks).1.overrun = false := by
  constructor
  · intro pieces chunks hcut
    rw [feedChunks, Transducer.feedChunks_eq, hcut]
    exact feed_pieces pieces rfl
  · intro chunks
    rw [feedChunks, Transducer.feedChunks_eq]
    obtain ⟨front, held, parts, hstream, hheld, hparts, hvalid⟩ :=
      (holding cap).parts (s := {}) ⟨rfl, rfl⟩ chunks.flatten
    refine ⟨⟨parts, ?_, hvalid⟩, hheld.1⟩
    rw [hstream]
    exact hparts.append held

/-- A poll of the navigation position behind a byte of noise, in two chunks. -/
theorem delivers_frames_poll :
    messages (({} : Parser).feedChunks ⟨4, by decide, by decide⟩
      [[0xff, 0xb5, 0x62, 0x01], [0x07, 0x00, 0x00, 0x08, 0x19]]).2 = [⟨⟨1, 7, 0⟩, [], ⟨0x08, 0x19⟩⟩] :=
  (delivers_frames ⟨4, by decide, by decide⟩).1
    [.noise [0xff] (List.forall_mem_singleton.mpr (by decide)), .frame 1 7 [] (by decide) 8 (by decide)]
    [[0xff, 0xb5, 0x62, 0x01], [0x07, 0x00, 0x00, 0x08, 0x19]] (by decide)

end Parser
end Castle.Ubx

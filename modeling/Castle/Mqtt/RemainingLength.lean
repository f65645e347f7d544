import Mathlib.Tactic.Ring
import Castle.Lib.WordBits
import Castle.Mqtt.Framing

/-!
# Remaining Length and complete packets (`codec.hpp`)

The decoder reads back what the encoder writes with any bytes behind it, accepts nothing else, and
asks for more bytes on every strict prefix; so does `inspect_packet` with a packet.
-/

namespace Castle.Mqtt

theorem lastDigit_and {d : ℕ} (h : d < 128) :
    UInt8.ofNat d &&& 0x80 = 0 ∧ (UInt8.ofNat d &&& 0x7F).toNat = d := by
  have hall : ∀ n : Fin 128, UInt8.ofNat n.val &&& 0x80 = 0 ∧ (UInt8.ofNat n.val &&& 0x7F).toNat = n.val := by
    decide
  exact hall ⟨d, h⟩

theorem moreDigit_and {d : ℕ} (h : d < 128) :
    (UInt8.ofNat d ||| 0x80) &&& 0x80 ≠ 0 ∧ ((UInt8.ofNat d ||| 0x80) &&& 0x7F).toNat = d := by
  have hall : ∀ n : Fin 128, (UInt8.ofNat n.val ||| 0x80) &&& 0x80 ≠ 0 ∧
      ((UInt8.ofNat n.val ||| 0x80) &&& 0x7F).toNat = n.val := by
    decide
  exact hall ⟨d, h⟩

theorem eq_digit (digit : UInt8) : (digit &&& 0x80 = 0 → digit = UInt8.ofNat (digit &&& 0x7F).toNat)
    ∧ (digit &&& 0x80 ≠ 0 → digit = UInt8.ofNat (digit &&& 0x7F).toNat ||| 0x80) := by
  revert digit
  refine WordBits.forall_byte ?_
  set_option maxRecDepth 1000 in
  decide

theorem remainingLengthDigits_ne_nil (n v : ℕ) : remainingLengthDigits (n + 1) v ≠ [] := by
  rw [remainingLengthDigits]
  split_ifs <;> exact List.cons_ne_nil _ _

theorem remainingLengthDigits_length_pos (v : ℕ) : 0 < (remainingLengthDigits 4 v).length :=
  List.length_pos_iff.mpr (remainingLengthDigits_ne_nil 3 v)

/-- The digits of `v` at byte `i`, which is not the first one unless `v` is 0 or the field starts. -/
theorem decodeLengthFrom_digits {n i value v : ℕ} (more : Bytes) (hn : i + n = 4) (hv : v < 128 ^ n)
    (hvalue : value < 128 ^ i) (hmin : i ≠ 0 → v ≠ 0) :
    decodeLengthFrom n i value (remainingLengthDigits n v ++ more) =
      .ok (value + v * 128 ^ i, i + (remainingLengthDigits n v).length) := by
  induction n generalizing i value v with
  | zero =>
    have hi : i ≠ 0 := by omega
    exact absurd (Nat.lt_one_iff.mp hv) (hmin hi)
  | succ n ih =>
    have hdigit : v % 128 < 128 := Nat.mod_lt v (by omega)
    rw [remainingLengthDigits]
    split_ifs with hmore
    · obtain ⟨hbit, hbits⟩ := moreDigit_and hdigit
      have hquot : v / 128 < 128 ^ n := by
        rw [pow_succ] at hv
        exact Nat.div_lt_of_lt_mul (by rwa [Nat.mul_comm])
      have hvalue' : value + v % 128 * 128 ^ i < 128 ^ (i + 1) := by
        have hle : v % 128 * 128 ^ i ≤ 127 * 128 ^ i := Nat.mul_le_mul_right _ (by omega)
        rw [pow_succ]
        omega
      have hsum : value + v % 128 * 128 ^ i + v / 128 * 128 ^ (i + 1) = value + v * 128 ^ i := by
        have hsplit := Nat.div_add_mod v 128
        calc value + v % 128 * 128 ^ i + v / 128 * 128 ^ (i + 1)
            = value + (128 * (v / 128) + v % 128) * 128 ^ i := by ring
          _ = value + v * 128 ^ i := by rw [hsplit]
      rw [List.cons_append, decodeLengthFrom, hbits]
      rw [if_neg hbit, ih (by omega) hquot hvalue' fun _ => hmore, hsum, List.length_cons, Nat.add_assoc i 1,
        Nat.add_comm 1]
    · obtain ⟨hbit, hbits⟩ := lastDigit_and hdigit
      have hsmall : v % 128 = v := by omega
      rw [hsmall] at hbit hbits
      have hmax : ¬value + v * 128 ^ i > maximumRemainingLength := by
        have hpow : 128 ^ (i + 1) ≤ 128 ^ 4 := Nat.pow_le_pow_right (by omega) (by omega)
        have hle : v * 128 ^ i ≤ 127 * 128 ^ i := Nat.mul_le_mul_right _ (by omega)
        rw [pow_succ] at hpow
        unfold maximumRemainingLength
        omega
      have hlong : ¬(i ≠ 0 ∧ value + v * 128 ^ i < 128 ^ i) := by
        rintro ⟨hi, hlt⟩
        have hle : 1 * 128 ^ i ≤ v * 128 ^ i := Nat.mul_le_mul_right _ (Nat.pos_of_ne_zero (hmin hi))
        omega
      rw [hsmall, List.singleton_append, decodeLengthFrom, hbits]
      rw [if_pos hbit, if_neg hmax, if_neg hlong]
      rfl

theorem decodeLengthFrom_prefix {n i value v k : ℕ} (hk : k < (remainingLengthDigits n v).length) :
    decodeLengthFrom n i value ((remainingLengthDigits n v).take k) = .error .empty := by
  induction n generalizing i value v k with
  | zero => cases hk
  | succ n ih =>
    cases k with
    | zero => rfl
    | succ k =>
      have hdigit : v % 128 < 128 := Nat.mod_lt v (by omega)
      rw [remainingLengthDigits] at hk ⊢
      split_ifs at hk ⊢ with hmore
      · rw [List.take_succ_cons, decodeLengthFrom]
        rw [if_neg (moreDigit_and hdigit).1]
        exact ih (Nat.lt_of_succ_lt_succ hk)
      · exact absurd hk (by simp)

theorem digits_of_decodeLengthFrom {n i value v used : ℕ} {input : Bytes}
    (h : decodeLengthFrom n i value input = .ok (v, used)) (hvalue : value < 128 ^ i) :
    v ≤ maximumRemainingLength ∧ ∃ w, v = value + w * 128 ^ i ∧ (i ≠ 0 → w ≠ 0) ∧
      input.take (used - i) = remainingLengthDigits n w := by
  induction n generalizing i value input with
  | zero => cases h
  | succ n ih =>
    cases input with
    | nil => cases h
    | cons digit rest =>
      have hdigit := digit_lt digit
      simp only [decodeLengthFrom] at h
      split at h
      next hlast =>
        split at h
        · cases h
        next hmax =>
        split at h
        · cases h
        next hmin =>
        cases h
        refine ⟨not_lt.mp hmax, (digit &&& 0x7F).toNat, rfl, fun hi hzero => ?_, ?_⟩
        · rw [hzero, Nat.zero_mul, Nat.add_zero] at hmin
          exact hmin ⟨hi, hvalue⟩
        · have hstop : ¬(digit &&& 0x7F).toNat / 128 ≠ 0 := by omega
          rw [remainingLengthDigits, Nat.add_sub_cancel_left, List.take_succ_cons, List.take_zero]
          rw [if_neg hstop, Nat.mod_eq_of_lt hdigit, ← (eq_digit digit).1 hlast]
      next hmore =>
        have hvalue' : value + (digit &&& 0x7F).toNat * 128 ^ i < 128 ^ (i + 1) := by
          have hle : (digit &&& 0x7F).toNat * 128 ^ i ≤ 127 * 128 ^ i := Nat.mul_le_mul_right _ (by omega)
          rw [pow_succ]
          omega
        obtain ⟨hlt, -, -⟩ := decodeLengthFrom_ok h
        obtain ⟨hmax, w, rfl, hw, htake⟩ := ih h hvalue'
        refine ⟨hmax, (digit &&& 0x7F).toNat + 128 * w, by ring, fun _ => by have := hw (by omega); omega, ?_⟩
        have hquot : ((digit &&& 0x7F).toNat + 128 * w) / 128 = w := by omega
        have hrem : ((digit &&& 0x7F).toNat + 128 * w) % 128 = (digit &&& 0x7F).toNat := by omega
        have hstep : used - i = (used - (i + 1)) + 1 := by omega
        rw [hstep, List.take_succ_cons, htake, remainingLengthDigits]
        rw [hquot, hrem, if_pos (hw (by omega)), ← (eq_digit digit).2 hmore]

theorem encodeRemainingLength_ok {v : ℕ} (h : v ≤ maximumRemainingLength) :
    encodeRemainingLength v = .ok (remainingLengthDigits 4 v) := by
  rw [encodeRemainingLength, if_neg (not_lt.mpr h)]

theorem decode_encode {v : ℕ} (h : v ≤ maximumRemainingLength) (more : Bytes) :
    decodeRemainingLength (remainingLengthDigits 4 v ++ more) = .ok (v, (remainingLengthDigits 4 v).length) := by
  have hlt : v < 128 ^ 4 := Nat.lt_succ_of_le h
  have hdecode := @decodeLengthFrom_digits 4 0 0 v more rfl hlt (by simp) fun h0 => absurd rfl h0
  rw [Nat.zero_add, Nat.zero_add, pow_zero, Nat.mul_one] at hdecode
  exact hdecode

theorem decode_prefix {v k : ℕ} (hk : k < (remainingLengthDigits 4 v).length) :
    decodeRemainingLength ((remainingLengthDigits 4 v).take k) = .error .empty :=
  decodeLengthFrom_prefix hk

theorem encode_of_decode {v used : ℕ} {input : Bytes} (h : decodeRemainingLength input = .ok (v, used)) :
    encodeRemainingLength v = .ok (input.take used) := by
  obtain ⟨hmax, w, hw, -, htake⟩ := digits_of_decodeLengthFrom h (by simp)
  rw [Nat.zero_add, pow_zero, Nat.mul_one] at hw
  rw [encodeRemainingLength_ok hmax, hw, ← htake, Nat.sub_zero]

variable {flags : UInt8}

theorem firstByte_parts (type : PacketType) (h : flags ≤ 15) :
    ((UInt8.ofNat (type.code * 16) ||| flags) >>> 4).toNat = type.code ∧
      (UInt8.ofNat (type.code * 16) ||| flags) &&& 0x0F = flags := by
  have hall : ∀ c : Fin 16, ∀ f : Fin 16,
      ((UInt8.ofNat (c.val * 16) ||| UInt8.ofNat f.val) >>> 4).toNat = c.val ∧
        (UInt8.ofNat (c.val * 16) ||| UInt8.ofNat f.val) &&& 0x0F = UInt8.ofNat f.val := by
    decide
  have hf : flags.toNat < 16 := Nat.lt_succ_of_le (UInt8.le_iff_toNat_le.mp h)
  have hparts := hall ⟨type.code, type.code_lt⟩ ⟨flags.toNat, hf⟩
  simpa only [UInt8.ofNat_toNat] using hparts

def packetBytes (type : PacketType) (flags : UInt8) (body : Bytes) : Bytes :=
  (UInt8.ofNat (type.code * 16) ||| flags) :: (remainingLengthDigits 4 body.length ++ body)

variable {type : PacketType}

theorem encodePacket_ok {body : Bytes} {capacity : ℕ} (hheader : validFixedHeader type flags = true)
    (hbody : body.length ≤ maximumRemainingLength)
    (hroom : (packetBytes type flags body).length ≤ capacity) :
    encodePacket type flags body capacity = .ok (packetBytes type flags body) := by
  have hfits : ¬(capacity < 1 + (remainingLengthDigits 4 body.length).length ∨
      capacity - 1 - (remainingLengthDigits 4 body.length).length < body.length) := by
    simp only [packetBytes, List.length_cons, List.length_append] at hroom
    omega
  rw [encodePacket, if_neg (by simp [hheader]), if_neg (not_lt.mpr hbody), encodeRemainingLength_ok hbody]
  dsimp only
  rw [if_neg hfits]
  rfl

theorem inspectPacket_first {tail : Bytes} {maximum : ℕ} (htype : type ≠ .reserved)
    (hflags : flags ≤ 15) (hheader : validFixedHeader type flags = true) (htail : tail ≠ [])
    (hmax : 2 ≤ maximum) :
    inspectPacket ((UInt8.ofNat (type.code * 16) ||| flags) :: tail) maximum =
      match decodeRemainingLength tail with
      | .error status => .error status
      | .ok (remaining, lengthBytes) =>
        if remaining > maximum ∨ 1 + lengthBytes > maximum - remaining then .error .outOfRange
        else if tail.length + 1 < 1 + lengthBytes + remaining then .error .empty
        else .ok
          { type, flags, remainingLength := remaining, headerSize := 1 + lengthBytes
            packetSize := 1 + lengthBytes + remaining
            body := (tail.drop lengthBytes).take remaining } := by
  obtain ⟨hcode, hlow⟩ := firstByte_parts type hflags
  obtain ⟨second, rest, rfl⟩ := List.exists_cons_of_ne_nil htail
  have hvalid : ¬(type.code = 0 ∨ validFixedHeader (.ofCode type.code) flags = false) := by
    rw [PacketType.ofCode_code, hheader]
    rintro (hzero | hfalse)
    · apply htype
      rw [← PacketType.ofCode_code type, hzero]
      rfl
    · cases hfalse
  rw [inspectPacket, if_neg (not_lt.mpr hmax)]
  dsimp only
  rw [hcode, hlow, if_neg hvalid, PacketType.ofCode_code]
  cases decodeRemainingLength (second :: rest) with
  | error status => rfl
  | ok found =>
    dsimp only
    rw [List.length_cons, Nat.add_comm 1 found.2, List.drop_succ_cons]

section

variable {body : Bytes} {maximum : ℕ} (htype : type ≠ .reserved) (hflags : flags ≤ 15)
  (hheader : validFixedHeader type flags = true) (hbody : body.length ≤ maximumRemainingLength)
  (hmax : (packetBytes type flags body).length ≤ maximum)

include htype hflags hheader hbody hmax

theorem inspectPacket_packetBytes (more : Bytes) :
    ∃ view, inspectPacket (packetBytes type flags body ++ more) maximum = .ok view ∧ view.type = type ∧
      view.flags = flags ∧ view.body = body ∧ view.packetSize = (packetBytes type flags body).length := by
  have hdigits := remainingLengthDigits_length_pos body.length
  simp only [packetBytes, List.length_cons, List.length_append] at hmax ⊢
  have htail : remainingLengthDigits 4 body.length ++ body ++ more ≠ [] := by
    simp [remainingLengthDigits_ne_nil 3 body.length]
  rw [List.cons_append, inspectPacket_first htype hflags hheader htail (by omega), List.append_assoc,
    decode_encode hbody]
  dsimp only
  rw [if_neg (by omega), if_neg (by simp only [List.length_append]; omega)]
  refine ⟨_, rfl, rfl, rfl, ?_, by dsimp only; omega⟩
  dsimp only
  rw [List.drop_left, List.take_left]

theorem inspectPacket_prefix {k : ℕ} (htwo : 2 ≤ k) (hk : k < (packetBytes type flags body).length) :
    inspectPacket ((packetBytes type flags body).take k) maximum = .error .empty := by
  have hdigits := remainingLengthDigits_length_pos body.length
  obtain ⟨k, rfl⟩ := Nat.exists_eq_add_of_le' htwo
  simp only [packetBytes, List.length_cons, List.length_append] at hmax hk ⊢
  have htail : (remainingLengthDigits 4 body.length ++ body).take (k + 1) ≠ [] := by
    simp [remainingLengthDigits_ne_nil 3 body.length]
  rw [List.take_succ_cons, inspectPacket_first htype hflags hheader htail (by omega)]
  by_cases hlength : k + 1 < (remainingLengthDigits 4 body.length).length
  · -- the Remaining Length itself is cut
    rw [List.take_append_of_le_length (Nat.le_of_lt hlength), decode_prefix hlength]
  · rw [List.take_append, List.take_of_length_le (not_lt.mp hlength), decode_encode hbody]
    dsimp only
    rw [if_neg (by omega), if_pos (by simp only [List.length_append, List.length_take]; omega)]

end

/-- The Remaining Length field is read back, in its shortest form only, and so are whole packets. -/
theorem packets_round_trip :
    (∀ v, v ≤ 268435455 → ∃ bytes, encodeRemainingLength v = .ok bytes ∧
      (∀ more, decodeRemainingLength (bytes ++ more) = .ok (v, bytes.length)) ∧
      ∀ k, k < bytes.length → decodeRemainingLength (bytes.take k) = .error .empty) ∧
    (∀ input v used, decodeRemainingLength input = .ok (v, used) →
      used ≤ input.length ∧ encodeRemainingLength v = .ok (input.take used)) ∧
    (∀ a b c d more, a &&& 0x80 ≠ 0 → b &&& 0x80 ≠ 0 → c &&& 0x80 ≠ 0 → d &&& 0x80 ≠ 0 →
      decodeRemainingLength (a :: b :: c :: d :: more) = .error .invalidArgument) ∧
    ∀ type flags body capacity maximum, type ≠ .reserved → flags ≤ 15 → validFixedHeader type flags = true →
      body.length ≤ 268435455 → (packetBytes type flags body).length ≤ capacity →
      (packetBytes type flags body).length ≤ maximum →
      ∃ packet, encodePacket type flags body capacity = .ok packet ∧
        (∀ more, ∃ view, inspectPacket (packet ++ more) maximum = .ok view ∧ view.type = type ∧
          view.flags = flags ∧ view.body = body ∧ view.packetSize = packet.length) ∧
        ∀ k, 2 ≤ k → k < packet.length → inspectPacket (packet.take k) maximum = .error .empty := by
  refine ⟨fun v hv => ⟨_, encodeRemainingLength_ok hv, decode_encode hv, fun k hk => decode_prefix hk⟩, ?_, ?_, ?_⟩
  · intro input v used h
    obtain ⟨-, hle, -⟩ := decodeLengthFrom_ok h
    exact ⟨by omega, encode_of_decode h⟩
  · intro a b c d more ha hb hc hd
    simp [decodeRemainingLength, decodeLengthFrom, if_neg ha, if_neg hb, if_neg hc, if_neg hd]
  · intro type flags body capacity maximum htype hflags hheader hbody hroom hmax
    refine ⟨_, encodePacket_ok hheader hbody hroom, ?_, ?_⟩
    · exact inspectPacket_packetBytes htype hflags hheader hbody hmax
    · intro k htwo hk
      exact inspectPacket_prefix htype hflags hheader hbody hmax htwo hk

/-- A PUBLISH packet of three bytes. -/
theorem packets_round_trip_publish :
    ∃ packet, encodePacket .publish 0 [0, 1, 0x74] 16 = .ok packet ∧
      (∀ more, ∃ view, inspectPacket (packet ++ more) 16 = .ok view ∧ view.type = .publish ∧ view.flags = 0 ∧
        view.body = [0, 1, 0x74] ∧ view.packetSize = packet.length) ∧
      ∀ k, 2 ≤ k → k < packet.length → inspectPacket (packet.take k) 16 = .error .empty :=
  packets_round_trip.2.2.2 .publish 0 [0, 1, 0x74] 16 16 (by decide) (by decide) (by decide) (by decide) (by decide)
    (by decide)

end Castle.Mqtt

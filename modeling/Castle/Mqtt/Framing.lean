import Castle.Lib.Framing
import Castle.Mqtt.Codec

/-!
# Packets of a byte stream

`inspect_packet` as a framing: its verdicts stay when more bytes arrive, and bytes it
needs more for are the beginning of one packet.
-/

namespace Castle.Mqtt

theorem digit_lt (digit : UInt8) : (digit &&& 0x7F).toNat < 128 := by
  have h : digit.toNat &&& 127 ≤ 127 := Nat.and_le_right
  simpa [UInt8.toNat_and] using Nat.lt_succ_of_le h

variable {input : Bytes}

theorem decodeLengthFrom_ok {n i value v used : ℕ}
    (h : decodeLengthFrom n i value input = .ok (v, used)) : i < used ∧ used ≤ i + input.length ∧
    ∀ more, decodeLengthFrom n i value (input.take (used - i) ++ more) = .ok (v, used) := by
  induction n generalizing i value input with
  | zero => cases h
  | succ n ih =>
    cases input with
    | nil => cases h
    | cons digit rest =>
      simp only [decodeLengthFrom] at h
      split at h
      next hlast =>
        split at h
        · cases h
        next hmax =>
        split at h
        · cases h
        next hmin =>
        cases h
        refine ⟨by omega, by simp, fun more => ?_⟩
        simp only [Nat.add_sub_cancel_left, List.take_succ_cons, List.take_zero, List.cons_append,
          decodeLengthFrom]
        rw [if_pos hlast, if_neg hmax, if_neg hmin]
      next hmore =>
        obtain ⟨hlt, hle, hall⟩ := ih h
        refine ⟨by omega, by simp only [List.length_cons]; omega, fun more => ?_⟩
        have hstep : used - i = (used - (i + 1)) + 1 := by omega
        rw [hstep, List.take_succ_cons, List.cons_append]
        simp only [decodeLengthFrom]
        rw [if_neg hmore]
        exact hall more

variable (more : Bytes)

theorem decodeLengthFrom_ok_append {n i value v used : ℕ}
    (h : decodeLengthFrom n i value input = .ok (v, used)) :
    decodeLengthFrom n i value (input ++ more) = .ok (v, used) := by
  obtain ⟨-, -, hall⟩ := decodeLengthFrom_ok h
  have hm := hall (input.drop (used - i) ++ more)
  rwa [← List.append_assoc, List.take_append_drop] at hm

theorem decodeLengthFrom_error_append {n i value : ℕ} {status : Status}
    (h : decodeLengthFrom n i value input = .error status) (hs : status ≠ .empty) :
    decodeLengthFrom n i value (input ++ more) = .error status := by
  induction n generalizing i value input with
  | zero => exact h
  | succ n ih =>
    cases input with
    | nil =>
      cases h
      exact absurd rfl hs
    | cons digit rest =>
      simp only [decodeLengthFrom, List.cons_append] at h ⊢
      split at h
      next hlast =>
        rw [if_pos hlast]
        exact h
      next hmore =>
        rw [if_neg hmore]
        exact ih h

theorem decodeLengthFrom_empty {n i value : ℕ} (hn : i + n = 4)
    (hv : value < 128 ^ i) (h : decodeLengthFrom n i value input = .error .empty) : input.length <
    n ∧ ∃ v, decodeLengthFrom n i value (input ++ [1]) = .ok (v, i + input.length + 1) := by
  induction n generalizing i value input with
  | zero => cases h
  | succ n ih =>
    cases input with
    | nil =>
      refine ⟨by simp, value + 128 ^ i, ?_⟩
      have hpow : 128 ^ i ≤ 128 ^ 3 := Nat.pow_le_pow_right (by omega) (by omega)
      have hmax : ¬value + (1 &&& 0x7F : UInt8).toNat * 128 ^ i > maximumRemainingLength := by
        have h1 : (1 &&& 0x7F : UInt8).toNat = 1 := rfl
        rw [h1]
        unfold maximumRemainingLength
        omega
      have hmin : ¬(i ≠ 0 ∧ value + (1 &&& 0x7F : UInt8).toNat * 128 ^ i < 128 ^ i) := by
        have h1 : (1 &&& 0x7F : UInt8).toNat = 1 := rfl
        rw [h1]
        omega
      simp only [List.nil_append, decodeLengthFrom]
      rw [if_pos (by decide), if_neg hmax, if_neg hmin]
      simp
    | cons digit rest =>
      simp only [decodeLengthFrom] at h
      split at h
      · split at h
        · cases h
        split at h
        · cases h
        · cases h
      next hmore =>
        have hdigit := digit_lt digit
        have hv' : value + (digit &&& 0x7F).toNat * 128 ^ i < 128 ^ (i + 1) := by
          rw [pow_succ]
          calc value + (digit &&& 0x7F).toNat * 128 ^ i
              < 128 ^ i + (digit &&& 0x7F).toNat * 128 ^ i := by omega
            _ ≤ 128 ^ i + 127 * 128 ^ i :=
              Nat.add_le_add_left (Nat.mul_le_mul_right _ (by omega)) _
            _ = 128 ^ i * 128 := by omega
        obtain ⟨hlen, v, hok⟩ := ih (by omega) hv' h
        refine ⟨by simp only [List.length_cons]; omega, v, ?_⟩
        simp only [List.cons_append, decodeLengthFrom]
        rw [if_neg hmore, hok]
        simp only [List.length_cons, Except.ok.injEq, Prod.mk.injEq, true_and]
        omega

variable {max : ℕ} {input : Bytes}

variable {p : PacketView}

theorem inspectPacket_ok (h : inspectPacket input max = .ok p) :
    2 ≤ p.packetSize ∧ p.packetSize ≤ input.length ∧ p.packetSize ≤ max := by
  unfold inspectPacket at h
  split at h
  · cases h
  split at h
  next first second rest =>
    dsimp only at h
    split at h
    · cases h
    split at h
    · cases h
    next remaining used hd =>
    obtain ⟨hpos, -, -⟩ := decodeLengthFrom_ok hd
    split at h
    · cases h
    next hmax =>
    split at h
    · cases h
    next hlen =>
    cases h
    dsimp only
    omega
  · cases h

theorem inspectPacket_ok_append (h : inspectPacket input max = .ok p) :
    inspectPacket (input ++ more) max = .ok p := by
  unfold inspectPacket at h ⊢
  split at h
  · cases h
  next hmin =>
  rw [if_neg hmin]
  split at h
  next first second rest =>
    simp only [List.cons_append] at h ⊢
    split at h
    · cases h
    next hvalid =>
    rw [if_neg hvalid]
    split at h
    · cases h
    next remaining used hd =>
    have hd' : decodeRemainingLength (second :: (rest ++ more)) = .ok (remaining, used) :=
      decodeLengthFrom_ok_append more hd
    obtain ⟨-, hle, -⟩ := decodeLengthFrom_ok hd
    rw [hd']
    dsimp only
    split at h
    · cases h
    next hmax =>
    rw [if_neg hmax]
    split at h
    · cases h
    next hlen =>
    have hlong : ¬(first :: second :: (rest ++ more)).length < 1 + used + remaining := by
      simp only [List.length_cons, List.length_append] at hlen ⊢
      omega
    rw [if_neg hlong]
    cases h
    -- the body lies within the bytes that were there already
    have hbody : ((first :: second :: (rest ++ more)).drop (1 + used)).take remaining =
        ((first :: second :: rest).drop (1 + used)).take remaining := by
      have happ : first :: second :: (rest ++ more) = (first :: second :: rest) ++ more := rfl
      simp only [List.length_cons] at hlen
      rw [happ, List.drop_append_of_le_length (by simp only [List.length_cons]; omega),
        List.take_append_of_le_length (by simp only [List.length_drop, List.length_cons]; omega)]
    rw [hbody]
  · cases h

theorem inspectPacket_error_append {status : Status} (h : inspectPacket input max = .error status)
    (hs : status ≠ .empty) : inspectPacket (input ++ more) max = .error status := by
  unfold inspectPacket at h ⊢
  split at h
  next hmin => rw [if_pos hmin, h]
  next hmin =>
  rw [if_neg hmin]
  split at h
  next first second rest =>
    simp only [List.cons_append] at h ⊢
    split at h
    next hinvalid => rw [if_pos hinvalid, h]
    next hvalid =>
    rw [if_neg hvalid]
    split at h
    next status' hd =>
      cases h
      have hd' : decodeRemainingLength (second :: (rest ++ more)) = .error status :=
        decodeLengthFrom_error_append more hd hs
      rw [hd']
    next remaining used hd =>
    have hd' : decodeRemainingLength (second :: (rest ++ more)) = .ok (remaining, used) :=
      decodeLengthFrom_ok_append more hd
    rw [hd']
    dsimp only
    split at h
    next hmax => rw [if_pos hmax, h]
    next hmax =>
    split at h
    · cases h
      exact absurd rfl hs
    · cases h
  · cases h
    exact absurd rfl hs

/-- One packet on the wire: a first byte, a Remaining Length and that many bytes. -/
def WirePacket (bytes : Bytes) : Prop :=
  ∃ first length body, bytes = first :: (length ++ body) ∧
    decodeRemainingLength length = .ok (body.length, length.length)

/-- Bytes that `inspect_packet` needs more for are fewer than a packet may have, and
the beginning of one packet. -/
theorem inspectPacket_empty (h : inspectPacket input max = .error .empty) (hmax : 8 ≤ max) :
    input.length < max ∧ ∃ more, more ≠ [] ∧ WirePacket (input ++ more) := by
  unfold inspectPacket at h
  rw [if_neg (by omega)] at h
  match input, h with
  | [], _ => exact ⟨by simp; omega, [0, 0], by simp, 0, [0], [], rfl, rfl⟩
  | [first], _ => exact ⟨by simp; omega, [0], by simp, first, [0], [], rfl, rfl⟩
  | first :: second :: rest, h =>
    dsimp only at h
    split at h
    · cases h
    split at h
    next status hd =>
      cases h
      obtain ⟨hlen, v, hok⟩ := decodeLengthFrom_empty (by rfl) (by decide) hd
      refine ⟨by simp only [List.length_cons] at hlen ⊢; omega, 1 :: List.replicate v 0, by simp,
        first, second :: rest ++ [1], List.replicate v 0, by simp, ?_⟩
      rw [List.length_replicate]
      refine hok.trans ?_
      simp only [List.length_append, List.length_cons, List.length_nil, Except.ok.injEq,
        Prod.mk.injEq, true_and]
      omega
    next remaining used hd =>
    split at h
    · cases h
    next hfit =>
    split at h
    next hshort =>
      obtain ⟨hpos, hle, hall⟩ := decodeLengthFrom_ok hd
      refine ⟨by omega, List.replicate (1 + used + remaining - (rest.length + 2)) 0, ?_, first,
        (second :: rest).take used, (second :: rest).drop used ++
          List.replicate (1 + used + remaining - (rest.length + 2)) 0, ?_, ?_⟩
      · intro hnil
        have hz := congrArg List.length hnil
        simp only [List.length_replicate, List.length_nil, List.length_cons] at hz hshort
        omega
      · rw [← List.append_assoc, List.take_append_drop]
        rfl
      · have hd' := hall []
        simp only [List.append_nil, Nat.sub_zero] at hd'
        refine hd'.trans ?_
        simp only [List.length_cons] at hshort hle
        simp only [List.length_append, List.length_drop, List.length_cons, List.length_replicate,
          List.length_take, Except.ok.injEq, Prod.mk.injEq]
        omega
    · cases h

def verdict (max : ℕ) (input : Bytes) : Verdict PacketView :=
  match inspectPacket input max with
  | .error .empty => .more
  | .error _ => .bad
  | .ok packet => .frame packet

theorem verdict_frame : verdict max input = .frame p ↔ inspectPacket input max = .ok p := by
  unfold verdict
  split <;> simp_all

theorem verdict_more : verdict max input = .more ↔ inspectPacket input max = .error .empty := by
  unfold verdict
  split <;> simp_all

theorem verdict_bad : verdict max input = .bad ↔
    ∃ status, inspectPacket input max = .error status ∧ status ≠ .empty := by
  unfold verdict
  split <;> simp_all

/-- The packets of a stream, as `inspect_packet` finds them. -/
def packetFraming (max : ℕ) : Framing UInt8 PacketView where
  inspect := verdict max
  size := PacketView.packetSize
  size_le h := by
    have := inspectPacket_ok (verdict_frame.mp h)
    omega
  frame_append m h := verdict_frame.mpr (inspectPacket_ok_append m (verdict_frame.mp h))
  bad_append m h := by
    obtain ⟨status, he, hs⟩ := verdict_bad.mp h
    exact verdict_bad.mpr ⟨status, inspectPacket_error_append m he hs, hs⟩

end Castle.Mqtt

import Castle.Http.Http2.State

/-!
# Frames from chunks (`http2.hpp`, `http2_frame_parser::feed`)

A frame parser works like one that reads byte by byte, so it does not matter how a stream is split
into calls.
-/

namespace Castle.Http.Http2

namespace FrameParser

section Bytes

variable {σ : Type} (maxFrameSize : ℕ) (callback : Callback σ)

def complete (p : FrameParser) (s : σ) : Status × FrameParser × σ :=
  ((callback p.frame s).1, p.resetFrame, (callback p.frame s).2)

def readByte (p : FrameParser) (s : σ) (byte : UInt8) : Status × FrameParser × σ :=
  if p.header.length < 9 then
    let p := { p with header := p.header ++ [byte] }
    if p.header.length ≠ 9 then (.ok, p, s)
    else
      let p := p.beginFrame maxFrameSize
      if p.error ≠ .ok then (toStatus p.error, p, s)
      else if p.payloadSize = 0 then complete callback p s
      else (.ok, p, s)
  else
    let p := { p with payload := p.payload ++ [byte] }
    if p.payload.length = p.payloadSize then complete callback p s else (.ok, p, s)

/-- Bytes up to the first failure, and the bytes behind it. -/
def readBytes : FrameParser → σ → Bytes → Status × Bytes × FrameParser × σ
  | p, s, [] => (.ok, [], p, s)
  | p, s, byte :: input =>
    let next := readByte maxFrameSize callback p s byte
    if next.1 = .ok then readBytes next.2.1 next.2.2 input else (next.1, input, next.2)

/-- Calls of `feed` up to the first failure, and the number of bytes that they consume. -/
def feedAll : FrameParser → σ → List Bytes → Status × ℕ × FrameParser × σ
  | p, s, [] => (.ok, 0, p, s)
  | p, s, chunk :: chunks =>
    let next := p.feed maxFrameSize callback s (some chunk)
    if next.1 = .ok then
      let last := feedAll next.2.2.1 next.2.2.2 chunks
      (last.1, next.2.1 + last.2.1, last.2.2)
    else next

end Bytes

/-- A parser in use; it has room for the payload that it waits for. -/
structure Sound (maxFrameSize : ℕ) (p : FrameParser) : Prop where
  header_le : p.header.length ≤ 9
  payload_le : p.payload.length ≤ maxFrameSize
  between : p.header.length < 9 → p.payload = []
  within : p.error = .ok → p.header.length = 9 →
    p.payload.length < p.payloadSize ∧ p.payloadSize ≤ maxFrameSize

variable {σ : Type} {maxFrameSize : ℕ} {callback : Callback σ} {p : FrameParser} {s : σ}

theorem resetFrame_sound (p : FrameParser) : p.resetFrame.Sound maxFrameSize :=
  ⟨by simp [resetFrame], by simp [resetFrame], fun _ => rfl, fun _ h => by simp [resetFrame] at h⟩

theorem beginFrame_spec (maxFrameSize : ℕ) (hp : p.payload = []) :
    (p.beginFrame maxFrameSize).payload = [] ∧
    (p.beginFrame maxFrameSize).header = p.header ∧
    ((p.beginFrame maxFrameSize).error = .ok → (p.beginFrame maxFrameSize).payloadSize ≤ maxFrameSize) := by
  rw [beginFrame]
  dsimp only
  split
  · exact ⟨hp, rfl, fun h => by cases h⟩
  next hle => exact ⟨rfl, rfl, fun _ => Nat.not_lt.mp hle⟩

theorem readByte_sound (callback : Callback σ) (s : σ) (h : p.Sound maxFrameSize) (he : p.error = .ok) (byte : UInt8) :
    (readByte maxFrameSize callback p s byte).2.1.Sound maxFrameSize ∧
      ((readByte maxFrameSize callback p s byte).1 = .ok →
        (readByte maxFrameSize callback p s byte).2.1.error = .ok) := by
  rw [readByte]
  split
  next hshort =>
    have hempty := h.between hshort
    dsimp only
    split
    next hpart =>
      rw [List.length_append, List.length_singleton] at hpart
      refine ⟨⟨?_, h.payload_le, fun _ => hempty, ?_⟩, fun _ => he⟩
      · rw [List.length_append, List.length_singleton]
        omega
      · intro _ hfull
        rw [List.length_append, List.length_singleton] at hfull
        omega
    next hfull =>
      obtain ⟨hpayload, hheader, hsize⟩ := beginFrame_spec maxFrameSize
        (p := { p with header := p.header ++ [byte] }) hempty
      rw [List.length_append, List.length_singleton, not_not] at hfull
      split
      next hbad =>
        refine ⟨⟨?_, ?_, fun _ => hpayload, fun hok => absurd hok hbad⟩, ?_⟩
        · rw [hheader, List.length_append, List.length_singleton, hfull]
        · rw [hpayload]
          exact Nat.zero_le _
        · exact fun hok => absurd (toStatus_eq_ok_iff.mp hok) hbad
      next hgood =>
        rw [ne_eq, not_not] at hgood
        split
        · exact ⟨resetFrame_sound _, fun _ => hgood⟩
        next hmore =>
          refine ⟨⟨?_, ?_, fun _ => hpayload, fun _ _ => ⟨?_, hsize hgood⟩⟩, fun _ => hgood⟩
          · rw [hheader, List.length_append, List.length_singleton, hfull]
          · rw [hpayload]
            exact Nat.zero_le _
          · rw [hpayload]
            exact Nat.pos_of_ne_zero hmore
  next hlong =>
    have hnine : p.header.length = 9 := Nat.le_antisymm h.header_le (Nat.not_lt.mp hlong)
    obtain ⟨hlt, hmax⟩ := h.within he hnine
    dsimp only
    rw [List.length_append, List.length_singleton]
    split
    · exact ⟨resetFrame_sound _, fun _ => he⟩
    next hpart =>
      refine ⟨⟨h.header_le, ?_, fun hshort => absurd hshort hlong, fun _ _ => ⟨?_, hmax⟩⟩, fun _ => he⟩
      · rw [List.length_append, List.length_singleton]
        omega
      · show (p.payload ++ [byte]).length < p.payloadSize
        rw [List.length_append, List.length_singleton]
        omega

theorem readBytes_cons (p : FrameParser) (s : σ) (byte : UInt8) (input : Bytes) :
    readBytes maxFrameSize callback p s (byte :: input) =
      if (readByte maxFrameSize callback p s byte).1 = .ok then
        readBytes maxFrameSize callback (readByte maxFrameSize callback p s byte).2.1
          (readByte maxFrameSize callback p s byte).2.2 input
      else
        ((readByte maxFrameSize callback p s byte).1, input, (readByte maxFrameSize callback p s byte).2) := rfl

theorem readBytes_sound (callback : Callback σ) (input : Bytes) (s : σ) (h : p.Sound maxFrameSize)
    (he : p.error = .ok) :
    (readBytes maxFrameSize callback p s input).2.2.1.Sound maxFrameSize ∧
      ((readBytes maxFrameSize callback p s input).1 = .ok →
        (readBytes maxFrameSize callback p s input).2.1 = [] ∧
          (readBytes maxFrameSize callback p s input).2.2.1.error = .ok) := by
  induction input generalizing p s with
  | nil => exact ⟨h, fun _ => ⟨rfl, he⟩⟩
  | cons byte input ih =>
    obtain ⟨hsound, herror⟩ := readByte_sound callback s h he byte
    rw [readBytes_cons]
    split
    next hok => exact ih _ hsound (herror hok)
    next hbad => exact ⟨hsound, fun hok => absurd hok hbad⟩

theorem readBytes_append (input rest : Bytes) (p : FrameParser) (s : σ) :
    readBytes maxFrameSize callback p s (input ++ rest) =
      if (readBytes maxFrameSize callback p s input).1 = .ok then
        readBytes maxFrameSize callback (readBytes maxFrameSize callback p s input).2.2.1
          (readBytes maxFrameSize callback p s input).2.2.2 rest
      else
        ((readBytes maxFrameSize callback p s input).1, (readBytes maxFrameSize callback p s input).2.1 ++ rest,
          (readBytes maxFrameSize callback p s input).2.2) := by
  induction input generalizing p s with
  | nil => rw [List.nil_append, readBytes, if_pos rfl]
  | cons byte input ih =>
    rw [List.cons_append, readBytes_cons, readBytes_cons]
    by_cases hok : (readByte maxFrameSize callback p s byte).1 = .ok
    · rw [if_pos hok, if_pos hok, ih]
    · rw [if_neg hok, if_neg hok, if_neg hok]

theorem readBytes_header (maxFrameSize : ℕ) (callback : Callback σ) (s : σ) (chunk rest : Bytes)
    (h : p.header.length + chunk.length < 9) :
    readBytes maxFrameSize callback p s (chunk ++ rest) =
      readBytes maxFrameSize callback { p with header := p.header ++ chunk } s rest := by
  induction chunk generalizing p with
  | nil => rw [List.nil_append, List.append_nil]
  | cons byte chunk ih =>
    rw [List.length_cons] at h
    have hbyte : readByte maxFrameSize callback p s byte = (.ok, { p with header := p.header ++ [byte] }, s) := by
      have hnot : (p.header ++ [byte]).length ≠ 9 := by
        rw [List.length_append, List.length_singleton]
        omega
      rw [readByte, if_pos (by omega)]
      dsimp only
      rw [if_pos hnot]
    rw [List.cons_append, readBytes_cons, hbyte, if_pos rfl]
    have hrest := ih (p := { p with header := p.header ++ [byte] })
      (by rw [List.length_append, List.length_singleton]; omega)
    rw [hrest, List.append_assoc, List.singleton_append]

theorem readBytes_payload (maxFrameSize : ℕ) (callback : Callback σ) (s : σ) (chunk rest : Bytes)
    (hp : p.header.length = 9) (h : p.payload.length + chunk.length < p.payloadSize) :
    readBytes maxFrameSize callback p s (chunk ++ rest) =
      readBytes maxFrameSize callback { p with payload := p.payload ++ chunk } s rest := by
  induction chunk generalizing p with
  | nil => rw [List.nil_append, List.append_nil]
  | cons byte chunk ih =>
    rw [List.length_cons] at h
    have hbyte : readByte maxFrameSize callback p s byte = (.ok, { p with payload := p.payload ++ [byte] }, s) := by
      have hnot : (p.payload ++ [byte]).length ≠ p.payloadSize := by
        rw [List.length_append, List.length_singleton]
        omega
      rw [readByte, if_neg (by omega)]
      dsimp only
      rw [if_neg hnot]
    rw [List.cons_append, readBytes_cons, hbyte, if_pos rfl]
    have hrest := ih (p := { p with payload := p.payload ++ [byte] }) hp
      (by dsimp only; rw [List.length_append, List.length_singleton]; omega)
    rw [hrest, List.append_assoc, List.singleton_append]

theorem exists_cut (input : Bytes) {n : ℕ} (h : n < input.length) :
    ∃ chunk byte rest, input = chunk ++ [byte] ++ rest ∧ chunk.length = n := by
  refine ⟨input.take n, input[n], input.drop (n + 1), ?_, ?_⟩
  · rw [List.take_append_getElem h, List.take_append_drop]
  · rw [List.length_take]
    omega

def continueLoop (maxFrameSize : ℕ) (callback : Callback σ) (fuel : ℕ) (next : Status × FrameParser × σ) (rest : Bytes) :
    Status × Bytes × FrameParser × σ :=
  if next.1 = .ok then feedLoop maxFrameSize callback fuel next.2.1 next.2.2 rest else (next.1, rest, next.2)

theorem continueLoop_complete (fuel : ℕ) (p : FrameParser) (s : σ) (rest : Bytes) :
    continueLoop maxFrameSize callback fuel (complete callback p s) rest =
      if (callback p.frame s).1 ≠ .ok then ((callback p.frame s).1, rest, p.resetFrame, (callback p.frame s).2)
      else feedLoop maxFrameSize callback fuel p.resetFrame (callback p.frame s).2 rest := by
  rw [continueLoop, complete, ite_not]

theorem feedLoop_header (fuel : ℕ) (chunk : Bytes) (byte : UInt8) (rest : Bytes)
    (h : p.header.length + chunk.length = 8) :
    feedLoop maxFrameSize callback (fuel + 1) p s (chunk ++ [byte] ++ rest) =
      continueLoop maxFrameSize callback fuel
        (readByte maxFrameSize callback { p with header := p.header ++ chunk } s byte) rest := by
  have htake : min (9 - p.header.length) (chunk ++ [byte] ++ rest).length = (chunk ++ [byte]).length := by
    simp only [List.length_append, List.length_singleton]
    omega
  have hfull : ¬(p.header ++ (chunk ++ [byte])).length ≠ 9 := by
    simp only [List.length_append, List.length_singleton]
    omega
  have hshort : (p.header ++ chunk).length < 9 := by
    rw [List.length_append]
    omega
  rw [feedLoop]
  · rw [if_pos (by omega)]
    dsimp only
    rw [htake, List.take_left, List.drop_left, if_neg hfull, readByte, if_pos hshort]
    dsimp only
    rw [List.append_assoc, if_neg hfull]
    split
    next hbad => rw [continueLoop, if_neg (fun hok => hbad (toStatus_eq_ok_iff.mp hok))]
    · split
      · rw [continueLoop_complete]
      · rw [continueLoop, if_pos rfl]
  · simp

theorem feedLoop_payload (fuel : ℕ) (chunk : Bytes) (byte : UInt8) (rest : Bytes) (hp : p.header.length = 9)
    (h : p.payload.length + chunk.length + 1 = p.payloadSize) :
    feedLoop maxFrameSize callback (fuel + 1) p s (chunk ++ [byte] ++ rest) =
      continueLoop maxFrameSize callback fuel
        (readByte maxFrameSize callback { p with payload := p.payload ++ chunk } s byte) rest := by
  have htake : min (p.payloadSize - p.payload.length) (chunk ++ [byte] ++ rest).length = (chunk ++ [byte]).length := by
    simp only [List.length_append, List.length_singleton]
    omega
  have hfull : (p.payload ++ (chunk ++ [byte])).length = p.payloadSize := by
    simp only [List.length_append, List.length_singleton]
    omega
  rw [feedLoop]
  · rw [if_neg (by omega)]
    dsimp only
    rw [htake, List.take_left, List.drop_left, if_pos hfull, readByte, if_neg (show ¬p.header.length < 9 by omega)]
    dsimp only
    rw [List.append_assoc, if_pos hfull, continueLoop_complete]
  · simp

theorem feedLoop_part (fuel : ℕ) {input : Bytes} (hinput : input ≠ [])
    (h : p.header.length + input.length < 9 ∨
      p.header.length = 9 ∧ p.payload.length + input.length < p.payloadSize) :
    feedLoop maxFrameSize callback (fuel + 1) p s input = readBytes maxFrameSize callback p s input := by
  have hend : ∀ fuel (q : FrameParser), feedLoop maxFrameSize callback fuel q s [] = (.ok, [], q, s) := by
    intro fuel q
    cases fuel <;> rfl
  rw [feedLoop]
  · rcases h with h | ⟨hnine, h⟩
    · have hread := readBytes_header maxFrameSize callback s input [] h
      rw [List.append_nil] at hread
      have hpart : (p.header ++ input).length ≠ 9 := by
        rw [List.length_append]
        omega
      rw [if_pos (by omega)]
      dsimp only
      rw [Nat.min_eq_right (by omega), List.take_length, List.drop_length, hread, if_pos hpart, readBytes]
    · have hread := readBytes_payload maxFrameSize callback s input [] hnine h
      rw [List.append_nil] at hread
      have hpart : (p.payload ++ input).length ≠ p.payloadSize := by
        rw [List.length_append]
        omega
      rw [if_neg (by omega)]
      dsimp only
      rw [Nat.min_eq_right (by omega), List.take_length, List.drop_length, hread, if_neg hpart, hend, readBytes]
  · exact hinput

theorem feedLoop_eq_readBytes (fuel : ℕ) {s : σ} {input : Bytes} (h : p.Sound maxFrameSize)
    (he : p.error = .ok) (hfuel : input.length ≤ fuel) :
    feedLoop maxFrameSize callback fuel p s input = readBytes maxFrameSize callback p s input := by
  induction fuel generalizing p s input with
  | zero =>
    rw [List.length_eq_zero_iff.mp (Nat.le_zero.mp hfuel)]
    rfl
  | succ fuel ih =>
    by_cases hinput : input = []
    · rw [hinput]
      rfl
    -- what is left behind a pass is read byte by byte as well
    have hcontinue : ∀ (q : FrameParser) (byte : UInt8) (rest : Bytes), q.Sound maxFrameSize → q.error = .ok →
        rest.length ≤ fuel → continueLoop maxFrameSize callback fuel (readByte maxFrameSize callback q s byte) rest =
          readBytes maxFrameSize callback q s (byte :: rest) := by
      intro q byte rest hq hqe hrest
      obtain ⟨hsound, herror⟩ := readByte_sound callback s hq hqe byte
      rw [continueLoop, readBytes_cons]
      split
      next hok => exact ih hsound (herror hok) hrest
      · rfl
    by_cases hshort : p.header.length < 9
    · by_cases hpart : p.header.length + input.length < 9
      · exact feedLoop_part fuel hinput (.inl hpart)
      · obtain ⟨chunk, byte, rest, rfl, hchunk⟩ :=
          exists_cut input (n := 8 - p.header.length) (by omega)
        simp only [List.length_append, List.length_singleton] at hfuel
        rw [feedLoop_header fuel chunk byte rest (by omega), List.append_assoc, List.singleton_append,
          readBytes_header maxFrameSize callback s chunk _ (by omega)]
        refine hcontinue _ byte rest ⟨?_, h.payload_le, fun _ => h.between hshort, ?_⟩ he (by omega)
        · rw [List.length_append]
          omega
        · intro _ hnine
          rw [List.length_append] at hnine
          omega
    · have hnine : p.header.length = 9 := Nat.le_antisymm h.header_le (Nat.not_lt.mp hshort)
      obtain ⟨hlt, hmax⟩ := h.within he hnine
      by_cases hpart : p.payload.length + input.length < p.payloadSize
      · exact feedLoop_part fuel hinput (.inr ⟨hnine, hpart⟩)
      · obtain ⟨chunk, byte, rest, rfl, hchunk⟩ :=
          exists_cut input (n := p.payloadSize - p.payload.length - 1) (by omega)
        simp only [List.length_append, List.length_singleton] at hfuel
        rw [feedLoop_payload fuel chunk byte rest hnine (by omega), List.append_assoc, List.singleton_append,
          readBytes_payload maxFrameSize callback s chunk _ hnine (by omega)]
        refine hcontinue _ byte rest ⟨h.header_le, ?_, fun hless => absurd hless hshort, fun _ _ => ⟨?_, hmax⟩⟩ he
          (by omega)
        · rw [List.length_append]
          omega
        · show (p.payload ++ chunk).length < p.payloadSize
          rw [List.length_append]
          omega

theorem feed_eq_readBytes (h : p.Sound maxFrameSize) (he : p.error = .ok) (data : Bytes) :
    p.feed maxFrameSize callback s (some data) =
      ((readBytes maxFrameSize callback p s data).1,
        data.length - (readBytes maxFrameSize callback p s data).2.1.length,
        (readBytes maxFrameSize callback p s data).2.2) := by
  rw [feed, if_neg (not_not.mpr he)]
  dsimp only
  rw [feedLoop_eq_readBytes data.length h he (Nat.le_refl _)]

theorem readBytes_rest_le (maxFrameSize : ℕ) (callback : Callback σ) (input : Bytes) (p : FrameParser) (s : σ) :
    (readBytes maxFrameSize callback p s input).2.1.length ≤ input.length := by
  induction input generalizing p s with
  | nil => exact Nat.le_refl _
  | cons byte input ih =>
    rw [readBytes_cons, List.length_cons]
    split
    · exact Nat.le_succ_of_le (ih _ _)
    · exact Nat.le_succ _

theorem feed_append (h : p.Sound maxFrameSize) (he : p.error = .ok) (data rest : Bytes) :
    p.feed maxFrameSize callback s (some (data ++ rest)) =
      if (p.feed maxFrameSize callback s (some data)).1 = .ok then
        let last := (p.feed maxFrameSize callback s (some data)).2.2.1.feed maxFrameSize callback
          (p.feed maxFrameSize callback s (some data)).2.2.2 (some rest)
        (last.1, (p.feed maxFrameSize callback s (some data)).2.1 + last.2.1, last.2.2)
      else p.feed maxFrameSize callback s (some data) := by
  have hread := readBytes_sound callback data s h he
  rw [feed_eq_readBytes h he, feed_eq_readBytes h he, readBytes_append]
  dsimp only
  by_cases hok : (readBytes maxFrameSize callback p s data).1 = .ok
  · obtain ⟨hdone, herror⟩ := hread.2 hok
    have hle := readBytes_rest_le maxFrameSize callback rest
      (readBytes maxFrameSize callback p s data).2.2.1 (readBytes maxFrameSize callback p s data).2.2.2
    rw [if_pos hok, if_pos hok, feed_eq_readBytes hread.1 herror, hdone]
    dsimp only
    rw [List.length_append, List.length_nil, Nat.sub_zero, Nat.add_sub_assoc hle]
  · rw [if_neg hok, if_neg hok, List.length_append, List.length_append, Nat.add_sub_add_right]

theorem feed_sound (h : p.Sound maxFrameSize) (data : Option Bytes) :
    (p.feed maxFrameSize callback s data).2.2.1.Sound maxFrameSize := by
  by_cases he : p.error = .ok
  · cases data with
    | none =>
      rw [feed, if_neg (not_not.mpr he)]
      exact h
    | some data =>
      rw [feed_eq_readBytes h he]
      exact (readBytes_sound callback data s h he).1
  · unfold feed
    rw [if_pos he]
    exact h

theorem feedAll_eq_feed (chunks : List Bytes) {s : σ} (h : p.Sound maxFrameSize)
    (he : p.error = .ok) :
    feedAll maxFrameSize callback p s chunks = p.feed maxFrameSize callback s (some chunks.flatten) := by
  induction chunks generalizing p s with
  | nil => rw [feedAll, List.flatten_nil, feed_eq_readBytes h he, readBytes, List.length_nil]
  | cons chunk chunks ih =>
    rw [feedAll, List.flatten_cons, feed_append h he]
    split
    next hok =>
      have herror : (p.feed maxFrameSize callback s (some chunk)).2.2.1.error = .ok := by
        rw [feed_eq_readBytes h he] at hok ⊢
        exact ((readBytes_sound callback chunk s h he).2 hok).2
      rw [ih (feed_sound h _) herror]
    · rfl

theorem readByte_frames (callback : Callback σ) {state : σ × List (Frame × σ)} (h : p.Sound maxFrameSize)
    (he : p.error = .ok) (hs : ∀ x ∈ state.2, x.1.length ≤ maxFrameSize) (byte : UInt8) :
    ∀ x ∈ (readByte maxFrameSize (tracing callback) p state byte).2.2.2, x.1.length ≤ maxFrameSize := by
  have hcomplete : ∀ q : FrameParser, q.payload.length ≤ maxFrameSize →
      ∀ x ∈ (complete (tracing callback) q state).2.2.2, x.1.length ≤ maxFrameSize := by
    intro q hq
    rw [complete, tracing, List.forall_mem_append]
    exact ⟨hs, by simpa [Frame.length, frame] using hq⟩
  rw [readByte]
  split
  next hshort =>
    dsimp only
    split
    · exact hs
    · split
      · exact hs
      · split
        · refine hcomplete _ ?_
          have hempty := (beginFrame_spec maxFrameSize (p := { p with header := p.header ++ [byte] })
            (h.between hshort)).1
          rw [hempty]
          exact Nat.zero_le _
        · exact hs
  next hlong =>
    have hnine : p.header.length = 9 := Nat.le_antisymm h.header_le (Nat.not_lt.mp hlong)
    dsimp only
    split
    next hfull => exact hcomplete _ (hfull ▸ (h.within he hnine).2)
    · exact hs

theorem readBytes_frames {callback : Callback σ} (input : Bytes) {state : σ × List (Frame × σ)}
    (h : p.Sound maxFrameSize) (he : p.error = .ok) (hs : ∀ x ∈ state.2, x.1.length ≤ maxFrameSize)
    :
    ∀ x ∈ (readBytes maxFrameSize (tracing callback) p state input).2.2.2.2, x.1.length ≤ maxFrameSize := by
  induction input generalizing p state with
  | nil => exact hs
  | cons byte input ih =>
    have hstep := readByte_frames callback h he hs byte
    obtain ⟨hsound, herror⟩ := readByte_sound (tracing callback) state h he byte
    rw [readBytes_cons]
    split
    next hok => exact ih hsound (herror hok) hstep
    · exact hstep

theorem handled_length_le {callback : Callback σ} (h : p.Sound maxFrameSize) (data : Option Bytes) :
    ∀ x ∈ p.handled maxFrameSize callback s data, x.1.length ≤ maxFrameSize := by
  rw [handled]
  by_cases he : p.error = .ok
  · cases data with
    | none =>
      rw [feed, if_neg (not_not.mpr he)]
      exact fun x hx => by cases hx
    | some data =>
      rw [feed_eq_readBytes h he]
      exact readBytes_frames data h he fun x hx => by cases hx
  · unfold feed
    rw [if_pos he]
    exact fun x hx => by cases hx

/-- The parsers that calls lead to. -/
inductive Reachable (maxFrameSize : ℕ) : FrameParser → Prop
  | initial : Reachable maxFrameSize {}
  | reset {p : FrameParser} (h : Reachable maxFrameSize p) : Reachable maxFrameSize p.reset
  | feed {p : FrameParser} (h : Reachable maxFrameSize p) {σ : Type} (callback : Callback σ) (s : σ)
    (data : Option Bytes) : Reachable maxFrameSize (p.feed maxFrameSize callback s data).2.2.1

theorem Reachable.sound (h : p.Reachable maxFrameSize) : p.Sound maxFrameSize := by
  induction h with
  | initial => exact ⟨Nat.zero_le 9, Nat.zero_le _, fun _ => rfl, fun _ h => by cases h⟩
  | reset h ih => exact ⟨Nat.zero_le 9, Nat.zero_le _, fun _ => rfl, fun _ h => by cases h⟩
  | feed h callback s data ih => exact feed_sound ih data

/-- The frames of a stream, its first error and the place of it do not depend on the calls that it
is split into, and no payload is longer than the buffer for it. -/
theorem frames_of_chunks {p : FrameParser} (h : p.Reachable maxFrameSize) {σ : Type} (callback : Callback σ) (s : σ) :
    (p.error = .ok → ∀ chunks,
      feedAll maxFrameSize callback p s chunks = p.feed maxFrameSize callback s (some chunks.flatten) ∧
        (feedAll maxFrameSize (tracing callback) p (s, []) chunks).2.2.2.2 =
          p.handled maxFrameSize callback s (some chunks.flatten)) ∧
    p.payload.length ≤ maxFrameSize ∧
    ∀ data, ∀ x ∈ p.handled maxFrameSize callback s data, x.1.length ≤ maxFrameSize := by
  refine ⟨fun he chunks => ⟨feedAll_eq_feed chunks h.sound he, ?_⟩, h.sound.payload_le, handled_length_le h.sound⟩
  rw [handled, feedAll_eq_feed chunks h.sound he]

theorem frames_of_chunks_settings :
    feedAll 16384 (fun _ count => (.ok, count + 1)) {} 0 [[0, 0, 0, 4], [], [0, 0, 0, 0, 0, 0, 0]] =
        FrameParser.feed {} 16384 (fun _ count => (.ok, count + 1)) 0 (some [0, 0, 0, 4, 0, 0, 0, 0, 0, 0, 0]) ∧
      (feedAll 16384 (fun _ count => (.ok, count + 1)) {} 0 [[0, 0, 0, 4], [], [0, 0, 0, 0, 0, 0, 0]]).2.2.2 = 1 := by
  have hinitial : Reachable 16384 {} := .initial
  have hchunks := ((frames_of_chunks hinitial (fun _ count => (.ok, count + 1)) 0).1 rfl
    [[0, 0, 0, 4], [], [0, 0, 0, 0, 0, 0, 0]]).1
  refine ⟨hchunks, ?_⟩
  rw [hchunks]
  decide

end FrameParser
end Castle.Http.Http2

import Castle.Container.MirroredRingBuffer.Interleaving

/-!
# What the parties cannot do to each other

The producer relies on room that the consumer can only enlarge, the consumer on elements that the
producer can only add to.
-/

namespace Castle.Container.MirroredRingBuffer

open Cells

variable {shape : RingShape} {α : Type}

namespace Session

/-- The first `k` elements are written. -/
def Filled (cells : ℕ → α) (start : ℕ) (contents : List α) (k : ℕ) : Prop :=
  ∀ j (h : j < contents.length), j < k → cells (start + j) = contents[j]

/-- The first `k` elements are copied to the other half. -/
def Copied (n : ℕ) (cells : ℕ → α) (start : ℕ) (contents : List α) (k : ℕ) : Prop :=
  ∀ j (h : j < contents.length), j < k →
    cells (mirrorCells n start contents.length j).2 = contents[j]

theorem mirrorCells_eq {n start count i : ℕ} (hs : start < n) (hi : i < count) : mirrorCells
    n start count i = (start + i, if start + i < n then start + i + n else start + i - n) := by
  unfold mirrorCells
  dsimp only
  split_ifs <;> first | rfl | omega | (ext <;> dsimp only <;> omega)

section loops

variable {n start k : ℕ} {cells : ℕ → α} {contents : List α}

theorem Filled.write_next (h : Filled cells start contents k) {value : α}
    (hk : contents[k]? = some value) :
    Filled (write cells (start + k) value) start contents (k + 1) := by
  obtain ⟨hlt, hget⟩ := List.getElem?_eq_some_iff.mp hk
  intro j hj hjk
  by_cases he : j = k
  · subst he
    rw [write_self, hget]
  · rw [write_ne _ (by omega), h j hj (by omega)]

theorem Filled.write_copy (h : Filled cells start contents contents.length) (hs : start < n)
    (hn : contents.length ≤ n) (hk : k < contents.length) (value : α) :
    Filled (write cells (mirrorCells n start contents.length k).2 value) start contents
      contents.length := by
  intro j hj hjk
  rw [mirrorCells_eq hs hk, write_ne, h j hj hjk]
  dsimp only
  split <;> omega

theorem Copied.write_copy (h : Copied n cells start contents k) (hs : start < n)
    (hn : contents.length ≤ n) {value : α} (hk : contents[k]? = some value) :
    Copied n (write cells (mirrorCells n start contents.length k).2 value) start contents (k + 1) := by
  obtain ⟨hlt, hget⟩ := List.getElem?_eq_some_iff.mp hk
  intro j hj hjk
  by_cases he : j = k
  · subst he
    rw [write_self, hget]
  · rw [write_ne, h j hj (by omega)]
    rw [mirrorCells_eq hs hj, mirrorCells_eq hs hlt]
    dsimp only
    split_ifs <;> omega

theorem mirrored_of_copied (hf : Filled cells start contents contents.length)
    (hc : Copied n cells start contents contents.length) (hs : start < n)
    (hn : contents.length ≤ n) : Mirrored n cells start contents := by
  intro j hj
  have hfilled := hf j hj hj
  have hcopied := hc j hj hj
  rw [mirrorCells_eq hs hj] at hcopied
  have hmod := mod_of_lt_double (n := n) (a := start + j) (by omega)
  rw [hmod]
  dsimp only at hcopied
  split at hcopied
  next hlt =>
    rw [if_pos hlt]
    exact ⟨hfilled, hcopied⟩
  next hlt =>
    rw [if_neg hlt, Nat.sub_add_cancel (by omega)]
    exact ⟨hcopied, hfilled⟩

end loops

/-- What the producer has concluded, with room for `free` elements. -/
def ProducerKnows (ring : MirroredRingBuffer shape α) (free : ℕ) : ProducerControl shape α → Prop
  | .idle => True
  | .loaded _ writeIndex => writeIndex = ring.writeIndex
  | .sizing readIndex => (ring.writeIndex - readIndex).toNat ≤ shape.n
  | .filling writeIndex contents next =>
    writeIndex = ring.writeIndex ∧ contents.length ≤ free ∧ next ≤ contents.length ∧
      Filled ring.storage (physicalIndex writeIndex) contents next
  | .mirroring writeIndex contents next element =>
    writeIndex = ring.writeIndex ∧ contents.length ≤ free ∧ next ≤ contents.length ∧
      Filled ring.storage (physicalIndex writeIndex) contents contents.length ∧
      Copied shape.n ring.storage (physicalIndex writeIndex) contents next ∧
      ∀ a, element = some a → contents[next]? = some a
  | .publishing writeIndex contents =>
    writeIndex = ring.writeIndex ∧ contents.length ≤ free ∧
      Filled ring.storage (physicalIndex writeIndex) contents contents.length ∧
      Copied shape.n ring.storage (physicalIndex writeIndex) contents contents.length

/-- What the consumer has concluded, with `elements` to be read. -/
def ConsumerKnows (readIndex : BitVec shape.width) (elements : List α) :
    ConsumerControl shape α → Prop
  | .idle => True
  | .loaded _ r => r = readIndex
  | .reading r count out =>
    r = readIndex ∧ count ≤ elements.length ∧ out.length ≤ count ∧ out <+: elements
  | .peeking r index => r = readIndex ∧ index < elements.length
  | .releasing r out => r = readIndex ∧ out <+: elements

/-- The view of a party begins at its index and has at most `room` elements. -/
def ViewFits (index : BitVec shape.width) (room : ℕ) (view : Option ArrayView) : Prop :=
  ∀ v, view = some v → v.data = physicalIndex index ∧ v.size ≤ room

theorem ViewFits.none {index : BitVec shape.width} {room : ℕ} : ViewFits index room none := by
  intro v hv
  cases hv

theorem ViewFits.mono {index : BitVec shape.width} {room room' : ℕ} {view : Option ArrayView}
    (h : ViewFits index room view) (hle : room ≤ room') : ViewFits index room' view := by
  intro v hv
  exact ⟨(h v hv).1, (h v hv).2.trans hle⟩

theorem ProducerKnows.mono {ring : MirroredRingBuffer shape α} {free free' : ℕ}
    {control : ProducerControl shape α} (h : ProducerKnows ring free control) (hle : free ≤ free')
    (readIndex : BitVec shape.width) :
    ProducerKnows { ring with readIndex } free' control := by
  cases control with
  | idle => trivial
  | loaded call writeIndex => exact h
  | sizing r => exact h
  | filling writeIndex contents next => exact ⟨h.1, h.2.1.trans hle, h.2.2⟩
  | mirroring writeIndex contents next element => exact ⟨h.1, h.2.1.trans hle, h.2.2⟩
  | publishing writeIndex contents => exact ⟨h.1, h.2.1.trans hle, h.2.2⟩

theorem ConsumerKnows.mono {readIndex : BitVec shape.width} {elements elements' : List α}
    {control : ConsumerControl shape α} (h : ConsumerKnows readIndex elements control)
    (hpre : elements <+: elements') : ConsumerKnows readIndex elements' control := by
  cases control with
  | idle => trivial
  | loaded call r => exact h
  | reading r count out =>
    exact ⟨h.1, h.2.1.trans hpre.length_le, h.2.2.1, h.2.2.2.trans hpre⟩
  | peeking r index => exact ⟨h.1, h.2.trans_le hpre.length_le⟩
  | releasing r out => exact ⟨h.1, h.2.trans hpre⟩

/-- The buffer holds the queue `q` of the elements that are published and not released. -/
structure Inv (s : Session shape α) (q : Queue shape α) : Prop where
  ring : s.ring.Refines q
  produced : s.produced = s.consumed ++ q.elements
  readIndex : s.ring.readIndex = BitVec.ofNat _ s.consumed.length
  producer : ProducerKnows s.ring q.free s.producer.control
  reserved : ViewFits s.ring.writeIndex q.free s.producer.view
  consumer : ConsumerKnows s.ring.readIndex q.elements s.consumer.control
  readable : ViewFits s.ring.readIndex q.size s.consumer.view

theorem inv_init (value : α) : Inv (init value : Session shape α) BoundedQueue.empty where
  ring := Refines.init value
  produced := rfl
  readIndex := rfl
  producer := trivial
  reserved := .none
  consumer := trivial
  readable := .none

/-- The cells that are written hold no element that is published and not released, the
values that are read are those that were produced, and no size exceeds `N`. -/
def Safe (s : Session shape α) : Event α → Prop
  | .wrote cell => cell < 2 * shape.n ∧ ∀ i, s.consumed.length ≤ i → i < s.produced.length →
      cell ≠ i % shape.n ∧ cell ≠ i % shape.n + shape.n
  | .observed offset value => s.produced[s.consumed.length + offset]? = some value
  | .sized size => size ≤ shape.n

namespace Inv

variable {s : Session shape α} {q : Queue shape α}

section

variable (h : Inv s q)
include h

theorem length_produced : s.produced.length = s.consumed.length + q.size := by
  rw [h.produced, List.length_append, BoundedQueue.size]

theorem toNat_readIndex (hw : s.produced.length < 2 ^ shape.width) :
    s.ring.readIndex.toNat = s.consumed.length := by
  have hlength := h.length_produced
  rw [h.readIndex, BitVec.toNat_ofNat, Nat.mod_eq_of_lt (by omega)]

theorem seam (hw : s.produced.length < 2 ^ shape.width) :
    physicalIndex s.ring.writeIndex = (physicalIndex s.ring.readIndex + q.size) % shape.n := by
  have hlength := h.length_produced
  have hread := h.toNat_readIndex hw
  rw [h.ring.writeIndex, Refines.physicalIndex_add_of_lt (by omega)]

theorem position (hw : s.produced.length < 2 ^ shape.width) (j : ℕ) :
    (physicalIndex s.ring.writeIndex + j) % shape.n = (s.produced.length + j) % shape.n := by
  have hlength := h.length_produced
  rw [h.seam hw, physicalIndex_eq, h.toNat_readIndex hw, Nat.mod_add_mod, Nat.add_assoc,
    Nat.mod_add_mod, hlength, Nat.add_assoc]

theorem safe_wrote (hw : s.produced.length < 2 ^ shape.width) {p j : ℕ}
    (hp : p < 2 * shape.n) (hj : j < q.free)
    (hpj : p % shape.n = (physicalIndex s.ring.writeIndex + j) % shape.n) : Safe s (.wrote p) := by
  have hlength := h.length_produced
  have hsum := q.size_add_free
  refine ⟨hp, fun i hlow hhigh => ?_⟩
  have hne := mod_ne_of_lt (n := shape.n) (a := i) (b := s.produced.length + j) (by omega) (by omega)
  rw [← h.position hw, ← hpj] at hne
  constructor
  · intro he
    exact hne (by rw [he, Nat.mod_mod])
  · intro he
    exact hne (by rw [he, Nat.add_mod_right, Nat.mod_mod])

theorem write (hw : s.produced.length < 2 ^ shape.width) {p j : ℕ} {a : α}
    (hj : j < q.free)
    (hpj : p % shape.n = (physicalIndex s.ring.writeIndex + j) % shape.n) :
    Refines { s.ring with storage := Cells.write s.ring.storage p a } q := by
  refine h.ring.frame (fun _ => h.seam hw) fun p' hp' hfree => write_ne a fun he => ?_
  subst he
  exact hfree j hj hpj

theorem safe_observed {offset : ℕ} (hlt : offset < q.elements.length) :
    Safe s (.observed offset (s.ring.storage (physicalIndex s.ring.readIndex + offset))) := by
  show s.produced[_]? = _
  rw [h.produced, List.getElem?_append_right (by omega), Nat.add_sub_cancel_left,
    List.getElem?_eq_getElem hlt, h.ring.get hlt]

theorem local_step {storage : ℕ → α} {producer : Party (ProducerControl shape α)}
    (hring : Refines { s.ring with storage } q)
    (hknows : ProducerKnows { s.ring with storage } q.free producer.control)
    (hview : ViewFits s.ring.writeIndex q.free producer.view) :
    Inv { s with ring := { s.ring with storage }, producer } q where
  ring := hring
  produced := h.produced
  readIndex := h.readIndex
  producer := hknows
  reserved := hview
  consumer := h.consumer
  readable := h.readable

theorem produce (call : ProducerCall α) : Inv (s.produce call) q := by
  unfold Session.produce
  split
  · exact h.local_step h.ring rfl .none
  · exact h

theorem produceSize : Inv s.produceSize q := by
  unfold Session.produceSize
  split
  · refine h.local_step h.ring ?_ h.reserved
    show s.ring.size.toNat ≤ shape.n
    rw [h.ring.toNat_size]
    exact q.size_le
  · exact h

theorem store (hw : s.produced.length < 2 ^ shape.width) (offset : ℕ) (value : α) :
    Inv (s.store offset value).1 q ∧ ∀ e, (s.store offset value).2 = some e → Safe s e := by
  unfold Session.store
  split
  next view hcontrol hview =>
    obtain ⟨hdata, hsize⟩ := h.reserved view hview
    have hsum := q.size_add_free
    have hlt := physicalIndex_lt s.ring.writeIndex
    split
    next hoffset =>
      have hpos : (view.data + offset) % shape.n =
          (physicalIndex s.ring.writeIndex + offset) % shape.n := by rw [hdata]
      refine ⟨h.local_step (h.write hw (by omega) hpos) ?_ h.reserved, fun e he => ?_⟩
      · rw [hcontrol]
        trivial
      · cases he
        exact h.safe_wrote hw (by omega) (by omega) hpos
    · exact ⟨h, fun e he => by cases he⟩
  · exact ⟨h, fun e he => by cases he⟩

theorem free_eq : (s.ring.freeSizeFrom s.ring.writeIndex).toNat = q.free :=
  h.ring.writableSize

end

theorem afterLoad (h : Inv s q) (call : ProducerCall α) :
    ProducerKnows s.ring q.free (s.afterLoad call s.ring.writeIndex).control ∧
      ViewFits s.ring.writeIndex q.free (s.afterLoad call s.ring.writeIndex).view := by
  have hfree := h.free_eq
  cases call with
  | push value =>
    refine ⟨?_, .none⟩
    simp only [Session.afterLoad, hfree]
    split
    · trivial
    next hne =>
      refine ⟨rfl, ?_, Nat.zero_le _, fun j _ hj => absurd hj (by omega)⟩
      rw [List.length_singleton]
      omega
  | pushBulk src =>
    refine ⟨⟨rfl, ?_, Nat.zero_le _, fun j _ hj => absurd hj (by omega)⟩, .none⟩
    rw [hfree, ← min_def_lt, List.length_take]
    omega
  | writeReserve maxReserveSize =>
    refine ⟨trivial, fun v hv => ?_⟩
    cases hv
    refine ⟨rfl, ?_⟩
    rw [hfree, ← min_def_lt]
    exact min_le_right ..
  | writeReserveOptimal minReserveSize =>
    refine ⟨trivial, fun v hv => ?_⟩
    cases hv
    refine ⟨rfl, ?_⟩
    rw [hfree]
    dsimp only
    split <;> omega
  | writeCommit reservation =>
    simp only [Session.afterLoad]
    split_ifs with hdata hzero hsize
    · exact ⟨trivial, .none⟩
    · exact ⟨trivial, .none⟩
    · exact ⟨trivial, .none⟩
    · refine ⟨⟨rfl, ?_, Nat.zero_le _, fun j hj _ => ?_, fun j _ hj => absurd hj (by omega),
        fun a ha => by cases ha⟩, .none⟩
      · rw [length_readCells]
        omega
      · rw [getElem_readCells, not_ne_iff.mp hdata]

section

variable (h : Inv s q)
include h

theorem stepProducer (hw : s.produced.length < 2 ^ shape.width) :
    ∃ q', Inv s.stepProducer.1 q' ∧ ∀ e, s.stepProducer.2 = some e → Safe s e := by
  have hknows := h.producer
  have hsum := q.size_add_free
  have hlt := physicalIndex_lt s.ring.writeIndex
  unfold Session.stepProducer
  split
  · exact ⟨q, h, fun e he => by cases he⟩
  next call writeIndex hcontrol =>
    rw [hcontrol] at hknows
    obtain rfl : writeIndex = s.ring.writeIndex := hknows
    obtain ⟨hnext, hview⟩ := h.afterLoad call
    exact ⟨q, h.local_step h.ring hnext hview, fun e he => by cases he⟩
  next readIndex hcontrol =>
    rw [hcontrol] at hknows
    refine ⟨q, h.local_step h.ring trivial h.reserved, fun e he => ?_⟩
    cases he
    exact hknows
  next writeIndex contents next hcontrol =>
    rw [hcontrol] at hknows
    obtain ⟨rfl, hfit, hnext, hfilled⟩ := hknows
    split
    next value hvalue =>
      obtain ⟨hin, -⟩ := List.getElem?_eq_some_iff.mp hvalue
      refine ⟨q, h.local_step (h.write hw (by omega) rfl)
        ⟨rfl, hfit, hin, hfilled.write_next hvalue⟩ .none, fun e he => ?_⟩
      cases he
      exact h.safe_wrote hw (by omega) (by omega) rfl
    next hnone =>
      have hall : next = contents.length := by
        have hge := List.getElem?_eq_none_iff.mp hnone
        omega
      subst hall
      exact ⟨q, h.local_step h.ring ⟨rfl, hfit, Nat.zero_le _, hfilled,
        fun j _ hj => absurd hj (by omega), fun a ha => by cases ha⟩ .none, fun e he => by cases he⟩
  next writeIndex contents next hcontrol =>
    rw [hcontrol] at hknows
    obtain ⟨rfl, hfit, hnext, hfilled, hcopied, -⟩ := hknows
    dsimp only
    split
    next hin =>
      refine ⟨q, h.local_step h.ring ⟨rfl, hfit, hnext, hfilled, hcopied, fun a ha => ?_⟩ .none,
        fun e he => by cases he⟩
      cases ha
      rw [mirrorCells_eq hlt hin, hfilled next hin hin, List.getElem?_eq_getElem hin]
    next hout =>
      have hall : next = contents.length := by omega
      subst hall
      exact ⟨q, h.local_step h.ring ⟨rfl, hfit, hfilled, hcopied⟩ .none, fun e he => by cases he⟩
  next writeIndex contents next value hcontrol =>
    rw [hcontrol] at hknows
    obtain ⟨rfl, hfit, hnext, hfilled, hcopied, helement⟩ := hknows
    have hvalue := helement value rfl
    obtain ⟨hin, -⟩ := List.getElem?_eq_some_iff.mp hvalue
    -- the copy of an element has the position of the element
    have hpos : (mirrorCells shape.n (physicalIndex s.ring.writeIndex) contents.length next).2 %
        shape.n = (physicalIndex s.ring.writeIndex + next) % shape.n := by
      rw [mirrorCells_eq hlt hin]
      dsimp only
      split
      · rw [Nat.add_mod_right]
      next hge => rw [← Nat.mod_eq_sub_mod (by omega)]
    refine ⟨q, h.local_step (h.write hw (by omega) hpos) ⟨rfl, hfit, hin,
      hfilled.write_copy hlt (by omega) hin value, hcopied.write_copy hlt (by omega) hvalue,
      fun a ha => by cases ha⟩ .none, fun e he => ?_⟩
    rw [← Option.some.inj he]
    refine h.safe_wrote hw ?_ (by omega) hpos
    rw [mirrorCells_eq hlt hin]
    dsimp only
    split <;> omega
  next writeIndex contents hcontrol =>
    rw [hcontrol] at hknows
    obtain ⟨rfl, hfit, hfilled, hcopied⟩ := hknows
    have hmirrored := mirrored_of_copied hfilled hcopied hlt (by omega)
    have htake : contents.take q.free = contents := List.take_of_length_le hfit
    refine ⟨q.enqueue contents, ?_, fun e he => by cases he⟩
    exact {
      ring := h.ring.publish hfit (fun _ _ => h.seam hw) hmirrored
      produced := by
        show s.produced ++ contents = _
        rw [h.produced, BoundedQueue.elements_enqueue, htake, List.append_assoc]
      readIndex := h.readIndex
      producer := trivial
      reserved := .none
      consumer := h.consumer.mono (List.prefix_append _ _)
      readable := h.readable.mono (List.prefix_append _ _).length_le }

theorem local_step_consumer {consumer : Party (ConsumerControl shape α)}
    (hknows : ConsumerKnows s.ring.readIndex q.elements consumer.control)
    (hview : ViewFits s.ring.readIndex q.size consumer.view) : Inv { s with consumer } q where
  ring := h.ring
  produced := h.produced
  readIndex := h.readIndex
  producer := h.producer
  reserved := h.reserved
  consumer := hknows
  readable := hview

theorem consume (call : ConsumerCall) : Inv (s.consume call) q := by
  unfold Session.consume
  split
  · refine h.local_step_consumer rfl ?_
    dsimp only
    split
    · exact h.readable
    · exact h.readable
    · exact .none
  · exact h

theorem load (offset : ℕ) : ∀ e, s.load offset = some e → Safe s e := by
  intro e he
  unfold Session.load at he
  split at he
  next view hcontrol hview =>
    obtain ⟨hdata, hsize⟩ := h.readable view hview
    split at he
    next hoffset =>
      rw [← Option.some.inj he, hdata]
      exact h.safe_observed (hoffset.trans_le hsize)
    · cases he
  · cases he

theorem readable_eq : (s.ring.readableSizeFrom s.ring.readIndex).toNat = q.size :=
  h.ring.readableSize

theorem readCells_prefix {count : ℕ} (hle : count ≤ q.size) :
    readCells s.ring.storage (physicalIndex s.ring.readIndex) count <+: q.elements := by
  rw [h.ring.readCells_eq hle]
  exact List.take_prefix _ _

end

theorem concat_prefix {out xs : List α} (h : out <+: xs) (hlt : out.length < xs.length) :
    out ++ [xs[out.length]] <+: xs := by
  obtain ⟨rest, rfl⟩ := h
  cases rest with
  | nil => simp at hlt
  | cons a rest => simp

theorem afterLoadConsumer (h : Inv s q) (call : ConsumerCall) :
    ConsumerKnows s.ring.readIndex q.elements (s.afterLoadConsumer call s.ring.readIndex).1.control
    ∧ ViewFits s.ring.readIndex q.size (s.afterLoadConsumer call s.ring.readIndex).1.view ∧
    ∀ e, (s.afterLoadConsumer call s.ring.readIndex).2 = some e → Safe s e := by
  have hreadable := h.readable_eq
  cases call with
  | pop =>
    refine ⟨?_, .none, fun e he => by cases he⟩
    simp only [Session.afterLoadConsumer, hreadable]
    split
    · trivial
    next hne => exact ⟨rfl, Nat.one_le_iff_ne_zero.mpr hne, Nat.zero_le _, List.nil_prefix⟩
  | popDiscard =>
    refine ⟨?_, .none, fun e he => by cases he⟩
    simp only [Session.afterLoadConsumer, hreadable]
    split
    · trivial
    next hne => exact ⟨rfl, h.readCells_prefix (by omega)⟩
  | popBulk maxCount =>
    refine ⟨⟨rfl, ?_, Nat.zero_le _, List.nil_prefix⟩, .none, fun e he => by cases he⟩
    rw [hreadable, ← min_def_lt]
    exact min_le_right ..
  | readReserve maxReserveSize =>
    refine ⟨trivial, fun v hv => ?_, fun e he => by cases he⟩
    cases hv
    refine ⟨rfl, ?_⟩
    rw [hreadable, ← min_def_lt]
    exact min_le_right ..
  | readCommit reservation =>
    simp only [Session.afterLoadConsumer]
    split_ifs with hdata hzero hsize
    · exact ⟨trivial, .none, fun e he => by cases he⟩
    · exact ⟨trivial, .none, fun e he => by cases he⟩
    · exact ⟨trivial, .none, fun e he => by cases he⟩
    · refine ⟨⟨rfl, ?_⟩, .none, fun e he => by cases he⟩
      rw [not_ne_iff.mp hdata]
      exact h.readCells_prefix (by omega)
  | peek index =>
    refine ⟨?_, h.readable, fun e he => by cases he⟩
    simp only [Session.afterLoadConsumer, hreadable]
    split
    · trivial
    next hlt => exact ⟨rfl, not_le.mp hlt⟩
  | size =>
    refine ⟨trivial, h.readable, fun e he => ?_⟩
    rw [← Option.some.inj he]
    show _ ≤ shape.n
    rw [hreadable]
    exact q.size_le

theorem stepConsumer (h : Inv s q) (hw : s.produced.length < 2 ^ shape.width) :
    ∃ q', Inv s.stepConsumer.1 q' ∧ ∀ e, s.stepConsumer.2 = some e → Safe s e := by
  have hknows := h.consumer
  unfold Session.stepConsumer
  split
  · exact ⟨q, h, fun e he => by cases he⟩
  next call readIndex hcontrol =>
    rw [hcontrol] at hknows
    obtain rfl : readIndex = s.ring.readIndex := hknows
    obtain ⟨hnext, hview, hevent⟩ := h.afterLoadConsumer call
    exact ⟨q, h.local_step_consumer hnext hview, hevent⟩
  next readIndex count out hcontrol =>
    rw [hcontrol] at hknows
    obtain ⟨rfl, hcount, hout, hpre⟩ := hknows
    split
    next hlt =>
      have hin : out.length < q.elements.length := by omega
      refine ⟨q, h.local_step_consumer ⟨rfl, hcount, ?_, ?_⟩ .none, fun e he => ?_⟩
      · rw [List.length_append, List.length_singleton]
        omega
      · rw [h.ring.get hin]
        exact concat_prefix hpre hin
      · rw [← Option.some.inj he]
        exact h.safe_observed hin
    · exact ⟨q, h.local_step_consumer ⟨rfl, hpre⟩ .none, fun e he => by cases he⟩
  next readIndex index hcontrol =>
    rw [hcontrol] at hknows
    obtain ⟨rfl, hlt⟩ := hknows
    refine ⟨q, h.local_step_consumer trivial h.readable, fun e he => ?_⟩
    rw [← Option.some.inj he]
    exact h.safe_observed hlt
  next readIndex elements hcontrol =>
    rw [hcontrol] at hknows
    obtain ⟨rfl, hpre⟩ := hknows
    have hle : elements.length ≤ q.size := hpre.length_le
    have hread := h.toNat_readIndex hw
    have hlength := h.length_produced
    have hsplit : elements ++ q.elements.drop elements.length = q.elements := by
      obtain ⟨rest, hrest⟩ := hpre
      rw [← hrest, List.drop_left]
    have hfree : q.free ≤ (q.dequeue elements.length).free := by
      unfold BoundedQueue.free BoundedQueue.size
      rw [BoundedQueue.elements_dequeue, List.length_drop]
      omega
    refine ⟨q.dequeue elements.length, ?_, fun e he => by cases he⟩
    exact {
      ring := h.ring.commitRead hle fun hlt => Refines.physicalIndex_add_of_lt (by omega)
      produced := by
        show s.produced = s.consumed ++ elements ++ _
        rw [BoundedQueue.elements_dequeue, List.append_assoc, hsplit, h.produced]
      readIndex := by
        show s.ring.readIndex + BitVec.ofNat _ elements.length = BitVec.ofNat _ _
        rw [h.readIndex, BitVec.ofNat_add_ofNat, List.length_append]
      producer := h.producer.mono hfree _
      reserved := h.reserved.mono hfree
      consumer := trivial
      readable := .none }

theorem step (h : Inv s q) (hw : s.produced.length < 2 ^ shape.width) (a : Action α) :
    ∃ q', Inv (s.step a).1 q' ∧ ∀ e, (s.step a).2 = some e → Safe s e := by
  cases a with
  | produce call => exact ⟨q, h.produce call, fun e he => by cases he⟩
  | produceSize => exact ⟨q, h.produceSize, fun e he => by cases he⟩
  | store offset value => exact ⟨q, h.store hw offset value⟩
  | producer => exact h.stepProducer hw
  | consume call => exact ⟨q, h.consume call, fun e he => by cases he⟩
  | load offset => exact ⟨q, h, h.load offset⟩
  | consumer => exact h.stepConsumer hw

end Inv

theorem produced_prefix_step (s : Session shape α) (a : Action α) :
    s.produced <+: (s.step a).1.produced := by
  cases a with
  | produce call =>
    show s.produced <+: (s.produce call).produced
    unfold produce
    split <;> exact List.prefix_refl _
  | produceSize =>
    show s.produced <+: s.produceSize.produced
    unfold produceSize
    split <;> exact List.prefix_refl _
  | store offset value =>
    show s.produced <+: (s.store offset value).1.produced
    unfold store
    split
    · split <;> exact List.prefix_refl _
    · exact List.prefix_refl _
  | producer =>
    show s.produced <+: s.stepProducer.1.produced
    unfold stepProducer
    split
    case h_4 => split <;> exact List.prefix_refl _
    case h_5 =>
      dsimp only
      split <;> exact List.prefix_refl _
    case h_7 => exact List.prefix_append _ _
    all_goals exact List.prefix_refl _
  | consume call =>
    show s.produced <+: (s.consume call).produced
    unfold consume
    split <;> exact List.prefix_refl _
  | load offset => exact List.prefix_refl _
  | consumer =>
    show s.produced <+: s.stepConsumer.1.produced
    unfold stepConsumer
    split
    case h_3 => split <;> exact List.prefix_refl _
    all_goals exact List.prefix_refl _

theorem produced_prefix_run (s : Session shape α) (actions : List (Action α)) :
    s.produced <+: (s.run actions).produced := by
  induction actions generalizing s with
  | nil => exact List.prefix_refl _
  | cons a actions ih => exact (s.produced_prefix_step a).trans (ih _)

/-- What is consumed is what was produced, in order; at most `N` elements are published and
not released, and each of them lies in both halves of the storage. -/
structure Consistent (s : Session shape α) : Prop where
  order : s.consumed <+: s.produced
  bound : s.produced.length ≤ s.consumed.length + shape.n
  mirrored : ∀ i (h : i < s.produced.length), s.consumed.length ≤ i →
    s.ring.storage (i % shape.n) = s.produced[i] ∧
      s.ring.storage (i % shape.n + shape.n) = s.produced[i]

theorem Inv.consistent {s : Session shape α} {q : Queue shape α} (h : Inv s q)
    (hw : s.produced.length < 2 ^ shape.width) : Consistent s := by
  have hlength := h.length_produced
  have hsize := q.size_le
  refine ⟨⟨q.elements, h.produced.symm⟩, by omega, fun i hi hlow => ?_⟩
  have hin : i - s.consumed.length < q.elements.length := by
    have hq : q.size = q.elements.length := rfl
    omega
  have hcells := h.ring.cells (i - s.consumed.length) hin
  have hposition : (physicalIndex s.ring.readIndex + (i - s.consumed.length)) % shape.n =
      i % shape.n := by
    rw [physicalIndex_eq, h.toNat_readIndex hw, Nat.mod_add_mod]
    congr 1
    omega
  have hget : s.produced[i] = q.elements[i - s.consumed.length] := by
    simp only [h.produced]
    exact List.getElem_append_right hlow
  rw [hget, ← hposition]
  exact hcells

theorem inv_run {s : Session shape α} {q : Queue shape α} (h : Inv s q) (actions : List (Action α))
    (hw : (s.run actions).produced.length < 2 ^ shape.width) : ∃ q', Inv (s.run actions) q' := by
  induction actions generalizing s q with
  | nil => exact ⟨q, h⟩
  | cons a actions ih =>
    have hle := ((s.produced_prefix_step a).trans (produced_prefix_run _ actions)).length_le
    obtain ⟨q', hq', -⟩ := h.step (hle.trans_lt hw) a
    exact ih hq' hw

/-- In every interleaving without a wrap of the indices: the states that are reached are
consistent, and every step is safe in the state in which it is made. -/
theorem run_safe (value : α) (actions : List (Action α))
    (hw : ((init value : Session shape α).run actions).produced.length < 2 ^ shape.width) :
    Consistent ((init value : Session shape α).run actions) ∧
    AtEach actions fun before a => Consistent ((init value : Session shape α).run before) ∧
    ∀ e, (((init value : Session shape α).run before).step a).2 =
    some e → Safe ((init value : Session shape α).run before) e := by
  have hreach (before : List (Action α)) (hb : before <+: actions) :
      ∃ q, Inv ((init value : Session shape α).run before) q ∧
        ((init value : Session shape α).run before).produced.length < 2 ^ shape.width := by
    obtain ⟨after, rfl⟩ := hb
    have hrun : (init value : Session shape α).run (before ++ after) =
        ((init value : Session shape α).run before).run after := List.foldl_append
    have hlt : ((init value : Session shape α).run before).produced.length < 2 ^ shape.width := by
      rw [hrun] at hw
      exact (produced_prefix_run _ after).length_le.trans_lt hw
    obtain ⟨q, hq⟩ := inv_run (inv_init value) before hlt
    exact ⟨q, hq, hlt⟩
  constructor
  · obtain ⟨q, hq, hlt⟩ := hreach actions (List.prefix_refl _)
    exact hq.consistent hlt
  · intro before a hb
    obtain ⟨q, hq, hlt⟩ := hreach before ((List.prefix_append _ _).trans hb)
    obtain ⟨-, -, hsafe⟩ := hq.step hlt a
    exact ⟨hq.consistent hlt, hsafe⟩

/-- Two elements over the end of a ring of three, and a consumer between the steps. -/
def crossing : List (Action ℕ) :=
  ([.produce (.pushBulk [1, 2])] : List (Action ℕ)) ++ (List.replicate 10 .producer : List (Action ℕ)) ++
    ([.consume (.popBulk 2), .consumer, .consumer, .produce (.pushBulk [3, 4]), .consumer, .consumer,
      .consumer, .producer, .consume (.peek 0), .producer, .producer, .consumer] : List (Action ℕ)) ++
    (List.replicate 7 .producer : List (Action ℕ)) ++
    ([.consume (.peek 1), .consumer, .consumer] : List (Action ℕ))

theorem run_safe_crossing :
    Consistent ((init 0 : Session ⟨8, 3, by decide, by decide⟩ ℕ).run crossing) ∧
      AtEach crossing fun before a =>
        Consistent ((init 0 : Session ⟨8, 3, by decide, by decide⟩ ℕ).run before) ∧
          ∀ e, (((init 0 : Session ⟨8, 3, by decide, by decide⟩ ℕ).run before).step a).2 = some e →
            Safe ((init 0 : Session ⟨8, 3, by decide, by decide⟩ ℕ).run before) e :=
  run_safe 0 crossing (by decide)

end Session
end Castle.Container.MirroredRingBuffer

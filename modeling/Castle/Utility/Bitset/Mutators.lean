import Castle.Utility.Bitset.State

/-!
# The mutators as functions on the positions

What each mutator makes of a set that stands for a function: the set that stands for the changed
function.
-/

namespace Castle.Utility.Bitset

variable {bits : ℕ} {word : WordType} {b other : Bitset bits word} {f g : Fin bits → Bool}

theorem extend_val (f : Fin bits → Bool) (i : Fin bits) : extend f i = f i := dif_pos i.isLt

theorem extend_of_le (f : Fin bits → Bool) {k : ℕ} (h : bits ≤ k) : extend f k = false :=
  dif_neg (by omega)

theorem Represents.bitAt_eq (hfit : Fits bits word) (h : Represents b f) (k : ℕ) :
    bitAt b k = extend f k :=
  (represents_iff hfit).mp h k

theorem represents_of_bits (hfit : Fits bits word) (hval : ∀ i : Fin bits, bitAt b i = f i)
    (hzero : ∀ k, bits ≤ k → bitAt b k = false) : Represents b f := by
  rw [represents_iff hfit]
  intro k
  unfold extend
  split_ifs with hk
  · exact hval ⟨k, hk⟩
  · exact hzero k (by omega)

theorem represents_trimUnusedBits (hfit : Fits bits word) (hclean : bits = 0 → Clean b)
    (hval : ∀ i : Fin bits, bitAt b i = f i) : Represents b.trimUnusedBits f := by
  apply represents_of_bits hfit
  · intro i
    rw [bitAt_trimUnusedBits hfit hclean, decide_eq_true i.isLt, Bool.true_and, hval]
  · intro k hk
    rw [bitAt_trimUnusedBits hfit hclean, decide_eq_false (by omega), Bool.false_and]

section Words

variable {F : Fin (storageCount bits word) → BitVec word.width → BitVec word.width}

theorem Represents.mapWords (hfit : Fits bits word) (h : Represents b f) (op : ℕ → Bool → Bool)
    (hop : ∀ i x j, j < word.width → (F i x).getLsbD j = op (i.val * word.width + j) (x.getLsbD j))
    (hzero : ∀ k, bits ≤ k → op k false = false) :
    Represents (b.mapWords F) fun i => op i (f i) := by
  apply represents_of_bits hfit
  · intro i
    rw [bitAt_mapWords op hop, if_pos (i.isLt.trans_le (bits_le hfit)), h.bitAt_eq hfit, extend_val]
  · intro k hk
    rw [bitAt_mapWords op hop, h.bitAt_eq hfit, extend_of_le f hk, hzero k hk, ite_self]

theorem Represents.mapWords_trim (hfit : Fits bits word) (h : Represents b f) (op : ℕ → Bool → Bool)
    (hop : ∀ i x j, j < word.width → (F i x).getLsbD j = op (i.val * word.width + j) (x.getLsbD j))
    : Represents (b.mapWords F).trimUnusedBits fun i => op i (f i) := by
  apply represents_trimUnusedBits hfit
  · intro hb
    rw [clean_iff]
    intro k hk
    subst hb
    rw [bitAt_mapWords op hop, wordCount_zero, if_neg (by omega), h.bitAt_eq hfit, extend_of_le f hk]
  · intro i
    rw [bitAt_mapWords op hop, if_pos (i.isLt.trans_le (bits_le hfit)), h.bitAt_eq hfit, extend_val]

end Words

section

variable (hfit : Fits bits word)
include hfit

theorem init_represents :
    Represents (init : Bitset bits word) fun _ => false := by
  have hzero : ∀ k, bitAt (init : Bitset bits word) k = false := by
    intro k
    obtain ⟨d, j, hj, rfl⟩ := WordBits.exists_mul_add word.pos k
    by_cases hd : d < storageCount bits word
    · have hword := bitAt_mul_add (b := (init : Bitset bits word)) ⟨d, hd⟩ hj
      rw [hword, init, Table.get_replicate]
      exact BitVec.getLsbD_zero
    · exact bitAt_of_le (by rw [(WordBits.div_mod_mul_add hj d).1]; omega)
  exact represents_of_bits hfit (fun i => hzero i) fun k _ => hzero k

theorem Represents.setAll (h : Represents b f) :
    Represents b.setAll fun _ => true :=
  h.mapWords_trim hfit (fun _ _ => true) fun i x j hj => by simp [hj]

theorem Represents.resetAll (h : Represents b f) :
    Represents b.resetAll fun _ => false :=
  h.mapWords hfit (fun _ _ => false) (fun i x j hj => by simp) fun _ _ => rfl

theorem Represents.flipAll (h : Represents b f) :
    Represents b.flipAll fun i => !f i :=
  h.mapWords_trim hfit (fun _ v => !v) fun i x j hj => by simp [hj]

end

section Other

variable (hfit : Fits bits word) (h : Represents b f) (h' : Represents other g)
include hfit h h'

theorem Represents.andAssign : Represents (b.andAssign other) fun i => f i && g i := by
  have hand := h.mapWords hfit (F := fun i x => x &&& other.words.get i)
    (fun k v => v && bitAt other k)
    (fun i x j hj => by rw [BitVec.getLsbD_and, bitAt_mul_add i hj]) fun _ _ => rfl
  simp only [h'.bitAt_eq hfit, extend_val] at hand
  exact hand

theorem Represents.orAssign : Represents (b.orAssign other) fun i => f i || g i := by
  have hor := h.mapWords hfit (F := fun i x => x ||| other.words.get i)
    (fun k v => v || bitAt other k)
    (fun i x j hj => by rw [BitVec.getLsbD_or, bitAt_mul_add i hj])
    fun k hk => by rw [h'.bitAt_eq hfit, extend_of_le g hk, Bool.or_false]
  simp only [h'.bitAt_eq hfit, extend_val] at hor
  exact hor

theorem Represents.xorAssign : Represents (b.xorAssign other) fun i => f i ^^ g i := by
  have hxor := h.mapWords_trim hfit (F := fun i x => x ^^^ other.words.get i)
    (fun k v => v ^^ bitAt other k)
    fun i x j hj => by rw [BitVec.getLsbD_xor, bitAt_mul_add i hj]
  simp only [h'.bitAt_eq hfit, extend_val] at hxor
  exact hxor

theorem Represents.swap : Represents (b.swap other).1 g ∧ Represents (b.swap other).2 f := by
  have hfirst := h.mapWords hfit (F := fun i _ => other.words.get i)
    (fun k _ => bitAt other k) (fun i x j hj => by rw [bitAt_mul_add i hj])
    fun k hk => by rw [h'.bitAt_eq hfit, extend_of_le g hk]
  have hsecond := h'.mapWords hfit (F := fun i _ => b.words.get i)
    (fun k _ => bitAt b k) (fun i x j hj => by rw [bitAt_mul_add i hj])
    fun k hk => by rw [h.bitAt_eq hfit, extend_of_le f hk]
  simp only [h'.bitAt_eq hfit, h.bitAt_eq hfit, extend_val] at hfirst hsecond
  exact ⟨hfirst, hsecond⟩

end Other

section Position

variable (hfit : Fits bits word) (h : Represents b f)
include hfit h

theorem Represents.modifyWord {position : ℕ} (hp : position < bits)
    {F : BitVec word.width → BitVec word.width} (op : Bool → Bool)
    (hop : ∀ x j, j < word.width →
      (F x).getLsbD j = if j = position % word.width then op (x.getLsbD j) else x.getLsbD j) :
    ∃ i, wordIndex position = some i ∧
      Represents (b.modifyWord i F) fun i => if i.val = position then op (f i) else f i := by
  have hword := (div_lt_wordCount hfit hp).trans_le wordCount_le
  refine ⟨_, wordIndex_eq hfit hp, ?_⟩
  apply represents_of_bits hfit
  · intro i
    rw [bitAt_modifyWord_mask hword op hop, h.bitAt_eq hfit, extend_val]
  · intro k hk
    rw [bitAt_modifyWord_mask hword op hop, if_neg (by omega), h.bitAt_eq hfit, extend_of_le f hk]

theorem Represents.set (position : ℕ) (value : Bool) : ∃ b', b.set position value =
    some b' ∧ Represents b' fun i => if i.val = position then value else f i := by
  unfold Bitset.set
  by_cases hp : position < bits
  · obtain ⟨i, hi, hmod⟩ := h.modifyWord hfit hp (fun _ => value)
      (F := fun x => if value then x ||| bitMask position else x &&& ~~~bitMask position) (by
        intro x j hj
        cases value
        · rw [if_neg Bool.false_ne_true, BitVec.getLsbD_and, BitVec.getLsbD_not, getLsbD_bitMask]
          by_cases hplace : j = position % word.width <;> simp [hplace, hj]
        · rw [if_pos rfl, BitVec.getLsbD_or, getLsbD_bitMask]
          by_cases hplace : j = position % word.width <;> simp [hplace])
    exact ⟨_, by rw [if_neg (by omega), hi]; rfl, hmod⟩
  · refine ⟨b, if_pos (by omega), ?_⟩
    have hout : ∀ i : Fin bits, i.val ≠ position := fun i => by have := i.isLt; omega
    simpa [hout] using h

theorem Represents.flip (position : ℕ) : ∃ b', b.flip position =
    some b' ∧ Represents b' fun i => if i.val = position then !f i else f i := by
  unfold Bitset.flip
  by_cases hp : position < bits
  · obtain ⟨i, hi, hmod⟩ := h.modifyWord hfit hp (fun v => !v)
      (F := fun x => x ^^^ bitMask position) (by
        intro x j hj
        by_cases hplace : j = position % word.width
        · simp [getLsbD_bitMask, hplace]
        · simp [getLsbD_bitMask, hplace])
    exact ⟨_, by rw [if_neg (by omega), hi]; rfl, hmod⟩
  · refine ⟨b, if_pos (by omega), ?_⟩
    have hout : ∀ i : Fin bits, i.val ≠ position := fun i => by have := i.isLt; omega
    simpa [hout] using h

theorem Represents.orBit {i : ℕ} (hi : i < bits) :
    ∃ b', b.orBit i = some b' ∧ Represents b' fun k => if k.val = i then true else f k := by
  obtain ⟨index, hindex, hmod⟩ := h.modifyWord hfit hi (fun _ => true)
    (F := fun x => x ||| bitMask i) (by
      intro x j hj
      by_cases hplace : j = i % word.width
      · simp [getLsbD_bitMask, hplace]
      · simp [getLsbD_bitMask, hplace])
  exact ⟨_, by rw [Bitset.orBit, hindex]; rfl, hmod⟩

end Position

theorem wordIndices_ascending : (wordIndices bits word).Pairwise (· < ·) :=
  (List.pairwise_lt_finRange _).filter _

theorem mem_wordIndices {i : Fin (storageCount bits word)} :
    i ∈ wordIndices bits word ↔ i.val < wordCount bits word := by
  simp [wordIndices]

theorem wordAt_congr {t u : Table (storageCount bits word) (BitVec word.width)} {s : ℕ}
    (h : ∀ j : Fin (storageCount bits word), j.val = s → t.get j = u.get j) :
    wordAt t s = wordAt u s := by
  unfold wordAt
  split_ifs with hs
  · exact h ⟨s, hs⟩ rfl
  · rfl

variable (words : Table (storageCount bits word) (BitVec word.width))
  {d : Fin (storageCount bits word)}

theorem foldl_shiftedUp (wordShift bitShift : ℕ) (hd : d.val < wordCount bits word) :
    ((wordIndices bits word).reverse.foldl (fun words destination =>
      words.set destination
        (WordBits.shiftedUp (wordAt words) wordShift bitShift destination.val)) words).get d =
      WordBits.shiftedUp (wordAt words) wordShift bitShift d.val := by
  rw [Table.get_foldl_set (fun d j => j.val ≤ d.val), if_pos (by simp [mem_wordIndices, hd])]
  · intro t u d hsame
    unfold WordBits.shiftedUp
    simp only
    split_ifs
    · rw [wordAt_congr (s := d.val - wordShift) fun j hj => hsame j (by omega),
        wordAt_congr (s := d.val - wordShift - 1) fun j hj => hsame j (by omega)]
    · rw [wordAt_congr fun j hj => hsame j (by omega)]
    · rfl
  · rw [List.pairwise_reverse]
    refine wordIndices_ascending.imp ?_
    intro i j hlt
    exact ⟨hlt.ne', by have := Fin.lt_def.mp hlt; omega⟩

theorem foldl_shiftedDown (wordShift bitShift : ℕ) (hd : d.val < wordCount bits word) :
    ((wordIndices bits word).foldl (fun words destination =>
      words.set destination (WordBits.shiftedDown (wordAt words) (wordCount bits word) wordShift
        bitShift destination.val)) words).get d =
      WordBits.shiftedDown (wordAt words) (wordCount bits word) wordShift bitShift d.val := by
  rw [Table.get_foldl_set (fun d j => d.val ≤ j.val), if_pos (mem_wordIndices.mpr hd)]
  · intro t u d hsame
    unfold WordBits.shiftedDown
    simp only
    split_ifs
    · rw [wordAt_congr fun j hj => hsame j (by omega),
        wordAt_congr (s := d.val + wordShift + 1) fun j hj => hsame j (by omega)]
    · rw [wordAt_congr fun j hj => hsame j (by omega)]
    · rfl
  · refine wordIndices_ascending.imp ?_
    intro i j hlt
    exact ⟨hlt.ne, by have := Fin.lt_def.mp hlt; omega⟩

theorem bitAt_of_words {x : ℕ → BitVec word.width}
    (hwords : ∀ i : Fin (storageCount bits word), i.val < wordCount bits word →
      b.words.get i = x i.val) (hfit : Fits bits word) {k : ℕ} (hk : k < bits) :
    bitAt b k = WordBits.bit x k := by
  have hcount := div_lt_wordCount hfit hk
  have hword := wordAt_val b.words ⟨k / word.width, hcount.trans_le wordCount_le⟩
  rw [bitAt, WordBits.bit, WordBits.bit, hword, hwords _ hcount]

section Shift

variable (hfit : Fits bits word) (h : Represents b f) (shift : ℕ)
include hfit h

theorem Represents.shiftLeftAssign : Represents (b.shiftLeftAssign shift) fun i =>
    if shift ≤ i.val then extend f (i.val - shift) else false := by
  unfold Bitset.shiftLeftAssign
  by_cases hall : shift ≥ bits
  · have hout : ∀ i : Fin bits, ¬ shift ≤ i.val := fun i => by have := i.isLt; omega
    simpa only [if_pos hall, if_neg (hout _)] using h.resetAll hfit
  · have hcount : wordCount bits word ≠ 0 := wordCount_ne_zero (by omega) hfit
    rw [if_neg hall]
    by_cases hzero : shift = 0
    · subst hzero
      simpa only [true_or, if_true, Nat.zero_le, Nat.sub_zero, extend_val] using h
    · rw [if_neg (by omega)]
      apply represents_trimUnusedBits hfit (by omega)
      intro i
      refine (bitAt_of_words (fun d hd => foldl_shiftedUp b.words (shift / word.width)
        (shift % word.width) hd) hfit i.isLt).trans ?_
      rw [WordBits.bit_shiftedUp _ word.pos]
      split_ifs with hle
      · rw [decide_eq_true hle, Bool.true_and, ← h.bitAt_eq hfit, bitAt]
      · rw [decide_eq_false hle, Bool.false_and]

theorem Represents.shiftRightAssign :
    Represents (b.shiftRightAssign shift) fun i => extend f (i.val + shift) := by
  unfold Bitset.shiftRightAssign
  by_cases hall : shift ≥ bits
  · have hout : ∀ i : Fin bits, extend f (i.val + shift) = false := fun i =>
      extend_of_le f (by omega)
    simpa only [if_pos hall, hout] using h.resetAll hfit
  · have hb : bits ≠ 0 := by omega
    have hcount := wordCount_ne_zero hb hfit
    rw [if_neg hall]
    by_cases hzero : shift = 0
    · subst hzero
      simpa only [true_or, if_true, Nat.add_zero, extend_val] using h
    · rw [if_neg (by omega)]
      apply represents_trimUnusedBits hfit (by omega)
      intro i
      refine (bitAt_of_words (fun d hd => foldl_shiftedDown b.words (shift / word.width)
        (shift % word.width) hd) hfit i.isLt).trans ?_
      rw [WordBits.bit_shiftedDown _ word.pos, ← h.bitAt_eq hfit, bitAt]
      intro d hd
      rw [← storageCount_eq hb hfit] at hd
      exact wordAt_of_le _ hd

end Shift

theorem filter_lt_range {n c : ℕ} (h : c ≤ n) :
    (List.range n).filter (fun i => i < c) = List.range c := by
  obtain ⟨e, rfl⟩ := Nat.exists_eq_add_of_le h
  rw [List.range_add, List.filter_append, List.filter_eq_self.mpr, List.filter_eq_nil_iff.mpr,
    List.append_nil]
  · simp
  · simp

theorem wordIndices_val : (wordIndices bits word).map Fin.val = List.range (wordCount bits word) := by
  calc (wordIndices bits word).map Fin.val
      = ((List.finRange (storageCount bits word)).map Fin.val).filter
          (fun i => i < wordCount bits word) := by rw [List.filter_map]; rfl
    _ = List.range (wordCount bits word) := by rw [Table.map_val_finRange, filter_lt_range wordCount_le]

theorem foldl_assignWord (value : BitVec 64) {l : List (Fin (storageCount bits word))} {m : ℕ}
    (hl : l.map Fin.val = List.range' m l.length) (b : Bitset bits word)
    (d : Fin (storageCount bits word)) :
    (l.foldl assignWord (b, value >>> (m * word.width))).1.words.get d =
      if d ∈ l then (value >>> (d.val * word.width)).setWidth word.width else b.words.get d := by
  induction l generalizing b m with
  | nil => simp
  | cons i l ih =>
    simp only [List.map_cons, List.length_cons, List.range'_succ, List.cons.injEq] at hl
    obtain ⟨hi, hl⟩ := hl
    have hrest : (if 64 ≤ (i.val + 1) * word.width then 0
        else value >>> (m * word.width) >>> word.width) = value >>> ((m + 1) * word.width) := by
      rw [← BitVec.shiftRight_add, hi, ← Nat.succ_mul]
      split_ifs with hend
      · exact (BitVec.ushiftRight_eq_zero hend).symm
      · rfl
    have hnot : i ∉ l := by
      intro hmem
      have hval : i.val ∈ l.map Fin.val := List.mem_map_of_mem hmem
      rw [hl, hi, List.mem_range'_1] at hval
      omega
    rw [List.foldl_cons, assignWord, hrest, ih hl, modifyWord]
    simp only [Table.get_modify, List.mem_cons]
    by_cases hd : d = i
    · subst hd
      simp [hnot, hi]
    · simp [hd]

theorem Represents.assign (hfit : Fits bits word) (h : Represents b f) (value : BitVec 64) :
    Represents (b.assign value) fun i => value.getLsbD i := by
  have hloop := foldl_assignWord value (m := 0) (l := wordIndices bits word) (by
    rw [wordIndices_val, List.range_eq_range', ← List.length_map, wordIndices_val, List.length_range]) b
  rw [Nat.zero_mul, BitVec.ushiftRight_zero] at hloop
  apply represents_trimUnusedBits hfit
  · intro hb
    subst hb
    have hnone : wordIndices 0 word = [] := by
      apply List.eq_nil_iff_forall_not_mem.mpr
      intro i hi
      rw [mem_wordIndices, wordCount_zero] at hi
      omega
    rw [hnone]
    exact h.clean
  · intro i
    rw [bitAt_of_words (x := fun d => (value >>> (d * word.width)).setWidth word.width) _ hfit i.isLt]
    · have hdiv := Nat.div_add_mod i.val word.width
      rw [WordBits.bit, BitVec.getLsbD_setWidth, BitVec.getLsbD_ushiftRight, Nat.mul_comm, hdiv,
        decide_eq_true (Nat.mod_lt _ word.pos), Bool.true_and]
    · intro d hd
      rw [hloop d, if_pos (mem_wordIndices.mpr hd)]

/-- The characters that `from_string` counts, if the text does not end in front of them. -/
def characters (text : List UInt8) (position length : ℕ) : Option (List UInt8) :=
  let rest := text.drop position
  if length ≤ rest.length ∨ 0 ∈ rest then some ((rest.take length).takeWhile (· ≠ 0))
  else Option.none

theorem availableIn_eq (length : ℕ) (rest : List UInt8) :
    availableIn length rest = if length ≤ rest.length ∨
    0 ∈ rest then some ((rest.take length).takeWhile (· ≠ 0)).length else Option.none := by
  induction length generalizing rest with
  | zero => simp [availableIn]
  | succ length ih =>
    cases rest with
    | nil => simp [availableIn]
    | cons c rest =>
      by_cases hc : c = 0
      · simp [availableIn, hc]
      · have hc' : (0 : UInt8) ≠ c := Ne.symm hc
        rw [availableIn, if_neg hc, ih]
        by_cases hend : length ≤ rest.length ∨ 0 ∈ rest
        · simp [hend, hc, hc']
        · simp [hend, hc']

theorem availableIn_characters (text : List UInt8) (position length : ℕ) :
    availableIn length (text.drop position) = (characters text position length).map List.length := by
  rw [availableIn_eq, characters]
  split_ifs
  · rfl
  · rfl

theorem characters_prefix {text chars : List UInt8} {position length : ℕ}
    (h : characters text position length = some chars) : chars <+: text.drop position := by
  unfold characters at h
  simp only at h
  split_ifs at h
  cases h
  exact (List.takeWhile_prefix _).trans (List.take_prefix _ _)

theorem getElem?_characters {text chars : List UInt8} {position length i : ℕ}
    (h : characters text position length = some chars) (hi : i < chars.length) :
    text[position + chars.length - 1 - i]? = chars.reverse[i]? := by
  obtain ⟨rest, hrest⟩ := characters_prefix h
  have hplace : position + chars.length - 1 - i = position + (chars.length - 1 - i) := by omega
  rw [hplace, ← List.getElem?_drop, ← hrest, List.getElem?_append_left (by omega),
    List.getElem?_reverse hi]

section Text

variable (hfit : Fits bits word) {text chars : List UInt8} {position length : ℕ}
  (hchars : characters text position length = some chars) (zero one : UInt8)
include hfit hchars

theorem foldlM_fromString (h : Represents b fun _ => false) (used : ℕ) (hused : used ≤ chars.length)
    (hbits : used ≤ bits) :
    ∃ b', (List.range used).foldlM (fun b i => do
      let c ← text[position + chars.length - 1 - i]?
      if c = one then orBit b i else if c = zero then some b else some b) b = some b' ∧
      Represents b' fun i => i.val < used && chars.reverse[i.val]? == some one := by
  induction used with
  | zero => exact ⟨b, rfl, by simpa using h⟩
  | succ used ih =>
    obtain ⟨b', hb', hrep⟩ := ih (by omega) (by omega)
    have hread := getElem?_characters hchars (i := used) (by omega)
    obtain ⟨c, hc⟩ : ∃ c, chars.reverse[used]? = some c :=
      ⟨_, List.getElem?_eq_getElem (by rw [List.length_reverse]; omega)⟩
    rw [List.range_succ, List.foldlM_append, hb']
    have hext : (fun i : Fin bits => i.val < used + 1 && chars.reverse[i.val]? == some one) =
        fun i => if i.val = used then c == one
          else i.val < used && chars.reverse[i.val]? == some one := by
      funext i
      split_ifs with hi
      · simp [hi, hc]
      · congr 2
        apply propext
        omega
    rw [hext]
    by_cases hone : c = one
    · obtain ⟨b'', hb'', hrep'⟩ := hrep.orBit hfit (i := used) (by omega)
      exact ⟨b'', by simpa [hread, hc, hone] using hb'', by simpa [hone] using hrep'⟩
    · refine ⟨b', by simp [hread, hc, hone], ?_⟩
      have hnot : (c == one) = false := beq_eq_false_iff_ne.mpr hone
      convert hrep using 2 with i
      split_ifs with hi
      · simp [hi, hnot]
      · rfl

theorem Represents.fromString (h : Represents b f) : ∃ b', b.fromString (some text) position
    length zero one = some b' ∧ Represents b' fun i => chars.reverse[i.val]? == some one := by
  have havail := availableIn_characters text position length
  rw [hchars, Option.map_some] at havail
  obtain ⟨b', hb', hrep⟩ := foldlM_fromString hfit hchars zero one (h.resetAll hfit)
    (min chars.length bits) (min_le_left _ _) (min_le_right _ _)
  refine ⟨b', ?_, ?_⟩
  · have hused : (if chars.length < bits then chars.length else bits) = min chars.length bits := by
      split_ifs <;> omega
    simp only [Bitset.fromString, havail, Option.bind_eq_bind, Option.bind_some, hused]
    exact hb'
  · convert hrep using 2 with i
    by_cases hi : i.val < chars.length
    · simp [hi]
    · rw [List.getElem?_eq_none (by rw [List.length_reverse]; omega)]
      simp [hi]

end Text

end Castle.Utility.Bitset

import Mathlib.Data.Fintype.Card
import Castle.Lib.Table
import Castle.Lib.WordBits

/-!
# The bit set (`bitset.hpp`)

The storage words as a table. A loop over the words whose rounds do not depend on each other
updates all of them at once, the others run round by round. An operation has no result when
it reads or writes outside an array. `size_type` and `unsigned long long` have 64 bits, a
`char` is a byte.
-/

namespace Castle.Utility

/-- The template parameter `Word`: an unsigned type of whole bytes. -/
structure WordType where
  width : ℕ
  ge : 8 ≤ width
  le : width ≤ 64

theorem WordType.pos (word : WordType) : 0 < word.width := by
  have hge := word.ge
  omega

variable (bits : ℕ) (word : WordType)

/-- The sum is one of `size_type`. -/
def wordCount : ℕ := if bits = 0 then 0 else (bits + word.width - 1) % 2 ^ 64 / word.width

def storageCount : ℕ := if wordCount bits word = 0 then 1 else wordCount bits word

/-- `bitset<Bits, Word>` -/
structure Bitset where
  words : Table (storageCount bits word) (BitVec word.width)

namespace Bitset

def topMaskValue : BitVec word.width :=
  let remainder := bits % word.width
  if bits = 0 then 0
  else if remainder = 0 then BitVec.allOnes _
  else BitVec.ofNat word.width 1 <<< remainder - BitVec.ofNat word.width 1

variable {bits word}

theorem wordCount_le : wordCount bits word ≤ storageCount bits word := by
  unfold storageCount
  split_ifs <;> omega

theorem last_lt (h : wordCount bits word ≠ 0) : wordCount bits word - 1 < storageCount bits word := by
  have hle := @wordCount_le bits word
  omega

/-- `word_index(position)`, unless the storage ends in front of that word. -/
def wordIndex (position : ℕ) : Option (Fin (storageCount bits word)) :=
  if h : position / word.width < storageCount bits word then some ⟨position / word.width, h⟩
  else none

/-- The index `word_count - 1U`, which is none when there are no words. -/
def lastIndex (bits : ℕ) (word : WordType) : Option (Fin (storageCount bits word)) :=
  if h : wordCount bits word ≠ 0 then some ⟨wordCount bits word - 1, last_lt h⟩ else none

def bitMask (position : ℕ) : BitVec word.width :=
  BitVec.ofNat word.width 1 <<< (position % word.width)

variable (b other : Bitset bits word)

def modifyWord (i : Fin (storageCount bits word)) (f : BitVec word.width → BitVec word.width) :
    Bitset bits word :=
  ⟨b.words.modify i f⟩

/-- `for (i = 0; i < word_count; ++i) words_[i] = f(i, words_[i]);` -/
def mapWords (f : Fin (storageCount bits word) → BitVec word.width → BitVec word.width) :
    Bitset bits word :=
  ⟨b.words.mapIdx fun i x => if i.val < wordCount bits word then f i x else x⟩

/-- The indices of the loops over the words, in ascending order. -/
def wordIndices (bits : ℕ) (word : WordType) : List (Fin (storageCount bits word)) :=
  (List.finRange _).filter fun i => i.val < wordCount bits word

def trimUnusedBits : Bitset bits word :=
  match lastIndex bits word with
  | some last => b.modifyWord last fun x => x &&& topMaskValue bits word
  | .none => b

/-- The number of ones, however `popcount_word` finds it. -/
def popcountWord (value : BitVec word.width) : ℕ := WordBits.ones value

/-- A new bit set. -/
def init : Bitset bits word := ⟨.replicate _ 0⟩

def test (position : ℕ) : Option Bool :=
  if position ≥ bits then some false
  else do
    let i ← wordIndex position
    some (b.words.get i &&& bitMask position != 0)

def any : Bool := (wordIndices bits word).any fun i => b.words.get i != 0

def none : Bool := !b.any

def all : Option Bool :=
  if bits = 0 then some true
  else if (wordIndices bits word).any fun i =>
      i.val + 1 < wordCount bits word && b.words.get i != BitVec.allOnes _ then some false
  else do
    let last ← lastIndex bits word
    some (b.words.get last == topMaskValue bits word)

def count : ℕ := ((wordIndices bits word).map fun i => popcountWord (b.words.get i)).sum

/-- `operator==` -/
def equal : Bool := (wordIndices bits word).all fun i => b.words.get i == other.words.get i

/-- `buffer[i] = c;` -/
def put (buffer : List UInt8) (i : ℕ) (c : UInt8) : Option (List UInt8) :=
  if i < buffer.length then some (buffer.set i c) else .none

/-- `buffer` is a null pointer or points to `capacity` characters. -/
def toString (buffer : Option (List UInt8)) (zero one : UInt8) :
    Option (Bool × Option (List UInt8)) :=
  match buffer with
  | .none => some (false, .none)
  | some buffer =>
    if buffer.length < (bits + 1) % 2 ^ 64 then some (false, some buffer)
    else do
      let buffer ← (List.range bits).foldlM (fun buffer i => do
        let value ← b.test i
        put buffer (bits - 1 - i) (if value then one else zero)) buffer
      let buffer ← put buffer bits 0
      some (true, some buffer)

def setAll : Bitset bits word := trimUnusedBits (b.mapWords fun _ _ => BitVec.allOnes _)

def set (position : ℕ) (value : Bool) : Option (Bitset bits word) :=
  if position ≥ bits then some b
  else do
    let i ← wordIndex position
    some (b.modifyWord i fun x =>
      if value then x ||| bitMask position else x &&& ~~~bitMask position)

def resetAll : Bitset bits word := b.mapWords fun _ _ => 0

def reset (position : ℕ) : Option (Bitset bits word) := b.set position false

def flipAll : Bitset bits word := trimUnusedBits (b.mapWords fun _ x => ~~~x)

def flip (position : ℕ) : Option (Bitset bits word) :=
  if position ≥ bits then some b
  else do
    let i ← wordIndex position
    some (b.modifyWord i fun x => x ^^^ bitMask position)

/-- One round of the loop of `assign`, with what is left of `value`. -/
def assignWord (state : Bitset bits word × BitVec 64) (i : Fin (storageCount bits word)) :
    Bitset bits word × BitVec 64 :=
  let (b, value) := state
  (b.modifyWord i fun _ => value.setWidth word.width,
    if 64 ≤ (i.val + 1) * word.width then 0 else value >>> word.width)

def assign (value : BitVec 64) : Bitset bits word :=
  trimUnusedBits ((wordIndices bits word).foldl assignWord (b, value)).1

/-- The loop that counts the characters in front of the terminator, at most `length`; there is
no result when it reads behind the memory that `text` points to. -/
def availableIn : ℕ → List UInt8 → Option ℕ
  | 0, _ => some 0
  | _ + 1, [] => .none
  | length + 1, c :: rest => if c = 0 then some 0 else (availableIn length rest).map (· + 1)

/-- `words_[word_index(i)] |= bit_mask(i);` -/
def orBit (i : ℕ) : Option (Bitset bits word) := do
  let index ← wordIndex i
  some (b.modifyWord index fun x => x ||| bitMask i)

/-- `text` is a null pointer or points to the memory that is given. -/
def fromString (text : Option (List UInt8)) (position length : ℕ) (zero one : UInt8) :
    Option (Bitset bits word) :=
  let b := b.resetAll
  match text with
  | .none => some b
  | some text => do
    let available ← availableIn length (text.drop position)
    let used := if available < bits then available else bits
    (List.range used).foldlM (fun b i => do
      let c ← text[position + available - 1 - i]?
      -- the branch for `zero` and the one for other characters are empty
      if c = one then b.orBit i else if c = zero then some b else some b) b

/-- `operator&=` -/
def andAssign : Bitset bits word := b.mapWords fun i x => x &&& other.words.get i

/-- `operator|=` -/
def orAssign : Bitset bits word := b.mapWords fun i x => x ||| other.words.get i

/-- `operator^=` -/
def xorAssign : Bitset bits word :=
  trimUnusedBits (b.mapWords fun i x => x ^^^ other.words.get i)

/-- The storage word `i`, zero behind the storage, where the loops never read. -/
def wordAt (words : Table (storageCount bits word) (BitVec word.width)) (i : ℕ) :
    BitVec word.width :=
  if h : i < storageCount bits word then words.get ⟨i, h⟩ else 0

/-- `operator<<=` -/
def shiftLeftAssign (shift : ℕ) : Bitset bits word :=
  if shift ≥ bits then b.resetAll
  else if shift = 0 ∨ wordCount bits word = 0 then b
  else
    let wordShift := shift / word.width
    let bitShift := shift % word.width
    trimUnusedBits ⟨(wordIndices bits word).reverse.foldl (fun words destination =>
      words.set destination
        (if destination.val ≥ wordShift then
          let source := destination.val - wordShift
          let value := wordAt words source <<< bitShift
          if bitShift ≠ 0 ∧ source > 0 then
            value ||| wordAt words (source - 1) >>> (word.width - bitShift)
          else value
        else 0)) b.words⟩

/-- `operator>>=` -/
def shiftRightAssign (shift : ℕ) : Bitset bits word :=
  if shift ≥ bits then b.resetAll
  else if shift = 0 ∨ wordCount bits word = 0 then b
  else
    let wordShift := shift / word.width
    let bitShift := shift % word.width
    trimUnusedBits ⟨(wordIndices bits word).foldl (fun words destination =>
      let source := destination.val + wordShift
      words.set destination
        (if source < wordCount bits word then
          let value := wordAt words source >>> bitShift
          if bitShift ≠ 0 ∧ source + 1 < wordCount bits word then
            value ||| wordAt words (source + 1) <<< (word.width - bitShift)
          else value
        else 0)) b.words⟩

/-- The two bit sets after `b.swap(other)`. -/
def swap : Bitset bits word × Bitset bits word :=
  (b.mapWords fun i _ => other.words.get i, other.mapWords fun i _ => b.words.get i)

end Bitset
end Castle.Utility

/-!
## What the operations do to the bits

The bits of a set are those of its words, one word after the other. When the words are
enough for `Bits` bits, every operation has a result: one lemma for each mutator says what
bit `k` is afterwards, that the bits from `Bits` on stay zero with it.
-/

namespace Castle.Utility.Bitset

variable {bits : ℕ} {word : WordType} {b other : Bitset bits word} {f g : Fin bits → Bool}

/-- All storage bits at positions from `Bits` on are zero. -/
def Clean (b : Bitset bits word) : Prop :=
  ∀ (i : Fin (storageCount bits word)) (j : ℕ), j < word.width → bits ≤ i.val * word.width + j →
    (b.words.get i).getLsbD j = false

/-- The set `b` stands for the function `f` of the positions below `Bits`. -/
structure Represents (b : Bitset bits word) (f : Fin bits → Bool) : Prop where
  clean : Clean b
  test : ∀ i : Fin bits, b.test i = some (f i)

/-- The words hold `Bits` bits: the sum that `word_count` comes from does not wrap around. -/
def Fits (bits : ℕ) (word : WordType) : Prop := bits + word.width - 1 < 2 ^ 64

theorem wordCount_zero : wordCount 0 word = 0 := if_pos rfl

theorem wordCount_eq (hb : bits ≠ 0) (hfit : Fits bits word) :
    wordCount bits word = (bits + word.width - 1) / word.width := by
  rw [wordCount, if_neg hb, Nat.mod_eq_of_lt hfit]

theorem bits_le (hfit : Fits bits word) : bits ≤ wordCount bits word * word.width := by
  by_cases hb : bits = 0
  · omega
  · have hdiv := Nat.lt_div_mul_add word.pos (a := bits + word.width - 1)
    have hpos := word.pos
    rw [wordCount_eq hb hfit]
    omega

theorem last_mul_lt (hb : bits ≠ 0) (hfit : Fits bits word) :
    (wordCount bits word - 1) * word.width < bits := by
  have hdiv := Nat.div_mul_le_self (bits + word.width - 1) word.width
  have hpos := word.pos
  rw [wordCount_eq hb hfit, Nat.sub_mul]
  omega

theorem div_lt_wordCount (hfit : Fits bits word) {k : ℕ} (hk : k < bits) :
    k / word.width < wordCount bits word := by
  rw [Nat.div_lt_iff_lt_mul word.pos]
  exact hk.trans_le (bits_le hfit)

theorem wordCount_ne_zero (hb : bits ≠ 0) (hfit : Fits bits word) : wordCount bits word ≠ 0 := by
  exact Nat.ne_zero_of_lt (div_lt_wordCount hfit (Nat.pos_of_ne_zero hb))

theorem storageCount_eq (hb : bits ≠ 0) (hfit : Fits bits word) :
    storageCount bits word = wordCount bits word :=
  if_neg (wordCount_ne_zero hb hfit)

theorem wordIndex_eq (hfit : Fits bits word) {k : ℕ} (hk : k < bits) :
    (wordIndex k : Option (Fin (storageCount bits word))) =
      some ⟨k / word.width, (div_lt_wordCount hfit hk).trans_le wordCount_le⟩ :=
  dif_pos _

theorem mul_add_lt (hfit : Fits bits word) {d j : ℕ} (hd : d + 1 < wordCount bits word)
    (hj : j < word.width) : d * word.width + j < bits := by
  have hb : bits ≠ 0 := by
    intro hb
    rw [wordCount, if_pos hb] at hd
    omega
  have hlast := last_mul_lt hb hfit
  have hle : (d + 1) * word.width ≤ (wordCount bits word - 1) * word.width :=
    Nat.mul_le_mul_right _ (by omega)
  rw [Nat.succ_mul] at hle
  omega

theorem getLsbD_bitMask (position : ℕ) {j : ℕ} :
    (bitMask position : BitVec word.width).getLsbD j = decide (j = position % word.width) := by
  have hmod := Nat.mod_lt position word.pos
  rw [bitMask, ← BitVec.twoPow_eq, BitVec.getLsbD_twoPow]
  by_cases hj : j = position % word.width
  · simp [hj, hmod]
  · simp [hj, Ne.symm hj]

theorem and_bitMask_ne_zero (x : BitVec word.width) (position : ℕ) :
    (x &&& bitMask position != 0) = x.getLsbD (position % word.width) := by
  have hmod := Nat.mod_lt position word.pos
  rw [bitMask, ← BitVec.twoPow_eq, BitVec.and_twoPow]
  split_ifs with hbit
  · have hne : BitVec.twoPow word.width (position % word.width) ≠ 0 := by
      intro h
      have hself : (BitVec.twoPow word.width (position % word.width)).getLsbD
          (position % word.width) = _ := BitVec.getLsbD_twoPow _ _
      rw [h] at hself
      simp [hmod] at hself
    rw [hbit, bne_iff_ne]
    exact hne
  · simp [hbit]

theorem getLsbD_topMask (hb : bits ≠ 0) (hfit : Fits bits word) {j : ℕ} (hj : j < word.width) :
    (topMaskValue bits word).getLsbD j =
      decide ((wordCount bits word - 1) * word.width + j < bits) := by
  have hlast := last_mul_lt hb hfit
  have hle := bits_le hfit
  have hcount := wordCount_ne_zero hb hfit
  have hsucc : wordCount bits word * word.width =
      (wordCount bits word - 1) * word.width + word.width := by
    rw [← Nat.succ_mul]
    congr 1
    omega
  generalize hfirst : (wordCount bits word - 1) * word.width = first at hlast hsucc ⊢
  have hmod : bits % word.width = (bits - first) % word.width := by
    conv_lhs => rw [← Nat.sub_add_cancel hlast.le, ← hfirst, Nat.add_mul_mod_self_right, hfirst]
  unfold topMaskValue
  rw [if_neg hb]
  by_cases hfull : bits - first = word.width
  · rw [if_pos (by rw [hmod, hfull, Nat.mod_self])]
    simp [hj]
    omega
  · have hrest : bits % word.width = bits - first := by
      rw [hmod, Nat.mod_eq_of_lt (by omega)]
    rw [if_neg (by omega), hrest, ← BitVec.twoPow_eq]
    have hnat : (BitVec.twoPow word.width (bits - first) - BitVec.ofNat word.width 1).toNat =
        2 ^ (bits - first) - 1 := by
      have hpow : (BitVec.twoPow word.width (bits - first)).toNat = 2 ^ (bits - first) :=
        BitVec.toNat_twoPow_of_lt (by omega)
      have hone : (BitVec.ofNat word.width 1).toNat = 1 := Nat.mod_eq_of_lt (Nat.one_lt_two_pow word.pos.ne')
      rw [BitVec.toNat_sub_of_le, hpow, hone]
      rw [BitVec.le_def, hpow, hone]
      exact Nat.one_le_two_pow
    rw [BitVec.getLsbD, hnat, Nat.testBit_two_pow_sub_one]
    congr 1
    apply propext
    omega

/-- Bit `k` of the storage, zero behind the storage. -/
def bitAt (b : Bitset bits word) (k : ℕ) : Bool := WordBits.bit (wordAt b.words) k

variable (words : Table (storageCount bits word) (BitVec word.width))
  (i : Fin (storageCount bits word))

theorem wordAt_val : wordAt words i = words.get i :=
  dif_pos i.isLt

theorem wordAt_of_le {d : ℕ} (h : storageCount bits word ≤ d) : wordAt words d = 0 :=
  dif_neg (by omega)

theorem bitAt_of_le {k : ℕ} (h : storageCount bits word ≤ k / word.width) : bitAt b k = false := by
  rw [bitAt, WordBits.bit, wordAt_of_le _ h]
  exact BitVec.getLsbD_zero

theorem bitAt_mul_add {j : ℕ} (hj : j < word.width) :
    bitAt b (i.val * word.width + j) = (b.words.get i).getLsbD j := by
  rw [bitAt, WordBits.bit_mul_add _ hj, wordAt_val]

theorem test_eq (hfit : Fits bits word) {k : ℕ} (hk : k < bits) : b.test k = some (bitAt b k) := by
  have hword := (div_lt_wordCount hfit hk).trans_le wordCount_le
  unfold test
  rw [if_neg (by omega), wordIndex_eq hfit hk, bitAt, WordBits.bit,
    wordAt_val b.words ⟨k / word.width, hword⟩, ← and_bitMask_ne_zero]
  rfl

theorem clean_iff : Clean b ↔ ∀ k, bits ≤ k → bitAt b k = false := by
  constructor
  · intro h k hk
    obtain ⟨d, j, hj, rfl⟩ := WordBits.exists_mul_add word.pos k
    by_cases hd : d < storageCount bits word
    · have hword := bitAt_mul_add (b := b) ⟨d, hd⟩ hj
      rw [hword]
      exact h _ j hj hk
    · exact bitAt_of_le (by rw [(WordBits.div_mod_mul_add hj d).1]; omega)
  · intro h i j hj hle
    rw [← bitAt_mul_add i hj]
    exact h _ hle

/-- Bit `k` of a set that stands for `f`. -/
def extend (f : Fin bits → Bool) (k : ℕ) : Bool := if h : k < bits then f ⟨k, h⟩ else false

theorem represents_iff (hfit : Fits bits word) : Represents b f ↔ ∀ k, bitAt b k = extend f k := by
  constructor
  · intro h k
    unfold extend
    split_ifs with hk
    · have htest := h.test ⟨k, hk⟩
      rw [test_eq hfit hk] at htest
      exact Option.some.inj htest
    · exact clean_iff.mp h.clean k (by omega)
  · intro h
    refine ⟨clean_iff.mpr fun k hk => ?_, fun i => ?_⟩
    · rw [h, extend, dif_neg (by omega)]
    · rw [test_eq hfit i.isLt, h, extend, dif_pos i.isLt]

theorem eq_of_bitAt (h : ∀ k, bitAt b k = bitAt other k) : b = other := by
  cases b with | mk words =>
  cases other with | mk words' =>
  congr 1
  apply Table.ext_get
  intro i
  apply BitVec.eq_of_getLsbD_eq
  intro j hj
  have hbit := h (i.val * word.width + j)
  rwa [bitAt_mul_add i hj, bitAt_mul_add i hj] at hbit

theorem mul_add_lt_iff (d : ℕ) {n j : ℕ} (hj : j < word.width) :
    d * word.width + j < n * word.width ↔ d < n := by
  constructor
  · intro h
    by_contra hle
    have hmul : n * word.width ≤ d * word.width := Nat.mul_le_mul_right _ (by omega)
    omega
  · intro h
    have hmul : (d + 1) * word.width ≤ n * word.width := Nat.mul_le_mul_right _ h
    rw [Nat.succ_mul] at hmul
    omega

theorem bitAt_mapWords {F : Fin (storageCount bits word) → BitVec word.width → BitVec word.width}
    (op : ℕ → Bool → Bool)
    (hop : ∀ i x j, j < word.width → (F i x).getLsbD j = op (i.val * word.width + j) (x.getLsbD j))
    (k : ℕ) : bitAt (b.mapWords F) k =
    if k < wordCount bits word * word.width then op k (bitAt b k) else bitAt b k := by
  obtain ⟨d, j, hj, rfl⟩ := WordBits.exists_mul_add word.pos k
  by_cases hd : d < storageCount bits word
  · have hnew := bitAt_mul_add (b := b.mapWords F) ⟨d, hd⟩ hj
    have hold := bitAt_mul_add (b := b) ⟨d, hd⟩ hj
    rw [hnew, hold, mapWords, Table.get_mapIdx]
    by_cases hcount : d < wordCount bits word
    · rw [if_pos hcount, if_pos ((mul_add_lt_iff d hj).mpr hcount), hop _ _ _ hj]
    · rw [if_neg hcount, if_neg (mt (mul_add_lt_iff d hj).mp hcount)]
  · have hcount : ¬ d < wordCount bits word := fun h => hd (h.trans_le wordCount_le)
    have hend : storageCount bits word ≤ (d * word.width + j) / word.width := by
      rw [(WordBits.div_mod_mul_add hj d).1]
      omega
    rw [if_neg (mt (mul_add_lt_iff d hj).mp hcount), bitAt_of_le hend, bitAt_of_le hend]

variable {F : BitVec word.width → BitVec word.width}

theorem bitAt_modifyWord {i : Fin (storageCount bits word)} (op : ℕ → Bool → Bool)
    (hop : ∀ x j, j < word.width → (F x).getLsbD j = op (i.val * word.width + j) (x.getLsbD j))
    (k : ℕ) :
    bitAt (b.modifyWord i F) k = if k / word.width = i then op k (bitAt b k) else bitAt b k := by
  obtain ⟨d, j, hj, rfl⟩ := WordBits.exists_mul_add word.pos k
  have hdiv := (WordBits.div_mod_mul_add hj d).1
  rw [hdiv]
  by_cases hd : d < storageCount bits word
  · have hnew := bitAt_mul_add (b := b.modifyWord i F) ⟨d, hd⟩ hj
    have hold := bitAt_mul_add (b := b) ⟨d, hd⟩ hj
    rw [hnew, hold, modifyWord, Table.get_modify]
    by_cases hi : d = i
    · rw [if_pos (Fin.ext hi), if_pos hi, hop _ _ hj, ← hi]
    · rw [if_neg (fun h => hi (congrArg Fin.val h)), if_neg hi]
  · rw [if_neg (by omega), bitAt_of_le (by omega), bitAt_of_le (by omega)]

theorem bitAt_modifyWord_mask {position : ℕ} (hp : position / word.width < storageCount bits word)
    (op : Bool → Bool) (hop : ∀ x j, j < word.width →
      (F x).getLsbD j = if j = position % word.width then op (x.getLsbD j) else x.getLsbD j) (k : ℕ)
    :
    bitAt (b.modifyWord ⟨position / word.width, hp⟩ F) k =
      if k = position then op (bitAt b k) else bitAt b k := by
  have hplace : ∀ j, position / word.width * word.width + j = position ↔
      j = position % word.width := by
    intro j
    have hdiv := Nat.div_add_mod position word.width
    rw [Nat.mul_comm] at hdiv
    omega
  rw [bitAt_modifyWord fun k v => if k = position then op v else v]
  · by_cases hk : k = position
    · simp [hk]
    · simp [hk]
  · intro x j hj
    rw [hop x j hj]
    simp [hplace]

theorem bitAt_trimUnusedBits (hfit : Fits bits word) (hclean : bits = 0 → Clean b) (k : ℕ) :
    bitAt b.trimUnusedBits k = (decide (k < bits) && bitAt b k) := by
  by_cases hb : bits = 0
  · have hlast : lastIndex bits word = Option.none := by
      subst hb
      exact dif_neg (not_not.mpr wordCount_zero)
    rw [trimUnusedBits, hlast, clean_iff.mp (hclean hb) k (by omega), Bool.and_false]
  · have hcount := wordCount_ne_zero hb hfit
    have hlast : lastIndex bits word = some ⟨wordCount bits word - 1, last_lt hcount⟩ :=
      dif_pos hcount
    rw [trimUnusedBits, hlast]
    have htrim := bitAt_modifyWord (b := b) (i := ⟨wordCount bits word - 1, last_lt hcount⟩)
      (F := fun x => x &&& topMaskValue bits word) (fun k v => decide (k < bits) && v)
      (by
        intro x j hj
        rw [BitVec.getLsbD_and, getLsbD_topMask hb hfit hj, Bool.and_comm]) k
    rw [htrim]
    split_ifs with hk
    · rfl
    -- a word in front of the last one is full, behind it there is none
    · rcases Nat.lt_or_gt_of_ne hk with hlt | hgt
      · have hword : k / word.width + 1 < wordCount bits word := Nat.add_lt_of_lt_sub hlt
        have hlow := mul_add_lt hfit hword (Nat.mod_lt k word.pos)
        rw [Nat.mul_comm, Nat.div_add_mod] at hlow
        rw [decide_eq_true hlow, Bool.true_and]
      · have hend : storageCount bits word ≤ k / word.width := by
          rw [storageCount_eq hb hfit]
          exact Nat.le_of_pred_lt hgt
        rw [bitAt_of_le hend, Bool.and_false]

end Castle.Utility.Bitset

import Castle.Utility.Bitset.Mutators

/-!
# What the observers say

The observers of a set that stands for a function, in terms of the function.
-/

namespace Castle.Utility.Bitset

variable {bits : ℕ} {word : WordType} {b other : Bitset bits word} {f g : Fin bits → Bool}

section Words

variable (hfit : Fits bits word) (h : Represents b f)
include hfit h

theorem Represents.bitAt_eq_true {k : ℕ} : bitAt b k = true ↔ ∃ i : Fin bits, i.val = k ∧ f i = true := by
  rw [h.bitAt_eq hfit, extend]
  split_ifs with hk
  · constructor
    · exact fun hf => ⟨⟨k, hk⟩, rfl, hf⟩
    · rintro ⟨i, rfl, hf⟩
      exact hf
  · constructor
    · intro hf
      cases hf
    · rintro ⟨i, rfl, hf⟩
      exact absurd i.isLt hk

theorem Represents.count : b.count = (List.finRange bits).countP f := by
  have hwords : (wordIndices bits word).map (fun i => popcountWord (b.words.get i)) =
      (List.range (wordCount bits word)).map fun d => WordBits.ones (wordAt b.words d) := by
    rw [← wordIndices_val, List.map_map]
    apply List.map_congr_left
    intro i hi
    rw [Function.comp_apply, wordAt_val, popcountWord]
  obtain ⟨rest, hrest⟩ := Nat.exists_eq_add_of_le (bits_le hfit)
  rw [Bitset.count, hwords, WordBits.sum_ones, hrest, List.range_add, List.countP_append,
    List.countP_map]
  have hpadding : (List.range rest).countP ((WordBits.bit (wordAt b.words)) ∘ (bits + ·)) = 0 := by
    rw [List.countP_eq_zero]
    intro k hk
    rw [Function.comp_apply, ← bitAt, h.bitAt_eq hfit, extend_of_le f (by omega)]
    exact Bool.false_ne_true
  rw [hpadding, Nat.add_zero, ← Table.map_val_finRange, List.countP_map]
  apply List.countP_congr
  intro i hi
  rw [Function.comp_apply, ← bitAt, h.bitAt_eq hfit, extend_val]

theorem Represents.any : b.any = decide (∃ i, f i = true) := by
  rw [Bool.eq_iff_iff, decide_eq_true_iff, Bitset.any, List.any_eq_true]
  constructor
  · rintro ⟨i, hi, hne⟩
    by_contra hnone
    apply bne_iff_ne.mp hne
    apply BitVec.eq_of_getLsbD_eq
    intro j hj
    refine Eq.trans ?_ BitVec.getLsbD_zero.symm
    rw [← bitAt_mul_add i hj, ← Bool.not_eq_true, h.bitAt_eq_true hfit]
    rintro ⟨k, -, hf⟩
    exact hnone ⟨k, hf⟩
  · rintro ⟨k, hf⟩
    have hcount := div_lt_wordCount hfit k.isLt
    have hword := wordAt_val b.words ⟨k.val / word.width, hcount.trans_le wordCount_le⟩
    refine ⟨⟨k.val / word.width, hcount.trans_le wordCount_le⟩, mem_wordIndices.mpr hcount, ?_⟩
    rw [bne_iff_ne]
    intro hzero
    have hbit := (h.bitAt_eq_true hfit).mpr ⟨k, rfl, hf⟩
    rw [bitAt, WordBits.bit, hword, hzero] at hbit
    exact Bool.false_ne_true (BitVec.getLsbD_zero.symm.trans hbit)

theorem Represents.none : b.none = decide (∀ i, f i = false) := by
  rw [Bitset.none, h.any hfit, Bool.eq_iff_iff, Bool.not_eq_true', decide_eq_false_iff_not,
    decide_eq_true_iff]
  simp

theorem Represents.last_eq_topMask_iff (hb : bits ≠ 0)
    (hfull : ∀ i : Fin (storageCount bits word), i.val + 1 < wordCount bits word →
      b.words.get i = BitVec.allOnes _) :
    b.words.get ⟨wordCount bits word - 1, last_lt (wordCount_ne_zero hb hfit)⟩ =
      topMaskValue bits word ↔ ∀ i, f i = true := by
  constructor
  · intro hmask i
    obtain ⟨d, j, hj, hi⟩ := WordBits.exists_mul_add word.pos i.val
    have hd := div_lt_wordCount hfit i.isLt
    rw [hi, (WordBits.div_mod_mul_add hj d).1] at hd
    have hbit := bitAt_mul_add (b := b) ⟨d, hd.trans_le wordCount_le⟩ hj
    rw [← hi, h.bitAt_eq hfit, extend_val] at hbit
    rw [hbit]
    by_cases hinner : d + 1 < wordCount bits word
    · rw [hfull _ hinner]
      simp [hj]
    · have hd' : d = wordCount bits word - 1 := by omega
      subst hd'
      rw [hmask, getLsbD_topMask hb hfit hj, ← hi]
      exact decide_eq_true i.isLt
  · intro hall
    apply BitVec.eq_of_getLsbD_eq
    intro j hj
    rw [getLsbD_topMask hb hfit hj, ← bitAt_mul_add _ hj, h.bitAt_eq hfit, extend]
    split_ifs with hlt
    · rw [hall, decide_eq_true hlt]
    · rw [decide_eq_false hlt]

theorem Represents.all : b.all = some (decide (∀ i, f i = true)) := by
  unfold Bitset.all
  by_cases hb : bits = 0
  · subst hb
    rw [if_pos rfl]
    simp
  · have hcount := wordCount_ne_zero hb hfit
    have hlast : lastIndex bits word = some ⟨wordCount bits word - 1, last_lt hcount⟩ :=
      dif_pos hcount
    rw [if_neg hb, hlast]
    split_ifs with hany
    · obtain ⟨i, hi, hfull⟩ := List.any_eq_true.mp hany
      rw [Bool.and_eq_true, decide_eq_true_iff, bne_iff_ne] at hfull
      congr 1
      symm
      rw [decide_eq_false_iff_not]
      intro hall
      apply hfull.2
      apply BitVec.eq_of_getLsbD_eq
      intro j hj
      have hlt := mul_add_lt hfit hfull.1 hj
      rw [← bitAt_mul_add i hj, (h.bitAt_eq_true hfit).mpr ⟨⟨_, hlt⟩, rfl, hall _⟩]
      simp [hj]
    · have hfull : ∀ i : Fin (storageCount bits word), i.val + 1 < wordCount bits word →
          b.words.get i = BitVec.allOnes _ := by
        intro i hi
        by_contra hne
        apply hany
        rw [List.any_eq_true]
        refine ⟨i, mem_wordIndices.mpr (by omega), ?_⟩
        rw [Bool.and_eq_true, decide_eq_true_iff, bne_iff_ne]
        exact ⟨hi, hne⟩
      have htop := h.last_eq_topMask_iff hfit hb hfull
      rw [Option.bind_eq_bind, Option.bind_some]
      congr 1
      rw [Bool.eq_iff_iff, beq_iff_eq, decide_eq_true_iff, htop]

end Words

theorem Represents.eq (hfit : Fits bits word) (h : Represents b f) (h' : Represents other f) :
    b = other := by
  apply eq_of_bitAt
  intro k
  rw [h.bitAt_eq hfit, h'.bitAt_eq hfit]

theorem Represents.equal (hfit : Fits bits word) (h : Represents b f) (h' : Represents other g) :
    b.equal other = decide (f = g) := by
  rw [Bool.eq_iff_iff, decide_eq_true_iff, Bitset.equal, List.all_eq_true]
  constructor
  · intro hsame
    funext i
    have hcount := div_lt_wordCount hfit i.isLt
    have hword := hsame ⟨i.val / word.width, hcount.trans_le wordCount_le⟩ (mem_wordIndices.mpr hcount)
    rw [beq_iff_eq, ← wordAt_val, ← wordAt_val] at hword
    rw [← extend_val f, ← extend_val g, ← h.bitAt_eq hfit, ← h'.bitAt_eq hfit, bitAt, bitAt,
      WordBits.bit, WordBits.bit, hword]
  · intro hfg i hi
    subst hfg
    rw [h.eq hfit h', beq_self_eq_true]

/-- The characters of a function, the highest position first. -/
def digits (f : Fin bits → Bool) (zero one : UInt8) : List UInt8 :=
  (List.ofFn f).reverse.map fun v => if v then one else zero

theorem length_digits (zero one : UInt8) : (digits f zero one).length = bits := by
  simp [digits]

theorem getElem?_digits (zero one : UInt8) {p : ℕ} (hp : p < bits) :
    (digits f zero one)[p]? = some (if extend f (bits - 1 - p) then one else zero) := by
  rw [digits, List.getElem?_map, List.getElem?_reverse (by simpa using hp), List.length_ofFn,
    List.getElem?_ofFn, extend]
  simp [show bits - 1 - p < bits by omega]

section Text

variable (h : Represents b f) (zero one : UInt8)
include h

theorem Represents.foldlM_toString (buffer : List UInt8) (hlen : bits < buffer.length) {n : ℕ}
    (hn : n ≤ bits) :
    ∃ buffer', (List.range n).foldlM (fun buffer i => do
        let value ← b.test i
        put buffer (bits - 1 - i) (if value then one else zero)) buffer = some buffer' ∧
      ∀ p, buffer'[p]? =
        if bits - n ≤ p ∧ p < bits then (digits f zero one)[p]? else buffer[p]? := by
  induction n with
  | zero =>
    refine ⟨buffer, rfl, fun p => ?_⟩
    rw [if_neg (by omega)]
  | succ n ih =>
    obtain ⟨buffer', hbuffer', hget⟩ := ih (by omega)
    have hlen' : bits < buffer'.length := by
      by_contra hle
      have hend := hget bits
      rw [if_neg (by omega), List.getElem?_eq_none (by omega), List.getElem?_eq_getElem hlen] at hend
      cases hend
    refine ⟨buffer'.set (bits - 1 - n) (if f ⟨n, hn⟩ then one else zero), ?_, fun p => ?_⟩
    · rw [List.range_succ, List.foldlM_append, hbuffer']
      simp [h.test ⟨n, hn⟩, put, show bits - 1 - n < buffer'.length by omega]
    · rw [List.getElem?_set, hget]
      by_cases hp : bits - 1 - n = p
      · subst hp
        have hplace : bits - 1 - (bits - 1 - n) = n := by omega
        have hf : extend f n = f ⟨n, hn⟩ := dif_pos hn
        rw [if_pos rfl, if_pos (by omega),
          if_pos (show bits - (n + 1) ≤ bits - 1 - n ∧ bits - 1 - n < bits by omega),
          getElem?_digits _ _ (by omega), hplace, hf]
      · rw [if_neg hp]
        congr 1
        apply propext
        omega

theorem Represents.toString (hfit : Fits bits word) {buffer : List UInt8} (hlen : bits < buffer.length) :
    b.toString (some buffer) zero one =
      some (true, some (digits f zero one ++ 0 :: buffer.drop (bits + 1))) := by
  obtain ⟨buffer', hbuffer', hget⟩ := h.foldlM_toString zero one buffer hlen le_rfl
  have hge := word.ge
  have hmod : (bits + 1) % 2 ^ 64 = bits + 1 := by
    unfold Fits at hfit
    exact Nat.mod_eq_of_lt (by omega)
  have hlen' : bits < buffer'.length := by
    by_contra hle
    have hend := hget bits
    rw [if_neg (by omega), List.getElem?_eq_none (by omega), List.getElem?_eq_getElem hlen] at hend
    cases hend
  have hput : put buffer' bits 0 = some (buffer'.set bits 0) := if_pos hlen'
  unfold Bitset.toString
  simp only [hmod, if_neg (show ¬ buffer.length < bits + 1 by omega), hbuffer']
  rw [Option.bind_eq_bind, Option.bind_some, hput, Option.bind_some]
  congr 3
  apply List.ext_getElem?
  intro p
  rw [List.getElem?_set, hget]
  rcases Nat.lt_trichotomy p bits with hp | rfl | hp
  · rw [if_neg (by omega), if_pos (by omega), List.getElem?_append_left (by rwa [length_digits])]
  · rw [if_pos rfl, if_pos hlen', List.getElem?_append_right (by rw [length_digits]),
      length_digits, Nat.sub_self]
    rfl
  · rw [if_neg (by omega), if_neg (by omega),
      List.getElem?_append_right (by rw [length_digits]; omega), length_digits,
      show p - bits = p - (bits + 1) + 1 by omega, List.getElem?_cons_succ, List.getElem?_drop]
    congr 1
    omega

end Text

theorem toString_refuse (hfit : Fits bits word) (zero one : UInt8) {buffer : Option (List UInt8)}
    (hsmall : ∀ chars, buffer = some chars → chars.length ≤ bits) :
    b.toString buffer zero one = some (false, buffer) := by
  have hge := word.ge
  have hmod : (bits + 1) % 2 ^ 64 = bits + 1 := by
    unfold Fits at hfit
    exact Nat.mod_eq_of_lt (by omega)
  cases buffer with
  | none => rfl
  | some chars =>
    have hlen := hsmall chars rfl
    simp only [Bitset.toString, hmod, if_pos (show chars.length < bits + 1 by omega)]

theorem characters_digits {zero one : UInt8} (hzero : zero ≠ 0) (hone : one ≠ 0) (rest : List UInt8)
    {length : ℕ} (hlength : bits ≤ length) :
    characters (digits f zero one ++ 0 :: rest) 0 length = some (digits f zero one) := by
  have hlen : (digits f zero one).length = bits := length_digits zero one
  have hdigits : ∀ c ∈ digits f zero one, decide (c ≠ 0) = true := by
    intro c hc
    obtain ⟨v, _, rfl⟩ := List.mem_map.mp hc
    cases v
    · exact decide_eq_true hzero
    · exact decide_eq_true hone
  unfold characters
  rw [List.drop_zero, if_pos (Or.inr (by simp)), List.take_append, List.take_of_length_le (by omega),
    List.takeWhile_append_of_pos hdigits]
  cases length - (digits f zero one).length with
  | zero => simp
  | succ n => simp

theorem Represents.fromString_toString (hfit : Fits bits word) (h : Represents b f)
    (h' : Represents other g) {zero one : UInt8} (hzero : zero ≠ 0) (hone : one ≠ 0)
    (hne : zero ≠ one) (rest : List UInt8) {length : ℕ} (hlength : bits ≤ length) :
    other.fromString (some (digits f zero one ++ 0 :: rest)) 0 length zero one = some b := by
  obtain ⟨b', hb', hrep⟩ := h'.fromString hfit
    (characters_digits (f := f) hzero hone rest hlength) zero one
  rw [hb']
  congr 1
  refine Represents.eq hfit hrep (?_ : Represents b _)
  convert h using 2 with i
  rw [digits, List.map_reverse, List.reverse_reverse, List.getElem?_map, List.getElem?_ofFn]
  cases hf : f i <;> simp [hf, hne]

end Castle.Utility.Bitset

/-!
## Runs of operations on bit sets

The sets of a program are the variables of a store, all of them new at first. Every run is
compared with the run of the same operations on functions of the positions.
-/

namespace Castle.Utility.Bitset

variable {bits : ℕ} {word : WordType}

/-- The operations that change one set; an operand is another variable. -/
inductive Change where
  | assign (value : BitVec 64)
  | fromString (text : Option (List UInt8)) (position length : ℕ) (zero one : UInt8)
  | setAll
  | set (position : ℕ) (value : Bool)
  | resetAll
  | reset (position : ℕ)
  | flipAll
  | flip (position : ℕ)
  | andAssign (other : ℕ)
  | orAssign (other : ℕ)
  | xorAssign (other : ℕ)
  | shiftLeftAssign (shift : ℕ)
  | shiftRightAssign (shift : ℕ)

inductive Op where
  | change (x : ℕ) (c : Change)
  | swap (x y : ℕ)

def Change.apply (store : ℕ → Bitset bits word) (b : Bitset bits word) :
    Change → Option (Bitset bits word)
  | assign value => some (b.assign value)
  | fromString text position length zero one => b.fromString text position length zero one
  | setAll => some b.setAll
  | set position value => b.set position value
  | resetAll => some b.resetAll
  | reset position => b.reset position
  | flipAll => some b.flipAll
  | flip position => b.flip position
  | andAssign other => some (b.andAssign (store other))
  | orAssign other => some (b.orAssign (store other))
  | xorAssign other => some (b.xorAssign (store other))
  | shiftLeftAssign shift => some (b.shiftLeftAssign shift)
  | shiftRightAssign shift => some (b.shiftRightAssign shift)

def Op.apply (store : ℕ → Bitset bits word) : Op → Option (ℕ → Bitset bits word)
  | change x c => (c.apply store (store x)).map (Function.update store x)
  | swap x y =>
    let (b, b') := (store x).swap (store y)
    some (Function.update (Function.update store x b) y b')

def run (ops : List Op) : Option (ℕ → Bitset bits word) :=
  ops.foldlM Op.apply fun _ => init

/-- What a change makes of the function `f`. -/
def Change.spec (store : ℕ → Fin bits → Bool) (f : Fin bits → Bool) :
    Change → Option (Fin bits → Bool)
  | assign value => some fun i => value.getLsbD i
  | fromString text position length _ one =>
    match text with
    | .none => some fun _ => false
    | some text => (characters text position length).map fun chars i =>
        chars.reverse[i.val]? == some one
  | setAll => some fun _ => true
  | set position value => some fun i => if i.val = position then value else f i
  | resetAll => some fun _ => false
  | reset position => some fun i => if i.val = position then false else f i
  | flipAll => some fun i => !f i
  | flip position => some fun i => if i.val = position then !f i else f i
  | andAssign other => some fun i => f i && store other i
  | orAssign other => some fun i => f i || store other i
  | xorAssign other => some fun i => f i ^^ store other i
  | shiftLeftAssign shift => some fun i => if shift ≤ i.val then extend f (i.val - shift) else false
  | shiftRightAssign shift => some fun i => extend f (i.val + shift)

def Op.spec (store : ℕ → Fin bits → Bool) : Op → Option (ℕ → Fin bits → Bool)
  | change x c => (c.spec store (store x)).map (Function.update store x)
  | swap x y => some (Function.update (Function.update store x (store y)) y (store x))

def specRun (ops : List Op) : Option (ℕ → Fin bits → Bool) :=
  ops.foldlM Op.spec fun _ _ => false

def RepresentsAll (store : ℕ → Bitset bits word) (functions : ℕ → Fin bits → Bool) : Prop :=
  ∀ x, Represents (store x) (functions x)

variable {store : ℕ → Bitset bits word} {functions : ℕ → Fin bits → Bool}

theorem RepresentsAll.update (h : RepresentsAll store functions) {x : ℕ} {b : Bitset bits word}
    {f : Fin bits → Bool} (hb : Represents b f) :
    RepresentsAll (Function.update store x b) (Function.update functions x f) := by
  intro y
  by_cases hy : y = x
  · subst hy
    simpa using hb
  · simpa [Function.update_of_ne hy] using h y

theorem fromString_none {text : List UInt8} {position length : ℕ}
    (h : characters text position length = Option.none) (b : Bitset bits word)
    (zero one : UInt8) : b.fromString (some text) position length zero one = Option.none := by
  have havail := availableIn_characters text position length
  rw [h, Option.map_none] at havail
  simp only [fromString, havail]
  rfl

/-- A change has a result when it has one on functions, and the result stands for that one. -/
theorem Change.apply_spec (hfit : Fits bits word) (h : RepresentsAll store functions)
    {b : Bitset bits word} {f : Fin bits → Bool} (hb : Represents b f) (c : Change) :
    Option.Rel Represents (c.apply store b) (c.spec functions f) := by
  have hsome : ∀ {o f'}, (∃ b', o = some b' ∧ Represents b' f') →
      Option.Rel (@Represents bits word) o (some f') := by
    rintro o f' ⟨b', rfl, hb'⟩
    exact .some hb'
  cases c with
  | assign value => exact .some (hb.assign hfit value)
  | fromString text position length zero one =>
    cases text with
    | none => exact .some (hb.resetAll hfit)
    | some text =>
      cases hchars : characters text position length with
      | none =>
        rw [apply, spec, fromString_none hchars, hchars]
        exact .none
      | some chars =>
        rw [spec, hchars]
        exact hsome (hb.fromString hfit hchars zero one)
  | setAll => exact .some (hb.setAll hfit)
  | set position value => exact hsome (hb.set hfit position value)
  | resetAll => exact .some (hb.resetAll hfit)
  | reset position => exact hsome (hb.set hfit position false)
  | flipAll => exact .some (hb.flipAll hfit)
  | flip position => exact hsome (hb.flip hfit position)
  | andAssign other => exact .some (hb.andAssign hfit (h other))
  | orAssign other => exact .some (hb.orAssign hfit (h other))
  | xorAssign other => exact .some (hb.xorAssign hfit (h other))
  | shiftLeftAssign shift => exact .some (hb.shiftLeftAssign hfit shift)
  | shiftRightAssign shift => exact .some (hb.shiftRightAssign hfit shift)

theorem Op.apply_spec (hfit : Fits bits word) (h : RepresentsAll store functions) (op : Op) :
    Option.Rel RepresentsAll (op.apply store) (op.spec functions) := by
  cases op with
  | change x c =>
    rw [apply, spec]
    have hc := c.apply_spec hfit h (h x)
    generalize c.apply store (store x) = b, c.spec functions (functions x) = f at hc
    cases hc with
    | none => exact .none
    | some hb => exact .some (h.update hb)
  | swap x y =>
    have hswap := (h x).swap hfit (h y)
    exact .some ((h.update hswap.1).update hswap.2)

theorem foldlM_spec (hfit : Fits bits word) (h : RepresentsAll store functions) (ops : List Op) :
    Option.Rel RepresentsAll (ops.foldlM Op.apply store) (ops.foldlM Op.spec functions) := by
  induction ops generalizing store functions with
  | nil => exact .some h
  | cons op ops ih =>
    rw [List.foldlM_cons, List.foldlM_cons]
    have hop := op.apply_spec hfit h
    generalize op.apply store = o, op.spec functions = o' at hop
    cases hop with
    | none => exact .none
    | some hstep => exact ih hstep

/-- What the sets of a store show, in terms of the functions that they stand for. -/
structure Agrees (store : ℕ → Bitset bits word) (functions : ℕ → Fin bits → Bool) : Prop where
  represents : RepresentsAll store functions
  count : ∀ x, (store x).count = (List.finRange bits).countP (functions x)
  any : ∀ x, (store x).any = decide (∃ i, functions x i = true)
  none : ∀ x, (store x).none = decide (∀ i, functions x i = false)
  all : ∀ x, (store x).all = some (decide (∀ i, functions x i = true))
  equal : ∀ x y, (store x).equal (store y) = decide (functions x = functions y)
  toString : ∀ x zero one (buffer : List UInt8), bits < buffer.length →
    (store x).toString (some buffer) zero one =
      some (true, some (digits (functions x) zero one ++ 0 :: buffer.drop (bits + 1)))
  refuse : ∀ x zero one buffer, (∀ chars, buffer = some chars → chars.length ≤ bits) →
    (store x).toString buffer zero one = some (false, buffer)
  roundTrip : ∀ x y zero one (buffer : List UInt8) length, zero ≠ 0 → one ≠ 0 → zero ≠ one →
    bits < buffer.length → bits ≤ length → ∃ text,
      (store x).toString (some buffer) zero one = some (true, some text) ∧
      (store y).fromString (some text) 0 length zero one = some (store x)

theorem RepresentsAll.agrees (hfit : Fits bits word) (h : RepresentsAll store functions) :
    Agrees store functions where
  represents := h
  count x := (h x).count hfit
  any x := (h x).any hfit
  none x := (h x).none hfit
  all x := (h x).all hfit
  equal x y := (h x).equal hfit (h y)
  toString x zero one _ hlen := (h x).toString zero one hfit hlen
  refuse _ zero one _ hsmall := toString_refuse hfit zero one hsmall
  roundTrip x y zero one _ _ hzero hone hne hlen hlength :=
    ⟨_, (h x).toString zero one hfit hlen,
      (h x).fromString_toString hfit (h y) hzero hone hne _ hlength⟩

theorem count_of_wordCount_zero (h : wordCount bits word = 0) (b : Bitset bits word) :
    b.count = 0 := by
  have hnone : wordIndices bits word = [] := by
    apply List.eq_nil_iff_forall_not_mem.mpr
    intro i hi
    rw [mem_wordIndices, h] at hi
    omega
  rw [count, hnone, List.map_nil, List.sum_nil]

theorem mul_le_of_not_fits (hfit : ¬ Fits bits word) :
    wordCount bits word * word.width ≤ bits - 1 := by
  have hle := word.le
  have hdiv := Nat.div_mul_le_self ((bits + word.width - 1) % 2 ^ 64) word.width
  unfold Fits at hfit
  have hmod : (bits + word.width - 1) % 2 ^ 64 ≤ bits + word.width - 1 - 2 ^ 64 := by
    rw [Nat.mod_eq_sub_mod (by omega)]
    exact Nat.mod_le _ _
  rw [wordCount, if_neg (by omega)]
  omega

/-- A bit set whose words do not hold `Bits` bits has a position that cannot be set, or one that
is set and not counted. -/
theorem not_agrees_of_not_fits (hfit : ¬ Fits bits word) :
    ¬ Option.Rel Agrees (run [.change 0 (.set (bits - 1) true)] : Option (ℕ → Bitset bits word))
      (specRun [.change 0 (.set (bits - 1) true)]) := by
  intro h
  have hmul := mul_le_of_not_fits hfit
  have hle := word.le
  have hpos : 0 < bits := by
    unfold Fits at hfit
    omega
  have hspec : specRun [.change 0 (.set (bits - 1) true)] = some (Function.update
      (fun _ (_ : Fin bits) => false) 0 fun i => if i.val = bits - 1 then true else false) := rfl
  have hrun : run [.change 0 (.set (bits - 1) true)] = ((init : Bitset bits word).set (bits - 1)
      true).map (Function.update (fun _ => init) 0) := by
    simp only [run, List.foldlM_cons, List.foldlM_nil, Op.apply, Change.apply]
    exact bind_pure _
  rw [hrun, hspec, Bitset.set, if_neg (by omega), Option.bind_eq_bind, wordIndex] at h
  by_cases hword : (bits - 1) / word.width < storageCount bits word
  · rw [dif_pos hword, Option.bind_some] at h
    have hzero : wordCount bits word = 0 := by
      by_contra hcount
      rw [storageCount, if_neg hcount, Nat.div_lt_iff_lt_mul word.pos] at hword
      omega
    cases h with
    | some hagrees =>
      have hcount := hagrees.count 0
      rw [count_of_wordCount_zero hzero, Function.update_self] at hcount
      have hlast := List.countP_eq_zero.mp hcount.symm ⟨bits - 1, by omega⟩ (List.mem_finRange _)
      simp at hlast
  · rw [dif_neg hword] at h
    cases h

/-- The sets of every run stand for the functions of that run exactly when `word_count` words
hold `Bits` bits. -/
theorem run_agrees_iff (bits : ℕ) (word : WordType) :
    (∀ ops : List Op, Option.Rel Agrees (run ops : Option (ℕ → Bitset bits word)) (specRun ops)) ↔
      bits + word.width - 1 < 2 ^ 64 := by
  constructor
  · intro h
    by_contra hfit
    exact not_agrees_of_not_fits hfit (h _)
  · intro hfit ops
    have hrun : Option.Rel RepresentsAll (run ops : Option (ℕ → Bitset bits word)) (specRun ops) :=
      foldlM_spec hfit (fun _ => init_represents hfit) ops
    generalize (run ops : Option (ℕ → Bitset bits word)) = o, specRun ops = o' at hrun
    cases hrun with
    | none => exact .none
    | some h => exact .some (h.agrees hfit)

def uint32 : WordType := ⟨32, Nat.le_of_ble_eq_true rfl, Nat.le_of_ble_eq_true rfl⟩

/-- `castle::bitset<SIZE_MAX>` has no words to count. -/
theorem set_not_counted : ∃ store : ℕ → Bitset (2 ^ 64 - 1) uint32, run [.change 0 (.set 0 true)] =
    some store ∧ (store 0).test 0 = some true ∧ (store 0).count = 0 :=
  ⟨_, rfl, rfl, rfl⟩

end Castle.Utility.Bitset

import Mathlib.Data.Nat.Bitwise
import Mathlib.Tactic.Ring
import Castle.Lib.WordBits
import Castle.Lib.EvictingList
import Castle.Http.Hpack.Coding

/-!
# Representations and the dynamic table (RFC 7541)

A block is a sequence of representations. The dynamic table is a list of fields, the newest
first, that is held to a limit.
-/

namespace Castle.Http.Hpack

/-- The bytes of an integer after the first one: groups of seven bits, the lowest first. -/
def continuationInteger : Bytes → Option (ℕ × Bytes)
  | [] => none
  | c :: s =>
    if c.toNat < 128 then some (c.toNat, s)
    else (continuationInteger s).map fun read => (c.toNat - 128 + 128 * read.1, read.2)

/-- An integer in the lowest `bits` of a byte, or from their largest value on in those after it. -/
def prefixedInteger (bits : ℕ) : Bytes → Option (ℕ × Bytes)
  | [] => none
  | c :: s =>
    if c.toNat % 2 ^ bits < 2 ^ bits - 1 then some (c.toNat % 2 ^ bits, s)
    else (continuationInteger s).map fun read => (2 ^ bits - 1 + read.1, read.2)

/-- The octets of a Huffman code. There are no more of them than bits. -/
def huffmanOctets (data : Bytes) : Option Bytes :=
  match decodeHuffman data (8 * data.length) with
  | (.ok, value) => some value
  | _ => none

/-- A string: its length, and octets or a Huffman code. -/
def stringLiteral : Bytes → Option (Bytes × Bytes)
  | [] => none
  | c :: s =>
    (prefixedInteger 7 (c :: s)).bind fun read =>
      if read.2.length < read.1 then none
      else if c.toNat < 128 then some (read.2.take read.1, read.2.drop read.1)
      else (huffmanOctets (read.2.take read.1)).map fun value => (value, read.2.drop read.1)

inductive FieldName where
  | index (index : ℕ)
  | text (name : Bytes)

inductive Indexing where
  | incremental | without | never
  deriving DecidableEq

inductive Representation where
  | indexed (index : ℕ)
  | literal (indexing : Indexing) (name : FieldName) (value : Bytes)
  | sizeUpdate (size : ℕ)

def fieldName (bits : ℕ) (s : Bytes) : Option (FieldName × Bytes) :=
  (prefixedInteger bits s).bind fun read =>
    if read.1 = 0 then (stringLiteral read.2).map fun name => (.text name.1, name.2)
    else some (.index read.1, read.2)

def literal (indexing : Indexing) (bits : ℕ) (s : Bytes) : Option (Representation × Bytes) :=
  (fieldName bits s).bind fun name =>
    (stringLiteral name.2).map fun value => (.literal indexing name.1 value.1, value.2)

/-- The representation at the beginning of a text, and what follows it. -/
def representation : Bytes → Option (Representation × Bytes)
  | [] => none
  | c :: s =>
    if 128 ≤ c.toNat then (prefixedInteger 7 (c :: s)).map fun read => (.indexed read.1, read.2)
    else if 64 ≤ c.toNat then literal .incremental 6 (c :: s)
    else if 32 ≤ c.toNat then
      (prefixedInteger 5 (c :: s)).map fun read => (.sizeUpdate read.1, read.2)
    else if 16 ≤ c.toNat then literal .never 4 (c :: s)
    else literal .without 4 (c :: s)

inductive Block : Bytes → List Representation → Prop
  | nil : Block [] []
  | cons {s r : Bytes} {rep : Representation} {reps : List Representation}
    (h : representation s = some (rep, r)) (hr : Block r reps) : Block s (rep :: reps)

theorem continuationInteger_length {s r : Bytes} {n : ℕ}
    (h : continuationInteger s = some (n, r)) : r.length < s.length := by
  induction s generalizing n with
  | nil => cases h
  | cons c s ih =>
    rw [continuationInteger] at h
    split at h
    · cases h
      exact Nat.lt_succ_self _
    · obtain ⟨⟨m, r'⟩, hm, he⟩ := Option.map_eq_some_iff.mp h
      cases he
      exact Nat.lt_succ_of_lt (ih hm)

theorem prefixedInteger_length {bits n : ℕ} {s r : Bytes}
    (h : prefixedInteger bits s = some (n, r)) : r.length < s.length := by
  cases s with
  | nil => cases h
  | cons c s =>
    rw [prefixedInteger] at h
    split at h
    · cases h
      exact Nat.lt_succ_self _
    · obtain ⟨⟨m, r'⟩, hm, he⟩ := Option.map_eq_some_iff.mp h
      cases he
      exact Nat.lt_succ_of_lt (continuationInteger_length hm)

theorem stringLiteral_length {s r v : Bytes} (h : stringLiteral s = some (v, r)) :
    r.length < s.length := by
  cases s with
  | nil => cases h
  | cons c s =>
    obtain ⟨⟨n, rest⟩, hread, h⟩ := Option.bind_eq_some_iff.mp h
    have hlen := prefixedInteger_length hread
    dsimp only at h
    split at h
    · cases h
    · split at h
      · cases h
        rw [List.length_drop]
        omega
      · obtain ⟨value, -, he⟩ := Option.map_eq_some_iff.mp h
        cases he
        rw [List.length_drop]
        omega

theorem literal_length {indexing : Indexing} {bits : ℕ} {s r : Bytes} {rep : Representation}
    (h : literal indexing bits s = some (rep, r)) : r.length < s.length := by
  obtain ⟨⟨name, rest⟩, hname, h⟩ := Option.bind_eq_some_iff.mp h
  obtain ⟨⟨value, rest'⟩, hvalue, he⟩ := Option.map_eq_some_iff.mp h
  obtain ⟨⟨n, rest₁⟩, hread, hname⟩ := Option.bind_eq_some_iff.mp hname
  cases he
  have hlen := prefixedInteger_length hread
  have hlen' := stringLiteral_length hvalue
  dsimp only at hname hlen' ⊢
  split at hname
  · obtain ⟨⟨text, rest₂⟩, htext, he⟩ := Option.map_eq_some_iff.mp hname
    have hlen'' := stringLiteral_length htext
    cases he
    dsimp only at hlen' hlen''
    omega
  · cases hname
    omega

theorem representation_length {s r : Bytes} {rep : Representation}
    (h : representation s = some (rep, r)) : r.length < s.length := by
  cases s with
  | nil => cases h
  | cons c s =>
    have hinteger {bits : ℕ} {f : ℕ → Representation}
        (h : ((prefixedInteger bits (c :: s)).map fun read => (f read.1, read.2)) = some (rep, r)) :
        r.length < (c :: s).length := by
      obtain ⟨⟨n, rest⟩, hread, he⟩ := Option.map_eq_some_iff.mp h
      cases he
      exact prefixedInteger_length hread
    rw [representation] at h
    split_ifs at h
    · exact hinteger h
    · exact literal_length h
    · exact hinteger h
    · exact literal_length h
    · exact literal_length h

def entrySize (field : Field) : ℕ := field.name.length + field.value.length + 32

structure Table where
  entries : List Field
  limit : ℕ

namespace Table

/-- The field at an index: static up to 61, and the newest entry at 62. -/
def field (t : Table) (index : ℕ) : Option Field :=
  if index = 0 then none
  else if index ≤ 61 then staticTable[index - 1]?.map staticField
  else t.entries[index - 62]?

def name (t : Table) : FieldName → Option Bytes
  | .index index => (t.field index).map Field.name
  | .text name => some name

def insert (t : Table) (field : Field) : Table :=
  { t with entries := EvictingList.insert entrySize t.limit field t.entries }

def resize (t : Table) (size : ℕ) : Table where
  entries := EvictingList.evictTo entrySize size t.entries
  limit := size

/-- The table and the fields after a representation, when the largest limit is `max`. -/
def apply (max : ℕ) (t : Table) : Representation → Option (Table × List Field)
  | .indexed index => (t.field index).map fun field => (t, [field])
  | .literal indexing name value =>
    (t.name name).map fun name =>
      (if indexing = .incremental then t.insert ⟨name, value⟩ else t, [⟨name, value⟩])
  | .sizeUpdate size => if size ≤ max then some (t.resize size, []) else none

/-- The table and all fields after a sequence of representations. -/
def run (max : ℕ) (t : Table) : List Representation → Option (Table × List Field)
  | [] => some (t, [])
  | rep :: reps =>
    (t.apply max rep).bind fun first =>
      (first.1.run max reps).map fun rest => (rest.1, first.2 ++ rest.2)

theorem run_append (max : ℕ) (t : Table) (reps reps' : List Representation) :
    t.run max (reps ++ reps') = (t.run max reps).bind fun first =>
      (first.1.run max reps').map fun rest => (rest.1, first.2 ++ rest.2) := by
  induction reps generalizing t with
  | nil =>
    simp [run]
  | cons rep reps ih =>
    rw [List.cons_append, run, run, Option.bind_assoc]
    refine Option.bind_congr fun first _ => ?_
    rw [ih, Option.map_bind, Option.bind_map]
    refine Option.bind_congr fun second _ => ?_
    simp [Function.comp_def, Option.map_map]

end Table

/-!
## What the readers accept

A reader that succeeds has read what the representations say.
-/

theorem and_7f (n : ℕ) : n &&& 0x7f = n % 128 := Nat.and_two_pow_sub_one_eq_mod n 7

theorem and_80_eq_zero_iff (c : UInt8) : c &&& 0x80 = 0 ↔ c.toNat < 128 := by
  revert c
  refine WordBits.forall_byte ?_
  set_option maxRecDepth 1000 in
  decide

theorem and_e0_eq_iff (c : UInt8) : c &&& 0xe0 = 0x20 ↔ 32 ≤ c.toNat ∧ c.toNat < 64 := by
  revert c
  refine WordBits.forall_byte ?_
  set_option maxRecDepth 1000 in
  decide

theorem and_c0_eq_iff (c : UInt8) : c &&& 0xc0 = 0x40 ↔ 64 ≤ c.toNat ∧ c.toNat < 128 := by
  revert c
  refine WordBits.forall_byte ?_
  set_option maxRecDepth 1000 in
  decide

theorem readContinuation_ok {count shift value n : ℕ} {s r : Bytes}
    (h : readContinuation count shift value s = (.ok, r, n)) :
    ∃ m, continuationInteger s = some (m, r) ∧ n = value + m * 2 ^ shift ∧ n < 2 ^ 64 := by
  induction s generalizing count shift value with
  | nil => cases count <;> cases h
  | cons c s ih =>
    cases count with
    | zero => cases h
    | succ count =>
      rw [readContinuation] at h
      dsimp only at h
      rw [and_7f, Nat.shiftLeft_eq] at h
      split at h
      · cases h
      next hpart =>
        have haddend : c.toNat % 128 * 2 ^ shift ≤ 2 ^ 64 - 1 := by
          rw [Nat.shiftRight_eq_div_pow, not_lt] at hpart
          exact (Nat.le_div_iff_mul_le (Nat.two_pow_pos shift)).mp hpart
        split at h
        · cases h
        next hroom =>
          rw [continuationInteger]
          split at h
          next hlast =>
            cases h
            rw [and_80_eq_zero_iff] at hlast
            rw [if_pos hlast]
            rw [Nat.mod_eq_of_lt hlast] at hroom haddend ⊢
            exact ⟨_, rfl, rfl, by omega⟩
          next hmore =>
            obtain ⟨m, hm, rfl, hlt⟩ := ih h
            rw [and_80_eq_zero_iff] at hmore
            rw [if_neg hmore, hm]
            refine ⟨_, rfl, ?_, hlt⟩
            have hc := c.toNat_lt
            have hmod : c.toNat % 128 = c.toNat - 128 := by omega
            rw [hmod, Nat.pow_add]
            ring

theorem readInteger_ok {bits n : ℕ} {s r : Bytes} (h : readInteger bits s = (.ok, r, n)) :
    prefixedInteger bits s = some (n, r) := by
  cases s with
  | nil => cases h
  | cons c s =>
    rw [readInteger] at h
    split at h
    · cases h
    · dsimp only at h
      rw [Nat.and_two_pow_sub_one_eq_mod] at h
      rw [prefixedInteger]
      split at h
      next hlt =>
        cases h
        rw [if_pos hlt]
      next hge =>
        obtain ⟨m, hm, rfl, -⟩ := readContinuation_ok h
        have hmod := Nat.mod_lt c.toNat (Nat.two_pow_pos bits)
        rw [if_neg hge, hm, Option.map_some, pow_zero, Nat.mul_one]
        congr 2
        omega

theorem decodeHuffmanLoop_capacity {tree : HuffmanTree} {capacity capacity' node tailBits : ℕ}
    {tailOnes : Bool} {bits : List ℕ} {output value : Bytes}
    (h : decodeHuffmanLoop tree capacity bits node tailBits tailOnes output = (.ok, value))
    (hroom : output.length + bits.length ≤ capacity') :
    decodeHuffmanLoop tree capacity' bits node tailBits tailOnes output = (.ok, value) := by
  induction bits generalizing node tailBits tailOnes output with
  | nil => exact h
  | cons direction bits ih =>
    rw [decodeHuffmanLoop] at h ⊢
    rw [List.length_cons] at hroom
    split at h
    · cases h
    next next =>
      split at h
      · exact ih h (by omega)
      · split at h
        · cases h
        next heos =>
          split at h
          · cases h
          · rw [if_neg heos, if_neg (by omega)]
            refine ih h ?_
            rw [List.length_append, List.length_singleton]
            omega

theorem decodeHuffman_ok {data value : Bytes} {capacity : ℕ}
    (h : decodeHuffman data capacity = (.ok, value)) : huffmanOctets data = some value := by
  have hlen : (data.flatMap bitsOf).length = 8 * data.length := by
    induction data with
    | nil => rfl
    | cons c data ih =>
      rw [List.flatMap_cons, List.length_append, List.length_cons]
      simp [bitsOf] at ih ⊢
      omega
  have hmore : decodeHuffman data (8 * data.length) = (.ok, value) :=
    decodeHuffmanLoop_capacity h (by rw [List.length_nil, hlen, Nat.zero_add])
  rw [huffmanOctets, hmore]

theorem readString_ok {maxStringSize : ℕ} {s r v : Bytes}
    (h : readString maxStringSize s = (.ok, r, v)) : stringLiteral s = some (v, r) := by
  cases s with
  | nil => cases h
  | cons c s =>
    rw [readString] at h
    generalize hread : readInteger 7 (c :: s) = read at h
    obtain ⟨result, rest, size⟩ := read
    dsimp only at h
    split at h
    · cases h
    next hok =>
      simp only [ne_eq, Bool.or_eq_true, decide_eq_true_eq, not_or, not_not, not_lt] at hok
      obtain ⟨rfl, hsize⟩ := hok
      rw [stringLiteral, readInteger_ok hread, Option.bind_some]
      dsimp only
      rw [if_neg (by omega)]
      split at h
      next hhuffman =>
        rw [ne_eq, and_80_eq_zero_iff] at hhuffman
        rw [if_neg hhuffman]
        generalize hdecode : decodeHuffman (rest.take size) maxStringSize = decoded at h
        obtain ⟨result, output⟩ := decoded
        cases h
        rw [decodeHuffman_ok hdecode]
        rfl
      next hraw =>
        rw [not_not, and_80_eq_zero_iff] at hraw
        rw [if_pos hraw]
        split at h
        · cases h
        · cases h
          rfl

end Castle.Http.Hpack

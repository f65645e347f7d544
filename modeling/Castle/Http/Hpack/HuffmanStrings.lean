import Castle.Http.Hpack.Huffman

/-!
# Huffman strings (`hpack.hpp`, `hpack_decode_huffman`)

The encoder is the one of the table: the codes of the octets, and ones up to the end of the last
byte.
-/

namespace Castle.Http.Hpack

/-- The number of bits, the highest first. -/
def numberOf (bits : List Bool) : ℕ := bits.foldl (fun value bit => 2 * value + bit.toNat) 0

def byteOf (bits : List Bool) : UInt8 := UInt8.ofNat (numberOf bits)

/-- Bits in bytes; ones fill the last byte. -/
def packBits : List Bool → Bytes
  | [] => []
  | bit :: bits => byteOf ((bit :: bits ++ List.replicate 7 true).take 8) :: packBits (bits.drop 7)
termination_by bits => bits.length

def codesOf (value : Bytes) : List Bool := value.flatMap fun byte => huffmanCode byte.toNat

def huffmanEncode (value : Bytes) : Bytes := packBits (codesOf value)

/-- The rest of a string behind its last code. -/
structure Padding (bits : List Bool) : Prop where
  short : bits.length < 8
  ones : ∀ bit ∈ bits, bit = true

variable (bits : List Bool)

theorem numberOf_concat (bit : Bool) :
    numberOf (bits ++ [bit]) = 2 * numberOf bits + bit.toNat := by
  rw [numberOf, List.foldl_append, List.foldl_cons, List.foldl_nil, numberOf]

theorem codeBits_double (code : ℕ) (bit : Bool) (bits : ℕ) :
    codeBits (2 * code + bit.toNat) (bits + 1) = codeBits code bits ++ [bit] := by
  induction bits with
  | zero => cases bit <;> simp [codeBits]
  | succ bits ih =>
    have hhalf : (2 * code + bit.toNat) / 2 = code := by
      have hbit := bit.toNat_lt
      omega
    rw [codeBits, ih, codeBits, List.cons_append, Nat.testBit_succ, hhalf]

theorem codeBits_numberOf : codeBits (numberOf bits) bits.length = bits := by
  induction bits using List.reverseRecOn with
  | nil => rfl
  | append_singleton bits bit ih =>
    rw [numberOf_concat, List.length_append, List.length_singleton, codeBits_double, ih]

theorem numberOf_lt : numberOf bits < 2 ^ bits.length := by
  induction bits using List.reverseRecOn with
  | nil => decide
  | append_singleton bits bit ih =>
    rw [numberOf_concat, List.length_append, List.length_singleton, Nat.pow_succ]
    have hbit := bit.toNat_le
    omega

theorem numberOf_codeBits (code bits : ℕ) : numberOf (codeBits code bits) = code % 2 ^ bits := by
  have hfold : ∀ value, (codeBits code bits).foldl (fun value bit => 2 * value + bit.toNat) value =
      value * 2 ^ bits + code % 2 ^ bits := by
    induction bits with
    | zero => simp [codeBits, Nat.mod_one]
    | succ bits ih =>
      intro value
      rw [codeBits, List.foldl_cons, ih, Nat.mod_pow_succ, Nat.toNat_testBit, Nat.pow_succ, Nat.add_mul,
        Nat.mul_comm (code / 2 ^ bits % 2), Nat.mul_comm 2 value, Nat.mul_assoc value, Nat.mul_comm 2 (2 ^ bits)]
      omega
  rw [numberOf, hfold, Nat.zero_mul, Nat.zero_add]

theorem byteBits_byteOf {bits : List Bool} (h : bits.length = 8) : byteBits (byteOf bits) = bits := by
  have hlt := numberOf_lt bits
  rw [h] at hlt
  rw [byteBits, byteOf, UInt8.toNat_ofNat_of_lt' hlt]
  exact h ▸ codeBits_numberOf bits

theorem byteOf_byteBits (byte : UInt8) : byteOf (byteBits byte) = byte := by
  rw [byteOf, byteBits, numberOf_codeBits, Nat.mod_eq_of_lt byte.toNat_lt, UInt8.ofNat_toNat]

theorem flatMap_byteBits_injective : Function.Injective fun input : Bytes => input.flatMap byteBits := by
  intro input
  induction input with
  | nil =>
    intro other h
    cases other with
    | nil => rfl
    | cons byte other => cases h
  | cons byte input ih =>
    intro other h
    cases other with
    | nil => cases h
    | cons byte' other =>
      dsimp only at h
      rw [List.flatMap_cons, List.flatMap_cons] at h
      obtain ⟨hbyte, hrest⟩ := List.append_inj h rfl
      have hsame := congrArg byteOf hbyte
      rw [byteOf_byteBits, byteOf_byteBits] at hsame
      rw [hsame, ih hrest]

theorem length_flatMap_byteBits (input : Bytes) : (input.flatMap byteBits).length = 8 * input.length := by
  induction input with
  | nil => rfl
  | cons byte input ih =>
    rw [List.flatMap_cons, List.length_append, ih, length_byteBits, List.length_cons]
    omega

theorem flatMap_packBits :
    ∃ pad, (packBits bits).flatMap byteBits = bits ++ List.replicate pad true ∧ pad < 8 := by
  induction bits using packBits.induct with
  | case1 => exact ⟨0, by rw [packBits]; rfl, by decide⟩
  | case2 bit bits ih =>
    obtain ⟨pad, hpad, hlt⟩ := ih
    have hfirst : (bit :: bits ++ List.replicate 7 true).take 8 =
        bit :: (bits.take 7 ++ List.replicate (7 - bits.length) true) := by
      rw [List.cons_append, List.take_succ_cons, List.take_append, List.take_replicate, Nat.min_eq_left (by omega)]
    rw [packBits, List.flatMap_cons, hpad, hfirst, byteBits_byteOf]
    · by_cases hlong : 7 ≤ bits.length
      · refine ⟨pad, ?_, hlt⟩
        rw [Nat.sub_eq_zero_of_le hlong, List.replicate_zero, List.append_nil, List.cons_append, ← List.append_assoc,
          List.take_append_drop, List.cons_append]
      · refine ⟨7 - bits.length, ?_, by omega⟩
        rw [List.drop_of_length_le (by omega)] at hpad ⊢
        rw [packBits, List.flatMap_nil] at hpad
        rw [← hpad, List.append_nil, List.take_of_length_le (by omega), List.cons_append]
    · rw [List.length_cons, List.length_append, List.length_take, List.length_replicate]
      omega

theorem huffmanEncode_iff (input value : Bytes) :
    input = huffmanEncode value ↔ ∃ pad, input.flatMap byteBits = codesOf value ++ pad ∧ Padding pad := by
  obtain ⟨pad, hpad, hlt⟩ := flatMap_packBits (codesOf value)
  constructor
  · rintro rfl
    refine ⟨_, hpad, ⟨?_, ?_⟩⟩
    · rwa [List.length_replicate]
    · exact fun bit hbit => List.eq_of_mem_replicate hbit
  · rintro ⟨pad', hpad', hshort, hones⟩
    apply flatMap_byteBits_injective
    dsimp only
    rw [huffmanEncode, hpad, hpad', List.eq_replicate_of_mem hones]
    have hlength := length_flatMap_byteBits input
    have hlength' := length_flatMap_byteBits (packBits (codesOf value))
    rw [hpad', List.length_append] at hlength
    rw [hpad, List.length_append, List.length_replicate] at hlength'
    congr 2
    omega

theorem length_huffmanCode_le {symbol : ℕ} (h : symbol < 257) : (huffmanCode symbol).length ≤ 30 := by
  have hall : ∀ bits ∈ huffmanLengths, bits ≤ 30 := by set_option maxRecDepth 2000 in decide
  have hlength : ∀ code bits, (codeBits code bits).length = bits := by
    intro code bits
    induction bits with
    | zero => rfl
    | succ bits ih => rw [codeBits, List.length_cons, ih]
  rw [← length_huffmanLengths] at h
  rw [huffmanCode, hlength, List.getD_eq_getElem _ _ h]
  exact hall _ (List.getElem_mem h)

variable {path : List Bool}

theorem length_le_of_mem_paths (h : path ∈ codeTree.paths) : path.length ≤ 30 := by
  obtain ⟨rest, symbol, hleaf⟩ := CodeTree.exists_leaf_of_mem_paths h
  obtain ⟨hlt, hcode⟩ := huffmanCode_of_mem hleaf
  have hle := length_huffmanCode_le hlt
  rw [← hcode, List.length_append] at hle
  omega

theorem padding_iff {bits : List Bool} : Padding bits ↔ bits.length ≤ 7 ∧ bits.all id = true := by
  rw [List.all_eq_true]
  exact ⟨fun h => ⟨Nat.le_of_lt_succ h.short, h.ones⟩, fun h => ⟨Nat.lt_succ_of_le h.1, h.2⟩⟩

theorem Padding.no_code {pad : List Bool} (h : Padding pad) {symbol : ℕ} (hsymbol : symbol < 257) :
    ¬huffmanCode symbol <+: pad := by
  intro hpre
  have hle := hpre.length_le
  have hshort := h.short
  have hpad : pad <+: huffmanCode endOfString := by
    rw [endOfString_code, List.eq_replicate_of_mem h.ones]
    exact ⟨List.replicate (30 - pad.length) true, by rw [List.replicate_append_replicate]; congr 1; omega⟩
  have hsame := (CodeTree.leaf_prefix_eq (huffmanCode_mem hsymbol) (huffmanCode_mem (by decide))
    (hpre.trans hpad) (List.prefix_refl _)).1
  rw [hsame, endOfString_code, List.length_replicate] at hle
  omega

theorem root_not_leaf (symbol : ℕ) : ([], symbol) ∉ codeTree.leaves := by
  intro hleaf
  have hsame := (CodeTree.leaf_prefix_eq hleaf (huffmanCode_mem (show endOfString < 257 by decide))
    (List.nil_prefix (l := huffmanCode endOfString)) (List.prefix_refl _)).1
  rw [endOfString_code] at hsame
  cases hsame

theorem codesOf_cons (byte : UInt8) (value : Bytes) :
    codesOf (byte :: value) = huffmanCode byte.toNat ++ codesOf value := by
  rw [codesOf, List.flatMap_cons, codesOf]

theorem byte_lt (byte : UInt8) : byte.toNat < 257 := Nat.lt_succ_of_lt byte.toNat_lt

/-- What is behind the codes read so far, from a path inside the tree. -/
def Reads (text : List Bool) (output : Bytes) (capacity : ℕ) (value : Bytes) : Prop :=
  ∃ rest pad, text = codesOf rest ++ pad ∧ Padding pad ∧ value = output ++ rest ∧ value.length ≤ capacity

theorem reads_inner (hpath : path ∈ codeTree.paths)
    (hinner : ∀ symbol, (path, symbol) ∉ codeTree.leaves) {output value : Bytes} {capacity : ℕ}
    (hroom : output.length ≤ capacity) :
    Reads path output capacity value ↔ Padding path ∧ value = output := by
  constructor
  · rintro ⟨rest, pad, htext, hpad, rfl, _⟩
    cases rest with
    | nil => exact ⟨by rwa [htext], List.append_nil _⟩
    | cons byte rest =>
      have hleaf := huffmanCode_mem (byte_lt byte)
      rw [codesOf_cons, List.append_assoc] at htext
      have hnil := CodeTree.eq_nil_of_leaf hleaf (htext ▸ hpath)
      rw [hnil, List.append_nil] at htext
      exact absurd (htext ▸ hleaf) (hinner _)
  · rintro ⟨hpad, rfl⟩
    exact ⟨[], path, rfl, hpad, (List.append_nil _).symm, hroom⟩

theorem reads_code {symbol : ℕ} (hsymbol : symbol < 257) {text : List Bool} {output value : Bytes} {capacity : ℕ} :
    Reads (huffmanCode symbol ++ text) output capacity value ↔
      symbol ≠ endOfString ∧ output.length < capacity ∧ Reads text (output ++ [UInt8.ofNat symbol]) capacity value := by
  constructor
  · rintro ⟨rest, pad, htext, hpad, rfl, hlength⟩
    cases rest with
    | nil => exact absurd ⟨text, htext⟩ (hpad.no_code hsymbol)
    | cons byte rest =>
      rw [codesOf_cons, List.append_assoc] at htext
      have hsame := (CodeTree.leaf_prefix_eq (huffmanCode_mem hsymbol) (huffmanCode_mem (byte_lt byte))
        ⟨_, rfl⟩ ⟨_, htext.symm⟩).2
      subst hsame
      have hbyte := byte.toNat_lt
      rw [List.length_append, List.length_cons] at hlength
      refine ⟨by rw [endOfString]; omega, by omega, rest, pad, List.append_cancel_left htext, hpad, ?_, ?_⟩
      · rw [UInt8.ofNat_toNat, List.append_assoc, List.singleton_append]
      · rw [List.length_append, List.length_cons]
        omega
  · rintro ⟨hend, hlt, rest, pad, rfl, hpad, rfl, hlength⟩
    refine ⟨UInt8.ofNat symbol :: rest, pad, ?_, hpad, ?_, hlength⟩
    · rw [endOfString] at hend
      rw [codesOf_cons, UInt8.toNat_ofNat_of_lt' (show symbol < 256 by omega), List.append_assoc]
    · rw [List.append_assoc, List.singleton_append]

theorem decodeHuffmanLoop_iff {tree : HuffmanTree} {labels : List (List Bool)} {done : List (List Bool × ℕ)}
    (htree : tree.Labelled labels done)
    (hlabels : ∀ path, path ∈ labels ↔ path ∈ codeTree.paths)
    (hdone : ∀ path symbol, (path, symbol) ∈ done ↔ (path, symbol) ∈ codeTree.leaves) {capacity : ℕ}
    (value : Bytes) (bits : List Bool) {i : ℕ} {output : Bytes} (hi : labels[i]? = some path)
    (hinner : ∀ symbol, (path, symbol) ∉ codeTree.leaves) (hroom : output.length ≤ capacity) :
    decodeHuffmanLoop tree capacity (bits.map Bool.toNat) i path.length (path.all id) output = (.ok, value) ↔
      Reads (path ++ bits) output capacity value := by
  induction bits generalizing i path output with
  | nil =>
    have hpath := (hlabels path).mp (List.mem_of_getElem? hi)
    have htail : (decide (i ≠ 0) && (decide (path.length > 7) || !path.all id)) = true ↔ ¬Padding path := by
      rw [padding_iff]
      by_cases hzero : i = 0
      · subst hzero
        have hroot : path = [] := Option.some_inj.mp (hi.symm.trans htree.root)
        simp [hroot]
      · have hshort : path.length > 7 ↔ ¬path.length ≤ 7 := Nat.not_le.symm
        simp only [ne_eq, hzero, not_false_eq_true, decide_true, Bool.true_and, Bool.or_eq_true, decide_eq_true_eq,
          hshort, not_and_or, Bool.not_eq_true, Bool.not_eq_eq_eq_not, Bool.not_true]
    rw [List.append_nil, reads_inner hpath hinner hroom, List.map_nil, decodeHuffmanLoop]
    split
    next hbad =>
      have hnot := htail.mp hbad
      simp [hnot]
    next hgood =>
      have hpad : Padding path := by
        by_contra hnot
        exact hgood (htail.mpr hnot)
      simp [hpad, eq_comm]
  | cons bit bits ih =>
    have hpath := (hlabels path).mp (List.mem_of_getElem? hi)
    have hnext := CodeTree.mem_paths_concat hpath hinner bit
    obtain ⟨next, hlabel⟩ := List.mem_iff_getElem?.mp ((hlabels _).mpr hnext)
    have hchild := (htree.child_iff i path hi bit next).mpr hlabel
    have htail : (path.length + 1) % 256 = (path ++ [bit]).length := by
      have hle := length_le_of_mem_paths hpath
      rw [List.length_append, List.length_singleton]
      omega
    have hones : (path.all id && decide (bit.toNat = 1)) = (path ++ [bit]).all id := by
      rw [List.all_append]
      cases bit <;> simp
    have htext : path ++ bit :: bits = path ++ [bit] ++ bits := by rw [List.append_assoc, List.singleton_append]
    rw [List.map_cons, decodeHuffmanLoop, htail, hones, htext]
    simp only [hchild]
    cases hsymbol : (tree.node next).symbol with
    | none =>
      refine ih hlabel ?_ hroom
      intro symbol hleaf
      rw [← hdone, ← htree.symbol_iff next _ hlabel, hsymbol] at hleaf
      cases hleaf
    | some symbol =>
      have hleaf := (hdone _ _).mp ((htree.symbol_iff next _ hlabel symbol).mp hsymbol)
      obtain ⟨hlt, hcode⟩ := huffmanCode_of_mem hleaf
      rw [hcode, reads_code hlt]
      dsimp only
      by_cases hend : symbol = 256
      · rw [if_pos hend]
        simp [hend, endOfString]
      · rw [if_neg hend]
        by_cases hfull : capacity ≤ output.length
        · rw [if_pos hfull]
          have hnot : ¬output.length < capacity := by omega
          simp [hnot]
        · rw [if_neg hfull]
          have hroom' : (output ++ [UInt8.ofNat symbol]).length ≤ capacity := by
            rw [List.length_append, List.length_singleton]
            omega
          have hstep := ih htree.root root_not_leaf hroom'
          rw [List.nil_append] at hstep
          rw [← hstep, endOfString]
          constructor
          · exact fun h => ⟨hend, by omega, h⟩
          · exact fun h => h.2.2

theorem decodeHuffman_iff (input : Bytes) (capacity : ℕ) (value : Bytes) :
    decodeHuffman input capacity = (.ok, value) ↔ input = huffmanEncode value ∧ value.length ≤ capacity := by
  obtain ⟨labels, done, htree, hlabels, hdone⟩ := HuffmanTree.huffmanTree_labelled
  have hroom : ([] : Bytes).length ≤ capacity := Nat.zero_le capacity
  have hloop := decodeHuffmanLoop_iff htree hlabels hdone value (input.flatMap byteBits) htree.root root_not_leaf hroom
  rw [decodeHuffman, flatMap_bitsOf, huffmanEncode_iff]
  refine hloop.trans ?_
  constructor
  · rintro ⟨rest, pad, htext, hpad, rfl, hlength⟩
    exact ⟨⟨pad, htext, hpad⟩, hlength⟩
  · rintro ⟨⟨pad, htext, hpad⟩, hlength⟩
    exact ⟨value, pad, htext, hpad, rfl, hlength⟩

/-- What is behind the last code decides: the end of a string, too much padding or a zero in it. -/
theorem decodeHuffman_status {input value : Bytes} {pad : List Bool} (capacity : ℕ)
    (htext : input.flatMap byteBits = codesOf value ++ pad) (hrest : ∀ byte : UInt8, ¬huffmanCode byte.toNat <+: pad) :
    (decodeHuffman input capacity).1 = .ok ↔ value.length ≤ capacity ∧ Padding pad := by
  constructor
  · intro hok
    have hdecode : decodeHuffman input capacity = (.ok, (decodeHuffman input capacity).2) := Prod.ext hok rfl
    obtain ⟨hinput, hlength⟩ := (decodeHuffman_iff _ _ _).mp hdecode
    obtain ⟨pad', htext', hpad'⟩ := (huffmanEncode_iff _ _).mp hinput
    obtain ⟨hvalue, hpad⟩ := CodeTree.codes_unique (fun _ _ => UInt8.toNat_inj.mp) (fun b => huffmanCode_mem (byte_lt b))
      (fun b _ => hrest b) (fun b _ => hpad'.no_code (byte_lt b)) (htext.symm.trans htext')
    exact ⟨hvalue ▸ hlength, hpad ▸ hpad'⟩
  · rintro ⟨hlength, hpad⟩
    rw [(decodeHuffman_iff _ _ _).mpr ⟨(huffmanEncode_iff _ _).mpr ⟨pad, htext, hpad⟩, hlength⟩]

namespace HuffmanTree

/-- The node that directions lead to. -/
def walk (tree : HuffmanTree) : ℕ → List ℕ → Option ℕ
  | node, [] => some node
  | node, direction :: directions =>
    ((tree.node node).child direction).bind fun next => tree.walk next directions

theorem Labelled.child_lt {tree : HuffmanTree} {labels : List (List Bool)} {done : List (List Bool × ℕ)}
    (h : tree.Labelled labels done) {i direction next : ℕ} (hi : i < tree.count)
    (hchild : (tree.node i).child direction = some next) : next < tree.count := by
  rw [h.count] at hi ⊢
  have hbit : (tree.node i).child direction = (tree.node i).child (decide (direction ≠ 0)).toNat := by
    by_cases hzero : direction = 0 <;> simp [HuffmanNode.child, hzero]
  rw [hbit] at hchild
  have hlabel := (h.child_iff i _ (List.getElem?_eq_getElem hi) _ _).mp hchild
  exact (List.getElem?_eq_some_iff.mp hlabel).1

theorem Labelled.walk_lt {tree : HuffmanTree} {labels : List (List Bool)} {done : List (List Bool × ℕ)}
    (h : tree.Labelled labels done) (directions : List ℕ) {i node : ℕ} (hi : i < tree.count)
    (hwalk : tree.walk i directions = some node) : node < tree.count := by
  induction directions generalizing i with
  | nil =>
    cases hwalk
    exact hi
  | cons direction directions ih =>
    obtain ⟨next, hchild, hrest⟩ := Option.bind_eq_some_iff.mp hwalk
    exact ih (h.child_lt hi hchild) hrest

theorem buildTo_inside {symbols : ℕ} (h : symbols ≤ 257) : (buildTo symbols).count ≤ (buildTo symbols).nodes.length ∧
    ∀ directions node, (buildTo symbols).walk 0 directions = some node → node < (buildTo symbols).count := by
  obtain ⟨labels, done, hlabelled, _⟩ := buildTo_labelled h
  have hle := hlabelled.count_le
  have hroot := (List.getElem?_eq_some_iff.mp hlabelled.root).1
  have hcount := hlabelled.count
  constructor
  · rw [hlabelled.size, huffmanNodeCapacity]
    omega
  · exact fun directions node => hlabelled.walk_lt directions (by omega)

end HuffmanTree

/-- Huffman strings are decoded to what was encoded, and nothing else is accepted; neither the
table nor a walk leaves the array of nodes. -/
theorem huffman_strings :
    (∀ input capacity value, decodeHuffman input capacity = (.ok, value) ↔
      input = huffmanEncode value ∧ value.length ≤ capacity) ∧
    (∀ value, ∃ pad, (huffmanEncode value).flatMap byteBits = codesOf value ++ pad ∧ Padding pad) ∧
    (∀ (input value : Bytes) (pad : List Bool) (capacity : ℕ), input.flatMap byteBits = codesOf value ++ pad →
      (∀ byte : UInt8, ¬huffmanCode byte.toNat <+: pad) →
      ((decodeHuffman input capacity).1 = .ok ↔ value.length ≤ capacity ∧ Padding pad)) ∧
    HuffmanTree.buildTo 257 = huffmanTree ∧
    ∀ symbols ≤ 257, (HuffmanTree.buildTo symbols).count ≤ (HuffmanTree.buildTo symbols).nodes.length ∧
      ∀ directions node, (HuffmanTree.buildTo symbols).walk 0 directions = some node →
        node < (HuffmanTree.buildTo symbols).count := by
  refine ⟨decodeHuffman_iff, ?_, ?_, HuffmanTree.buildTo_build, fun symbols h => HuffmanTree.buildTo_inside h⟩
  · exact fun value => (huffmanEncode_iff _ _).mp rfl
  · exact fun input value pad capacity htext hrest => decodeHuffman_status capacity htext hrest

end Castle.Http.Hpack

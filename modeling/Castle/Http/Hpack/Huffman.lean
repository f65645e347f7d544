import Castle.Lib.PrefixCode
import Castle.Http.Hpack.Coding
import Mathlib.Data.Nat.Bitwise
import Mathlib.Data.List.Perm.Subperm

/-!
# Huffman codes (`hpack.hpp`, `build_huffman_tree` and `hpack_decode_huffman`)

The codes of the table are the paths to the leaves of a full binary tree.
-/

namespace Castle.Http.Hpack

/-- The lowest bits of a code, the highest of them first. -/
def codeBits (code : ℕ) : ℕ → List Bool
  | 0 => []
  | bit + 1 => code.testBit bit :: codeBits code bit

/-- The code of a symbol; 256 is the end of a string. -/
def huffmanCode (symbol : ℕ) : List Bool :=
  codeBits (huffmanCodes.getD symbol 0) (huffmanLengths.getD symbol 0)

def endOfString : ℕ := 256

def codeTable : List (List Bool × ℕ) := (List.range 257).map fun symbol => (huffmanCode symbol, symbol)

theorem length_huffmanCodes : huffmanCodes.length = 257 := by set_option maxRecDepth 2000 in decide

theorem length_huffmanLengths : huffmanLengths.length = 257 := by set_option maxRecDepth 2000 in decide

theorem codeTable_eq : codeTable = (huffmanCodes.zip (huffmanLengths.zip (List.range 257))).map
    fun entry => (codeBits entry.1 entry.2.1, entry.2.2) := by
  apply List.ext_getElem
  · simp [codeTable, length_huffmanCodes, length_huffmanLengths]
  · intro i hi _
    rw [codeTable, List.length_map, List.length_range] at hi
    simp [codeTable, huffmanCode, length_huffmanCodes, length_huffmanLengths, hi]

theorem codeTable_fills : (CodeTree.ofCodes 31 codeTable).isSome = true := by
  rw [codeTable_eq]
  set_option maxRecDepth 1000 in
  decide

def codeTree : CodeTree ℕ := (CodeTree.ofCodes 31 codeTable).get codeTable_fills

theorem codeTree_leaves : codeTree.leaves.Perm codeTable :=
  CodeTree.ofCodes_leaves (Option.some_get codeTable_fills).symm

theorem codeTree_length_paths : codeTree.paths.length = 513 := by
  have hpaths := codeTree.length_paths
  have hleaves := codeTree_leaves.length_eq
  rw [codeTable, List.length_map, List.length_range] at hleaves
  omega

theorem huffmanCode_mem {symbol : ℕ} (h : symbol < 257) : (huffmanCode symbol, symbol) ∈ codeTree.leaves := by
  rw [codeTree_leaves.mem_iff, codeTable, List.mem_map]
  exact ⟨symbol, List.mem_range.mpr h, rfl⟩

theorem huffmanCode_of_mem {path : List Bool} {symbol : ℕ} (h : (path, symbol) ∈ codeTree.leaves) :
    symbol < 257 ∧ path = huffmanCode symbol := by
  rw [codeTree_leaves.mem_iff, codeTable, List.mem_map] at h
  obtain ⟨s, hs, heq⟩ := h
  cases heq
  exact ⟨List.mem_range.mp hs, rfl⟩

theorem endOfString_code : huffmanCode endOfString = List.replicate 30 true := by
  decide

theorem toNat_testBit (code bit : ℕ) : (code.testBit bit).toNat = (code >>> bit) &&& 1 := by
  rw [Nat.toNat_testBit, Nat.and_one_is_mod, Nat.shiftRight_eq_div_pow]

/-- The bits of a byte, the highest first. -/
def byteBits (byte : UInt8) : List Bool := codeBits byte.toNat 8

theorem bitsOf_eq (byte : UInt8) : bitsOf byte = (byteBits byte).map Bool.toNat := by
  have hrange : List.range 8 = [0, 1, 2, 3, 4, 5, 6, 7] := by decide
  rw [bitsOf, hrange, byteBits]
  simp only [codeBits, List.map_cons, List.map_nil, toNat_testBit]

theorem flatMap_bitsOf (input : Bytes) : input.flatMap bitsOf = (input.flatMap byteBits).map Bool.toNat := by
  rw [List.map_flatMap]
  congr 1
  funext byte
  exact bitsOf_eq byte

theorem length_byteBits (byte : UInt8) : (byteBits byte).length = 8 := rfl

namespace HuffmanTree

/-- The nodes in use are labelled with the paths to them. -/
structure Labelled (tree : HuffmanTree) (labels : List (List Bool)) (done : List (List Bool × ℕ)) : Prop where
  count : tree.count = labels.length
  size : tree.nodes.length = huffmanNodeCapacity
  root : labels[0]? = some []
  nodup : labels.Nodup
  inside : labels ⊆ codeTree.paths
  closed : ∀ path bit, path ++ [bit] ∈ labels → path ∈ labels
  child_iff : ∀ i path, labels[i]? = some path → ∀ bit next,
    (tree.node i).child (Bool.toNat bit) = some next ↔ labels[next]? = some (path ++ [bit])
  symbol_iff : ∀ i path, labels[i]? = some path → ∀ symbol,
    (tree.node i).symbol = some symbol ↔ (path, symbol) ∈ done
  reached : ∀ path symbol, (path, symbol) ∈ done → path ∈ labels
  unused : ∀ i, labels.length ≤ i → tree.node i = {}

namespace Labelled

variable {tree : HuffmanTree} {labels : List (List Bool)} {done : List (List Bool × ℕ)}

theorem count_le (h : tree.Labelled labels done) : labels.length ≤ 513 := by
  rw [← codeTree_length_paths]
  exact (List.Nodup.subperm h.nodup h.inside).length_le

variable {path : List Bool}

theorem lt_capacity (h : tree.Labelled labels done) {i : ℕ} (hi : labels[i]? = some path) :
    i < tree.nodes.length := by
  have hlt := (List.getElem?_eq_some_iff.mp hi).1
  have hle := h.count_le
  rw [h.size, huffmanNodeCapacity]
  omega

theorem closed_append (h : tree.Labelled labels done) {rest : List Bool}
    (hmem : path ++ rest ∈ labels) : path ∈ labels := by
  induction rest using List.reverseRecOn with
  | nil => rwa [List.append_nil] at hmem
  | append_singleton rest bit ih =>
    rw [← List.append_assoc] at hmem
    exact ih (h.closed _ bit hmem)

theorem label_inj (h : tree.Labelled labels done) {i j : ℕ} (hi : labels[i]? = some path)
    (hj : labels[j]? = some path) : i = j := by
  obtain ⟨_, hi⟩ := List.getElem?_eq_some_iff.mp hi
  obtain ⟨_, hj⟩ := List.getElem?_eq_some_iff.mp hj
  exact h.nodup.getElem_inj_iff.mp (hi.trans hj.symm)

theorem not_mem_of_child (h : tree.Labelled labels done) {i : ℕ} {bit : Bool}
    (hi : labels[i]? = some path) (hchild : (tree.node i).child bit.toNat = none) :
    path ++ [bit] ∉ labels := by
  intro hmem
  obtain ⟨next, hnext⟩ := List.mem_iff_getElem?.mp hmem
  rw [(h.child_iff i path hi bit next).mpr hnext] at hchild
  cases hchild

end Labelled

theorem node_modify {tree : HuffmanTree} {i : ℕ} (hi : i < tree.nodes.length) (f : HuffmanNode → HuffmanNode)
    (count j : ℕ) : (HuffmanTree.mk (tree.nodes.modify i f) count).node j =
      if j = i then f (tree.node i) else tree.node j := by
  simp only [node, List.getElem?_modify]
  split
  next h =>
    subst h
    rw [if_pos rfl, List.getElem?_eq_getElem hi]
    rfl
  next h =>
    rw [if_neg (Ne.symm h)]
    cases tree.nodes[j]? <;> rfl

end HuffmanTree

theorem HuffmanNode.setChild_child (n : HuffmanNode) (bit bit' : Bool) (next : ℕ) :
    (n.setChild bit.toNat next).child bit'.toNat = if bit' = bit then some next else n.child bit'.toNat := by
  cases bit <;> cases bit' <;> rfl

theorem HuffmanNode.setChild_symbol (n : HuffmanNode) (direction next : ℕ) :
    (n.setChild direction next).symbol = n.symbol := by
  rw [setChild]
  split <;> rfl

theorem getElem?_concat {labels : List (List Bool)} {path last : List Bool} {i : ℕ} :
    (labels ++ [last])[i]? = some path ↔ labels[i]? = some path ∨ i = labels.length ∧ path = last := by
  rcases Nat.lt_trichotomy i labels.length with hlt | rfl | hlt
  · rw [List.getElem?_append_left hlt]
    constructor
    · exact .inl
    · rintro (h | ⟨h, _⟩)
      · exact h
      · omega
  · rw [List.getElem?_append_right (Nat.le_refl _), Nat.sub_self, List.getElem?_cons_zero,
      List.getElem?_eq_none (Nat.le_refl _)]
    simp [eq_comm]
  · rw [List.getElem?_eq_none (by rw [List.length_append, List.length_singleton]; omega),
      List.getElem?_eq_none (by omega)]
    simp only [reduceCtorEq, false_or, false_iff]
    rintro ⟨h, _⟩
    omega

namespace HuffmanTree
namespace Labelled

variable {tree : HuffmanTree} {labels : List (List Bool)} {done : List (List Bool × ℕ)}

variable {path : List Bool}

theorem extend (h : tree.Labelled labels done) {i : ℕ} {bit : Bool} (hi : labels[i]? = some path)
    (hchild : (tree.node i).child bit.toNat = none) (hpath : path ++ [bit] ∈ codeTree.paths) :
    (HuffmanTree.mk (tree.nodes.modify i fun n => n.setChild bit.toNat tree.count) (tree.count + 1)).Labelled
      (labels ++ [path ++ [bit]]) done := by
  have hnew := h.not_mem_of_child hi hchild
  have hsize := h.lt_capacity hi
  have hlt := (List.getElem?_eq_some_iff.mp hi).1
  have hmem : path ∈ labels := List.mem_of_getElem? hi
  refine ⟨?_, ?_, ?_, ?_, ?_, ?_, ?_, ?_, ?_, ?_⟩
  · rw [List.length_append, List.length_singleton, h.count]
  · rw [List.length_modify, h.size]
  · exact getElem?_concat.mpr (.inl h.root)
  · rw [List.nodup_append]
    refine ⟨h.nodup, List.nodup_singleton _, ?_⟩
    rintro p hp q hq rfl
    exact hnew (List.mem_singleton.mp hq ▸ hp)
  · intro p hp
    rcases List.mem_append.mp hp with hp | hp
    · exact h.inside hp
    · rw [List.mem_singleton.mp hp]
      exact hpath
  · intro p b hp
    rcases List.mem_append.mp hp with hp | hp
    · exact List.mem_append_left _ (h.closed p b hp)
    · rw [List.mem_singleton] at hp
      rw [(List.append_inj' hp rfl).1]
      exact List.mem_append_left _ hmem
  · intro j p hj b next
    rw [node_modify hsize, getElem?_concat]
    rcases getElem?_concat.mp hj with hold | ⟨rfl, rfl⟩
    · have hbefore := h.child_iff j p hold b next
      by_cases hji : j = i
      · subst hji
        have hp : p = path := Option.some_inj.mp (hold.symm.trans hi)
        subst hp
        rw [if_pos rfl, HuffmanNode.setChild_child]
        by_cases hb : b = bit
        · subst hb
          rw [if_pos rfl, Option.some_inj, h.count]
          constructor
          · rintro rfl
            exact .inr ⟨rfl, rfl⟩
          · rintro (hnext | ⟨hnext, _⟩)
            · exact absurd (List.mem_of_getElem? hnext) hnew
            · exact hnext.symm
        · rw [if_neg hb, hbefore]
          constructor
          · exact .inl
          · rintro (hnext | ⟨_, hsame⟩)
            · exact hnext
            · have hbits := (List.append_inj' hsame rfl).2
              cases hbits
              exact absurd rfl hb
      · rw [if_neg hji, hbefore]
        constructor
        · exact .inl
        · rintro (hnext | ⟨_, hsame⟩)
          · exact hnext
          · -- only the node of the path itself has the new child
            have hpaths := (List.append_inj' hsame rfl).1
            subst hpaths
            exact absurd (h.label_inj hold hi) hji
    · rw [if_neg (by omega), h.unused _ (Nat.le_refl _)]
      constructor
      · intro hnone
        cases b <;> cases hnone
      · rintro (hnext | ⟨_, hsame⟩)
        · exact absurd (h.closed _ _ (List.mem_of_getElem? hnext)) hnew
        · have hlength := congrArg List.length hsame
          simp only [List.length_append, List.length_singleton] at hlength
          omega
  · intro j p hj symbol
    rw [node_modify hsize]
    rcases getElem?_concat.mp hj with hj | ⟨rfl, rfl⟩
    · rw [← h.symbol_iff j p hj]
      split
      next hji => rw [HuffmanNode.setChild_symbol, hji]
      · exact Iff.rfl
    · rw [if_neg (by omega), h.unused _ (Nat.le_refl _)]
      constructor
      · intro hnone
        cases hnone
      · intro hdone
        exact absurd (h.reached _ _ hdone) hnew
  · exact fun p symbol hdone => List.mem_append_left _ (h.reached p symbol hdone)
  · intro j hj
    rw [List.length_append, List.length_singleton] at hj
    rw [node_modify hsize, if_neg (by omega), h.unused j (by omega)]

theorem mark (h : tree.Labelled labels done) {i : ℕ} (symbol : ℕ) (hi : labels[i]? = some path)
    (hfree : ∀ other, (path, other) ∉ done) :
    (HuffmanTree.mk (tree.nodes.modify i fun n => { n with symbol := some symbol }) tree.count).Labelled labels
      ((path, symbol) :: done) := by
  have hsize := h.lt_capacity hi
  have hlt := (List.getElem?_eq_some_iff.mp hi).1
  refine ⟨h.count, ?_, h.root, h.nodup, h.inside, h.closed, ?_, ?_, ?_, ?_⟩
  · rw [List.length_modify, h.size]
  · intro j p hj b next
    rw [node_modify hsize, ← h.child_iff j p hj b next]
    split
    next hji =>
      rw [hji]
      exact Iff.rfl
    · exact Iff.rfl
  · intro j p hj other
    rw [node_modify hsize, List.mem_cons, Prod.mk.injEq]
    by_cases hji : j = i
    · subst hji
      have hp : p = path := Option.some_inj.mp (hj.symm.trans hi)
      subst hp
      rw [if_pos rfl]
      dsimp only
      rw [Option.some_inj]
      constructor
      · rintro rfl
        exact .inl ⟨rfl, rfl⟩
      · rintro (⟨_, hsame⟩ | hdone)
        · exact hsame.symm
        · exact absurd hdone (hfree other)
    · rw [if_neg hji, h.symbol_iff j p hj]
      constructor
      · exact .inr
      · rintro (⟨hsame, _⟩ | hdone)
        · subst hsame
          exact absurd (h.label_inj hj hi) hji
        · exact hdone
  · intro p other hdone
    rcases List.mem_cons.mp hdone with hsame | hdone
    · cases hsame
      exact List.mem_of_getElem? hi
    · exact h.reached p other hdone
  · intro j hj
    rw [node_modify hsize, if_neg (by omega), h.unused j hj]

theorem addCode (symbol code bits : ℕ) {tree : HuffmanTree} {i : ℕ} (h : tree.Labelled labels done)
    (hi : labels[i]? = some path) (hpath : path ++ codeBits code bits ∈ codeTree.paths)
    (hfree : ∀ other, (path ++ codeBits code bits, other) ∉ done) :
    ∃ labels', (addCode symbol code bits i tree).Labelled labels' ((path ++ codeBits code bits, symbol) :: done) := by
  induction bits generalizing tree labels i path with
  | zero =>
    rw [codeBits, List.append_nil] at hfree ⊢
    exact ⟨labels, h.mark symbol hi hfree⟩
  | succ bits ih =>
    have hassoc : path ++ codeBits code (bits + 1) = path ++ [code.testBit bits] ++ codeBits code bits := by
      rw [codeBits, List.append_assoc, List.singleton_append]
    rw [hassoc] at hpath hfree ⊢
    rw [HuffmanTree.addCode]
    rw [← toNat_testBit]
    cases hchild : (tree.node i).child (code.testBit bits).toNat with
    | some next => exact ih h ((h.child_iff i path hi _ next).mp hchild) hpath hfree
    | none =>
      have hextend := h.extend hi hchild (CodeTree.mem_paths_of_append hpath)
      refine ih hextend ?_ hpath hfree
      rw [getElem?_concat, h.count]
      exact .inr ⟨rfl, rfl⟩

end Labelled

/-- The tree after so many symbols. -/
def buildTo (symbols : ℕ) : HuffmanTree :=
  (List.range symbols).foldl
    (fun tree symbol =>
      addCode symbol (huffmanCodes.getD symbol 0) (huffmanLengths.getD symbol 0) 0 tree)
    { nodes := List.replicate huffmanNodeCapacity {}, count := 1 }

theorem buildTo_build : buildTo 257 = huffmanTree := rfl

theorem root_node (i : ℕ) : (buildTo 0).node i = {} := by
  simp only [buildTo, List.range_zero, List.foldl_nil, node, List.getElem?_replicate]
  split <;> rfl

theorem buildTo_labelled {symbols : ℕ} (h : symbols ≤ 257) : ∃ labels done, (buildTo symbols).Labelled labels done ∧
    ∀ path symbol, (path, symbol) ∈ done ↔ symbol < symbols ∧ path = huffmanCode symbol := by
  induction symbols with
  | zero =>
    have hroot : [] ∈ codeTree.paths := (codeTree.mem_paths_iff []).mpr ⟨codeTree, codeTree.descend_nil⟩
    refine ⟨[[]], [], ⟨rfl, List.length_replicate, rfl, List.nodup_singleton _, ?_, ?_, ?_, ?_, ?_, ?_⟩, ?_⟩
    · exact List.cons_subset.mpr ⟨hroot, List.nil_subset _⟩
    · intro path bit hmem
      have hnil := List.mem_singleton.mp hmem
      simp at hnil
    · intro i path _ bit next
      rw [root_node]
      cases bit <;> cases next <;> simp [HuffmanNode.child]
    · intro i path _ symbol
      rw [root_node]
      simp
    · intro path symbol hmem
      cases hmem
    · exact fun i _ => root_node i
    · intro path symbol
      simp
  | succ symbols ih =>
    obtain ⟨labels, done, hlabelled, hdone⟩ := ih (by omega)
    have hleaf := huffmanCode_mem (show symbols < 257 by omega)
    have hpath : huffmanCode symbols ∈ codeTree.paths :=
      (codeTree.mem_paths_iff _).mpr ⟨_, (codeTree.mem_leaves_iff _ _).mp hleaf⟩
    have hfree : ∀ other, (huffmanCode symbols, other) ∉ done := by
      intro other hmem
      obtain ⟨hlt, hsame⟩ := (hdone _ _).mp hmem
      have hother := huffmanCode_mem (show other < 257 by omega)
      have := (CodeTree.leaf_prefix_eq hleaf hother (List.prefix_refl _) (hsame ▸ List.prefix_refl _)).2
      omega
    obtain ⟨labels', hlabelled'⟩ := hlabelled.addCode symbols _ _ hlabelled.root hpath hfree
    refine ⟨labels', (huffmanCode symbols, symbols) :: done, ?_, ?_⟩
    · rw [buildTo, List.range_succ, List.foldl_append]
      exact hlabelled'
    · intro path symbol
      rw [List.mem_cons, Prod.mk.injEq, hdone]
      constructor
      · rintro (⟨rfl, rfl⟩ | ⟨hlt, hpath⟩)
        · exact ⟨by omega, rfl⟩
        · exact ⟨by omega, hpath⟩
      · rintro ⟨hlt, rfl⟩
        by_cases hsame : symbol = symbols
        · subst hsame
          exact .inl ⟨rfl, rfl⟩
        · exact .inr ⟨by omega, rfl⟩

theorem huffmanTree_labelled : ∃ labels done, huffmanTree.Labelled labels done ∧
    (∀ path, path ∈ labels ↔ path ∈ codeTree.paths) ∧
    ∀ path symbol, (path, symbol) ∈ done ↔ (path, symbol) ∈ codeTree.leaves := by
  obtain ⟨labels, done, hlabelled, hdone⟩ := buildTo_labelled (Nat.le_refl 257)
  have hleaves : ∀ path symbol, (path, symbol) ∈ done ↔ (path, symbol) ∈ codeTree.leaves := by
    intro path symbol
    rw [hdone]
    constructor
    · rintro ⟨hlt, rfl⟩
      exact huffmanCode_mem hlt
    · exact huffmanCode_of_mem
  refine ⟨labels, done, buildTo_build ▸ hlabelled, fun path => ⟨fun h => hlabelled.inside h, ?_⟩, hleaves⟩
  intro hpath
  obtain ⟨rest, symbol, hleaf⟩ := CodeTree.exists_leaf_of_mem_paths hpath
  exact hlabelled.closed_append (hlabelled.reached _ _ ((hleaves _ _).mpr hleaf))

end HuffmanTree

end Castle.Http.Hpack

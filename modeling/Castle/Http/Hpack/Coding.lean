import Castle.Http.Types

/-!
# The codes of HPACK (`hpack.hpp`, namespace `detail`)

The static table, integers and Huffman codes. Readers take the bytes that are not read yet and
return those that remain.
-/

namespace Castle.Http.Hpack

def staticTable : List (String × String) := [
   (":authority", ""), (":method", "GET"), (":method", "POST"), (":path", "/"),
   (":path", "/index.html"), (":scheme", "http"), (":scheme", "https"), (":status", "200"),
   (":status", "204"), (":status", "206"), (":status", "304"), (":status", "400"),
   (":status", "404"), (":status", "500"), ("accept-charset", ""),
   ("accept-encoding", "gzip, deflate"), ("accept-language", ""), ("accept-ranges", ""),
   ("accept", ""), ("access-control-allow-origin", ""), ("age", ""), ("allow", ""),
   ("authorization", ""), ("cache-control", ""), ("content-disposition", ""),
   ("content-encoding", ""), ("content-language", ""), ("content-length", ""),
   ("content-location", ""), ("content-range", ""), ("content-type", ""), ("cookie", ""),
   ("date", ""), ("etag", ""), ("expect", ""), ("expires", ""), ("from", ""), ("host", ""),
   ("if-match", ""), ("if-modified-since", ""), ("if-none-match", ""), ("if-range", ""),
   ("if-unmodified-since", ""), ("last-modified", ""), ("link", ""), ("location", ""),
   ("max-forwards", ""), ("proxy-authenticate", ""), ("proxy-authorization", ""), ("range", ""),
   ("referer", ""), ("refresh", ""), ("retry-after", ""), ("server", ""), ("set-cookie", ""),
   ("strict-transport-security", ""), ("transfer-encoding", ""), ("user-agent", ""), ("vary", ""),
   ("via", ""), ("www-authenticate", "")]

def staticField (entry : String × String) : Field := ⟨octets entry.1, octets entry.2⟩

/-- The loop of `find_static` from index `i` on, with the first index that has the name. -/
def findStaticFrom (name value : Bytes) :
    List (String × String) → ℕ → ℕ → ℕ × Bool
  | [], _, nameIndex => (nameIndex, false)
  | entry :: entries, i, nameIndex =>
    if (staticField entry).name ≠ name then findStaticFrom name value entries (i + 1) nameIndex
    else if (staticField entry).value = value then (i + 1, true)
    else
      findStaticFrom name value entries (i + 1) (if nameIndex = 0 then i + 1 else nameIndex)

/-- The first index of the field, or else of its name; 0 when there is none. -/
def findStatic (name value : Bytes) : ℕ × Bool := findStaticFrom name value staticTable 0 0

/-- The bytes after the first one: at most as many as the count. -/
def readContinuation : ℕ → ℕ → ℕ → Bytes → Status × Bytes × ℕ
  | 0, _, value, input => (.outOfRange, input, value)
  | _ + 1, _, value, [] => (.dataLoss, [], value)
  | count + 1, shift, value, byte :: input =>
    let part := byte.toNat &&& 0x7f
    if part > (2 ^ 64 - 1) >>> shift then (.outOfRange, input, value)
    else
      let addend := part <<< shift
      if value > 2 ^ 64 - 1 - addend then (.outOfRange, input, value)
      else if byte &&& 0x80 = 0 then (.ok, input, value + addend)
      else readContinuation count (shift + 7) (value + addend) input

/-- An integer that begins in the lowest `bits` of the first byte. -/
def readInteger (bits : ℕ) : Bytes → Status × Bytes × ℕ
  | [] => (.dataLoss, [], 0)
  | first :: input =>
    if bits = 0 || bits > 8 then (.dataLoss, first :: input, 0)
    else
      let mask := 2 ^ bits - 1
      let value := first.toNat &&& mask
      if value < mask then (.ok, input, value) else readContinuation 10 0 value input

def writeContinuation (capacity value : ℕ) (output : Bytes) : Option Bytes :=
  if 128 ≤ value then
    if output.length ≥ capacity then none
    else
      writeContinuation capacity (value >>> 7)
        (output ++ [UInt8.ofNat ((value &&& 0x7f) ||| 0x80)])
  else if output.length ≥ capacity then none
  else some (output ++ [UInt8.ofNat value])
termination_by value
decreasing_by
  rw [Nat.shiftRight_eq_div_pow]
  omega

/-- The output with the integer; none when the capacity is exhausted. -/
def writeInteger (capacity bits : ℕ) (highBits : UInt8) (value : ℕ) (output : Bytes) :
    Option Bytes :=
  let mask := 2 ^ bits - 1
  if output.length ≥ capacity then none
  else if value < mask then some (output ++ [highBits ||| UInt8.ofNat value])
  else writeContinuation capacity (value - mask) (output ++ [highBits ||| UInt8.ofNat mask])

/-- The codes of the 256 octets and of the end of a string, aligned to the right. -/
def huffmanCodes : List ℕ := [
   0x1ff8, 0x7fffd8, 0xfffffe2, 0xfffffe3, 0xfffffe4, 0xfffffe5, 0xfffffe6, 0xfffffe7, 0xfffffe8,
   0xffffea, 0x3ffffffc, 0xfffffe9, 0xfffffea, 0x3ffffffd, 0xfffffeb, 0xfffffec, 0xfffffed,
   0xfffffee, 0xfffffef, 0xffffff0, 0xffffff1, 0xffffff2, 0x3ffffffe, 0xffffff3, 0xffffff4,
   0xffffff5, 0xffffff6, 0xffffff7, 0xffffff8, 0xffffff9, 0xffffffa, 0xffffffb, 0x14, 0x3f8,
   0x3f9, 0xffa, 0x1ff9, 0x15, 0xf8, 0x7fa, 0x3fa, 0x3fb, 0xf9, 0x7fb, 0xfa, 0x16, 0x17, 0x18,
   0x0, 0x1, 0x2, 0x19, 0x1a, 0x1b, 0x1c, 0x1d, 0x1e, 0x1f, 0x5c, 0xfb, 0x7ffc, 0x20, 0xffb,
   0x3fc, 0x1ffa, 0x21, 0x5d, 0x5e, 0x5f, 0x60, 0x61, 0x62, 0x63, 0x64, 0x65, 0x66, 0x67, 0x68,
   0x69, 0x6a, 0x6b, 0x6c, 0x6d, 0x6e, 0x6f, 0x70, 0x71, 0x72, 0xfc, 0x73, 0xfd, 0x1ffb, 0x7fff0,
   0x1ffc, 0x3ffc, 0x22, 0x7ffd, 0x3, 0x23, 0x4, 0x24, 0x5, 0x25, 0x26, 0x27, 0x6, 0x74, 0x75,
   0x28, 0x29, 0x2a, 0x7, 0x2b, 0x76, 0x2c, 0x8, 0x9, 0x2d, 0x77, 0x78, 0x79, 0x7a, 0x7b, 0x7ffe,
   0x7fc, 0x3ffd, 0x1ffd, 0xffffffc, 0xfffe6, 0x3fffd2, 0xfffe7, 0xfffe8, 0x3fffd3, 0x3fffd4,
   0x3fffd5, 0x7fffd9, 0x3fffd6, 0x7fffda, 0x7fffdb, 0x7fffdc, 0x7fffdd, 0x7fffde, 0xffffeb,
   0x7fffdf, 0xffffec, 0xffffed, 0x3fffd7, 0x7fffe0, 0xffffee, 0x7fffe1, 0x7fffe2, 0x7fffe3,
   0x7fffe4, 0x1fffdc, 0x3fffd8, 0x7fffe5, 0x3fffd9, 0x7fffe6, 0x7fffe7, 0xffffef, 0x3fffda,
   0x1fffdd, 0xfffe9, 0x3fffdb, 0x3fffdc, 0x7fffe8, 0x7fffe9, 0x1fffde, 0x7fffea, 0x3fffdd,
   0x3fffde, 0xfffff0, 0x1fffdf, 0x3fffdf, 0x7fffeb, 0x7fffec, 0x1fffe0, 0x1fffe1, 0x3fffe0,
   0x1fffe2, 0x7fffed, 0x3fffe1, 0x7fffee, 0x7fffef, 0xfffea, 0x3fffe2, 0x3fffe3, 0x3fffe4,
   0x7ffff0, 0x3fffe5, 0x3fffe6, 0x7ffff1, 0x3ffffe0, 0x3ffffe1, 0xfffeb, 0x7fff1, 0x3fffe7,
   0x7ffff2, 0x3fffe8, 0x1ffffec, 0x3ffffe2, 0x3ffffe3, 0x3ffffe4, 0x7ffffde, 0x7ffffdf,
   0x3ffffe5, 0xfffff1, 0x1ffffed, 0x7fff2, 0x1fffe3, 0x3ffffe6, 0x7ffffe0, 0x7ffffe1, 0x3ffffe7,
   0x7ffffe2, 0xfffff2, 0x1fffe4, 0x1fffe5, 0x3ffffe8, 0x3ffffe9, 0xffffffd, 0x7ffffe3, 0x7ffffe4,
   0x7ffffe5, 0xfffec, 0xfffff3, 0xfffed, 0x1fffe6, 0x3fffe9, 0x1fffe7, 0x1fffe8, 0x7ffff3,
   0x3fffea, 0x3fffeb, 0x1ffffee, 0x1ffffef, 0xfffff4, 0xfffff5, 0x3ffffea, 0x7ffff4, 0x3ffffeb,
   0x7ffffe6, 0x3ffffec, 0x3ffffed, 0x7ffffe7, 0x7ffffe8, 0x7ffffe9, 0x7ffffea, 0x7ffffeb,
   0xffffffe, 0x7ffffec, 0x7ffffed, 0x7ffffee, 0x7ffffef, 0x7fffff0, 0x3ffffee, 0x3fffffff]

def huffmanLengths : List ℕ := [
   13, 23, 28, 28, 28, 28, 28, 28, 28, 24, 30, 28, 28, 30, 28, 28, 28, 28, 28, 28, 28, 28, 30, 28,
   28, 28, 28, 28, 28, 28, 28, 28, 6, 10, 10, 12, 13, 6, 8, 11, 10, 10, 8, 11, 8, 6, 6, 6, 5, 5,
   5, 6, 6, 6, 6, 6, 6, 6, 7, 8, 15, 6, 12, 10, 13, 6, 7, 7, 7, 7, 7, 7, 7, 7, 7, 7, 7, 7, 7, 7,
   7, 7, 7, 7, 7, 7, 7, 7, 8, 7, 8, 13, 19, 13, 14, 6, 15, 5, 6, 5, 6, 5, 6, 6, 6, 5, 7, 7, 6, 6,
   6, 5, 6, 7, 6, 5, 5, 6, 7, 7, 7, 7, 7, 15, 11, 14, 13, 28, 20, 22, 20, 20, 22, 22, 22, 23, 22,
   23, 23, 23, 23, 23, 24, 23, 24, 24, 22, 23, 24, 23, 23, 23, 23, 21, 22, 23, 22, 23, 23, 24, 22,
   21, 20, 22, 22, 23, 23, 21, 23, 22, 22, 24, 21, 22, 23, 23, 21, 21, 22, 21, 23, 22, 23, 23, 20,
   22, 22, 22, 23, 22, 22, 23, 26, 26, 20, 19, 22, 23, 22, 25, 26, 26, 26, 27, 27, 26, 24, 25, 19,
   21, 26, 27, 27, 26, 27, 24, 21, 21, 26, 26, 28, 27, 27, 27, 20, 24, 20, 21, 22, 21, 21, 23, 22,
   22, 25, 25, 24, 24, 26, 23, 26, 27, 26, 26, 27, 27, 27, 27, 27, 28, 27, 27, 27, 27, 27, 26, 30]

structure HuffmanNode where
  child0 : Option ℕ := none
  child1 : Option ℕ := none
  symbol : Option ℕ := none

def HuffmanNode.child (node : HuffmanNode) (direction : ℕ) : Option ℕ :=
  if direction = 0 then node.child0 else node.child1

def HuffmanNode.setChild (node : HuffmanNode) (direction next : ℕ) : HuffmanNode :=
  if direction = 0 then { node with child0 := some next } else { node with child1 := some next }

/-- The nodes of the tree, of which the first `count` are used. -/
structure HuffmanTree where
  nodes : List HuffmanNode
  count : ℕ

def huffmanNodeCapacity : ℕ := 2 * 257

namespace HuffmanTree

def node (tree : HuffmanTree) (i : ℕ) : HuffmanNode := tree.nodes[i]?.getD {}

/-- The loop over the bits of a code, the highest first. -/
def addCode (symbol code : ℕ) : ℕ → ℕ → HuffmanTree → HuffmanTree
  | 0, node, tree =>
    { tree with nodes := tree.nodes.modify node fun n => { n with symbol := some symbol } }
  | bit + 1, node, tree =>
    let direction := (code >>> bit) &&& 1
    match (tree.node node).child direction with
    | some next => addCode symbol code bit next tree
    | none =>
      addCode symbol code bit tree.count
        { nodes := tree.nodes.modify node fun n => n.setChild direction tree.count
          count := tree.count + 1 }

def build : HuffmanTree :=
  (List.range 257).foldl
    (fun tree symbol =>
      addCode symbol (huffmanCodes.getD symbol 0) (huffmanLengths.getD symbol 0) 0 tree)
    { nodes := List.replicate huffmanNodeCapacity {}, count := 1 }

end HuffmanTree

def huffmanTree : HuffmanTree := .build

/-- The bits of a byte, the highest first. -/
def bitsOf (byte : UInt8) : List ℕ :=
  (List.range 8).map fun i => (byte.toNat >>> (7 - i)) &&& 1

/-- The loop over the bits. A symbol ends a walk from the root; the rest of the input is padding:
at most seven bits, all of them ones. -/
def decodeHuffmanLoop (tree : HuffmanTree) (capacity : ℕ) :
    List ℕ → ℕ → ℕ → Bool → Bytes → Status × Bytes
  | [], node, tailBits, tailOnes, output =>
    if node ≠ 0 && (tailBits > 7 || !tailOnes) then (.invalidArgument, output) else (.ok, output)
  | direction :: bits, node, tailBits, tailOnes, output =>
    let tailBits := (tailBits + 1) % 256
    let tailOnes := tailOnes && direction = 1
    match (tree.node node).child direction with
    | none => (.invalidArgument, output)
    | some next =>
      match (tree.node next).symbol with
      | none => decodeHuffmanLoop tree capacity bits next tailBits tailOnes output
      | some symbol =>
        if symbol = 256 then (.invalidArgument, output)
        else if output.length ≥ capacity then (.outOfRange, output)
        else decodeHuffmanLoop tree capacity bits 0 0 true (output ++ [UInt8.ofNat symbol])

def decodeHuffman (input : Bytes) (capacity : ℕ) : Status × Bytes :=
  decodeHuffmanLoop huffmanTree capacity (input.flatMap bitsOf) 0 0 true []

/-!
## The encoder (`hpack.hpp`, class `hpack_encoder`)

A buffer is `none` for `nullptr`, or else its capacity.
-/

/-- The status, the number of bytes used, and these bytes. -/
structure Encoded where
  status : Status
  used : ℕ
  bytes : Bytes
  deriving DecidableEq

/-- A string without a Huffman code; none when the capacity is exhausted. -/
def encodeString (capacity : ℕ) (value output : Bytes) : Option Bytes := do
  let output ← writeInteger capacity 7 0 (value.length % 2 ^ 32) output
  if value.length > capacity - output.length then none else some (output ++ value)

def encodeWithNameIndex (nameIndex : ℕ) (name value : Bytes) (buffer : Option ℕ) : Encoded :=
  match buffer with
  | none => ⟨.invalidArgument, 0, []⟩
  | some capacity =>
    if name.isEmpty then ⟨.invalidArgument, 0, []⟩
    else if name.length > 0xffffffff || value.length > 0xffffffff then ⟨.outOfRange, 0, []⟩
    else
      let written := do
        let output ← writeInteger capacity 4 0 nameIndex []
        let output ← if nameIndex = 0 then encodeString capacity name output else some output
        encodeString capacity value output
      match written with
      | none => ⟨.full, 0, []⟩
      | some output => ⟨.ok, output.length, output⟩

def encodeLiteral (name value : Bytes) (buffer : Option ℕ) : Encoded :=
  encodeWithNameIndex 0 name value buffer

def encodeField (name value : Bytes) (buffer : Option ℕ) : Encoded :=
  match buffer with
  | none => ⟨.invalidArgument, 0, []⟩
  | some capacity =>
    if name.isEmpty then ⟨.invalidArgument, 0, []⟩
    else
      match findStatic name value with
      | (index, false) => encodeWithNameIndex index name value buffer
      | (index, true) =>
        match writeInteger capacity 7 0x80 index [] with
        | none => ⟨.full, 0, []⟩
        | some output => ⟨.ok, output.length, output⟩

/-!
## The decoder (`hpack.hpp`, class `hpack_decoder`)

The dynamic table is an array of slots, the newest entry first. `none` is an access outside an
array; it also stands for the end of the fuel, which is the length of the block.
-/

/-- The template parameters. -/
structure DecoderCapacity where
  maxDynamicTableBytes : ℕ
  maxStringSize : ℕ
  maxStringSize_pos : 0 < maxStringSize

/-- The default of the third parameter. -/
def DecoderCapacity.maxDynamicEntries (cap : DecoderCapacity) : ℕ :=
  cap.maxDynamicTableBytes / 32 + 1

structure DynamicEntry where
  name : Bytes := []
  value : Bytes := []
  bytes : ℕ := 0
  deriving DecidableEq

structure Decoder (cap : DecoderCapacity) where
  entries : List DynamicEntry
  entryCount : ℕ
  tableBytes : ℕ
  allowedTableBytes : ℕ
  deriving DecidableEq

variable {cap : DecoderCapacity} {σ : Type}

/-- The string after its length, and what remains. -/
def readString (maxStringSize : ℕ) : Bytes → Status × Bytes × Bytes
  | [] => (.dataLoss, [], [])
  | first :: input =>
    match readInteger 7 (first :: input) with
    | (result, rest, encodedSize) =>
      if result ≠ .ok || encodedSize > rest.length then (.dataLoss, rest, [])
      else if first &&& 0x80 ≠ 0 then
        match decodeHuffman (rest.take encodedSize) maxStringSize with
        | (result, output) => (result, rest.drop encodedSize, output)
      else if encodedSize > maxStringSize then (.outOfRange, rest, [])
      else (.ok, rest.drop encodedSize, rest.take encodedSize)

/-- The loops that drop the last entries: the entry count and the bytes after them. -/
def evictWhile (entries : List DynamicEntry) (evict : ℕ → ℕ → Bool) : ℕ → ℕ → Option (ℕ × ℕ)
  | 0, bytes => some (0, bytes)
  | count + 1, bytes =>
    if evict (count + 1) bytes then do
      let last ← entries[count]?
      evictWhile entries evict count (bytes - last.bytes)
    else some (count + 1, bytes)

/-- The loop that moves the entries up by one slot. -/
def shiftUp : ℕ → List DynamicEntry → Option (List DynamicEntry)
  | 0, entries => some entries
  | i + 1, entries => do
    let entry ← entries[i]?
    if i + 1 < entries.length then shiftUp i (entries.set (i + 1) entry) else none

namespace Decoder

def init (cap : DecoderCapacity) : Decoder cap where
  entries := List.replicate cap.maxDynamicEntries {}
  entryCount := 0
  tableBytes := 0
  allowedTableBytes := cap.maxDynamicTableBytes

variable (d : Decoder cap)

/-- The field at an index, if there is one. Index 0 wraps. -/
def lookup (index : ℕ) : Option (Option Field) :=
  if index ≤ 61 then do
    let entry ← staticTable[(index + (2 ^ 64 - 1)) % 2 ^ 64]?
    some (some (staticField entry))
  else if index - 62 ≥ d.entryCount then some none
  else do
    let entry ← d.entries[index - 62]?
    some (some ⟨entry.name, entry.value⟩)

def evictAll : Decoder cap := { d with entryCount := 0, tableBytes := 0 }

def evictToLimit : Option (Decoder cap) := do
  let (count, bytes) ← evictWhile d.entries
    (fun _ bytes => decide (bytes > d.allowedTableBytes)) d.entryCount d.tableBytes
  some { d with entryCount := count, tableBytes := bytes }

def insert (name value : Bytes) : Option (Decoder cap) :=
  let bytes := 32 + name.length + value.length
  if bytes > d.allowedTableBytes then some d.evictAll
  else do
    let (count, tableBytes) ← evictWhile d.entries
      (fun count tableBytes => decide (tableBytes > d.allowedTableBytes - bytes) ||
        decide (count = cap.maxDynamicEntries)) d.entryCount d.tableBytes
    let entries ← shiftUp count d.entries
    if entries.isEmpty then none
    else
      some { d with
        entries := entries.set 0 ⟨name, value, bytes⟩
        entryCount := count + 1
        tableBytes := tableBytes + bytes }

def clearDynamicTable : Decoder cap :=
  { d.evictAll with allowedTableBytes := cap.maxDynamicTableBytes }

/-- Where one pass of the loop leaves: a status other than `ok` is returned. -/
structure Pass (cap : DecoderCapacity) (σ : Type) where
  status : Status
  rest : Bytes
  decoder : Decoder cap
  output : σ

variable (add : σ → Bytes → Bytes → Status × σ)

def decodeIndexed (input : Bytes) (output : σ) : Option (Pass cap σ) :=
  match readInteger 7 input with
  | (result, rest, index) =>
    if result ≠ .ok || index = 0 then some ⟨.invalidArgument, rest, d, output⟩
    else do
      match ← d.lookup index with
      | none => some ⟨.invalidArgument, rest, d, output⟩
      | some field =>
        let (result, output) := add output field.name field.value
        some ⟨result, rest, d, output⟩

def decodeSizeUpdate (input : Bytes) (sawField : Bool) (output : σ) : Option (Pass cap σ) :=
  if sawField then some ⟨.invalidArgument, input, d, output⟩
  else
    match readInteger 5 input with
    | (result, rest, tableSize) =>
      if result ≠ .ok || tableSize > cap.maxDynamicTableBytes then
        some ⟨.invalidArgument, rest, d, output⟩
      else do
        let d ← evictToLimit { d with allowedTableBytes := tableSize }
        some ⟨.ok, rest, d, output⟩

/-- The name of a literal: that of an index, or a string. -/
def decodeName (bits : ℕ) (input : Bytes) : Option (Status × Bytes × Bytes) :=
  match readInteger bits input with
  | (result, rest, nameIndex) =>
    if result ≠ .ok then some (result, rest, [])
    else if nameIndex ≠ 0 then do
      match ← d.lookup nameIndex with
      | none => some (.invalidArgument, rest, [])
      | some field =>
        if field.name.length > cap.maxStringSize then some (.outOfRange, rest, [])
        else some (.ok, rest, field.name)
    else some (readString cap.maxStringSize rest)

def decodeLiteral (incremental : Bool) (input : Bytes) (output : σ) : Option (Pass cap σ) := do
  let (result, rest, name) ← d.decodeName (if incremental then 6 else 4) input
  if result ≠ .ok then some ⟨result, rest, d, output⟩
  else
    let (result, rest, value) := readString cap.maxStringSize rest
    if result ≠ .ok then some ⟨result, rest, d, output⟩
    else if name.length = 0 then some ⟨.invalidArgument, rest, d, output⟩
    else
      let (result, output) := add output name value
      if result ≠ .ok then some ⟨result, rest, d, output⟩
      else if incremental then do
        let d ← d.insert name value
        some ⟨.ok, rest, d, output⟩
      else some ⟨.ok, rest, d, output⟩

/-- One pass of the loop, and whether a field came before the next one. -/
def decodePass (first : UInt8) (input : Bytes) (sawField : Bool) (output : σ) :
    Option (Pass cap σ × Bool) :=
  if first &&& 0x80 ≠ 0 then do
    let pass ← d.decodeIndexed add input output
    some (pass, true)
  else if first &&& 0xe0 = 0x20 then do
    let pass ← d.decodeSizeUpdate input sawField output
    some (pass, sawField)
  else do
    let pass ← d.decodeLiteral add (decide (first &&& 0xc0 = 0x40)) input output
    some (pass, true)

def decodeLoop : ℕ → Bytes → Bool → Decoder cap → σ → Option (Status × Decoder cap × σ)
  | _, [], _, d, output => some (.ok, d, output)
  | 0, _ :: _, _, _, _ => none
  | fuel + 1, first :: input, sawField, d, output => do
    let (pass, sawField) ← d.decodePass add first (first :: input) sawField output
    if pass.status ≠ .ok then some (pass.status, pass.decoder, pass.output)
    else decodeLoop fuel pass.rest sawField pass.decoder pass.output

/-- The status, and the decoder and the collection of fields afterwards. -/
def decodeBlock (input : Bytes) (output : σ) : Option (Status × Decoder cap × σ) :=
  decodeLoop add input.length input false d output

/-- The error of `finish_header_block` for a block that is not decoded. -/
def blockError (decoded : Status) : ErrorCode :=
  if decoded = .full || decoded = .outOfRange then .headerLimit else .compressionError

/-- The blocks of a connection, each into its own collection. `finish_header_block` returns a
failure, and the connection ends with it. -/
def decodeBlocks (d : Decoder cap) : List (σ × Bytes) → Option (Status × Decoder cap)
  | [] => some (.ok, d)
  | (output, block) :: blocks => do
    let (decoded, d, _) ← d.decodeBlock add block output
    let result := if decoded ≠ .ok then toStatus (blockError decoded) else .ok
    if result ≠ .ok then some (result, d) else decodeBlocks d blocks

end Decoder
end Castle.Http.Hpack

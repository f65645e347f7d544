import Mathlib.Algebra.Ring.Nat
import Mathlib.Data.List.Basic

/-!
# JSON texts (RFC 8259)

The grammar as relations between a text, what a part at its beginning denotes, and what
follows that part. Strings are bytes: those from `0x20` on stand for themselves, and the
code units of `\u` escapes are encoded in UTF-8 unless they are surrogates.
-/

namespace Castle.Serialization.Json

abbrev Bytes := List UInt8

abbrev quote : UInt8 := 0x22
abbrev backslash : UInt8 := 0x5c
abbrev slash : UInt8 := 0x2f
abbrev openBrace : UInt8 := 0x7b
abbrev closeBrace : UInt8 := 0x7d
abbrev openBracket : UInt8 := 0x5b
abbrev closeBracket : UInt8 := 0x5d
abbrev comma : UInt8 := 0x2c
abbrev colon : UInt8 := 0x3a
abbrev minus : UInt8 := 0x2d
abbrev plus : UInt8 := 0x2b
abbrev period : UInt8 := 0x2e
abbrev space : UInt8 := 0x20
abbrev tab : UInt8 := 0x09
abbrev lineFeed : UInt8 := 0x0a
abbrev formFeed : UInt8 := 0x0c
abbrev carriageReturn : UInt8 := 0x0d
abbrev backspace : UInt8 := 0x08

abbrev digitZero : UInt8 := 0x30
abbrev digitOne : UInt8 := 0x31
abbrev digitNine : UInt8 := 0x39

abbrev letterLowerA : UInt8 := 0x61
abbrev letterLowerF : UInt8 := 0x66
abbrev letterUpperA : UInt8 := 0x41
abbrev letterUpperF : UInt8 := 0x46
abbrev letterLowerB : UInt8 := 0x62
abbrev letterLowerE : UInt8 := 0x65
abbrev letterUpperE : UInt8 := 0x45
abbrev letterLowerN : UInt8 := 0x6e
abbrev letterLowerR : UInt8 := 0x72
abbrev letterLowerT : UInt8 := 0x74
abbrev letterLowerU : UInt8 := 0x75

abbrev nullText : Bytes := [0x6e, 0x75, 0x6c, 0x6c]
abbrev trueText : Bytes := [0x74, 0x72, 0x75, 0x65]
abbrev falseText : Bytes := [0x66, 0x61, 0x6c, 0x73, 0x65]

/-- `type`, the kinds of nodes. -/
inductive Kind where
  | null | boolean | number | string | object | array
  deriving DecidableEq

def Kind.isContainer : Kind → Bool
  | .object | .array => true
  | _ => false

mutual

/-- A node with the bytes of a scalar and the children of a container. -/
inductive Tree where
  | node (kind : Kind) (value : Bytes) (children : Forest)

/-- Children with their keys, which are empty in an array. -/
inductive Forest where
  | nil
  | cons (key : Bytes) (child : Tree) (rest : Forest)

end

mutual

/-- The number of nodes. -/
def Tree.size : Tree → ℕ
  | .node _ _ children => children.size + 1

def Forest.size : Forest → ℕ
  | .nil => 0
  | .cons _ child rest => child.size + rest.size

end

mutual

/-- The number of bytes of all keys and values below a key. -/
def Tree.bytes : Tree → ℕ
  | .node _ value children => value.length + children.bytes

def Forest.bytes : Forest → ℕ
  | .nil => 0
  | .cons key child rest => key.length + child.bytes + rest.bytes

end

mutual

/-- How deep containers are nested. -/
def Tree.depth : Tree → ℕ
  | .node kind _ children => if kind.isContainer then children.depth + 1 else 0

def Forest.depth : Forest → ℕ
  | .nil => 0
  | .cons _ child rest => max child.depth rest.depth

end

mutual

/-- An object has a member with an empty key. -/
def Tree.HasEmptyKey : Tree → Prop
  | .node kind _ children => children.HasEmptyKey kind

/-- The same for the children of a node of some kind. -/
def Forest.HasEmptyKey : Kind → Forest → Prop
  | _, .nil => False
  | kind, .cons key child rest =>
    (kind = .object ∧ key = []) ∨ child.HasEmptyKey ∨ rest.HasEmptyKey kind

end

def IsWs (c : UInt8) : Prop := c = space ∨ c = tab ∨ c = lineFeed ∨ c = carriageReturn

inductive Ws : Bytes → Bytes → Prop
  | nil {r : Bytes} : Ws r r
  | cons {c : UInt8} {s r : Bytes} (hc : IsWs c) (hs : Ws s r) : Ws (c :: s) r

/-- `c` is a hexadecimal digit with value `x`. -/
def HexDigit (c : UInt8) (x : ℕ) : Prop :=
  (digitZero ≤ c ∧ c ≤ digitNine ∧ x + 0x30 = c.toNat) ∨
    (letterLowerA ≤ c ∧ c ≤ letterLowerF ∧ x + 0x61 = c.toNat + 10) ∨
    (letterUpperA ≤ c ∧ c ≤ letterUpperF ∧ x + 0x41 = c.toNat + 10)

/-- `\e` stands for `d`. -/
inductive Escape : UInt8 → UInt8 → Prop
  | quote : Escape quote quote
  | backslash : Escape backslash backslash
  | slash : Escape slash slash
  | b : Escape letterLowerB backspace
  | f : Escape letterLowerF formFeed
  | n : Escape letterLowerN lineFeed
  | r : Escape letterLowerR carriageReturn
  | t : Escape letterLowerT tab

def IsSurrogate (code : ℕ) : Prop := 0xd800 ≤ code ∧ code ≤ 0xdfff

/-- The characters of a string and its closing quote, with the bytes they stand for. -/
inductive Chars : Bytes → Bytes → Bytes → Prop
  | close {r : Bytes} : Chars (quote :: r) [] r
  | raw {c : UInt8} {s v r : Bytes} (hc : 0x20 ≤ c) (hq : c ≠ quote) (hb : c ≠ backslash)
    (hs : Chars s v r) : Chars (c :: s) (c :: v) r
  | escape {e d : UInt8} {s v r : Bytes} (he : Escape e d) (hs : Chars s v r) :
    Chars (backslash :: e :: s) (d :: v) r
  | unicode {c₁ c₂ c₃ c₄ : UInt8} {x₁ x₂ x₃ x₄ : ℕ} {s v r : Bytes}
    (h₁ : HexDigit c₁ x₁) (h₂ : HexDigit c₂ x₂) (h₃ : HexDigit c₃ x₃) (h₄ : HexDigit c₄ x₄)
    (hsurrogate : ¬ IsSurrogate (((x₁ * 16 + x₂) * 16 + x₃) * 16 + x₄)) (hs : Chars s v r) :
    Chars (backslash :: letterLowerU :: c₁ :: c₂ :: c₃ :: c₄ :: s)
      (String.utf8EncodeChar (Char.ofNat (((x₁ * 16 + x₂) * 16 + x₃) * 16 + x₄)) ++ v) r

def IsDigit (c : UInt8) : Prop := digitZero ≤ c ∧ c ≤ digitNine

def Digits (s : Bytes) : Prop := s ≠ [] ∧ ∀ c ∈ s, IsDigit c

/-- `0`, or digits that do not begin with it. -/
inductive IntPart : Bytes → Prop
  | zero : IntPart [digitZero]
  | digits {c : UInt8} {s : Bytes} (hc : digitOne ≤ c ∧ c ≤ digitNine) (hs : ∀ d ∈ s, IsDigit d) :
    IntPart (c :: s)

inductive FracPart : Bytes → Prop
  | none : FracPart []
  | digits {s : Bytes} (hs : Digits s) : FracPart (period :: s)

inductive ExpPart : Bytes → Prop
  | none : ExpPart []
  | unsigned {e : UInt8} {s : Bytes} (he : e = letterLowerE ∨ e = letterUpperE) (hs : Digits s) :
    ExpPart (e :: s)
  | signed {e sign : UInt8} {s : Bytes} (he : e = letterLowerE ∨ e = letterUpperE)
    (hsign : sign = plus ∨ sign = minus) (hs : Digits s) : ExpPart (e :: sign :: s)

/-- `[ minus ] int [ frac ] [ exp ]` -/
inductive IsNumber : Bytes → Prop
  | positive {i f e : Bytes} (hi : IntPart i) (hf : FracPart f) (he : ExpPart e) :
    IsNumber (i ++ f ++ e)
  | negative {i f e : Bytes} (hi : IntPart i) (hf : FracPart f) (he : ExpPart e) :
    IsNumber (minus :: (i ++ f ++ e))

mutual

inductive Value : Bytes → Tree → Bytes → Prop
  | null {r : Bytes} : Value (nullText ++ r) (.node .null [] .nil) r
  | true {r : Bytes} : Value (trueText ++ r) (.node .boolean trueText .nil) r
  | false {r : Bytes} : Value (falseText ++ r) (.node .boolean falseText .nil) r
  | number {t r : Bytes} (ht : IsNumber t) : Value (t ++ r) (.node .number t .nil) r
  | string {s v r : Bytes} (hs : Chars s v r) : Value (quote :: s) (.node .string v .nil) r
  | emptyArray {s r : Bytes} (hs : Ws s (closeBracket :: r)) :
    Value (openBracket :: s) (.node .array [] .nil) r
  | array {s r : Bytes} {f : Forest} (hs : Elements s f r) :
    Value (openBracket :: s) (.node .array [] f) r
  | emptyObject {s r : Bytes} (hs : Ws s (closeBrace :: r)) :
    Value (openBrace :: s) (.node .object [] .nil) r
  | object {s r : Bytes} {f : Forest} (hs : Members s f r) :
    Value (openBrace :: s) (.node .object [] f) r

/-- The elements of an array up to its closing bracket. -/
inductive Elements : Bytes → Forest → Bytes → Prop
  | last {s a b r : Bytes} {t : Tree} (hs : Ws s a) (ht : Value a t b)
    (hb : Ws b (closeBracket :: r)) : Elements s (.cons [] t .nil) r
  | cons {s a b c r : Bytes} {t : Tree} {f : Forest} (hs : Ws s a) (ht : Value a t b)
    (hb : Ws b (comma :: c)) (hf : Elements c f r) : Elements s (.cons [] t f) r

/-- The members of an object up to its closing brace. -/
inductive Members : Bytes → Forest → Bytes → Prop
  | last {s a b c d e r k : Bytes} {t : Tree} (hs : Ws s (quote :: a)) (hk : Chars a k b)
    (hb : Ws b (colon :: c)) (hc : Ws c d) (ht : Value d t e) (he : Ws e (closeBrace :: r)) :
    Members s (.cons k t .nil) r
  | cons {s a b c d e g r k : Bytes} {t : Tree} {f : Forest} (hs : Ws s (quote :: a))
    (hk : Chars a k b) (hb : Ws b (colon :: c)) (hc : Ws c d) (ht : Value d t e)
    (he : Ws e (comma :: g)) (hf : Members g f r) : Members s (.cons k t f) r

end

/-- A JSON text: a value with whitespace around it. -/
def Text (s : Bytes) (t : Tree) : Prop := ∃ a b, Ws s a ∧ Value a t b ∧ Ws b []

/-- The values that nodes of a kind have in a text. -/
def Kind.Allows : Kind → Bytes → Prop
  | .boolean, value => value = trueText ∨ value = falseText
  | .number, value => IsNumber value
  | .string, _ => True
  | _, value => value = []

mutual

/-- Values are allowed, scalars have no children, and elements have no keys. -/
def Tree.Valid : Tree → Prop
  | .node kind value children =>
    kind.Allows value ∧ (kind.isContainer = false → children = .nil) ∧ children.Valid kind

/-- The same for the children of a node of some kind. -/
def Forest.Valid : Kind → Forest → Prop
  | _, .nil => True
  | kind, .cons key child rest => (kind = .array → key = []) ∧ child.Valid ∧ rest.Valid kind

end

mutual

theorem Value.valid : ∀ {t : Tree} {s r : Bytes}, Value s t r → t.Valid
  | .node _ _ children, _, _, h => by
    cases h with
    | null => exact ⟨rfl, fun _ => rfl, trivial⟩
    | true => exact ⟨.inl rfl, fun _ => rfl, trivial⟩
    | false => exact ⟨.inr rfl, fun _ => rfl, trivial⟩
    | number ht => exact ⟨ht, fun _ => rfl, trivial⟩
    | string => exact ⟨trivial, fun _ => rfl, trivial⟩
    | emptyArray => exact ⟨rfl, fun _ => rfl, trivial⟩
    | array hs => exact ⟨rfl, fun h => (nomatch h), Elements.valid hs⟩
    | emptyObject => exact ⟨rfl, fun _ => rfl, trivial⟩
    | object hs => exact ⟨rfl, fun h => (nomatch h), Members.valid hs⟩

theorem Elements.valid : ∀ {f : Forest} {s r : Bytes}, Elements s f r → f.Valid .array
  | .nil, _, _, h => nomatch h
  | .cons _ child rest, _, _, h => by
    cases h with
    | last _ ht => exact ⟨fun _ => rfl, ht.valid, trivial⟩
    | cons _ ht _ hf => exact ⟨fun _ => rfl, ht.valid, hf.valid⟩

theorem Members.valid : ∀ {f : Forest} {s r : Bytes}, Members s f r → f.Valid .object
  | .nil, _, _, h => nomatch h
  | .cons _ child rest, _, _, h => by
    cases h with
    | last _ _ _ _ ht => exact ⟨fun h => (nomatch h), ht.valid, trivial⟩
    | cons _ _ _ _ ht _ hf => exact ⟨fun h => (nomatch h), ht.valid, hf.valid⟩

end

end Castle.Serialization.Json

import Castle.Http.Fields
import Castle.Http.Text

/-!
# A client that reads responses

How a client that keeps to the rules of HTTP/1.1 takes one response off a connection: the
header section up to the blank line, and then as many bytes as the framing fields say. A
response whose end they do not tell is not read.
-/

namespace Castle.Http

structure ReadResponse where
  status : ℕ
  fields : Headers
  body : Bytes
  deriving DecidableEq, Repr

def isDigit (c : UInt8) : Bool := between 0x30 0x39 c

/-- The version, three digits and a reason. -/
def readStatusLine (line : Bytes) : Option ℕ :=
  if line.take 9 ≠ octets "HTTP/1.0 " && line.take 9 ≠ octets "HTTP/1.1 " then none
  else
    match line.drop 9 with
    | a :: b :: c :: d :: reason =>
      if isDigit a && isDigit b && isDigit c && d = space && validValue reason then
        some ((a.toNat - 0x30) * 100 + (b.toNat - 0x30) * 10 + (c.toNat - 0x30))
      else none
    | _ => none

def readField (line : Bytes) : Option Field :=
  match cut colon line with
  | none => none
  | some (name, value) => if isToken name && validValue value then some ⟨name, trimOws value⟩ else none

/-- The status, the fields and what stands behind the blank line. -/
def readHead (text : Bytes) : Option (ℕ × Headers × Bytes) :=
  match firstIndex (crlf ++ crlf) text with
  | none => none
  | some i =>
    match lines crlf (text.take i) with
    | [] => none
    | line :: rest => do
      let status ← readStatusLine line
      let fields ← rest.mapM readField
      some (status, fields, text.drop (i + 4))

/-- How many bytes of body follow; `head` tells that the request was a HEAD. -/
def bodyLength (head : Bool) (status : ℕ) (fields : Headers) : Option ℕ :=
  if head || status < 200 || status = 204 || status = 304 then some 0
  else if fields.contains (octets "Transfer-Encoding") then none
  else
    match fields.filter (Field.named (octets "Content-Length")) with
    | [field] => parseDecimal field.value
    | _ => none

/-- The first response of a text, and what follows it. -/
def readResponse (head : Bool) (text : Bytes) : Option (ReadResponse × Bytes) := do
  let (status, fields, rest) ← readHead text
  let length ← bodyLength head status fields
  if length > rest.length then none
  else some (⟨status, fields, rest.take length⟩, rest.drop length)

theorem readHead_joinLines {line : Bytes} {rest : List Bytes}
    (hl : ∀ l ∈ line :: rest, Plain carriageReturn l)
    (tail : Bytes) :
    readHead (joinLines crlf (line :: rest) ++ (crlf ++ crlf) ++ tail) = (do
      let status ← readStatusLine line
      let fields ← rest.mapM readField
      some (status, fields, tail)) := by
  rw [readHead, crlf, firstIndex_joinLines crlf_ne (List.cons_ne_nil line rest) hl tail]
  simp only
  rw [List.append_assoc, List.take_left, lines_joinLines hl]
  simp only
  rw [← List.append_assoc, ← List.drop_drop, List.append_assoc, List.drop_left]
  rfl

theorem readField_line {name value : Bytes} (hn : isToken name = true) (hv : validValue value = true) :
    readField (name ++ [colon, space] ++ value) = some ⟨name, trimOws value⟩ := by
  have hc : colon ∉ name := not_mem_token hn (by decide)
  have hcut : cut colon (name ++ [colon, space] ++ value) = some (name, space :: value) := by
    rw [List.append_assoc]
    exact cut_append hc (space :: value)
  have hs : validValue (space :: value) = true := by
    rw [← List.singleton_append, validValue_append, hv]
    rfl
  rw [readField, hcut]
  simp only
  rw [hn, hs, trimOws_cons_space]
  rfl

theorem readField_malformed {name value : Bytes} (hn : validName name = true)
    (ht : isToken name = false) : readField (name ++ [colon, space] ++ value) = none := by
  cases name with
  | nil => cases hn
  | cons c name =>
    have hc : c = colon := by
      by_contra hne
      rw [validName, if_neg (show ¬c = 0x3a from hne)] at hn
      simp only [isToken, List.isEmpty_cons, Bool.not_false, Bool.true_and, List.all_cons] at ht
      rw [hn] at ht
      exact Bool.noConfusion ht
    subst hc
    have hcut : cut colon (colon :: name ++ [colon, space] ++ value) =
        some ([], name ++ [colon, space] ++ value) := by
      rw [List.append_assoc, List.cons_append, cut, if_pos rfl, List.append_assoc]
    rw [readField, hcut]
    rfl

end Castle.Http

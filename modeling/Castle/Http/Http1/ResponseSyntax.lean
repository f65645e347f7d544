import Castle.Http.Http1.Response
import Castle.Http.RequestSyntax
import Castle.Http.ResponseReader

/-!
# The syntax of a response

What HTTP/1 calls a response, within the limits of a parser: a status line, field lines, a
blank line, and a body whose end is told by the request, the status, the framing fields or
the end of the connection.
-/

namespace Castle.Http.Http1

/-- A line without its end, which fits in the line buffer together with it. -/
structure LineFits (cap : ParserCapacity) (line : Bytes) : Prop where
  oneLine : lineFeed ∉ line
  size : line.length + 2 ≤ cap.maxLineSize

structure StatusLine where
  version : Version
  code : ℕ
  reason : Bytes

namespace StatusLine

def digit (value : ℕ) : UInt8 := UInt8.ofNat (0x30 + value % 10)

def text (line : StatusLine) : Bytes :=
  versionText line.version ++ space :: digit (line.code / 100) :: digit (line.code / 10) ::
    digit line.code :: line.reason

/-- Three digits, and behind them nothing or a space and any text. -/
structure Fits (line : StatusLine) : Prop where
  code : 100 ≤ line.code ∧ line.code ≤ 599
  reason : ∀ c ∈ line.reason.head?, c = space

end StatusLine

def fieldsLength (fields : Headers) : Option ℕ :=
  (fields.find? (Field.named (octets "Content-Length"))).bind fun field => parseDecimal field.value

/-- Fields that a parser stores: there is room for them, their lengths agree, and a transfer
coding is `chunked`, where that is enabled. -/
structure FieldsFit (cap : ParserCapacity) (fields : Headers) : Prop where
  count : fields.length ≤ cap.headers.maxHeaders
  sizes : ∀ field ∈ fields, Headers.Fits cap.headers field.name field.value
  length : ∃ n, ∀ field ∈ fields, field.named (octets "Content-Length") = true →
    parseDecimal field.value = some n
  coding : ∀ field ∈ fields, field.named (octets "Transfer-Encoding") = true →
    asciiIequal field.value (octets "chunked") = true ∧ cap.enableChunked = true

/-- A status line and field lines. -/
structure Head where
  status : StatusLine
  lines : List Bytes
  fields : Headers

namespace Head

variable (head : Head)

def text : Bytes := head.status.text ++ crlf ++ head.lines.flatMap (· ++ crlf) ++ crlf

structure Fits (cap : ParserCapacity) : Prop where
  status : head.status.Fits
  lines : ∀ line ∈ head.status.text :: head.lines, LineFits cap line
  fields : head.lines.map readField = head.fields.map some
  stored : FieldsFit cap head.fields
  framing : ¬(head.fields.contains (octets "Content-Length") = true ∧
    head.fields.contains (octets "Transfer-Encoding") = true)

/-- A response before the final one. A protocol is not switched. -/
structure Interim (cap : ParserCapacity) : Prop where
  fits : head.Fits cap
  code : head.status.code < 200 ∧ head.status.code ≠ 101

end Head

/-- The size line of a chunk within the limits. -/
structure SizeLine (cap : ParserCapacity) (line : ChunkLine) (size : ℕ) : Prop where
  digits : line.digits ≠ [] ∧ parseHexLoop line.digits 0 = some size
  extension : ∀ c ∈ line.extension.head?, c = semicolon
  line : LineFits cap (line.digits ++ line.extension)

def trailerField (trailer : Trailer) : Field := ⟨trailer.name, trimOws trailer.value⟩

structure TrailerFits (cap : ParserCapacity) (trailer : Trailer) : Prop where
  name : isToken trailer.name = true
  value : validValue trailer.value = true
  allowed : Parser.forbiddenTrailer trailer.name = false
  sizes : Headers.Fits cap.headers trailer.name (trimOws trailer.value)
  line : LineFits cap trailer.line

/-- Chunks, the last chunk and trailers within the limits, behind so many fields. -/
structure LayoutFits (cap : ParserCapacity) (count : ℕ) (layout : ChunkedLayout) : Prop where
  chunks : ∀ chunk ∈ layout.chunks, chunk.2 ≠ [] ∧ SizeLine cap chunk.1 chunk.2.length
  last : SizeLine cap layout.last 0
  trailers : ∀ trailer ∈ layout.trailers, TrailerFits cap trailer
  room : count + layout.trailers.length ≤ cap.headers.maxHeaders

/-- A body is retained, or a callback takes what is beyond the capacity. -/
def BodyFits (cap : ParserCapacity) (body : Bytes) : Prop :=
  body.length ≤ cap.maxBodySize ∨ cap.bodyCallback = true

/-- The four ways in which a body ends: its text, its bytes, the trailers, and what follows it. -/
inductive Framed (cap : ParserCapacity) (headRequest peerClosed : Bool) (head : Head) :
    Bytes → Bytes → Headers → Bytes → Prop where
  | none (rest : Bytes)
      (hnone : headRequest = true ∨ head.status.code = 204 ∨ head.status.code = 304) :
      Framed cap headRequest peerClosed head [] [] [] rest
  | chunked (layout : ChunkedLayout) (rest : Bytes)
      (hbody : headRequest = false ∧ head.status.code ≠ 204 ∧ head.status.code ≠ 304)
      (hcoding : head.fields.contains (octets "Transfer-Encoding") = true)
      (hlayout : LayoutFits cap head.fields.length layout) (hfits : BodyFits cap layout.body) :
      Framed cap headRequest peerClosed head layout.text layout.body
        (layout.trailers.map trailerField) rest
  | length (body rest : Bytes)
      (hbody : headRequest = false ∧ head.status.code ≠ 204 ∧ head.status.code ≠ 304)
      (hlength : fieldsLength head.fields = some body.length) (hfits : BodyFits cap body) :
      Framed cap headRequest peerClosed head body body [] rest
  | close (body : Bytes)
      (hbody : headRequest = false ∧ head.status.code ≠ 204 ∧ head.status.code ≠ 304)
      (hnone : head.fields.contains (octets "Content-Length") = false ∧
        head.fields.contains (octets "Transfer-Encoding") = false)
      (hclosed : peerClosed = true) (hfits : BodyFits cap body) :
      Framed cap headRequest peerClosed head body body [] []

/-- A response at the front of a stream, behind interim responses. -/
structure ResponseText where
  interims : List Head
  head : Head
  bodyText : Bytes
  body : Bytes
  trailers : Headers
  rest : Bytes

namespace ResponseText

variable (response : ResponseText)

def text : Bytes := response.interims.flatMap Head.text ++ response.head.text ++ response.bodyText

structure Fits (cap : ParserCapacity) (headRequest peerClosed : Bool) : Prop where
  interims : ∀ head ∈ response.interims, head.Interim cap
  head : response.head.Fits cap
  final : 200 ≤ response.head.status.code
  framed : Framed cap headRequest peerClosed response.head response.bodyText response.body
    response.trailers response.rest

end ResponseText

variable {cap : ParserCapacity}

/-- A field that fits behind the fields that are stored. -/
structure NextField (cap : ParserCapacity) (fields : Headers) (field : Field) : Prop where
  room : fields.length < cap.headers.maxHeaders
  sizes : Headers.Fits cap.headers field.name field.value
  length : field.named (octets "Content-Length") = true →
    ∃ n, parseDecimal field.value = some n ∧
      (fields.contains (octets "Content-Length") = true → fieldsLength fields = some n)
  coding : field.named (octets "Transfer-Encoding") = true →
    asciiIequal field.value (octets "chunked") = true ∧ cap.enableChunked = true

theorem FieldsFit.length_eq {fields : Headers} (h : FieldsFit cap fields)
    (hc : fields.contains (octets "Content-Length") = true) :
    ∃ n, fieldsLength fields = some n ∧
      ∀ field ∈ fields, field.named (octets "Content-Length") = true → parseDecimal field.value = some n := by
  obtain ⟨n, hn⟩ := h.length
  obtain ⟨found, hfound⟩ := Option.isSome_iff_exists.mp (List.find?_isSome.mpr (List.any_eq_true.mp hc))
  refine ⟨n, ?_, hn⟩
  rw [fieldsLength, hfound, Option.bind_some]
  exact hn found (List.mem_of_find?_eq_some hfound) (List.find?_some hfound)

theorem FieldsFit.nil : FieldsFit cap [] where
  count := Nat.zero_le _
  sizes := fun _ h => absurd h List.not_mem_nil
  length := ⟨0, fun _ h => absurd h List.not_mem_nil⟩
  coding := fun _ h => absurd h List.not_mem_nil

theorem FieldsFit.snoc {fields : Headers} {field : Field} (h : FieldsFit cap fields)
    (hnext : NextField cap fields field) : FieldsFit cap (fields ++ [field]) where
  count := by
    rw [List.length_append, List.length_singleton]
    exact hnext.room
  sizes := by
    intro other ho
    rw [List.mem_append, List.mem_singleton] at ho
    apply ho.elim (h.sizes other)
    intro he
    rw [he]
    exact hnext.sizes
  length := by
    cases hc : fields.contains (octets "Content-Length") with
    | true =>
      obtain ⟨n, hlength, hn⟩ := h.length_eq hc
      refine ⟨n, ?_⟩
      intro other ho hnamed
      rw [List.mem_append, List.mem_singleton] at ho
      apply ho.elim (fun hin => hn other hin hnamed)
      intro he
      rw [he] at hnamed ⊢
      obtain ⟨m, hm, hsame⟩ := hnext.length hnamed
      rw [hm, ← hsame hc, hlength]
    | false =>
      refine ⟨(parseDecimal field.value).getD 0, ?_⟩
      intro other ho hnamed
      rw [List.mem_append, List.mem_singleton] at ho
      apply ho.elim (fun hin => absurd hnamed (List.any_eq_false.mp hc other hin))
      intro he
      rw [he] at hnamed ⊢
      obtain ⟨m, hm, _⟩ := hnext.length hnamed
      rw [hm]
      rfl
  coding := by
    intro other ho hnamed
    rw [List.mem_append, List.mem_singleton] at ho
    apply ho.elim (fun hin => h.coding other hin hnamed)
    intro he
    rw [he] at hnamed ⊢
    exact hnext.coding hnamed

theorem FieldsFit.split {fields more : Headers} {field : Field}
    (h : FieldsFit cap (fields ++ field :: more)) :
    FieldsFit cap fields ∧ NextField cap fields field := by
  have hleft : ∀ other ∈ fields, other ∈ fields ++ field :: more :=
    fun other ho => List.mem_append_left _ ho
  have hself : field ∈ fields ++ field :: more := List.mem_append_right _ List.mem_cons_self
  have hcount := h.count
  rw [List.length_append, List.length_cons] at hcount
  obtain ⟨n, hn⟩ := h.length
  have hfit : FieldsFit cap fields := {
    count := by omega
    sizes := fun other ho => h.sizes other (hleft other ho)
    length := ⟨n, fun other ho => hn other (hleft other ho)⟩
    coding := fun other ho => h.coding other (hleft other ho) }
  refine ⟨hfit, ?_⟩
  exact {
    room := by omega
    sizes := h.sizes field hself
    length := by
      intro hnamed
      refine ⟨n, hn field hself hnamed, ?_⟩
      intro hc
      obtain ⟨found, hfound, hin⟩ := List.any_eq_true.mp hc
      obtain ⟨m, hlength, hm⟩ := hfit.length_eq hc
      rw [hlength, ← hm found hfound hin]
      exact hn found (hleft found hfound) hin
    coding := h.coding field hself }

end Castle.Http.Http1

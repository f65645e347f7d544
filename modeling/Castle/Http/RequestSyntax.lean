import Mathlib.Data.List.Forall2
import Castle.Http.Fields
import Castle.Http.Text

/-!
# The syntax of a request

What HTTP/1.0 and HTTP/1.1 call a request: a request line, field lines, a blank line, and a body
whose end the framing fields tell.
-/

namespace Castle.Http

def Blanks (text : Bytes) : Prop := ∀ c ∈ text, isBlank c = true

/-- `name: value` with optional white space around the value. -/
structure FieldLine (field : Field) (line : Bytes) : Prop where
  name : isToken field.name = true
  value : validValue field.value = true
  text : ∃ before after, Blanks before ∧ Blanks after ∧
    line = field.name ++ colon :: (before ++ field.value ++ after)

/-- The forms of a target, none of them with a fragment. -/
inductive TargetForm : Bytes → Prop where
  | asterisk : TargetForm (octets "*")
  | origin (path : Bytes) : TargetForm (slash :: path)
  | absolute (scheme authority rest : Bytes)
      (hscheme : asciiIequal scheme (octets "http://") = true ∨
        asciiIequal scheme (octets "https://") = true)
      (hauthority : authority ≠ [] ∧ ∀ c ∈ authority, c ≠ slash ∧ c ≠ question)
      (hrest : ∀ c ∈ rest.head?, c = slash ∨ c = question) :
      TargetForm (scheme ++ authority ++ rest)

def versionText : Version → Bytes
  | .http10 => octets "HTTP/1.0"
  | .http11 => octets "HTTP/1.1"

inductive QuotedText : Bytes → Prop where
  | nil : QuotedText []
  | plain (c : UInt8) (rest : Bytes) (hc : validValue [c] = true ∧ c ≠ 0x22 ∧ c ≠ 0x5c) :
      QuotedText rest → QuotedText (c :: rest)
  | escaped (c : UInt8) (rest : Bytes) (hc : validValue [c] = true) :
      QuotedText rest → QuotedText (0x5c :: c :: rest)

/-- What stands behind the equals sign of an extension: a token or a quoted string. -/
inductive ExtensionValue : Bytes → Prop where
  | token (text : Bytes) : isToken text = true → ExtensionValue text
  | quoted (text : Bytes) : QuotedText text → ExtensionValue (0x22 :: (text ++ [0x22]))

/-- `chunk-ext` -/
inductive Extension : Bytes → Prop where
  | none : Extension []
  | flag (before behind name rest : Bytes) (hb : Blanks before ∧ Blanks behind)
      (hn : isToken name = true) : Extension rest →
      Extension (before ++ semicolon :: (behind ++ name ++ rest))
  | value (before behind name left right value rest : Bytes)
      (hb : Blanks before ∧ Blanks behind ∧ Blanks left ∧ Blanks right)
      (hn : isToken name = true) (hv : ExtensionValue value) : Extension rest →
      Extension (before ++ semicolon :: (behind ++ name ++ left ++ 0x3d :: (right ++ value ++ rest)))

/-- The size line of a chunk: the digits, and what follows them. -/
structure ChunkLine where
  digits : Bytes
  extension : Bytes

def ChunkLine.text (line : ChunkLine) : Bytes := line.digits ++ line.extension ++ crlf

/-- Digits of the size, then nothing or a semicolon and what is behind it. -/
structure ChunkLine.Says (line : ChunkLine) (size : ℕ) : Prop where
  digits : line.digits ≠ [] ∧ parseHexLoop line.digits 0 = some size
  extension : ∀ c ∈ line.extension.head?, c = semicolon
  oneLine : firstIndex crlf line.text = some (line.digits ++ line.extension).length

structure Trailer where
  name : Bytes
  value : Bytes

def Trailer.line (trailer : Trailer) : Bytes := trailer.name ++ colon :: trailer.value

structure Trailer.Fits (trailer : Trailer) : Prop where
  name : isToken trailer.name = true
  allowed : ∀ forbidden ∈ [octets "Content-Length", octets "Transfer-Encoding", octets "Host"],
    asciiIequal trailer.name forbidden = false
  oneLine : firstIndex crlf (trailer.line ++ crlf) = some trailer.line.length

/-- The pieces of a chunked body: chunks with their data, the last chunk, the trailer section. -/
structure ChunkedLayout where
  chunks : List (ChunkLine × Bytes)
  last : ChunkLine
  trailers : List Trailer

namespace ChunkedLayout

variable (layout : ChunkedLayout)

def chunkText (chunk : ChunkLine × Bytes) : Bytes := chunk.1.text ++ chunk.2 ++ crlf

def trailerText (trailers : List Trailer) : Bytes := trailers.flatMap (fun t => t.line ++ crlf) ++ crlf

def text : Bytes := layout.chunks.flatMap chunkText ++ layout.last.text ++ trailerText layout.trailers

def body : Bytes := layout.chunks.flatMap Prod.snd

/-- The lines are cut where they have to be, and every size is the length of its data. -/
structure Fits : Prop where
  chunks : ∀ chunk ∈ layout.chunks, chunk.2 ≠ [] ∧ chunk.1.Says chunk.2.length
  last : layout.last.Says 0
  trailers : ∀ trailer ∈ layout.trailers, trailer.Fits

/-- What HTTP asks of the texts between them. -/
structure Strict : Prop where
  extensions : ∀ chunk ∈ layout.chunks, Extension chunk.1.extension
  lastExtension : Extension layout.last.extension
  trailerValues : ∀ trailer ∈ layout.trailers, validValue trailer.value = true

end ChunkedLayout

/-- Exactly one way to tell the end of the body: its length, the chunks, or none for no body. -/
def BodyFraming (fields : Headers) (text body : Bytes) : Prop :=
  (fields.count (octets "Content-Length") = 0 ∧ fields.count (octets "Transfer-Encoding") = 0 ∧
    text = [] ∧ body = []) ∨
  (fields.count (octets "Content-Length") = 1 ∧ fields.count (octets "Transfer-Encoding") = 0 ∧
    (∀ field ∈ fields, field.named (octets "Content-Length") = true →
      parseDecimal field.value = some body.length) ∧ text = body) ∨
  (fields.count (octets "Content-Length") = 0 ∧ fields.count (octets "Transfer-Encoding") = 1 ∧
    (∀ field ∈ fields, field.named (octets "Transfer-Encoding") = true →
      asciiIequal field.value (octets "chunked") = true) ∧
    ∃ layout : ChunkedLayout, layout.Fits ∧ layout.Strict ∧ text = layout.text ∧ body = layout.body)

/-- The texts of a request: the method, the target, the version, the fields and the body. -/
structure RequestTexts where
  method : Bytes
  target : Bytes
  version : Version
  fields : Headers
  body : Bytes

structure WellFormed (request : RequestTexts) (text : Bytes) : Prop where
  method : isToken request.method = true
  target : isVisibleText request.target = true ∧ 0x23 ∉ request.target ∧ TargetForm request.target
  host : request.version = .http11 → request.fields.count (octets "Host") = 1
  layout : ∃ fieldLines bodyText, List.Forall₂ FieldLine request.fields fieldLines ∧
    BodyFraming request.fields bodyText request.body ∧
    text = request.method ++ space :: (request.target ++ space :: versionText request.version) ++ crlf ++
      fieldLines.flatMap (· ++ crlf) ++ crlf ++ bodyText

/-- A text that holds the mark only at its end is the front of any longer text up to the mark. -/
theorem line_unique {a b r t : Bytes} (ha : firstIndex crlf (a ++ crlf) = some a.length)
    (hb : firstIndex crlf (b ++ crlf) = some b.length) (h : a ++ crlf ++ r = b ++ crlf ++ t) :
    a = b ∧ r = t := by
  have ha' := firstIndex_append crlf_ne_nil ha r
  have hb' := firstIndex_append crlf_ne_nil hb t
  rw [h, hb'] at ha'
  have hlen : b.length = a.length := Option.some.inj ha'
  rw [List.append_assoc, List.append_assoc] at h
  have hab := List.append_inj h hlen.symm
  exact ⟨hab.1, List.append_cancel_left hab.2⟩

theorem not_semicolon_of_hex {digits : Bytes} {n size : ℕ} (h : parseHexLoop digits n = some size) :
    semicolon ∉ digits := by
  induction digits generalizing n with
  | nil => exact List.not_mem_nil
  | cons c digits ih =>
    rw [parseHexLoop] at h
    cases hc : hexDigit c with
    | none =>
      rw [hc] at h
      cases h
    | some digit =>
      rw [hc] at h
      simp only at h
      split at h
      · cases h
      · rw [List.mem_cons, not_or]
        refine ⟨?_, ih h⟩
        intro he
        rw [← he, show hexDigit semicolon = none by decide] at hc
        cases hc

theorem ChunkLine.eq_of_text {a b : ChunkLine} {m n : ℕ} (ha : a.Says m) (hb : b.Says n) {r t : Bytes}
    (h : a.text ++ r = b.text ++ t) : a = b ∧ m = n ∧ r = t := by
  have hline := line_unique ha.oneLine hb.oneLine h
  have hsemi : ∀ line : ChunkLine, ∀ k, line.Says k →
      (line.digits ++ line.extension).takeWhile (· ≠ semicolon) = line.digits := by
    intro line k hk
    have hdigits : ∀ c ∈ line.digits, decide (c ≠ semicolon) = true := by
      intro c hc
      rw [decide_eq_true_eq]
      exact fun he => not_semicolon_of_hex hk.digits.2 (he ▸ hc)
    rw [List.takeWhile_append_of_pos hdigits]
    cases hext : line.extension with
    | nil => simp
    | cons c rest =>
      have hc : c = semicolon := hk.extension c (by rw [hext]; rfl)
      rw [List.takeWhile_cons_of_neg (by simp [hc]), List.append_nil]
  have hd : a.digits = b.digits := by rw [← hsemi a m ha, ← hsemi b n hb, hline.1]
  have he : a.extension = b.extension := by
    have := hline.1
    rw [hd] at this
    exact List.append_cancel_left this
  refine ⟨?_, ?_, hline.2⟩
  · cases a
    cases b
    simp only at hd he
    rw [hd, he]
  · have hm := ha.digits.2
    rw [hd, hb.digits.2] at hm
    exact (Option.some.inj hm).symm

theorem Trailer.eq_of_line {a b : Trailer} (ha : a.Fits) (hb : b.Fits) {r t : Bytes}
    (h : a.line ++ crlf ++ r = b.line ++ crlf ++ t) : a = b ∧ r = t := by
  have hline := line_unique ha.oneLine hb.oneLine h
  have hcut := cut_append (not_mem_token ha.name (show tokenChar colon = false by decide)) a.value
  have hcut' := cut_append (not_mem_token hb.name (show tokenChar colon = false by decide)) b.value
  have hlines : a.name ++ colon :: a.value = b.name ++ colon :: b.value := hline.1
  rw [hlines, hcut'] at hcut
  have hpair := Option.some.inj hcut
  refine ⟨?_, hline.2⟩
  cases a
  cases b
  simp only [Prod.mk.injEq] at hpair
  rw [hpair.1, hpair.2]

theorem Trailer.line_ne_nil (trailer : Trailer) : trailer.line ≠ [] := by
  rw [Trailer.line]
  exact List.append_ne_nil_of_right_ne_nil _ (List.cons_ne_nil _ _)

theorem Trailer.Fits.not_crlf {trailer : Trailer} (h : trailer.Fits) {r t : Bytes} :
    trailer.line ++ crlf ++ r ≠ crlf ++ t := by
  intro he
  have hempty : firstIndex crlf ([] ++ crlf) = some ([] : Bytes).length := by decide
  exact trailer.line_ne_nil (line_unique h.oneLine hempty (by rw [List.nil_append]; exact he)).1

theorem trailers_unique {a b : List Trailer} (ha : ∀ t ∈ a, t.Fits) (hb : ∀ t ∈ b, t.Fits) {r t : Bytes}
    (h : ChunkedLayout.trailerText a ++ r = ChunkedLayout.trailerText b ++ t) : a = b ∧ r = t := by
  simp only [ChunkedLayout.trailerText, List.append_assoc] at h
  induction a generalizing b with
  | nil =>
    cases b with
    | nil => exact ⟨rfl, List.append_cancel_left h⟩
    | cons y b =>
      simp only [List.flatMap_nil, List.nil_append, List.flatMap_cons, List.append_assoc] at h
      exact absurd (by rw [List.append_assoc]; exact h.symm) (hb y List.mem_cons_self).not_crlf
  | cons x a ih =>
    cases b with
    | nil =>
      simp only [List.flatMap_nil, List.nil_append, List.flatMap_cons, List.append_assoc] at h
      exact absurd (by rw [List.append_assoc]; exact h) (ha x List.mem_cons_self).not_crlf
    | cons y b =>
      have hlines : x.line ++ crlf ++ (a.flatMap (fun t => t.line ++ crlf) ++ (crlf ++ r)) =
          y.line ++ crlf ++ (b.flatMap (fun t => t.line ++ crlf) ++ (crlf ++ t)) := by
        simpa only [List.flatMap_cons, List.append_assoc] using h
      have hxy := Trailer.eq_of_line (ha x List.mem_cons_self) (hb y List.mem_cons_self) hlines
      have hrest := ih (fun t ht => ha t (List.mem_cons_of_mem x ht))
        (fun t ht => hb t (List.mem_cons_of_mem y ht)) hxy.2
      exact ⟨by rw [hxy.1, hrest.1], hrest.2⟩

theorem ChunkedLayout.unique {a b : ChunkedLayout} (ha : a.Fits) (hb : b.Fits) {r t : Bytes}
    (h : a.text ++ r = b.text ++ t) : a = b ∧ r = t := by
  obtain ⟨chunks, last, trailers⟩ := a
  obtain ⟨chunks', last', trailers'⟩ := b
  have hac := ha.chunks
  have hbc := hb.chunks
  have hal := ha.last
  have hbl := hb.last
  have hat := ha.trailers
  have hbt := hb.trailers
  clear ha hb
  simp only [ChunkedLayout.text, List.append_assoc] at h hac hbc hal hbl hat hbt
  induction chunks generalizing chunks' with
  | nil =>
    cases chunks' with
    | nil =>
      have hl := ChunkLine.eq_of_text hal hbl h
      have ht := trailers_unique hat hbt hl.2.2
      exact ⟨by rw [hl.1, ht.1], ht.2⟩
    | cons y chunks' =>
      have hy := hbc y List.mem_cons_self
      simp only [List.flatMap_nil, List.nil_append, List.flatMap_cons, ChunkedLayout.chunkText,
        List.append_assoc] at h
      have hl := ChunkLine.eq_of_text hal hy.2 h
      exact absurd (List.length_eq_zero_iff.mp hl.2.1.symm) hy.1
  | cons x chunks ih =>
    have hx := hac x List.mem_cons_self
    cases chunks' with
    | nil =>
      simp only [List.flatMap_nil, List.nil_append, List.flatMap_cons, ChunkedLayout.chunkText,
        List.append_assoc] at h
      have hl := ChunkLine.eq_of_text hx.2 hbl h
      exact absurd (List.length_eq_zero_iff.mp hl.2.1) hx.1
    | cons y chunks' =>
      have hy := hbc y List.mem_cons_self
      simp only [List.flatMap_cons, ChunkedLayout.chunkText, List.append_assoc] at h
      have hl := ChunkLine.eq_of_text hx.2 hy.2 h
      have hdata := List.append_inj hl.2.2 hl.2.1
      have hrest := ih chunks' (fun c hc => hac c (List.mem_cons_of_mem x hc))
        (fun c hc => hbc c (List.mem_cons_of_mem y hc)) (List.append_cancel_left hdata.2)
      have hxy : x = y := Prod.ext hl.1 hdata.1
      have hlayout := hrest.1
      simp only [ChunkedLayout.mk.injEq] at hlayout ⊢
      exact ⟨⟨by rw [hxy, hlayout.1], hlayout.2⟩, hrest.2⟩

theorem not_mem_blanks {text : Bytes} (h : Blanks text) : carriageReturn ∉ text :=
  fun hm => absurd (h _ hm) (by decide)

theorem FieldLine.plain {field : Field} {line : Bytes} (h : FieldLine field line) :
    Plain carriageReturn line := by
  obtain ⟨before, after, hb, ha, hline⟩ := h.text
  have hname := not_mem_token h.name carriageReturn_not_token
  have hvalue := carriageReturn_not_mem h.value
  rw [hline]
  constructor
  · exact List.append_ne_nil_of_right_ne_nil _ (List.cons_ne_nil _ _)
  · simp only [List.mem_append, List.mem_cons, not_or]
    exact ⟨hname, by decide, ⟨not_mem_blanks hb, hvalue⟩, not_mem_blanks ha⟩

theorem fieldLines_plain {fields : Headers} {fieldLines : List Bytes}
    (h : List.Forall₂ FieldLine fields fieldLines) : ∀ line ∈ fieldLines, Plain carriageReturn line := by
  induction h with
  | nil => exact fun _ hm => absurd hm List.not_mem_nil
  | cons hline _ ih =>
    intro line hm
    rw [List.mem_cons] at hm
    exact hm.elim (fun he => he ▸ hline.plain) (ih line)

theorem WellFormed.plain {request : RequestTexts} {text : Bytes} (h : WellFormed request text) :
    Plain carriageReturn
      (request.method ++ space :: (request.target ++ space :: versionText request.version)) := by
  have hmethod := not_mem_token h.method carriageReturn_not_token
  have htarget : carriageReturn ∉ request.target := by
    intro hm
    have hvisible := h.target.1
    rw [isVisibleText, Bool.and_eq_true, List.all_eq_true] at hvisible
    exact absurd (hvisible.2 _ hm) (by decide)
  have hversion : carriageReturn ∉ versionText request.version := by
    cases request.version <;> decide
  constructor
  · exact List.append_ne_nil_of_right_ne_nil _ (List.cons_ne_nil _ _)
  · simp only [List.mem_append, List.mem_cons, not_or]
    exact ⟨hmethod, by decide, htarget, by decide, hversion⟩

theorem WellFormed.headerEnd {request : RequestTexts} {text rest : Bytes} (h : WellFormed request text)
    {marker : ℕ} (hm : firstIndex (crlf ++ crlf) (text ++ rest) = some marker) :
    ∃ bodyText, (text ++ rest).drop (marker + 4) = bodyText ++ rest ∧
      text.length = marker + 4 + bodyText.length ∧ BodyFraming request.fields bodyText request.body := by
  obtain ⟨fieldLines, bodyText, hlines, hframing, htext⟩ := h.layout
  have hplain : ∀ line ∈ (request.method ++ space ::
      (request.target ++ space :: versionText request.version)) :: fieldLines, Plain carriageReturn line := by
    intro line hl
    rw [List.mem_cons] at hl
    exact hl.elim (fun he => he ▸ h.plain) (fieldLines_plain hlines line)
  have hhead : text = joinLines crlf ((request.method ++ space ::
      (request.target ++ space :: versionText request.version)) :: fieldLines) ++ (crlf ++ crlf) ++ bodyText := by
    have hjoin := joinLines_append crlf ((request.method ++ space ::
      (request.target ++ space :: versionText request.version)) :: fieldLines) (List.cons_ne_nil _ _)
    rw [List.flatMap_cons] at hjoin
    rw [← List.append_assoc, hjoin, htext]
  have hfound := firstIndex_joinLines crlf_ne (List.cons_ne_nil _ _) hplain (bodyText ++ rest)
  have hwhole : text ++ rest = joinLines crlf ((request.method ++ space ::
      (request.target ++ space :: versionText request.version)) :: fieldLines) ++ (crlf ++ crlf) ++
        (bodyText ++ rest) := by
    rw [hhead, List.append_assoc]
  rw [hwhole] at hm
  have hmarker : marker = (joinLines crlf ((request.method ++ space ::
      (request.target ++ space :: versionText request.version)) :: fieldLines)).length :=
    Option.some.inj (hm.symm.trans hfound)
  refine ⟨bodyText, ?_, ?_, hframing⟩
  · have hlen : (joinLines crlf ((request.method ++ space :: (request.target ++ space ::
        versionText request.version)) :: fieldLines) ++ (crlf ++ crlf)).length = marker + 4 := by
      rw [List.length_append, hmarker]
      rfl
    rw [hwhole, ← hlen, List.drop_left]
  · rw [hhead, hmarker, List.length_append, List.length_append]
    rfl

end Castle.Http

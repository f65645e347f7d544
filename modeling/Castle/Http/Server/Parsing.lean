import Castle.Http.RequestSyntax
import Castle.Http.Server.Connection

/-!
# What the request parser accepts

The header section that `parse_headers` accepts is a request line and field lines, and its variables
say how often each framing field occurs.
-/

namespace Castle.Http.Server

variable {cap : Capacity} {request : Request} {input : Bytes} {marker : ℕ}

theorem assignPath_eq {next : Request} {target normalized : Bytes}
    (h : request.assignPath target normalized = some next) :
    normalized.head? = some slash ∧ next.target = target ∧ next.methodText = request.methodText ∧
      next.version = request.version ∧ next.headers = request.headers := by
  rw [Request.assignPath] at h
  split at h
  · cases h
  next hs =>
    rw [← Option.some.inj h]
    exact ⟨not_not.mp hs, rfl, rfl, rfl, rfl⟩

theorem schemeSize_spec {target : Bytes} {size : ℕ} (h : Request.schemeSize target = some size) :
    asciiIequal (target.take size) (octets "http://") = true ∨
      asciiIequal (target.take size) (octets "https://") = true := by
  rw [Request.schemeSize] at h
  split at h
  next hs =>
    rw [← Option.some.inj h]
    exact Or.inr hs
  · split at h
    next hp =>
      rw [← Option.some.inj h]
      exact Or.inl hp
    · cases h

theorem assignTarget_eq {next : Request} {target : Bytes}
    (h : request.assignTarget cap target = some next) :
    TargetForm target ∧ next.target = target ∧ next.methodText = request.methodText ∧
      next.version = request.version ∧ next.headers = request.headers := by
  rw [Request.assignTarget] at h
  split at h
  · cases h
  · split at h
    next hstar =>
      rw [← Option.some.inj h, hstar]
      exact ⟨.asterisk, rfl, rfl, rfl, rfl⟩
    · split at h
      · have hpath := assignPath_eq h
        obtain ⟨rest, hrest⟩ := List.head?_eq_some_iff.mp hpath.1
        exact ⟨hrest ▸ .origin rest, hpath.2⟩
      next size hsize =>
        have hscheme := schemeSize_spec hsize
        simp only at h
        split at h
        · cases h
        next hauthority =>
          have hform : TargetForm target := by
            have hsplit : target = target.take size ++
                (target.drop size).takeWhile (fun c => c ≠ slash && c ≠ question) ++
                (target.drop size).dropWhile (fun c => c ≠ slash && c ≠ question) := by
              rw [List.append_assoc, List.takeWhile_append_dropWhile, List.take_append_drop]
            rw [hsplit]
            apply TargetForm.absolute _ _ _ hscheme
            · refine ⟨hauthority, ?_⟩
              intro c hc
              simpa using List.mem_takeWhile_imp hc
            · intro c hc
              have := List.head?_dropWhile_not (fun c => c ≠ slash && c ≠ question) (target.drop size)
              rw [Option.mem_def.mp hc] at this
              by_cases hcs : c = slash
              · exact Or.inl hcs
              · apply Or.inr
                by_contra hcq
                simp [hcs, hcq] at this
          split at h
          · exact ⟨hform, (assignPath_eq h).2⟩
          · split at h
            · rw [← Option.some.inj h]
              exact ⟨hform, rfl, rfl, rfl, rfl⟩
            · exact ⟨hform, (assignPath_eq h).2⟩

theorem parseRequestLine_ok {line : Bytes} (h : parseRequestLine cap line = .ok request) :
    line = request.methodText ++ space :: (request.target ++ space :: versionText request.version) ∧
      isToken request.methodText = true ∧ isVisibleText request.target = true ∧
      0x23 ∉ request.target ∧ TargetForm request.target ∧ request.headers = [] := by
  rw [parseRequestLine] at h
  split at h
  · cases h
  next verb rest hverb =>
    split at h
    · cases h
    next target protocol htarget =>
      have hv := cut_eq_some_iff.mp hverb
      have ht := cut_eq_some_iff.mp htarget
      split at h
      · cases h
      · split at h
        · cases h
        next htexts =>
          split at h
          · cases h
          · split at h
            · cases h
            next hprotocol =>
              simp only at h
              split at h
              · cases h
              next hfragment =>
                split at h
                · cases h
                next next hassign =>
                  have hnext : next = request := Except.ok.inj h
                  subst hnext
                  obtain ⟨named, hnamed, hassign⟩ := Option.bind_eq_some_iff.mp hassign
                  have hmethod : named = { ({ version := if protocol = octets "HTTP/1.1" then .http11 else .http10 } : Request) with
                      methodText := verb, method := parseMethod verb } := by
                    rw [Request.assignMethod] at hnamed
                    split at hnamed
                    · cases hnamed
                    · exact (Option.some.inj hnamed).symm
                  have hspec := assignTarget_eq hassign
                  rw [hmethod] at hspec
                  simp only [Bool.or_eq_true, Bool.not_eq_true', not_or, Bool.not_eq_false] at htexts
                  have hversion : versionText next.version = protocol := by
                    rw [hspec.2.2.2.1]
                    by_cases h11 : protocol = octets "HTTP/1.1"
                    · rw [if_pos h11, h11]
                      rfl
                    · have h10 : protocol = octets "HTTP/1.0" := by
                        by_contra hne
                        exact hprotocol (by simp [h11, hne])
                      rw [if_neg h11, h10]
                      rfl
                  have htarget' : next.target = target := hspec.2.1
                  have hverb' : next.methodText = verb := hspec.2.2.1
                  refine ⟨?_, ?_, ?_, ?_, ?_, hspec.2.2.2.2⟩
                  · rw [hversion, htarget', hverb', ← ht.1, ← hv.1]
                  · rw [hverb']
                    exact htexts.1
                  · rw [htarget']
                    exact htexts.2
                  · rw [htarget']
                    intro hmem
                    exact hfragment (List.contains_iff_mem.mpr hmem)
                  · rw [htarget']
                    exact hspec.1

theorem count_append_field (headers : Headers) (field : Field) (name : Bytes) : Headers.count
    (headers ++ [field]) name = Headers.count headers name + if field.named name then 1 else 0 := by
  simp [Headers.count]

/-- What the variables of the loop say about the lines that were read. -/
structure Fields.Read (cap : Capacity) (fields : Fields) (fieldLines : List Bytes) : Prop where
  lines : List.Forall₂ FieldLine fields.headers fieldLines
  contentLength : fields.headers.count (octets "Content-Length") = fields.contentLength.toList.length
  length : ∀ n ∈ fields.contentLength, n ≤ cap.maxBodySize ∧ ∀ field ∈ fields.headers,
    field.named (octets "Content-Length") = true → parseDecimal field.value = some n
  transferEncoding : fields.headers.count (octets "Transfer-Encoding") =
    if fields.hasTransferEncoding then 1 else 0
  chunked : ∀ field ∈ fields.headers, field.named (octets "Transfer-Encoding") = true →
    asciiIequal field.value (octets "chunked") = true
  host : fields.headers.count (octets "Host") = if fields.hasHost then 1 else 0

namespace Fields

variable {fields noted next : Fields} {name value line : Bytes} {fieldLines : List Bytes}

theorem Read.nil : Read cap {} [] where
  lines := List.Forall₂.nil
  contentLength := rfl
  length := fun _ h => absurd h (by simp)
  transferEncoding := rfl
  chunked := fun _ h => absurd h List.not_mem_nil
  host := rfl

theorem not_named {headers : Headers} {name : Bytes} (h : headers.count name = 0) {field : Field}
    (hm : field ∈ headers) : field.named name = false :=
  Bool.eq_false_iff.mpr (List.countP_eq_zero.mp h field hm)

theorem note_spec (hr : Read cap fields fieldLines) (hl : FieldLine ⟨name, value⟩ line)
    (h : fields.note cap name value = .ok noted) :
    noted.headers = fields.headers ∧
    Read cap { noted with headers := fields.headers ++ [⟨name, value⟩] } (fieldLines ++ [line]) := by
  have hlines := List.rel_append hr.lines (List.Forall₂.cons hl List.Forall₂.nil)
  have hcl : (⟨name, value⟩ : Field).named (octets "Content-Length") =
      asciiIequal name (octets "Content-Length") := rfl
  have hte : (⟨name, value⟩ : Field).named (octets "Transfer-Encoding") =
      asciiIequal name (octets "Transfer-Encoding") := rfl
  have hho : (⟨name, value⟩ : Field).named (octets "Host") = asciiIequal name (octets "Host") := rfl
  rw [note] at h
  split at h
  next hname =>
    have hte' : asciiIequal name (octets "Transfer-Encoding") = false :=
      Field.named_other (by decide) (hcl.trans hname)
    have hho' : asciiIequal name (octets "Host") = false := Field.named_other (by decide) (hcl.trans hname)
    split at h
    · cases h
    next hnone =>
      rw [Bool.not_eq_true, Option.isSome_eq_false_iff, Option.isNone_iff_eq_none] at hnone
      have hzero := hr.contentLength
      rw [hnone] at hzero
      split at h
      · cases h
      next n hn =>
        split at h
        · cases h
        next hle =>
          rw [← Except.ok.inj h]
          refine ⟨rfl, hlines, ?_, ?_, ?_, ?_, ?_⟩
          · rw [count_append_field, hzero, hcl, hname]
            rfl
          · intro m hm
            rw [← Option.some.inj hm]
            refine ⟨Nat.le_of_not_lt hle, ?_⟩
            intro field hf hfn
            rw [List.mem_append, List.mem_singleton] at hf
            apply hf.elim
            · intro hin
              rw [not_named hzero hin] at hfn
              exact Bool.noConfusion hfn
            · intro he
              rw [he, hn]
          · rw [count_append_field, hr.transferEncoding, hte, hte']
            rfl
          · intro field hf hfn
            rw [List.mem_append, List.mem_singleton] at hf
            apply hf.elim (fun hin => hr.chunked field hin hfn)
            intro he
            rw [he, hte, hte'] at hfn
            exact Bool.noConfusion hfn
          · rw [count_append_field, hr.host, hho, hho']
            rfl
  next hname =>
    rw [Bool.not_eq_true] at hname
    have hlength : ∀ n ∈ fields.contentLength, n ≤ cap.maxBodySize ∧
        ∀ field ∈ fields.headers ++ [⟨name, value⟩], field.named (octets "Content-Length") = true →
          parseDecimal field.value = some n := by
      intro n hn
      refine ⟨(hr.length n hn).1, ?_⟩
      intro field hf hfn
      rw [List.mem_append, List.mem_singleton] at hf
      apply hf.elim (fun hin => (hr.length n hn).2 field hin hfn)
      intro he
      rw [he, hcl, hname] at hfn
      exact Bool.noConfusion hfn
    have hcount : Headers.count (fields.headers ++ [⟨name, value⟩]) (octets "Content-Length") =
        fields.contentLength.toList.length := by
      rw [count_append_field, hr.contentLength, hcl, hname]
      rfl
    split at h
    next htransfer =>
      have hho' : asciiIequal name (octets "Host") = false :=
        Field.named_other (by decide) (hte.trans htransfer)
      split at h
      · cases h
      next hfirst =>
        rw [Bool.not_eq_true] at hfirst
        have hzero := hr.transferEncoding
        rw [hfirst] at hzero
        split at h
        · cases h
        next hchunked =>
          rw [Bool.not_eq_true, Bool.not_eq_false'] at hchunked
          rw [← Except.ok.inj h]
          refine ⟨rfl, hlines, hcount, hlength, ?_, ?_, ?_⟩
          · rw [count_append_field, hzero, hte, htransfer]
            rfl
          · intro field hf hfn
            rw [List.mem_append, List.mem_singleton] at hf
            apply hf.elim (fun hin => hr.chunked field hin hfn)
            intro he
            rw [he]
            exact hchunked
          · rw [count_append_field, hr.host, hho, hho']
            rfl
    next htransfer =>
      rw [Bool.not_eq_true] at htransfer
      have htcount : Headers.count (fields.headers ++ [⟨name, value⟩]) (octets "Transfer-Encoding") =
          if fields.hasTransferEncoding then 1 else 0 := by
        rw [count_append_field, hr.transferEncoding, hte, htransfer]
        rfl
      have hchunked : ∀ field ∈ fields.headers ++ [⟨name, value⟩],
          field.named (octets "Transfer-Encoding") = true →
            asciiIequal field.value (octets "chunked") = true := by
        intro field hf hfn
        rw [List.mem_append, List.mem_singleton] at hf
        apply hf.elim (fun hin => hr.chunked field hin hfn)
        intro he
        rw [he, hte, htransfer] at hfn
        exact Bool.noConfusion hfn
      split at h
      next hhost =>
        split at h
        · cases h
        next hfirst =>
          rw [Bool.not_eq_true] at hfirst
          have hzero := hr.host
          rw [hfirst] at hzero
          split at h
          · cases h
          · rw [← Except.ok.inj h]
            refine ⟨rfl, hlines, hcount, hlength, htcount, hchunked, ?_⟩
            rw [count_append_field, hzero, hho, hhost]
            rfl
      next hhost =>
        rw [Bool.not_eq_true] at hhost
        rw [← Except.ok.inj h]
        refine ⟨rfl, hlines, hcount, hlength, htcount, hchunked, ?_⟩
        rw [count_append_field, hr.host, hho, hhost]
        rfl

theorem store_eq (h : fields.store cap name value = .ok next) :
    next = { fields with headers := fields.headers ++ [⟨name, value⟩] } ∧
      validName name = true ∧ validValue value = true := by
  rw [store] at h
  split at h
  next headers hadd =>
    rw [← Except.ok.inj h]
    by_cases hok : validName name = true ∧ validValue value = true
    · rw [Headers.add_eq hok.1 hok.2] at hadd
      split at hadd
      · cases hadd
      · split at hadd
        · rw [← (Prod.mk.inj hadd).2]
          exact ⟨rfl, hok⟩
        · cases hadd
    · rw [Headers.add, if_pos (by simpa [Bool.and_eq_true, ← Bool.not_and] using hok)] at hadd
      cases hadd
  · cases h
  · cases h
  · cases h

theorem addLine_read (hr : Read cap fields fieldLines) (h : fields.addLine cap line = .ok next) :
    Read cap next (fieldLines ++ [line]) := by
  rw [addLine] at h
  split at h
  · cases h
  · split at h
    · cases h
    next name rest hcut =>
      have hc := cut_eq_some_iff.mp hcut
      simp only at h
      split at h
      · cases h
      next hname =>
        split at h
        · cases h
        · split at h
          · cases h
          · cases hnote : ({ fields with headerCount := fields.headerCount + 1 } : Fields).note cap name
                (trimOws rest) with
            | error e =>
              rw [hnote] at h
              cases h
            | ok noted =>
              rw [hnote] at h
              have hstore : noted.store cap name (trimOws rest) = .ok next := h
              obtain ⟨hnext, hvalid, hvalue⟩ := store_eq hstore
              have htoken : isToken name = true := by
                cases hn : name with
                | nil =>
                  rw [hn] at hname
                  exact absurd rfl hname
                | cons c tail =>
                  have hcolon : c ≠ colon := by
                    intro he
                    exact hc.2 (by rw [hn, he]; exact List.mem_cons_self)
                  rw [hn, validName, if_neg (show ¬c = 0x3a from hcolon)] at hvalid
                  rw [isToken, List.all_cons, hvalid]
                  rfl
              have hline : FieldLine ⟨name, trimOws rest⟩ line := by
                obtain ⟨before, after, hsplit, hb, ha⟩ := trimOws_split rest
                refine ⟨htoken, hvalue, before, after, hb, ha, ?_⟩
                rw [hc.1, ← hsplit]
              have hcounted : Read cap { fields with headerCount := fields.headerCount + 1 } fieldLines :=
                ⟨hr.lines, hr.contentLength, hr.length, hr.transferEncoding, hr.chunked, hr.host⟩
              have hspec := note_spec hcounted hline hnote
              rw [hnext, hspec.1]
              exact hspec.2

theorem addLines_read {more : List Bytes} (hr : Read cap fields fieldLines)
    (h : addLines cap more fields = .ok next) : Read cap next (fieldLines ++ more) := by
  induction more generalizing fields fieldLines with
  | nil =>
    rw [← Except.ok.inj h, List.append_nil]
    exact hr
  | cons line more ih =>
    rw [addLines] at h
    cases hline : fields.addLine cap line with
    | error e =>
      rw [hline] at h
      cases h
    | ok read =>
      rw [hline] at h
      have := ih (addLine_read hr hline) h
      rwa [List.append_assoc] at this

end Fields

/-- What the parser accepts before the blank line, and what it found out. -/
structure HeadersAccepted (cap : Capacity) (input : Bytes) (marker : ℕ) (parsed : ParsedHeaders) :
    Prop where
  method : isToken parsed.request.methodText = true
  target : isVisibleText parsed.request.target = true ∧ 0x23 ∉ parsed.request.target ∧
    TargetForm parsed.request.target
  fields : ∃ fieldLines, List.Forall₂ FieldLine parsed.request.headers fieldLines ∧
    input.take (marker + 4) = parsed.request.methodText ++ space ::
      (parsed.request.target ++ space :: versionText parsed.request.version) ++ crlf ++
      fieldLines.flatMap (· ++ crlf) ++ crlf
  contentLength : parsed.request.headers.count (octets "Content-Length") =
    parsed.contentLength.toList.length
  length : ∀ n ∈ parsed.contentLength, n ≤ cap.maxBodySize ∧ ∀ field ∈ parsed.request.headers,
    field.named (octets "Content-Length") = true → parseDecimal field.value = some n
  transferEncoding : parsed.request.headers.count (octets "Transfer-Encoding") =
    if parsed.chunked then 1 else 0
  chunked : ∀ field ∈ parsed.request.headers, field.named (octets "Transfer-Encoding") = true →
    asciiIequal field.value (octets "chunked") = true
  single : parsed.contentLength.isSome = true → parsed.chunked = false
  host : parsed.request.version = .http11 → parsed.request.headers.count (octets "Host") = 1

theorem parseHeaders_accepted {parsed : ParsedHeaders} (hm : findHeaderEnd input = some marker)
    (h : parseHeaders cap input marker = .ok parsed) : HeadersAccepted cap input marker parsed := by
  rw [parseHeaders] at h
  cases hline : parseRequestLine cap ((lines crlf (input.take marker)).headD []) with
  | error e =>
    rw [hline] at h
    cases h
  | ok first =>
    rw [hline] at h
    simp only [bind, Except.bind] at h
    cases hfields : Fields.addLines cap (lines crlf (input.take marker)).tail {} with
    | error e =>
      rw [hfields] at h
      cases h
    | ok fields =>
      rw [hfields] at h
      simp only at h
      obtain ⟨htext, hmethod, hvisible, hfragment, hform, _⟩ := parseRequestLine_ok hline
      have hread := Fields.addLines_read Fields.Read.nil hfields
      rw [List.nil_append] at hread
      split at h
      · cases h
      next hhost =>
        split at h
        · cases h
        next hboth =>
          split at h
          · cases h
          · rw [← Except.ok.inj h]
            have hnonempty : input.take marker ≠ [] := by
              intro hnil
              rw [hnil, lines_nil] at htext
              exact absurd htext.symm (List.append_ne_nil_of_right_ne_nil _ (List.cons_ne_nil _ _))
            have hjoin := join_lines crlf_ne_nil hnonempty (not_suffix_of_double hm crlf_ne_nil)
            have hlines : lines crlf (input.take marker) =
                (lines crlf (input.take marker)).headD [] :: (lines crlf (input.take marker)).tail := by
              cases hl : lines crlf (input.take marker) with
              | nil =>
                rw [hl] at hjoin
                exact absurd hjoin.symm (List.append_ne_nil_of_right_ne_nil _ crlf_ne_nil)
              | cons l ls => rfl
            have hhead : input.take (marker + 4) = input.take marker ++ crlf ++ crlf := by
              rw [List.append_assoc]
              exact take_firstIndex hm
            refine ⟨hmethod, ⟨hvisible, hfragment, hform⟩, ⟨_, hread.lines, ?_⟩, hread.contentLength,
              hread.length, hread.transferEncoding, hread.chunked, ?_, ?_⟩
            · rw [hhead, ← hjoin, hlines, List.flatMap_cons, ← hlines, htext]
            · intro hsome
              by_contra hchunked
              rw [Bool.not_eq_false] at hchunked
              exact hboth (by rw [Bool.and_eq_true]; exact ⟨hsome, hchunked⟩)
            · intro hversion
              have hhas : fields.hasHost = true := by
                by_contra hne
                exact hhost (by simpa [hne] using hversion)
              have := hread.host
              rw [hhas] at this
              exact this

end Castle.Http.Server

/-!
## What the chunk decoder accepts

The rounds of `decode_chunked` take the pieces of a layout off the buffer. Its accesses stay
inside the buffer and the body, and there is a round for every piece.
-/

namespace Castle.Http.Server

variable {cap : Capacity} {input : Bytes}

theorem findCrlf_some {cursor lineEnd : ℕ} (h : findCrlf input cursor = some lineEnd) : cursor ≤
    lineEnd ∧ lineEnd + 2 ≤ input.length ∧ (slice input cursor lineEnd).length = lineEnd - cursor ∧
    input.drop cursor = slice input cursor lineEnd ++ crlf ++ input.drop (lineEnd + 2) ∧ firstIndex
    crlf (slice input cursor lineEnd ++ crlf) = some (slice input cursor lineEnd).length := by
  obtain ⟨i, hi, he⟩ := Option.map_eq_some_iff.mp h
  have hcrlf : crlf.length = 2 := rfl
  have hle := firstIndex_le hi
  rw [List.length_drop, hcrlf] at hle
  have hslice : slice input cursor lineEnd = (input.drop cursor).take i := by
    rw [slice, ← he, Nat.add_sub_cancel_left]
  have hlen : (slice input cursor lineEnd).length = i := by
    rw [hslice, List.length_take, List.length_drop]
    omega
  refine ⟨by omega, by omega, by omega, ?_, ?_⟩
  · have hsplit := firstIndex_split hi
    rw [hcrlf, List.drop_drop] at hsplit
    rw [hslice, ← he, Nat.add_assoc]
    exact hsplit
  · have hfound := firstIndex_eq_some hi
    rw [hlen]
    apply firstIndex_of crlf_ne_nil
    · rw [hslice, List.drop_append_of_le_length (by rw [← hslice]; omega),
        List.drop_eq_nil_of_le (by rw [← hslice]; omega)]
      exact List.prefix_rfl
    · intro j hj hp
      apply hfound.2 j hj
      have htake : slice input cursor lineEnd ++ crlf = (input.drop cursor).take (i + crlf.length) := by
        rw [take_firstIndex hi, hslice]
      rw [htake, List.drop_take] at hp
      exact hp.trans (List.take_prefix _ _)

theorem decodeTrailers_inBounds {start cursor count fuel : ℕ} {body : Bytes}
    (hf : input.length < fuel + cursor) (hc : cursor ≤ input.length) :
    decodeTrailers cap input start body fuel cursor count ≠ none := by
  induction fuel generalizing cursor count with
  | zero => omega
  | succ fuel ih =>
    rw [decodeTrailers]
    split
    · split <;> exact Option.some_ne_none _
    next lineEnd hline =>
      have hfound := findCrlf_some hline
      split
      · exact Option.some_ne_none _
      · split
        · exact Option.some_ne_none _
        · simp only
          split
          · exact Option.some_ne_none _
          · split
            · exact Option.some_ne_none _
            · split
              · exact Option.some_ne_none _
              · split
                · exact Option.some_ne_none _
                · exact ih (by omega) (by omega)

theorem decodeChunks_inBounds {cursor fuel : ℕ} {body : Bytes} (hf : input.length < fuel + cursor)
    (hc : cursor ≤ input.length) (hb : body.length ≤ cap.maxBodySize) :
    decodeChunks cap input fuel cursor body ≠ none := by
  induction fuel generalizing cursor body with
  | zero => omega
  | succ fuel ih =>
    rw [decodeChunks]
    split
    · exact Option.some_ne_none _
    next lineEnd hline =>
      have hfound := findCrlf_some hline
      split
      · exact Option.some_ne_none _
      · exact decodeTrailers_inBounds (by omega) (by omega)
      next size hsize =>
        split
        · exact Option.some_ne_none _
        next hroom =>
          split
          · exact Option.some_ne_none _
          next hthere =>
            have hcopy : copyToBody cap body input (lineEnd + 2) (size + 1) =
                some (body ++ slice input (lineEnd + 2) (lineEnd + 2 + (size + 1))) := by
              rw [copyToBody, if_neg]
              simp only [Bool.or_eq_true, decide_eq_true_eq]
              omega
            have hcr : lineEnd + 2 + (size + 1) < input.length := by omega
            have hlf : lineEnd + 2 + (size + 1) + 1 < input.length := by omega
            rw [hcopy, List.getElem?_eq_getElem hcr, List.getElem?_eq_getElem hlf]
            simp only [Option.bind_eq_bind, Option.bind_some]
            split
            · exact Option.some_ne_none _
            · apply ih (by omega) (by omega)
              have hslice : (slice input (lineEnd + 2) (lineEnd + 2 + (size + 1))).length ≤ size + 1 := by
                rw [slice, List.length_take]
                omega
              rw [List.length_append]
              omega

theorem firstIndex_line {line : Bytes} {cursor lineEnd : ℕ} (h : findCrlf input cursor = some lineEnd)
    (hl : line = slice input cursor lineEnd) : firstIndex crlf (line ++ crlf) = some line.length := by
  rw [hl]
  exact (findCrlf_some h).2.2.2.2

theorem decodeTrailers_complete {start cursor count fuel consumed : ℕ} {body decoded : Bytes}
    (h : decodeTrailers cap input start body fuel cursor count = some (.complete consumed decoded)) :
    decoded = body ∧ ∃ trailers : List Trailer, (∀ t ∈ trailers, t.Fits) ∧
      consumed = cursor + (ChunkedLayout.trailerText trailers).length ∧
      input.drop cursor = ChunkedLayout.trailerText trailers ++ input.drop consumed := by
  induction fuel generalizing cursor count with
  | zero => cases h
  | succ fuel ih =>
    rw [decodeTrailers] at h
    split at h
    · split at h <;> cases h
    next lineEnd hline =>
      have hfound := findCrlf_some hline
      split at h
      · cases h
      · split at h
        next hempty =>
          have heq := Option.some.inj h
          simp only [Decoded.complete.injEq] at heq
          refine ⟨heq.2.symm, [], fun _ hm => absurd hm List.not_mem_nil, ?_, ?_⟩
          · rw [← heq.1]
            rfl
          · have hslice : slice input cursor lineEnd = [] := by
              rw [slice, hempty, Nat.sub_self, List.take_zero]
            have hdrop := hfound.2.2.2.1
            rw [hslice, List.nil_append] at hdrop
            rw [hdrop, ← heq.1, ← hempty]
            rfl
        next hnonempty =>
          simp only at h
          split at h
          · cases h
          next name value hcut =>
            have hsplit := cut_eq_some_iff.mp hcut
            split at h
            · cases h
            next hname =>
              split at h
              · cases h
              · split at h
                · cases h
                next hframing =>
                  obtain ⟨hdecoded, trailers, hfits, hconsumed, hdrop⟩ := ih h
                  have hlinetext : (⟨name, value⟩ : Trailer).line = slice input cursor lineEnd :=
                    hsplit.1.symm
                  have hfit : Trailer.Fits ⟨name, value⟩ := by
                    simp only [Bool.or_eq_true, Bool.not_eq_true', not_or, Bool.not_eq_false] at hname
                    refine ⟨hname.2, ?_, firstIndex_line hline hlinetext⟩
                    rw [framingName, Bool.not_eq_true, Bool.or_eq_false_iff,
                      Bool.or_eq_false_iff] at hframing
                    intro forbidden hm
                    simp only [List.mem_cons, List.not_mem_nil, or_false] at hm
                    apply hm.elim (fun he => he ▸ hframing.1.1)
                    intro hm
                    exact hm.elim (fun he => he ▸ hframing.1.2) (fun he => he ▸ hframing.2)
                  refine ⟨hdecoded, ⟨name, value⟩ :: trailers, ?_, ?_, ?_⟩
                  · intro t ht
                    rw [List.mem_cons] at ht
                    exact ht.elim (fun he => he ▸ hfit) (hfits t)
                  · rw [hconsumed]
                    simp only [ChunkedLayout.trailerText, List.flatMap_cons, List.length_append,
                      hlinetext, hfound.2.2.1]
                    have hcrlf : crlf.length = 2 := rfl
                    omega
                  · rw [hfound.2.2.2.1, hdrop, ← hlinetext]
                    simp [ChunkedLayout.trailerText]

theorem parseHex_line {cursor lineEnd size : ℕ} (hline : findCrlf input cursor = some lineEnd)
    (h : parseHex (slice input cursor lineEnd) = some size) :
    ∃ line : ChunkLine, line.Says size ∧ line.digits ++ line.extension = slice input cursor lineEnd := by
  rw [parseHex] at h
  split at h
  · cases h
  next hdigits =>
    refine ⟨⟨(slice input cursor lineEnd).takeWhile (· ≠ semicolon),
      (slice input cursor lineEnd).dropWhile (· ≠ semicolon)⟩, ⟨⟨?_, h⟩, ?_, ?_⟩,
      List.takeWhile_append_dropWhile⟩
    · exact fun hnil => hdigits (List.isEmpty_iff.mpr hnil)
    · intro c hc
      have := List.head?_dropWhile_not (fun c => decide (c ≠ semicolon)) (slice input cursor lineEnd)
      rw [Option.mem_def.mp hc] at this
      simpa using this
    · simp only [ChunkLine.text]
      exact firstIndex_line hline List.takeWhile_append_dropWhile

theorem decodeChunks_complete {cursor fuel consumed : ℕ} {body decoded : Bytes}
    (h : decodeChunks cap input fuel cursor body = some (.complete consumed decoded)) :
    ∃ layout : ChunkedLayout, layout.Fits ∧ consumed = cursor + layout.text.length ∧
      input.drop cursor = layout.text ++ input.drop consumed ∧ decoded = body ++ layout.body := by
  have hcrlf : crlf.length = 2 := rfl
  induction fuel generalizing cursor body with
  | zero => cases h
  | succ fuel ih =>
    rw [decodeChunks] at h
    split at h
    · cases h
    next lineEnd hline =>
      have hfound := findCrlf_some hline
      split at h
      · cases h
      next hsize =>
        obtain ⟨last, hsays, htext⟩ := parseHex_line hline hsize
        obtain ⟨hdecoded, trailers, hfits, hconsumed, hdrop⟩ := decodeTrailers_complete h
        refine ⟨⟨[], last, trailers⟩, ⟨fun _ hm => absurd hm List.not_mem_nil, hsays, hfits⟩, ?_, ?_, ?_⟩
        · rw [hconsumed]
          simp only [ChunkedLayout.text, List.flatMap_nil, List.nil_append, ChunkLine.text, htext,
            List.length_append, hfound.2.2.1]
          omega
        · rw [hfound.2.2.2.1, hdrop]
          simp [ChunkedLayout.text, ChunkLine.text, htext]
        · simp [hdecoded, ChunkedLayout.body]
      next size hsize =>
        obtain ⟨line, hsays, htext⟩ := parseHex_line hline hsize
        split at h
        · cases h
        next hroom =>
          split at h
          · cases h
          next hthere =>
            obtain ⟨copied, hcopied, h⟩ := Option.bind_eq_some_iff.mp h
            obtain ⟨cr, hcr, h⟩ := Option.bind_eq_some_iff.mp h
            obtain ⟨lf, hlf, h⟩ := Option.bind_eq_some_iff.mp h
            split at h
            · cases h
            next hend =>
              simp only [Bool.or_eq_true, decide_eq_true_eq, not_or, not_not] at hend
              obtain ⟨layout, hfits, hconsumed, hdrop, hdecoded⟩ := ih h
              have hdata : copied = body ++ slice input (lineEnd + 2) (lineEnd + 2 + (size + 1)) := by
                rw [copyToBody] at hcopied
                split at hcopied
                · cases hcopied
                · exact (Option.some.inj hcopied).symm
              have hlen : (slice input (lineEnd + 2) (lineEnd + 2 + (size + 1))).length = size + 1 := by
                rw [slice, List.length_take, List.length_drop]
                omega
              have hafter : input.drop (lineEnd + 2) =
                  slice input (lineEnd + 2) (lineEnd + 2 + (size + 1)) ++ crlf ++
                    input.drop (lineEnd + 2 + (size + 1) + 2) := by
                have hback : input.drop (lineEnd + 2 + (size + 1)) =
                    crlf ++ input.drop (lineEnd + 2 + (size + 1) + 2) := by
                  have h₀ := List.getElem?_eq_some_iff.mp hcr
                  have h₁ := List.getElem?_eq_some_iff.mp hlf
                  obtain ⟨hlt, h₀⟩ := h₀
                  obtain ⟨hlt', h₁⟩ := h₁
                  rw [List.drop_eq_getElem_cons hlt, List.drop_eq_getElem_cons hlt', h₀, h₁, hend.1,
                    hend.2]
                  rfl
                have hjoin := List.take_append_drop (size + 1) (input.drop (lineEnd + 2))
                rw [List.drop_drop] at hjoin
                rw [List.append_assoc, ← hback, slice, Nat.add_sub_cancel_left, hjoin]
              refine ⟨⟨(line, slice input (lineEnd + 2) (lineEnd + 2 + (size + 1))) :: layout.chunks,
                layout.last, layout.trailers⟩, ⟨?_, hfits.last, hfits.trailers⟩, ?_, ?_, ?_⟩
              · intro chunk hm
                rw [List.mem_cons] at hm
                apply hm.elim _ (hfits.chunks chunk)
                intro he
                rw [he]
                simp only [hlen]
                refine ⟨?_, hsays⟩
                intro hnil
                rw [hnil] at hlen
                cases hlen
              · rw [hconsumed]
                simp only [ChunkedLayout.text, List.flatMap_cons, ChunkedLayout.chunkText, ChunkLine.text,
                  htext, List.length_append, hfound.2.2.1, hlen]
                omega
              · rw [hfound.2.2.2.1, hafter, hdrop, ← htext]
                simp only [ChunkedLayout.text, List.flatMap_cons, ChunkedLayout.chunkText, ChunkLine.text,
                  List.append_assoc]
              · rw [hdecoded, hdata]
                simp [ChunkedLayout.body]

end Castle.Http.Server

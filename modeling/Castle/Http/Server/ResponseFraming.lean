import Castle.Http.Server.Responses

/-!
# The framing of responses

A handler may leave any fields behind.
-/

namespace Castle.Http.Server

variable {cap : Capacity} {request : Request} {response : Response} {keepAlive : Bool}

abbrev contentLengthName : Bytes := octets "Content-Length"
abbrev transferEncodingName : Bytes := octets "Transfer-Encoding"
abbrev connectionName : Bytes := octets "Connection"

/-- The text is one final response. Whatever follows it, a client reads the status and the body
that were sent and finds what follows. There is no transfer coding, and where a body is
allowed one length, which is the number of its bytes. -/
def Framed (request : Request) (response : Response) (text : Bytes) : Prop :=
  200 ≤ response.status ∧ ∃ fields : Headers,
    (∀ rest, readResponse (request.method = .head) (text ++ rest) =
      some (⟨response.status, fields, sentBody request response⟩, rest)) ∧
    fields.count transferEncodingName = 0 ∧
    (fields.count contentLengthName = if noBody request response then 0 else 1) ∧
    ∀ field ∈ fields, field.named contentLengthName = true →
      parseDecimal field.value = some (sentBody request response).length

def lengthDigits (response : Response) : Bytes := formatUint (response.body.length % 2 ^ 32) 10

/-- The field slots that are taken when the length of the body is set. -/
def slotsTaken (cap : Capacity) (headers : Headers) (keepAlive : Bool) : ℕ :=
  headers.length +
      (if Headers.Fits cap.headers connectionName (connectionValue keepAlive) ∧
        headers.count connectionName = 0 ∧ headers.length ≠ cap.maxHeaders then 1 else 0) -
    if 0 < headers.count transferEncodingName then 1 else 0

/-- What the handler has to leave: a final status, no pseudo-header, each framing field at most
once, and where a body is allowed a slot for its length. -/
structure Frameable (cap : Capacity) (request : Request) (response : Response) (keepAlive : Bool) :
    Prop where
  final : 200 ≤ response.status
  names : ∀ field ∈ response.headers, isToken field.name = true
  transferEncoding : response.headers.count transferEncodingName ≤ 1
  contentLength : response.headers.count contentLengthName ≤ 1
  room : noBody request response = false → response.body.length < 2 ^ 32 ∧
    Headers.Fits cap.headers contentLengthName (lengthDigits response) ∧
    (0 < response.headers.count contentLengthName ∨
      slotsTaken cap response.headers keepAlive ≠ cap.maxHeaders)

theorem lengthDigits_eq (response : Response) :
    lengthDigits response = decimalLoop 10 (response.body.length % 2 ^ 32) [] := by
  have := length_decimalLoop 10 (response.body.length % 2 ^ 32)
  rw [lengthDigits, formatUint, if_neg (by omega)]

theorem lengthDigits_ne_nil (response : Response) : lengthDigits response ≠ [] := by
  rw [lengthDigits_eq]
  exact decimalLoop_ne_nil 9 _

theorem lengthDigits_token (response : Response) : ∀ c ∈ lengthDigits response, tokenChar c = true := by
  intro c hc
  rw [lengthDigits_eq] at hc
  exact tokenChar_of_digit (mem_decimalLoop hc)

theorem parseDecimal_lengthDigits (response : Response) :
    parseDecimal (lengthDigits response) = some (response.body.length % 2 ^ 32) := by
  have hlt : response.body.length % 2 ^ 32 < 2 ^ 32 := Nat.mod_lt _ (by decide)
  rw [lengthDigits_eq]
  exact parseDecimal_digits (Nat.lt_trans hlt (by decide)) (Nat.lt_trans hlt (by decide))

theorem setConnection_count {headers : Headers} {name : Bytes}
    (h : asciiIequal connectionName name = false) :
    (setConnection cap headers keepAlive).count name = headers.count name :=
  Headers.count_set h

theorem connectionValue_valid (keepAlive : Bool) : validValue (connectionValue keepAlive) = true := by
  cases keepAlive <;> decide

theorem mem_setConnection {headers : Headers} {field : Field}
    (h : field ∈ setConnection cap headers keepAlive) :
    field = ⟨connectionName, connectionValue keepAlive⟩ ∨ field ∈ headers := Headers.mem_set h

section

variable {headers : Headers}

theorem frameHeaders_noBody (hb : noBody request response = true) :
    frameHeaders cap request response =
      some ((response.headers.eraseP (Field.named transferEncodingName)).eraseP
        (Field.named contentLengthName)) := by
  rw [frameHeaders]
  simp only
  rw [if_pos hb]
  rfl

theorem frameHeaders_body (hb : noBody request response = false) :
    frameHeaders cap request response = some headers ↔
      Headers.set cap.headers (response.headers.eraseP (Field.named transferEncodingName))
        contentLengthName (lengthDigits response) = (.ok, headers) := by
  have hne : formatUint (response.body.length % 2 ^ 32) 10 ≠ [] := lengthDigits_ne_nil response
  rw [frameHeaders]
  simp only
  rw [if_neg (by rw [hb]; exact Bool.false_ne_true), if_neg hne]
  constructor
  · intro h
    split at h
    next hset =>
      rw [← Option.some.inj h]
      exact hset
    · cases h
  · intro h
    have hset : Headers.set cap.headers (response.headers.remove (octets "Transfer-Encoding")).2
        (octets "Content-Length") (formatUint (response.body.length % 2 ^ 32) 10) = (.ok, headers) := h
    rw [hset]

theorem frameHeaders_spec (h : frameHeaders cap request response = some headers) :
    headers.count transferEncodingName = response.headers.count transferEncodingName - 1 ∧
    (headers.count contentLengthName =
      if noBody request response then response.headers.count contentLengthName - 1
      else max 1 (response.headers.count contentLengthName)) ∧
    (∀ field ∈ headers, field = ⟨contentLengthName, lengthDigits response⟩ ∨ field ∈ response.headers) ∧
    ∀ field ∈ response.headers, field.named transferEncodingName = false →
      field.named contentLengthName = false → field ∈ headers := by
  cases hb : noBody request response with
  | true =>
    rw [frameHeaders_noBody hb] at h
    rw [← Option.some.inj h]
    refine ⟨?_, ?_, ?_, ?_⟩
    · rw [Headers.count_eraseP (by decide), Headers.count_eraseP_self]
    · rw [Headers.count_eraseP_self, Headers.count_eraseP (by decide), if_pos rfl]
    · exact fun field hm => Or.inr (List.mem_of_mem_eraseP (List.mem_of_mem_eraseP hm))
    · intro field hm ht hc
      rw [List.mem_eraseP_of_neg (by rw [hc]; exact Bool.false_ne_true),
        List.mem_eraseP_of_neg (by rw [ht]; exact Bool.false_ne_true)]
      exact hm
  | false =>
    have hset := (frameHeaders_body hb).mp h
    have hok := congrArg Prod.fst hset
    have hheaders := congrArg Prod.snd hset
    have hother : asciiIequal contentLengthName transferEncodingName = false := by decide
    simp only at hok hheaders
    refine ⟨?_, ?_, ?_, ?_⟩
    · rw [← hheaders, Headers.count_set hother, Headers.count_eraseP_self]
    · rw [← hheaders, Headers.count_set_self hok, Headers.count_eraseP (by decide)]
      rfl
    · intro field hm
      rw [← hheaders] at hm
      exact (Headers.mem_set hm).imp_right List.mem_of_mem_eraseP
    · intro field hm ht hc
      rw [← hheaders]
      apply Headers.mem_set_of_other _ hc
      rw [List.mem_eraseP_of_neg (by rw [ht]; exact Bool.false_ne_true)]
      exact hm

theorem frameHeaders_isSome_iff :
    (frameHeaders cap request response).isSome ↔ (noBody request response = false →
      Headers.Fits cap.headers contentLengthName (lengthDigits response) ∧
        (0 < response.headers.count contentLengthName ∨
          (response.headers.length - if 0 < response.headers.count transferEncodingName then 1 else 0) ≠
            cap.maxHeaders)) := by
  cases hb : noBody request response with
  | true =>
    rw [frameHeaders_noBody hb]
    simp
  | false =>
    have hlength : (response.headers.eraseP (Field.named transferEncodingName)).length =
        response.headers.length - if 0 < response.headers.count transferEncodingName then 1 else 0 := by
      rw [Headers.length_eraseP]
      congr 1
      simp only [Headers.contains_iff]
    have hvalue := validValue_of_token (lengthDigits_token response)
    have hok : (Headers.set cap.headers (response.headers.eraseP (Field.named transferEncodingName))
        contentLengthName (lengthDigits response)).1 = .ok ↔ _ :=
      Headers.set_ok_iff (by decide) hvalue
    rw [Headers.count_eraseP (by decide), hlength] at hok
    simp only [forall_const]
    change _ ↔ (_ ∧ (_ ∨ _ ≠ cap.headers.maxHeaders))
    rw [← hok, Option.isSome_iff_exists]
    constructor
    · intro h
      obtain ⟨headers, hf⟩ := h
      exact congrArg Prod.fst ((frameHeaders_body hb).mp hf)
    · intro h
      refine ⟨_, (frameHeaders_body hb).mpr (Prod.ext h rfl)⟩

end

theorem protocolText_spec (version : Version) :
    (protocolText version).length = 9 ∧ carriageReturn ∉ protocolText version ∧
      (protocolText version = octets "HTTP/1.0 " ∨ protocolText version = octets "HTTP/1.1 ") := by
  cases version <;> decide

theorem readStatusLine_statusLine (h : 100 ≤ response.status ∧ response.status ≤ 999) :
    readStatusLine (statusLine request response) = some response.status := by
  have hp := protocolText_spec request.version
  have hline : statusLine request response = protocolText request.version ++
      (decimalDigit (response.status / 100) :: decimalDigit (response.status / 10) ::
        decimalDigit response.status :: space :: reasonPhrase response.status) := by
    simp [statusLine, formatUint_status h]
  have htake : (statusLine request response).take 9 = protocolText request.version := by
    rw [hline, ← hp.1, List.take_left]
  have hdrop : (statusLine request response).drop 9 = decimalDigit (response.status / 100) ::
      decimalDigit (response.status / 10) :: decimalDigit response.status :: space ::
        reasonPhrase response.status := by
    rw [hline, ← hp.1, List.drop_left]
  rw [readStatusLine, htake, hdrop, if_neg]
  · simp only [isDigit, between_decimalDigit, (reasonPhrase_spec response.status).1, decimalDigit_toNat,
      Bool.and_self, decide_true, if_true]
    congr 1
    omega
  · apply hp.2.2.elim <;> (intro h; rw [h]; decide)

theorem statusLine_plain (h : 100 ≤ response.status ∧ response.status ≤ 999) :
    Plain carriageReturn (statusLine request response) := by
  have hp := protocolText_spec request.version
  have hreason := carriageReturn_not_mem (reasonPhrase_spec response.status).1
  have hdigit : ∀ n, carriageReturn ≠ decimalDigit n := by
    intro n he
    have hb := between_decimalDigit n
    rw [← he] at hb
    exact absurd hb (by decide)
  constructor
  · intro hnil
    have hlen := congrArg List.length hnil
    simp only [statusLine, List.length_append, hp.1, List.length_nil] at hlen
    omega
  · rw [statusLine, formatUint_status h]
    simp only [List.mem_append, List.mem_cons, List.not_mem_nil, or_false, not_or]
    exact ⟨⟨⟨hp.2.1, hdigit _, hdigit _, hdigit _⟩, by decide⟩, hreason⟩

section

variable {headers : Headers}

theorem not_mem_name {name : Bytes} (h : validName name = true) : carriageReturn ∉ name := by
  cases name with
  | nil => exact List.not_mem_nil
  | cons c name =>
    have hall : name.all tokenChar = true := by
      rw [validName] at h
      split at h
      · exact (Bool.and_eq_true_iff.mp h).2
      · exact (Bool.and_eq_true_iff.mp h).2
    intro hm
    rw [List.mem_cons] at hm
    apply hm.elim
    · intro hc
      rw [← hc] at h
      rw [validName, if_neg (by decide), show tokenChar carriageReturn = false by decide] at h
      exact Bool.noConfusion h
    · intro hm
      exact absurd (List.all_eq_true.mp hall _ hm) (by decide)

theorem fieldLine_plain {field : Field} (h : StoredField cap.headers field) :
    Plain carriageReturn (fieldLine field) := by
  constructor
  · intro hnil
    rw [fieldLine, List.append_assoc, List.append_eq_nil_iff] at hnil
    exact List.cons_ne_nil _ _ hnil.2
  · have hv := carriageReturn_not_mem h.value
    rw [fieldLine, List.mem_append, List.mem_append, not_or, not_or]
    exact ⟨⟨not_mem_name h.name, by decide⟩, hv⟩

/-- A field as it is read back. -/
def trimmed (field : Field) : Field := ⟨field.name, trimOws field.value⟩

theorem mapM_readField (h : ∀ field ∈ headers, StoredField cap.headers field) :
    (headers.map fieldLine).mapM readField =
      if ∀ field ∈ headers, isToken field.name = true then some (headers.map trimmed) else none := by
  induction headers with
  | nil => simp
  | cons field headers ih =>
    have hfield := h field List.mem_cons_self
    have hrest := ih fun f hf => h f (List.mem_cons_of_mem field hf)
    rw [List.map_cons, List.mapM_cons, hrest]
    cases ht : isToken field.name with
    | true =>
      rw [fieldLine, readField_line ht hfield.value]
      by_cases hall : ∀ f ∈ headers, isToken f.name = true
      · have hcons : ∀ f ∈ field :: headers, isToken f.name = true := by
          intro f hf
          rw [List.mem_cons] at hf
          exact hf.elim (fun he => he ▸ ht) (hall f)
        rw [if_pos hall, if_pos hcons]
        rfl
      · rw [if_neg hall, if_neg fun h => hall fun f hf => h f (List.mem_cons_of_mem field hf)]
        rfl
    | false =>
      rw [fieldLine, readField_malformed hfield.name ht]
      simp [ht]

theorem count_trimmed (name : Bytes) : Headers.count (headers.map trimmed) name = headers.count name := by
  simp only [Headers.count, List.countP_map]
  rfl

theorem readHead_responseText (request : Request) (hs : 100 ≤ response.status ∧ response.status ≤ 999)
    (h : ∀ field ∈ headers, StoredField cap.headers field) (rest : Bytes) :
    readHead (responseText request response headers ++ rest) =
      if ∀ field ∈ headers, isToken field.name = true then
        some (response.status, headers.map trimmed, sentBody request response ++ rest)
      else none := by
  have hplain : ∀ line ∈ statusLine request response :: headers.map fieldLine, Plain carriageReturn line := by
    intro line hl
    rw [List.mem_cons, List.mem_map] at hl
    apply hl.elim
    · exact fun he => he ▸ statusLine_plain hs
    · rintro ⟨field, hf, rfl⟩
      exact fieldLine_plain (h field hf)
  rw [responseText, List.append_assoc _ (sentBody request response), readHead_joinLines hplain,
    readStatusLine_statusLine hs, mapM_readField h]
  split <;> rfl

theorem bodyLength_trimmed (request : Request) (hfinal : 200 ≤ response.status)
    (hte : headers.count transferEncodingName = 0)
    (hcl : headers.count contentLengthName = if noBody request response then 0 else 1)
    (hvalue : ∀ field ∈ headers, field.named contentLengthName = true →
      parseDecimal (trimOws field.value) = some (sentBody request response).length) :
    bodyLength (request.method = .head) response.status (headers.map trimmed) =
      some (sentBody request response).length := by
  rw [bodyLength]
  cases hb : noBody request response with
  | true =>
    have hcond : (decide (request.method = .head) || decide (response.status < 200) ||
        response.status = 204 || response.status = 304) = true := by
      rw [noBody] at hb
      simp only [Bool.or_eq_true, decide_eq_true_eq, Bool.and_eq_true] at hb ⊢
      grind
    rw [if_pos hcond, sentBody, if_pos hb]
    rfl
  | false =>
    have hcond : ¬(decide (request.method = .head) || decide (response.status < 200) ||
        response.status = 204 || response.status = 304) = true := by
      rw [noBody] at hb
      simp only [Bool.or_eq_false_iff, decide_eq_false_iff_not, Bool.and_eq_false_iff] at hb
      simp only [Bool.or_eq_true, decide_eq_true_eq]
      grind
    have hnone : Headers.contains (headers.map trimmed) (octets "Transfer-Encoding") = false := by
      rw [Headers.contains_eq_false_iff, count_trimmed]
      exact hte
    rw [if_neg hcond, if_neg (by rw [hnone]; exact Bool.false_ne_true)]
    rw [hb] at hcl
    have hone : ((headers.map trimmed).filter (Field.named (octets "Content-Length"))).length = 1 := by
      rw [← List.countP_eq_length_filter]
      exact (count_trimmed _).trans hcl
    obtain ⟨field, hfield⟩ := List.length_eq_one_iff.mp hone
    have hmem : field ∈ (headers.map trimmed).filter (Field.named (octets "Content-Length")) := by
      rw [hfield]
      exact List.mem_singleton_self field
    rw [List.mem_filter, List.mem_map] at hmem
    obtain ⟨⟨original, ho, rfl⟩, hnamed⟩ := hmem
    rw [hfield]
    exact hvalue original ho hnamed

end

/-- The response as `send_response` gets it from `process_buffer`. -/
def withConnection (cap : Capacity) (response : Response) (keepAlive : Bool) : Response :=
  { response with headers := setConnection cap response.headers keepAlive }

theorem withConnection_valid (h : response.Valid cap) (keepAlive : Bool) :
    (withConnection cap response keepAlive).Valid cap :=
  ⟨h.status, h.headers.set, h.body⟩

section

variable {headers : Headers}

theorem tokenChar_lowerCase {c : UInt8} (h : tokenChar c = true) : tokenChar (lowerCase c) = true := by
  rw [lowerCase]
  split
  next hupper =>
    have hlower : between 0x61 0x7a (c + 0x20) = true := by
      simp only [between, Bool.and_eq_true, decide_eq_true_eq, UInt8.le_iff_toNat_le] at hupper ⊢
      have hsum : (c + 0x20).toNat = c.toNat + 0x20 := by
        rw [UInt8.toNat_add]
        change (c.toNat + 0x20) % 256 = c.toNat + 0x20
        have : c.toNat ≤ 0x5a := hupper.2
        omega
      rw [hsum]
      change 0x41 ≤ c.toNat ∧ c.toNat ≤ 0x5a at hupper
      change 0x61 ≤ c.toNat + 0x20 ∧ c.toNat + 0x20 ≤ 0x7a
      omega
    rw [tokenChar, hlower, Bool.or_true, Bool.true_or]
  · exact h

theorem isToken_of_named {field : Field} {name : Bytes} (hv : validName field.name = true)
    (hn : field.named name = true) (ht : isToken name = true) : isToken field.name = true := by
  cases hname : field.name with
  | nil =>
    rw [hname] at hv
    cases hv
  | cons c rest =>
    have hc : c ≠ colon := by
      intro he
      simp only [Field.named, asciiIequal, hname, he, decide_eq_true_eq] at hn
      cases name with
      | nil => cases hn
      | cons d name =>
        have hd := tokenChar_lowerCase ((isToken_iff.mp ht).2 d List.mem_cons_self)
        rw [← (List.cons.inj hn).1] at hd
        exact absurd hd (by decide)
    rw [hname, validName, if_neg (show ¬c = 0x3a from hc)] at hv
    rw [isToken, List.all_cons, hv]
    rfl

theorem connectionField_token (keepAlive : Bool) :
    isToken (⟨connectionName, connectionValue keepAlive⟩ : Field).name = true := by
  change isToken connectionName = true
  decide

theorem sentFields_spec (hv : response.headers.Stored cap.headers)
    (h : frameHeaders cap request (withConnection cap response keepAlive) = some headers) :
    (setConnection cap headers keepAlive).count transferEncodingName =
      response.headers.count transferEncodingName - 1 ∧
    ((setConnection cap headers keepAlive).count contentLengthName =
      if noBody request response then response.headers.count contentLengthName - 1
      else max 1 (response.headers.count contentLengthName)) ∧
    ((∀ field ∈ setConnection cap headers keepAlive, isToken field.name = true) ↔
      ∀ field ∈ response.headers, isToken field.name = true) := by
  have hspec := frameHeaders_spec h
  have hte : (withConnection cap response keepAlive).headers.count transferEncodingName =
      response.headers.count transferEncodingName := setConnection_count (by decide)
  have hcl : (withConnection cap response keepAlive).headers.count contentLengthName =
      response.headers.count contentLengthName := setConnection_count (by decide)
  refine ⟨?_, ?_, ?_⟩
  · rw [setConnection_count (by decide), hspec.1, hte]
  · rw [setConnection_count (by decide), hspec.2.1, hcl]
    rfl
  · constructor
    · intro hall field hm
      -- a field of another name is sent, and the framing names are tokens
      by_cases hnamed : field.named connectionName = true ∨ field.named transferEncodingName = true ∨
          field.named contentLengthName = true
      · have hname := (hv.fields field hm).name
        apply hnamed.elim
        · exact fun hn => isToken_of_named hname hn (by decide)
        · intro hnamed
          apply hnamed.elim
          · exact fun hn => isToken_of_named hname hn (by decide)
          · exact fun hn => isToken_of_named hname hn (by decide)
      · rw [not_or, not_or, Bool.not_eq_true, Bool.not_eq_true, Bool.not_eq_true] at hnamed
        have hsent := hspec.2.2.2 field (Headers.mem_set_of_other hm hnamed.1) hnamed.2.1 hnamed.2.2
        exact hall field (Headers.mem_set_of_other hsent hnamed.1)
    · intro hall field hm
      apply (mem_setConnection hm).elim
      · exact fun he => he ▸ connectionField_token keepAlive
      · intro hm
        apply (hspec.2.2.1 field hm).elim
        · exact fun he => he ▸ (by decide : isToken contentLengthName = true)
        · intro hm
          apply (mem_setConnection hm).elim
          · exact fun he => he ▸ connectionField_token keepAlive
          · exact hall field

theorem slotsTaken_eq :
    ((withConnection cap response keepAlive).headers.length -
      if 0 < (withConnection cap response keepAlive).headers.count transferEncodingName then 1 else 0) =
    slotsTaken cap response.headers keepAlive := by
  have hte : (withConnection cap response keepAlive).headers.count transferEncodingName =
      response.headers.count transferEncodingName := setConnection_count (by decide)
  rw [hte, slotsTaken]
  congr 1
  exact Headers.length_set (by decide) (connectionValue_valid keepAlive)

theorem room_iff : (frameHeaders cap request (withConnection cap response keepAlive)).isSome ↔
    (noBody request response = false →
      Headers.Fits cap.headers contentLengthName (lengthDigits response) ∧
        (0 < response.headers.count contentLengthName ∨
          slotsTaken cap response.headers keepAlive ≠ cap.maxHeaders)) := by
  have hcl : (withConnection cap response keepAlive).headers.count contentLengthName =
      response.headers.count contentLengthName := setConnection_count (by decide)
  rw [frameHeaders_isSome_iff, slotsTaken_eq, hcl]
  rfl

theorem sentLength (hb : noBody request response = false)
    (hcount : response.headers.count contentLengthName ≤ 1)
    (h : frameHeaders cap request (withConnection cap response keepAlive) = some headers)
    {field : Field} (hm : field ∈ setConnection cap headers keepAlive)
    (hn : field.named contentLengthName = true) :
    parseDecimal (trimOws field.value) = some (response.body.length % 2 ^ 32) := by
  have hset : Headers.set cap.headers ((withConnection cap response keepAlive).headers.eraseP
      (Field.named transferEncodingName)) contentLengthName (lengthDigits response) = (.ok, headers) :=
    (frameHeaders_body (show noBody request (withConnection cap response keepAlive) = false from hb)).mp h
  have hfield : field ∈ headers := by
    apply (mem_setConnection hm).resolve_left
    intro he
    rw [he] at hn
    exact absurd (show asciiIequal connectionName contentLengthName = true from hn) (by decide)
  have hcl : Headers.count ((withConnection cap response keepAlive).headers.eraseP
      (Field.named transferEncodingName)) contentLengthName ≤ 1 := by
    rw [Headers.count_eraseP (by decide)]
    exact (setConnection_count (by decide)).trans_le hcount
  have hok := congrArg Prod.fst hset
  have hheaders := congrArg Prod.snd hset
  simp only at hok hheaders
  rw [← hheaders] at hfield
  rw [Headers.value_of_set hok hcl hfield hn, trimOws_token (lengthDigits_token _)]
  exact parseDecimal_lengthDigits response

theorem rendered_framed_iff (hv : response.Valid cap) :
    (∃ text, renderResponse cap request (withConnection cap response keepAlive) keepAlive = some text ∧
      Framed request response text) ↔ Frameable cap request response keepAlive := by
  have hrender := renderResponse_eq request (withConnection_valid hv keepAlive) keepAlive
  constructor
  · intro h
    obtain ⟨text, htext, hfinal, fields, hread, hte, hcl, hlength⟩ := h
    rw [hrender] at htext
    obtain ⟨headers, hf, rfl⟩ := Option.map_eq_some_iff.mp htext
    have hstored : Headers.Stored cap.headers (setConnection cap headers keepAlive) :=
      (frameHeaders_stored (withConnection_valid hv keepAlive).headers hf).set
    have hspec := sentFields_spec hv.headers hf
    -- what a client reads are the fields that were sent
    have hhead := readHead_responseText request (withConnection_valid hv keepAlive).status
      hstored.fields []
    have hread := hread []
    rw [readResponse, hhead] at hread
    split at hread
    next htokens =>
      have hfields : (setConnection cap headers keepAlive).map trimmed = fields := by
        simp only [Option.bind_eq_bind, Option.bind_some] at hread
        cases hb : bodyLength (request.method = .head) (withConnection cap response keepAlive).status
            ((setConnection cap headers keepAlive).map trimmed) with
        | none =>
          rw [hb] at hread
          cases hread
        | some length =>
          rw [hb, Option.bind_some] at hread
          split at hread
          · cases hread
          · exact congrArg (fun p => p.1.fields) (Option.some.inj hread)
      rw [← hfields, count_trimmed] at hte hcl
      rw [hspec.1] at hte
      rw [hspec.2.1] at hcl
      have hcount : response.headers.count contentLengthName ≤ 1 := by
        split at hcl <;> omega
      refine ⟨hfinal, hspec.2.2.mp htokens, by omega, hcount, ?_⟩
      intro hb
      have hroom := room_iff.mp (Option.isSome_iff_exists.mpr ⟨headers, hf⟩) hb
      refine ⟨?_, hroom⟩
      have hone : 0 < (setConnection cap headers keepAlive).count contentLengthName := by
        rw [hspec.2.1, hb, if_neg Bool.false_ne_true]
        exact Nat.lt_of_lt_of_le Nat.one_pos (Nat.le_max_left 1 _)
      obtain ⟨field, hm, hn⟩ := List.countP_pos_iff.mp hone
      have hsent := sentLength hb hcount hf hm hn
      have hsaid := hlength (trimmed field) (by rw [← hfields]; exact List.mem_map_of_mem hm) hn
      rw [sentBody, hb] at hsaid
      have heq := Option.some.inj (hsent.symm.trans hsaid)
      have hlt : response.body.length % 2 ^ 32 < 2 ^ 32 := Nat.mod_lt _ (by decide)
      simp only [Bool.false_eq_true, if_false] at heq
      omega
    · cases hread
  · intro h
    obtain ⟨headers, hf⟩ := Option.isSome_iff_exists.mp (room_iff.mpr fun hb => (h.room hb).2)
    have hstored : Headers.Stored cap.headers (setConnection cap headers keepAlive) :=
      (frameHeaders_stored (withConnection_valid hv keepAlive).headers hf).set
    have hspec := sentFields_spec hv.headers hf
    have hte : (setConnection cap headers keepAlive).count transferEncodingName = 0 := by
      have := h.transferEncoding
      rw [hspec.1]
      omega
    have hcl : (setConnection cap headers keepAlive).count contentLengthName =
        if noBody request response then 0 else 1 := by
      have := h.contentLength
      rw [hspec.2.1]
      split <;> omega
    have hlength : ∀ field ∈ setConnection cap headers keepAlive, field.named contentLengthName =
        true → parseDecimal (trimOws field.value) = some (sentBody request response).length := by
      intro field hm hn
      cases hb : noBody request response with
      | true =>
        rw [hb] at hcl
        exact absurd hn (List.countP_eq_zero.mp hcl field hm)
      | false =>
        rw [sentLength hb h.contentLength hf hm hn, Nat.mod_eq_of_lt (h.room hb).1, sentBody, hb]
        rfl
    refine ⟨_, by rw [hrender, hf]; rfl, h.final, (setConnection cap headers keepAlive).map trimmed,
      ?_, ?_, ?_, ?_⟩
    · intro rest
      have hhead := readHead_responseText request (withConnection_valid hv keepAlive).status
        hstored.fields rest
      rw [if_pos (hspec.2.2.mpr h.names)] at hhead
      have hbody : bodyLength (request.method = .head) (withConnection cap response keepAlive).status
          ((setConnection cap headers keepAlive).map trimmed) =
            some (sentBody request (withConnection cap response keepAlive)).length :=
        bodyLength_trimmed request h.final hte hcl hlength
      rw [readResponse, hhead]
      simp only [Option.bind_eq_bind, Option.bind_some]
      rw [hbody, Option.bind_some, if_neg (by rw [List.length_append]; omega), List.take_left,
        List.drop_left]
      rfl
    · rw [count_trimmed]
      exact hte
    · rw [count_trimmed]
      exact hcl
    · intro field hm hn
      obtain ⟨original, ho, rfl⟩ := List.mem_map.mp hm
      exact hlength original ho hn

end

namespace Session

variable {σ : Type} (host : Host σ) (s : Session σ) (request : Request)

def responseTo : Response := (dispatchRequest host.cap host.routes s.app request).2

/-- Whether the connection stays open behind the next response. -/
def staysOpen : Bool :=
  s.item.keepAlive && s.item.requestCount + 1 < host.cap.maxRequestsPerConnection

variable {host s request} {consumed : ℕ}

theorem respond_sent (h : consumed ≤ s.item.input.length) :
    (s.respond host request consumed).2.sent = s.sent ++
      (renderResponse host.cap request (withConnection host.cap (s.responseTo host request)
        (s.staysOpen host)) (s.staysOpen host)).toList := by
  rw [respond, responseTo]
  generalize dispatchRequest host.cap host.routes s.app request = dispatched
  obtain ⟨app, response⟩ := dispatched
  simp only
  rw [show (s.item.keepAlive && decide (s.item.requestCount + 1 < host.cap.maxRequestsPerConnection)) =
    s.staysOpen host from rfl, sendResponse, withConnection]
  generalize renderResponse host.cap request _ (s.staysOpen host) = rendered
  cases rendered with
  | none => simp [close, modify]
  | some text =>
    simp only [send, Option.toList_some]
    split
    next hsend =>
      have hs := congrArg Prod.snd hsend
      simp only at hs
      subst hs
      rfl
    next hsend =>
      have hs := congrArg Prod.snd hsend
      simp only at hs
      subst hs
      split
      · rfl
      · rw [if_neg (Nat.not_lt.mpr h)]
        split <;> rfl

/-- A request gets one framed response exactly when its handler leaves what it has to. -/
theorem respond_framed_iff (h : consumed ≤ s.item.input.length) :
    (∃ text, (s.respond host request consumed).2.sent = s.sent ++ [text] ∧
      Framed request (s.responseTo host request) text) ↔
    Frameable host.cap request (s.responseTo host request) (s.staysOpen host) := by
  have hvalid : (s.responseTo host request).Valid host.cap :=
    dispatchRequest_valid host.routes s.app request
  rw [← rendered_framed_iff hvalid]
  apply exists_congr
  intro text
  apply and_congr_left
  intro _
  rw [respond_sent h, List.append_cancel_left_eq, Option.toList_eq_singleton_iff]

/-- A host with one route whose handler makes the same calls on every response. -/
def answering (calls : List ResponseCall) : Host Unit where
  cap := Capacity.standard
  routes := ⟨[⟨octets "/", none, false, fun _ _ => ((), calls)⟩], none⟩
  sends := fun _ => true

def rootRequest : Request :=
  { method := .get, methodText := octets "GET", target := octets "/", path := octets "/" }

/-- A body and its type are framed. -/
theorem json_framed :
    ∃ text, (({ app := () } : Session Unit).respond
        (answering [.setJson (octets "[1]")]) rootRequest 0).2.sent = [] ++ [text] ∧
      Framed rootRequest
        (({ app := () } : Session Unit).responseTo (answering [.setJson (octets "[1]")]) rootRequest) text := by
  apply (respond_framed_iff (Nat.le_refl 0)).mpr
  constructor
  · decide
  · decide
  · decide
  · decide
  · intro _
    exact ⟨by decide, by decide, Or.inr (by decide)⟩

/-- A handler that adds two lengths: only the first one is replaced. -/
def twoLengths : Host Unit :=
  answering [.add contentLengthName (octets "5"), .add contentLengthName (octets "6"),
    .setBody (octets "hello")]

theorem two_lengths_not_framed :
    ¬∃ text, (({ app := () } : Session Unit).respond twoLengths rootRequest 0).2.sent = [] ++ [text] ∧
      Framed rootRequest (({ app := () } : Session Unit).responseTo twoLengths rootRequest) text := by
  intro h
  obtain ⟨text, hsent, _, fields, hread, _⟩ := h
  have htext : (({ app := () } : Session Unit).respond twoLengths rootRequest 0).2.sent =
      [octets ("HTTP/1.1 200 OK\r\nContent-Length: 5\r\nContent-Length: 6\r\n" ++
        "Connection: keep-alive\r\n\r\nhello")] := by
    decide
  rw [htext] at hsent
  have hnone : readResponse (rootRequest.method = .head)
      (octets ("HTTP/1.1 200 OK\r\nContent-Length: 5\r\nContent-Length: 6\r\n" ++
        "Connection: keep-alive\r\n\r\nhello") ++ []) = none := by
    decide
  have hsome := hread []
  rw [← List.singleton_inj.mp hsent, hnone] at hsome
  cases hsome

end Session

end Castle.Http.Server

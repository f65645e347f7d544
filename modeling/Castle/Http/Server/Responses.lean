import Castle.Http.ResponseReader
import Castle.Http.Server.Connection

/-!
# What the server answers

Whatever a handler calls, its response keeps to the capacities, so that the response fits in the
output buffer.
-/

namespace Castle.Http.Server

variable {cap : Capacity} {request : Request} {response : Response}

structure Response.Valid (cap : Capacity) (response : Response) : Prop where
  status : 100 ≤ response.status ∧ response.status ≤ 999
  headers : Headers.Stored cap.headers response.headers
  body : response.body.length ≤ cap.maxBodySize

namespace Response

theorem Valid.fresh (status : ℕ) (h : 100 ≤ status ∧ status ≤ 999) :
    Valid cap { status := status } := ⟨h, Headers.Stored.nil, Nat.zero_le _⟩

theorem Valid.setHeader (h : Valid cap response) (name value : Bytes) :
    Valid cap (response.setHeader cap name value).2 := ⟨h.status, h.headers.set, h.body⟩

theorem Valid.setBody (h : Valid cap response) (value : Bytes) :
    Valid cap (response.setBody cap value).2 := by
  rw [Response.setBody]
  split
  · exact h
  next hle =>
    exact ⟨h.status, h.headers, Nat.le_of_not_lt hle⟩

theorem Valid.setFile (h : Valid cap response) (mediaType content : Bytes) :
    Valid cap (response.setFile cap mediaType content).2 := by
  rw [Response.setFile]
  have hnext := h.setHeader (octets "Content-Type") mediaType
  generalize response.setHeader cap (octets "Content-Type") mediaType = next at hnext ⊢
  simp only
  split
  · exact hnext.setBody content
  · exact hnext

theorem Valid.apply (h : Valid cap response) (call : ResponseCall) :
    Valid cap (response.apply cap call) := by
  cases call with
  | setStatus value =>
    rw [Response.apply, Response.setStatus]
    split
    · exact h
    next hrange =>
      simp only [Bool.or_eq_true, decide_eq_true_eq, not_or, Nat.not_lt] at hrange
      exact ⟨hrange, h.headers, h.body⟩
  | add name value => exact ⟨h.status, h.headers.add, h.body⟩
  | set name value => exact h.setHeader name value
  | remove name => exact ⟨h.status, h.headers.eraseP _, h.body⟩
  | setBody value => exact h.setBody value
  | setJson value => exact h.setFile _ value
  | setFile mediaType content => exact h.setFile mediaType content
  | clearHeaders => exact ⟨h.status, Headers.Stored.nil, h.body⟩
  | clear => exact Valid.fresh 200 ⟨by decide, by decide⟩

theorem Valid.applyAll (h : Valid cap response) (calls : List ResponseCall) :
    Valid cap (response.applyAll cap calls) := by
  induction calls generalizing response with
  | nil => exact h
  | cons call calls ih => exact ih (h.apply call)

end Response

theorem runHandler_valid {σ : Type} (handler : Handler σ) (app : σ) :
    (runHandler cap handler app request).2.Valid cap :=
  (Response.Valid.fresh 200 ⟨by decide, by decide⟩).applyAll _

theorem plainResponse_valid {status : ℕ} (h : 100 ≤ status ∧ status ≤ 999) (message : Bytes) :
    (plainResponse cap status message).Valid cap :=
  (Response.Valid.fresh status h).setBody message

theorem dispatchRequest_valid {σ : Type} (routes : Routes σ) (app : σ) (request : Request) :
    (dispatchRequest cap routes app request).2.Valid cap := by
  rw [dispatchRequest]
  split
  · dsimp only
    exact (Response.Valid.fresh 200 ⟨by decide, by decide⟩).setHeader _ _
  · split
    · exact plainResponse_valid ⟨by decide, by decide⟩ _
    · split
      · exact runHandler_valid _ app
      · split
        · exact plainResponse_valid ⟨by decide, by decide⟩ _
        · split
          · exact runHandler_valid _ app
          · exact plainResponse_valid ⟨by decide, by decide⟩ _

def statusLine (request : Request) (response : Response) : Bytes :=
  protocolText request.version ++ formatUint response.status 5 ++ [space] ++ reasonPhrase response.status

def fieldLine (field : Field) : Bytes := field.name ++ [colon, space] ++ field.value

def sentBody (request : Request) (response : Response) : Bytes :=
  if noBody request response then [] else response.body

def responseText (request : Request) (response : Response) (headers : Headers) : Bytes :=
  joinLines crlf (statusLine request response :: headers.map fieldLine) ++ (crlf ++ crlf) ++
    sentBody request response

theorem reasonPhrase_spec (code : ℕ) :
    validValue (reasonPhrase code) = true ∧ (reasonPhrase code).length ≤ 31 := by
  unfold reasonPhrase
  split <;> decide

theorem formatUint_status {status : ℕ} (h : 100 ≤ status ∧ status ≤ 999) : formatUint status 5 =
    [decimalDigit (status / 100), decimalDigit (status / 10), decimalDigit status] := by
  have hloop : decimalLoop 10 status [] =
      [decimalDigit (status / 100), decimalDigit (status / 10), decimalDigit status] := by
    have h₁ : status / 10 ≠ 0 := by omega
    have h₂ : status / 10 / 10 ≠ 0 := by omega
    have h₃ : status / 10 / 10 / 10 = 0 := by omega
    have h₄ : status / 10 / 10 = status / 100 := by omega
    rw [decimalLoop, if_neg h₁, decimalLoop, if_neg h₂, decimalLoop, if_pos h₃, h₄]
  rw [formatUint, hloop]
  rfl

theorem statusLine_length (h : 100 ≤ response.status ∧ response.status ≤ 999) :
    (statusLine request response).length ≤ 44 := by
  have hreason := (reasonPhrase_spec response.status).2
  have hprotocol : (protocolText request.version).length = 9 := by
    cases request.version <;> rfl
  simp only [statusLine, formatUint_status h, List.length_append, hprotocol, List.length_cons,
    List.length_nil]
  omega

theorem appendText_eq {capacity : ℕ} {output text : Bytes} (h : output.length + text.length ≤ capacity) :
    appendText capacity output text = some (output ++ text) := by
  rw [appendText, if_neg (by omega)]

theorem appendTexts_eq {capacity : ℕ} {texts : List Bytes} {output : Bytes}
    (h : output.length + texts.flatten.length ≤ capacity) :
    appendTexts capacity texts output = some (output ++ texts.flatten) := by
  induction texts generalizing output with
  | nil => simp [appendTexts]
  | cons text texts ih =>
    rw [List.flatten_cons, List.length_append] at h
    rw [appendTexts, appendText_eq (by omega)]
    simp only [Option.bind_eq_bind, Option.bind_some]
    rw [ih (by rw [List.length_append]; omega), List.flatten_cons, List.append_assoc]

theorem frameHeaders_stored {headers : Headers} (h : response.headers.Stored cap.headers)
    (hf : frameHeaders cap request response = some headers) : headers.Stored cap.headers := by
  have hremoved : Headers.Stored cap.headers (response.headers.remove (octets "Transfer-Encoding")).2 :=
    h.eraseP _
  rw [frameHeaders] at hf
  simp only at hf
  split at hf
  · rw [← Option.some.inj hf]
    exact hremoved.eraseP _
  · split at hf
    · cases hf
    · split at hf
      next hset =>
        have hstored : Headers.Stored cap.headers (Headers.set cap.headers
            (response.headers.remove (octets "Transfer-Encoding")).2 (octets "Content-Length")
            (formatUint (response.body.length % 2 ^ 32) 10)).2 := hremoved.set
        rw [hset] at hstored
        rw [← Option.some.inj hf]
        exact hstored
      · cases hf

theorem fieldTexts_length {headers : Headers} (h : ∀ field ∈ headers, StoredField cap.headers field) :
    (headers.flatMap fun field => [field.name, [colon, space], field.value, crlf]).flatten.length ≤
      headers.length * (cap.maxHeaderNameSize + cap.maxHeaderValueSize + 4) := by
  induction headers with
  | nil => simp
  | cons field headers ih =>
    have hfield := h field List.mem_cons_self
    have hname : field.name.length ≤ cap.maxHeaderNameSize := hfield.nameSize
    have hvalue : field.value.length ≤ cap.maxHeaderValueSize := hfield.valueSize
    have hrest := ih fun f hf => h f (List.mem_cons_of_mem field hf)
    simp only [List.flatMap_cons, List.flatten_append, List.flatten_cons, List.flatten_nil,
      List.length_append, List.length_cons, List.length_nil, crlf, Nat.add_mul] at hrest ⊢
    omega

theorem joined_fieldLines (line : Bytes) (headers : Headers) :
    line ++ crlf ++ (headers.flatMap fun field => [field.name, [colon, space], field.value, crlf]).flatten =
      joinLines crlf (line :: headers.map fieldLine) ++ crlf := by
  rw [joinLines_append _ _ (List.cons_ne_nil _ _), List.flatMap_cons]
  congr 1
  induction headers with
  | nil => rfl
  | cons field headers ih =>
    simp [ih, fieldLine]

theorem renderResponse_eq (request : Request) (h : response.Valid cap) (keepAlive : Bool) :
    renderResponse cap request response keepAlive = (frameHeaders cap request response).map
    fun headers => responseText request response (setConnection cap headers keepAlive) := by
  have hline : (statusLine request response).length ≤ 44 := statusLine_length h.status
  have hroom : 48 ≤ cap.maxResponseSize := by
    rw [Capacity.maxResponseSize]
    omega
  have hdigits := formatUint_status h.status
  have hdigits_ne : formatUint response.status 5 ≠ [] := by
    rw [hdigits]
    exact List.cons_ne_nil _ _
  have hprotocol : (protocolText request.version).length = 9 := by
    cases request.version <;> rfl
  have hreason := (reasonPhrase_spec response.status).2
  have h₁ : appendText cap.maxResponseSize [] (protocolText request.version) =
      some (protocolText request.version) := by
    rw [appendText_eq (by rw [hprotocol]; simp only [List.length_nil]; omega)]
    rfl
  have h₂ : appendText cap.maxResponseSize (protocolText request.version) (formatUint response.status 5) =
      some (protocolText request.version ++ formatUint response.status 5) := by
    apply appendText_eq
    rw [hprotocol, hdigits]
    simp only [List.length_cons, List.length_nil]
    omega
  have h₃ : appendTexts cap.maxResponseSize [[space], reasonPhrase response.status, crlf]
      (protocolText request.version ++ formatUint response.status 5) =
      some (statusLine request response ++ crlf) := by
    rw [appendTexts_eq]
    · simp [statusLine, List.flatten_cons, List.flatten_nil, List.append_nil, List.append_assoc]
    · simp only [List.flatten_cons, List.flatten_nil, List.length_append, hprotocol, hdigits,
        List.length_cons, List.length_nil, crlf]
      omega
  rw [renderResponse]
  simp only [Option.bind_eq_bind, h₁, Option.bind_some, if_neg hdigits_ne, h₂, h₃]
  cases hf : frameHeaders cap request response with
  | none => rfl
  | some headers =>
    have hstored : Headers.Stored cap.headers (setConnection cap headers keepAlive) :=
      (frameHeaders_stored h.headers hf).set
    have hfields := fieldTexts_length hstored.fields
    have hcount : (setConnection cap headers keepAlive).length *
      (cap.maxHeaderNameSize + cap.maxHeaderValueSize + 4) ≤ cap.maxHeaders *
      (cap.maxHeaderNameSize + cap.maxHeaderValueSize + 4) := Nat.mul_le_mul_right _ hstored.size
    have hbody := h.body
    have htotal : cap.maxResponseSize = cap.maxBodySize +
        cap.maxHeaders * (cap.maxHeaderNameSize + cap.maxHeaderValueSize + 4) + 160 := rfl
    have hcrlf : crlf.length = 2 := rfl
    simp only [Option.bind_some, Option.map_some]
    rw [appendTexts_eq (by rw [List.length_append]; omega)]
    simp only [Option.bind_some]
    rw [appendText_eq (by simp only [List.length_append]; omega)]
    simp only [Option.bind_some]
    rw [joined_fieldLines, responseText, sentBody]
    split
    · rw [List.append_nil, List.append_assoc]
    · rw [if_neg]
      · simp only [List.append_assoc]
      · rw [← joined_fieldLines]
        simp only [List.length_append]
        omega

end Castle.Http.Server

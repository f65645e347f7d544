import Castle.Http.Http1.Request
import Castle.Http.Server.RequestFraming
import Castle.Http.Server.ResponseFraming

/-!
# The requests of the client at the server

What the server's parser makes of the bytes of the client's builder. The builder writes one
request line, field lines and a body; the parser asks for more than the builder checks.
-/

namespace Castle.Http.Server

open Http1

theorem schemeSize_of_scheme {scheme rest : Bytes} (h : asciiIequal scheme (octets "http://") = true ∨
    asciiIequal scheme (octets "https://") = true) :
    Request.schemeSize (scheme ++ rest) = some scheme.length := by
  have hlength : ∀ text : Bytes, asciiIequal scheme text = true → scheme.length = text.length := by
    intro text he
    have hmap := congrArg List.length (of_decide_eq_true he)
    rwa [List.length_map, List.length_map] at hmap
  rw [Request.schemeSize]
  rcases h with h | h
  · have hl : scheme.length = 7 := hlength _ h
    have hshort : asciiIequal ((scheme ++ rest).take 8) (octets "https://") = false := by
      apply Bool.eq_false_iff.mpr
      intro hs
      have hfive := congrArg (fun text : Bytes => text[4]?) (of_decide_eq_true hs)
      have hfive' := congrArg (fun text : Bytes => text[4]?) (of_decide_eq_true h)
      simp only [List.getElem?_map, List.getElem?_take] at hfive hfive'
      rw [if_pos (by decide), List.getElem?_append_left (by omega), hfive'] at hfive
      exact absurd hfive (by decide)
    have htake : (scheme ++ rest).take 7 = scheme := by
      rw [← hl, List.take_left]
    rw [hshort, htake, h, hl]
    rfl
  · have hl : scheme.length = 8 := hlength _ h
    have htake : (scheme ++ rest).take 8 = scheme := by
      rw [← hl, List.take_left]
    rw [htake, h, hl]
    rfl

theorem schemeSize_of_slash (path : Bytes) : Request.schemeSize (slash :: path) = none := by
  have hno : ∀ (n : ℕ) (text : Bytes), text.head?.map lowerCase ≠ some (lowerCase slash) → text ≠ [] →
      0 < n → asciiIequal ((slash :: path).take n) text = false := by
    intro n text hhead hne hn
    apply Bool.eq_false_iff.mpr
    intro he
    obtain ⟨k, rfl⟩ : ∃ k, n = k + 1 := ⟨n - 1, by omega⟩
    have hmap := congrArg List.head? (of_decide_eq_true he)
    rw [List.take_succ_cons, List.map_cons, List.head?_cons, List.head?_map] at hmap
    exact hhead hmap.symm
  rw [Request.schemeSize, hno 8 _ (by decide) (by decide) (by omega),
    hno 7 _ (by decide) (by decide) (by omega)]
  rfl

theorem assignTarget_form (cap : Capacity) {target : Bytes} (request : Request) (h : TargetForm target)
    (hsize : target.length ≤ cap.maxUriSize) : (request.assignTarget cap target).isSome = true := by
  have hroom : ∀ c rest, target = c :: rest →
      ¬(decide (target = []) || decide (target.length > cap.maxUriSize)) = true := by
    intro c rest he
    simp [he] at hsize ⊢
    omega
  have hslash : ∀ next path : Bytes, (request.assignPath next (slash :: path)).isSome = true := by
    intro next path
    rw [Request.assignPath, if_neg (by rw [List.head?_cons]; exact fun h => h rfl)]
    rfl
  rw [Request.assignTarget]
  cases h with
  | asterisk =>
    rw [if_neg (hroom 0x2a [] rfl), if_pos rfl]
    rfl
  | origin path =>
    rw [if_neg (hroom slash path rfl), schemeSize_of_slash]
    split
    · rfl
    · exact hslash _ path
  | absolute scheme authority rest hscheme hauthority hrest =>
    have hne : ∃ c tail, scheme ++ authority ++ rest = c :: tail := by
      apply List.exists_cons_of_ne_nil
      simp [hauthority.1]
    obtain ⟨c, tail, hcons⟩ := hne
    rw [if_neg (hroom c tail hcons), List.append_assoc, schemeSize_of_scheme hscheme]
    have htaken : ((scheme ++ (authority ++ rest)).drop scheme.length).takeWhile
        (fun c => c ≠ slash && c ≠ question) = authority := by
      rw [List.drop_left, List.takeWhile_append_of_pos]
      · cases rest with
        | nil => simp
        | cons c rest =>
          have hc := hrest c rfl
          rw [List.takeWhile_cons_of_neg, List.append_nil]
          rcases hc with hc | hc <;> simp [hc]
      · intro c hc
        simpa using hauthority.2 c hc
    have hdrop : (scheme ++ (authority ++ rest)).drop (scheme.length + authority.length) = rest := by
      rw [← List.append_assoc, ← List.length_append, List.drop_left]
    split
    · rfl
    · simp only
      rw [htaken, if_neg hauthority.1, hdrop]
      split
      · exact hslash _ []
      next hlonger =>
        split
        · rfl
        next hquestion =>
          cases rest with
          | nil =>
            rw [List.append_nil, List.length_append] at hlonger
            exact absurd rfl hlonger
          | cons c rest =>
            rcases hrest c rfl with hc | hc
            · rw [hc]
              exact hslash _ rest
            · rw [hc] at hquestion
              exact absurd rfl hquestion

theorem parseRequestLine_iff {cap : Capacity} {verb target : Bytes} (hv : isToken verb = true)
    (ht : isVisibleText target = true) (hsize : target.length ≤ cap.maxUriSize) :
    (∃ request, parseRequestLine cap (verb ++ space :: (target ++ space :: versionText .http11)) = .ok request) ↔
      verb.length < 16 ∧ 0x23 ∉ target ∧ TargetForm target := by
  have hspace := not_mem_token hv (show tokenChar space = false by decide)
  have hvisible := ht
  rw [isVisibleText, Bool.and_eq_true, List.all_eq_true] at hvisible
  have hspace' : space ∉ target := fun hm => absurd (hvisible.2 _ hm) (by decide)
  have hverb := (isToken_iff.mp hv).1
  have htarget : target ≠ [] := by simpa using hvisible.1
  rw [parseRequestLine, cut_append hspace]
  simp only
  rw [cut_append hspace']
  simp only
  have hsome : ¬(verb.isEmpty || target.isEmpty || (versionText .http11).contains space) = true := by
    have hprotocol : (versionText .http11).contains space = false := by decide
    rw [hprotocol]
    simp [hverb, htarget]
  rw [if_neg hsome, hv, ht, if_neg (by decide), if_neg (Nat.not_lt.mpr hsize), if_neg (by decide)]
  by_cases hfragment : 0x23 ∈ target
  · rw [if_pos (List.contains_iff_mem.mpr hfragment)]
    constructor
    · rintro ⟨request, h⟩
      cases h
    · exact fun h => absurd hfragment h.2.1
  · rw [if_neg (by rw [List.contains_iff_mem]; exact hfragment), Request.assignMethod]
    by_cases hlong : verb.length ≥ 16
    · rw [if_pos hlong]
      constructor
      · rintro ⟨request, h⟩
        cases h
      · intro h
        omega
    · rw [if_neg hlong, Option.bind_some]
      constructor
      · rintro ⟨request, h⟩
        split at h
        · cases h
        next next hassign => exact ⟨Nat.lt_of_not_le hlong, hfragment, (assignTarget_eq hassign).1⟩
      · intro h
        have hform := fun request : Request => assignTarget_form cap request h.2.2 hsize
        split
        next hnone => exact absurd (hform _) (by rw [hnone]; exact Bool.false_ne_true)
        next request _ => exact ⟨request, rfl⟩

/-- A field of a built request, within the limits of the server. -/
structure Sendable (cap : Capacity) (bodyLength : ℕ) (field : Field) : Prop where
  name : isToken field.name = true
  value : validValue field.value = true
  nameSize : field.name.length ≤ cap.maxHeaderNameSize
  valueSize : (trimOws field.value).length ≤ cap.maxHeaderValueSize
  noTransfer : field.named (octets "Transfer-Encoding") = false
  length : field.named (octets "Content-Length") = true → parseDecimal (trimOws field.value) = some bodyLength

/-- What the loop of the server asks of the fields that are left. -/
structure Goes (fields : Fields) (left : Headers) : Prop where
  contentLength : fields.contentLength.toList.length + left.count (octets "Content-Length") ≤ 1
  host : fields.hasHost.toNat + left.count (octets "Host") ≤ 1
  hostValue : ∀ field ∈ left, field.named (octets "Host") = true → trimOws field.value ≠ []

section

variable {cap : Capacity} {n : ℕ} {fields : Fields} {field : Field} {left : Headers}

theorem count_cons_field (headers : Headers) (field : Field) (name : Bytes) :
    Headers.count (field :: headers) name = Headers.count headers name + if field.named name then 1 else 0 := by
  simp only [Headers.count, List.countP_cons]

theorem fieldText_cut (h : isToken field.name = true) :
    cut colon (fieldText field) = some (field.name, space :: field.value) := by
  have hcolon := not_mem_token h (show tokenChar colon = false by decide)
  rw [fieldText, List.append_assoc]
  exact cut_append hcolon (space :: field.value)

theorem store_sendable (h : Sendable cap n field) (hroom : fields.headers.length < cap.maxHeaders) :
    fields.store cap field.name (trimOws field.value) =
      .ok { fields with headers := fields.headers ++ [trimmed field] } := by
  have hname : validName field.name = true := by
    obtain ⟨hne, hall⟩ := isToken_iff.mp h.name
    cases hn : field.name with
    | nil => exact absurd hn hne
    | cons c name =>
      rw [hn] at hall
      have hc : c ≠ 0x3a := tokenChar_ne (hall c List.mem_cons_self) (by decide)
      rw [validName, if_neg hc, hall c List.mem_cons_self, Bool.true_and, List.all_eq_true]
      exact fun d hd => hall d (List.mem_cons_of_mem c hd)
  rw [Fields.store, Headers.add_eq hname (validValue_trimOws h.value),
    if_neg (show ¬fields.headers.length = cap.headers.maxHeaders from Nat.ne_of_lt hroom),
    if_pos ⟨h.nameSize, h.valueSize⟩]
  rfl

theorem note_state {noted : Fields} {name value : Bytes} (h : fields.note cap name value = .ok noted) :
    noted.headers = fields.headers ∧ noted.headerCount = fields.headerCount ∧
    noted.contentLength.toList.length = fields.contentLength.toList.length +
      (if asciiIequal name (octets "Content-Length") then 1 else 0) ∧
    noted.hasHost.toNat = fields.hasHost.toNat + (if asciiIequal name (octets "Host") then 1 else 0) := by
  have hother : ∀ first second : Bytes, asciiIequal first second = false →
      asciiIequal name first = true → asciiIequal name second = false :=
    fun first second hne hname => @Field.named_other first second hne ⟨name, value⟩ hname
  rw [Fields.note] at h
  split at h
  next hcl =>
    rw [hother _ (octets "Host") (by decide) hcl, if_pos hcl]
    split at h
    · cases h
    next hnone =>
      rw [Bool.not_eq_true, Option.isSome_eq_false_iff, Option.isNone_iff_eq_none] at hnone
      split at h
      · cases h
      · split at h
        · cases h
        · rw [← Except.ok.inj h, hnone]
          exact ⟨rfl, rfl, rfl, rfl⟩
  next hcl =>
    rw [if_neg hcl]
    split at h
    next hte =>
      rw [hother _ (octets "Host") (by decide) hte]
      split at h
      · cases h
      · split at h
        · cases h
        · rw [← Except.ok.inj h]
          exact ⟨rfl, rfl, rfl, rfl⟩
    · split at h
      next hhost =>
        rw [if_pos hhost]
        split at h
        · cases h
        next hfirst =>
          rw [Bool.not_eq_true] at hfirst
          split at h
          · cases h
          · rw [← Except.ok.inj h, hfirst]
            exact ⟨rfl, rfl, rfl, rfl⟩
      next hhost =>
        rw [if_neg hhost, ← Except.ok.inj h]
        exact ⟨rfl, rfl, rfl, rfl⟩

theorem note_iff (fields : Fields) (h : Sendable cap n field) (hn : n ≤ cap.maxBodySize) :
    (∃ noted, fields.note cap field.name (trimOws field.value) = .ok noted) ↔
      (field.named (octets "Content-Length") = true → fields.contentLength = none) ∧
      (field.named (octets "Host") = true → fields.hasHost = false ∧ trimOws field.value ≠ []) := by
  have hte : asciiIequal field.name (octets "Transfer-Encoding") = false := h.noTransfer
  rw [Fields.note, hte]
  cases hcl : asciiIequal field.name (octets "Content-Length") with
  | true =>
    have hcl' : field.named (octets "Content-Length") = true := hcl
    have hho : field.named (octets "Host") = false := Field.named_other (by decide) hcl
    rw [h.length hcl, hcl', hho]
    cases fields.contentLength with
    | none => simp [Nat.not_lt.mpr hn]
    | some m => simp
  | false =>
    have hcl' : field.named (octets "Content-Length") = false := hcl
    rw [hcl']
    cases hho : asciiIequal field.name (octets "Host") with
    | true =>
      have hho' : field.named (octets "Host") = true := hho
      rw [hho']
      cases fields.hasHost with
      | true => simp
      | false => cases trimOws field.value <;> simp
    | false =>
      have hho' : field.named (octets "Host") = false := hho
      simp [hho']

theorem addLine_sendable (h : Sendable cap n field) (hroom : fields.headerCount < cap.maxHeaders) :
    fields.addLine cap (fieldText field) =
      (do let noted ← ({ fields with headerCount := fields.headerCount + 1 } : Fields).note cap field.name
            (trimOws field.value)
          noted.store cap field.name (trimOws field.value)) := by
  obtain ⟨c, name, hcons⟩ := List.exists_cons_of_ne_nil (isToken_iff.mp h.name).1
  have hc : tokenChar c = true := (isToken_iff.mp h.name).2 c (by rw [hcons]; exact List.mem_cons_self)
  have hfront : ((fieldText field).isEmpty || (fieldText field).head?.any isBlank) = false := by
    rw [fieldText, hcons]
    simp only [List.cons_append, List.isEmpty_cons, List.head?_cons, Option.any_some, Bool.false_or]
    exact isBlank_of_token hc
  have hname : field.name.isEmpty = false := by rw [hcons, List.isEmpty_cons]
  have hsizes : (decide (field.name.length > cap.maxHeaderNameSize) ||
      decide ((trimOws field.value).length > cap.maxHeaderValueSize)) = false := by
    have hns := h.nameSize
    have hvs := h.valueSize
    simp only [Bool.or_eq_false_iff, decide_eq_false_iff_not]
    omega
  rw [Fields.addLine, hfront, fieldText_cut h.name]
  simp only [Bool.false_eq_true, if_false]
  rw [trimOws_cons_space, hname, hsizes, if_neg Bool.false_ne_true, if_neg Bool.false_ne_true,
    if_neg (by omega)]

theorem addLine_goes (left : Headers) (h : Sendable cap n field) (hn : n ≤ cap.maxBodySize)
    (hroom : fields.headerCount < cap.maxHeaders) (hcount : fields.headers.length = fields.headerCount) :
    (Goes fields (field :: left) → ∃ next, fields.addLine cap (fieldText field) = .ok next) ∧
    ∀ next, fields.addLine cap (fieldText field) = .ok next →
      next.headers = fields.headers ++ [trimmed field] ∧ next.headerCount = fields.headerCount + 1 ∧
      (Goes next left → Goes fields (field :: left)) ∧ (Goes fields (field :: left) → Goes next left) := by
  rw [addLine_sendable h hroom]
  generalize hcounted : ({ fields with headerCount := fields.headerCount + 1 } : Fields) = counted
  have hheaders : counted.headers = fields.headers := by rw [← hcounted]
  have hincremented : counted.headerCount = fields.headerCount + 1 := by rw [← hcounted]
  have hlength : counted.contentLength = fields.contentLength := by rw [← hcounted]
  have hhost : counted.hasHost = fields.hasHost := by rw [← hcounted]
  have hnote := note_iff counted h hn
  rw [hlength, hhost] at hnote
  have hstore : ∀ noted : Fields, noted.headers = fields.headers →
      noted.store cap field.name (trimOws field.value) =
        .ok { noted with headers := fields.headers ++ [trimmed field] } := by
    intro noted hsame
    rw [store_sendable h (by rw [hsame]; omega), hsame]
  constructor
  · intro hg
    have hallowed := hnote.mpr (by
      have hone := hg.contentLength
      have htwo := hg.host
      rw [count_cons_field] at hone htwo
      constructor
      · intro hcl
        rw [hcl, if_pos rfl] at hone
        exact Option.toList_eq_nil_iff.mp (List.length_eq_zero_iff.mp (by omega))
      · intro hho
        rw [hho, if_pos rfl] at htwo
        refine ⟨?_, hg.hostValue field List.mem_cons_self hho⟩
        cases hf : fields.hasHost with
        | false => rfl
        | true =>
          rw [hf, Bool.toNat_true] at htwo
          omega)
    obtain ⟨noted, hnoted⟩ := hallowed
    rw [hnoted]
    exact ⟨_, hstore noted ((note_state hnoted).1.trans hheaders)⟩
  · intro next hnext
    cases hnoted : counted.note cap field.name (trimOws field.value) with
    | error failure =>
      rw [hnoted] at hnext
      cases hnext
    | ok noted =>
      obtain ⟨hsame, hcountNoted, hlengthNoted, hhostNoted⟩ := note_state hnoted
      obtain ⟨hfirst, hfilled⟩ := hnote.mp ⟨noted, hnoted⟩
      rw [hnoted] at hnext
      have hnext' := (hstore noted (hsame.trans hheaders)).symm.trans hnext
      rw [hlength] at hlengthNoted
      rw [hhost] at hhostNoted
      rw [← Except.ok.inj hnext']
      refine ⟨rfl, hcountNoted.trans hincremented, ?_, ?_⟩
      · intro hg
        refine ⟨?_, ?_, ?_⟩
        · have hone := hg.contentLength
          change noted.contentLength.toList.length + _ ≤ 1 at hone
          rw [hlengthNoted] at hone
          rw [count_cons_field]
          change _ + (_ + if asciiIequal field.name (octets "Content-Length") = true then 1 else 0) ≤ 1
          omega
        · have htwo := hg.host
          change noted.hasHost.toNat + _ ≤ 1 at htwo
          rw [hhostNoted] at htwo
          rw [count_cons_field]
          change _ + (_ + if asciiIequal field.name (octets "Host") = true then 1 else 0) ≤ 1
          omega
        · rw [List.forall_mem_cons]
          exact ⟨fun hho => (hfilled hho).2, hg.hostValue⟩
      · intro hg
        refine ⟨?_, ?_, fun f hf => hg.hostValue f (List.mem_cons_of_mem field hf)⟩
        · have hone := hg.contentLength
          rw [count_cons_field] at hone
          change _ + (_ + if asciiIequal field.name (octets "Content-Length") = true then 1 else 0) ≤ 1 at hone
          change noted.contentLength.toList.length + _ ≤ 1
          rw [hlengthNoted]
          omega
        · have htwo := hg.host
          rw [count_cons_field] at htwo
          change _ + (_ + if asciiIequal field.name (octets "Host") = true then 1 else 0) ≤ 1 at htwo
          change noted.hasHost.toNat + _ ≤ 1
          rw [hhostNoted]
          omega

/-- The loop over the field lines goes through exactly when there is no second length and no
second host, and no host is empty. -/
theorem addLines_goes (fields : Fields) (h : ∀ field ∈ left, Sendable cap n field)
    (hn : n ≤ cap.maxBodySize) (hroom : fields.headerCount + left.length ≤ cap.maxHeaders)
    (hcount : fields.headers.length = fields.headerCount) :
    (Goes fields left ↔ ∃ next, Fields.addLines cap (left.map fieldText) fields = .ok next) ∧
    ∀ next, Fields.addLines cap (left.map fieldText) fields =
    .ok next → next.headers = fields.headers ++ left.map trimmed := by
  induction left generalizing fields with
  | nil =>
    refine ⟨⟨fun _ => ⟨fields, rfl⟩, fun _ => ?_⟩, fun next hnext => ?_⟩
    · refine ⟨?_, ?_, fun _ hf => absurd hf List.not_mem_nil⟩
      · cases fields.contentLength <;> simp [Headers.count]
      · cases fields.hasHost <;> simp [Headers.count]
    · rw [← Except.ok.inj hnext, List.map_nil, List.append_nil]
  | cons field left ih =>
    rw [List.length_cons] at hroom
    rw [List.map_cons, Fields.addLines]
    obtain ⟨hgo, hstep⟩ := addLine_goes left (h field List.mem_cons_self) hn (by omega) hcount
    have hrest := fun f hf => h f (List.mem_cons_of_mem field hf)
    cases hline : fields.addLine cap (fieldText field) with
    | error failure =>
      constructor
      · constructor
        · intro hg
          obtain ⟨next, hnext⟩ := hgo hg
          cases hline.symm.trans hnext
        · rintro ⟨next, hnext⟩
          cases hnext
      · intro next hnext
        cases hnext
    | ok first =>
      obtain ⟨hheaders, hincremented, hback, hforth⟩ := hstep first hline
      have hlength : first.headers.length = first.headerCount := by
        rw [hheaders, List.length_append, List.length_singleton, hincremented, hcount]
      obtain ⟨hiff, hnext⟩ := ih first hrest (by omega) hlength
      constructor
      · exact ⟨fun hg => hiff.mp (hforth hg), fun hex => hback (hiff.mpr hex)⟩
      · intro next hlast
        rw [hnext next hlast, hheaders, List.append_assoc]
        rfl

end

/-- The texts that the arguments of `build` ask for. -/
def texts (call : RequestCall) : RequestTexts where
  method := call.token
  target := call.path
  version := .http11
  fields := (call.headers ++ call.added).map trimmed
  body := call.body

/-- The server takes the bytes for one request with these texts, and no byte is left. -/
def Served (cap : Capacity) (request : RequestTexts) (bytes : Bytes) : Prop :=
  ∃ marker parsed, findHeaderEnd bytes = some marker ∧ parseHeaders cap bytes marker = .ok parsed ∧
    parsed.request.methodText = request.method ∧ parsed.request.target = request.target ∧
    parsed.request.version = request.version ∧ parsed.request.headers = request.fields ∧
    Session.readBody cap (({ item := { input := bytes }, app := () } : Session Unit).withHeaders parsed marker).item =
      .complete bytes.length request.body

/-- The limits of the server are large enough for the request. -/
structure Roomy (cap : Capacity) (call : RequestCall) : Prop where
  path : call.path.length ≤ cap.maxUriSize
  body : call.body.length ≤ cap.maxBodySize
  headers : (call.headers ++ call.added).length ≤ cap.maxHeaders
  fields : ∀ field ∈ call.headers ++ call.added,
    field.name.length ≤ cap.maxHeaderNameSize ∧ field.value.length ≤ cap.maxHeaderValueSize

/-- What the server asks of the arguments, and `build` does not. -/
structure OneRequest (call : RequestCall) : Prop where
  token : call.token.length < 16
  target : 0x23 ∉ call.path ∧ TargetForm call.path
  contentLength : call.headers.count (octets "Content-Length") ≤ 1
  host : call.headers.count (octets "Host") ≤ 1
  hostValue : ∀ field ∈ call.headers, field.named (octets "Host") = true → trimOws field.value ≠ []
  expect : trimOws (call.headers.get (octets "Expect")) = [] ∨
    asciiIequal (trimOws (call.headers.get (octets "Expect"))) (octets "100-continue") = true

section

variable {cap : Capacity} {rcap : RequestCapacity} {call : RequestCall} {bytes : Bytes}

theorem digits_of_parseDecimalLoop {value : Bytes} {result n : ℕ}
    (h : parseDecimalLoop value result = some n) : ∀ c ∈ value, between 0x30 0x39 c = true := by
  induction value generalizing result with
  | nil => exact fun c hc => absurd hc List.not_mem_nil
  | cons c value ih =>
    rw [parseDecimalLoop] at h
    split at h
    · cases h
    next hdigit =>
      rw [Bool.not_eq_true, Bool.not_eq_false'] at hdigit
      simp only at h
      split at h
      · cases h
      · rw [List.forall_mem_cons]
        exact ⟨hdigit, ih h⟩

theorem trimOws_of_parseDecimal {value : Bytes} {n : ℕ} (h : parseDecimal value = some n) :
    trimOws value = value := by
  rw [parseDecimal] at h
  split at h
  · cases h
  · exact trimOws_token fun c hc => tokenChar_of_digit (digits_of_parseDecimalLoop h c hc)

theorem length_trimOws_le (value : Bytes) : (trimOws value).length ≤ value.length := by
  obtain ⟨before, after, hsplit, _, _⟩ := trimOws_split value
  have hlen := congrArg List.length hsplit
  rw [List.length_append, List.length_append] at hlen
  omega

theorem visible_value {text : Bytes} (h : isVisibleText text = true) :
    validValue text = true ∧ trimOws text = text ∧ text ≠ [] := by
  rw [isVisibleText, Bool.and_eq_true, List.all_eq_true] at h
  obtain ⟨hne, hall⟩ := h
  have hblank : ∀ c ∈ text, isBlank c = false := by
    intro c hc
    have hv := hall c hc
    simp only [Bool.and_eq_true, decide_eq_true_eq] at hv
    have hs : c ≠ space := fun he => by rw [he] at hv; exact absurd hv.1 (by decide)
    have ht : c ≠ tab := fun he => by rw [he] at hv; exact absurd hv.1 (by decide)
    simp [isBlank, hs, ht]
  refine ⟨?_, ?_, by simpa using hne⟩
  · apply List.all_eq_true.mpr
    intro c hc
    have hv := hall c hc
    simp only [Bool.and_eq_true, decide_eq_true_eq] at hv
    have hlow : ¬c < 0x20 := by
      rw [UInt8.lt_iff_toNat_lt] at hv ⊢
      omega
    simp [hlow, hv.2]
  · apply trimOws_eq_self
    · exact fun c hc => hblank c (List.mem_of_mem_head? hc)
    · exact fun c hc => hblank c (List.mem_of_getLast? hc)

theorem parseDecimal_decimal (h : call.body.length ≤ rcap.capacity) :
    parseDecimal (decimal call.body.length) = some call.body.length := by
  have hsize := rcap.sizeType
  exact parseDecimal_digits (by omega) (by omega)

theorem sendable (hb : RequestCall.Built rcap call) (hs : Headers.Stored rcap.headers call.headers)
    (hroom : Roomy cap call) : ∀ field ∈ call.headers ++ call.added, Sendable cap call.body.length field := by
  intro field hf
  obtain ⟨hnameSize, hvalueSize⟩ := hroom.fields field hf
  have hvalueSize' := Nat.le_trans (length_trimOws_le field.value) hvalueSize
  rcases List.mem_append.mp hf with hf | hf
  · have hstored := hs.fields field hf
    have hpass := hb.passes field hf
    have hname : isToken field.name = true := by
      have hvalid := hstored.name
      have hhead := hpass.ordinary
      cases hn : field.name with
      | nil =>
        rw [hn] at hvalid
        cases hvalid
      | cons c name =>
        rw [hn] at hvalid hhead
        have hc : c ≠ 0x3a := fun he => hhead (by rw [he]; rfl)
        rw [validName, if_neg hc] at hvalid
        rw [isToken, List.all_cons, hvalid]
        rfl
    refine ⟨hname, hstored.value, hnameSize, hvalueSize', ?_, ?_⟩
    · rw [Field.named_congr (show asciiIequal (octets "Transfer-Encoding") (octets "transfer-encoding") = true
        by decide)]
      exact hpass.noTransfer
    · intro hcl
      rw [Field.named_congr (show asciiIequal (octets "Content-Length") (octets "content-length") = true
        by decide)] at hcl
      have hparse := hpass.length hcl
      rwa [trimOws_of_parseDecimal hparse]
  · rw [RequestCall.added, List.mem_append, List.mem_append] at hf
    rcases hf with (hf | hf) | hf
    · split at hf
      · cases hf
      · rw [List.mem_singleton.mp hf] at hnameSize hvalueSize' ⊢
        refine ⟨show isToken (octets "Host") = true by decide, (visible_value hb.authority).1, hnameSize,
          hvalueSize', show asciiIequal (octets "Host") (octets "Transfer-Encoding") = false by decide, ?_⟩
        exact fun h => absurd h (show ¬asciiIequal (octets "Host") (octets "Content-Length") = true by decide)
    · split at hf
      · rw [List.mem_singleton.mp hf] at hnameSize hvalueSize' ⊢
        have hparse := parseDecimal_decimal hb.body
        have hdigits : ∀ c ∈ decimal call.body.length, tokenChar c = true :=
          fun c hc => tokenChar_of_digit (mem_decimalLoop hc)
        refine ⟨show isToken (octets "Content-Length") = true by decide, validValue_of_token hdigits,
          hnameSize, hvalueSize',
          show asciiIequal (octets "Content-Length") (octets "Transfer-Encoding") = false by decide, fun _ => ?_⟩
        change parseDecimal (trimOws (decimal _)) = _
        rw [trimOws_of_parseDecimal hparse, hparse]
      · cases hf
    · split at hf
      · cases hf
      · rw [List.mem_singleton.mp hf] at hnameSize hvalueSize' ⊢
        refine ⟨show isToken (octets "Connection") = true by decide, ?_, hnameSize, hvalueSize',
          show asciiIequal (octets "Connection") (octets "Transfer-Encoding") = false by decide, ?_⟩
        · change validValue (if call.keepAlive then _ else _) = true
          cases call.keepAlive <;> decide
        · intro h
          exact absurd h (show ¬asciiIequal (octets "Connection") (octets "Content-Length") = true by decide)

theorem get_trimmed (headers : Headers) (name : Bytes) :
    Headers.get (headers.map trimmed) name = trimOws (headers.get name) := by
  rw [Headers.get, Headers.get, List.find?_map]
  change (((headers.find? (Field.named name)).map trimmed).map Field.value).getD [] = _
  cases headers.find? (Field.named name) <;> rfl

theorem count_append_headers (a b : Headers) (name : Bytes) :
    Headers.count (a ++ b) name = a.count name + b.count name := List.countP_append

theorem count_added (call : RequestCall) :
    call.added.count (octets "Content-Length") =
      (if !call.headers.contains (octets "content-length") && call.needsLength then 1 else 0) ∧
    call.added.count (octets "Host") = (if call.headers.contains (octets "host") then 0 else 1) ∧
    call.added.count (octets "Expect") = 0 := by
  rw [RequestCall.added]
  cases call.headers.contains (octets "host") <;>
    cases !call.headers.contains (octets "content-length") && call.needsLength <;>
    cases call.headers.contains (octets "connection") <;> exact ⟨rfl, rfl, rfl⟩

theorem contains_congr {a b : Bytes} (headers : Headers) (h : asciiIequal a b = true) :
    headers.contains a = headers.contains b := by
  rw [Headers.contains, Headers.contains]
  congr 1
  funext field
  exact Field.named_congr h field

theorem count_length (call : RequestCall) :
    ((call.headers ++ call.added).count (octets "Content-Length") ≤ 1 ↔
      call.headers.count (octets "Content-Length") ≤ 1) ∧
    ((call.headers ++ call.added).count (octets "Content-Length") = 0 → call.body = []) := by
  have hsame := contains_congr call.headers
    (show asciiIequal (octets "content-length") (octets "Content-Length") = true by decide)
  rw [count_append_headers, (count_added call).1, hsame]
  cases hc : call.headers.contains (octets "Content-Length") with
  | true =>
    have hpos := Headers.contains_iff.mp hc
    simp only [Bool.not_true, Bool.false_and, Bool.false_eq_true, if_false, Nat.add_zero, true_and]
    intro hzero
    omega
  | false =>
    rw [Headers.contains_eq_false_iff.mp hc]
    cases hn : call.needsLength with
    | true => simp
    | false =>
      have hbody : call.body = [] := by
        simp only [RequestCall.needsLength, Bool.or_eq_false_iff, decide_eq_false_iff_not, not_not] at hn
        exact List.length_eq_zero_iff.mp hn.1.1.1
      simp [hbody]

theorem count_host (call : RequestCall) :
    ((call.headers ++ call.added).count (octets "Host") ≤ 1 ↔ call.headers.count (octets "Host") ≤ 1) ∧
    0 < (call.headers ++ call.added).count (octets "Host") := by
  have hsame := contains_congr call.headers (show asciiIequal (octets "host") (octets "Host") = true by decide)
  rw [count_append_headers, (count_added call).2.1, hsame]
  cases hc : call.headers.contains (octets "Host") with
  | true =>
    have hpos := Headers.contains_iff.mp hc
    simp only [if_true, Nat.add_zero, true_and]
    exact hpos
  | false =>
    rw [Headers.contains_eq_false_iff.mp hc]
    decide

theorem hostValue_iff (hb : RequestCall.Built rcap call) :
    (∀ field ∈ call.headers ++ call.added, field.named (octets "Host") = true → trimOws field.value ≠ []) ↔
      ∀ field ∈ call.headers, field.named (octets "Host") = true → trimOws field.value ≠ [] := by
  rw [List.forall_mem_append]
  refine and_iff_left ?_
  intro field hf hname
  rw [RequestCall.added, List.mem_append, List.mem_append] at hf
  rcases hf with (hf | hf) | hf
  · split at hf
    · cases hf
    · obtain ⟨_, htrim, hne⟩ := visible_value hb.authority
      rw [List.mem_singleton.mp hf]
      change trimOws call.authority ≠ []
      rwa [htrim]
  · split at hf
    · rw [List.mem_singleton.mp hf] at hname
      exact absurd hname (show ¬asciiIequal (octets "Content-Length") (octets "Host") = true by decide)
    · cases hf
  · split at hf
    · cases hf
    · rw [List.mem_singleton.mp hf] at hname
      exact absurd hname (show ¬asciiIequal (octets "Connection") (octets "Host") = true by decide)

theorem get_expect (call : RequestCall) :
    (call.headers ++ call.added).get (octets "Expect") = call.headers.get (octets "Expect") := by
  have hnone : call.added.find? (Field.named (octets "Expect")) = none := by
    rw [List.find?_eq_none]
    intro field hf
    exact List.countP_eq_zero.mp (count_added call).2.2 field hf
  rw [Headers.get, Headers.get, List.find?_append, hnone, Option.or_none]

theorem built_plain (hb : RequestCall.Built rcap call) (hs : Headers.Stored rcap.headers call.headers)
    (hroom : Roomy cap call) :
    ∀ line ∈ call.requestLine :: (call.headers ++ call.added).map fieldText, Plain carriageReturn line := by
  have hsend := sendable hb hs hroom
  rw [List.forall_mem_cons]
  constructor
  · constructor
    · exact List.append_ne_nil_of_right_ne_nil _ (List.cons_ne_nil _ _)
    · have htoken := not_mem_token hb.token carriageReturn_not_token
      have hpath := carriageReturn_not_mem (visible_value hb.path).1
      rw [RequestCall.requestLine]
      simp only [List.mem_append, List.mem_cons, not_or]
      exact ⟨htoken, by decide, hpath, by decide, by decide⟩
  · intro line hl
    obtain ⟨field, hf, rfl⟩ := List.mem_map.mp hl
    have hname := not_mem_token (hsend field hf).name carriageReturn_not_token
    have hvalue := carriageReturn_not_mem (hsend field hf).value
    constructor
    · exact List.append_ne_nil_of_left_ne_nil (List.append_ne_nil_of_right_ne_nil _ (List.cons_ne_nil _ _)) _
    · rw [fieldText]
      simp only [List.mem_append, List.mem_cons, not_or]
      exact ⟨⟨hname, by decide, by decide, List.not_mem_nil⟩, hvalue⟩

theorem built_sections (h : call.build rcap = (.ok, bytes)) :
    bytes = joinLines crlf (call.requestLine :: (call.headers ++ call.added).map fieldText) ++
      (crlf ++ crlf) ++ call.body := by
  have hjoin := joinLines_append crlf (call.requestLine :: (call.headers ++ call.added).map fieldText)
    (List.cons_ne_nil _ _)
  rw [List.flatMap_cons, List.flatMap_map] at hjoin
  rw [(RequestCall.build_ok h).2, ← List.append_assoc, hjoin]

theorem built_lines (h : call.build rcap = (.ok, bytes)) (hs : Headers.Stored rcap.headers call.headers)
    (hroom : Roomy cap call) :
    ∃ marker, findHeaderEnd bytes = some marker ∧
      lines crlf (bytes.take marker) = call.requestLine :: (call.headers ++ call.added).map fieldText ∧
      bytes.length = marker + 4 + call.body.length ∧ bytes.drop (marker + 4) = call.body := by
  have hplain := built_plain (RequestCall.build_ok h).1 hs hroom
  have hsections := built_sections h
  have hne : call.requestLine :: (call.headers ++ call.added).map fieldText ≠ [] := List.cons_ne_nil _ _
  generalize call.requestLine :: (call.headers ++ call.added).map fieldText = texts at hplain hsections hne ⊢
  have hfound : findHeaderEnd (joinLines crlf texts ++ (crlf ++ crlf) ++ call.body) =
      some (joinLines crlf texts).length := firstIndex_joinLines crlf_ne hne hplain call.body
  have hlines : lines crlf (joinLines crlf texts) = texts := lines_joinLines hplain
  have hcrlf : (crlf ++ crlf).length = 4 := rfl
  have hhead : (joinLines crlf texts ++ (crlf ++ crlf)).length = (joinLines crlf texts).length + 4 := by
    rw [List.length_append, hcrlf]
  refine ⟨(joinLines crlf texts).length, ?_, ?_, ?_, ?_⟩
  · rw [hsections, hfound]
  · rw [hsections, List.append_assoc, List.take_left, hlines]
  · rw [hsections, List.length_append, hhead]
  · rw [hsections, ← hhead, List.drop_left]

theorem requestLine_read {request : Request} (hb : RequestCall.Built rcap call)
    (h : parseRequestLine cap call.requestLine = .ok request) :
    request.methodText = call.token ∧ request.target = call.path ∧ request.version = .http11 := by
  obtain ⟨hline, htoken, hvisible, _⟩ := parseRequestLine_ok h
  have hspace : ∀ text : Bytes, isVisibleText text = true → space ∉ text := by
    intro text ht hm
    rw [isVisibleText, Bool.and_eq_true, List.all_eq_true] at ht
    exact absurd (ht.2 _ hm) (by decide)
  have hcut := cut_append (not_mem_token htoken (show tokenChar space = false by decide))
    (request.target ++ space :: versionText request.version)
  rw [← hline, RequestCall.requestLine, cut_append (not_mem_token hb.token (by decide))] at hcut
  obtain ⟨hverb, hrest⟩ := Prod.mk.inj (Option.some.inj hcut)
  have hcut' := cut_append (hspace _ hvisible) (versionText request.version)
  rw [← hrest, cut_append (hspace _ hb.path)] at hcut'
  obtain ⟨htarget, hversion⟩ := Prod.mk.inj (Option.some.inj hcut')
  refine ⟨hverb.symm, htarget.symm, ?_⟩
  cases hv : request.version with
  | http11 => rfl
  | http10 =>
    rw [hv] at hversion
    exact absurd hversion (by decide)

theorem loop_built {fields : Fields}
    (hsend : ∀ field ∈ call.headers ++ call.added, Sendable cap call.body.length field) (hroom : Roomy cap call)
    (hfields : Fields.addLines cap ((call.headers ++ call.added).map fieldText) {} = .ok fields) :
    fields.headers = (texts call).fields ∧ fields.hasTransferEncoding = false ∧ fields.hasHost = true ∧
      fields.contentLength.getD 0 = call.body.length ∧
      fields.headers.get (octets "Expect") = trimOws (call.headers.get (octets "Expect")) := by
  have hzero : ({} : Fields).headerCount + (call.headers ++ call.added).length ≤ cap.maxHeaders := by
    rw [Nat.zero_add]
    exact hroom.headers
  have hall : fields.headers = (call.headers ++ call.added).map trimmed :=
    (addLines_goes {} hsend hroom.body hzero rfl).2 fields hfields
  have hread := Fields.addLines_read Fields.Read.nil hfields
  have hcount : ∀ name, fields.headers.count name = (call.headers ++ call.added).count name := by
    intro name
    rw [hall, count_trimmed]
  refine ⟨hall, ?_, ?_, ?_, ?_⟩
  · have hnone : (call.headers ++ call.added).count (octets "Transfer-Encoding") = 0 := by
      rw [Headers.count, List.countP_eq_zero]
      intro field hf
      rw [(hsend field hf).noTransfer]
      exact Bool.false_ne_true
    have hte := hread.transferEncoding
    rw [hcount, hnone] at hte
    by_contra hne
    rw [Bool.not_eq_false] at hne
    rw [hne] at hte
    cases hte
  · have hpos := (count_host call).2
    have hho := hread.host
    rw [hcount] at hho
    by_contra hne
    rw [Bool.not_eq_true] at hne
    rw [hne] at hho
    change _ = 0 at hho
    omega
  · have hcl := hread.contentLength
    rw [hcount] at hcl
    cases hlength : fields.contentLength with
    | none =>
      rw [hlength] at hcl
      rw [(count_length call).2 hcl]
      rfl
    | some m =>
      rw [hlength] at hcl
      have hpos : 0 < (call.headers ++ call.added).count (octets "Content-Length") := by
        rw [hcl]
        exact Nat.one_pos
      obtain ⟨field, hf, hname⟩ := List.countP_pos_iff.mp hpos
      have hmem : trimmed field ∈ fields.headers := by
        rw [hall]
        exact List.mem_map_of_mem hf
      have hm := (hread.length m hlength).2 _ hmem hname
      exact Option.some.inj (hm.symm.trans ((hsend field hf).length hname))
  · rw [hall, get_trimmed, get_expect]

theorem parse_built {marker : ℕ} (hb : RequestCall.Built rcap call)
    (hs : Headers.Stored rcap.headers call.headers) (hroom : Roomy cap call)
    (hlines : lines crlf (bytes.take marker) = call.requestLine :: (call.headers ++ call.added).map fieldText) :
    (OneRequest call ↔ ∃ parsed, parseHeaders cap bytes marker = .ok parsed) ∧
    ∀ parsed, parseHeaders cap bytes marker = .ok parsed →
      parsed.request.methodText = call.token ∧ parsed.request.target = call.path ∧
      parsed.request.version = .http11 ∧ parsed.request.headers = (texts call).fields ∧
      parsed.chunked = false ∧ parsed.contentLength.getD 0 = call.body.length := by
  have hsend := sendable hb hs hroom
  obtain ⟨hgoes, hheaders⟩ := addLines_goes {} hsend hroom.body
    (by rw [Nat.zero_add]; exact hroom.headers) rfl
  have hline := parseRequestLine_iff hb.token hb.path hroom.path
  have hparse : parseHeaders cap bytes marker = (do
      let request ← parseRequestLine cap call.requestLine
      let fields ← Fields.addLines cap ((call.headers ++ call.added).map fieldText) {}
      if request.version = .http11 && !fields.hasHost then .error (malformed 400)
      else if fields.contentLength.isSome && fields.hasTransferEncoding then .error (malformed 400)
      else if !expectsContinue fields.headers && !(fields.headers.get (octets "Expect")).isEmpty then
        .error (malformed 417)
      else
        .ok {
          request := { request with headers := fields.headers }
          contentLength := fields.contentLength
          chunked := fields.hasTransferEncoding
          keepAlive := keepsAlive request.version fields.headers }) := by
    rw [parseHeaders, hlines]
    rfl
  rw [hparse]
  cases hrequest : parseRequestLine cap call.requestLine with
  | error failure =>
    constructor
    · constructor
      · intro hone
        obtain ⟨request, hok⟩ := hline.mpr ⟨hone.token, hone.target⟩
        cases hrequest.symm.trans hok
      · rintro ⟨parsed, h⟩
        cases h
    · intro parsed h
      cases h
  | ok request =>
    obtain ⟨htoken, htarget⟩ := hline.mp ⟨request, hrequest⟩
    obtain ⟨hmethod, hpath, hversion⟩ := requestLine_read hb hrequest
    cases hfields : Fields.addLines cap ((call.headers ++ call.added).map fieldText) {} with
    | error failure =>
      constructor
      · constructor
        · intro hone
          have hgo : Goes {} (call.headers ++ call.added) := by
            refine ⟨?_, ?_, (hostValue_iff hb).mpr hone.hostValue⟩
            · rw [show (({} : Fields).contentLength.toList).length = 0 from rfl, Nat.zero_add]
              exact (count_length call).1.mpr hone.contentLength
            · rw [show ({} : Fields).hasHost.toNat = 0 from rfl, Nat.zero_add]
              exact (count_host call).1.mpr hone.host
          obtain ⟨fields, hok⟩ := hgoes.mp hgo
          cases hfields.symm.trans hok
        · rintro ⟨parsed, h⟩
          cases h
      · intro parsed h
        cases h
    | ok fields =>
      have hgo := hgoes.mpr ⟨fields, hfields⟩
      obtain ⟨hall, hno, hhost, hlength, hexpect⟩ := loop_built hsend hroom hfields
      simp only [bind, Except.bind]
      rw [hhost, hno, Bool.and_false, hversion, expectsContinue, hexpect]
      simp only [Bool.not_true, Bool.and_false, Bool.false_eq_true, if_false]
      constructor
      · constructor
        · intro hone
          rw [if_neg]
          · exact ⟨_, rfl⟩
          · rcases hone.expect with he | he <;> simp [he]
        · rintro ⟨parsed, h⟩
          split at h
          · cases h
          next he =>
            refine ⟨htoken, htarget, ?_, ?_, (hostValue_iff hb).mp hgo.hostValue, ?_⟩
            · have hone := hgo.contentLength
              rw [show (({} : Fields).contentLength.toList).length = 0 from rfl, Nat.zero_add] at hone
              exact (count_length call).1.mp hone
            · have hone := hgo.host
              rw [show ({} : Fields).hasHost.toNat = 0 from rfl, Nat.zero_add] at hone
              exact (count_host call).1.mp hone
            · simp only [Bool.and_eq_true, Bool.not_eq_true', not_and, Bool.not_eq_false,
                List.isEmpty_iff] at he
              cases hcontinue : asciiIequal (trimOws (call.headers.get (octets "Expect")))
                  (octets "100-continue") with
              | true => exact Or.inr rfl
              | false => exact Or.inl (he hcontinue)
      · intro parsed h
        split at h
        · cases h
        · rw [← Except.ok.inj h]
          exact ⟨hmethod, hpath, rfl, hall, rfl, hlength⟩

theorem fieldLine_text {field : Field} {n : ℕ} (h : Sendable cap n field) :
    FieldLine (trimmed field) (fieldText field) := by
  obtain ⟨before, after, hsplit, hbefore, hafter⟩ := trimOws_split field.value
  refine ⟨h.name, validValue_trimOws h.value, space :: before, after, ?_, hafter, ?_⟩
  · intro c hc
    rcases List.mem_cons.mp hc with hc | hc
    · rw [hc]
      decide
    · exact hbefore c hc
  · change field.name ++ [colon, space] ++ field.value =
      field.name ++ colon :: (space :: before ++ trimOws field.value ++ after)
    rw [List.cons_append, List.cons_append, ← hsplit, List.append_assoc]
    rfl

theorem built_wellFormed (h : call.build rcap = (.ok, bytes))
    (hs : Headers.Stored rcap.headers call.headers)
    (hroom : Roomy cap call) (hone : OneRequest call) : WellFormed (texts call) bytes := by
  obtain ⟨hb, hbytes⟩ := RequestCall.build_ok h
  have hsend := sendable hb hs hroom
  have hcount : ∀ name, (texts call).fields.count name = (call.headers ++ call.added).count name :=
    fun name => count_trimmed name
  refine ⟨hb.token, ⟨hb.path, hone.target⟩, fun _ => ?_, ?_⟩
  · have hhost := count_host call
    have hle := hhost.1.mpr hone.host
    rw [hcount]
    omega
  · refine ⟨(call.headers ++ call.added).map fieldText, call.body, ?_, ?_, ?_⟩
    · change List.Forall₂ FieldLine ((call.headers ++ call.added).map trimmed) _
      rw [List.forall₂_map_left_iff, List.forall₂_map_right_iff, List.forall₂_same]
      exact fun field hf => fieldLine_text (hsend field hf)
    · have hnone : (texts call).fields.count (octets "Transfer-Encoding") = 0 := by
        rw [hcount, Headers.count, List.countP_eq_zero]
        intro field hf
        rw [(hsend field hf).noTransfer]
        exact Bool.false_ne_true
      have hlength := count_length call
      have hle := hlength.1.mpr hone.contentLength
      by_cases hzero : (call.headers ++ call.added).count (octets "Content-Length") = 0
      · refine Or.inl ⟨?_, hnone, hlength.2 hzero, hlength.2 hzero⟩
        rw [hcount, hzero]
      · refine Or.inr (Or.inl ⟨?_, hnone, ?_, rfl⟩)
        · rw [hcount]
          omega
        · intro field hf hname
          obtain ⟨sent, hsent, rfl⟩ := List.mem_map.mp hf
          exact (hsend sent hsent).length hname
    · rw [hbytes, List.flatMap_map]
      rfl

theorem Session.readBody_plain {item : Connection} {body : Bytes} (hchunked : item.chunked = false)
    (hcontent : item.contentLength = body.length) (hroom : body.length ≤ cap.maxBodySize)
    (hdrop : item.input.drop item.bodyOffset = body)
    (hlength : item.input.length = item.bodyOffset + body.length) :
    Session.readBody cap item = .complete item.input.length body := by
  have hcopy : copyToBody cap [] item.input item.bodyOffset body.length = some body := by
    rw [copyToBody, if_neg]
    · rw [slice, hdrop, Nat.add_sub_cancel_left, List.take_length, List.nil_append]
    · simp only [Bool.or_eq_true, decide_eq_true_eq, List.length_nil, Nat.zero_add]
      omega
  rw [Session.readBody, hchunked, if_neg Bool.false_ne_true, hcontent, if_neg (Nat.not_lt.mpr hroom),
    if_neg (by omega), hcopy, hlength]

/-- The bytes of a built request are one well-formed request, and the server takes them for it
with nothing left, exactly when the arguments are what the server asks for. -/
theorem build_served_iff (h : call.build rcap = (.ok, bytes))
    (hs : Headers.Stored rcap.headers call.headers) (hroom : Roomy cap call) :
    (WellFormed (texts call) bytes ∧ Served cap (texts call) bytes) ↔ OneRequest call := by
  have hb := (RequestCall.build_ok h).1
  obtain ⟨marker, hmarker, hlines, hlength, hdrop⟩ := built_lines h hs hroom
  obtain ⟨hiff, hread⟩ := parse_built hb hs hroom hlines
  constructor
  · rintro ⟨_, marker', parsed, hm, hp, _⟩
    rw [hmarker] at hm
    rw [← Option.some.inj hm] at hp
    exact hiff.mpr ⟨parsed, hp⟩
  · intro hone
    refine ⟨built_wellFormed h hs hroom hone, ?_⟩
    obtain ⟨parsed, hp⟩ := hiff.mp hone
    obtain ⟨hmethod, htarget, hversion, hheaders, hchunked, hbody⟩ := hread parsed hp
    refine ⟨marker, parsed, hmarker, hp, hmethod, htarget, hversion, hheaders, ?_⟩
    exact Session.readBody_plain hchunked hbody hroom.body hdrop hlength

end

/-- The smallest buffers of a client. -/
def smallRequests : RequestCapacity where
  capacity := 64
  headers := ⟨4, 16, 16⟩
  minimum := Nat.le_refl 64
  sizeType := Nat.lt_of_sub_pos (Nat.lt_of_sub_eq_succ rfl)

def getCall : RequestCall where
  verb := .get
  path := octets "/"
  authority := octets "a"

theorem get_served : WellFormed (texts getCall) (getCall.build smallRequests).2 ∧
    Served Capacity.standard (texts getCall) (getCall.build smallRequests).2 := by
  have hroom : Roomy Capacity.standard getCall := by
    constructor <;> decide
  have hone : OneRequest getCall := by
    refine ⟨by decide, ⟨by decide, TargetForm.origin []⟩, by decide, by decide, ?_, Or.inl (by decide)⟩
    exact fun field hf => absurd hf List.not_mem_nil
  have hbuilt : getCall.build smallRequests = (.ok, (getCall.build smallRequests).2) := by decide
  exact (build_served_iff hbuilt Headers.Stored.nil hroom).mpr hone

/-- A request whose header list holds two hosts. -/
def twoHosts : RequestCall where
  verb := .get
  path := octets "/"
  authority := octets "a"
  headers := [⟨octets "Host", octets "a"⟩, ⟨octets "Host", octets "b"⟩]

theorem two_hosts_built : (twoHosts.build smallRequests).1 = .ok ∧
    Headers.Stored smallRequests.headers twoHosts.headers ∧ Roomy Capacity.standard twoHosts ∧
    ¬WellFormed (texts twoHosts) (twoHosts.build smallRequests).2 ∧
    ¬Served Capacity.standard (texts twoHosts) (twoHosts.build smallRequests).2 := by
  have htwo : (texts twoHosts).fields.count (octets "Host") = 2 := by decide
  refine ⟨by decide, ⟨by decide, ?_⟩, by constructor <;> decide, ?_, ?_⟩
  · intro field hf
    rcases List.mem_pair.mp hf with hf | hf <;> rw [hf] <;> constructor <;> decide
  · intro h
    have hone := h.host rfl
    omega
  · rintro ⟨marker, parsed, hm, hp, _, _, hversion, hfields, _⟩
    have hone := (parseHeaders_accepted hm hp).host hversion
    rw [hfields] at hone
    omega

end Castle.Http.Server

import Castle.Http.RequestSyntax

/-!
# The request builder of the client (`http1.hpp`)

`build` appends texts to a buffer of fixed size, and stops at the first one that does not fit.
-/

namespace Castle.Http.Http1

/-- The template parameters of `http1_request`; a capacity is a `size_type`. -/
structure RequestCapacity where
  capacity : ℕ
  headers : HeadersCapacity
  minimum : 64 ≤ capacity
  sizeType : capacity < 2 ^ 64

theorem RequestCapacity.smallest_fits : 64 < 2 ^ 64 := by decide

/-- The arguments of `build`. -/
structure RequestCall where
  verb : Method
  path : Bytes
  authority : Bytes
  headers : Headers := []
  body : Bytes := []
  customMethod : Bytes := []
  keepAlive : Bool := true
  deriving DecidableEq

/-- A text that is appended, or the buffer as it was. -/
def append (capacity : ℕ) (buffer value : Bytes) : Bool × Bytes :=
  if value.length > capacity - buffer.length then (false, buffer) else (true, buffer ++ value)

/-- Calls of `append` up to the first one that fails. -/
def appendAll (capacity : ℕ) : List Bytes → Bytes → Bool × Bytes
  | [], buffer => (true, buffer)
  | value :: values, buffer =>
    match append capacity buffer value with
    | (false, buffer) => (false, buffer)
    | (true, buffer) => appendAll capacity values buffer

/-- The digits of `append_decimal`. -/
def decimal (value : ℕ) : Bytes := decimalLoop 25 value []

/-- The loop over the header fields: a failure, or the buffer behind them. -/
def appendFields (capacity : ℕ) (body : Bytes) : Headers → Bytes → Status × Bytes
  | [], buffer => (.ok, buffer)
  | item :: headers, buffer =>
    if item.name.head? = some colon || item.named (octets "transfer-encoding") then
      (.invalidArgument, buffer)
    else if item.named (octets "content-length") && parseDecimal item.value ≠ some body.length then
      (.invalidArgument, buffer)
    else
      match appendAll capacity [item.name, [colon, space], item.value, crlf] buffer with
      | (false, buffer) => (.full, buffer)
      | (true, buffer) => appendFields capacity body headers buffer

namespace RequestCall

variable (call : RequestCall)

def token : Bytes := if call.verb = .custom then call.customMethod else methodToken call.verb

/-- A length is written for a body, and for the methods that usually have one. -/
def needsLength : Bool :=
  call.body.length ≠ 0 || call.verb = .post || call.verb = .put || call.verb = .patch

def hostTexts : List Bytes :=
  if call.headers.contains (octets "host") then [] else [octets "Host: ", call.authority, crlf]

def lengthTexts : List Bytes :=
  if !call.headers.contains (octets "content-length") && call.needsLength then
    [octets "Content-Length: ", decimal call.body.length, crlf]
  else []

def connectionTexts : List Bytes :=
  if call.headers.contains (octets "connection") then []
  else if call.keepAlive then [octets "Connection: keep-alive\r\n"]
  else [octets "Connection: close\r\n"]

/-- `build`: its status, and the bytes that `data` returns afterwards. -/
def build (cap : RequestCapacity) : Status × Bytes :=
  if !isToken call.token || !isVisibleText call.path || !isVisibleText call.authority then
    (.invalidArgument, [])
  else
    match appendAll cap.capacity [call.token, [space], call.path, octets " HTTP/1.1\r\n"] [] with
    | (false, buffer) => (.full, buffer)
    | (true, buffer) =>
      match appendFields cap.capacity call.body call.headers buffer with
      | (.ok, buffer) =>
        match appendAll cap.capacity (call.hostTexts ++ call.lengthTexts ++ call.connectionTexts ++
            [crlf, call.body]) buffer with
        | (false, buffer) => (.full, buffer)
        | (true, buffer) => (.ok, buffer)
      | failure => failure

/-- The fields that `build` adds. -/
def added : Headers :=
  (if call.headers.contains (octets "host") then [] else [⟨octets "Host", call.authority⟩]) ++
  (if !call.headers.contains (octets "content-length") && call.needsLength then
    [⟨octets "Content-Length", decimal call.body.length⟩] else []) ++
  (if call.headers.contains (octets "connection") then []
    else [⟨octets "Connection", if call.keepAlive then octets "keep-alive" else octets "close"⟩])

end RequestCall

def fieldText (field : Field) : Bytes := field.name ++ [colon, space] ++ field.value

theorem append_true {capacity : ℕ} {buffer value next : Bytes}
    (h : append capacity buffer value = (true, next)) (hb : buffer.length ≤ capacity) :
    next = buffer ++ value ∧ next.length ≤ capacity := by
  rw [append] at h
  split at h
  · cases h
  next hroom =>
    rw [← (Prod.mk.inj h).2, List.length_append]
    exact ⟨rfl, by omega⟩

theorem appendAll_true {capacity : ℕ} {values : List Bytes} {buffer next : Bytes}
    (h : appendAll capacity values buffer = (true, next)) (hb : buffer.length ≤ capacity) :
    next = buffer ++ values.flatten ∧ next.length ≤ capacity := by
  induction values generalizing buffer with
  | nil =>
    rw [← (Prod.mk.inj h).2, List.flatten_nil, List.append_nil]
    exact ⟨rfl, hb⟩
  | cons value values ih =>
    rw [appendAll] at h
    split at h
    · cases h
    next first hfirst =>
      obtain ⟨hvalue, hroom⟩ := append_true hfirst hb
      have hrest := ih h hroom
      rw [hvalue, List.append_assoc] at hrest
      exact hrest

/-- A field that `build` lets through. -/
structure Passes (body : Bytes) (field : Field) : Prop where
  ordinary : field.name.head? ≠ some colon
  noTransfer : field.named (octets "transfer-encoding") = false
  length : field.named (octets "content-length") = true → parseDecimal field.value = some body.length

theorem appendFields_ok {capacity : ℕ} {body : Bytes} {headers : Headers} {buffer next : Bytes}
    (h : appendFields capacity body headers buffer = (.ok, next)) (hb : buffer.length ≤ capacity) :
    next = buffer ++ headers.flatMap (fun field => fieldText field ++ crlf) ∧ next.length ≤ capacity ∧
      ∀ field ∈ headers, Passes body field := by
  induction headers generalizing buffer with
  | nil =>
    rw [← (Prod.mk.inj h).2, List.flatMap_nil, List.append_nil]
    exact ⟨rfl, hb, fun _ hf => absurd hf List.not_mem_nil⟩
  | cons item headers ih =>
    rw [appendFields] at h
    split at h
    · cases h
    next hname =>
      split at h
      · cases h
      next hlength =>
        split at h
        · cases h
        next first hfirst =>
          obtain ⟨hitem, hroom⟩ := appendAll_true hfirst hb
          obtain ⟨hrest, hfits, hpass⟩ := ih h hroom
          refine ⟨?_, hfits, ?_⟩
          · rw [hrest, hitem, List.flatMap_cons]
            simp [fieldText]
          · simp only [Bool.or_eq_true, decide_eq_true_eq, not_or, Bool.not_eq_true] at hname
            simp only [Bool.and_eq_true, decide_eq_true_eq, not_and, not_not] at hlength
            rw [List.forall_mem_cons]
            exact ⟨⟨hname.1, hname.2, hlength⟩, hpass⟩

namespace RequestCall

variable {cap : RequestCapacity} {call : RequestCall} {bytes : Bytes}

/-- What a successful `build` has checked. -/
structure Built (cap : RequestCapacity) (call : RequestCall) : Prop where
  token : isToken call.token = true
  path : isVisibleText call.path = true
  authority : isVisibleText call.authority = true
  passes : ∀ field ∈ call.headers, Passes call.body field
  body : call.body.length ≤ cap.capacity

/-- The request line, without its end. -/
def requestLine (call : RequestCall) : Bytes :=
  call.token ++ space :: (call.path ++ space :: versionText .http11)

theorem addedTexts (call : RequestCall) :
    (call.hostTexts ++ call.lengthTexts ++ call.connectionTexts).flatten =
      call.added.flatMap fun field => fieldText field ++ crlf := by
  have hhost : octets "Host: " = octets "Host" ++ [colon, space] := by decide
  have hlength : octets "Content-Length: " = octets "Content-Length" ++ [colon, space] := by decide
  have hkeep : octets "Connection: keep-alive\r\n" =
      octets "Connection" ++ [colon, space] ++ octets "keep-alive" ++ crlf := by decide
  have hclose : octets "Connection: close\r\n" =
      octets "Connection" ++ [colon, space] ++ octets "close" ++ crlf := by decide
  rw [added, hostTexts, lengthTexts, connectionTexts, List.flatten_append, List.flatten_append,
    List.flatMap_append, List.flatMap_append]
  congr 1
  · congr 1
    · split
      · rfl
      · simp only [hhost, fieldText, List.flatten_cons, List.flatten_nil, List.flatMap_cons,
          List.flatMap_nil, List.append_nil, List.append_assoc]
    · split
      · simp only [hlength, fieldText, List.flatten_cons, List.flatten_nil, List.flatMap_cons,
          List.flatMap_nil, List.append_nil, List.append_assoc]
      · rfl
  · split
    · rfl
    · split
      · simp only [hkeep, fieldText, List.flatten_cons, List.flatten_nil, List.flatMap_cons,
          List.flatMap_nil, List.append_nil]
      · simp only [hclose, fieldText, List.flatten_cons, List.flatten_nil, List.flatMap_cons,
          List.flatMap_nil, List.append_nil]

/-- The bytes of a request, whatever the arguments: the request line, the fields in order, a
blank line and the body. -/
theorem build_ok (h : call.build cap = (.ok, bytes)) : Built cap call ∧
    bytes = call.requestLine ++ crlf ++
      (call.headers ++ call.added).flatMap (fun field => fieldText field ++ crlf) ++ crlf ++ call.body := by
  rw [build] at h
  split at h
  · cases h
  next htexts =>
    simp only [Bool.or_eq_true, Bool.not_eq_true', not_or, Bool.not_eq_false] at htexts
    split at h
    · cases h
    next first hfirst =>
      obtain ⟨hline, hroom⟩ := appendAll_true hfirst (Nat.zero_le _)
      split at h
      next second hsecond =>
        obtain ⟨hfields, hroom', hpass⟩ := appendFields_ok hsecond hroom
        split at h
        · cases h
        next third hthird =>
          obtain ⟨hrest, hfits⟩ := appendAll_true hthird hroom'
          have hbytes : third = bytes := (Prod.mk.inj h).2
          rw [hbytes] at hrest hfits
          have hversion : octets " HTTP/1.1\r\n" = space :: (versionText .http11 ++ crlf) := by decide
          have hlayout : bytes = call.requestLine ++ crlf ++ (call.headers ++ call.added).flatMap
              (fun field => fieldText field ++ crlf) ++ crlf ++ call.body := by
            rw [hrest, hfields, hline, List.flatten_append, addedTexts, List.flatMap_append, hversion,
              requestLine]
            simp only [List.flatten_cons, List.flatten_nil, List.append_assoc, List.append_nil,
              List.nil_append, List.cons_append]
          refine ⟨⟨htexts.1.1, htexts.1.2, htexts.2, hpass, ?_⟩, hlayout⟩
          rw [hlayout, List.length_append] at hfits
          omega
      next failure hfailure =>
        exact (hfailure bytes h).elim

end RequestCall

end Castle.Http.Http1

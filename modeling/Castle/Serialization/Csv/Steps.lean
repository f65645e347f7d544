import Castle.Serialization.Csv.Parser

/-!
# The rounds of the parser

What a round does with a character depends on how far a row is read.
-/

namespace Castle.Serialization.Csv.Parser

variable {cap : Capacity} {options : Options}

/-- A property of documents that every change of the parser keeps. -/
structure Kept (cap : Capacity) (I : Document → Prop) : Prop where
  addRow : ∀ {d d' : Document} {row : ℕ}, I d → d.addRow cap = .ok (row, d') → I d'
  append : ∀ {d d' : Document} {row : ℕ} {value : Bytes}, I d → d.append cap row value = .ok d' → I d'
  appendCharacter : ∀ {d d' : Document} {row column : ℕ} {c : UInt8}, I d →
    d.appendCharacter cap row column c = .ok d' → I d'

namespace Kept

variable {I : Document → Prop} {p p' : Parser} {current : UInt8} {rest rest' : Bytes}

theorem store {change : Except Status Document} (hchange : ∀ d, change = .ok d → I d)
    (h : p.store change = .ok p') : I p'.output := by
  cases change with
  | error status => cases h
  | ok d =>
    cases h
    exact hchange d rfl

theorem ensureField (hI : Kept cap I) (hp : I p.output)
    (h : p.ensureField cap = .ok p') : I p'.output := by
  rw [Parser.ensureField] at h
  split at h
  · cases h
    exact hp
  · exact store (fun d hd => hI.append hp hd) h

theorem beginNextField (hI : Kept cap I) (hp : I p.output) (h : p.beginNextField cap = .ok p') :
    I p'.output := store (fun _ hd => hI.append hp hd) h

theorem appendChar (hI : Kept cap I) {c : UInt8} (hp : I p.output) (h : p.appendChar cap c = .ok p') :
    I p'.output := by
  refine store (fun d hd => ?_) h
  split_ifs at hd
  exact hI.appendCharacter hp hd

theorem inRow (hI : Kept cap I) (hp : I p.output) (h : p.inRow cap = .ok p') : I p'.output := by
  rw [Parser.inRow] at h
  split at h
  · rw [ensureRow] at h
    split at h
    next hadd =>
      cases h
      exact hI.addRow hp hadd
    · cases h
  · cases h
    exact hp

theorem stepLineEnd (hp : I p.output) (h : p.stepLineEnd options current rest = .ok (p', rest')) :
    I p'.output ∧ rest'.length ≤ rest.length := by
  obtain ⟨p₁, hfinish, h⟩ := bind_eq_ok.mp h
  have hsame : p₁.output = p.output := by
    rw [finishRecord] at hfinish
    split_ifs at hfinish
    all_goals
      cases hfinish
      rfl
  have hp₁ : I p₁.output := hsame ▸ hp
  split at h
  · cases h
    exact ⟨hp₁, by rw [List.length_tail]; omega⟩
  · cases h
    exact ⟨hp₁, le_rfl⟩

theorem stepInQuotes (hI : Kept cap I) (hp : I p.output)
    (h : p.stepInQuotes cap current rest = .ok (p', rest')) : I p'.output ∧
      rest'.length ≤ rest.length := by
  have htail : rest.tail.length ≤ rest.length := by
    rw [List.length_tail]
    omega
  rw [Parser.stepInQuotes] at h
  split at h
  · split at h
    · obtain ⟨p₁, hchar, h⟩ := bind_eq_ok.mp h
      have hp₁ : I p₁.output := hI.appendChar hp hchar
      cases h
      exact ⟨hp₁, htail⟩
    · cases h
      exact ⟨hp, le_rfl⟩
  · obtain ⟨p₁, hchar, h⟩ := bind_eq_ok.mp h
    have hp₁ : I p₁.output := hI.appendChar hp hchar
    split at h
    · split at h
      · obtain ⟨p₂, hfeed, h⟩ := bind_eq_ok.mp h
        have hp₂ : I p₂.output := hI.appendChar hp₁ hfeed
        cases h
        exact ⟨hp₂, htail⟩
      · cases h
        exact ⟨hp₁, le_rfl⟩
    · cases h
      exact ⟨hp₁, le_rfl⟩

theorem stepQuoteClosed (hI : Kept cap I) (hp : I p.output)
    (h : p.stepQuoteClosed cap options current rest = .ok (p', rest')) :
    I p'.output ∧ rest'.length ≤ rest.length := by
  rw [Parser.stepQuoteClosed] at h
  split at h
  · obtain ⟨p₁, hnext, h⟩ := bind_eq_ok.mp h
    have hp₁ : I p₁.output := hI.beginNextField hp hnext
    cases h
    exact ⟨hp₁, le_rfl⟩
  · split at h
    · exact stepLineEnd hp h
    · cases h

theorem stepPlain (hI : Kept cap I) (hp : I p.output)
    (h : p.stepPlain cap options current rest = .ok (p', rest')) :
    I p'.output ∧ rest'.length ≤ rest.length := by
  rw [Parser.stepPlain] at h
  split at h
  · obtain ⟨p₁, hfield, h⟩ := bind_eq_ok.mp h
    have hp₁ : I p₁.output := hI.ensureField hp hfield
    obtain ⟨p₂, hnext, h⟩ := bind_eq_ok.mp h
    have hp₂ : I p₂.output := @beginNextField _ _ { p₁ with fieldStarted := false } _ hI hp₁ hnext
    cases h
    exact ⟨hp₂, le_rfl⟩
  · split at h
    · obtain ⟨p₁, hfield, h⟩ := bind_eq_ok.mp h
      exact stepLineEnd (hI.ensureField hp hfield) h
    · split at h
      · split at h
        · cases h
        · obtain ⟨p₁, hfield, h⟩ := bind_eq_ok.mp h
          have hp₁ : I p₁.output := hI.ensureField hp hfield
          cases h
          exact ⟨hp₁, le_rfl⟩
      · obtain ⟨p₁, hfield, h⟩ := bind_eq_ok.mp h
        have hp₁ : I p₁.output := hI.ensureField hp hfield
        obtain ⟨p₂, hchar, h⟩ := bind_eq_ok.mp h
        have hp₂ : I p₂.output := @appendChar _ _ { p₁ with fieldStarted :=
          true } _ hI current hp₁ hchar
        cases h
        exact ⟨hp₂, le_rfl⟩

theorem step (hI : Kept cap I) (hp : I p.output)
    (h : p.step cap options current rest = .ok (p', rest')) : I p'.output ∧
      rest'.length ≤ rest.length := by
  obtain ⟨p₁, hrow, h⟩ := bind_eq_ok.mp h
  have hp₁ : I p₁.output := hI.inRow hp hrow
  split at h
  · exact hI.stepInQuotes hp₁ h
  · split at h
    · exact hI.stepQuoteClosed hp₁ h
    · exact hI.stepPlain hp₁ h

end Kept

variable {current : UInt8}

theorem step_rest {p p' : Parser} {rest rest' : Bytes}
    (h : p.step cap options current rest = .ok (p', rest')) : rest'.length ≤ rest.length := by
  have hI : Kept cap fun _ => True :=
    ⟨fun _ _ => True.intro, fun _ _ => True.intro, fun _ _ => True.intro⟩
  exact (hI.step True.intro h).2

theorem loop_fuel {fuel : ℕ} {p : Parser} {text : Bytes} (h : text.length ≤ fuel) :
    p.loop cap options fuel text = p.loop cap options text.length text := by
  induction fuel using Nat.strongRecOn generalizing p text with
  | ind fuel ih =>
    cases text with
    | nil => rw [loop, loop]
    | cons current rest =>
      cases fuel with
      | zero => exact absurd h (Nat.not_succ_le_zero _)
      | succ fuel =>
        rw [List.length_cons] at h ⊢
        rw [loop, loop]
        cases hstep : p.step cap options current rest with
        | error result => rfl
        | ok next =>
          have hrest := step_rest hstep
          show next.1.loop cap options fuel next.2 = next.1.loop cap options rest.length next.2
          rw [ih fuel (by omega) (by omega)]
          by_cases hlt : rest.length < fuel + 1
          · rw [ih rest.length hlt hrest]
          · omega

/-- The loop with a round for each character. -/
def parseFrom (cap : Capacity) (options : Options) (p : Parser) (text : Bytes) : Except Result Parser :=
  p.loop cap options text.length text

theorem parseFrom_cons (p : Parser) (current : UInt8) (rest : Bytes) :
    p.parseFrom cap options (current :: rest) =
      p.step cap options current rest >>= fun next => next.1.parseFrom cap options next.2 := by
  rw [parseFrom, List.length_cons, loop]
  cases hstep : p.step cap options current rest with
  | error result => rfl
  | ok next => exact loop_fuel (step_rest hstep)

/-- Between two rows. -/
def between (position : Position) (done : Document) (expected : ℕ) : Parser :=
  { output := done, position := position, expectedColumns := expected }

/-- Behind some fields of a row. The last of them is the one that is read, and the flags tell how
far it is read. -/
def within (position : Position) (done : Document) (row : List Bytes) (started inQuotes closed : Bool)
    (expected : ℕ) : Parser :=
  { output := done ++ [row]
    position := position
    row := some done.length
    fieldStarted := started
    inQuotes := inQuotes
    quoteClosed := closed
    expectedColumns := expected }

variable {position : Position} {done : Document} {row init : List Bytes} {field : Bytes}
  {started inQuotes closed : Bool} {expected : ℕ}

theorem fields_last (done : Document)
    (row : List Bytes) : Document.fields (done ++ [row]) done.length = row := by
  rw [Document.fields, List.getD_eq_getElem?_getD, List.getElem?_append_right (Nat.le_refl _),
    Nat.sub_self]
  rfl

theorem set_last (done : Document) (row row' : List Bytes) :
    (done ++ [row]).set done.length row' = done ++ [row'] := by
  rw [List.set_append_right _ _ (Nat.le_refl _), Nat.sub_self]
  rfl

theorem getD_last (init : List Bytes)
    (field : Bytes) : (init ++ [field]).getD init.length [] = field := by
  rw [List.getD_eq_getElem?_getD, List.getElem?_append_right (Nat.le_refl _), Nat.sub_self]
  rfl

theorem append_last (hrow : row.length ≠ cap.maxColumns) :
    Document.append cap (done ++ [row]) done.length [] = .ok (done ++ [row ++ [[]]]) := by
  rw [Document.append, Document.columnCount, fields_last, set_last, if_neg (by simp),
    if_neg (by simp [containsNul]),
    if_neg hrow, if_neg (by simp)]

theorem append_full (hrow : row.length = cap.maxColumns) :
    Document.append cap (done ++ [row]) done.length [] = .error .full := by
  rw [Document.append, Document.columnCount, fields_last, if_neg (by simp),
    if_neg (by simp [containsNul]),
    if_pos hrow]

variable {c : UInt8}

theorem appendCharacter_last (hc : c ≠ 0) (hfield : field.length ≠ cap.maxFieldLength) :
    Document.appendCharacter cap (done ++ [init ++ [field]]) done.length init.length c =
      .ok (done ++ [init ++ [field ++ [c]]]) := by
  rw [Document.appendCharacter, Document.columnCount, fields_last, getD_last, set_last,
    if_neg (by simp), if_neg hc,
    if_neg hfield, List.set_append_right _ _ (Nat.le_refl _), Nat.sub_self]
  rfl

theorem appendCharacter_full (hc : c ≠ 0) (hfield : field.length = cap.maxFieldLength) :
    Document.appendCharacter cap (done ++
      [init ++ [field]]) done.length init.length c = .error .full := by
  rw [Document.appendCharacter, Document.columnCount, fields_last, getD_last, if_neg (by simp),
    if_neg hc,
    if_pos hfield]

theorem store_ok (p : Parser) {change : Except Status Document} {output : Document}
    (h : change = .ok output) :
    p.store change = .ok { p with output := output } := by
  rw [h]
  rfl

theorem store_error (p : Parser) {change : Except Status Document} {status : Status}
    (h : change = .error status) : p.store change = .error (p.failCapacity status) := by
  rw [h]
  rfl

theorem columnCount_last (done : Document) (row : List Bytes) :
    Document.columnCount (done ++ [row]) done.length = row.length := by
  rw [Document.columnCount, fields_last]

theorem ensureField_within (hrow : row ≠ []) :
    (within position done row started inQuotes closed expected).ensureField cap =
      .ok (within position done row started inQuotes closed expected) := by
  have hcount : row.length ≠ 0 := fun h => hrow (List.eq_nil_of_length_eq_zero h)
  rw [ensureField, if_pos]
  show (decide (Document.columnCount (done ++ [row]) done.length ≠ 0) || _ || _) = true
  rw [columnCount_last]
  simp [hcount]

theorem ensureField_first : (within position done [] false false false expected).ensureField cap =
    .ok (within position done [[]] false false false expected) := by
  rw [ensureField, if_neg]
  · exact store_ok _ (append_last (Nat.ne_of_lt cap.maxColumns_pos))
  · show ¬(decide (Document.columnCount (done ++ [[]]) done.length ≠ 0) || false || false) = true
    rw [columnCount_last]
    simp

theorem beginNextField_within :
    (within position done row started inQuotes closed expected).beginNextField cap =
      if row.length = cap.maxColumns then
        .error ((within position done row started inQuotes closed expected).failCapacity .full)
      else .ok (within position done (row ++ [[]]) false inQuotes false expected) := by
  split_ifs with hfull
  · exact store_error _ (append_full hfull)
  · exact store_ok _ (append_last hfull)

theorem appendChar_within :
    (within position done (init ++ [field]) started inQuotes closed expected).appendChar cap c =
      if c = 0 then
        .error ((within position done (init ++ [field]) started inQuotes closed expected).failCapacity
          .invalidArgument)
      else if field.length = cap.maxFieldLength then
        .error ((within position done (init ++
          [field]) started inQuotes closed expected).failCapacity .full)
      else .ok (within position done (init ++ [field ++ [c]]) started inQuotes closed expected) := by
  have hcolumns : Document.columnCount (done ++ [init ++ [field]]) done.length = init.length + 1 := by
    rw [columnCount_last, List.length_append]
    rfl
  have hchange : (within position done (init ++
    [field]) started inQuotes closed expected).appendChar cap c =
      (within position done (init ++ [field]) started inQuotes closed expected).store
        (if c = 0 then .error .invalidArgument
          else Document.appendCharacter cap (done ++ [init ++ [field]]) done.length init.length c) := by
    show Parser.store _ (if c = 0 then _ else if Document.columnCount (done ++
      [init ++ [field]]) done.length = 0 then _
      else Document.appendCharacter cap (done ++ [init ++ [field]]) done.length
        (Document.columnCount (done ++ [init ++ [field]]) done.length - 1) c) = _
    rw [hcolumns, if_neg (Nat.succ_ne_zero _), Nat.add_sub_cancel]
  rw [hchange]
  split_ifs with hnul hfull
  · rfl
  · exact store_error _ (appendCharacter_full hnul hfull)
  · exact store_ok _ (appendCharacter_last hnul hfull)

/-- The number of columns that is expected behind a row. -/
def expectedAfter (options : Options) (expected : ℕ) (row : List Bytes) : ℕ :=
  if options.strictColumns && expected = 0 then row.length else expected

/-- The check of the number of columns fails. -/
def columnsDiffer (options : Options) (expected : ℕ) (row : List Bytes) : Bool :=
  options.strictColumns && expected ≠ 0 && row.length ≠ expected

theorem finishRecord_within :
    (within position done row started inQuotes closed expected).finishRecord options =
      if columnsDiffer options expected row then
        .error ((within position done row started inQuotes closed expected).fail .inconsistentColumns)
      else .ok (between position (done ++ [row]) (expectedAfter options expected row)) := by
  have hcolumns : (within position done row started inQuotes closed expected).output.columnCount
      (within position done row started inQuotes closed expected).currentRow = row.length :=
    columnCount_last done row
  simp only [finishRecord, hcolumns, columnsDiffer, expectedAfter]
  by_cases hstrict : options.strictColumns = true
  · by_cases hzero : expected = 0
    · simp [hstrict, hzero, within, between]
    · by_cases hdiffer : row.length = expected
      · simp [hstrict, hzero, hdiffer, within, between]
      · simp [hstrict, hzero, hdiffer, within]
  · simp [hstrict, within, between]

theorem inRow_within : (within position done row started inQuotes closed expected).inRow cap =
    .ok (within position done row started inQuotes closed expected) := by
  rw [inRow, if_neg]
  exact Option.some_ne_none _

theorem step_within (current : UInt8) (rest : Bytes) :
    (within position done row started inQuotes closed expected).step cap options current rest =
      if inQuotes then (within position done row started inQuotes closed expected).stepInQuotes cap current rest
      else if closed then
        (within position done row started inQuotes closed expected).stepQuoteClosed cap options current rest
      else (within position done row started inQuotes closed expected).stepPlain cap options current rest := by
  rw [step, inRow_within]
  rfl

theorem step_between (current : UInt8) (rest : Bytes) :
    (between position done expected).step cap options current rest =
      if done.length = cap.maxRows then .error ((between position done expected).failCapacity .full)
      else (within position done [[]] false false false expected).step cap options current rest := by
  have hrow : (between position done expected).inRow cap =
      if done.length = cap.maxRows then .error ((between position done expected).failCapacity .full)
      else .ok (within position done [] false false false expected) := by
    show ensureRow cap (between position done expected) = _
    split_ifs with hfull
    · rw [ensureRow, show (between position done expected).output.addRow cap = .error .full from if_pos hfull]
    · rw [ensureRow, show (between position done expected).output.addRow cap = .ok (done.length,
        done ++ [[]])
        from if_neg hfull]
      rfl
  rw [step, hrow]
  split_ifs
  · rfl
  · rw [step_within]
    show stepPlain cap options (within position done [] false false false expected) current rest = _
    rw [if_neg Bool.false_ne_true, if_neg Bool.false_ne_true, stepPlain, stepPlain, ensureField_first,
      ensureField_within (List.cons_ne_nil _ _)]
    rfl

theorem step_delimiter (hrow : row ≠ []) (rest : Bytes) :
    (within position done row started false closed expected).step cap options options.delimiter rest =
      if row.length = cap.maxColumns then
        .error ((within position done row started false closed expected).failCapacity .full)
      else .ok ((within position done (row ++ [[]]) false false false expected).consumed, rest) := by
  rw [step_within, if_neg Bool.false_ne_true]
  cases closed with
  | true =>
    rw [if_pos rfl, stepQuoteClosed, if_pos rfl, beginNextField_within]
    split_ifs
    · rfl
    · rfl
  | false =>
    rw [if_neg Bool.false_ne_true, stepPlain, if_pos rfl, ensureField_within hrow]
    show (within position done row false false false expected).beginNextField cap >>= _ = _
    rw [beginNextField_within]
    split_ifs
    · rfl
    · rfl

theorem step_lineEnd (hrow : row ≠ []) (hend : isLineEnd current = true)
    (hdelimiter : current ≠ options.delimiter) (rest : Bytes) :
    (within position done row started false closed expected).step cap options current rest =
      (within position done row started false closed expected).stepLineEnd options current rest := by
  rw [step_within, if_neg Bool.false_ne_true]
  cases closed with
  | true => rw [if_pos rfl, stepQuoteClosed, if_neg hdelimiter, if_pos hend]
  | false =>
    rw [if_neg Bool.false_ne_true, stepPlain, if_neg hdelimiter, if_pos hend, ensureField_within hrow]
    rfl

theorem step_quote (hrow : row ≠ []) (hdelimiter : quote ≠ options.delimiter) (rest : Bytes) :
    (within position done row started false false expected).step cap options quote rest =
      if started then .error ((within position done row started false false expected).fail .invalidQuote)
      else .ok ((within position done row true true false expected).consumed, rest) := by
  rw [step_within, if_neg Bool.false_ne_true, if_neg Bool.false_ne_true, stepPlain, if_neg hdelimiter,
    if_neg (by decide), if_pos rfl, ensureField_within hrow]
  rfl

theorem step_ordinary (hdelimiter : c ≠ options.delimiter) (hend : isLineEnd c = false)
    (hquote : c ≠ quote) (rest : Bytes) :
    (within position done (init ++ [field]) started false false expected).step cap options c rest =
      (within position done (init ++ [field]) true false false expected).appendChar cap c >>=
        fun p => .ok (p.consumed, rest) := by
  rw [step_within, if_neg Bool.false_ne_true, if_neg Bool.false_ne_true, stepPlain, if_neg hdelimiter,
    if_neg (by rw [hend]; exact Bool.false_ne_true), if_neg hquote,
    ensureField_within (List.append_ne_nil_of_right_ne_nil _ (List.cons_ne_nil _ _))]
  rfl

theorem step_closed (hdelimiter : c ≠ options.delimiter) (hend : isLineEnd c = false)
    (rest : Bytes) : (within position done row started false true expected).step cap options c
    rest = .error ((within position done row started false true expected).fail .invalidQuote) := by
  rw [step_within, if_neg Bool.false_ne_true, if_pos rfl, stepQuoteClosed, if_neg hdelimiter,
    if_neg (by rw [hend]; exact Bool.false_ne_true)]

theorem step_inQuotes (current : UInt8) (rest : Bytes) :
    (within position done row true true closed expected).step cap options current rest =
      (within position done row true true closed expected).stepInQuotes cap current rest := by
  rw [step_within, if_pos rfl]

/-- A text is accepted from a state on, with this document. -/
def Gives (cap : Capacity) (options : Options) (p : Parser) (text : Bytes) (out : Document) : Prop :=
  ∃ p', p.parseFrom cap options text = .ok p' ∧ p'.output = out

variable {out : Document} {text rest : Bytes}

theorem gives_next {p p' : Parser} {rest' : Bytes}
    (h : p.step cap options current rest = .ok (p', rest')) :
    p.Gives cap options (current :: rest) out ↔ p'.Gives cap options rest' out := by
  rw [Gives, Gives, parseFrom_cons, h]
  rfl

theorem not_gives {p : Parser} {result : Result}
    (h : p.step cap options current rest = .error result) :
      ¬p.Gives cap options (current :: rest) out := by
  rintro ⟨p', hp, -⟩
  rw [parseFrom_cons, h] at hp
  cases hp

theorem gives_between_nil : (between position done expected).Gives cap options [] out ↔ out = done := by
  constructor
  · rintro ⟨p', ⟨⟩, rfl⟩
    rfl
  · rintro rfl
    exact ⟨_, rfl, rfl⟩

theorem gives_within_nil : (within position done row started false closed expected).Gives
    cap options [] out ↔ out = done ++ [row] := by
  constructor
  · rintro ⟨p', ⟨⟩, rfl⟩
    rfl
  · rintro rfl
    exact ⟨_, rfl, rfl⟩

theorem not_gives_inQuotes :
    ¬(within position done row started true closed expected).Gives cap options [] out := by
  rintro ⟨p', ⟨⟩, -⟩

theorem gives_between : (between position done expected).Gives cap options (current :: rest) out ↔
    done.length ≠ cap.maxRows ∧ (within position done [[]] false false false expected).Gives
    cap options (current :: rest) out := by
  by_cases hfull : done.length = cap.maxRows
  · have hstep := @step_between cap options position done expected current rest
    rw [if_pos hfull] at hstep
    exact iff_of_false (not_gives hstep) fun h => h.1 hfull
  · rw [Gives, Gives, parseFrom_cons, parseFrom_cons, step_between, if_neg hfull]
    exact (and_iff_right hfull).symm

theorem gives_delimiter (hrow : row ≠ []) :
    (within position done row started false closed expected).Gives cap options (options.delimiter :: rest) out ↔
      row.length ≠ cap.maxColumns ∧
        (within position.consumed done (row ++
          [[]]) false false false expected).Gives cap options rest out := by
  have hstep := @step_delimiter cap options position done row started closed expected hrow rest
  by_cases hfull : row.length = cap.maxColumns
  · rw [if_pos hfull] at hstep
    exact iff_of_false (not_gives hstep) fun h => h.1 hfull
  · rw [if_neg hfull] at hstep
    exact (gives_next hstep).trans (and_iff_right hfull).symm

theorem gives_lineEnd (hrow : row ≠ []) (hdelimiter : isLineEnd options.delimiter = false) {eol : Bytes}
    (heol : LineEnd eol text) : ∃ position', 
    (within position done row started false closed expected).Gives cap options (eol ++ text) out ↔
      columnsDiffer options expected row = false ∧
        (between position' (done ++ [row])
          (expectedAfter options expected row)).Gives cap options text out := by
  have hother : ∀ {c}, isLineEnd c = true → c ≠ options.delimiter := by
    rintro c hc rfl
    rw [hc] at hdelimiter
    cases hdelimiter
  have hstep : ∀ {c} tail, isLineEnd c = true →
      (within position done row started false closed expected).step cap options c tail =
        (if columnsDiffer options expected row then
          .error ((within position done row started false closed expected).fail .inconsistentColumns)
        else .ok (between position (done ++ [row]) (expectedAfter options expected row))) >>= fun p =>
          if isCrLf c tail then .ok (p.consumed.advanced, tail.tail) else .ok (p.advanced, tail) := by
    intro c tail hc
    rw [step_lineEnd hrow hc (hother hc), stepLineEnd, finishRecord_within]
  cases hdiffer : columnsDiffer options expected row with
  | true =>
    refine ⟨position, iff_of_false ?_ fun h => Bool.false_ne_true h.1.symm⟩
    rcases heol with rfl | rfl | ⟨rfl, -⟩
    all_goals
      exact not_gives (by rw [hstep _ (by decide), hdiffer]; rfl)
  | false =>
    rcases heol with rfl | rfl | ⟨rfl, hhead⟩
    · refine ⟨position.advanced, (gives_next ?_).trans (and_iff_right rfl).symm⟩
      rw [hstep _ (by decide), hdiffer]
      rfl
    · refine ⟨position.consumed.advanced, (gives_next ?_).trans (and_iff_right rfl).symm⟩
      rw [hstep _ (by decide), hdiffer]
      rfl
    · refine ⟨position.advanced, (gives_next ?_).trans (and_iff_right rfl).symm⟩
      rw [hstep _ (by decide), hdiffer]
      show (if isCrLf carriageReturn text then _ else _) = _
      rw [if_neg]
      · rfl
      · rw [isCrLf, Bool.and_eq_true, decide_eq_true_eq, decide_eq_true_eq]
        exact fun h => hhead h.2

theorem gives_quote (hrow : row ≠ []) (hdelimiter : quote ≠ options.delimiter) :
    (within position done row started false false expected).Gives cap options (quote :: rest) out ↔
      started = false ∧ (within position.consumed done row true true false expected).Gives cap options rest out := by
  have hstep := @step_quote cap options position done row started expected hrow hdelimiter rest
  cases started with
  | true => exact iff_of_false (not_gives hstep) fun h => Bool.false_ne_true h.1.symm
  | false => exact (gives_next hstep).trans (and_iff_right rfl).symm

theorem gives_ordinary
    (hdelimiter : c ≠ options.delimiter) (hend : isLineEnd c = false) (hquote : c ≠ quote) :
    (within position done (init ++ [field]) started false false expected).Gives cap options
    (c :: rest) out ↔ (c ≠ 0 ∧ field.length ≠ cap.maxFieldLength) ∧
    (within position.consumed done (init ++ [field ++ [c]]) true false false expected).Gives
    cap options rest out := by
  have hstep := @step_ordinary cap options position done init field started expected c hdelimiter hend hquote rest
  rw [appendChar_within] at hstep
  split_ifs at hstep with hnul hfull
  · exact iff_of_false (not_gives hstep) fun h => h.1.1 hnul
  · exact iff_of_false (not_gives hstep) fun h => h.1.2 hfull
  · exact (gives_next hstep).trans (and_iff_right ⟨hnul, hfull⟩).symm

theorem not_gives_closed (hdelimiter : c ≠ options.delimiter) (hend : isLineEnd c = false) :
    ¬(within position done row started false true expected).Gives cap options (c :: rest) out :=
  not_gives (step_closed hdelimiter hend rest)

theorem gives_closing (hrest : rest.head? ≠ some quote) :
    (within position done row true true false expected).Gives cap options (quote :: rest) out ↔
      (within position.consumed done row true false true expected).Gives cap options rest out := by
  apply gives_next
  rw [step_inQuotes, stepInQuotes, if_pos rfl, if_neg hrest]
  rfl

theorem gives_doubled :
    (within position done (init ++ [field]) true true false expected).Gives cap options (quote :: quote :: rest) out ↔
      field.length ≠ cap.maxFieldLength ∧
        (within position.consumed.consumed done (init ++
          [field ++ [quote]]) true true false expected).Gives cap
          options rest out := by
  have hstep : (within position done (init ++ [field]) true true false expected).step cap options quote
      (quote :: rest) = (within position done (init ++
        [field]) true true false expected).appendChar cap quote >>=
        fun p => .ok (p.consumed.consumed, rest) := by
    rw [step_inQuotes, stepInQuotes, if_pos rfl, if_pos List.head?_cons]
    rfl
  rw [appendChar_within, if_neg (by decide)] at hstep
  split_ifs at hstep with hfull
  · exact iff_of_false (not_gives hstep) fun h => h.1 hfull
  · exact (gives_next hstep).trans (and_iff_right hfull).symm

/-- A character between quotes. A line feed behind a carriage return is read with it, as it would
be read alone. -/
theorem gives_inQuotes (hquote : c ≠ quote) : ∃ position',
    (within position done (init ++ [field]) true true false expected).Gives cap options (c :: rest) out ↔
      (c ≠ 0 ∧ field.length ≠ cap.maxFieldLength) ∧
        (within position' done (init ++
          [field ++ [c]]) true true false expected).Gives cap options rest out := by
  have hstep : ∀ (position : Position) (field : Bytes) (c : UInt8) (rest : Bytes), c ≠ quote →
      (within position done (init ++ [field]) true true false expected).step cap options c rest =
      (within position done (init ++ [field]) true true false expected).appendChar cap c >>=
      fun p => if isLineEnd c then if isCrLf c rest then p.appendChar cap lineFeed >>= fun p => .ok
      (p.consumed.advanced, rest.tail) else .ok (p.advanced, rest) else .ok (p.consumed, rest) := by
    intro position field c rest hquote
    rw [step_inQuotes, stepInQuotes, if_neg hquote]
  by_cases hnul : c = 0
  · have hfail := hstep position field c rest hquote
    rw [appendChar_within, if_pos hnul] at hfail
    exact ⟨position, iff_of_false (not_gives hfail) fun h => h.1.1 hnul⟩
  by_cases hfull : field.length = cap.maxFieldLength
  · have hfail := hstep position field c rest hquote
    rw [appendChar_within, if_neg hnul, if_pos hfull] at hfail
    exact ⟨position, iff_of_false (not_gives hfail) fun h => h.1.2 hfull⟩
  by_cases hcrlf : isCrLf c rest = true
  · obtain ⟨hcr, hhead⟩ : c = carriageReturn ∧ rest.head? = some lineFeed :=
      by simpa [isCrLf] using hcrlf
    obtain ⟨tail, rfl⟩ : ∃ tail, rest = lineFeed :: tail := List.head?_eq_some_iff.mp hhead
    refine ⟨position.consumed, Iff.trans ?_ (and_iff_right ⟨hnul, hfull⟩).symm⟩
    have hfirst : (within position done (init ++ [field]) true true false expected).step cap options c
        (lineFeed :: tail) = (within position done (init ++
          [field ++ [c]]) true true false expected).appendChar cap
          lineFeed >>= fun p => .ok (p.consumed.advanced, tail) := by
      rw [hstep _ _ _ _ hquote, appendChar_within, if_neg hnul, if_neg hfull]
      show (if isLineEnd c then if isCrLf c _ then _ else _ else _) = _
      rw [if_pos (by rw [hcr]; decide), if_pos hcrlf]
      rfl
    have hsecond := hstep position.consumed (field ++ [c]) lineFeed tail (by decide)
    rw [appendChar_within, if_neg (by decide)] at hfirst hsecond
    by_cases hfull' : (field ++ [c]).length = cap.maxFieldLength
    · rw [if_pos hfull'] at hfirst hsecond
      exact iff_of_false (not_gives hfirst) (not_gives hsecond)
    · rw [if_neg hfull'] at hfirst hsecond
      exact (gives_next hfirst).trans (gives_next hsecond).symm
  · by_cases hend : isLineEnd c = true
    · refine ⟨position.advanced, (gives_next ?_).trans (and_iff_right ⟨hnul, hfull⟩).symm⟩
      rw [hstep _ _ _ _ hquote, appendChar_within, if_neg hnul, if_neg hfull]
      show (if isLineEnd c then if isCrLf c rest then _ else _ else _) = _
      rw [if_pos hend, if_neg hcrlf]
      rfl
    · refine ⟨position.consumed, (gives_next ?_).trans (and_iff_right ⟨hnul, hfull⟩).symm⟩
      rw [hstep _ _ _ _ hquote, appendChar_within, if_neg hnul, if_neg hfull]
      show (if isLineEnd c then if isCrLf c rest then _ else _ else _) = _
      rw [if_neg hend]
      rfl

end Castle.Serialization.Csv.Parser

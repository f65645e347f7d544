import Castle.Serialization.Csv.Steps

/-!
# What the parser reads

A text that is accepted can be read as the rows of the document, and a text that can be read as
rows is accepted where the document has room for them.
-/

namespace Castle.Serialization.Csv

/-- All rows have the same number of columns. -/
def ColumnsAgree (rows : Document) : Prop := ∀ r₁ ∈ rows, ∀ r₂ ∈ rows, r₁.length = r₂.length

namespace Parser

variable {cap : Capacity} {options : Options} {position : Position} {done out rows : Document}
  {row init : List Bytes} {field text tail : Bytes} {started closed : Bool} {expected : ℕ}

variable {delimiter : UInt8}

theorem valid_delimiter (h : isValidDelimiter delimiter = true) :
    delimiter ≠ 0 ∧ quote ≠ delimiter ∧ isLineEnd delimiter = false := by
  simp only [isValidDelimiter, Bool.and_eq_true, decide_eq_true_eq, Bool.not_eq_true'] at h
  exact ⟨h.1.1, h.1.2.symm, h.2⟩

theorem of_ordinary {c : UInt8} (h : ordinary delimiter c = true) :
    c ≠ 0 ∧ c ≠ delimiter ∧ c ≠ quote ∧ isLineEnd c = false := by
  simp only [ordinary, Bool.and_eq_true, decide_eq_true_eq, Bool.not_eq_true'] at h
  exact ⟨h.1.1.1, h.1.1.2, h.1.2, h.2⟩

theorem gives_plain (position : Position) (field : Bytes) (started : Bool) {g : Bytes}
    (hg : ∀ c ∈ g, ordinary options.delimiter c = true)
    (hfits : (field ++ g).length ≤ cap.maxFieldLength) : ∃ position' started',
    (within position done (init ++ [field]) started false false expected).Gives cap options (g ++
      tail) out ↔
      (within position' done (init ++
        [field ++ g]) started' false false expected).Gives cap options tail out := by
  induction g generalizing position field started with
  | nil =>
    rw [List.append_nil]
    exact ⟨position, started, Iff.rfl⟩
  | cons c g ih =>
    obtain ⟨hnul, hdelimiter, hquote, hend⟩ := of_ordinary (hg c List.mem_cons_self)
    have hroom : field.length ≠ cap.maxFieldLength := by
      rw [List.length_append, List.length_cons] at hfits
      omega
    obtain ⟨position', started', hrest⟩ :=
      ih position.consumed (field ++ [c]) true (fun b hb => hg b (List.mem_cons_of_mem _ hb))
        (by rw [List.append_assoc]; exact hfits)
    rw [List.append_assoc] at hrest
    exact ⟨position', started', ((gives_ordinary hdelimiter hend hquote).trans (and_iff_right ⟨hnul,
      hroom⟩)).trans hrest⟩

theorem escaped_cons (c : UInt8) (g : Bytes) :
    escaped (c :: g) = (if c = quote then [quote, quote] else [c]) ++ escaped g := rfl

theorem gives_quoted (position : Position) (field : Bytes) {g : Bytes} (hg : ∀ c ∈ g, c ≠ 0)
    (hfits : (field ++ g).length ≤ cap.maxFieldLength) (htail : tail.head? ≠ some quote) :
    ∃ position', (within position done (init ++ [field]) true true false expected).Gives cap options
    (escaped g ++ quote :: tail) out ↔
    (within position' done (init ++ [field ++ g]) true false true expected).Gives
    cap options tail out := by
  induction g generalizing position field with
  | nil =>
    rw [List.append_nil]
    exact ⟨position.consumed, gives_closing htail⟩
  | cons c g ih =>
    have hnul := hg c List.mem_cons_self
    have hroom : field.length ≠ cap.maxFieldLength := by
      rw [List.length_append, List.length_cons] at hfits
      omega
    have hnext := fun position => ih position (field ++ [c])
      (fun b hb => hg b (List.mem_cons_of_mem _ hb)) (by rw [List.append_assoc]; exact hfits)
    rw [List.append_assoc] at hnext
    by_cases hquote : c = quote
    · obtain ⟨position', hrest⟩ := hnext position.consumed.consumed
      rw [escaped_cons, if_pos hquote]
      rw [hquote] at hrest ⊢
      exact ⟨position', (gives_doubled.trans (and_iff_right hroom)).trans hrest⟩
    · obtain ⟨middle, hfirst⟩ := @gives_inQuotes cap options position done init field expected c
        out (escaped g ++ quote :: tail) hquote
      obtain ⟨position', hrest⟩ := hnext middle
      rw [escaped_cons, if_neg hquote]
      exact ⟨position', (hfirst.trans (and_iff_right ⟨hnul, hroom⟩)).trans hrest⟩

theorem gives_field (hvalid : isValidDelimiter options.delimiter = true) {t : Bytes}
    (hfield : FieldText options.delimiter t field) (hfits : field.length ≤ cap.maxFieldLength)
    (htail : tail.head? ≠ some quote) : ∃ position' started' closed',
    (within position done (init ++ [[]]) false false false expected).Gives cap options (t ++ tail) out ↔
      (within position' done (init ++
        [field]) started' false closed' expected).Gives cap options tail out := by
  cases hfield with
  | plain _ h =>
    obtain ⟨position', started', hread⟩ :=
      @gives_plain cap options done out init tail expected position [] false field h hfits
    exact ⟨position', started', false, hread⟩
  | quoted _ h =>
    obtain ⟨position', hread⟩ :=
      @gives_quoted cap options done out init tail expected position.consumed [] field h hfits htail
    refine ⟨position', true, true, Iff.trans ?_ hread⟩
    rw [quotedText, List.cons_append, List.append_assoc]
    exact (gives_quote (List.append_ne_nil_of_right_ne_nil _ (List.cons_ne_nil _ _))
      (valid_delimiter hvalid).2.1).trans
      (and_iff_right rfl)

/-- The rows that a text is read as, and those of them that a line end stands behind. -/
inductive ReadsEnded (delimiter : UInt8) : Option (List Bytes) → Bytes → Document → Document → Prop
  | nil : ReadsEnded delimiter none [] [] []
  | first {t field text : Bytes} {rows ended : Document} (hfield : FieldText delimiter t field)
    (hne : t ++ text ≠ []) (hrest : ReadsEnded delimiter (some [field]) text rows ended) :
    ReadsEnded delimiter none (t ++ text) rows ended
  | next {row : List Bytes} {t field text : Bytes} {rows ended : Document}
    (hfield : FieldText delimiter t field)
    (hrest : ReadsEnded delimiter (some (row ++ [field])) text rows ended) :
    ReadsEnded delimiter (some row) (delimiter :: (t ++ text)) rows ended
  | line {row : List Bytes} {eol text : Bytes} {rows ended : Document} (heol : LineEnd eol text)
    (hrest : ReadsEnded delimiter none text rows ended) :
    ReadsEnded delimiter (some row) (eol ++ text) (row :: rows) (row :: ended)
  | last {row : List Bytes} : ReadsEnded delimiter (some row) [] [row] []

variable {ended : Document}

theorem ReadsEnded.reads {start : Option (List Bytes)}
    (h : ReadsEnded delimiter start text rows ended) : Reads delimiter start text rows := by
  induction h with
  | nil => exact .nil
  | first hfield hne _ ih => exact .first hfield hne ih
  | next hfield _ ih => exact .next hfield ih
  | line heol _ ih => exact .line heol ih
  | last => exact .last

theorem ReadsEnded.rows_prefix {start : Option (List Bytes)}
    (h : ReadsEnded delimiter start text rows ended) : ended <+: rows := by
  induction h with
  | nil => exact List.prefix_refl _
  | first _ _ _ ih => exact ih
  | next _ _ ih => exact ih
  | line _ _ ih => exact List.cons_prefix_cons.mpr ⟨rfl, ih⟩
  | last => exact List.nil_prefix

theorem readsEnded_of_reads {start : Option (List Bytes)} (h : Reads delimiter start text rows) :
    ∃ ended, ReadsEnded delimiter start text rows ended := by
  induction h with
  | nil => exact ⟨[], .nil⟩
  | first hfield hne _ ih => exact ih.imp fun _ h => .first hfield hne h
  | next hfield _ ih => exact ih.imp fun _ h => .next hfield h
  | @line row _ _ _ heol _ ih =>
    obtain ⟨ended, h⟩ := ih
    exact ⟨row :: ended, .line heol h⟩
  | last => exact ⟨[], .last⟩

theorem reads_extends (h : Reads delimiter (some row) text rows) :
    ∃ more rest, rows = (row ++ more) :: rest := by
  generalize hstart : some row = start at h
  induction h generalizing row with
  | nil => cases hstart
  | first => cases hstart
  | next hfield hrest ih =>
    cases hstart
    obtain ⟨more, rest, rfl⟩ := ih rfl
    exact ⟨_ :: more, rest, by rw [List.append_assoc]; rfl⟩
  | line heol hrest ih =>
    cases hstart
    exact ⟨[], _, by rw [List.append_nil]⟩
  | last =>
    cases hstart
    exact ⟨[], [], by rw [List.append_nil]⟩

theorem head_of_reads (hvalid : isValidDelimiter options.delimiter = true)
    (h : Reads options.delimiter (some row) text rows) : text.head? ≠ some quote := by
  cases h with
  | next hfield hrest => exact fun hhead => (valid_delimiter hvalid).2.1 (Option.some.inj hhead).symm
  | line heol hrest =>
    rcases heol with rfl | rfl | ⟨rfl, -⟩
    all_goals
      rw [List.cons_append, List.head?_cons]
      decide
  | last => exact fun hhead => Option.some_ne_none _ hhead.symm

theorem fits_of_append (h : Fits cap (done ++ row :: rows)) : RowFits cap row ∧
    done.length ≠ cap.maxRows := by
  refine ⟨h.row row (List.mem_append_right _ List.mem_cons_self), fun hfull => ?_⟩
  have hcount := h.count
  rw [List.length_append, List.length_cons] at hcount
  omega

/-- Every row passes the check of its columns. -/
def Agrees (options : Options) : ℕ → Document → Prop
  | _, [] => True
  | expected, row :: rows =>
    columnsDiffer options expected row = false ∧ Agrees options (expectedAfter options expected row) rows

theorem agrees_lenient (expected : ℕ) (rows : Document) :
    Agrees ⟨delimiter, false⟩ expected rows := by
  induction rows generalizing expected with
  | nil => trivial
  | cons row rows ih => exact ⟨rfl, ih _⟩

theorem agrees_strict {expected : ℕ} (hexpected : expected ≠ 0) (rows : Document) :
    Agrees ⟨delimiter, true⟩ expected rows ↔ ∀ row ∈ rows, row.length = expected := by
  induction rows with
  | nil => exact iff_of_true trivial fun row hrow => nomatch hrow
  | cons row rows ih =>
    have hdiffer : columnsDiffer ⟨delimiter, true⟩ expected row = false ↔ row.length = expected := by
      simp [columnsDiffer, hexpected]
    have hafter : expectedAfter ⟨delimiter, true⟩ expected row = expected := by
      simp [expectedAfter, hexpected]
    rw [Agrees, hdiffer, hafter, ih, List.forall_mem_cons]

theorem agrees_iff (strict : Bool) {rows : Document} (hrows : ∀ row ∈ rows, WellFormedRow row) :
    Agrees ⟨delimiter, strict⟩ 0 rows ↔ (strict = true → ColumnsAgree rows) := by
  cases strict with
  | false => exact iff_of_true (agrees_lenient 0 rows) fun h => nomatch h
  | true =>
    cases rows with
    | nil => exact iff_of_true trivial fun _ r₁ h₁ => nomatch h₁
    | cons row rows =>
      have hpos : row.length ≠ 0 := fun hzero =>
        (hrows row List.mem_cons_self).nonempty (List.eq_nil_of_length_eq_zero hzero)
      show _ ∧ Agrees ⟨delimiter, true⟩ row.length rows ↔ _
      rw [agrees_strict hpos]
      constructor
      · rintro ⟨-, hsame⟩ -
        have hall : ∀ r ∈ row :: rows, r.length = row.length := List.forall_mem_cons.mpr ⟨rfl, hsame⟩
        exact fun r₁ h₁ r₂ h₂ => (hall r₁ h₁).trans (hall r₂ h₂).symm
      · intro h
        exact ⟨rfl, fun r hr => h rfl r (List.mem_cons_of_mem _ hr) row List.mem_cons_self⟩

/-- What a state reads behind `done`: these rows, when those that end pass the check. -/
def Starts (cap : Capacity) (options : Options) (done : Document) (text : Bytes) (rows ended : Document) :
    Option (List Bytes) → Prop
  | none => ∀ position expected out, (between position done expected).Gives cap options text out ↔
    Agrees options expected ended ∧ out = done ++ rows
  | some row => row ≠ [] → ∀ position started closed expected out,
    (within position done row started false closed expected).Gives cap options text out ↔
      Agrees options expected ended ∧ out = done ++ rows

theorem gives_ended (hvalid : isValidDelimiter options.delimiter = true)
    {start : Option (List Bytes)} (h : ReadsEnded options.delimiter start text rows ended)
    (hfits : Fits cap (done ++ rows)) : Starts cap options done text rows ended start := by
  induction h generalizing done with
  | nil =>
    intro position expected out
    rw [List.append_nil]
    exact gives_between_nil.trans (and_iff_right trivial).symm
  | @first t field text rows ended hfield hne hrest ih =>
    intro position expected out
    obtain ⟨more, rest, rfl⟩ := reads_extends hrest.reads
    obtain ⟨hrow, hroom⟩ := fits_of_append hfits
    obtain ⟨current, tail, htext⟩ : ∃ current tail, t ++ text = current :: tail :=
      List.exists_cons_of_ne_nil hne
    rw [htext]
    refine (gives_between.trans (and_iff_right hroom)).trans ?_
    rw [← htext]
    obtain ⟨position', started', closed', hread⟩ := @gives_field cap options position done
      out [] field text expected hvalid t hfield
      (hrow.fields field List.mem_cons_self) (head_of_reads hvalid hrest.reads)
    exact hread.trans (ih hfits (List.cons_ne_nil _ _) _ _ _ _ _)
  | @next row t field text rows ended hfield hrest ih =>
    intro hrow position started closed expected out
    obtain ⟨more, rest, rfl⟩ := reads_extends hrest.reads
    have hrowFits := (fits_of_append hfits).1
    have hcolumns := hrowFits.columns
    rw [List.length_append, List.length_append, List.length_singleton] at hcolumns
    refine ((gives_delimiter hrow).trans (and_iff_right (by omega))).trans ?_
    obtain ⟨position', started', closed', hread⟩ := @gives_field cap options position.consumed done
      out row field text expected hvalid t hfield
      (hrowFits.fields field (List.mem_append_left _ (List.mem_append_right _ (List.mem_singleton_self _))))
      (head_of_reads hvalid hrest.reads)
    exact hread.trans (ih hfits (List.append_ne_nil_of_right_ne_nil _ (List.cons_ne_nil _ _)) _ _ _ _ _)
  | @line row eol text rows ended heol hrest ih =>
    intro hrow position started closed expected out
    obtain ⟨position', hread⟩ := @gives_lineEnd cap options position done row started closed
      expected out text hrow (valid_delimiter hvalid).2.2 eol heol
    rw [List.append_cons] at hfits
    rw [List.append_cons done row rows, Agrees, and_assoc]
    exact hread.trans (and_congr_right fun _ => ih hfits _ _ _)
  | last =>
    intro hrow position started closed expected out
    exact gives_within_nil.trans (and_iff_right trivial).symm

theorem gives_of_reads (hvalid : isValidDelimiter delimiter = true)
    (h : Reads delimiter none text rows) (hfits : Fits cap (done ++ rows)) :
    (between position done expected).Gives cap ⟨delimiter, false⟩ text (done ++ rows) := by
  obtain ⟨ended, hended⟩ := readsEnded_of_reads h
  exact (@gives_ended cap ⟨delimiter, false⟩ done rows text ended hvalid none hended hfits _ _ _).mpr
    ⟨agrees_lenient _ _, rfl⟩

/-- What is left of a text that is accepted, in each state of the parser. -/
structure Sound (cap : Capacity) (options : Options) (text : Bytes) : Prop where
  between : ∀ {position done expected out},
    (between position done expected).Gives cap options text out →
    ∃ rows, out = done ++ rows ∧ Reads options.delimiter none text rows
  fresh : ∀ {position done init expected out},
    (within position done (init ++ [[]]) false false false expected).Gives cap options text out →
    ∃ t field tail rows, text = t ++ tail ∧ FieldText options.delimiter t field ∧ out = done ++ rows ∧
      Reads options.delimiter (some (init ++ [field])) tail rows
  plain : ∀ {position done init field expected out},
    (within position done (init ++ [field]) true false false expected).Gives cap options text out →
    ∃ g tail rows, text = g ++ tail ∧ (∀ c ∈ g, ordinary options.delimiter c = true) ∧
      out = done ++ rows ∧
      Reads options.delimiter (some (init ++ [field ++ g])) tail rows
  quoted : ∀ {position done init field expected out},
    (within position done (init ++ [field]) true true false expected).Gives cap options text out →
    ∃ g tail rows, text = escaped g ++ quote :: tail ∧ (∀ c ∈ g, c ≠ 0) ∧ out = done ++ rows ∧
      Reads options.delimiter (some (init ++ [field ++ g])) tail rows
  closed : ∀ {position done row expected out}, row ≠ [] →
    (within position done row true false true expected).Gives cap options text out →
    ∃ rows, out = done ++ rows ∧ Reads options.delimiter (some row) text rows

theorem sound_nil : Sound cap options [] where
  between h := ⟨[], by rw [gives_between_nil.mp h, List.append_nil], .nil⟩
  fresh h := ⟨[], [], [], _, rfl, .plain [] (fun c hc => nomatch hc), gives_within_nil.mp h, .last⟩
  plain h := ⟨[], [], _, rfl, fun c hc => (nomatch hc), gives_within_nil.mp h,
    by rw [List.append_nil]; exact .last⟩
  quoted h := absurd h not_gives_inQuotes
  closed _ h := ⟨_, gives_within_nil.mp h, .last⟩

theorem lineEnd_cut {current : UInt8} (h : isLineEnd current = true) (rest : Bytes) :
    ∃ eol text, current :: rest = eol ++ text ∧ LineEnd eol text ∧ text.length ≤ rest.length := by
  rw [isLineEnd, Bool.or_eq_true, decide_eq_true_eq, decide_eq_true_eq] at h
  rcases h with rfl | rfl
  · by_cases hhead : rest.head? = some lineFeed
    · obtain ⟨tail, rfl⟩ := List.head?_eq_some_iff.mp hhead
      exact ⟨[carriageReturn, lineFeed], tail, rfl, .inr (.inl rfl), Nat.le_succ _⟩
    · exact ⟨[carriageReturn], rest, rfl, .inr (.inr ⟨rfl, hhead⟩), Nat.le_refl _⟩
  · exact ⟨[lineFeed], rest, rfl, .inl rfl, Nat.le_refl _⟩

theorem sound_after (hvalid : isValidDelimiter options.delimiter = true) {current : UInt8}
    {rest : Bytes}
    (ih : ∀ text : Bytes, text.length ≤ rest.length → Sound cap options text) (hrow : row ≠ [])
    (hend : current = options.delimiter ∨ isLineEnd current = true)
    (h : (within position done row started false closed expected).Gives cap options (current :: rest) out) :
    ∃ rows, out = done ++ rows ∧ Reads options.delimiter (some row) (current :: rest) rows := by
  rcases hend with rfl | hend
  · obtain ⟨t, field, tail, rows, rfl, hfield, hout, hreads⟩ :=
      (ih rest (Nat.le_refl _)).fresh ((gives_delimiter hrow).mp h).2
    exact ⟨rows, hout, .next hfield hreads⟩
  · obtain ⟨eol, text, hcut, heol, hlen⟩ := lineEnd_cut hend rest
    rw [hcut] at h ⊢
    obtain ⟨position', hread⟩ := @gives_lineEnd cap options position done row started closed
      expected out text hrow (valid_delimiter hvalid).2.2 eol heol
    obtain ⟨rows, hout, hreads⟩ := (ih text hlen).between (hread.mp h).2
    exact ⟨row :: rows, by rw [hout, ← List.append_cons], .line heol hreads⟩

theorem ordinary_of {c : UInt8} (hnul : c ≠ 0) (hdelimiter : c ≠ delimiter) (hquote : c ≠ quote)
    (hend : isLineEnd c = false) : ordinary delimiter c = true := by
  simp [ordinary, hnul, hdelimiter, hquote, hend]

theorem sound (hvalid : isValidDelimiter options.delimiter = true)
    (text : Bytes) : Sound cap options text := by
  induction hn : text.length using Nat.strongRecOn generalizing text with
  | ind n ih =>
    cases text with
    | nil => exact sound_nil
    | cons current rest =>
      rw [List.length_cons] at hn
      have hshort : ∀ text : Bytes, text.length ≤ rest.length → Sound cap options text :=
        fun text hle => ih text.length (by omega) text rfl
      have hne : ∀ (init : List Bytes) (field : Bytes), init ++ [field] ≠ [] :=
        fun init field => List.append_ne_nil_of_right_ne_nil _ (List.cons_ne_nil _ _)
      have hplain : ∀ {position done init field started expected out}, current ≠ quote →
          (within position done (init ++ [field]) started false false expected).Gives cap options
            (current :: rest) out →
          ∃ g tail rows, current :: rest = g ++ tail ∧ (∀ c ∈ g, ordinary options.delimiter c = true) ∧
            out = done ++ rows ∧ Reads options.delimiter (some (init ++ [field ++ g])) tail rows := by
        intro position done init field started expected out hquote h
        by_cases hend : current = options.delimiter ∨ isLineEnd current = true
        · obtain ⟨rows, hout, hreads⟩ := sound_after hvalid hshort (hne _ _) hend h
          exact ⟨[], current :: rest, rows, rfl, fun c hc => (nomatch hc), hout,
            by rw [List.append_nil]; exact hreads⟩
        · rw [not_or, Bool.not_eq_true] at hend
          obtain ⟨⟨hnul, -⟩, h⟩ := (gives_ordinary hend.1 hend.2 hquote).mp h
          obtain ⟨g, tail, rows, rfl, hg, hout, hreads⟩ := (hshort rest (Nat.le_refl _)).plain h
          refine ⟨current :: g, tail, rows, rfl, ?_, hout, ?_⟩
          · rintro c (_ | ⟨_, hc⟩)
            · exact ordinary_of hnul hend.1 hquote hend.2
            · exact hg c hc
          · rw [List.append_assoc] at hreads
            exact hreads
      have hfresh : ∀ {position done init expected out},
          (within position done (init ++ [[]]) false false false expected).Gives cap options (current :: rest) out →
          ∃ t field tail rows, current :: rest = t ++ tail ∧ FieldText options.delimiter t field ∧
            out = done ++ rows ∧ Reads options.delimiter (some (init ++ [field])) tail rows := by
        intro position done init expected out h
        by_cases hquote : current = quote
        · rw [hquote] at h ⊢
          obtain ⟨-, h⟩ := (gives_quote (hne _ _) (valid_delimiter hvalid).2.1).mp h
          obtain ⟨g, tail, rows, rfl, hg, hout, hreads⟩ := (hshort rest (Nat.le_refl _)).quoted h
          refine ⟨quotedText g, g, tail, rows, ?_, .quoted g hg, hout, hreads⟩
          rw [quotedText, List.cons_append, List.append_assoc]
          rfl
        · obtain ⟨g, tail, rows, htext, hg, hout, hreads⟩ := hplain hquote h
          exact ⟨g, g, tail, rows, htext, .plain g hg, hout, hreads⟩
      exact {
        between := by
          intro position done expected out h
          obtain ⟨t, field, tail, rows, htext, hfield, hout, hreads⟩ :=
            @hfresh _ _ [] _ _ (gives_between.mp h).2
          refine ⟨rows, hout, ?_⟩
          rw [htext]
          exact .first hfield (by rw [← htext]; exact List.cons_ne_nil _ _) hreads
        fresh := hfresh
        plain := by
          intro position done init field expected out h
          refine hplain (fun hquote => ?_) h
          rw [hquote] at h
          exact Bool.false_ne_true ((gives_quote (hne _ _) (valid_delimiter hvalid).2.1).mp h).1.symm
        quoted := by
          intro position done init field expected out h
          by_cases hquote : current = quote
          · rw [hquote] at h ⊢
            by_cases hdouble : rest.head? = some quote
            · obtain ⟨tail', rfl⟩ := List.head?_eq_some_iff.mp hdouble
              obtain ⟨-, h⟩ := gives_doubled.mp h
              obtain ⟨g, tail, rows, rfl, hg, hout, hreads⟩ := (hshort tail' (Nat.le_succ _)).quoted h
              refine ⟨quote :: g, tail, rows, rfl, ?_, hout, ?_⟩
              · rintro c (_ | ⟨_, hc⟩)
                · decide
                · exact hg c hc
              · rw [List.append_assoc] at hreads
                exact hreads
            · obtain ⟨rows, hout, hreads⟩ :=
                (hshort rest (Nat.le_refl _)).closed (hne _ _) ((gives_closing hdouble).mp h)
              exact ⟨[], rest, rows, rfl, fun c hc => (nomatch hc), hout,
                by rw [List.append_nil]; exact hreads⟩
          · obtain ⟨position', hread⟩ := @gives_inQuotes cap options position done init field expected
              current out rest hquote
            obtain ⟨⟨hnul, -⟩, h⟩ := hread.mp h
            obtain ⟨g, tail, rows, rfl, hg, hout, hreads⟩ := (hshort rest (Nat.le_refl _)).quoted h
            refine ⟨current :: g, tail, rows, ?_, ?_, hout, ?_⟩
            · rw [escaped_cons, if_neg hquote]
              rfl
            · rintro c (_ | ⟨_, hc⟩)
              · exact hnul
              · exact hg c hc
            · rw [List.append_assoc] at hreads
              exact hreads
        closed := by
          intro position done row expected out hrow h
          by_cases hend : current = options.delimiter ∨ isLineEnd current = true
          · exact sound_after hvalid hshort hrow hend h
          · rw [not_or, Bool.not_eq_true] at hend
            exact absurd h (not_gives_closed hend.1 hend.2) }

theorem fits_fields {d : Document} (h : Fits cap d) {i : ℕ}
    (hi : i < d.length) : RowFits cap (d.fields i) := by
  rw [Document.fields, List.getD_eq_getElem?_getD, List.getElem?_eq_getElem hi]
  exact h.row _ (List.getElem_mem hi)

theorem fits_set {d : Document} (h : Fits cap d) {i : ℕ}
    (hrow : RowFits cap row) : Fits cap (d.set i row) := by
  refine ⟨by rw [List.length_set]; exact h.count, fun row' hmem => ?_⟩
  rcases List.mem_or_eq_of_mem_set hmem with hmem | rfl
  · exact h.row row' hmem
  · exact hrow

theorem addRow_fits {d d' : Document} {i : ℕ} (h : Fits cap d) (hadd : d.addRow cap = .ok (i,
    d')) : Fits cap d' := by
  rw [Document.addRow] at hadd
  split at hadd
  · cases hadd
  next hroom =>
    cases hadd
    have hcount := h.count
    refine ⟨by rw [List.length_append, List.length_singleton]; omega, fun row hmem => ?_⟩
    rcases List.mem_append.mp hmem with hmem | hmem
    · exact h.row row hmem
    · rw [List.mem_singleton.mp hmem]
      exact ⟨Nat.zero_le _, fun field hfield => nomatch hfield⟩

theorem append_fits {d d' : Document} {i : ℕ} {value : Bytes} (h : Fits cap d)
    (happend : d.append cap i value = .ok d') : Fits cap d' := by
  rw [Document.append] at happend
  split_ifs at happend with hrow hnul hfull hlong
  cases happend
  have hfits := fits_fields h (Nat.lt_of_not_ge hrow)
  have hcolumns := hfits.columns
  rw [Document.columnCount] at hfull
  refine fits_set h ⟨by rw [List.length_append, List.length_singleton]; omega, fun field hmem => ?_⟩
  rcases List.mem_append.mp hmem with hmem | hmem
  · exact hfits.fields field hmem
  · rw [List.mem_singleton.mp hmem]
    exact Nat.le_of_not_gt hlong

theorem appendCharacter_fits {d d' : Document} {i j : ℕ} {c : UInt8} (h : Fits cap d)
    (happend : d.appendCharacter cap i j c = .ok d') : Fits cap d' := by
  rw [Document.appendCharacter] at happend
  split_ifs at happend with hrange hnul hfull
  cases happend
  rw [Bool.or_eq_true, decide_eq_true_eq, decide_eq_true_eq, not_or, Nat.not_le, Nat.not_le] at hrange
  have hfits := fits_fields h hrange.1
  refine fits_set h ⟨by rw [List.length_set]; exact hfits.columns, fun field hmem => ?_⟩
  rcases List.mem_or_eq_of_mem_set hmem with hmem | rfl
  · exact hfits.fields field hmem
  · have hlen : ((d.fields i).getD j []).length ≤ cap.maxFieldLength := by
      rw [List.getD_eq_getElem?_getD, List.getElem?_eq_getElem hrange.2]
      exact hfits.fields _ (List.getElem_mem hrange.2)
    rw [List.length_append, List.length_singleton]
    omega

theorem kept_fits : Kept cap (Fits cap) := ⟨addRow_fits, append_fits, appendCharacter_fits⟩

variable {p : Parser}

theorem gives_fits (hfits : Fits cap p.output) (h : p.Gives cap options text out) : Fits cap out := by
  induction hn : text.length using Nat.strongRecOn generalizing text p with
  | ind n ih =>
    cases text with
    | nil =>
      obtain ⟨p', hp', rfl⟩ := h
      rw [parseFrom, loop] at hp'
      split at hp'
      · cases hp'
      · cases hp'
        exact hfits
    | cons current rest =>
      obtain ⟨p', hp', hout⟩ := h
      rw [parseFrom_cons] at hp'
      obtain ⟨⟨p₁, rest₁⟩, hstep, hp'⟩ := bind_eq_ok.mp hp'
      have hlen := step_rest hstep
      rw [List.length_cons] at hn
      exact ih rest₁.length (by omega) (kept_fits.step hfits hstep).1 ⟨p', hp', hout⟩ rfl

end Parser

end Castle.Serialization.Csv

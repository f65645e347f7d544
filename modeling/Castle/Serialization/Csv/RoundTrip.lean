import Mathlib.Algebra.Order.BigOperators.Group.List
import Mathlib.Algebra.Order.Ring.Nat
import Castle.Serialization.Csv.Reading
import Castle.Serialization.Json.Render

/-!
# Serializing a document and parsing it again

The serializer puts a field between quotes for its delimiters, quotes and line ends only. The
parser also drops a byte order mark in front of a text, so a document that is written with such a
mark in front is not read again.
-/

namespace Castle.Serialization.Csv

open BoundedOutput
open Json (pushBack_writes appendView_writes)

variable {cap : Capacity} {delimiter : UInt8}

theorem containsNul_eq {value : Bytes} (h : ∀ c ∈ value, c ≠ 0) : containsNul value = false := by
  rw [containsNul, List.any_eq_false]
  intro c hc
  simpa using h c hc

variable (maxOutput : ℕ)

theorem appendQuoted_writes (value : Bytes) :
    Writes maxOutput (appendQuoted maxOutput value) (some (escaped value)) := by
  induction value with
  | nil => exact .nothing
  | cons c value ih =>
    show Writes maxOutput (fun output => appendQuoted maxOutput (c :: value) output) _
    simp only [appendQuoted]
    by_cases hquote : c = quote
    · simp only [hquote, if_true]
      exact (appendView_writes maxOutput [quote, quote]).seq ih
    · simp only [hquote, if_false, Parser.escaped_cons]
      exact (pushBack_writes maxOutput c).seq ih

theorem appendSerializedField_writes {value : Bytes} (h : ∀ c ∈ value, c ≠ 0) :
    Writes maxOutput (appendSerializedField maxOutput value delimiter) (some (fieldText delimiter value)) := by
  show Writes maxOutput (fun output => appendSerializedField maxOutput value delimiter output) _
  simp only [appendSerializedField, containsNul_eq h, fieldText]
  cases needsQuotes delimiter value with
  | false => exact appendView_writes maxOutput value
  | true =>
    exact (pushBack_writes maxOutput quote).seq
      ((appendQuoted_writes maxOutput value).seq (pushBack_writes maxOutput quote))

theorem serializeFields_writes {fields : List Bytes} (h : ∀ field ∈ fields, ∀ c ∈ field, c ≠ 0)
    {column : ℕ} (hcolumn : 0 < column) :
    Writes maxOutput (serializeFields maxOutput delimiter column fields) (some (moreText delimiter fields)) := by
  induction fields generalizing column with
  | nil => exact .nothing
  | cons field fields ih =>
    show Writes maxOutput (fun output => serializeFields maxOutput delimiter column (field :: fields) output) _
    simp only [serializeFields, gt_iff_lt, hcolumn, if_true, moreText, List.flatMap_cons,
      List.cons_append]
    exact (pushBack_writes maxOutput delimiter).seq
      ((appendSerializedField_writes maxOutput (h field List.mem_cons_self)).seq
        (ih (fun f hf => h f (List.mem_cons_of_mem _ hf)) (Nat.succ_pos column)))

variable {row : List Bytes}

theorem serializeRow_writes (h : WellFormedRow row) :
    Writes maxOutput (serializeFields maxOutput delimiter 0 row) (some (rowText delimiter row)) := by
  cases row with
  | nil => exact absurd rfl h.nonempty
  | cons field fields =>
    show Writes maxOutput (fun output => serializeFields maxOutput delimiter 0 (field :: fields) output) _
    simp only [serializeFields, gt_iff_lt, Nat.lt_irrefl, if_false]
    exact Writes.nothing.seq ((appendSerializedField_writes maxOutput (h.noNul field List.mem_cons_self)).seq
      (serializeFields_writes maxOutput (fun f hf => h.noNul f (List.mem_cons_of_mem _ hf)) Nat.one_pos))

variable {rows : Document}

theorem serializeRows_writes (h : ∀ row ∈ rows, WellFormedRow row) :
    Writes maxOutput (serializeRows maxOutput delimiter rows) (some (documentText delimiter rows)) := by
  induction rows with
  | nil => exact .nothing
  | cons row rows ih =>
    show Writes maxOutput (fun output => serializeRows maxOutput delimiter (row :: rows) output) _
    simp only [serializeRows, documentText, List.flatMap_cons, List.append_assoc]
    exact (serializeRow_writes maxOutput (h row List.mem_cons_self)).seq
      ((pushBack_writes maxOutput lineFeed).seq (ih fun r hr => h r (List.mem_cons_of_mem _ hr)))

theorem serialize_eq (hvalid : isValidDelimiter delimiter = true) (strict : Bool)
    (h : ∀ row ∈ rows, WellFormedRow row) {maxOutput : ℕ}
    (hroom : (documentText delimiter rows).length ≤ maxOutput) :
    serialize maxOutput rows ⟨delimiter, strict⟩ = .ok (documentText delimiter rows) := by
  rw [serialize]
  dsimp only
  rw [hvalid, if_neg (by decide), ((serializeRows_writes maxOutput h).run _).mpr ⟨rfl, hroom⟩]
  rfl

namespace Parser

variable {position : Position} {done out rows : Document} {row : List Bytes} {text : Bytes}
  {expected : ℕ}

theorem readsEnded_more {ended : Document} (h : ReadsEnded delimiter none text rows ended)
    {fields : List Bytes} (hnul : ∀ field ∈ fields, ∀ c ∈ field, c ≠ 0) :
    ReadsEnded delimiter (some row) (moreText delimiter fields ++ ([lineFeed] ++ text))
      ((row ++ fields) :: rows) ((row ++ fields) :: ended) := by
  induction fields generalizing row with
  | nil =>
    rw [List.append_nil]
    show ReadsEnded delimiter (some row) ([lineFeed] ++ text) _ _
    exact .line (.inl rfl) h
  | cons field fields ih =>
    rw [List.forall_mem_cons] at hnul
    rw [moreText, List.flatMap_cons, List.cons_append, List.cons_append, List.append_assoc,
      List.append_cons row]
    exact .next (fieldText_spells hnul.1) (ih hnul.2)

theorem readsEnded_documentText (hrows : ∀ row ∈ rows, WellFormedRow row) :
    ReadsEnded delimiter none (documentText delimiter rows) rows rows := by
  induction rows with
  | nil => exact .nil
  | cons row rows ih =>
    rw [List.forall_mem_cons] at hrows
    obtain ⟨⟨hrow, hnul⟩, hrows⟩ := hrows
    cases row with
    | nil => exact absurd rfl hrow
    | cons field fields =>
      rw [List.forall_mem_cons] at hnul
      rw [documentText, List.flatMap_cons, rowText, List.append_assoc, List.append_assoc]
      refine .first (fieldText_spells hnul.1) ?_ (readsEnded_more (ih hrows) hnul.2)
      exact List.append_ne_nil_of_right_ne_nil _ (List.append_ne_nil_of_right_ne_nil _ (List.cons_ne_nil _ _))

theorem gives_document (strict : Bool) (hvalid : isValidDelimiter delimiter = true)
    (hfits : Fits cap (done ++ rows)) (hrows : ∀ row ∈ rows, WellFormedRow row) :
    (between position done expected).Gives cap ⟨delimiter, strict⟩ (documentText delimiter rows) out ↔
      Agrees ⟨delimiter, strict⟩ expected rows ∧ out = done ++ rows :=
  @gives_ended cap ⟨delimiter, strict⟩ _ _ _ _ hvalid none (readsEnded_documentText hrows) hfits _ _ _

end Parser

/-- The front of a row up to the first field that needs quotes, as it is written. -/
def plainFront (delimiter : UInt8) : List Bytes → Bytes
  | [] => []
  | field :: fields =>
    if needsQuotes delimiter field then []
    else field ++ if fields = [] then [] else delimiter :: plainFront delimiter fields

theorem rowText_cons_cons (field next : Bytes) (fields : List Bytes) :
    rowText delimiter (field :: next :: fields) =
      fieldText delimiter field ++ delimiter :: rowText delimiter (next :: fields) := rfl

theorem rowText_drop {c : UInt8} {front : Bytes} (hrow : WellFormedRow row)
    (hfits : RowFits cap row) (h : plainFront delimiter row = c :: front) :
    ∃ row', rowText delimiter row = c :: rowText delimiter row' ∧ plainFront delimiter row' = front ∧
      WellFormedRow row' ∧ RowFits cap row' := by
  cases row with
  | nil => cases h
  | cons field fields =>
    rw [plainFront] at h
    split at h
    · cases h
    next hplain =>
      cases field with
      | nil =>
        cases fields with
        | nil => cases h
        | cons next fields =>
          rw [List.nil_append, if_neg (List.cons_ne_nil _ _), List.cons.injEq] at h
          refine ⟨next :: fields, ?_, h.2, ⟨List.cons_ne_nil _ _, fun f hf =>
            hrow.noNul f (List.mem_cons_of_mem _ hf)⟩, ⟨?_, fun f hf => hfits.fields f (List.mem_cons_of_mem _ hf)⟩⟩
          · rw [rowText_cons_cons, ← h.1]
            rfl
          · exact Nat.le_of_succ_le hfits.columns
      | cons b field =>
        rw [List.cons_append, List.cons.injEq] at h
        have hplain' : needsQuotes delimiter field = false := by
          rw [Bool.not_eq_true, needsQuotes, List.any_cons, Bool.or_eq_false_iff] at hplain
          exact hplain.2
        refine ⟨field :: fields, ?_, ?_, ⟨List.cons_ne_nil _ _, ?_⟩, ⟨hfits.columns, ?_⟩⟩
        · rw [rowText, rowText, fieldText, fieldText, if_neg hplain, hplain', ← h.1]
          rfl
        · rw [plainFront, hplain', ← h.2]
          rfl
        · intro f hf
          rcases List.mem_cons.mp hf with rfl | hf
          · exact fun a ha => hrow.noNul (b :: f) List.mem_cons_self a (List.mem_cons_of_mem _ ha)
          · exact hrow.noNul f (List.mem_cons_of_mem _ hf)
        · intro f hf
          rcases List.mem_cons.mp hf with rfl | hf
          · exact Nat.le_of_succ_le (hfits.fields (b :: f) List.mem_cons_self)
          · exact hfits.fields f (List.mem_cons_of_mem _ hf)

theorem rowText_of_front {front : Bytes} (hrow : WellFormedRow row) (hfits : RowFits cap row)
    (h : front <+: plainFront delimiter row) :
    ∃ row', rowText delimiter row = front ++ rowText delimiter row' ∧ WellFormedRow row' ∧ RowFits cap row' := by
  induction front generalizing row with
  | nil => exact ⟨row, rfl, hrow, hfits⟩
  | cons c front ih =>
    obtain ⟨more, hmore⟩ := h
    obtain ⟨row₁, htext, hfront, hrow₁, hfits₁⟩ := rowText_drop hrow hfits hmore.symm
    obtain ⟨row', htext', hrow', hfits'⟩ := ih hrow₁ hfits₁ ⟨more, hfront.symm⟩
    exact ⟨row', by rw [htext, htext', List.cons_append], hrow', hfits'⟩

/-- Characters in front of a text that are neither quotes nor line feeds are the front of its
first row. -/
theorem front_of_rowText {front tail : Bytes} (hrow : row ≠ [])
    (hfront : ∀ c ∈ front, c ≠ quote ∧ c ≠ lineFeed)
    (h : front <+: rowText delimiter row ++ lineFeed :: tail) :
    front <+: plainFront delimiter row := by
  induction front generalizing row with
  | nil => exact List.nil_prefix
  | cons c front ih =>
    obtain ⟨hquote, hend⟩ := hfront c List.mem_cons_self
    have hmore := fun b hb => hfront b (List.mem_cons_of_mem _ hb)
    cases row with
    | nil => exact absurd rfl hrow
    | cons field fields =>
      rw [rowText, fieldText] at h
      rw [plainFront]
      by_cases hquotes : needsQuotes delimiter field = true
      · rw [if_pos hquotes, quotedText] at h
        exact absurd (List.cons_prefix_cons.mp h).1 hquote
      · rw [if_neg hquotes] at h ⊢
        rw [Bool.not_eq_true] at hquotes
        cases field with
        | nil =>
          cases fields with
          | nil => exact absurd (List.cons_prefix_cons.mp h).1 hend
          | cons next fields =>
            rw [List.nil_append, if_neg (List.cons_ne_nil _ _)]
            obtain ⟨hc, hrest⟩ := List.cons_prefix_cons.mp h
            exact List.cons_prefix_cons.mpr ⟨hc, ih (List.cons_ne_nil _ _) hmore hrest⟩
        | cons b field =>
          have hplain : needsQuotes delimiter field = false := by
            rw [needsQuotes, List.any_cons, Bool.or_eq_false_iff] at hquotes
            exact hquotes.2
          obtain ⟨hc, hrest⟩ := List.cons_prefix_cons.mp h
          have hnext := @ih (field :: fields) (List.cons_ne_nil _ _) hmore (by
            rw [rowText, fieldText, hplain]
            exact hrest)
          rw [plainFront, hplain] at hnext
          exact List.cons_prefix_cons.mpr ⟨hc, hnext⟩

theorem exists_fits (rows : Document) :
    ∃ n, ∀ m (hm : 0 < m), n ≤ m → Fits ⟨m, m, m, hm, hm, hm⟩ rows := by
  induction rows with
  | nil => exact ⟨0, fun m hm _ => ⟨Nat.zero_le _, fun row hrow => nomatch hrow⟩⟩
  | cons row rows ih =>
    obtain ⟨n, hn⟩ := ih
    refine ⟨n + rows.length + 1 + row.length + (row.map List.length).sum, fun m hm hle => ⟨?_, fun r hr => ?_⟩⟩
    · show (row :: rows).length ≤ m
      rw [List.length_cons]
      omega
    · rcases List.mem_cons.mp hr with rfl | hr
      · refine ⟨?_, fun field hfield => ?_⟩
        · show r.length ≤ m
          omega
        · show field.length ≤ m
          have hfield' := List.single_le_sum (fun _ _ => Nat.zero_le _) _ (List.mem_map_of_mem (f := List.length) hfield)
          omega
      · exact (hn m hm (by omega)).row r hr

theorem reads_unique (hvalid : isValidDelimiter delimiter = true) {text : Bytes} {rows' : Document}
    (h : Reads delimiter none text rows) (h' : Reads delimiter none text rows') : rows = rows' := by
  obtain ⟨n, hn⟩ := exists_fits rows
  obtain ⟨n', hn'⟩ := exists_fits rows'
  have hpos : 0 < max n n' + 1 := Nat.succ_pos _
  obtain ⟨p, hp, hout⟩ := @Parser.gives_of_reads ⟨_, _, _, hpos, hpos, hpos⟩ {} [] rows text 0 delimiter hvalid h
    (hn _ hpos (by omega))
  obtain ⟨p', hp', hout'⟩ := @Parser.gives_of_reads ⟨_, _, _, hpos, hpos, hpos⟩ {} [] rows' text 0 delimiter hvalid h'
    (hn' _ hpos (by omega))
  rw [hp] at hp'
  cases hp'
  rw [hout] at hout'
  exact hout'

/-- A text without a byte order mark in front. -/
def withoutBom (source : Bytes) : Bytes := if utf8Bom.isPrefixOf source then source.drop 3 else source

theorem parse_eq_ok (hvalid : isValidDelimiter delimiter = true)
    (strict : Bool) {source : Bytes} {doc : Document} : parse cap source ⟨delimiter, strict⟩ =
    .ok doc ↔ (Parser.between ⟨if utf8Bom.isPrefixOf source then 3 else 0, 1, 1⟩ [] 0).Gives cap
    ⟨delimiter, strict⟩ (withoutBom source) doc := by
  rw [parse]
  dsimp only
  rw [hvalid, if_neg (by decide)]
  constructor
  · intro h
    obtain ⟨p, hp, hdoc⟩ := bind_eq_ok.mp h
    cases hdoc
    exact ⟨p, hp, rfl⟩
  · rintro ⟨p, hp, rfl⟩
    show Parser.parseFrom cap ⟨delimiter, strict⟩ (Parser.between _ [] 0) (withoutBom source) >>= _ = _
    rw [hp]
    rfl

/-- What is written for a document is parsed into the same document. -/
def RoundTrips (cap : Capacity) (options : Options) (doc : Document) : Prop :=
  ∃ size, ∀ maxOutput, size ≤ maxOutput → ∃ text, serialize maxOutput doc options = .ok text ∧
    parse cap text options = .ok doc

/-- The first row of a source begins with fields that need no quotes and that are written, with the
delimiters between them, with a byte order mark in front. -/
def BomAhead (delimiter : UInt8) (source : Bytes) : Prop :=
  ∃ row rows, Reads delimiter none (withoutBom source) (row :: rows) ∧ utf8Bom <+: plainFront delimiter row

/-- The rows of a source have the same number of columns. -/
def ColumnsAgreeIn (delimiter : UInt8) (source : Bytes) : Prop :=
  ∃ rows, Reads delimiter none (withoutBom source) rows ∧ ColumnsAgree rows

/-- A document with room for its rows is read again from its text, unless a mark is in front. -/
theorem parse_documentText (hvalid : isValidDelimiter delimiter = true) (strict : Bool)
    (hfits : Fits cap rows) (hrows : ∀ row ∈ rows, WellFormedRow row) :
    parse cap (documentText delimiter rows) ⟨delimiter, strict⟩ = .ok rows ↔
      (∀ row ∈ rows.head?, ¬utf8Bom <+: plainFront delimiter row) ∧ (strict = true → ColumnsAgree rows) := by
  rw [parse_eq_ok hvalid, withoutBom]
  by_cases hbom : utf8Bom <+: documentText delimiter rows
  · have hmark := List.isPrefixOf_iff_prefix.mpr hbom
    rw [if_pos hmark, if_pos hmark]
    cases rows with
    | nil => exact absurd (List.eq_nil_of_prefix_nil hbom) (List.cons_ne_nil _ _)
    | cons row rows =>
      have hrow := hrows row List.mem_cons_self
      have htext : ∀ r : List Bytes, documentText delimiter (r :: rows) =
          rowText delimiter r ++ lineFeed :: documentText delimiter rows := by
        intro r
        rw [documentText, List.flatMap_cons, List.append_assoc]
        rfl
      rw [htext] at hbom
      have hfront := front_of_rowText hrow.nonempty (by simp [utf8Bom, quote, lineFeed]) hbom
      obtain ⟨row', hcut, hrow', hfits'⟩ :=
        rowText_of_front hrow (hfits.row row List.mem_cons_self) hfront
      refine iff_of_false (fun hgives => ?_) fun h => h.1 row rfl hfront
      rw [htext, hcut, List.append_assoc, show (3 : ℕ) = utf8Bom.length from rfl, List.drop_left,
        ← htext] at hgives
      have hdoc := ((@Parser.gives_document cap delimiter _ [] _ (row' :: rows) _ strict hvalid
        ⟨hfits.count, fun r hr => ?_⟩ fun r hr => ?_).mp hgives).2
      · rw [List.nil_append, List.cons.injEq] at hdoc
        rw [← hdoc.1] at hcut
        have hlen := congrArg List.length hcut
        rw [List.length_append] at hlen
        exact absurd hlen (by simp [utf8Bom])
      · rcases List.mem_cons.mp hr with rfl | hr
        · exact hfits'
        · exact hfits.row r (List.mem_cons_of_mem _ hr)
      · rcases List.mem_cons.mp hr with rfl | hr
        · exact hrow'
        · exact hrows r (List.mem_cons_of_mem _ hr)
  · have hmark : ¬utf8Bom.isPrefixOf (documentText delimiter rows) = true :=
      fun h => hbom (List.isPrefixOf_iff_prefix.mp h)
    rw [if_neg hmark, if_neg hmark]
    have hnone : ∀ row ∈ rows.head?, ¬utf8Bom <+: plainFront delimiter row := by
      intro row hrow hfront
      obtain ⟨more, rfl⟩ := List.head?_eq_some_iff.mp hrow
      obtain ⟨row', hcut, -⟩ := rowText_of_front (hrows row List.mem_cons_self) (hfits.row row List.mem_cons_self) hfront
      rw [documentText, List.flatMap_cons, hcut, List.append_assoc, List.append_assoc] at hbom
      exact hbom (List.prefix_append _ _)
    rw [Parser.gives_document strict hvalid (by rw [List.nil_append]; exact hfits) hrows, List.nil_append,
      Parser.agrees_iff strict hrows]
    exact ⟨fun h => ⟨hnone, h.1⟩, fun h => ⟨h.2, rfl⟩⟩

theorem roundTrips_iff_parse (hvalid : isValidDelimiter delimiter = true) (strict : Bool)
    (hrows : ∀ row ∈ rows, WellFormedRow row) : RoundTrips cap ⟨delimiter, strict⟩ rows ↔
      parse cap (documentText delimiter rows) ⟨delimiter, strict⟩ = .ok rows := by
  have hserialize := fun maxOutput => @serialize_eq delimiter rows hvalid strict hrows maxOutput
  constructor
  · rintro ⟨size, hsize⟩
    obtain ⟨text, hwrite, hread⟩ :=
      hsize (max size (documentText delimiter rows).length) (Nat.le_max_left _ _)
    rw [hserialize _ (Nat.le_max_right _ _)] at hwrite
    cases hwrite
    exact hread
  · intro hread
    exact ⟨_, fun maxOutput hroom => ⟨_, hserialize maxOutput hroom, hread⟩⟩

/-- A source that is accepted is read again after it was written, exactly if no byte order mark
is written in front. A strict parser also wants rows of the same number of columns. -/
theorem roundTrips_iff (cap : Capacity) (delimiter : UInt8) (strict strict' : Bool)
    (source : Bytes) (doc : Document) (hvalid : isValidDelimiter delimiter = true)
    (h : parse cap source ⟨delimiter, strict⟩ = .ok doc) : RoundTrips cap ⟨delimiter, strict'⟩ doc ↔
    ¬BomAhead delimiter source ∧ (strict' = true → ColumnsAgreeIn delimiter source) := by
  have hgives := (parse_eq_ok hvalid strict).mp h
  obtain ⟨rows, hdoc, hreads⟩ := (Parser.sound hvalid (withoutBom source)).between hgives
  rw [List.nil_append] at hdoc
  rw [← hdoc] at hreads
  have hempty : Fits cap [] := ⟨Nat.zero_le _, fun row hrow => nomatch hrow⟩
  have hfits : Fits cap doc := Parser.gives_fits hempty hgives
  have hrows := hreads.wellFormed fun row hrow => absurd hrow.symm (Option.some_ne_none row)
  have hbom : BomAhead delimiter source ↔ ∃ row ∈ doc.head?, utf8Bom <+: plainFront delimiter row := by
    constructor
    · rintro ⟨row, more, hread, hfront⟩
      exact ⟨row, by rw [reads_unique hvalid hreads hread]; rfl, hfront⟩
    · rintro ⟨row, hrow, hfront⟩
      obtain ⟨more, hmore⟩ := List.head?_eq_some_iff.mp hrow
      exact ⟨row, more, hmore ▸ hreads, hfront⟩
  have hcolumns : ColumnsAgreeIn delimiter source ↔ ColumnsAgree doc := by
    constructor
    · rintro ⟨rows, hread, hagree⟩
      rw [reads_unique hvalid hreads hread]
      exact hagree
    · exact fun hagree => ⟨doc, hreads, hagree⟩
  rw [hbom, hcolumns, roundTrips_iff_parse hvalid strict' hrows,
    parse_documentText hvalid strict' hfits hrows, not_exists]
  simp only [not_and]

/-- Room for two rows of two fields of eight characters. -/
def smallCapacity : Capacity := ⟨2, 2, 8, Nat.succ_pos (nat_lit 1), Nat.succ_pos (nat_lit 1), Nat.succ_pos (nat_lit 7)⟩

/-- `x,"a,b"` -/
theorem roundTrips_pair : RoundTrips smallCapacity ⟨0x2c, true⟩ [[[0x78], [0x61, 0x2c, 0x62]]] ↔
    ¬BomAhead 0x2c [0x78, 0x2c, 0x22, 0x61, 0x2c, 0x62, 0x22] ∧
      (true = true → ColumnsAgreeIn 0x2c [0x78, 0x2c, 0x22, 0x61, 0x2c, 0x62, 0x22]) :=
  roundTrips_iff smallCapacity 0x2c false true [0x78, 0x2c, 0x22, 0x61, 0x2c, 0x62, 0x22] _ (by decide) (by decide)

/-- A field with a byte order mark, between quotes that it does not need, is written without them. -/
theorem bom_lost : parse smallCapacity [0x22, 0xef, 0xbb, 0xbf, 0x61, 0x22] ⟨0x2c, false⟩ =
      .ok [[[0xef, 0xbb, 0xbf, 0x61]]] ∧
    ¬RoundTrips smallCapacity ⟨0x2c, false⟩ [[[0xef, 0xbb, 0xbf, 0x61]]] := by
  refine ⟨by decide, fun h => ?_⟩
  have hrow : WellFormedRow [[0xef, 0xbb, 0xbf, 0x61]] := ⟨by decide, by simp⟩
  rw [roundTrips_iff_parse (by decide) false fun row hmem => by rw [List.mem_singleton.mp hmem]; exact hrow] at h
  revert h
  decide

end Castle.Serialization.Csv

import Castle.Serialization.Csv.RoundTrip

/-!
# The texts that `parse` accepts

Behind a byte order mark, the texts of the grammar whose document there is room for.
-/

namespace Castle.Serialization.Csv

open Parser (ReadsEnded readsEnded_of_reads)

variable {cap : Capacity} {delimiter : UInt8} {source : Bytes} {doc : Document}

/-- The result of `parse` and the document behind it, which `fail` clears. -/
def parseInto (cap : Capacity) (source : Bytes) (options : Options) : Result × Document :=
  match parse cap source options with
  | .ok doc => ({}, doc)
  | .error result => (result, [])

theorem parse_iff_ended (hvalid : isValidDelimiter delimiter = true) (strict : Bool) :
    parse cap source ⟨delimiter, strict⟩ = .ok doc ↔ ∃ ended, ReadsEnded delimiter none
    (withoutBom source) doc ended ∧ Fits cap doc ∧ (strict = true → ColumnsAgree ended) := by
  have hgives : ∀ {ended}, ReadsEnded delimiter none (withoutBom source) doc ended → Fits cap doc →
      (parse cap source ⟨delimiter, strict⟩ = .ok doc ↔ (strict = true → ColumnsAgree ended)) := by
    intro ended hended hfits
    have hrows := hended.reads.wellFormed fun row hrow => absurd hrow.symm (Option.some_ne_none row)
    rw [parse_eq_ok hvalid, ← Parser.agrees_iff strict fun row hrow => hrows row (hended.rows_prefix.subset hrow)]
    exact (@Parser.gives_ended cap ⟨delimiter, strict⟩ [] _ _ _ hvalid none hended hfits _ _ _).trans
      (and_iff_left rfl)
  constructor
  · intro h
    have hread := (parse_eq_ok hvalid strict).mp h
    obtain ⟨rows, rfl, hreads⟩ := (Parser.sound hvalid (withoutBom source)).between hread
    obtain ⟨ended, hended⟩ := readsEnded_of_reads hreads
    have hempty : Fits cap [] := ⟨Nat.zero_le _, fun _ hrow => absurd hrow List.not_mem_nil⟩
    have hfits := Parser.gives_fits hempty hread
    exact ⟨ended, hended, hfits, (hgives hended hfits).mp h⟩
  · rintro ⟨ended, hended, hfits, hagree⟩
    exact (hgives hended hfits).mpr hagree

/-- The texts that `parse` accepts, without strict columns, are those of the grammar that fit, each
with the one document it is read as. A text that is refused leaves the document empty. -/
theorem parse_iff_grammar (cap : Capacity) (delimiter : UInt8) (source : Bytes)
    (hvalid : isValidDelimiter delimiter = true) :
    (∀ doc, parse cap source ⟨delimiter, false⟩ = .ok doc ↔
      Reads delimiter none (withoutBom source) doc ∧ Fits cap doc) ∧
    (∀ rows rows', Reads delimiter none source rows → Reads delimiter none source rows' → rows = rows') ∧
    ((¬∃ doc, parse cap source ⟨delimiter, false⟩ = .ok doc) →
      (parseInto cap source ⟨delimiter, false⟩).2 = []) := by
  refine ⟨fun doc => ?_, fun rows rows' => reads_unique hvalid, fun hfail => ?_⟩
  · rw [parse_iff_ended hvalid]
    constructor
    · rintro ⟨ended, hended, hfits, -⟩
      exact ⟨hended.reads, hfits⟩
    · rintro ⟨hreads, hfits⟩
      exact (readsEnded_of_reads hreads).imp fun ended hended => ⟨hended, hfits, Bool.noConfusion⟩
  · rw [parseInto]
    split
    next doc hdoc => exact absurd ⟨doc, hdoc⟩ hfail
    · rfl

theorem parse_iff_grammar_pair :
    (∀ doc, parse smallCapacity [0x78, 0x2c, 0x79] ⟨0x2c, false⟩ = .ok doc ↔
      Reads 0x2c none (withoutBom [0x78, 0x2c, 0x79]) doc ∧ Fits smallCapacity doc) ∧
    (∀ rows rows', Reads 0x2c none [0x78, 0x2c, 0x79] rows → Reads 0x2c none [0x78, 0x2c, 0x79] rows' →
      rows = rows') ∧
    ((¬∃ doc, parse smallCapacity [0x78, 0x2c, 0x79] ⟨0x2c, false⟩ = .ok doc) →
      (parseInto smallCapacity [0x78, 0x2c, 0x79] ⟨0x2c, false⟩).2 = []) :=
  parse_iff_grammar smallCapacity 0x2c [0x78, 0x2c, 0x79] (by decide)

/-- The byte order mark is no part of the first field, where the grammar would have it. -/
theorem mark_is_skipped : Reads 0x2c none [0xef, 0xbb, 0xbf, 0x61] [[[0xef, 0xbb, 0xbf, 0x61]]] ∧
    Fits smallCapacity [[[0xef, 0xbb, 0xbf, 0x61]]] ∧
    parse smallCapacity [0xef, 0xbb, 0xbf, 0x61] ⟨0x2c, false⟩ = .ok [[[0x61]]] := by
  refine ⟨?_, ⟨by decide, fun row hrow => ?_⟩, by decide⟩
  · exact .first (.plain [0xef, 0xbb, 0xbf, 0x61] (by decide +kernel)) (List.cons_ne_nil _ _) .last
  · rw [List.mem_singleton.mp hrow]
    exact ⟨by decide, by decide⟩

/-- What `strict_columns` is for. -/
def ChecksColumns (cap : Capacity) (delimiter : UInt8) (source : Bytes) : Prop :=
  (∀ doc, parse cap source ⟨delimiter, true⟩ = .ok doc → ColumnsAgree doc) ∧
    ((∃ doc, parse cap source ⟨delimiter, true⟩ = .ok doc) ↔
      ∃ doc, parse cap source ⟨delimiter, false⟩ = .ok doc ∧ ColumnsAgree doc)

/-- A last record without a line end has the columns of the others, if these agree. -/
def LastRecordAgrees (cap : Capacity) (delimiter : UInt8) (source : Bytes) : Prop :=
  isValidDelimiter delimiter = true → ∀ rows ended,
    ReadsEnded delimiter none (withoutBom source) rows ended → Fits cap rows → ColumnsAgree ended →
      ColumnsAgree rows

theorem parse_invalid (hvalid : ¬isValidDelimiter delimiter = true) (strict : Bool) :
    parse cap source ⟨delimiter, strict⟩ ≠ .ok doc := by
  rw [parse, if_pos (by simpa using hvalid)]
  rintro ⟨⟩

theorem checksColumns_iff (cap : Capacity) (delimiter : UInt8) (source : Bytes) :
    ChecksColumns cap delimiter source ↔ LastRecordAgrees cap delimiter source := by
  by_cases hvalid : isValidDelimiter delimiter = true
  · have hstrict := fun doc => @parse_iff_ended cap delimiter source doc hvalid true
    have hlenient := fun doc => @parse_iff_ended cap delimiter source doc hvalid false
    constructor
    · intro h _ rows ended hended hfits hagree
      exact h.1 rows ((hstrict rows).mpr ⟨ended, hended, hfits, fun _ => hagree⟩)
    · intro h
      have hsound : ∀ doc, parse cap source ⟨delimiter, true⟩ = .ok doc → ColumnsAgree doc := by
        intro doc hdoc
        obtain ⟨ended, hended, hfits, hagree⟩ := (hstrict doc).mp hdoc
        exact h hvalid doc ended hended hfits (hagree rfl)
      refine ⟨hsound, fun ⟨doc, hdoc⟩ => ⟨doc, ?_, hsound doc hdoc⟩, fun ⟨doc, hdoc, hagree⟩ => ⟨doc, ?_⟩⟩
      · obtain ⟨ended, hended, hfits, -⟩ := (hstrict doc).mp hdoc
        exact (hlenient doc).mpr ⟨ended, hended, hfits, Bool.noConfusion⟩
      · obtain ⟨ended, hended, hfits, -⟩ := (hlenient doc).mp hdoc
        have hsubset := hended.rows_prefix.subset
        exact (hstrict doc).mpr ⟨ended, hended, hfits, fun _ r₁ h₁ r₂ h₂ =>
          hagree r₁ (hsubset h₁) r₂ (hsubset h₂)⟩
  · refine iff_of_true ⟨fun doc hdoc => absurd hdoc (parse_invalid hvalid true), ?_⟩ fun h => absurd h hvalid
    exact iff_of_false (fun ⟨doc, hdoc⟩ => parse_invalid hvalid true hdoc)
      fun ⟨doc, hdoc, _⟩ => parse_invalid hvalid false hdoc

/-- `x,y` and, on a line without an end, `z` -/
theorem last_record_unchecked :
    parse smallCapacity [0x78, 0x2c, 0x79, lineFeed, 0x7a] ⟨0x2c, true⟩ = .ok [[[0x78], [0x79]], [[0x7a]]] ∧
      ¬ChecksColumns smallCapacity 0x2c [0x78, 0x2c, 0x79, lineFeed, 0x7a] := by
  have hparse : parse smallCapacity [0x78, 0x2c, 0x79, lineFeed, 0x7a] ⟨0x2c, true⟩ =
      .ok [[[0x78], [0x79]], [[0x7a]]] := by decide
  refine ⟨hparse, fun h => ?_⟩
  have hagree := h.1 _ hparse [[0x78], [0x79]] List.mem_cons_self [[0x7a]]
    (List.mem_cons_of_mem _ List.mem_cons_self)
  cases hagree

end Castle.Serialization.Csv

import Castle.Serialization.Ini.Documents

/-!
# Serializing a document and parsing it again

A document is written section by section, the entries without a section first.
-/

namespace Castle.Serialization.Ini

open BoundedOutput
open Json (pushBack_writes appendView_writes)

variable {cap : Capacity}

/-- The entries of a section, in their order. -/
def ofSection (d : Document) (name : Bytes) : Document := d.filter fun e => e.section_ = name

/-- The sections where their first entries are. -/
def sectionNames (d : Document) : List Bytes := (d.map Entry.section_).eraseDups

/-- The sections in the order they are written in. The entries without a section come first. -/
def writtenOrder (d : Document) : List Bytes :=
  (sectionNames d).filter (· = []) ++ (sectionNames d).filter (· ≠ [])

def grouped (d : Document) : Document := (writtenOrder d).flatMap (ofSection d)

/-- The same entries, in the same order in each section, and the sections as they are written. -/
def SameContent (d d' : Document) : Prop :=
  (∀ name, ofSection d' name = ofSection d name) ∧ sectionNames d' = writtenOrder d

variable {d : Document}

theorem mem_sectionNames {name : Bytes} : name ∈ sectionNames d ↔ ∃ e ∈ d, e.section_ = name := by
  rw [sectionNames, List.mem_eraseDups, List.mem_map]

theorem mem_writtenOrder {name : Bytes} : name ∈ writtenOrder d ↔ ∃ e ∈ d, e.section_ = name := by
  rw [writtenOrder, List.mem_append, List.mem_filter, List.mem_filter, ← mem_sectionNames]
  by_cases h : name = []
  · simp [h]
  · simp [h]

theorem nodup_eraseDups (l : List Bytes) : l.eraseDups.Nodup := by
  induction hn : l.length using Nat.strongRecOn generalizing l with
  | ind n ih =>
    cases l with
    | nil => exact List.nodup_nil
    | cons a l =>
      rw [List.length_cons] at hn
      rw [List.eraseDups_cons, List.nodup_cons, List.mem_eraseDups]
      have hlen := List.length_filter_le (fun b => !b == a) l
      exact ⟨by simp, ih _ (by omega) _ rfl⟩

theorem nodup_writtenOrder (d : Document) : (writtenOrder d).Nodup := by
  have hnodup := nodup_eraseDups (d.map Entry.section_)
  refine List.nodup_append.mpr ⟨hnodup.filter _, hnodup.filter _, ?_⟩
  intro a ha b hb
  rw [List.mem_filter, decide_eq_true_eq] at ha hb
  rintro rfl
  exact hb.2 ha.2

variable {names : List Bytes}

theorem ofSection_flatMap (hnodup : names.Nodup) (name : Bytes) :
    ofSection (names.flatMap (ofSection d)) name = if name ∈ names then ofSection d name else [] := by
  induction names with
  | nil => rfl
  | cons first names ih =>
    rw [List.nodup_cons] at hnodup
    have hfirst : ofSection (ofSection d first) name = if first = name then ofSection d name else [] := by
      rw [ofSection, ofSection, List.filter_filter]
      split_ifs with h
      · rw [h, ofSection]
        exact List.filter_congr fun e _ => Bool.and_self _
      · rw [List.filter_eq_nil_iff]
        simp only [Bool.and_eq_true, decide_eq_true_eq]
        exact fun e _ he => h (he.2.symm.trans he.1)
    rw [List.flatMap_cons, ofSection, List.filter_append, ← ofSection, ← ofSection, hfirst, ih hnodup.2]
    by_cases h : first = name
    · rw [if_pos h, if_neg (h ▸ hnodup.1), if_pos (h ▸ List.mem_cons_self), List.append_nil]
    · rw [if_neg h, List.nil_append]
      have hmem : name ∈ first :: names ↔ name ∈ names := by
        rw [List.mem_cons, or_iff_right (Ne.symm h)]
      simp only [hmem]

theorem sectionNames_flatMap (hnodup : names.Nodup)
    (hused : ∀ name ∈ names, ∃ e ∈ d, e.section_ = name) :
    sectionNames (names.flatMap (ofSection d)) = names := by
  induction names with
  | nil => rfl
  | cons first names ih =>
    rw [List.nodup_cons] at hnodup
    have hrest := ih hnodup.2 fun name h => hused name (List.mem_cons_of_mem _ h)
    obtain ⟨e, he, hname⟩ := hused first List.mem_cons_self
    have hblock : ∀ name ∈ (ofSection d first).map Entry.section_, name = first := by
      intro name hmem
      obtain ⟨e, he, rfl⟩ := List.mem_map.mp hmem
      exact of_decide_eq_true (List.mem_filter.mp he).2
    have hone : ((ofSection d first).map Entry.section_).eraseDups = [first] := by
      have hmem : first ∈ (ofSection d first).map Entry.section_ :=
        List.mem_map.mpr ⟨e, List.mem_filter.mpr ⟨he, decide_eq_true hname⟩, hname⟩
      generalize (ofSection d first).map Entry.section_ = block at hblock hmem
      cases block with
      | nil => cases hmem
      | cons a block =>
        rw [List.eraseDups_cons, hblock a List.mem_cons_self, List.filter_eq_nil_iff.mpr]
        · rfl
        · intro b hb
          simp [hblock b (List.mem_cons_of_mem _ hb)]
    have hother : ((names.flatMap (ofSection d)).map Entry.section_).removeAll
        ((ofSection d first).map Entry.section_) = (names.flatMap (ofSection d)).map Entry.section_ := by
      rw [List.removeAll, List.filter_eq_self]
      intro name hmem
      have hin : name ∈ names := by
        rw [← hrest, sectionNames, List.mem_eraseDups]
        exact hmem
      have hnot : name ∉ (ofSection d first).map Entry.section_ := fun h => hnodup.1 (hblock name h ▸ hin)
      simpa using hnot
    rw [List.flatMap_cons, sectionNames, List.map_append, List.eraseDups_append, hone, hother,
      ← sectionNames, hrest]
    rfl

theorem sameContent_grouped (d : Document) : SameContent d (grouped d) := by
  refine ⟨fun name => ?_, sectionNames_flatMap (nodup_writtenOrder d) fun name h => mem_writtenOrder.mp h⟩
  rw [grouped, ofSection_flatMap (nodup_writtenOrder d)]
  split_ifs with h
  · rfl
  · rw [eq_comm, ofSection, List.filter_eq_nil_iff]
    exact fun e he hname => h (mem_writtenOrder.mpr ⟨e, he, of_decide_eq_true hname⟩)

def entriesText (d : Document) : Bytes := d.flatMap fun e => entryText e ++ [lineFeed]

def sectionText (d : Document) (name : Bytes) : Bytes :=
  headerText name ++ lineFeed :: (entriesText (ofSection d name) ++ [lineFeed])

def namedSections (d : Document) : List Bytes := (sectionNames d).filter (· ≠ [])

def documentText (d : Document) : Bytes :=
  entriesText (ofSection d []) ++ ((if d.any (·.section_ = []) then [lineFeed] else []) ++
    (namedSections d).flatMap (sectionText d))

variable (maxOutput : ℕ)

theorem appendLine_writes (e : Entry) :
    Writes maxOutput (appendLine maxOutput e.key e.value) (some (entryText e ++ [lineFeed])) := by
  have h := (appendView_writes maxOutput e.key).seq ((appendView_writes maxOutput [space, equalsSign, space]).seq
    ((appendEscapedValue_writes maxOutput e.value).seq (pushBack_writes maxOutput lineFeed)))
  rw [cat_some, cat_some, cat_some] at h
  rw [entryText, List.append_assoc, List.append_assoc]
  exact h

theorem appendEntries_writes (name : Bytes) (d : Document) :
    Writes maxOutput (appendEntries maxOutput name d) (some (entriesText (ofSection d name))) := by
  induction d with
  | nil => exact .nothing
  | cons e d ih =>
    show Writes maxOutput (fun output => appendEntries maxOutput name (e :: d) output) _
    simp only [appendEntries, ofSection, List.filter_cons, decide_eq_true_eq]
    split_ifs with h
    · exact (appendLine_writes maxOutput e).seq ih
    · exact Writes.nothing.seq ih

theorem appendSection_writes (d : Document) (name : Bytes) :
    Writes maxOutput (appendSection maxOutput d name) (some (sectionText d name)) := by
  have h := (appendView_writes maxOutput [openBracket]).seq ((appendView_writes maxOutput name).seq
    ((appendView_writes maxOutput [closeBracket, lineFeed]).seq ((appendEntries_writes maxOutput name d).seq
      (pushBack_writes maxOutput lineFeed))))
  rw [cat_some, cat_some, cat_some, cat_some] at h
  rw [sectionText, headerText, List.cons_append, List.append_assoc]
  exact h

theorem removeAll_snoc (l seen : List Bytes) (name : Bytes) :
    l.removeAll (seen ++ [name]) = (l.removeAll seen).filter (!· == name) := by
  rw [List.removeAll, List.removeAll, List.filter_filter]
  refine List.filter_congr fun a _ => ?_
  rw [List.elem_eq_mem, List.elem_eq_mem, Bool.and_comm]
  by_cases ha : a = name
  · simp [ha]
  · simp [ha]

/-- The sections of `entries` that no entry before has, where their first entries are. -/
def newSections (previous entries : Document) : List Bytes :=
  (((entries.map Entry.section_).removeAll (previous.map Entry.section_)).eraseDups).filter (· ≠ [])

theorem newSections_cons (previous entries : Document) (e : Entry) :
    newSections previous (e :: entries) =
      if e.section_ = [] ∨ previous.any (·.section_ = e.section_) = true then newSections (previous ++ [e]) entries
      else e.section_ :: newSections (previous ++ [e]) entries := by
  have hany : previous.any (·.section_ = e.section_) = true ↔ e.section_ ∈ previous.map Entry.section_ := by
    rw [List.any_eq_true, List.mem_map]
    simp only [decide_eq_true_eq]
  have hrest : ((e :: entries).map Entry.section_).removeAll (previous.map Entry.section_) =
      if e.section_ ∈ previous.map Entry.section_ then
        (entries.map Entry.section_).removeAll (previous.map Entry.section_)
      else e.section_ :: (entries.map Entry.section_).removeAll (previous.map Entry.section_) := by
    rw [List.map_cons, List.cons_removeAll, List.contains_eq_mem]
    by_cases hmem : e.section_ ∈ previous.map Entry.section_
    · rw [if_pos hmem, if_neg (by simpa using hmem)]
    · rw [if_neg hmem, if_pos (by simpa using hmem)]
  rw [newSections, newSections, hrest, List.map_append, List.map_cons, List.map_nil, removeAll_snoc]
  by_cases hmem : e.section_ ∈ previous.map Entry.section_
  · have hsame : ((entries.map Entry.section_).removeAll (previous.map Entry.section_)).filter (!· == e.section_) =
        (entries.map Entry.section_).removeAll (previous.map Entry.section_) := by
      refine List.filter_eq_self.mpr fun name hname => ?_
      rw [List.removeAll, List.mem_filter, List.elem_eq_mem] at hname
      have hne : name ≠ e.section_ := by
        rintro rfl
        simp [hmem] at hname
      simp [hne]
    rw [if_pos hmem, if_pos (.inr (hany.mpr hmem)), hsame]
  · rw [if_neg hmem, List.eraseDups_cons]
    by_cases hglobal : e.section_ = []
    · rw [if_pos (.inl hglobal), List.filter_cons_of_neg (by simp [hglobal])]
    · rw [if_neg (not_or.mpr ⟨hglobal, fun h => hmem (hany.mp h)⟩),
        List.filter_cons_of_pos (by simp [hglobal])]

theorem appendSections_writes (d previous entries : Document) :
    Writes maxOutput (appendSections maxOutput d previous entries)
      (some ((newSections previous entries).flatMap (sectionText d))) := by
  induction entries generalizing previous with
  | nil => exact .nothing
  | cons e entries ih =>
    show Writes maxOutput (fun output => appendSections maxOutput d previous (e :: entries) output) _
    rw [newSections_cons]
    simp only [appendSections]
    by_cases hglobal : e.section_ = []
    · simp only [hglobal, if_true, true_or]
      exact Writes.nothing.seq (ih (previous ++ [e]))
    by_cases hany : previous.any (·.section_ = e.section_) = true
    · simp only [hglobal, hany, if_true, if_false, or_true]
      exact Writes.nothing.seq (ih (previous ++ [e]))
    · simp only [hglobal, hany, if_false, or_self, List.flatMap_cons, Bool.false_eq_true]
      exact (appendSection_writes maxOutput d e.section_).seq (ih (previous ++ [e]))

theorem newSections_nil (d : Document) : newSections [] d = namedSections d := by
  rw [newSections, namedSections, sectionNames, List.map_nil, List.removeAll_nil]

theorem serialize_eq {maxOutput : ℕ} (d : Document) (hroom : (documentText d).length ≤ maxOutput) :
    serialize maxOutput d = .ok (documentText d) := by
  have hblank : Writes maxOutput (appendGlobalEnd maxOutput d)
      (some (if d.any (·.section_ = []) then [lineFeed] else [])) := by
    show Writes maxOutput (fun output => appendGlobalEnd maxOutput d output) _
    simp only [appendGlobalEnd]
    cases d.any (·.section_ = []) with
    | true => exact pushBack_writes maxOutput lineFeed
    | false => exact .nothing
  have hsections := appendSections_writes maxOutput d [] d
  rw [newSections_nil] at hsections
  have h := (appendEntries_writes maxOutput [] d).seq (hblank.seq hsections)
  rw [cat_some, cat_some] at h
  have hwritten := (h.run (documentText d)).mpr ⟨rfl, hroom⟩
  rw [serialize]
  exact congrArg (Except.mapError _) hwritten

def Gives (cap : Capacity) (number : ℕ) (s : State) (text : Bytes) (out : Document) : Prop :=
  ∃ s', parseLines cap number s (if text.isEmpty then [] else splitLines text) = .ok s' ∧ s'.output = out

variable {number : ℕ} {s : State} {text : Bytes} {out d : Document}

theorem gives_nil : Gives cap number s [] out ↔ s.output = out :=
  ⟨fun ⟨_, h, hout⟩ => by cases h; exact hout, fun h => ⟨s, rfl, h⟩⟩

theorem gives_line {line : Bytes} (hline : ∀ c ∈ line, isLineEnd c = false) :
    Gives cap number s (line ++ lineFeed :: text) out ↔ ∃ read s₁, readLine cap number line =
    .ok read ∧ s.apply cap number read = .ok s₁ ∧ Gives cap (number + 1) s₁ text out := by
  rw [Gives, if_neg (by simp), splitLines_line hline, parseLines]
  constructor
  · rintro ⟨s', h, hout⟩
    obtain ⟨read, hread, h⟩ := bind_eq_ok.mp h
    obtain ⟨s₁, hs₁, h⟩ := bind_eq_ok.mp h
    exact ⟨read, s₁, hread, hs₁, s', h, hout⟩
  · rintro ⟨read, s₁, hread, hs₁, s', h, hout⟩
    exact ⟨s', bind_eq_ok.mpr ⟨read, hread, bind_eq_ok.mpr ⟨s₁, hs₁, h⟩⟩, hout⟩

theorem parse_eq_ok : parse cap text = .ok out ↔ Gives cap 1 {} text out := by
  have hempty : Gives cap 1 {} text out ↔ ∃ s', parseLines cap 1 {} (splitLines text) = .ok s' ∧ s'.output = out := by
    cases text with
    | nil => exact Iff.rfl
    | cons c text => exact Iff.rfl
  rw [hempty, parse, bind_eq_ok]
  simp only [Except.ok.injEq]

theorem gives_blank : Gives cap number s (lineFeed :: text) out ↔ Gives cap (number + 1) s text out := by
  have h := @gives_line cap number s text out [] fun c hc => nomatch hc
  rw [List.nil_append, readLine_empty] at h
  rw [h]
  constructor
  · rintro ⟨read, s₁, hread, hs₁, hgives⟩
    cases hread
    cases hs₁
    exact hgives
  · exact fun hgives => ⟨.blank, s, rfl, rfl, hgives⟩

theorem gives_header {name : Bytes} (hname : SectionName cap name) :
    Gives cap number s (headerText name ++ lineFeed :: text) out ↔
      Gives cap (number + 1) { s with currentSection := name } text out := by
  have hline : ∀ c ∈ headerText name, isLineEnd c = false := by
    intro c hc
    rcases List.mem_cons.mp hc with rfl | hc
    · decide
    · rcases List.mem_append.mp hc with hc | hc
      · exact (hname.lineEnd c hc).2
      · rw [List.mem_singleton.mp hc]
        decide
  rw [gives_line hline, readLine_headerText hname]
  constructor
  · rintro ⟨read, s₁, hread, hs₁, hgives⟩
    cases hread
    cases hs₁
    exact hgives
  · exact fun hgives => ⟨.header name, _, rfl, rfl, hgives⟩

theorem gives_entry {e : Entry} (he : WellFormed cap e) (hfresh : e.name ∉ d.map Entry.name) :
    Gives cap number ⟨d, e.section_⟩ (entryText e ++ lineFeed :: text) out ↔
      ∃ value, decodeValue cap.maxValueLength (space :: valueText e.value) number (e.key.length + 3) = .ok value ∧
        d.length ≠ cap.maxEntries ∧
          Gives cap (number + 1) ⟨d ++ [{ e with value := value }], e.section_⟩ text out := by
  rw [gives_line (entryText_lineEnd he), readLine_entryText he]
  constructor
  · rintro ⟨read, s₁, hread, hs₁, hgives⟩
    obtain ⟨value, hvalue, hread⟩ := bind_eq_ok.mp hread
    cases hread
    have hset := @setEntry_fresh cap d { e with value := value } { he.accepted with value := decodeValue_fits hvalue } hfresh
    rw [State.apply, hset] at hs₁
    split_ifs at hs₁ with hfull
    cases hs₁
    exact ⟨value, hvalue, hfull, hgives⟩
  · rintro ⟨value, hvalue, hroom, hgives⟩
    have hset := @setEntry_fresh cap d { e with value := value } { he.accepted with value := decodeValue_fits hvalue } hfresh
    rw [if_neg hroom] at hset
    refine ⟨.assignment e.key value (e.key.length + 1), _, bind_eq_ok.mpr ⟨value, hvalue, rfl⟩, ?_, hgives⟩
    rw [State.apply, hset]

/-- An entry as it is read again. -/
def Reread (e e' : Entry) : Prop := e'.name = e.name ∧ rereadValue e.value = some e'.value

theorem rereads_names {entries entries' : Document} (h : List.Forall₂ Reread entries entries') :
    entries'.map Entry.name = entries.map Entry.name := by
  induction h with
  | nil => rfl
  | cons hfirst _ ih => rw [List.map_cons, List.map_cons, hfirst.1, ih]

theorem rereads_append {first more entries' : Document} (h : List.Forall₂ Reread (first ++ more) entries') :
    ∃ block rest, List.Forall₂ Reread first block ∧ List.Forall₂ Reread more rest ∧ entries' = block ++ rest :=
  ⟨_, _, (List.forall₂_take_append _ _ _ h.flip).flip, (List.forall₂_drop_append _ _ _ h.flip).flip,
    (List.take_append_drop _ _).symm⟩

theorem reread_of_mem {entries entries' : Document} (h : List.Forall₂ Reread entries entries') {e : Entry}
    (he : e ∈ entries) : ∃ e' ∈ entries', Reread e e' := by
  induction h with
  | nil => cases he
  | cons hfirst _ ih =>
    rcases List.mem_cons.mp he with rfl | he
    · exact ⟨_, List.mem_cons_self, hfirst⟩
    · obtain ⟨e', he', hreread⟩ := ih he
      exact ⟨e', List.mem_cons_of_mem _ he', hreread⟩

theorem gives_entries {name : Bytes} {entries : Document} (hname : ∀ e ∈ entries, e.section_ = name)
    (hwell : ∀ e ∈ entries, WellFormed cap e) (hdistinct : ((d ++ entries).map Entry.name).Nodup)
    (hcount : (d ++ entries).length ≤ cap.maxEntries) :
    Gives cap number ⟨d, name⟩ (entriesText entries ++ text) out ↔ ∃ entries',
      List.Forall₂ Reread entries entries' ∧ Gives cap (number + entries.length) ⟨d ++ entries', name⟩ text out := by
  induction entries generalizing d number with
  | nil =>
    simp only [List.forall₂_nil_left_iff, exists_eq_left, List.append_nil]
    exact Iff.rfl
  | cons e entries ih =>
    rw [List.forall_mem_cons] at hname hwell
    obtain ⟨rfl, hname⟩ := hname
    have hfresh : e.name ∉ d.map Entry.name := by
      rw [List.map_append, List.map_cons, List.nodup_middle, List.nodup_cons,
        ← List.map_append] at hdistinct
      rw [List.map_append, List.mem_append, not_or] at hdistinct
      exact hdistinct.1.1
    have hroom : d.length ≠ cap.maxEntries := by
      rw [List.length_append, List.length_cons] at hcount
      omega
    have hrest := fun value => @ih (number + 1) (d ++ [{ e with value := value }]) hname hwell.2 (by
      rw [List.append_cons, List.map_append, List.map_append] at hdistinct
      rw [List.map_append, List.map_append]
      exact hdistinct) (by
        rw [List.append_cons, List.length_append, List.length_append] at hcount
        rw [List.length_append, List.length_append]
        exact hcount)
    rw [entriesText, List.flatMap_cons, ← entriesText, List.append_assoc, List.append_assoc]
    refine (gives_entry hwell.1 hfresh).trans ⟨?_, ?_⟩
    · rintro ⟨value, hvalue, -, h⟩
      obtain ⟨entries', hreread, h⟩ := (hrest value).mp h
      refine ⟨{ e with value := value } :: entries',
        .cons ⟨rfl, (decodeValue_iff _ _ hwell.1.fits).mp hvalue⟩ hreread, ?_⟩
      rw [List.append_cons, List.length_cons, Nat.add_comm entries.length, ← Nat.add_assoc]
      exact h
    · rintro ⟨entries', hreread, h⟩
      cases hreread with
      | @cons _ e' _ more hfirst hreread =>
        have hsame : e' = { e with value := e'.value } := by
          obtain ⟨section_, key, value⟩ := e'
          cases hfirst.1
          rfl
        refine ⟨e'.value, (decodeValue_iff _ _ hwell.1.fits).mpr hfirst.2, hroom, ?_⟩
        refine (hrest e'.value).mpr ⟨more, hreread, ?_⟩
        rw [← hsame, ← List.append_cons, Nat.add_assoc, Nat.add_comm 1]
        exact h

theorem ofSection_name {name : Bytes} : ∀ e ∈ ofSection d name, e.section_ = name :=
  fun _ he => of_decide_eq_true (List.mem_filter.mp he).2

theorem gives_sections {all : Document} (hnames : ∀ name ∈ names, SectionName cap name)
    (hwell : ∀ e ∈ all, WellFormed cap e) {name : Bytes}
    (hdistinct : ((d ++ names.flatMap (ofSection all)).map Entry.name).Nodup)
    (hcount : (d ++ names.flatMap (ofSection all)).length ≤ cap.maxEntries) :
    Gives cap number ⟨d, name⟩ (names.flatMap (sectionText all)) out ↔
      ∃ entries', List.Forall₂ Reread (names.flatMap (ofSection all)) entries' ∧ out = d ++ entries' := by
  induction names generalizing d number name with
  | nil =>
    simp only [List.flatMap_nil, List.forall₂_nil_left_iff, exists_eq_left, List.append_nil]
    exact gives_nil.trans eq_comm
  | cons first names ih =>
    rw [List.forall_mem_cons] at hnames
    rw [List.flatMap_cons, ← List.append_assoc] at hdistinct hcount
    rw [List.flatMap_cons, List.flatMap_cons, sectionText, List.append_assoc, List.cons_append, List.append_assoc]
    have hfront : ((d ++ ofSection all first).map Entry.name).Nodup := by
      rw [List.map_append] at hdistinct
      exact (List.nodup_append.mp hdistinct).1
    have hfits : (d ++ ofSection all first).length ≤ cap.maxEntries := by
      rw [List.length_append] at hcount
      omega
    refine (gives_header hnames.1).trans ((gives_entries ofSection_name
      (fun e he => hwell e (List.mem_of_mem_filter he)) hfront hfits).trans ?_)
    have hrest : ∀ block, List.Forall₂ Reread (ofSection all first) block →
        (Gives cap (number + 1 + (ofSection all first).length) ⟨d ++ block, first⟩
            ([lineFeed] ++ names.flatMap (sectionText all)) out ↔
          ∃ entries', List.Forall₂ Reread (names.flatMap (ofSection all)) entries' ∧ out = d ++ block ++ entries') := by
      intro block hblock
      refine gives_blank.trans (ih hnames.2 ?_ ?_)
      · rw [List.map_append, List.map_append] at hdistinct
        rw [List.map_append, List.map_append, rereads_names hblock]
        exact hdistinct
      · rw [List.length_append, List.length_append] at hcount
        rw [List.length_append, List.length_append, ← hblock.length_eq]
        exact hcount
    constructor
    · rintro ⟨block, hblock, h⟩
      obtain ⟨rest, hreread, hout⟩ := (hrest block hblock).mp h
      exact ⟨block ++ rest, List.rel_append hblock hreread, by rw [hout, List.append_assoc]⟩
    · rintro ⟨entries', hreread, rfl⟩
      obtain ⟨block, rest, hblock, hmore, rfl⟩ := rereads_append hreread
      exact ⟨block, hblock, (hrest block hblock).mpr ⟨rest, hmore, (List.append_assoc _ _ _).symm⟩⟩

theorem globals_filter (d : Document) :
    (sectionNames d).filter (· = []) = if d.any (·.section_ = []) then [[]] else [] := by
  have hany : d.any (·.section_ = []) = true ↔ [] ∈ sectionNames d := by
    rw [List.any_eq_true, mem_sectionNames]
    simp only [decide_eq_true_eq]
  rw [List.filter_eq]
  by_cases hmem : [] ∈ sectionNames d
  · rw [if_pos (hany.mpr hmem), List.count_eq_one_of_mem (show (sectionNames d).Nodup from nodup_eraseDups _) hmem]
    rfl
  · rw [if_neg fun h => hmem (hany.mp h), List.count_eq_zero_of_not_mem hmem]
    rfl

theorem grouped_eq (d : Document) :
    grouped d = ofSection d [] ++ (namedSections d).flatMap (ofSection d) := by
  rw [grouped, writtenOrder, globals_filter, List.flatMap_append, namedSections]
  split_ifs with hany
  · rw [List.flatMap_singleton]
  · have hnone : ofSection d [] = [] := by
      rw [ofSection, List.filter_eq_nil_iff]
      exact fun e he hglobal => hany (List.any_eq_true.mpr ⟨e, he, hglobal⟩)
    rw [hnone]
    rfl

theorem mem_grouped {e : Entry} : e ∈ grouped d ↔ e ∈ d := by
  rw [grouped, List.mem_flatMap]
  constructor
  · rintro ⟨name, -, he⟩
    exact List.mem_of_mem_filter he
  · exact fun he => ⟨e.section_, mem_writtenOrder.mpr ⟨e, he, rfl⟩, List.mem_filter.mpr ⟨he, decide_eq_true rfl⟩⟩

theorem grouped_perm (hd : Writable cap d) : (grouped d).Perm d := by
  have hnodup : d.Nodup := hd.distinct.of_map
  refine (List.perm_ext_iff_of_nodup ?_ hnodup).mpr fun e => mem_grouped
  refine List.nodup_flatMap.mpr ⟨fun name _ => hnodup.filter _, (nodup_writtenOrder d).imp ?_⟩
  intro a b hne e ha hb
  exact hne ((ofSection_name e ha).symm.trans (ofSection_name e hb))

theorem writable_grouped (hd : Writable cap d) : Writable cap (grouped d) := by
  have hperm := grouped_perm hd
  exact ⟨fun e he => hd.entries e (mem_grouped.mp he), (hperm.map _).nodup_iff.mpr hd.distinct,
    hperm.length_eq.trans_le hd.count⟩

theorem namedSections_name (hd : Writable cap d) : ∀ name ∈ namedSections d, SectionName cap name := by
  intro name hname
  rw [namedSections, List.mem_filter, mem_sectionNames, decide_eq_true_eq] at hname
  obtain ⟨⟨e, he, rfl⟩, hne⟩ := hname
  exact (hd.entries e he).name.resolve_left hne

theorem parse_documentText (hd : Writable cap d) :
    parse cap (documentText d) = .ok out ↔ List.Forall₂ Reread (grouped d) out := by
  have hdistinct := (writable_grouped hd).distinct
  have hcount := (writable_grouped hd).count
  rw [grouped_eq] at hdistinct hcount ⊢
  have hfront : (([] ++ ofSection d []).map Entry.name).Nodup := by
    rw [List.nil_append]
    exact hd.distinct.sublist (List.filter_sublist.map _)
  have hfits : ([] ++ ofSection d []).length ≤ cap.maxEntries := by
    rw [List.length_append] at hcount
    rw [List.nil_append]
    omega
  refine parse_eq_ok.trans ((gives_entries ofSection_name
    (fun e he => hd.entries e (List.mem_of_mem_filter he)) hfront hfits).trans ?_)
  have hrest : ∀ number front, List.Forall₂ Reread (ofSection d []) front →
      (Gives cap number ⟨[] ++ front, []⟩ ((if d.any (·.section_ = []) then [lineFeed] else []) ++
          (namedSections d).flatMap (sectionText d)) out ↔
        ∃ entries', List.Forall₂ Reread ((namedSections d).flatMap (ofSection d)) entries' ∧ out = front ++ entries') := by
    intro number front hfirst
    have hsections := fun number => @gives_sections cap (namedSections d) number out front d
      (namedSections_name hd) hd.entries [] (by
        rw [List.map_append, rereads_names hfirst, ← List.map_append]
        exact hdistinct) (by
          rw [List.length_append] at hcount ⊢
          rw [← hfirst.length_eq]
          exact hcount)
    split
    · exact gives_blank.trans (hsections _)
    · exact hsections _
  constructor
  · rintro ⟨front, hfirst, h⟩
    obtain ⟨rest, hreread, rfl⟩ := (hrest _ front hfirst).mp h
    exact List.rel_append hfirst hreread
  · intro hreread
    obtain ⟨front, rest, hfirst, hmore, rfl⟩ := rereads_append hreread
    exact ⟨front, hfirst, (hrest _ _ hfirst).mpr ⟨rest, hmore, rfl⟩⟩

/-- What is written for a document is parsed into a document with the same content. -/
def RoundTrips (cap : Capacity) (d : Document) : Prop :=
  ∃ size, ∀ maxOutput, size ≤ maxOutput → ∃ text d', serialize maxOutput d = .ok text ∧
    parse cap text = .ok d' ∧ SameContent d d'

/-- A source that is accepted is read again after it was written, exactly if no value that lasts
begins with an apostrophe and is written without quotes. -/
theorem readsBack_iff (cap : Capacity) (source : Bytes) (d : Document) (h : parse cap source = .ok d) :
    RoundTrips cap d ↔ ∀ e, Lasting (assignments cap source) e → ¬Misread e.value := by
  obtain ⟨hd, hlasting⟩ := parse_sound h
  simp only [← hlasting]
  constructor
  · rintro ⟨size, hsize⟩ e he hmisread
    obtain ⟨text, d', hwrite, hread, hsame, -⟩ :=
      hsize (max size (documentText d).length) (Nat.le_max_left _ _)
    rw [serialize_eq d (Nat.le_max_right _ _)] at hwrite
    cases hwrite
    -- the entry that is read for `e` is an entry of `d` with its name
    obtain ⟨e', he', hname, hvalue⟩ : ∃ e' ∈ d', e'.name = e.name ∧ e'.value ≠ e.value := by
      obtain ⟨e', he', hreread⟩ := reread_of_mem ((parse_documentText hd).mp hread) (mem_grouped.mpr he)
      exact ⟨e', he', hreread.1, fun heq => rereadValue_ne hmisread (hreread.2.trans (congrArg some heq))⟩
    have hin : e' ∈ d := by
      have hfilter : e' ∈ ofSection d' e'.section_ := List.mem_filter.mpr ⟨he', decide_eq_true rfl⟩
      rw [hsame] at hfilter
      exact List.mem_of_mem_filter hfilter
    have heq : e' = e := List.inj_on_of_nodup_map hd.distinct hin he hname
    exact hvalue (by rw [heq])
  · intro hgood
    have hsame : List.Forall₂ Reread (grouped d) (grouped d) :=
      List.forall₂_same.mpr fun e he => ⟨rfl, if_neg (hgood e (mem_grouped.mp he))⟩
    exact ⟨_, fun maxOutput hroom =>
      ⟨_, _, serialize_eq d hroom, (parse_documentText hd).mpr hsame, sameContent_grouped d⟩⟩

/-- Room for two entries of eight characters. -/
def smallCapacity : Capacity := ⟨2, 8, 8, 8⟩

/-- `k=v` -/
theorem readsBack_pair : RoundTrips smallCapacity [⟨[], [0x6b], [0x76]⟩] ↔
    ∀ e, Lasting (assignments smallCapacity [0x6b, 0x3d, 0x76]) e → ¬Misread e.value :=
  readsBack_iff smallCapacity [0x6b, 0x3d, 0x76] _ (by decide)

/-- `k="'a"` -/
theorem apostrophe_misread : parse smallCapacity [0x6b, 0x3d, 0x22, 0x27, 0x61, 0x22] =
      .ok [⟨[], [0x6b], [0x27, 0x61]⟩] ∧ ¬RoundTrips smallCapacity [⟨[], [0x6b], [0x27, 0x61]⟩] := by
  have hparse : parse smallCapacity [0x6b, 0x3d, 0x22, 0x27, 0x61, 0x22] = .ok [⟨[], [0x6b], [0x27, 0x61]⟩] := by decide
  refine ⟨hparse, fun ⟨size, hsize⟩ => ?_⟩
  obtain ⟨text, d', hwrite, hread, -⟩ := hsize _ (Nat.le_max_left size 20)
  rw [serialize_eq _ (le_trans (by decide) (Nat.le_max_right size 20))] at hwrite
  cases hwrite
  have hfail : parse smallCapacity (documentText [⟨[], [0x6b], [0x27, 0x61]⟩]) =
      .error { status := .invalidArgument, code := .invalidQuote, line := 1, column := 4 } := by decide
  rw [hfail] at hread
  cases hread

end Castle.Serialization.Ini

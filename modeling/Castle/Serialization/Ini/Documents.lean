import Mathlib.Data.List.Nodup
import Castle.Serialization.Ini.Values

/-!
# Lines as they are read and written

The names of a document that was parsed are such that the lines written for them are read again.
-/

namespace Castle.Serialization.Ini

variable {cap : Capacity}

theorem splitLines_line {line : Bytes} (hline : ∀ c ∈ line, isLineEnd c = false) (text : Bytes) :
    splitLines (line ++ lineFeed :: text) = line :: if text.isEmpty then [] else splitLines text := by
  induction line with
  | nil =>
    rw [List.nil_append, splitLines, if_neg (by simp [lineFeed, carriageReturn]), if_pos (by decide)]
  | cons c line ih =>
    have hc := hline c List.mem_cons_self
    have hcr : c ≠ carriageReturn := by
      rintro rfl
      cases hc
    rw [List.cons_append, splitLines, if_neg (by simp [hcr]),
      if_neg (by rw [hc]; exact Bool.false_ne_true),
      ih fun b hb => hline b (List.mem_cons_of_mem _ hb)]

theorem splitLines_lineEnd {text line : Bytes} (h : line ∈ splitLines text) :
    ∀ c ∈ line, isLineEnd c = false := by
  induction text generalizing line with
  | nil =>
    rw [List.mem_singleton.mp h]
    exact fun c hc => nomatch hc
  | cons c text ih =>
    rw [splitLines] at h
    split at h
    · exact ih h
    split at h
    · rcases List.mem_cons.mp h with rfl | h
      · exact fun b hb => nomatch hb
      · split at h
        · cases h
        · exact ih h
    next hend =>
      rw [Bool.not_eq_true] at hend
      cases hlines : splitLines text with
      | nil =>
        rw [hlines] at h
        rw [List.mem_singleton.mp h]
        rintro b (_ | ⟨_, hb⟩)
        · exact hend
        · cases hb
      | cons first lines =>
        rw [hlines] at h ih
        rcases List.mem_cons.mp h with rfl | h
        · rintro b (_ | ⟨_, hb⟩)
          · exact hend
          · exact ih List.mem_cons_self b hb
        · exact ih (List.mem_cons_of_mem _ h)

/-- A section as a header gives it. -/
structure SectionName (cap : Capacity) (name : Bytes) : Prop where
  trimmed : Trimmed name
  valid : validSectionName name = true
  fits : name.length ≤ cap.maxSectionLength

structure KeyName (cap : Capacity) (key : Bytes) : Prop where
  trimmed : Trimmed key
  valid : validKeyName key = true
  fits : key.length ≤ cap.maxKeyLength
  noComment : startsWithComment key = false

structure WellFormed (cap : Capacity) (e : Entry) : Prop where
  name : e.section_ = [] ∨ SectionName cap e.section_
  key : KeyName cap e.key
  fits : e.value.length ≤ cap.maxValueLength

theorem SectionName.lineEnd {name : Bytes} (h : SectionName cap name) :
    ∀ c ∈ name, c ≠ closeBracket ∧ isLineEnd c = false := by
  intro c hc
  have hvalid := List.all_eq_true.mp h.valid c hc
  simp only [Bool.not_eq_true', Bool.or_eq_false_iff, decide_eq_false_iff_not] at hvalid
  exact ⟨hvalid.1.1.2, hvalid.1.2⟩

theorem KeyName.chars {key : Bytes} (h : KeyName cap key) :
    ∀ c ∈ key, c ≠ equalsSign ∧ c ≠ colon ∧ c ≠ openBracket ∧ isLineEnd c = false := by
  intro c hc
  have hvalid := h.valid
  rw [validKeyName, Bool.and_eq_true] at hvalid
  have hchar := List.all_eq_true.mp hvalid.2 c hc
  simp only [Bool.not_eq_true', Bool.or_eq_false_iff, decide_eq_false_iff_not] at hchar
  exact ⟨hchar.1.1.1.1.1, hchar.1.1.1.1.2, hchar.1.1.1.2, hchar.1.2⟩

def headerText (name : Bytes) : Bytes := openBracket :: (name ++ [closeBracket])

def entryText (e : Entry) : Bytes := e.key ++ [space, equalsSign, space] ++ valueText e.value

theorem valueText_lineEnd (value : Bytes) : ∀ c ∈ valueText value, isLineEnd c = false := by
  intro c hc
  rw [valueText] at hc
  split at hc
  · rcases List.mem_cons.mp hc with rfl | hc
    · decide
    · rcases List.mem_append.mp hc with hc | hc
      · obtain ⟨b, -, hb⟩ := List.mem_flatMap.mp hc
        rw [escapeChar] at hb
        split_ifs at hb with h₁ h₂ h₃ h₄ h₅
        all_goals
          simp only [List.mem_cons, List.not_mem_nil, or_false] at hb
        · rcases hb with rfl | rfl <;> decide
        · rcases hb with rfl | rfl <;> decide
        · rcases hb with rfl | rfl <;> decide
        · rcases hb with rfl | rfl <;> decide
        · rcases hb with rfl | rfl <;> decide
        · simp [isLineEnd, hb, h₃, h₄]
      · rw [List.mem_singleton.mp hc]
        decide
  next hplain =>
    rw [Bool.not_eq_true] at hplain
    exact (of_not_special (isSpecial_of hplain c hc)).2.1

theorem entryText_lineEnd {e : Entry} (he : WellFormed cap e) :
    ∀ c ∈ entryText e, isLineEnd c = false := by
  intro c hc
  rw [entryText, List.append_assoc] at hc
  rcases List.mem_append.mp hc with hc | hc
  · exact (he.key.chars c hc).2.2.2
  · rcases List.mem_append.mp hc with hc | hc
    · simp only [List.mem_cons, List.not_mem_nil, or_false] at hc
      rcases hc with rfl | rfl | rfl
      all_goals decide
    · exact valueText_lineEnd e.value c hc

theorem findIdx?_first {p : UInt8 → Bool} {front : Bytes} (hfront : ∀ c ∈ front, p c = false) {c : UInt8}
    (hc : p c = true) (back : Bytes) : (front ++ c :: back).findIdx? p = some front.length := by
  rw [List.findIdx?_append, List.findIdx?_eq_none_iff.mpr hfront, List.findIdx?_cons, if_pos hc]
  simp

theorem readLine_empty (number : ℕ) : readLine cap number [] = .ok .blank := rfl

theorem readLine_headerText {name : Bytes} (h : SectionName cap name) (number : ℕ) :
    readLine cap number (headerText name) = .ok (.header name) := by
  have htrim : trim (headerText name) = headerText name := by
    apply Trimmed.trim_eq
    refine ⟨List.cons_ne_nil _ _, ?_, ?_⟩
    · rintro c ⟨⟩
      decide
    · intro c hc
      rw [headerText, ← List.cons_append, List.getLast?_concat] at hc
      cases hc
      decide
  have hclose : (headerText name).findIdx? (· = closeBracket) = some (name.length + 1) := by
    rw [headerText, ← List.cons_append]
    refine @findIdx?_first (fun c => decide (c = closeBracket)) _ (fun c hc => decide_eq_false ?_) closeBracket
      (decide_eq_true rfl) []
    rcases List.mem_cons.mp hc with rfl | hc
    · decide
    · exact (h.lineEnd c hc).1
  have hdrop : (headerText name).drop (name.length + 1 + 1) = [] := by
    rw [headerText, List.drop_eq_nil_iff, List.length_cons, List.length_append, List.length_singleton]
  have hname : ((headerText name).drop 1).take (name.length + 1 - 1) = name := by
    rw [headerText, List.drop_one, List.tail_cons, Nat.add_sub_cancel, List.take_left]
  rw [readLine, htrim, if_neg (by simp [headerText, startsWithComment, openBracket, hash, semicolon]),
    if_pos (show (headerText name).head? = some openBracket from rfl), readHeader, hclose]
  dsimp only
  rw [hdrop, hname, h.trimmed.trim_eq, if_neg (by decide), if_neg]
  have hne : name.isEmpty = false := by
    simpa using h.trimmed.nonempty
  simp [hne, h.valid, h.fits]

theorem readLine_entryText {e : Entry} (h : WellFormed cap e) (number : ℕ) : readLine cap number
    (entryText e) = decodeValue cap.maxValueLength (space :: valueText e.value) number
    (e.key.length + 3) >>= fun value => .ok (.assignment e.key value (e.key.length + 1)) := by
  have hkey := h.key
  have hne : e.key ≠ [] := hkey.trimmed.nonempty
  have hhead : ∀ rest : Bytes, (e.key ++ rest).head? = e.key.head? :=
    fun rest => List.head?_append_of_ne_nil _ hne
  have htext : entryText e = (e.key ++ [space]) ++ equalsSign :: (space :: valueText e.value) := by
    rw [entryText, List.append_assoc, List.append_assoc]
    rfl
  have htrim : trim (entryText e) = entryText e := by
    apply Trimmed.trim_eq
    refine ⟨?_, fun c hc => ?_, fun c hc => ?_⟩
    · rw [htext]
      exact List.append_ne_nil_of_right_ne_nil _ (List.cons_ne_nil _ _)
    · rw [entryText, List.append_assoc, hhead] at hc
      exact hkey.trimmed.first c hc
    · rw [entryText, List.getLast?_append_of_ne_nil _ (trimmed_valueText e.value).nonempty] at hc
      exact (trimmed_valueText e.value).last c hc
  have hseparator : findSeparator (entryText e) = some (e.key.length + 1) := by
    have hlen : e.key.length + 1 = (e.key ++ [space]).length := by
      rw [List.length_append, List.length_singleton]
    rw [findSeparator, htext, hlen]
    refine findIdx?_first (fun c hc => ?_) (by decide) _
    rcases List.mem_append.mp hc with hc | hc
    · simp [(hkey.chars c hc).1, (hkey.chars c hc).2.1]
    · rw [List.mem_singleton.mp hc]
      decide
  have htake : (entryText e).take (e.key.length + 1) = e.key ++ [space] := by
    rw [htext, List.take_left' (by rw [List.length_append, List.length_singleton])]
  have hdrop : (entryText e).drop (e.key.length + 1 + 1) = space :: valueText e.value := by
    rw [htext, ← List.drop_drop, List.drop_left' (by rw [List.length_append, List.length_singleton])]
    rfl
  have hcomment : (trim (entryText e)).isEmpty = false ∧ startsWithComment (trim (entryText e)) = false ∧
      (trim (entryText e)).head? ≠ some openBracket := by
    have hhead' : (entryText e).head? = e.key.head? := by rw [entryText, List.append_assoc, hhead]
    rw [htrim, startsWithComment, hhead', ← startsWithComment]
    refine ⟨?_, hkey.noComment, fun hopen => (hkey.chars _ (List.mem_of_mem_head? hopen)).2.2.1 rfl⟩
    rw [htext]
    simp
  rw [readLine, hcomment.1, hcomment.2.1, if_neg (by decide), if_neg hcomment.2.2, htrim,
    readAssignment, hseparator]
  dsimp only
  rw [htake, hkey.trimmed.trim_concat, if_neg (by simp [hkey.valid, hkey.fits]), hdrop]

theorem startsWithComment_of_front {front text : Bytes} (h : front <+: text) (hne : front ≠ []) :
    startsWithComment front = startsWithComment text := by
  obtain ⟨more, rfl⟩ := h
  rw [startsWithComment, startsWithComment, List.head?_append_of_ne_nil _ hne]

theorem trim_front {text : Bytes} (h : ∀ c ∈ text.head?, isSpace c = false) : trim text <+: text := by
  rw [trim, dropWhile_of_first h]
  exact (List.rdropWhile_prefix _ _).trans (List.rdropWhile_prefix _ _)

theorem readLine_sound {number : ℕ} {line : Bytes} (hline : ∀ c ∈ line, isLineEnd c = false)
    {read : Line} (h : readLine cap number line = .ok read) :
    (∀ name, read = .header name → SectionName cap name) ∧ ∀ key value separator, read =
    .assignment key value separator → KeyName cap key ∧ value.length ≤ cap.maxValueLength := by
  rw [readLine] at h
  split at h
  · cases h
    exact ⟨fun name hname => (nomatch hname), fun key value separator hassign => (nomatch hassign)⟩
  next hsome =>
    rw [Bool.or_eq_true, not_or, Bool.not_eq_true, Bool.not_eq_true] at hsome
    have htrimmed := trimmed_trim hline (by simpa using hsome.1)
    have hsub : ∀ {part : Bytes}, part.Sublist (trim line) → ∀ c ∈ part, isLineEnd c = false :=
      fun hpart c hc => hline c ((hpart.trans ((List.rdropWhile_prefix _ _).sublist.trans
        ((List.rdropWhile_prefix _ _).sublist.trans (List.dropWhile_sublist _)))).subset hc)
    generalize trim line = trimmed at *
    split at h
    · rw [readHeader] at h
      split at h
      · cases h
      · dsimp only at h
        split_ifs at h with hsuffix hname
        cases h
        refine ⟨?_, fun key value separator hassign => (nomatch hassign)⟩
        rintro name ⟨⟩
        simp only [Bool.or_eq_true, Bool.not_eq_true', decide_eq_true_eq, not_or, Bool.not_eq_true,
          Bool.not_eq_false, Nat.not_lt, gt_iff_lt] at hname
        refine ⟨trimmed_trim (hsub ((List.take_sublist _ _).trans (List.drop_sublist _ _))) ?_, hname.1.2, hname.2⟩
        simpa using hname.1.1
    · rw [readAssignment] at h
      split at h
      · cases h
      next separator hseparator =>
        dsimp only at h
        split at h
        · cases h
        next hkey =>
          cases hvalue : decodeValue cap.maxValueLength (trimmed.drop (separator + 1)) number (separator + 2) with
          | error result =>
            rw [hvalue] at h
            cases h
          | ok value =>
            rw [hvalue] at h
            cases h
            refine ⟨fun name hname => (nomatch hname), ?_⟩
            rintro key value' separator' ⟨⟩
            refine ⟨?_, decodeValue_fits hvalue⟩
            rw [Bool.or_eq_true, not_or, decide_eq_true_eq, Nat.not_lt, Bool.not_eq_true',
              Bool.not_eq_false] at hkey
            have hne : trim (trimmed.take separator) ≠ [] := by
              intro hempty
              rw [hempty] at hkey
              cases hkey.1
            have hfirst : ∀ c ∈ (trimmed.take separator).head?, isSpace c = false := by
              intro c hc
              cases trimmed with
              | nil => cases separator <;> cases hc
              | cons b trimmed =>
                cases separator with
                | zero => cases hc
                | succ separator => exact htrimmed.first c hc
            refine ⟨trimmed_trim (hsub (List.take_sublist _ _)) hne, hkey.1, hkey.2, ?_⟩
            rw [startsWithComment_of_front ((trim_front hfirst).trans (List.take_prefix _ _)) hne]
            exact hsome.2

end Castle.Serialization.Ini

/-!
## Documents as they are parsed

A document that is parsed has names that can be written, no name twice, and under each name the
value that was assigned last.
-/

namespace Castle.Serialization.Ini

variable {cap : Capacity} {d d' : Document} {number : ℕ} {s s' : State}

def Entry.name (e : Entry) : Bytes × Bytes := (e.section_, e.key)

theorem findIndex_eq_none {name key : Bytes} (h : (name, key) ∉ d.map Entry.name) :
    Document.findIndex d name key = none := by
  rw [Document.findIndex, List.findIdx?_eq_none_iff]
  intro e he
  rw [Bool.and_eq_false_iff, decide_eq_false_iff_not, decide_eq_false_iff_not, ← not_and_or]
  rintro ⟨rfl, rfl⟩
  exact h (List.mem_map_of_mem he)

/-- What `set` checks of an entry. -/
structure Accepted (cap : Capacity) (e : Entry) : Prop where
  section_ : validSectionName e.section_ = true ∧ e.section_.length ≤ cap.maxSectionLength
  key : validKeyName e.key = true ∧ e.key.length ≤ cap.maxKeyLength
  value : e.value.length ≤ cap.maxValueLength

theorem WellFormed.accepted {e : Entry} (he : WellFormed cap e) : Accepted cap e := by
  refine ⟨?_, ⟨he.key.valid, he.key.fits⟩, he.fits⟩
  rcases he.name with hname | hname
  · rw [hname]
    exact ⟨rfl, Nat.zero_le _⟩
  · exact ⟨hname.valid, hname.fits⟩

theorem setEntry_fresh {e : Entry} (he : Accepted cap e) (hfresh : e.name ∉ d.map Entry.name) :
    Document.setEntry cap d e.section_ e.key e.value =
      if d.length = cap.maxEntries then .error .full else .ok (d ++ [e]) := by
  rw [Document.setEntry, he.section_.1, he.key.1, if_neg (by decide), if_neg (by decide),
    if_neg (by simp [he.section_.2, he.key.2]), if_neg (Nat.not_lt.mpr he.value), findIndex_eq_none hfresh]

theorem accepted_of_setEntry {e : Entry}
    (h : Document.setEntry cap d e.section_ e.key e.value = .ok d') : Accepted cap e := by
  rw [Document.setEntry] at h
  split at h
  · cases h
  next hsection =>
  split at h
  · cases h
  next hkey =>
  split at h
  · cases h
  next hlong =>
  split at h
  · cases h
  next hvalue =>
  rw [Bool.not_eq_true', Bool.not_eq_false] at hsection hkey
  rw [Bool.or_eq_true, decide_eq_true_eq, decide_eq_true_eq, not_or, Nat.not_lt, Nat.not_lt] at hlong
  exact ⟨⟨hsection, hlong.1⟩, ⟨hkey, hlong.2⟩, Nat.not_lt.mp hvalue⟩

/-- A document that can be written. -/
structure Writable (cap : Capacity) (d : Document) : Prop where
  entries : ∀ e ∈ d, WellFormed cap e
  distinct : (d.map Entry.name).Nodup
  count : d.length ≤ cap.maxEntries

theorem setEntry_distinct {e : Entry} (hdistinct : (d.map Entry.name).Nodup) (hcount : d.length ≤ cap.maxEntries)
    (h : Document.setEntry cap d e.section_ e.key e.value = .ok d') :
    (d'.map Entry.name).Nodup ∧ d'.length ≤ cap.maxEntries ∧ ∀ e', e' ∈ d' ↔ e' = e ∨ e' ∈ d ∧ e'.name ≠ e.name := by
  by_cases hmem : e.name ∈ d.map Entry.name
  · obtain ⟨i, hi⟩ : ∃ i, Document.findIndex d e.section_ e.key = some i := by
      rw [← Option.isSome_iff_exists, Document.findIndex, List.findIdx?_isSome, List.any_eq_true]
      obtain ⟨e', he', hname⟩ := List.mem_map.mp hmem
      exact ⟨e', he', by simpa [Entry.name] using hname⟩
    obtain ⟨hlt, hat⟩ := List.findIdx?_eq_some_iff_getElem.mp hi
    have hname : d[i].name = e.name := by simpa [Entry.name] using hat.1
    have hd' : d' = d.set i e := by
      rw [Document.setEntry, hi] at h
      dsimp only at h
      split_ifs at h
      cases h
      rfl
    have hcut : d = d.take i ++ d[i] :: d.drop (i + 1) := by
      rw [← List.drop_eq_getElem_cons hlt, List.take_append_drop]
    have hset : d' = d.take i ++ e :: d.drop (i + 1) := by
      rw [hd', List.set_eq_take_append_cons_drop, if_pos hlt]
    clear hd' hi hat
    generalize d.take i = front at hcut hset
    generalize d.drop (i + 1) = back at hcut hset
    generalize d[i] = old at hcut hname
    subst hcut hset
    have hnames : (front ++ e :: back).map Entry.name = (front ++ old :: back).map Entry.name := by
      rw [List.map_append, List.map_append, List.map_cons, List.map_cons, hname]
    rw [List.length_append, List.length_cons] at hcount
    have hother : ∀ e' ∈ front ++ back, e'.name ≠ e.name := by
      intro e' he' heq
      rw [List.map_append, List.map_cons, List.nodup_middle, List.nodup_cons, hname,
        ← List.map_append] at hdistinct
      exact hdistinct.1 (heq ▸ List.mem_map_of_mem he')
    refine ⟨hnames ▸ hdistinct, ?_, fun e' => ?_⟩
    · rw [List.length_append, List.length_cons]
      exact hcount
    · have hkeep : e' ∈ front ++ back ↔ e' ∈ front ++ old :: back ∧ e'.name ≠ e.name := by
        constructor
        · intro he'
          refine ⟨?_, hother e' he'⟩
          rcases List.mem_append.mp he' with he' | he'
          · exact List.mem_append_left _ he'
          · exact List.mem_append_right _ (List.mem_cons_of_mem _ he')
        · rintro ⟨he', hne⟩
          rcases List.mem_append.mp he' with he' | he'
          · exact List.mem_append_left _ he'
          · rcases List.mem_cons.mp he' with rfl | he'
            · exact absurd hname hne
            · exact List.mem_append_right _ he'
      rw [← hkeep, List.mem_append, List.mem_append, List.mem_cons]
      exact or_left_comm
  · rw [setEntry_fresh (accepted_of_setEntry h) hmem] at h
    split_ifs at h with hfull
    cases h
    refine ⟨?_, ?_, fun e' => ?_⟩
    · rw [List.map_append, List.nodup_append]
      refine ⟨hdistinct, List.nodup_singleton _, ?_⟩
      rintro a ha b hb rfl
      rw [List.map_singleton, List.mem_singleton] at hb
      exact hmem (hb ▸ ha)
    · rw [List.length_append, List.length_singleton]
      omega
    · rw [List.mem_append, List.mem_singleton, or_comm]
      refine or_congr_right (and_iff_left_of_imp fun he' hname => hmem ?_).symm
      rw [← hname]
      exact List.mem_map_of_mem he'

theorem setEntry_writable {e : Entry} (he : WellFormed cap e) (hd : Writable cap d)
    (h : Document.setEntry cap d e.section_ e.key e.value = .ok d') :
    Writable cap d' ∧ ∀ e', e' ∈ d' ↔ e' = e ∨ e' ∈ d ∧ e'.name ≠ e.name := by
  obtain ⟨hdistinct, hcount, hmem⟩ := setEntry_distinct hd.distinct hd.count h
  refine ⟨⟨fun e' he' => ?_, hdistinct, hcount⟩, hmem⟩
  rcases (hmem e').mp he' with rfl | ⟨he', -⟩
  · exact he
  · exact hd.entries e' he'

/-- The assignments of some lines, in their order. -/
def assignmentsFrom (cap : Capacity) : ℕ → Bytes → List Bytes → Document
  | _, _, [] => []
  | number, name, line :: lines =>
    match readLine cap number line with
    | .ok (.header name) => assignmentsFrom cap (number + 1) name lines
    | .ok (.assignment key value _) => ⟨name, key, value⟩ :: assignmentsFrom cap (number + 1) name lines
    | .ok .blank | .error _ => assignmentsFrom cap (number + 1) name lines

def assignments (cap : Capacity) (source : Bytes) : Document := assignmentsFrom cap 1 []
    (splitLines source)

/-- The last assignment to a name. -/
def Lasting (all : Document) (e : Entry) : Prop :=
  ∃ before after, all = before ++ e :: after ∧ ∀ e' ∈ after, e'.name ≠ e.name

theorem lasting_snoc {all : Document} {a e : Entry} :
    Lasting (all ++ [a]) e ↔ e = a ∨ Lasting all e ∧ e.name ≠ a.name := by
  constructor
  · rintro ⟨before, after, hcut, hlast⟩
    rcases List.eq_nil_or_concat after with rfl | ⟨more, b, rfl⟩
    · obtain ⟨-, heq⟩ := List.append_inj' hcut rfl
      cases heq
      exact .inl rfl
    · rw [List.concat_eq_append, ← List.cons_append, ← List.append_assoc] at hcut
      obtain ⟨hall, heq⟩ := List.append_inj' hcut rfl
      cases heq
      refine .inr ⟨⟨before, more, hall, fun e' he' => hlast e' ?_⟩, fun hname => hlast a ?_ hname.symm⟩
      · rw [List.concat_eq_append]
        exact List.mem_append_left _ he'
      · rw [List.concat_eq_append]
        exact List.mem_append_right _ (List.mem_singleton_self a)
  · rintro (rfl | ⟨⟨before, after, rfl, hlast⟩, hname⟩)
    · exact ⟨all, [], rfl, fun e' he' => nomatch he'⟩
    · refine ⟨before, after ++ [a], by rw [List.append_assoc]; rfl, fun e' he' => ?_⟩
      rcases List.mem_append.mp he' with he' | he'
      · exact hlast e' he'
      · rw [List.mem_singleton.mp he']
        exact hname.symm

/-- A state that lines lead to, with what they assigned. -/
structure Reached (cap : Capacity) (s : State) (all : Document) : Prop where
  writable : Writable cap s.output
  lasting : ∀ e, e ∈ s.output ↔ Lasting all e
  name : s.currentSection = [] ∨ SectionName cap s.currentSection

theorem parseLines_reached {lines : List Bytes} (hlines : ∀ line ∈ lines, ∀ c ∈ line, isLineEnd c = false)
    {all : Document} (hs : Reached cap s all) (h : parseLines cap number s lines = .ok s') :
    Reached cap s' (all ++ assignmentsFrom cap number s.currentSection lines) := by
  induction lines generalizing number s all with
  | nil =>
    cases h
    rw [assignmentsFrom, List.append_nil]
    exact hs
  | cons line lines ih =>
    obtain ⟨read, hread, h⟩ := bind_eq_ok.mp h
    obtain ⟨s₁, hs₁, h⟩ := bind_eq_ok.mp h
    have hmore := fun l hl => hlines l (List.mem_cons_of_mem _ hl)
    obtain ⟨hheader, hassign⟩ := readLine_sound (hlines line List.mem_cons_self) hread
    rw [assignmentsFrom, hread]
    cases read with
    | blank =>
      cases hs₁
      exact ih hmore hs h
    | header name =>
      cases hs₁
      exact @ih _ { s with currentSection := name } hmore _ ⟨hs.writable, hs.lasting, .inr (hheader name rfl)⟩ h
    | assignment key value separator =>
      rw [State.apply] at hs₁
      split at hs₁
      next output hset =>
        cases hs₁
        obtain ⟨hkey, hvalue⟩ := hassign key value separator rfl
        obtain ⟨hwritable, hmem⟩ := @setEntry_writable cap s.output output ⟨s.currentSection, key, value⟩
          ⟨hs.name, hkey, hvalue⟩ hs.writable hset
        dsimp only
        rw [List.append_cons]
        refine @ih _ { s with output := output } hmore _ ⟨hwritable, fun e => ?_, hs.name⟩ h
        rw [hmem, hs.lasting, lasting_snoc]
      · cases hs₁

theorem parse_sound {source : Bytes} (h : parse cap source = .ok d) :
    Writable cap d ∧ ∀ e, e ∈ d ↔ Lasting (assignments cap source) e := by
  obtain ⟨s', hs', hd⟩ := bind_eq_ok.mp h
  cases hd
  have hempty : Reached cap {} [] := by
    refine ⟨⟨fun e he => (nomatch he), List.nodup_nil, Nat.zero_le _⟩, fun e => ?_, .inl rfl⟩
    exact iff_of_false (fun he => nomatch he) fun ⟨before, after, hcut, _⟩ => by simp at hcut
  have hreached := parseLines_reached (fun line hline => splitLines_lineEnd hline) hempty hs'
  rw [List.nil_append] at hreached
  exact ⟨hreached.writable, hreached.lasting⟩

end Castle.Serialization.Ini

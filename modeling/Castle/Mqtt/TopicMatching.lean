import Castle.Mqtt.Utf8

/-!
# What a topic filter selects (`topic.hpp`)

The levels of a text are what stands between its slashes.
-/

namespace Castle.Mqtt

/-- A topic name: a nonempty MQTT text without wildcards. -/
structure ValidName (topic : Bytes) : Prop where
  nonempty : topic ≠ []
  text : MqttText topic
  noPlus : plus ∉ topic
  noHash : hash ∉ topic

/-- The wildcards of a filter with these levels stand alone, and `#` in the last level only. -/
structure WildcardsAlone (levels : List Bytes) : Prop where
  plus : ∀ level ∈ levels, plus ∈ level → level = [Mqtt.plus]
  hash : ∀ level ∈ levels, hash ∈ level → level = [Mqtt.hash]
  last : ∀ level ∈ levels.dropLast, Mqtt.hash ∉ level

structure ValidFilter (filter : Bytes) : Prop where
  nonempty : filter ≠ []
  text : MqttText filter
  wildcards : WildcardsAlone (filter.splitOn slash)

/-- The levels of a filter select those of a topic: `#` the parent level and all below it, `+`
one level, any other level its equal. -/
inductive Selects : List Bytes → List Bytes → Prop
  | done : Selects [] []
  | multi (levels : List Bytes) : Selects [[hash]] levels
  | single (level : Bytes) {filter topic : List Bytes} (h : Selects filter topic) :
    Selects ([plus] :: filter) (level :: topic)
  | equal {level : Bytes} (hplus : level ≠ [plus]) (hhash : level ≠ [hash]) {filter topic : List Bytes}
    (h : Selects filter topic) : Selects (level :: filter) (level :: topic)

theorem splitOn_slash (text : Bytes) : text.splitOn slash = text.takeWhile (· ≠ slash) ::
    match text.dropWhile (· ≠ slash) with
    | [] => []
    | _ :: rest => rest.splitOn slash := by
  have hfree : slash ∉ text.takeWhile (· ≠ slash) := fun h => by
    simpa using List.mem_takeWhile_imp h
  cases hdrop : text.dropWhile (· ≠ slash) with
  | nil =>
    have hall : text.takeWhile (· ≠ slash) = text := by
      rw [← List.append_nil (text.takeWhile _), ← hdrop, List.takeWhile_append_dropWhile]
    rw [hall] at hfree ⊢
    exact List.splitOn_eq_singleton hfree
  | cons c rest =>
    have hc : c = slash := by
      have hne : text.dropWhile (· ≠ slash) ≠ [] := by
        rw [hdrop]
        exact List.cons_ne_nil _ _
      have hhead := List.head_dropWhile_not (· ≠ slash) hne
      simp only [hdrop, List.head_cons] at hhead
      simpa using hhead
    have hsplit : text = text.takeWhile (· ≠ slash) ++ slash :: rest := by
      subst hc
      rw [← hdrop, List.takeWhile_append_dropWhile]
    conv_lhs => rw [hsplit]
    exact List.splitOn_append_cons_self_of_not_mem hfree rest

theorem splitOn_slash_eq_nil {text : Bytes} : text.splitOn slash = [[]] ↔ text = [] := by
  constructor
  · intro h
    have hjoin : [slash].intercalate (text.splitOn slash) = text := List.intercalate_splitOn slash
    rw [← hjoin, h]
    rfl
  · rintro rfl
    rfl

theorem wildcardsAlone_single {level : Bytes} : WildcardsAlone [level] ↔
    (plus ∈ level → level = [plus]) ∧ (hash ∈ level → level = [hash]) := by
  constructor
  · intro h
    exact ⟨h.plus level List.mem_cons_self, h.hash level List.mem_cons_self⟩
  · rintro ⟨hplus, hhash⟩
    refine ⟨fun l hl => ?_, fun l hl => ?_, fun l hl => by cases hl⟩
    · rw [List.mem_singleton.mp hl]
      exact hplus
    · rw [List.mem_singleton.mp hl]
      exact hhash

theorem wildcardsAlone_cons {level : Bytes} {levels : List Bytes} (hne : levels ≠ []) :
    WildcardsAlone (level :: levels) ↔
      (plus ∈ level → level = [plus]) ∧ hash ∉ level ∧ WildcardsAlone levels := by
  have hlast : (level :: levels).dropLast = level :: levels.dropLast := List.dropLast_cons_of_ne_nil hne
  constructor
  · intro h
    refine ⟨h.plus level List.mem_cons_self, h.last level (by rw [hlast]; exact List.mem_cons_self), ?_⟩
    exact ⟨fun l hl => h.plus l (List.mem_cons_of_mem _ hl), fun l hl => h.hash l (List.mem_cons_of_mem _ hl),
      fun l hl => h.last l (by rw [hlast]; exact List.mem_cons_of_mem _ hl)⟩
  · rintro ⟨hplus, hhash, h⟩
    refine ⟨fun l hl => ?_, fun l hl => ?_, fun l hl => ?_⟩
    · rcases List.mem_cons.mp hl with rfl | hl
      · exact hplus
      · exact h.plus l hl
    · rcases List.mem_cons.mp hl with rfl | hl
      · exact fun hmem => absurd hmem hhash
      · exact h.hash l hl
    · rw [hlast] at hl
      rcases List.mem_cons.mp hl with rfl | hl
      · exact hhash
      · exact h.last l hl

theorem validateTopicName_iff {topic : Bytes} : validateTopicName topic = .ok ↔ ValidName topic := by
  unfold validateTopicName
  split_ifs with hempty hwild
  · refine iff_of_false (by decide) fun h => ?_
    rcases hempty with hempty | hempty
    · exact h.nonempty hempty
    · rw [validUtf8_iff.mpr h.text] at hempty
      cases hempty
  · refine iff_of_false (by decide) fun h => ?_
    obtain ⟨c, hc, hwild⟩ := List.any_eq_true.mp hwild
    simp only [Bool.or_eq_true, decide_eq_true_eq] at hwild
    rcases hwild with rfl | rfl
    · exact h.noPlus hc
    · exact h.noHash hc
  · rw [not_or, Bool.not_eq_false] at hempty
    rw [List.any_eq_true] at hwild
    refine iff_of_true rfl ⟨hempty.1, validUtf8_iff.mp hempty.2, fun h => hwild ⟨_, h, ?_⟩, fun h => hwild ⟨_, h, ?_⟩⟩
    · simp
    · simp

theorem eq_singleton_of_mem {level : Bytes} {c : UInt8} (hmem : c ∈ level) (hlength : level.length = 1) :
    level = [c] := by
  obtain ⟨d, rfl⟩ := List.length_eq_one_iff.mp hlength
  rw [List.mem_singleton.mp hmem]

theorem validLevel_iff {level : Bytes} {last : Bool} : validLevel level last = true ↔
    (plus ∈ level → level = [plus]) ∧ (hash ∈ level → level = [hash] ∧ last = true) := by
  unfold validLevel
  simp only [List.all_eq_true, Bool.and_eq_true, Bool.not_eq_true', Bool.and_eq_false_imp, decide_eq_true_eq,
    decide_eq_false_iff_not, not_not, Bool.not_eq_false']
  constructor
  · intro h
    refine ⟨fun hmem => eq_singleton_of_mem hmem ((h _ hmem).1 rfl), fun hmem => ?_⟩
    obtain ⟨hlength, hlast⟩ := (h _ hmem).2 rfl
    exact ⟨eq_singleton_of_mem hmem hlength, hlast⟩
  · rintro ⟨hplus, hhash⟩ c hc
    refine ⟨fun he => ?_, fun he => ?_⟩
    · rw [hplus (he ▸ hc)]
      rfl
    · obtain ⟨hlevel, hlast⟩ := hhash (he ▸ hc)
      exact ⟨by rw [hlevel]; rfl, hlast⟩

theorem validLevels_iff {level rest : Bytes} (hfree : slash ∉ level) :
    validLevels level rest = true ↔ WildcardsAlone ((level ++ rest).splitOn slash) := by
  induction rest generalizing level with
  | nil =>
    rw [validLevels, validLevel_iff, List.append_nil, List.splitOn_eq_singleton hfree, wildcardsAlone_single]
    simp only [and_true]
  | cons c rest ih =>
    rw [validLevels]
    split_ifs with hc
    · rw [hc, List.splitOn_append_cons_self_of_not_mem hfree, wildcardsAlone_cons (List.splitOn_ne_nil _ _),
        Bool.and_eq_true, validLevel_iff, ih List.not_mem_nil, List.nil_append]
      simp [Bool.false_eq_true, and_false, imp_false, and_assoc]
    · have hfree' : slash ∉ level ++ [c] := by
        rw [List.mem_append, List.mem_singleton, not_or]
        exact ⟨hfree, fun h => hc h.symm⟩
      rw [ih hfree', List.append_assoc, List.singleton_append]

theorem validateTopicFilter_iff {filter : Bytes} : validateTopicFilter filter = .ok ↔ ValidFilter filter := by
  have hlevels : validLevels [] filter = true ↔ WildcardsAlone (filter.splitOn slash) :=
    validLevels_iff List.not_mem_nil
  unfold validateTopicFilter
  split_ifs with hempty hwild
  · refine iff_of_false (by decide) fun h => ?_
    rcases hempty with hempty | hempty
    · exact h.nonempty hempty
    · rw [validUtf8_iff.mpr h.text] at hempty
      cases hempty
  · rw [not_or, Bool.not_eq_false] at hempty
    exact iff_of_true rfl ⟨hempty.1, validUtf8_iff.mp hempty.2, hlevels.mp hwild⟩
  · exact iff_of_false (by decide) fun h => hwild (hlevels.mpr h.wildcards)

theorem selects_cons {f t : Bytes} {fs ts : List Bytes} (hf : f ≠ [hash]) (h : f = [plus] ∨ f = t) :
    Selects (f :: fs) (t :: ts) ↔ Selects fs ts := by
  constructor
  · intro hs
    cases hs with
    | multi => exact absurd rfl hf
    | single _ hs => exact hs
    | equal _ _ hs => exact hs
  · intro hs
    by_cases hp : f = [plus]
    · rw [hp]
      exact .single t hs
    · rw [← h.resolve_left hp]
      exact .equal hp hf hs

theorem not_selects_cons {f t : Bytes} {fs ts : List Bytes} (hf : f ≠ [hash]) (hp : f ≠ [plus]) (h : f ≠ t) :
    ¬Selects (f :: fs) (t :: ts) := by
  intro hs
  cases hs with
  | multi => exact hf rfl
  | single => exact hp rfl
  | equal => exact h rfl

theorem selects_nil_left {ts : List Bytes} : Selects [] ts ↔ ts = [] := by
  constructor
  · intro hs
    cases hs
    rfl
  · rintro rfl
    exact .done

theorem selects_nil_right {fs : List Bytes} : Selects fs [] ↔ fs = [] ∨ fs = [[hash]] := by
  constructor
  · intro hs
    cases hs with
    | done => exact .inl rfl
    | multi => exact .inr rfl
  · rintro (rfl | rfl)
    · exact .done
    · exact .multi []

theorem splitOn_slash_eq_hash {text : Bytes} : text.splitOn slash = [[hash]] ↔ text = [hash] := by
  constructor
  · intro h
    have hjoin : [slash].intercalate (text.splitOn slash) = text := List.intercalate_splitOn slash
    rw [← hjoin, h]
    rfl
  · rintro rfl
    rfl

theorem matchLevels_iff {fuel : ℕ} {filter topic : Bytes} (hfuel : filter.length ≤ fuel)
    (hwild : WildcardsAlone (filter.splitOn slash)) :
    matchLevels fuel filter topic = true ↔ Selects (filter.splitOn slash) (topic.splitOn slash) := by
  have hend : ∀ topic : Bytes, decide (topic = []) = true ↔ Selects [[]] (topic.splitOn slash) := by
    intro topic
    obtain ⟨t, ts, hts⟩ := List.exists_cons_of_ne_nil (List.splitOn_ne_nil slash topic)
    rw [decide_eq_true_eq, ← splitOn_slash_eq_nil, hts]
    by_cases ht : ([] : Bytes) = t
    · rw [selects_cons (by decide) (.inr ht), selects_nil_left, ← ht, List.cons.injEq]
      exact and_iff_right rfl
    · refine iff_of_false (fun h => ht ?_) (not_selects_cons (by decide) (by decide) ht)
      rw [List.cons.injEq] at h
      exact h.1.symm
  induction fuel generalizing filter topic with
  | zero =>
    rw [List.length_eq_zero_iff.mp (Nat.le_zero.mp hfuel)]
    exact hend topic
  | succ fuel ih =>
    cases filter with
    | nil => exact hend topic
    | cons first filter =>
      rw [splitOn_slash (first :: filter)] at hwild ⊢
      by_cases hfirst : first = hash
      · -- the wildcard is the last level of the filter
        have hmem : hash ∈ (first :: filter).takeWhile (· ≠ slash) := by
          rw [hfirst, List.takeWhile_cons_of_pos (by decide)]
          exact List.mem_cons_self
        rw [matchLevels, if_pos hfirst, hwild.hash _ List.mem_cons_self hmem]
        cases hmore : (first :: filter).dropWhile (· ≠ slash) with
        | nil => exact iff_of_true rfl (.multi _)
        | cons c rest =>
          rw [hmore] at hwild
          exact absurd hmem ((wildcardsAlone_cons (List.splitOn_ne_nil _ _)).mp hwild).2.1
      have hlevel : (first :: filter).takeWhile (· ≠ slash) ≠ [hash] := by
        intro h
        rw [List.takeWhile_cons] at h
        split_ifs at h
        rw [List.cons.injEq] at h
        exact hfirst h.1
      rw [matchLevels, if_neg hfirst, splitOn_slash topic]
      dsimp only
      split_ifs with hdiffer
      · exact iff_of_false not_false (not_selects_cons hlevel hdiffer.1 hdiffer.2)
      rw [not_and_or, not_not, not_not] at hdiffer
      rw [selects_cons hlevel hdiffer]
      cases hmore : (first :: filter).dropWhile (· ≠ slash) with
      | nil =>
        rw [selects_nil_left]
        cases topic.dropWhile (· ≠ slash) with
        | nil => exact iff_of_true rfl rfl
        | cons d tNext => exact iff_of_false Bool.false_ne_true (List.splitOn_ne_nil _ _)
      | cons c fNext =>
        rw [hmore] at hwild
        cases topic.dropWhile (· ≠ slash) with
        | nil =>
          rw [selects_nil_right, splitOn_slash_eq_hash]
          simp
        | cons d tNext =>
          have hshorter : fNext.length ≤ fuel := by
            have hle := (List.dropWhile_suffix (· ≠ slash) (l := first :: filter)).length_le
            rw [hmore] at hle
            simp only [List.length_cons] at hle hfuel
            omega
          exact ih hshorter ((wildcardsAlone_cons (List.splitOn_ne_nil _ _)).mp hwild).2.2

theorem head_eq_dollar {text : Bytes} : text.head? = some dollar ↔ ∃ rest, text = dollar :: rest := by
  cases text with
  | nil => simp
  | cons c rest => simp

/-- `topic_matches` holds exactly of a valid filter and a valid topic name whose levels the filter
selects, where only a filter with a `$` in front selects such a topic. -/
theorem topicMatches_iff (filter topic : Bytes) : topicMatches filter topic = true ↔
    ValidFilter filter ∧ ValidName topic ∧
      ¬((∃ rest, topic = dollar :: rest) ∧ ¬∃ rest, filter = dollar :: rest) ∧
        Selects (filter.splitOn slash) (topic.splitOn slash) := by
  rw [← validateTopicFilter_iff, ← validateTopicName_iff, ← head_eq_dollar, ← head_eq_dollar, topicMatches]
  split_ifs with hinvalid hdollar
  · refine iff_of_false not_false fun h => ?_
    exact hinvalid.elim (fun hf => hf h.1) fun ht => ht h.2.1
  · exact iff_of_false not_false fun h => h.2.2.1 hdollar
  · rw [not_or, not_not, not_not] at hinvalid
    rw [matchLevels_iff le_rfl (validateTopicFilter_iff.mp hinvalid.1).wildcards]
    exact ⟨fun h => ⟨hinvalid.1, hinvalid.2, hdollar, h⟩, fun h => h.2.2.2⟩

/-- `a/#` selects its parent level, and `+` an empty level. -/
example : topicMatches [0x61, slash, hash] [0x61] = true ∧
    topicMatches [plus, slash, 0x61] [slash, 0x61] = true ∧ topicMatches [0x61, slash] [0x61] = false := by
  decide

end Castle.Mqtt

import Castle.Serialization.Json.Stops

/-!
# The positions of all errors

Wherever the parser does not stop at a string that does not decode or at a node that is not stored,
its errors come from `fail`, which runs at positions inside the text only.
-/

namespace Castle.Serialization.Json

namespace Parser

open Document Entries

variable {cap : Capacity} {source a b s : Bytes} {es : Entries} {parent : Option ℕ}
  {key : Option Bytes} {kind : Kind} {value : Bytes} {p q : Parser cap} {i fuel : ℕ} {t : Tree}
  {stops : Prop} {res : Result × Parser cap}

/-- The parser is inside the text after a success, and an error has its position unless the
parser stops. -/
structure Told (source : Bytes) (stops : Prop) (res : Result × Parser cap) : Prop where
  position : res.1.succeeded = true → res.2.position ≤ source.length
  failed : res.1.succeeded = false → Located source res.1 ∨ stops

theorem told_fail {code : ErrorCode} (h : q.position ≤ source.length) :
    Told source stops (q.fail source code, p) :=
  ⟨fun hr => (by cases hr), fun _ => .inl (located_fail h)⟩

theorem Told.mono {stops' : Prop} (h : Told source stops res) (himp : stops → stops') :
    Told source stops' res :=
  ⟨h.position, fun hr => (h.failed hr).imp id himp⟩

theorem Told.leave (h : Told source stops res) (hr : res.1.succeeded = false) :
    Told source stops (res.1, res.2.leave) :=
  ⟨fun hs => absurd hs (Bool.eq_false_iff.mp hr), h.failed⟩

section

variable (h : Stands source es parent key p)
include h

theorem Stands.told_stored (hdoc : q.doc = p.doc)
    (hq : q.position ≤ source.length)
    (hstops : ¬ (usage es p).Takes cap key (if kind.isContainer then [] else value) → stops) :
    Told source stops (q.stored (q.doc.addNode kind parent (key.getD []) value)) := by
  by_cases ht : (usage es p).Takes cap key (if kind.isContainer then [] else value)
  · rw [stored_admitted (hdoc.trans h.doc) h.built (h.admits_iff.mpr ht)]
    exact ⟨fun _ => hq, fun hr => by cases hr⟩
  · obtain ⟨s, hs, hstored⟩ := stored_refused (hdoc.trans h.doc) h.built (mt h.admits_iff.mp ht)
    rw [hstored]
    exact ⟨fun hr => absurd (of_decide_eq_true hr) hs, fun _ => .inr (hstops ht)⟩

theorem Stands.told_scalar (hk : kind.isContainer = false)
    (hv : Value (p.rest source) (.node kind value .nil) (q.rest source))
    (hends : Ends (.node kind value .nil) (q.rest source)) (hdoc : q.doc = p.doc)
    (hq : q.position ≤ source.length) :
    Told source (StopsValue cap (usage es p) key (p.rest source))
      (q.stored (q.doc.addNode kind parent (key.getD []) value)) := by
  refine h.told_stored hdoc hq fun ht => .scalar hk hv hends ?_
  rwa [hk] at ht

theorem Stands.told_literal {literal : Bytes}
    (hstored : ∀ q : Parser cap, p.rest source = literal ++ q.rest source → q.doc = p.doc →
      q.position ≤ source.length → Told source stops (if kind = .boolean then
        q.stored (q.doc.setBool (literal.head? = some letterLowerT) parent (key.getD []))
      else q.stored (q.doc.setNull parent (key.getD [])))) :
    Told source stops (p.parseLiteral source parent (key.getD []) literal kind) := by
  obtain ⟨code, hfail⟩ | ⟨q, hrest, hdoc, -, -, hq, hparse⟩ :=
    parseLiteral_cases source p parent (key.getD []) literal kind
  · rw [hfail]
    exact told_fail h.position
  · rw [hparse]
    exact hstored q hrest hdoc hq

theorem Stands.told_stringValue
    (hrest : p.rest source = quote :: s) :
    Told source (StopsValue cap (usage es p) key (p.rest source))
      (p.parseStringValue source parent (key.getD [])) := by
  by_cases hs : Decodes cap s
  · obtain ⟨v, b, hv, hlen⟩ := hs
    obtain ⟨q, hq, hparse⟩ := parseStringValue_complete hrest hv hlen h.position
    have hvalue : Value (p.rest source) (.node .string v .nil) (q.rest source) := by
      rw [hrest, hq.rest]
      exact .string hv
    rw [hparse]
    exact h.told_scalar rfl hvalue (fun hk => by cases hk) hq.doc hq.position
  · have hfailed := (parseStringValue_stopped parent (key.getD []) hrest hs).failed
    refine ⟨fun hr => ?_, fun _ => .inr ?_⟩
    · rw [hr] at hfailed
      cases hfailed
    · rw [hrest]
      exact .string hs

end

theorem scanNumber_le {position : ℕ} : (scanNumber s position).2 ≤ position + s.length := by
  induction s generalizing position with
  | nil => exact Nat.le_refl _
  | cons c s ih =>
    have hih := @ih (position + 1)
    rw [scanNumber, List.length_cons]
    split_ifs
    · exact Nat.le_add_right _ _
    · exact Nat.le_add_right _ _
    · omega

theorem Stands.told_number (h : Stands source es parent key p) :
    Told source (StopsValue cap (usage es p) key (p.rest source))
      (p.parseNumber source parent (key.getD [])) := by
  have hle := @scanNumber_le (source.drop p.position) p.position
  rw [List.length_drop, Nat.add_sub_cancel' h.position] at hle
  obtain ⟨q, hq, hfail⟩ | ⟨q, number, hscan, hdoc, -, hrest, hnumber, hparse⟩ :=
    parseNumber_cases source p parent (key.getD [])
  · rw [hfail]
    exact told_fail (hq ▸ hle)
  · rw [hscan] at hle
    rw [hparse]
    refine h.told_scalar rfl ?_ ((rest_follow hscan).ends _) hdoc hle
    rw [hrest]
    exact .number hnumber

theorem told_afterChild {close : UInt8} {loop : Parser cap → Option (Result × Parser cap)}
    (hp : p.position ≤ source.length)
    (hloop : ∀ (c : Bytes) (q : Parser cap), Ws (p.rest source) (comma :: c) → Ws c (q.rest source) →
      q.doc = p.doc → q.depth = p.depth → q.position ≤ source.length →
        ∀ res, loop q = some res → Told source stops res)
    (h : p.afterChild source close loop = some res) : Told source stops res := by
  have hskip := skipSpace_le hp
  unfold afterChild at h
  dsimp only at h
  split at h
  next hclose =>
    cases h
    exact ⟨fun _ => position_lt (rest_eq_cons hclose), fun hr => by cases hr⟩
  · split at h
    · cases h
      exact told_fail hskip
    next hcomma =>
      rw [not_not] at hcomma
      exact hloop _ _ (ws_of_skipSpace hcomma) ws_skipSpace rfl rfl
        (skipSpace_le (position_lt (rest_eq_cons hcomma))) res h

theorem Stands.told_container {close c : UInt8}
    {loop : Option ℕ → Parser cap → Option (Result × Parser cap)}
    (h : Stands source es parent key p) (hrest : p.rest source = c :: s)
    (hrefused : p.depth < cap.maxDepth → ¬ (usage es p).Takes cap key [] → stops)
    (hloop : ∀ (q : Parser cap) (es' : Entries), Inside source kind es' es.length q →
      usage es' q = (usage es p).enter key → Ws s (q.rest source) → p.depth < cap.maxDepth →
        (usage es p).Takes cap key [] → ∀ res, loop (some es.length) q = some res →
          Told source stops res)
    (hres : p.parseContainer source (fun doc => doc.addNode kind parent (key.getD []) []) close
      loop = some res) : Told source stops res := by
  have hposition := position_lt hrest
  by_cases hd : p.depth < cap.maxDepth
  · by_cases ht : (usage es p).Takes cap key []
    · have he : Admits cap es (entryOf kind parent (key.getD []) []) := by
        rw [h.admits_iff, ite_self]
        exact ht
      obtain ⟨q, hq, hparse⟩ := parseContainer_complete close loop h.doc h.built he hd hrest
      rw [hparse] at hres
      split at hres
      next hclose =>
        cases hres
        exact ⟨fun _ => position_lt (rest_eq_cons hclose), fun hr => by cases hr⟩
      · refine hloop q _ (h.inside hd he hq) (usage_enter hq.depth) ?_ hd ht res hres
        rw [hq.rest]
        exact ws_dropWhile s
    · obtain ⟨r, p', hr, hunlocated⟩ := h.container_refused hd ht
      rw [hr] at hres
      cases hres
      refine ⟨fun hs => ?_, fun _ => .inr (hrefused hd ht)⟩
      rw [hunlocated.failed] at hs
      cases hs
  · unfold parseContainer at hres
    dsimp only at hres
    rw [if_pos (by omega)] at hres
    cases hres
    exact told_fail (p := leave _) (Nat.succ_le_of_lt hposition)

/-- What holds of the functions with some fuel. -/
structure Diagnosed (cap : Capacity) (source : Bytes) (fuel : ℕ) : Prop where
  value : ∀ {es : Entries} {parent : Option ℕ} {key : Option Bytes} {p : Parser cap}
    {res : Result × Parser cap}, Stands source es parent key p →
      parseValue source fuel parent (key.getD []) p = some res →
        Told source (∃ a, Ws (p.rest source) a ∧ StopsValue cap (usage es p) key a) res
  object : ∀ {es : Entries} {i : ℕ} {p : Parser cap} {res : Result × Parser cap},
    Inside source .object es i p → objectLoop source fuel (some i) p = some res →
      Told source (StopsMembers cap (usage es p) (p.rest source)) res
  array : ∀ {es : Entries} {i : ℕ} {p : Parser cap} {res : Result × Parser cap},
    Inside source .array es i p → arrayLoop source fuel (some i) p = some res →
      Told source (StopsElements cap (usage es p) (p.rest source)) res

theorem ReadsValue.usage_fits {p' : Parser cap} (h : Stands source es parent key p)
    (ht : ReadsValue source es parent (key.getD []) p p' t) : (usage es p).Fits cap key t := by
  have hnodes := ht.adds.built.nodes
  have hbytes := ht.adds.built.bytes
  rw [List.length_append, Tree.length_entries] at hnodes
  rw [bytes_append, Tree.bytes_entries] at hbytes
  exact ⟨h.placed_iff.mp ht.placed, ht.keys, hnodes, hbytes, ht.nested⟩

theorem arrayLoop_told (ih : Diagnosed cap source fuel) (h : Inside source .array es i p)
    (hres : arrayLoop source (fuel + 1) (some i) p = some res) :
    Told source (StopsElements cap (usage es p) (p.rest source)) res := by
  have hstands : Stands source es (some i) none p := h.stands (by simp) rfl rfl h.position
  rw [arrayLoop] at hres
  split at hres
  · cases hres
    exact told_fail h.position
  · split at hres
    · cases hres
    next vr p₁ hvalue =>
      have htold := ih.value hstands hvalue
      split at hres
      next hvr =>
        cases hres
        refine Told.leave (htold.mono fun hstops => ?_) (by simpa using hvr)
        obtain ⟨a, hws, ha⟩ := hstops
        exact .value hws ha
      next hvr =>
        have hvr' : vr.succeeded = true := by simpa using hvr
        obtain ⟨t, ht⟩ := (Parser.sound cap source fuel).value h.doc h.built h.nested hvalue hvr'
        obtain ⟨a, hws, hta⟩ := ht.text
        refine told_afterChild (htold.position hvr') ?_ hres
        intro c q hcomma hc hdoc hdepth hq res' hloop
        have hdepth' := hdepth.trans ht.depth
        have hnext := h.next (hdoc.trans ht.adds.doc) ht.adds.built hdepth' hq
        refine (ih.array hnext hloop).mono fun hstops => ?_
        rw [show usage (es ++ t.entries es.length (some i) []) q = (usage es p).after none t from
          usage_after none hdepth'] at hstops
        exact .rest hws hta hcomma (ht.usage_fits hstands) (hstops.skip hc)

theorem objectLoop_told (ih : Diagnosed cap source fuel) (h : Inside source .object es i p)
    (hres : objectLoop source (fuel + 1) (some i) p = some res) :
    Told source (StopsMembers cap (usage es p) (p.rest source)) res := by
  by_cases hquote : source[p.position]? = some quote
  · have hrest := rest_eq_cons hquote
    by_cases hdecodes : Decodes cap (p.advance.rest source)
    · obtain ⟨k, b, hk, hroom⟩ := hdecodes
      obtain ⟨position, hdecode, hdone⟩ := decodeString_done hrest hk hroom h.position
      rw [objectLoop, hquote] at hres
      dsimp only at hres
      rw [if_neg (not_not.mpr rfl), hdecode] at hres
      dsimp only at hres
      rw [if_neg (by decide)] at hres
      generalize hp₁ : ({ p with position := position } : Parser cap) = p₁ at hres hdone
      split at hres
      · cases hres
        exact told_fail (skipSpace_le hdone.position)
      next hcolon =>
        rw [not_not] at hcolon
        have hws := ws_of_skipSpace hcolon
        rw [hdone.rest] at hws
        have hposition : (p₁.skipSpace source).advance.position ≤ source.length :=
          position_lt (rest_eq_cons hcolon)
        have hstands : Stands source es (some i) (some k) (p₁.skipSpace source).advance :=
          h.stands (by simp) hdone.doc hdone.depth hposition
        have husage : usage es (p₁.skipSpace source).advance = usage es p :=
          congrArg (Usage.mk _ _) hdone.depth
        split at hres
        · cases hres
        next vr p₂ hvalue =>
          have htold := ih.value hstands hvalue
          split at hres
          next hvr =>
            cases hres
            refine Told.leave (htold.mono fun hstops => ?_) (by simpa using hvr)
            obtain ⟨d, hd, hstops⟩ := hstops
            exact .value (hrest ▸ .nil) hk hroom hws hd (husage ▸ hstops)
          next hvr =>
            have hvr' : vr.succeeded = true := by simpa using hvr
            obtain ⟨t, ht⟩ := (Parser.sound cap source fuel).value hstands.doc h.built
              hstands.nested hvalue hvr'
            obtain ⟨d, hd, hta⟩ := ht.text
            refine told_afterChild (htold.position hvr') ?_ hres
            intro g q hcomma hg hdoc hdepth hq res' hloop
            have hdepth' := hdepth.trans ht.depth
            have hnext := h.next (hdoc.trans ht.adds.doc) ht.adds.built
              (hdepth'.trans hdone.depth) hq
            refine (ih.object hnext hloop).mono fun hstops => ?_
            rw [show usage (es ++ t.entries es.length (some i) k) q = _ from
              usage_after (some k) hdepth', husage] at hstops
            exact .rest (hrest ▸ .nil) hk hws hd hta hcomma (husage ▸ ht.usage_fits hstands)
              (hstops.skip hg)
    · obtain ⟨r, p', hr, hunlocated⟩ := objectLoop_undecodable hrest hdecodes
      rw [hr] at hres
      cases hres
      refine ⟨fun hs => ?_, fun _ => .inr (.key (hrest ▸ .nil) hdecodes)⟩
      rw [hunlocated.failed] at hs
      cases hs
  · rw [objectLoop] at hres
    split at hres
    · cases hres
      exact told_fail h.position
    next c hc =>
      rw [hc] at hquote
      rw [if_pos fun he => hquote (congrArg some he)] at hres
      cases hres
      exact told_fail h.position

theorem parseValue_told (ih : Diagnosed cap source fuel) (h : Stands source es parent key p)
    (hres : parseValue source (fuel + 1) parent (key.getD []) p = some res) :
    Told source (∃ a, Ws (p.rest source) a ∧ StopsValue cap (usage es p) key a) res := by
  suffices hsuff : Told source (StopsValue cap (usage es (p.skipSpace source)) key
      ((p.skipSpace source).rest source)) res from
    hsuff.mono fun hstops => ⟨_, ws_skipSpace, hstops⟩
  have h' := h.skipSpace
  rw [parseValue] at hres
  generalize p.skipSpace source = p at hres h' ⊢
  split at hres
  · cases hres
    exact told_fail h'.position
  next c hc =>
    have hrest := rest_eq_cons hc
    split_ifs at hres with hobject harray hstring htrue hfalse hnull hnumber
    · refine h'.told_container hrest (fun hd ht => ?_) ?_ hres
      · rw [hrest]
        exact .container (.inr hobject) hd ht
      · intro q es' hq husage hws hd ht res' hloop
        refine (ih.object hq hloop).mono fun hstops => ?_
        rw [hrest, hobject]
        exact .object hd ht ((husage ▸ hstops).skip hws)
    · refine h'.told_container hrest (fun hd ht => ?_) ?_ hres
      · rw [hrest]
        exact .container (.inl harray) hd ht
      · intro q es' hq husage hws hd ht res' hloop
        refine (ih.array hq hloop).mono fun hstops => ?_
        rw [hrest, harray]
        exact .array hd ht ((husage ▸ hstops).skip hws)
    · cases hres
      rw [hstring] at hrest
      exact h'.told_stringValue hrest
    · cases hres
      refine h'.told_literal fun q hq hdoc hposition => ?_
      have hv : Value (p.rest source) (.node .boolean trueText .nil) (q.rest source) := hq ▸ .true
      exact h'.told_scalar rfl hv (fun hk => by cases hk) hdoc hposition
    · cases hres
      refine h'.told_literal fun q hq hdoc hposition => ?_
      have hv : Value (p.rest source) (.node .boolean falseText .nil) (q.rest source) := hq ▸ .false
      exact h'.told_scalar rfl hv (fun hk => by cases hk) hdoc hposition
    · cases hres
      refine h'.told_literal fun q hq hdoc hposition => ?_
      have hv : Value (p.rest source) (.node .null [] .nil) (q.rest source) := hq ▸ .null
      exact h'.told_scalar rfl hv (fun hk => by cases hk) hdoc hposition
    · cases hres
      exact h'.told_number
    · cases hres
      exact told_fail h'.position

theorem diagnosed (cap : Capacity) (source : Bytes) (fuel : ℕ) : Diagnosed cap source fuel := by
  induction fuel with
  | zero => exact ⟨fun _ h => (by cases h), fun _ h => (by cases h), fun _ h => (by cases h)⟩
  | succ fuel ih =>
    exact ⟨fun h hres => parseValue_told ih h hres, fun h hres => objectLoop_told ih h hres,
      fun h hres => arrayLoop_told ih h hres⟩

theorem stands_start : Stands source [] none none
    (Parser.skipSpace source ⟨.empty, 0, 0⟩ : Parser cap) :=
  ⟨rfl, .nil, Nat.zero_le _, skipSpace_le (Nat.zero_le _), fun _ => ⟨rfl, rfl⟩,
    fun _ h => (by cases h), fun _ h => (by cases h)⟩

end Parser

variable {cap : Capacity} {source : Bytes}

/-- Reading a text gets to a string that does not decode or to a node that is not stored. -/
def Stops (cap : Capacity) (source : Bytes) : Prop :=
  ∃ a, Ws source a ∧ StopsValue cap ⟨0, 0, 0⟩ none a

/-- When `parse` fails, the line and the column are those of the offset. -/
def LocatesErrors (d : Document cap) (source : Bytes) : Prop :=
  ∀ r d', parse d source = some (r, d') → r.succeeded = false → Located source r

theorem Stops.parse (h : Stops cap source) (d : Document cap) :
    ∃ r d', parse d source = some (r, d') ∧ Unlocated r := by
  obtain ⟨a, hws, hstops⟩ := h
  have hrest : Ws ((Parser.skipSpace source ⟨.empty, 0, 0⟩ : Parser cap).rest source) a := by
    obtain ⟨c, a', rfl, hc, -⟩ := hstops.head
    rw [Parser.rest_skipSpace, show Parser.rest source (⟨.empty, 0, 0⟩ : Parser cap) = source from rfl,
      hws.dropWhile_eq hc]
    exact .nil
  have hlen := hws.length_le
  obtain ⟨r, p', hvalue, hr⟩ := (Parser.stopped cap source (2 * source.length + 2)).value
    Parser.stands_start hstops hrest (by omega)
  refine ⟨r, .empty, ?_, hr⟩
  unfold Json.parse Parser.run
  dsimp only
  rw [show Parser.parseValue source (2 * source.length + 2) none []
    (Parser.skipSpace source ⟨.empty, 0, 0⟩ : Parser cap) = some (r, p') from hvalue]
  exact if_pos (by simp [hr.failed])

/-- All errors have their position exactly when no string fails to decode and no node fails to be
stored before another error. -/
theorem locatesErrors_iff (d : Document cap) (source : Bytes) :
    LocatesErrors d source ↔ ¬ Stops cap source := by
  constructor
  · intro h hstops
    obtain ⟨r, d', hp, hr⟩ := hstops.parse d
    exact hr.not_located (h r d' hp hr.failed)
  · intro hstops r d' hp hr
    unfold Json.parse Parser.run at hp
    dsimp only at hp
    split at hp
    · cases hp
    next r' p' hvalue =>
      have htold := (Parser.diagnosed cap source _).value (@Parser.stands_start cap source) hvalue
      split at hp
      next hr' =>
        cases hp
        refine (htold.failed hr).resolve_right ?_
        rintro ⟨a, hws, ha⟩
        exact hstops ⟨a, Parser.ws_skipSpace.trans hws, ha⟩
      next hr' =>
        split at hp
        · cases hp
          exact Parser.located_fail (Parser.skipSpace_le (htold.position (by simpa using hr')))
        · cases hp
          rw [hr] at hr'
          exact absurd rfl hr'

/-- `[`, the end of the line, and a quote. -/
def unterminatedText : Bytes := [openBracket, lineFeed, quote]

/-- The offset is the end of the text, in line 2 and column 2, and the error is said to be in line 1
and column 1. -/
theorem unterminated_string_at_line_one :
    (∃ r d', parse (Document.empty : Document smallCapacity) unterminatedText = some (r, d') ∧
      r.code = .unexpectedEnd ∧ r.offset = 3 ∧ r.line = 1 ∧ r.column = 1) ∧
    ¬ LocatesErrors (Document.empty : Document smallCapacity) unterminatedText := by
  refine ⟨⟨_, _, rfl, rfl, rfl, rfl, rfl⟩, fun h => ?_⟩
  have hline := (h _ _ rfl rfl).line
  revert hline
  decide

end Castle.Serialization.Json

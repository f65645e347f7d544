import Castle.Serialization.Json.Completeness

/-!
# Which texts are accepted

The fuel of the parser never runs out. A text is accepted exactly if it is a JSON text whose tree
has no empty key and fits.
-/

namespace Castle.Serialization.Json

namespace Parser

variable {cap : Capacity} {source : Bytes} {p p' : Parser cap} {r : Result}
  {parent : Option ℕ} {key : Bytes}

/-- How much is not read yet. -/
def unread (source : Bytes) (p : Parser cap) : ℕ := source.length - p.position

theorem unread_lt {c : UInt8} (h : source[p.position]? = some c)
    (hlt : p.position < p'.position) : p'.unread source < p.unread source := by
  have hin := (List.getElem?_eq_some_iff.mp h).1
  unfold unread
  omega

theorem unread_le (hle : p.position ≤ p'.position) : p'.unread source ≤ p.unread source := by
  unfold unread
  omega

theorem position_skipSpace_le : p.position ≤ (p.skipSpace source).position := Nat.le_add_right _ _

theorem parseLiteral_position {literal : Bytes} {kind : Kind} (hne : literal ≠ [])
    (hr : (p.parseLiteral source parent key literal kind).1.succeeded = true) :
    p.position < (p.parseLiteral source parent key literal kind).2.position := by
  have hlen := List.length_pos_of_ne_nil hne
  obtain ⟨code, hfail⟩ | ⟨q, -, -, -, hq, -, hstored⟩ :=
    parseLiteral_cases source p parent key literal kind
  · rw [hfail] at hr
    cases hr
  · rw [hstored, apply_ite Prod.snd, apply_ite position]
    show p.position < if kind = .boolean then q.position else q.position
    rw [ite_self]
    omega

theorem parseStringValue_position (hr : (p.parseStringValue source parent key).1.succeeded = true) :
    p.position < (p.parseStringValue source parent key).2.position := by
  unfold parseStringValue at hr ⊢
  generalize hdecode : decodeString cap.maxStringBytes source p.position = decoded at hr ⊢
  obtain ⟨kr, position, value⟩ := decoded
  dsimp only at hr ⊢
  split at hr
  next hkr =>
    rw [hr] at hkr
    cases hkr
  next hkr =>
    obtain ⟨-, -, -, hlt, -⟩ := decodeString_sound hdecode (by simpa using hkr)
    rw [if_neg hkr]
    exact hlt

theorem parseNumber_position (hr : (p.parseNumber source parent key).1.succeeded = true) :
    p.position < (p.parseNumber source parent key).2.position := by
  obtain ⟨q, -, hfail⟩ | ⟨q, number, hscan, -, -, hrest, hnumber, hstored⟩ :=
    parseNumber_cases source p parent key
  · rw [hfail] at hr
    cases hr
  · rw [hstored]
    show p.position < q.position
    have hle := scanNumber_sound hscan
    by_contra hge
    -- a number is not empty
    obtain ⟨c, s, rfl, -⟩ := hnumber.cons
    have hlen := congrArg List.length hrest
    rw [rest, rest, show q.position = p.position by omega, List.cons_append, List.length_cons,
      List.length_append] at hlen
    omega

/-- The functions return, and a value that was read is not empty. -/
structure Total (cap : Capacity) (source : Bytes) (fuel : ℕ) : Prop where
  value : ∀ {parent : Option ℕ} {key : Bytes} {p : Parser cap}, 2 * p.unread source + 1 ≤ fuel →
    ∃ r p', parseValue source fuel parent key p = some (r, p') ∧
      (r.succeeded = true → p.position < p'.position ∧ p'.unread source < p.unread source)
  object : ∀ {out : Option ℕ} {p : Parser cap}, 2 * p.unread source + 2 ≤ fuel →
    ∃ r p', objectLoop source fuel out p = some (r, p') ∧
      (r.succeeded = true → p.position ≤ p'.position)
  array : ∀ {out : Option ℕ} {p : Parser cap}, 2 * p.unread source + 2 ≤ fuel →
    ∃ r p', arrayLoop source fuel out p = some (r, p') ∧
      (r.succeeded = true → p.position ≤ p'.position)

theorem afterChild_total (source : Bytes) {close : UInt8}
    {loop : Parser cap → Option (Result × Parser cap)}
    (hloop : ∀ q : Parser cap, q.unread source < p.unread source →
      ∃ r p', loop q = some (r, p') ∧ (r.succeeded = true → q.position ≤ p'.position)) :
    ∃ r p', p.afterChild source close loop = some (r, p') ∧
      (r.succeeded = true → p.position ≤ p'.position) := by
  unfold afterChild
  dsimp only
  split
  · exact ⟨_, _, rfl, fun _ => position_skipSpace_le.trans (Nat.le_succ _)⟩
  · split
    · exact ⟨_, _, rfl, fun h => by cases h⟩
    next hcomma =>
      rw [not_not] at hcomma
      have hlt : ((p.skipSpace source).advance.skipSpace source).unread source <
        p.unread source := (unread_le position_skipSpace_le).trans_lt
        ((unread_lt hcomma (Nat.lt_succ_self _)).trans_le (unread_le position_skipSpace_le))
      obtain ⟨r, p', hl, hle⟩ := hloop _ hlt
      refine ⟨r, p', hl, fun hr => ?_⟩
      exact (position_skipSpace_le.trans (Nat.le_succ _)).trans
        (position_skipSpace_le.trans (hle hr))

theorem parseContainer_total {make : Document cap → Status × Option ℕ × Document cap}
    {close c : UInt8} {loop : Option ℕ → Parser cap → Option (Result × Parser cap)}
    (hc : source[p.position]? = some c)
    (hloop : ∀ out (q : Parser cap), q.unread source < p.unread source →
      ∃ r p', loop out q = some (r, p') ∧ (r.succeeded = true → q.position ≤ p'.position)) :
    ∃ r p', p.parseContainer source make close loop = some (r, p') ∧
      (r.succeeded = true → p.position < p'.position ∧ p'.unread source < p.unread source) := by
  unfold parseContainer
  dsimp only
  split
  · exact ⟨_, _, rfl, fun h => by cases h⟩
  · split
    next hs => exact ⟨_, _, rfl, fun hr => absurd (of_decide_eq_true hr) hs⟩
    · generalize hq : (⟨_, _, _⟩ : Parser cap).skipSpace source = q
      have hlt : p.position < q.position := by
        rw [← hq]
        show p.position < p.position + 1 + _
        omega
      split
      · have hlt' := Nat.lt_succ_of_lt hlt
        exact ⟨_, _, rfl, fun _ => ⟨hlt', unread_lt hc hlt'⟩⟩
      · obtain ⟨r, p', hl, hle⟩ := hloop (make p.advance.doc).2.1 q (unread_lt hc hlt)
        refine ⟨r, p', hl, fun hr => ?_⟩
        have hlt' := hlt.trans_le (hle hr)
        exact ⟨hlt', unread_lt hc hlt'⟩

variable {fuel : ℕ}

theorem parseValue_total (ih : Total cap source fuel) (hfuel : 2 * p.unread source + 1 ≤ fuel + 1) :
    ∃ r p', parseValue source (fuel + 1) parent key p = some (r, p') ∧
      (r.succeeded = true → p.position < p'.position ∧ p'.unread source < p.unread source) := by
  have hle : (p.skipSpace source).unread source ≤ p.unread source := unread_le position_skipSpace_le
  suffices hsuff : ∃ r p', parseValue source (fuel + 1) parent key p = some (r, p') ∧
      (r.succeeded = true → (p.skipSpace source).position < p'.position ∧
        p'.unread source < (p.skipSpace source).unread source) by
    obtain ⟨r, p', hp', hlt⟩ := hsuff
    refine ⟨r, p', hp', fun hr => ?_⟩
    exact ⟨position_skipSpace_le.trans_lt (hlt hr).1, (hlt hr).2.trans_le hle⟩
  rw [parseValue]
  generalize p.skipSpace source = q at hle ⊢
  split
  · exact ⟨_, _, rfl, fun h => by cases h⟩
  next c hc =>
    have hscalar (res : Result × Parser cap)
      (hres : res.1.succeeded = true → q.position < res.2.position) : ∃ r p', some res = some
      (r, p') ∧ (r.succeeded = true → q.position < p'.position ∧ p'.unread source < q.unread source)
      := ⟨res.1, res.2, rfl, fun hr => ⟨hres hr, unread_lt hc (hres hr)⟩⟩
    split_ifs
    · exact parseContainer_total hc fun out q' hlt => ih.object (by omega)
    · exact parseContainer_total hc fun out q' hlt => ih.array (by omega)
    · exact hscalar _ parseStringValue_position
    · exact hscalar _ (parseLiteral_position (by decide))
    · exact hscalar _ (parseLiteral_position (by decide))
    · exact hscalar _ (parseLiteral_position (by decide))
    · exact hscalar _ parseNumber_position
    · exact hscalar _ fun h => by cases h

theorem arrayLoop_total {out : Option ℕ} (ih : Total cap source fuel)
    (hfuel : 2 * p.unread source + 2 ≤ fuel + 1) : ∃ r p', arrayLoop source (fuel + 1) out p =
    some (r, p') ∧ (r.succeeded = true → p.position ≤ p'.position) := by
  rw [arrayLoop]
  split
  · exact ⟨_, _, rfl, fun h => by cases h⟩
  · obtain ⟨vr, p₁, hvalue, hlt⟩ := ih.value (p := p) (by omega)
    rw [hvalue]
    dsimp only
    split
    next hvr => exact ⟨_, _, rfl, fun hr => by simp [hr] at hvr⟩
    next hvr =>
      obtain ⟨hlt, hunread⟩ := hlt (by simpa using hvr)
      obtain ⟨r, p', hp', hle⟩ := afterChild_total source (p := p₁)
        fun q hq => ih.array (by omega)
      exact ⟨r, p', hp', fun hr => hlt.le.trans (hle hr)⟩

theorem objectLoop_total {out : Option ℕ} (ih : Total cap source fuel)
    (hfuel : 2 * p.unread source + 2 ≤ fuel + 1) : ∃ r p', objectLoop source (fuel + 1) out p =
    some (r, p') ∧ (r.succeeded = true → p.position ≤ p'.position) := by
  rw [objectLoop]
  split
  · exact ⟨_, _, rfl, fun h => by cases h⟩
  next c hc =>
    split
    · exact ⟨_, _, rfl, fun h => by cases h⟩
    · generalize hdecode : decodeString cap.maxStringBytes source p.position = decoded
      obtain ⟨kr, position, key⟩ := decoded
      dsimp only
      split
      next hkr => exact ⟨_, _, rfl, fun hr => by simp [hr] at hkr⟩
      next hkr =>
        split
        · exact ⟨_, _, rfl, fun h => by cases h⟩
        · obtain ⟨-, -, -, hposition, -⟩ := decodeString_sound hdecode (by simpa using hkr)
          generalize hq : ((⟨_, _, _⟩ : Parser cap).skipSpace source).advance = q
          have hqlt : p.position < q.position := by
            rw [← hq]
            show p.position < position + _ + 1
            omega
          have hunread := unread_lt hc hqlt
          obtain ⟨vr, p₁, hvalue, hlt⟩ := ih.value (p := q) (by omega)
          rw [hvalue]
          dsimp only
          split
          next hvr => exact ⟨_, _, rfl, fun hr => by simp [hr] at hvr⟩
          next hvr =>
            obtain ⟨hlt, hunread'⟩ := hlt (by simpa using hvr)
            obtain ⟨r, p', hp', hle⟩ := afterChild_total source (p := p₁)
              fun q hq => ih.object (by omega)
            exact ⟨r, p', hp', fun hr => (hqlt.trans hlt).le.trans (hle hr)⟩

theorem total (cap : Capacity) (source : Bytes) (fuel : ℕ) : Total cap source fuel := by
  induction fuel with
  | zero => exact ⟨fun h => by omega, fun h => by omega, fun h => by omega⟩
  | succ fuel ih =>
    exact ⟨fun h => parseValue_total ih h, fun h => objectLoop_total ih h,
      fun h => arrayLoop_total ih h⟩

end Parser

theorem parse_returns {cap : Capacity} (d : Document cap) (source : Bytes) :
    ∃ r d', parse d source = some (r, d') := by
  have hunread : (Parser.skipSpace source ⟨.empty, 0, 0⟩ : Parser cap).unread source ≤
      source.length := Nat.sub_le _ _
  obtain ⟨r, p', hvalue, -⟩ := (Parser.total cap source (2 * source.length + 2)).value
    (p := Parser.skipSpace source ⟨.empty, 0, 0⟩) (by omega)
  unfold parse Parser.run
  dsimp only
  rw [hvalue]
  dsimp only
  split
  · exact ⟨_, _, rfl⟩
  · split
    · exact ⟨_, _, rfl⟩
    · exact ⟨_, _, rfl⟩

theorem Chars.length_le {s v r : Bytes} (h : Chars s v r) : v.length + r.length < s.length := by
  induction h with
  | close => simp
  | raw _ _ _ _ ih | escape _ _ ih =>
    simp only [List.length_cons]
    omega
  | @unicode _ _ _ _ x₁ x₂ x₃ x₄ _ _ _ _ _ _ _ _ _ ih =>
    have hchar := String.length_utf8EncodeChar (Char.ofNat (((x₁ * 16 + x₂) * 16 + x₃) * 16 + x₄))
    have hsize := Char.utf8Size_le_four (Char.ofNat (((x₁ * 16 + x₂) * 16 + x₃) * 16 + x₄))
    simp only [List.length_cons, List.length_append]
    omega

mutual

theorem Value.fits : ∀ {t : Tree} {s r : Bytes}, Value s t r →
    t.size + r.length ≤ s.length ∧ t.bytes + r.length ≤ s.length ∧ t.depth + r.length ≤ s.length
  | .node kind value f, s, r, h => by
    have hlt := h.length_lt
    have hscalar (hk : kind.isContainer = Bool.false)
        (hf : f = .nil) (hv : value.length + r.length ≤ s.length) :
        (Tree.node kind value f).size + r.length ≤ s.length ∧ (Tree.node kind value f).bytes +
        r.length ≤ s.length ∧ (Tree.node kind value f).depth + r.length ≤ s.length := by
      subst hf
      simp only [Tree.size, Tree.bytes, Tree.depth, Forest.size, Forest.bytes, hk]
      exact ⟨by omega, by omega, by simpa using hlt.le⟩
    have hcontainer (hk : kind.isContainer = Bool.true) (hv : value = [])
        (hf : f.size + r.length + 1 ≤ s.length ∧ f.bytes + r.length + 1 ≤ s.length ∧
          f.depth + r.length + 1 ≤ s.length) :
        (Tree.node kind value f).size + r.length ≤ s.length ∧
          (Tree.node kind value f).bytes + r.length ≤ s.length ∧
          (Tree.node kind value f).depth + r.length ≤ s.length := by
      subst hv
      simp only [Tree.size, Tree.bytes, Tree.depth, hk, if_true, List.length_nil]
      omega
    cases h with
    | null => exact hscalar rfl rfl (by simpa using hlt.le)
    | true | false => exact hscalar rfl rfl (List.length_append ▸ Nat.le_refl _)
    | number ht => exact hscalar rfl rfl (List.length_append ▸ Nat.le_refl _)
    | string hs =>
      have hlen := hs.length_le
      exact hscalar rfl rfl (by rw [List.length_cons]; omega)
    | emptyArray hs | emptyObject hs => exact hcontainer rfl rfl (by
        simpa [Forest.size, Forest.bytes, Forest.depth, Nat.lt_succ_iff] using hlt)
    | array hs =>
      have hfits := Elements.fits hs
      exact hcontainer rfl rfl (by rw [List.length_cons]; omega)
    | object hs =>
      have hfits := Members.fits hs
      exact hcontainer rfl rfl (by rw [List.length_cons]; omega)

theorem Elements.fits : ∀ {f : Forest} {s r : Bytes}, Elements s f r →
    f.size + r.length < s.length ∧ f.bytes + r.length < s.length ∧ f.depth + r.length < s.length
  | .nil, _, _, h => nomatch h
  | .cons key child f, s, r, h => by
    cases h with
    | last hs ht hb =>
      have h₁ := hs.length_le
      have h₂ := Value.fits ht
      have h₃ := hb.length_le
      simp only [Forest.size, Forest.bytes, Forest.depth, List.length_cons, List.length_nil] at *
      omega
    | cons hs ht hb hf =>
      have h₁ := hs.length_le
      have h₂ := Value.fits ht
      have h₃ := hb.length_le
      have h₄ := Elements.fits hf
      simp only [Forest.size, Forest.bytes, Forest.depth, List.length_cons, List.length_nil] at *
      omega

theorem Members.fits : ∀ {f : Forest} {s r : Bytes}, Members s f r →
    f.size + r.length < s.length ∧ f.bytes + r.length < s.length ∧ f.depth + r.length < s.length
  | .nil, _, _, h => nomatch h
  | .cons key child f, s, r, h => by
    cases h with
    | last hs hk hb hc ht he =>
      have h₁ := hs.length_le
      have h₂ := hk.length_le
      have h₃ := hb.length_le
      have h₄ := hc.length_le
      have h₅ := Value.fits ht
      have h₆ := he.length_le
      simp only [Forest.size, Forest.bytes, Forest.depth, List.length_cons] at *
      omega
    | cons hs hk hb hc ht he hf =>
      have h₁ := hs.length_le
      have h₂ := hk.length_le
      have h₃ := hb.length_le
      have h₄ := hc.length_le
      have h₅ := Value.fits ht
      have h₆ := he.length_le
      have h₇ := Members.fits hf
      simp only [Forest.size, Forest.bytes, Forest.depth, List.length_cons] at *
      omega

end

theorem Text.fits {s : Bytes} {t : Tree} (h : Text s t) :
    t.size ≤ s.length ∧ t.bytes ≤ s.length ∧ t.depth ≤ s.length := by
  obtain ⟨a, b, hws, ht, -⟩ := h
  have hlen := hws.length_le
  have hfits := ht.fits
  omega

/-- There is room for every tree that the text could have. -/
structure Ample (cap : Capacity) (source : Bytes) : Prop where
  nodes : source.length ≤ cap.maxNodes
  bytes : source.length ≤ cap.maxStringBytes
  depth : source.length ≤ cap.maxDepth

open Document

variable {cap : Capacity} {d d' : Document cap} {source : Bytes} {t : Tree}

/-- `parse` succeeds, and leaves a document. -/
def Accepts (d : Document cap) (source : Bytes) (d' : Document cap) : Prop :=
  ∃ r, parse d source = some (r, d') ∧ r.succeeded = true

theorem tree_ofEntries_entries (ht : t.Valid) :
    (ofEntries (t.entries 0 none []) : Document cap).tree = t := by
  have hne : t.entries 0 none [] ≠ [] := by
    obtain ⟨kind, value, children⟩ := t
    exact List.cons_ne_nil _ _
  rw [tree_ofEntries hne, Entries.tree_entries ht]

theorem Text.valid {s : Bytes} (h : Text s t) : t.Valid := by
  obtain ⟨a, b, -, ht, -⟩ := h
  exact ht.valid

theorem accepts_iff : (∃ d', Accepts d source d') ↔ ∃ t, Text source t ∧ ¬ t.HasEmptyKey ∧
    t.size ≤ cap.maxNodes ∧ t.bytes ≤ cap.maxStringBytes ∧ t.depth ≤ cap.maxDepth := by
  constructor
  · rintro ⟨d', r, hp, hr⟩
    obtain ⟨t, ht, -, hkeys, hbuilt, hdepth⟩ := parse_sound hp hr
    have hnodes := hbuilt.nodes
    have hbytes := hbuilt.bytes
    rw [Tree.length_entries] at hnodes
    rw [Tree.bytes_entries, List.length_nil, Nat.zero_add] at hbytes
    exact ⟨t, ht, hkeys, hnodes, hbytes, hdepth⟩
  · rintro ⟨t, ht, hkeys, hnodes, hbytes, hdepth⟩
    exact ⟨_, _, parse_complete d ht hkeys hnodes hbytes hdepth, rfl⟩

theorem Accepts.tree (h : Accepts d source d') : Text source d'.tree ∧ ¬ d'.tree.HasEmptyKey := by
  obtain ⟨r, hp, hr⟩ := h
  obtain ⟨t, ht, rfl, hkeys, -, -⟩ := parse_sound hp hr
  rw [tree_ofEntries_entries ht.valid]
  exact ⟨ht, hkeys⟩

theorem accepts_of_text (ht : Text source t) (hkeys : ¬ t.HasEmptyKey) (h : Ample cap source) :
    Accepts d source (ofEntries (t.entries 0 none [])) := by
  obtain ⟨hnodes, hbytes, hdepth⟩ := ht.fits
  exact ⟨_, parse_complete d ht hkeys (hnodes.trans h.nodes) (hbytes.trans h.bytes)
    (hdepth.trans h.depth), rfl⟩

/-- `parse` returns, it accepts the text if and only if it is JSON, and the document is then
the tree of the text. -/
structure Conforms (d : Document cap) (source : Bytes) : Prop where
  returns : ∃ r d', parse d source = some (r, d')
  accepts : (∃ d', Accepts d source d') ↔ ∃ t, Text source t
  tree : ∀ t d', Text source t → Accepts d source d' → d'.tree = t

/-- With enough room, `parse` conforms to the grammar if and only if the text has no object
with an empty key. -/
theorem parse_conforms_iff (d : Document cap) (h : Ample cap source) :
    Conforms d source ↔ ¬ ∃ t, Text source t ∧ t.HasEmptyKey := by
  constructor
  · rintro ⟨-, hiff, htree⟩ ⟨t, ht, hkey⟩
    obtain ⟨d', hd'⟩ := hiff.mpr ⟨t, ht⟩
    rw [← htree t d' ht hd'] at hkey
    exact hd'.tree.2 hkey
  · intro hkeys
    refine ⟨parse_returns d source, ⟨?_, ?_⟩, ?_⟩
    · rintro ⟨d', hd'⟩
      exact ⟨_, hd'.tree.1⟩
    · rintro ⟨t, ht⟩
      exact ⟨_, accepts_of_text ht (fun hkey => hkeys ⟨t, ht, hkey⟩) h⟩
    · rintro t d' ht ⟨r, hp, hr⟩
      obtain ⟨r', hp', -⟩ := accepts_of_text (d := d) ht (fun hkey => hkeys ⟨t, ht, hkey⟩) h
      obtain ⟨-, rfl⟩ := Prod.mk.inj (Option.some.inj (hp.symm.trans hp'))
      exact tree_ofEntries_entries ht.valid

def smallCapacity : Capacity := ⟨8, 8, 8, by decide, by decide, by decide⟩

/-- `{"":1}` -/
def emptyKeyText : Bytes := [openBrace, quote, quote, colon, digitOne, closeBrace]

theorem text_emptyKeyText : Text emptyKeyText
    (.node .object [] (.cons [] (.node .number [digitOne] .nil) .nil)) := by
  have hnumber : IsNumber [digitOne] := .positive (i := [digitOne]) (f := []) (e := [])
    (.digits (by decide) nofun) .none .none
  have hvalue : Value [digitOne, closeBrace] (.node .number [digitOne] .nil) [closeBrace] :=
    .number (t := [digitOne]) hnumber
  exact ⟨_, [], .nil, .object (.last .nil .close .nil .nil hvalue .nil), .nil⟩

/-- The text is JSON, there is enough room for it, and it is not accepted. -/
theorem empty_key_is_rejected : Ample smallCapacity emptyKeyText ∧ (∃ t, Text emptyKeyText t) ∧
    ¬ ∃ d', Accepts (Document.empty : Document smallCapacity) emptyKeyText d' := by
  refine ⟨⟨by decide, by decide, by decide⟩, ⟨_, text_emptyKeyText⟩, ?_⟩
  rintro ⟨d', r, hp, hr⟩
  have hrun : (parse (Document.empty : Document smallCapacity) emptyKeyText).map
      (fun res => res.1.succeeded) = some false := by decide
  rw [hp, Option.map_some, hr] at hrun
  cases hrun

theorem parse_conforms_iff_empty_key :
    ¬ Conforms (Document.empty : Document smallCapacity) emptyKeyText := by
  intro h
  exact (parse_conforms_iff _ ⟨by decide, by decide, by decide⟩).mp h
    ⟨_, text_emptyKeyText, .inl ⟨rfl, rfl⟩⟩

end Castle.Serialization.Json

/-!
## What a failed `parse` leaves behind

`run` clears the document when `parse_value` fails, and not when text follows the value. Which
texts end up there is said by the grammar: the value that they begin with is the one that the
parser reads, because a number only ends at a delimiter.
-/

namespace Castle.Serialization.Json

namespace Parser

theorem scanNumber_follow {s : Bytes} {position position' : ℕ}
    (h : scanNumber s position = (true, position')) : Follow (s.drop (position' - position)) := by
  induction s generalizing position with
  | nil =>
    rw [List.drop_nil]
    exact follow_nil
  | cons c s ih =>
    rw [scanNumber] at h
    split at h
    next hc =>
      cases h
      rw [Nat.sub_self]
      exact follow_cons hc
    · split at h
      · cases h
      · have hle := scanNumber_sound h
        obtain ⟨n, rfl⟩ := Nat.exists_eq_add_of_le hle
        have hfollow := ih h
        rwa [show position + 1 + n - position = n + 1 by omega, List.drop_succ_cons,
          ← Nat.add_sub_cancel_left (position + 1) n]

variable {cap : Capacity} {source : Bytes} {p p' : Parser cap} {r : Result} {parent : Option ℕ}
  {key : Bytes}

theorem rest_follow (h : scanNumber (source.drop p.position) p.position = (true, p'.position)) :
    Follow (p'.rest source) := by
  have hfollow := scanNumber_follow h
  rwa [List.drop_drop, Nat.add_sub_cancel' (scanNumber_sound h)] at hfollow

theorem parseNumber_follow (h : p.parseNumber source parent key = (r, p'))
    (hr : r.succeeded = true) : Follow (p'.rest source) := by
  obtain ⟨q, -, hfail⟩ | ⟨q, number, hscan, -, -, -, -, hstored⟩ :=
    parseNumber_cases source p parent key
  · rw [hfail] at h
    cases h
    cases hr
  · rw [hstored] at h
    cases h
    exact rest_follow hscan

theorem parseValue_ends {fuel : ℕ} {a b : Bytes} {t : Tree} (ht : Value a t b)
    (hws : Ws (p.rest source) a) (hp : p.position ≤ source.length)
    (h : parseValue source fuel parent key p = some (r, p')) (hr : r.succeeded = true) :
    Ends t (p'.rest source) := by
  cases fuel with
  | zero => cases h
  | succ fuel =>
    cases ht with
    | number ht =>
      obtain ⟨d, u, rfl, hd⟩ := ht.cons
      obtain ⟨hspace, h₁, h₂, -, h₃, h₄, h₅, h₆⟩ := number_head hd
      rw [List.cons_append] at hws
      rw [parseValue_eq hws hspace hp, if_neg h₁, if_neg h₂, if_neg h₃, if_neg h₄, if_neg h₅,
        if_neg h₆, if_pos (by simpa using hd)] at h
      exact fun _ => parseNumber_follow (Option.some.inj h) hr
    | _ => exact fun hk => by cases hk

end Parser

variable {cap : Capacity} {d d' : Document cap} {source : Bytes} {r : Result}

/-- `size() == 0`, `root() == npos` and `bytes_used() == 0` -/
def Document.IsEmpty (d : Document cap) : Prop :=
  d.nodes.length = 0 ∧ d.root = none ∧ d.storage.length = 0

theorem Document.isEmpty_empty : (Document.empty : Document cap).IsEmpty := ⟨rfl, rfl, rfl⟩

/-- The text begins with a value that fits in a document, and more than whitespace follows. -/
def Trailing (cap : Capacity) (source : Bytes) : Prop :=
  ∃ a t b, Ws source a ∧ Value a t b ∧ Ends t b ∧ ¬ Ws b [] ∧ ¬ t.HasEmptyKey ∧
    t.size ≤ cap.maxNodes ∧ t.bytes ≤ cap.maxStringBytes ∧ t.depth ≤ cap.maxDepth

/-- `parse` leaves no partial document when it fails. -/
def ClearsOnFailure (d : Document cap) (source : Bytes) : Prop :=
  ∀ r d', parse d source = some (r, d') → r.succeeded = false → d'.IsEmpty

theorem Trailing.parse (h : Trailing cap source) : ∃ r d', parse d source = some (r, d') ∧
    r.succeeded = false ∧ ¬ d'.IsEmpty := by
  obtain ⟨a, t, b, hws, ht, hends, hb, hkeys, hnodes, hbytes, hdepth⟩ := h
  obtain ⟨p', hp', hdone⟩ := parseValue_of_fits hws ht hends hkeys hnodes hbytes hdepth
  have hposition : (p'.skipSpace source).position ≠ source.length := by
    intro hend
    have hnil : (p'.skipSpace source).rest source = [] := by
      rw [Parser.rest, hend, List.drop_length]
    have hws' := @Parser.ws_skipSpace cap source p'
    rw [hnil, hdone.done.rest] at hws'
    exact hb hws'
  refine ⟨(p'.skipSpace source).fail source .unexpectedToken, p'.doc, ?_, rfl, ?_⟩
  · unfold Json.parse Parser.run
    dsimp only
    rw [hp']
    dsimp only
    rw [if_neg (by decide), if_pos hposition]
    rfl
  · rintro ⟨hlen, -⟩
    rw [hdone.done.doc] at hlen
    obtain ⟨kind, value, children⟩ := t
    simp [Document.ofEntries, Tree.entries] at hlen

theorem Parser.ReadsValue.fits {p p' : Parser cap} {t : Tree}
    (h : Parser.ReadsValue source [] none [] p p' t) :
    t.size ≤ cap.maxNodes ∧ t.bytes ≤ cap.maxStringBytes := by
  have hnodes := h.adds.built.nodes
  have hbytes := h.adds.built.bytes
  rw [List.nil_append, Tree.length_entries] at hnodes
  rw [List.nil_append, Tree.bytes_entries, List.length_nil, Nat.zero_add] at hbytes
  exact ⟨hnodes, hbytes⟩

theorem trailing_of_parse (h : parse d source = some (r, d')) (hr : r.succeeded = false)
    (hne : ¬ d'.IsEmpty) : Trailing cap source := by
  unfold Json.parse Parser.run at h
  dsimp only at h
  split at h
  · cases h
  next r' p' hvalue =>
    split at h
    next hfail =>
      cases h
      exact absurd Document.isEmpty_empty hne
    next hok =>
      have hok' : r'.succeeded = true := by simpa using hok
      split at h
      next hposition =>
        have hstart : (Parser.skipSpace source ⟨.empty, 0, 0⟩ : Parser cap).doc =
            Document.ofEntries [] := rfl
        obtain ⟨t, ht⟩ := (Parser.sound cap source _).value hstart .nil (Nat.zero_le _) hvalue hok'
        obtain ⟨a, ha, hta⟩ := ht.text
        have hends := Parser.parseValue_ends hta ha (Parser.skipSpace_le (Nat.zero_le _)) hvalue hok'
        have hws : Ws source a := Parser.ws_skipSpace.trans ha
        have hfits := ht.fits
        have hdepth : 0 + t.depth ≤ cap.maxDepth := ht.nested
        rw [Nat.zero_add] at hdepth
        -- the value is the one that the parser reads, so that it stands inside the text
        obtain ⟨p'', hp'', hdone⟩ := parseValue_of_fits hws hta hends ht.keys hfits.1 hfits.2 hdepth
        rw [hvalue] at hp''
        obtain ⟨-, rfl⟩ := Prod.mk.inj (Option.some.inj hp'')
        refine ⟨a, t, _, hws, hta, hends, fun hend => hposition ?_, ht.keys, hfits.1, hfits.2, hdepth⟩
        have hnil : (p'.skipSpace source).rest source = [] := by
          rw [Parser.rest_skipSpace, hend.dropWhile, List.dropWhile_nil]
        have hle := Parser.skipSpace_le hdone.done.position
        have hge := List.drop_eq_nil_iff.mp hnil
        omega
      · cases h
        rw [hr] at hok'
        cases hok'

/-- A failed `parse` leaves the document empty, exactly when the text is not a value that fits
with more than whitespace behind it. -/
theorem clearsOnFailure_iff (d : Document cap) (source : Bytes) :
    ClearsOnFailure d source ↔ ¬ Trailing cap source := by
  constructor
  · intro h htrailing
    obtain ⟨r, d', hp, hr, hne⟩ := htrailing.parse (d := d)
    exact hne (h r d' hp hr)
  · intro h r d' hp hr
    by_contra hne
    exact h (trailing_of_parse hp hr hne)

/-- `1 1` -/
def twoNumbers : Bytes := [digitOne, space, digitOne]

/-- The second number is not expected, and the node of the first one is still there. -/
theorem failure_keeps_document : ∃ r d', parse (Document.empty : Document smallCapacity)
    twoNumbers = some (r, d') ∧ r.succeeded = false ∧ d'.nodes.length = 1 ∧ d'.root = some 0 :=
  ⟨_, _, rfl, rfl, rfl, rfl⟩

end Castle.Serialization.Json

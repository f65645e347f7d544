import Castle.Serialization.Json.Tokens
import Castle.Serialization.Json.Document
import Castle.Serialization.Json.Trees

/-!
# What the parser accepts is JSON

Where the parser succeeds it has read a value of the grammar, and has added the nodes of
its tree in preorder.
-/

namespace Castle.Serialization.Json

theorem Ws.trans {s r r' : Bytes} (h : Ws s r) (h' : Ws r r') : Ws s r' := by
  induction h with
  | nil => exact h'
  | cons hc _ ih => exact .cons hc (ih h')

theorem drop_takeWhile (s : Bytes) : s.drop (s.takeWhile isSpace).length = s.dropWhile isSpace := by
  induction s with
  | nil => rfl
  | cons c s ih =>
    rw [List.takeWhile_cons, List.dropWhile_cons]
    split
    · rw [List.length_cons, List.drop_succ_cons, ih]
    · rfl

theorem ws_dropWhile (s : Bytes) : Ws s (s.dropWhile isSpace) := by
  induction s with
  | nil => exact .nil
  | cons c s ih =>
    rw [List.dropWhile_cons]
    split
    next hc => exact .cons (isSpace_iff.mp hc) ih
    · exact .nil

theorem Elements.skip {s s' r : Bytes} {f : Forest} (h : Ws s s') (hf : Elements s' f r) :
    Elements s f r := by
  cases hf with
  | last hs ht hb => exact .last (h.trans hs) ht hb
  | cons hs ht hb hf => exact .cons (h.trans hs) ht hb hf

theorem Members.skip {s s' r : Bytes} {f : Forest} (h : Ws s s') (hf : Members s' f r) :
    Members s f r := by
  cases hf with
  | last hs hk hb hc ht he => exact .last (h.trans hs) hk hb hc ht he
  | cons hs hk hb hc ht he hf => exact .cons (h.trans hs) hk hb hc ht he hf

namespace Parser

variable {cap : Capacity} {source : Bytes} {p p' : Parser cap} {r : Result}

/-- What is not read yet. -/
def rest (source : Bytes) (p : Parser cap) : Bytes := source.drop p.position

theorem getElem?_position : source[p.position]? = (p.rest source).head? :=
  List.head?_drop.symm

@[simp] theorem rest_advance : p.advance.rest source = (p.rest source).tail := by
  simp [rest, advance]

@[simp] theorem rest_leave : p.leave.rest source = p.rest source := rfl

@[simp] theorem rest_skipSpace :
    (p.skipSpace source).rest source = (p.rest source).dropWhile isSpace := by
  rw [rest, rest, skipSpace, ← List.drop_drop, drop_takeWhile]

theorem rest_eq_cons {c : UInt8} (h : source[p.position]? = some c) :
    p.rest source = c :: p.advance.rest source := by
  rw [getElem?_position, List.head?_eq_some_iff] at h
  obtain ⟨s, hs⟩ := h
  rw [rest_advance, hs, List.tail_cons]

theorem ws_skipSpace : Ws (p.rest source) ((p.skipSpace source).rest source) := by
  rw [rest_skipSpace]
  exact ws_dropWhile _

theorem rest_split {position : ℕ} (hle : p.position ≤ position) : p.rest source =
    (source.drop p.position).take (position - p.position) ++ source.drop position := by
  conv_lhs => rw [rest, ← List.take_append_drop (position - p.position) (source.drop p.position),
    List.drop_drop, Nat.add_sub_cancel' hle]

theorem ws_of_skipSpace {c : UInt8} (h : source[(p.skipSpace source).position]? = some c) :
    Ws (p.rest source) (c :: (p.skipSpace source).advance.rest source) := by
  rw [← rest_eq_cons h]
  exact ws_skipSpace

end Parser

namespace Document

variable {cap : Capacity} {es : Entries}

theorem addNode_ok {kind : Kind} {parent : Option ℕ} {keyName value : Bytes} {s : Status}
    {out : Option ℕ} {d : Document cap} (h : Built cap es)
    (ho : (ofEntries es : Document cap).addNode kind parent keyName value = (s, out, d))
    (hs : s = .ok) : Admits cap es (entryOf kind parent keyName value) ∧ out = some es.length ∧
      d = ofEntries (es ++ [entryOf kind parent keyName value]) := by
  by_cases he : Admits cap es (entryOf kind parent keyName value)
  · rw [addNode_admitted h he] at ho
    cases ho
    exact ⟨he, rfl, rfl⟩
  · obtain ⟨s', hs', hrefused⟩ := addNode_refused h he
    rw [hrefused] at ho
    cases ho
    exact absurd hs hs'

end Document

namespace Parser

open Document Entries

variable {cap : Capacity} {source : Bytes} {es : Entries} {p p' : Parser cap} {r : Result}
  {parent : Option ℕ} {key : Bytes}

/-- Nodes were added to others, and the document is that of all of them. -/
structure Adds (es new : Entries) (p : Parser cap) : Prop where
  doc : p.doc = ofEntries (es ++ new)
  built : Built cap (es ++ new)

/-- A value was read, and its nodes were added. -/
structure ReadsValue (source : Bytes) (es : Entries) (parent : Option ℕ) (key : Bytes)
    (p p' : Parser cap) (t : Tree) : Prop where
  text : ∃ a, Ws (p.rest source) a ∧ Value a t (p'.rest source)
  adds : Adds es (t.entries es.length parent key) p'
  placed : Placed es parent key
  keys : ¬ t.HasEmptyKey
  depth : p'.depth = p.depth
  nested : p.depth + t.depth ≤ cap.maxDepth

theorem stored_sound {kind : Kind} {value : Bytes} (hdoc : p.doc = ofEntries es)
    (hb : Built cap es) (h : p.stored (p.doc.addNode kind parent key value) = (r, p'))
    (hr : r.succeeded = true) : Admits cap es (entryOf kind parent key value) ∧
      p' = { p with doc := ofEntries (es ++ [entryOf kind parent key value]) } := by
  rw [hdoc] at h
  generalize hadd : (ofEntries es : Document cap).addNode kind parent key value = added at h
  obtain ⟨s, out, d⟩ := added
  have hs : s = .ok := by
    by_contra hs
    unfold stored at h
    dsimp only at h
    rw [if_neg hs] at h
    cases h
    exact hs (of_decide_eq_true hr)
  obtain ⟨he, -, rfl⟩ := addNode_ok hb hadd hs
  cases h
  exact ⟨he, rfl⟩

theorem parseLiteral_cases
    (source : Bytes) (p : Parser cap) (parent : Option ℕ) (key literal : Bytes) (kind : Kind) :
    (∃ code, p.parseLiteral source parent key literal kind = (p.fail source code, p)) ∨
    ∃ q : Parser cap, p.rest source =
    literal ++ q.rest source ∧ q.doc = p.doc ∧ q.depth = p.depth ∧ q.position = p.position +
    literal.length ∧ q.position ≤ source.length ∧ p.parseLiteral source parent key literal kind =
    if kind = .boolean then q.stored (q.doc.setBool (literal.head? = some letterLowerT) parent key)
    else q.stored (q.doc.setNull parent key) := by
  unfold parseLiteral
  split
  · exact .inl ⟨_, rfl⟩
  next hlen =>
    split
    · exact .inl ⟨_, rfl⟩
    next htake =>
      refine .inr ⟨{ p with position := p.position + literal.length }, ?_, rfl, rfl, rfl,
        not_lt.mp hlen, rfl⟩
      rw [not_not] at htake
      conv_lhs => rw [rest, ← List.take_append_drop literal.length (source.drop p.position),
        htake, List.drop_drop]
      rfl

theorem parseLiteral_sound {literal : Bytes} {kind : Kind}
    (h : p.parseLiteral source parent key literal kind = (r, p')) (hr : r.succeeded = true) :
    ∃ q : Parser cap, p.rest source = literal ++ q.rest source ∧ q.doc = p.doc ∧
      q.depth = p.depth ∧ (r, p') = if kind = .boolean then
        q.stored (q.doc.setBool (literal.head? = some letterLowerT) parent key)
      else q.stored (q.doc.setNull parent key) := by
  obtain ⟨code, hfail⟩ | ⟨q, hrest, hdoc, hdepth, -, -, hstored⟩ :=
    parseLiteral_cases source p parent key literal kind
  · rw [hfail] at h
    cases h
    cases hr
  · exact ⟨q, hrest, hdoc, hdepth, h.symm.trans hstored⟩

theorem ReadsValue.of_stored {kind : Kind} {value : Bytes} {q : Parser cap}
    (hk : kind.isContainer = false) (hdoc : q.doc = ofEntries es) (hb : Built cap es)
    (hdepth : q.depth = p.depth) (hd : p.depth ≤ cap.maxDepth)
    (ht : Value (p.rest source) (.node kind value .nil) (q.rest source))
    (h : q.stored (q.doc.addNode kind parent key value) = (r, p')) (hr : r.succeeded = true) :
    ReadsValue source es parent key p p' (.node kind value .nil) := by
  obtain ⟨he, rfl⟩ := stored_sound hdoc hb h hr
  have hentry : entryOf kind parent key value = ⟨kind, parent, key, value⟩ := by
    simp [entryOf, hk]
  refine ⟨⟨_, .nil, ht⟩, ⟨?_, ?_⟩, he.toPlaced, id, hdepth, ?_⟩
  · rw [hentry]
    rfl
  · have hbuilt := hb.concat he
    rw [hentry] at hbuilt
    exact hbuilt
  · simp only [Tree.depth, hk]
    exact hd

theorem parseStringValue_sound (hdoc : p.doc = ofEntries es) (hb : Built cap es)
    (hd : p.depth ≤ cap.maxDepth) (h : p.parseStringValue source parent key = (r, p'))
    (hr : r.succeeded = true) : ∃ t, ReadsValue source es parent key p p' t := by
  unfold parseStringValue at h
  generalize hdecode : decodeString cap.maxStringBytes source p.position = decoded at h
  obtain ⟨kr, position, value⟩ := decoded
  dsimp only at h
  split at h
  next hkr =>
    cases h
    rw [hr] at hkr
    cases hkr
  next hkr =>
    obtain ⟨s, hs, hchars, -, -⟩ := decodeString_sound hdecode (by simpa using hkr)
    refine ⟨_, .of_stored (q := { p with position := position }) rfl hdoc hb rfl hd ?_ h hr⟩
    rw [rest, hs]
    exact .string hchars

theorem scanNumber_sound {s : Bytes} {position position' : ℕ}
    (h : scanNumber s position = (true, position')) : position ≤ position' := by
  induction s generalizing position with
  | nil =>
    cases h
    exact Nat.le_refl _
  | cons c s ih =>
    rw [scanNumber] at h
    split at h
    · cases h
      exact Nat.le_refl _
    · split at h
      · cases h
      · have hle := ih h
        omega

theorem parseNumber_cases (source : Bytes) (p : Parser cap) (parent : Option ℕ) (key : Bytes) :
    (∃ q : Parser cap, q.position = (scanNumber (source.drop p.position) p.position).2 ∧
        p.parseNumber source parent key = (q.fail source .invalidNumber, q)) ∨
      ∃ (q : Parser cap) (number : Bytes),
        scanNumber (source.drop p.position) p.position = (true, q.position) ∧ q.doc = p.doc ∧
        q.depth = p.depth ∧ p.rest source = number ++ q.rest source ∧ IsNumber number ∧
        p.parseNumber source parent key = q.stored (q.doc.addNode .number parent key number) := by
  unfold parseNumber
  dsimp only
  generalize hscan : scanNumber (source.drop p.position) p.position = scanned
  obtain ⟨delimited, position⟩ := scanned
  dsimp only
  split
  · exact .inl ⟨_, rfl, rfl⟩
  next hdelimited =>
    obtain rfl : delimited = true := by simpa using hdelimited
    split
    · exact .inl ⟨_, rfl, rfl⟩
    next hvalid =>
      have hvalid' := hvalid
      rw [Bool.not_eq_true, Bool.not_eq_false'] at hvalid'
      rw [setNumber, if_neg hvalid]
      exact .inr ⟨{ p with position := position }, _, rfl, rfl, rfl,
        rest_split (scanNumber_sound hscan), validNumber_iff.mp hvalid', rfl⟩

theorem parseNumber_sound (hdoc : p.doc = ofEntries es) (hb : Built cap es)
    (hd : p.depth ≤ cap.maxDepth) (h : p.parseNumber source parent key = (r, p'))
    (hr : r.succeeded = true) : ∃ t, ReadsValue source es parent key p p' t := by
  obtain ⟨q, -, hfail⟩ | ⟨q, number, -, hqdoc, hdepth, hrest, hnumber, hstored⟩ :=
    parseNumber_cases source p parent key
  · rw [hfail] at h
    cases h
    cases hr
  · rw [hstored] at h
    refine ⟨_, .of_stored rfl (hqdoc.trans hdoc) hb hdepth hd ?_ h hr⟩
    rw [hrest]
    exact .number hnumber

theorem afterChild_sound {close : UInt8} {loop : Parser cap → Option (Result × Parser cap)}
    (h : p.afterChild source close loop = some (r, p')) (hr : r.succeeded = true) :
    (Ws (p.rest source) (close :: p'.rest source) ∧ p'.doc = p.doc ∧ p'.depth = p.depth - 1) ∨
      ∃ (s : Bytes) (q : Parser cap), Ws (p.rest source) (comma :: s) ∧ Ws s (q.rest source) ∧
        q.doc = p.doc ∧ q.depth = p.depth ∧ loop q = some (r, p') := by
  unfold afterChild at h
  dsimp only at h
  split at h
  next hclose =>
    cases h
    exact .inl ⟨ws_of_skipSpace hclose, rfl, rfl⟩
  · split at h
    · cases h
      cases hr
    next hcomma =>
      rw [not_not] at hcomma
      exact .inr ⟨_, _, ws_of_skipSpace hcomma, ws_skipSpace, rfl, rfl, h⟩

theorem parseContainer_sound {make : Document cap → Status × Option ℕ × Document cap}
    {close : UInt8} {loop : Option ℕ → Parser cap → Option (Result × Parser cap)}
    (h : p.parseContainer source make close loop = some (r, p')) (hr : r.succeeded = true) :
    p.depth + 1 ≤ cap.maxDepth ∧ ∃ out doc, make p.doc = (.ok, out, doc) ∧
      ((Ws (p.advance.rest source) (close :: p'.rest source) ∧ p'.doc = doc ∧
          p'.depth = p.depth) ∨
        ∃ q : Parser cap, Ws (p.advance.rest source) (q.rest source) ∧ q.doc = doc ∧
          q.depth = p.depth + 1 ∧ loop out q = some (r, p')) := by
  unfold parseContainer at h
  dsimp only at h
  split at h
  · cases h
    cases hr
  next hdepth =>
    generalize hmake : make p.doc = made at h
    obtain ⟨s, out, doc⟩ := made
    have hmake' : make p.advance.doc = (s, out, doc) := hmake
    rw [hmake'] at h
    dsimp only at h
    split at h
    next hs =>
      cases h
      exact absurd (of_decide_eq_true hr) hs
    next hs =>
      rw [not_not] at hs
      subst hs
      refine ⟨by omega, out, doc, rfl, ?_⟩
      split at h
      next hclose =>
        cases h
        exact .inl ⟨ws_of_skipSpace (p := { p.advance with doc := doc, depth := p.depth + 1 })
          hclose, rfl, rfl⟩
      · exact .inr ⟨_, ws_skipSpace
        (p := { p.advance with doc := doc, depth := p.depth + 1 }), rfl, rfl, h⟩

theorem ReadsValue.skip {q : Parser cap} {t : Tree} (h : ReadsValue source es parent key q p' t)
    (hws : Ws (p.rest source) (q.rest source)) (hdepth : q.depth = p.depth) :
    ReadsValue source es parent key p p' t := by
  obtain ⟨a, ha, ht⟩ := h.text
  exact ⟨⟨a, hws.trans ha, ht⟩, h.adds, h.placed, h.keys, h.depth.trans hdepth, hdepth ▸ h.nested⟩

/-- The children of the node `q` were read, and their nodes were added. -/
structure ReadsChildren (kind : Kind) (es : Entries) (q level : ℕ) (p' : Parser cap)
    (f : Forest) : Prop where
  adds : Adds es (f.entries es.length q) p'
  keys : ¬ f.HasEmptyKey kind
  depth : p'.depth = level - 1
  nested : level + f.depth ≤ cap.maxDepth

variable {kind : Kind} {q : ℕ} {t : Tree} {f : Forest} {p₁ : Parser cap}

theorem ReadsChildren.last {level : ℕ} (h : ReadsValue source es (some q) key p p₁ t)
    (hlevel : p.depth = level) (hkey : kind = .object → key ≠ []) (hdoc : p'.doc = p₁.doc)
    (hdepth : p'.depth = p₁.depth - 1) : ReadsChildren kind es q level p' (.cons key t .nil) := by
  subst hlevel
  have hentries : (Forest.cons key t .nil).entries es.length q =
      t.entries es.length (some q) key := by
    rw [Forest.entries, Forest.entries, List.append_nil]
  refine ⟨⟨?_, ?_⟩, ?_, ?_, ?_⟩
  · rw [hentries, hdoc, h.adds.doc]
  · rw [hentries]
    exact h.adds.built
  · rintro (⟨hk, he⟩ | ht | hf)
    · exact hkey hk he
    · exact h.keys ht
    · exact hf
  · rw [hdepth, h.depth]
  · have hnested := h.nested
    simp only [Forest.depth]
    omega

theorem ReadsChildren.cons {level : ℕ} {p₂ : Parser cap}
    (h : ReadsValue source es (some q) key p p₁ t) (hlevel : p.depth = level)
    (hkey : kind = .object → key ≠ []) (hdepth : p₂.depth = p₁.depth)
    (hf : ReadsChildren kind (es ++ t.entries es.length (some q) key) q p₂.depth p' f) :
    ReadsChildren kind es q level p' (.cons key t f) := by
  subst hlevel
  have hentries : es ++ (Forest.cons key t f).entries es.length q =
      (es ++ t.entries es.length (some q) key) ++
        f.entries (es ++ t.entries es.length (some q) key).length q := by
    rw [Forest.entries, List.append_assoc, List.length_append, Tree.length_entries]
  have hd : p₂.depth = p.depth := hdepth.trans h.depth
  refine ⟨⟨?_, ?_⟩, ?_, hd ▸ hf.depth, ?_⟩
  · rw [hentries]
    exact hf.adds.doc
  · rw [hentries]
    exact hf.adds.built
  · rintro (⟨hk, he⟩ | ht | hf')
    · exact hkey hk he
    · exact h.keys ht
    · exact hf.keys hf'
  · have hnested := h.nested
    have hnested' := hf.nested
    simp only [Forest.depth]
    omega

theorem ReadsValue.container (hk : kind.isContainer = true)
    (he : Admits cap es (entryOf kind parent key []))
    (hadds : Adds (es ++ [entryOf kind parent key []]) (f.entries (es.length + 1) es.length) p')
    (hkeys : ¬ f.HasEmptyKey kind) (hdepth : p'.depth = p.depth)
    (hnested : p.depth + 1 + f.depth ≤ cap.maxDepth)
    (ht : Value (p.rest source) (.node kind [] f) (p'.rest source)) :
    ReadsValue source es parent key p p' (.node kind [] f) := by
  have hentries : es ++ (Tree.node kind [] f).entries es.length parent key =
      es ++ [entryOf kind parent key []] ++ f.entries (es.length + 1) es.length := by
    rw [Tree.entries, entryOf, ite_self, List.append_assoc]
    rfl
  refine ⟨⟨_, .nil, ht⟩, ⟨?_, ?_⟩, he.toPlaced, hkeys, hdepth, ?_⟩
  · rw [hentries]
    exact hadds.doc
  · rw [hentries]
    exact hadds.built
  · simp only [Tree.depth, hk, if_true]
    omega

/-- What holds of the functions with some fuel. -/
structure Sound (cap : Capacity) (source : Bytes) (fuel : ℕ) : Prop where
  value : ∀ {es : Entries} {parent : Option ℕ} {key : Bytes} {p p' : Parser cap} {r : Result},
    p.doc = ofEntries es → Built cap es → p.depth ≤ cap.maxDepth →
      parseValue source fuel parent key p = some (r, p') → r.succeeded = true →
        ∃ t, ReadsValue source es parent key p p' t
  object : ∀ {es : Entries} {q : ℕ} {p p' : Parser cap} {r : Result},
    p.doc = ofEntries es → Built cap es → p.depth ≤ cap.maxDepth → (entry es q).kind = .object →
      objectLoop source fuel (some q) p = some (r, p') → r.succeeded = true →
        ∃ f, Members (p.rest source) f (p'.rest source) ∧
          ReadsChildren .object es q p.depth p' f
  array : ∀ {es : Entries} {q : ℕ} {p p' : Parser cap} {r : Result},
    p.doc = ofEntries es → Built cap es → p.depth ≤ cap.maxDepth →
      arrayLoop source fuel (some q) p = some (r, p') → r.succeeded = true →
        ∃ f, Elements (p.rest source) f (p'.rest source) ∧
          ReadsChildren .array es q p.depth p' f

variable {fuel : ℕ}

theorem arrayLoop_sound (ih : Sound cap source fuel)
    (hdoc : p.doc = ofEntries es) (hb : Built cap es) (hd : p.depth ≤ cap.maxDepth)
    (h : arrayLoop source (fuel + 1) (some q) p = some (r, p')) (hr : r.succeeded = true) :
    ∃ f, Elements (p.rest source) f (p'.rest source) ∧ ReadsChildren .array es q p.depth p' f := by
  rw [arrayLoop] at h
  split at h
  · cases h
    cases hr
  · split at h
    · cases h
    next vr p₁ hvalue =>
      split at h
      next hvr =>
        cases h
        rw [hr] at hvr
        cases hvr
      next hvr =>
        obtain ⟨t, ht⟩ := ih.value hdoc hb hd hvalue (by simpa using hvr)
        obtain ⟨a, ha, hta⟩ := ht.text
        obtain ⟨hws, hdoc', hdepth⟩ | ⟨s, p₂, hws, hws', hdoc', hdepth, hloop⟩ :=
          afterChild_sound h hr
        · exact ⟨_, .last ha hta hws, .last ht rfl nofun hdoc' hdepth⟩
        · obtain ⟨f, hf, hchildren⟩ := ih.array (hdoc'.trans ht.adds.doc) ht.adds.built
            (by rw [hdepth, ht.depth]; exact hd) hloop hr
          exact ⟨_, .cons ha hta hws (hf.skip hws'), .cons ht rfl nofun hdepth hchildren⟩

theorem objectLoop_sound (ih : Sound cap source fuel) (hdoc : p.doc = ofEntries es)
    (hb : Built cap es) (hd : p.depth ≤ cap.maxDepth) (hkind : (entry es q).kind = .object)
    (h : objectLoop source (fuel + 1) (some q) p = some (r, p')) (hr : r.succeeded = true) :
    ∃ f, Members (p.rest source) f (p'.rest source) ∧ ReadsChildren .object es q p.depth p' f := by
  rw [objectLoop] at h
  split at h
  · cases h
    cases hr
  next c hc =>
    split at h
    · cases h
      cases hr
    next hquote =>
      rw [not_not] at hquote
      subst hquote
      generalize hdecode : decodeString cap.maxStringBytes source p.position = decoded at h
      obtain ⟨kr, position, key⟩ := decoded
      dsimp only at h
      split at h
      next hkr =>
        cases h
        rw [hr] at hkr
        cases hkr
      next hkr =>
        split at h
        · cases h
          cases hr
        next hcolon =>
          rw [not_not] at hcolon
          obtain ⟨s, hs, hchars, -, -⟩ := decodeString_sound hdecode (by simpa using hkr)
          have hcolonWs := ws_of_skipSpace (p := { p with position := position }) hcolon
          split at h
          · cases h
          next vr p₁ hvalue =>
            split at h
            next hvr =>
              cases h
              rw [hr] at hvr
              cases hvr
            next hvr =>
              obtain ⟨t, ht⟩ := ih.value (p := (skipSpace source
                { p with position := position }).advance) hdoc hb hd hvalue (by simpa using hvr)
              obtain ⟨a, ha, hta⟩ := ht.text
              have hkey : key ≠ [] := ht.placed.member q rfl hkind
              have hstart : Ws (p.rest source) (quote :: s) := by
                rw [rest, hs]
                exact .nil
              obtain ⟨hws, hdoc', hdepth⟩ | ⟨s', p₂, hws, hws', hdoc', hdepth, hloop⟩ :=
                afterChild_sound h hr
              · exact ⟨_, .last hstart hchars hcolonWs ha hta hws,
                  .last ht rfl (fun _ => hkey) hdoc' hdepth⟩
              · have hkind' : (entry (es ++ t.entries es.length (some q) key) q).kind = .object := by
                  rw [entry_append _ (ht.placed.parent q rfl)]
                  exact hkind
                obtain ⟨f, hf, hchildren⟩ := ih.object (hdoc'.trans ht.adds.doc) ht.adds.built
                  (by rw [hdepth, ht.depth]; exact hd) hkind' hloop hr
                exact ⟨_, .cons hstart hchars hcolonWs ha hta hws (hf.skip hws'),
                  .cons ht rfl (fun _ => hkey) hdepth hchildren⟩

theorem parseArray_sound (ih : Sound cap source fuel)
    (hdoc : p.doc = ofEntries es) (hb : Built cap es) (hc : source[p.position]? = some openBracket)
    (h : p.parseArray source parent key (arrayLoop source fuel) = some (r, p'))
    (hr : r.succeeded = true) : ∃ t, ReadsValue source es parent key p p' t := by
  obtain ⟨hdepth, out, doc, hmake, hend⟩ := parseContainer_sound h hr
  rw [hdoc] at hmake
  obtain ⟨he, rfl, rfl⟩ := addNode_ok hb hmake rfl
  have hbuilt := hb.concat he
  have hrest := rest_eq_cons hc
  obtain ⟨hws, hdoc', hdepth'⟩ | ⟨q, hws, hdoc', hdepth', hloop⟩ := hend
  · refine ⟨_, .container (f := .nil) rfl he ⟨?_, ?_⟩ id hdepth' hdepth ?_⟩
    · rw [hdoc', Forest.entries, List.append_nil]
    · rwa [Forest.entries, List.append_nil]
    · rw [hrest]
      exact .emptyArray hws
  · obtain ⟨f, hf, hchildren⟩ := ih.array hdoc' hbuilt (by omega) hloop hr
    have hadds := hchildren.adds
    have hnested := hchildren.nested
    rw [List.length_append, List.length_singleton] at hadds
    refine ⟨_, .container rfl he hadds hchildren.keys ?_ (by omega) ?_⟩
    · rw [hchildren.depth, hdepth', Nat.add_sub_cancel]
    · rw [hrest]
      exact .array (hf.skip hws)

theorem parseObject_sound (ih : Sound cap source fuel)
    (hdoc : p.doc = ofEntries es) (hb : Built cap es) (hc : source[p.position]? = some openBrace)
    (h : p.parseObject source parent key (objectLoop source fuel) = some (r, p'))
    (hr : r.succeeded = true) : ∃ t, ReadsValue source es parent key p p' t := by
  obtain ⟨hdepth, out, doc, hmake, hend⟩ := parseContainer_sound h hr
  rw [hdoc] at hmake
  obtain ⟨he, rfl, rfl⟩ := addNode_ok hb hmake rfl
  have hbuilt := hb.concat he
  have hrest := rest_eq_cons hc
  obtain ⟨hws, hdoc', hdepth'⟩ | ⟨q, hws, hdoc', hdepth', hloop⟩ := hend
  · refine ⟨_, .container (f := .nil) rfl he ⟨?_, ?_⟩ id hdepth' hdepth ?_⟩
    · rw [hdoc', Forest.entries, List.append_nil]
    · rwa [Forest.entries, List.append_nil]
    · rw [hrest]
      exact .emptyObject hws
  · have hkind : (entry (es ++ [entryOf .object parent key []]) es.length).kind = .object := by
      rw [entry_concat_length]
      rfl
    obtain ⟨f, hf, hchildren⟩ := ih.object hdoc' hbuilt (by omega) hkind hloop hr
    have hadds := hchildren.adds
    have hnested := hchildren.nested
    rw [List.length_append, List.length_singleton] at hadds
    refine ⟨_, .container rfl he hadds hchildren.keys ?_ (by omega) ?_⟩
    · rw [hchildren.depth, hdepth', Nat.add_sub_cancel]
    · rw [hrest]
      exact .object (hf.skip hws)

theorem parseValue_sound (ih : Sound cap source fuel)
    (hdoc : p.doc = ofEntries es) (hb : Built cap es)
    (hd : p.depth ≤ cap.maxDepth) (h : parseValue source (fuel + 1) parent key p = some (r, p'))
    (hr : r.succeeded = true) : ∃ t, ReadsValue source es parent key p p' t := by
  suffices hsuff : ∃ t, ReadsValue source es parent key (p.skipSpace source) p' t by
    obtain ⟨t, ht⟩ := hsuff
    exact ⟨t, ht.skip ws_skipSpace rfl⟩
  have hdoc' : (p.skipSpace source).doc = ofEntries es := hdoc
  have hd' : (p.skipSpace source).depth ≤ cap.maxDepth := hd
  rw [parseValue] at h
  generalize p.skipSpace source = p at h hdoc' hd' ⊢
  split at h
  · cases h
    cases hr
  next c hc =>
    split_ifs at h with hobject harray hstring htrue hfalse hnull hnumber
    · exact parseObject_sound ih hdoc' hb (hobject ▸ hc) h hr
    · exact parseArray_sound ih hdoc' hb (harray ▸ hc) h hr
    · exact parseStringValue_sound hdoc' hb hd' (Option.some.inj h) hr
    · obtain ⟨q, hrest, hqdoc, hqdepth, hstored⟩ := parseLiteral_sound (Option.some.inj h) hr
      refine ⟨_, .of_stored rfl (hqdoc.trans hdoc') hb hqdepth hd' ?_ hstored.symm hr⟩
      rw [hrest]
      exact .true
    · obtain ⟨q, hrest, hqdoc, hqdepth, hstored⟩ := parseLiteral_sound (Option.some.inj h) hr
      refine ⟨_, .of_stored rfl (hqdoc.trans hdoc') hb hqdepth hd' ?_ hstored.symm hr⟩
      rw [hrest]
      exact .false
    · obtain ⟨q, hrest, hqdoc, hqdepth, hstored⟩ := parseLiteral_sound (Option.some.inj h) hr
      refine ⟨_, .of_stored rfl (hqdoc.trans hdoc') hb hqdepth hd' ?_ hstored.symm hr⟩
      rw [hrest]
      exact .null
    · exact parseNumber_sound hdoc' hb hd' (Option.some.inj h) hr
    · cases Option.some.inj h
      cases hr

theorem sound (cap : Capacity) (source : Bytes) (fuel : ℕ) : Sound cap source fuel := by
  induction fuel with
  | zero => exact ⟨nofun, nofun, nofun⟩
  | succ fuel ih =>
    exact ⟨fun hdoc hb hd h hr => parseValue_sound ih hdoc hb hd h hr,
      fun hdoc hb hd hkind h hr => objectLoop_sound ih hdoc hb hd hkind h hr,
      fun hdoc hb hd h hr => arrayLoop_sound ih hdoc hb hd h hr⟩

end Parser

open Document in
/-- An accepted text is a JSON text, with its tree in the document; the tree has no empty key
and fits. -/
theorem parse_sound {cap : Capacity} {d d' : Document cap} {source : Bytes} {r : Result}
    (h : parse d source = some (r, d')) (hr : r.succeeded = true) :
    ∃ t, Text source t ∧ d' = ofEntries (t.entries 0 none []) ∧ ¬ t.HasEmptyKey ∧
      Built cap (t.entries 0 none []) ∧ t.depth ≤ cap.maxDepth := by
  unfold parse Parser.run at h
  dsimp only at h
  split at h
  · cases h
  next r₁ p₁ hvalue =>
    split at h
    next hr₁ =>
      cases h
      rw [hr] at hr₁
      cases hr₁
    next hr₁ =>
      split at h
      · cases h
        cases hr
      next hend =>
        cases h
        rw [not_not] at hend
        have hstart : (Parser.skipSpace source ⟨.empty, 0, 0⟩ : Parser cap).doc =
            ofEntries [] := rfl
        obtain ⟨t, ht⟩ := (Parser.sound cap source _).value hstart .nil (Nat.zero_le _) hvalue hr
        obtain ⟨a, ha, hta⟩ := ht.text
        refine ⟨t, ⟨a, _, Parser.ws_skipSpace.trans ha, hta, ?_⟩, ht.adds.doc, ht.keys,
          ht.adds.built, ?_⟩
        · have hws : Ws (p₁.rest source) ((p₁.skipSpace source).rest source) := Parser.ws_skipSpace
          rwa [show (p₁.skipSpace source).rest source = [] by
            rw [Parser.rest, hend, List.drop_length]] at hws
        · have hnested : 0 + t.depth ≤ cap.maxDepth := ht.nested
          omega

end Castle.Serialization.Json

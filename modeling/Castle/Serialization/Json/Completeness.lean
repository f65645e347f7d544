import Castle.Serialization.Json.Soundness

/-!
# The parser accepts JSON

The parser succeeds on every value of the grammar whose nodes fit, provided that no key is empty.
-/

namespace Castle.Serialization.Json

/-- A number ends here. -/
def Follow (s : Bytes) : Prop := ∀ c r, s = c :: r → isNumberDelimiter c = true

theorem follow_nil : Follow [] := nofun

theorem follow_cons {c : UInt8} {s : Bytes} (h : isNumberDelimiter c = true) : Follow (c :: s) := by
  intro d r he
  cases he
  exact h

theorem Ws.follow {s r : Bytes} (h : Ws s r) (hr : Follow r) : Follow s := by
  cases h with
  | nil => exact hr
  | cons hc _ => exact follow_cons (by simp [isNumberDelimiter, isSpace_iff.mpr hc])

/-- What follows a number is the end or a delimiter; after other values it is anything. -/
def Ends : Tree → Bytes → Prop
  | .node kind _ _, b => kind = .number → Follow b

theorem Follow.ends {b : Bytes} (h : Follow b) (t : Tree) : Ends t b := by
  cases t
  exact fun _ => h

theorem Ws.dropWhile {s r : Bytes} (h : Ws s r) : s.dropWhile isSpace = r.dropWhile isSpace := by
  induction h with
  | nil => rfl
  | cons hc _ ih => rw [List.dropWhile_cons, if_pos (isSpace_iff.mpr hc), ih]

theorem Ws.dropWhile_eq {s r : Bytes} {c : UInt8} (h : Ws s (c :: r)) (hc : isSpace c = false) :
    s.dropWhile isSpace = c :: r := by
  rw [h.dropWhile, List.dropWhile_cons, if_neg (by simp [hc])]

theorem Ws.length_le {s r : Bytes} (h : Ws s r) : r.length ≤ s.length := by
  induction h with
  | nil => exact Nat.le_refl _
  | cons _ _ ih => exact Nat.le_succ_of_le ih

theorem number_head {c : UInt8} (h : c = minus ∨ isDigit c = true) : isSpace c = false ∧
    c ≠ openBrace ∧ c ≠ openBracket ∧ c ≠ closeBracket ∧ c ≠ quote ∧ c ≠ letterLowerT ∧
      c ≠ letterLowerF ∧ c ≠ letterLowerN := by
  have hchar : isNumberChar c = true := by
    rcases h with rfl | h
    · rfl
    · simp [isNumberChar, h]
  have hspace : isSpace c = false := by
    have hd := isNumberChar_not_delimiter hchar
    unfold isNumberDelimiter at hd
    simp only [Bool.or_eq_false_iff] at hd
    exact hd.1.1.1
  refine ⟨hspace, ?_, ?_, ?_, ?_, ?_, ?_, ?_⟩ <;> rintro rfl <;> exact absurd hchar (by decide)

theorem Value.head {s r : Bytes} {t : Tree} (h : Value s t r) :
    ∃ c a, s = c :: a ∧ isSpace c = Bool.false ∧ c ≠ closeBracket := by
  cases h with
  | number ht =>
    obtain ⟨c, a, rfl, hc⟩ := ht.cons
    exact ⟨c, _, rfl, (number_head hc).1, (number_head hc).2.2.2.1⟩
  | _ => exact ⟨_, _, rfl, rfl, by decide⟩

theorem Elements.dropWhile_eq {s r : Bytes} {f : Forest} (h : Elements s f r) :
    ∃ c a, s.dropWhile isSpace = c :: a ∧ c ≠ closeBracket := by
  cases h with
  | last hs ht _ | cons hs ht _ _ =>
    obtain ⟨c, a, rfl, hc, hne⟩ := ht.head
    exact ⟨c, a, hs.dropWhile_eq hc, hne⟩

theorem Members.dropWhile_eq {s r : Bytes} {f : Forest} (h : Members s f r) :
    ∃ a, s.dropWhile isSpace = quote :: a := by
  cases h with
  | last hs _ _ _ _ _ | cons hs _ _ _ _ _ _ => exact ⟨_, hs.dropWhile_eq rfl⟩

theorem key_length {s a b c d k : Bytes} (hs : Ws s (quote :: a)) (hk : Chars a k b) (hb : Ws b (colon :: c))
    (hc : Ws c d) : d.length + 2 ≤ s.length := by
  have h₁ := hs.length_le
  have h₂ := hk.suffix.length_le
  have h₃ := hb.length_le
  have h₄ := hc.length_le
  rw [List.length_cons] at h₁ h₃
  omega

mutual

theorem Value.length_lt : ∀ {t : Tree} {s r : Bytes}, Value s t r → r.length < s.length
  | .node _ _ children, s, r, h => by
    cases h with
    | null | true | false =>
      simp only [List.cons_append, List.nil_append, List.length_cons]
      omega
    | number ht =>
      obtain ⟨c, a, rfl, -⟩ := ht.cons
      rw [List.cons_append, List.length_cons, List.length_append]
      omega
    | string hs =>
      have hlen := hs.suffix.length_le
      rw [List.length_cons]
      omega
    | emptyArray hs | emptyObject hs =>
      have hlen := hs.length_le
      rw [List.length_cons] at hlen ⊢
      omega
    | array hs =>
      have hlen := Elements.length_lt hs
      rw [List.length_cons]
      omega
    | object hs =>
      have hlen := Members.length_lt hs
      rw [List.length_cons]
      omega

theorem Elements.length_lt : ∀ {f : Forest} {s r : Bytes}, Elements s f r → r.length < s.length
  | .nil, _, _, h => nomatch h
  | .cons _ child rest, s, r, h => by
    cases h with
    | last hs ht hb =>
      have h₁ := hs.length_le
      have h₂ := Value.length_lt ht
      have h₃ := hb.length_le
      rw [List.length_cons] at h₃
      omega
    | cons hs ht hb hf =>
      have h₁ := hs.length_le
      have h₂ := Value.length_lt ht
      have h₃ := hb.length_le
      have h₄ := Elements.length_lt hf
      rw [List.length_cons] at h₃
      omega

theorem Members.length_lt : ∀ {f : Forest} {s r : Bytes}, Members s f r → r.length < s.length
  | .nil, _, _, h => nomatch h
  | .cons _ child rest, s, r, h => by
    cases h with
    | last hs hk hb hc ht he =>
      have hkey := key_length hs hk hb hc
      have h₅ := Value.length_lt ht
      have h₆ := he.length_le
      rw [List.length_cons] at h₆
      omega
    | cons hs hk hb hc ht he hf =>
      have hkey := key_length hs hk hb hc
      have h₅ := Value.length_lt ht
      have h₆ := he.length_le
      have h₇ := Members.length_lt hf
      rw [List.length_cons] at h₆
      omega

end

namespace Parser

open Document Entries

variable {cap : Capacity} {source s a b : Bytes} {es : Entries} {p : Parser cap}
  {parent : Option ℕ} {key : Bytes} {c : UInt8}

theorem position_eq (h : p.rest source = c :: s) : source[p.position]? = some c := by
  rw [getElem?_position, h, List.head?_cons]

theorem position_lt (h : p.rest source = c :: s) : p.position < source.length :=
  (List.getElem?_eq_some_iff.mp (position_eq h)).1

theorem skipSpace_le (h : p.position ≤ source.length) :
    (p.skipSpace source).position ≤ source.length := by
  have hlen := (List.takeWhile_prefix isSpace (l := source.drop p.position)).length_le
  rw [List.length_drop] at hlen
  show p.position + _ ≤ _
  omega

/-- The parser is at the end of what it had to read. -/
structure Done (source : Bytes) (p : Parser cap) (b : Bytes) (doc : Document cap) (depth : ℕ) :
    Prop where
  rest : p.rest source = b
  doc : p.doc = doc
  depth : p.depth = depth
  position : p.position ≤ source.length

theorem skipSpace_done (hws : Ws (p.rest source) (c :: a)) (hc : isSpace c = false)
    (hp : p.position ≤ source.length) : Done source (p.skipSpace source) (c :: a) p.doc p.depth :=
  ⟨by rw [rest_skipSpace, hws.dropWhile_eq hc], rfl, rfl, skipSpace_le hp⟩

theorem Done.advance {doc : Document cap} {depth : ℕ} (h : Done source p (c :: a) doc depth) :
    Done source p.advance a doc depth :=
  ⟨by rw [rest_advance, h.rest, List.tail_cons], h.doc, h.depth, position_lt h.rest⟩

theorem stored_admitted {kind : Kind} {value : Bytes} (hdoc : p.doc = ofEntries es)
    (hb : Built cap es) (he : Admits cap es (entryOf kind parent key value)) :
    p.stored (p.doc.addNode kind parent key value) =
      ({}, { p with doc := ofEntries (es ++ [entryOf kind parent key value]) }) := by
  rw [hdoc, addNode_admitted hb he]
  rfl

/-- The nodes of `t` can be added below `parent`, at the depth of the parser. -/
structure Ready (source : Bytes) (es : Entries) (parent : Option ℕ) (key : Bytes) (t : Tree)
    (p : Parser cap) : Prop where
  doc : p.doc = ofEntries es
  built : Built cap es
  placed : Placed es parent key
  keys : ¬ t.HasEmptyKey
  nodes : es.length + t.size ≤ cap.maxNodes
  bytes : Entries.bytes es + (key.length + t.bytes) ≤ cap.maxStringBytes
  nested : p.depth + t.depth ≤ cap.maxDepth
  position : p.position ≤ source.length

theorem Ready.skipSpace {t : Tree} (h : Ready source es parent key t p) :
    Ready source es parent key t (p.skipSpace source) :=
  ⟨h.doc, h.built, h.placed, h.keys, h.nodes, h.bytes, h.nested, skipSpace_le h.position⟩

theorem Ready.admits {kind : Kind} {value : Bytes} {children : Forest}
    (h : Ready source es parent key (.node kind value children) p) :
    Admits cap es ⟨kind, parent, key, value⟩ := by
  have hnodes := h.nodes
  have hbytes := h.bytes
  simp only [Tree.size, Tree.bytes] at hnodes hbytes
  refine ⟨h.placed, by omega, ?_⟩
  show Entries.bytes es + (key.length + value.length) ≤ _
  omega

/-- Everything was read up to `b`, and the nodes were added. -/
structure Completed (source : Bytes) (es new : Entries) (b : Bytes) (depth : ℕ)
    (p : Parser cap) : Prop where
  done : Done source p b (ofEntries (es ++ new)) depth
  built : Built cap (es ++ new)

theorem Ready.stored {kind : Kind} {value : Bytes} {q : Parser cap}
    (h : Ready source es parent key (.node kind value .nil) p) (hk : kind.isContainer = false)
    (hq : Done source q b p.doc p.depth) : ∃ p' : Parser cap,
      q.stored (q.doc.addNode kind parent key value) = ({}, p') ∧ Completed source es
        ((Tree.node kind value .nil).entries es.length parent key) b p.depth p' := by
  have hentry : entryOf kind parent key value = ⟨kind, parent, key, value⟩ := by
    simp [entryOf, hk]
  have hadmits : Admits cap es (entryOf kind parent key value) := by
    rw [hentry]
    exact h.admits
  have hbuilt := h.built.concat hadmits
  have hstored := stored_admitted (hq.doc.trans h.doc) h.built hadmits
  rw [hentry] at hbuilt hstored
  exact ⟨_, hstored, ⟨hq.rest, rfl, hq.depth, hq.position⟩, hbuilt⟩

theorem done_drop {n : ℕ} (hrest : p.rest source = s ++ b) (hn : s.length = n)
    (hp : p.position ≤ source.length) :
    Done source { p with position := p.position + n } b p.doc p.depth := by
  have hlen := congrArg List.length hrest
  rw [rest, List.length_drop, List.length_append] at hlen
  refine ⟨?_, rfl, rfl, ?_⟩
  · show source.drop (p.position + n) = b
    rw [← List.drop_drop, ← hn]
    show (p.rest source).drop s.length = b
    rw [hrest, List.drop_left]
  · show p.position + n ≤ source.length
    omega

theorem parseLiteral_complete {literal : Bytes} {kind : Kind}
    (hrest : p.rest source = literal ++ b) (hp : p.position ≤ source.length) :
    p.parseLiteral source parent key literal kind =
      let q : Parser cap := { p with position := p.position + literal.length }
      if kind = .boolean then
        q.stored (q.doc.setBool (literal.head? = some letterLowerT) parent key)
      else q.stored (q.doc.setNull parent key) := by
  have hlen := congrArg List.length hrest
  rw [rest, List.length_drop, List.length_append] at hlen
  have htake : (source.drop p.position).take literal.length = literal := by
    show (p.rest source).take literal.length = literal
    rw [hrest, List.take_left]
  unfold parseLiteral
  rw [if_neg (by omega), if_neg (not_not.mpr htake)]

theorem decodeString_done {v : Bytes} (hrest : p.rest source = quote :: s) (hs : Chars s v b)
    (hroom : v.length ≤ cap.maxStringBytes) (hp : p.position ≤ source.length) : ∃ position,
      decodeString cap.maxStringBytes source p.position = ({}, position, v) ∧
        Done source { p with position := position } b p.doc p.depth := by
  obtain ⟨s', rfl⟩ := hs.suffix
  have hsplit : p.rest source = (quote :: s') ++ b := by rw [hrest, List.cons_append]
  have hposition : p.position + 1 + ((s' ++ b).length - b.length) =
      p.position + (quote :: s').length := by
    rw [List.length_append, List.length_cons]
    omega
  refine ⟨_, ?_, done_drop hsplit rfl hp⟩
  rw [decodeString_complete hrest hs hroom, hposition]

theorem parseStringValue_complete {v : Bytes} (hrest : p.rest source = quote :: s)
    (hs : Chars s v b) (hroom : v.length ≤ cap.maxStringBytes) (hp : p.position ≤ source.length) :
    ∃ q, Done source q b p.doc p.depth ∧ p.parseStringValue source parent key =
      q.stored (q.doc.addNode .string parent key v) := by
  obtain ⟨position, hdecode, hdone⟩ := decodeString_done hrest hs hroom hp
  refine ⟨_, hdone, ?_⟩
  unfold parseStringValue
  rw [hdecode]
  rfl

theorem scanNumber_complete {t : Bytes} {position : ℕ} (ht : ∀ c ∈ t, isNumberChar c = true)
    (hb : Follow b) : scanNumber (t ++ b) position = (true, position + t.length) := by
  induction t generalizing position with
  | nil =>
    cases b with
    | nil => rfl
    | cons c b => rw [List.nil_append, scanNumber, if_pos (hb c b rfl), List.length_nil]; rfl
  | cons c t ih =>
    have hc := ht c (by simp)
    rw [List.cons_append, scanNumber, if_neg (by simp [isNumberChar_not_delimiter hc]),
      if_neg (by simp [hc]), ih fun d hd => ht d (by simp [hd])]
    rw [List.length_cons, Nat.add_assoc, Nat.add_comm 1]

theorem parseNumber_complete {t : Bytes} (hrest : p.rest source = t ++ b) (ht : IsNumber t)
    (hb : Follow b) (hp : p.position ≤ source.length) : ∃ q, Done source q b p.doc p.depth ∧
    p.parseNumber source parent key = q.stored (q.doc.addNode .number parent key t) := by
  have hdone := done_drop hrest rfl hp
  have htake : (source.drop p.position).take (p.position + t.length - p.position) = t := by
    rw [Nat.add_sub_cancel_left]
    show (p.rest source).take t.length = t
    rw [hrest, List.take_left]
  have hscan : scanNumber (source.drop p.position) p.position = (true, p.position + t.length) := by
    show scanNumber (p.rest source) p.position = _
    rw [hrest, scanNumber_complete ht.chars hb]
  have hvalid : ¬ (!validNumber t) = true := by simp [validNumber_iff.mpr ht]
  refine ⟨_, hdone, ?_⟩
  unfold parseNumber
  dsimp only
  rw [hscan]
  dsimp only
  rw [if_neg (by simp), htake, if_neg hvalid, setNumber, if_neg hvalid]

theorem afterChild_close {close : UInt8} {loop : Parser cap → Option (Result × Parser cap)}
    (hws : Ws (p.rest source) (close :: b)) (hc : isSpace close = false)
    (hp : p.position ≤ source.length) : ∃ p', p.afterChild source close loop = some ({}, p') ∧
      Done source p' b p.doc (p.depth - 1) := by
  have hdone := skipSpace_done hws hc hp
  have hnext := hdone.advance
  refine ⟨(p.skipSpace source).advance.leave, ?_, hnext.rest, rfl, rfl, hnext.position⟩
  unfold afterChild
  dsimp only
  rw [position_eq hdone.rest, if_pos rfl]

theorem afterChild_comma {close : UInt8} (loop : Parser cap → Option (Result × Parser cap))
    (hws : Ws (p.rest source) (comma :: s)) (hne : close ≠ comma)
    (hp : p.position ≤ source.length) : ∃ q, p.afterChild source close loop = loop q ∧
      Done source q (s.dropWhile isSpace) p.doc p.depth := by
  have hdone := skipSpace_done hws rfl hp
  have hnext := hdone.advance
  refine ⟨(p.skipSpace source).advance.skipSpace source, ?_, ?_, rfl, rfl,
    skipSpace_le hnext.position⟩
  · unfold afterChild
    dsimp only
    rw [position_eq hdone.rest, if_neg fun h => hne (Option.some.inj h).symm,
      if_neg (not_not.mpr rfl)]
  · rw [rest_skipSpace, hnext.rest]

theorem parseContainer_complete {kind : Kind} (close : UInt8)
    (loop : Option ℕ → Parser cap → Option (Result × Parser cap)) (hdoc : p.doc = ofEntries es)
    (hb : Built cap es) (he : Admits cap es (entryOf kind parent key []))
    (hd : p.depth < cap.maxDepth) (hrest : p.rest source = c :: s) : ∃ q :
    Parser cap, Done source q (s.dropWhile isSpace) (ofEntries (es ++ [entryOf kind parent key []]))
    (p.depth + 1) ∧ p.parseContainer source (fun doc => doc.addNode kind parent key []) close loop =
    if source[q.position]? =
    some close then some ({}, q.advance.leave) else loop (some es.length) q := by
  have hadvance : p.advance.rest source = s := by rw [rest_advance, hrest, List.tail_cons]
  refine ⟨skipSpace source ⟨ofEntries (es ++ [entryOf kind parent key []]), p.position + 1,
    p.depth + 1⟩, ⟨?_, rfl, rfl, skipSpace_le (position_lt hrest)⟩, ?_⟩
  · rw [rest_skipSpace]
    exact congrArg _ hadvance
  · have hadd : p.advance.doc.addNode kind parent key [] =
        (.ok, some es.length, ofEntries (es ++ [entryOf kind parent key []])) := by
      rw [show p.advance.doc = ofEntries es from hdoc, addNode_admitted hb he]
    unfold parseContainer
    dsimp only
    rw [if_neg (by omega), hadd, if_neg (not_not.mpr rfl)]
    rfl

theorem entryOf_container {kind : Kind} : entryOf kind parent key [] = ⟨kind, parent, key, []⟩ := by
  rw [entryOf, ite_self]

theorem Ready.container {kind : Kind} {children : Forest}
    (close : UInt8) (loop : Option ℕ → Parser cap → Option (Result × Parser cap))
    (h : Ready source es parent key (.node kind [] children) p) (hk : kind.isContainer = true)
    (hrest : p.rest source = c :: s) : ∃ q : Parser cap, Done source q (s.dropWhile isSpace)
    (ofEntries (es ++ [⟨kind, parent, key, []⟩])) (p.depth + 1) ∧ p.parseContainer source
    (fun doc => doc.addNode kind parent key []) close loop = if source[q.position]? =
    some close then some ({}, q.advance.leave) else loop (some es.length) q := by
  have hnested := h.nested
  simp only [Tree.depth, hk, if_true] at hnested
  rw [← entryOf_container]
  exact parseContainer_complete close loop h.doc h.built (entryOf_container ▸ h.admits) (by omega)
    hrest

/-- The same for the children of the node `q`. -/
structure ReadyChildren (source : Bytes) (kind : Kind) (es : Entries) (q : ℕ) (f : Forest)
    (p : Parser cap) : Prop where
  doc : p.doc = ofEntries es
  built : Built cap es
  parent : q < es.length
  isKind : (entry es q).kind = kind
  valid : f.Valid kind
  keys : ¬ f.HasEmptyKey kind
  nodes : es.length + f.size ≤ cap.maxNodes
  bytes : Entries.bytes es + f.bytes ≤ cap.maxStringBytes
  nested : p.depth + f.depth ≤ cap.maxDepth
  position : p.position ≤ source.length

section children

variable {kind : Kind} {q : ℕ} {t : Tree} {f : Forest} {p₁ : Parser cap}

theorem ReadyChildren.head (h : ReadyChildren source kind es q (.cons key t f) p)
    (hdoc : p₁.doc = p.doc) (hdepth : p₁.depth = p.depth) (hp : p₁.position ≤ source.length) :
    Ready source es (some q) key t p₁ := by
  have hnodes := h.nodes
  have hbytes := h.bytes
  have hnested := h.nested
  have hkind := h.isKind
  simp only [Forest.size, Forest.bytes, Forest.depth] at hnodes hbytes hnested
  refine ⟨hdoc.trans h.doc, h.built, ⟨by simp, ?_, ?_, ?_⟩, fun ht => h.keys (.inr (.inl ht)),
    by omega, by omega, by omega, hp⟩
  · intro p hp
    cases hp
    exact h.parent
  · intro p hp ho he
    cases hp
    exact h.keys (.inl ⟨hkind.symm.trans ho, he⟩)
  · intro p hp ha
    cases hp
    exact h.valid.1 (hkind.symm.trans ha)

theorem ReadyChildren.tail (h : ReadyChildren source kind es q (.cons key t f) p)
    (hbuilt : Built cap (es ++ t.entries es.length (some q) key))
    (hdoc : p₁.doc = ofEntries (es ++ t.entries es.length (some q) key))
    (hdepth : p₁.depth = p.depth) (hp : p₁.position ≤ source.length) :
    ReadyChildren source kind (es ++ t.entries es.length (some q) key) q f p₁ := by
  have hnodes := h.nodes
  have hbytes := h.bytes
  have hnested := h.nested
  simp only [Forest.size, Forest.bytes, Forest.depth] at hnodes hbytes hnested
  refine ⟨hdoc, hbuilt, ?_, ?_, h.valid.2.2, fun hf => h.keys (.inr (.inr hf)), ?_, ?_,
    by omega, hp⟩
  · rw [List.length_append]
    exact Nat.lt_add_right _ h.parent
  · rw [entry_append _ h.parent]
    exact h.isKind
  · rw [List.length_append, Tree.length_entries]
    omega
  · rw [bytes_append, Tree.bytes_entries]
    omega

theorem Ready.children (h : Ready source es parent key (.node kind [] f) p)
    (hk : kind.isContainer = true) (hvalid : f.Valid kind)
    (hq : Done source p₁ b (ofEntries (es ++ [⟨kind, parent, key, []⟩])) (p.depth + 1)) :
    ReadyChildren source kind (es ++ [⟨kind, parent, key, []⟩]) es.length f p₁ := by
  have hnodes := h.nodes
  have hbytes := h.bytes
  have hnested := h.nested
  have hdepth := hq.depth
  simp only [Tree.size, Tree.bytes, Tree.depth, hk, if_true, List.length_nil] at hnodes hbytes hnested
  refine ⟨hq.doc, h.built.concat h.admits, by simp, by rw [entry_concat_length], hvalid, h.keys,
    ?_, ?_, by omega, hq.position⟩
  · rw [List.length_append, List.length_singleton]
    omega
  · rw [bytes_append, bytes_singleton]
    simp only [List.length_nil]
    omega

theorem parseContainer_empty
    {close : UInt8} {loop : Option ℕ → Parser cap → Option (Result × Parser cap)}
    (h : Ready source es parent key (.node kind [] .nil) p) (hk : kind.isContainer = true)
    (hrest : p.rest source = c :: s) (hs : Ws s (close :: b)) (hc : isSpace close = false) : ∃ p',
    p.parseContainer source (fun doc => doc.addNode kind parent key []) close loop = some ({}, p') ∧
    Completed source es ((Tree.node kind [] .nil).entries es.length parent key) b p.depth p' := by
  obtain ⟨q, hq, hparse⟩ := h.container close loop hk hrest
  have hclose := hq.rest.trans (hs.dropWhile_eq hc)
  have hdone : Done source q (close :: b) _ _ := ⟨hclose, hq.doc, hq.depth, hq.position⟩
  have hnext := hdone.advance
  rw [position_eq hclose, if_pos rfl] at hparse
  refine ⟨_, hparse, ⟨hnext.rest, hnext.doc, ?_, hnext.position⟩, h.built.concat h.admits⟩
  show q.depth - 1 = p.depth
  rw [hq.depth, Nat.add_sub_cancel]

theorem parseContainer_children {close d : UInt8} {s' : Bytes}
    {loop : Option ℕ → Parser cap → Option (Result × Parser cap)}
    (h : Ready source es parent key (.node kind [] f) p) (hk : kind.isContainer = true)
    (hrest : p.rest source = c :: s) (hs : s.dropWhile isSpace = d :: s') (hne : d ≠ close)
    (hvalid : f.Valid kind)
    (hloop : ∀ p₁ : Parser cap, p₁.rest source = s.dropWhile isSpace →
      ReadyChildren source kind (es ++ [⟨kind, parent, key, []⟩]) es.length f p₁ →
        ∃ p', loop (some es.length) p₁ = some ({}, p') ∧
          Completed source (es ++ [⟨kind, parent, key, []⟩])
            (f.entries (es.length + 1) es.length) b (p₁.depth - 1) p') :
    ∃ p', p.parseContainer source (fun doc => doc.addNode kind parent key []) close loop =
        some ({}, p') ∧
      Completed source es ((Tree.node kind [] f).entries es.length parent key) b p.depth p' := by
  obtain ⟨q, hq, hparse⟩ := h.container close loop hk hrest
  obtain ⟨p', hp', hend⟩ := hloop q hq.rest (h.children hk hvalid hq)
  have hentries : es ++ (Tree.node kind [] f).entries es.length parent key =
      es ++ [⟨kind, parent, key, []⟩] ++ f.entries (es.length + 1) es.length := by
    rw [Tree.entries, List.append_assoc]
    rfl
  rw [position_eq (hq.rest.trans hs), if_neg fun hd => hne (Option.some.inj hd), hp'] at hparse
  refine ⟨p', hparse, ?_, ?_⟩
  · have hdone := hend.done
    rw [hq.depth, Nat.add_sub_cancel] at hdone
    rw [hentries]
    exact hdone
  · rw [hentries]
    exact hend.built

theorem Completed.last {b' : Bytes} {p' : Parser cap} {level : ℕ}
    (h : Completed source es (t.entries es.length (some q) key) b p.depth p₁)
    (hdone : Done source p' b' p₁.doc (p₁.depth - 1)) (hlevel : p.depth = level) :
    Completed source es ((Forest.cons key t .nil).entries es.length q) b' (level - 1) p' := by
  have hentries : (Forest.cons key t .nil).entries es.length q =
      t.entries es.length (some q) key := by
    rw [Forest.entries, Forest.entries, List.append_nil]
  rw [hentries]
  refine ⟨⟨hdone.rest, hdone.doc.trans h.done.doc, ?_, hdone.position⟩, h.built⟩
  rw [hdone.depth, h.done.depth, hlevel]

theorem Completed.cons {b' : Bytes} {p' : Parser cap} {level : ℕ}
    (h : Completed source (es ++ t.entries es.length (some q) key)
      (f.entries (es ++ t.entries es.length (some q) key).length q) b' level p') :
    Completed source es ((Forest.cons key t f).entries es.length q) b' level p' := by
  have hentries : es ++ (Forest.cons key t f).entries es.length q =
      (es ++ t.entries es.length (some q) key) ++
        f.entries (es ++ t.entries es.length (some q) key).length q := by
    rw [Forest.entries, List.append_assoc, List.length_append, Tree.length_entries]
  constructor
  · rw [hentries]
    exact h.done
  · rw [hentries]
    exact h.built

end children

theorem parseValue_eq {fuel : ℕ} (hws : Ws (p.rest source) (c :: a)) (hc : isSpace c = false)
    (hp : p.position ≤ source.length) : parseValue source (fuel + 1) parent key p =
    if c = openBrace then (p.skipSpace source).parseObject source parent key
    (objectLoop source fuel) else if c = openBracket then (p.skipSpace source).parseArray
    source parent key (arrayLoop source fuel) else if c = quote then some
    ((p.skipSpace source).parseStringValue source parent key) else if c = letterLowerT then some
    ((p.skipSpace source).parseLiteral source parent key trueText .boolean) else if c = letterLowerF
    then some ((p.skipSpace source).parseLiteral source parent key falseText .boolean) else if c =
    letterLowerN then some ((p.skipSpace source).parseLiteral source parent key nullText .null)
    else if c = minus || isDigit c then some ((p.skipSpace source).parseNumber source parent key)
    else some ((p.skipSpace source).fail source .unexpectedToken, p.skipSpace source) := by
  rw [parseValue, position_eq (skipSpace_done hws hc hp).rest]

theorem parseValue_scalar
    {kind : Kind} {value : Bytes} (fuel : ℕ) (h : Value a (.node kind value .nil) b)
    (hk : kind.isContainer = false) (hends : Ends (.node kind value .nil) b)
    (hroom : kind = .string → value.length ≤ cap.maxStringBytes) (hws : Ws (p.rest source) a)
    (hp : p.position ≤ source.length) : ∃ q, Done source q b p.doc p.depth ∧ parseValue source
    (fuel + 1) parent key p = some (q.stored (q.doc.addNode kind parent key value)) := by
  obtain ⟨c, s, hcs, hspace, -⟩ := h.head
  rw [hcs] at hws
  have hdone := skipSpace_done hws hspace hp
  have hrest := hdone.rest
  rw [← hcs] at hrest
  rw [parseValue_eq hws hspace hp]
  cases h with
  | null =>
    cases hcs
    have hq := done_drop hrest rfl hdone.position
    refine ⟨_, hq, ?_⟩
    rw [if_neg (by decide), if_neg (by decide), if_neg (by decide), if_neg (by decide),
      if_neg (by decide), if_pos rfl, parseLiteral_complete hrest hdone.position]
    rfl
  | true =>
    cases hcs
    have hq := done_drop hrest rfl hdone.position
    refine ⟨_, hq, ?_⟩
    rw [if_neg (by decide), if_neg (by decide), if_neg (by decide), if_pos rfl,
      parseLiteral_complete hrest hdone.position]
    rfl
  | false =>
    cases hcs
    have hq := done_drop hrest rfl hdone.position
    refine ⟨_, hq, ?_⟩
    rw [if_neg (by decide), if_neg (by decide), if_neg (by decide), if_neg (by decide),
      if_pos rfl, parseLiteral_complete hrest hdone.position]
    rfl
  | number ht =>
    obtain ⟨d, u, rfl, hd⟩ := ht.cons
    cases hcs
    obtain ⟨-, h₁, h₂, -, h₃, h₄, h₅, h₆⟩ := number_head hd
    obtain ⟨q, hq, hparse⟩ := parseNumber_complete hrest ht (hends rfl) hdone.position
    refine ⟨q, hq, ?_⟩
    rw [if_neg h₁, if_neg h₂, if_neg h₃, if_neg h₄, if_neg h₅, if_neg h₆,
      if_pos (by simpa using hd), hparse]
  | string hs =>
    cases hcs
    obtain ⟨q, hq, hparse⟩ := parseStringValue_complete hrest hs (hroom rfl) hdone.position
    refine ⟨q, hq, ?_⟩
    rw [if_neg (by decide), if_neg (by decide), if_pos rfl, hparse]
  | emptyArray | emptyObject | array | object => cases hk

theorem objectLoop_key {s' : Bytes} (out : Option ℕ) (fuel : ℕ) (hrest : p.rest source = quote :: s)
    (hk : Chars s key b) (hb : Ws b (colon :: s')) (hroom : key.length ≤ cap.maxStringBytes)
    (hp : p.position ≤ source.length) : ∃ q, Done source q s' p.doc p.depth ∧
      objectLoop source (fuel + 1) out p =
        match parseValue source fuel out key q with
        | none => none
        | some (vr, p) =>
          if !vr.succeeded then some (vr, p.leave)
          else p.afterChild source closeBrace (objectLoop source fuel out) := by
  obtain ⟨position, hdecode, hdone⟩ := decodeString_done hrest hk hroom hp
  have hcolon := skipSpace_done (hdone.rest ▸ hb) rfl hdone.position
  refine ⟨_, hcolon.advance, ?_⟩
  rw [objectLoop, position_eq hrest]
  dsimp only
  rw [if_neg (not_not.mpr rfl), hdecode]
  dsimp only
  rw [if_neg (by decide), position_eq hcolon.rest]
  exact if_neg (not_not.mpr rfl)

mutual

theorem parseValue_complete : ∀ {t : Tree} {a b : Bytes} {es : Entries} {parent : Option ℕ}
    {key : Bytes} {p : Parser cap} {fuel : ℕ}, Value a t b → Ends t b → Ws (p.rest source) a →
      Ready source es parent key t p → 2 * a.length + 1 ≤ fuel →
        ∃ p', parseValue source fuel parent key p = some ({}, p') ∧
          Completed source es (t.entries es.length parent key) b p.depth p'
  | .node kind value f, a, b, es, parent, key, p, fuel, h, hends, hws, hready, hfuel => by
    obtain ⟨n, rfl⟩ := Nat.exists_eq_succ_of_ne_zero (Nat.ne_zero_of_lt hfuel)
    have hscalar (hk : kind.isContainer = Bool.false) (hf : f = .nil) :
        ∃ p', parseValue source (n + 1) parent key p = some ({}, p') ∧
          Completed source es ((Tree.node kind value f).entries es.length parent key) b p.depth p' := by
      subst hf
      have hbytes := hready.bytes
      simp only [Tree.bytes] at hbytes
      obtain ⟨q, hq, hparse⟩ := parseValue_scalar n h hk hends (fun _ => by omega) hws hready.position
      obtain ⟨p', hp', hend⟩ := hready.stored hk hq
      exact ⟨p', hparse.trans (congrArg some hp'), hend⟩
    have hr := hready.skipSpace
    obtain ⟨c, s, hcs, hspace, -⟩ := h.head
    rw [hcs] at hws
    have hdone := skipSpace_done hws hspace hready.position
    have hrest := hdone.rest
    rw [← hcs] at hrest
    cases h with
    | null | true | false | number | string => exact hscalar rfl rfl
    | emptyArray hs =>
      cases hcs
      rw [parseValue_eq hws hspace hready.position, if_neg (by decide), if_pos rfl]
      exact parseContainer_empty hr rfl hrest hs rfl
    | array hs =>
      cases hcs
      obtain ⟨d, s', hd, hne⟩ := hs.dropWhile_eq
      rw [parseValue_eq hws hspace hready.position, if_neg (by decide), if_pos rfl]
      refine parseContainer_children hr rfl hrest hd hne hs.valid fun p₁ hp₁ hready₁ => ?_
      have hloop := arrayLoop_complete hs hp₁ hready₁
        (by rw [List.length_cons] at hfuel; omega : _ ≤ n)
      rwa [List.length_append, List.length_singleton] at hloop
    | emptyObject hs =>
      cases hcs
      rw [parseValue_eq hws hspace hready.position, if_pos rfl]
      exact parseContainer_empty hr rfl hrest hs rfl
    | object hs =>
      cases hcs
      obtain ⟨s', hd⟩ := hs.dropWhile_eq
      rw [parseValue_eq hws hspace hready.position, if_pos rfl]
      refine parseContainer_children hr rfl hrest hd (by decide) hs.valid fun p₁ hp₁ hready₁ => ?_
      have hloop := objectLoop_complete hs hp₁ hready₁
        (by rw [List.length_cons] at hfuel; omega : _ ≤ n)
      rwa [List.length_append, List.length_singleton] at hloop

theorem arrayLoop_complete : ∀ {f : Forest} {s b : Bytes} {es : Entries} {q : ℕ}
    {p : Parser cap} {fuel : ℕ}, Elements s f b → p.rest source = s.dropWhile isSpace →
      ReadyChildren source .array es q f p → 2 * s.length + 2 ≤ fuel →
        ∃ p', arrayLoop source fuel (some q) p = some ({}, p') ∧
          Completed source es (f.entries es.length q) b (p.depth - 1) p'
  | .nil, _, _, _, _, _, _, h, _, _, _ => nomatch h
  | .cons key child f, s, b, es, q, p, fuel, h, hrest, hready, hfuel => by
    obtain ⟨n, rfl⟩ := Nat.exists_eq_succ_of_ne_zero (Nat.ne_zero_of_lt hfuel)
    rw [Nat.succ_eq_add_one, arrayLoop]
    cases h with
    | @last _ a b' _ _ hs ht hb =>
      obtain ⟨c, a', rfl, hc, -⟩ := ht.head
      rw [hs.dropWhile_eq hc] at hrest
      have hlen := hs.length_le
      have hhead := hready.head rfl rfl hready.position
      obtain ⟨p₁, hp₁, hend⟩ := parseValue_complete ht ((hb.follow (follow_cons rfl)).ends _)
        (hrest ▸ .nil) hhead (by omega : _ ≤ n)
      obtain ⟨p', hp', hdone⟩ := afterChild_close (hend.done.rest ▸ hb) rfl hend.done.position
      refine ⟨p', ?_, hend.last hdone rfl⟩
      rw [position_eq hrest, hp₁]
      exact hp'
    | @cons _ a b' s' _ _ _ hs ht hb hf =>
      obtain ⟨c, a', rfl, hc, -⟩ := ht.head
      rw [hs.dropWhile_eq hc] at hrest
      have hlen := hs.length_le
      have hlen' := hb.length_le
      have hlt := ht.length_lt
      rw [List.length_cons] at hlen hlen' hlt
      have hhead := hready.head rfl rfl hready.position
      obtain ⟨p₁, hp₁, hend⟩ := parseValue_complete ht ((hb.follow (follow_cons rfl)).ends _)
        (hrest ▸ .nil) hhead (by rw [List.length_cons]; omega : _ ≤ n)
      obtain ⟨p₂, hp₂, hdone⟩ := afterChild_comma _ (hend.done.rest ▸ hb)
        (by decide : closeBracket ≠ comma) hend.done.position
      obtain ⟨p', hp', hend'⟩ := arrayLoop_complete hf hdone.rest
        (hready.tail hend.built (hdone.doc.trans hend.done.doc) (hdone.depth.trans hend.done.depth)
          hdone.position) (by omega : _ ≤ n)
      rw [hdone.depth, hend.done.depth] at hend'
      refine ⟨p', ?_, hend'.cons⟩
      rw [position_eq hrest, hp₁]
      exact hp₂.trans hp'

theorem objectLoop_complete : ∀ {f : Forest} {s b : Bytes} {es : Entries} {q : ℕ}
    {p : Parser cap} {fuel : ℕ}, Members s f b → p.rest source = s.dropWhile isSpace →
      ReadyChildren source .object es q f p → 2 * s.length + 2 ≤ fuel →
        ∃ p', objectLoop source fuel (some q) p = some ({}, p') ∧
          Completed source es (f.entries es.length q) b (p.depth - 1) p'
  | .nil, _, _, _, _, _, _, h, _, _, _ => nomatch h
  | .cons key child f, s, b, es, q, p, fuel, h, hrest, hready, hfuel => by
    obtain ⟨n, rfl⟩ := Nat.exists_eq_succ_of_ne_zero (Nat.ne_zero_of_lt hfuel)
    have hbytes := hready.bytes
    rw [Forest.bytes] at hbytes
    rw [Nat.succ_eq_add_one]
    cases h with
    | @last _ a a₁ a₂ a₃ a₄ _ _ _ hs hk hb hc ht he =>
      rw [hs.dropWhile_eq rfl] at hrest
      have hkey := key_length hs hk hb hc
      obtain ⟨p₀, hp₀, hloop⟩ := objectLoop_key (some q) n hrest hk hb (by omega) hready.position
      have hhead := hready.head hp₀.doc hp₀.depth hp₀.position
      obtain ⟨p₁, hp₁, hend⟩ := parseValue_complete ht ((he.follow (follow_cons rfl)).ends _)
        (hp₀.rest ▸ hc) hhead (by omega : _ ≤ n)
      obtain ⟨p', hp', hdone⟩ := afterChild_close (hend.done.rest ▸ he) rfl hend.done.position
      refine ⟨p', ?_, hend.last hdone hp₀.depth⟩
      rw [hloop, hp₁]
      exact hp'
    | @cons _ a a₁ a₂ a₃ a₄ s' _ _ _ _ hs hk hb hc ht he hf =>
      rw [hs.dropWhile_eq rfl] at hrest
      have hkey := key_length hs hk hb hc
      have h₅ := ht.length_lt
      have h₆ := he.length_le
      rw [List.length_cons] at h₆
      obtain ⟨p₀, hp₀, hloop⟩ := objectLoop_key (some q) n hrest hk hb (by omega) hready.position
      have hhead := hready.head hp₀.doc hp₀.depth hp₀.position
      obtain ⟨p₁, hp₁, hend⟩ := parseValue_complete ht ((he.follow (follow_cons rfl)).ends _)
        (hp₀.rest ▸ hc) hhead (by omega : _ ≤ n)
      obtain ⟨p₂, hp₂, hdone⟩ := afterChild_comma _ (hend.done.rest ▸ he)
        (by decide : closeBrace ≠ comma) hend.done.position
      have hdepth := hdone.depth.trans (hend.done.depth.trans hp₀.depth)
      obtain ⟨p', hp', hend'⟩ := objectLoop_complete hf hdone.rest
        (hready.tail hend.built (hdone.doc.trans hend.done.doc) hdepth hdone.position)
        (by omega : _ ≤ n)
      rw [hdepth] at hend'
      refine ⟨p', ?_, hend'.cons⟩
      rw [hloop, hp₁]
      exact hp₂.trans hp'

end

end Parser

theorem parseValue_of_fits {cap : Capacity} {source a b : Bytes} {t : Tree} (hws : Ws source a)
    (ht : Value a t b) (hends : Ends t b) (hkeys : ¬ t.HasEmptyKey) (hnodes : t.size ≤ cap.maxNodes)
    (hbytes : t.bytes ≤ cap.maxStringBytes) (hdepth : t.depth ≤ cap.maxDepth) :
    ∃ p', Parser.parseValue source
    (2 * source.length + 2) none [] (Parser.skipSpace source ⟨.empty, 0, 0⟩ : Parser cap) =
    some ({}, p') ∧ Parser.Completed source [] (t.entries 0 none []) b 0 p' := by
  have hstart : Parser.Ready source [] none [] t (Parser.skipSpace source ⟨.empty, 0, 0⟩ :
      Parser cap) :=
    ⟨rfl, .nil, ⟨fun _ => rfl, nofun, nofun, nofun⟩, hkeys, by simpa using hnodes,
      by simpa [Entries.bytes] using hbytes, (Nat.zero_add _).trans_le hdepth,
      Parser.skipSpace_le (Nat.zero_le _)⟩
  have hrest : Ws ((Parser.skipSpace source ⟨.empty, 0, 0⟩ : Parser cap).rest source) a := by
    obtain ⟨c, a', rfl, hc, -⟩ := ht.head
    rw [Parser.rest_skipSpace, show Parser.rest source (⟨.empty, 0, 0⟩ : Parser cap) = source from rfl,
      hws.dropWhile_eq hc]
    exact .nil
  have hlen := hws.length_le
  exact Parser.parseValue_complete ht hends hrest hstart (by omega : _ ≤ 2 * source.length + 2)

open Document in
theorem parse_complete {cap : Capacity} (d : Document cap) {source : Bytes} {t : Tree}
    (h : Text source t) (hkeys : ¬ t.HasEmptyKey) (hnodes : t.size ≤ cap.maxNodes)
    (hbytes : t.bytes ≤ cap.maxStringBytes) (hdepth : t.depth ≤ cap.maxDepth) :
    parse d source = some ({}, ofEntries (t.entries 0 none [])) := by
  obtain ⟨a, b, hws, ht, hend⟩ := h
  obtain ⟨p', hp', hdone⟩ := parseValue_of_fits hws ht ((hend.follow follow_nil).ends t) hkeys
    hnodes hbytes hdepth
  have hposition : (p'.skipSpace source).position = source.length := by
    have hle := Parser.skipSpace_le hdone.done.position
    have hnil : (p'.skipSpace source).rest source = [] := by
      rw [Parser.rest_skipSpace, hdone.done.rest, hend.dropWhile, List.dropWhile_nil]
    have hge := List.drop_eq_nil_iff.mp hnil
    omega
  unfold parse Parser.run
  dsimp only
  rw [hp']
  dsimp only
  rw [if_neg (by decide), if_neg (not_not.mpr hposition)]
  exact congrArg (fun doc => some (({} : Result), doc)) hdone.done.doc

end Castle.Serialization.Json

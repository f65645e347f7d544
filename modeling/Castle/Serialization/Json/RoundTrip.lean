import Castle.Serialization.Json.Acceptance
import Castle.Serialization.Json.Render

/-!
# Serializing and parsing again

The text of a valid tree is a JSON text of that tree in every layout.
-/

namespace Castle.Serialization.Json

open BoundedOutput

variable {c : UInt8}

theorem escapeText_eq_some {e : Bytes} (h : escapeText c = some e) :
    ∃ x, e = [backslash, x] ∧ Escape x c := by
  unfold escapeText at h
  split_ifs at h with h₁ h₂ h₃ h₄ h₅ h₆ h₇ <;> cases h <;> subst_vars
  exacts [⟨_, rfl, .quote⟩, ⟨_, rfl, .backslash⟩, ⟨_, rfl, .b⟩, ⟨_, rfl, .f⟩, ⟨_, rfl, .n⟩,
    ⟨_, rfl, .r⟩, ⟨_, rfl, .t⟩]

theorem escapeText_eq_none (h : escapeText c = none) : c ≠ quote ∧ c ≠ backslash := by
  constructor <;> rintro rfl <;> cases h

theorem escapeChar_chars {e s v r : Bytes} (h : escapeChar c = some e) (hs : Chars s v r) :
    Chars (e ++ s) (c :: v) r := by
  unfold escapeChar at h
  cases hc : escapeText c with
  | some escaped =>
    rw [hc] at h
    cases h
    obtain ⟨x, rfl, hx⟩ := escapeText_eq_some hc
    exact .escape hx hs
  | none =>
    rw [hc] at h
    dsimp only at h
    obtain ⟨hquote, hbackslash⟩ := escapeText_eq_none hc
    split at h
    · cases h
    next hcontrol =>
      cases h
      exact .raw (isControl_eq_false_iff.mp (Bool.eq_false_iff.mpr hcontrol)) hquote hbackslash hs

theorem escape_chars {v s r : Bytes} (h : escape v = some s) : Chars (s ++ quote :: r) v r := by
  induction v generalizing s with
  | nil =>
    cases h
    exact .close
  | cons c v ih =>
    obtain ⟨a, b, ha, hb, rfl⟩ := cat_eq_some h
    rw [List.append_assoc]
    exact escapeChar_chars ha (ih hb)

theorem quoted_chars {v s : Bytes} (h : quoted v = some s) (r : Bytes) :
    ∃ a, s = quote :: a ∧ Chars (a ++ r) v r := by
  obtain ⟨q, b, hq, hb, rfl⟩ := cat_eq_some h
  obtain ⟨a, q', ha, hq', rfl⟩ := cat_eq_some hb
  cases hq
  cases hq'
  refine ⟨a ++ [quote], rfl, ?_⟩
  rw [List.append_assoc]
  exact escape_chars ha

theorem Ws.append {a : Bytes} (h : ∀ c ∈ a, IsWs c) (r : Bytes) : Ws (a ++ r) r := by
  induction a with
  | nil => exact .nil
  | cons c a ih =>
    exact .cons (h c List.mem_cons_self) (ih fun c' hc' => h c' (List.mem_cons_of_mem c hc'))

variable (layout : Layout)

theorem Layout.add_ws {text : Bytes} (h : ∀ c ∈ text, IsWs c) (r : Bytes) :
    Ws (layout.add text ++ r) r := by
  unfold Layout.add
  split
  · exact .append h r
  · exact .nil

theorem Layout.line_ws (r : Bytes) : Ws (layout.add [lineFeed] ++ r) r := by
  apply layout.add_ws
  intro c hc
  rw [List.mem_singleton.mp hc]
  exact .inr (.inr (.inl rfl))

theorem Layout.space_ws (r : Bytes) : Ws (layout.add [space] ++ r) r := by
  apply layout.add_ws
  intro c hc
  rw [List.mem_singleton.mp hc]
  exact .inl rfl

theorem Layout.indent_ws (depth : ℕ) (r : Bytes) : Ws (layout.indent depth ++ r) r := by
  apply layout.add_ws
  intro c hc
  rw [(List.mem_replicate.mp hc).2]
  exact .inl rfl

theorem Layout.container_eq_some {layout : Layout} {object : Bool} {depth : ℕ} {key : Bytes}
    {child : Tree} {rest : Forest} {text : Option Bytes} {s : Bytes}
    (h : layout.container object depth (.cons key child rest) text = some s) :
    ∃ inner, text = some inner ∧
      s = (if object then openBrace else openBracket) :: (layout.add [lineFeed] ++ (inner ++
        (layout.add [lineFeed] ++ (layout.indent depth ++
          [if object then closeBrace else closeBracket])))) := by
  obtain ⟨a₁, b₁, ha₁, hb₁, rfl⟩ := cat_eq_some h
  obtain ⟨a₂, b₂, ha₂, hb₂, rfl⟩ := cat_eq_some hb₁
  obtain ⟨inner, b₃, hinner, hb₃, rfl⟩ := cat_eq_some hb₂
  cases ha₁
  cases ha₂
  cases hb₃
  exact ⟨inner, hinner, rfl⟩

mutual

theorem Tree.render_value : ∀ {t : Tree} {layout : Layout} {depth : ℕ} {s : Bytes}, t.Valid →
    t.render layout depth = some s → ∀ r, Value (s ++ r) t r
  | .node .null value children, _, _, _, hvalid, h, r => by
    obtain ⟨rfl, hchildren, -⟩ := hvalid
    obtain rfl := hchildren rfl
    cases h
    exact .null
  | .node .boolean value children, _, _, _, hvalid, h, r => by
    obtain ⟨hvalue, hchildren, -⟩ := hvalid
    obtain rfl := hchildren rfl
    cases h
    rcases hvalue with rfl | rfl
    · exact .true
    · exact .false
  | .node .number value children, _, _, _, hvalid, h, r => by
    obtain ⟨hvalue, hchildren, -⟩ := hvalid
    obtain rfl := hchildren rfl
    cases h
    exact .number hvalue
  | .node .string value children, _, _, _, hvalid, h, r => by
    obtain ⟨-, hchildren, -⟩ := hvalid
    obtain rfl := hchildren rfl
    obtain ⟨a, rfl, ha⟩ := quoted_chars h r
    exact .string ha
  | .node .object value .nil, _, _, _, hvalid, h, r => by
    obtain ⟨rfl, -, -⟩ := hvalid
    cases h
    exact .emptyObject .nil
  | .node .array value .nil, _, _, _, hvalid, h, r => by
    obtain ⟨rfl, -, -⟩ := hvalid
    cases h
    exact .emptyArray .nil
  | .node .object value (.cons key child rest), layout, depth, _, hvalid, h, r => by
    obtain ⟨rfl, -, hvalid⟩ := hvalid
    rw [Tree.render] at h
    obtain ⟨inner, hinner, rfl⟩ := Layout.container_eq_some h
    obtain ⟨u, rfl, hu⟩ := Forest.render_members (by nofun) hvalid hinner r
      ((layout.line_ws _).trans (layout.indent_ws depth _))
    have hmembers := Members.skip (layout.line_ws _) hu
    simpa [Layout.separator] using Value.object hmembers
  | .node .array value (.cons key child rest), layout, depth, _, hvalid, h, r => by
    obtain ⟨rfl, -, hvalid⟩ := hvalid
    rw [Tree.render] at h
    obtain ⟨inner, hinner, rfl⟩ := Layout.container_eq_some h
    obtain ⟨u, rfl, hu⟩ := Forest.render_elements (by nofun) hvalid hinner r
      ((layout.line_ws _).trans (layout.indent_ws depth _))
    have helements := Elements.skip (layout.line_ws _) hu
    simpa [Layout.separator] using Value.array helements

/-- After its separator, the text of the elements of a valid array denotes them, when the
closing bracket follows. -/
theorem Forest.render_elements : ∀ {f : Forest} {layout : Layout} {depth : ℕ} {first : Bool}
    {s stop : Bytes}, f ≠ .nil → f.Valid .array →
      f.render layout false depth first = some s → ∀ r, Ws stop (closeBracket :: r) →
        ∃ u, s = layout.separator first ++ u ∧ Elements (u ++ stop) f r
  | .nil, _, _, _, _, _, hne, _, _, _, _ => absurd rfl hne
  | .cons key child rest, layout, depth, first, s, stop, _, hvalid, h, r, hstop => by
    obtain ⟨hkey, hchild, hrest⟩ := hvalid
    obtain rfl := hkey rfl
    obtain ⟨a, b, ha, hb, rfl⟩ := cat_eq_some h
    obtain ⟨value, others, hvalue, hothers, rfl⟩ := cat_eq_some hb
    obtain ⟨a', k, ha', hk, rfl⟩ := cat_eq_some ha
    obtain ⟨indent, k', hindent, hk', rfl⟩ := cat_eq_some hk
    cases ha'
    cases hindent
    cases hk'
    refine ⟨layout.indent (depth + 1) ++ (value ++ others), by simp, ?_⟩
    have hws := layout.indent_ws (depth + 1) (value ++ (others ++ stop))
    rw [List.append_assoc, List.append_assoc]
    cases rest with
    | nil =>
      cases hothers
      exact .last hws (Tree.render_value hchild hvalue _) hstop
    | cons key' child' rest' =>
      obtain ⟨u, rfl, hu⟩ := Forest.render_elements (by nofun) hrest hothers r hstop
      have helements := Elements.skip (layout.line_ws _) hu
      refine .cons hws (Tree.render_value hchild hvalue _) .nil ?_
      simpa using helements

theorem Forest.render_members : ∀ {f : Forest} {layout : Layout} {depth : ℕ} {first : Bool}
    {s stop : Bytes}, f ≠ .nil → f.Valid .object →
      f.render layout true depth first = some s → ∀ r, Ws stop (closeBrace :: r) →
        ∃ u, s = layout.separator first ++ u ∧ Members (u ++ stop) f r
  | .nil, _, _, _, _, _, hne, _, _, _, _ => absurd rfl hne
  | .cons key child rest, layout, depth, first, s, stop, _, hvalid, h, r, hstop => by
    obtain ⟨-, hchild, hrest⟩ := hvalid
    obtain ⟨a, b, ha, hb, rfl⟩ := cat_eq_some h
    obtain ⟨value, others, hvalue, hothers, rfl⟩ := cat_eq_some hb
    obtain ⟨a', k, ha', hk, rfl⟩ := cat_eq_some ha
    obtain ⟨indent, k', hindent, hk', rfl⟩ := cat_eq_some hk
    obtain ⟨q, c, hq, hc, rfl⟩ := cat_eq_some hk'
    cases ha'
    cases hindent
    cases hc
    obtain ⟨name, rfl, hname⟩ := quoted_chars hq
      (colon :: (layout.add [space] ++ (value ++ (others ++ stop))))
    refine ⟨layout.indent (depth + 1) ++ (quote :: (name ++
      (colon :: (layout.add [space] ++ (value ++ others))))), by simp, ?_⟩
    have hws := layout.indent_ws (depth + 1) (quote :: (name ++
      (colon :: (layout.add [space] ++ (value ++ (others ++ stop))))))
    have hspace := layout.space_ws (value ++ (others ++ stop))
    have hvalue' := Tree.render_value hchild hvalue (others ++ stop)
    have heq : layout.indent (depth + 1) ++ (quote :: (name ++
        (colon :: (layout.add [space] ++ (value ++ others))))) ++ stop =
          layout.indent (depth + 1) ++ (quote :: (name ++
            (colon :: (layout.add [space] ++ (value ++ (others ++ stop)))))) := by simp
    rw [heq]
    cases rest with
    | nil =>
      cases hothers
      exact .last hws hname .nil hspace hvalue' hstop
    | cons key' child' rest' =>
      obtain ⟨u, rfl, hu⟩ := Forest.render_members (by nofun) hrest hothers r hstop
      have hmembers := Members.skip (layout.line_ws _) hu
      refine .cons hws hname .nil hspace hvalue' .nil ?_
      simpa using hmembers

end

/-- Control characters that have no escape besides `\u`. -/
def Unescapable (code : ℕ) : Prop :=
  code < 0x20 ∧ code ≠ 0x08 ∧ code ≠ 0x09 ∧ code ≠ 0x0a ∧ code ≠ 0x0c ∧ code ≠ 0x0d

instance (code : ℕ) : Decidable (Unescapable code) := inferInstanceAs (Decidable (_ ∧ _))

mutual

/-- A string or the key of a member has such a character. -/
def Tree.HasUnescapable : Tree → Prop
  | .node kind value children =>
    (kind = .string ∧ ∃ c ∈ value, Unescapable c.toNat) ∨ children.HasUnescapable kind

/-- The same for the children of a node of some kind. -/
def Forest.HasUnescapable : Kind → Forest → Prop
  | _, .nil => False
  | kind, .cons key child rest =>
    (kind = .object ∧ ∃ c ∈ key, Unescapable c.toNat) ∨ child.HasUnescapable ∨
      rest.HasUnescapable kind

end

theorem escapeChar_eq_none_iff : escapeChar c = none ↔ Unescapable c.toNat := by
  have hnat (d : UInt8) : c = d ↔ c.toNat = d.toNat := UInt8.toNat_inj.symm
  unfold escapeChar escapeText isControl Unescapable
  simp only [hnat, UInt8.lt_iff_toNat_lt, decide_eq_true_eq,
    show quote.toNat = 0x22 from rfl, show backslash.toNat = 0x5c from rfl,
    show backspace.toNat = 0x08 from rfl, show formFeed.toNat = 0x0c from rfl,
    show lineFeed.toNat = 0x0a from rfl, show carriageReturn.toNat = 0x0d from rfl,
    show tab.toNat = 0x09 from rfl, show (0x20 : UInt8).toNat = 0x20 from rfl]
  split_ifs <;> simp only [false_iff, true_iff] <;> omega

theorem escape_eq_none_iff {v : Bytes} : escape v = none ↔ ∃ c ∈ v, Unescapable c.toNat := by
  induction v with
  | nil => simp [escape]
  | cons c v ih => simp [escape, cat_eq_none_iff, escapeChar_eq_none_iff, ih]

theorem quoted_eq_none_iff {v : Bytes} : quoted v = none ↔ ∃ c ∈ v, Unescapable c.toNat := by
  simp [quoted, cat_eq_none_iff, escape_eq_none_iff]

mutual

theorem Tree.render_eq_none_iff : ∀ {t : Tree} {layout : Layout} {depth : ℕ}, t.Valid →
    (t.render layout depth = none ↔ t.HasUnescapable)
  | .node kind value .nil, layout, depth, _ => by
    cases kind <;>
      simp [Tree.render, Tree.HasUnescapable, Forest.HasUnescapable, quoted_eq_none_iff,
        Layout.container, cat_eq_none_iff]
  | .node kind value (.cons key child rest), layout, depth, hvalid => by
    obtain ⟨-, hscalar, hchildren⟩ := hvalid
    have hobject := @Forest.render_eq_none_iff (.cons key child rest) kind layout depth true hchildren
    cases kind with
    | null | boolean | number | string => cases hscalar rfl
    | object | array =>
      rw [Tree.render, Tree.HasUnescapable, ← hobject]
      simp [Layout.container, cat_eq_none_iff]

theorem Forest.render_eq_none_iff : ∀ {f : Forest} {kind : Kind} {layout : Layout} {depth : ℕ}
    {first : Bool}, f.Valid kind →
      (f.render layout (decide (kind = .object)) depth first = none ↔ f.HasUnescapable kind)
  | .nil, _, _, _, _, _ => by simp [Forest.render, Forest.HasUnescapable]
  | .cons key child rest, kind, layout, depth, first, hvalid => by
    obtain ⟨-, hchild, hrest⟩ := hvalid
    have hkey : layout.key (decide (kind = .object)) key = none ↔
        kind = .object ∧ ∃ c ∈ key, Unescapable c.toNat := by
      unfold Layout.key
      by_cases hk : kind = .object
      · simp [hk, cat_eq_none_iff, quoted_eq_none_iff]
      · simp [hk]
    rw [Forest.render, Forest.HasUnescapable, cat_eq_none_iff, cat_eq_none_iff, cat_eq_none_iff,
      cat_eq_none_iff, hkey, Tree.render_eq_none_iff hchild, Forest.render_eq_none_iff hrest]
    simp

end

/-- A `\u` escape in the text stands for a character without another escape. -/
def escapesControl : Bytes → Bool
  | [] => false
  | [_] => false
  | c :: e :: s =>
    if c = backslash then
      (decide (e = letterLowerU) && decide (Unescapable (codeOf (s.take 4)))) || escapesControl s
    else escapesControl (e :: s)

theorem escapesControl_cons (h : c ≠ backslash) (s : Bytes) :
    escapesControl (c :: s) = escapesControl s := by
  cases s with
  | nil => rfl
  | cons e s => rw [escapesControl, if_neg h]

theorem escapesControl_append {a : Bytes} (h : ∀ c ∈ a, c ≠ backslash) (r : Bytes) :
    escapesControl (a ++ r) = escapesControl r := by
  induction a with
  | nil => rfl
  | cons c a ih =>
    rw [List.cons_append, escapesControl_cons (h c List.mem_cons_self),
      ih fun c' hc' => h c' (List.mem_cons_of_mem c hc')]

theorem ne_backslash_of_all {a : Bytes} (h : (a.all fun c => c ≠ backslash) = Bool.true) :
    ∀ c ∈ a, c ≠ backslash := by
  simpa using h

theorem Ws.escapesControl {s r : Bytes} (h : Ws s r) :
    escapesControl s = Json.escapesControl r := by
  induction h with
  | nil => rfl
  | cons hc _ ih =>
    rw [escapesControl_cons, ih]
    rintro rfl
    rcases hc with hc | hc | hc | hc <;> cases hc

theorem unescapable_utf8 {code : ℕ} (hlt : code < 0x10000) (h : ¬ IsSurrogate code) :
    (∃ c ∈ String.utf8EncodeChar (Char.ofNat code), Unescapable c.toNat) ↔ Unescapable code := by
  unfold String.utf8EncodeChar
  simp only [toNat_ofNat hlt h]
  split_ifs with h₁ h₂
  · simp [Nat.mod_eq_of_lt (by omega : code < 256)]
  · simp only [List.mem_cons, List.not_mem_nil, or_false, exists_eq_or_imp, exists_eq_left,
      UInt8.toNat_ofNat', Unescapable]
    omega
  · simp only [List.mem_cons, List.not_mem_nil, or_false, exists_eq_or_imp, exists_eq_left,
      UInt8.toNat_ofNat', Unescapable]
    omega
  · omega

theorem hexDigit_ne_backslash {x : ℕ} (h : HexDigit c x) : c ≠ backslash := by
  rintro rfl
  rcases h with ⟨-, h, -⟩ | ⟨h, -, -⟩ | ⟨-, h, -⟩ <;> exact absurd h (by decide)

theorem Chars.escapesControl_iff {s v r : Bytes} (h : Chars s v r) : escapesControl s = true ↔
    (∃ c ∈ v, Unescapable c.toNat) ∨ escapesControl r = true := by
  induction h with
  | close =>
    rw [escapesControl_cons (by decide)]
    simp
  | @raw c s v r hc _ hb _ ih =>
    have hnot : ¬ Unescapable c.toNat := by
      intro hu
      have hle := UInt8.le_iff_toNat_le.mp hc
      exact absurd hu.1 (by simpa using hle)
    rw [escapesControl_cons hb, ih]
    simp [hnot]
  | @escape e d s v r he _ ih =>
    have hnot : ¬ Unescapable d.toNat := by
      cases he <;> decide
    have hu : e ≠ letterLowerU := by
      rintro rfl
      exact not_escape_unicode he
    rw [escapesControl, if_pos rfl]
    simp [hu, hnot, ih]
  | @unicode c₁ c₂ c₃ c₄ x₁ x₂ x₃ x₄ s v r h₁ h₂ h₃ h₄ hsurrogate _ ih =>
    have hfour : escapesControl (c₁ :: c₂ :: c₃ :: c₄ :: s) = escapesControl s := by
      rw [escapesControl_cons (hexDigit_ne_backslash h₁),
        escapesControl_cons (hexDigit_ne_backslash h₂),
        escapesControl_cons (hexDigit_ne_backslash h₃),
        escapesControl_cons (hexDigit_ne_backslash h₄)]
    obtain ⟨hx₁, rfl⟩ := hexDigit_iff.mp h₁
    obtain ⟨hx₂, rfl⟩ := hexDigit_iff.mp h₂
    obtain ⟨hx₃, rfl⟩ := hexDigit_iff.mp h₃
    obtain ⟨hx₄, rfl⟩ := hexDigit_iff.mp h₄
    rw [← codeOf_four] at hsurrogate ⊢
    have hutf8 := unescapable_utf8 (codeOf_lt hx₁ hx₂ hx₃ hx₄) hsurrogate
    rw [escapesControl, if_pos rfl, hfour,
      show List.take 4 (c₁ :: c₂ :: c₃ :: c₄ :: s) = [c₁, c₂, c₃, c₄] from rfl]
    simp only [List.mem_append, or_and_right, exists_or, hutf8, decide_true, Bool.true_and,
      Bool.or_eq_true, decide_eq_true_eq, ih, or_assoc]

mutual

theorem Value.escapesControl_iff : ∀ {t : Tree} {s r : Bytes}, Value s t r →
    (escapesControl s = Bool.true ↔ t.HasUnescapable ∨ escapesControl r = Bool.true)
  | .node kind value f, s, r, h => by
    cases h with
    | null | true | false =>
      rw [escapesControl_append (ne_backslash_of_all (by decide))]
      simp [Tree.HasUnescapable, Forest.HasUnescapable]
    | number ht =>
      rw [escapesControl_append]
      · simp [Tree.HasUnescapable, Forest.HasUnescapable]
      · rintro c hc rfl
        exact absurd (ht.chars _ hc) (by decide)
    | string hs =>
      rw [escapesControl_cons (by decide), hs.escapesControl_iff]
      simp [Tree.HasUnescapable, Forest.HasUnescapable]
    | emptyArray hs | emptyObject hs =>
      rw [escapesControl_cons (by decide), hs.escapesControl, escapesControl_cons (by decide)]
      simp [Tree.HasUnescapable, Forest.HasUnescapable]
    | array hs =>
      rw [escapesControl_cons (by decide), Elements.escapesControl_iff hs]
      simp [Tree.HasUnescapable]
    | object hs =>
      rw [escapesControl_cons (by decide), Members.escapesControl_iff hs]
      simp [Tree.HasUnescapable]

theorem Elements.escapesControl_iff : ∀ {f : Forest} {s r : Bytes}, Elements s f r →
    (escapesControl s = true ↔ f.HasUnescapable .array ∨ escapesControl r = true)
  | .nil, _, _, h => nomatch h
  | .cons key child f, s, r, h => by
    cases h with
    | last hs ht hb =>
      rw [hs.escapesControl, Value.escapesControl_iff ht, hb.escapesControl,
        escapesControl_cons (by decide)]
      simp [Forest.HasUnescapable]
    | cons hs ht hb hf =>
      rw [hs.escapesControl, Value.escapesControl_iff ht, hb.escapesControl,
        escapesControl_cons (by decide), Elements.escapesControl_iff hf]
      simp [Forest.HasUnescapable, or_assoc]

theorem Members.escapesControl_iff : ∀ {f : Forest} {s r : Bytes}, Members s f r →
    (escapesControl s = true ↔ f.HasUnescapable .object ∨ escapesControl r = true)
  | .nil, _, _, h => nomatch h
  | .cons key child f, s, r, h => by
    cases h with
    | last hs hk hb hc ht he =>
      rw [hs.escapesControl, escapesControl_cons (by decide), hk.escapesControl_iff,
        hb.escapesControl, escapesControl_cons (by decide), hc.escapesControl,
        Value.escapesControl_iff ht, he.escapesControl, escapesControl_cons (by decide)]
      simp [Forest.HasUnescapable, or_assoc]
    | cons hs hk hb hc ht he hf =>
      rw [hs.escapesControl, escapesControl_cons (by decide), hk.escapesControl_iff,
        hb.escapesControl, escapesControl_cons (by decide), hc.escapesControl,
        Value.escapesControl_iff ht, he.escapesControl, escapesControl_cons (by decide),
        Members.escapesControl_iff hf]
      simp [Forest.HasUnescapable, or_assoc]

end

theorem Text.escapesControl_iff {s : Bytes} {t : Tree} (h : Text s t) :
    escapesControl s = true ↔ t.HasUnescapable := by
  obtain ⟨a, b, hs, ht, hb⟩ := h
  rw [hs.escapesControl, ht.escapesControl_iff, hb.escapesControl]
  simp [escapesControl]

open Document

variable {cap : Capacity} {es : Entries} {d d' : Document cap} {source : Bytes}

/-- `serialize` succeeds with this output. -/
def Serializes (d : Document cap) (maxOutput : ℕ) (layout : Layout) (out : Bytes) : Prop :=
  d.serialize maxOutput layout = some ({}, out)

theorem serializes_iff (hb : Built cap es) (hne : es ≠ []) {maxOutput : ℕ} {layout : Layout}
    {out : Bytes} : Serializes (ofEntries es : Document cap) maxOutput layout out ↔
      es.tree.render layout 0 = some out ∧ out.length ≤ maxOutput := by
  have hpos := List.length_pos_of_ne_nil hne
  have hrun := (@serializeNode_writes cap es hb maxOutput layout es.length 0 0 hpos
    (Nat.le_add_right _ _)).run out
  have hroot : (ofEntries es : Document cap).root = some 0 := by
    rw [root, length_nodes_ofEntries, if_neg (by omega)]
  rw [Entries.tree, ← hrun, Serializes, serialize, hroot]
  dsimp only
  rw [length_nodes_ofEntries]
  cases (ofEntries es : Document cap).serializeNode maxOutput layout es.length 0 0 [] with
  | ok output => simp
  | error e => cases e <;> simp

/-- Every output that is large enough takes the text of the document, and the text parses into
the same tree again. -/
def RoundTrips (d : Document cap) : Prop :=
  ∀ layout, ∃ bound, ∀ maxOutput, bound ≤ maxOutput → ∃ out, Serializes d maxOutput layout out ∧
    ∀ d₀ : Document cap, ∃ d', Accepts d₀ out d' ∧ d'.tree = d.tree

theorem Tree.render_text {t : Tree} {layout : Layout} {out : Bytes} (ht : t.Valid)
    (h : t.render layout 0 = some out) : Text out t := by
  have hvalue := Tree.render_value ht h []
  rw [List.append_nil] at hvalue
  exact ⟨out, [], .nil, hvalue, .nil⟩

/-- An accepted text round trips exactly if it has no `\u` escape of a control character for
which there is no other escape. -/
theorem round_trip_iff (h : Accepts d source d') :
    RoundTrips d' ↔ escapesControl source = false := by
  obtain ⟨r, hp, hr⟩ := h
  obtain ⟨t, ht, rfl, hkeys, hbuilt, hdepth⟩ := parse_sound hp hr
  have hne : t.entries 0 none [] ≠ [] := by
    intro hnil
    have hlen := t.length_entries 0 none []
    have hpos := t.size_pos
    rw [hnil, List.length_nil] at hlen
    omega
  have hrender (layout : Layout) : t.render layout 0 = none ↔ escapesControl source = true := by
    rw [ht.escapesControl_iff, Tree.render_eq_none_iff ht.valid]
  constructor
  · intro hround
    obtain ⟨bound, hbound⟩ := hround ⟨false, 0⟩
    obtain ⟨out, hout, -⟩ := hbound bound (Nat.le_refl _)
    rw [serializes_iff hbuilt hne, Entries.tree_entries ht.valid] at hout
    rw [← Bool.not_eq_true, ← hrender ⟨false, 0⟩, hout.1]
    exact nofun
  · intro hcontrol layout
    obtain ⟨out, hout⟩ : ∃ out, t.render layout 0 = some out := by
      apply Option.ne_none_iff_exists'.mp
      rw [ne_eq, hrender, hcontrol]
      exact Bool.false_ne_true
    refine ⟨out.length, fun maxOutput hle => ⟨out, ?_, fun d₀ => ?_⟩⟩
    · rw [serializes_iff hbuilt hne, Entries.tree_entries ht.valid]
      exact ⟨hout, hle⟩
    · have hnodes := hbuilt.nodes
      have hbytes := hbuilt.bytes
      rw [Tree.length_entries] at hnodes
      rw [Tree.bytes_entries, List.length_nil, Nat.zero_add] at hbytes
      have hparse := parse_complete d₀ (Tree.render_text ht.valid hout) hkeys hnodes hbytes hdepth
      exact ⟨_, ⟨_, hparse, rfl⟩, rfl⟩

/-- `"\u0001"` -/
def controlText : Bytes :=
  [quote, backslash, letterLowerU, digitZero, digitZero, digitZero, digitOne, quote]

def controlDocument : Document smallCapacity :=
  ofEntries ((Tree.node .string [1] .nil).entries 0 none [])

theorem accepts_controlText : Accepts Document.empty controlText controlDocument :=
  ⟨{}, by decide, rfl⟩

/-- The text is accepted, and no output takes the document. -/
theorem control_does_not_round_trip : Accepts Document.empty controlText controlDocument ∧
    ∀ maxOutput layout out, ¬ Serializes controlDocument maxOutput layout out := by
  refine ⟨accepts_controlText, fun maxOutput layout out hout => ?_⟩
  have hbuilt : Built smallCapacity ((Tree.node .string [1] .nil).entries 0 none []) := by
    refine ⟨by decide, by decide, ?_, ?_⟩
    · intro i hi _
      exact Nat.lt_one_iff.mp hi
    · intro i p hi hparent
      obtain rfl := Nat.lt_one_iff.mp hi
      cases hparent
  rw [controlDocument, serializes_iff hbuilt (by nofun)] at hout
  cases hout.1

theorem round_trip_iff_controlText : ¬ RoundTrips controlDocument := by
  rw [round_trip_iff accepts_controlText]
  decide

end Castle.Serialization.Json

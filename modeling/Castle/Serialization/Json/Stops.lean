import Mathlib.Data.List.Induction
import Mathlib.Data.List.TakeWhile
import Castle.Serialization.Json.Acceptance

/-!
# Errors without a line and a column

`fail` counts lines and columns up to the position of the parser.
-/

namespace Castle.Serialization.Json

/-- The line and the column are those of the byte offset. -/
structure Located (source : Bytes) (r : Result) : Prop where
  offset : r.offset ≤ source.length
  line : r.line = 1 + (source.take r.offset).count lineFeed
  column : r.column = 1 + ((source.take r.offset).reverse.takeWhile (· ≠ lineFeed)).length

/-- The offset is behind the first byte, and the line and the column are still at it. -/
structure Unlocated (r : Result) : Prop where
  failed : r.succeeded = false
  offset : 0 < r.offset
  line : r.line = 1
  column : r.column = 1

theorem Unlocated.not_located {source : Bytes} {r : Result} (h : Unlocated r) :
    ¬ Located source r := by
  intro hl
  have hcount : (source.take r.offset).count lineFeed = 0 := by
    have hline := hl.line
    rw [h.line] at hline
    omega
  have hall : (source.take r.offset).reverse.takeWhile (· ≠ lineFeed) =
      (source.take r.offset).reverse := by
    refine List.takeWhile_eq_self_iff.mpr fun c hc => ?_
    rw [List.mem_reverse] at hc
    exact decide_eq_true fun he => List.count_eq_zero.mp hcount (he ▸ hc)
  have hcolumn := hl.column
  have hoffset := hl.offset
  have hpos := h.offset
  rw [hall, h.column, List.length_reverse, List.length_take] at hcolumn
  omega

namespace Parser

theorem lineColumn_eq (text : Bytes) : lineColumn text =
    (1 + text.count lineFeed, 1 + (text.reverse.takeWhile (· ≠ lineFeed)).length) := by
  induction text using List.reverseRecOn with
  | nil => rfl
  | append_singleton text c ih =>
    have hstep : lineColumn (text ++ [c]) = if c = lineFeed then ((lineColumn text).1 + 1, 1)
        else ((lineColumn text).1, (lineColumn text).2 + 1) := by
      rw [lineColumn, List.foldl_append]
      rfl
    rw [hstep, ih, List.count_append, List.reverse_append, List.reverse_singleton,
      List.singleton_append, List.takeWhile_cons]
    by_cases hc : c = lineFeed
    · rw [if_pos hc, if_neg (by simp [hc]), hc]
      rfl
    · rw [if_neg hc, if_pos (by simpa using hc), List.length_cons, List.count_singleton,
        if_neg (by simpa using hc)]
      rfl

variable {cap : Capacity} {source : Bytes} {p q : Parser cap}

theorem located_fail {code : ErrorCode} (h : p.position ≤ source.length) :
    Located source (p.fail source code) := by
  refine ⟨h, ?_, ?_⟩
  · show (lineColumn (source.take p.position)).1 = _
    rw [lineColumn_eq]
    rfl
  · show (lineColumn (source.take p.position)).2 = _
    rw [lineColumn_eq]
    rfl

theorem unlocated_capacityResult {s : Status} (hs : s ≠ .ok) (h : 0 < p.position) :
    Unlocated (p.capacityResult s) :=
  ⟨decide_eq_false hs, h, rfl, rfl⟩

end Parser

/-- The characters up to a closing quote stand for bytes that fit into a scratch string. -/
def Decodes (cap : Capacity) (s : Bytes) : Prop :=
  ∃ v b, Chars s v b ∧ v.length ≤ cap.maxStringBytes

theorem decodeLoop_failed {cap : ℕ} {rest output output' : Bytes} {position position' : ℕ}
    {r : Result} (h : decodeLoop cap rest position output = (r, position', output'))
    (hr : r.succeeded = false) : r.line = 1 ∧ r.column = 1 ∧ position ≤ r.offset := by
  induction hn : rest.length using Nat.strong_induction_on generalizing rest position output with
  | _ n ih =>
  subst hn
  have refused {code : ErrorCode} {status : Status} {offset : ℕ} {p : ℕ × Bytes}
      (ho : position ≤ offset)
      (h : (({ status, code, offset } : Result), p) = (r, position', output')) :
      r.line = 1 ∧ r.column = 1 ∧ position ≤ r.offset := by
    cases h
    exact ⟨rfl, rfl, ho⟩
  have later {rest₁ output₁ : Bytes} {n : ℕ} (hlt : rest₁.length < rest.length)
      (h : decodeLoop cap rest₁ (position + n) output₁ = (r, position', output')) :
      r.line = 1 ∧ r.column = 1 ∧ position ≤ r.offset := by
    obtain ⟨hline, hcolumn, hle⟩ := ih _ hlt h rfl
    exact ⟨hline, hcolumn, (Nat.le_add_right _ _).trans hle⟩
  rw [decodeLoop.eq_def] at h
  split at h
  · exact refused (Nat.le_refl _) h
  next c rest =>
  split at h
  · cases h
    cases hr
  next =>
  split at h
  · exact refused (Nat.le_refl _) h
  next =>
  split at h
  · split at h
    · exact refused (Nat.le_refl _) h
    · exact later (Nat.lt_succ_self _) h
  next =>
  split at h
  · exact refused (Nat.le_succ _) h
  next escape rest =>
  split at h
  · split at h
    · exact refused (Nat.le_succ _) h
    · exact later (by simp only [List.length_cons]; omega) h
  next =>
  split at h
  · split at h
    next c₁ c₂ c₃ c₄ rest =>
      split at h
      next i _ => exact refused (by omega) h
      · dsimp only at h
        split at h
        · exact refused (Nat.le_add_right _ _) h
        · exact later (by simp only [List.length_cons]; omega) h
    · exact refused (Nat.le_refl _) h
  · exact refused (Nat.le_succ _) h

variable {cap : Capacity}

theorem decodes_of_decodeString {position position' : ℕ} {source s output : Bytes} {r : Result}
    (hdrop : source.drop position = quote :: s)
    (h : decodeString cap.maxStringBytes source position = (r, position', output)) :
    (r.succeeded = true ↔ Decodes cap s) := by
  constructor
  · intro hr
    obtain ⟨s', hs', hchars, -, hlen⟩ := decodeString_sound h hr
    obtain ⟨-, rfl⟩ := List.cons.inj (hdrop.symm.trans hs')
    exact ⟨_, _, hchars, hlen⟩
  · rintro ⟨v, b, hv, hlen⟩
    rw [decodeString_complete hdrop hv hlen] at h
    cases h
    rfl

theorem unlocated_decodeString {cap position position' : ℕ} {source s output : Bytes} {r : Result}
    (hdrop : source.drop position = quote :: s)
    (h : decodeString cap source position = (r, position', output)) (hr : r.succeeded = false) :
    Unlocated r := by
  rw [decodeString, hdrop] at h
  dsimp only at h
  rw [if_neg (not_not.mpr rfl)] at h
  obtain ⟨hline, hcolumn, hle⟩ := decodeLoop_failed h hr
  exact ⟨hr, by omega, hline, hcolumn⟩

/-- What the document holds, and how deep the parser is. -/
structure Usage where
  nodes : ℕ
  bytes : ℕ
  depth : ℕ

namespace Usage

variable (cap : Capacity) (u : Usage) (key : Option Bytes)

/-- A node with this value is stored; `key` is the one of a member, and may not be empty. -/
structure Takes (value : Bytes) : Prop where
  member : key ≠ some []
  nodes : u.nodes < cap.maxNodes
  bytes : u.bytes + ((key.getD []).length + value.length) ≤ cap.maxStringBytes

/-- All nodes of a tree are stored. -/
structure Fits (t : Tree) : Prop where
  member : key ≠ some []
  keys : ¬ t.HasEmptyKey
  nodes : u.nodes + t.size ≤ cap.maxNodes
  bytes : u.bytes + ((key.getD []).length + t.bytes) ≤ cap.maxStringBytes
  depth : u.depth + t.depth ≤ cap.maxDepth

def after (t : Tree) : Usage where
  nodes := u.nodes + t.size
  bytes := u.bytes + ((key.getD []).length + t.bytes)
  depth := u.depth

/-- In a container that was opened. -/
def enter : Usage where
  nodes := u.nodes + 1
  bytes := u.bytes + (key.getD []).length
  depth := u.depth + 1

end Usage

mutual

/-- Reading a value gets to a string that does not decode or to a node that is not stored, and
nothing before it is an error. -/
inductive StopsValue (cap : Capacity) : Usage → Option Bytes → Bytes → Prop
  | string {u : Usage} {key : Option Bytes} {s : Bytes} (hs : ¬ Decodes cap s) :
    StopsValue cap u key (quote :: s)
  | scalar {u : Usage} {key : Option Bytes} {kind : Kind} {value s b : Bytes}
    (hk : kind.isContainer = false) (hv : Value s (.node kind value .nil) b)
    (hb : Ends (.node kind value .nil) b) (ht : ¬ u.Takes cap key value) : StopsValue cap u key s
  | container {u : Usage} {key : Option Bytes} {c : UInt8} {s : Bytes}
    (hc : c = openBracket ∨ c = openBrace) (hd : u.depth < cap.maxDepth)
    (ht : ¬ u.Takes cap key []) : StopsValue cap u key (c :: s)
  | array {u : Usage} {key : Option Bytes} {s : Bytes} (hd : u.depth < cap.maxDepth)
    (ht : u.Takes cap key []) (hs : StopsElements cap (u.enter key) s) :
    StopsValue cap u key (openBracket :: s)
  | object {u : Usage} {key : Option Bytes} {s : Bytes} (hd : u.depth < cap.maxDepth)
    (ht : u.Takes cap key []) (hs : StopsMembers cap (u.enter key) s) :
    StopsValue cap u key (openBrace :: s)

/-- The same for the elements of an array. -/
inductive StopsElements (cap : Capacity) : Usage → Bytes → Prop
  | value {u : Usage} {s a : Bytes} (hs : Ws s a) (ha : StopsValue cap u none a) :
    StopsElements cap u s
  | rest {u : Usage} {s a b c : Bytes} {t : Tree} (hs : Ws s a) (ht : Value a t b)
    (hb : Ws b (comma :: c)) (hfits : u.Fits cap none t)
    (hc : StopsElements cap (u.after none t) c) : StopsElements cap u s

/-- The same for the members of an object. -/
inductive StopsMembers (cap : Capacity) : Usage → Bytes → Prop
  | key {u : Usage} {s a : Bytes} (hs : Ws s (quote :: a)) (ha : ¬ Decodes cap a) :
    StopsMembers cap u s
  | value {u : Usage} {s a b c d k : Bytes} (hs : Ws s (quote :: a)) (hk : Chars a k b)
    (hroom : k.length ≤ cap.maxStringBytes) (hb : Ws b (colon :: c)) (hc : Ws c d)
    (hd : StopsValue cap u (some k) d) : StopsMembers cap u s
  | rest {u : Usage} {s a b c d e g k : Bytes} {t : Tree} (hs : Ws s (quote :: a))
    (hk : Chars a k b) (hb : Ws b (colon :: c)) (hc : Ws c d) (ht : Value d t e)
    (he : Ws e (comma :: g)) (hfits : u.Fits cap (some k) t)
    (hg : StopsMembers cap (u.after (some k) t) g) : StopsMembers cap u s

end

theorem StopsElements.skip {u : Usage} {s s' : Bytes} (h : Ws s s') (hs : StopsElements cap u s') :
    StopsElements cap u s := by
  cases hs with
  | value hs ha => exact .value (h.trans hs) ha
  | rest hs ht hb hfits hc => exact .rest (h.trans hs) ht hb hfits hc

theorem StopsMembers.skip {u : Usage} {s s' : Bytes} (h : Ws s s') (hs : StopsMembers cap u s') :
    StopsMembers cap u s := by
  cases hs with
  | key hs ha => exact .key (h.trans hs) ha
  | value hs hk hroom hb hc hd => exact .value (h.trans hs) hk hroom hb hc hd
  | rest hs hk hb hc ht he hfits hg => exact .rest (h.trans hs) hk hb hc ht he hfits hg

namespace Parser

open Document Entries

variable {cap : Capacity} {source a b s : Bytes} {es : Entries} {parent : Option ℕ}
  {key : Option Bytes} {kind : Kind} {value : Bytes} {p q : Parser cap} {i : ℕ} {t : Tree}

def usage (es : Entries) (p : Parser cap) : Usage := ⟨es.length, Entries.bytes es, p.depth⟩

/-- In a container with index `i`. -/
structure Inside (source : Bytes) (kind : Kind) (es : Entries) (i : ℕ) (p : Parser cap) : Prop where
  doc : p.doc = ofEntries es
  built : Built cap es
  nested : p.depth ≤ cap.maxDepth
  position : p.position ≤ source.length
  parent : i < es.length
  isKind : (entry es i).kind = kind

/-- Before a value, which has a key exactly in an object. -/
structure Stands (source : Bytes) (es : Entries) (parent : Option ℕ) (key : Option Bytes)
    (p : Parser cap) : Prop where
  doc : p.doc = ofEntries es
  built : Built cap es
  nested : p.depth ≤ cap.maxDepth
  position : p.position ≤ source.length
  root : parent = none → es = [] ∧ key = none
  valid : ∀ i, parent = some i → i < es.length
  member : ∀ i, parent = some i → ((entry es i).kind = .object ↔ key ≠ none)

theorem Inside.stands (h : Inside source kind es i p) (hkey : kind = .object ↔ key ≠ none)
    (hdoc : q.doc = p.doc) (hdepth : q.depth = p.depth) (hq : q.position ≤ source.length) :
    Stands source es (some i) key q := by
  refine ⟨hdoc.trans h.doc, h.built, hdepth ▸ h.nested, hq, nofun, ?_, ?_⟩
  · intro j hj
    cases hj
    exact h.parent
  · intro j hj
    cases hj
    rw [h.isKind]
    exact hkey

section

variable (h : Stands source es parent key p)
include h

theorem Stands.skipSpace :
    Stands source es parent key (p.skipSpace source) :=
  ⟨h.doc, h.built, h.nested, skipSpace_le h.position, h.root, h.valid, h.member⟩

theorem Stands.placed_iff :
    Placed es parent (key.getD []) ↔ key ≠ some [] := by
  constructor
  · rintro hp rfl
    cases hparent : parent with
    | none => cases (h.root hparent).2
    | some i =>
      have hkind := (h.member i hparent).mpr (by simp)
      exact hp.member i hparent hkind rfl
  · intro hkey
    refine ⟨fun hn => (h.root hn).1, h.valid, fun i hi hkind hnil => ?_, fun i hi hkind => ?_⟩
    · cases key with
      | none => exact (h.member i hi).mp hkind rfl
      | some k => exact hkey (congrArg some hnil)
    · cases key with
      | none => rfl
      | some k =>
        rw [(h.member i hi).mpr (by simp)] at hkind
        cases hkind

theorem Stands.admits_iff :
    Admits cap es (entryOf kind parent (key.getD []) value) ↔
      (usage es p).Takes cap key (if kind.isContainer then [] else value) := by
  constructor
  · intro he
    exact ⟨h.placed_iff.mp he.toPlaced, he.room, he.bytes⟩
  · intro ht
    exact ⟨h.placed_iff.mpr ht.member, ht.nodes, ht.bytes⟩

theorem Stands.ready (ht : (usage es p).Fits cap key t) :
    Ready source es parent (key.getD []) t p :=
  ⟨h.doc, h.built, h.placed_iff.mpr ht.member, ht.keys, ht.nodes, ht.bytes, ht.depth, h.position⟩

end

theorem Inside.next (h : Inside source kind es i p) {new : Entries}
    (hdoc : q.doc = ofEntries (es ++ new)) (hbuilt : Built cap (es ++ new))
    (hdepth : q.depth = p.depth) (hq : q.position ≤ source.length) :
    Inside source kind (es ++ new) i q := by
  refine ⟨hdoc, hbuilt, hdepth ▸ h.nested, hq, ?_, ?_⟩
  · rw [List.length_append]
    exact Nat.lt_add_right _ h.parent
  · rw [entry_append _ h.parent]
    exact h.isKind

theorem usage_after (key : Option Bytes) (hdepth : q.depth = p.depth) :
    usage (es ++ t.entries es.length parent (key.getD [])) q = (usage es p).after key t := by
  unfold usage Usage.after
  rw [List.length_append, Tree.length_entries, bytes_append, Tree.bytes_entries, hdepth]

theorem usage_enter (hdepth : q.depth = p.depth + 1) :
    usage (es ++ [entryOf kind parent (key.getD []) []]) q = (usage es p).enter key := by
  unfold usage Usage.enter
  rw [List.length_append, bytes_append, bytes_singleton, hdepth]
  simp [entryOf]

theorem stored_refused (hdoc : q.doc = ofEntries es) (hb : Built cap es)
    (he : ¬ Admits cap es (entryOf kind parent (key.getD []) value)) : ∃ s, s ≠ .ok ∧
      q.stored (q.doc.addNode kind parent (key.getD []) value) = (q.capacityResult s, q) := by
  obtain ⟨s, hs, hadd⟩ := addNode_refused hb he
  refine ⟨s, hs, ?_⟩
  obtain ⟨doc, position, depth⟩ := q
  obtain rfl : doc = ofEntries es := hdoc
  rw [hadd, stored, if_neg hs]

theorem Stands.refused (h : Stands source es parent key p) (hdoc : q.doc = p.doc)
    (hq : 0 < q.position)
    (ht : ¬ (usage es p).Takes cap key (if kind.isContainer then [] else value)) :
    Unlocated (q.stored (q.doc.addNode kind parent (key.getD []) value)).1 := by
  obtain ⟨s, hs, hadd⟩ := stored_refused (hdoc.trans h.doc) h.built (mt h.admits_iff.mp ht)
  rw [hadd]
  exact unlocated_capacityResult hs hq

theorem Done.position_pos {doc : Document cap} {depth : ℕ} (h : Done source q b doc depth)
    (hlt : b.length < (p.rest source).length) : 0 < q.position := by
  have hb : source.length - q.position = b.length := by
    rw [← List.length_drop]
    exact congrArg List.length h.rest
  have hp : (p.rest source).length = source.length - p.position := List.length_drop
  omega

theorem parseStringValue_stopped (parent : Option ℕ) (keyName : Bytes)
    (hrest : p.rest source = quote :: s)
    (hs : ¬ Decodes cap s) : Unlocated (p.parseStringValue source parent keyName).1 := by
  unfold parseStringValue
  generalize hdecode : decodeString cap.maxStringBytes source p.position = decoded
  obtain ⟨r, position, value⟩ := decoded
  have hr : r.succeeded = false :=
    Bool.eq_false_iff.mpr (mt (decodes_of_decodeString hrest hdecode).mp hs)
  dsimp only
  rw [if_pos (by simp [hr])]
  exact unlocated_decodeString hrest hdecode hr

theorem Stands.container_refused {close : UInt8}
    {loop : Option ℕ → Parser cap → Option (Result × Parser cap)}
    (h : Stands source es parent key p) (hd : p.depth < cap.maxDepth)
    (ht : ¬ (usage es p).Takes cap key []) : ∃ r p',
      p.parseContainer source (fun doc => doc.addNode kind parent (key.getD []) []) close loop =
        some (r, p') ∧ Unlocated r := by
  have he : ¬ Admits cap es (entryOf kind parent (key.getD []) []) := by
    rw [h.admits_iff, ite_self]
    exact ht
  obtain ⟨s, hs, hadd⟩ := addNode_refused h.built he
  unfold parseContainer
  dsimp only
  rw [if_neg (by omega), show p.advance.doc = ofEntries es from h.doc, hadd]
  dsimp only
  rw [if_pos hs]
  exact ⟨_, _, rfl, unlocated_capacityResult hs (Nat.succ_pos _)⟩

theorem Stands.inside (h : Stands source es parent key p) (hd : p.depth < cap.maxDepth)
    (he : Admits cap es (entryOf kind parent (key.getD []) []))
    (hq : Done source q b (ofEntries (es ++ [entryOf kind parent (key.getD []) []])) (p.depth + 1)) :
    Inside source kind (es ++ [entryOf kind parent (key.getD []) []]) es.length q := by
  refine ⟨hq.doc, h.built.concat he, hq.depth ▸ hd, hq.position, ?_, ?_⟩
  · rw [List.length_append]
    exact Nat.lt_succ_self _
  · rw [entry_concat_length]
    rfl

theorem Stands.container_enters (kind : Kind)
    {close c d : UInt8} {s' : Bytes} (loop : Option ℕ → Parser cap → Option (Result × Parser cap))
    (h : Stands source es parent key p)
    (hd : p.depth < cap.maxDepth) (ht : (usage es p).Takes cap key [])
    (hrest : p.rest source = c :: s) (hs : s.dropWhile isSpace = d :: s') (hne : d ≠ close) :
    ∃ q es', Inside source kind es' es.length q ∧ usage es' q =
    (usage es p).enter key ∧ q.rest source = s.dropWhile isSpace ∧ p.parseContainer source
    (fun doc => doc.addNode kind parent (key.getD []) []) close loop = loop (some es.length) q := by
  have he : Admits cap es (entryOf kind parent (key.getD []) []) := by
    rw [h.admits_iff, ite_self]
    exact ht
  obtain ⟨q, hq, hparse⟩ := parseContainer_complete close loop h.doc h.built he hd hrest
  rw [position_eq (hq.rest.trans hs), if_neg fun hd => hne (Option.some.inj hd)] at hparse
  exact ⟨q, _, h.inside hd he hq, usage_enter hq.depth, hq.rest, hparse⟩

end Parser

theorem StopsValue.head {u : Usage} {key : Option Bytes} {s : Bytes} (h : StopsValue cap u key s) :
    ∃ c a, s = c :: a ∧ isSpace c = false ∧ c ≠ closeBracket := by
  cases h with
  | string | array | object => exact ⟨_, _, rfl, rfl, by decide⟩
  | scalar _ hv => exact hv.head
  | container hc => rcases hc with rfl | rfl <;> exact ⟨_, _, rfl, rfl, by decide⟩

theorem StopsElements.dropWhile_eq {u : Usage} {s : Bytes} (h : StopsElements cap u s) :
    ∃ c a, s.dropWhile isSpace = c :: a ∧ c ≠ closeBracket := by
  cases h with
  | value hs ha =>
    obtain ⟨c, a, rfl, hc, hne⟩ := ha.head
    exact ⟨c, a, hs.dropWhile_eq hc, hne⟩
  | rest hs ht =>
    obtain ⟨c, a, rfl, hc, hne⟩ := ht.head
    exact ⟨c, a, hs.dropWhile_eq hc, hne⟩

theorem StopsMembers.dropWhile_eq {u : Usage} {s : Bytes} (h : StopsMembers cap u s) :
    ∃ a, s.dropWhile isSpace = quote :: a := by
  cases h with
  | key hs | value hs | rest hs => exact ⟨_, hs.dropWhile_eq rfl⟩

theorem Chars.unique {s v v' b b' : Bytes} (h : Chars s v b) (h' : Chars s v' b') : v = v' := by
  have hv := @decodeLoop_complete (max v.length v'.length) _ _ _ h [] 0
    (by rw [List.length_nil]; omega)
  have hv' := @decodeLoop_complete (max v.length v'.length) _ _ _ h' [] 0
    (by rw [List.length_nil]; omega)
  rw [hv] at hv'
  simpa using (Prod.mk.inj (Prod.mk.inj hv').2).2

namespace Parser

variable {cap : Capacity} {source a s : Bytes} {es : Entries} {parent : Option ℕ}
  {key : Option Bytes} {p : Parser cap} {i fuel : ℕ}

/-- What the functions with some fuel return where they stop. -/
structure Stopped (cap : Capacity) (source : Bytes) (fuel : ℕ) : Prop where
  value : ∀ {es : Entries} {parent : Option ℕ} {key : Option Bytes} {p : Parser cap} {a : Bytes},
    Stands source es parent key p → StopsValue cap (usage es p) key a → Ws (p.rest source) a →
      2 * a.length + 1 ≤ fuel →
        ∃ r p', parseValue source fuel parent (key.getD []) p = some (r, p') ∧ Unlocated r
  object : ∀ {es : Entries} {i : ℕ} {p : Parser cap} {s : Bytes},
    Inside source .object es i p → StopsMembers cap (usage es p) s →
      p.rest source = s.dropWhile isSpace → 2 * s.length + 2 ≤ fuel →
        ∃ r p', objectLoop source fuel (some i) p = some (r, p') ∧ Unlocated r
  array : ∀ {es : Entries} {i : ℕ} {p : Parser cap} {s : Bytes},
    Inside source .array es i p → StopsElements cap (usage es p) s →
      p.rest source = s.dropWhile isSpace → 2 * s.length + 2 ≤ fuel →
        ∃ r p', arrayLoop source fuel (some i) p = some (r, p') ∧ Unlocated r

theorem parseValue_stopped (ih : Stopped cap source fuel)
    (h : Stands source es parent key p) (hs : StopsValue cap (usage es p) key a)
    (hws : Ws (p.rest source) a) (hfuel : 2 * a.length + 1 ≤ fuel + 1) :
    ∃ r p', parseValue source (fuel + 1) parent (key.getD []) p = some (r, p') ∧ Unlocated r := by
  cases hs with
  | string hs =>
    have hdone := skipSpace_done hws rfl h.position
    rw [parseValue_eq hws rfl h.position, if_neg (by decide), if_neg (by decide), if_pos rfl]
    exact ⟨_, _, rfl, parseStringValue_stopped _ _ hdone.rest hs⟩
  | @scalar _ _ kind value _ b hk hv hb ht =>
    by_cases hroom : kind = .string → value.length ≤ cap.maxStringBytes
    · obtain ⟨q, hq, hparse⟩ := parseValue_scalar fuel hv hk hb hroom hws h.position
      have hpos := hq.position_pos (p := p) (hv.length_lt.trans_le hws.length_le)
      exact ⟨_, _, hparse, h.refused hq.doc hpos (by rw [hk]; exact ht)⟩
    · -- the string is too long for the scratch string already
      obtain ⟨rfl, hlong⟩ := Classical.not_imp.mp hroom
      cases hv with
      | string hv =>
        have hdone := skipSpace_done hws rfl h.position
        rw [parseValue_eq hws rfl h.position, if_neg (by decide), if_neg (by decide), if_pos rfl]
        refine ⟨_, _, rfl, parseStringValue_stopped _ _ hdone.rest fun hdecodes => ?_⟩
        obtain ⟨v, b', hv', hlen⟩ := hdecodes
        exact hlong (hv.unique hv' ▸ hlen)
  | container hc hd ht =>
    rcases hc with rfl | rfl
    · rw [parseValue_eq hws rfl h.position, if_neg (by decide), if_pos rfl]
      exact h.skipSpace.container_refused hd ht
    · rw [parseValue_eq hws rfl h.position, if_pos rfl]
      exact h.skipSpace.container_refused hd ht
  | array hd ht hs =>
    have hdone := skipSpace_done hws rfl h.position
    obtain ⟨c, a', hdrop, hne⟩ := hs.dropWhile_eq
    obtain ⟨q, es', hq, husage, hrest, hparse⟩ := h.skipSpace.container_enters .array
      (arrayLoop source fuel) hd ht hdone.rest hdrop hne
    rw [List.length_cons] at hfuel
    rw [parseValue_eq hws rfl h.position, if_neg (by decide), if_pos rfl]
    obtain ⟨r, p', hp', hr⟩ := ih.array hq (husage ▸ hs) hrest (by omega)
    exact ⟨r, p', hparse.trans hp', hr⟩
  | object hd ht hs =>
    have hdone := skipSpace_done hws rfl h.position
    obtain ⟨a', hdrop⟩ := hs.dropWhile_eq
    obtain ⟨q, es', hq, husage, hrest, hparse⟩ := h.skipSpace.container_enters .object
      (objectLoop source fuel) hd ht hdone.rest hdrop (by decide : quote ≠ closeBrace)
    rw [List.length_cons] at hfuel
    rw [parseValue_eq hws rfl h.position, if_pos rfl]
    obtain ⟨r, p', hp', hr⟩ := ih.object hq (husage ▸ hs) hrest (by omega)
    exact ⟨r, p', hparse.trans hp', hr⟩

theorem arrayLoop_stopped (ih : Stopped cap source fuel)
    (h : Inside source .array es i p) (hs : StopsElements cap (usage es p) s)
    (hrest : p.rest source = s.dropWhile isSpace) (hfuel : 2 * s.length + 2 ≤ fuel + 1) :
    ∃ r p', arrayLoop source (fuel + 1) (some i) p = some (r, p') ∧ Unlocated r := by
  have hstands : Stands source es (some i) none p := h.stands (by simp) rfl rfl h.position
  cases hs with
  | value hws ha =>
    obtain ⟨c, a', rfl, hc, -⟩ := ha.head
    rw [hws.dropWhile_eq hc] at hrest
    have hlen := hws.length_le
    obtain ⟨r, p', hp', hr⟩ := ih.value hstands ha (hrest ▸ .nil) (by omega)
    refine ⟨r, p'.leave, ?_, hr⟩
    rw [arrayLoop, position_eq hrest]
    dsimp only
    rw [show parseValue source fuel (some i) [] p = some (r, p') from hp']
    exact if_pos (by simp [hr.failed])
  | rest hws ht hb hfits hc =>
    obtain ⟨c, a', rfl, hspace, -⟩ := ht.head
    rw [hws.dropWhile_eq hspace] at hrest
    have hlen := hws.length_le
    have hlen' := hb.length_le
    have hlt := ht.length_lt
    rw [List.length_cons] at hlen hlen' hlt
    obtain ⟨p₁, hp₁, hend⟩ := parseValue_complete ht ((hb.follow (follow_cons rfl)).ends _)
      (hrest ▸ .nil) (hstands.ready hfits) (by rw [List.length_cons]; omega : _ ≤ fuel)
    obtain ⟨p₂, hp₂, hdone⟩ := afterChild_comma (arrayLoop source fuel (some i))
      (hend.done.rest ▸ hb) (by decide : closeBracket ≠ comma) hend.done.position
    have hdepth := hdone.depth.trans hend.done.depth
    obtain ⟨r, p', hp', hr⟩ := ih.array
      (h.next (hdone.doc.trans hend.done.doc) hend.built hdepth hdone.position)
      (usage_after none hdepth ▸ hc) hdone.rest (by omega)
    refine ⟨r, p', ?_, hr⟩
    rw [arrayLoop, position_eq hrest]
    dsimp only
    rw [show parseValue source fuel (some i) [] p = some ({}, p₁) from hp₁]
    exact hp₂.trans hp'

theorem objectLoop_undecodable {out : Option ℕ} (hrest : p.rest source = quote :: s)
    (hs : ¬ Decodes cap s) :
    ∃ r p', objectLoop source (fuel + 1) out p = some (r, p') ∧ Unlocated r := by
  generalize hdecode : decodeString cap.maxStringBytes source p.position = decoded
  obtain ⟨r, position, k⟩ := decoded
  have hr : r.succeeded = false :=
    Bool.eq_false_iff.mpr (mt (decodes_of_decodeString hrest hdecode).mp hs)
  rw [objectLoop, position_eq hrest]
  dsimp only
  rw [if_neg (not_not.mpr rfl), hdecode]
  dsimp only
  rw [if_pos (by simp [hr])]
  exact ⟨r, _, rfl, unlocated_decodeString hrest hdecode hr⟩

theorem objectLoop_stopped (ih : Stopped cap source fuel)
    (h : Inside source .object es i p) (hs : StopsMembers cap (usage es p) s)
    (hrest : p.rest source = s.dropWhile isSpace) (hfuel : 2 * s.length + 2 ≤ fuel + 1) :
    ∃ r p', objectLoop source (fuel + 1) (some i) p = some (r, p') ∧ Unlocated r := by
  cases hs with
  | key hws ha =>
    rw [hws.dropWhile_eq rfl] at hrest
    exact objectLoop_undecodable hrest ha
  | @value _ _ a b c d k hws hk hroom hb hc hd =>
    rw [hws.dropWhile_eq rfl] at hrest
    have hkey := key_length hws hk hb hc
    obtain ⟨p₀, hp₀, hloop⟩ := objectLoop_key (some i) fuel hrest hk hb hroom h.position
    have hstands : Stands source es (some i) (some k) p₀ :=
      h.stands (by simp) hp₀.doc hp₀.depth hp₀.position
    have husage : usage es p₀ = usage es p := congrArg (Usage.mk _ _) hp₀.depth
    obtain ⟨r, p', hp', hr⟩ := ih.value hstands (husage ▸ hd) (hp₀.rest ▸ hc) (by omega)
    refine ⟨r, p'.leave, ?_, hr⟩
    rw [hloop, show parseValue source fuel (some i) k p₀ = some (r, p') from hp']
    exact if_pos (by simp [hr.failed])
  | @rest _ _ a b c d e g k t hws hk hb hc ht he hfits hg =>
    rw [hws.dropWhile_eq rfl] at hrest
    have hkey := key_length hws hk hb hc
    have h₅ := ht.length_lt
    have h₆ := he.length_le
    rw [List.length_cons] at h₆
    have hroom : k.length ≤ cap.maxStringBytes := by
      have hbytes := hfits.bytes
      simp only [Option.getD_some] at hbytes
      omega
    obtain ⟨p₀, hp₀, hloop⟩ := objectLoop_key (some i) fuel hrest hk hb hroom h.position
    have hstands : Stands source es (some i) (some k) p₀ :=
      h.stands (by simp) hp₀.doc hp₀.depth hp₀.position
    have husage : usage es p₀ = usage es p := congrArg (Usage.mk _ _) hp₀.depth
    obtain ⟨p₁, hp₁, hend⟩ := parseValue_complete ht ((he.follow (follow_cons rfl)).ends _)
      (hp₀.rest ▸ hc) (hstands.ready (husage ▸ hfits)) (by omega : _ ≤ fuel)
    obtain ⟨p₂, hp₂, hdone⟩ := afterChild_comma (objectLoop source fuel (some i))
      (hend.done.rest ▸ he) (by decide : closeBrace ≠ comma) hend.done.position
    have hdepth := hdone.depth.trans (hend.done.depth.trans hp₀.depth)
    obtain ⟨r, p', hp', hr⟩ := ih.object
      (h.next (hdone.doc.trans hend.done.doc) hend.built hdepth hdone.position)
      (usage_after (some k) hdepth ▸ hg) hdone.rest (by omega)
    refine ⟨r, p', ?_, hr⟩
    rw [hloop, show parseValue source fuel (some i) k p₀ = some ({}, p₁) from hp₁]
    exact hp₂.trans hp'

theorem stopped (cap : Capacity) (source : Bytes) (fuel : ℕ) : Stopped cap source fuel := by
  induction fuel with
  | zero => exact ⟨fun _ _ _ h => by omega, fun _ _ _ h => by omega, fun _ _ _ h => by omega⟩
  | succ fuel ih =>
    exact ⟨fun h hs hws hfuel => parseValue_stopped ih h hs hws hfuel,
      fun h hs hrest hfuel => objectLoop_stopped ih h hs hrest hfuel,
      fun h hs hrest hfuel => arrayLoop_stopped ih h hs hrest hfuel⟩

end Parser

end Castle.Serialization.Json

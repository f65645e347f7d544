import Mathlib.Algebra.BigOperators.Group.Finset.Basic
import Castle.Serialization.Json.RoundTrip

/-!
# Documents built through the API

A sequence of calls creates nodes.
-/

namespace Castle.Serialization.Json

open Document

variable {cap : Capacity} {es : Entries}

theorem Forest.valid_ofList {kind : Kind} {children : List (Bytes × Tree)} :
    (Forest.ofList children).Valid kind ↔
      ∀ child ∈ children, (kind = .array → child.1 = []) ∧ child.2.Valid := by
  induction children with
  | nil => simp [Forest.ofList, Forest.Valid]
  | cons child children ih => simp [Forest.ofList, Forest.Valid, ih, and_assoc]

theorem Forest.size_ofList (children : List (Bytes × Tree)) :
    (Forest.ofList children).size = (children.map fun child => child.2.size).sum := by
  induction children with
  | nil => rfl
  | cons child children ih => simp [Forest.ofList, Forest.size, ih]

theorem Forest.ofList_eq_nil_iff {children : List (Bytes × Tree)} :
    Forest.ofList children = .nil ↔ children = [] := by
  cases children <;> simp [Forest.ofList]

namespace Entries

theorem treeAt_fuel (hb : Built cap es) {fuel fuel' i : ℕ} (hi : i < es.length)
    (h : es.length ≤ fuel + i) (h' : es.length ≤ fuel' + i) :
    treeAt es fuel i = treeAt es fuel' i := by
  induction fuel generalizing fuel' i with
  | zero => omega
  | succ fuel ih =>
    obtain ⟨n, rfl⟩ := Nat.exists_eq_succ_of_ne_zero (by omega : fuel' ≠ 0)
    have hmap : ((children es i).map fun c => ((entry es c).key, treeAt es fuel c)) =
        (children es i).map fun c => ((entry es c).key, treeAt es n c) := by
      refine List.map_congr_left fun c hc => ?_
      have hlt := hb.lt_child hc
      rw [@ih n c (lt_of_mem_children hc) (by omega) (by omega)]
    rw [treeAt, treeAt, hmap]

/-- The text of a node in a tree. -/
def text (e : Entry) : Bytes := if e.kind = .null then [] else e.value

/-- A node with its children. -/
def subtree (es : Entries) (i : ℕ) : Tree := treeAt es es.length i

theorem subtree_eq (hb : Built cap es) {i : ℕ} (hi : i < es.length) : subtree es i =
    .node (entry es i).kind (text (entry es i))
      (Forest.ofList ((children es i).map fun c => ((entry es c).key, subtree es c))) := by
  have hfuel := treeAt_fuel hb hi (by omega : es.length ≤ es.length + i)
    (by omega : es.length ≤ (es.length + 1) + i)
  rw [subtree, hfuel, treeAt]
  rfl

theorem entry_of_mem {p i : ℕ} (h : i ∈ children es p) : (entry es i).parent = some p := by
  obtain ⟨e, he, hp⟩ := mem_children.mp h
  rw [entry, he, Option.getD_some, hp]

theorem mem_of_entry {p i : ℕ} (hi : i < es.length) (h : (entry es i).parent = some p) :
    i ∈ children es p := by
  refine mem_children.mpr ⟨es[i], List.getElem?_eq_getElem hi, ?_⟩
  rw [← h]
  simp [entry, hi]

theorem size_tree (hb : Built cap es) (hne : es ≠ []) : es.tree.size = es.length := by
  have hpos := List.length_pos_of_ne_nil hne
  have hparent (j : ℕ) (hj : j < es.length) (h0 : j ≠ 0) :
      ∃ p, (entry es j).parent = some p ∧ p < j := by
    cases hp : (entry es j).parent with
    | none => exact absurd (hb.root j hj hp) h0
    | some p => exact ⟨p, rfl, hb.parent j p hj hp⟩
  have hchildren (i : ℕ) : (children es i).toFinset =
      {j ∈ (Finset.range es.length).erase 0 | (entry es j).parent.getD 0 = i} := by
    ext j
    rw [List.mem_toFinset, Finset.mem_filter, Finset.mem_erase, Finset.mem_range]
    constructor
    · intro hmem
      have hj := lt_of_mem_children hmem
      have hlt := hb.lt_child hmem
      refine ⟨⟨by omega, hj⟩, ?_⟩
      rw [entry_of_mem hmem, Option.getD_some]
    · rintro ⟨⟨h0, hj⟩, hp⟩
      obtain ⟨p, hparent, -⟩ := hparent j hj h0
      rw [hparent, Option.getD_some] at hp
      exact mem_of_entry hj (hparent.trans (congrArg some hp))
  have hsize (i : ℕ) (hi : i ∈ Finset.range es.length) : (subtree es i).size =
      ∑ j ∈ (Finset.range es.length).erase 0 with (entry es j).parent.getD 0 = i,
        (subtree es j).size + 1 := by
    have hnodup := (pairwise_children es i).imp fun h => Nat.ne_of_lt h
    rw [subtree_eq hb (Finset.mem_range.mp hi), Tree.size, Forest.size_ofList, List.map_map,
      ← hchildren, List.sum_toFinset _ hnodup]
    rfl
  have hmaps : ∀ j ∈ (Finset.range es.length).erase 0,
      (entry es j).parent.getD 0 ∈ Finset.range es.length := by
    intro j hj
    rw [Finset.mem_erase, Finset.mem_range] at hj
    obtain ⟨p, hp, hlt⟩ := hparent j hj.2 hj.1
    rw [hp, Option.getD_some, Finset.mem_range]
    omega
  -- every node but the root is counted once as a child
  have hsum : ∑ i ∈ Finset.range es.length, (subtree es i).size =
      ∑ j ∈ (Finset.range es.length).erase 0, (subtree es j).size + es.length := by
    rw [Finset.sum_congr rfl hsize, Finset.sum_add_distrib, Finset.sum_fiberwise_of_maps_to hmaps]
    simp
  rw [← Finset.add_sum_erase _ _ (Finset.mem_range.mpr hpos)] at hsum
  show (subtree es 0).size = _
  omega

/-- A node as the grammar allows it, given the nodes before. -/
structure Allowed (es : Entries) (e : Entry) : Prop where
  value : e.kind.Allows (text e)
  parent : ∀ p, e.parent = some p → (entry es p).kind.isContainer = true

/-- Elements of arrays have no key, and members of objects have one. -/
structure Keyed (es : Entries) : Prop where
  member : ∀ i p, i < es.length → (entry es i).parent = some p → (entry es p).kind = .object →
    (entry es i).key ≠ []
  element : ∀ i p, i < es.length → (entry es i).parent = some p → (entry es p).kind = .array →
    (entry es i).key = []

theorem valid_subtree_iff (hb : Built cap es) (hk : Keyed es) {i : ℕ} (hi : i < es.length) :
    (subtree es i).Valid ↔ (entry es i).kind.Allows (text (entry es i)) ∧
      ∀ c ∈ children es i, (entry es i).kind.isContainer = true ∧ (subtree es c).Valid := by
  rw [subtree_eq hb hi, Tree.Valid, Forest.ofList_eq_nil_iff, Forest.valid_ofList,
    List.map_eq_nil_iff]
  constructor
  · rintro ⟨hvalue, hscalar, hchildren⟩
    refine ⟨hvalue, fun c hc => ⟨?_, (hchildren _ (List.mem_map.mpr ⟨c, hc, rfl⟩)).2⟩⟩
    by_contra hnot
    rw [hscalar (by simpa using hnot)] at hc
    cases hc
  · rintro ⟨hvalue, hchildren⟩
    refine ⟨hvalue, fun hscalar => ?_, ?_⟩
    · refine List.eq_nil_iff_forall_not_mem.mpr fun c hc => ?_
      rw [(hchildren c hc).1] at hscalar
      cases hscalar
    · intro child hchild
      obtain ⟨c, hc, rfl⟩ := List.mem_map.mp hchild
      exact ⟨fun harray => hk.element c i (lt_of_mem_children hc) (entry_of_mem hc) harray,
        (hchildren c hc).2⟩

theorem valid_tree_iff (hb : Built cap es) (hk : Keyed es) (hne : es ≠ []) :
    es.tree.Valid ↔ ∀ i < es.length, Allowed es (entry es i) := by
  constructor
  · intro hvalid
    have hsub (i : ℕ) (hi : i < es.length) : (subtree es i).Valid := by
      induction i using Nat.strong_induction_on with
      | _ i ih =>
        cases hp : (entry es i).parent with
        | none =>
          rw [hb.root i hi hp]
          exact hvalid
        | some p =>
          have hlt := hb.parent i p hi hp
          have hmem := mem_of_entry hi hp
          exact (((valid_subtree_iff hb hk (by omega)).mp (ih p hlt (by omega))).2 i hmem).2
    intro i hi
    have hi' := (valid_subtree_iff hb hk hi).mp (hsub i hi)
    refine ⟨hi'.1, fun p hp => ?_⟩
    have hlt := hb.parent i p hi hp
    have hmem := mem_of_entry hi hp
    exact (((valid_subtree_iff hb hk (by omega)).mp (hsub p (by omega))).2 i hmem).1
  · intro hall
    have hsub (n i : ℕ) (hi : i < es.length) (hn : es.length ≤ n + i) : (subtree es i).Valid := by
      induction n generalizing i with
      | zero => omega
      | succ n ih =>
        refine (valid_subtree_iff hb hk hi).mpr ⟨(hall i hi).value, fun c hc => ?_⟩
        have hlt := hb.lt_child hc
        have hc' := lt_of_mem_children hc
        exact ⟨(hall c hc').parent i (entry_of_mem hc), ih c hc' (by omega)⟩
    exact hsub es.length 0 (List.length_pos_of_ne_nil hne) (by omega)

end Entries

/-- The calls of the API that create nodes. -/
inductive Call where
  | setNull (parent : Option ℕ) (key : Bytes)
  | setBool (value : Bool) (parent : Option ℕ) (key : Bytes)
  | setString (value : Bytes) (parent : Option ℕ) (key : Bytes)
  | setNumber (value : Bytes) (parent : Option ℕ) (key : Bytes)
  | setInteger (value : ℤ) (parent : Option ℕ) (key : Bytes)
  | makeObject (parent : Option ℕ) (key : Bytes)
  | makeArray (parent : Option ℕ) (key : Bytes)
  | append (parent : Option ℕ) (kind : Kind) (value key : Bytes)

namespace Call

def apply (d : Document cap) : Call → Status × Option ℕ × Document cap
  | setNull parent key => d.setNull parent key
  | setBool value parent key => d.setBool value parent key
  | setString value parent key => d.setString value parent key
  | setNumber value parent key => d.setNumber value parent key
  | setInteger value parent key => d.setInteger value parent key
  | makeObject parent key => d.makeObject parent key
  | makeArray parent key => d.makeArray parent key
  | append parent kind value key => d.append parent kind value key

/-- The node that a call creates when it succeeds. -/
def entry : Call → Entry
  | setNull parent key => entryOf .null parent key []
  | setBool value parent key => entryOf .boolean parent key (if value then trueText else falseText)
  | setString value parent key => entryOf .string parent key value
  | setNumber value parent key => entryOf .number parent key value
  | setInteger value parent key => entryOf .number parent key ((formatInteger value).getD [])
  | makeObject parent key => entryOf .object parent key []
  | makeArray parent key => entryOf .array parent key []
  | append parent kind value key => entryOf kind parent key value

/-- What the call does not check. -/
def Sound (d : Document cap) : Call → Prop
  | append _ kind value _ =>
    (kind = .number → validNumber value = true) ∧
      (kind = .boolean → value = trueText ∨ value = falseText)
  | setNull parent _ | setBool _ parent _ | setString _ parent _ | setNumber _ parent _
  | setInteger _ parent _ | makeObject parent _ | makeArray parent _ =>
    ∀ p, parent = some p → (d.kind parent).isContainer = true

end Call

/-- A document and the nodes that were created in it. -/
structure Construction (cap : Capacity) where
  doc : Document cap := .empty
  created : Entries := []

def Construction.step (c : Construction cap) (call : Call) : Construction cap where
  doc := (call.apply c.doc).2.2
  created := if (call.apply c.doc).1 = .ok then c.created ++ [call.entry] else c.created

/-- The calls one after the other, starting from an empty document. -/
def build (cap : Capacity) (calls : List Call) : Construction cap :=
  calls.foldl Construction.step {}

open Entries

/-- A call adds its node, or leaves the document as it is. -/
structure Applied (es : Entries) (e : Entry) (result : Status × Option ℕ × Document cap) :
    Prop where
  ok : result.1 = .ok → Admits cap es e ∧ result.2.2 = ofEntries (es ++ [e])
  refused : result.1 ≠ .ok → result.2.2 = ofEntries es

theorem Applied.refuse {e : Entry} {s : Status} (hs : s ≠ .ok) :
    Applied es e (s, none, (ofEntries es : Document cap)) :=
  ⟨fun h => absurd h hs, fun _ => rfl⟩

theorem addNode_applied (hb : Built cap es) (kind : Kind) (parent : Option ℕ) (key value : Bytes) :
    Applied es (entryOf kind parent key value)
      ((ofEntries es : Document cap).addNode kind parent key value) := by
  by_cases he : Admits cap es (entryOf kind parent key value)
  · rw [addNode_admitted hb he]
    exact ⟨fun _ => ⟨he, rfl⟩, fun h => absurd rfl h⟩
  · obtain ⟨s, hs, hrefused⟩ := addNode_refused hb he
    rw [hrefused]
    exact .refuse hs

namespace Call

theorem apply_applied (hb : Built cap es) (call : Call) :
    Applied es call.entry (call.apply (ofEntries es : Document cap)) := by
  cases call with
  | setNull | setBool | setString | makeObject | makeArray => exact addNode_applied hb _ _ _ _
  | setNumber value parent key =>
    show Applied es _ ((ofEntries es : Document cap).setNumber value parent key)
    unfold Document.setNumber
    split
    · exact .refuse (by decide)
    · exact addNode_applied hb _ _ _ _
  | setInteger value parent key =>
    show Applied es (entryOf .number parent key ((formatInteger value).getD []))
      ((ofEntries es : Document cap).setInteger value parent key)
    unfold Document.setInteger
    split
    · exact .refuse (by decide)
    next encoded hformat =>
      rw [hformat]
      unfold Document.setNumber
      split
      · exact .refuse (by decide)
      · exact addNode_applied hb _ _ _ _
  | append parent kind value key =>
    show Applied es _ ((ofEntries es : Document cap).append parent kind value key)
    unfold Document.append
    split
    · exact .refuse (by decide)
    · split
      · exact .refuse (by decide)
      · exact addNode_applied hb _ _ _ _

theorem unchecked_sound_iff {e : Entry} (hp : ∀ p, e.parent = some p → p < es.length)
    (hvalue : e.kind.Allows (text e)) :
    (∀ p, e.parent = some p → ((ofEntries es : Document cap).kind e.parent).isContainer = true) ↔
      Allowed es e := by
  have hkind (p : ℕ) (he : e.parent = some p) :
      (ofEntries es : Document cap).kind e.parent = (Entries.entry es p).kind := by
    rw [he, kind_ofEntries (hp p he)]
  constructor
  · intro h
    exact ⟨hvalue, fun p he => hkind p he ▸ h p he⟩
  · intro h p he
    rw [hkind p he]
    exact h.parent p he

theorem sound_iff (hb : Built cap es) (call : Call)
    (h : (call.apply (ofEntries es : Document cap)).1 = .ok) :
    call.Sound (ofEntries es : Document cap) ↔ Allowed es call.entry := by
  have hplaced := ((call.apply_applied hb).ok h).1.parent
  cases call with
  | setNull parent key => exact unchecked_sound_iff hplaced rfl
  | setBool value parent key =>
    have hvalue : Kind.boolean.Allows (if value then trueText else falseText) := by
      cases value
      · exact .inr rfl
      · exact .inl rfl
    exact unchecked_sound_iff hplaced hvalue
  | setString value parent key => exact unchecked_sound_iff hplaced trivial
  | makeObject parent key => exact unchecked_sound_iff hplaced rfl
  | makeArray parent key => exact unchecked_sound_iff hplaced rfl
  | setNumber value parent key =>
    have hvalue : IsNumber value := by
      replace h : ((ofEntries es : Document cap).setNumber value parent key).1 = .ok := h
      unfold Document.setNumber at h
      split at h
      · cases h
      next hvalid => exact validNumber_iff.mp (by simpa using hvalid)
    exact unchecked_sound_iff hplaced hvalue
  | setInteger value parent key =>
    have hvalue : IsNumber ((formatInteger value).getD []) := by
      replace h : ((ofEntries es : Document cap).setInteger value parent key).1 = .ok := h
      unfold Document.setInteger Document.setNumber at h
      split at h
      · cases h
      next encoded hformat =>
        split at h
        · cases h
        next hvalid =>
          rw [hformat]
          exact validNumber_iff.mp (by simpa using hvalid)
    exact unchecked_sound_iff hplaced hvalue
  | append parent kind value key =>
    replace h : ((ofEntries es : Document cap).append parent kind value key).1 = .ok := h
    unfold Document.append at h
    split at h
    · cases h
    next hcontainer =>
      have hcontainer' : ∀ p, parent = some p → (Entries.entry es p).kind.isContainer = true := by
        rintro p rfl
        rw [kind_ofEntries (hplaced p rfl)] at hcontainer
        cases hk : (Entries.entry es p).kind <;> simp_all [Kind.isContainer]
      have hvalue : kind.Allows (text (entryOf kind parent key value)) ↔
          (kind = .number → validNumber value = true) ∧
            (kind = .boolean → value = trueText ∨ value = falseText) := by
        cases kind <;> simp [Kind.Allows, text, entryOf, Kind.isContainer, validNumber_iff]
      exact hvalue.symm.trans ⟨fun hv => ⟨hv, hcontainer'⟩, fun he => he.value⟩

end Call

theorem Entries.Keyed.nil : Keyed [] :=
  ⟨fun _ _ hi => absurd hi (Nat.not_lt_zero _), fun _ _ hi => absurd hi (Nat.not_lt_zero _)⟩

theorem Entries.Keyed.concat (hb : Built cap es) (h : Keyed es) {e : Entry}
    (he : Admits cap es e) : Keyed (es ++ [e]) where
  member := by
    intro i p hi hp hkind
    rw [List.length_append, List.length_singleton] at hi
    by_cases hlt : i < es.length
    · rw [entry_append _ hlt] at hp ⊢
      have hlt' := hb.parent i p hlt hp
      rw [entry_append _ (by omega)] at hkind
      exact h.member i p hlt hp hkind
    · obtain rfl : i = es.length := by omega
      rw [entry_concat_length] at hp ⊢
      rw [entry_append _ (he.parent p hp)] at hkind
      exact he.member p hp hkind
  element := by
    intro i p hi hp hkind
    rw [List.length_append, List.length_singleton] at hi
    by_cases hlt : i < es.length
    · rw [entry_append _ hlt] at hp ⊢
      have hlt' := hb.parent i p hlt hp
      rw [entry_append _ (by omega)] at hkind
      exact h.element i p hlt hp hkind
    · obtain rfl : i = es.length := by omega
      rw [entry_concat_length] at hp ⊢
      rw [entry_append _ (he.parent p hp)] at hkind
      exact he.element p hp hkind

theorem allowed_append {e : Entry} (es' : Entries) (hp : ∀ p, e.parent = some p → p < es.length) :
    Allowed (es ++ es') e ↔ Allowed es e := by
  constructor
  · intro h
    exact ⟨h.value, fun p he => entry_append es' (hp p he) ▸ h.parent p he⟩
  · intro h
    refine ⟨h.value, fun p he => ?_⟩
    rw [entry_append es' (hp p he)]
    exact h.parent p he

theorem allowed_concat_iff (hb : Built cap es) {e : Entry} (he : Admits cap es e) :
    (∀ i < (es ++ [e]).length, Allowed (es ++ [e]) (entry (es ++ [e]) i)) ↔
      (∀ i < es.length, Allowed es (entry es i)) ∧ Allowed es e := by
  have hold (i : ℕ) (hi : i < es.length) :
      Allowed (es ++ [e]) (entry (es ++ [e]) i) ↔ Allowed es (entry es i) := by
    rw [entry_append _ hi]
    exact allowed_append _ fun p hp => (hb.parent i p hi hp).trans hi
  rw [List.length_append, List.length_singleton]
  constructor
  · intro h
    refine ⟨fun i hi => (hold i hi).mp (h i (by omega)), ?_⟩
    have hlast := h es.length (by omega)
    rw [entry_concat_length] at hlast
    exact (allowed_append _ he.parent).mp hlast
  · rintro ⟨h, hlast⟩ i hi
    by_cases hlt : i < es.length
    · exact (hold i hlt).mpr (h i hlt)
    · obtain rfl : i = es.length := by omega
      rw [entry_concat_length]
      exact (allowed_append _ he.parent).mpr hlast

/-- The document is that of the created nodes. -/
structure Construction.Consistent (c : Construction cap) : Prop where
  doc : c.doc = ofEntries c.created
  built : Built cap c.created
  keyed : Keyed c.created

theorem Construction.Consistent.step {c : Construction cap} (h : c.Consistent) (call : Call) :
    (c.step call).Consistent := by
  obtain ⟨hdoc, hb, hk⟩ := h
  have happlied := call.apply_applied hb
  rw [← hdoc] at happlied
  unfold Construction.step
  by_cases hok : (call.apply c.doc).1 = .ok
  · obtain ⟨he, hnext⟩ := happlied.ok hok
    rw [if_pos hok]
    exact ⟨hnext, hb.concat he, hk.concat hb he⟩
  · rw [if_neg hok]
    exact ⟨happlied.refused hok, hb, hk⟩

theorem build_concat (calls : List Call) (call : Call) :
    build cap (calls ++ [call]) = (build cap calls).step call := by
  simp [build]

theorem build_consistent (cap : Capacity) (calls : List Call) : (build cap calls).Consistent := by
  induction calls using List.reverseRecOn with
  | nil => exact ⟨rfl, .nil, .nil⟩
  | append_singleton calls call ih =>
    rw [build_concat]
    exact ih.step call

/-- Every call that succeeds is sound where it is made. -/
def SoundCalls (cap : Capacity) (calls : List Call) : Prop :=
  ∀ before call after, calls = before ++ call :: after →
    (call.apply (build cap before).doc).1 = .ok → call.Sound (build cap before).doc

theorem soundCalls_concat {calls : List Call} {call : Call} : SoundCalls cap (calls ++ [call]) ↔
    SoundCalls cap calls ∧
      ((call.apply (build cap calls).doc).1 = .ok → call.Sound (build cap calls).doc) := by
  constructor
  · intro h
    refine ⟨fun before call' after hsplit => ?_, h calls call [] rfl⟩
    exact h before call' (after ++ [call]) (by rw [hsplit, List.append_assoc, List.cons_append])
  · rintro ⟨h, hlast⟩ before call' after hsplit
    cases after using List.reverseRecOn with
    | nil =>
      obtain ⟨rfl, hcall⟩ := List.append_inj' hsplit rfl
      cases hcall
      exact hlast
    | append_singleton after last =>
      rw [← List.cons_append, ← List.append_assoc] at hsplit
      exact h before call' after (List.append_inj' hsplit rfl).1

theorem build_allowed_iff (calls : List Call) :
    (∀ i < (build cap calls).created.length,
      Allowed (build cap calls).created (entry (build cap calls).created i)) ↔
        SoundCalls cap calls := by
  induction calls using List.reverseRecOn with
  | nil =>
    constructor
    · intro _ before call after hsplit
      simp at hsplit
    · intro _ i hi
      cases hi
  | append_singleton calls call ih =>
    obtain ⟨hdoc, hb, -⟩ := build_consistent cap calls
    rw [soundCalls_concat, ← ih, build_concat, Construction.step]
    by_cases hok : (call.apply (build cap calls).doc).1 = .ok
    · rw [hdoc] at hok
      rw [hdoc, if_pos hok, allowed_concat_iff hb ((call.apply_applied hb).ok hok).1,
        call.sound_iff hb hok]
      simp [hok]
    · rw [if_neg hok]
      simp [hok]

theorem Forest.hasEmptyKey_ofList {kind : Kind} {children : List (Bytes × Tree)} :
    (Forest.ofList children).HasEmptyKey kind ↔
      ∃ child ∈ children, (kind = .object ∧ child.1 = []) ∨ child.2.HasEmptyKey := by
  induction children with
  | nil => simp [Forest.ofList, Forest.HasEmptyKey]
  | cons child children ih => simp [Forest.ofList, Forest.HasEmptyKey, ih, or_assoc]

theorem Entries.Keyed.tree (hb : Built cap es) (hk : Keyed es) (hne : es ≠ []) :
    ¬ es.tree.HasEmptyKey := by
  have hsub (n i : ℕ) (hi : i < es.length) (hn : es.length ≤ n + i) :
      ¬ (subtree es i).HasEmptyKey := by
    induction n generalizing i with
    | zero => omega
    | succ n ih =>
      rw [subtree_eq hb hi, Tree.HasEmptyKey, Forest.hasEmptyKey_ofList]
      rintro ⟨child, hchild, hkey⟩
      obtain ⟨c, hc, rfl⟩ := List.mem_map.mp hchild
      have hlt := hb.lt_child hc
      have hc' := lt_of_mem_children hc
      rcases hkey with ⟨hobject, hkey⟩ | hkey
      · exact hk.member c i hc' (entry_of_mem hc) hobject hkey
      · exact ih c hc' (by omega) hkey
  exact hsub es.length 0 (List.length_pos_of_ne_nil hne) (by omega)

/-- The output is parsed into the tree of the created nodes, with each of them once. -/
def Reparses {cap : Capacity} (created : Entries) (out : Bytes) (d : Document cap) : Prop :=
  ∃ d', Accepts d out d' ∧ d'.tree = created.tree ∧ d'.tree.size = created.length

/-- What was serialized is parsed with all created nodes exactly if the calls were sound. -/
theorem build_reparses_iff {cap cap' : Capacity} {calls : List Call} {maxOutput : ℕ}
    {layout : Layout} {out : Bytes} (h : Serializes (build cap calls).doc maxOutput layout out)
    (hroom : Ample cap' out) (d : Document cap') :
    Reparses (build cap calls).created out d ↔ SoundCalls cap calls := by
  obtain ⟨hdoc, hb, hk⟩ := build_consistent cap calls
  rw [← build_allowed_iff calls]
  generalize (build cap calls).created = es at hdoc hb hk ⊢
  have hne : es ≠ [] := by
    rintro rfl
    rw [hdoc] at h
    cases h
  rw [hdoc, serializes_iff hb hne] at h
  rw [← valid_tree_iff hb hk hne]
  constructor
  · rintro ⟨d', hd', htree, -⟩
    exact htree ▸ hd'.tree.1.valid
  · intro hvalid
    have haccepts := accepts_of_text (d := d) (Tree.render_text hvalid h.1) (hk.tree hb hne) hroom
    refine ⟨_, haccepts, tree_ofEntries_entries hvalid, ?_⟩
    rw [tree_ofEntries_entries hvalid, size_tree hb hne]

def unchecked : List Call := [.makeArray none [], .append (some 0) .number [0x78] []]

/-- `[x]` -/
def uncheckedText : Bytes := [openBracket, 0x78, closeBracket]

theorem serializes_unchecked :
    Serializes (build smallCapacity unchecked).doc 8 ⟨false, 0⟩ uncheckedText := by
  unfold Serializes
  decide

theorem ample_uncheckedText : Ample smallCapacity uncheckedText :=
  ⟨by decide, by decide, by decide⟩

/-- The document is serialized, and the output is not accepted although there is enough room. -/
theorem unchecked_is_rejected : Serializes (build smallCapacity unchecked).doc 8
    ⟨false, 0⟩ uncheckedText ∧ Ample smallCapacity uncheckedText ∧
    ¬ ∃ d', Accepts (Document.empty : Document smallCapacity) uncheckedText d' := by
  refine ⟨serializes_unchecked, ample_uncheckedText, ?_⟩
  rintro ⟨d', r, hp, hr⟩
  have hrun : (parse (Document.empty : Document smallCapacity) uncheckedText).map
      (fun res => res.1.succeeded) = some false := by decide
  rw [hp, Option.map_some, hr] at hrun
  cases hrun

theorem build_reparses_iff_unchecked : ¬ Reparses (build smallCapacity unchecked).created
    uncheckedText (Document.empty : Document smallCapacity) := by
  rw [build_reparses_iff serializes_unchecked ample_uncheckedText]
  intro h
  have hsound := h [.makeArray none []] (.append (some 0) .number [0x78] []) [] rfl (by decide)
  exact absurd (hsound.1 rfl) (by decide)

end Castle.Serialization.Json

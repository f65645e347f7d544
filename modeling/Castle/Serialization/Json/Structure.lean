import Mathlib.Logic.Relation
import Castle.Lib.Chain
import Castle.Serialization.Json.Refinement

/-!
# The structure of documents in memory

In every state that `parse`, `clear` and the calls that create nodes lead to, the slots in use are
linked to one tree and the ranges of their keys and values do not overlap.
-/

namespace Castle.Serialization.Json

open Document Entries

namespace Memory

variable {cap : Capacity}

/-- The links of the slots in use form one ordered tree with root 0: every other node is once in the
chain of its parent, and in no other chain. -/
structure OrderedTree (m : Memory cap) : Prop where
  root : 0 < m.nodeCount → (m.node 0).parent = none ∧ (m.node 0).nextSibling = none
  parent : ∀ i, 0 < i → i < m.nodeCount → ∃ p, p < i ∧ (m.node i).parent = some p
  rooted : ∀ i, i < m.nodeCount →
    Relation.ReflTransGen (fun i p => (m.node i).parent = some p) i 0
  chain : ∀ p, p < m.nodeCount → ∃ children,
    Chain (fun i => (m.node i).nextSibling) (m.node p).firstChild children none ∧
      (m.node p).lastChild = children.getLast? ∧
      ∀ i, children.count i = if i < m.nodeCount ∧ (m.node i).parent = some p then 1 else 0
  last : ∀ p i, p < m.nodeCount → (m.node p).lastChild = some i → (m.node i).nextSibling = none

/-- The offsets and sizes of all keys and values. -/
def ranges (m : Memory cap) : List (ℕ × ℕ) :=
  (List.range m.nodeCount).flatMap fun i =>
    [((m.node i).keyOffset, (m.node i).keySize), ((m.node i).valueOffset, (m.node i).valueSize)]

/-- The ranges are in use, and no two of them overlap. -/
structure DisjointRanges (m : Memory cap) : Prop where
  used : ∀ r ∈ m.ranges, r.1 + r.2 ≤ m.arena.used
  disjoint : m.ranges.Pairwise fun r s => r.1 + r.2 ≤ s.1 ∨ s.1 + s.2 ≤ r.1

/-- A call that creates a node. -/
inductive Creation where
  | call (c : Call)
  | setFloating (encoded : Option Bytes) (parent : Option ℕ) (key : Bytes)

def create (m : Memory cap) : Creation → Status × Option ℕ × Memory cap
  | .call c => m.call c
  | .setFloating encoded parent key => m.setFloating encoded parent key

/-- What changes a document. -/
inductive Operation where
  | clear
  | parse (source : Bytes)
  | create (c : Creation)

def step (m : Memory cap) : Operation → Option (Memory cap)
  | .clear => some m.clear
  | .parse source => (m.parse source).map Prod.snd
  | .create c => some (m.create c).2.2

inductive Reachable : Memory cap → Prop
  | initial : Reachable (.initial cap)
  | step {m m' : Memory cap} (h : Reachable m) (op : Operation) (hstep : m.step op = some m') :
    Reachable m'

/-- The slots and both counters are as before; bytes behind those in use may differ. -/
structure Unchanged (m m' : Memory cap) : Prop where
  nodes : m'.nodes = m.nodes
  nodeCount : m'.nodeCount = m.nodeCount
  used : m'.arena.used = m.arena.used

variable (m : Memory cap)

theorem Unchanged.refl : Unchanged m m := ⟨rfl, rfl, rfl⟩

/-- A result that is not ok comes with an unchanged document. -/
def Atomic (m : Memory cap) (result : Status × Option ℕ × Memory cap) : Prop :=
  result.1 ≠ .ok → Unchanged m result.2.2

theorem atomic_refused {m : Memory cap} {s : Status} : Atomic m (s, none, m) := fun _ => .refl m

theorem addNode_atomic (kind : Kind) (parent : Option ℕ) (keyName value : Bytes) :
    Atomic m (m.addNode kind parent keyName value) := by
  unfold addNode
  split
  · exact atomic_refused
  · dsimp only
    split
    · exact atomic_refused
    · split
      · exact atomic_refused
      · split
        · exact atomic_refused
        · split
          · exact atomic_refused
          · obtain ⟨-, hnone⟩ | ⟨b, -, hsome, -, hused, -⟩ := m.arena.store_cases keyName
            · rw [hnone]
              exact atomic_refused
            · rw [hsome]
              dsimp only
              split
              · -- the key is given back
                exact fun _ => ⟨rfl, rfl, hused⟩
              · exact fun hs => absurd (rfl) hs

theorem setNumber_atomic (value : Bytes) (parent : Option ℕ) (keyName : Bytes) :
    Atomic m (m.setNumber value parent keyName) := by
  unfold setNumber
  split
  · exact atomic_refused
  · exact addNode_atomic m _ _ _ _

theorem call_atomic (c : Call) : Atomic m (m.call c) := by
  cases c with
  | setNull | setBool | setString | makeObject | makeArray => exact addNode_atomic m _ _ _ _
  | setNumber value parent key => exact setNumber_atomic m value parent key
  | setInteger value parent key =>
    show Atomic m (m.setInteger value parent key)
    unfold setInteger
    split
    · exact atomic_refused
    · exact setNumber_atomic m _ _ _
  | append parent kind value key =>
    show Atomic m (m.append parent kind value key)
    unfold append
    split
    · exact atomic_refused
    · split
      · exact atomic_refused
      · exact addNode_atomic m _ _ _ _

theorem create_atomic (c : Creation) : Atomic m (m.create c) := by
  cases c with
  | call c => exact call_atomic m c
  | setFloating encoded parent key =>
    cases encoded with
    | none => exact atomic_refused
    | some encoded => exact setNumber_atomic m encoded parent key

/-- What is in use is what nodes were added. -/
structure Holds (m : Memory cap) (es : Entries) : Prop where
  document : m.document = ofEntries es
  built : Built cap es

theorem parse_built {d d' : Document cap} {source : Bytes} {r : Result}
    (h : Json.parse d source = some (r, d')) : ∃ es, d' = ofEntries es ∧ Built cap es := by
  unfold Json.parse Json.Parser.run at h
  dsimp only at h
  split at h
  · cases h
  next r' p' hvalue =>
    split at h
    · cases h
      exact ⟨[], rfl, .nil⟩
    next hok =>
      have hstart : (Json.Parser.skipSpace source ⟨.empty, 0, 0⟩ : Json.Parser cap).doc =
          ofEntries [] := rfl
      obtain ⟨t, ht⟩ := (Json.Parser.sound cap source _).value hstart .nil (Nat.zero_le _) hvalue
        (by simpa using hok)
      split at h
      · cases h
        exact ⟨_, ht.adds.doc, ht.adds.built⟩
      · cases h
        exact ⟨_, ht.adds.doc, ht.adds.built⟩

variable {m m' : Memory cap} {es : Entries}

theorem holds_initial : Holds (.initial cap) [] := ⟨rfl, .nil⟩

theorem Holds.call (h : Holds m es) (c : Call) : ∃ es', Holds (m.call c).2.2 es' := by
  have happlied := c.apply_applied h.built
  rw [← h.document, document_call] at happlied
  by_cases hok : (m.call c).1 = .ok
  · obtain ⟨he, hdoc⟩ := happlied.ok hok
    exact ⟨_, hdoc, h.built.concat he⟩
  · exact ⟨es, happlied.refused hok, h.built⟩

theorem Holds.step (h : Holds m es) {op : Operation} (hstep : m.step op = some m') :
    ∃ es', Holds m' es' := by
  cases op with
  | clear =>
    cases hstep
    exact ⟨[], rfl, .nil⟩
  | parse source =>
    obtain ⟨res, hparse, rfl⟩ := Option.map_eq_some_iff.mp hstep
    have hdocument := document_parse m .empty source
    rw [hparse, Option.map_some] at hdocument
    obtain ⟨es', hdoc, hbuilt⟩ := parse_built hdocument
    exact ⟨es', hdoc, hbuilt⟩
  | create c =>
    cases hstep
    cases c with
    | call c => exact h.call c
    | setFloating encoded parent key =>
      cases encoded with
      | none => exact ⟨es, h⟩
      | some encoded => exact h.call (.setNumber encoded parent key)

theorem Reachable.holds (h : Reachable m) : ∃ es, Holds m es := by
  induction h with
  | initial => exact ⟨[], holds_initial⟩
  | step _ op hstep ih =>
    obtain ⟨es, hes⟩ := ih
    exact hes.step hstep

theorem Holds.nodeCount (h : Holds m es) : m.nodeCount = es.length := by
  rw [← length_nodes_document, h.document, length_nodes_ofEntries]

variable {i : ℕ}

theorem Holds.node (h : Holds m es) (hi : i < es.length) : m.node i = nodeAt es i := by
  rw [← node_document (h.nodeCount ▸ hi), h.document, node_ofEntries hi]

theorem Holds.used (h : Holds m es) : m.arena.used = Entries.bytes es := by
  rw [← Arena.length_bytes, show m.arena.bytes = m.document.storage from rfl, h.document,
    ← length_storage]
  rfl

theorem chain_children {p : ℕ} {a b : List ℕ} (h : Entries.children es p = a ++ b) :
    Chain (ofEntries es : Document cap).nextSibling b.head? b none := by
  induction b generalizing a with
  | nil => exact rfl
  | cons i b ih =>
    refine ⟨rfl, ?_⟩
    rw [nextSibling_ofEntries h]
    exact ih (by rw [h, List.append_assoc, List.singleton_append] : _ = (a ++ [i]) ++ b)

theorem Holds.nextSibling (h : Holds m es) {p : ℕ} (hi : i ∈ Entries.children es p) :
    (m.node i).nextSibling = (ofEntries es : Document cap).nextSibling i := by
  rw [h.node (lt_of_mem_children hi), Document.nextSibling, node_ofEntries (lt_of_mem_children hi)]

theorem Holds.parent (h : Holds m es) (hi : i < m.nodeCount) :
    (m.node i).parent = (entry es i).parent := by
  rw [h.node (h.nodeCount ▸ hi)]
  rfl

theorem Holds.count_children (h : Holds m es) (p i : ℕ) : (Entries.children es p).count i =
    if i < m.nodeCount ∧ (m.node i).parent = some p then 1 else 0 := by
  have hnodup : (Entries.children es p).Nodup :=
    (pairwise_children es p).imp fun hlt => Nat.ne_of_lt hlt
  have hmem : i ∈ Entries.children es p ↔ i < m.nodeCount ∧ (m.node i).parent = some p := by
    constructor
    · intro hi
      have hlt : i < m.nodeCount := h.nodeCount ▸ lt_of_mem_children hi
      exact ⟨hlt, (h.parent hlt).trans (entry_of_mem hi)⟩
    · rintro ⟨hlt, hp⟩
      exact mem_of_entry (h.nodeCount ▸ hlt) ((h.parent hlt).symm.trans hp)
  rw [hnodup.count]
  exact if_congr hmem (rfl) (rfl)

theorem Holds.exists_parent (h : Holds m es) (hpos : 0 < i) (hi : i < m.nodeCount) :
    ∃ p, p < i ∧ (m.node i).parent = some p := by
  have hlt : i < es.length := h.nodeCount ▸ hi
  rw [h.parent hi]
  cases hp : (entry es i).parent with
  | none =>
    have hzero := h.built.root i hlt hp
    omega
  | some p => exact ⟨p, h.built.parent i p hlt hp, rfl⟩

theorem Holds.rooted (h : Holds m es) (hi : i < m.nodeCount) :
    Relation.ReflTransGen (fun i p => (m.node i).parent = some p) i 0 := by
  induction i using Nat.strong_induction_on with
  | _ i ih =>
    rcases Nat.eq_zero_or_pos i with rfl | hpos
    · exact .refl
    · obtain ⟨p, hlt, hp⟩ := h.exists_parent hpos hi
      exact .head hp (ih p hlt (hlt.trans hi))

theorem Holds.root (h : Holds m es) (hpos : 0 < m.nodeCount) :
    (m.node 0).parent = none ∧ (m.node 0).nextSibling = none := by
  have hlt : 0 < es.length := h.nodeCount ▸ hpos
  have hparent : (entry es 0).parent = none := by
    cases hp : (entry es 0).parent with
    | none => rfl
    | some p => exact absurd (h.built.parent 0 p hlt hp) (Nat.not_lt_zero p)
  refine ⟨(h.parent hpos).trans hparent, ?_⟩
  rw [h.node hlt]
  show Entries.nextSibling es 0 = none
  rw [Entries.nextSibling, hparent]

theorem Holds.orderedTree (h : Holds m es) : m.OrderedTree where
  root := h.root
  parent := fun _ => h.exists_parent
  rooted := fun _ => h.rooted
  chain := by
    intro p hp
    have hnode := h.node (h.nodeCount ▸ hp)
    refine ⟨Entries.children es p, ?_, ?_, h.count_children p⟩
    · rw [hnode]
      exact (chain_children (List.nil_append _).symm).congr fun i hi => h.nextSibling hi
    · rw [hnode]
      rfl
  last := by
    intro p i hp hlast
    rw [h.node (h.nodeCount ▸ hp)] at hlast
    obtain ⟨a, ha⟩ := List.getLast?_eq_some_iff.mp hlast
    have hi : i ∈ Entries.children es p := by simp [ha]
    rw [h.nextSibling hi, nextSibling_ofEntries ha, List.head?_nil]

theorem bytes_take_succ (hi : i < es.length) : Entries.bytes (es.take (i + 1)) =
    Entries.bytes (es.take i) + ((entry es i).key.length + (entry es i).value.length) := by
  rw [List.take_succ_eq_append_getElem hi, bytes_append, bytes_singleton,
    show entry es i = es[i] by simp [entry, hi]]

theorem bytes_take_le {j : ℕ} (h : i ≤ j) :
    Entries.bytes (es.take i) ≤ Entries.bytes (es.take j) := by
  obtain ⟨n, rfl⟩ := Nat.exists_eq_add_of_le h
  rw [List.take_add, bytes_append]
  exact Nat.le_add_right _ _

/-- The ranges of the entry `i`, the one behind the other. -/
def entryRanges (es : Entries) (i : ℕ) : List (ℕ × ℕ) :=
  [(Entries.bytes (es.take i), (entry es i).key.length),
    (Entries.bytes (es.take i) + (entry es i).key.length, (entry es i).value.length)]

theorem mem_entryRanges {r : ℕ × ℕ} (hi : i < es.length) (hr : r ∈ entryRanges es i) :
    Entries.bytes (es.take i) ≤ r.1 ∧ r.1 + r.2 ≤ Entries.bytes (es.take (i + 1)) := by
  rw [bytes_take_succ hi]
  simp only [entryRanges, List.mem_cons, List.not_mem_nil, or_false] at hr
  rcases hr with rfl | rfl
  · dsimp only
    omega
  · dsimp only
    omega

theorem Holds.ranges (h : Holds m es) :
    m.ranges = (List.range es.length).flatMap (entryRanges es) := by
  rw [Memory.ranges, h.nodeCount]
  refine List.flatMap_congr fun i hi => ?_
  rw [h.node (List.mem_range.mp hi)]
  rfl

theorem Holds.disjointRanges (h : Holds m es) : m.DisjointRanges where
  used := by
    intro r hr
    rw [h.ranges] at hr
    obtain ⟨i, hi, hr⟩ := List.mem_flatMap.mp hr
    have hend := (mem_entryRanges (List.mem_range.mp hi) hr).2
    have hle := @bytes_take_le es _ _ (List.mem_range.mp hi)
    rw [List.take_length] at hle
    rw [h.used]
    exact hend.trans hle
  disjoint := by
    rw [h.ranges]
    refine List.pairwise_flatMap.mpr ⟨fun i hi => ?_, ?_⟩
    · refine List.pairwise_pair.mpr (.inl (Nat.le_refl _))
    · refine List.pairwise_lt_range.imp_of_mem fun {i j} hi hj hij r hr s hs => .inl ?_
      have hend := (mem_entryRanges (List.mem_range.mp hi) hr).2
      have hstart := (mem_entryRanges (List.mem_range.mp hj) hs).1
      exact (hend.trans (bytes_take_le hij)).trans hstart

/-- In every reachable state the links are one tree, the ranges are in use and do not overlap, and a
call that is not ok changes neither the nodes nor the counters. -/
theorem reachable_structure (h : Reachable m) : m.OrderedTree ∧ m.DisjointRanges ∧
    ∀ c, (m.create c).1 ≠ .ok → Unchanged m (m.create c).2.2 := by
  obtain ⟨es, hes⟩ := h.holds
  exact ⟨hes.orderedTree, hes.disjointRanges, create_atomic m⟩

/-- An array with `null` in it, in the slots of a document that was parsed and cleared. -/
def recycled : Option (Memory smallCapacity) := do
  let m ← (initial smallCapacity).step (.parse [openBracket, digitOne, closeBracket])
  let m ← m.step .clear
  let m ← m.step (.create (.call (.makeArray none [])))
  m.step (.create (.call (.setNull (some 0) [])))

theorem reachable_structure_recycled : ∃ m, recycled = some m ∧ m.nodeCount = 2 ∧
    (m.OrderedTree ∧ m.DisjointRanges ∧ ∀ c, (m.create c).1 ≠ .ok → Unchanged m (m.create c).2.2) :=
  ⟨_, rfl, rfl, reachable_structure (.step (.step (.step (.step .initial
    (.parse [openBracket, digitOne, closeBracket]) rfl) .clear rfl)
      (.create (.call (.makeArray none []))) rfl) (.create (.call (.setNull (some 0) []))) rfl)⟩

end Memory

end Castle.Serialization.Json

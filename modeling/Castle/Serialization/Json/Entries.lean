import Mathlib.Data.List.Range
import Castle.Serialization.Json.Document

/-!
# Documents by the nodes added to them

A document is determined by the list of the nodes that were added, each with its parent, key and
value: all links and ranges follow from that list.
-/

namespace Castle.Serialization.Json

/-- A node as it was added. -/
structure Entry where
  kind : Kind
  parent : Option ℕ
  key : Bytes
  value : Bytes

namespace Entry

/-- The bytes that a node takes. -/
def bytes (e : Entry) : ℕ := e.key.length + e.value.length

end Entry

abbrev Entries := List Entry

namespace Entries

/-- The indices of the children of `p`, when the first entry has index `base`. -/
def childrenFrom (base : ℕ) : Entries → ℕ → List ℕ
  | [], _ => []
  | e :: es, p =>
    if e.parent = some p then base :: childrenFrom (base + 1) es p else childrenFrom (base + 1) es p

def children (es : Entries) (p : ℕ) : List ℕ := childrenFrom 0 es p

def bytes (es : Entries) : ℕ := (es.map Entry.bytes).sum

def entry (es : Entries) (i : ℕ) : Entry := es[i]?.getD ⟨.null, none, [], []⟩

/-- The next sibling of a node is the next child of its parent. -/
def nextSibling (es : Entries) (i : ℕ) : Option ℕ :=
  match (entry es i).parent with
  | none => none
  | some p => (children es p).find? fun j => decide (i < j)

def nodeAt (es : Entries) (i : ℕ) : Node where
  kind := (entry es i).kind
  parent := (entry es i).parent
  firstChild := (children es i).head?
  lastChild := (children es i).getLast?
  nextSibling := nextSibling es i
  keyOffset := bytes (es.take i)
  keySize := (entry es i).key.length
  valueOffset := bytes (es.take i) + (entry es i).key.length
  valueSize := (entry es i).value.length

def storage (es : Entries) : Bytes := es.flatMap fun e => e.key ++ e.value

theorem childrenFrom_append (base : ℕ) (es es' : Entries) (p : ℕ) : childrenFrom base
    (es ++ es') p = childrenFrom base es p ++ childrenFrom (base + es.length) es' p := by
  induction es generalizing base with
  | nil => rfl
  | cons e es ih =>
    rw [List.cons_append, childrenFrom, childrenFrom, ih, List.length_cons,
      show base + (es.length + 1) = base + 1 + es.length by omega]
    split <;> rfl

variable {es : Entries}

theorem childrenFrom_eq_nil {base : ℕ} {p : ℕ} (h : ∀ e ∈ es, e.parent ≠ some p) :
    childrenFrom base es p = [] := by
  induction es generalizing base with
  | nil => rfl
  | cons e es ih =>
    rw [childrenFrom, if_neg (h e (by simp)), ih fun e he => h e (by simp [he])]

theorem mem_childrenFrom {base : ℕ} {p i : ℕ} :
    i ∈ childrenFrom base es p ↔ base ≤ i ∧ ∃ e, es[i - base]? = some e ∧ e.parent = some p := by
  induction es generalizing base with
  | nil => simp [childrenFrom]
  | cons e es ih =>
    have hrest : i ∈ childrenFrom (base + 1) es p ↔
        base < i ∧ ∃ e', (e :: es)[i - base]? = some e' ∧ e'.parent = some p := by
      rw [ih]
      constructor
      · rintro ⟨hle, e', hget, hp⟩
        refine ⟨by omega, e', ?_, hp⟩
        rw [show i - base = i - (base + 1) + 1 by omega, List.getElem?_cons_succ, hget]
      · rintro ⟨hlt, e', hget, hp⟩
        refine ⟨by omega, e', ?_, hp⟩
        rwa [show i - base = i - (base + 1) + 1 by omega, List.getElem?_cons_succ] at hget
    have hfirst : i = base ↔ base ≤ i ∧ ¬ base < i := by omega
    rw [childrenFrom]
    by_cases hb : i = base
    · subst hb
      split
      next hp => simp [hp]
      next hp =>
        rw [hrest]
        simp [hp]
    · have hlt : base ≤ i ↔ base < i := by omega
      split
      next hp => rw [List.mem_cons, hrest, hlt, or_iff_right hb]
      next hp => rw [hrest, hlt]

theorem mem_children {p i : ℕ} : i ∈ children es p ↔ ∃ e, es[i]? = some e ∧ e.parent = some p := by
  simp [children, mem_childrenFrom]

theorem lt_of_mem_children {p i : ℕ} (h : i ∈ children es p) : i < es.length := by
  obtain ⟨e, he, -⟩ := mem_children.mp h
  exact (List.getElem?_eq_some_iff.mp he).1

theorem pairwise_childrenFrom (base : ℕ) (es : Entries) (p : ℕ) :
    (childrenFrom base es p).Pairwise (· < ·) := by
  induction es generalizing base with
  | nil => exact List.Pairwise.nil
  | cons e es ih =>
    rw [childrenFrom]
    split
    · refine List.pairwise_cons.mpr ⟨fun i hi => ?_, ih (base + 1)⟩
      have hle := (mem_childrenFrom.mp hi).1
      omega
    · exact ih (base + 1)

theorem pairwise_children (es : Entries) (p : ℕ) : (children es p).Pairwise (· < ·) :=
  pairwise_childrenFrom 0 es p

theorem children_concat (es : Entries) (e : Entry) (p : ℕ) : children (es ++ [e]) p =
    if e.parent = some p then children es p ++ [es.length] else children es p := by
  rw [children, childrenFrom_append, Nat.zero_add]
  simp only [childrenFrom]
  split
  · rfl
  · rw [List.append_nil]
    rfl

@[simp] theorem entry_concat_length (es : Entries) (e : Entry) : entry (es ++ [e]) es.length = e := by
  simp [entry]

theorem entry_append {i : ℕ} (es' : Entries) (h : i < es.length) :
    entry (es ++ es') i = entry es i := by
  simp [entry, List.getElem?_append_left h]

theorem bytes_append (es es' : Entries) : bytes (es ++ es') = bytes es + bytes es' := by
  simp [bytes]

@[simp] theorem bytes_singleton (e : Entry) : bytes [e] = e.key.length + e.value.length := by
  simp [bytes, Entry.bytes]

theorem length_storage (es : Entries) : (storage es).length = bytes es := by
  induction es with
  | nil => rfl
  | cons e es ih =>
    show ((e.key ++ e.value) ++ storage es).length = _
    rw [List.length_append, List.length_append, ih]
    simp [bytes, Entry.bytes]

theorem storage_append (es es' : Entries) : storage (es ++ es') = storage es ++ storage es' :=
  List.flatMap_append

end Entries

namespace Document

open Entries

variable {cap : Capacity}

/-- The document to which these nodes were added. -/
def ofEntries (es : Entries) : Document cap where
  nodes := (List.range es.length).map (nodeAt es)
  storage := Entries.storage es

variable {es : Entries}

@[simp] theorem length_nodes_ofEntries : (ofEntries es : Document cap).nodes.length = es.length := by
  simp [ofEntries]

theorem node_ofEntries {i : ℕ} (h : i < es.length) :
    (ofEntries es : Document cap).node i = nodeAt es i := by
  simp [node, ofEntries, h]

theorem kind_ofEntries {i : ℕ} (h : i < es.length) :
    (ofEntries es : Document cap).kind (some i) = (entry es i).kind := by
  simp [kind, node_ofEntries h, h, nodeAt]

theorem view_eq (d : Document cap) (offset length : ℕ) :
    d.view offset length = (d.storage.drop offset).take length := by
  unfold view
  split
  next h => rw [h, List.take_zero]
  · rfl

theorem storage_split {i : ℕ} (h : i < es.length) : Entries.storage es = Entries.storage (es.take i)
    ++ ((entry es i).key ++ (entry es i).value ++ Entries.storage (es.drop (i + 1))) := by
  have hsplit : es = es.take i ++ ([es[i]] ++ es.drop (i + 1)) := by
    rw [List.singleton_append, ← List.drop_eq_getElem_cons h, List.take_append_drop]
  have hentry : entry es i = es[i] := by simp [entry, h]
  conv_lhs => rw [hsplit, storage_append, storage_append]
  rw [hentry]
  simp [Entries.storage]

theorem key_ofEntries {i : ℕ} (h : i < es.length) :
    (ofEntries es : Document cap).key i = (entry es i).key := by
  rw [key, view_eq, node_ofEntries h]
  show ((Entries.storage es).drop (bytes (es.take i))).take (entry es i).key.length = _
  rw [storage_split h, ← length_storage, List.drop_left, List.append_assoc, List.take_left]

theorem scalar_ofEntries {i : ℕ} (h : i < es.length) :
    (ofEntries es : Document cap).scalar i = (entry es i).value := by
  rw [scalar, view_eq, node_ofEntries h]
  show ((Entries.storage es).drop (bytes (es.take i) + (entry es i).key.length)).take
    (entry es i).value.length = _
  rw [storage_split h, ← length_storage, ← List.drop_drop, List.drop_left, List.append_assoc,
    List.drop_left, List.take_left]

/-- A node may be added under this parent with this key. -/
structure Placed (es : Entries) (handle : Option ℕ) (key : Bytes) : Prop where
  root : handle = none → es = []
  parent : ∀ p, handle = some p → p < es.length
  member : ∀ p, handle = some p → (entry es p).kind = .object → key ≠ []
  element : ∀ p, handle = some p → (entry es p).kind = .array → key = []

/-- When `add_node` succeeds. -/
structure Admits (cap : Capacity) (es : Entries) (e : Entry) : Prop
    extends Placed es e.parent e.key where
  room : es.length < cap.maxNodes
  bytes : bytes es + e.bytes ≤ cap.maxStringBytes

/-- What holds of the nodes that were added: they fit, only the first has no parent, and
parents come before their children. -/
structure Built (cap : Capacity) (es : Entries) : Prop where
  nodes : es.length ≤ cap.maxNodes
  bytes : Entries.bytes es ≤ cap.maxStringBytes
  root : ∀ i, i < es.length → (entry es i).parent = none → i = 0
  parent : ∀ i p, i < es.length → (entry es i).parent = some p → p < i

theorem Built.nil : Built cap [] where
  nodes := Nat.zero_le _
  bytes := Nat.zero_le _
  root := by simp
  parent := by simp

variable {e : Entry}

theorem Built.concat (h : Built cap es) (he : Admits cap es e) :
    Built cap (es ++ [e]) where
  nodes := by
    rw [List.length_append, List.length_singleton]
    exact he.room
  bytes := by
    rw [bytes_append, bytes_singleton]
    exact he.bytes
  root := by
    intro i hi hnone
    rw [List.length_append, List.length_singleton] at hi
    by_cases hlt : i < es.length
    · rw [entry_append _ hlt] at hnone
      exact h.root i hlt hnone
    · obtain rfl : i = es.length := by omega
      rw [entry_concat_length] at hnone
      rw [he.root hnone, List.length_nil]
  parent := by
    intro i p hi hp
    rw [List.length_append, List.length_singleton] at hi
    by_cases hlt : i < es.length
    · rw [entry_append _ hlt] at hp
      exact h.parent i p hlt hp
    · obtain rfl : i = es.length := by omega
      rw [entry_concat_length] at hp
      exact he.parent p hp

theorem Built.lt_child (h : Built cap es) {p i : ℕ} (hi : i ∈ Entries.children es p) : p < i := by
  obtain ⟨e, he, hp⟩ := mem_children.mp hi
  obtain ⟨hlt, hget⟩ := List.getElem?_eq_some_iff.mp he
  refine h.parent i p hlt ?_
  rw [entry, he]
  exact hp

theorem find?_lt_of_sorted {a b : List ℕ} {i : ℕ} (h : (a ++ i :: b).Pairwise (· < ·)) :
    ((a ++ i :: b).find? fun j => decide (i < j)) = b.head? := by
  obtain ⟨-, hb, hab⟩ := List.pairwise_append.mp h
  have ha : (a.find? fun j => decide (i < j)) = none := by
    refine List.find?_eq_none.mpr fun j hj => ?_
    have hlt := hab j hj i (by simp)
    simp only [decide_eq_true_eq]
    omega
  rw [List.find?_append, ha, Option.none_or, List.find?_cons_of_neg (by simp)]
  cases b with
  | nil => rfl
  | cons j b =>
    have hlt := (List.pairwise_cons.mp hb).1 j (by simp)
    rw [List.find?_cons_of_pos (by simpa using hlt), List.head?_cons]

theorem nextSibling_concat {p i : ℕ} (he : e.parent = some p) (hi : i < es.length) :
    Entries.nextSibling (es ++ [e]) i = if (Entries.children es p).getLast? =
    some i then some es.length else Entries.nextSibling es i := by
  unfold Entries.nextSibling
  rw [entry_append _ hi]
  have hparent (q : ℕ) : i ∈ Entries.children es q ↔ (entry es i).parent = some q := by
    rw [mem_children]
    simp [entry, hi]
  cases hq : (entry es i).parent with
  | none =>
    rw [if_neg]
    intro hlast
    rw [(hparent p).mp (List.mem_of_getLast? hlast)] at hq
    cases hq
  | some q =>
    dsimp only
    obtain ⟨a, b, hab⟩ := List.append_of_mem ((hparent q).mpr hq)
    have hsorted := pairwise_children es q
    rw [hab] at hsorted
    rw [children_concat]
    by_cases hpq : q = p
    · subst hpq
      rw [if_pos he, List.find?_append, hab, find?_lt_of_sorted hsorted]
      cases b with
      | nil => simp [hi]
      | cons j b =>
        rw [if_neg]
        · rfl
        · intro hlast
          rw [List.getLast?_append_cons, List.getLast?_cons_cons] at hlast
          have hlt := (List.pairwise_cons.mp (List.pairwise_append.mp hsorted).2.1).1 i
            (List.mem_of_getLast? hlast)
          omega
    · rw [if_neg fun hep => hpq (Option.some.inj (hep.symm.trans he)), if_neg]
      intro hlast
      rw [(hparent p).mp (List.mem_of_getLast? hlast)] at hq
      exact hpq (Option.some.inj hq).symm

/-- The node as `add_node` stores it, before it is linked. -/
def candidate (es : Entries) (e : Entry) : Node where
  kind := e.kind
  parent := e.parent
  keyOffset := Entries.bytes es
  keySize := e.key.length
  valueOffset := Entries.bytes es + e.key.length
  valueSize := e.value.length

theorem nodeAt_concat_length (h : Built cap es) (he : Admits cap es e) :
    nodeAt (es ++ [e]) es.length = candidate es e := by
  have hchildren : Entries.children (es ++ [e]) es.length = [] := by
    refine List.eq_nil_iff_forall_not_mem.mpr fun i hi => ?_
    have hlt := lt_of_mem_children hi
    have hgt := (h.concat he).lt_child hi
    rw [List.length_append, List.length_singleton] at hlt
    omega
  have hnext : Entries.nextSibling (es ++ [e]) es.length = none := by
    unfold Entries.nextSibling
    split
    · rfl
    next p _ =>
      refine List.find?_eq_none.mpr fun i hi => ?_
      have hlt := lt_of_mem_children hi
      rw [List.length_append, List.length_singleton] at hlt
      simp only [decide_eq_true_eq]
      omega
  simp [nodeAt, candidate, hchildren, hnext]

theorem nodeAt_concat {p i : ℕ} (hp : e.parent = some p) (hi : i < es.length) :
    nodeAt (es ++ [e]) i =
      { nodeAt es i with
        firstChild := if p = i then (Entries.children es i ++ [es.length]).head? else (Entries.children es i).head?
        lastChild := if p = i then some es.length else (Entries.children es i).getLast?
        nextSibling :=
          if (Entries.children es p).getLast? = some i then some es.length
          else Entries.nextSibling es i } := by
  unfold nodeAt
  rw [entry_append _ hi, nextSibling_concat hp hi, children_concat, hp,
    List.take_append_of_le_length (by omega)]
  simp only [Option.some.injEq]
  split <;> simp

theorem getElem?_linkChild {nodes : List Node} {p out i : ℕ} {n : Node} (hn : nodes[p]? = some n)
    (hempty : n.lastChild = none ↔ n.firstChild = none) :
    (linkChild nodes p out)[i]? = nodes[i]?.map fun m =>
      { m with
        firstChild := if p = i then n.firstChild.or (some out) else m.firstChild
        lastChild := if p = i then some out else m.lastChild
        nextSibling := if n.lastChild = some i then some out else m.nextSibling } := by
  unfold linkChild
  rw [hn, Option.getD_some]
  cases hfirst : n.firstChild with
  | none =>
    rw [hempty.mpr hfirst]
    simp only [List.getElem?_modify]
    by_cases hpi : p = i
    · subst hpi
      simp [hn]
    · simp [hpi]
  | some first =>
    cases hlast : n.lastChild with
    | none =>
      rw [hempty.mp hlast] at hfirst
      cases hfirst
    | some last =>
      simp only [List.getElem?_modify, Option.some.injEq]
      by_cases hpi : p = i
      · subst hpi
        by_cases hli : last = p <;> simp [hn, hli, hfirst]
      · by_cases hli : last = i <;> cases hm : nodes[i]? <;> simp [hpi, hli]

theorem linkChild_eq {p : ℕ} (h : Built cap es) (he : Admits cap es e) (hp : e.parent = some p) :
    linkChild ((List.range es.length).map (nodeAt es) ++ [candidate es e]) p es.length =
      (List.range (es.length + 1)).map (nodeAt (es ++ [e])) := by
  have hlt := he.parent p hp
  have hget (i : ℕ) (hi : i < es.length) :
      ((List.range es.length).map (nodeAt es) ++ [candidate es e])[i]? = some (nodeAt es i) := by
    rw [List.getElem?_append_left (by simpa using hi)]
    simp [hi]
  apply List.ext_getElem?
  intro i
  rw [getElem?_linkChild (hget p hlt) (by simp [nodeAt])]
  by_cases hi : i < es.length
  · rw [hget i hi, List.getElem?_map, List.getElem?_range (by omega), Option.map_some,
      Option.map_some, nodeAt_concat hp hi]
    congr 2
    split
    next hpi =>
      subst hpi
      simp [nodeAt, List.head?_append]
    · rfl
  · by_cases hi' : i = es.length
    · subst hi'
      have hnew : ((List.range es.length).map (nodeAt es) ++ [candidate es e])[es.length]? =
          some (candidate es e) := by simp
      have hne : ¬ (nodeAt es p).lastChild = some es.length := by
        intro hlast
        have hlt' := lt_of_mem_children (List.mem_of_getLast? hlast)
        omega
      rw [hnew, List.getElem?_map, List.getElem?_range (by omega), Option.map_some,
        Option.map_some, nodeAt_concat_length h he, if_neg (by omega), if_neg (by omega), if_neg hne]
    · rw [List.getElem?_eq_none (by simp; omega), List.getElem?_eq_none (by simp; omega)]
      rfl

theorem nodes_concat (h : Built cap es) (he : Admits cap es e) :
    (match e.parent with
      | none => (ofEntries es : Document cap).nodes ++ [candidate es e]
      | some p => linkChild ((ofEntries es : Document cap).nodes ++ [candidate es e]) p es.length) =
        (ofEntries (es ++ [e]) : Document cap).nodes := by
  split
  next hp =>
    obtain rfl := he.root hp
    simp [ofEntries, ← nodeAt_concat_length h he, List.range_succ]
  next p hp =>
    dsimp only [ofEntries]
    rw [linkChild_eq h he hp, List.length_append, List.length_singleton]

/-- The entry that `add_node` makes of its arguments. -/
def entryOf (kind : Kind) (parent : Option ℕ) (keyName value : Bytes) : Entry :=
  ⟨kind, parent, keyName, if kind.isContainer then [] else value⟩

theorem addNode_admitted {kind : Kind} {parent : Option ℕ} {keyName value : Bytes}
    (h : Built cap es) (he : Admits cap es (entryOf kind parent keyName value)) :
    (ofEntries es : Document cap).addNode kind parent keyName value =
      (.ok, some es.length, ofEntries (es ++ [entryOf kind parent keyName value])) := by
  have hbytes := he.bytes
  have hroom := he.room
  simp only [Entry.bytes, entryOf] at hbytes
  have hfull : ¬ (ofEntries es : Document cap).nodes.length = cap.maxNodes := by
    rw [length_nodes_ofEntries]
    omega
  have hkey : ¬ keyName.length > cap.maxStringBytes - (ofEntries es : Document cap).storage.length := by
    show ¬ keyName.length > cap.maxStringBytes - (Entries.storage es).length
    rw [length_storage]
    omega
  have hvalue : ¬ (if kind.isContainer then [] else value).length > cap.maxStringBytes -
      ((ofEntries es : Document cap).storage ++ keyName).length := by
    show ¬ _ > cap.maxStringBytes - (Entries.storage es ++ keyName).length
    rw [List.length_append, length_storage]
    omega
  have hstorage : (ofEntries es : Document cap).storage ++ keyName ++
      (if kind.isContainer then [] else value) =
        Entries.storage (es ++ [entryOf kind parent keyName value]) := by
    rw [Entries.storage_append, List.append_assoc]
    simp [Entries.storage, entryOf, ofEntries]
  have hvalid : ¬ (parent ≠ none && !(ofEntries es : Document cap).valid parent) = true := by
    cases parent with
    | none => simp
    | some p => simpa [valid] using he.parent p rfl
  have hroot : ¬ (parent = none && (ofEntries es : Document cap).nodes.length ≠ 0) = true := by
    cases parent with
    | none =>
      obtain rfl := he.root rfl
      simp
    | some p => simp
  have hmember : ¬ (parent ≠ none && (ofEntries es : Document cap).kind parent = .object &&
      keyName.isEmpty) = true := by
    cases parent with
    | none => simp
    | some p =>
      rw [kind_ofEntries (he.parent p rfl)]
      simpa [entryOf] using he.member p rfl
  have helement : ¬ (parent ≠ none && (ofEntries es : Document cap).kind parent = .array &&
      !keyName.isEmpty) = true := by
    cases parent with
    | none => simp
    | some p =>
      rw [kind_ofEntries (he.parent p rfl)]
      simpa [entryOf] using he.element p rfl
  unfold addNode
  rw [if_neg hvalid]
  dsimp only
  rw [if_neg hroot, if_neg hmember, if_neg helement, if_neg hfull, store, if_neg hkey]
  dsimp only
  rw [store, if_neg hvalue]
  dsimp only
  have hlength : (Entries.storage es ++ keyName).length = Entries.bytes es + keyName.length := by
    rw [List.length_append, length_storage]
  have hnodes := nodes_concat h he
  rw [hstorage, length_nodes_ofEntries]
  show (Status.ok, some es.length, (⟨_, _⟩ : Document cap)) = _
  rw [show (ofEntries es : Document cap).storage = Entries.storage es from rfl, hlength,
    length_storage]
  congr 2
  exact congrArg (Document.mk · _) hnodes

theorem store_eq_some {d d' : Document cap} {value : Bytes} {offset length : ℕ}
    (h : d.store value = some (offset, length, d')) :
    value.length ≤ cap.maxStringBytes - d.storage.length ∧ d'.storage = d.storage ++ value := by
  unfold store at h
  split at h
  · cases h
  next hroom =>
    cases h
    exact ⟨by omega, rfl⟩

theorem addNode_refused {kind : Kind} {parent : Option ℕ} {keyName value : Bytes}
    (h : Built cap es) (he : ¬ Admits cap es (entryOf kind parent keyName value)) : ∃ s, s ≠ Status.ok ∧
      (ofEntries es : Document cap).addNode kind parent keyName value = (s, none, ofEntries es) := by
  unfold addNode
  split
  · exact ⟨_, by decide, rfl⟩
  next hvalid =>
    dsimp only
    split
    · exact ⟨_, by decide, rfl⟩
    next hroot =>
      split
      · exact ⟨_, by decide, rfl⟩
      next hmember =>
        split
        · exact ⟨_, by decide, rfl⟩
        next helement =>
          split
          · exact ⟨_, by decide, rfl⟩
          next hfull =>
            split
            · exact ⟨_, by decide, rfl⟩
            next keyOffset keySize d₁ hkey =>
              split
              · exact ⟨_, by decide, rfl⟩
              next valueOffset valueSize d₂ hvalue =>
                obtain ⟨hkeyRoom, hstorage⟩ := store_eq_some hkey
                obtain ⟨hvalueRoom, -⟩ := store_eq_some hvalue
                rw [hstorage] at hvalueRoom
                simp only [List.length_append, show (ofEntries es : Document cap).storage =
                  Entries.storage es from rfl, length_storage] at hkeyRoom hvalueRoom
                rw [length_nodes_ofEntries] at hfull
                have hbytes := h.bytes
                have hnodes := h.nodes
                have hparent (p : ℕ) (hp : parent = some p) : p < es.length := by
                  subst hp
                  simpa [valid] using hvalid
                refine absurd ⟨⟨?_, hparent, ?_, ?_⟩, by omega, ?_⟩ he
                · rintro rfl
                  simpa using hroot
                · rintro p rfl hkind
                  rw [kind_ofEntries (hparent p rfl), hkind] at hmember
                  simpa [entryOf] using hmember
                · rintro p rfl hkind
                  rw [kind_ofEntries (hparent p rfl), hkind] at helement
                  simpa [entryOf] using helement
                · simp only [Entry.bytes, entryOf]
                  omega

end Document
end Castle.Serialization.Json

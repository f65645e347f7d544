import Castle.Serialization.Json.Memory

/-!
# What is in use refines the document

`Memory.document` reads the slots and the bytes that are in use.
-/

namespace Castle.Serialization.Json

open Document (linkChild)

namespace Arena

variable {size : ℕ} {a b : Arena size} {value : Bytes}

def bytes (a : Arena size) : Bytes := a.storage.cells.take a.used

@[simp] theorem length_bytes (a : Arena size) : a.bytes.length = a.used := by
  rw [bytes, List.length_take, a.storage.size_eq, Nat.min_eq_left a.used_le]

theorem take_set_succ {α : Type} {l : List α} {i : ℕ} (a : α) (h : i < l.length) :
    (l.set i a).take (i + 1) = l.take i ++ [a] := by
  rw [List.take_succ_eq_append_getElem (by rwa [List.length_set]), List.getElem_set_self,
    List.take_set_of_le (Nat.le_refl i)]

theorem take_copyTo {storage : Bytes} {i n : ℕ} (hn : n ≤ i) :
    (copyTo storage i value).take n = storage.take n := by
  induction value generalizing storage i with
  | nil => rfl
  | cons c value ih => rw [copyTo, ih (Nat.le_succ_of_le hn), List.take_set_of_le hn]

theorem take_copyTo_add {storage : Bytes} {i : ℕ} (h : i + value.length ≤ storage.length) :
    (copyTo storage i value).take (i + value.length) = storage.take i ++ value := by
  induction value generalizing storage i with
  | nil => rw [copyTo, List.length_nil, Nat.add_zero, List.append_nil]
  | cons c value ih =>
    rw [List.length_cons] at h ⊢
    rw [copyTo, show i + (value.length + 1) = i + 1 + value.length by omega,
      ih (by rw [List.length_set]; omega), take_set_succ c (by omega), List.append_assoc]
    rfl

theorem store_cases (a : Arena size) (value : Bytes) :
    (value.length > size - a.used ∧ a.store value = none) ∨ ∃ b, ¬ value.length > size -
    a.used ∧ a.store value = some (a.used, value.length, b) ∧ b.bytes = a.bytes ++
    value ∧ (b.release value.length).used = a.used ∧ (b.release value.length).bytes = a.bytes := by
  unfold store
  by_cases h : value.length > size - a.used
  · exact .inl ⟨h, dif_pos h⟩
  · have hle := a.used_le
    refine .inr ⟨_, h, dif_neg h, ?_, ?_, ?_⟩
    · refine take_copyTo_add ?_
      rw [a.storage.size_eq]
      omega
    · exact Nat.add_sub_cancel _ _
    · show (copyTo _ _ _).take (a.used + value.length - value.length) = _
      rw [Nat.add_sub_cancel]
      exact take_copyTo (Nat.le_refl _)

end Arena

namespace Memory

variable {cap : Capacity} {m : Memory cap}

/-- The nodes and the bytes in use. -/
def document (m : Memory cap) : Document cap where
  nodes := m.nodes.cells.take m.nodeCount
  storage := m.arena.bytes

@[simp] theorem length_nodes_document : m.document.nodes.length = m.nodeCount := by
  rw [document, List.length_take, m.nodes.size_eq, Nat.min_eq_left m.count_le]

theorem getElem?_nodes_document {i : ℕ} (h : i < m.nodeCount) :
    m.document.nodes[i]? = m.nodes.cells[i]? := by
  rw [document, List.getElem?_take_of_lt h]

theorem node_document {i : ℕ} (h : i < m.nodeCount) : m.document.node i = m.node i := by
  rw [Document.node, getElem?_nodes_document h, node]

@[simp] theorem valid_document (id : Option ℕ) : m.document.valid id = m.valid id := by
  cases id with
  | none => rfl
  | some i => rw [Document.valid, valid, length_nodes_document]

@[simp] theorem kind_document (id : Option ℕ) : m.document.kind id = m.kind id := by
  cases id with
  | none => rfl
  | some i =>
    unfold Document.kind kind
    dsimp only
    rw [length_nodes_document]
    split
    next h => rw [node_document h]
    · rfl

variable {nodes : List Node}

theorem take_linkChild {p out n : ℕ} (hp : p < n) :
    (linkChild nodes p out).take n = linkChild (nodes.take n) p out := by
  unfold linkChild
  dsimp only
  rw [List.take_modify, List.getElem?_take_of_lt hp]
  split
  · rw [List.take_modify]
  · split
    · rfl
    · rw [List.take_modify]

theorem take_linked_some {out p : ℕ} {candidate : Node} (hout : out < nodes.length)
    (hparent : candidate.parent = some p) (hp : p < out) : (linked nodes out candidate).take
    (out + 1) = linkChild (nodes.take out ++ [candidate]) p out := by
  rw [linked, hparent]
  dsimp only
  rw [take_linkChild (Nat.lt_succ_of_lt hp), Arena.take_set_succ candidate hout]

theorem store_full {a : Arena cap.maxStringBytes} {value : Bytes}
    (h : value.length > cap.maxStringBytes - a.used) :
    (⟨nodes, a.bytes⟩ : Document cap).store value = none := by
  rw [Document.store, if_pos (by rwa [Arena.length_bytes])]

theorem store_fits {a b : Arena cap.maxStringBytes} {value : Bytes}
    (h : ¬ value.length > cap.maxStringBytes - a.used) (hbytes : b.bytes = a.bytes ++ value) :
    (⟨nodes, a.bytes⟩ : Document cap).store value =
      some (a.used, value.length, ⟨nodes, b.bytes⟩) := by
  rw [Document.store, if_neg (by rwa [Arena.length_bytes]), Arena.length_bytes, hbytes]

def added (result : Status × Option ℕ × Memory cap) : Status × Option ℕ × Document cap :=
  (result.1, result.2.1, result.2.2.document)

theorem document_addNode (m : Memory cap) (kind : Kind) (parent : Option ℕ) (keyName value : Bytes) :
    m.document.addNode kind parent keyName value = added (m.addNode kind parent keyName value) := by
  unfold Document.addNode addNode
  simp only [valid_document, kind_document, length_nodes_document]
  split
  · rfl
  next hvalid =>
    split
    · rfl
    · split
      · rfl
      · split
        · rfl
        · split
          · rfl
          next hfull =>
            have hout : m.nodeCount < m.nodes.cells.length := by
              rw [m.nodes.size_eq]
              exact Nat.lt_of_le_of_ne m.count_le hfull
            obtain ⟨hkey, hnone⟩ | ⟨b, hkey, hsome, hbytes, -, hreleased⟩ :=
              m.arena.store_cases keyName
            · rw [hnone, document, store_full hkey]
              rfl
            · rw [hsome, document, store_fits hkey hbytes]
              dsimp only
              generalize (if kind.isContainer = true then [] else value) = value
              obtain ⟨hvalue, hnone⟩ | ⟨b', hvalue, hsome', hbytes', -, -⟩ := b.store_cases value
              · rw [hnone, store_full hvalue]
                exact congrArg (fun storage => (Status.full, none, Document.mk _ storage))
                  hreleased.symm
              · rw [hsome', store_fits hvalue hbytes']
                dsimp only
                rw [show (m.nodes.cells.take m.nodeCount).length = m.nodeCount from
                  length_nodes_document]
                cases parent with
                | none =>
                  exact congrArg (fun nodes => (Status.ok, some m.nodeCount, Document.mk nodes b'.bytes))
                    (Arena.take_set_succ _ hout).symm
                | some p =>
                  have hp : p < m.nodeCount := by simpa [valid] using hvalid
                  exact congrArg (fun nodes => (Status.ok, some m.nodeCount, Document.mk nodes b'.bytes))
                    (take_linked_some hout rfl hp).symm

theorem document_setNumber (value : Bytes) (parent : Option ℕ) (keyName : Bytes) :
    m.document.setNumber value parent keyName = added (m.setNumber value parent keyName) := by
  unfold Document.setNumber setNumber
  split
  · rfl
  · exact document_addNode m _ _ _ _

theorem document_call (m : Memory cap) (c : Call) : c.apply m.document = added (m.call c) := by
  cases c with
  | setNull parent key => exact document_addNode m .null parent key []
  | setBool value parent key =>
    exact document_addNode m .boolean parent key (if value then trueText else falseText)
  | setString value parent key => exact document_addNode m .string parent key value
  | makeObject parent key => exact document_addNode m .object parent key []
  | makeArray parent key => exact document_addNode m .array parent key []
  | setNumber value parent key => exact document_setNumber value parent key
  | setInteger value parent key =>
    show m.document.setInteger value parent key = added (m.setInteger value parent key)
    unfold Document.setInteger setInteger
    cases formatInteger value with
    | none => rfl
    | some encoded => exact document_setNumber encoded parent key
  | append parent kind value key =>
    show m.document.append parent kind value key = added (m.append parent kind value key)
    unfold Document.append append
    rw [valid_document, kind_document, apply_ite added, apply_ite added,
      document_addNode m kind parent key value]
    rfl

namespace Parser

variable {source : Bytes} {p : Parser cap} {parent : Option ℕ} {keyName : Bytes}

def inUse (p : Parser cap) : Json.Parser cap := ⟨p.doc.document, p.position, p.depth⟩

def returned (result : Result × Parser cap) : Result × Json.Parser cap :=
  (result.1, result.2.inUse)

theorem inUse_call (p : Parser cap) (c : Call) :
    p.inUse.stored (c.apply p.inUse.doc) = returned (p.stored (p.doc.call c)) := by
  rw [show c.apply p.inUse.doc = added (p.doc.call c) from document_call p.doc c]
  rfl

theorem inUse_parseLiteral {literal : Bytes} {kind : Kind} : p.inUse.parseLiteral source
    parent keyName literal kind = returned (p.parseLiteral source parent keyName literal kind) := by
  unfold Json.Parser.parseLiteral parseLiteral
  rw [apply_ite returned, apply_ite returned, apply_ite returned, ← inUse_call, ← inUse_call]
  rfl

theorem inUse_parseNumber :
    p.inUse.parseNumber source parent keyName = returned (p.parseNumber source parent keyName) := by
  unfold Json.Parser.parseNumber parseNumber
  dsimp only
  generalize hscan : Json.Parser.scanNumber (source.drop p.position) p.position = scanned
  rw [show Json.Parser.scanNumber (source.drop p.inUse.position) p.inUse.position = scanned from hscan]
  obtain ⟨delimited, position⟩ := scanned
  dsimp only
  rw [apply_ite returned, apply_ite returned, ← inUse_call]
  rfl

theorem inUse_parseStringValue : p.inUse.parseStringValue source parent keyName =
    returned (p.parseStringValue source parent keyName) := by
  unfold Json.Parser.parseStringValue parseStringValue
  generalize hdecode : decodeString cap.maxStringBytes source p.position = decoded
  rw [show decodeString cap.maxStringBytes source p.inUse.position = decoded from hdecode]
  obtain ⟨r, position, value⟩ := decoded
  dsimp only
  rw [apply_ite returned, ← inUse_call]
  rfl

variable {loop' : Json.Parser cap → Option (Result × Json.Parser cap)}

theorem inUse_afterChild {close : UInt8} {loop : Parser cap → Option (Result × Parser cap)}
    (h : ∀ q : Parser cap, loop' q.inUse = (loop q).map returned) :
    p.inUse.afterChild source close loop' = (p.afterChild source close loop).map returned := by
  unfold Json.Parser.afterChild afterChild
  dsimp only
  rw [apply_ite (Option.map returned), apply_ite (Option.map returned), ← h]
  rfl

theorem inUse_parseContainer {make : Call} {close : UInt8}
    {loop : Option ℕ → Parser cap → Option (Result × Parser cap)}
    (loop' : Option ℕ → Json.Parser cap → Option (Result × Json.Parser cap))
    (h : ∀ out (q : Parser cap), loop' out q.inUse = (loop out q).map returned) :
    p.inUse.parseContainer source (fun doc => make.apply doc) close loop' =
      (p.parseContainer source make close loop).map returned := by
  unfold Json.Parser.parseContainer parseContainer
  dsimp only
  rw [show make.apply p.inUse.advance.doc = added (p.doc.call make) from document_call p.doc make,
    show p.advance.doc.call make = p.doc.call make from rfl]
  generalize p.doc.call make = made
  obtain ⟨s, out, m⟩ := made
  dsimp only [added]
  rw [apply_ite (Option.map returned), apply_ite (Option.map returned),
    apply_ite (Option.map returned), ← h]
  rfl

/-- The functions with some fuel return the same over the document in use. -/
structure Agree (cap : Capacity) (source : Bytes) (fuel : ℕ) : Prop where
  value : ∀ (parent : Option ℕ) (keyName : Bytes) (p : Parser cap),
    Json.Parser.parseValue source fuel parent keyName p.inUse =
      (parseValue source fuel parent keyName p).map returned
  object : ∀ (out : Option ℕ) (p : Parser cap),
    Json.Parser.objectLoop source fuel out p.inUse = (objectLoop source fuel out p).map returned
  array : ∀ (out : Option ℕ) (p : Parser cap),
    Json.Parser.arrayLoop source fuel out p.inUse = (arrayLoop source fuel out p).map returned

variable {fuel : ℕ}

theorem inUse_parseValue (ih : Agree cap source fuel) (parent : Option ℕ) (keyName : Bytes)
    (p : Parser cap) : Json.Parser.parseValue source (fuel + 1) parent keyName p.inUse =
    (parseValue source (fuel + 1) parent keyName p).map returned := by
  rw [Json.Parser.parseValue, parseValue]
  rw [show p.inUse.skipSpace source = (p.skipSpace source).inUse from rfl]
  generalize p.skipSpace source = p
  rw [show p.inUse.position = p.position from rfl]
  cases source[p.position]? with
  | none => rfl
  | some c =>
    dsimp only
    simp only [apply_ite (Option.map returned), Option.map_some, ← inUse_parseStringValue,
      ← inUse_parseLiteral, ← inUse_parseNumber]
    rw [← inUse_parseContainer (Json.Parser.objectLoop source fuel) ih.object,
      ← inUse_parseContainer (Json.Parser.arrayLoop source fuel) ih.array]
    rfl

theorem inUse_child {close : UInt8} {loop : Parser cap → Option (Result × Parser cap)}
    (h : ∀ q : Parser cap, loop' q.inUse = (loop q).map returned) (vr : Result) :
    (if !vr.succeeded then some (vr, p.inUse.leave) else p.inUse.afterChild source close loop') =
      (if !vr.succeeded then some (vr, p.leave) else p.afterChild source close loop).map returned := by
  rw [apply_ite (Option.map returned), inUse_afterChild h]
  rfl

theorem inUse_arrayLoop (ih : Agree cap source fuel) (out : Option ℕ) (p : Parser cap) :
    Json.Parser.arrayLoop source (fuel + 1) out p.inUse =
    (arrayLoop source (fuel + 1) out p).map returned := by
  rw [Json.Parser.arrayLoop, arrayLoop, show p.inUse.position = p.position from rfl, ih.value]
  cases source[p.position]? with
  | none => rfl
  | some c =>
    cases parseValue source fuel out [] p with
    | none => rfl
    | some res => exact inUse_child (ih.array out) res.1

theorem inUse_objectLoop (ih : Agree cap source fuel) (out : Option ℕ) (p : Parser cap) :
    Json.Parser.objectLoop source (fuel + 1) out p.inUse =
    (objectLoop source (fuel + 1) out p).map returned := by
  rw [Json.Parser.objectLoop, objectLoop, show p.inUse.position = p.position from rfl]
  cases source[p.position]? with
  | none => rfl
  | some c =>
    dsimp only
    generalize decodeString cap.maxStringBytes source p.position = decoded
    obtain ⟨kr, position, key⟩ := decoded
    dsimp only
    rw [apply_ite (Option.map returned), apply_ite (Option.map returned),
      apply_ite (Option.map returned)]
    have hvalue := ih.value out key
      (skipSpace source { p with position := position }).advance
    rw [show Json.Parser.parseValue source fuel out key
      (Json.Parser.skipSpace source { p.inUse with position := position }).advance = _ from hvalue]
    cases parseValue source fuel out key (skipSpace source { p with position := position }).advance with
    | none => rfl
    | some res =>
      rw [Option.map_some]
      dsimp only
      rw [← inUse_child (ih.object out)]
      rfl

theorem agree (cap : Capacity) (source : Bytes) (fuel : ℕ) : Agree cap source fuel := by
  induction fuel with
  | zero => exact ⟨fun _ _ _ => rfl, fun _ _ => rfl, fun _ _ => rfl⟩
  | succ fuel ih => exact ⟨inUse_parseValue ih, inUse_objectLoop ih, inUse_arrayLoop ih⟩

end Parser

theorem document_parse (m : Memory cap) (d : Document cap) (source : Bytes) :
    Json.parse d source = (m.parse source).map fun res => (res.1, res.2.document) := by
  unfold Json.parse Json.Parser.run parse
  dsimp only
  have hvalue := (Parser.agree cap source (2 * source.length + 2)).value none []
    (Parser.skipSpace source ⟨m.clear, 0, 0⟩)
  rw [show Json.Parser.parseValue source (2 * source.length + 2) none []
    (Json.Parser.skipSpace source ⟨.empty, 0, 0⟩ : Json.Parser cap) = _ from hvalue]
  cases Parser.parseValue source (2 * source.length + 2) none []
      (Parser.skipSpace source ⟨m.clear, 0, 0⟩) with
  | none => rfl
  | some res =>
    obtain ⟨r, p⟩ := res
    rw [Option.map_some]
    dsimp only [Parser.returned]
    rw [apply_ite (Option.map _), apply_ite (Option.map _)]
    rfl

end Memory

end Castle.Serialization.Json

import Castle.Lib.BoundedOutput
import Castle.Serialization.Json.Document
import Castle.Serialization.Json.Trees

/-!
# The text of a tree

The serializer writes one text for a tree and a layout, if the output has room for it.
-/

namespace Castle.Serialization.Json

open BoundedOutput

def escapeChar (c : UInt8) : Option Bytes :=
  match escapeText c with
  | some escaped => some escaped
  | none => if isControl c then none else some [c]

def escape : Bytes → Option Bytes
  | [] => some []
  | c :: value => cat (escapeChar c) (escape value)

def quoted (value : Bytes) : Option Bytes := cat (some [quote]) (cat (escape value) (some [quote]))

variable (cap : ℕ)

theorem pushBack_writes (c : UInt8) : Writes cap (pushBack cap c) (some [c]) := by
  intro out out' h
  unfold pushBack
  constructor
  · intro he
    split at he
    · cases he
    next hroom =>
      cases he
      refine ⟨_, rfl, rfl, ?_⟩
      rw [List.length_append, List.length_singleton]
      omega
  · rintro ⟨t, ht, rfl, hlen⟩
    cases ht
    rw [List.length_append, List.length_singleton] at hlen
    rw [if_neg (by omega)]

theorem appendView_writes (view : Bytes) : Writes cap (appendView cap view) (some view) := by
  intro out out' h
  unfold appendView
  constructor
  · intro he
    split at he
    · cases he
    next hroom =>
      cases he
      refine ⟨_, rfl, rfl, ?_⟩
      rw [List.length_append]
      omega
  · rintro ⟨t, ht, rfl, hlen⟩
    cases ht
    rw [List.length_append] at hlen
    rw [if_neg (by omega)]

theorem appendEscapedLoop_writes (value : Bytes) :
    Writes cap (appendEscapedLoop cap value) (escape value) := by
  induction value with
  | nil => exact .nothing
  | cons c value ih =>
    show Writes cap (fun output => appendEscapedLoop cap (c :: value) output) _
    simp only [appendEscapedLoop, escape, escapeChar]
    cases escapeText c with
    | some escaped => exact (appendView_writes cap escaped).seq ih
    | none =>
      dsimp only
      split
      · exact .fail _
      · exact (pushBack_writes cap c).seq ih

theorem appendEscaped_writes (value : Bytes) :
    Writes cap (appendEscaped cap value) (quoted value) :=
  (pushBack_writes cap quote).seq
    ((appendEscapedLoop_writes cap value).seq (pushBack_writes cap quote))

def Layout.add (layout : Layout) (text : Bytes) : Bytes := if layout.pretty then text else []

def Layout.indent (layout : Layout) (depth : ℕ) : Bytes :=
  layout.add (List.replicate (depth * layout.spaces % 2 ^ 64) space)

theorem writeSpaces_writes (n : ℕ) :
    Writes cap (writeSpaces cap n) (some (List.replicate n space)) := by
  induction n with
  | zero => exact .nothing
  | succ n ih => exact (pushBack_writes cap space).seq ih

theorem whenPretty_writes {cap : ℕ} {write : Bytes → Except Status Bytes} {text : Bytes}
    (layout : Layout) (h : Writes cap write (some text)) :
    Writes cap (whenPretty layout.pretty write) (some (layout.add text)) := by
  unfold whenPretty Layout.add
  cases layout.pretty with
  | true => exact h
  | false => exact .nothing

theorem indent_writes (layout : Layout) (depth : ℕ) :
    Writes cap (whenPretty layout.pretty (writeIndent cap depth layout.spaces))
      (some (layout.indent depth)) := whenPretty_writes layout (writeSpaces_writes cap _)

/-- What comes before a child. -/
def Layout.separator (layout : Layout) (first : Bool) : Bytes :=
  if first then [] else comma :: layout.add [lineFeed]

def Layout.key (layout : Layout) (object : Bool) (key : Bytes) : Option Bytes :=
  if object then cat (quoted key) (some (colon :: layout.add [space])) else some []

def Layout.container (layout : Layout) (object : Bool) (depth : ℕ) (children : Forest)
    (text : Option Bytes) : Option Bytes :=
  let start : Bytes := [if object then openBrace else openBracket]
  let stop : Bytes := [if object then closeBrace else closeBracket]
  match children with
  | .nil => cat (some start) (some stop)
  | .cons _ _ _ =>
    cat (some start) (cat (some (layout.add [lineFeed])) (cat text
      (cat (some (layout.add [lineFeed])) (cat (some (layout.indent depth)) (some stop)))))

mutual

/-- The text of a node at some depth. -/
def Tree.render (layout : Layout) (depth : ℕ) : Tree → Option Bytes
  | .node .null _ _ => some nullText
  | .node .boolean value _ => some value
  | .node .number value _ => some value
  | .node .string value _ => quoted value
  | .node .object _ children =>
    layout.container true depth children (children.render layout true depth true)
  | .node .array _ children =>
    layout.container false depth children (children.render layout false depth true)

/-- The text of the children of a node at some depth. -/
def Forest.render (layout : Layout) (object : Bool) (depth : ℕ) (first : Bool) :
    Forest → Option Bytes
  | .nil => some []
  | .cons key child rest =>
    cat (cat (some (layout.separator first))
        (cat (some (layout.indent (depth + 1))) (layout.key object key)))
      (cat (child.render layout (depth + 1)) (rest.render layout object depth false))

end

theorem failing_writes {cap : ℕ} {write : Bytes → Except Status Bytes} {text : Option Bytes}
    (h : Writes cap write text) : Writes cap (fun output => failing (write output)) text := by
  refine h.congr fun out out' => ?_
  unfold failing
  cases write out with
  | ok output => simp [Except.mapError]
  | error s => simp [Except.mapError]

namespace Document

variable {cap : Capacity} (d : Document cap) (maxOutput : ℕ) (layout : Layout)

theorem writeSeparator_writes (first : Bool) :
    Writes maxOutput (writeSeparator maxOutput layout first) (some (layout.separator first)) := by
  cases first with
  | true => exact .nothing
  | false =>
    exact (pushBack_writes maxOutput comma).seq
      (whenPretty_writes layout (pushBack_writes maxOutput lineFeed))

variable (object : Bool)

theorem writeKey_writes (key : Bytes) :
    Writes maxOutput (writeKey maxOutput layout object key) (layout.key object key) := by
  cases object with
  | false => exact .nothing
  | true =>
    have hquoted : Writes maxOutput (fun output =>
        (appendEscaped maxOutput key output).mapError fun _ => Status.full) (quoted key) := by
      refine (appendEscaped_writes maxOutput key).congr fun out out' => ?_
      cases appendEscaped maxOutput key out with
      | ok output => simp [Except.mapError]
      | error s => simp [Except.mapError]
    exact hquoted.seq ((pushBack_writes maxOutput colon).seq
      (whenPretty_writes layout (pushBack_writes maxOutput space)))

theorem serializeKey_writes (first : Bool) (depth child : ℕ) :
    Writes maxOutput (d.serializeKey maxOutput layout object first depth child)
      (cat (some (layout.separator first))
        (cat (some (layout.indent (depth + 1))) (layout.key object (d.key child)))) :=
  (writeSeparator_writes maxOutput layout first).seq
    ((indent_writes maxOutput layout (depth + 1)).seq
      (writeKey_writes maxOutput layout object (d.key child)))

variable {serializeChild : ℕ → Bytes → Written}

theorem serializeChildren_writes {tree : ℕ → Tree} (depth : ℕ) {children : List ℕ} (first : Bool)
    (h : ∀ c ∈ children, Writes maxOutput (serializeChild c) ((tree c).render layout (depth + 1))) :
    Writes maxOutput (d.serializeChildren maxOutput layout serializeChild object depth first children)
      ((Forest.ofList (children.map fun c => (d.key c, tree c))).render layout object depth first) := by
  induction children generalizing first with
  | nil => exact .nothing
  | cons c children ih =>
    have hkey := failing_writes (d.serializeKey_writes maxOutput layout object first depth c)
    have hrest := ih false fun c' hc' => h c' (List.mem_cons_of_mem c hc')
    exact hkey.seq ((h c List.mem_cons_self).seq hrest)

theorem serializeContainer_writes {i depth : ℕ} {children : List ℕ} {tree : ℕ → Tree}
    (hfirst : d.firstChild i = children.head?) (hchildren : d.children i = children)
    (h : ∀ c ∈ children, Writes maxOutput (serializeChild c) ((tree c).render layout (depth + 1))) :
    Writes maxOutput (fun output : Bytes => do
      let output ← failing (pushBack maxOutput (if object then openBrace else openBracket) output)
      if d.firstChild i = none then
        failing (pushBack maxOutput (if object then closeBrace else closeBracket) output)
      else do
        let output ← failing (whenPretty layout.pretty (pushBack maxOutput lineFeed) output)
        let output ← d.serializeChildren maxOutput layout serializeChild object depth true
          (d.children i) output
        let output ← failing (whenPretty layout.pretty (pushBack maxOutput lineFeed) output)
        let output ← failing
          (whenPretty layout.pretty (writeIndent maxOutput depth layout.spaces) output)
        failing (pushBack maxOutput (if object then closeBrace else closeBracket) output))
      (layout.container object depth (Forest.ofList (children.map fun c => (d.key c, tree c)))
        ((Forest.ofList (children.map fun c => (d.key c, tree c))).render
          layout object depth true)) := by
  have hopen := failing_writes (pushBack_writes maxOutput
    (if object then openBrace else openBracket))
  have hclose := failing_writes (pushBack_writes maxOutput
    (if object then closeBrace else closeBracket))
  have hline := failing_writes (whenPretty_writes layout (pushBack_writes maxOutput lineFeed))
  have hindent := failing_writes (indent_writes maxOutput layout depth)
  have hall := d.serializeChildren_writes maxOutput layout object depth true h
  rw [hfirst, hchildren]
  cases children with
  | nil => exact hopen.seq hclose
  | cons c children => exact hopen.seq (hline.seq (hall.seq (hline.seq (hindent.seq hclose))))

end Document

open Document

variable {cap : Capacity} {es : Entries}

theorem serializeNode_writes (hb : Built cap es) (maxOutput : ℕ) (layout : Layout)
    {fuel i depth : ℕ} (hi : i < es.length) (hfuel : es.length ≤ fuel + i) :
    Writes maxOutput ((ofEntries es : Document cap).serializeNode maxOutput layout fuel i depth)
      ((Entries.treeAt es fuel i).render layout depth) := by
  induction fuel generalizing i depth with
  | zero => omega
  | succ fuel ih =>
    generalize hd : (ofEntries es : Document cap) = d at ih ⊢
    have hkind : d.kind (some i) = (Entries.entry es i).kind := by rw [← hd, kind_ofEntries hi]
    have hscalar : d.scalar i = (Entries.entry es i).value := by rw [← hd, scalar_ofEntries hi]
    have hfirst : d.firstChild i = (Entries.children es i).head? := by
      rw [← hd, firstChild, node_ofEntries hi]
      rfl
    have hchildren : d.children i = Entries.children es i := by rw [← hd, children_ofEntries hi]
    have hforest : ((Entries.children es i).map fun c =>
        ((Entries.entry es c).key, Entries.treeAt es fuel c)) =
          (Entries.children es i).map fun c => (d.key c, Entries.treeAt es fuel c) := by
      refine List.map_congr_left fun c hc => ?_
      rw [← hd, key_ofEntries (Entries.lt_of_mem_children hc)]
    have hcontainer (object : Bool) :=
      d.serializeContainer_writes maxOutput layout object hfirst hchildren
      (fun c hc => @ih c (depth + 1) (Entries.lt_of_mem_children hc) (by
        have hlt := hb.lt_child hc
        omega))
    show Writes maxOutput
      (fun output => d.serializeNode maxOutput layout (fuel + 1) i depth output) _
    simp only [serializeNode, Entries.treeAt, hkind, hforest, string]
    cases (Entries.entry es i).kind with
    | null => exact failing_writes (appendView_writes _ _)
    | boolean | number => exact failing_writes (hscalar ▸ appendView_writes _ _)
    | string => exact failing_writes (hscalar ▸ appendEscaped_writes _ _)
    | object => exact hcontainer true
    | array => exact hcontainer false

end Castle.Serialization.Json

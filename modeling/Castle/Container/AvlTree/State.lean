import Castle.Status
import Castle.Container.Parameters
import Castle.Lib.Table
import Castle.Lib.LinkedTree

/-!
# The AVL tree (`avl_tree.hpp`)

The node pool is a table, a `node*` an optional index into it. A function that
follows a null pointer, reads or destroys a value that is not there, or loops longer
than the pool has nodes, has no result. Functions that are mirror images of each
other are one function of a side.
-/

namespace Castle.Container

/-- `node*` -/
abbrev NodeRef (cap : Capacity) := Option (Fin cap.size)

structure Node (cap : Capacity) (K V : Type) where
  left : NodeRef cap := none
  right : NodeRef cap := none
  parent : NodeRef cap := none
  height : UInt8 := 1
  used : Bool := false
  /-- what lives in `value_storage` -/
  value : Option (K × V) := none

structure AvlTree (cap : Capacity) (K V : Type) where
  nodes : Table cap.size (Node cap K V)
  root : NodeRef cap := none
  freeHead : NodeRef cap := none
  size : ℕ := 0

namespace AvlTree

variable {cap : Capacity} {K V : Type} (t : AvlTree cap K V)

def node (i : Fin cap.size) : Node cap K V := t.nodes.get i

def links (i : Fin cap.size) : Links (Fin cap.size) :=
  ⟨(t.node i).left, (t.node i).right, (t.node i).parent⟩

def child (s : Side) (i : Fin cap.size) : NodeRef cap := (t.links i).child s

def modifyNode (i : Fin cap.size) (f : Node cap K V → Node cap K V) : AvlTree cap K V :=
  { t with nodes := t.nodes.modify i f }

def setChild (s : Side) (i : Fin cap.size) (p : NodeRef cap) : AvlTree cap K V :=
  t.modifyNode i fun x =>
    match s with
    | .left => { x with left := p }
    | .right => { x with right := p }

def setParent (i : Fin cap.size) (p : NodeRef cap) : AvlTree cap K V :=
  t.modifyNode i fun x => { x with parent := p }

/-- `if (p != nullptr) p->parent = parent;` -/
def setParent? (p : NodeRef cap) (parent : NodeRef cap) : AvlTree cap K V :=
  match p with
  | none => t
  | some i => t.setParent i parent

def setHeight (i : Fin cap.size) (height : UInt8) : AvlTree cap K V :=
  t.modifyNode i fun x => { x with height }

/-- The body of the loop of `initialise_pool`. -/
def initialiseNode (t : AvlTree cap K V) (i : Fin cap.size) : AvlTree cap K V :=
  { t.modifyNode i fun x =>
      { x with left := t.freeHead, right := none, parent := none, height := 0, used := false } with
    freeHead := some i }

def initialisePool : AvlTree cap K V :=
  (List.finRange cap.size).reverse.foldl initialiseNode { t with freeHead := none }

def empty : AvlTree cap K V := initialisePool { nodes := .replicate _ {} }

def allocateNode : NodeRef cap × AvlTree cap K V :=
  match t.freeHead with
  | none => (none, t)
  | some i =>
    (some i, { t.modifyNode i fun x =>
        { x with left := none, right := none, parent := none, height := 1, used := true } with
      freeHead := (t.node i).left })

def releaseNode (item : Fin cap.size) : Option (AvlTree cap K V) := do
  let _ ← (t.node item).value
  some { t.modifyNode item fun _ =>
      { left := t.freeHead, right := none, parent := none, height := 0, used := false
        value := none } with
    freeHead := some item
    size := if t.size > 0 then t.size - 1 else t.size }

def height (item : NodeRef cap) : UInt8 :=
  match item with
  | none => 0
  | some i => (t.node i).height

def balanceFactor (i : Fin cap.size) : ℤ :=
  (t.height (t.node i).left).toNat - (t.height (t.node i).right).toNat

def updateHeight (i : Fin cap.size) : AvlTree cap K V :=
  let leftHeight := t.height (t.node i).left
  let rightHeight := t.height (t.node i).right
  t.setHeight i ((if leftHeight > rightHeight then leftHeight else rightHeight) + 1)

/-- The link down to `old` goes to `new`: the branches that `transplant` and the
rotations share. -/
def relink (old : Fin cap.size) (new : NodeRef cap) : AvlTree cap K V :=
  match (t.node old).parent with
  | none => { t with root := new }
  | some p =>
    if (t.node p).left = some old then t.setChild .left p new else t.setChild .right p new

def transplant (old : Fin cap.size) (new : NodeRef cap) : AvlTree cap K V :=
  (t.relink old new).setParent? new ((t.relink old new).node old).parent

/-- Turn `pivot` towards side `s`. -/
def rotate (s : Side) (pivot : Fin cap.size) : Option (AvlTree cap K V) := do
  let child ← t.child s.other pivot
  let inner := t.child s child
  let t := t.setChild s.other pivot inner
  let t := t.setParent? inner (some pivot)
  let t := t.setParent child (t.node pivot).parent
  let t := t.relink pivot (some child)
  let t := t.setChild s child (some pivot)
  let t := t.setParent pivot (some child)
  some ((t.updateHeight pivot).updateHeight child)

def rotateLeft (pivot : Fin cap.size) : Option (AvlTree cap K V) := t.rotate .left pivot

def rotateRight (pivot : Fin cap.size) : Option (AvlTree cap K V) := t.rotate .right pivot

/-- The body of the loop of `rebalance`. -/
def rebalanceStep (current : Fin cap.size) : Option (AvlTree cap K V) :=
  let t := t.updateHeight current
  let balance := t.balanceFactor current
  if balance > 1 then do
    let left ← (t.node current).left
    let t ← if t.balanceFactor left < 0 then t.rotateLeft left else some t
    t.rotateRight current
  else if balance < -1 then do
    let right ← (t.node current).right
    let t ← if t.balanceFactor right > 0 then t.rotateRight right else some t
    t.rotateLeft current
  else some t

/-- The loop of `rebalance`; every level takes at most two turns. -/
def rebalanceLoop : ℕ → AvlTree cap K V → NodeRef cap → Option (AvlTree cap K V)
  | _, t, none => some t
  | 0, _, some _ => none
  | fuel + 1, t, some current => do
    let t ← t.rebalanceStep current
    rebalanceLoop fuel t (t.node current).parent

def rebalance (current : NodeRef cap) : Option (AvlTree cap K V) :=
  rebalanceLoop (2 * cap.size + 1) t current

/-- The node at the end of the links to side `s`. -/
def outermost (s : Side) : ℕ → Fin cap.size → Option (Fin cap.size)
  | 0, _ => none
  | fuel + 1, item =>
    match t.child s item with
    | none => some item
    | some next => outermost s fuel next

def minimum (item : NodeRef cap) : Option (NodeRef cap) :=
  match item with
  | none => some none
  | some i => do
    let i ← t.outermost .left cap.size i
    some (some i)

/-- Go up while `item` is the child on side `s`. -/
def ascend (s : Side) : ℕ → Fin cap.size → Option (NodeRef cap)
  | 0, _ => none
  | fuel + 1, item =>
    match (t.node item).parent with
    | none => some none
    | some parent => if t.child s parent = some item then ascend s fuel parent else some (some parent)

/-- The next node on side `s` in order. -/
def neighbour (s : Side) (item : NodeRef cap) : Option (NodeRef cap) :=
  match item with
  | none => some none
  | some i =>
    match t.child s i with
    | some j => do
      let j ← t.outermost s.other cap.size j
      some (some j)
    | none => t.ascend s cap.size i

def successor (item : NodeRef cap) : Option (NodeRef cap) := t.neighbour .right item

def predecessor (item : NodeRef cap) : Option (NodeRef cap) := t.neighbour .left item

def begin : Option (NodeRef cap) := t.minimum t.root

variable (cmp : Compare K)

def findLoop (key : K) : ℕ → NodeRef cap → Option (NodeRef cap)
  | _, none => some none
  | 0, some _ => none
  | fuel + 1, some current => do
    let (currentKey, _) ← (t.node current).value
    if cmp.lt key currentKey then findLoop key fuel (t.node current).left
    else if cmp.lt currentKey key then findLoop key fuel (t.node current).right
    else some (some current)

def findNode (key : K) : Option (NodeRef cap) := t.findLoop cmp key cap.size t.root

def find (key : K) : Option (NodeRef cap) := t.findNode cmp key

def contains (key : K) : Option Bool := do
  let item ← t.findNode cmp key
  some item.isSome

/-- The value that `mapped` points to. -/
def mapped (key : K) : Option (Option V) := do
  match ← t.findNode cmp key with
  | none => some none
  | some i =>
    let (_, value) ← (t.node i).value
    some (some value)

/-- The loop of `lower_bound` and `upper_bound`: the first node that is not `before`
the bound. -/
def boundLoop (before : K → Bool) : ℕ → NodeRef cap → NodeRef cap → Option (NodeRef cap)
  | _, none, result => some result
  | 0, some _, _ => none
  | fuel + 1, some current, result => do
    let (currentKey, _) ← (t.node current).value
    if before currentKey then boundLoop before fuel (t.node current).right result
    else boundLoop before fuel (t.node current).left (some current)

def lowerBound (key : K) : Option (NodeRef cap) :=
  t.boundLoop (fun currentKey => cmp.lt currentKey key) cap.size t.root none

def upperBound (key : K) : Option (NodeRef cap) :=
  t.boundLoop (fun currentKey => !cmp.lt key currentKey) cap.size t.root none

/-- The descent of `emplace_value`: the parent of the new node and whether it becomes
the left child, or none when the key is there. -/
def descend (key : K) : ℕ → NodeRef cap → NodeRef cap → Bool → Option (Option (NodeRef cap × Bool))
  | _, none, parent, insertLeft => some (some (parent, insertLeft))
  | 0, some _, _, _ => none
  | fuel + 1, some current, _, _ => do
    let (currentKey, _) ← (t.node current).value
    if cmp.lt key currentKey then descend key fuel (t.node current).left (some current) true
    else if cmp.lt currentKey key then descend key fuel (t.node current).right (some current) false
    else some none

/-- The new node goes below `parent`. -/
def attach (item : Fin cap.size) (parent : NodeRef cap) (insertLeft : Bool) : AvlTree cap K V :=
  let t := t.setParent item parent
  match parent with
  | none => { t with root := some item }
  | some p => if insertLeft then t.setChild .left p (some item) else t.setChild .right p (some item)

def emplaceValue (key : K) (value : V) : Option (Status × AvlTree cap K V) := do
  match ← t.descend cmp key cap.size t.root none false with
  | none => some (.alreadyExists, t)
  | some (parent, insertLeft) =>
    match t.allocateNode with
    | (none, t) => some (.full, t)
    | (some item, t) =>
      let t := t.modifyNode item fun x => { x with value := some (key, value) }
      let t := t.attach item parent insertLeft
      let t ← { t with size := t.size + 1 }.rebalance parent
      some (.ok, t)

def insert (key : K) (value : V) : Option (Status × AvlTree cap K V) :=
  t.emplaceValue cmp key value

def emplace (key : K) (value : V) : Option (Status × AvlTree cap K V) := do
  let item ← t.findNode cmp key
  if item.isSome then some (.alreadyExists, t) else t.emplaceValue cmp key value

/-- The in-order successor takes the place of `item`, first out of its own place when
it is not the child of `item`. -/
def replaceBySuccessor (item next : Fin cap.size) : Option (AvlTree cap K V) := do
  let t ←
    if (t.node next).parent ≠ some item then do
      let t := t.transplant next (t.node next).right
      let t := t.setChild .right next (t.node item).right
      let right ← (t.node next).right
      some (t.setParent right (some next))
    else some t
  let t := t.transplant item (some next)
  let t := t.setChild .left next (t.node item).left
  let left ← (t.node next).left
  let t := t.setParent left (some next)
  some (t.updateHeight next)

def eraseNode (item : Fin cap.size) : Option (AvlTree cap K V) :=
  let rebalanceFrom := (t.node item).parent
  if (t.node item).left = none ∨ (t.node item).right = none then do
    let child := if (t.node item).left ≠ none then (t.node item).left else (t.node item).right
    let t ← (t.transplant item child).releaseNode item
    t.rebalance (if rebalanceFrom ≠ none then rebalanceFrom else child)
  else do
    let next ← ← t.minimum (t.node item).right
    let successorParent := (t.node next).parent
    let rebalanceFrom := if successorParent ≠ some item then successorParent else some next
    let t ← t.replaceBySuccessor item next
    let t ← t.releaseNode item
    t.rebalance rebalanceFrom

def erase (key : K) : Option (Status × AvlTree cap K V) := do
  match ← t.findNode cmp key with
  | none => some (.notFound, t)
  | some item => do
    let t ← t.eraseNode item
    some (.ok, t)

/-- `erase(iterator)`: the iterator behind the erased element. -/
def eraseAt (position : NodeRef cap) : Option (NodeRef cap × AvlTree cap K V) :=
  match position with
  | none => some (none, t)
  | some item => do
    let next ← t.successor (some item)
    let t ← t.eraseNode item
    some (next, t)

end AvlTree
end Castle.Container

/-!
## What the link operations of the AVL tree change

Each member update changes the links of one node; `transplant` and the rotations are
followed on the tree that the nodes hold.
-/

namespace Castle.Container.AvlTree

open BinaryTree

variable {cap : Capacity} {K V : Type} {t t' : AvlTree cap K V}

section updates

variable (t : AvlTree cap K V) (s : Side) {i j : Fin cap.size} (p : NodeRef cap)

variable (f : Node cap K V → Node cap K V)

@[simp] theorem node_modifyNode_self : (t.modifyNode i f).node i = f (t.node i) := by
  simp [modifyNode, node]

@[simp] theorem node_modifyNode_ne (h : j ≠ i) : (t.modifyNode i f).node j = t.node j := by
  simp [modifyNode, node, h]

@[simp] theorem links_setChild_self : (t.setChild s i p).links i = (t.links i).setChild s p := by
  cases s <;> simp [links, setChild, Links.setChild]

@[simp] theorem links_setChild_ne (h : j ≠ i) : (t.setChild s i p).links j = t.links j := by
  simp [links, setChild, h]

@[simp] theorem links_setParent_self :
    (t.setParent i p).links i = { t.links i with parent := p } := by
  simp [links, setParent]

@[simp] theorem links_setParent_ne (h : j ≠ i) : (t.setParent i p).links j = t.links j := by
  simp [links, setParent, h]

@[simp] theorem links_setHeight (i j : Fin cap.size) (height : UInt8) :
    (t.setHeight i height).links j = t.links j := by
  by_cases h : j = i
  · subst h
    simp [links, setHeight]
  · simp [links, setHeight, h]

@[simp] theorem links_updateHeight (i j : Fin cap.size) : (t.updateHeight i).links j = t.links j :=
  t.links_setHeight i j _

@[simp] theorem root_setChild (i : Fin cap.size) : (t.setChild s i p).root = t.root := rfl

@[simp] theorem root_setParent (i : Fin cap.size) : (t.setParent i p).root = t.root := rfl

@[simp] theorem root_updateHeight (i : Fin cap.size) : (t.updateHeight i).root = t.root := rfl

@[simp] theorem root_setParent? (q : NodeRef cap) : (t.setParent? q p).root = t.root := by
  cases q <;> rfl

theorem links_setParent?_ne {q : NodeRef cap} (h : q ≠ some j) :
    (t.setParent? q p).links j = t.links j := by
  cases q with
  | none => rfl
  | some i =>
    have hji : j ≠ i := by
      rintro rfl
      exact h rfl
    simp [setParent?, hji]

theorem links_setParent?_self {q : NodeRef cap} (h : q = some j) :
    (t.setParent? q p).links j = { t.links j with parent := p } := by
  subst h
  exact t.links_setParent_self p

end updates

/-- Only links, heights and the root differ: the pool and the values are the same. -/
structure SameEntries (t t' : AvlTree cap K V) : Prop where
  freeHead : t'.freeHead = t.freeHead
  size : t'.size = t.size
  value : ∀ i, (t'.node i).value = (t.node i).value
  used : ∀ i, (t'.node i).used = (t.node i).used

theorem SameEntries.refl (t : AvlTree cap K V) : SameEntries t t :=
  ⟨rfl, rfl, fun _ => rfl, fun _ => rfl⟩

theorem SameEntries.trans {t₁ t₂ t₃ : AvlTree cap K V} (h : SameEntries t₁ t₂)
    (h' : SameEntries t₂ t₃) : SameEntries t₁ t₃ :=
  ⟨h'.freeHead.trans h.freeHead, h'.size.trans h.size,
    fun i => (h'.value i).trans (h.value i), fun i => (h'.used i).trans (h.used i)⟩

variable {f : Node cap K V → Node cap K V}

theorem SameEntries.modifyNode (t : AvlTree cap K V) (i : Fin cap.size)
    (hf : ∀ x, (f x).value = x.value ∧ (f x).used = x.used) : SameEntries t (t.modifyNode i f) := by
  refine ⟨rfl, rfl, fun j => ?_, fun j => ?_⟩
  · by_cases h : j = i
    · subst h
      rw [node_modifyNode_self]
      exact (hf _).1
    · rw [node_modifyNode_ne t f h]
  · by_cases h : j = i
    · subst h
      rw [node_modifyNode_self]
      exact (hf _).2
    · rw [node_modifyNode_ne t f h]

theorem SameEntries.setChild (t : AvlTree cap K V) (s : Side) (i : Fin cap.size)
    (p : NodeRef cap) : SameEntries t (t.setChild s i p) :=
  .modifyNode t i fun x => by cases s <;> exact ⟨rfl, rfl⟩

theorem SameEntries.setParent (t : AvlTree cap K V) (i : Fin cap.size) (p : NodeRef cap) :
    SameEntries t (t.setParent i p) :=
  .modifyNode t i fun _ => ⟨rfl, rfl⟩

theorem SameEntries.setParent? (t : AvlTree cap K V) (q p : NodeRef cap) :
    SameEntries t (t.setParent? q p) := by
  cases q with
  | none => exact .refl t
  | some i => exact .setParent t i p

theorem SameEntries.updateHeight (t : AvlTree cap K V) (i : Fin cap.size) :
    SameEntries t (t.updateHeight i) :=
  .modifyNode t i fun _ => ⟨rfl, rfl⟩

/-- What `relink` does below the parent that the path names. -/
def relinkPath (t : AvlTree cap K V) (path : List (Frame (Fin cap.size))) (new : NodeRef cap) :
    AvlTree cap K V :=
  match path with
  | [] => { t with root := new }
  | f :: _ => t.setChild f.side f.value new

variable {path : List (Frame (Fin cap.size))}

theorem relink_eq {old : Fin cap.size} (hparent : (t.links old).parent = pathParent path)
    (hpath : ∀ f ∈ path.head?, (t.links f.value).child f.side = some old ∧
      (t.links f.value).child f.side.other ≠ some old) (new : NodeRef cap) :
    t.relink old new = t.relinkPath path new := by
  have hparent' : (t.node old).parent = pathParent path := hparent
  unfold relink relinkPath
  rw [hparent']
  cases path with
  | nil => rfl
  | cons f path =>
    obtain ⟨hside, hother⟩ := hpath f rfl
    obtain ⟨side, a, sibling⟩ := f
    cases side with
    | left =>
      have hleft : (t.node a).left = some old := hside
      exact if_pos hleft
    | right =>
      have hleft : (t.node a).left ≠ some old := hother
      exact if_neg hleft

variable {u : BinaryTree (Fin cap.size)}

theorem links_parent {root : NodeRef cap}
    {old : Fin cap.size} (h : LinkedPath t.links root (some old) path) (hd : Distinct path u)
    (hold : u.root? = some old) : ∀ f ∈ path.head?, (t.links f.value).child f.side =
    some old ∧ (t.links f.value).child f.side.other ≠ some old := by
  cases path with
  | nil =>
    intro f hf
    cases hf
  | cons f path =>
    rintro g ⟨⟩
    obtain ⟨hf, -, -⟩ := h
    rw [hf, Links.child_join, Links.child_other_join]
    refine ⟨rfl, fun hs => ?_⟩
    refine hd.disjoint (mem_of_root? hold) ?_
    simp [pathValues, mem_of_root? hs]

variable {i : Fin cap.size}

theorem parent_eq (h : LinkedAt t.links t.root path u) (hi : u.root? = some i) :
    (t.node i).parent = pathParent path := by
  cases u with
  | nil => cases hi
  | node a l r =>
    cases hi
    exact congrArg Links.parent h.tree.1

variable {j : Fin cap.size}

theorem node_relinkPath_ne (h : pathParent path ≠ some j) (new : NodeRef cap) :
    (t.relinkPath path new).node j = t.node j := by
  cases path with
  | nil => rfl
  | cons f path =>
    have hjf : j ≠ f.value := by
      rintro rfl
      exact h rfl
    exact t.node_modifyNode_ne _ hjf

theorem links_relinkPath_ne (h : pathParent path ≠ some j) (new : NodeRef cap) :
    (t.relinkPath path new).links j = t.links j := by
  rw [links, links, node_relinkPath_ne h]

theorem SameEntries.relinkPath (t : AvlTree cap K V) (path : List (Frame (Fin cap.size)))
    (new : NodeRef cap) : SameEntries t (t.relinkPath path new) := by
  cases path with
  | nil => exact ⟨rfl, rfl, fun _ => rfl, fun _ => rfl⟩
  | cons f path => exact .setChild t f.side f.value new

/-- The stored heights are those of the tree. -/
def Stored (t : AvlTree cap K V) : BinaryTree (Fin cap.size) → Prop
  | .nil => True
  | .node i l r => (t.node i).height.toNat = max l.height r.height + 1 ∧ t.Stored l ∧ t.Stored r

theorem stored_join {s : Side} {x y : BinaryTree (Fin cap.size)} : t.Stored (join s i x y) ↔
    (t.node i).height.toNat = max x.height y.height + 1 ∧ t.Stored x ∧ t.Stored y := by
  cases s with
  | left => exact Iff.rfl
  | right =>
    simp only [join, Stored, Nat.max_comm y.height]
    tauto

theorem Stored.congr (h : t.Stored u)
    (hsame : ∀ i ∈ u.inorder, (t'.node i).height = (t.node i).height) : t'.Stored u := by
  induction u with
  | nil => trivial
  | node i l r ihl ihr =>
    obtain ⟨hi, hl, hr⟩ := h
    refine ⟨?_, ihl hl fun j hj => hsame j (by simp [hj]), ihr hr fun j hj => hsame j (by simp [hj])⟩
    rw [hsame i (by simp), hi]

theorem Stored.height_root (h : t.Stored u) : (t.height u.root?).toNat = u.height := by
  cases u with
  | nil => rfl
  | node i l r => exact h.1

/-- The stored heights of the subtrees beside a path. -/
def StoredPath (t : AvlTree cap K V) (path : List (Frame (Fin cap.size))) : Prop :=
  ∀ f ∈ path, t.Stored f.sibling

theorem Stored.of_plug (h : t.Stored (plug path u)) : t.Stored u ∧ t.StoredPath path := by
  induction path generalizing u with
  | nil => exact ⟨h, by simp [StoredPath]⟩
  | cons f path ih =>
    obtain ⟨hj, hp⟩ := ih h
    obtain ⟨-, hu, hs⟩ := stored_join.mp hj
    refine ⟨hu, fun g hg => ?_⟩
    rcases List.mem_cons.mp hg with rfl | hg
    · exact hs
    · exact hp g hg

theorem height_modifyNode (t : AvlTree cap K V) (hf : ∀ x, (f x).height = x.height)
    (j : Fin cap.size) : ((t.modifyNode i f).node j).height = (t.node j).height := by
  by_cases h : j = i
  · subst h
    rw [node_modifyNode_self, hf]
  · rw [node_modifyNode_ne t f h]

@[simp] theorem height_setChild (t : AvlTree cap K V) (s : Side) (i j : Fin cap.size)
    (p : NodeRef cap) : ((t.setChild s i p).node j).height = (t.node j).height :=
  t.height_modifyNode (fun x => by cases s <;> rfl) j

@[simp] theorem height_setParent (t : AvlTree cap K V) (i j : Fin cap.size) (p : NodeRef cap) :
    ((t.setParent i p).node j).height = (t.node j).height := by
  unfold setParent
  apply height_modifyNode
  intro x
  rfl

@[simp] theorem height_setParent? (t : AvlTree cap K V) (q p : NodeRef cap) (j : Fin cap.size) :
    ((t.setParent? q p).node j).height = (t.node j).height := by
  cases q with
  | none => rfl
  | some i => exact t.height_setParent i j p

@[simp] theorem height_relinkPath (t : AvlTree cap K V) (path : List (Frame (Fin cap.size)))
    (new : NodeRef cap) (j : Fin cap.size) :
    ((t.relinkPath path new).node j).height = (t.node j).height := by
  cases path with
  | nil => rfl
  | cons f path => exact t.height_setChild f.side f.value j new

theorem height_updateHeight_ne (t : AvlTree cap K V) (h : j ≠ i) :
    ((t.updateHeight i).node j).height = (t.node j).height := by
  simp [updateHeight, setHeight, h]

theorem height_updateHeight {s : Side} {x y : BinaryTree (Fin cap.size)} {parent : NodeRef cap}
    (hi : t.links i = Links.join s x.root? y.root? parent) (hx : t.Stored x) (hy : t.Stored y)
    (hlt : max x.height y.height < 255) :
    ((t.updateHeight i).node i).height.toNat = max x.height y.height + 1 := by
  have hmax (a b : UInt8) (h : max a.toNat b.toNat < 255) :
      ((if a > b then a else b) + 1).toNat = max a.toNat b.toNat + 1 := by
    split
    next hab =>
      have hab : b.toNat < a.toNat := UInt8.lt_iff_toNat_lt.mp hab
      rw [UInt8.toNat_add]
      simp only [UInt8.reduceToNat]
      omega
    next hab =>
      have hab : a.toNat ≤ b.toNat := by
        rw [← UInt8.le_iff_toNat_le]
        exact UInt8.not_lt.mp hab
      rw [UInt8.toNat_add]
      simp only [UInt8.reduceToNat]
      omega
  have hnode : ((t.updateHeight i).node i).height =
      (if t.height (t.node i).left > t.height (t.node i).right then t.height (t.node i).left
        else t.height (t.node i).right) + 1 := by
    simp [updateHeight, setHeight]
  rw [hnode]
  have hxh := hx.height_root
  have hyh := hy.height_root
  cases s with
  | left =>
    have hl : (t.node i).left = x.root? := congrArg Links.left hi
    have hr : (t.node i).right = y.root? := congrArg Links.right hi
    rw [hl, hr, hmax _ _ (by rw [hxh, hyh]; exact hlt), hxh, hyh]
  | right =>
    have hl : (t.node i).left = y.root? := congrArg Links.left hi
    have hr : (t.node i).right = x.root? := congrArg Links.right hi
    rw [hl, hr, hmax _ _ (by rw [hxh, hyh]; omega), hxh, hyh, Nat.max_comm]

theorem updateHeight_same {s : Side} {x y : BinaryTree (Fin cap.size)} {parent : NodeRef cap}
    (hi : t.links i = Links.join s x.root? y.root? parent) (h : t.Stored (join s i x y)) :
    t.updateHeight i = t := by
  obtain ⟨hh, hx, hy⟩ := stored_join.mp h
  have hlt : max x.height y.height < 255 := by
    have := (t.node i).height.toNat_lt
    omega
  have hnew := height_updateHeight hi hx hy hlt
  have hsame : ((t.updateHeight i).node i).height = (t.node i).height :=
    UInt8.toNat.inj (hnew.trans hh.symm)
  have hnodes : (t.updateHeight i).nodes = t.nodes := by
    apply Table.ext_get
    intro j
    by_cases hj : j = i
    · subst hj
      have hset : (t.updateHeight j).node j =
          { t.node j with height := ((t.updateHeight j).node j).height } := by
        simp [updateHeight, setHeight]
      rw [hsame] at hset
      exact hset
    · exact t.node_modifyNode_ne _ hj
  show ({ t with nodes := (t.updateHeight i).nodes } : AvlTree cap K V) = t
  rw [hnodes]

end Castle.Container.AvlTree

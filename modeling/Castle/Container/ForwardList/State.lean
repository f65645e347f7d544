import Castle.Status
import Castle.Container.Parameters
import Castle.Lib.Table

/-!
# The forward list (`forward_list.hpp`)

The node pool is a table; a `next` member is a null pointer or points to a node of the pool,
a `node_base*` may also point to `before_`. A function that reads or destroys a value that
is not there, or loops longer than the pool has nodes, has no result.
-/

namespace Castle.Container

/-- `node_base`: the sentinel `before_` or the base of a pool node. -/
inductive NodeBase (cap : Capacity) where
  | before
  | node (i : Fin cap.size)
  deriving DecidableEq

structure ForwardList.Node (cap : Capacity) (T : Type) where
  next : Option (Fin cap.size) := none
  /-- what lives in `value_storage` -/
  value : Option T := none

structure ForwardList (cap : Capacity) (T : Type) where
  nodes : Table cap.size (ForwardList.Node cap T)
  head : Option (Fin cap.size) := none
  size : ℕ := 0
  freeHead : Option (Fin cap.size) := none
  /-- `before_.next` -/
  before : Option (Fin cap.size) := none

namespace ForwardList

variable {cap : Capacity} {T : Type} (s : ForwardList cap T)

def node (i : Fin cap.size) : Node cap T := s.nodes.get i

def modifyNode (i : Fin cap.size) (f : Node cap T → Node cap T) : ForwardList cap T :=
  { s with nodes := s.nodes.modify i f }

/-- `p->next` -/
def next : NodeBase cap → Option (Fin cap.size)
  | .before => s.before
  | .node i => (s.node i).next

/-- `p->next = n;` -/
def setNext (p : NodeBase cap) (n : Option (Fin cap.size)) : ForwardList cap T :=
  match p with
  | .before => { s with before := n }
  | .node i => s.modifyNode i fun x => { x with next := n }

def full : Bool := s.size = cap.size

def allocateNode : Option (Fin cap.size) × ForwardList cap T :=
  match s.freeHead with
  | none => (none, s)
  | some result =>
    let s' := { s with freeHead := (s.node result).next }
    (some result, s'.setNext (.node result) none)

def releaseNode (item : Fin cap.size) : Option (ForwardList cap T) := do
  let _ ← (s.node item).value
  let s' := s.modifyNode item fun _ => { next := s.freeHead, value := none }
  some { s' with freeHead := some item, size := if s.size > 0 then s.size - 1 else s.size }

/-- The body of the loop of `initialise_pool`. -/
def initialiseNode (s : ForwardList cap T) (i : Fin cap.size) : ForwardList cap T :=
  { s.setNext (.node i) s.freeHead with freeHead := some i }

def initialisePool : ForwardList cap T :=
  let s' := (List.finRange cap.size).reverse.foldl initialiseNode { s with freeHead := none }
  { s' with before := none, head := none }

def init : ForwardList cap T := initialisePool { nodes := .replicate _ {} }

/-- `value` is the object that `T`'s constructor makes of the arguments. -/
def emplaceAfter (position : Option (NodeBase cap)) (value : T) : Status × ForwardList cap T :=
  match position with
  | none => (.outOfRange, s)
  | some p =>
    match s.allocateNode with
    | (none, s) => (.full, s)
    | (some item, s) =>
      let s := s.modifyNode item fun x => { x with value := some value }
      let s := s.setNext (.node item) (s.next p)
      let s := s.setNext p (some item)
      let s := if p = .before then { s with head := some item } else s
      (.ok, { s with size := s.size + 1 })

def pushFront (value : T) : Status × ForwardList cap T := s.emplaceAfter (some .before) value

def popFront : Option (Status × ForwardList cap T) :=
  match s.head with
  | none => some (.empty, s)
  | some item => do
    let s := { s with head := (s.node item).next }
    let s := s.setNext .before s.head
    let s ← s.releaseNode item
    some (.ok, s)

/-- The iterator that is returned points to a node or is `end()`. -/
def eraseAfter (position : Option (NodeBase cap)) :
    Option (Option (Fin cap.size) × ForwardList cap T) :=
  match position with
  | none => some (none, s)
  | some p =>
    match s.next p with
    | none => some (none, s)
    | some victim => do
      let s := s.setNext p (s.node victim).next
      let s := if some victim = s.head then { s with head := (s.node victim).next } else s
      let result := (s.node victim).next
      let s ← s.releaseNode victim
      some (result, s)

def removeLoop [BEq T] (value : T) : ℕ → NodeBase cap → Option (Fin cap.size) →
    ForwardList cap T → Option (ForwardList cap T)
  | _, _, none, s => some s
  | 0, _, some _, _ => none
  | fuel + 1, previous, some item, s => do
    let stored ← (s.node item).value
    if stored == value then
      let current := (s.node item).next
      let s := s.setNext previous current
      let s := if some item = s.head then { s with head := current } else s
      let s ← s.releaseNode item
      removeLoop value fuel previous current s
    else removeLoop value fuel (.node item) (s.node item).next s

/-- `value` is not one of the stored elements but an object of its own. -/
def remove [BEq T] (value : T) : Option (Status × ForwardList cap T) := do
  let s ← removeLoop value cap.size .before s.before s
  some (.ok, s)

/-- The loop of `reverse`, which returns `previous`. -/
def reverseLoop : ℕ → Option (Fin cap.size) → Option (Fin cap.size) → ForwardList cap T →
    Option (Option (Fin cap.size) × ForwardList cap T)
  | _, previous, none, s => some (previous, s)
  | 0, _, some _, _ => none
  | fuel + 1, previous, some current, s =>
    let next := (s.node current).next
    reverseLoop fuel (some current) next (s.setNext (.node current) previous)

def reverse : Option (ForwardList cap T) := do
  let (previous, s) ← reverseLoop cap.size none s.head s
  let s := { s with head := previous }
  some (s.setNext .before s.head)

def clearLoop : ℕ → Option (Fin cap.size) → ForwardList cap T → Option (ForwardList cap T)
  | _, none, s => some s
  | 0, some _, _ => none
  | fuel + 1, some item, s => do
    let current := (s.node item).next
    let s ← s.releaseNode item
    clearLoop fuel current s

def clear : Option (ForwardList cap T) := do
  let s ← clearLoop cap.size s.head s
  let s := { s with head := none }
  some (s.setNext .before none)

/-- `for (it = begin(); it != end(); ++it) { … *it … }`: the nodes and what they hold. -/
def entriesFrom : ℕ → Option (Fin cap.size) → Option (List (Fin cap.size × T))
  | _, none => some []
  | 0, some _ => none
  | fuel + 1, some i => do
    let value ← (s.node i).value
    let rest ← entriesFrom fuel (s.node i).next
    some ((i, value) :: rest)

def entries : Option (List (Fin cap.size × T)) := s.entriesFrom cap.size s.head

def freeFrom : ℕ → Option (Fin cap.size) → Option (List (Fin cap.size))
  | _, none => some []
  | 0, some _ => none
  | fuel + 1, some i => do
    let rest ← freeFrom fuel (s.node i).next
    some (i :: rest)

def freeNodes : Option (List (Fin cap.size)) := s.freeFrom cap.size s.freeHead

end ForwardList
end Castle.Container

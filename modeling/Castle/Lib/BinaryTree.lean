import Mathlib.Algebra.Ring.Nat
import Mathlib.Data.List.Perm.Basic
import Mathlib.Data.Tree.Basic

/-!
# Balanced binary trees

Mathlib's binary trees with what a search tree needs: in-order sequences, paths from a subtree up to
the root, and rebalancing along such a path.
-/

namespace Castle

inductive Side where
  | left | right
  deriving DecidableEq

def Side.other : Side → Side
  | .left => .right
  | .right => .left

@[simp] theorem Side.other_other (s : Side) : s.other.other = s := by cases s <;> rfl

@[simp] theorem Side.other_ne (s : Side) : s.other ≠ s := by cases s <;> decide

@[simp] theorem Side.ne_other (s : Side) : s ≠ s.other := by cases s <;> decide

end Castle

namespace BinaryTree

open Castle

variable {α : Type}

def inorder : BinaryTree α → List α
  | nil => []
  | node a l r => l.inorder ++ a :: r.inorder

@[simp] theorem inorder_nil : (nil : BinaryTree α).inorder = [] := rfl

@[simp] theorem inorder_node (a : α) (l r : BinaryTree α) :
    (node a l r).inorder = l.inorder ++ a :: r.inorder := rfl

theorem length_inorder (t : BinaryTree α) : t.inorder.length = t.numNodes := by
  induction t with
  | nil => rfl
  | node a l r ihl ihr =>
    simp only [inorder_node, List.length_append, List.length_cons, ihl, ihr, numNodes]
    omega

def root? : BinaryTree α → Option α
  | nil => none
  | node a _ _ => some a

@[simp] theorem root?_nil : (nil : BinaryTree α).root? = none := rfl

@[simp] theorem root?_node (a : α) (l r : BinaryTree α) : (node a l r).root? = some a := rfl

variable {t : BinaryTree α}

@[simp] theorem root?_eq_none : t.root? = none ↔ t = nil := by
  cases t <;> simp

theorem mem_of_root? {a : α} (h : t.root? = some a) : a ∈ t.inorder := by
  cases t with
  | nil => cases h
  | node b l r =>
    cases h
    simp

def child (s : Side) (t : BinaryTree α) : BinaryTree α :=
  match s with
  | .left => t.left
  | .right => t.right

/-- The node `a` with `near` on side `s` and `far` on the other. -/
def join (s : Side) (a : α) (near far : BinaryTree α) : BinaryTree α :=
  match s with
  | .left => node a near far
  | .right => node a far near

variable (s : Side)

theorem join_other (a : α) (x y : BinaryTree α) : join s.other a x y = join s a y x := by
  cases s <;> rfl

theorem exists_join (h : t ≠ nil) : ∃ a near far, t = join s a near far := by
  cases t with
  | nil => exact absurd rfl h
  | node a l r =>
    cases s with
    | left => exact ⟨a, l, r, rfl⟩
    | right => exact ⟨a, r, l, rfl⟩

section join

variable (s : Side) (a : α) (x y : BinaryTree α)

@[simp] theorem child_join : (join s a x y).child s = x := by cases s <;> rfl

@[simp] theorem child_other_join : (join s a x y).child s.other = y := by cases s <;> rfl

@[simp] theorem root?_join : (join s a x y).root? = some a := by cases s <;> rfl

@[simp] theorem join_ne_nil : join s a x y ≠ nil := by cases s <;> simp [join]

@[simp] theorem height_join : (join s a x y).height = max x.height y.height + 1 := by
  cases s with
  | left => rfl
  | right => exact congrArg (· + 1) (Nat.max_comm y.height x.height)

@[simp] theorem numNodes_join : (join s a x y).numNodes = x.numNodes + y.numNodes + 1 := by
  cases s with
  | left => rfl
  | right => exact congrArg (· + 1) (Nat.add_comm y.numNodes x.numNodes)

theorem inorder_join_perm : (join s a x y).inorder.Perm (a :: (x.inorder ++ y.inorder)) := by
  cases s with
  | left => exact List.perm_middle
  | right => exact List.perm_middle.trans (List.perm_append_comm.cons a)

end join

/-- The heights of the two subtrees of every node differ by at most one. -/
def Balanced : BinaryTree α → Prop
  | nil => True
  | node _ l r => (l.height ≤ r.height + 1 ∧ r.height ≤ l.height + 1) ∧ l.Balanced ∧ r.Balanced

@[simp] theorem balanced_nil : (nil : BinaryTree α).Balanced := trivial

@[simp] theorem balanced_join {s : Side} {a : α} {x y : BinaryTree α} : (join s a x y).Balanced ↔
    (x.height ≤ y.height + 1 ∧ y.height ≤ x.height + 1) ∧ x.Balanced ∧ y.Balanced := by
  cases s with
  | left => exact Iff.rfl
  | right =>
    simp only [join, Balanced]
    constructor
    · rintro ⟨⟨h₁, h₂⟩, hy, hx⟩
      exact ⟨⟨h₂, h₁⟩, hx, hy⟩
    · rintro ⟨⟨h₁, h₂⟩, hx, hy⟩
      exact ⟨⟨h₂, h₁⟩, hy, hx⟩

theorem Balanced.two_pow_le (h : t.Balanced) : 2 ^ (t.height / 2) ≤ t.numNodes + 1 := by
  induction t with
  | nil => simp
  | node a l r ihl ihr =>
    obtain ⟨⟨hl, hr⟩, hbl, hbr⟩ := h
    have hmin (x : BinaryTree α) (hx : (max l.height r.height + 1) / 2 ≤ x.height / 2 + 1)
        (ih : 2 ^ (x.height / 2) ≤ x.numNodes + 1) :
        2 ^ ((max l.height r.height + 1) / 2) ≤ 2 * (x.numNodes + 1) :=
      calc 2 ^ ((max l.height r.height + 1) / 2)
          ≤ 2 ^ (x.height / 2 + 1) := Nat.pow_le_pow_right (by omega) hx
        _ = 2 * 2 ^ (x.height / 2) := by rw [Nat.pow_succ, Nat.mul_comm]
        _ ≤ 2 * (x.numNodes + 1) := Nat.mul_le_mul_left 2 ih
    have h₁ := hmin l (by omega) (ihl hbl)
    have h₂ := hmin r (by omega) (ihr hbr)
    simp only [height, numNodes]
    omega

theorem Balanced.height_lt (h : t.Balanced) {n : ℕ} (hn : t.numNodes + 1 < 2 ^ n) :
    t.height < 2 * n := by
  have hlt : 2 ^ (t.height / 2) < 2 ^ n := Nat.lt_of_le_of_lt h.two_pow_le hn
  have := (Nat.pow_lt_pow_iff_right (by omega)).mp hlt
  omega

/-- Turn the root towards side `s`: its other child comes up. -/
def rotate : Side → BinaryTree α → BinaryTree α
  | .left, node a x (node b y z) => node b (node a x y) z
  | .right, node a (node b z y) x => node b z (node a y x)
  | _, t => t

@[simp] theorem rotate_join (a b : α) (x y z : BinaryTree α) :
    rotate s (join s a x (join s b y z)) = join s b (join s a x y) z := by
  cases s <;> rfl

@[simp] theorem inorder_rotate (t : BinaryTree α) : (rotate s t).inorder = t.inorder := by
  unfold rotate
  split
  · simp
  · simp
  · rfl

/-- Turn a subtree on side `s` towards `s` when its other child is the higher one. -/
def straighten (s : Side) (t : BinaryTree α) : BinaryTree α :=
  if (t.child s).height < (t.child s.other).height then rotate s t else t

/-- The subtree `high` on side `s` is too high: its root comes up, or that of its inner
child. -/
def lift (s : Side) (a : α) (high low : BinaryTree α) : BinaryTree α :=
  rotate s.other (join s a (straighten s high) low)

/-- One step of rebalancing. -/
def mend : BinaryTree α → BinaryTree α
  | nil => nil
  | node a l r =>
    if r.height + 1 < l.height then lift .left a l r
    else if l.height + 1 < r.height then lift .right a r l
    else node a l r

theorem inorder_lift (a : α) (high low : BinaryTree α) :
    (lift s a high low).inorder = (join s a high low).inorder := by
  have hs : (straighten s high).inorder = high.inorder := by
    unfold straighten
    split
    · exact inorder_rotate s high
    · rfl
  unfold lift
  rw [inorder_rotate]
  cases s <;> simp [join, hs]

@[simp] theorem inorder_mend (t : BinaryTree α) : (mend t).inorder = t.inorder := by
  unfold mend
  split
  · rfl
  split
  · exact inorder_lift .left _ _ _
  split
  · exact inorder_lift .right _ _ _
  · rfl

theorem lift_single (a b : α) {outer inner low : BinaryTree α} (h : inner.height ≤ outer.height) :
    lift s a (join s b outer inner) low = join s b outer (join s a inner low) := by
  have hstraight : straighten s (join s b outer inner) = join s b outer inner := by
    unfold straighten
    rw [child_join, child_other_join, if_neg (by omega)]
  unfold lift
  rw [hstraight, ← join_other s a, ← join_other s b, rotate_join, join_other, join_other]

theorem lift_double (a b g : α) {outer x y low : BinaryTree α}
    (h : outer.height < (join s g x y).height) : lift s a (join s b outer (join s g x y)) low =
    join s g (join s b outer x) (join s a y low) := by
  have hstraight : straighten s (join s b outer (join s g x y)) =
      join s g (join s b outer x) y := by
    unfold straighten
    rw [child_join, child_other_join, if_pos h, rotate_join]
  unfold lift
  rw [hstraight, ← join_other s a, ← join_other s g, rotate_join, join_other, join_other]

/-- Lifting a subtree that is higher by two balances the node, whose height stays or
grows by one less. -/
theorem balanced_lift {s : Side} {a : α} {high low : BinaryTree α} (hh : high.Balanced)
    (hl : low.Balanced) (h : high.height = low.height + 2) : (lift s a high low).Balanced ∧
    high.height ≤ (lift s a high low).height ∧ (lift s a high low).height ≤ high.height + 1 := by
  have hne : high ≠ nil := by
    rintro rfl
    simp at h
  obtain ⟨b, outer, inner, rfl⟩ := exists_join s hne
  obtain ⟨⟨h₁, h₂⟩, ho, hi⟩ := balanced_join.mp hh
  rw [height_join] at h
  by_cases hin : inner.height ≤ outer.height
  · rw [lift_single s a b hin]
    simp only [balanced_join, height_join]
    refine ⟨⟨⟨by omega, by omega⟩, ho, ⟨by omega, by omega⟩, hi, hl⟩, by omega, by omega⟩
  · have hne' : inner ≠ nil := by
      rintro rfl
      simp at hin
    obtain ⟨g, x, y, rfl⟩ := exists_join s hne'
    obtain ⟨⟨h₃, h₄⟩, hx, hy⟩ := balanced_join.mp hi
    rw [height_join] at h h₁ h₂ hin
    rw [lift_double s a b g (by rw [height_join]; omega)]
    simp only [balanced_join, height_join]
    refine ⟨⟨⟨by omega, by omega⟩, ⟨⟨by omega, by omega⟩, ho, hx⟩, ⟨by omega, by omega⟩, hy, hl⟩,
      by omega, by omega⟩

/-- A step of rebalancing repairs a node one of whose subtrees has grown or shrunk by
one, and changes its height by at most one. -/
theorem balanced_mend
    {s : Side} {a : α} {x y : BinaryTree α} {h : ℕ} (hx : x.Balanced) (hy : y.Balanced)
    (hold : h ≤ y.height + 1 ∧ y.height ≤ h + 1) (hnew : x.height ≤ h + 1 ∧ h ≤ x.height + 1) :
    (mend (join s a x y)).Balanced ∧ (mend (join s a x y)).height ≤
    max h y.height + 1 + 1 ∧ max h y.height + 1 ≤ (mend (join s a x y)).height + 1 := by
  have hmend : mend (join s a x y) = if y.height + 1 < x.height then lift s a x y else if x.height +
      1 < y.height then lift s.other a y x else join s a x y := by
    cases s with
    | left => rfl
    | right =>
      simp only [join, mend, Side.other]
      split_ifs
      · omega
      · rfl
      · rfl
      · rfl
  rw [hmend]
  split
  · obtain ⟨hb, h₁, h₂⟩ := balanced_lift (s := s) (a := a) hx hy (by omega)
    exact ⟨hb, by omega, by omega⟩
  split
  · obtain ⟨hb, h₁, h₂⟩ := balanced_lift (s := s.other) (a := a) hy hx (by omega)
    exact ⟨hb, by omega, by omega⟩
  · rw [balanced_join, height_join]
    exact ⟨⟨⟨by omega, by omega⟩, hx, hy⟩, by omega, by omega⟩

/-- A node on the path from a subtree to the root: the side the path came from, the
node and its other subtree. -/
structure Frame (α : Type) where
  side : Side
  value : α
  sibling : BinaryTree α

/-- The tree around the end of a path; the list starts at the end. -/
def plug : List (Frame α) → BinaryTree α → BinaryTree α
  | [], t => t
  | f :: path, t => plug path (join f.side f.value t f.sibling)

/-- What stands on side `s` of the end of a path, in order. -/
def beside (s : Side) : List (Frame α) → List α
  | [] => []
  | f :: path =>
    if f.side = s then beside s path
    else
      match s with
      | .left => beside s path ++ (f.sibling.inorder ++ [f.value])
      | .right => f.value :: f.sibling.inorder ++ beside s path

theorem inorder_plug (path : List (Frame α)) (t : BinaryTree α) :
    (plug path t).inorder = beside .left path ++ (t.inorder ++ beside .right path) := by
  induction path generalizing t with
  | nil => simp [plug, beside]
  | cons f path ih =>
    obtain ⟨side, a, sibling⟩ := f
    rw [plug, ih]
    cases side <;> simp [beside, join]

theorem plug_append (path path' : List (Frame α)) (t : BinaryTree α) :
    plug (path ++ path') t = plug path' (plug path t) := by
  induction path generalizing t with
  | nil => rfl
  | cons f path ih => exact ih _

variable {path : List (Frame α)}

theorem beside_same {s : Side} (h : ∀ f ∈ path, f.side = s) : beside s path = [] := by
  induction path with
  | nil => rfl
  | cons f path ih =>
    have hf : f.side = s := h f (by simp)
    simp only [beside, if_pos hf]
    exact ih fun g hg => h g (by simp [hg])

/-- Everything on a path and beside it. -/
def pathValues : List (Frame α) → List α
  | [] => []
  | f :: path => f.value :: (f.sibling.inorder ++ pathValues path)

theorem inorder_plug_perm (path : List (Frame α)) (t : BinaryTree α) :
    (plug path t).inorder.Perm (t.inorder ++ pathValues path) := by
  induction path generalizing t with
  | nil => simp [plug, pathValues]
  | cons f path ih =>
    refine (ih _).trans ?_
    refine ((inorder_join_perm f.side f.value t f.sibling).append_right _).trans ?_
    simp only [pathValues, List.cons_append, List.append_assoc]
    exact List.perm_middle.symm

theorem length_le_pathValues (path : List (Frame α)) : path.length ≤ (pathValues path).length := by
  induction path with
  | nil => simp [pathValues]
  | cons f path ih =>
    simp only [List.length_cons, pathValues, List.length_append]
    omega

theorem sibling_subset {f : Frame α} (hf : f ∈ path) {a : α} (ha : a ∈ f.sibling.inorder) :
    a ∈ pathValues path := by
  induction path with
  | nil => cases hf
  | cons g path ih =>
    rcases List.mem_cons.mp hf with rfl | hf
    · simp [pathValues, ha]
    · simp [pathValues, ih hf]

theorem exists_plug {a : α} (h : a ∈ t.inorder) : ∃ path l r, t = plug path (node a l r) := by
  suffices hgen : ∀ path, ∃ path' l r, plug path t = plug path' (node a l r) from hgen []
  induction t with
  | nil => cases h
  | node b l r ihl ihr =>
    intro path
    rcases List.mem_append.mp h with h | h
    · exact ihl h (⟨.left, b, r⟩ :: path)
    rcases List.mem_cons.mp h with rfl | h
    · exact ⟨path, l, r, rfl⟩
    · exact ihr h (⟨.right, b, l⟩ :: path)

/-- A subtree of height `h` at the end of the path keeps the tree balanced. -/
def Fits : ℕ → List (Frame α) → Prop
  | _, [] => True
  | h, f :: path =>
    (h ≤ f.sibling.height + 1 ∧ f.sibling.height ≤ h + 1) ∧ f.sibling.Balanced ∧
      Fits (max h f.sibling.height + 1) path

theorem fits_value {path' : List (Frame α)} {s : Side} {a b : α} {x : BinaryTree α} {h : ℕ}
    (hf : Fits h (path ++ ⟨s, a, x⟩ :: path')) : Fits h (path ++ ⟨s, b, x⟩ :: path') := by
  induction path generalizing h with
  | nil => exact hf
  | cons f path ih => exact ⟨hf.1, hf.2.1, ih hf.2.2⟩

theorem balanced_plug : (plug path t).Balanced ↔ t.Balanced ∧ Fits t.height path := by
  induction path generalizing t with
  | nil => simp [plug, Fits]
  | cons f path ih =>
    rw [plug, ih, balanced_join, height_join, Fits]
    tauto

/-- Rebalance from the end of a path up to the root. -/
def climb : List (Frame α) → BinaryTree α → BinaryTree α
  | [], t => t
  | f :: path, t => climb path (mend (join f.side f.value t f.sibling))

@[simp] theorem inorder_climb (path : List (Frame α)) (t : BinaryTree α) :
    (climb path t).inorder = (plug path t).inorder := by
  induction path generalizing t with
  | nil => rfl
  | cons f path ih => rw [climb, ih, plug, inorder_plug, inorder_plug, inorder_mend]

/-- Replacing a subtree by one whose height differs by at most one and climbing up
gives a balanced tree. -/
theorem balanced_climb {h : ℕ} (ht : t.Balanced) (hp : Fits h path)
    (hh : t.height ≤ h + 1 ∧ h ≤ t.height + 1) : (climb path t).Balanced := by
  induction path generalizing t h with
  | nil => exact ht
  | cons f path ih =>
    obtain ⟨hold, hsib, hp⟩ := hp
    obtain ⟨hb, hup, hdown⟩ := balanced_mend (s := f.side) (a := f.value) ht hsib hold hh
    exact ih hb hp ⟨hup, hdown⟩

/-- Follow the directions of `dir` down to a node without one, or out of the tree. -/
def locate (dir : α → Option Side) :
    List (Frame α) → BinaryTree α → List (Frame α) × BinaryTree α
  | path, nil => (path, nil)
  | path, node a l r =>
    match dir a with
    | none => (path, node a l r)
    | some .left => locate dir (⟨.left, a, r⟩ :: path) l
    | some .right => locate dir (⟨.right, a, l⟩ :: path) r

variable {dir : α → Option Side}

theorem plug_locate (path : List (Frame α)) (t : BinaryTree α) :
    plug (locate dir path t).1 (locate dir path t).2 = plug path t := by
  induction t generalizing path with
  | nil => rfl
  | node a l r ihl ihr =>
    unfold locate
    split
    · rfl
    · exact ihl _
    · exact ihr _

theorem dir_locate {path' : List (Frame α)} {a : α} {l r : BinaryTree α}
    (h : locate dir path t = (path', node a l r)) : dir a = none := by
  induction t generalizing path with
  | nil => cases h
  | node b x y ihx ihy =>
    unfold locate at h
    split at h
    next hb =>
      cases h
      exact hb
    · exact ihx h
    · exact ihy h

/-- Directions that fit an order: what lies before a node to the right of the goal does so
too, and what lies behind a node to the left of it. -/
def Directed (dir : α → Option Side) (l : List α) : Prop :=
  l.Pairwise fun a b =>
    (dir b = some .right → dir a = some .right) ∧ (dir a = some .left → dir b = some .left)

/-- The end of the search lies between the nodes that point right and those that point
left. -/
theorem beside_locate (hd : Directed dir (plug path t).inorder)
    (hl : ∀ a ∈ beside .left path, dir a = some .right)
    (hr : ∀ a ∈ beside .right path, dir a = some .left) :
    (∀ a ∈ beside .left (locate dir path t).1, dir a = some .right) ∧
      ∀ a ∈ beside .right (locate dir path t).1, dir a = some .left := by
  induction t generalizing path with
  | nil => exact ⟨hl, hr⟩
  | node b x y ihx ihy =>
    have hb : Directed dir (x.inorder ++ b :: y.inorder) := by
      rw [inorder_plug] at hd
      exact (List.pairwise_append.mp (List.pairwise_append.mp hd).2.1).1
    obtain ⟨-, hby, hxb⟩ := List.pairwise_append.mp hb
    unfold locate
    split
    · exact ⟨hl, hr⟩
    next hdir =>
      refine ihx hd ?_ ?_
      · simpa [beside] using hl
      · intro a ha
        simp only [beside, reduceCtorEq, if_false, List.cons_append, List.mem_cons,
          List.mem_append] at ha
        rcases ha with rfl | ha | ha
        · exact hdir
        · exact ((List.pairwise_cons.mp hby).1 a ha).2 hdir
        · exact hr a ha
    next hdir =>
      refine ihy hd ?_ ?_
      · intro a ha
        simp only [beside, reduceCtorEq, if_false, List.mem_append, List.mem_cons,
          List.not_mem_nil, or_false] at ha
        rcases ha with ha | ha | rfl
        · exact hl a ha
        · exact (hxb a ha b (by simp)).1 hdir
        · exact hdir
      · simpa [beside] using hr

end BinaryTree

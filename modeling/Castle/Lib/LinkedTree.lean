import Castle.Lib.BinaryTree

/-!
# Trees of linked nodes

A heap of nodes with left, right and parent links holds a binary tree: which heaps
hold which tree, seen from the end of a path, and how a change of a few links changes
the tree.
-/

namespace Castle

/-- The links of a node. -/
@[ext] structure Links (α : Type) where
  left : Option α
  right : Option α
  parent : Option α

namespace Links

variable {α : Type}

def child (s : Side) (l : Links α) : Option α :=
  match s with
  | .left => l.left
  | .right => l.right

def setChild (s : Side) (p : Option α) (l : Links α) : Links α :=
  match s with
  | .left => { l with left := p }
  | .right => { l with right := p }

/-- The links of a node with `near` on side `s` and `far` on the other. -/
def join (s : Side) (near far parent : Option α) : Links α :=
  match s with
  | .left => ⟨near, far, parent⟩
  | .right => ⟨far, near, parent⟩

variable (s : Side) (near far parent p : Option α)

@[simp] theorem child_join : (join s near far parent).child s = near := by cases s <;> rfl

@[simp] theorem child_other_join : (join s near far parent).child s.other = far := by
  cases s <;> rfl

@[simp] theorem parent_join : (join s near far parent).parent = parent := by cases s <;> rfl

@[simp] theorem setChild_join :
    (join s near far parent).setChild s p = join s p far parent := by cases s <;> rfl

end Links
end Castle

namespace BinaryTree

open Castle

variable {α : Type} {heap heap' : α → Links α} {root root' : Option α}

/-- The nodes of a tree point to each other as the tree says, and its root points up
to `parent`. -/
def Linked (heap : α → Links α) : Option α → BinaryTree α → Prop
  | _, nil => True
  | parent, node a l r =>
    heap a = ⟨l.root?, r.root?, parent⟩ ∧ Linked heap (some a) l ∧ Linked heap (some a) r

theorem linked_join {s : Side} {a : α} {x y : BinaryTree α} {parent : Option α} :
    Linked heap parent (join s a x y) ↔ heap a =
    Links.join s x.root? y.root? parent ∧ Linked heap (some a) x ∧ Linked heap (some a) y := by
  cases s with
  | left => exact Iff.rfl
  | right =>
    simp only [join, Linked, Links.join]
    tauto

/-- The node that the end of a path hangs below. -/
def pathParent (path : List (Frame α)) : Option α := path.head?.map Frame.value

@[simp] theorem pathParent_nil : pathParent ([] : List (Frame α)) = none := rfl

@[simp] theorem pathParent_cons (f : Frame α) (path : List (Frame α)) :
    pathParent (f :: path) = some f.value := rfl

variable {path : List (Frame α)}

theorem pathParent_mem {a : α} (h : pathParent path = some a) : a ∈ pathValues path := by
  cases path with
  | nil => cases h
  | cons f path =>
    cases h
    simp [pathValues]

/-- The nodes along a path point to each other; at its end stands `hole`. -/
def LinkedPath (heap : α → Links α) (root : Option α) : Option α → List (Frame α) → Prop
  | hole, [] => root = hole
  | hole, f :: path =>
    heap f.value = Links.join f.side hole f.sibling.root? (pathParent path) ∧
      Linked heap (some f.value) f.sibling ∧ LinkedPath heap root (some f.value) path

/-- The heap holds the tree `plug path t`. -/
structure LinkedAt (heap : α → Links α) (root : Option α) (path : List (Frame α))
    (t : BinaryTree α) : Prop where
  above : LinkedPath heap root t.root? path
  tree : Linked heap (pathParent path) t

variable {t : BinaryTree α}

theorem linkedAt_cons {f : Frame α} : LinkedAt heap root (f :: path) t ↔
    LinkedAt heap root path (join f.side f.value t f.sibling) := by
  constructor
  · rintro ⟨⟨hf, hs, hp⟩, ht⟩
    refine ⟨?_, linked_join.mpr ⟨hf, ht, hs⟩⟩
    rwa [root?_join]
  · rintro ⟨hp, ht⟩
    obtain ⟨hf, ht, hs⟩ := linked_join.mp ht
    rw [root?_join] at hp
    exact ⟨⟨hf, hs, hp⟩, ht⟩

theorem linkedAt_plug : LinkedAt heap root path t ↔ LinkedAt heap root [] (plug path t) := by
  induction path generalizing t with
  | nil => exact Iff.rfl
  | cons f path ih => rw [linkedAt_cons, ih, plug]

/-- No node occurs twice in `plug path t`. -/
def Distinct (path : List (Frame α)) (t : BinaryTree α) : Prop :=
  (t.inorder ++ pathValues path).Nodup

theorem distinct_iff : Distinct path t ↔ (plug path t).inorder.Nodup :=
  (inorder_plug_perm path t).nodup_iff.symm

theorem distinct_cons {f : Frame α} :
    Distinct (f :: path) t ↔ Distinct path (join f.side f.value t f.sibling) := by
  rw [distinct_iff, distinct_iff, plug]

@[simp] theorem mem_join {s : Side} {a b : α} {x y : BinaryTree α} :
    b ∈ (join s a x y).inorder ↔ b = a ∨ b ∈ x.inorder ∨ b ∈ y.inorder := by
  rw [(inorder_join_perm s a x y).mem_iff, List.mem_cons, List.mem_append]

/-- The nodes of a tree with a named root are apart from each other and from the path. -/
structure Apart (path : List (Frame α)) (a : α) (x y : BinaryTree α) : Prop where
  left : a ∉ x.inorder
  right : a ∉ y.inorder
  above : a ∉ pathValues path
  leftNodup : x.inorder.Nodup
  rightNodup : y.inorder.Nodup
  children : ∀ b ∈ x.inorder, b ∉ y.inorder
  leftAbove : ∀ b ∈ x.inorder, b ∉ pathValues path
  rightAbove : ∀ b ∈ y.inorder, b ∉ pathValues path

theorem Distinct.apart {s : Side} {a : α} {x y : BinaryTree α} (h : Distinct path (join s a x y)) :
    Apart path a x y := by
  have hp : (a :: (x.inorder ++ y.inorder) ++ pathValues path).Nodup :=
    ((inorder_join_perm s a x y).append_right _).nodup_iff.mp h
  simp only [List.cons_append, List.nodup_cons, List.mem_append, not_or, List.nodup_append,
    List.append_assoc] at hp
  obtain ⟨⟨hx, hy, hpath⟩, hxn, ⟨hyn, -, hyp⟩, hxy⟩ := hp
  exact ⟨hx, hy, hpath, hxn, hyn, fun b hb hb' => hxy b hb b (.inl hb') rfl,
    fun b hb hb' => hxy b hb b (.inr hb') rfl, fun b hb hb' => hyp b hb b hb' rfl⟩

theorem Distinct.disjoint (h : Distinct path t) {a : α} (ha : a ∈ t.inorder) :
    a ∉ pathValues path :=
  fun hp => (List.nodup_append.mp h).2.2 a ha a hp rfl

theorem Distinct.parent_notin {f : Frame α} (h : Distinct (f :: path) t) :
    f.value ∉ f.sibling.inorder ∧ f.value ∉ pathValues path := by
  have hn : (f.value :: (f.sibling.inorder ++ pathValues path)).Nodup :=
    (List.nodup_append.mp h).2.1
  simpa using (List.nodup_cons.mp hn).1

theorem Linked.congr {parent : Option α} (h : Linked heap parent t)
    (hsame : ∀ a ∈ t.inorder, heap' a = heap a) : Linked heap' parent t := by
  induction t generalizing parent with
  | nil => trivial
  | node a l r ihl ihr =>
    obtain ⟨ha, hl, hr⟩ := h
    refine ⟨(hsame a (by simp)).trans ha, ihl hl ?_, ihr hr ?_⟩
    · exact fun b hb => hsame b (by simp [hb])
    · exact fun b hb => hsame b (by simp [hb])

theorem Linked.reparent {parent parent' : Option α} (h : Linked heap parent t)
    (hn : t.inorder.Nodup)
    (hroot : ∀ a, t.root? = some a → heap' a = { heap a with parent := parent' })
    (hsame : ∀ a ∈ t.inorder, t.root? ≠ some a → heap' a = heap a) : Linked heap' parent' t := by
  cases t with
  | nil => trivial
  | node a l r =>
    obtain ⟨ha, hl, hr⟩ := h
    have hd : Distinct [] (join .left a l r) := by simpa [Distinct, pathValues, join] using hn
    have hap := hd.apart
    refine ⟨?_, hl.congr fun b hb => hsame b (by simp [hb]) ?_,
      hr.congr fun b hb => hsame b (by simp [hb]) ?_⟩
    · rw [hroot a rfl, ha]
    · rintro ⟨⟩
      exact hap.left hb
    · rintro ⟨⟩
      exact hap.right hb

theorem LinkedPath.congr {hole : Option α} (h : LinkedPath heap root hole path)
    (hsame : ∀ a ∈ pathValues path, heap' a = heap a) : LinkedPath heap' root hole path := by
  induction path generalizing hole with
  | nil => exact h
  | cons f path ih =>
    obtain ⟨hf, hs, hp⟩ := h
    refine ⟨(hsame _ (by simp [pathValues])).trans hf, hs.congr ?_, ih hp ?_⟩
    · exact fun b hb => hsame b (by simp [pathValues, hb])
    · exact fun b hb => hsame b (by simp [pathValues, hb])

/-- The link down to the end of the path now goes to `hole`. -/
def Relinked (heap heap' : α → Links α) (root root' : Option α) (path : List (Frame α))
    (hole : Option α) : Prop :=
  match path with
  | [] => root' = hole
  | f :: _ => root' = root ∧ heap' f.value = (heap f.value).setChild f.side hole

theorem LinkedPath.relink {old hole : Option α} (h : LinkedPath heap root old path)
    (hd : Distinct path t) (hlink : Relinked heap heap' root root' path hole)
    (hsame : ∀ a ∈ pathValues path, pathParent path ≠ some a → heap' a = heap a) :
    LinkedPath heap' root' hole path := by
  cases path with
  | nil => exact hlink
  | cons f path =>
    obtain ⟨hf, hs, hp⟩ := h
    obtain ⟨rfl, hlink⟩ := hlink
    obtain ⟨hfs, hfp⟩ := hd.parent_notin
    refine ⟨?_, hs.congr fun b hb => hsame b (by simp [pathValues, hb]) ?_,
      hp.congr fun b hb => hsame b (by simp [pathValues, hb]) ?_⟩
    · rw [hlink, hf, Links.setChild_join]
    · rintro ⟨⟩
      exact hfs hb
    · rintro ⟨⟩
      exact hfp hb

theorem LinkedAt.rotate {s : Side} {a b : α} {x y z : BinaryTree α}
    (h : LinkedAt heap root path (join s a x (join s b y z)))
    (hd : Distinct path (join s a x (join s b y z)))
    (ha : heap' a = Links.join s x.root? y.root? (some b))
    (hb : heap' b = Links.join s (some a) z.root? (pathParent path))
    (hy : ∀ c, y.root? = some c → heap' c = { heap c with parent := some a })
    (hlink : Relinked heap heap' root root' path (some b))
    (hsame : ∀ c, c ≠ a → c ≠ b → y.root? ≠ some c → pathParent path ≠ some c →
      heap' c = heap c) :
    LinkedAt heap' root' path (BinaryTree.rotate s (join s a x (join s b y z))) := by
  have hap := hd.apart
  have hdb : Distinct (⟨s.other, a, x⟩ :: path) (join s b y z) := by
    rw [distinct_cons]
    simpa only [join_other] using hd
  have hbp := hdb.apart
  obtain ⟨-, hx, hyz⟩ := linked_join.mp h.tree
  obtain ⟨-, hly, hlz⟩ := linked_join.mp hyz
  have hbpath : b ∉ pathValues path := fun hm => hbp.above (by simp [pathValues, hm])
  -- a node of a subtree is none of those that change, unless it is the root of `y`
  have hin {c : α} (hc : c ≠ a) (hc' : c ≠ b) (hroot : y.root? ≠ some c)
      (hpath : c ∉ pathValues path) : heap' c = heap c :=
    hsame c hc hc' hroot fun hp => hpath (pathParent_mem hp)
  have hnotin {t : BinaryTree α} {c e : α} (he : e ∉ t.inorder) (hc : c ∈ t.inorder) : c ≠ e :=
    fun hce => he (hce ▸ hc)
  rw [rotate_join]
  refine ⟨?_, linked_join.mpr ⟨?_, linked_join.mpr ⟨ha, ?_, ?_⟩, ?_⟩⟩
  · rw [root?_join]
    refine h.above.relink hd hlink fun c hc hpar => hsame c ?_ ?_ ?_ hpar
    · exact fun hca => hap.above (hca ▸ hc)
    · exact fun hcb => hbpath (hcb ▸ hc)
    · exact fun hyc => hap.rightAbove c (by simp [mem_of_root? hyc]) hc
  · rw [hb, root?_join]
  · refine hx.congr fun c hc => hin (hnotin hap.left hc) ?_ ?_ (hap.leftAbove c hc)
    · exact fun hcb => hap.children c hc (by simp [hcb])
    · exact fun hyc => hap.children c hc (by simp [mem_of_root? hyc])
  · refine hly.reparent hbp.leftNodup hy fun c hc hroot => hin ?_ (hnotin hbp.left hc) hroot ?_
    · exact fun hca => hap.right (by simp [← hca, hc])
    · exact hap.rightAbove c (by simp [hc])
  · refine hlz.congr fun c hc => hin ?_ (hnotin hbp.right hc) ?_ ?_
    · exact fun hca => hap.right (by simp [← hca, hc])
    · exact fun hyc => hbp.children c (mem_of_root? hyc) hc
    · exact hap.rightAbove c (by simp [hc])

/-- The nodes that a walk from the first node up to the root meets, each with its right subtree. -/
def leftSpine : BinaryTree α → List (α × BinaryTree α)
  | nil => []
  | node a l r => l.leftSpine ++ [(a, r)]

theorem leftSpine_eq_nil : t.leftSpine = [] ↔ t = nil := by
  cases t <;> simp [leftSpine]

/-- All nodes of a spine in order. -/
def spineNodes (spine : List (α × BinaryTree α)) : List α :=
  spine.flatMap fun e => e.1 :: e.2.inorder

theorem spineNodes_cons (a : α) (x : BinaryTree α) (rest : List (α × BinaryTree α)) :
    spineNodes ((a, x) :: rest) = a :: (x.inorder ++ spineNodes rest) := rfl

theorem spineNodes_leftSpine (t : BinaryTree α) : spineNodes t.leftSpine = t.inorder := by
  induction t with
  | nil => rfl
  | node a l r ihl ihr =>
    rw [leftSpine, spineNodes, List.flatMap_append, ← spineNodes, ihl]
    simp

theorem length_le_spineNodes (spine : List (α × BinaryTree α)) :
    spine.length ≤ (spineNodes spine).length := by
  induction spine with
  | nil => exact le_rfl
  | cons e rest ih =>
    rw [spineNodes_cons, List.length_cons, List.length_cons, List.length_append]
    omega

/-- The first node of a spine, or what is above it when it is empty. -/
def spineHead (above : Option α) : List (α × BinaryTree α) → Option α
  | [] => above
  | e :: _ => some e.1

/-- The nodes of a spine point up to each other and to their right subtrees; where they point on
the left is left open. -/
def LinkedSpine (heap : α → Links α) (above : Option α) : List (α × BinaryTree α) → Prop
  | [] => True
  | (a, x) :: rest =>
    (heap a).right = x.root? ∧ (heap a).parent = spineHead above rest ∧ Linked heap (some a) x ∧
      LinkedSpine heap above rest

theorem linkedSpine_append {above : Option α} {spine : List (α × BinaryTree α)} {a : α}
    {x : BinaryTree α} (h : LinkedSpine heap (some a) spine) (ha : (heap a).right = x.root?)
    (hp : (heap a).parent = above) (hx : Linked heap (some a) x) :
    LinkedSpine heap above (spine ++ [(a, x)]) := by
  induction spine with
  | nil => exact ⟨ha, hp, hx, trivial⟩
  | cons e spine ih =>
    obtain ⟨hr, hparent, hl, hrest⟩ := h
    refine ⟨hr, ?_, hl, ih hrest⟩
    cases spine with
    | nil => exact hparent
    | cons e' spine => exact hparent

theorem Linked.leftSpine {parent : Option α} (h : Linked heap parent t) :
    LinkedSpine heap parent t.leftSpine := by
  induction t generalizing parent with
  | nil => trivial
  | node a l r ihl ihr =>
    obtain ⟨ha, hl, hr⟩ := h
    exact linkedSpine_append (ihl hl) (by rw [ha]) (by rw [ha]) hr

theorem LinkedSpine.congr {above : Option α} {spine : List (α × BinaryTree α)}
    (h : LinkedSpine heap above spine) (hsame : ∀ a ∈ spineNodes spine, heap' a = heap a) :
    LinkedSpine heap' above spine := by
  induction spine with
  | nil => trivial
  | cons e spine ih =>
    obtain ⟨a, x⟩ := e
    obtain ⟨hr, hp, hx, hrest⟩ := h
    rw [spineNodes_cons] at hsame
    have ha := hsame a (by simp)
    refine ⟨by rw [ha, hr], by rw [ha, hp], ?_, ih hrest fun b hb => hsame b (by simp [hb])⟩
    exact hx.congr fun b hb => hsame b (by simp [hb])

end BinaryTree

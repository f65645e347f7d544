import Mathlib.Data.Fintype.Card
import Castle.Lib.OrderedMap
import Castle.Container.AvlTree.State

/-!
# Lookups in the AVL tree

The loops of the lookups follow `BinaryTree.locate`; on a tree in ascending order they
find what the lookups of an ordered map find among the entries.
-/

namespace Castle.Container.AvlTree

open BinaryTree

variable {cap : Capacity} {K V : Type} {t : AvlTree cap K V} {cmp : Compare K}

def value? (t : AvlTree cap K V) (i : Fin cap.size) : Option (K × V) := (t.node i).value

/-- The entries of some nodes, in their order. -/
def entriesOf (t : AvlTree cap K V) (l : List (Fin cap.size)) : List (K × V) :=
  l.filterMap t.value?

/-- The nodes hold `tree`: a balanced search tree with correct heights. -/
structure Holds (cmp : Compare K) (t : AvlTree cap K V) (tree : BinaryTree (Fin cap.size)) :
    Prop where
  linked : LinkedAt t.links t.root [] tree
  stored : t.Stored tree
  balanced : tree.Balanced
  nodup : tree.inorder.Nodup
  values : ∀ i ∈ tree.inorder, ∃ e, t.value? i = some e
  sorted : (t.entriesOf tree.inorder).Pairwise fun a b => cmp.lt a.1 b.1 = true

theorem entriesOf_append (l m : List (Fin cap.size)) :
    t.entriesOf (l ++ m) = t.entriesOf l ++ t.entriesOf m :=
  List.filterMap_append

variable {l : List (Fin cap.size)}

variable {e : K × V}

theorem mem_entriesOf : e ∈ t.entriesOf l ↔ ∃ i ∈ l, t.value? i = some e :=
  List.mem_filterMap

variable {i : Fin cap.size}

theorem entriesOf_cons (h : t.value? i = some e) (l : List (Fin cap.size)) :
    t.entriesOf (i :: l) = e :: t.entriesOf l :=
  List.filterMap_cons_some h

theorem head?_entriesOf (h : ∀ i ∈ l, ∃ e, t.value? i = some e) :
    (t.entriesOf l).head? = l.head?.bind t.value? := by
  cases l with
  | nil => rfl
  | cons i l =>
    obtain ⟨e, he⟩ := h i (by simp)
    rw [entriesOf_cons he]
    simp [he]

theorem length_entriesOf (h : ∀ i ∈ l, ∃ e, t.value? i = some e) :
    (t.entriesOf l).length = l.length := by
  induction l with
  | nil => rfl
  | cons i l ih =>
    obtain ⟨e, he⟩ := h i (by simp)
    rw [entriesOf_cons he, List.length_cons, List.length_cons,
      ih fun j hj => h j (by simp [hj])]

theorem entriesOf_congr {t' : AvlTree cap K V} (h : ∀ i ∈ l, t'.value? i = t.value? i) :
    t'.entriesOf l = t.entriesOf l :=
  List.filterMap_congr h

theorem Holds.ascending {tree : BinaryTree (Fin cap.size)} (h : Holds cmp t tree) :
    tree.inorder.Pairwise fun i j => ∀ e f, t.value? i = some e → t.value? j = some f →
      cmp.lt e.1 f.1 = true := by
  have hs := h.sorted
  unfold entriesOf at hs
  rw [List.pairwise_filterMap] at hs
  exact hs.imp fun hij e f he hf => hij e he f hf

theorem numNodes_le {u : BinaryTree (Fin cap.size)} (h : u.inorder.Nodup) :
    u.numNodes ≤ cap.size := by
  rw [← length_inorder]
  simpa using List.Nodup.length_le_card h

section directions

variable (cmp t)

/-- Where `find_node` and `emplace_value` go from a node. -/
def findDir (key : K) (i : Fin cap.size) : Option Side :=
  match t.value? i with
  | none => none
  | some (k, _) =>
    if cmp.lt key k then some .left else if cmp.lt k key then some .right else none

/-- Where `lower_bound` and `upper_bound` go from a node. -/
def boundDir (before : K → Bool) (i : Fin cap.size) : Option Side :=
  match t.value? i with
  | none => none
  | some (k, _) => if before k then some .right else some .left

end directions

theorem findDir_left {key : K} (h : t.findDir cmp key i = some .left) (he : t.value? i = some e) :
    cmp.lt key e.1 = true := by
  simp only [findDir, he] at h
  split at h
  next hlt => exact hlt
  · split at h <;> cases h

theorem findDir_right {key : K} (h : t.findDir cmp key i = some .right) (he : t.value? i = some e) :
    cmp.lt e.1 key = true := by
  simp only [findDir, he] at h
  split at h
  · cases h
  split at h
  next hlt => exact hlt
  · cases h

theorem findDir_none {key : K} (h : t.findDir cmp key i = none) (he : t.value? i = some e) :
    OrderedMap.same cmp.lt e.1 key = true := by
  simp only [findDir, he] at h
  split at h
  · cases h
  next hlt =>
  split at h
  · cases h
  next hgt => simp [OrderedMap.same, hlt, hgt]

theorem directed_find {tree : BinaryTree (Fin cap.size)} (h : Holds cmp t tree) (key : K) :
    Directed (t.findDir cmp key) tree.inorder := by
  have _order := cmp.order
  refine h.ascending.imp_of_mem fun {i j} hi hj hij => ?_
  obtain ⟨e, he⟩ := h.values i hi
  obtain ⟨f, hf⟩ := h.values j hj
  have hlt := hij e f he hf
  refine ⟨fun hr => ?_, fun hl => ?_⟩
  · have hkey := OrderedMap.lt_trans hlt (findDir_right hr hf)
    simp [findDir, he, hkey, OrderedMap.lt_asymm hkey]
  · have hkey := OrderedMap.lt_trans (findDir_left hl he) hlt
    simp [findDir, hf, hkey]

theorem directed_bound {tree : BinaryTree (Fin cap.size)} (h : Holds cmp t tree)
    {before : K → Bool} (hbefore : ∀ a b, cmp.lt a b = true → before b = true → before a = true) :
    Directed (t.boundDir before) tree.inorder := by
  refine h.ascending.imp_of_mem fun {i j} hi hj hij => ?_
  obtain ⟨e, he⟩ := h.values i hi
  obtain ⟨f, hf⟩ := h.values j hj
  have hmono := hbefore e.1 f.1 (hij e f he hf)
  simp only [boundDir, he, hf]
  refine ⟨fun hr => ?_, fun hl => ?_⟩
  · split at hr
    next hb => rw [if_pos (hmono hb)]
    · cases hr
  · split at hl
    · cases hl
    next hb => rw [if_neg fun hb' => hb (hmono hb')]

section loops

variable {path : List (Frame (Fin cap.size))} {u : BinaryTree (Fin cap.size)} {fuel : ℕ}

theorem read_node {i : Fin cap.size} {l r : BinaryTree (Fin cap.size)} {parent : NodeRef cap}
    (h : Linked t.links parent (.node i l r))
    (hv : ∀ j ∈ (BinaryTree.node i l r).inorder, ∃ e, t.value? j = some e)
    (hf : (BinaryTree.node i l r).numNodes ≤ fuel) : ∃ n e, fuel = n + 1 ∧ t.value? i = some e ∧
      (t.node i).value = some e ∧ (t.node i).left = l.root? ∧ (t.node i).right = r.root? ∧
      (Linked t.links i l ∧ (∀ j ∈ l.inorder, ∃ e, t.value? j = some e) ∧ l.numNodes ≤ n) ∧
      Linked t.links i r ∧ (∀ j ∈ r.inorder, ∃ e, t.value? j = some e) ∧ r.numNodes ≤ n := by
  rw [numNodes] at hf
  obtain ⟨n, rfl⟩ : ∃ n, fuel = n + 1 := ⟨fuel - 1, by omega⟩
  obtain ⟨e, he⟩ := hv i (by simp)
  obtain ⟨hi, hl, hr⟩ := h
  exact ⟨n, e, rfl, he, he, congrArg Links.left hi, congrArg Links.right hi,
    ⟨hl, fun j hj => hv j (by simp [hj]), by omega⟩, hr, fun j hj => hv j (by simp [hj]), by omega⟩

variable {parent : NodeRef cap} (h : Linked t.links parent u)
  (hv : ∀ i ∈ u.inorder, ∃ e, t.value? i = some e) (hf : u.numNodes ≤ fuel)

include h hv hf

theorem findLoop_eq (key : K) :
    t.findLoop cmp key fuel u.root? = some (locate (t.findDir cmp key) path u).2.root? := by
  induction u generalizing path fuel parent with
  | nil => cases fuel <;> rfl
  | node i l r ihl ihr =>
    obtain ⟨n, e, rfl, he, hvalue, hleft, hright, ⟨hl, hvl, hfl⟩, hr, hvr, hfr⟩ := read_node h hv hf
    unfold locate
    simp only [root?_node, findLoop, hvalue, Option.bind_eq_bind, Option.bind_some, findDir, he]
    by_cases hlt : cmp.lt key e.1 = true
    · rw [if_pos hlt, if_pos hlt, hleft]
      exact ihl hl hvl hfl
    rw [if_neg hlt, if_neg hlt]
    by_cases hgt : cmp.lt e.1 key = true
    · rw [if_pos hgt, if_pos hgt, hright]
      exact ihr hr hvr hfr
    · rw [if_neg hgt, if_neg hgt]
      rfl

def endsLeft (path : List (Frame (Fin cap.size))) : Bool :=
  match path with
  | [] => false
  | f :: _ => f.side = .left

theorem descend_eq (key : K) :
    t.descend cmp key fuel u.root? (pathParent path) (endsLeft path) =
      some (match (locate (t.findDir cmp key) path u).2 with
        | .nil => some (pathParent (locate (t.findDir cmp key) path u).1,
            endsLeft (locate (t.findDir cmp key) path u).1)
        | .node _ _ _ => none) := by
  induction u generalizing path fuel parent with
  | nil => cases fuel <;> rfl
  | node i l r ihl ihr =>
    obtain ⟨n, e, rfl, he, hvalue, hleft, hright, ⟨hl, hvl, hfl⟩, hr, hvr, hfr⟩ := read_node h hv hf
    unfold locate
    simp only [root?_node, descend, hvalue, Option.bind_eq_bind, Option.bind_some, findDir, he]
    by_cases hlt : cmp.lt key e.1 = true
    · rw [if_pos hlt, if_pos hlt, hleft]
      exact @ihl (⟨.left, i, r⟩ :: path) n _ hl hvl hfl
    rw [if_neg hlt, if_neg hlt]
    by_cases hgt : cmp.lt e.1 key = true
    · rw [if_pos hgt, if_pos hgt, hright]
      exact @ihr (⟨.right, i, l⟩ :: path) n _ hr hvr hfr
    · rw [if_neg hgt, if_neg hgt]

theorem boundLoop_eq (before : K → Bool) : t.boundLoop before fuel u.root?
    (beside .right path).head? = some (beside .right (locate (t.boundDir before) path u).1).head? ∧
    (locate (t.boundDir before) path u).2 = .nil := by
  induction u generalizing path fuel parent with
  | nil => cases fuel <;> exact ⟨rfl, rfl⟩
  | node i l r ihl ihr =>
    obtain ⟨n, e, rfl, he, hvalue, hleft, hright, ⟨hl, hvl, hfl⟩, hr, hvr, hfr⟩ := read_node h hv hf
    unfold locate
    simp only [root?_node, boundLoop, hvalue, Option.bind_eq_bind, Option.bind_some, boundDir, he]
    by_cases hb : before e.1 = true
    · rw [if_pos hb, if_pos hb, hright]
      have := @ihr (⟨.right, i, l⟩ :: path) n _ hr hvr hfr
      simpa only [beside, if_true] using this
    · rw [if_neg hb, if_neg hb, hleft]
      have := @ihl (⟨.left, i, r⟩ :: path) n _ hl hvl hfl
      simpa only [beside, reduceCtorEq, if_false, List.cons_append, List.head?_cons] using this

end loops

section lookups

variable {tree : BinaryTree (Fin cap.size)}

/-- Where a key belongs: the end of a path between the lesser and the greater keys. -/
structure Located (cmp : Compare K) (t : AvlTree cap K V) (tree : BinaryTree (Fin cap.size))
    (key : K) (path : List (Frame (Fin cap.size))) (u : BinaryTree (Fin cap.size)) : Prop where
  plug : BinaryTree.plug path u = tree
  left : ∀ e ∈ t.entriesOf (beside .left path), cmp.lt e.1 key = true
  right : ∀ e ∈ t.entriesOf (beside .right path), cmp.lt key e.1 = true
  same : ∀ i l r, u = .node i l r → t.findDir cmp key i = none

theorem located (h : Holds cmp t tree) (key : K) : Located cmp t tree key
    (locate (t.findDir cmp key) [] tree).1 (locate (t.findDir cmp key) [] tree).2 := by
  obtain ⟨hl, hr⟩ := @beside_locate _ _ [] _ (directed_find h key) (by simp [beside])
    (by simp [beside])
  refine ⟨plug_locate [] tree, fun e he => ?_, fun e he => ?_, fun i l r hu => ?_⟩
  · obtain ⟨i, hi, he⟩ := mem_entriesOf.mp he
    exact findDir_right (hl i hi) he
  · obtain ⟨i, hi, he⟩ := mem_entriesOf.mp he
    exact findDir_left (hr i hi) he
  · exact dir_locate (t := tree)
      (l := l) (r := r) (by rw [← hu])

theorem entriesOf_plug (path : List (Frame (Fin cap.size))) (u : BinaryTree (Fin cap.size)) :
    t.entriesOf (plug path u).inorder =
      t.entriesOf (beside .left path) ++ (t.entriesOf u.inorder ++ t.entriesOf (beside .right path)) := by
  rw [inorder_plug, entriesOf_append, entriesOf_append]

variable {path : List (Frame (Fin cap.size))}

theorem Located.absent {key : K} (h : Located cmp t tree key path .nil) : t.entriesOf tree.inorder =
      t.entriesOf (beside .left path) ++ t.entriesOf (beside .right path) := by
  rw [← h.plug, entriesOf_plug]
  rfl

theorem Located.present {key : K} {i : Fin cap.size} {l r : BinaryTree (Fin cap.size)}
    (h : Located cmp t tree key path (.node i l r)) (ht : Holds cmp t tree) :
    ∃ e left right, t.value? i = some e ∧
    OrderedMap.same cmp.lt e.1 key = true ∧ left = t.entriesOf (beside .left path ++ l.inorder) ∧
    right = t.entriesOf (r.inorder ++ beside .right path) ∧ t.entriesOf tree.inorder = left ++
    e :: right ∧ (∀ f ∈ left, cmp.lt f.1 key = true) ∧ ∀ f ∈ right, cmp.lt key f.1 = true := by
  have _order := cmp.order
  have hi : i ∈ tree.inorder := by
    rw [← h.plug, inorder_plug]
    simp
  obtain ⟨e, he⟩ := ht.values i hi
  have hsame := findDir_none (h.same i l r rfl) he
  obtain ⟨hlow, hhigh⟩ : cmp.lt e.1 key = false ∧ cmp.lt key e.1 = false := by
    simpa [OrderedMap.same] using hsame
  have hsplit : t.entriesOf tree.inorder = t.entriesOf (beside .left path ++ l.inorder) ++
      e :: t.entriesOf (r.inorder ++ beside .right path) := by
    rw [← h.plug, entriesOf_plug, inorder_node, entriesOf_append, entriesOf_cons he,
      entriesOf_append, entriesOf_append]
    simp
  have hs := ht.sorted
  rw [hsplit] at hs
  obtain ⟨-, hs', hleft⟩ := List.pairwise_append.mp hs
  refine ⟨e, _, _, he, hsame, rfl, rfl, hsplit, fun f hf => ?_, fun f hf => ?_⟩
  · exact OrderedMap.lt_of_lt_of_not_lt (hleft f hf e (by simp)) hhigh
  · exact OrderedMap.lt_of_not_lt_of_lt hlow ((List.pairwise_cons.mp hs').1 f hf)

theorem findNode_eq (h : Holds cmp t tree) (key : K) :
    t.findNode cmp key = some (locate (t.findDir cmp key) [] tree).2.root? := by
  unfold findNode
  have hroot : t.root = tree.root? := h.linked.above
  rw [hroot]
  exact findLoop_eq h.linked.tree h.values (numNodes_le h.nodup) key

theorem findNode_spec (h : Holds cmp t tree) (key : K) :
    ∃ p, t.findNode cmp key = some p ∧ (∀ i ∈ p, i ∈ tree.inorder) ∧
      OrderedMap.get? cmp.lt (t.entriesOf tree.inorder) key = p.bind t.value? := by
  refine ⟨_, findNode_eq h key, ?_⟩
  have hloc := located h key
  generalize (locate (t.findDir cmp key) [] tree).1 = path at hloc
  generalize (locate (t.findDir cmp key) [] tree).2 = u at hloc
  cases u with
  | nil =>
    refine ⟨by simp, ?_⟩
    rw [hloc.absent, OrderedMap.get?_absent hloc.left hloc.right]
    rfl
  | node i l r =>
    obtain ⟨e, left, right, he, hsame, -, -, hsplit, hl, -⟩ := hloc.present h
    refine ⟨?_, ?_⟩
    · rintro j ⟨⟩
      rw [← hloc.plug, inorder_plug]
      simp
    · rw [hsplit, OrderedMap.get?_present hl hsame]
      exact he.symm

theorem bound_spec (h : Holds cmp t tree) {before : K → Bool}
    (hbefore : ∀ a b, cmp.lt a b = true → before b = true → before a = true) :
    ∃ p, t.boundLoop before cap.size t.root none = some p ∧ (∀ i ∈ p, i ∈ tree.inorder) ∧
      (t.entriesOf tree.inorder).find? (fun e => !before e.1) = p.bind t.value? := by
  obtain ⟨hloop, hnil⟩ := @boundLoop_eq _ _ _ _ [] _ _ _ h.linked.tree h.values
    (numNodes_le h.nodup) before
  obtain ⟨hl, hr⟩ := @beside_locate _ _ [] _ (directed_bound h hbefore) (by simp [beside])
    (by simp [beside])
  have hplug := @plug_locate _ (t.boundDir before) [] tree
  have hroot : t.root = tree.root? := h.linked.above
  rw [hroot]
  refine ⟨_, hloop, ?_⟩
  generalize (locate (t.boundDir before) [] tree).1 = path at hl hr hplug
  rw [hnil] at hplug
  have hsplit : t.entriesOf tree.inorder =
      t.entriesOf (beside .left path) ++ t.entriesOf (beside .right path) := by
    have htree : tree = plug path .nil := hplug.symm
    rw [htree, entriesOf_plug]
    rfl
  have hmem : ∀ i ∈ beside .right path, i ∈ tree.inorder := by
    intro i hi
    have htree : tree = plug path .nil := hplug.symm
    rw [htree, inorder_plug]
    simp [hi]
  have hleft : ∀ e ∈ t.entriesOf (beside .left path), before e.1 = true := by
    intro e he
    obtain ⟨i, hi, he⟩ := mem_entriesOf.mp he
    have hdir := hl i hi
    simp only [boundDir, he] at hdir
    split at hdir
    next hb => exact hb
    · cases hdir
  have hright : ∀ e ∈ t.entriesOf (beside .right path), before e.1 = false := by
    intro e he
    obtain ⟨i, hi, he⟩ := mem_entriesOf.mp he
    have hdir := hr i hi
    simp only [boundDir, he] at hdir
    split at hdir
    · cases hdir
    next hb => simpa using hb
  refine ⟨fun i hi => hmem i (List.mem_of_mem_head? hi), ?_⟩
  rw [hsplit, List.find?_append, List.find?_eq_none.mpr fun e he => by simp [hleft e he],
    Option.none_or, ← head?_entriesOf fun i hi => h.values i (hmem i hi)]
  generalize t.entriesOf (beside .right path) = right at hright
  cases right with
  | nil => rfl
  | cons e right => simp [hright e (by simp)]

theorem lowerBound_spec (h : Holds cmp t tree) (key : K) :
    ∃ p, t.lowerBound cmp key = some p ∧ (∀ i ∈ p, i ∈ tree.inorder) ∧
      OrderedMap.lowerBound cmp.lt (t.entriesOf tree.inorder) key = p.bind t.value? := by
  have _order := cmp.order
  exact bound_spec h fun a b hab hb => OrderedMap.lt_trans hab hb

theorem upperBound_spec (h : Holds cmp t tree) (key : K) :
    ∃ p, t.upperBound cmp key = some p ∧ (∀ i ∈ p, i ∈ tree.inorder) ∧
      OrderedMap.upperBound cmp.lt (t.entriesOf tree.inorder) key = p.bind t.value? := by
  have _order := cmp.order
  obtain ⟨p, hp, hmem, he⟩ := @bound_spec _ _ _ _ _ _ h (fun k => !cmp.lt key k) fun a b hab hb => by
    by_contra ha
    have ha : cmp.lt key a = true := by simpa using ha
    simp [OrderedMap.lt_trans ha hab] at hb
  exact ⟨p, hp, hmem, by simpa [OrderedMap.upperBound] using he⟩

end lookups

end Castle.Container.AvlTree

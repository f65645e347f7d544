import Castle.Container.AvlTree.Rebalance
import Castle.Container.AvlTree.Search

/-!
# The node pool of the AVL tree, and insertion

The nodes outside the tree form the free list.
-/

namespace Castle.Container.AvlTree

open BinaryTree

variable {cap : Capacity} {K V : Type} {t t' : AvlTree cap K V} {cmp : Compare K}
  {tree : BinaryTree (Fin cap.size)} {free : List (Fin cap.size)}

/-- The chain of unused nodes, linked by `left`. -/
def FreeChain (t : AvlTree cap K V) : NodeRef cap → List (Fin cap.size) → Prop
  | head, [] => head = none
  | head, i :: free =>
    head = some i ∧ (t.node i).used = false ∧ (t.node i).value = none ∧
      t.FreeChain (t.node i).left free

theorem FreeChain.congr {head : NodeRef cap} (h : t.FreeChain head free)
    (hsame : ∀ i ∈ free, t'.links i = t.links i ∧ (t'.node i).used = (t.node i).used ∧
      (t'.node i).value = (t.node i).value) : t'.FreeChain head free := by
  induction free generalizing head with
  | nil => exact h
  | cons i free ih =>
    obtain ⟨hhead, hused, hvalue, hchain⟩ := h
    obtain ⟨hlinks, hu, hv⟩ := hsame i (by simp)
    have hleft : (t'.node i).left = (t.node i).left := congrArg Links.left hlinks
    refine ⟨hhead, hu.trans hused, hv.trans hvalue, ?_⟩
    rw [hleft]
    exact ih hchain fun j hj => hsame j (by simp [hj])

/-- The nodes hold `tree`, and all the others are in the free list. -/
structure Rep (cmp : Compare K) (t : AvlTree cap K V) (tree : BinaryTree (Fin cap.size))
    (free : List (Fin cap.size)) : Prop extends Holds cmp t tree where
  used : ∀ i ∈ tree.inorder, (t.node i).used = true
  chain : t.FreeChain t.freeHead free
  partition : (tree.inorder ++ free).Perm (List.finRange cap.size)
  size_eq : t.size = tree.inorder.length

section

variable (h : Rep cmp t tree free)
include h

theorem Rep.apart {i : Fin cap.size} (hi : i ∈ free) :
    i ∉ tree.inorder := by
  have hn : (tree.inorder ++ free).Nodup := h.partition.nodup_iff.mpr (List.nodup_finRange _)
  exact fun hi' => (List.nodup_append.mp hn).2.2 i hi' i hi rfl

theorem Rep.mem_of_used {i : Fin cap.size}
    (hi : (t.node i).used = true) : i ∈ tree.inorder := by
  have hmem : i ∈ tree.inorder ++ free := h.partition.mem_iff.mpr (List.mem_finRange i)
  rcases List.mem_append.mp hmem with hm | hm
  · exact hm
  · have hunused {head : NodeRef cap} {l : List (Fin cap.size)} (hc : t.FreeChain head l)
        (hm : i ∈ l) : (t.node i).used = false := by
      induction l generalizing head with
      | nil => cases hm
      | cons j l ih =>
        obtain ⟨-, hu, -, hc⟩ := hc
        rcases List.mem_cons.mp hm with rfl | hm
        · exact hu
        · exact ih hc hm
    rw [hunused h.chain hm] at hi
    cases hi

theorem Rep.size_le : tree.inorder.length ≤ cap.size := by
  have hlen := h.partition.length_eq
  simp only [List.length_append, List.length_finRange] at hlen
  omega

theorem Rep.free_eq_nil : free = [] ↔ tree.inorder.length = cap.size := by
  have hlen := h.partition.length_eq
  simp only [List.length_append, List.length_finRange] at hlen
  rw [← List.length_eq_zero_iff]
  omega

end

theorem freeChain_initialise (l : List (Fin cap.size)) (hl : (l ++ free).Nodup)
    (hfree : t.FreeChain t.freeHead free) (hv : ∀ i, (t.node i).value = none) :
    (l.foldl initialiseNode t).FreeChain (l.foldl initialiseNode t).freeHead (l.reverse ++ free) := by
  induction l generalizing t free with
  | nil => exact hfree
  | cons i l ih =>
    have hn : (i :: (l ++ free)).Nodup := hl
    obtain ⟨hi, hl⟩ := List.nodup_cons.mp hn
    have hself : (initialiseNode t i).node i =
        { t.node i with
          left := t.freeHead, right := none, parent := none, height := 0, used := false } :=
      t.node_modifyNode_self _
    have hother : ∀ j, j ≠ i → (initialiseNode t i).node j = t.node j :=
      fun j hj => t.node_modifyNode_ne _ hj
    have hvalue : ∀ j, ((initialiseNode t i).node j).value = none := by
      intro j
      by_cases hj : j = i
      · subst hj
        rw [hself]
        exact hv j
      · rw [hother j hj, hv j]
    have hchain : (initialiseNode t i).FreeChain (initialiseNode t i).freeHead (i :: free) := by
      refine ⟨rfl, by rw [hself], hvalue i, ?_⟩
      rw [hself]
      refine hfree.congr fun j hj => ?_
      have hji : j ≠ i := by
        rintro rfl
        exact hi (by simp [hj])
      have hsame := hother j hji
      exact ⟨by rw [links, links, hsame], by rw [hsame], by rw [hsame]⟩
    have hnew : (l ++ i :: free).Nodup := List.nodup_middle.mpr (List.nodup_cons.mpr ⟨hi, hl⟩)
    have := ih hnew hchain hvalue
    simpa [List.foldl_cons] using this

theorem foldl_initialiseNode (l : List (Fin cap.size)) :
    (l.foldl initialiseNode t).root = t.root ∧ (l.foldl initialiseNode t).size = t.size := by
  induction l generalizing t with
  | nil => exact ⟨rfl, rfl⟩
  | cons i l ih => exact ih

theorem rep_empty : Rep cmp (empty : AvlTree cap K V) .nil (List.finRange cap.size) := by
  have hpool := @freeChain_initialise _ _ _ ({ ({ nodes := .replicate _ {} } : AvlTree cap K V) with freeHead := none }) []
    (List.finRange cap.size).reverse (by simpa using List.nodup_finRange _) rfl
    fun i => by simp [node]
  obtain ⟨hroot, hsize⟩ := foldl_initialiseNode (K := K) (V := V)
    (t := { nodes := .replicate _ {} }) (List.finRange cap.size).reverse
  refine ⟨⟨⟨hroot, trivial⟩, trivial, trivial, List.nodup_nil, by simp, List.Pairwise.nil⟩,
    by simp, ?_, by simp, hsize⟩
  simpa [empty, initialisePool] using hpool

/-- The nodes hold a search tree that has to be rebalanced from the end of the path up:
the subtree there had height `h₀`. -/
structure Unbalanced (cmp : Compare K) (t : AvlTree cap K V) (path : List (Frame (Fin cap.size)))
    (u : BinaryTree (Fin cap.size)) (h₀ : ℕ) (free : List (Fin cap.size)) : Prop where
  linked : LinkedAt t.links t.root path u
  stored : t.Stored u
  storedPath : t.StoredPath path
  balanced : u.Balanced
  fits : Fits h₀ path
  height : u.height ≤ h₀ + 1 ∧ h₀ ≤ u.height + 1
  values : ∀ i ∈ (plug path u).inorder, ∃ e, t.value? i = some e
  sorted : (t.entriesOf (plug path u).inorder).Pairwise fun a b => cmp.lt a.1 b.1 = true
  used : ∀ i ∈ (plug path u).inorder, (t.node i).used = true
  chain : t.FreeChain t.freeHead free
  partition : ((plug path u).inorder ++ free).Perm (List.finRange cap.size)
  size_eq : t.size = (plug path u).inorder.length

theorem Unbalanced.rebalance {path : List (Frame (Fin cap.size))} {u : BinaryTree (Fin cap.size)}
    {h₀ : ℕ} (h : Unbalanced cmp t path u h₀ free) : ∃ t', t.rebalance (pathParent path) =
    some t' ∧ Rep cmp t' (climb path u) free ∧ SameEntries t t' := by
  have hn : ((plug path u).inorder ++ free).Nodup :=
    h.partition.nodup_iff.mpr (List.nodup_finRange _)
  obtain ⟨htree, -, hapart⟩ := List.nodup_append.mp hn
  obtain ⟨t', ht', hre⟩ := rebalance_climb h.linked (distinct_iff.mpr htree) h.stored h.storedPath
    h.balanced h.fits h.height
  have hvalue : ∀ i, t'.value? i = t.value? i := hre.entries.value
  have hentries (l : List (Fin cap.size)) : t'.entriesOf l = t.entriesOf l :=
    entriesOf_congr fun i _ => hvalue i
  refine ⟨t', ht', ⟨⟨hre.linked, hre.stored, balanced_climb h.balanced h.fits h.height, ?_, ?_, ?_⟩,
    ?_, ?_, ?_, ?_⟩, hre.entries⟩
  · rw [inorder_climb]
    exact htree
  · intro i hi
    rw [inorder_climb] at hi
    rw [hvalue]
    exact h.values i hi
  · rw [inorder_climb, hentries]
    exact h.sorted
  · intro i hi
    rw [inorder_climb] at hi
    rw [hre.entries.used]
    exact h.used i hi
  · rw [hre.entries.freeHead]
    refine h.chain.congr fun i hi => ⟨hre.outside i ?_, hre.entries.used i, hre.entries.value i⟩
    rw [inorder_climb]
    exact fun hi' => hapart i hi' i hi rfl
  · rw [inorder_climb]
    exact h.partition
  · rw [hre.entries.size, inorder_climb]
    exact h.size_eq

section allocate

variable {item : Fin cap.size} (hfree : t.freeHead = some item)
include hfree

theorem allocateNode_eq : t.allocateNode = (some item, { t.modifyNode item fun x =>
      { x with left := none, right := none, parent := none, height := 1, used := true } with
    freeHead := (t.node item).left }) := by
  rw [allocateNode, hfree]

theorem node_allocateNode_self : t.allocateNode.2.node item =
    { height := 1, used := true, value := (t.node item).value } := by
  rw [allocateNode_eq hfree]
  exact t.node_modifyNode_self _

theorem node_allocateNode_ne {j : Fin cap.size} (hj : j ≠ item) :
    t.allocateNode.2.node j = t.node j := by
  rw [allocateNode_eq hfree]
  exact t.node_modifyNode_ne _ hj

end allocate

/-- The tree after a new node was taken from the pool and hung below the end of a path. -/
def hang (t : AvlTree cap K V) (item : Fin cap.size) (path : List (Frame (Fin cap.size)))
    (entry : K × V) : AvlTree cap K V :=
  let t := t.allocateNode.2
  let t := t.modifyNode item fun x => { x with value := some entry }
  let t := (t.setParent item (pathParent path)).relinkPath path (some item)
  { t with size := t.size + 1 }

theorem attach_eq (t : AvlTree cap K V) (item : Fin cap.size) (path : List (Frame (Fin cap.size))) :
    t.attach item (pathParent path) (endsLeft path) =
    (t.setParent item (pathParent path)).relinkPath path (some item) := by
  cases path with
  | nil => rfl
  | cons f path =>
    obtain ⟨side, a, sibling⟩ := f
    cases side <;> rfl

section hang

variable {item : Fin cap.size} {path : List (Frame (Fin cap.size))} {entry : K × V}

theorem node_hang_self (hfree : t.freeHead = some item) (hitem : pathParent path ≠ some item) :
    (t.hang item path entry).node item =
      { parent := pathParent path, height := 1, used := true, value := some entry } := by
  show ((AvlTree.relinkPath _ path (some item)).node item) = _
  rw [node_relinkPath_ne hitem, setParent, node_modifyNode_self, node_modifyNode_self,
    node_allocateNode_self hfree]

theorem node_hang_ne (hfree : t.freeHead = some item) {j : Fin cap.size} (hj : j ≠ item) :
    (t.hang item path entry).node j = (t.relinkPath path (some item)).node j := by
  have hbefore : ∀ j, j ≠ item →
      ((t.allocateNode.2.modifyNode item fun x => { x with value := some entry }).setParent item
        (pathParent path)).node j = t.node j := by
    intro j hj
    rw [setParent, node_modifyNode_ne _ _ hj, node_modifyNode_ne _ _ hj,
      node_allocateNode_ne hfree hj]
  show ((AvlTree.relinkPath _ path (some item)).node j) = _
  cases path with
  | nil => exact hbefore j hj
  | cons f path =>
    by_cases hjf : j = f.value
    · subst hjf
      simp only [relinkPath, setChild, node_modifyNode_self]
      rw [hbefore _ hj]
    · have hp : pathParent (f :: path) ≠ some j := by simpa using Ne.symm hjf
      rw [node_relinkPath_ne hp, node_relinkPath_ne hp]
      exact hbefore j hj

theorem hang_linked (h : LinkedAt t.links t.root path .nil) (hd : Distinct path .nil)
    (hfree : t.freeHead = some item) (hitem : item ∉ pathValues path) : LinkedAt
    (t.hang item path entry).links (t.hang item path entry).root path (.node item .nil .nil) := by
  have hpar : pathParent path ≠ some item := fun hp => hitem (pathParent_mem hp)
  refine ⟨h.above.relink hd ?_ fun j hj hp => ?_, ?_, trivial, trivial⟩
  · cases path with
    | nil => exact rfl
    | cons f path =>
      have hf : f.value ≠ item := by
        rintro rfl
        exact hpar rfl
      have hroot : (t.hang item (f :: path) entry).root = t.root := by
        simp [hang, relinkPath, setChild, setParent, modifyNode, allocateNode, hfree]
      refine ⟨hroot, ?_⟩
      rw [links, node_hang_ne hfree hf]
      exact t.links_setChild_self f.side (some item)
  · have hj' : j ≠ item := fun hji => hitem (hji ▸ hj)
    rw [links, node_hang_ne hfree hj', node_relinkPath_ne hp]
    rfl
  · rw [links, node_hang_self hfree hpar]
    rfl

end hang

/-- A new node between the lesser and the greater keys gives a search tree, to be rebalanced
from its parent. -/
theorem hang_unbalanced {item : Fin cap.size} {path : List (Frame (Fin cap.size))} {key : K}
    {value : V} (h : Rep cmp t tree (item :: free)) (hloc : Located cmp t tree key path .nil) :
    Unbalanced cmp (t.hang item path (key, value)) path (.node item .nil .nil) 0 free ∧
      (t.hang item path (key, value)).entriesOf (plug path (.node item .nil .nil)).inorder =
        t.entriesOf (beside .left path) ++ (key, value) :: t.entriesOf (beside .right path) := by
  obtain ⟨hhead, -, -, hchain⟩ := h.chain
  have hplug := hloc.plug
  have hin : tree.inorder = beside .left path ++ beside .right path := by
    rw [← hplug, inorder_plug]
    rfl
  have hperm : tree.inorder.Perm (pathValues path) := by
    rw [← hplug]
    exact inorder_plug_perm path .nil
  have hitem : item ∉ tree.inorder := h.apart (by simp)
  have hitem' : item ∉ pathValues path := fun hm => hitem (hperm.mem_iff.mpr hm)
  have hpar : pathParent path ≠ some item := fun hp => hitem' (pathParent_mem hp)
  have hnotitem : ∀ j ∈ tree.inorder, j ≠ item := fun j hj hji => hitem (hji ▸ hj)
  have hnode := @node_hang_self _ _ _ _ _ _ ((key, value)) hhead hpar
  have hinorder : (plug path (.node item .nil .nil)).inorder =
      beside .left path ++ item :: beside .right path := by
    rw [inorder_plug]
    simp
  have hmem {j : Fin cap.size} (hj : j ∈ (plug path (.node item .nil .nil)).inorder) :
      j = item ∨ j ≠ item ∧ j ∈ tree.inorder := by
    rw [hinorder] at hj
    by_cases hji : j = item
    · exact .inl hji
    · rw [hin]
      exact .inr ⟨hji, by simpa [hji] using hj⟩
  have hsame : SameEntries t (t.relinkPath path (some item)) := .relinkPath t path _
  have hvalueItem : (t.hang item path (key, value)).value? item = some (key, value) := by
    rw [value?, hnode]
  have hvalueOther : ∀ j ∈ tree.inorder, (t.hang item path (key, value)).value? j = t.value? j := by
    intro j hj
    rw [value?, node_hang_ne hhead (hnotitem j hj), hsame.value]
    rfl
  have hentries : (t.hang item path (key, value)).entriesOf
      (plug path (.node item .nil .nil)).inorder =
        t.entriesOf (beside .left path) ++ (key, value) :: t.entriesOf (beside .right path) := by
    rw [hinorder, entriesOf_append, entriesOf_cons hvalueItem,
      entriesOf_congr fun j hj => hvalueOther j (by simp [hin, hj]),
      entriesOf_congr fun j hj => hvalueOther j (by simp [hin, hj])]
  have hlinked : LinkedAt t.links t.root path .nil := by
    rw [linkedAt_plug, hplug]
    exact h.linked
  have hbal := h.balanced
  rw [← hplug, balanced_plug] at hbal
  refine ⟨⟨?linked, ⟨?_, trivial, trivial⟩, ?storedPath, ⟨⟨by simp, by simp⟩, trivial, trivial⟩,
    hbal.2, ⟨by simp, by simp⟩, ?values, ?sorted, ?used, ?chain, ?partition, ?size⟩, hentries⟩
  case linked =>
    exact hang_linked hlinked (distinct_iff.mpr (by rw [hplug]; exact h.nodup)) hhead hitem'
  · rw [hnode]
    rfl
  case storedPath =>
    intro f hf
    have hsp : t.StoredPath path := (Stored.of_plug (u := .nil) (by rw [hplug]; exact h.stored)).2
    refine (hsp f hf).congr fun j hj => ?_
    have hj' : j ∈ tree.inorder := hperm.mem_iff.mpr (sibling_subset hf hj)
    rw [node_hang_ne hhead (hnotitem j hj'), height_relinkPath]
  case values =>
    intro j hj
    rcases hmem hj with rfl | ⟨-, hj⟩
    · exact ⟨_, hvalueItem⟩
    · rw [hvalueOther j hj]
      exact h.values j hj
  case sorted =>
    rw [hentries]
    have hsorted := h.sorted
    rw [hloc.absent] at hsorted
    obtain ⟨hsl, hsr, hlr⟩ := List.pairwise_append.mp hsorted
    refine List.pairwise_append.mpr ⟨hsl, List.pairwise_cons.mpr ⟨hloc.right, hsr⟩, ?_⟩
    intro a ha b hb
    rcases List.mem_cons.mp hb with rfl | hb
    · exact hloc.left a ha
    · exact hlr a ha b hb
  case used =>
    intro j hj
    rcases hmem hj with rfl | ⟨hji, hj⟩
    · rw [hnode]
    · rw [node_hang_ne hhead hji, hsame.used]
      exact h.used j hj
  case chain =>
    have hfreehead : (t.hang item path (key, value)).freeHead = (t.node item).left := by
      show (AvlTree.relinkPath _ path (some item)).freeHead = _
      rw [(SameEntries.relinkPath _ path _).freeHead]
      simp [setParent, modifyNode, allocateNode, hhead]
    rw [hfreehead]
    have hn : (item :: free).Nodup :=
      (List.nodup_append.mp (h.partition.nodup_iff.mpr (List.nodup_finRange _))).2.1
    refine hchain.congr fun j hj => ?_
    have hji : j ≠ item := by
      rintro rfl
      exact (List.nodup_cons.mp hn).1 hj
    have hjp : pathParent path ≠ some j :=
      fun hp => h.apart (by simp [hj]) (hperm.mem_iff.mpr (pathParent_mem hp))
    have hsame : (t.hang item path (key, value)).node j = t.node j := by
      rw [node_hang_ne hhead hji, node_relinkPath_ne hjp]
    exact ⟨by rw [links, links, hsame], by rw [hsame], by rw [hsame]⟩
  case partition =>
    refine List.Perm.trans ?_ h.partition
    rw [hinorder, hin]
    simp only [List.append_assoc, List.cons_append]
    exact List.perm_middle.symm.append_left _
  case size =>
    have hsize : (t.hang item path (key, value)).size = t.size + 1 := by
      show (AvlTree.relinkPath _ path (some item)).size + 1 = _
      rw [(SameEntries.relinkPath _ path _).size]
      simp [setParent, modifyNode, allocateNode, hhead]
    rw [hsize, h.size_eq, hinorder, hin]
    simp only [List.length_append, List.length_cons]
    omega

/-- What `emplace_value` does, by what the map says about the key. -/
inductive Emplaced (cmp : Compare K) (t : AvlTree cap K V) (tree : BinaryTree (Fin cap.size))
    (key : K) (value : V) : Status × AvlTree cap K V → Prop
  | present (h : (OrderedMap.get? cmp.lt (t.entriesOf tree.inorder) key).isSome) :
    Emplaced cmp t tree key value (.alreadyExists, t)
  | full (h : OrderedMap.get? cmp.lt (t.entriesOf tree.inorder) key = none)
    (hfull : (t.entriesOf tree.inorder).length = cap.size) :
    Emplaced cmp t tree key value (.full, t)
  | ok (h : OrderedMap.get? cmp.lt (t.entriesOf tree.inorder) key = none)
    (hroom : (t.entriesOf tree.inorder).length < cap.size) {t' : AvlTree cap K V}
    {tree' : BinaryTree (Fin cap.size)} {free' : List (Fin cap.size)}
    (hrep : Rep cmp t' tree' free')
    (hentries : t'.entriesOf tree'.inorder =
      OrderedMap.insertEntry cmp.lt (t.entriesOf tree.inorder) key value) :
    Emplaced cmp t tree key value (.ok, t')

theorem emplaceValue_spec (h : Rep cmp t tree free) (key : K) (value : V) :
    ∃ res, t.emplaceValue cmp key value = some res ∧ Emplaced cmp t tree key value res := by
  have _order := cmp.order
  have hlen := length_entriesOf h.values
  have hroot : t.root = tree.root? := h.linked.above
  have hdescend := @descend_eq _ _ _ _ cmp [] _ _ _ h.linked.tree h.values (numNodes_le h.nodup) key
  rw [← hroot] at hdescend
  change t.descend cmp key cap.size t.root none false = _ at hdescend
  unfold emplaceValue
  rw [hdescend]
  have hloc := located h.toHolds key
  generalize (locate (t.findDir cmp key) [] tree).1 = path at hloc
  generalize (locate (t.findDir cmp key) [] tree).2 = u at hloc
  cases u with
  | node i l r =>
    obtain ⟨e, left, right, -, hsame, -, -, hsplit, hl, -⟩ := hloc.present h.toHolds
    refine ⟨_, rfl, .present ?_⟩
    rw [hsplit, OrderedMap.get?_present hl hsame]
    rfl
  | nil =>
    have habsent : OrderedMap.get? cmp.lt (t.entriesOf tree.inorder) key = none := by
      rw [hloc.absent]
      exact OrderedMap.get?_absent hloc.left hloc.right
    cases free with
    | nil =>
      have hnone : t.freeHead = none := h.chain
      simp only [Option.bind_eq_bind, Option.bind_some, allocateNode, hnone]
      exact ⟨_, rfl, .full habsent (hlen.trans (h.free_eq_nil.mp rfl))⟩
    | cons item free =>
      obtain ⟨hunb, hentries⟩ := hang_unbalanced h hloc
      obtain ⟨t', ht', hrep, hsame⟩ := hunb.rebalance
      have hroom : tree.inorder.length < cap.size := by
        have hle := h.size_le
        have hne : tree.inorder.length ≠ cap.size := fun he => by
          cases h.free_eq_nil.mpr he
        omega
      refine ⟨(.ok, t'), ?_, .ok habsent (hlen ▸ hroom) hrep ?_⟩
      · simp only [Option.bind_eq_bind, Option.bind_some]
        rw [allocateNode_eq h.chain.1]
        simp only [attach_eq]
        have hhang : (t.hang item path (key, value)).rebalance (pathParent path) = some t' := ht'
        unfold hang at hhang
        rw [allocateNode_eq h.chain.1] at hhang
        rw [hhang]
        rfl
      · rw [entriesOf_congr fun i _ => hsame.value i, inorder_climb, hentries, hloc.absent,
          OrderedMap.insertEntry_absent hloc.left hloc.right]

end Castle.Container.AvlTree

/-!
## Iterating over the AVL tree

`successor` and `predecessor` lead to the neighbours of a node in order.
-/

namespace Castle.Container.AvlTree

open BinaryTree

variable {cap : Capacity} {K V : Type} {t : AvlTree cap K V} {cmp : Compare K}
  {tree : BinaryTree (Fin cap.size)} {s : Side}

variable {i : Fin cap.size}

theorem outermost_spec {s : Side} {u : BinaryTree (Fin cap.size)} {parent : NodeRef cap} {fuel : ℕ}
    (h : Linked t.links parent u) (hi : u.root? = some i) (hf : u.numNodes ≤ fuel) : ∃ path a x, u =
    plug path (join s a .nil x) ∧ (∀ f ∈ path, f.side = s) ∧ t.outermost s fuel i = some a := by
  induction u generalizing parent i fuel with
  | nil => cases hi
  | node b l r ihl ihr =>
    obtain ⟨near, far, hu, ih⟩ : ∃ near far, BinaryTree.node b l r = join s b near far ∧
        ∀ {parent : NodeRef cap} {i : Fin cap.size} {fuel : ℕ}, Linked t.links parent near →
        near.root? = some i → near.numNodes ≤ fuel → ∃ path a x, near =
        plug path (join s a .nil x) ∧ (∀ f ∈ path, f.side = s) ∧ t.outermost s fuel i = some a := by
      cases s with
      | left => exact ⟨l, r, rfl, ihl⟩
      | right => exact ⟨r, l, rfl, ihr⟩
    cases hi
    rw [hu] at h hf
    rw [hu]
    obtain ⟨hlinks, hnear, -⟩ := linked_join.mp h
    rw [numNodes_join] at hf
    obtain ⟨n, rfl⟩ : ∃ n, fuel = n + 1 := ⟨fuel - 1, by omega⟩
    have hchild : t.child s b = near.root? := by
      rw [child, hlinks, Links.child_join]
    rw [outermost, hchild]
    cases hroot : near.root? with
    | none =>
      rw [root?_eq_none] at hroot
      subst hroot
      exact ⟨[], b, far, rfl, by simp, rfl⟩
    | some j =>
      obtain ⟨path, a, x, hplug, hs, hout⟩ := ih hnear hroot (by omega : near.numNodes ≤ n)
      refine ⟨path ++ [⟨s, b, far⟩], a, x, ?_, ?_, hout⟩
      · rw [plug_append, ← hplug]
        rfl
      · intro f hf
        rcases List.mem_append.mp hf with hf | hf
        · exact hs f hf
        · rw [List.mem_singleton.mp hf]
/-- The end of a list that is next on side `s`. -/
def nearest {α : Type} (s : Side) (l : List α) : Option α :=
  match s with
  | .left => l.getLast?
  | .right => l.head?

variable {path : List (Frame (Fin cap.size))}

theorem ascend_spec {u : BinaryTree (Fin cap.size)} {fuel : ℕ} (h : LinkedAt t.links t.root path u)
    (hd : Distinct path u) (hi : u.root? = some i) (hf : path.length < fuel) :
    t.ascend s fuel i = some (nearest s (beside s path)) := by
  induction path generalizing u i fuel with
  | nil =>
    obtain ⟨n, rfl⟩ : ∃ n, fuel = n + 1 := ⟨fuel - 1, by omega⟩
    have hparent : (t.node i).parent = none := parent_eq h hi
    rw [ascend, hparent]
    cases s <;> rfl
  | cons f path ih =>
    rw [List.length_cons] at hf
    obtain ⟨n, rfl⟩ : ∃ n, fuel = n + 1 := ⟨fuel - 1, by omega⟩
    have hparent : (t.node i).parent = some f.value := parent_eq h hi
    have habove := h.above
    rw [hi] at habove
    obtain ⟨hside, hother⟩ := links_parent habove hd hi f rfl
    have hchild : t.child s f.value = some i ↔ f.side = s := by
      unfold child
      constructor
      · intro hc
        by_contra hne
        have hs : s = f.side.other := by
          revert hne
          cases s <;> cases f.side <;> simp [Side.other]
        exact hother (hs ▸ hc)
      · rintro rfl
        exact hside
    rw [ascend, hparent]
    dsimp only
    by_cases hfs : f.side = s
    · rw [if_pos (hchild.mpr hfs), ih (linkedAt_cons.mp h) (distinct_cons.mp hd) (by simp) (by omega)]
      simp only [beside, if_pos hfs]
    · rw [if_neg fun hc => hfs (hchild.mp hc)]
      simp only [beside, if_neg hfs]
      cases s <;> simp [nearest]

theorem split_unique {l r : BinaryTree (Fin cap.size)}
    (hn : (plug path (.node i l r)).inorder.Nodup) {before behind : List (Fin cap.size)}
    (hi : (plug path (.node i l r)).inorder = before ++ i :: behind) :
    before = beside .left path ++ l.inorder ∧ behind = r.inorder ++ beside .right path := by
  have hplug : (plug path (.node i l r)).inorder =
      (beside .left path ++ l.inorder) ++ i :: (r.inorder ++ beside .right path) := by
    rw [inorder_plug]
    simp
  rw [hplug] at hi hn
  obtain ⟨-, hr, hlr⟩ := List.nodup_append.mp hn
  have hleft : i ∉ beside .left path ++ l.inorder := fun hm => hlr i hm i (by simp) rfl
  obtain ⟨h₁, -, h₂⟩ := (List.append_cons_inj_of_notMem hleft (List.nodup_cons.mp hr).1).mp hi
  exact ⟨h₁.symm, h₂.symm⟩

/-- What is next on side `s` of a node: `near` is its subtree there. -/
def nearestFrom (s : Side) (path : List (Frame (Fin cap.size)))
    (near : BinaryTree (Fin cap.size)) : NodeRef cap :=
  match s with
  | .left => (beside .left path ++ near.inorder).getLast?
  | .right => (near.inorder ++ beside .right path).head?

theorem neighbour_plug (h : Holds cmp t tree) {near far : BinaryTree (Fin cap.size)}
    (htree : tree = plug path (join s i near far)) :
    t.neighbour s (some i) = some (nearestFrom s path near) := by
  subst htree
  have hlinked := linkedAt_plug.mpr h.linked
  have hd : Distinct path (join s i near far) := distinct_iff.mpr h.nodup
  obtain ⟨hi, hnear, -⟩ := linked_join.mp hlinked.tree
  have hchild : t.child s i = near.root? := by
    rw [child, hi, Links.child_join]
  have hlen : path.length < cap.size := by
    have hn : (i :: pathValues path).Nodup := by
      have hap := hd.apart
      exact List.nodup_cons.mpr ⟨hap.above, (List.nodup_append.mp hd).2.1⟩
    have := List.Nodup.length_le_card hn
    have := length_le_pathValues path
    simp only [List.length_cons, Fintype.card_fin] at *
    omega
  unfold neighbour
  dsimp only
  rw [hchild]
  cases hroot : near.root? with
  | none =>
    rw [root?_eq_none] at hroot
    subst hroot
    show t.ascend s cap.size i = _
    rw [ascend_spec hlinked hd (by simp) hlen]
    cases s <;> simp [nearest, nearestFrom]
  | some j =>
    have hnn : near.inorder.Nodup := hd.apart.leftNodup
    obtain ⟨ctx, a, x, rfl, hs, hout⟩ := outermost_spec (s := s.other) hnear hroot (numNodes_le hnn)
    dsimp only
    rw [hout]
    cases s with
    | left =>
      have hb : beside .right ctx = [] := beside_same hs
      simp [nearestFrom, inorder_plug, hb, join, Side.other]
    | right =>
      have hb : beside .left ctx = [] := beside_same hs
      simp [nearestFrom, inorder_plug, hb, join, Side.other]

theorem neighbour_spec (h : Holds cmp t tree) {before behind : List (Fin cap.size)}
    (hi : tree.inorder = before ++ i :: behind) :
    t.successor (some i) = some behind.head? ∧ t.predecessor (some i) = some before.getLast? := by
  obtain ⟨path, l, r, htree⟩ := exists_plug (t := tree) (a := i) (by simp [hi])
  have hn := h.nodup
  rw [htree] at hi hn
  obtain ⟨rfl, rfl⟩ := split_unique hn hi
  exact ⟨neighbour_plug (s := .right) h htree, neighbour_plug (s := .left) h htree⟩

theorem begin_spec (h : Holds cmp t tree) : t.begin = some tree.inorder.head? := by
  have hroot : t.root = tree.root? := h.linked.above
  unfold begin minimum
  rw [hroot]
  cases hi : tree.root? with
  | none =>
    rw [root?_eq_none] at hi
    subst hi
    rfl
  | some i =>
    obtain ⟨path, a, x, rfl, hs, hout⟩ :=
      outermost_spec (s := .left) h.linked.tree hi (numNodes_le h.nodup)
    dsimp only
    rw [hout]
    simp [inorder_plug, beside_same hs, join]

/-- `for (auto it = begin(); it != end(); ++it)`: the nodes that the iterator visits. -/
def visit (t : AvlTree cap K V) : ℕ → NodeRef cap → Option (List (Fin cap.size))
  | _, none => some []
  | 0, some _ => none
  | fuel + 1, some i => do
    let next ← t.successor (some i)
    let rest ← visit t fuel next
    some (i :: rest)

theorem visit_spec (h : Holds cmp t tree) {before behind : List (Fin cap.size)}
    (hi : tree.inorder = before ++ behind) {fuel : ℕ} (hf : behind.length ≤ fuel) :
    t.visit fuel behind.head? = some behind := by
  induction behind generalizing before fuel with
  | nil => cases fuel <;> rfl
  | cons i behind ih =>
    rw [List.length_cons] at hf
    obtain ⟨n, rfl⟩ : ∃ n, fuel = n + 1 := ⟨fuel - 1, by omega⟩
    have hrest := @ih (before ++ [i]) (by simpa using hi) n (by omega)
    rw [List.head?_cons, visit, (neighbour_spec h hi).1, Option.bind_eq_bind, Option.bind_some,
      hrest]
    rfl

end Castle.Container.AvlTree

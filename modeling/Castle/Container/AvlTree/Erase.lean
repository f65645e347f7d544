import Castle.Container.AvlTree.Insert

/-!
# Erasure from the AVL tree

A node with one child is replaced by it, a node with two by its in-order successor,
which leaves its own place to its right subtree.
-/

namespace Castle.Container.AvlTree

open BinaryTree

variable {cap : Capacity} {K V : Type} {t t' : AvlTree cap K V} {cmp : Compare K}
  {tree : BinaryTree (Fin cap.size)} {free : List (Fin cap.size)}

section transplant

variable {path : List (Frame (Fin cap.size))} {a : Fin cap.size} {u : BinaryTree (Fin cap.size)}

section

variable (h : LinkedPath t.links t.root (some a) path) (hpar : (t.node a).parent = pathParent path)
  (hd : Distinct path u) (ha : u.root? = some a)
include h hpar hd ha

theorem transplant_eq (new : NodeRef cap) :
    t.transplant a new = (t.relinkPath path new).setParent? new (pathParent path) := by
  have hnot : pathParent path ≠ some a := fun hp => hd.disjoint (mem_of_root? ha) (pathParent_mem hp)
  unfold transplant
  rw [relink_eq hpar (links_parent h hd ha), node_relinkPath_ne hnot, hpar]

theorem links_transplant_ne {new : NodeRef cap} {j : Fin cap.size} (hj : pathParent path ≠ some j)
    (hnew : new ≠ some j) : (t.transplant a new).links j = t.links j := by
  rw [transplant_eq h hpar hd ha, links_setParent?_ne _ _ hnew, links_relinkPath_ne hj]

theorem links_transplant_new {j : Fin cap.size} (hj : pathParent path ≠ some j) :
    (t.transplant a (some j)).links j = { t.links j with parent := pathParent path } := by
  rw [transplant_eq h hpar hd ha, links_setParent?_self _ _ rfl, links_relinkPath_ne hj]

theorem SameEntries.transplant (new : NodeRef cap) : SameEntries t (t.transplant a new) := by
  rw [transplant_eq h hpar hd ha]
  exact (SameEntries.relinkPath t path new).trans (.setParent? _ new _)

theorem height_transplant (new : NodeRef cap) (j : Fin cap.size) :
    ((t.transplant a new).node j).height = (t.node j).height := by
  rw [transplant_eq h hpar hd ha, height_setParent?, height_relinkPath]

theorem relinked_transplant {new : NodeRef cap} (hnew : ∀ j, new = some j → pathParent path ≠ some j) :
    Relinked t.links (t.transplant a new).links t.root (t.transplant a new).root path new := by
  rw [transplant_eq h hpar hd ha]
  cases path with
  | nil => exact root_setParent? _ _ new
  | cons f path =>
    refine ⟨root_setParent? _ _ new, ?_⟩
    rw [links_setParent?_ne _ _ fun hf => hnew _ hf rfl]
    exact t.links_setChild_self f.side new

end

theorem transplant_child {s : Side} {v : BinaryTree (Fin cap.size)}
    (h : LinkedAt t.links t.root path (join s a .nil v)) (hd : Distinct path (join s a .nil v)) :
    LinkedAt (t.transplant a v.root?).links (t.transplant a v.root?).root path v ∧ SameEntries t
    (t.transplant a v.root?) ∧ (∀ j, ((t.transplant a v.root?).node j).height = (t.node j).height) ∧
    ∀ j, j ∉ pathValues path → j ∉ v.inorder → (t.transplant a v.root?).links j = t.links j := by
  have hap := hd.apart
  have ha : (join s a .nil v).root? = some a := by simp
  have hpar := parent_eq h ha
  obtain ⟨-, -, hv⟩ := linked_join.mp h.tree
  have hnew : ∀ j, v.root? = some j → pathParent path ≠ some j :=
    fun j hj hp => hap.rightAbove j (mem_of_root? hj) (pathParent_mem hp)
  have habove : LinkedPath t.links t.root (some a) path := ha ▸ h.above
  refine ⟨⟨habove.relink hd (relinked_transplant habove hpar hd ha hnew) fun j hj hp => ?_,
    hv.reparent hap.rightNodup (fun j hj => ?_) fun j hj hroot => ?_⟩,
    SameEntries.transplant habove hpar hd ha _, height_transplant habove hpar hd ha _,
    fun j hj hjv => ?_⟩
  · refine links_transplant_ne habove hpar hd ha hp fun hroot => ?_
    exact hap.rightAbove j (mem_of_root? hroot) hj
  · rw [hj]
    exact links_transplant_new habove hpar hd ha (hnew j hj)
  · exact links_transplant_ne habove hpar hd ha
      (fun hp => hap.rightAbove j hj (pathParent_mem hp)) hroot
  · exact links_transplant_ne habove hpar hd ha (fun hp => hj (pathParent_mem hp))
      fun hroot => hjv (mem_of_root? hroot)

end transplant

section replace

variable {path ctx : List (Frame (Fin cap.size))} {item next : Fin cap.size}
  {l r sr : BinaryTree (Fin cap.size)}

/-- `next` is out of the tree and already has `r`, the right subtree of `item`, below it. -/
structure Ready (t : AvlTree cap K V) (path : List (Frame (Fin cap.size)))
    (item next : Fin cap.size) (l r : BinaryTree (Fin cap.size)) : Prop where
  above : LinkedPath t.links t.root (some item) path
  itemLeft : (t.node item).left = l.root?
  itemParent : (t.node item).parent = pathParent path
  left : Linked t.links (some item) l
  nextRight : (t.node next).right = r.root?
  right : Linked t.links (some next) r

/-- The second half of `replaceBySuccessor`. -/
def takePlace (t : AvlTree cap K V) (item next : Fin cap.size) : Option (AvlTree cap K V) := do
  let t := t.transplant item (some next)
  let t := t.setChild .left next (t.node item).left
  let left ← (t.node next).left
  let t := t.setParent left (some next)
  some (t.updateHeight next)

theorem Ready.takePlace (h : Ready t path item next l r)
    (hd : Distinct path (.node item l r)) (hl : next ∉ l.inorder) (hr : next ∉ r.inorder)
    (hp : next ∉ pathValues path) (hne : next ≠ item) {j : Fin cap.size} (hj : l.root? = some j) :
    ∃ t', t.takePlace item next = some t' ∧ LinkedAt t'.links t'.root path (.node next l r) ∧
    SameEntries t t' ∧ (∀ k, k ≠ next → (t'.node k).height = (t.node k).height) ∧
    ∀ k, k ≠ next → k ∉ l.inorder → k ∉ pathValues path → t'.links k = t.links k := by
  have hap : Apart path item l r := Distinct.apart (s := .left) hd
  have hpn : pathParent path ≠ some next := fun h => hp (pathParent_mem h)
  have hpi : pathParent path ≠ some item := fun h => hap.above (pathParent_mem h)
  have hjl : j ∈ l.inorder := mem_of_root? hj
  have hjn : j ≠ next := fun h => hl (h ▸ hjl)
  have hni : some next ≠ some item := fun h => hne (Option.some.inj h)
  -- after the transplantation
  have hsame := SameEntries.transplant h.above h.itemParent hd rfl (some next)
  have hheight := height_transplant h.above h.itemParent hd rfl (some next)
  have hother : ∀ k, pathParent path ≠ some k → k ≠ next →
      (t.transplant item (some next)).links k = t.links k := fun k hk hkn =>
    links_transplant_ne h.above h.itemParent hd rfl hk fun hkn' => hkn (Option.some.inj hkn').symm
  have hnext : (t.transplant item (some next)).links next =
      { t.links next with parent := pathParent path } :=
    links_transplant_new h.above h.itemParent hd rfl hpn
  have hrelinked := relinked_transplant h.above h.itemParent hd rfl
    fun k hk => Option.some.inj hk ▸ hpn
  have hitem : ((t.transplant item (some next)).node item).left = l.root? :=
    (congrArg Links.left (hother item hpi hne.symm)).trans h.itemLeft
  unfold AvlTree.takePlace
  dsimp only
  generalize t.transplant item (some next) = t₁ at hsame hheight hother hnext hrelinked hitem
  have hleft : ((t₁.setChild .left next (t₁.node item).left).node next).left = some j := by
    rw [setChild, node_modifyNode_self]
    exact hitem.trans hj
  rw [hleft, Option.bind_eq_bind, Option.bind_some]
  -- after all changes of links
  have hchanged : ∀ k, k ≠ next → k ≠ j → pathParent path ≠ some k →
      (((t₁.setChild .left next (t₁.node item).left).setParent j (some next)).updateHeight
        next).links k = t.links k := by
    intro k hkn hkj hk
    rw [links_updateHeight, links_setParent_ne _ _ hkj, links_setChild_ne _ _ _ hkn,
      hother k hk hkn]
  refine ⟨_, rfl, ⟨?above, ?_, ?left, ?right⟩, ?entries, ?heights, ?outside⟩
  case above =>
    refine h.above.relink hd ?_ fun k hk hkp => ?_
    · cases path with
      | nil => exact hrelinked
      | cons f path =>
        obtain ⟨hroot, hf⟩ := hrelinked
        have hfn : f.value ≠ next := fun hfn => hpn (congrArg some hfn)
        have hfj : f.value ≠ j := fun hfj => hap.leftAbove j hjl (by simp [pathValues, hfj])
        refine ⟨hroot, ?_⟩
        rw [links_updateHeight, links_setParent_ne _ _ hfj, links_setChild_ne _ _ _ hfn, hf]
        rfl
    · exact hchanged k (fun hkn => hp (hkn ▸ hk)) (fun hkj => hap.leftAbove j hjl (hkj ▸ hk)) hkp
  · rw [links_updateHeight, links_setParent_ne _ _ hjn.symm, links_setChild_self, hnext, hitem,
      ← h.nextRight]
    rfl
  case left =>
    refine h.left.reparent hap.leftNodup (fun k hk => ?_) fun k hk hroot => ?_
    · obtain rfl : j = k := Option.some.inj (hj.symm.trans hk)
      rw [links_updateHeight, links_setParent_self, links_setChild_ne _ _ _ hjn,
        hother j (fun hjp => hap.leftAbove j hjl (pathParent_mem hjp)) hjn]
    · exact hchanged k (fun hkn => hl (hkn ▸ hk)) (fun hkj => hroot (hkj ▸ hj))
        fun hkp => hap.leftAbove k hk (pathParent_mem hkp)
  case right =>
    refine h.right.congr fun k hk => hchanged k (fun hkn => hr (hkn ▸ hk)) ?_ ?_
    · exact fun hkj => hap.children j hjl (hkj ▸ hk)
    · exact fun hkp => hap.rightAbove k hk (pathParent_mem hkp)
  case entries =>
    exact ((hsame.trans (.setChild _ _ _ _)).trans (.setParent _ _ _)).trans (.updateHeight _ _)
  case heights =>
    intro k hk
    rw [height_updateHeight_ne _ hk, height_setParent, height_setChild, hheight]
  case outside =>
    intro k hkn hkl hkp
    exact hchanged k hkn (fun hkj => hkl (hkj ▸ hjl)) fun hk => hkp (pathParent_mem hk)

/-- The first half of `replaceBySuccessor`: the successor gives its own place to its right
subtree. -/
def stepOut (t : AvlTree cap K V) (item next : Fin cap.size) : Option (AvlTree cap K V) :=
  if (t.node next).parent ≠ some item then do
    let t := t.transplant next (t.node next).right
    let t := t.setChild .right next (t.node item).right
    let right ← (t.node next).right
    some (t.setParent right (some next))
  else some t

theorem replaceBySuccessor_eq (t : AvlTree cap K V) (item next : Fin cap.size) :
    t.replaceBySuccessor item next = (t.stepOut item next).bind fun t => t.takePlace item next := by
  unfold replaceBySuccessor stepOut
  split
  · dsimp only
    cases (((t.transplant next (t.node next).right).setChild .right next _).node next).right <;> rfl
  · rfl

theorem out_perm : ((BinaryTree.node item l (plug ctx sr)).inorder ++ pathValues path).Perm
    (sr.inorder ++ pathValues (ctx ++ ⟨.right, item, l⟩ :: path)) := by
  have h := inorder_plug_perm (ctx ++ ⟨.right, item, l⟩ :: path) sr
  rw [plug_append] at h
  exact (inorder_plug_perm path (.node item l (plug ctx sr))).symm.trans h

theorem distinct_out (hd : Distinct (ctx ++ ⟨.right, item, l⟩ :: path) (.node next .nil sr)) :
    Distinct path (.node item l (plug ctx sr)) ∧
    next ∉ (BinaryTree.node item l (plug ctx sr)).inorder ∧ next ∉ pathValues path := by
  have hn : (next :: (sr.inorder ++ pathValues (ctx ++ ⟨.right, item, l⟩ :: path))).Nodup := hd
  obtain ⟨hnext, hrest⟩ := List.nodup_cons.mp hn
  rw [← out_perm.mem_iff, List.mem_append, not_or] at hnext
  exact ⟨out_perm.nodup_iff.mpr hrest, hnext⟩

theorem stepOut_spec
    (h : LinkedAt t.links t.root (ctx ++ ⟨.right, item, l⟩ :: path) (.node next .nil sr))
    (hd : Distinct (ctx ++ ⟨.right, item, l⟩ :: path) (.node next .nil sr)) :
    ∃ t', t.stepOut item next = some t' ∧ Ready t' path item next l (plug ctx sr) ∧
      SameEntries t t' ∧ (∀ k, (t'.node k).height = (t.node k).height) ∧
      ∀ k, k ≠ next → k ∉ (BinaryTree.node item l (plug ctx sr)).inorder → k ∉ pathValues path →
        t'.links k = t.links k := by
  have hpar : (t.node next).parent = pathParent (ctx ++ ⟨.right, item, l⟩ :: path) :=
    parent_eq h rfl
  cases ctx with
  | nil =>
    have hparent : (t.node next).parent = some item := hpar
    refine ⟨t, ?_, ?_, .refl t, fun _ => rfl, fun _ _ _ _ => rfl⟩
    · rw [stepOut, if_neg fun hne => hne hparent]
    · obtain ⟨hnext, -, hsr⟩ := h.tree
      obtain ⟨hitem, hl, hp⟩ := h.above
      exact ⟨hp, congrArg Links.left hitem, congrArg Links.parent hitem, hl,
        congrArg Links.right hnext, hsr⟩
  | cons f ctx =>
    obtain ⟨hdo, hno, hnp⟩ := distinct_out hd
    have hap : Apart path item l (plug (f :: ctx) sr) := Distinct.apart (s := .left) hdo
    have hfr : f.value ∈ (plug (f :: ctx) sr).inorder :=
      (inorder_plug_perm _ _).mem_iff.mpr (by simp [pathValues])
    have hni : next ≠ item := fun hni => hno (by simp [hni])
    have hparent : (t.node next).parent ≠ some item := by
      rw [hpar]
      rintro ⟨⟩
      exact hap.right hfr
    obtain ⟨hnext, -, -⟩ := h.tree
    have hright : (t.node next).right = sr.root? := congrArg Links.right hnext
    obtain ⟨hlinked, hsame, hheight, hother⟩ := transplant_child (s := .left) h hd
    obtain ⟨j, hj⟩ : ∃ j, (plug (f :: ctx) sr).root? = some j := by
      rw [← Option.ne_none_iff_exists']
      intro hnone
      rw [root?_eq_none.mp hnone] at hfr
      cases hfr
    have hjr := mem_of_root? hj
    have hjn : j ≠ next := fun hjn => hno (by simp [← hjn, hjr])
    have hji : j ≠ item := fun hji => hap.right (hji ▸ hjr)
    rw [stepOut, if_pos hparent, hright]
    generalize t.transplant next sr.root? = t₁ at hlinked hsame hheight hother
    rw [linkedAt_plug, plug_append, ← linkedAt_plug, linkedAt_cons] at hlinked
    obtain ⟨hitem, hl, hr⟩ := hlinked.tree
    have hroot : (t₁.node item).right = some j := (congrArg Links.right hitem).trans hj
    have hself : ((t₁.setChild .right next (t₁.node item).right).node next).right = some j := by
      rw [setChild, node_modifyNode_self]
      exact hroot
    dsimp only
    rw [hself, Option.bind_eq_bind, Option.bind_some]
    have hchanged : ∀ k, k ≠ next → k ≠ j →
        ((t₁.setChild .right next (t₁.node item).right).setParent j (some next)).links k =
          t₁.links k := by
      intro k hkn hkj
      rw [links_setParent_ne _ _ hkj, links_setChild_ne _ _ _ hkn]
    have hitem' := (hchanged item hni.symm hji.symm).trans hitem
    refine ⟨_, rfl, ⟨?above, congrArg Links.left hitem', congrArg Links.parent hitem', ?left, ?below,
      ?right⟩, (hsame.trans (.setChild _ _ _ _)).trans (.setParent _ _ _), ?heights, ?outside⟩
    case above =>
      refine hlinked.above.congr fun k hk => hchanged k (fun hkn => hnp (hkn ▸ hk)) ?_
      exact fun hkj => hap.rightAbove j hjr (hkj ▸ hk)
    case left =>
      refine hl.congr fun k hk => hchanged k (fun hkn => hno (by simp [← hkn, hk])) ?_
      exact fun hkj => hap.children k hk (hkj ▸ hjr)
    case below =>
      have hn : ((t₁.setChild .right next (t₁.node item).right).setParent j (some next)).links next =
          (t₁.setChild .right next (t₁.node item).right).links next :=
        links_setParent_ne _ _ hjn.symm
      exact (congrArg Links.right hn).trans (hself.trans hj.symm)
    case right =>
      refine hr.reparent hap.rightNodup (fun k hk => ?_) fun k hk hroot => ?_
      · obtain rfl : j = k := Option.some.inj (hj.symm.trans hk)
        rw [links_setParent_self, links_setChild_ne _ _ _ hjn]
      · exact hchanged k (fun hkn => hno (by simp [← hkn, hk])) fun hkj => hroot (hkj ▸ hj)
    case heights =>
      intro k
      rw [height_setParent, height_setChild, hheight]
    case outside =>
      intro k hkn hkr hkp
      have hk : k ∉ sr.inorder ++ pathValues (f :: ctx ++ ⟨.right, item, l⟩ :: path) := by
        rw [← out_perm.mem_iff, List.mem_append, not_or]
        exact ⟨hkr, hkp⟩
      rw [List.mem_append, not_or] at hk
      have hkj : k ≠ j := fun hkj => hkr (by simp [hkj, hjr])
      rw [hchanged k hkn hkj, hother k hk.2 hk.1]

theorem replaceBySuccessor_spec
    (h : LinkedAt t.links t.root (ctx ++ ⟨.right, item, l⟩ :: path) (.node next .nil sr))
    (hd : Distinct (ctx ++ ⟨.right, item, l⟩ :: path) (.node next .nil sr)) (hl : l ≠ .nil) :
    ∃ t', t.replaceBySuccessor item next = some t' ∧
      LinkedAt t'.links t'.root (ctx ++ ⟨.right, next, l⟩ :: path) sr ∧ SameEntries t t' ∧
      (∀ k, k ≠ next → (t'.node k).height = (t.node k).height) ∧
      ∀ k, k ≠ next → k ∉ (BinaryTree.node item l (plug ctx sr)).inorder → k ∉ pathValues path →
        t'.links k = t.links k := by
  obtain ⟨hdo, hno, hnp⟩ := distinct_out hd
  simp only [inorder_node, List.mem_append, List.mem_cons, not_or] at hno
  obtain ⟨j, hj⟩ : ∃ j, l.root? = some j := by
    rw [← Option.ne_none_iff_exists']
    exact fun hnone => hl (root?_eq_none.mp hnone)
  obtain ⟨t₁, ht₁, hready, hsame₁, hheight₁, hout₁⟩ := stepOut_spec h hd
  obtain ⟨t₂, ht₂, hlinked, hsame₂, hheight₂, hout₂⟩ :=
    hready.takePlace hdo hno.1 hno.2.2 hnp hno.2.1 hj
  refine ⟨t₂, ?_, ?_, hsame₁.trans hsame₂, fun k hk => (hheight₂ k hk).trans (hheight₁ k),
    fun k hk hkt hkp => ?_⟩
  · rw [replaceBySuccessor_eq, ht₁]
    exact ht₂
  · rw [linkedAt_plug, plug_append, ← linkedAt_plug, linkedAt_cons]
    exact hlinked
  · rw [hout₂ k hk (fun hkl => hkt (by simp [hkl])) hkp, hout₁ k hk hkt hkp]

end replace

variable {item : Fin cap.size}

theorem releaseNode_spec {e : K × V} (he : t.value? item = some e) :
    ∃ t', t.releaseNode item = some t' ∧ t'.root = t.root ∧ t'.freeHead = some item ∧
      t'.size = t.size - 1 ∧ t'.node item = { left := t.freeHead, height := 0 } ∧
      ∀ j, j ≠ item → t'.node j = t.node j := by
  have hv : (t.node item).value = some e := he
  have hrelease : t.releaseNode item = some { t.modifyNode item fun _ =>
        { left := t.freeHead, right := none, parent := none, height := 0, used := false
          value := none } with
      freeHead := some item
      size := if t.size > 0 then t.size - 1 else t.size } := by
    rw [releaseNode, hv]
    rfl
  refine ⟨_, hrelease, rfl, rfl, ?_, t.node_modifyNode_self _, fun j hj => t.node_modifyNode_ne _ hj⟩
  show (if t.size > 0 then t.size - 1 else t.size) = _
  split <;> omega

variable {path : List (Frame (Fin cap.size))}

theorem release_unbalanced {t₁ : AvlTree cap K V}
    {u : BinaryTree (Fin cap.size)} {h₀ : ℕ} {before behind : List (Fin cap.size)}
    (h : Rep cmp t tree free) (hin : tree.inorder = before ++ item :: behind)
    (hplug : (plug path u).inorder = before ++ behind) (hsame : SameEntries t t₁)
    (hlinked : LinkedAt t₁.links t₁.root path u) (hstored : t₁.Stored u) (hsp : t₁.StoredPath path)
    (hb : u.Balanced) (hfit : Fits h₀ path) (hheight : u.height ≤ h₀ + 1 ∧ h₀ ≤ u.height + 1)
    (hout : ∀ i, i ∉ tree.inorder → t₁.links i = t.links i) : ∃ t₂, t₁.releaseNode item = some t₂ ∧
    Unbalanced cmp t₂ path u h₀ (item :: free) ∧ ∀ i, i ≠ item → t₂.value? i = t.value? i := by
  have hitem : item ∈ tree.inorder := by simp [hin]
  have hn := h.nodup
  rw [hin] at hn
  have hni : item ∉ (plug path u).inorder := by
    rw [hplug]
    exact (List.nodup_cons.mp (List.nodup_middle.mp hn)).1
  have hsub : ∀ i ∈ (plug path u).inorder, i ∈ tree.inorder := by
    intro i hi
    rw [hplug] at hi
    rw [hin]
    simp only [List.mem_append, List.mem_cons] at hi ⊢
    tauto
  have hne : ∀ i ∈ (plug path u).inorder, i ≠ item := fun i hi hii => hni (hii ▸ hi)
  have hperm := inorder_plug_perm path u
  have hu : ∀ i ∈ u.inorder, i ≠ item := fun i hi => hne i (hperm.mem_iff.mpr (by simp [hi]))
  have hp : ∀ i ∈ pathValues path, i ≠ item := fun i hi => hne i (hperm.mem_iff.mpr (by simp [hi]))
  obtain ⟨e, he⟩ := h.values item hitem
  obtain ⟨t₂, ht₂, hroot, hfree, hsize, hself, hother⟩ :=
    releaseNode_spec (t := t₁) ((hsame.value item).trans he)
  have hlinks : ∀ i, i ≠ item → t₂.links i = t₁.links i := fun i hi => by
    rw [links, links, hother i hi]
  have hheights : ∀ i, i ≠ item → (t₂.node i).height = (t₁.node i).height := fun i hi => by
    rw [hother i hi]
  have hvalue : ∀ i, i ≠ item → t₂.value? i = t.value? i := fun i hi => by
    rw [value?, hother i hi, hsame.value]
    rfl
  have hentries : t₂.entriesOf (plug path u).inorder = t.entriesOf (plug path u).inorder :=
    entriesOf_congr fun i hi => hvalue i (hne i hi)
  refine ⟨t₂, ht₂, ⟨⟨?above, ?below⟩, hstored.congr fun i hi => hheights i (hu i hi), ?storedPath, hb,
    hfit, hheight, ?values, ?sorted, ?used, ?chain, ?partition, ?size⟩, hvalue⟩
  case above =>
    rw [hroot]
    exact hlinked.above.congr fun i hi => hlinks i (hp i hi)
  case below => exact hlinked.tree.congr fun i hi => hlinks i (hu i hi)
  case storedPath =>
    exact fun f hf => (hsp f hf).congr fun i hi => hheights i (hp i (sibling_subset hf hi))
  case values =>
    intro i hi
    rw [hvalue i (hne i hi)]
    exact h.values i (hsub i hi)
  case sorted =>
    rw [hentries, hplug]
    have hs := h.sorted
    rw [hin, entriesOf_append, entriesOf_cons he] at hs
    rw [entriesOf_append]
    exact hs.sublist (List.sublist_cons_self _ _ |>.append_left _)
  case used =>
    intro i hi
    rw [hother i (hne i hi), hsame.used]
    exact h.used i (hsub i hi)
  case chain =>
    rw [hfree]
    refine ⟨rfl, by rw [hself], by rw [hself], ?_⟩
    rw [hself]
    show t₂.FreeChain t₁.freeHead free
    rw [hsame.freeHead]
    refine h.chain.congr fun i hi => ?_
    have hit : i ∉ tree.inorder := h.apart hi
    have hii : i ≠ item := fun hii => hit (hii ▸ hitem)
    exact ⟨(hlinks i hii).trans (hout i hit), by rw [hother i hii, hsame.used],
      by rw [hother i hii, hsame.value]⟩
  case partition =>
    refine List.Perm.trans ?_ h.partition
    rw [hplug, hin]
    simp only [List.append_assoc, List.cons_append]
    exact List.perm_middle.append_left _
  case size =>
    rw [hsize, hsame.size, h.size_eq, hin, hplug]
    simp

/-- What is left after the erasure of `item`. -/
structure Erased (cmp : Compare K) (t t' : AvlTree cap K V) (item : Fin cap.size)
    (before behind free : List (Fin cap.size)) (tree' : BinaryTree (Fin cap.size)) : Prop where
  rep : Rep cmp t' tree' (item :: free)
  inorder : tree'.inorder = before ++ behind
  value : ∀ i, i ≠ item → t'.value? i = t.value? i

theorem Unbalanced.erased {t₂ : AvlTree cap K V} {u : BinaryTree (Fin cap.size)}
    {h₀ : ℕ} {before behind : List (Fin cap.size)} (h : Unbalanced cmp t₂ path u h₀ (item :: free))
    (hplug : (plug path u).inorder = before ++ behind)
    (hvalue : ∀ i, i ≠ item → t₂.value? i = t.value? i) : ∃ t', t₂.rebalance (pathParent path) =
    some t' ∧ Erased cmp t t' item before behind free (climb path u) := by
  obtain ⟨t', ht', hrep, hsame⟩ := h.rebalance
  refine ⟨t', ht', hrep, ?_, fun i hi => ?_⟩
  · rw [inorder_climb, hplug]
  · rw [← hvalue i hi]
    exact hsame.value i

theorem eraseNode_child {s : Side} {v : BinaryTree (Fin cap.size)}
    (h : Rep cmp t (plug path (join s item .nil v)) free) {before behind : List (Fin cap.size)}
    (hin : (plug path (join s item .nil v)).inorder = before ++ item :: behind)
    (hplug : (plug path v).inorder = before ++ behind) :
    ∃ t' tree', (do
        let t ← (t.transplant item v.root?).releaseNode item
        t.rebalance (if pathParent path ≠ none then pathParent path else v.root?)) = some t' ∧
      Erased cmp t t' item before behind free tree' := by
  have hlinked := linkedAt_plug.mpr h.linked
  have hd : Distinct path (join s item .nil v) := distinct_iff.mpr h.nodup
  have hap := hd.apart
  obtain ⟨hlinked', hsame, hheight, hout⟩ := transplant_child hlinked hd
  obtain ⟨hstored, hsp⟩ := h.stored.of_plug
  have hbal := h.balanced
  rw [balanced_plug, balanced_join, height_join] at hbal
  obtain ⟨⟨-, -, hb⟩, hfit⟩ := hbal
  have hdiff : v.height ≤ max (BinaryTree.nil : BinaryTree (Fin cap.size)).height v.height + 1 + 1 ∧
      max (BinaryTree.nil : BinaryTree (Fin cap.size)).height v.height + 1 ≤ v.height + 1 := by
    simp only [BinaryTree.height]
    omega
  obtain ⟨t₂, ht₂, hunb, hvalue⟩ := release_unbalanced h hin hplug hsame hlinked'
    ((stored_join.mp hstored).2.2.congr fun i _ => hheight i)
    (fun f hf => (hsp f hf).congr fun i _ => hheight i) hb hfit hdiff fun i hi => by
      have hi' : i ∉ (join s item .nil v).inorder ++ pathValues path :=
        fun hm => hi ((inorder_plug_perm path _).mem_iff.mpr hm)
      simp only [List.mem_append, mem_join, not_or] at hi'
      exact hout i hi'.2 hi'.1.2.2
  obtain ⟨t', ht', herased⟩ := hunb.erased hplug hvalue
  refine ⟨t', _, ?_, herased⟩
  rw [ht₂, Option.bind_eq_bind, Option.bind_some]
  cases path with
  | cons f path => exact ht'
  | nil =>
    have hset := rebalance_settled hunb.linked hunb.stored hunb.balanced
    have hnone : t₂.rebalance none = some t₂ := by
      unfold rebalance
      rfl
    rw [if_neg (by simp), hset, ← hnone]
    exact ht'

theorem eraseNode_two {l r : BinaryTree (Fin cap.size)}
    (h : Rep cmp t (plug path (.node item l r)) free) (hl : l ≠ .nil) (hr : r ≠ .nil)
    {before behind : List (Fin cap.size)}
    (hin : (plug path (.node item l r)).inorder = before ++ item :: behind) :
    ∃ t' tree', t.eraseNode item = some t' ∧ Erased cmp t t' item before behind free tree' := by
  have hlinked := linkedAt_plug.mpr h.linked
  obtain ⟨hbefore, hbehind⟩ := split_unique h.nodup hin
  obtain ⟨hitem, -, hlr⟩ := hlinked.tree
  have hleft : (t.node item).left = l.root? := congrArg Links.left hitem
  have hright : (t.node item).right = r.root? := congrArg Links.right hitem
  obtain ⟨j, hj⟩ : ∃ j, r.root? = some j := by
    rw [← Option.ne_none_iff_exists']
    exact fun hnone => hr (root?_eq_none.mp hnone)
  have hrn : r.inorder.Nodup :=
    (Distinct.apart (s := .left) (distinct_iff.mpr h.nodup : Distinct path (.node item l r))).rightNodup
  obtain ⟨ctx, next, sr, rfl, hs, hout⟩ := outermost_spec (s := .left) hlr hj (numNodes_le hrn)
  -- the tree from the place of the successor
  have htree (a : Fin cap.size) (v : BinaryTree (Fin cap.size)) :
      plug path (.node a l (plug ctx v)) = plug (ctx ++ ⟨.right, a, l⟩ :: path) v := by
    rw [plug_append]
    rfl
  have hplugged : plug path (.node item l (plug ctx (join .left next .nil sr))) =
      plug (ctx ++ ⟨.right, item, l⟩ :: path) (.node next .nil sr) := htree item _
  have hlinked' := h.linked
  have hstored := h.stored
  have hbal := h.balanced
  have hn := h.nodup
  rw [hplugged] at hlinked' hstored hbal hn
  rw [← linkedAt_plug] at hlinked'
  have hd := distinct_iff.mpr hn
  obtain ⟨hdo, hno, hnp⟩ := distinct_out hd
  obtain ⟨⟨-, -, hsr⟩, hsp⟩ := hstored.of_plug
  rw [balanced_plug] at hbal
  obtain ⟨⟨-, -, hb⟩, hfit⟩ := hbal
  obtain ⟨t₁, ht₁, hlinked₁, hsame, hheight, hout₁⟩ := replaceBySuccessor_spec hlinked' hd hl
  have hbl : beside .left ctx = [] := beside_same hs
  have hin' : (plug (ctx ++ ⟨.right, next, l⟩ :: path) sr).inorder = before ++ behind := by
    rw [← htree, hbefore, hbehind]
    simp [inorder_plug, hbl, join]
  have hnsr : ∀ k ∈ sr.inorder, k ≠ next := by
    rintro k hk rfl
    exact (Distinct.apart (s := .left) (x := .nil) hd).right hk
  have hsib : ∀ f ∈ ctx ++ ⟨.right, next, l⟩ :: path,
      ∃ g ∈ ctx ++ ⟨.right, item, l⟩ :: path, g.sibling = f.sibling := by
    intro f hf
    rcases List.mem_append.mp hf with hf | hf
    · exact ⟨f, by simp [hf], rfl⟩
    rcases List.mem_cons.mp hf with rfl | hf
    · exact ⟨⟨.right, item, l⟩, by simp, rfl⟩
    · exact ⟨f, by simp [hf], rfl⟩
  have hsp₁ : t₁.StoredPath (ctx ++ ⟨.right, next, l⟩ :: path) := by
    intro f hf
    obtain ⟨g, hg, hgf⟩ := hsib f hf
    rw [← hgf]
    refine (hsp g hg).congr fun k hk => hheight k fun hkn => ?_
    exact hd.disjoint (a := next) (by simp) (hkn ▸ sibling_subset hg hk)
  have hdiff : sr.height ≤ max (BinaryTree.nil : BinaryTree (Fin cap.size)).height sr.height + 1 + 1 ∧
      max (BinaryTree.nil : BinaryTree (Fin cap.size)).height sr.height + 1 ≤ sr.height + 1 := by
    simp only [BinaryTree.height]
    omega
  have hout₂ : ∀ i, i ∉ (plug path (.node item l (plug ctx (join .left next .nil sr)))).inorder →
      t₁.links i = t.links i := by
    intro i hi
    have hi' : i ∉ next :: (sr.inorder ++ pathValues (ctx ++ ⟨.right, item, l⟩ :: path)) := by
      rw [hplugged, (inorder_plug_perm _ _).mem_iff] at hi
      exact hi
    rw [List.mem_cons, not_or, ← out_perm.mem_iff, List.mem_append, not_or] at hi'
    exact hout₁ i hi'.1 hi'.2.1 hi'.2.2
  obtain ⟨t₂, ht₂, hunb, hvalue⟩ := release_unbalanced h hin hin' hsame hlinked₁
    (hsr.congr fun k hk => hheight k (hnsr k hk)) hsp₁ hb (fits_value hfit) hdiff hout₂
  obtain ⟨t', ht', herased⟩ := hunb.erased hin' hvalue
  refine ⟨t', _, ?_, herased⟩
  have hparent : (t.node next).parent = pathParent (ctx ++ ⟨.right, item, l⟩ :: path) :=
    parent_eq hlinked' rfl
  have hfrom : (if (t.node next).parent ≠ some item then (t.node next).parent else some next) =
      pathParent (ctx ++ ⟨.right, next, l⟩ :: path) := by
    rw [hparent]
    cases ctx with
    | nil => exact if_neg fun hne => hne rfl
    | cons f ctx =>
      have hfi : f.value ≠ item := by
        rintro rfl
        refine (Distinct.apart (s := .left) hdo).right ?_
        exact (inorder_plug_perm _ _).mem_iff.mpr (by simp [pathValues])
      exact if_pos fun hf => hfi (Option.some.inj hf)
  have hmin : t.minimum (t.node item).right = some (some next) := by
    rw [hright, hj, minimum, hout]
    rfl
  have hlne : (t.node item).left ≠ none := by
    rw [hleft]
    exact fun hnone => hl (root?_eq_none.mp hnone)
  have hrne : (t.node item).right ≠ none := by
    rw [hright, hj]
    simp
  unfold eraseNode
  rw [if_neg (not_or.mpr ⟨hlne, hrne⟩), hmin]
  simp only [Option.bind_eq_bind, Option.bind_some]
  rw [hfrom, ht₁, Option.bind_some, ht₂, Option.bind_some]
  exact ht'

theorem eraseNode_spec (h : Rep cmp t tree free) {before behind : List (Fin cap.size)}
    (hin : tree.inorder = before ++ item :: behind) :
    ∃ t' tree', t.eraseNode item = some t' ∧ Erased cmp t t' item before behind free tree' := by
  obtain ⟨path, l, r, rfl⟩ := exists_plug (t := tree) (a := item) (by simp [hin])
  obtain ⟨rfl, rfl⟩ := split_unique h.nodup hin
  have hlinked := linkedAt_plug.mpr h.linked
  have hitem := hlinked.tree.1
  have hleft : (t.node item).left = l.root? := congrArg Links.left hitem
  have hright : (t.node item).right = r.root? := congrArg Links.right hitem
  have hparent : (t.node item).parent = pathParent path := congrArg Links.parent hitem
  by_cases hl : l = .nil
  · subst hl
    obtain ⟨t', tree', ht', herased⟩ :=
      eraseNode_child (s := .left) h hin (by rw [inorder_plug]; simp)
    refine ⟨t', tree', ?_, herased⟩
    unfold eraseNode
    rw [hleft, hright, hparent]
    exact ht'
  by_cases hr : r = .nil
  · subst hr
    obtain ⟨t', tree', ht', herased⟩ :=
      eraseNode_child (s := .right) h hin (by rw [inorder_plug]; simp)
    refine ⟨t', tree', ?_, herased⟩
    have hne : l.root? ≠ none := fun hnone => hl (root?_eq_none.mp hnone)
    unfold eraseNode
    rw [hleft, hright, hparent, if_pos (.inr rfl), if_pos hne]
    exact ht'
  · exact eraseNode_two h hl hr hin

theorem Rep.split (h : Rep cmp t tree free) {before behind : List (Fin cap.size)}
    (hin : tree.inorder = before ++ item :: behind) {e : K × V} (he : t.value? item = some e) :
    t.entriesOf tree.inorder = t.entriesOf before ++ e :: t.entriesOf behind ∧
      (∀ f ∈ t.entriesOf before, cmp.lt f.1 e.1 = true) ∧
      ∀ f ∈ t.entriesOf behind, cmp.lt e.1 f.1 = true := by
  have hsplit : t.entriesOf tree.inorder = t.entriesOf before ++ e :: t.entriesOf behind := by
    rw [hin, entriesOf_append, entriesOf_cons he]
  have hs := h.sorted
  rw [hsplit] at hs
  obtain ⟨-, hs', hleft⟩ := List.pairwise_append.mp hs
  exact ⟨hsplit, fun f hf => hleft f hf e (by simp), (List.pairwise_cons.mp hs').1⟩

theorem Erased.entries {before behind : List (Fin cap.size)}
    {tree' : BinaryTree (Fin cap.size)} (herased : Erased cmp t t' item before behind free tree')
    (h : Rep cmp t tree free) (hin : tree.inorder = before ++ item :: behind) {e : K × V}
    (he : t.value? item = some e) {key : K} (hsame : OrderedMap.same cmp.lt e.1 key = true) :
    t'.entriesOf tree'.inorder = OrderedMap.eraseEntry cmp.lt (t.entriesOf tree.inorder) key := by
  have _order := cmp.order
  obtain ⟨hsplit, hleft, hright⟩ := h.split hin he
  obtain ⟨hlow, hhigh⟩ : cmp.lt e.1 key = false ∧ cmp.lt key e.1 = false := by
    simpa [OrderedMap.same] using hsame
  have hn := h.nodup
  rw [hin] at hn
  have hni := (List.nodup_cons.mp (List.nodup_middle.mp hn)).1
  rw [hsplit, OrderedMap.eraseEntry_present
    (fun f hf => OrderedMap.lt_of_lt_of_not_lt (hleft f hf) hhigh)
    (fun f hf => OrderedMap.lt_of_not_lt_of_lt hlow (hright f hf)) hsame, herased.inorder,
    entriesOf_congr fun i hi => herased.value i fun hii => hni (hii ▸ hi), entriesOf_append]

end Castle.Container.AvlTree

import Mathlib.Data.Fintype.Card
import Castle.Container.AvlTree.State

/-!
# Rebalancing the AVL tree

The rotations turn the tree that the nodes hold, and `rebalance` climbs from a node
up to the root as `BinaryTree.climb` does.
-/

namespace Castle.Container.AvlTree

open BinaryTree

variable {cap : Capacity} {K V : Type} {t t' : AvlTree cap K V}

/-- At the end of the path the nodes of `u` were rearranged to `v`: no entry, no height
of another node and no link of a node apart from the path was changed. -/
structure Reshaped (t t' : AvlTree cap K V) (path : List (Frame (Fin cap.size)))
    (u v : BinaryTree (Fin cap.size)) : Prop where
  linked : LinkedAt t'.links t'.root path v
  stored : t'.Stored v
  entries : SameEntries t t'
  heights : ∀ i, i ∉ u.inorder → (t'.node i).height = (t.node i).height
  outside : ∀ i, i ∉ u.inorder → i ∉ pathValues path → t'.links i = t.links i

/-- The pointer changes of a rotation, before the heights are updated. -/
def rotateLinks (t : AvlTree cap K V) (s : Side) (pivot child : Fin cap.size)
    (inner parent : NodeRef cap) (path : List (Frame (Fin cap.size))) : AvlTree cap K V :=
  let t := t.setChild s.other pivot inner
  let t := t.setParent? inner (some pivot)
  let t := t.setParent child parent
  let t := t.relinkPath path (some child)
  let t := t.setChild s child (some pivot)
  t.setParent pivot (some child)

section rotate

variable {s : Side} {a b : Fin cap.size} {x y z : BinaryTree (Fin cap.size)}
  {path : List (Frame (Fin cap.size))}

/-- The nodes that a rotation touches are distinct. -/
structure Turned (a b : Fin cap.size) (y : BinaryTree (Fin cap.size))
    (path : List (Frame (Fin cap.size))) : Prop where
  ne : b ≠ a
  inner_a : y.root? ≠ some a
  inner_b : y.root? ≠ some b
  parent_a : pathParent path ≠ some a
  parent_b : pathParent path ≠ some b
  parent_inner : ∀ c, y.root? = some c → pathParent path ≠ some c

theorem turned (hd : Distinct path (join s a x (join s b y z))) : Turned a b y path := by
  have hap := hd.apart
  have hdb : Distinct (⟨s.other, a, x⟩ :: path) (join s b y z) := by
    rw [distinct_cons]
    simpa only [join_other] using hd
  have hbp := hdb.apart
  refine ⟨?_, ?_, ?_, ?_, ?_, ?_⟩
  · rintro rfl
    exact hap.right (by simp)
  · exact fun hy => hap.right (by simp [mem_of_root? hy])
  · exact fun hy => hbp.left (mem_of_root? hy)
  · exact fun hp => hap.above (pathParent_mem hp)
  · exact fun hp => hap.rightAbove b (by simp) (pathParent_mem hp)
  · exact fun c hy hp => hap.rightAbove c (by simp [mem_of_root? hy]) (pathParent_mem hp)

theorem links_rotateLinks_pivot (hn : Turned a b y path)
    (ha : t.links a = Links.join s x.root? (some b) (pathParent path)) :
    (t.rotateLinks s a b y.root? (pathParent path) path).links a =
      Links.join s x.root? y.root? (some b) := by
  unfold rotateLinks
  dsimp only
  rw [links_setParent_self, links_setChild_ne _ _ _ hn.ne.symm, links_relinkPath_ne hn.parent_a,
    links_setParent_ne _ _ hn.ne.symm, links_setParent?_ne _ _ hn.inner_a, links_setChild_self, ha]
  cases s <;> rfl

theorem links_rotateLinks_child (hn : Turned a b y path)
    (hb : t.links b = Links.join s y.root? z.root? (some a)) :
    (t.rotateLinks s a b y.root? (pathParent path) path).links b =
      Links.join s (some a) z.root? (pathParent path) := by
  unfold rotateLinks
  dsimp only
  rw [links_setParent_ne _ _ hn.ne, links_setChild_self, links_relinkPath_ne hn.parent_b,
    links_setParent_self, links_setParent?_ne _ _ hn.inner_b, links_setChild_ne _ _ _ hn.ne, hb]
  cases s <;> rfl

theorem links_rotateLinks_inner (hn : Turned a b y path) {c : Fin cap.size}
    (hc : y.root? = some c) :
    (t.rotateLinks s a b y.root? (pathParent path) path).links c =
      { t.links c with parent := some a } := by
  have hca : c ≠ a := fun h => hn.inner_a (h ▸ hc)
  have hcb : c ≠ b := fun h => hn.inner_b (h ▸ hc)
  unfold rotateLinks
  dsimp only
  rw [links_setParent_ne _ _ hca, links_setChild_ne _ _ _ hcb,
    links_relinkPath_ne (hn.parent_inner c hc), links_setParent_ne _ _ hcb,
    links_setParent?_self _ _ hc, links_setChild_ne _ _ _ hca]

theorem links_rotateLinks_ne {c : Fin cap.size} (hca : c ≠ a) (hcb : c ≠ b)
    (hy : y.root? ≠ some c) (hp : pathParent path ≠ some c) :
    (t.rotateLinks s a b y.root? (pathParent path) path).links c = t.links c := by
  unfold rotateLinks
  dsimp only
  rw [links_setParent_ne _ _ hca, links_setChild_ne _ _ _ hcb, links_relinkPath_ne hp,
    links_setParent_ne _ _ hcb, links_setParent?_ne _ _ hy, links_setChild_ne _ _ _ hca]

theorem relinked_rotateLinks (hn : Turned a b y path) :
    Relinked t.links (t.rotateLinks s a b y.root? (pathParent path) path).links t.root
      (t.rotateLinks s a b y.root? (pathParent path) path).root path (some b) := by
  cases path with
  | nil => exact rfl
  | cons f path =>
    have hfa : f.value ≠ a := fun h => hn.parent_a (h ▸ rfl)
    have hfb : f.value ≠ b := fun h => hn.parent_b (h ▸ rfl)
    have hfy : y.root? ≠ some f.value := fun h => hn.parent_inner _ h rfl
    refine ⟨by simp [rotateLinks, relinkPath], ?_⟩
    unfold rotateLinks relinkPath
    dsimp only
    rw [links_setParent_ne _ _ hfa, links_setChild_ne _ _ _ hfb, links_setChild_self,
      links_setParent_ne _ _ hfb, links_setParent?_ne _ _ hfy, links_setChild_ne _ _ _ hfa]

theorem SameEntries.rotateLinks (t : AvlTree cap K V) (s : Side) (a b : Fin cap.size)
    (inner parent : NodeRef cap) (path : List (Frame (Fin cap.size))) :
    SameEntries t (t.rotateLinks s a b inner parent path) :=
  (((((SameEntries.setChild t s.other a inner).trans (.setParent? _ inner _)).trans
    (.setParent _ b _)).trans (.relinkPath _ path _)).trans (.setChild _ s b _)).trans
      (.setParent _ a _)

theorem height_rotateLinks (t : AvlTree cap K V) (inner parent : NodeRef cap) (c : Fin cap.size) :
    ((t.rotateLinks s a b inner parent path).node c).height = (t.node c).height := by
  simp [rotateLinks]

theorem rotate_eq (h : LinkedAt t.links t.root path (join s a x (join s b y z)))
    (hd : Distinct path (join s a x (join s b y z))) : t.rotate s a = some
    (((t.rotateLinks s a b y.root? (pathParent path) path).updateHeight a).updateHeight b) := by
  have hn := turned hd
  obtain ⟨ha, hx, hyz⟩ := linked_join.mp h.tree
  obtain ⟨hb, -, -⟩ := linked_join.mp hyz
  rw [root?_join] at ha
  have hchild : t.child s.other a = some b := by
    unfold child
    rw [ha, Links.child_other_join]
  have hinner : t.child s b = y.root? := by
    unfold child
    rw [hb, Links.child_join]
  have habove := h.above
  rw [root?_join] at habove
  have hlinks := links_parent habove hd (by simp)
  -- the tree when the link from above is changed
  have hold {u : AvlTree cap K V} (hua : (u.links a).parent = pathParent path)
      (hu : ∀ f ∈ path.head?, u.links f.value = t.links f.value) :
      u.relink a (some b) = u.relinkPath path (some b) := by
    refine relink_eq hua (fun f hf => ?_) _
    rw [hu f hf]
    exact hlinks f hf
  have hpivot : ((((t.setChild s.other a y.root?).setParent? y.root? (some a)).setParent b
      (pathParent path)).links a).parent = pathParent path := by
    rw [links_setParent_ne _ _ hn.ne.symm, links_setParent?_ne _ _ hn.inner_a,
      links_setChild_self, ha]
    cases s <;> rfl
  have hpivot' : (((t.setChild s.other a y.root?).setParent? y.root? (some a)).node a).parent =
      pathParent path := by
    rwa [links_setParent_ne _ _ hn.ne.symm] at hpivot
  have hparents : ∀ f ∈ path.head?, (((t.setChild s.other a y.root?).setParent? y.root?
      (some a)).setParent b (pathParent path)).links f.value = t.links f.value := by
    intro f hf
    have hp : pathParent path = some f.value := by
      unfold pathParent
      rw [hf, Option.map_some]
    have hfa : f.value ≠ a := fun h => hn.parent_a (h ▸ hp)
    have hfb : f.value ≠ b := fun h => hn.parent_b (h ▸ hp)
    have hfy : y.root? ≠ some f.value := fun h => hn.parent_inner _ h hp
    rw [links_setParent_ne _ _ hfb, links_setParent?_ne _ _ hfy, links_setChild_ne _ _ _ hfa]
  unfold rotate
  simp only [hchild, hinner, Option.bind_eq_bind, Option.bind_some, hpivot']
  rw [hold hpivot hparents]
  rfl

theorem rotate_spec (h : LinkedAt t.links t.root path (join s a x (join s b y z)))
    (hd : Distinct path (join s a x (join s b y z))) (hx : t.Stored x) (hy : t.Stored y)
    (hz : t.Stored z) (hlt : max (max x.height y.height + 1) z.height < 255) : ∃ t', t.rotate s a =
    some t' ∧ Reshaped t t' path (join s a x (join s b y z)) (join s b (join s a x y) z) := by
  have hn := turned hd
  have hap := hd.apart
  have hdb : Distinct (⟨s.other, a, x⟩ :: path) (join s b y z) := by
    rw [distinct_cons]
    simpa only [join_other] using hd
  have hbp := hdb.apart
  obtain ⟨ha, -, hyz⟩ := linked_join.mp h.tree
  obtain ⟨hb, -, -⟩ := linked_join.mp hyz
  rw [root?_join] at ha
  refine ⟨_, rotate_eq h hd, ?_, ?_, ?_, ?_, ?_⟩
  all_goals
    generalize hr : t.rotateLinks s a b y.root? (pathParent path) path = r
  · have hlinked := h.rotate hd (links_rotateLinks_pivot hn ha) (links_rotateLinks_child hn hb)
      (fun c hc => links_rotateLinks_inner hn hc) (relinked_rotateLinks hn)
      (fun c => links_rotateLinks_ne)
    rw [rotate_join, hr] at hlinked
    have hfun : ((r.updateHeight a).updateHeight b).links = r.links := by
      funext c
      simp
    rw [hfun]
    exact hlinked
  · have hra : r.links a = Links.join s x.root? y.root? (some b) := by
      rw [← hr]
      exact links_rotateLinks_pivot hn ha
    have hrb : r.links b = Links.join s (some a) z.root? (pathParent path) := by
      rw [← hr]
      exact links_rotateLinks_child hn hb
    have hheight (c : Fin cap.size) : (r.node c).height = (t.node c).height := by
      rw [← hr]
      exact t.height_rotateLinks _ _ c
    have hnew := height_updateHeight hra (hx.congr fun c _ => hheight c)
      (hy.congr fun c _ => hheight c) (by omega)
    have hnotin {u : BinaryTree (Fin cap.size)} {c e : Fin cap.size} (he : e ∉ u.inorder)
        (hc : c ∈ u.inorder) : c ≠ e := fun hce => he (hce ▸ hc)
    have hay : a ∉ y.inorder := fun hm => hap.right (by simp [hm])
    have haz : a ∉ z.inorder := fun hm => hap.right (by simp [hm])
    have hbx : b ∉ x.inorder := fun hm => hap.children b hm (by simp)
    have hsa : (r.updateHeight a).Stored (join s a x y) := by
      refine stored_join.mpr ⟨hnew, hx.congr fun c hc => ?_, hy.congr fun c hc => ?_⟩
      · rw [height_updateHeight_ne _ (hnotin hap.left hc), hheight]
      · rw [height_updateHeight_ne _ (hnotin hay hc), hheight]
    have hsz : (r.updateHeight a).Stored z := by
      refine hz.congr fun c hc => ?_
      rw [height_updateHeight_ne _ (hnotin haz hc), hheight]
    have hnewb := height_updateHeight (i := b) (s := s) (x := join s a x y) (y := z)
      (by rw [links_updateHeight, hrb, root?_join]) hsa hsz
      (by rw [height_join]; exact hlt)
    refine stored_join.mpr ⟨hnewb, hsa.congr fun c hc => ?_, hsz.congr fun c hc => ?_⟩
    · refine height_updateHeight_ne _ ?_
      rintro rfl
      rcases mem_join.mp hc with hc | hc | hc
      · exact hn.ne hc
      · exact hbx hc
      · exact hbp.left hc
    · exact height_updateHeight_ne _ (hnotin hbp.right hc)
  · rw [← hr]
    exact ((SameEntries.rotateLinks t s a b _ _ path).trans (.updateHeight _ a)).trans
      (.updateHeight _ b)
  · intro c hc
    simp only [mem_join, not_or] at hc
    rw [height_updateHeight_ne _ hc.2.2.1, height_updateHeight_ne _ hc.1, ← hr, height_rotateLinks]
  · intro c hc hcp
    rw [links_updateHeight, links_updateHeight, ← hr]
    simp only [mem_join, not_or] at hc
    refine links_rotateLinks_ne hc.1 hc.2.2.1 ?_ ?_
    · exact fun hy => hc.2.2.2.1 (mem_of_root? hy)
    · exact fun hp => hcp (pathParent_mem hp)

end rotate

/-- The heights on both sides of a node lean away from side `s`. -/
def leansFrom (t : AvlTree cap K V) (s : Side) (i : Fin cap.size) : Bool :=
  match s with
  | .left => t.balanceFactor i < 0
  | .right => t.balanceFactor i > 0

/-- The rotations that `rebalance` does for a subtree on side `s` that is too high. -/
def liftHigh (t : AvlTree cap K V) (s : Side) (current : Fin cap.size) :
    Option (AvlTree cap K V) := do
  let high ← t.child s current
  let t ← if t.leansFrom s high then t.rotate s high else some t
  t.rotate s.other current

theorem rebalanceStep_eq (t : AvlTree cap K V) (current : Fin cap.size) : t.rebalanceStep current =
    if (t.updateHeight current).balanceFactor current > 1 then (t.updateHeight current).liftHigh
    .left current else if (t.updateHeight current).balanceFactor current < -1
    then (t.updateHeight current).liftHigh .right current else some (t.updateHeight current) := by
  simp only [rebalanceStep, liftHigh, leansFrom, decide_eq_true_eq]
  rfl

section step

variable {s : Side} {a : Fin cap.size} {x y high low : BinaryTree (Fin cap.size)}
  {path : List (Frame (Fin cap.size))}

theorem balanceFactor_eq {i : Fin cap.size} {l r : BinaryTree (Fin cap.size)} {parent : NodeRef cap}
    (hi : t.links i = ⟨l.root?, r.root?, parent⟩) (hl : t.Stored l) (hr : t.Stored r) :
    t.balanceFactor i = (l.height : ℤ) - r.height := by
  have hleft : (t.node i).left = l.root? := congrArg Links.left hi
  have hright : (t.node i).right = r.root? := congrArg Links.right hi
  unfold balanceFactor
  rw [hleft, hright, hl.height_root, hr.height_root]

theorem leansFrom_eq {parent : NodeRef cap} (hi : t.links a = Links.join s x.root? y.root? parent)
    (hx : t.Stored x) (hy : t.Stored y) : t.leansFrom s a = decide (x.height < y.height) := by
  cases s with
  | left =>
    have hb := balanceFactor_eq hi hx hy
    simp only [leansFrom, hb, decide_eq_decide]
    omega
  | right =>
    have hb := balanceFactor_eq hi hy hx
    simp only [leansFrom, hb, decide_eq_decide]
    omega

theorem liftHigh_spec (h : LinkedAt t.links t.root path (join s a high low))
    (hd : Distinct path (join s a high low)) (hs : t.Stored high) (hsl : t.Stored low)
    (hb : high.Balanced) (hh : high.height = low.height + 2) (hlt : high.height < 200) :
    ∃ t', t.liftHigh s a = some t' ∧ Reshaped t t' path (join s a high low) (lift s a high low) ∧
    (t'.links a).parent = (lift s a high low).root? := by
  have hne : high ≠ nil := by
    rintro rfl
    simp at hh
  obtain ⟨b, outer, inner, rfl⟩ := exists_join s hne
  obtain ⟨⟨h₁, h₂⟩, -, -⟩ := balanced_join.mp hb
  obtain ⟨hsb, hso, hsi⟩ := stored_join.mp hs
  obtain ⟨ha, hhigh, -⟩ := linked_join.mp h.tree
  obtain ⟨hlb, -, -⟩ := linked_join.mp hhigh
  rw [height_join] at hh hlt
  have hchild : t.child s a = some b := by
    unfold child
    rw [ha, Links.child_join, root?_join]
  have hlean := leansFrom_eq hlb hso hsi
  unfold liftHigh
  simp only [hchild, Option.bind_eq_bind, Option.bind_some, hlean, decide_eq_true_eq]
  by_cases hin : outer.height < inner.height
  · have hne' : inner ≠ nil := by
      rintro rfl
      simp at hin
    obtain ⟨g, y, z, rfl⟩ := exists_join s hne'
    obtain ⟨-, hsy, hsz⟩ := stored_join.mp hsi
    rw [height_join] at hh hlt hin h₁ h₂
    rw [if_pos (by rw [height_join]; exact hin)]
    -- first the inner rotation, on the path through `a`
    have hup : LinkedAt t.links t.root (⟨s, a, low⟩ :: path) (join s b outer (join s g y z)) :=
      linkedAt_cons.mpr h
    have hdup : Distinct (⟨s, a, low⟩ :: path) (join s b outer (join s g y z)) :=
      distinct_cons.mpr hd
    obtain ⟨t₁, ht₁, hr₁⟩ := rotate_spec hup hdup hso hsy hsz (by omega)
    obtain ⟨hsg, hs₁, hsz₁⟩ := stored_join.mp hr₁.stored
    have hlow₁ : t₁.Stored low := by
      refine hsl.congr fun i hi => hr₁.heights i fun hm => hdup.disjoint hm ?_
      simp [pathValues, hi]
    have hmid : LinkedAt t₁.links t₁.root path
        (join s.other a low (join s.other g z (join s b outer y))) := by
      rw [join_other, join_other]
      exact linkedAt_cons.mp hr₁.linked
    have hin₁ : (join s a (join s g (join s b outer y) z) low).inorder =
        (join s a (join s b outer (join s g y z)) low).inorder := by
      rw [← rotate_join s b]
      cases s <;> simp [join, BinaryTree.rotate]
    have hdmid : Distinct path (join s.other a low (join s.other g z (join s b outer y))) := by
      rw [join_other, join_other]
      unfold Distinct
      rw [hin₁]
      exact hd
    obtain ⟨t₂, ht₂, hr₂⟩ := rotate_spec hmid hdmid hlow₁ hsz₁ hs₁ (by
      rw [height_join]
      omega)
    refine ⟨t₂, by rw [ht₁, Option.bind_some, ht₂], ?_, ?_⟩
    · rw [lift_double s a b g (by rw [height_join]; exact hin)]
      rw [join_other, join_other] at hr₂
      rw [join_other, join_other] at hr₂
      have hvals {i : Fin cap.size}
          (hi : i ∉ (join s a (join s b outer (join s g y z)) low).inorder) :
          i ∉ (join s b outer (join s g y z)).inorder ∧
            i ∉ (join s a (join s g (join s b outer y) z) low).inorder := by
        refine ⟨fun hm => hi (by simp only [mem_join] at hm ⊢; tauto), ?_⟩
        rwa [hin₁]
      refine ⟨hr₂.linked, hr₂.stored, hr₁.entries.trans hr₂.entries, fun i hi => ?_,
        fun i hi hp => ?_⟩
      · exact (hr₂.heights i (hvals hi).2).trans (hr₁.heights i (hvals hi).1)
      · refine (hr₂.outside i (hvals hi).2 hp).trans (hr₁.outside i (hvals hi).1 ?_)
        simp only [mem_join, not_or] at hi
        simp [pathValues, hi.1, hi.2.2, hp]
    · rw [lift_double s a b g (by rw [height_join]; exact hin), root?_join]
      obtain ⟨-, hla, -⟩ := linked_join.mp hr₂.linked.tree
      rw [(linked_join.mp hla).1, Links.parent_join]
  · rw [if_neg hin]
    have hflip : join s a (join s b outer inner) low =
        join s.other a low (join s.other b inner outer) := by rw [join_other, join_other]
    rw [hflip] at h hd
    obtain ⟨t₁, ht₁, hr₁⟩ := rotate_spec h hd hsl hsi hso (by omega)
    have hres : join s b outer (join s a inner low) =
        join s.other b (join s.other a low inner) outer := by rw [join_other, join_other]
    refine ⟨t₁, ht₁, ?_, ?_⟩
    · rw [lift_single s a b (by omega), hflip, hres]
      exact hr₁
    · rw [lift_single s a b (by omega), root?_join]
      obtain ⟨-, hla, -⟩ := linked_join.mp hr₁.linked.tree
      rw [(linked_join.mp hla).1, Links.parent_join]

end step

theorem height_lt {u : BinaryTree (Fin cap.size)} (hb : u.Balanced) (hn : u.inorder.Nodup) :
    u.height < 130 := by
  refine hb.height_lt (n := 65) ?_
  have hlen : u.inorder.length ≤ cap.size := by simpa using List.Nodup.length_le_card hn
  have hcap := cap.lt
  rw [← length_inorder]
  omega

section loop

variable {a : Fin cap.size} {l r u : BinaryTree (Fin cap.size)}
  {path : List (Frame (Fin cap.size))}

section

variable (h : LinkedAt t.links t.root path (.node a l r))
include h

theorem updateHeight_reshaped
    (hd : Distinct path (.node a l r)) (hl : t.Stored l) (hr : t.Stored r)
    (hlt : max l.height r.height < 255) :
    Reshaped t (t.updateHeight a) path (.node a l r) (.node a l r) := by
  have hap : Apart path a l r := Distinct.apart (s := .left) hd
  have hnew := height_updateHeight (s := .left) h.tree.1 hl hr hlt
  have hlinks : (t.updateHeight a).links = t.links := by
    funext c
    simp
  refine ⟨?_, ⟨hnew, hl.congr fun i hi => ?_, hr.congr fun i hi => ?_⟩, .updateHeight t a,
    fun i hi => ?_, fun i _ _ => ?_⟩
  · rw [hlinks]
    exact h
  · refine height_updateHeight_ne t ?_
    rintro rfl
    exact hap.left hi
  · refine height_updateHeight_ne t ?_
    rintro rfl
    exact hap.right hi
  · refine height_updateHeight_ne t ?_
    rintro rfl
    exact hi (by simp)
  · rw [hlinks]

/-- A step of `rebalance` is one of `BinaryTree.mend`; it goes on with the parent, or
once more with the root of what it rotated. -/
theorem rebalanceStep_spec
    (hd : Distinct path (.node a l r)) (hl : t.Stored l) (hr : t.Stored r) (hbl : l.Balanced)
    (hbr : r.Balanced) (hdiff : l.height ≤ r.height + 2 ∧ r.height ≤ l.height + 2) :
    ∃ t', t.rebalanceStep a = some t' ∧ Reshaped t t' path (.node a l r) (mend (.node a l r)) ∧
    ((t'.links a).parent = pathParent path ∨ (t'.links a).parent = (mend (.node a l r)).root?) := by
  have hap : Apart path a l r := Distinct.apart (s := .left) hd
  have hlh := height_lt hbl hap.leftNodup
  have hrh := height_lt hbr hap.rightNodup
  have hup := updateHeight_reshaped h hd hl hr (by omega)
  obtain ⟨hsa, hsl, hsr⟩ := hup.stored
  have hfactor := balanceFactor_eq hup.linked.tree.1 hsl hsr
  have hlift {t' : AvlTree cap K V} {v : BinaryTree (Fin cap.size)}
      (hr' : Reshaped (t.updateHeight a) t' path (.node a l r) v) :
      Reshaped t t' path (.node a l r) v :=
    ⟨hr'.linked, hr'.stored, hup.entries.trans hr'.entries,
      fun i hi => (hr'.heights i hi).trans (hup.heights i hi),
      fun i hi hp => (hr'.outside i hi hp).trans (hup.outside i hi hp)⟩
  have hmend : mend (.node a l r) = if r.height + 1 < l.height then lift
      .left a l r else if l.height + 1 < r.height then lift .right a r l else .node a l r := rfl
  rw [rebalanceStep_eq, hfactor, hmend]
  by_cases hleft : r.height + 1 < l.height
  · rw [if_pos (by omega), if_pos hleft]
    obtain ⟨t', ht', hres, hpar⟩ := liftHigh_spec (s := .left) hup.linked hd hsl hsr hbl
      (by omega) (by omega)
    exact ⟨t', ht', hlift hres, .inr hpar⟩
  rw [if_neg (by omega), if_neg hleft]
  by_cases hright : l.height + 1 < r.height
  · rw [if_pos (by omega), if_pos hright]
    obtain ⟨t', ht', hres, hpar⟩ := liftHigh_spec (s := .right) hup.linked hd hsr hsl hbr
      (by omega) (by omega)
    exact ⟨t', ht', hlift hres, .inr hpar⟩
  · rw [if_neg (by omega), if_neg hright]
    refine ⟨_, rfl, hup, .inl ?_⟩
    rw [hup.linked.tree.1]

theorem rebalanceStep_settled
    (hs : t.Stored (.node a l r)) (hb : (BinaryTree.node a l r).Balanced) :
    t.rebalanceStep a = some t ∧ (t.links a).parent = pathParent path := by
  obtain ⟨⟨h₁, h₂⟩, -, -⟩ := hb
  have hsame := updateHeight_same (s := .left) h.tree.1 hs
  have hfactor := balanceFactor_eq h.tree.1 hs.2.1 hs.2.2
  rw [rebalanceStep_eq, hsame, hfactor, if_neg (by omega), if_neg (by omega)]
  exact ⟨rfl, by rw [h.tree.1]⟩

theorem rebalanceLoop_up
    (hd : Distinct path (.node a l r)) (hl : t.Stored l) (hr : t.Stored r) (hbl : l.Balanced)
    (hbr : r.Balanced) (hdiff : l.height ≤ r.height + 2 ∧ r.height ≤ l.height + 2)
    (hb : (mend (.node a l r)).Balanced) (fuel : ℕ) :
    ∃ t' fuel', Reshaped t t' path (.node a l r) (mend (.node a l r)) ∧ fuel ≤ fuel' ∧
      rebalanceLoop (fuel + 2) t (some a) = rebalanceLoop fuel' t' (pathParent path) := by
  obtain ⟨t', ht', hres, hpar⟩ := rebalanceStep_spec h hd hl hr hbl hbr hdiff
  have hstep : rebalanceLoop (fuel + 2) t (some a) =
      rebalanceLoop (fuel + 1) t' (t'.links a).parent := by
    rw [rebalanceLoop, ht']
    rfl
  rcases hpar with hpar | hpar
  · exact ⟨t', fuel + 1, hres, by omega, by rw [hstep, hpar]⟩
  · generalize hv : mend (.node a l r) = v at hb hres hpar
    cases v with
    | nil =>
      have hin := congrArg inorder hv
      simp at hin
    | node c x y =>
      obtain ⟨hsame, hpar'⟩ := rebalanceStep_settled hres.linked hres.stored hb
      refine ⟨t', fuel, hres, Nat.le_refl _, ?_⟩
      rw [hstep, hpar, root?_node, rebalanceLoop, hsame]
      show rebalanceLoop fuel t' (t'.links c).parent = _
      rw [hpar']

end

/-- The whole tree was rearranged to `v`. -/
structure Rebuilt (t t' : AvlTree cap K V) (v : BinaryTree (Fin cap.size)) : Prop where
  linked : LinkedAt t'.links t'.root [] v
  stored : t'.Stored v
  entries : SameEntries t t'
  outside : ∀ i, i ∉ v.inorder → t'.links i = t.links i

/-- The loop of `rebalance` climbs from the end of a path to the root, when the subtree
there has become one node higher or lower at most. -/
theorem rebalanceLoop_climb {fuel h₀ : ℕ} (h : LinkedAt t.links t.root path u)
    (hd : Distinct path u) (hs : t.Stored u) (hp : t.StoredPath path) (hb : u.Balanced)
    (hfit : Fits h₀ path) (hh : u.height ≤ h₀ + 1 ∧ h₀ ≤ u.height + 1) (hf : 2 * path.length ≤ fuel)
    : ∃ t', rebalanceLoop fuel t (pathParent path) = some t' ∧ Rebuilt t t' (climb path u) := by
  induction path generalizing t u h₀ fuel with
  | nil =>
    refine ⟨t, ?_, h, hs, .refl t, fun _ _ => rfl⟩
    cases fuel <;> rfl
  | cons f path ih =>
    obtain ⟨side, a, sibling⟩ := f
    obtain ⟨hold, hbs, hfit⟩ := hfit
    have hss : t.Stored sibling := hp _ List.mem_cons_self
    have hup := linkedAt_cons.mp h
    have hdup := distinct_cons.mp hd
    obtain ⟨hbm, hup₁, hup₂⟩ := balanced_mend (s := side) (a := a) hb hbs hold hh
    dsimp only at hold hbs hfit hup hdup hbm hup₁ hup₂
    obtain ⟨n, rfl⟩ : ∃ n, fuel = n + 2 := ⟨fuel - 2, by rw [List.length_cons] at hf; omega⟩
    have hturn : ∃ t' fuel', Reshaped t t' path (join side a u sibling)
        (mend (join side a u sibling)) ∧ n ≤ fuel' ∧
        rebalanceLoop (n + 2) t (some a) = rebalanceLoop fuel' t' (pathParent path) := by
      cases side with
      | left => exact rebalanceLoop_up hup hdup hs hss hb hbs ⟨by omega, by omega⟩ hbm n
      | right => exact rebalanceLoop_up hup hdup hss hs hbs hb ⟨by omega, by omega⟩ hbm n
    obtain ⟨t₁, fuel', hres, hfuel, hloop⟩ := hturn
    have hin : (mend (join side a u sibling)).inorder = (join side a u sibling).inorder :=
      inorder_mend _
    have hd₁ : Distinct path (mend (join side a u sibling)) := by
      unfold Distinct
      rw [hin]
      exact hdup
    have hp₁ : t₁.StoredPath path := by
      intro g hg
      refine (hp g (by simp [hg])).congr fun i hi => hres.heights i fun hm => ?_
      refine hdup.disjoint hm ?_
      clear * - hg hi
      induction path with
      | nil => cases hg
      | cons e path ih =>
        rcases List.mem_cons.mp hg with rfl | hg
        · simp [pathValues, hi]
        · simp [pathValues, ih hg]
    obtain ⟨t₂, ht₂, hreb⟩ := ih hres.linked hd₁ hres.stored hp₁ hbm hfit ⟨hup₁, hup₂⟩
      (by rw [List.length_cons] at hf; omega : 2 * path.length ≤ fuel')
    refine ⟨t₂, hloop.trans ht₂, hreb.linked, hreb.stored, hres.entries.trans hreb.entries,
      fun i hi => ?_⟩
    have hnot : i ∉ (join side a u sibling).inorder ∧ i ∉ pathValues path := by
      rw [climb, inorder_climb, (inorder_plug_perm path _).mem_iff, List.mem_append, not_or,
        hin] at hi
      exact hi
    exact (hreb.outside i hi).trans (hres.outside i hnot.1 hnot.2)

theorem rebalance_climb {h₀ : ℕ} (h : LinkedAt t.links t.root path u) (hd : Distinct path u)
    (hs : t.Stored u) (hp : t.StoredPath path) (hb : u.Balanced) (hfit : Fits h₀ path)
    (hh : u.height ≤ h₀ + 1 ∧ h₀ ≤ u.height + 1) :
    ∃ t', t.rebalance (pathParent path) = some t' ∧ Rebuilt t t' (climb path u) := by
  refine rebalanceLoop_climb h hd hs hp hb hfit hh ?_
  have hlen := length_le_pathValues path
  have hn : (pathValues path).Nodup := (List.nodup_append.mp hd).2.1
  have hcard : (pathValues path).length ≤ cap.size := by simpa using List.Nodup.length_le_card hn
  omega

theorem rebalance_settled (h : LinkedAt t.links t.root [] u) (hs : t.Stored u)
    (hb : u.Balanced) : t.rebalance u.root? = some t := by
  unfold rebalance
  cases u with
  | nil => rfl
  | node a l r =>
    obtain ⟨hsame, hpar⟩ := rebalanceStep_settled h hs hb
    rw [root?_node, rebalanceLoop, hsame]
    show rebalanceLoop (2 * cap.size) t (t.links a).parent = _
    rw [hpar, pathParent_nil, rebalanceLoop]

end loop

end Castle.Container.AvlTree

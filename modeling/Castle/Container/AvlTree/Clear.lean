import Castle.Container.AvlTree.Map

/-!
# Clearing the AVL tree

`clear` walks over the tree with `successor` and releases each node as it leaves it. A
released node has lost its right child, so that the way up out of a right subtree ends at a
node that is released already.
-/

namespace Castle.Container.AvlTree

open BinaryTree

variable {cap : Capacity} {K V : Type} {t t' : AvlTree cap K V} {cmp : Compare K}
  {tree x : BinaryTree (Fin cap.size)} {free : List (Fin cap.size)}
  {spine rest : List (Fin cap.size × BinaryTree (Fin cap.size))} {a p : Fin cap.size}
  {above : NodeRef cap}

/-- The loop of `clear`, with the nodes that it calls `release_node` for. It has no result when
that destroys a value that is gone. -/
def clearLoop : ℕ → AvlTree cap K V → NodeRef cap → List (Fin cap.size) × Option (AvlTree cap K V)
  | _, t, none => ([], some t)
  | 0, _, some _ => ([], none)
  | fuel + 1, t, some current =>
    match t.successor (some current) with
    | none => ([], none)
    | some next =>
      match t.releaseNode current with
      | none => ([current], none)
      | some t =>
        let (released, t') := clearLoop fuel t next
        (current :: released, t')

/-- No more than the nodes of the pool are released with success. -/
def clear (t : AvlTree cap K V) : List (Fin cap.size) × Option (AvlTree cap K V) :=
  match t.minimum t.root with
  | none => ([], none)
  | some first =>
    let (released, t') := clearLoop (cap.size + 1) t first
    (released, t'.map fun t => initialisePool { t with root := none, size := 0 })

theorem outermost_leftSpine {u : BinaryTree (Fin cap.size)} {i : Fin cap.size} {fuel : ℕ}
    (h : Linked t.links above u) (hi : u.root? = some i) (hf : u.numNodes ≤ fuel)
    (below : NodeRef cap) : t.outermost .left fuel i = spineHead below u.leftSpine := by
  induction u generalizing above i fuel with
  | nil => cases hi
  | node b l r ihl ihr =>
    cases hi
    obtain ⟨hb, hl, -⟩ := h
    rw [numNodes] at hf
    obtain ⟨n, rfl⟩ : ∃ n, fuel = n + 1 := ⟨fuel - 1, by omega⟩
    have hchild : t.child .left b = l.root? := congrArg Links.left hb
    rw [outermost, hchild, leftSpine]
    cases hroot : l.root? with
    | none =>
      rw [root?_eq_none] at hroot
      subst hroot
      rfl
    | some j =>
      dsimp only
      rw [ihl hl hroot (by omega : l.numNodes ≤ n)]
      cases l with
      | nil => cases hroot
      | node c ll lr =>
        rw [leftSpine]
        cases ll.leftSpine <;> rfl

theorem successor_spine (h : LinkedSpine t.links above ((a, x) :: rest))
    (hn : (spineNodes ((a, x) :: rest)).Nodup)
    (habove : ∀ q, above = some q → (t.node q).right ≠ some a) :
    t.successor (some a) = some (spineHead above (x.leftSpine ++ rest)) := by
  obtain ⟨hright, hparent, hx, hrest⟩ := h
  have hchild : t.child .right a = x.root? := hright
  unfold successor neighbour
  dsimp only
  rw [hchild]
  rw [spineNodes_cons] at hn
  obtain ⟨ha, hn⟩ := List.nodup_cons.mp hn
  cases hroot : x.root? with
  | some j =>
    have hxn : x.numNodes ≤ cap.size := numNodes_le (List.nodup_append.mp hn).1
    dsimp only
    rw [Side.other, outermost_leftSpine hx hroot hxn none]
    cases x with
    | nil => cases hroot
    | node b l r =>
      rw [leftSpine]
      cases l.leftSpine <;> rfl
  | none =>
    rw [root?_eq_none] at hroot
    subst hroot
    have hparent' : (t.node a).parent = spineHead above rest := hparent
    have hup : ∀ n, t.ascend .right (n + 1) a = some (spineHead above rest) := by
      intro n
      rw [ascend, hparent']
      cases rest with
      | nil =>
        cases above with
        | none => rfl
        | some q => exact if_neg (habove q rfl)
      | cons e rest =>
        obtain ⟨b, y⟩ := e
        have hb : t.child .right b = y.root? := hrest.1
        refine if_neg ?_
        rw [hb]
        intro hy
        exact ha (by simp [spineNodes_cons, mem_of_root? hy])
    have hsize : cap.size - 1 + 1 = cap.size := by
      have hlt := a.isLt
      omega
    have hfuel := hup (cap.size - 1)
    rw [hsize] at hfuel
    exact hfuel

/-- What the walk needs of the nodes on a spine, all of them to be released. -/
structure Walk (t : AvlTree cap K V) (above : NodeRef cap)
    (spine : List (Fin cap.size × BinaryTree (Fin cap.size))) : Prop where
  linked : LinkedSpine t.links above spine
  nodup : (spineNodes spine).Nodup
  values : ∀ i ∈ spineNodes spine, ∃ e, t.value? i = some e
  above : ∀ i, above = some i → i ∉ spineNodes spine ∧ (t.node i).right = none

theorem Walk.round (h : Walk t above ((a, x) :: rest)) (fuel : ℕ) :
    ∃ t' : AvlTree cap K V, t.clearLoop (fuel + 1) (some a) =
        (a :: (t'.clearLoop fuel (spineHead above (x.leftSpine ++ rest))).1,
          (t'.clearLoop fuel (spineHead above (x.leftSpine ++ rest))).2) ∧
      t'.node a = { left := t.freeHead, height := 0 } ∧ ∀ j, j ≠ a → t'.node j = t.node j := by
  have hnext := successor_spine h.linked h.nodup fun q hq => by
    rw [(h.above q hq).2]
    exact fun hc => by cases hc
  obtain ⟨e, he⟩ := h.values a (by simp [spineNodes_cons])
  obtain ⟨t', ht', -, -, -, hself, hother⟩ := releaseNode_spec he
  refine ⟨t', ?_, hself, hother⟩
  rw [clearLoop, hnext]
  simp only [ht']

theorem Walk.congr (h : Walk t above spine) (hsame : ∀ j ∈ spineNodes spine, t'.node j = t.node j)
    (habove : ∀ i, above = some i → (t'.node i).right = none) : Walk t' above spine where
  linked := h.linked.congr fun j hj => by rw [links, links, hsame j hj]
  nodup := h.nodup
  values j hj := by
    rw [value?, hsame j hj]
    exact h.values j hj
  above i hi := ⟨(h.above i hi).1, habove i hi⟩

theorem Walk.up (h : Walk t above ((a, .nil) :: rest)) (hother : ∀ j, j ≠ a → t'.node j = t.node j) :
    Walk t' above rest := by
  have hn := h.nodup
  rw [spineNodes_cons, inorder_nil, List.nil_append] at hn
  obtain ⟨ha, hn⟩ := List.nodup_cons.mp hn
  have hrest : Walk t above rest := {
    linked := h.linked.2.2.2
    nodup := hn
    values := fun i hi => h.values i (by simp [spineNodes_cons, hi])
    above := fun i hi => ⟨fun hm => (h.above i hi).1 (by simp [spineNodes_cons, hm]), (h.above i hi).2⟩ }
  refine hrest.congr (fun j hj => hother j fun hja => ha (hja ▸ hj)) fun i hi => ?_
  have hia : i ≠ a := fun hia => (h.above i hi).1 (by simp [spineNodes_cons, hia])
  rw [hother i hia]
  exact (h.above i hi).2

theorem Walk.down (h : Walk t above ((a, x) :: rest))
    (hself : t'.node a = { left := t.freeHead, height := 0 })
    (hother : ∀ j, j ≠ a → t'.node j = t.node j) : Walk t' (some a) x.leftSpine := by
  have hn := h.nodup
  rw [spineNodes_cons] at hn
  obtain ⟨ha, hn⟩ := List.nodup_cons.mp hn
  have hax : a ∉ x.inorder := fun hm => ha (by simp [hm])
  refine ⟨?_, ?_, fun i hi => ?_, ?_⟩
  · refine h.linked.2.2.1.leftSpine.congr fun j hj => ?_
    rw [spineNodes_leftSpine] at hj
    rw [links, links, hother j fun hja => hax (hja ▸ hj)]
  · rw [spineNodes_leftSpine]
    exact (List.nodup_append.mp hn).1
  · rw [spineNodes_leftSpine] at hi
    rw [value?, hother i fun hia => hax (hia ▸ hi)]
    exact h.values i (by simp [spineNodes_cons, hi])
  · rintro i ⟨⟩
    rw [spineNodes_leftSpine, hself]
    exact ⟨hax, rfl⟩

theorem Walk.clearLoop_none (h : Walk t (some p) ((a, x) :: rest)) (hp : (t.node p).value = none)
    (fuel : ℕ) : (t.clearLoop fuel (some a)).2 = none := by
  induction hlen : (spineNodes ((a, x) :: rest)).length using Nat.strong_induction_on
    generalizing t a x rest p fuel with
  | _ n ih =>
    cases fuel with
    | zero => rfl
    | succ fuel =>
      obtain ⟨t', hround, hself, hother⟩ := h.round fuel
      rw [hround]
      dsimp only
      have hpa : p ≠ a := fun hpa => (h.above p rfl).1 (by simp [spineNodes_cons, hpa])
      have hp' : (t'.node p).value = none := by rw [hother p hpa, hp]
      cases hspine : x.leftSpine with
      | cons e spine =>
        obtain ⟨b, y⟩ := e
        have hdown := h.down hself hother
        rw [hspine] at hdown
        refine ih _ ?_ hdown (by rw [hself]) fuel rfl
        have hnodes := spineNodes_leftSpine x
        rw [← hlen, ← hspine, hnodes, spineNodes_cons]
        simp only [List.length_cons, List.length_append]
        omega
      | nil =>
        have hx := leftSpine_eq_nil.mp hspine
        subst hx
        have hup := h.up hother
        cases rest with
        | nil =>
          -- the end of the spine: its parent is the released node
          show (t'.clearLoop fuel (some p)).2 = none
          cases fuel with
          | zero => rfl
          | succ fuel =>
            have hgone : t'.releaseNode p = none := by
              rw [releaseNode, hp']
              rfl
            rw [clearLoop]
            cases t'.successor (some p) with
            | none => rfl
            | some next => simp only [hgone]
        | cons e rest =>
          obtain ⟨b, y⟩ := e
          refine ih _ ?_ hup hp' fuel rfl
          rw [← hlen]
          simp only [spineNodes_cons, List.length_cons, List.length_append]
          omega

theorem Walk.clearLoop_right (h : Walk t none spine) (hright : ∃ e ∈ spine, e.2 ≠ .nil)
    (fuel : ℕ) : (t.clearLoop fuel (spineHead none spine)).2 = none := by
  induction spine generalizing t fuel with
  | nil => simp at hright
  | cons e rest ih =>
    obtain ⟨a, x⟩ := e
    cases fuel with
    | zero => rfl
    | succ fuel =>
      obtain ⟨t', hround, hself, hother⟩ := h.round fuel
      show (t.clearLoop (fuel + 1) (some a)).2 = none
      rw [hround]
      dsimp only
      cases hspine : x.leftSpine with
      | cons e spine =>
        have hdown := h.down hself hother
        rw [hspine] at hdown
        exact hdown.clearLoop_none (by rw [hself]) fuel
      | nil =>
        have hx := leftSpine_eq_nil.mp hspine
        subst hx
        refine ih (h.up hother) ?_ fuel
        obtain ⟨e, he, hne⟩ := hright
        rcases List.mem_cons.mp he with rfl | he
        · exact absurd rfl hne
        · exact ⟨e, he, hne⟩

theorem Walk.clearLoop_left (h : Walk t none spine) (hright : ∀ e ∈ spine, e.2 = .nil) {fuel : ℕ}
    (hf : spine.length ≤ fuel) :
    ∃ t' : AvlTree cap K V, t.clearLoop fuel (spineHead none spine) = (spineNodes spine, some t') ∧
      ∀ i, (t'.node i).value = none ∨ i ∉ spineNodes spine ∧ (t'.node i).value = (t.node i).value := by
  induction spine generalizing t fuel with
  | nil =>
    refine ⟨t, ?_, fun i => Or.inr ⟨List.not_mem_nil, rfl⟩⟩
    cases fuel <;> rfl
  | cons e rest ih =>
    obtain ⟨a, x⟩ := e
    have hx : x = .nil := hright _ List.mem_cons_self
    subst hx
    obtain ⟨n, rfl⟩ : ∃ n, fuel = n + 1 := ⟨fuel - 1, by rw [List.length_cons] at hf; omega⟩
    obtain ⟨t', hround, hself, hother⟩ := h.round n
    obtain ⟨t'', hrest, hgone⟩ := ih (h.up hother) (fun e he => hright e (List.mem_cons_of_mem _ he))
      (by rw [List.length_cons] at hf; omega : rest.length ≤ n)
    refine ⟨t'', ?_, fun i => ?_⟩
    · show t.clearLoop (n + 1) (some a) = _
      rw [hround, leftSpine, List.nil_append, hrest]
      rfl
    · rcases hgone i with hnone | ⟨hi, hsame⟩
      · exact Or.inl hnone
      · by_cases hia : i = a
        · subst hia
          exact Or.inl (by rw [hsame, hself])
        · rw [hother i hia] at hsame
          refine Or.inr ⟨?_, hsame⟩
          rw [spineNodes_cons, inorder_nil, List.nil_append, List.mem_cons, not_or]
          exact ⟨hia, hi⟩

theorem Rep.walk (h : Rep cmp t tree free) : Walk t none tree.leftSpine where
  linked := h.linked.tree.leftSpine
  nodup := by
    rw [spineNodes_leftSpine]
    exact h.nodup
  values i hi := by
    rw [spineNodes_leftSpine] at hi
    exact h.values i hi
  above i hi := by cases hi

theorem Rep.minimum_root (h : Rep cmp t tree free) :
    t.minimum t.root = some (spineHead none tree.leftSpine) := by
  have hroot : t.root = tree.root? := h.linked.above
  unfold minimum
  rw [hroot]
  cases hi : tree.root? with
  | none =>
    rw [root?_eq_none] at hi
    subst hi
    rfl
  | some i =>
    dsimp only
    rw [outermost_leftSpine h.linked.tree hi (numNodes_le h.nodup) none]
    cases tree with
    | nil => cases hi
    | node b l r =>
      rw [leftSpine]
      cases l.leftSpine <;> rfl

theorem leftSpine_right_iff {u : BinaryTree (Fin cap.size)} (hb : u.Balanced) :
    (∀ e ∈ u.leftSpine, e.2 = .nil) ↔ ∀ a l r, u = .node a l r → r = .nil := by
  constructor
  · intro h a l r hu
    subst hu
    exact h (a, r) (by simp [leftSpine])
  · intro h
    cases u with
    | nil => simp [leftSpine]
    | node a l r =>
      have hr := h a l r rfl
      subst hr
      obtain ⟨⟨hheight, -⟩, -, -⟩ := hb
      cases l with
      | nil => simp [leftSpine]
      | node b ll lr =>
        have hll : ll = .nil ∧ lr = .nil := by
          cases ll <;> cases lr <;> simp at hheight ⊢
        simp [leftSpine, hll.1, hll.2]

def NoRightChild (t : AvlTree cap K V) : Prop := ∀ i, t.root = some i → (t.node i).right = none

theorem Rep.noRightChild_iff (h : Rep cmp t tree free) :
    NoRightChild t ↔ ∀ e ∈ tree.leftSpine, e.2 = .nil := by
  have hroot : t.root = tree.root? := h.linked.above
  rw [leftSpine_right_iff h.balanced, NoRightChild, hroot]
  constructor
  · rintro hright a l r rfl
    have hlinks : (t.node a).right = r.root? := congrArg Links.right h.linked.tree.1
    rw [← root?_eq_none, ← hlinks]
    exact hright a rfl
  · intro hright i hi
    cases tree with
    | nil => cases hi
    | node a l r =>
      cases hi
      have hlinks : (t.node i).right = r.root? := congrArg Links.right h.linked.tree.1
      rw [hlinks, hright i l r rfl]
      rfl

/-- What `clear` is to do: every live node is released once, and then the tree is empty and the
free list is the pool. -/
structure Cleared (t : AvlTree cap K V) (released : List (Fin cap.size)) (t' : AvlTree cap K V) :
    Prop where
  once : released.Nodup
  live : ∀ i, i ∈ released ↔ (t.node i).used = true
  root : t'.root = none
  size : t'.size = 0
  pool : t'.FreeChain t'.freeHead (List.finRange cap.size)

def ClearsAll (t : AvlTree cap K V) : Prop :=
  ∃ released t', t.clear = (released, some t') ∧ Cleared t released t'

theorem rep_initialisePool (hv : ∀ i, (t.node i).value = none) :
    Rep cmp (initialisePool { t with root := none, size := 0 }) .nil (List.finRange cap.size) := by
  have hpool := @freeChain_initialise _ _ _ { t with root := none, size := 0, freeHead := none } []
    (List.finRange cap.size).reverse (by simpa using List.nodup_finRange _) rfl hv
  obtain ⟨hroot, hsize⟩ := foldl_initialiseNode
    (t := { t with root := none, size := 0, freeHead := none }) (List.finRange cap.size).reverse
  refine ⟨⟨⟨hroot, trivial⟩, trivial, trivial, List.nodup_nil, by simp, List.Pairwise.nil⟩,
    by simp, ?_, by simp, hsize⟩
  simpa [initialisePool] using hpool

theorem FreeChain.value_none {head : NodeRef cap} (h : t.FreeChain head free) :
    ∀ i ∈ free, (t.node i).value = none := by
  induction free generalizing head with
  | nil => simp
  | cons j free ih =>
    obtain ⟨-, -, hv, hchain⟩ := h
    intro i hi
    rcases List.mem_cons.mp hi with rfl | hi
    · exact hv
    · exact ih hchain i hi

theorem Rep.clear (h : Rep cmp t tree free) (hright : NoRightChild t) :
    ∃ t', t.clear = (tree.inorder, some t') ∧ Rep cmp t' .nil (List.finRange cap.size) := by
  have hlen : tree.leftSpine.length ≤ cap.size + 1 := by
    have hnodes := length_le_spineNodes tree.leftSpine
    have hsize := h.size_le
    rw [spineNodes_leftSpine] at hnodes
    omega
  obtain ⟨t', hloop, hgone⟩ := h.walk.clearLoop_left (h.noRightChild_iff.mp hright) hlen
  rw [spineNodes_leftSpine] at hloop hgone
  refine ⟨initialisePool { t' with root := none, size := 0 }, ?_, rep_initialisePool fun i => ?_⟩
  · unfold AvlTree.clear
    rw [h.minimum_root]
    dsimp only
    rw [hloop]
    rfl
  · rcases hgone i with hnone | ⟨hi, hsame⟩
    · exact hnone
    · have hmem : i ∈ tree.inorder ++ free := h.partition.mem_iff.mpr (List.mem_finRange i)
      rw [hsame, h.chain.value_none i ((List.mem_append.mp hmem).resolve_left hi)]

theorem Rep.clear_none (h : Rep cmp t tree free) (hright : ¬ NoRightChild t) :
    t.clear.2 = none := by
  rw [h.noRightChild_iff] at hright
  push Not at hright
  unfold AvlTree.clear
  rw [h.minimum_root]
  dsimp only
  rw [h.walk.clearLoop_right hright]
  rfl

/-- The trees of runs with `clear`. -/
inductive Reachable (cmp : Compare K) : AvlTree cap K V → Prop where
  | empty : Reachable cmp AvlTree.empty
  | apply {t t' : AvlTree cap K V} {op : Op cap K V} {entry : MapCall K V × MapReply K V} :
    Reachable cmp t → op.Valid t → t.apply cmp op = some (entry, t') → Reachable cmp t'
  | clear {t t' : AvlTree cap K V} {released : List (Fin cap.size)} :
    Reachable cmp t → t.clear = (released, some t') → Reachable cmp t'

theorem Reachable.rep (h : Reachable cmp t) : ∃ tree free, Rep cmp t tree free := by
  induction h with
  | empty => exact ⟨_, _, rep_empty⟩
  | @apply t₁ _ _ _ _ hvalid happly ih =>
    obtain ⟨tree, free, hrep⟩ := ih
    have hlen : (t₁.entriesOf tree.inorder).length ≤ cap.size := by
      rw [length_entriesOf hrep.values]
      exact hrep.size_le
    obtain ⟨entry, t', happly', -, tree', free', hrep', -⟩ :=
      apply_refines (m := ⟨_, hrep.sorted, hlen⟩) hrep rfl hvalid
    rw [happly] at happly'
    cases happly'
    exact ⟨tree', free', hrep'⟩
  | @clear t₁ _ _ _ hclear ih =>
    obtain ⟨tree, free, hrep⟩ := ih
    by_cases hright : NoRightChild t₁
    · obtain ⟨t'', hclear', hrep'⟩ := hrep.clear hright
      rw [hclear] at hclear'
      cases hclear'
      exact ⟨_, _, hrep'⟩
    · have hnone := hrep.clear_none hright
      rw [hclear] at hnone
      cases hnone

/-- `clear` of a reachable tree releases every live node once, and leaves an empty tree and a full
pool, exactly when the root has no right child. -/
theorem clearsAll_iff (h : Reachable cmp t) : ClearsAll t ↔ NoRightChild t := by
  obtain ⟨tree, free, hrep⟩ := h.rep
  constructor
  · rintro ⟨released, t', hclear, -⟩
    by_contra hright
    have hnone := hrep.clear_none hright
    rw [hclear] at hnone
    cases hnone
  · intro hright
    obtain ⟨t', hclear, hrep'⟩ := hrep.clear hright
    refine ⟨tree.inorder, t', hclear, hrep.nodup, fun i => ?_, hrep'.linked.above, hrep'.size_eq,
      hrep'.chain⟩
    exact ⟨hrep.used i, hrep.mem_of_used⟩

theorem clearsAll_iff_insert : ∃ (entry : MapCall ℕ ℕ × MapReply ℕ ℕ) (t : AvlTree ⟨3, by decide, by decide⟩ ℕ ℕ),
    (empty : AvlTree ⟨3, by decide, by decide⟩ ℕ ℕ).apply lessNat (.insert 1 10) = some (entry, t) ∧
      (ClearsAll t ↔ NoRightChild t) :=
  ⟨_, _, rfl, @clearsAll_iff _ _ _ _ lessNat
    (.apply .empty (show (Op.insert 1 10).Valid _ from trivial) rfl)⟩

/-- The root of the tree of three keys has a right child: its node is released twice. -/
theorem clear_releases_twice : ∃ (log : Log ℕ ℕ) (t : AvlTree ⟨3, by decide, by decide⟩ ℕ ℕ),
    (empty : AvlTree ⟨3, by decide, by decide⟩ ℕ ℕ).run lessNat
      [.insert 1 10, .insert 2 20, .insert 3 30] = some (log, t) ∧
      t.clear.1 = [0, 1, 2, 1] ∧ t.clear.2.isNone = true :=
  ⟨_, _, rfl, by decide, by decide⟩

end Castle.Container.AvlTree

import Castle.Container.AvlTree.Erase

/-!
# The AVL tree as an ordered map

Runs of the operations that change the tree, from an empty one: the representation
invariant holds after each, and the tree does what an ordered map of capacity `N` does.
-/

namespace Castle.Container.AvlTree

open BinaryTree

section map

variable {K V : Type}

/-- A call, with an iterator as the entry it points to. -/
inductive MapCall (K V : Type) where
  | insert (key : K) (value : V)
  | erase (key : K)
  | eraseAt (position : Option (K × V))
  deriving DecidableEq

/-- What a call returns. -/
inductive MapReply (K V : Type) where
  | status (s : Status)
  | position (p : Option (K × V))
  deriving DecidableEq

/-- The calls of a run, with what each returned. -/
abbrev Log (K V : Type) := List (MapCall K V × MapReply K V)

variable {cap : Capacity} {cmp : Compare K}

abbrev Map (cap : Capacity) (cmp : Compare K) (V : Type) := OrderedMap cmp.lt V cap.size

def Map.empty : Map cap cmp V := ⟨[], List.Pairwise.nil, Nat.zero_le _⟩

def Map.step (m : Map cap cmp V) : MapCall K V → MapReply K V × Map cap cmp V
  | .insert key value =>
    if habsent : OrderedMap.get? cmp.lt m.entries key = none then
      if hroom : m.entries.length < cap.size then
        (.status .ok, m.insert key value habsent hroom)
      else (.status .full, m)
    else (.status .alreadyExists, m)
  | .erase key =>
    if OrderedMap.get? cmp.lt m.entries key = none then (.status .notFound, m)
    else (.status .ok, m.erase key)
  | .eraseAt none => (.position none, m)
  | .eraseAt (some e) => (.position (OrderedMap.upperBound cmp.lt m.entries e.1), m.erase e.1)

def Map.run (m : Map cap cmp V) : List (MapCall K V) → List (MapReply K V) × Map cap cmp V
  | [] => ([], m)
  | call :: calls =>
    let (reply, m) := Map.step m call
    let (replies, m) := Map.run m calls
    (reply :: replies, m)

end map

variable {cap : Capacity} {K V : Type} {t t' : AvlTree cap K V} {cmp : Compare K}
  {tree : BinaryTree (Fin cap.size)} {free : List (Fin cap.size)}

/-- The operations that change the tree. -/
inductive Op (cap : Capacity) (K V : Type) where
  | insert (key : K) (value : V)
  | emplace (key : K) (value : V)
  | erase (key : K)
  | eraseAt (position : NodeRef cap)

/-- `*it`; an iterator that points to no element has no result. -/
def deref (t : AvlTree cap K V) (p : NodeRef cap) : Option (Option (K × V)) :=
  match p with
  | none => some none
  | some i => do
    let e ← t.value? i
    some (some e)

/-- An iterator passed to the tree is `end()` or points to an element. -/
def Op.Valid (t : AvlTree cap K V) : Op cap K V → Prop
  | .eraseAt (some i) => (t.node i).used = true
  | _ => True

instance (op : Op cap K V) : Decidable (op.Valid t) := by
  unfold Op.Valid
  split <;> infer_instance

variable (cmp)

/-- One operation, with what its caller passes and gets. -/
def apply (t : AvlTree cap K V) :
    Op cap K V → Option ((MapCall K V × MapReply K V) × AvlTree cap K V)
  | .insert key value => do
    let (s, t) ← t.insert cmp key value
    some ((.insert key value, .status s), t)
  | .emplace key value => do
    let (s, t) ← t.emplace cmp key value
    some ((.insert key value, .status s), t)
  | .erase key => do
    let (s, t) ← t.erase cmp key
    some ((.erase key, .status s), t)
  | .eraseAt position => do
    let e ← t.deref position
    let (next, t) ← t.eraseAt position
    let e' ← t.deref next
    some ((.eraseAt e, .position e'), t)

def run (t : AvlTree cap K V) :
    List (Op cap K V) → Option (Log K V × AvlTree cap K V)
  | [] => some ([], t)
  | op :: ops => do
    let (entry, t) ← t.apply cmp op
    let (log, t) ← run t ops
    some (entry :: log, t)

/-- Every iterator passed in the run is valid when it is passed. -/
def ValidRun (t : AvlTree cap K V) : List (Op cap K V) → Prop
  | [] => True
  | op :: ops =>
    op.Valid t ∧
      match t.apply cmp op with
      | none => True
      | some (_, t) => ValidRun t ops

instance decidableValidRun : (t : AvlTree cap K V) → (ops : List (Op cap K V)) →
    Decidable (t.ValidRun cmp ops)
  | _, [] => isTrue trivial
  | t, op :: ops =>
    have : Decidable (match t.apply cmp op with
        | none => True
        | some (_, t) => ValidRun cmp t ops) :=
      match t.apply cmp op with
      | none => isTrue trivial
      | some (_, t) => decidableValidRun t ops
    inferInstanceAs (Decidable (_ ∧ _))

variable {cmp}

theorem deref_eq {p : NodeRef cap} {x : Option (K × V)} (h : Holds cmp t tree)
    (hp : ∀ i ∈ p, i ∈ tree.inorder) (hx : x = p.bind t.value?) : t.deref p = some x := by
  subst hx
  cases p with
  | none => rfl
  | some i =>
    obtain ⟨e, he⟩ := h.values i (hp i rfl)
    simp [deref, he]

/-- What an operation does to the tree and to the map. -/
structure Refines (cmp : Compare K) (m : Map cap cmp V) (entry : MapCall K V × MapReply K V)
    (t' : AvlTree cap K V) : Prop where
  reply : (Map.step m entry.1).1 = entry.2
  rep : ∃ tree' free', Rep cmp t' tree' free' ∧
    t'.entriesOf tree'.inorder = (Map.step m entry.1).2.entries

section step

variable {m : Map cap cmp V} (h : Rep cmp t tree free) (hm : t.entriesOf tree.inorder = m.entries)
include h hm

theorem emplaceValue_refines (key : K) (value : V) : ∃ s t', t.emplaceValue cmp key value =
    some (s, t') ∧ Refines cmp m (.insert key value, .status s) t' := by
  obtain ⟨⟨s, t'⟩, heq, hres⟩ := emplaceValue_spec h key value
  refine ⟨s, t', heq, ?_⟩
  cases hres with
  | present hkey =>
    rw [hm] at hkey
    have hstep : Map.step m (.insert key value) = (.status .alreadyExists, m) := by
      rw [Map.step, dif_neg (Option.isSome_iff_ne_none.mp hkey)]
    exact ⟨by rw [hstep], tree, free, h, by rw [hstep, hm]⟩
  | full hkey hfull =>
    rw [hm] at hkey hfull
    have hstep : Map.step m (.insert key value) = (.status .full, m) := by
      rw [Map.step, dif_pos hkey, dif_neg (by omega)]
    exact ⟨by rw [hstep], tree, free, h, by rw [hstep, hm]⟩
  | ok hkey hroom hrep hentries =>
    rw [hm] at hkey hroom hentries
    have hstep : Map.step m (.insert key value) = (.status .ok, m.insert key value hkey hroom) := by
      rw [Map.step, dif_pos hkey, dif_pos hroom]
    exact ⟨by rw [hstep], _, _, hrep, by rw [hstep, hentries]; rfl⟩

theorem find_deref (key : K) : ∃ p, t.findNode cmp key = some p ∧
    (∀ i ∈ p, i ∈ tree.inorder) ∧ OrderedMap.get? cmp.lt m.entries key = p.bind t.value? := by
  rw [← hm]
  exact findNode_spec h.toHolds key

theorem emplace_refines (key : K) (value : V) : ∃ s t', t.emplace cmp key value =
    some (s, t') ∧ Refines cmp m (.insert key value, .status s) t' := by
  obtain ⟨p, hp, hmem, hget⟩ := find_deref h hm key
  cases p with
  | none =>
    obtain ⟨s, t', heq, href⟩ := emplaceValue_refines h hm key value
    refine ⟨s, t', ?_, href⟩
    rw [emplace, hp]
    exact heq
  | some i =>
    obtain ⟨e, he⟩ := h.values i (hmem i rfl)
    rw [Option.bind_some, he] at hget
    have hstep : Map.step m (.insert key value) = (.status .alreadyExists, m) := by
      rw [Map.step, dif_neg (by simp [hget])]
    refine ⟨.alreadyExists, t, ?_, by rw [hstep], tree, free, h, by rw [hstep, hm]⟩
    rw [emplace, hp]
    rfl

theorem erase_refines (key : K) :
    ∃ s t', t.erase cmp key = some (s, t') ∧ Refines cmp m (.erase key, .status s) t' := by
  obtain ⟨p, hp, hmem, hget⟩ := find_deref h hm key
  cases p with
  | none =>
    have hstep : Map.step m (.erase key) = (.status .notFound, m) := by
      have habsent : OrderedMap.get? cmp.lt m.entries key = none := hget
      rw [Map.step, if_pos habsent]
    refine ⟨.notFound, t, ?_, by rw [hstep], tree, free, h, by rw [hstep, hm]⟩
    rw [erase, hp]
    rfl
  | some i =>
    obtain ⟨e, he⟩ := h.values i (hmem i rfl)
    rw [Option.bind_some, he] at hget
    have hsame : OrderedMap.same cmp.lt e.1 key = true := by
      simpa using List.find?_some hget
    obtain ⟨before, behind, hin⟩ := List.append_of_mem (hmem i rfl)
    obtain ⟨t', tree', ht', herased⟩ := eraseNode_spec h hin
    have hstep : Map.step m (.erase key) = (.status .ok, m.erase key) := by
      rw [Map.step, if_neg (by simp [hget])]
    refine ⟨.ok, t', ?_, by rw [hstep], tree', _, herased.rep, ?_⟩
    · rw [erase, hp]
      simp [Option.bind_eq_bind, Option.bind_some, ht']
    · rw [hstep, herased.entries h hin he hsame, hm]
      rfl

theorem eraseAt_refines {i : Fin cap.size} (hi : i ∈ tree.inorder) :
    ∃ e next t' e', t.deref (some i) = some (some e) ∧ t.eraseAt (some i) = some (next, t') ∧
      t'.deref next = some e' ∧ Refines cmp m (.eraseAt (some e), .position e') t' := by
  obtain ⟨e, he⟩ := h.values i hi
  obtain ⟨before, behind, hin⟩ := List.append_of_mem hi
  obtain ⟨t', tree', ht', herased⟩ := eraseNode_spec h hin
  have hee : cmp.lt e.1 e.1 = false := by simpa using cmp.order.irrefl e.1
  have hn := h.nodup
  rw [hin] at hn
  have hni := (List.nodup_cons.mp (List.nodup_middle.mp hn)).1
  obtain ⟨hsplit, hleft, hright⟩ := h.split hin he
  have hnext : OrderedMap.upperBound cmp.lt m.entries e.1 = behind.head?.bind t'.value? := by
    have hvalues : ∀ j ∈ behind, t'.value? j = t.value? j :=
      fun j hj => herased.value j fun hji => hni (hji ▸ by simp [hj])
    rw [← hm, hsplit, OrderedMap.upperBound_behind hleft hright, ← entriesOf_congr hvalues]
    refine head?_entriesOf fun j hj => ?_
    rw [hvalues j hj]
    exact h.values j (by simp [hin, hj])
  refine ⟨e, behind.head?, t', _, ?_, ?_, deref_eq herased.rep.toHolds ?_ hnext, rfl, tree', _,
    herased.rep, ?_⟩
  · simp [deref, he]
  · rw [eraseAt]
    simp [(neighbour_spec h.toHolds hin).1, ht']
  · intro j hj
    rw [herased.inorder]
    simp [List.mem_of_mem_head? hj]
  · rw [herased.entries h hin he (by simp [OrderedMap.same, hee] : OrderedMap.same cmp.lt e.1 e.1 = true), hm]
    rfl

theorem apply_refines {op : Op cap K V} (hv : op.Valid t) :
    ∃ entry t', t.apply cmp op = some (entry, t') ∧ Refines cmp m entry t' := by
  cases op with
  | insert key value =>
    obtain ⟨s, t', heq, href⟩ := emplaceValue_refines h hm key value
    exact ⟨_, t', by rw [apply, insert, heq]; rfl, href⟩
  | emplace key value =>
    obtain ⟨s, t', heq, href⟩ := emplace_refines h hm key value
    exact ⟨_, t', by rw [apply, heq]; rfl, href⟩
  | erase key =>
    obtain ⟨s, t', heq, href⟩ := erase_refines h hm key
    exact ⟨_, t', by rw [apply, heq]; rfl, href⟩
  | eraseAt position =>
    cases position with
    | none => exact ⟨_, t, rfl, rfl, tree, free, h, hm⟩
    | some i =>
      obtain ⟨e, next, t', e', hderef, heq, hnext, href⟩ := eraseAt_refines h hm (h.mem_of_used hv)
      refine ⟨_, t', ?_, href⟩
      simp [apply, hderef, heq, hnext]

end step

/-- The representation invariant. -/
structure WellFormed (cmp : Compare K) (t : AvlTree cap K V) (tree : BinaryTree (Fin cap.size))
    (free : List (Fin cap.size)) : Prop where
  root : t.root = tree.root?
  /-- parent, left and right links agree, and form a tree -/
  linked : Linked t.links none tree
  values : ∀ i ∈ tree.inorder, ∃ e, t.value? i = some e
  ascending : (t.entriesOf tree.inorder).Pairwise fun a b => cmp.lt a.1 b.1 = true
  height : ∀ i ∈ tree.inorder, (t.node i).height.toNat =
    1 + max (t.height (t.node i).left).toNat (t.height (t.node i).right).toNat
  balance : ∀ i ∈ tree.inorder, -1 ≤ t.balanceFactor i ∧ t.balanceFactor i ≤ 1
  freeList : t.FreeChain t.freeHead free
  partition : (tree.inorder ++ free).Perm (List.finRange cap.size)
  size_eq : t.size = tree.inorder.length

theorem heights_of_stored {u : BinaryTree (Fin cap.size)}
    {parent : NodeRef cap} (hl : Linked t.links parent u) (hs : t.Stored u) (hb : u.Balanced) :
    ∀ i ∈ u.inorder, (t.node i).height.toNat = 1 + max (t.height (t.node i).left).toNat
    (t.height (t.node i).right).toNat ∧ -1 ≤ t.balanceFactor i ∧ t.balanceFactor i ≤ 1 := by
  induction u generalizing parent with
  | nil => simp
  | node a l r ihl ihr =>
    obtain ⟨ha, hll, hlr⟩ := hl
    obtain ⟨hsa, hsl, hsr⟩ := hs
    obtain ⟨⟨h₁, h₂⟩, hbl, hbr⟩ := hb
    intro i hi
    rcases List.mem_append.mp hi with hi | hi
    · exact ihl hll hsl hbl i hi
    rcases List.mem_cons.mp hi with rfl | hi
    · have hleft : (t.node i).left = l.root? := congrArg Links.left ha
      have hright : (t.node i).right = r.root? := congrArg Links.right ha
      rw [balanceFactor_eq ha hsl hsr, hsa, hleft, hright, hsl.height_root, hsr.height_root]
      omega
    · exact ihr hlr hsr hbr i hi

theorem Rep.wellFormed (h : Rep cmp t tree free) : WellFormed cmp t tree free where
  root := h.linked.above
  linked := h.linked.tree
  values := h.values
  ascending := h.sorted
  height i hi := (heights_of_stored h.linked.tree h.stored h.balanced i hi).1
  balance i hi := (heights_of_stored h.linked.tree h.stored h.balanced i hi).2
  freeList := h.chain
  partition := h.partition
  size_eq := h.size_eq

/-- The lookups and the iterators show the map. -/
structure Shows (cmp : Compare K) (t : AvlTree cap K V) (m : Map cap cmp V) : Prop where
  size : t.size = m.entries.length
  find : ∀ key, (t.find cmp key).bind t.deref = some (OrderedMap.get? cmp.lt m.entries key)
  contains : ∀ key, t.contains cmp key = some (OrderedMap.get? cmp.lt m.entries key).isSome
  mapped : ∀ key,
    t.mapped cmp key = some ((OrderedMap.get? cmp.lt m.entries key).map Prod.snd)
  lowerBound : ∀ key,
    (t.lowerBound cmp key).bind t.deref = some (OrderedMap.lowerBound cmp.lt m.entries key)
  upperBound : ∀ key,
    (t.upperBound cmp key).bind t.deref = some (OrderedMap.upperBound cmp.lt m.entries key)
  /-- from `begin()` the iterator visits the entries in ascending order; `--` undoes `++` -/
  visit : ∃ visited, t.begin.bind (t.visit cap.size) = some visited ∧
    visited.map (fun i => t.deref (some i)) = m.entries.map (fun e => some (some e)) ∧
    ∀ i ∈ visited, ∀ j ∈ visited,
      t.successor (some i) = some (some j) ↔ t.predecessor (some j) = some (some i)

theorem successor_predecessor (h : Holds cmp t tree) {i j : Fin cap.size} (hi : i ∈ tree.inorder)
    (hj : j ∈ tree.inorder) :
    t.successor (some i) = some (some j) ↔ t.predecessor (some j) = some (some i) := by
  obtain ⟨before, behind, hsplit⟩ := List.append_of_mem hi
  obtain ⟨before', behind', hsplit'⟩ := List.append_of_mem hj
  rw [(neighbour_spec h hsplit).1, (neighbour_spec h hsplit').2]
  constructor
  · intro hs
    cases behind with
    | nil => cases hs
    | cons k behind =>
      cases hs
      have hother : tree.inorder = (before ++ [i]) ++ j :: behind := by simp [hsplit]
      rw [(neighbour_spec h hsplit').2.symm, (neighbour_spec h hother).2]
      simp
  · intro hp
    obtain ⟨rest, rfl⟩ : ∃ rest, before' = rest ++ [i] :=
      ⟨_, (List.dropLast_append_getLast? i (Option.some.inj hp)).symm⟩
    have hother : tree.inorder = rest ++ i :: j :: behind' := by simp [hsplit']
    rw [(neighbour_spec h hsplit).1.symm, (neighbour_spec h hother).1]
    rfl

theorem Rep.shows (h : Rep cmp t tree free) {m : Map cap cmp V}
    (hm : t.entriesOf tree.inorder = m.entries) : Shows cmp t m where
  size := by rw [h.size_eq, ← hm, length_entriesOf h.values]
  find key := by
    obtain ⟨p, hp, hmem, hget⟩ := find_deref h hm key
    rw [find, hp]
    exact deref_eq h.toHolds hmem hget
  contains key := by
    obtain ⟨p, hp, hmem, hget⟩ := find_deref h hm key
    rw [AvlTree.contains, hp, hget]
    cases p with
    | none => rfl
    | some i =>
      obtain ⟨e, he⟩ := h.values i (hmem i rfl)
      simp [he]
  mapped key := by
    obtain ⟨p, hp, hmem, hget⟩ := find_deref h hm key
    rw [AvlTree.mapped, hp, hget]
    cases p with
    | none => rfl
    | some i =>
      obtain ⟨e, he⟩ := h.values i (hmem i rfl)
      have hv : (t.node i).value = some e := he
      simp [he, hv]
  lowerBound key := by
    obtain ⟨p, hp, hmem, hget⟩ := lowerBound_spec h.toHolds key
    rw [hp, ← hm]
    exact deref_eq h.toHolds hmem hget
  upperBound key := by
    obtain ⟨p, hp, hmem, hget⟩ := upperBound_spec h.toHolds key
    rw [hp, ← hm]
    exact deref_eq h.toHolds hmem hget
  visit := by
    refine ⟨tree.inorder, ?_, ?_, fun i hi j hj => successor_predecessor h.toHolds hi hj⟩
    · rw [begin_spec h.toHolds, Option.bind_some]
      exact @visit_spec _ _ _ _ _ _ h.toHolds [] _ rfl _ h.size_le
    · rw [← hm]
      clear hm
      have hv := h.values
      generalize tree.inorder = l at hv
      induction l with
      | nil => rfl
      | cons i l ih =>
        obtain ⟨e, he⟩ := hv i (by simp)
        rw [entriesOf_cons he, List.map_cons, List.map_cons, ih fun j hj => hv j (by simp [hj])]
        simp [deref, he]

theorem run_refines {ops : List (Op cap K V)} {m : Map cap cmp V} (h : Rep cmp t tree free)
    (hm : t.entriesOf tree.inorder = m.entries) (hv : t.ValidRun cmp ops) : ∃ log t' tree' free',
    t.run cmp ops = some (log, t') ∧ Rep cmp t' tree' free' ∧ (Map.run m (log.map Prod.fst)).1 =
    log.map Prod.snd ∧ t'.entriesOf tree'.inorder = (Map.run m (log.map Prod.fst)).2.entries := by
  induction ops generalizing t tree free m with
  | nil => exact ⟨[], t, tree, free, rfl, h, rfl, hm⟩
  | cons op ops ih =>
    obtain ⟨hvalid, hrest⟩ := hv
    obtain ⟨entry, t₁, happly, hreply, tree₁, free₁, h₁, hm₁⟩ := apply_refines h hm hvalid
    rw [happly] at hrest
    obtain ⟨log, t', tree', free', hrun, h', hreplies, hentries⟩ := ih h₁ hm₁ hrest
    refine ⟨entry :: log, t', tree', free', ?_, h', ?_, hentries⟩
    · rw [run, happly]
      simp [Option.bind_eq_bind, Option.bind_some, hrun]
    · rw [List.map_cons, List.map_cons, ← hreply, ← hreplies]
      rfl

/-- After any operations the representation invariant holds. -/
theorem run_wellFormed (ops : List (Op cap K V)) (hv : (empty : AvlTree cap K V).ValidRun cmp ops) :
    ∃ log t tree free, (empty : AvlTree cap K V).run cmp ops = some (log, t) ∧
      WellFormed cmp t tree free := by
  obtain ⟨log, t, tree, free, hrun, hrep, -, -⟩ := run_refines (m := Map.empty) rep_empty rfl hv
  exact ⟨log, t, tree, free, hrun, hrep.wellFormed⟩

/-- `castle::less` on numbers. -/
def lessNat : Compare ℕ where
  lt a b := a < b
  order := {
    irrefl a := by simp
    trans a b c := by
      simp only [decide_eq_true_eq]
      omega
    incomp_trans a b c := by
      simp only [decide_eq_true_eq]
      omega }

theorem run_wellFormed_erase : ∃ log t tree free,
    (empty : AvlTree ⟨3, by decide, by decide⟩ ℕ ℕ).run lessNat
      [.insert 1 10, .insert 2 20, .emplace 3 30, .erase 2, .eraseAt (some 0)] = some (log, t) ∧
      WellFormed lessNat t tree free :=
  run_wellFormed _ (by decide)

/-- Any operations return what those of the map return, and then the tree shows the map. -/
theorem run_refines_map (ops : List (Op cap K V))
    (hv : (empty : AvlTree cap K V).ValidRun cmp ops) : ∃ log t, (empty : AvlTree cap K V).run
    cmp ops = some (log, t) ∧ (Map.run (Map.empty : Map cap cmp V) (log.map Prod.fst)).1 =
    log.map Prod.snd ∧ Shows cmp t (Map.run (Map.empty : Map cap cmp V) (log.map Prod.fst)).2 := by
  obtain ⟨log, t, tree, free, hrun, hrep, hreplies, hentries⟩ :=
    run_refines (m := Map.empty) rep_empty rfl hv
  exact ⟨log, t, hrun, hreplies, hrep.shows hentries⟩

theorem run_refines_map_erase : ∃ (log : Log ℕ ℕ) (t : AvlTree ⟨2, by decide, by decide⟩ ℕ ℕ),
    empty.run lessNat
      [.insert 2 20, .insert 1 10, .insert 3 30, .eraseAt (some 1), .erase 5] = some (log, t) ∧
      (Map.run (Map.empty : Map ⟨2, by decide, by decide⟩ lessNat ℕ) (log.map Prod.fst)).1 =
        log.map Prod.snd ∧
      Shows lessNat t (Map.run Map.empty (log.map Prod.fst)).2 :=
  run_refines_map _ (by decide)

end Castle.Container.AvlTree

import Castle.Serialization.Json.Entries

/-!
# The tree of a document

The tree of a document is the tree of the nodes added to it.
-/

namespace Castle.Serialization.Json

namespace Entries

/-- The node `i` with its children in the order of their creation; a null node has no text. -/
def treeAt (es : Entries) : ℕ → ℕ → Tree
  | 0, _ => .node .null [] .nil
  | fuel + 1, i =>
    .node (entry es i).kind (if (entry es i).kind = .null then [] else (entry es i).value)
      (Forest.ofList ((children es i).map fun c => ((entry es c).key, treeAt es fuel c)))

/-- The tree of the created nodes. -/
def tree (es : Entries) : Tree := treeAt es es.length 0

theorem length_childrenFrom_le (base : ℕ) (es : Entries) (p : ℕ) :
    (childrenFrom base es p).length ≤ es.length := by
  induction es generalizing base with
  | nil => exact Nat.zero_le _
  | cons e es ih =>
    have hle := ih (base + 1)
    rw [childrenFrom, List.length_cons]
    split
    · rw [List.length_cons]
      omega
    · omega

end Entries

namespace Document

open Entries

variable {cap : Capacity} {es : Entries}

theorem nextSibling_ofEntries {p i : ℕ} {a b : List ℕ} (h : Entries.children es p = a ++ i :: b) :
    (ofEntries es : Document cap).nextSibling i = b.head? := by
  have hmem : i ∈ Entries.children es p := by simp [h]
  have hsorted := pairwise_children es p
  obtain ⟨e, he, hp⟩ := mem_children.mp hmem
  have hparent : (entry es i).parent = some p := by rw [entry, he, Option.getD_some, hp]
  rw [nextSibling, node_ofEntries (lt_of_mem_children hmem)]
  show Entries.nextSibling es i = _
  rw [Entries.nextSibling, hparent]
  dsimp only
  rw [h] at hsorted ⊢
  exact find?_lt_of_sorted hsorted

theorem siblings_ofEntries {p : ℕ} {a b : List ℕ} {i fuel : ℕ}
    (h : Entries.children es p = a ++ i :: b) (hfuel : b.length < fuel) :
    (ofEntries es : Document cap).siblings fuel (some i) = i :: b := by
  induction b generalizing a i fuel with
  | nil =>
    obtain ⟨n, rfl⟩ := Nat.exists_eq_succ_of_ne_zero (Nat.ne_zero_of_lt hfuel)
    rw [siblings, nextSibling_ofEntries h, List.head?_nil, siblings]
  | cons j b ih =>
    obtain ⟨n, rfl⟩ := Nat.exists_eq_succ_of_ne_zero (Nat.ne_zero_of_lt hfuel)
    have hnext : Entries.children es p = (a ++ [i]) ++ j :: b := by simp [h]
    rw [siblings, nextSibling_ofEntries h, List.head?_cons, ih hnext (Nat.lt_of_succ_lt_succ hfuel)]

theorem children_ofEntries {i : ℕ} (hi : i < es.length) :
    (ofEntries es : Document cap).children i = Entries.children es i := by
  rw [children, firstChild, node_ofEntries hi]
  show siblings _ _ (Entries.children es i).head? = _
  cases h : Entries.children es i with
  | nil => simp [siblings]
  | cons c b =>
    have hlen := length_childrenFrom_le 0 es i
    rw [← Entries.children, h, List.length_cons] at hlen
    exact siblings_ofEntries (a := []) h (by rw [length_nodes_ofEntries]; omega)

theorem treeAt_ofEntries {i : ℕ} (fuel : ℕ) (hi : i < es.length) :
    (ofEntries es : Document cap).treeAt fuel i = Entries.treeAt es fuel i := by
  induction fuel generalizing i with
  | zero => rfl
  | succ fuel ih =>
    have hmap : ((ofEntries es : Document cap).children i).map (fun c =>
        ((ofEntries es : Document cap).key c, (ofEntries es : Document cap).treeAt fuel c)) =
          (Entries.children es i).map fun c => ((entry es c).key, Entries.treeAt es fuel c) := by
      rw [children_ofEntries hi]
      refine List.map_congr_left fun c hc => ?_
      rw [key_ofEntries (lt_of_mem_children hc), ih (lt_of_mem_children hc)]
    have hkind : ((ofEntries es : Document cap).node i).kind = (entry es i).kind := by
      rw [node_ofEntries hi]
      rfl
    rw [treeAt, Entries.treeAt, hmap, hkind, scalar_ofEntries hi]

theorem tree_ofEntries (h : es ≠ []) : (ofEntries es : Document cap).tree = es.tree := by
  rw [tree, length_nodes_ofEntries, treeAt_ofEntries _ (List.length_pos_of_ne_nil h)]
  rfl

end Document

mutual

/-- The nodes of a tree in preorder, the first with this index, parent and key. -/
def Tree.entries (base : ℕ) (parent : Option ℕ) (key : Bytes) : Tree → Entries
  | .node kind value children => ⟨kind, parent, key, value⟩ :: children.entries (base + 1) base

def Forest.entries (base parent : ℕ) : Forest → Entries
  | .nil => []
  | .cons key child rest =>
    child.entries base (some parent) key ++ rest.entries (base + child.size) parent

end

/-- The indices of the roots of a forest whose first node has index `base`. -/
def Forest.indices (base : ℕ) : Forest → List ℕ
  | .nil => []
  | .cons _ child rest => base :: rest.indices (base + child.size)

mutual

@[simp] theorem Tree.length_entries : ∀ (t : Tree) (base : ℕ) (parent : Option ℕ) (key : Bytes),
    (t.entries base parent key).length = t.size
  | .node _ _ children, base, parent, key => by
    rw [Tree.entries, Tree.size, List.length_cons, Forest.length_entries children]

@[simp] theorem Forest.length_entries : ∀ (f : Forest) (base parent : ℕ),
    (f.entries base parent).length = f.size
  | .nil, _, _ => rfl
  | .cons key child rest, base, parent => by
    rw [Forest.entries, Forest.size, List.length_append, Tree.length_entries child,
      Forest.length_entries rest]

end

mutual

theorem Tree.bytes_entries : ∀ (t : Tree) (base : ℕ) (parent : Option ℕ) (key : Bytes),
    (t.entries base parent key).bytes = key.length + t.bytes
  | .node kind value children, base, parent, key => by
    rw [Tree.entries, ← List.singleton_append, Entries.bytes_append, Entries.bytes_singleton,
      Forest.bytes_entries children, Tree.bytes, Nat.add_assoc]

theorem Forest.bytes_entries : ∀ (f : Forest) (base parent : ℕ),
    (f.entries base parent).bytes = f.bytes
  | .nil, _, _ => rfl
  | .cons key child rest, base, parent => by
    rw [Forest.entries, Entries.bytes_append, Tree.bytes_entries child,
      Forest.bytes_entries rest, Forest.bytes]

end

theorem Tree.size_pos : ∀ t : Tree, 0 < t.size
  | .node _ _ _ => Nat.succ_pos _

mutual

theorem Tree.parent_of_mem_entries : ∀ {t : Tree} {base : ℕ} {parent : Option ℕ} {key : Bytes}
    {e : Entry}, e ∈ t.entries base parent key →
      e.parent = parent ∨ ∃ p, e.parent = some p ∧ base ≤ p ∧ p < base + t.size
  | .node kind value children, base, parent, key, e, h => by
    rw [Tree.entries, List.mem_cons] at h
    rw [Tree.size]
    rcases h with rfl | h
    · exact .inl rfl
    · obtain hp | ⟨p, hp, hle, hlt⟩ := Forest.parent_of_mem_entries h
      · exact .inr ⟨base, hp, by omega, by omega⟩
      · exact .inr ⟨p, hp, by omega, by omega⟩

theorem Forest.parent_of_mem_entries : ∀ {f : Forest} {base parent : ℕ} {e : Entry},
    e ∈ f.entries base parent →
      e.parent = some parent ∨ ∃ p, e.parent = some p ∧ base ≤ p ∧ p < base + f.size
  | .nil, _, _, _, h => nomatch h
  | .cons key child rest, base, parent, e, h => by
    rw [Forest.entries, List.mem_append] at h
    rw [Forest.size]
    rcases h with h | h
    · obtain hp | ⟨p, hp, hle, hlt⟩ := Tree.parent_of_mem_entries h
      · exact .inl hp
      · exact .inr ⟨p, hp, by omega, by omega⟩
    · obtain hp | ⟨p, hp, hle, hlt⟩ := Forest.parent_of_mem_entries h
      · exact .inl hp
      · exact .inr ⟨p, hp, by omega, by omega⟩

end

namespace Entries

theorem childrenFrom_tree {t : Tree} {base q : ℕ} {parent : Option ℕ} {key : Bytes} (hq : q < base)
    : childrenFrom base (t.entries base parent key) q = if parent = some q then [base] else [] := by
  obtain ⟨kind, value, children⟩ := t
  have hrest : childrenFrom (base + 1) (children.entries (base + 1) base) q = [] := by
    refine childrenFrom_eq_nil fun e he hp => ?_
    obtain hp' | ⟨p, hp', hle, -⟩ := Forest.parent_of_mem_entries he
    · rw [hp, Option.some.injEq] at hp'
      omega
    · rw [hp, Option.some.injEq] at hp'
      omega
  rw [Tree.entries, childrenFrom, hrest]

theorem childrenFrom_forest : ∀ {f : Forest} {base p : ℕ}, p < base →
    childrenFrom base (f.entries base p) p = f.indices base
  | .nil, _, _, _ => rfl
  | .cons key child rest, base, p, hp => by
    rw [Forest.entries, childrenFrom_append, childrenFrom_tree hp, if_pos rfl, Forest.indices,
      Tree.length_entries, childrenFrom_forest (by omega), List.singleton_append]

/-- No node of `es` has its parent among the `n` nodes from `base` on. -/
def Apart (base n : ℕ) (es : Entries) : Prop :=
  ∀ e ∈ es, ∀ p, e.parent = some p → p < base ∨ base + n ≤ p

theorem Apart.childrenFrom {base n k q : ℕ} {es : Entries} (h : Apart base n es) (hle : base ≤ q)
    (hlt : q < base + n) : Entries.childrenFrom k es q = [] := by
  refine childrenFrom_eq_nil fun e he hp => ?_
  have hq := h e he q hp
  omega

theorem Apart.mono {base n base' n' : ℕ} {es : Entries} (h : Apart base n es) (hle : base ≤ base')
    (hle' : base' + n' ≤ base + n) : Apart base' n' es := by
  intro e he p hp
  have hq := h e he p hp
  omega

theorem Apart.append {base n : ℕ} {es es' : Entries} (h : Apart base n es)
    (h' : Apart base n es') : Apart base n (es ++ es') := by
  intro e he
  rcases List.mem_append.mp he with he | he
  · exact h e he
  · exact h' e he

theorem apart_tree {t : Tree} {base n from' : ℕ} {parent : Option ℕ} {key : Bytes}
    (hparent : ∀ p, parent = some p → p < base) (h : from' + t.size ≤ base ∨ base + n ≤ from') :
    Apart base n (t.entries from' parent key) := by
  intro e he q hq
  obtain hp | ⟨p, hp, hle, hlt⟩ := Tree.parent_of_mem_entries he
  · exact .inl (hparent q (hp ▸ hq))
  · rw [hq, Option.some.injEq] at hp
    omega

theorem apart_forest {f : Forest} {base n from' parent : ℕ} (hparent : parent < base)
    (h : base + n ≤ from') : Apart base n (f.entries from' parent) := by
  intro e he q hq
  obtain hp | ⟨p, hp, hle, hlt⟩ := Forest.parent_of_mem_entries he
  · rw [hq, Option.some.injEq] at hp
    omega
  · rw [hq, Option.some.injEq] at hp
    omega

mutual

theorem treeAt_entries : ∀ {t : Tree} {a b : Entries} {parent : Option ℕ} {key : Bytes}
    {n : ℕ}, t.Valid → (∀ p, parent = some p → p < a.length) →
      Apart a.length t.size a → Apart a.length t.size b → t.size ≤ n →
        treeAt (a ++ (t.entries a.length parent key ++ b)) n a.length = t
  | .node kind value children, a, b, parent, key, n, hvalid, hparent, hbefore,
      hafter, hfuel => by
    obtain ⟨hvalue, -, hchildren⟩ := hvalid
    obtain ⟨m, rfl⟩ := Nat.exists_eq_succ_of_ne_zero (Nat.ne_zero_of_lt (Nat.lt_of_lt_of_le
      (Tree.size_pos _) hfuel))
    rw [Tree.size] at hbefore hafter hfuel
    generalize hes : a ++ ((Tree.node kind value children).entries a.length parent key ++
      b) = es
    have hsplit : es = a ++ [⟨kind, parent, key, value⟩] ++
        (children.entries (a.length + 1) a.length ++ b) := by
      rw [← hes, Tree.entries, List.append_assoc]
      rfl
    have hentry : entry es a.length = ⟨kind, parent, key, value⟩ := by
      rw [hsplit, entry_append _ (by simp), entry_concat_length]
    have hindices : Entries.children es a.length = children.indices (a.length + 1) := by
      have hfirst : ¬ parent = some a.length := fun hp => by
        have hlt := hparent _ hp
        omega
      rw [hsplit, Entries.children, List.append_assoc, childrenFrom_append,
        hbefore.childrenFrom (by omega) (by omega), List.nil_append, List.singleton_append,
        childrenFrom, if_neg hfirst, childrenFrom_append, Nat.zero_add,
        childrenFrom_forest (by omega), hafter.childrenFrom (by omega) (by omega), List.append_nil]
    have hvalue' : (if kind = .null then [] else value) = value := by
      split
      next h =>
        subst h
        exact hvalue.symm
      · rfl
    have hlength : (a ++ [(⟨kind, parent, key, value⟩ : Entry)]).length = a.length + 1 := by
      simp
    have happart : Apart (a.length + 1) children.size [⟨kind, parent, key, value⟩] := by
      intro e he p hp
      rw [List.mem_singleton] at he
      subst he
      have hlt := hparent p hp
      omega
    have ih := treesAt_entries (a := a ++ [⟨kind, parent, key, value⟩]) (b := b)
      (p := a.length) (n := m) hchildren (by omega)
      (by rw [hlength]; exact (hbefore.mono (by omega) (by omega)).append happart)
      (by rw [hlength]; exact hafter.mono (by omega) (by omega)) (by omega)
    rw [hlength, ← hsplit] at ih
    rw [treeAt, hentry, hindices, hvalue', ih]

theorem treesAt_entries : ∀ {f : Forest} {kind : Kind} {a b : Entries} {p n : ℕ},
    f.Valid kind → p < a.length → Apart a.length f.size a →
      Apart a.length f.size b → f.size ≤ n →
        Forest.ofList ((f.indices a.length).map fun c =>
          ((entry (a ++ (f.entries a.length p ++ b)) c).key,
            treeAt (a ++ (f.entries a.length p ++ b)) n c)) = f
  | .nil, _, _, _, _, _, _, _, _, _, _ => rfl
  | .cons key child rest, kind, a, b, p, n, hvalid, hp, hbefore, hafter, hfuel => by
    obtain ⟨-, hchild, hrest⟩ := hvalid
    rw [Forest.size] at hbefore hafter hfuel
    generalize hes : a ++ ((Forest.cons key child rest).entries a.length p ++ b) = es
    have hsplit : es = a ++ (child.entries a.length (some p) key ++
        (rest.entries (a.length + child.size) p ++ b)) := by
      rw [← hes, Forest.entries, List.append_assoc]
    have hsplit' : es = a ++ child.entries a.length (some p) key ++
        (rest.entries (a.length + child.size) p ++ b) := by
      rw [hsplit, List.append_assoc]
    have hlength : (a ++ child.entries a.length (some p) key).length =
        a.length + child.size := by simp
    have hkey : (entry es a.length).key = key := by
      obtain ⟨kind, value, children⟩ := child
      rw [hsplit, Tree.entries]
      simp [entry]
    have hroot := @treeAt_entries child a (rest.entries (a.length + child.size) p ++ b) (some p) key n
      hchild
      (fun q hq => Option.some.inj hq ▸ hp) (hbefore.mono (by omega) (by omega))
      ((apart_forest hp (by omega)).append (hafter.mono (by omega) (by omega))) (by omega)
    have ih := treesAt_entries (a := a ++ child.entries a.length (some p) key)
      (b := b) (p := p) (n := n) hrest (by omega)
      (by
        rw [hlength]
        exact (hbefore.mono (by omega) (by omega)).append
          (apart_tree (fun q hq => by rw [← Option.some.inj hq]; omega) (.inl (by omega))))
      (by rw [hlength]; exact hafter.mono (by omega) (by omega)) (by omega)
    rw [hlength, ← hsplit'] at ih
    rw [← hsplit] at hroot
    rw [Forest.indices, List.map_cons, Forest.ofList, hkey, hroot, ih]

end

theorem tree_entries {t : Tree} (h : t.Valid) (key : Bytes) : (t.entries 0 none key).tree = t := by
  have hroot := @treeAt_entries t [] [] none key t.size h nofun nofun nofun (Nat.le_refl _)
  rw [List.append_nil, List.nil_append, List.length_nil] at hroot
  rw [tree, Tree.length_entries, hroot]

end Entries
end Castle.Serialization.Json

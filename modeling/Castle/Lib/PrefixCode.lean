import Mathlib.Data.List.Perm.Basic
import Mathlib.Data.List.Infix
import Mathlib.Data.List.Nodup

/-!
# Codes of bits without common prefixes

A full binary tree whose leaves have values. The code of a value is the path to its leaf, so no
code is the beginning of another one, and a text of codes is read in one way.
-/

namespace Castle

inductive CodeTree (α : Type) where
  | leaf (value : α)
  | node (zero one : CodeTree α)

namespace CodeTree

variable {α : Type}

/-- The tree below a node, in one direction. -/
def child (bit : Bool) : CodeTree α → Option (CodeTree α)
  | .leaf _ => none
  | .node zero one => some (if bit then one else zero)

/-- The tree at the end of a path. -/
def descend : CodeTree α → List Bool → Option (CodeTree α)
  | t, [] => some t
  | t, bit :: path => (t.child bit).bind fun next => next.descend path
termination_by _ path => path

/-- The paths to all nodes. -/
def paths : CodeTree α → List (List Bool)
  | .leaf _ => [[]]
  | .node zero one => [] :: (zero.paths.map (false :: ·) ++ one.paths.map (true :: ·))

/-- The paths to the leaves, with their values. -/
def leaves : CodeTree α → List (List Bool × α)
  | .leaf value => [([], value)]
  | .node zero one =>
    zero.leaves.map (fun leaf => (false :: leaf.1, leaf.2)) ++ one.leaves.map fun leaf => (true :: leaf.1, leaf.2)

variable (t : CodeTree α)

@[simp] theorem descend_nil : t.descend [] = some t := by rw [descend]

theorem descend_cons (bit : Bool) (path : List Bool) :
    t.descend (bit :: path) = (t.child bit).bind fun next => next.descend path := by rw [descend]

theorem descend_append (path path' : List Bool) :
    t.descend (path ++ path') = (t.descend path).bind fun next => next.descend path' := by
  induction path generalizing t with
  | nil => rw [List.nil_append, descend_nil, Option.bind_some]
  | cons bit path ih =>
    rw [List.cons_append, descend_cons, descend_cons, Option.bind_assoc]
    congr 1
    funext next
    exact ih next

theorem descend_concat (path : List Bool) (bit : Bool) :
    t.descend (path ++ [bit]) = (t.descend path).bind (child bit) := by
  rw [descend_append]
  congr 1
  funext next
  rw [descend_cons]
  cases next.child bit with
  | none => rfl
  | some last => rw [Option.bind_some, descend_nil]

/-- A full tree has one node less than twice the number of its leaves. -/
theorem length_paths : t.paths.length + 1 = 2 * t.leaves.length := by
  induction t with
  | leaf value => rfl
  | node zero one hzero hone =>
    rw [paths, leaves, List.length_cons, List.length_append, List.length_append, List.length_map,
      List.length_map, List.length_map, List.length_map]
    omega

theorem mem_paths_iff (path : List Bool) : path ∈ t.paths ↔ ∃ s, t.descend path = some s := by
  induction t generalizing path with
  | leaf value =>
    rw [paths, List.mem_singleton]
    cases path with
    | nil => simp
    | cons bit path => simp [descend_cons, child]
  | node zero one hzero hone =>
    rw [paths, List.mem_cons, List.mem_append, List.mem_map, List.mem_map]
    cases path with
    | nil => simp
    | cons bit path =>
      rw [descend_cons, child, Option.bind_some]
      cases bit with
      | false => simp [hzero]
      | true => simp [hone]

theorem mem_paths_of_append {t : CodeTree α} {path rest : List Bool} (h : path ++ rest ∈ t.paths) :
    path ∈ t.paths := by
  rw [mem_paths_iff] at h ⊢
  obtain ⟨s, hs⟩ := h
  rw [descend_append] at hs
  obtain ⟨s', hs', _⟩ := Option.bind_eq_some_iff.mp hs
  exact ⟨s', hs'⟩

theorem mem_leaves_iff (path : List Bool) (value : α) :
    (path, value) ∈ t.leaves ↔ t.descend path = some (.leaf value) := by
  induction t generalizing path with
  | leaf other =>
    rw [leaves, List.mem_singleton]
    cases path with
    | nil => simp [eq_comm]
    | cons bit path => simp [descend_cons, child]
  | node zero one hzero hone =>
    rw [leaves, List.mem_append, List.mem_map, List.mem_map]
    cases path with
    | nil => simp
    | cons bit path =>
      rw [descend_cons, child, Option.bind_some]
      cases bit with
      | false => simp [hzero]
      | true => simp [hone]

theorem exists_leaf : ∃ path value, (path, value) ∈ t.leaves := by
  induction t with
  | leaf value => exact ⟨[], value, List.mem_singleton_self _⟩
  | node zero one hzero hone =>
    obtain ⟨path, value, h⟩ := hzero
    exact ⟨false :: path, value, List.mem_append_left _ (List.mem_map.mpr ⟨_, h, rfl⟩)⟩

theorem exists_leaf_of_mem_paths {t : CodeTree α} {path : List Bool} (h : path ∈ t.paths) :
    ∃ rest value, (path ++ rest, value) ∈ t.leaves := by
  obtain ⟨s, hs⟩ := (t.mem_paths_iff path).mp h
  obtain ⟨rest, value, hleaf⟩ := s.exists_leaf
  refine ⟨rest, value, ?_⟩
  rw [mem_leaves_iff, descend_append, hs, Option.bind_some]
  exact (s.mem_leaves_iff rest value).mp hleaf

theorem descend_leaf_append {t : CodeTree α} {path rest : List Bool} {value : α}
    (h : t.descend path = some (.leaf value)) (hrest : rest ≠ []) : t.descend (path ++ rest) = none := by
  cases rest with
  | nil => exact absurd rfl hrest
  | cons bit rest => rw [descend_append, h, Option.bind_some, descend_cons, child, Option.bind_none]

theorem eq_nil_of_leaf {t : CodeTree α} {path rest : List Bool} {value : α} (h : (path, value) ∈ t.leaves)
    (hpath : path ++ rest ∈ t.paths) : rest = [] := by
  by_contra hrest
  rw [mem_paths_iff, descend_leaf_append ((t.mem_leaves_iff path value).mp h) hrest] at hpath
  obtain ⟨s, hs⟩ := hpath
  cases hs

theorem mem_paths_concat {t : CodeTree α} {path : List Bool} (h : path ∈ t.paths)
    (hinner : ∀ value, (path, value) ∉ t.leaves) (bit : Bool) : path ++ [bit] ∈ t.paths := by
  rw [mem_paths_iff] at h ⊢
  obtain ⟨s, hs⟩ := h
  rw [descend_concat, hs, Option.bind_some]
  cases s with
  | leaf value => exact absurd ((t.mem_leaves_iff path value).mpr hs) (hinner value)
  | node zero one => exact ⟨_, rfl⟩

theorem leaf_prefix_eq {t : CodeTree α} {path path' text : List Bool} {value value' : α}
    (h : (path, value) ∈ t.leaves) (h' : (path', value') ∈ t.leaves) (hpre : path <+: text) (hpre' : path' <+: text) :
    path = path' ∧ value = value' := by
  rw [mem_leaves_iff] at h h'
  have hsame : ∀ {p q : List Bool} {a b : α}, t.descend p = some (.leaf a) → t.descend q = some (.leaf b) → p <+: q →
      p = q := by
    intro p q a b hp hq hle
    obtain ⟨rest, rfl⟩ := hle
    by_cases hrest : rest = []
    · rw [hrest, List.append_nil]
    · rw [descend_leaf_append hp hrest] at hq
      cases hq
  have hpath : path = path' := by
    rcases List.prefix_or_prefix_of_prefix hpre hpre' with hle | hle
    · exact hsame h h' hle
    · exact (hsame h' h hle).symm
  subst hpath
  rw [h] at h'
  cases h'
  exact ⟨rfl, rfl⟩

/-- The rest of a code that begins with a bit. -/
def strip (bit : Bool) (value : α) : List Bool → Option (List Bool × α)
  | [] => none
  | first :: rest => if first == bit then some (rest, value) else none

/-- The rests of the codes that begin with a bit. -/
def rests (bit : Bool) (codes : List (List Bool × α)) : List (List Bool × α) :=
  codes.filterMap fun code => strip bit code.2 code.1

/-- The tree of codes, none of them longer than the fuel, when they fill a tree. -/
def ofCodes : ℕ → List (List Bool × α) → Option (CodeTree α)
  | 0, _ => none
  | fuel + 1, codes =>
    match codes with
    | [([], value)] => some (.leaf value)
    | codes =>
      if codes.any fun code => code.1.isEmpty then none
      else do
        let zero ← ofCodes fuel (rests false codes)
        let one ← ofCodes fuel (rests true codes)
        some (.node zero one)

theorem rests_perm {codes : List (List Bool × α)} (h : (codes.any fun code => code.1.isEmpty) = false) :
    ((rests false codes).map (fun leaf => (false :: leaf.1, leaf.2)) ++
      (rests true codes).map fun leaf => (true :: leaf.1, leaf.2)).Perm codes := by
  induction codes with
  | nil => exact .nil
  | cons code codes ih =>
    rw [List.any_cons, Bool.or_eq_false_iff] at h
    have hrest := ih h.2
    obtain ⟨path, value⟩ := code
    cases path with
    | nil => cases h.1
    | cons bit path =>
      cases bit with
      | false => exact hrest.cons _
      | true =>
        refine List.Perm.trans ?_ (hrest.cons _)
        exact List.perm_middle

theorem ofCodes_leaves {fuel : ℕ} {codes : List (List Bool × α)} {t : CodeTree α}
    (h : ofCodes fuel codes = some t) : t.leaves.Perm codes := by
  induction fuel generalizing codes t with
  | zero => cases h
  | succ fuel ih =>
    rw [ofCodes.eq_def] at h
    dsimp only at h
    split at h
    next value =>
      cases h
      exact .refl _
    · split at h
      · cases h
      next hany =>
        rw [Bool.not_eq_true] at hany
        obtain ⟨zero, hzero, h⟩ := Option.bind_eq_some_iff.mp h
        obtain ⟨one, hone, h⟩ := Option.bind_eq_some_iff.mp h
        cases h
        exact ((ih hzero).map _ |>.append ((ih hone).map _)).trans (rests_perm hany)

theorem codes_unique {β : Type} {t : CodeTree α} {code : β → List Bool} {value : β → α}
    (hvalue : Function.Injective value) (hcode : ∀ b, (code b, value b) ∈ t.leaves) {text text' : List β}
    {rest rest' : List Bool} (hrest : ∀ b ∈ text', ¬code b <+: rest) (hrest' : ∀ b ∈ text, ¬code b <+: rest')
    (h : text.flatMap code ++ rest = text'.flatMap code ++ rest') : text = text' ∧ rest = rest' := by
  induction text generalizing text' with
  | nil =>
    cases text' with
    | nil => exact ⟨rfl, h⟩
    | cons b text' =>
      refine absurd ?_ (hrest b List.mem_cons_self)
      rw [List.flatMap_nil, List.nil_append, List.flatMap_cons, List.append_assoc] at h
      exact ⟨_, h.symm⟩
  | cons b text ih =>
    cases text' with
    | nil =>
      refine absurd ?_ (hrest' b List.mem_cons_self)
      rw [List.flatMap_nil, List.nil_append, List.flatMap_cons, List.append_assoc] at h
      exact ⟨_, h⟩
    | cons b' text' =>
      rw [List.flatMap_cons, List.flatMap_cons, List.append_assoc, List.append_assoc] at h
      have hsame := hvalue (leaf_prefix_eq (hcode b) (hcode b') ⟨_, rfl⟩ ⟨_, h.symm⟩).2
      subst hsame
      rw [List.forall_mem_cons] at hrest hrest'
      obtain ⟨htext, hrests⟩ := ih hrest.2 hrest'.2 (List.append_cancel_left h)
      exact ⟨by rw [htext], hrests⟩

end CodeTree
end Castle

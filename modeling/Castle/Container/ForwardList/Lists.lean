import Mathlib.Data.List.FinRange
import Mathlib.Data.List.Induction
import Castle.Container.ForwardList.State
import Castle.Lib.Chain

/-!
# The list that the nodes hold

`Rep s list free`: the live nodes with their values in the order of the traversal, and the nodes of
the free list.
-/

namespace Castle.Container.ForwardList

variable {cap : Capacity} {T : Type} {s s' : ForwardList cap T}

def nextOf (s : ForwardList cap T) (i : Fin cap.size) : Option (Fin cap.size) := (s.node i).next

@[simp] theorem node_modifyNode_self (s : ForwardList cap T) (i : Fin cap.size)
    (f : Node cap T → Node cap T) : (s.modifyNode i f).node i = f (s.node i) :=
  Table.get_modify_self _ i f

theorem node_modifyNode_ne (s : ForwardList cap T) {i j : Fin cap.size}
    (f : Node cap T → Node cap T) (h : j ≠ i) : (s.modifyNode i f).node j = s.node j :=
  Table.get_modify_ne _ f h

section setNext

variable (s) (p : NodeBase cap) (n : Option (Fin cap.size))

@[simp] theorem next_setNext_self : (s.setNext p n).next p = n := by
  cases p with
  | before => rfl
  | node i => exact congrArg Node.next (s.node_modifyNode_self i _)

theorem next_setNext_ne {q : NodeBase cap} (h : q ≠ p) : (s.setNext p n).next q = s.next q := by
  cases p with
  | before =>
    cases q with
    | before => exact absurd rfl h
    | node j => rfl
  | node i =>
    cases q with
    | before => rfl
    | node j =>
      exact congrArg Node.next (s.node_modifyNode_ne _ fun hji => h (congrArg NodeBase.node hji))

theorem nextOf_setNext_self (i : Fin cap.size) : (s.setNext (.node i) n).nextOf i = n :=
  s.next_setNext_self (.node i) n

theorem nextOf_setNext_ne {i j : Fin cap.size} (h : j ≠ i) :
    (s.setNext (.node i) n).nextOf j = s.nextOf j :=
  s.next_setNext_ne (.node i) n fun hji => h (NodeBase.node.inj hji)

@[simp] theorem value_setNext (j : Fin cap.size) :
    ((s.setNext p n).node j).value = (s.node j).value := by
  cases p with
  | before => rfl
  | node i =>
    by_cases hji : j = i
    · subst hji
      have hvalue := congrArg Node.value (s.node_modifyNode_self j fun x => { x with next := n })
      exact hvalue
    · exact congrArg Node.value (s.node_modifyNode_ne _ hji)

@[simp] theorem head_setNext : (s.setNext p n).head = s.head := by cases p <;> rfl

@[simp] theorem size_setNext : (s.setNext p n).size = s.size := by cases p <;> rfl

@[simp] theorem freeHead_setNext : (s.setNext p n).freeHead = s.freeHead := by cases p <;> rfl

end setNext

/-- An element of the list: a live node and what it holds. -/
abbrev Entry (cap : Capacity) (T : Type) := Fin cap.size × T

def nodesOf (list : List (Entry cap T)) : List (Fin cap.size) := list.map Prod.fst

structure Rep (s : ForwardList cap T) (list : List (Entry cap T)) (free : List (Fin cap.size)) :
    Prop where
  chain : Chain s.nextOf s.before (nodesOf list) none
  freeChain : Chain s.nextOf s.freeHead free none
  head_eq : s.head = s.before
  stored : ∀ e ∈ list, (s.node e.1).value = some e.2
  partition : (nodesOf list ++ free).Perm (List.finRange cap.size)
  size_eq : s.size = list.length

/-- The position whose `next` leads behind `front`. -/
def positionOf (front : List (Entry cap T)) : NodeBase cap :=
  front.getLast?.elim .before fun e => .node e.1

variable {list front rest : List (Entry cap T)} {free : List (Fin cap.size)}

@[simp] theorem positionOf_nil : positionOf ([] : List (Entry cap T)) = .before := rfl

@[simp] theorem positionOf_concat (front : List (Entry cap T)) (e : Entry cap T) :
    positionOf (front ++ [e]) = .node e.1 := by
  simp [positionOf]

theorem mem_of_positionOf {i : Fin cap.size} (h : positionOf front = .node i) :
    ∃ e ∈ front, e.1 = i := by
  cases front using List.reverseRecOn with
  | nil => cases h
  | append_singleton front e =>
    rw [positionOf_concat] at h
    exact ⟨e, by simp, by injection h⟩

theorem eq_nil_of_positionOf (h : positionOf front = .before) : front = [] := by
  cases front using List.reverseRecOn with
  | nil => rfl
  | append_singleton front e =>
    rw [positionOf_concat] at h
    cases h

theorem nodesOf_append (l l' : List (Entry cap T)) : nodesOf (l ++ l') = nodesOf l ++ nodesOf l' :=
  List.map_append

@[simp] theorem nodesOf_cons (e : Entry cap T) (l : List (Entry cap T)) :
    nodesOf (e :: l) = e.1 :: nodesOf l := rfl

namespace Rep

theorem nodup (h : Rep s list free) : (nodesOf list ++ free).Nodup :=
  h.partition.nodup_iff.mpr (List.nodup_finRange _)

theorem length_add (h : Rep s list free) : list.length + free.length = cap.size := by
  have hlen := h.partition.length_eq
  rw [List.length_append, nodesOf, List.length_map, List.length_finRange] at hlen
  exact hlen

theorem not_mem_free (h : Rep s list free) {e : Entry cap T} (he : e ∈ list) : e.1 ∉ free :=
  fun hf => (List.nodup_append.mp h.nodup).2.2 _ (List.mem_map_of_mem he) _ hf rfl

theorem next_positionOf (h : Rep s (front ++ rest) free) :
    s.next (positionOf front) = (nodesOf rest).head? := by
  have hchain := h.chain
  cases front using List.reverseRecOn with
  | nil =>
    cases rest with
    | nil => exact hchain
    | cons e rest => exact hchain.1
  | append_singleton front e =>
    rw [positionOf_concat]
    rw [List.append_assoc, nodesOf_append] at hchain
    have hafter := hchain.after
    cases rest with
    | nil => exact hafter
    | cons e' rest => exact hafter.1

end Rep

/-- The links after node `k` was linked in behind `front`. -/
structure LinkedIn (s s' : ForwardList cap T) (front : List (Entry cap T)) (k : Fin cap.size)
    (value : T) : Prop where
  at_position : s'.next (positionOf front) = some k
  at_node : s'.nextOf k = s.next (positionOf front)
  before_eq : front ≠ [] → s'.before = s.before
  other : ∀ j, j ≠ k → .node j ≠ positionOf front → s'.nextOf j = s.nextOf j
  stored : (s'.node k).value = some value
  stored_other : ∀ j, j ≠ k → (s'.node j).value = (s.node j).value

section linkedIn

variable {k : Fin cap.size} {value : T} (h : Rep s (front ++ rest) (k :: free))
include h

theorem Rep.ne_free {e : Entry cap T} (he : e ∈ front ++ rest) : e.1 ≠ k := fun hek =>
  h.not_mem_free he (hek ▸ List.mem_cons_self)

theorem Rep.chain_linkedIn (hl : LinkedIn s s' front k value) :
    Chain s'.nextOf s'.before (nodesOf (front ++ (k, value) :: rest)) none := by
  have hchain := h.chain
  have hnodup := (List.nodup_append.mp h.nodup).1
  cases front using List.reverseRecOn with
  | nil =>
    refine ⟨hl.at_position, ?_⟩
    rw [hl.at_node]
    refine Chain.congr hchain fun j hj => ?_
    obtain ⟨e, he, rfl⟩ := List.mem_map.mp hj
    exact hl.other _ (h.ne_free he) fun hp => by cases hp
  | append_singleton front e =>
    have hpos := positionOf_concat front e
    have hi : s'.nextOf e.1 = some k := by
      have hat := hl.at_position
      rwa [hpos] at hat
    have hk : s'.nextOf k = s.nextOf e.1 := by
      have hat := hl.at_node
      rwa [hpos] at hat
    rw [hl.before_eq (by simp)]
    rw [List.append_assoc, nodesOf_append] at hchain hnodup ⊢
    refine Chain.insert hchain hi hk fun j hj => hl.other j ?_ ?_
    · change j ∈ nodesOf front ++ nodesOf rest at hj
      rw [← nodesOf_append] at hj
      obtain ⟨e', he', rfl⟩ := List.mem_map.mp hj
      refine h.ne_free ?_
      rcases List.mem_append.mp he' with hf | hr
      · simp [hf]
      · simp [hr]
    · rw [hpos]
      rintro ⟨⟩
      exact (List.nodup_cons.mp (List.nodup_middle.mp hnodup)).1 hj

theorem Rep.linkedIn (hl : LinkedIn s s' front k value) (hfree : s'.freeHead = s.nextOf k)
    (hhead : s'.head = s'.before) (hsize : s'.size = s.size + 1) :
    Rep s' (front ++ (k, value) :: rest) free where
  chain := h.chain_linkedIn hl
  freeChain := by
    have hn := (List.nodup_append.mp h.nodup).2.1
    rw [hfree]
    refine h.freeChain.2.congr fun j hj => hl.other j ?_ fun hp => ?_
    · rintro rfl
      exact (List.nodup_cons.mp hn).1 hj
    · obtain ⟨e, he, rfl⟩ := mem_of_positionOf hp.symm
      exact h.not_mem_free (List.mem_append_left rest he) (List.mem_cons_of_mem k hj)
  head_eq := hhead
  stored := by
    intro e he
    rcases List.mem_append.mp he with hf | hr
    · have he' := List.mem_append_left rest hf
      rw [hl.stored_other _ (h.ne_free he'), h.stored e he']
    · rcases List.mem_cons.mp hr with rfl | hr
      · exact hl.stored
      · have he' := List.mem_append_right front hr
        rw [hl.stored_other _ (h.ne_free he'), h.stored e he']
  partition := by
    refine List.Perm.trans ?_ h.partition
    simp only [nodesOf_append, nodesOf_cons, List.append_assoc, List.cons_append]
    exact List.perm_middle.symm.append_left _
  size_eq := by
    rw [hsize, h.size_eq]
    simp
    omega

end linkedIn

/-- What `emplace_after` does to the links and the new node. -/
def linkIn (s : ForwardList cap T) (p : NodeBase cap) (k : Fin cap.size) (value : T) :
    ForwardList cap T :=
  let s' := { s with freeHead := s.nextOf k }
  let s' := s'.setNext (.node k) none
  let s' := s'.modifyNode k fun x => { x with value := some value }
  (s'.setNext (.node k) (s'.next p)).setNext p (some k)

section linkIn

variable (s) {p : NodeBase cap} {k : Fin cap.size} (value : T)

theorem next_linkIn_ne {q : NodeBase cap} (hqk : q ≠ .node k) (hqp : q ≠ p) :
    (s.linkIn p k value).next q = s.next q := by
  unfold linkIn
  rw [next_setNext_ne _ _ _ hqp, next_setNext_ne _ _ _ hqk]
  cases q with
  | before => rfl
  | node j =>
    have hjk : j ≠ k := fun h => hqk (congrArg NodeBase.node h)
    show (ForwardList.node (ForwardList.modifyNode _ _ _) j).next = _
    rw [node_modifyNode_ne _ _ hjk]
    exact next_setNext_ne _ _ _ hqk

theorem next_linkIn_self (hpk : p ≠ .node k) : (s.linkIn p k value).next (.node k) = s.next p := by
  unfold linkIn
  rw [next_setNext_ne _ _ _ hpk.symm, next_setNext_self]
  cases p with
  | before => rfl
  | node i =>
    have hik : i ≠ k := fun h => hpk (congrArg NodeBase.node h)
    show (ForwardList.node (ForwardList.modifyNode _ _ _) i).next = _
    rw [node_modifyNode_ne _ _ hik]
    exact next_setNext_ne _ _ _ hpk

theorem value_linkIn_self : ((s.linkIn p k value).node k).value = some value := by
  unfold linkIn
  rw [value_setNext, value_setNext, node_modifyNode_self]

theorem value_linkIn_ne {j : Fin cap.size} (h : j ≠ k) :
    ((s.linkIn p k value).node j).value = (s.node j).value := by
  unfold linkIn
  rw [value_setNext, value_setNext, node_modifyNode_ne _ _ h, value_setNext]
  rfl

theorem freeHead_linkIn : (s.linkIn p k value).freeHead = s.nextOf k := by
  unfold linkIn
  simp [modifyNode]

end linkIn

theorem emplaceAfter_full (h : Rep s list []) (p : NodeBase cap) (value : T) :
    s.emplaceAfter (some p) value = (.full, s) := by
  have hfree : s.freeHead = none := h.freeChain
  simp only [emplaceAfter, allocateNode, hfree]

variable {k : Fin cap.size}

theorem emplaceAfter_eq (hfree : s.freeHead = some k) (p : NodeBase cap) (value : T) :
    s.emplaceAfter (some p) value =
      (.ok, { s.linkIn p k value with
        head := if p = .before then some k else s.head, size := s.size + 1 }) := by
  simp only [emplaceAfter, allocateNode, hfree]
  cases p with
  | before => rfl
  | node i => rfl

theorem emplaceAfter_rep (h : Rep s (front ++ rest) (k :: free)) (value : T) :
    (s.emplaceAfter (some (positionOf front)) value).1 = .ok ∧
      Rep (s.emplaceAfter (some (positionOf front)) value).2 (front ++ (k, value) :: rest) free := by
  have hpk : positionOf front ≠ .node k := fun hp => by
    obtain ⟨e, he, rfl⟩ := mem_of_positionOf hp
    exact h.ne_free (List.mem_append_left rest he) rfl
  rw [emplaceAfter_eq h.freeChain.1]
  generalize hp : positionOf front = p at hpk
  have hnext : ∀ q, ({ s.linkIn p k value with
      head := if p = .before then some k else s.head, size := s.size + 1 } : ForwardList cap T).next q =
        (s.linkIn p k value).next q := by
    intro q
    cases q <;> rfl
  have hself : (s.linkIn p k value).next p = some k := next_setNext_self _ _ _
  have hbefore : p ≠ .before → (s.linkIn p k value).before = s.before := fun hpb =>
    next_linkIn_ne s value (fun h => by cases h) hpb.symm
  have hl : LinkedIn s { s.linkIn p k value with
      head := if p = .before then some k else s.head, size := s.size + 1 } front k value := by
    refine ⟨?_, ?_, fun hne => ?_, fun j hjk hjp => ?_, s.value_linkIn_self value,
      fun j hjk => s.value_linkIn_ne value hjk⟩
    · rw [hp, hnext, hself]
    · rw [hp]
      exact (hnext (.node k)).trans (s.next_linkIn_self value hpk)
    · exact hbefore fun hpb => hne (eq_nil_of_positionOf (hp.trans hpb))
    · rw [hp] at hjp
      exact (hnext (.node j)).trans (s.next_linkIn_ne value (fun h => hjk (by injection h)) hjp)
  refine ⟨rfl, h.linkedIn hl (s.freeHead_linkIn value) ?_ rfl⟩
  show (if p = .before then some k else s.head) = (s.linkIn p k value).before
  split_ifs with hpb
  · rw [hpb] at hself ⊢
    exact hself.symm
  · rw [hbefore hpb, h.head_eq]

/-- The links after node `k` behind `front` was unlinked and released. -/
structure Unlinked (s s' : ForwardList cap T) (front : List (Entry cap T)) (k : Fin cap.size) :
    Prop where
  at_position : s'.next (positionOf front) = s.nextOf k
  at_node : s'.nextOf k = s.freeHead
  before_eq : front ≠ [] → s'.before = s.before
  other : ∀ j, j ≠ k → .node j ≠ positionOf front → s'.nextOf j = s.nextOf j
  stored_other : ∀ j, j ≠ k → (s'.node j).value = (s.node j).value

section unlinked

variable {e : Entry cap T} (h : Rep s (front ++ e :: rest) free)
include h

theorem Rep.ne_unlinked {e' : Entry cap T} (he : e' ∈ front ++ rest) : e'.1 ≠ e.1 := by
  intro hee
  have hnodup := (List.nodup_append.mp h.nodup).1
  rw [nodesOf_append, nodesOf_cons, List.nodup_middle, ← nodesOf_append] at hnodup
  exact (List.nodup_cons.mp hnodup).1 (hee ▸ List.mem_map_of_mem he)

theorem Rep.chain_unlinked (hu : Unlinked s s' front e.1) :
    Chain s'.nextOf s'.before (nodesOf (front ++ rest)) none := by
  have hchain := h.chain
  have hnodup := (List.nodup_append.mp h.nodup).1
  cases front using List.reverseRecOn with
  | nil =>
    have hat : s'.before = s.nextOf e.1 := hu.at_position
    rw [hat]
    refine hchain.2.congr fun j hj => ?_
    obtain ⟨e', he', rfl⟩ := List.mem_map.mp hj
    exact hu.other _ (h.ne_unlinked he') fun hp => by cases hp
  | append_singleton front e' =>
    have hpos := positionOf_concat front e'
    have hi : s'.nextOf e'.1 = s.nextOf e.1 := by
      have hat := hu.at_position
      rwa [hpos] at hat
    rw [hu.before_eq (by simp)]
    rw [List.append_assoc, nodesOf_append] at hchain hnodup ⊢
    refine Chain.erase hchain hi fun j hj => hu.other j ?_ ?_
    · change j ∈ nodesOf front ++ nodesOf rest at hj
      rw [← nodesOf_append] at hj
      obtain ⟨e'', he'', rfl⟩ := List.mem_map.mp hj
      refine h.ne_unlinked ?_
      rcases List.mem_append.mp he'' with hf | hr
      · simp [hf]
      · simp [hr]
    · rw [hpos]
      rintro ⟨⟩
      have hn := (List.nodup_cons.mp (List.nodup_middle.mp hnodup)).1
      rcases List.mem_append.mp hj with hf | hr
      · exact hn (List.mem_append_left _ hf)
      · exact hn (List.mem_append_right _ (List.mem_cons_of_mem _ hr))

theorem Rep.unlinked (hu : Unlinked s s' front e.1) (hfree : s'.freeHead = some e.1)
    (hhead : s'.head = s'.before) (hsize : s'.size = s.size - 1) :
    Rep s' (front ++ rest) (e.1 :: free) where
  chain := h.chain_unlinked hu
  freeChain := by
    refine ⟨hfree, ?_⟩
    rw [hu.at_node]
    refine h.freeChain.congr fun j hj => hu.other j ?_ fun hp => ?_
    · rintro rfl
      exact h.not_mem_free (by simp) hj
    · obtain ⟨e', he', rfl⟩ := mem_of_positionOf hp.symm
      exact h.not_mem_free (List.mem_append_left _ he') hj
  head_eq := hhead
  stored := by
    intro e' he'
    rw [hu.stored_other _ (h.ne_unlinked he')]
    apply h.stored
    rcases List.mem_append.mp he' with hf | hr
    · simp [hf]
    · simp [hr]
  partition := by
    refine List.Perm.trans ?_ h.partition
    simp only [nodesOf_append, nodesOf_cons, List.append_assoc, List.cons_append]
    exact List.perm_middle.append_left _
  size_eq := by
    rw [hsize, h.size_eq]
    simp

theorem Rep.position_ne : positionOf front ≠ .node e.1 := fun hp => by
  obtain ⟨e', he', hee⟩ := mem_of_positionOf hp
  exact h.ne_unlinked (List.mem_append_left rest he') hee

theorem Rep.head_iff : some e.1 = s.head ↔ positionOf front = .before := by
  have hchain := h.chain
  rw [h.head_eq]
  cases front using List.reverseRecOn with
  | nil => exact ⟨fun _ => rfl, fun _ => hchain.1.symm⟩
  | append_singleton front e' =>
    rw [positionOf_concat]
    refine ⟨fun hhead => ?_, fun hp => by cases hp⟩
    obtain ⟨e'', front', hfront⟩ := List.exists_cons_of_ne_nil (l := front ++ [e']) (by simp)
    rw [hfront] at hchain
    have hee : e.1 = e''.1 := Option.some.inj (hhead.trans hchain.1)
    exact absurd hee.symm (h.ne_unlinked (by simp [hfront]))

end unlinked

/-- What `release_node` leaves of the links and values. -/
structure Released (s s' : ForwardList cap T) (k : Fin cap.size) : Prop where
  at_node : s'.nextOf k = s.freeHead
  other : ∀ q, q ≠ .node k → s'.next q = s.next q
  value : ∀ j, j ≠ k → (s'.node j).value = (s.node j).value
  head : s'.head = s.head
  freeHead : s'.freeHead = some k
  size : s'.size = s.size - 1

theorem releaseNode_spec {value : T} (hv : (s.node k).value = some value) :
    ∃ s', s.releaseNode k = some s' ∧ Released s s' k := by
  unfold releaseNode
  rw [hv]
  refine ⟨_, rfl, ?_, fun q hq => ?_, fun j hj => ?_, rfl, rfl, ?_⟩
  · exact congrArg Node.next (s.node_modifyNode_self k _)
  · cases q with
    | before => rfl
    | node j =>
      exact congrArg Node.next (s.node_modifyNode_ne _ fun hj => hq (congrArg NodeBase.node hj))
  · exact congrArg Node.value (s.node_modifyNode_ne _ hj)
  · show (if s.size > 0 then s.size - 1 else s.size) = s.size - 1
    split_ifs <;> omega

/-- What `erase_after` and the loop of `remove` do with the node `k` behind a position. -/
def unlink (s : ForwardList cap T) (p : NodeBase cap) (k : Fin cap.size)
    (n : Option (Fin cap.size)) : Option (ForwardList cap T) :=
  let s' := s.setNext p n
  let s' := if some k = s'.head then { s' with head := n } else s'
  s'.releaseNode k

theorem unlink_rep {e : Entry cap T} (h : Rep s (front ++ e :: rest) free) : ∃ s', s.unlink
    (positionOf front) e.1 (s.nextOf e.1) = some s' ∧ Rep s' (front ++ rest) (e.1 :: free) := by
  have hpk := h.position_ne
  have hhead := h.head_iff
  generalize hp : positionOf front = p at hpk hhead ⊢
  unfold unlink
  simp only [head_setNext]
  generalize hs₁ : (if some e.1 = s.head then { s.setNext p (s.nextOf e.1) with head := s.nextOf e.1 }
    else s.setNext p (s.nextOf e.1)) = s₁
  have hnext : ∀ q, s₁.next q = (s.setNext p (s.nextOf e.1)).next q := by
    intro q
    rw [← hs₁]
    split_ifs
    · cases q <;> rfl
    · rfl
  have hvalue : ∀ j, (s₁.node j).value = (s.node j).value := by
    intro j
    rw [← value_setNext s p (s.nextOf e.1) j, ← hs₁]
    split_ifs <;> rfl
  have hfree : s₁.freeHead = s.freeHead := by
    rw [← freeHead_setNext s p (s.nextOf e.1), ← hs₁]
    split_ifs <;> rfl
  have hsize : s₁.size = s.size := by
    rw [← size_setNext s p (s.nextOf e.1), ← hs₁]
    split_ifs <;> rfl
  have hbefore : s₁.head = s₁.before := by
    by_cases hpb : p = .before
    · rw [← hs₁, if_pos (hhead.mpr hpb), hpb]
      rfl
    · have hsame : (s.setNext p (s.nextOf e.1)).before = s.before :=
        next_setNext_ne s p _ fun hq => hpb hq.symm
      rw [← hs₁, if_neg fun he => hpb (hhead.mp he), hsame, head_setNext, h.head_eq]
  obtain ⟨s', hrun, hrel⟩ := releaseNode_spec ((hvalue e.1).trans (h.stored e (by simp)))
  refine ⟨s', hrun, h.unlinked ⟨?_, ?_, fun hne => ?_, fun j hj hjp => ?_, fun j hj => ?_⟩
    hrel.freeHead ?_ (by rw [hrel.size, hsize])⟩
  · rw [hp, hrel.other p hpk, hnext, next_setNext_self]
  · rw [hrel.at_node, hfree]
  · have hpb : NodeBase.before ≠ p := fun hq => hne (eq_nil_of_positionOf (hp.trans hq.symm))
    have hsame := (hnext .before).trans (next_setNext_ne s p _ hpb)
    exact (hrel.other .before fun hq => by cases hq).trans hsame
  · rw [hp] at hjp
    have hsame := (hnext (.node j)).trans (next_setNext_ne s p _ hjp)
    exact (hrel.other (.node j) fun hq => hj (NodeBase.node.inj hq)).trans hsame
  · rw [hrel.value j hj, hvalue]
  · have hb : s'.before = s₁.before := hrel.other .before fun hq => by cases hq
    rw [hrel.head, hb, hbefore]

theorem Rep.head_eq_head? (h : Rep s list free) : s.head = (nodesOf list).head? := by
  rw [h.head_eq]
  exact Rep.next_positionOf (show Rep s ([] ++ list) free from h)

theorem Rep.next_eq {e : Entry cap T} (h : Rep s (front ++ e :: rest) free) :
    s.nextOf e.1 = (nodesOf rest).head? := by
  have hrep : Rep s (front ++ [e] ++ rest) free := by rwa [List.append_assoc]
  have hnext := hrep.next_positionOf
  rwa [positionOf_concat] at hnext

theorem popFront_nil (h : Rep s [] free) : s.popFront = some (.empty, s) := by
  have hhead : s.head = none := h.head_eq_head?
  simp only [popFront, hhead]

theorem popFront_eq (hhead : s.head = some k) :
    s.popFront = (s.unlink .before k (s.nextOf k)).bind fun s' => some (.ok, s') := by
  simp only [popFront, hhead, unlink, head_setNext, if_pos]
  rfl

theorem popFront_cons {e : Entry cap T} (h : Rep s (e :: rest) free) :
    ∃ s', s.popFront = some (.ok, s') ∧ Rep s' rest (e.1 :: free) := by
  obtain ⟨s', hrun, hrep⟩ := unlink_rep (show Rep s ([] ++ e :: rest) free from h)
  rw [positionOf_nil] at hrun
  exact ⟨s', by rw [popFront_eq h.head_eq_head?, hrun]; rfl, hrep⟩

theorem eraseAfter_eq {p : NodeBase cap} (hnext : s.next p = some k) (hpk : p ≠ .node k) :
    s.eraseAfter (some p) = (s.unlink p k (s.nextOf k)).bind fun s' => some (s.nextOf k, s') := by
  -- the victim is read after the position was relinked, which is another node
  have hvictim : ((s.setNext p (s.node k).next).node k).next = s.nextOf k :=
    next_setNext_ne s p _ hpk.symm
  have hresult : ∀ (t : Option (ForwardList cap T)) n, n = s.nextOf k →
      (t.bind fun s' => some (n, s')) = t.bind fun s' => some (s.nextOf k, s') := by
    rintro t _ rfl
    rfl
  simp only [eraseAfter, hnext, hvictim, unlink, head_setNext]
  by_cases hhead : some k = s.head
  · simp only [if_pos hhead]
    exact hresult _ _ hvictim
  · simp only [if_neg hhead]
    exact hresult _ _ hvictim

theorem eraseAfter_rep (h : Rep s (front ++ rest) free) :
    ∃ s' free', s.eraseAfter (some (positionOf front)) = some ((nodesOf rest.tail).head?, s') ∧
      Rep s' (front ++ rest.tail) free' := by
  have hnext := h.next_positionOf
  cases rest with
  | nil =>
    refine ⟨s, free, ?_, h⟩
    simp only [eraseAfter, hnext]
    rfl
  | cons e rest =>
    obtain ⟨s', hrun, hrep⟩ := unlink_rep h
    refine ⟨s', e.1 :: free, ?_, hrep⟩
    rw [eraseAfter_eq hnext h.position_ne, hrun, h.next_eq]
    rfl

theorem removeLoop_rep [BEq T] (value : T) {fuel : ℕ} (h : Rep s (front ++ rest) free)
    (hf : rest.length ≤ fuel) :
    ∃ s' free', removeLoop value fuel (positionOf front) (nodesOf rest).head? s = some s' ∧
      Rep s' (front ++ rest.filter fun e => !(e.2 == value)) free' := by
  induction rest generalizing front s free fuel with
  | nil => exact ⟨s, free, by simp [removeLoop, nodesOf], h⟩
  | cons e rest ih =>
    obtain ⟨fuel, rfl⟩ : ∃ n, fuel = n + 1 := ⟨fuel - 1, by rw [List.length_cons] at hf; omega⟩
    rw [List.length_cons] at hf
    have hstored : (s.node e.1).value = some e.2 := h.stored e (by simp)
    have hstep : removeLoop value (fuel + 1) (positionOf front) (nodesOf (e :: rest)).head? s =
        if e.2 == value then (s.unlink (positionOf front) e.1 (s.nextOf e.1)).bind fun s' =>
          removeLoop value fuel (positionOf front) (s.nextOf e.1) s'
        else removeLoop value fuel (.node e.1) (s.nextOf e.1) s := by
      simp only [nodesOf_cons, List.head?_cons, removeLoop, hstored]
      rfl
    rw [hstep, h.next_eq]
    cases heq : e.2 == value with
    | true =>
      obtain ⟨s₁, hrun, hrep⟩ := unlink_rep h
      obtain ⟨s', free', hloop, hrep'⟩ := ih hrep (show rest.length ≤ fuel by omega)
      rw [h.next_eq] at hrun
      refine ⟨s', free', ?_, by simpa [List.filter_cons, heq] using hrep'⟩
      rw [if_pos rfl, hrun]
      exact hloop
    | false =>
      have hrep : Rep s (front ++ [e] ++ rest) free := by rwa [List.append_assoc]
      obtain ⟨s', free', hloop, hrep'⟩ := ih hrep (show rest.length ≤ fuel by omega)
      rw [positionOf_concat] at hloop
      refine ⟨s', free', ?_, by simpa [List.filter_cons, heq] using hrep'⟩
      rw [if_neg (by simp)]
      exact hloop

theorem remove_rep [BEq T] (h : Rep s list free) (value : T) : ∃ s' free', s.remove value =
    some (.ok, s') ∧ Rep s' (list.filter fun e => !(e.2 == value)) free' := by
  have hlen := h.length_add
  obtain ⟨s', free', hloop, hrep⟩ := removeLoop_rep value (show Rep s ([] ++ list) free from h)
    (show list.length ≤ cap.size by omega)
  refine ⟨s', free', ?_, hrep⟩
  unfold remove
  rw [← h.head_eq, h.head_eq_head?]
  rw [positionOf_nil] at hloop
  rw [hloop]
  rfl

/-- Only the links of the nodes `xs` may be others. -/
structure Relinked (s s' : ForwardList cap T) (xs : List (Fin cap.size)) : Prop where
  other : ∀ j, j ∉ xs → s'.nextOf j = s.nextOf j
  value : ∀ j, (s'.node j).value = (s.node j).value
  freeHead : s'.freeHead = s.freeHead
  size : s'.size = s.size

theorem reverseLoop_spec {fuel : ℕ} {previous current : Option (Fin cap.size)}
    {done todo : List (Fin cap.size)} (hdone : Chain s.nextOf previous done none)
    (htodo : Chain s.nextOf current todo none) (hnodup : (done ++ todo).Nodup)
    (hf : todo.length ≤ fuel) : ∃ p s', reverseLoop fuel previous current s =
    some (p, s') ∧ Chain s'.nextOf p (todo.reverse ++ done) none ∧ Relinked s s' todo := by
  induction todo generalizing s fuel previous current done with
  | nil =>
    have hc : current = none := htodo
    exact ⟨previous, s, by simp [hc, reverseLoop], hdone, fun _ _ => rfl, fun _ => rfl, rfl, rfl⟩
  | cons i todo ih =>
    obtain ⟨fuel, rfl⟩ : ∃ n, fuel = n + 1 := ⟨fuel - 1, by rw [List.length_cons] at hf; omega⟩
    rw [List.length_cons] at hf
    obtain ⟨hc, htodo⟩ := htodo
    obtain ⟨hi, hrest⟩ := List.nodup_cons.mp (List.nodup_middle.mp hnodup)
    have hother : ∀ j, j ≠ i → (s.setNext (.node i) previous).nextOf j = s.nextOf j :=
      fun j hj => s.nextOf_setNext_ne previous hj
    have hself : (s.setNext (.node i) previous).nextOf i = previous := s.nextOf_setNext_self previous i
    have hdone' : Chain (s.setNext (.node i) previous).nextOf (some i) (i :: done) none := by
      refine ⟨rfl, ?_⟩
      rw [hself]
      refine hdone.congr fun j hj => hother j fun hji => hi ?_
      rw [← hji]
      exact List.mem_append_left _ hj
    have htodo' : Chain (s.setNext (.node i) previous).nextOf (s.nextOf i) todo none := by
      refine htodo.congr fun j hj => hother j fun hji => hi ?_
      rw [← hji]
      exact List.mem_append_right _ hj
    obtain ⟨p, s', hrun, hchain, hrel⟩ := ih hdone' htodo' (List.nodup_cons.mpr ⟨hi, hrest⟩)
      (show todo.length ≤ fuel by omega)
    refine ⟨p, s', ?_, by simpa using hchain, fun j hj => ?_, fun j => ?_, ?_, ?_⟩
    · rw [hc]
      exact hrun
    · rw [hrel.other j fun hm => hj (List.mem_cons_of_mem i hm),
        hother j fun hji => hj (hji ▸ List.mem_cons_self)]
    · rw [hrel.value, value_setNext]
    · rw [hrel.freeHead, freeHead_setNext]
    · rw [hrel.size, size_setNext]

theorem reverse_rep (h : Rep s list free) : ∃ s', s.reverse = some s' ∧ Rep s' list.reverse free := by
  have hlen := h.length_add
  have hnodup := (List.nodup_append.mp h.nodup).1
  have hchain := h.chain
  rw [← h.head_eq] at hchain
  obtain ⟨p, s', hrun, hchain', hrel⟩ := reverseLoop_spec (show Chain s.nextOf none [] none from rfl)
    hchain hnodup (show (nodesOf list).length ≤ cap.size by simp [nodesOf]; omega)
  refine ⟨({ s' with head := p } : ForwardList cap T).setNext .before p, by simp [reverse, hrun], ?_⟩
  have hnodes : nodesOf list.reverse = (nodesOf list).reverse := List.map_reverse
  refine ⟨?_, ?_, rfl, fun e he => ?_, ?_, ?_⟩
  · rw [hnodes]
    rw [List.append_nil] at hchain'
    exact hchain'
  · show Chain s'.nextOf s'.freeHead free none
    rw [hrel.freeHead]
    refine h.freeChain.congr fun j hj => hrel.other j fun hm => ?_
    exact (List.nodup_append.mp h.nodup).2.2 j hm j hj rfl
  · exact (hrel.value e.1).trans (h.stored e (List.mem_reverse.mp he))
  · rw [hnodes]
    exact ((List.reverse_perm _).append_right free).trans h.partition
  · show s'.size = _
    rw [hrel.size, h.size_eq, List.length_reverse]

theorem clearLoop_spec {fuel : ℕ}
    {current : Option (Fin cap.size)} (hchain : Chain s.nextOf current (nodesOf list) none)
    (hfree : Chain s.nextOf s.freeHead free none)
    (hnodup : (nodesOf list ++ free).Nodup) (hstored : ∀ e ∈ list, (s.node e.1).value = some e.2)
    (hsize : s.size = list.length) (hf : list.length ≤ fuel) : ∃ s', clearLoop fuel current s =
    some s' ∧ s'.size = 0 ∧ Chain s'.nextOf s'.freeHead ((nodesOf list).reverse ++ free) none := by
  induction list generalizing s fuel current free with
  | nil =>
    have hc : current = none := hchain
    exact ⟨s, by simp [hc, clearLoop], hsize, hfree⟩
  | cons e list ih =>
    obtain ⟨fuel, rfl⟩ : ∃ n, fuel = n + 1 := ⟨fuel - 1, by rw [List.length_cons] at hf; omega⟩
    rw [List.length_cons] at hf hsize
    obtain ⟨hc, hchain⟩ := hchain
    obtain ⟨hi, hrest⟩ := List.nodup_cons.mp hnodup
    obtain ⟨s₁, hrun, hrel⟩ := releaseNode_spec (hstored e List.mem_cons_self)
    have hother : ∀ j, j ≠ e.1 → s₁.nextOf j = s.nextOf j := fun j hj =>
      hrel.other (.node j) fun hq => hj (NodeBase.node.inj hq)
    have hapart : ∀ j ∈ nodesOf list ++ free, j ≠ e.1 := fun j hj hji => hi (hji ▸ hj)
    have hchain₁ : Chain s₁.nextOf (s.nextOf e.1) (nodesOf list) none :=
      hchain.congr fun j hj => hother j (hapart j (List.mem_append_left free hj))
    have hfree₁ : Chain s₁.nextOf s₁.freeHead (e.1 :: free) none := by
      refine ⟨hrel.freeHead, ?_⟩
      rw [hrel.at_node]
      exact hfree.congr fun j hj => hother j (hapart j (List.mem_append_right _ hj))
    obtain ⟨s', hloop, hsize', hchain'⟩ := ih hchain₁ hfree₁
      (List.nodup_middle.mpr (List.nodup_cons.mpr ⟨hi, hrest⟩))
      (fun e' he' => by
        have hmem : e'.1 ∈ nodesOf list ++ free :=
          List.mem_append_left free (List.mem_map_of_mem he')
        rw [hrel.value _ (hapart _ hmem), hstored e' (List.mem_cons_of_mem e he')])
      (by rw [hrel.size, hsize]; omega) (show list.length ≤ fuel by omega)
    refine ⟨s', ?_, hsize', by simpa using hchain'⟩
    rw [hc]
    simp only [clearLoop, hrun, Option.bind_eq_bind, Option.bind_some]
    exact hloop

theorem clear_rep (h : Rep s list free) :
    ∃ s' free', s.clear = some s' ∧ Rep s' ([] : List (Entry cap T)) free' := by
  have hlen := h.length_add
  have hchain := h.chain
  rw [← h.head_eq] at hchain
  obtain ⟨s', hrun, hsize, hfree⟩ := clearLoop_spec hchain h.freeChain h.nodup h.stored h.size_eq
    (show list.length ≤ cap.size by omega)
  refine ⟨({ s' with head := none } : ForwardList cap T).setNext .before none,
    (nodesOf list).reverse ++ free, by simp [clear, hrun], rfl, hfree, rfl,
    fun e he => absurd he List.not_mem_nil, ?_, hsize⟩
  exact ((List.reverse_perm _).append_right free).trans h.partition

theorem chain_initialise (l : List (Fin cap.size)) (hl : (l ++ free).Nodup)
    (hfree : Chain s.nextOf s.freeHead free none) : Chain (l.foldl initialiseNode s).nextOf
    (l.foldl initialiseNode s).freeHead (l.reverse ++ free) none := by
  induction l generalizing s free with
  | nil => exact hfree
  | cons i l ih =>
    have hn : (i :: (l ++ free)).Nodup := hl
    obtain ⟨hi, hl⟩ := List.nodup_cons.mp hn
    have hfree' : Chain (initialiseNode s i).nextOf (initialiseNode s i).freeHead (i :: free) none := by
      refine ⟨rfl, ?_⟩
      have hself : (initialiseNode s i).nextOf i = s.freeHead := s.nextOf_setNext_self s.freeHead i
      rw [hself]
      refine hfree.congr fun j hj => s.nextOf_setNext_ne s.freeHead ?_
      rintro rfl
      exact hi (List.mem_append_right l hj)
    have hrest := ih (List.nodup_middle.mpr (List.nodup_cons.mpr ⟨hi, hl⟩)) hfree'
    simpa using hrest

theorem size_initialise (l : List (Fin cap.size)) : (l.foldl initialiseNode s).size = s.size := by
  induction l generalizing s with
  | nil => rfl
  | cons i l ih => exact ih

theorem rep_init : Rep (init : ForwardList cap T) [] (List.finRange cap.size) := by
  have hpool := @chain_initialise cap T { nodes := .replicate _ {} } []
    (List.finRange cap.size).reverse (by simpa using List.nodup_finRange _) rfl
  refine ⟨rfl, ?_, rfl, fun e he => absurd he List.not_mem_nil, List.Perm.refl _, ?_⟩
  · rw [List.reverse_reverse, List.append_nil] at hpool
    exact hpool
  · exact size_initialise _

end Castle.Container.ForwardList

import Mathlib.Data.List.Induction
import Mathlib.Data.List.Perm.Basic
import Castle.Status
import Castle.Container.Parameters
import Castle.Lib.BinaryHeap

/-!
# The binary heap (`heap.hpp`)

The objects in the slots before `size_`, as a list. A function that reads or destroys an object that
is not there, or loops longer than the heap has elements, has no result.
-/

namespace Castle.Container

open BinaryHeap

variable {α : Type}

/-- `basic_heap` with capacity `N` -/
structure BasicHeap (N : ℕ) (α : Type) where
  items : List α
  deriving DecidableEq

namespace BasicHeap

def left (index : ℕ) : ℕ := index * 2 + 1

def swapValues (items : List α) (lhs rhs : ℕ) : Option (List α) := swapAt items lhs rhs

section sift

variable (cmp : Compare α)

def higherPriority (items : List α) (lhs rhs : ℕ) : Option Bool := do
  let a ← items[lhs]?
  let b ← items[rhs]?
  some (cmp.lt a b)

def siftUp : ℕ → List α → ℕ → Option (List α)
  | 0, _, _ => none
  | fuel + 1, items, index =>
    if index > 0 then do
      let p := parent index
      let higher ← higherPriority cmp items index p
      if !higher then some items
      else
        let items ← swapValues items index p
        siftUp fuel items p
    else some items

/-- The choice of a child in the loop of `sift_down`. -/
def selectChild (items : List α) (child : ℕ) : Option ℕ := do
  let right := child + 1
  let rightHigher ←
    if right < items.length then higherPriority cmp items right child else some false
  some (if rightHigher then right else child)

def siftDown : ℕ → List α → ℕ → Option (List α)
  | 0, _, _ => none
  | fuel + 1, items, index =>
    let child := left index
    if child ≥ items.length then some items
    else do
      let selected ← selectChild cmp items child
      let higher ← higherPriority cmp items selected index
      if !higher then some items
      else
        let items ← swapValues items selected index
        siftDown fuel items selected

end sift

/-- What a call returns, and the object it moves to `out`. -/
structure Reply (α : Type) where
  status : Status
  out : Option α := none
  deriving DecidableEq

section operations

variable {N : ℕ} (cmp : Compare α) (h : BasicHeap N α)

def size : ℕ := h.items.length

def empty : Bool := h.size = 0

def full : Bool := h.size = N

def top : Option α := h.items[0]?

def push (value : α) : Option (Reply α × BasicHeap N α) :=
  if h.full then some (⟨.full, none⟩, h)
  else do
    let items := h.items ++ [value]
    let items ← siftUp cmp items.length items (items.length - 1)
    some (⟨.ok, none⟩, ⟨items⟩)

/-- `value` is the object that `T`'s constructor makes of the arguments. -/
def emplace (value : α) : Option (Reply α × BasicHeap N α) :=
  if h.full then some (⟨.full, none⟩, h)
  else do
    let items := h.items ++ [value]
    let items ← siftUp cmp items.length items (items.length - 1)
    some (⟨.ok, none⟩, ⟨items⟩)

def pop : Option (Reply α × BasicHeap N α) :=
  if h.empty then some (⟨.empty, none⟩, h)
  else do
    let last := h.size - 1
    let moved ← h.items[last]?
    let items := if last ≠ 0 then h.items.set 0 moved else h.items
    let items := items.dropLast
    if items.length > 0 then
      let items ← siftDown cmp items.length items 0
      some (⟨.ok, none⟩, ⟨items⟩)
    else some (⟨.ok, none⟩, ⟨items⟩)

/-- `pop(T& out)` -/
def popInto : Option (Reply α × BasicHeap N α) :=
  if h.empty then some (⟨.empty, none⟩, h)
  else do
    let out ← h.items[0]?
    let r ← pop cmp h
    some ({ r.1 with out := some out }, r.2)

def removeAt (index : ℕ) : Option (Reply α × BasicHeap N α) :=
  if index ≥ h.size then some (⟨.outOfRange, none⟩, h)
  else do
    let last := h.size - 1
    let moved ← h.items[last]?
    let items := if index ≠ last then h.items.set index moved else h.items
    let items := items.dropLast
    if index < items.length then
      let up ← if index > 0 then higherPriority cmp items index (parent index) else some false
      let items ←
        if up then siftUp cmp items.length items index else siftDown cmp items.length items index
      some (⟨.ok, none⟩, ⟨items⟩)
    else some (⟨.ok, none⟩, ⟨items⟩)

def replaceTop (value : α) : Option (Reply α × BasicHeap N α) :=
  if h.empty then some (⟨.empty, none⟩, h)
  else do
    let items := h.items.set 0 value
    let items ← siftDown cmp items.length items 0
    some (⟨.ok, none⟩, ⟨items⟩)

def clear (_h : BasicHeap N α) : BasicHeap N α := ⟨[]⟩

inductive Call (α : Type) where
  | push (value : α)
  | emplace (value : α)
  | pop
  | popInto
  | removeAt (index : ℕ)
  | replaceTop (value : α)
  | clear
  deriving DecidableEq

def step : Call α → Option (Reply α × BasicHeap N α)
  | .push value => h.push cmp value
  | .emplace value => h.emplace cmp value
  | .pop => h.pop cmp
  | .popInto => h.popInto cmp
  | .removeAt index => h.removeAt cmp index
  | .replaceTop value => h.replaceTop cmp value
  | .clear => some (⟨.ok, none⟩, h.clear)

def run (cmp : Compare α) (calls : List (Call α)) : Option (BasicHeap N α) :=
  calls.foldlM (fun h call => do
    let r ← step cmp h call
    some r.2) ⟨[]⟩

/-- `while (!empty()) { pop(out); … }`: what `out` holds, round after round. -/
def drain : ℕ → BasicHeap N α → Option (List α)
  | 0, h => if h.empty then some [] else none
  | rounds + 1, h =>
    if h.empty then some []
    else do
      let r ← popInto cmp h
      let out ← r.1.out
      let rest ← drain rounds r.2
      some (out :: rest)

/-- What a call returns and does to the stored elements. -/
def Call.Changes (N : ℕ) (items : List α) (reply : Reply α) (items' : List α) : Call α → Prop
  | .push value | .emplace value =>
    if items.length = N then reply = ⟨.full, none⟩ ∧ items' = items
    else reply = ⟨.ok, none⟩ ∧ items'.Perm (value :: items)
  | .pop =>
    items = [] ∧ reply = ⟨.empty, none⟩ ∧ items' = items ∨
      ∃ top, items[0]? = some top ∧ reply = ⟨.ok, none⟩ ∧ items.Perm (top :: items')
  | .popInto =>
    items = [] ∧ reply = ⟨.empty, none⟩ ∧ items' = items ∨
      ∃ top, items[0]? = some top ∧ reply = ⟨.ok, some top⟩ ∧ items.Perm (top :: items')
  | .removeAt index =>
    items.length ≤ index ∧ reply = ⟨.outOfRange, none⟩ ∧ items' = items ∨
      ∃ removed, items[index]? = some removed ∧ reply = ⟨.ok, none⟩ ∧
        items.Perm (removed :: items')
  | .replaceTop value =>
    items = [] ∧ reply = ⟨.empty, none⟩ ∧ items' = items ∨
      ∃ top rest, items = top :: rest ∧ reply = ⟨.ok, none⟩ ∧ items'.Perm (value :: rest)
  | .clear => reply = ⟨.ok, none⟩ ∧ items' = []

end operations

variable {N : ℕ} {cmp : Compare α} {items : List α}

theorem higherPriority_eq {lhs rhs : ℕ} (hl : lhs < items.length) (hr : rhs < items.length) :
    higherPriority cmp items lhs rhs = some (cmp.lt items[lhs] items[rhs]) := by
  unfold higherPriority
  rw [List.getElem?_eq_getElem hl, List.getElem?_eq_getElem hr]
  rfl

theorem notAbove_getElem {i j : ℕ} (hi : i < items.length) (hj : j < items.length)
    (h : cmp.lt items[i] items[j] = false) : NotAbove cmp.lt items i j :=
  notAbove_of_eq (List.getElem?_eq_getElem hi) (List.getElem?_eq_getElem hj) h

theorem siftUp_spec {fuel index : ℕ} (hr : Rising cmp.lt items items.length index)
    (hi : index < items.length) (hf : index < fuel) : ∃ items', siftUp cmp fuel items index =
    some items' ∧ items'.Perm items ∧ IsHeap cmp.lt items' := by
  induction fuel generalizing items index with
  | zero => omega
  | succ fuel ih =>
    unfold siftUp
    by_cases h0 : index > 0
    · have hp : parent index < index := by unfold parent; omega
      simp only [if_pos h0, higherPriority_eq hi (show parent index < items.length by omega)]
      cases hab : cmp.lt items[index] items[parent index] with
      | false =>
        refine ⟨items, ?_, List.Perm.refl _, hr.heap (notAbove_getElem hi (by omega) hab)⟩
        simp
      | true =>
        obtain ⟨swapped, hs⟩ := swapAt_isSome hi (show parent index < items.length by omega)
        have hlen := (swapAt_perm hs).length_eq
        have hr' := hr.step (le_refl _) h0 hi (List.getElem?_eq_getElem hi)
          (List.getElem?_eq_getElem (by omega)) hab hs
        rw [← hlen] at hr'
        obtain ⟨items', hrun, hperm, hheap⟩ := ih hr' (by omega) (by omega)
        refine ⟨items', ?_, hperm.trans (swapAt_perm hs), hheap⟩
        simpa [hab, swapValues, hs] using hrun
    · rw [if_neg h0]
      obtain rfl : index = 0 := by omega
      exact ⟨items, rfl, List.Perm.refl _, hr.heap_zero⟩

theorem child_cases {k index : ℕ} (hk : 0 < k) (hp : parent k = index) :
    k = left index ∨ k = left index + 1 := by
  unfold parent at hp
  unfold left
  omega

variable (cmp) in
theorem selectChild_spec {index : ℕ} (hc : left index < items.length) : ∃ c,
    selectChild cmp items (left index) = some c ∧ parent c = index ∧ index < c ∧ c < items.length ∧
    ∀ k, 0 < k → k < items.length → parent k = index → NotAbove cmp.lt items k c := by
  unfold selectChild
  have hleft : parent (left index) = index ∧ index < left index := by unfold parent left; omega
  have hright : parent (left index + 1) = index := by unfold parent left; omega
  by_cases hr : left index + 1 < items.length
  · simp only [if_pos hr, higherPriority_eq hr hc]
    cases hab : cmp.lt items[left index + 1] items[left index] with
    | false =>
      refine ⟨left index, by simp, hleft.1, hleft.2, hc, fun k hk hkn hki => ?_⟩
      rcases child_cases hk hki with rfl | rfl
      · exact NotAbove.refl items _
      · exact notAbove_getElem hr hc hab
    | true =>
      refine ⟨left index + 1, by simp, hright, by omega, hr, fun k hk hkn hki => ?_⟩
      rcases child_cases hk hki with rfl | rfl
      · exact notAbove_getElem hc hr (not_higher_symm hab)
      · exact NotAbove.refl items _
  · refine ⟨left index, by simp [hr], hleft.1, hleft.2, hc, fun k hk hkn hki => ?_⟩
    rcases child_cases hk hki with rfl | rfl
    · exact NotAbove.refl items _
    · omega

theorem siftDown_spec {fuel index : ℕ} (hs : Sinking cmp.lt items 0 items.length index)
    (hi : index < items.length) (hf : items.length - index ≤ fuel) : ∃ items',
    siftDown cmp fuel items index = some items' ∧ items'.Perm items ∧ IsHeap cmp.lt items' := by
  induction fuel generalizing items index with
  | zero => omega
  | succ fuel ih =>
    unfold siftDown
    by_cases hc : left index ≥ items.length
    · simp only [if_pos hc]
      refine ⟨items, rfl, List.Perm.refl _, hs.heap fun k hk hkn hki => ?_⟩
      have := child_cases hk hki
      omega
    · obtain ⟨c, hsel, hparent, hic, hcn, hbest⟩ := selectChild_spec cmp (lt_of_not_ge hc)
      simp only [if_neg hc, hsel, Option.bind_eq_bind, Option.bind_some, higherPriority_eq hcn hi]
      cases hab : cmp.lt items[c] items[index] with
      | false =>
        refine ⟨items, by simp, List.Perm.refl _, hs.heap fun k hk hkn hki => ?_⟩
        exact (hbest k hk hkn hki).trans (notAbove_getElem hcn hi hab) hcn
      | true =>
        obtain ⟨swapped, hswap⟩ := swapAt_isSome hcn hi
        have hlen := (swapAt_perm hswap).length_eq
        have hs' := hs.step (Nat.zero_le _) hcn (by omega) hparent hbest
          (List.getElem?_eq_getElem hcn) (List.getElem?_eq_getElem hi) hab fun k => by
            rw [getElem?_swapAt hswap]
            congr 1
            split_ifs <;> omega
        rw [← hlen] at hs'
        obtain ⟨items', hrun, hperm, hheap⟩ := ih hs' (by omega) (by omega)
        refine ⟨items', ?_, hperm.trans (swapAt_perm hswap), hheap⟩
        simpa [hab, swapValues, hswap] using hrun

/-- What `pop` and `remove_at` leave of the array before they sift. -/
def moveLast (items : List α) (index : ℕ) (moved : α) : List α :=
  (if index ≠ items.length - 1 then items.set index moved else items).dropLast

theorem perm_set_of_append {rest : List α} {index : ℕ} (hi : index < rest.length) (moved : α) :
    (rest ++ [moved]).Perm (rest[index] :: rest.set index moved) := calc
  (rest ++ [moved]).Perm (moved :: rest) := List.perm_append_singleton moved rest
  List.Perm _ (moved :: rest[index] :: rest.eraseIdx index) :=
    (List.getElem_cons_eraseIdx_perm hi).symm.cons moved
  List.Perm _ (rest[index] :: moved :: rest.eraseIdx index) := List.Perm.swap _ _ _
  List.Perm _ (rest[index] :: rest.set index moved) :=
    (List.set_perm_cons_eraseIdx hi moved).symm.cons _

theorem length_moveLast (index : ℕ) (moved : α) :
    (moveLast items index moved).length = items.length - 1 := by
  unfold moveLast
  split_ifs <;> simp

theorem getElem?_moveLast {index k : ℕ} (moved : α) (hk : k < items.length - 1) (hki : k ≠ index) :
    (moveLast items index moved)[k]? = items[k]? := by
  unfold moveLast
  split_ifs
  · rw [List.getElem?_dropLast, List.length_set, if_pos hk, List.getElem?_set_ne (Ne.symm hki)]
  · rw [List.getElem?_dropLast, if_pos hk]

theorem moveLast_perm {index : ℕ} (hi : index < items.length) :
    items.Perm (items[index] :: moveLast items index items[items.length - 1]) := by
  induction items using List.reverseRecOn with
  | nil => simp at hi
  | append_singleton rest last =>
    unfold moveLast
    simp only [List.length_append, List.length_singleton, Nat.add_sub_cancel] at hi ⊢
    rw [List.getElem_concat_length rfl]
    by_cases h : index = rest.length
    · subst h
      simp [List.perm_append_singleton]
    · have hr : index < rest.length := by omega
      rw [if_pos h, List.set_append_left _ _ hr, List.dropLast_concat, List.getElem_append_left hr]
      exact perm_set_of_append hr last

section removed

variable {index : ℕ} (hh : IsHeap cmp.lt items) (hi : index < items.length - 1)
include hh hi

theorem siftDown_moveLast {rest : List α}
    (hrest : rest = moveLast items index items[items.length - 1])
    (hup : 0 < index → NotAbove cmp.lt rest index (parent index)) :
    ∃ items', siftDown cmp rest.length rest index = some items' ∧ IsHeap cmp.lt items' ∧
      items.Perm (items[index] :: items') := by
  have hlen : rest.length = items.length - 1 := hrest ▸ length_moveLast index _
  have hs := HeapFrom.sinking_replaced hh (le_refl _) (Nat.sub_le _ _) hi
    (fun k hk hki => hrest ▸ getElem?_moveLast _ hk hki) hup
  rw [← hlen] at hs
  obtain ⟨items', hrun, hperm, hheap⟩ := siftDown_spec hs (by omega) (Nat.sub_le _ _)
  have hmove := moveLast_perm (show index < items.length by omega)
  rw [← hrest] at hmove
  exact ⟨items', hrun, hheap, hmove.trans (hperm.symm.cons _)⟩

theorem siftUp_moveLast
    {rest : List α} (hrest : rest = moveLast items index items[items.length - 1]) (h0 : 0 < index)
    (hup : NotAbove cmp.lt rest (parent index) index) : ∃ items', siftUp cmp rest.length
    rest index = some items' ∧ IsHeap cmp.lt items' ∧ items.Perm (items[index] :: items') := by
  have hlen : rest.length = items.length - 1 := hrest ▸ length_moveLast index _
  have hr := HeapFrom.rising_replaced hh (le_refl _) (Nat.sub_le _ _) hi
    (fun k hk hki => hrest ▸ getElem?_moveLast _ hk hki) h0 hlen hup
  rw [← hlen] at hr
  obtain ⟨items', hrun, hperm, hheap⟩ := siftUp_spec hr (by omega) (show index < rest.length by omega)
  have hmove := moveLast_perm (show index < items.length by omega)
  rw [← hrest] at hmove
  exact ⟨items', hrun, hheap, hmove.trans (hperm.symm.cons _)⟩

end removed

theorem isHeap_nil : IsHeap cmp.lt [] := fun i _ hi => absurd hi (Nat.not_lt_zero i)

theorem full_iff (h : BasicHeap N α) : h.full = true ↔ h.items.length = N := decide_eq_true_iff

theorem empty_iff (h : BasicHeap N α) : h.empty = true ↔ h.items = [] :=
  decide_eq_true_iff.trans List.length_eq_zero_iff

def Call.Meets (cmp : Compare α) (h : BasicHeap N α) (call : Call α)
    (r : Reply α × BasicHeap N α) : Prop :=
  IsHeap cmp.lt r.2.items ∧ call.Changes N h.items r.1 r.2.items

section calls

variable {h : BasicHeap N α} (hh : IsHeap cmp.lt h.items)
include hh

theorem push_spec (value : α) :
    ∃ r, push cmp h value = some r ∧ (Call.push value).Meets cmp h r := by
  unfold push
  by_cases hfull : h.full
  · rw [if_pos hfull]
    have hN := h.full_iff.mp hfull
    exact ⟨_, rfl, hh, by simp [Call.Changes, hN]⟩
  · rw [if_neg hfull]
    have hN : h.items.length ≠ N := fun he => hfull (h.full_iff.mpr he)
    have hlen : (h.items ++ [value]).length - 1 = h.items.length := by simp
    obtain ⟨items', hrun, hperm, hheap⟩ :=
      siftUp_spec (hh.append value) (by simp) (show _ < (h.items ++ [value]).length by simp)
    refine ⟨(⟨.ok, none⟩, ⟨items'⟩), by simp only [hlen, hrun]; rfl, hheap, ?_⟩
    have hv := hperm.trans (List.perm_append_singleton value h.items)
    simpa [Call.Changes, hN] using hv

theorem pop_spec : ∃ r, pop cmp h = some r ∧ Call.pop.Meets cmp h r := by
  unfold pop
  by_cases hempty : h.empty
  · rw [if_pos hempty]
    exact ⟨_, rfl, hh, Or.inl ⟨h.empty_iff.mp hempty, rfl, rfl⟩⟩
  · rw [if_neg hempty]
    have hpos : 0 < h.items.length :=
      List.length_pos_of_ne_nil fun hnil => hempty (h.empty_iff.mpr hnil)
    have hlast : h.items[h.size - 1]? = some h.items[h.items.length - 1] :=
      List.getElem?_eq_getElem (show h.items.length - 1 < _ by omega)
    have hmove : (if h.size - 1 ≠ 0 then h.items.set 0 h.items[h.items.length - 1]
        else h.items).dropLast = moveLast h.items 0 h.items[h.items.length - 1] := by
      unfold moveLast size
      congr 2
      exact propext ne_comm
    have hget : h.items[0]? = some h.items[0] := List.getElem?_eq_getElem hpos
    have hperm := moveLast_perm hpos
    simp only [hlast, Option.bind_eq_bind, Option.bind_some, hmove]
    generalize hrest : moveLast h.items 0 h.items[h.items.length - 1] = rest at hperm ⊢
    have hlen : rest.length = h.items.length - 1 := hrest ▸ length_moveLast 0 _
    by_cases hr : rest.length > 0
    · rw [if_pos hr]
      obtain ⟨items', hrun, hheap, hperm'⟩ := siftDown_moveLast hh (by omega) hrest.symm
        fun h0 => absurd h0 (Nat.lt_irrefl 0)
      exact ⟨(⟨.ok, none⟩, ⟨items'⟩), by rw [hrun]; rfl, hheap, Or.inr ⟨_, hget, rfl, hperm'⟩⟩
    · rw [if_neg hr]
      obtain rfl := List.eq_nil_of_length_eq_zero (Nat.eq_zero_of_not_pos hr)
      exact ⟨_, rfl, isHeap_nil, Or.inr ⟨_, hget, rfl, hperm⟩⟩

theorem popInto_spec : ∃ r, popInto cmp h = some r ∧ Call.popInto.Meets cmp h r := by
  unfold popInto
  by_cases hempty : h.empty
  · rw [if_pos hempty]
    exact ⟨_, rfl, hh, Or.inl ⟨h.empty_iff.mp hempty, rfl, rfl⟩⟩
  · rw [if_neg hempty]
    obtain ⟨r, hrun, hheap, hchange⟩ := pop_spec hh
    rcases hchange with ⟨hnil, -⟩ | ⟨top, htop, hreply, hperm⟩
    · exact absurd (h.empty_iff.mpr hnil) hempty
    · refine ⟨({ r.1 with out := some top }, r.2), by rw [htop, hrun]; rfl, hheap,
        Or.inr ⟨top, htop, by rw [hreply], hperm⟩⟩

theorem removeAt_spec (index : ℕ) :
    ∃ r, removeAt cmp h index = some r ∧ (Call.removeAt index).Meets cmp h r := by
  unfold removeAt
  by_cases hi : index ≥ h.size
  · rw [if_pos hi]
    exact ⟨_, rfl, hh, Or.inl ⟨hi, rfl, rfl⟩⟩
  · rw [if_neg hi]
    have hi : index < h.items.length := lt_of_not_ge hi
    have hlast : h.items[h.size - 1]? = some h.items[h.items.length - 1] :=
      List.getElem?_eq_getElem (show h.items.length - 1 < _ by omega)
    have hmove : (if index ≠ h.size - 1 then h.items.set index h.items[h.items.length - 1]
        else h.items).dropLast = moveLast h.items index h.items[h.items.length - 1] := rfl
    have hget : h.items[index]? = some h.items[index] := List.getElem?_eq_getElem hi
    have hperm := moveLast_perm hi
    simp only [hlast, Option.bind_eq_bind, Option.bind_some, hmove]
    generalize hrest : moveLast h.items index h.items[h.items.length - 1] = rest at hperm ⊢
    have hlen : rest.length = h.items.length - 1 := hrest ▸ length_moveLast index _
    by_cases hr : index < rest.length
    · rw [if_pos hr]
      by_cases h0 : index > 0
      · have hp : parent index < index := by unfold parent; omega
        simp only [if_pos h0, higherPriority_eq hr (show parent index < rest.length by omega),
          Option.bind_some]
        cases hab : cmp.lt rest[index] rest[parent index] with
        | true =>
          obtain ⟨items', hrun, hheap, hperm'⟩ := siftUp_moveLast hh (by omega) hrest.symm h0
            (notAbove_getElem (by omega) hr (not_higher_symm hab))
          refine ⟨(⟨.ok, none⟩, ⟨items'⟩), ?_, hheap, Or.inr ⟨_, hget, rfl, hperm'⟩⟩
          rw [if_pos rfl, hrun]
          rfl
        | false =>
          obtain ⟨items', hrun, hheap, hperm'⟩ := siftDown_moveLast hh (by omega) hrest.symm
            fun _ => notAbove_getElem hr (by omega) hab
          refine ⟨(⟨.ok, none⟩, ⟨items'⟩), ?_, hheap, Or.inr ⟨_, hget, rfl, hperm'⟩⟩
          rw [if_neg (by simp), hrun]
          rfl
      · obtain ⟨items', hrun, hheap, hperm'⟩ := siftDown_moveLast hh (by omega) hrest.symm
          fun h0' => absurd h0' h0
        refine ⟨(⟨.ok, none⟩, ⟨items'⟩), ?_, hheap, Or.inr ⟨_, hget, rfl, hperm'⟩⟩
        rw [if_neg h0, if_neg (by simp), hrun]
        rfl
    · rw [if_neg hr]
      -- the last element itself goes, and the heap is what stood before it
      refine ⟨_, rfl, fun k hk hkn hlo => ?_, Or.inr ⟨_, hget, rfl, hperm⟩⟩
      have hsame : ∀ j, j < h.items.length - 1 → rest[j]? = h.items[j]? := fun j hj =>
        hrest ▸ getElem?_moveLast _ hj (by omega)
      have hkn : k < rest.length := hkn
      have hp : parent k < k := by unfold parent; omega
      exact (hh k hk (by omega) hlo).congr (hsame k (by omega)) (hsame _ (by omega))

theorem replaceTop_spec (value : α) :
    ∃ r, replaceTop cmp h value = some r ∧ (Call.replaceTop value).Meets cmp h r := by
  unfold replaceTop
  by_cases hempty : h.empty
  · rw [if_pos hempty]
    exact ⟨_, rfl, hh, Or.inl ⟨h.empty_iff.mp hempty, rfl, rfl⟩⟩
  · rw [if_neg hempty]
    obtain ⟨top, rest, hitems⟩ : ∃ top rest, h.items = top :: rest :=
      List.exists_cons_of_ne_nil fun hnil => hempty (h.empty_iff.mpr hnil)
    have hs : Sinking cmp.lt (h.items.set 0 value) 0 h.items.length 0 :=
      HeapFrom.sinking_replaced hh (le_refl _) (le_refl _) (by simp [hitems])
        (fun k _ hk => List.getElem?_set_ne (Ne.symm hk)) fun h0 => absurd h0 (Nat.lt_irrefl 0)
    have hlen : (h.items.set 0 value).length = h.items.length := List.length_set
    rw [← hlen] at hs
    obtain ⟨items', hrun, hperm, hheap⟩ :=
      siftDown_spec hs (by simp [hitems]) (Nat.sub_le _ 0)
    refine ⟨(⟨.ok, none⟩, ⟨items'⟩), by simp only [hrun]; rfl, hheap,
      Or.inr ⟨top, rest, hitems, rfl, ?_⟩⟩
    simpa [hitems] using hperm

theorem step_spec (call : Call α) : ∃ r, step cmp h call = some r ∧ call.Meets cmp h r := by
  cases call with
  | push value => exact push_spec hh value
  | emplace value => exact push_spec hh value
  | pop => exact pop_spec hh
  | popInto => exact popInto_spec hh
  | removeAt index => exact removeAt_spec hh index
  | replaceTop value => exact replaceTop_spec hh value
  | clear => exact ⟨_, rfl, isHeap_nil, rfl, rfl⟩

omit hh in
theorem Call.Changes.length_le {items items' : List α} {call : Call α} {reply : Reply α}
    (hc : call.Changes N items reply items') (hN : items.length ≤ N) : items'.length ≤ N := by
  cases call with
  | push value | emplace value =>
    unfold Call.Changes at hc
    split_ifs at hc with hfull
    · rw [hc.2]
      exact hN
    · have hlen := hc.2.length_eq
      rw [List.length_cons] at hlen
      omega
  | pop | popInto | removeAt index =>
    rcases hc with ⟨-, -, rfl⟩ | ⟨x, -, -, hperm⟩
    · exact hN
    · have hlen := hperm.length_eq
      rw [List.length_cons] at hlen
      omega
  | replaceTop value =>
    rcases hc with ⟨-, -, rfl⟩ | ⟨top, rest, rfl, -, hperm⟩
    · exact hN
    · have hlen := hperm.length_eq
      rw [List.length_cons] at hlen hN
      omega
  | clear =>
    rw [hc.2]
    exact Nat.zero_le N

omit hh in
theorem run_spec (cmp : Compare α) (calls : List (Call α)) :
    ∃ h : BasicHeap N α, run cmp calls = some h ∧ IsHeap cmp.lt h.items ∧ h.items.length ≤ N := by
  induction calls using List.reverseRecOn with
  | nil => exact ⟨⟨[]⟩, rfl, isHeap_nil, Nat.zero_le N⟩
  | append_singleton calls call ih =>
    obtain ⟨h, hrun, hheap, hN⟩ := ih
    obtain ⟨r, hstep, hheap', hchange⟩ := step_spec hheap call
    refine ⟨r.2, ?_, hheap', hchange.length_le hN⟩
    unfold run at hrun ⊢
    rw [List.foldlM_append, hrun]
    simp [hstep]

theorem top_spec {x : α} (hx : x ∈ h.items) : ∃ top, h.top = some top ∧ cmp.lt x top = false := by
  obtain ⟨i, hi, hget⟩ := List.mem_iff_getElem.mp hx
  have hpos : 0 < h.items.length := by omega
  refine ⟨h.items[0], List.getElem?_eq_getElem hpos, ?_⟩
  exact HeapFrom.root hh (le_refl _) hi x _ (hget ▸ List.getElem?_eq_getElem hi)
    (List.getElem?_eq_getElem hpos)

theorem drain_spec {rounds : ℕ} (hr : h.items.length ≤ rounds) : ∃ out, drain cmp rounds h =
    some out ∧ out.Perm h.items ∧ out.Pairwise fun a b => cmp.lt b a = false := by
  induction rounds generalizing h with
  | zero =>
    have hnil := List.eq_nil_of_length_eq_zero (Nat.eq_zero_of_le_zero hr)
    exact ⟨[], by simp [drain, h.empty_iff.mpr hnil], hnil ▸ List.Perm.refl _, List.Pairwise.nil⟩
  | succ rounds ih =>
    unfold drain
    by_cases hempty : h.empty
    · rw [if_pos hempty, h.empty_iff.mp hempty]
      exact ⟨[], rfl, List.Perm.refl _, List.Pairwise.nil⟩
    · rw [if_neg hempty]
      obtain ⟨r, hrun, hheap, hchange⟩ := popInto_spec hh
      rcases hchange with ⟨hnil, -⟩ | ⟨top, htop, hreply, hperm⟩
      · exact absurd (h.empty_iff.mpr hnil) hempty
      · have hlen := hperm.length_eq
        rw [List.length_cons] at hlen
        obtain ⟨rest, hrest, hrestPerm, hsorted⟩ := ih hheap (by omega)
        refine ⟨top :: rest, by simp [hrun, hreply, hrest], (hrestPerm.cons top).trans hperm.symm,
          List.pairwise_cons.mpr ⟨fun b hb => ?_, hsorted⟩⟩
        have hmem : b ∈ h.items := hperm.mem_iff.mpr (List.mem_cons_of_mem _ (hrestPerm.mem_iff.mp hb))
        obtain ⟨top', htop', hle⟩ := top_spec hh hmem
        obtain rfl : top = top' := Option.some.inj (htop.symm.trans htop')
        exact hle

end calls

/-- After any calls the array is a heap, its root goes before or with every element, each
call changes the elements as it says, and popping until empty takes them in order. -/
theorem run_is_priority_queue (cmp : Compare α) (N : ℕ) (calls : List (Call α)) :
    ∃ h : BasicHeap N α, run cmp calls = some h ∧ IsHeap cmp.lt h.items ∧ h.items.length ≤
    N ∧ (∀ call, ∃ r, step cmp h call = some r ∧ call.Changes N h.items r.1 r.2.items) ∧
    (∀ x ∈ h.items, ∃ top, h.top = some top ∧ cmp.lt x top = false) ∧ ∃ out, drain cmp h.size h =
    some out ∧ out.Perm h.items ∧ out.Pairwise fun a b => cmp.lt b a = false := by
  obtain ⟨h, hrun, hheap, hN⟩ := run_spec (N := N) cmp calls
  refine ⟨h, hrun, hheap, hN, fun call => ?_, fun x hx => top_spec hheap hx,
    drain_spec hheap (le_refl _)⟩
  obtain ⟨r, hstep, -, hchange⟩ := step_spec hheap call
  exact ⟨r, hstep, hchange⟩

end BasicHeap
end Castle.Container

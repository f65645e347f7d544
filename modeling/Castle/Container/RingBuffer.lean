import Castle.Container.Parameters
import Castle.Lib.BoundedQueue
import Castle.Lib.Cells
import Castle.Lib.Table

/-!
# The ring buffer (`ring_buffer.hpp`)

Head, tail and size are members of their own. An index into `data_` is below `N`; `head_`
plus an offset is below `2 * N`, which an array of `N` elements leaves in `size_type`.
-/

namespace Castle.Container

structure RingBuffer (cap : Capacity) (α : Type) where
  data : Table cap.size α
  head : Fin cap.size
  tail : Fin cap.size
  size : ℕ

namespace RingBuffer

variable {cap : Capacity} {α : Type}

theorem wrap_lt (cap : Capacity) (index : ℕ) :
    (if isPowerOfTwo cap.size then index &&& (cap.size - 1) else index % cap.size) < cap.size := by
  split_ifs with h
  · rw [and_pred_eq_mod h]
    exact Nat.mod_lt _ cap.pos
  · exact Nat.mod_lt _ cap.pos

def wrap (index : ℕ) : Fin cap.size :=
  ⟨if isPowerOfTwo cap.size then index &&& (cap.size - 1) else index % cap.size, wrap_lt cap index⟩

variable (index : Fin cap.size)

theorem advance_lt : (if index.val + 1 = cap.size then 0 else index.val + 1) < cap.size := by
  have hpos := cap.pos
  split_ifs <;> omega

def advance (index : Fin cap.size) : Fin cap.size :=
  ⟨if index.val + 1 = cap.size then 0 else index.val + 1, advance_lt index⟩

theorem retreat_lt : (if index.val = 0 then cap.size - 1 else index.val - 1) < cap.size := by
  have hpos := cap.pos
  split_ifs <;> omega

def retreat (index : Fin cap.size) : Fin cap.size :=
  ⟨if index.val = 0 then cap.size - 1 else index.val - 1, retreat_lt index⟩

/-- The constructor; `data_{}` has one value in all elements. -/
def init (value : α) : RingBuffer cap α :=
  ⟨.replicate _ value, ⟨0, cap.pos⟩, ⟨0, cap.pos⟩, 0⟩

variable (s : RingBuffer cap α)

def empty : Bool := s.size = 0

def full : Bool := s.size = cap.size

def available : ℕ := cap.size - s.size

def clear : RingBuffer cap α := { s with head := ⟨0, cap.pos⟩, tail := ⟨0, cap.pos⟩, size := 0 }

/-- `data_[tail_] = value; tail_ = advance(tail_); ++size_;` -/
def put (value : α) : RingBuffer cap α :=
  { s with data := s.data.set s.tail value, tail := advance s.tail, size := s.size + 1 }

/-- `head_ = advance(head_); --size_;` -/
def drop : RingBuffer cap α := { s with head := advance s.head, size := s.size - 1 }

def push (value : α) : Bool × RingBuffer cap α :=
  if s.full then (false, s) else (true, s.put value)

def forcePush (value : α) : Bool × RingBuffer cap α :=
  let evicted := s.full
  let s := if evicted then s.drop else s
  (evicted, s.put value)

/-- `pop(value_type& out)`: the second component is what is written to `out`. -/
def popInto : Bool × Option α × RingBuffer cap α :=
  if s.empty then (false, none, s) else (true, some (s.data.get s.head), s.drop)

def pop : Bool × RingBuffer cap α :=
  if s.empty then (false, s) else (true, s.drop)

def peek (index : ℕ) : Bool × Option α :=
  if index ≥ s.size then (false, none)
  else (true, some (s.data.get (wrap (s.head.val + index))))

def front : α := s.data.get s.head

def back : α := s.data.get (retreat s.tail)

/-- The loop of `push_bulk`, over what is left of the first `max` elements of `src`. -/
def pushLoop (s : RingBuffer cap α) : List α → ℕ × RingBuffer cap α
  | [] => (0, s)
  | value :: rest =>
    if s.full then (0, s)
    else
      let (written, s) := pushLoop (s.put value) rest
      (written + 1, s)

/-- `src` is a null pointer or points to `max` elements. -/
def pushBulk : Option (List α) → ℕ × RingBuffer cap α
  | none => (0, s)
  | some src => s.pushLoop src

/-- The loop of `pop_bulk`, with what it writes to `dst`. -/
def popLoop (s : RingBuffer cap α) : ℕ → List α × RingBuffer cap α
  | 0 => ([], s)
  | left + 1 =>
    if s.empty then ([], s)
    else
      let (rest, s') := popLoop s.drop left
      (s.data.get s.head :: rest, s')

/-- `dst` tells whether the pointer is not null. -/
def popBulk (dst : Bool) (max : ℕ) : ℕ × List α × RingBuffer cap α :=
  if !dst then (0, [], s)
  else
    let (out, s) := s.popLoop max
    (out.length, out, s)

inductive Op (α : Type) where
  | push (value : α)
  | forcePush (value : α)
  | popInto
  | pop
  | peek (index : ℕ)
  | pushBulk (src : Option (List α))
  | popBulk (dst : Bool) (max : ℕ)
  | clear

/-- What an operation returns and what it writes to the caller's memory. -/
structure Reply (α : Type) where
  done : Bool := true
  count : ℕ := 0
  elements : List α := []
  deriving DecidableEq

def apply : Op α → Reply α × RingBuffer cap α
  | .push value =>
    let (done, s) := s.push value
    ({ done }, s)
  | .forcePush value =>
    let (done, s) := s.forcePush value
    ({ done }, s)
  | .popInto =>
    let (done, out, s) := s.popInto
    ({ done, elements := out.toList }, s)
  | .pop =>
    let (done, s) := s.pop
    ({ done }, s)
  | .peek index =>
    let (done, out) := s.peek index
    ({ done, elements := out.toList }, s)
  | .pushBulk src =>
    let (count, s) := s.pushBulk src
    ({ count }, s)
  | .popBulk dst max =>
    let (count, elements, s) := s.popBulk dst max
    ({ count, elements }, s)
  | .clear => ({}, s.clear)

def run (s : RingBuffer cap α) : List (Op α) → List (Reply α) × RingBuffer cap α
  | [] => ([], s)
  | op :: ops =>
    let (reply, s) := s.apply op
    let (replies, s) := run s ops
    (reply :: replies, s)

abbrev Queue (cap : Capacity) (α : Type) := BoundedQueue cap.size α

/-- What a queue of capacity `N` answers to an operation. -/
def Queue.apply (q : Queue cap α) : Op α → Reply α × Queue cap α
  | .push value => ({ done := 0 < q.free }, q.enqueue [value])
  | .forcePush value =>
    ({ done := q.free = 0 }, (if q.free = 0 then q.dequeue 1 else q).enqueue [value])
  | .popInto => ({ done := 0 < q.size, elements := q.elements.take 1 }, q.dequeue 1)
  | .pop => ({ done := 0 < q.size }, q.dequeue 1)
  | .peek index => ({ done := index < q.size, elements := q.elements[index]?.toList }, q)
  | .pushBulk none => ({}, q)
  | .pushBulk (some src) => ({ count := min src.length q.free }, q.enqueue src)
  | .popBulk false _ => ({}, q)
  | .popBulk true max =>
    ({ count := min max q.size, elements := q.elements.take max }, q.dequeue max)
  | .clear => ({}, BoundedQueue.empty)

def Queue.run (q : Queue cap α) : List (Op α) → List (Reply α) × Queue cap α
  | [] => ([], q)
  | op :: ops =>
    let (reply, q) := Queue.apply q op
    let (replies, q) := Queue.run q ops
    (reply :: replies, q)

theorem val_wrap (index : ℕ) : (wrap index : Fin cap.size).val = index % cap.size := by
  show (if isPowerOfTwo cap.size then index &&& (cap.size - 1) else index % cap.size) = _
  split_ifs with h
  · exact and_pred_eq_mod h index
  · rfl

theorem val_advance : (advance index).val = (index.val + 1) % cap.size := by
  have hlt := index.isLt
  show (if index.val + 1 = cap.size then 0 else index.val + 1) = _
  split_ifs with h
  · rw [h, Nat.mod_self]
  · rw [Nat.mod_eq_of_lt (by omega)]

theorem val_retreat : (retreat index).val = (index.val + (cap.size - 1)) % cap.size := by
  have hlt := index.isLt
  have hpos := cap.pos
  show (if index.val = 0 then cap.size - 1 else index.val - 1) = _
  split_ifs with h
  · rw [h, Nat.zero_add, Nat.mod_eq_of_lt (by omega)]
  · rw [show index.val + (cap.size - 1) = index.val - 1 + cap.size by omega, Nat.add_mod_right,
      Nat.mod_eq_of_lt (by omega)]

/-- The element `i` places behind the head. -/
def cell (i : ℕ) : α := s.data.get ⟨(s.head.val + i) % cap.size, Nat.mod_lt _ cap.pos⟩

/-- The elements of the queue lie from the head on, and the tail is behind them. -/
structure Refines (s : RingBuffer cap α) (q : Queue cap α) : Prop where
  size_eq : s.size = q.elements.length
  tail_eq : s.tail.val = (s.head.val + s.size) % cap.size
  cell_eq : ∀ i (h : i < q.elements.length), s.cell i = q.elements[i]

namespace Refines

variable {s} {q : Queue cap α}

theorem init (value : α) : Refines (init value : RingBuffer cap α) BoundedQueue.empty where
  size_eq := rfl
  tail_eq := (Nat.zero_mod _).symm
  cell_eq := fun i h => absurd h (Nat.not_lt_zero i)

theorem clear (s : RingBuffer cap α) : Refines s.clear BoundedQueue.empty where
  size_eq := rfl
  tail_eq := (Nat.zero_mod _).symm
  cell_eq := fun i h => absurd h (Nat.not_lt_zero i)

section

variable (h : Refines s q)
include h

theorem size_le : s.size ≤ cap.size := h.size_eq.trans_le q.length_le

theorem free_eq : q.free = cap.size - s.size := by
  rw [h.size_eq]
  rfl

theorem full_iff : s.full = true ↔ q.free = 0 := by
  have hle := h.size_le
  rw [h.free_eq, full, decide_eq_true_iff]
  omega

theorem empty_iff : s.empty = true ↔ q.size = 0 := by
  rw [empty, decide_eq_true_iff, h.size_eq]
  rfl

theorem put (hroom : s.size < cap.size) (value : α) :
    Refines (s.put value) (q.enqueue [value]) := by
  have hfree := h.free_eq
  have helems : (q.enqueue [value]).elements = q.elements ++ [value] := by
    rw [BoundedQueue.elements_enqueue, List.take_of_length_le (by simp; omega)]
  refine ⟨?_, ?_, fun i hi => ?_⟩
  · rw [helems, List.length_append, ← h.size_eq]
    rfl
  · show (advance s.tail).val = (s.head.val + (s.size + 1)) % cap.size
    rw [val_advance, h.tail_eq, Nat.mod_add_mod, Nat.add_assoc]
  · simp only [helems, List.length_append, List.length_singleton] at hi ⊢
    show (s.data.set s.tail value).get ⟨(s.head.val + i) % cap.size, _⟩ = _
    by_cases hlast : i = q.elements.length
    · have hplace : (⟨(s.head.val + i) % cap.size, Nat.mod_lt _ cap.pos⟩ : Fin cap.size) = s.tail := by
        apply Fin.ext
        rw [h.tail_eq, h.size_eq, hlast]
      rw [hplace, Table.get_set_self]
      simp [hlast]
    · have hlt : i < q.elements.length := by omega
      -- an old element is less than one round in front of the tail
      have hplace : (⟨(s.head.val + i) % cap.size, Nat.mod_lt _ cap.pos⟩ : Fin cap.size) ≠ s.tail := by
        intro he
        have hval := congrArg Fin.val he
        rw [h.tail_eq] at hval
        have hsize := h.size_eq
        exact Cells.mod_ne_of_lt (by omega) (by omega) hval
      rw [Table.get_set_ne _ _ hplace, List.getElem_append_left hlt]
      exact h.cell_eq i hlt

theorem drop (hne : 0 < s.size) : Refines s.drop (q.dequeue 1) := by
  have hsize := h.size_eq
  refine ⟨?_, ?_, fun i hi => ?_⟩
  · rw [BoundedQueue.elements_dequeue, List.length_drop, ← h.size_eq]
    rfl
  · show s.tail.val = ((advance s.head).val + (s.size - 1)) % cap.size
    rw [val_advance, Nat.mod_add_mod, h.tail_eq]
    congr 1
    omega
  · simp only [BoundedQueue.elements_dequeue, List.length_drop] at hi
    simp only [BoundedQueue.elements_dequeue, List.getElem_drop]
    rw [← h.cell_eq (1 + i) (by omega)]
    show s.data.get ⟨((advance s.head).val + i) % cap.size, _⟩ = s.data.get _
    congr 2
    rw [val_advance, Nat.mod_add_mod, Nat.add_assoc]

theorem front_eq (hne : 0 < q.elements.length) : s.front = q.elements[0] := by
  rw [← h.cell_eq 0 hne]
  show s.data.get s.head = s.data.get _
  congr 1
  apply Fin.ext
  exact (Nat.mod_eq_of_lt s.head.isLt).symm

theorem back_eq (hne : 0 < q.elements.length) :
    s.back = q.elements[q.elements.length - 1] := by
  rw [← h.cell_eq _ (by omega)]
  show s.data.get (retreat s.tail) = s.data.get _
  congr 1
  apply Fin.ext
  have hpos := cap.pos
  have hsize := h.size_eq
  -- one place in front of the tail is one round less one behind it
  rw [val_retreat, h.tail_eq, Nat.mod_add_mod,
    show s.head.val + s.size + (cap.size - 1) = s.head.val + (q.elements.length - 1) + cap.size by omega,
    Nat.add_mod_right]

theorem peek_eq (index : ℕ) :
    s.peek index = (decide (index < q.size), q.elements[index]?) := by
  have hsize : s.size = q.size := h.size_eq
  unfold peek
  by_cases hi : index ≥ s.size
  · rw [if_pos hi, decide_eq_false (by omega), List.getElem?_eq_none (h.size_eq ▸ hi)]
  · have hlt : index < q.elements.length := by have := h.size_eq; omega
    rw [if_neg hi, decide_eq_true (show index < q.size from hlt), List.getElem?_eq_getElem hlt,
      ← h.cell_eq index hlt]
    congr 3
    exact Fin.ext (val_wrap _)

end

theorem enqueue_cons (q : Queue cap α) (hroom : q.free ≠ 0) (value : α) (rest : List α) :
    q.enqueue (value :: rest) = (q.enqueue [value]).enqueue rest := by
  have hfree : (q.enqueue [value]).free = q.free - 1 := by
    have hadd := (q.enqueue [value]).size_add_free
    have hadd' := q.size_add_free
    have hsize : (q.enqueue [value]).size = q.size + 1 := by
      unfold BoundedQueue.size
      rw [BoundedQueue.elements_enqueue, List.length_append, List.length_take]
      simp only [List.length_singleton]
      omega
    omega
  obtain ⟨free, hf⟩ : ∃ free, q.free = free + 1 := ⟨q.free - 1, by omega⟩
  apply BoundedQueue.ext_elements
  simp only [BoundedQueue.elements_enqueue, hfree, hf]
  simp

theorem pushLoop (h : Refines s q) (src : List α) :
    (s.pushLoop src).1 = min src.length q.free ∧ Refines (s.pushLoop src).2 (q.enqueue src) := by
  induction src generalizing s q with
  | nil =>
    refine ⟨by simp [RingBuffer.pushLoop], ?_⟩
    rwa [show q.enqueue [] = q from BoundedQueue.ext_elements (by simp)]
  | cons value rest ih =>
    unfold RingBuffer.pushLoop
    by_cases hfull : s.full
    · have hfree := h.full_iff.mp hfull
      rw [if_pos hfull, hfree]
      refine ⟨by simp, ?_⟩
      rwa [show q.enqueue (value :: rest) = q from BoundedQueue.ext_elements (by simp [hfree])]
    · have hfree : q.free ≠ 0 := fun he => hfull (h.full_iff.mpr he)
      have hroom : s.size < cap.size := by have := h.free_eq; omega
      obtain ⟨hcount, hrest⟩ := ih (h.put hroom value)
      rw [if_neg hfull, enqueue_cons q hfree]
      refine ⟨?_, hrest⟩
      have hput := (h.put hroom value).free_eq
      have hq := h.free_eq
      simp only [hcount, List.length_cons, hput, hq]
      show min rest.length (cap.size - (s.size + 1)) + 1 = _
      omega

theorem popLoop (h : Refines s q) (max : ℕ) :
    (s.popLoop max).1 = q.elements.take max ∧ Refines (s.popLoop max).2 (q.dequeue max) := by
  induction max generalizing s q with
  | zero =>
    refine ⟨rfl, ?_⟩
    rwa [show q.dequeue 0 = q from BoundedQueue.ext_elements (by simp)]
  | succ max ih =>
    unfold RingBuffer.popLoop
    by_cases hempty : s.empty
    · have hnil : q.elements = [] := List.eq_nil_of_length_eq_zero (h.empty_iff.mp hempty)
      rw [if_pos hempty, hnil, List.take_nil]
      refine ⟨rfl, ?_⟩
      rwa [show q.dequeue (max + 1) = q from BoundedQueue.ext_elements (by simp [hnil])]
    · have hne : q.size ≠ 0 := fun he => hempty (h.empty_iff.mpr he)
      have hpos : 0 < q.elements.length := Nat.pos_of_ne_zero hne
      obtain ⟨hout, hrest⟩ := ih (h.drop (h.size_eq ▸ hpos))
      rw [if_neg hempty]
      constructor
      · have hfront : s.data.get s.head = q.elements[0] := h.front_eq hpos
        simp only [hout, hfront, BoundedQueue.elements_dequeue]
        have hcons := List.getElem_cons_drop hpos
        rw [List.drop_zero] at hcons
        rw [← List.take_succ_cons, hcons]
      · rwa [show q.dequeue (max + 1) = (q.dequeue 1).dequeue max from
          BoundedQueue.ext_elements (by simp)]

theorem enqueue_full (hfree : q.free = 0) (src : List α) : q.enqueue src = q :=
  BoundedQueue.ext_elements (by simp [hfree])

theorem dequeue_empty (hsize : q.size = 0) (max : ℕ) : q.dequeue max = q :=
  BoundedQueue.ext_elements (by simp [List.eq_nil_of_length_eq_zero hsize])

theorem push (h : Refines s q) (value : α) :
    (s.push value).1 = decide (0 < q.free) ∧ Refines (s.push value).2 (q.enqueue [value]) := by
  unfold RingBuffer.push
  by_cases hfull : s.full
  · have hfree := h.full_iff.mp hfull
    rw [if_pos hfull, enqueue_full hfree, decide_eq_false (by omega)]
    exact ⟨rfl, h⟩
  · have hfree : q.free ≠ 0 := fun he => hfull (h.full_iff.mpr he)
    have hroom := h.free_eq
    rw [if_neg hfull, decide_eq_true (Nat.pos_of_ne_zero hfree)]
    exact ⟨rfl, h.put (by omega) value⟩

theorem forcePush (h : Refines s q) (value : α) : (s.forcePush value).1 = decide (q.free = 0) ∧
    Refines (s.forcePush value).2 ((if q.free = 0 then q.dequeue 1 else q).enqueue [value]) := by
  have hpos := cap.pos
  have hle := h.size_le
  have hroom := h.free_eq
  unfold RingBuffer.forcePush
  by_cases hfull : s.full
  · have hfree := h.full_iff.mp hfull
    simp only [if_pos hfree, hfull]
    refine ⟨(decide_eq_true hfree).symm, (h.drop (by omega)).put ?_ value⟩
    show s.size - 1 < cap.size
    omega
  · have hfree : q.free ≠ 0 := fun he => hfull (h.full_iff.mpr he)
    simp only [if_neg hfull, if_neg hfree]
    exact ⟨by simpa [hfree] using hfull, h.put (by omega) value⟩

theorem pop (h : Refines s q) : s.pop.1 = decide (0 < q.size) ∧ Refines s.pop.2 (q.dequeue 1) := by
  unfold RingBuffer.pop
  by_cases hempty : s.empty
  · have hsize := h.empty_iff.mp hempty
    rw [if_pos hempty, dequeue_empty hsize, decide_eq_false (by omega)]
    exact ⟨rfl, h⟩
  · have hsize : q.size ≠ 0 := fun he => hempty (h.empty_iff.mpr he)
    rw [if_neg hempty, decide_eq_true (Nat.pos_of_ne_zero hsize)]
    exact ⟨rfl, h.drop (h.size_eq ▸ Nat.pos_of_ne_zero hsize)⟩

theorem popInto (h : Refines s q) : s.popInto.1 = decide (0 < q.size) ∧
    s.popInto.2.1.toList = q.elements.take 1 ∧ Refines s.popInto.2.2 (q.dequeue 1) := by
  unfold RingBuffer.popInto
  by_cases hempty : s.empty
  · have hsize := h.empty_iff.mp hempty
    rw [if_pos hempty, dequeue_empty hsize, decide_eq_false (by omega),
      List.eq_nil_of_length_eq_zero hsize]
    exact ⟨rfl, rfl, h⟩
  · have hsize : q.size ≠ 0 := fun he => hempty (h.empty_iff.mpr he)
    have hpos : 0 < q.elements.length := Nat.pos_of_ne_zero hsize
    rw [if_neg hempty, decide_eq_true (Nat.pos_of_ne_zero hsize)]
    refine ⟨rfl, ?_, h.drop (h.size_eq ▸ hpos)⟩
    have hfront : s.data.get s.head = q.elements[0] := h.front_eq hpos
    rw [hfront, List.take_one, List.head?_eq_getElem?, List.getElem?_eq_getElem hpos]

theorem apply (h : Refines s q) (op : Op α) :
    (s.apply op).1 = (Queue.apply q op).1 ∧ Refines (s.apply op).2 (Queue.apply q op).2 := by
  cases op with
  | push value =>
    obtain ⟨hdone, hstate⟩ := h.push value
    exact ⟨by simp [RingBuffer.apply, Queue.apply, hdone], hstate⟩
  | forcePush value =>
    obtain ⟨hdone, hstate⟩ := h.forcePush value
    exact ⟨by simp [RingBuffer.apply, Queue.apply, hdone], hstate⟩
  | popInto =>
    obtain ⟨hdone, hout, hstate⟩ := h.popInto
    exact ⟨by simp [RingBuffer.apply, Queue.apply, hdone, hout], hstate⟩
  | pop =>
    obtain ⟨hdone, hstate⟩ := h.pop
    exact ⟨by simp [RingBuffer.apply, Queue.apply, hdone], hstate⟩
  | peek index => exact ⟨by simp [RingBuffer.apply, Queue.apply, h.peek_eq], h⟩
  | pushBulk src =>
    cases src with
    | none => exact ⟨rfl, h⟩
    | some src =>
      obtain ⟨hcount, hstate⟩ := h.pushLoop src
      exact ⟨by simp [RingBuffer.apply, Queue.apply, pushBulk, hcount], hstate⟩
  | popBulk dst max =>
    cases dst with
    | false => exact ⟨rfl, h⟩
    | true =>
      obtain ⟨hout, hstate⟩ := h.popLoop max
      refine ⟨?_, hstate⟩
      simp [RingBuffer.apply, Queue.apply, popBulk, hout, BoundedQueue.size]
  | clear => exact ⟨rfl, clear s⟩

theorem run (h : Refines s q) (ops : List (Op α)) :
    (s.run ops).1 = (Queue.run q ops).1 ∧ Refines (s.run ops).2 (Queue.run q ops).2 := by
  induction ops generalizing s q with
  | nil => exact ⟨rfl, h⟩
  | cons op ops ih =>
    obtain ⟨hreply, hstate⟩ := h.apply op
    obtain ⟨hreplies, hstate'⟩ := ih hstate
    exact ⟨by simp [RingBuffer.run, Queue.run, hreply, hreplies], hstate'⟩

end Refines

/-- The ring buffer shows its owner the elements of the queue. -/
structure Shows (s : RingBuffer cap α) (q : Queue cap α) : Prop where
  size : s.size = q.size
  peek : ∀ index, s.peek index = (decide (index < q.size), q.elements[index]?)
  front : ∀ (h : 0 < q.elements.length), s.front = q.elements[0]
  back : ∀ (h : 0 < q.elements.length), s.back = q.elements[q.elements.length - 1]

/-- Every run returns what a queue of capacity `N` returns and ends with its elements. -/
theorem run_behaves_as_queue (value : α) (ops : List (Op α)) :
    ((init value : RingBuffer cap α).run ops).1 =
        (Queue.run (BoundedQueue.empty : Queue cap α) ops).1 ∧
      Shows ((init value : RingBuffer cap α).run ops).2
        (Queue.run (BoundedQueue.empty : Queue cap α) ops).2 := by
  obtain ⟨hreplies, hstate⟩ := (Refines.init value).run ops
  exact ⟨hreplies, hstate.size_eq, hstate.peek_eq, hstate.front_eq, hstate.back_eq⟩

end RingBuffer
end Castle.Container

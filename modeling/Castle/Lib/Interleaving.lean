import Mathlib.Algebra.BigOperators.Fin
import Mathlib.Algebra.Order.BigOperators.Group.Finset
import Mathlib.Data.List.Induction
import Mathlib.Data.List.Infix

/-!
# Threads on a shared memory

A thread that is scheduled takes one atomic step, given what its application would
call next. `after` follows a schedule, `trace` has the event of each step. An invariant
is proved of one step of one thread; `total` adds up over the threads what each of
them contributes, and a step changes it by the contribution of its own thread.
-/

namespace Castle

/-- `n` threads with states in `τ` on a memory in `σ`. -/
structure Threads (n : ℕ) (σ τ : Type) where
  memory : σ
  thread : Fin n → τ

namespace Threads

variable {n : ℕ} {σ τ ι ε : Type}

section Step

variable (act : σ → τ → ι → σ × τ × ε)

/-- Thread `i` takes a step. -/
def next (s : Threads n σ τ) (i : Fin n) (choice : ι) : Threads n σ τ :=
  let r := act s.memory (s.thread i) choice
  ⟨r.1, Function.update s.thread i r.2.1⟩

/-- The event of a step of thread `i`. -/
def eventOf (s : Threads n σ τ) (i : Fin n) (choice : ι) : ε :=
  (act s.memory (s.thread i) choice).2.2

/-- The state behind a schedule. -/
def after (s : Threads n σ τ) (schedule : List (Fin n × ι)) : Threads n σ τ :=
  schedule.foldl (fun s p => s.next act p.1 p.2) s

/-- The events of a schedule. -/
def trace (s : Threads n σ τ) : List (Fin n × ι) → List (Fin n × ε)
  | [] => []
  | (i, choice) :: schedule =>
    (i, s.eventOf act i choice) :: trace (s.next act i choice) schedule

variable {act} (s : Threads n σ τ)

@[simp] theorem next_thread_self (i : Fin n) (choice : ι) :
    (s.next act i choice).thread i = (act s.memory (s.thread i) choice).2.1 := by
  simp [next]

@[simp] theorem next_thread_ne {i j : Fin n} (h : j ≠ i) (choice : ι) :
    (s.next act i choice).thread j = s.thread j := by
  simp [next, h]

@[simp] theorem after_nil : s.after act [] = s := rfl

@[simp] theorem after_cons (p : Fin n × ι) (schedule : List (Fin n × ι)) :
    s.after act (p :: schedule) = (s.next act p.1 p.2).after act schedule := rfl

theorem after_append (schedule schedule' : List (Fin n × ι)) :
    s.after act (schedule ++ schedule') = (s.after act schedule).after act schedule' := by
  simp [after]

/-- An event of the trace: the schedule in front of it, the step that gives it, and the
trace behind it. -/
theorem trace_eq_append {schedule : List (Fin n × ι)} {events events' : List (Fin n × ε)}
    {i : Fin n} {e : ε} (h : s.trace act schedule = events ++ (i, e) :: events') :
    ∃ first choice rest, schedule = first ++ (i, choice) :: rest ∧ s.trace act first = events ∧
      (s.after act first).eventOf act i choice = e ∧
        ((s.after act first).next act i choice).trace act rest = events' := by
  induction events generalizing s schedule with
  | nil =>
    cases schedule with
    | nil => cases h
    | cons p schedule =>
      obtain ⟨he, ht⟩ := List.cons.inj h
      cases he
      exact ⟨[], p.2, schedule, rfl, rfl, rfl, ht⟩
  | cons p events ih =>
    cases schedule with
    | nil => cases h
    | cons q schedule =>
      obtain ⟨he, ht⟩ := List.cons.inj h
      obtain ⟨first, choice, rest, rfl, hfirst, hevent, hrest⟩ := ih _ ht
      exact ⟨q :: first, choice, rest, rfl, by simp [trace, he, hfirst], hevent, hrest⟩

theorem after_invariant {P : Threads n σ τ → Prop} (h : P s)
    (hstep : ∀ s i choice, P s → P (s.next act i choice)) (schedule : List (Fin n × ι)) :
    P (s.after act schedule) :=
  List.foldlRecOn schedule _ h fun s hs p _ => hstep s p.1 p.2 hs

/-- What every step keeps that does not give an event of `Q`, while the states on the
way satisfy `B`, holds behind every schedule without such an event. -/
theorem after_unless {P B : Threads n σ τ → Prop} {Q : Fin n → ε → Prop}
    (hstep : ∀ s i choice, P s → B s → ¬Q i (s.eventOf act i choice) → P (s.next act i choice))
    {schedule : List (Fin n × ι)} (h : P s)
    (hb : ∀ first, first <+: schedule → B (s.after act first))
    (hq : ∀ p ∈ s.trace act schedule, ¬Q p.1 p.2) : P (s.after act schedule) := by
  induction schedule generalizing s with
  | nil => exact h
  | cons p schedule ih =>
    obtain ⟨hp, hrest⟩ := List.forall_mem_cons.mp hq
    refine ih (s.next act p.1 p.2) ?_ (fun first hf => ?_) hrest
    · exact hstep s p.1 p.2 h (hb [] (List.nil_prefix)) hp
    · exact hb (p :: first) ((List.prefix_cons_inj p).mpr hf)

end Step

/-- The contributions of all threads together. -/
def total (f : τ → ℕ) (s : Threads n σ τ) : ℕ := ∑ i, f (s.thread i)

variable (s : Threads n σ τ) (f : τ → ℕ)

theorem total_next (act : σ → τ → ι → σ × τ × ε) (i : Fin n) (choice : ι) :
    (s.next act i choice).total f + f (s.thread i) =
      s.total f + f ((s.next act i choice).thread i) := by
  have hold := Finset.add_sum_erase Finset.univ (fun j => f (s.thread j)) (Finset.mem_univ i)
  have hnew := Finset.add_sum_erase Finset.univ (fun j => f ((s.next act i choice).thread j))
    (Finset.mem_univ i)
  have hrest : ∑ j ∈ Finset.univ.erase i, f ((s.next act i choice).thread j) =
      ∑ j ∈ Finset.univ.erase i, f (s.thread j) :=
    Finset.sum_congr rfl fun j hj => by rw [s.next_thread_ne (Finset.ne_of_mem_erase hj)]
  rw [total, total, ← hold, ← hnew, hrest]
  omega

theorem le_total (i : Fin n) : f (s.thread i) ≤ s.total f :=
  Finset.single_le_sum (f := fun j => f (s.thread j)) (fun _ _ => Nat.zero_le _)
    (Finset.mem_univ i)

theorem add_le_total {i j : Fin n} (h : i ≠ j) : f (s.thread i) + f (s.thread j) ≤ s.total f := by
  have hsum := Finset.add_sum_erase Finset.univ (fun j => f (s.thread j)) (Finset.mem_univ i)
  have hj : f (s.thread j) ≤ ∑ k ∈ Finset.univ.erase i, f (s.thread k) :=
    Finset.single_le_sum (f := fun k => f (s.thread k)) (fun _ _ => Nat.zero_le _)
      (Finset.mem_erase.mpr ⟨h.symm, Finset.mem_univ j⟩)
  rw [total, ← hsum]
  omega

end Threads
end Castle

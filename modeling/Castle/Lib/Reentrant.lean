import Mathlib.Algebra.Ring.Nat
import Mathlib.Data.List.Basic

/-!
# Objects that are re-entered from their callbacks

A single-threaded object has a state and a stack of activations: what is left of the calls that
are in progress. The activation on top is a callback of the application, which makes further calls
until it returns, or it is a call that goes on step by step. With an empty stack the application
is in control as well.
-/

namespace Castle

/-- The storage of a callback, and how often it was assigned -/
structure CallbackCell (γ : Type) where
  callable : Option γ := none
  writes : ℕ := 0
  deriving DecidableEq

def CallbackCell.store {γ : Type} (cell : CallbackCell γ) (callable : Option γ) : CallbackCell γ :=
  ⟨callable, cell.writes + 1⟩

/-- The calls of an object, the steps of a call, and what follows a callback. Each gives the state
afterwards, and the activations that take the place of the one on top. -/
structure Reentrant (σ φ α ι : Type) where
  isCallback : φ → Bool
  call : α → σ → σ × List φ
  resume : ι → φ → σ → σ × List φ
  ret : φ → σ → σ × List φ

namespace Reentrant

structure Machine (σ φ : Type) where
  state : σ
  stack : List φ

inductive Label (α ι : Type) where
  /-- The application makes a call. -/
  | call (a : α)
  /-- The call on top goes on. -/
  | resume (i : ι)
  /-- The callback on top returns. -/
  | ret

variable {σ φ α ι : Type} (p : Reentrant σ φ α ι)

/-- The application is in control: no call is in progress, or a callback runs. -/
def inControl (m : Machine σ φ) : Bool := m.stack.head?.all p.isCallback

def step (m : Machine σ φ) : Label α ι → Machine σ φ
  | .call a =>
    if p.inControl m then ⟨(p.call a m.state).1, (p.call a m.state).2 ++ m.stack⟩ else m
  | .resume i =>
    match m.stack with
    | [] => m
    | top :: rest =>
      if p.isCallback top then m
      else ⟨(p.resume i top m.state).1, (p.resume i top m.state).2 ++ rest⟩
  | .ret =>
    match m.stack with
    | [] => m
    | top :: rest =>
      if p.isCallback top then ⟨(p.ret top m.state).1, (p.ret top m.state).2 ++ rest⟩ else m

def run (m : Machine σ φ) (labels : List (Label α ι)) : Machine σ φ := labels.foldl p.step m

/-- A condition that holds at every step of a run. -/
def Along (C : Machine σ φ → Label α ι → Prop) : Machine σ φ → List (Label α ι) → Prop
  | _, [] => True
  | m, l :: labels => C m l ∧ Along C (p.step m l) labels

variable {p}

/-- What every step keeps under a condition is kept by the runs whose steps all meet it. -/
theorem Along.invariant {C : Machine σ φ → Label α ι → Prop} {Inv : Machine σ φ → Prop}
    (hstep : ∀ m l, Inv m → C m l → Inv (p.step m l)) {m : Machine σ φ}
    {labels : List (Label α ι)} (hm : Inv m) (h : p.Along C m labels) : Inv (p.run m labels) := by
  induction labels generalizing m with
  | nil => exact hm
  | cons l labels ih => exact ih (hstep m l hm h.1) h.2

theorem Along.trivial (m : Machine σ φ) (labels : List (Label α ι)) :
    p.Along (fun _ _ => True) m labels := by
  induction labels generalizing m with
  | nil => exact True.intro
  | cons l labels ih => exact ⟨True.intro, ih _⟩

theorem run_keeps {Inv : Machine σ φ → Prop} (hstep : ∀ m l, Inv m → Inv (p.step m l))
    {m : Machine σ φ} (hm : Inv m) (labels : List (Label α ι)) : Inv (p.run m labels) :=
  Along.invariant (fun m l hm _ => hstep m l hm) hm (Along.trivial m labels)

/-- The cases of a step: the label does not fit the activation on top, or one of the three. -/
inductive Stepped (p : Reentrant σ φ α ι) (m : Machine σ φ) : Label α ι → Machine σ φ → Prop
  | idle (l : Label α ι) : Stepped p m l m
  | call (a : α) (h : p.inControl m = true) :
    Stepped p m (.call a) ⟨(p.call a m.state).1, (p.call a m.state).2 ++ m.stack⟩
  | resume (i : ι) {top : φ} {rest : List φ} (hstack : m.stack = top :: rest)
    (h : p.isCallback top = false) :
    Stepped p m (.resume i) ⟨(p.resume i top m.state).1, (p.resume i top m.state).2 ++ rest⟩
  | ret {top : φ} {rest : List φ} (hstack : m.stack = top :: rest) (h : p.isCallback top = true) :
    Stepped p m .ret ⟨(p.ret top m.state).1, (p.ret top m.state).2 ++ rest⟩

theorem stepped (p : Reentrant σ φ α ι) (m : Machine σ φ) (l : Label α ι) :
    Stepped p m l (p.step m l) := by
  obtain ⟨state, stack⟩ := m
  cases l with
  | call a =>
    rw [step]
    split
    next h => exact .call a h
    · exact .idle _
  | resume i =>
    cases stack with
    | nil => exact .idle _
    | cons top rest =>
      rw [step]
      dsimp only
      split
      · exact .idle _
      next h => exact .resume i rfl (by simpa using h)
  | ret =>
    cases stack with
    | nil => exact .idle _
    | cons top rest =>
      rw [step]
      dsimp only
      split
      next h => exact .ret rfl h
      · exact .idle _

end Reentrant
end Castle

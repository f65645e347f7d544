import Mathlib.Data.List.Basic
import Mathlib.Data.List.Forall2
import Mathlib.Data.List.Induction

/-!
# Machines that are fed symbol by symbol

A step takes one symbol and gives the next state and what is put out.
-/

namespace Castle

namespace Transducer

variable {σ α β : Type} (step : σ → α → σ × List β)

/-- The state behind a stream, and everything that is put out on the way. -/
def feed : σ → List α → σ × List β
  | s, [] => (s, [])
  | s, a :: l => ((feed (step s a).1 l).1, (step s a).2 ++ (feed (step s a).1 l).2)

def feedChunks : σ → List (List α) → σ × List β
  | s, [] => (s, [])
  | s, chunk :: chunks =>
    ((feedChunks (feed step s chunk).1 chunks).1,
      (feed step s chunk).2 ++ (feedChunks (feed step s chunk).1 chunks).2)

theorem feed_append (s : σ) (l m : List α) : feed step s (l ++ m) =
    ((feed step (feed step s l).1 m).1, (feed step s l).2 ++ (feed step (feed step s l).1 m).2) := by
  induction l generalizing s with
  | nil => rfl
  | cons a l ih => rw [List.cons_append, feed, feed, ih, List.append_assoc]

theorem feed_snoc (s : σ) (l : List α) (a : α) : feed step s (l ++ [a]) =
    ((step (feed step s l).1 a).1, (feed step s l).2 ++ (step (feed step s l).1 a).2) := by
  rw [feed_append, feed, feed, List.append_nil]

theorem feedChunks_eq (s : σ) (chunks : List (List α)) :
    feedChunks step s chunks = feed step s chunks.flatten := by
  induction chunks generalizing s with
  | nil => rfl
  | cons chunk chunks ih => rw [feedChunks, ih, List.flatten_cons, feed_append]

theorem feed_idle {s : σ} {l : List α} (h : ∀ a ∈ l, step s a = (s, [])) : feed step s l = (s, []) := by
  induction l with
  | nil => rfl
  | cons a l ih =>
    rw [feed, h a List.mem_cons_self]
    exact ih fun b hb => h b (List.mem_cons_of_mem _ hb)

end Transducer

/-- `parts` stand in a stream one behind the other, with any symbols around them. -/
inductive Scattered {α : Type} : List α → List (List α) → Prop
  | nil (gap : List α) : Scattered gap []
  | snoc {l : List α} {parts : List (List α)} (gap part : List α) (h : Scattered l parts) (rest : List α) :
    Scattered (l ++ gap ++ part ++ rest) (parts ++ [part])

theorem Scattered.append {α : Type} {l : List α} {parts : List (List α)} (h : Scattered l parts) (m : List α) :
    Scattered (l ++ m) parts := by
  cases h with
  | nil gap => exact .nil _
  | snoc gap part h rest =>
    rw [List.append_assoc]
    exact .snoc gap part h (rest ++ m)

namespace Transducer

variable {σ α β γ : Type} (step : σ → α → σ × List β) (out? : β → Option γ)
  (Valid : List α → γ → Prop) (Holds : σ → List α → Prop)

/-- What a step does with the symbols that are held, the last of them included: it drops some
of them from the front, or gives out a value for all of them. -/
inductive Handled (held : List α) (result : σ × List β) : Prop
  | skip (dropped kept : List α) (hcut : held = dropped ++ kept) (hkept : Holds result.1 kept)
    (hquiet : result.2.filterMap out? = [])
  | give (value : γ) (hvalid : Valid held value) (hnone : Holds result.1 [])
    (hout : result.2.filterMap out? = [value])

def Holding : Prop := ∀ s held a, Holds s held → Handled out? Valid Holds (held ++ [a]) (step s a)

variable {step out? Valid Holds}

theorem Handled.keep {held : List α} {result : σ × List β} (hkept : Holds result.1 held)
    (hquiet : result.2.filterMap out? = []) : Handled out? Valid Holds held result :=
  .skip [] held rfl hkept hquiet

theorem Handled.drop {held : List α} {result : σ × List β} (hkept : Holds result.1 [])
    (hquiet : result.2.filterMap out? = []) : Handled out? Valid Holds held result :=
  .skip held [] (List.append_nil held).symm hkept hquiet

/-- What is given out belongs to parts of the stream that do not overlap, in their order. -/
theorem Holding.parts (h : Holding step out? Valid Holds) {s : σ} (hs : Holds s []) (stream : List α) :
    ∃ front held parts, stream = front ++ held ∧ Holds (feed step s stream).1 held ∧ Scattered front parts ∧
      List.Forall₂ Valid parts ((feed step s stream).2.filterMap out?) := by
  induction stream using List.reverseRecOn with
  | nil => exact ⟨[], [], [], rfl, hs, .nil [], .nil⟩
  | append_singleton stream a ih =>
    obtain ⟨front, held, parts, hstream, hheld, hparts, hvalid⟩ := ih
    rw [feed_snoc, List.filterMap_append]
    cases h _ held a hheld with
    | skip dropped kept hcut hkept hquiet =>
      refine ⟨front ++ dropped, kept, parts, ?_, hkept, hparts.append dropped, ?_⟩
      · rw [hstream, List.append_assoc, hcut, List.append_assoc]
      · rw [hquiet, List.append_nil]
        exact hvalid
    | give value hvalue hnone hout =>
      refine ⟨front ++ [] ++ (held ++ [a]) ++ [], [], parts ++ [held ++ [a]], ?_, hnone,
        .snoc [] _ hparts [], ?_⟩
      · rw [hstream, List.append_nil, List.append_nil, List.append_nil, List.append_assoc]
      · rw [hout]
        exact List.rel_append hvalid (.cons hvalue .nil)

end Transducer
end Castle

import Mathlib.Data.List.Basic
import Mathlib.Data.List.Nodup

/-!
# Singly linked chains

The nodes from `start` on, one after the other through `next`, up to `stop`.
-/

namespace Castle

variable {ι : Type} {next next' : ι → Option ι}

def Chain (next : ι → Option ι) : Option ι → List ι → Option ι → Prop
  | start, [], stop => start = stop
  | start, i :: rest, stop => start = some i ∧ Chain next (next i) rest stop

namespace Chain

variable {start stop mid : Option ι} {xs ys : List ι} {i k : ι}

@[simp] theorem nil_iff : Chain next start [] stop ↔ start = stop := Iff.rfl

@[simp] theorem cons_iff :
    Chain next start (i :: xs) stop ↔ start = some i ∧ Chain next (next i) xs stop := Iff.rfl

theorem append_iff :
    Chain next start (xs ++ ys) stop ↔ ∃ mid, Chain next start xs mid ∧ Chain next mid ys stop := by
  induction xs generalizing start with
  | nil => simp
  | cons i xs ih => simp [ih, and_assoc]

theorem congr (h : Chain next start xs stop) (hsame : ∀ i ∈ xs, next' i = next i) :
    Chain next' start xs stop := by
  induction xs generalizing start with
  | nil => exact h
  | cons i xs ih =>
    refine ⟨h.1, ?_⟩
    rw [hsame i List.mem_cons_self]
    exact ih h.2 fun j hj => hsame j (List.mem_cons_of_mem i hj)

theorem after (h : Chain next start (xs ++ i :: ys) stop) : Chain next (next i) ys stop := by
  rw [append_iff] at h
  obtain ⟨mid, -, -, hys⟩ := h
  exact hys

theorem insert (h : Chain next start (xs ++ i :: ys) stop) (hi : next' i = some k)
    (hk : next' k = next i) (hsame : ∀ j ∈ xs ++ ys, next' j = next j) :
    Chain next' start (xs ++ i :: k :: ys) stop := by
  rw [append_iff] at h ⊢
  obtain ⟨mid, hxs, hmid, hys⟩ := h
  refine ⟨mid, hxs.congr fun j hj => hsame j (List.mem_append_left ys hj), hmid, hi, ?_⟩
  rw [hk]
  exact hys.congr fun j hj => hsame j (List.mem_append_right xs hj)

theorem erase (h : Chain next start (xs ++ i :: k :: ys) stop) (hi : next' i = next k)
    (hsame : ∀ j ∈ xs ++ ys, next' j = next j) : Chain next' start (xs ++ i :: ys) stop := by
  rw [append_iff] at h ⊢
  obtain ⟨mid, hxs, hmid, -, hys⟩ := h
  refine ⟨mid, hxs.congr fun j hj => hsame j (List.mem_append_left ys hj), hmid, ?_⟩
  rw [hi]
  exact hys.congr fun j hj => hsame j (List.mem_append_right xs hj)

end Chain
end Castle

import Mathlib.Algebra.Ring.Nat
import Mathlib.Data.List.Basic

/-!
# Cutting a stream into frames

A framing tells of the front of a stream whether it is a frame, cannot become one, or
needs more symbols. A handler that takes the frames off a buffer one by one, and
stops at some point, sees the same frames however the stream is cut into chunks.
-/

namespace Castle

/-- What stands at the front of a stream. -/
inductive Verdict (F : Type) where
  | more
  | bad
  | frame (f : F)

/-- A framing, whose verdicts stay when more symbols arrive. -/
structure Framing (α F : Type) where
  inspect : List α → Verdict F
  size : F → ℕ
  size_le : ∀ {l f}, inspect l = .frame f → 0 < size f ∧ size f ≤ l.length
  frame_append : ∀ {l f} (m), inspect l = .frame f → inspect (l ++ m) = .frame f
  bad_append : ∀ {l} (m), inspect l = .bad → inspect (l ++ m) = .bad

/-- A handler of frames; `fail` is what it does when the stream goes bad. -/
structure FrameHandler (σ F : Type) where
  handle : σ → F → σ
  fail : σ → σ
  stopped : σ → Bool
  stopped_fail : ∀ s, stopped (fail s) = true

/-- The state, the symbols left over and the frames that were handled. -/
structure Drained (σ α F : Type) where
  state : σ
  rest : List α
  frames : List F

namespace Framing

variable {α F σ : Type} (fr : Framing α F) (h : FrameHandler σ F)

/-- Handle frames until the handler stops or more symbols are needed. -/
def drain (s : σ) (l : List α) : Drained σ α F :=
  if h.stopped s then ⟨s, l, []⟩
  else
    match hi : fr.inspect l with
    | .more => ⟨s, l, []⟩
    | .bad => ⟨h.fail s, l, []⟩
    | .frame f =>
      have _hsize := fr.size_le hi
      let next := drain (h.handle s f) (l.drop (fr.size f))
      ⟨next.state, next.rest, f :: next.frames⟩
termination_by l.length
decreasing_by
  simp only [List.length_drop]
  omega

variable {fr h} {s : σ} {l : List α}

theorem drain_stopped (hs : h.stopped s = true) : fr.drain h s l = ⟨s, l, []⟩ := by
  rw [drain, if_pos hs]

theorem drain_more (hi : fr.inspect l = .more) : fr.drain h s l = ⟨s, l, []⟩ := by
  rw [drain]
  split
  · rfl
  · split
    · rfl
    next hb => rw [hi] at hb; cases hb
    next hf => rw [hi] at hf; cases hf

theorem drain_bad (hs : h.stopped s = false) (hi : fr.inspect l = .bad) :
    fr.drain h s l = ⟨h.fail s, l, []⟩ := by
  rw [drain, if_neg (by simp [hs])]
  split
  next hm => rw [hi] at hm; cases hm
  · rfl
  next hf => rw [hi] at hf; cases hf

theorem drain_frame (hs : h.stopped s = false) {f : F} (hi : fr.inspect l = .frame f) :
    fr.drain h s l = ⟨(fr.drain h (h.handle s f) (l.drop (fr.size f))).state,
      (fr.drain h (h.handle s f) (l.drop (fr.size f))).rest,
      f :: (fr.drain h (h.handle s f) (l.drop (fr.size f))).frames⟩ := by
  rw [drain, if_neg (by simp [hs])]
  split
  next hm => rw [hi] at hm; cases hm
  next hb => rw [hi] at hb; cases hb
  next g hg =>
    rw [hi] at hg
    cases hg
    rfl

theorem drain_induction {P : σ → List α → Prop}
    (stopped : ∀ s l, h.stopped s = true → P s l)
    (more : ∀ s l, h.stopped s = false → fr.inspect l = .more → P s l)
    (bad : ∀ s l, h.stopped s = false → fr.inspect l = .bad → P s l)
    (frame : ∀ s l f, h.stopped s = false → fr.inspect l = .frame f →
      P (h.handle s f) (l.drop (fr.size f)) → P s l) (s : σ) (l : List α) : P s l := by
  induction hn : l.length using Nat.strongRecOn generalizing s l with
  | ind n ih =>
    cases hs : h.stopped s with
    | true => exact stopped s l hs
    | false =>
      cases hi : fr.inspect l with
      | more => exact more s l hs hi
      | bad => exact bad s l hs hi
      | frame f =>
        have _hsize := fr.size_le hi
        refine frame s l f hs hi (ih (l.drop (fr.size f)).length ?_ _ _ rfl)
        rw [List.length_drop]
        omega

theorem drain_rest (s : σ) (l : List α) :
    (fr.drain h s l).rest = l.drop (((fr.drain h s l).frames.map fr.size).sum) := by
  induction s, l using @drain_induction _ _ _ fr h _ with
  | stopped s l hs => simp [drain_stopped hs]
  | more s l hs hi => simp [drain_more hi]
  | bad s l hs hi => simp [drain_bad hs hi]
  | frame s l f hs hi ih =>
    rw [drain_frame hs hi]
    simp only [List.map_cons, List.sum_cons]
    rw [ih, List.drop_drop]

theorem drain_needs_more (s : σ) (l : List α) (ho : h.stopped (fr.drain h s l).state = false) :
    fr.inspect (fr.drain h s l).rest = .more := by
  induction s, l using @drain_induction _ _ _ fr h _ with
  | stopped s l hs =>
    rw [drain_stopped hs] at ho
    rw [hs] at ho
    cases ho
  | more s l hs hi => rwa [drain_more hi]
  | bad s l hs hi =>
    rw [drain_bad hs hi, h.stopped_fail] at ho
    cases ho
  | frame s l f hs hi ih =>
    rw [drain_frame hs hi] at ho ⊢
    exact ih ho

/-- Draining a stream is draining its front and then what is left of it. -/
theorem drain_append (s : σ) (l m : List α) :
    fr.drain h s (l ++ m) =
      ⟨(fr.drain h (fr.drain h s l).state ((fr.drain h s l).rest ++ m)).state,
        (fr.drain h (fr.drain h s l).state ((fr.drain h s l).rest ++ m)).rest,
        (fr.drain h s l).frames ++
          (fr.drain h (fr.drain h s l).state ((fr.drain h s l).rest ++ m)).frames⟩ := by
  induction s, l using @drain_induction _ _ _ fr h _ with
  | stopped s l hs => simp [drain_stopped hs]
  | more s l hs hi => simp [drain_more hi]
  | bad s l hs hi =>
    simp [drain_bad hs hi, drain_bad hs (fr.bad_append m hi), drain_stopped (h.stopped_fail s)]
  | frame s l f hs hi ih =>
    have hdrop : (l ++ m).drop (fr.size f) = l.drop (fr.size f) ++ m :=
      List.drop_append_of_le_length (fr.size_le hi).2
    rw [drain_frame hs hi, drain_frame hs (fr.frame_append m hi), hdrop, ih]
    rfl

variable (fr h) in
/-- Handle what is buffered with one more chunk, unless the handler has stopped. -/
def feed (d : Drained σ α F) (chunk : List α) : Drained σ α F :=
  if h.stopped d.state then d
  else
    let next := fr.drain h d.state (d.rest ++ chunk)
    ⟨next.state, next.rest, d.frames ++ next.frames⟩

theorem foldl_feed_stopped {d : Drained σ α F} (hs : h.stopped d.state = true)
    (chunks : List (List α)) : chunks.foldl (fr.feed h) d = d := by
  induction chunks with
  | nil => rfl
  | cons chunk chunks ih => rw [List.foldl_cons, feed, if_pos hs, ih]

/-- Fed in chunks, a handler goes through the states and frames of the whole stream,
and is left with the same rest unless it stopped. -/
theorem foldl_feed (s : σ) (l : List α) (chunks : List (List α)) :
    (chunks.foldl (fr.feed h) (fr.drain h s l)).state =
        (fr.drain h s (l ++ chunks.flatten)).state ∧
      (chunks.foldl (fr.feed h) (fr.drain h s l)).frames =
        (fr.drain h s (l ++ chunks.flatten)).frames ∧
      (h.stopped (fr.drain h s (l ++ chunks.flatten)).state = false →
        (chunks.foldl (fr.feed h) (fr.drain h s l)).rest =
          (fr.drain h s (l ++ chunks.flatten)).rest) := by
  induction chunks generalizing l with
  | nil => simp
  | cons chunk chunks ih =>
    rw [List.foldl_cons, List.flatten_cons, ← List.append_assoc]
    cases hs : h.stopped (fr.drain h s l).state with
    | true =>
      have hsame : fr.feed h (fr.drain h s l) chunk = fr.drain h s l := by rw [feed, if_pos hs]
      rw [hsame, foldl_feed_stopped hs, List.append_assoc, drain_append, drain_stopped hs]
      simp [hs]
    | false =>
      have hnext : fr.feed h (fr.drain h s l) chunk = fr.drain h s (l ++ chunk) := by
        rw [feed, if_neg (by simp [hs]), drain_append s l chunk]
      rw [hnext]
      exact ih (l ++ chunk)

end Framing
end Castle

import Castle.Diag.Refinement

/-!
# Recovery callbacks

A callback runs when its rule becomes active, at most once in an update, and only while the recovery
of the rule is armed, which the run ends.
-/

namespace Castle.Diag

variable {n : ℕ} {κ : Type} {rules : Rules n}

def recoveries (m : Manager n κ) (call : Call rules κ) (i : Fin n) : List κ :=
  ((m.executed call).filter fun e => e.1 = i).map Prod.snd

/-- What a run of `callback` says about the states in front of the call and behind it. -/
structure Recovered (target target' : MonitorState κ) (callback : κ) : Prop where
  inactive : target.active = false
  active : target'.active = true
  armed : target.recoveryArmed = true
  unarmed : target'.recoveryArmed = false
  recovery : target.recovery = some callback

theorem Evaluation.recovered {rule : Rule n} {target target' : MonitorState κ} {now : ℤ}
    {condition : Bool} {callback : κ}
    (h : Evaluation rules rule target now condition target' (some callback)) :
    Recovered target target' callback := by
  cases h with
  | activated enabled active met active' armed inputs run =>
    cases harmed : target.recoveryArmed with
    | false => simp [harmed] at run
    | true => exact ⟨active, active', harmed, armed, by simpa [harmed] using run.symm⟩

theorem recoveries_spec (m : Manager n κ) (call : Call rules κ) (i : Fin n) :
    recoveries m call i = [] ∨ ∃ callback, recoveries m call i = [callback] ∧
      Recovered (m.state i) ((m.call call).state i) callback := by
  cases call with
  | update now =>
    cases hm : m.globallyEnabled with
    | false =>
      left
      unfold recoveries Manager.executed
      dsimp only
      rw [Manager.update_paused hm]
      rfl
    | true =>
      obtain ⟨target, callback, heval, hcell⟩ := Manager.update_cell rules hm now i
      have hstate : (m.call (.update now : Call rules κ)).state i = target :=
        congrArg Prod.fst hcell
      have hruns : recoveries m (.update now : Call rules κ) i = callback.toList :=
        congrArg Prod.snd hcell
      cases callback with
      | none => exact .inl hruns
      | some callback => exact .inr ⟨callback, hruns, hstate ▸ heval.recovered⟩
  | _ => exact .inl rfl

theorem Evaluation.unarmed {rule : Rule n} {target target' : MonitorState κ} {now : ℤ}
    {condition : Bool} {callback : Option κ}
    (h : Evaluation rules rule target now condition target' callback)
    (hrearm : rule.rearm = .oneShot) (hunarmed : target.recoveryArmed = false) :
    target'.recoveryArmed = false := by
  cases h with
  | paused _ | held _ _ => exact hunarmed
  | normal _ _ _ _ armed _ =>
    rw [armed, hunarmed, hrearm]
    simp
  | counting _ _ _ => exact (sample_inputs rules target now).2.2.trans hunarmed
  | activated _ _ _ _ armed _ _ => exact armed

theorem Manager.call_unarmed {m : Manager n κ} {i : Fin n}
    (hrearm : (rules.rule i).rearm = .oneShot) (hunarmed : (m.state i).recoveryArmed = false)
    {call : Call rules κ} (hcall : call = .rearm i → m.isActive i = true) :
    ((m.call call).state i).recoveryArmed = false := by
  cases call with
  | update now =>
    cases hm : m.globallyEnabled with
    | false =>
      rw [call, update_paused hm]
      exact hunarmed
    | true =>
      obtain ⟨target, callback, heval, hcell⟩ := update_cell rules hm now i
      have hstate : (m.update rules now).manager.state i = target := congrArg Prod.fst hcell
      rw [call, hstate]
      exact heval.unarmed hrearm hunarmed
  | rearm tag =>
    rw [call, state_rearm, if_neg]
    · exact hunarmed
    · rintro ⟨rfl, hinactive⟩
      rw [hcall rfl] at hinactive
      cases hinactive
  | pauseAll | resumeAll =>
    rw [call, state_resetPendingAll]
    exact hunarmed
  | _ =>
    rw [call, state_modify]
    split
    · exact hunarmed
    · exact hunarmed

/-- Between two runs of the recovery of a `one_shot` rule there is a `rearm` that has
found the rule inactive. -/
theorem rearm_between {m : Manager n κ} {i : Fin n} (hrearm : (rules.rule i).rearm = .oneShot)
    {first second : Call rules κ} {middle : List (Call rules κ)}
    (hfirst : recoveries m first i ≠ [])
    (hsecond : recoveries (middle.foldl Manager.call (m.call first)) second i ≠ []) :
    ∃ before behind, middle = before ++ .rearm i :: behind ∧
      (before.foldl Manager.call (m.call first)).isActive i = false := by
  by_contra hnone
  -- the first run leaves the recovery unarmed, and so does every call up to the second
  have hunarmed : ((middle.foldl Manager.call (m.call first)).state i).recoveryArmed = false := by
    clear hsecond
    induction middle using List.reverseRecOn with
    | nil =>
      obtain hempty | ⟨callback, -, hrun⟩ := recoveries_spec m first i
      · exact absurd hempty hfirst
      · exact hrun.unarmed
    | append_singleton middle call ih =>
      rw [List.foldl_append, List.foldl_cons, List.foldl_nil]
      refine Manager.call_unarmed hrearm (ih ?_) ?_
      · rintro ⟨before, behind, heq, hinactive⟩
        refine hnone ⟨before, behind ++ [call], ?_, hinactive⟩
        rw [heq, List.append_assoc, List.cons_append]
      · intro heq
        by_contra hactive
        exact hnone ⟨middle, [], by rw [heq], by simpa using hactive⟩
  obtain hempty | ⟨callback, -, hrun⟩ :=
    recoveries_spec (middle.foldl Manager.call (m.call first)) second i
  · exact hsecond hempty
  · exact absurd (hrun.armed.symm.trans hunarmed) (by decide)

end Castle.Diag

/-!
## Runs of the diagnostic manager

With every test of elapsed time in 64 bits the manager follows its trace specification.
The specification asks for nothing of the kind: on the default steady clock, which
counts nanoseconds, a test overflows as soon as a timestamp passes nine seconds.
-/

namespace Castle.Diag

open Chrono Sample

variable {n : ℕ} {κ : Type} {rules : Rules n}

/-- The recovery of a rule runs at most once in an activation, and for a `one_shot` rule
not again until a `rearm` has found the rule inactive. -/
structure RecoversOnce (calls : List (Call rules κ)) (i : Fin n) : Prop where
  once : AtEach calls fun before call => recoveries (after before) call i = [] ∨
    ∃ callback, recoveries (after before) call i = [callback] ∧
      installed before i = some callback ∧ (after before).isActive i = false ∧
        (after (before ++ [call])).isActive i = true
  rearmed : (rules.rule i).rearm = .oneShot → ∀ before first middle second,
    before ++ first :: middle ++ [second] <+: calls →
      recoveries (after before) first i ≠ [] →
        recoveries (after (before ++ first :: middle)) second i ≠ [] →
          ∃ between behind, middle = between ++ .rearm i :: behind ∧
            (after (before ++ first :: between)).isActive i = false

/-- What a run of the manager owes to its specification. -/
structure Refines (calls : List (Call rules κ)) : Prop where
  active : ∀ i, (after calls).isActive i = specified calls i
  paused : ∀ i now, monitored calls i = false →
    (after (calls ++ [.update now])).state i = (after calls).state i
  recovers : ∀ i, RecoversOnce calls i

theorem after_append_cons (before middle : List (Call rules κ)) (first : Call rules κ) :
    after (before ++ first :: middle) = middle.foldl Manager.call ((after before).call first) := by
  simp [after]

theorem recoversOnce (calls : List (Call rules κ)) (i : Fin n) : RecoversOnce calls i where
  once before call _ := by
    obtain hempty | ⟨callback, hruns, hrun⟩ := recoveries_spec (after before) call i
    · exact .inl hempty
    · refine .inr ⟨callback, hruns, ?_, hrun.inactive, ?_⟩
      · rw [← (inputs_after before).recovery i, hrun.recovery]
      · rw [after_snoc]
        exact hrun.active
  rearmed hrearm before first middle second _ hfirst hsecond := by
    rw [after_append_cons] at hsecond
    obtain ⟨between, behind, heq, hinactive⟩ := rearm_between hrearm hfirst hsecond
    exact ⟨between, behind, heq, by rwa [after_append_cons]⟩

theorem update_of_mem_history {activity : Activity rules κ} {calls : List (Call rules κ)}
    {i : Fin n} {value : Bool} {t : ℤ} (h : .taken value t ∈ history activity calls i) :
    .update t ∈ calls := by
  induction calls using List.reverseRecOn with
  | nil => cases h
  | append_singleton calls call ih =>
    rw [history_snoc, List.mem_append] at h
    cases h with
    | inl hold => exact List.mem_append_left _ (ih hold)
    | inr hlast =>
      refine List.mem_append_right _ (List.mem_singleton.mpr ?_)
      unfold observe at hlast
      split at hlast
      · split at hlast
        · cases List.mem_singleton.mp hlast
          rfl
        · cases hlast
      · split at hlast
        all_goals simp at hlast
      · split at hlast
        all_goals simp at hlast
      all_goals simp at hlast

theorem fitting_of_updates {calls : List (Call rules κ)}
    (h : ∀ i started now, .update started ∈ calls → .update now ∈ calls →
      (rules.rule i).qualification.Fits rules.clock started now) : Fitting calls := by
  rintro before call hpre now rfl i - - -
  have hnow : .update now ∈ calls := hpre.subset (by simp)
  refine h i _ now ?_ hnow
  -- the streak begins in an earlier update, or in this one
  cases hstreak : streak (history specified before i) with
  | nil => exact hnow
  | cons first rest =>
    have hfirst : .update first ∈ before :=
      update_of_mem_history (taken_of_mem_streak (hstreak ▸ List.mem_cons_self))
    exact hpre.subset (List.mem_append_left _ hfirst)

/-- A failure that has to last five seconds, and a group that follows it. -/
def lasting : Rules 2 where
  rule i :=
    if i.val = 0 then { qualification := .afterDuration seconds 5 }
    else { expression := some (.active ⟨0, Nat.two_pos⟩), rearm := .oneShot }
  nonempty := Nat.two_pos
  ordered i expression h := by
    by_cases hi : i.val = 0
    · simp [hi] at h
    · simp only [hi, if_false, Option.some.injEq] at h
      rw [← h]
      exact decide_eq_true (Nat.pos_of_ne_zero hi)
  cycles i cycles h := by
    by_cases hi : i.val = 0
    · simp [hi] at h
    · simp [hi] at h
  counts i unit count h := by
    by_cases hi : i.val = 0
    · simp only [hi, if_true, Qualification.afterDuration.injEq] at h
      omega
    · simp [hi] at h

/-- The failure is there in two updates, at zero and at `last`. -/
def lastingRun (last : ℤ) : List (Call lasting Unit) :=
  [.report ⟨0, Nat.two_pos⟩ rfl true, .setRecovery ⟨1, Nat.one_lt_two⟩ (some ()), .update 0, .update last]

theorem fitting_lastingRun {last : ℤ} (hzero : 0 ≤ last) (hlast : last ≤ 9223372036) :
    Fitting (lastingRun last) := by
  apply fitting_of_updates
  intro i started now hstarted hnow
  simp only [lastingRun, List.mem_cons, List.not_mem_nil, reduceCtorEq, Call.update.injEq,
    false_or, or_false] at hstarted hnow
  by_cases hi : i.val = 0
  · obtain rfl : i = ⟨0, Nat.two_pos⟩ := Fin.ext hi
    change TestFits nano seconds 5 started now
    rw [testFits_nano_seconds (by decide) (by omega) (by omega)]
    omega
  · have hgroup : (lasting.rule i).qualification = .immediate := congrArg Rule.qualification (if_neg hi)
    rw [hgroup]
    trivial

/-- In every run whose tests of elapsed time stay in 64 bits the active rules are those
of the specification. -/
theorem diagnostics_refine (calls : List (Call rules κ)) (h : Fitting calls) : Refines calls where
  active i := (linked_after h i).active_eq
  paused i now hpaused := by
    rw [after_snoc]
    exact (inputs_after calls).update_paused now hpaused
  recovers := recoversOnce calls

/-- Five seconds behind the start: both rules are active. -/
theorem diagnostics_refine_lasting : (after (lastingRun 5000000000)).isActive 0 =
    true ∧ (after (lastingRun 5000000000)).isActive 1 = true ∧ Refines (lastingRun 5000000000) := by
  refine ⟨by decide, by decide, diagnostics_refine _ ?_⟩
  exact fitting_lastingRun (by decide) (by decide)

/-- Ten seconds behind the start the test overflows, and the failure stays inactive. -/
theorem lasting_failure_missed : (after (lastingRun 10000000000)).isActive 0 =
    false ∧ specified (lastingRun 10000000000) 0 = true := by
  refine ⟨by decide, (specified_spec _ _).mpr ?_⟩
  refine ⟨[.taken true 0], 10000000000, [], rfl, ?_, by simp⟩
  exact ⟨0, 10000000000, rfl, rfl, by decide⟩

end Castle.Diag

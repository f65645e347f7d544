import Castle.Lib.Qualification
import Castle.Diag.Manager
import Castle.Lib.Steps

/-!
# The trace specification of the diagnostic manager

Which rules are active is told from the calls alone: a rule sees a sample of its condition in every
update while it is not paused, and an interruption in every pause and resume that concerns it.
-/

namespace Castle.Diag

open Chrono Sample

variable {n : ℕ} {κ : Type} {rules : Rules n}

/-- Which rules are active behind a sequence of calls. -/
abbrev Activity (rules : Rules n) (κ : Type) := List (Call rules κ) → Fin n → Bool

section Calls

variable (calls : List (Call rules κ)) (i : Fin n)

/-- The last report, `false` in front of the first. -/
def reported : Bool :=
  calls.foldl (fun value c =>
    match c with
    | .report tag _ condition => if tag = i then condition else value
    | _ => value) false

/-- Not paused by its tag. -/
def enabled : Bool :=
  calls.foldl (fun value c =>
    match c with
    | .pause tag => if tag = i then false else value
    | .resume tag => if tag = i then true else value
    | _ => value) true

def globallyEnabled : Bool :=
  calls.foldl (fun value c =>
    match c with
    | .pauseAll => false
    | .resumeAll => true
    | _ => value) true

/-- The recovery callback of the last `set_recovery` or `clear_recovery`. -/
def installed : Option κ :=
  calls.foldl (fun value c =>
    match c with
    | .setRecovery tag callback => if tag = i then callback else value
    | .clearRecovery tag => if tag = i then none else value
    | _ => value) none

/-- A rule is monitored while neither it nor the manager is paused. -/
def monitored : Bool := globallyEnabled calls && enabled calls i

@[simp] theorem reported_snoc (call : Call rules κ) :
    reported (calls ++ [call]) i =
      match call with
      | .report tag _ condition => if tag = i then condition else reported calls i
      | _ => reported calls i := by
  simp [reported]

@[simp] theorem enabled_snoc (call : Call rules κ) :
    enabled (calls ++ [call]) i =
      match call with
      | .pause tag => if tag = i then false else enabled calls i
      | .resume tag => if tag = i then true else enabled calls i
      | _ => enabled calls i := by
  simp [enabled]

@[simp] theorem globallyEnabled_snoc (call : Call rules κ) :
    globallyEnabled (calls ++ [call]) =
      match call with
      | .pauseAll => false
      | .resumeAll => true
      | _ => globallyEnabled calls := by
  simp [globallyEnabled]

@[simp] theorem installed_snoc (call : Call rules κ) :
    installed (calls ++ [call]) i =
      match call with
      | .setRecovery tag callback => if tag = i then callback else installed calls i
      | .clearRecovery tag => if tag = i then none else installed calls i
      | _ => installed calls i := by
  simp [installed]

end Calls

/-- The condition of a rule in an update behind `calls`. -/
def condition (activity : Activity rules κ) (calls : List (Call rules κ)) (now : ℤ)
    (i : Fin n) : Bool :=
  match (rules.rule i).expression with
  | none => reported calls i
  | some expression => expression.evaluate (activity (calls ++ [.update now]))

def observe (activity : Activity rules κ) (calls : List (Call rules κ)) (call : Call rules κ)
    (i : Fin n) : List (Sample ℤ) :=
  match call with
  | .update now =>
    if monitored calls i then [.taken (condition activity calls now i) now] else []
  | .pause tag | .resume tag => if tag = i then [.interrupted] else []
  | .pauseAll | .resumeAll => [.interrupted]
  | _ => []

/-- What a rule has seen behind a sequence of calls. -/
def history (activity : Activity rules κ) (calls : List (Call rules κ)) (i : Fin n) :
    List (Sample ℤ) :=
  (calls.foldl (fun p c => (p.1 ++ [c], p.2 ++ observe activity p.1 c i)) ([], [])).2

/-- The requirement on the times at which the condition has been true without a break. -/
def Qualification.Met (clock : Period) (times : List ℤ) : Qualification → Prop
  | .immediate => True
  | .afterCycles cycles => cycles ≤ times.length
  | .afterDuration unit count => ∃ first last, times.head? = some first ∧
      times.getLast? = some last ∧ AtLeast clock unit (last - first) count

/-- A rule is active when its condition was raised and not cleared since. -/
def Specified (activity : Activity rules κ) (calls : List (Call rules κ)) (i : Fin n) : Prop :=
  activity calls i = true ↔
    Raised (fun times => (rules.rule i).qualification.Met rules.clock times)
      (history activity calls i)

@[simp] theorem history_nil (activity : Activity rules κ) (i : Fin n) :
    history activity [] i = [] := rfl

@[simp] theorem history_snoc (activity : Activity rules κ) (calls : List (Call rules κ))
    (call : Call rules κ) (i : Fin n) : history activity (calls ++ [call]) i =
    history activity calls i ++ observe activity calls call i := by
  have hfst : (calls.foldl (fun p c => (p.1 ++ [c], p.2 ++ observe activity p.1 c i))
      (([], []) : List (Call rules κ) × List (Sample ℤ))).1 = calls := by
    induction calls using List.reverseRecOn with
    | nil => rfl
    | append_singleton calls c ih => rw [List.foldl_append, List.foldl_cons, List.foldl_nil, ih]
  unfold history
  rw [List.foldl_append, List.foldl_cons, List.foldl_nil, hfst]

theorem condition_congr {activity activity' : Activity rules κ} {calls : List (Call rules κ)}
    {now : ℤ} {i : Fin n}
    (h : ∀ j, j < i → activity (calls ++ [.update now]) j = activity' (calls ++ [.update now]) j) :
    condition activity calls now i = condition activity' calls now i := by
  unfold condition
  split
  · rfl
  next expression hexpr => exact expression.evaluate_congr h (rules.ordered i expression hexpr)

theorem history_congr {activity activity' : Activity rules κ} {calls : List (Call rules κ)}
    {i : Fin n} (h : ∀ first, first <+: calls → ∀ j, j < i → activity first j = activity' first j) :
    history activity calls i = history activity' calls i := by
  induction calls using List.reverseRecOn with
  | nil => rfl
  | append_singleton calls call ih =>
    rw [history_snoc, history_snoc, ih fun first hf => h first (hf.trans (List.prefix_append _ _))]
    congr 1
    cases call with
    | update now =>
      dsimp only [observe]
      rw [condition_congr (h _ List.prefix_rfl)]
    | _ => rfl

/-- The trace specification, rule by rule: a group reads only the rules in front of it. -/
noncomputable def specified (calls : List (Call rules κ)) (i : Fin n) : Bool :=
  open Classical in
  decide (Raised (fun times => (rules.rule i).qualification.Met rules.clock times)
    (history (fun first j => if _ : j < i then specified first j else false) calls i))
  termination_by i

theorem specified_spec (calls : List (Call rules κ)) (i : Fin n) : Specified specified calls i := by
  have hsame : history specified calls i =
      history (fun first j => if _ : j < i then specified first j else false) calls i := by
    apply history_congr
    intro first _ j hj
    rw [dif_pos hj]
  unfold Specified
  rw [hsame, specified]
  simp only [decide_eq_true_eq]

end Castle.Diag

/-!
## The diagnostic manager against its specification

`Linked` ties the flags and the progress of a rule to what it has seen: while the rule
is inactive, its progress is the number of samples in the current streak and the time
of the first of them. The tests of elapsed time are exact only while their products
fit 64 bits.
-/

namespace Castle.Diag

open Chrono Sample

variable {n : ℕ} {κ : Type} {rules : Rules n}

theorem after_snoc (calls : List (Call rules κ)) (call : Call rules κ) :
    after (calls ++ [call]) = (after calls).call call := by
  simp [after]

/-- No product of a test of this qualification overflows. -/
def Qualification.Fits (clock : Period) (started now : ℤ) : Qualification → Prop
  | .afterDuration unit count => TestFits clock unit count started now
  | _ => True

/-- The state of a rule with this qualification that has seen `seen`. -/
structure Linked (rules : Rules n) (qualification : Qualification) (seen : List (Sample ℤ))
    (target : MonitorState κ) : Prop where
  active : target.active = true ↔ Raised (fun times => qualification.Met rules.clock times) seen
  pending : target.active = false → (target.pending = true ↔ streak seen ≠ [])
  samples : target.active = false →
    target.consecutiveSamples = min (streak seen).length rules.sizeMax
  started : target.active = false → ∀ first, (streak seen).head? = some first →
    target.qualificationStarted = first

section Rule

variable {qualification : Qualification} {seen : List (Sample ℤ)} {target target' : MonitorState κ}
  {now : ℤ}

theorem linked_nil (rules : Rules n) (qualification : Qualification) :
    Linked rules qualification [] ({} : MonitorState κ) where
  active := ⟨fun h => absurd h Bool.false_ne_true, fun h => absurd h not_raised_nil⟩
  pending _ := by simp
  samples _ := by simp
  started _ _ h := by cases h

theorem Linked.same (h : Linked rules qualification seen target)
    (ha : target'.active = target.active) (hp : target'.pending = target.pending)
    (hs : target'.consecutiveSamples = target.consecutiveSamples)
    (ht : target'.qualificationStarted = target.qualificationStarted) :
    Linked rules qualification seen target' := by
  refine ⟨?_, ?_, ?_, ?_⟩
  · rw [ha]
    exact h.active
  · rw [ha, hp]
    exact h.pending
  · rw [ha, hs]
    exact h.samples
  · rw [ha, ht]
    exact h.started

theorem Linked.interrupt (h : Linked rules qualification seen target)
    (ha : target'.active = target.active) (hp : target'.pending = false)
    (hs : target'.consecutiveSamples = 0) :
    Linked rules qualification (seen ++ [.interrupted]) target' where
  active := by rw [ha, raised_snoc_interrupted, h.active]
  pending _ := by simp [hp]
  samples _ := by simp [hs]
  started _ first hf := by simp at hf

theorem min_succ (rules : Rules n) (length : ℕ) :
    incrementSaturated rules (min length rules.sizeMax) = min (length + 1) rules.sizeMax := by
  unfold incrementSaturated
  split <;> omega

theorem Linked.sample (h : Linked rules qualification seen target)
    (ha : target.active = false) (now : ℤ) : (target.sample rules now).pending = true ∧
    (target.sample rules now).consecutiveSamples = min (streak seen ++ [now]).length rules.sizeMax ∧
    (target.sample rules now).qualificationStarted = (streak seen).headD now := by
  have hpending := h.pending ha
  have hsamples := h.samples ha
  unfold MonitorState.sample
  dsimp only
  rw [List.length_append, List.length_singleton, ← min_succ]
  split
  next hnone =>
    have hempty : streak seen = [] := by
      by_contra hne
      simp [hpending.mpr hne] at hnone
    refine ⟨rfl, ?_, ?_⟩
    · simp [hempty]
    · simp [hempty]
  next hsome =>
    have hsome : target.pending = true := by simpa using hsome
    refine ⟨hsome, by rw [hsamples], ?_⟩
    cases hstreak : streak seen with
    | nil => exact absurd hstreak (hpending.mp hsome)
    | cons first rest => exact h.started ha first (by rw [hstreak]; rfl)

theorem satisfied_iff {times : List ℤ}
    (hcycles : ∀ cycles, qualification = .afterCycles cycles → cycles ≤ rules.sizeMax)
    (hfits : qualification.Fits rules.clock (times.headD now) now) :
    satisfied rules qualification (min (times ++ [now]).length rules.sizeMax) (times.headD now)
        now = true ↔ qualification.Met rules.clock (times ++ [now]) := by
  cases qualification with
  | immediate => exact ⟨fun _ => trivial, fun _ => rfl⟩
  | afterCycles cycles =>
    have hle := hcycles cycles rfl
    simp only [satisfied, Qualification.Met, decide_eq_true_eq]
    omega
  | afterDuration unit count =>
    have hhead : (times ++ [now]).head? = some (times.headD now) := by
      cases times <;> rfl
    simp only [satisfied, Qualification.Met, hasElapsed_eq hfits, Tracked.pure_value,
      decide_eq_true_eq, hhead, List.getLast?_append_of_ne_nil _ (List.cons_ne_nil now []),
      List.getLast?_singleton, Option.some.injEq]
    constructor
    · exact fun hle => ⟨_, _, rfl, rfl, hle⟩
    · rintro ⟨_, _, rfl, rfl, hle⟩
      exact hle

theorem Linked.evaluate {rule : Rule n} (h : Linked rules rule.qualification seen target)
    (hcycles : ∀ cycles, rule.qualification = .afterCycles cycles → cycles ≤ rules.sizeMax)
    {condition : Bool} {callback : Option κ}
    (he : Evaluation rules rule target now condition target' callback)
    (henabled : target.enabled = true)
    (hfits : target.active = false → condition = true →
      rule.qualification.Fits rules.clock ((streak seen).headD now) now) :
    Linked rules rule.qualification (seen ++ [.taken condition now]) target' := by
  cases he with
  | paused enabled => exact absurd (henabled.symm.trans enabled) (by decide)
  | normal _ active pending samples _ _ =>
    refine ⟨?_, fun _ => ?_, fun _ => ?_, fun _ first hf => ?_⟩
    · rw [active]
      exact ⟨fun h => absurd h Bool.false_ne_true, fun h => absurd h not_raised_snoc_false⟩
    · simp [pending]
    · simp [samples]
    · simp at hf
  | held _ active =>
    have hvacuous {P : Prop} (hinactive : target.active = false) : P :=
      absurd (active.symm.trans hinactive) (by decide)
    refine ⟨?_, hvacuous, hvacuous, hvacuous⟩
    rw [raised_snoc_true, ← h.active]
    exact ⟨.inl, fun _ => active⟩
  | counting _ active unmet =>
    obtain ⟨hpending, hsamples, hstarted⟩ := h.sample active now
    obtain ⟨-, hactive, -⟩ := sample_inputs rules target now
    rw [hsamples, hstarted, Bool.eq_false_iff, ne_eq, satisfied_iff hcycles (hfits active rfl)] at unmet
    -- the streak is longer by this sample, and begins where it began
    refine ⟨?_, fun _ => ?_, fun _ => ?_, fun _ first hf => ?_⟩
    · rw [hactive, raised_snoc_true, ← h.active]
      exact ⟨.inl, fun hor => hor.resolve_right unmet⟩
    · simp [hpending]
    · rw [hsamples, streak_snoc_true]
    · rw [hstarted]
      rw [streak_snoc_true] at hf
      cases hstreak : streak seen with
      | nil =>
        rw [hstreak] at hf
        exact Option.some.inj hf
      | cons s rest =>
        rw [hstreak] at hf
        exact Option.some.inj hf
  | activated _ active met active' _ _ _ =>
    obtain ⟨-, hsamples, hstarted⟩ := h.sample active now
    rw [hsamples, hstarted, satisfied_iff hcycles (hfits active rfl)] at met
    have hvacuous {P : Prop} (hinactive : target'.active = false) : P :=
      absurd (active'.symm.trans hinactive) (by decide)
    refine ⟨?_, hvacuous, hvacuous, hvacuous⟩
    rw [raised_snoc_true]
    exact ⟨fun _ => .inr met, fun _ => active'⟩

end Rule

/-- What the application has set is what the calls say. -/
structure Inputs (calls : List (Call rules κ)) (m : Manager n κ) : Prop where
  global : m.globallyEnabled = globallyEnabled calls
  reported : ∀ i, (m.state i).reported = reported calls i
  enabled : ∀ i, (m.state i).enabled = enabled calls i
  recovery : ∀ i, (m.state i).recovery = installed calls i

variable {calls : List (Call rules κ)} {m : Manager n κ}

theorem Inputs.call (h : Inputs calls m) (call : Call rules κ) :
    Inputs (calls ++ [call]) (m.call call) := by
  obtain ⟨hglobal, hreported, henabled, hrecovery⟩ := h
  cases call with
  | update now =>
    have hsame := m.update_inputs rules now
    refine ⟨?_, fun i => ?_, fun i => ?_, fun i => ?_⟩
    · rw [Manager.call, m.update_globallyEnabled, hglobal, globallyEnabled_snoc]
    · rw [Manager.call, (hsame i).reported, hreported, reported_snoc]
    · rw [Manager.call, (hsame i).enabled, henabled, enabled_snoc]
    · rw [Manager.call, (hsame i).recovery, hrecovery, installed_snoc]
  | pauseAll | resumeAll =>
    refine ⟨?_, fun i => ?_, fun i => ?_, fun i => ?_⟩
    · simp [Manager.call, Manager.resetPendingAll]
    · simp [Manager.call, state_resetPendingAll, MonitorState.resetPending, hreported i]
    · simp [Manager.call, state_resetPendingAll, MonitorState.resetPending, henabled i]
    · simp [Manager.call, state_resetPendingAll, MonitorState.resetPending, hrecovery i]
  | rearm tag =>
    refine ⟨?_, fun i => ?_, fun i => ?_, fun i => ?_⟩
    · rw [globallyEnabled_snoc, ← hglobal, Manager.call, Manager.rearm]
      split
      · rfl
      · rfl
    · rw [Manager.call, Manager.state_rearm, apply_ite MonitorState.reported]
      simp [hreported i]
    · rw [Manager.call, Manager.state_rearm, apply_ite MonitorState.enabled]
      simp [henabled i]
    · rw [Manager.call, Manager.state_rearm, apply_ite MonitorState.recovery]
      simp [hrecovery i]
  | _ =>
    refine ⟨?_, fun i => ?_, fun i => ?_, fun i => ?_⟩
    · simpa [Manager.call, Manager.modifyState] using hglobal
    · rw [Manager.call, Manager.state_modify, apply_ite MonitorState.reported]
      simp [MonitorState.resetPending, hreported i]
    · rw [Manager.call, Manager.state_modify, apply_ite MonitorState.enabled]
      simp [henabled i]
    · rw [Manager.call, Manager.state_modify, apply_ite MonitorState.recovery]
      simp [MonitorState.resetPending, hrecovery i]

theorem inputs_after (calls : List (Call rules κ)) : Inputs calls (after calls) := by
  induction calls using List.reverseRecOn with
  | nil =>
    refine ⟨rfl, fun i => ?_, fun i => ?_, fun i => ?_⟩
    · exact congrArg MonitorState.reported (state_new i)
    · exact congrArg MonitorState.enabled (state_new i)
    · exact congrArg MonitorState.recovery (state_new i)
  | append_singleton calls call ih =>
    rw [after_snoc]
    exact ih.call call

theorem Linked.call {activity : Activity rules κ} {i : Fin n}
    (h : Linked rules (rules.rule i).qualification (history activity calls i) (m.state i))
    (call : Call rules κ) (hcall : ∀ now, call ≠ .update now) :
    Linked rules (rules.rule i).qualification (history activity (calls ++ [call]) i)
      ((m.call call).state i) := by
  rw [history_snoc]
  cases call with
  | update now => exact absurd rfl (hcall now)
  | pauseAll | resumeAll =>
    rw [Manager.call, state_resetPendingAll]
    exact h.interrupt rfl rfl rfl
  | pause tag | resume tag =>
    rw [Manager.call, Manager.state_modify, observe]
    split
    · exact h.interrupt rfl rfl rfl
    · rw [List.append_nil]
      exact h
  | rearm tag =>
    dsimp only [observe]
    rw [Manager.call, Manager.state_rearm, List.append_nil]
    split
    · exact h.same rfl rfl rfl rfl
    · exact h
  | _ =>
    dsimp only [observe]
    rw [Manager.call, Manager.state_modify, List.append_nil]
    split
    · exact h.same rfl rfl rfl rfl
    · exact h

theorem Linked.active_eq {i : Fin n} {target : MonitorState κ}
    (h : Linked rules (rules.rule i).qualification (history specified calls i) target) :
    target.active = specified calls i :=
  Bool.eq_iff_iff.mpr (h.active.trans (specified_spec calls i).symm)

theorem Inputs.update_paused (h : Inputs calls m) (now : ℤ) {i : Fin n}
    (hpaused : monitored calls i = false) : (m.update rules now).manager.state i = m.state i := by
  unfold monitored at hpaused
  rw [← h.global, ← h.enabled i] at hpaused
  cases hm : m.globallyEnabled with
  | false => rw [Manager.update_paused hm]
  | true =>
    rw [hm, Bool.true_and] at hpaused
    obtain ⟨target, callback, heval, hcell⟩ := Manager.update_cell rules hm now i
    exact (congrArg Prod.fst hcell).trans (heval.eq_of_paused hpaused)

theorem Inputs.condition_eq {activity : Activity rules κ} (h : Inputs calls m) {now : ℤ} {i : Fin n}
    (hfront : ∀ j, j < i →
      (m.update rules now).manager.isActive j = activity (calls ++ [.update now]) j) :
    m.condition rules now i = condition activity calls now i := by
  unfold Manager.condition condition
  cases hexpr : (rules.rule i).expression with
  | none => exact h.reported i
  | some expression => exact expression.evaluate_congr hfront (rules.ordered i expression hexpr)

/-- One update, rule by rule: a group sees the rules in front of it as the specification
says, since they have their final states. -/
theorem Linked.update (hinputs : Inputs calls m)
    (h : ∀ i, Linked rules (rules.rule i).qualification (history specified calls i) (m.state i))
    {now : ℤ} (hfits : ∀ i, monitored calls i = true → specified calls i = false →
      condition specified calls now i = true →
      (rules.rule i).qualification.Fits rules.clock
        ((streak (history specified calls i)).headD now) now) (i : Fin n) :
    Linked rules (rules.rule i).qualification (history specified (calls ++ [.update now]) i)
      ((m.update rules now).manager.state i) := by
  -- the conditions of the groups are those of the specification by the rules in front of them
  induction i using WellFoundedLT.induction with
  | ind i ih =>
    rw [history_snoc]
    dsimp only [observe]
    cases hmonitored : monitored calls i with
    | false =>
      rw [hinputs.update_paused now hmonitored, if_neg Bool.false_ne_true, List.append_nil]
      exact h i
    | true =>
      have hboth := hmonitored
      unfold monitored at hboth
      rw [← hinputs.global, ← hinputs.enabled i, Bool.and_eq_true] at hboth
      obtain ⟨target, callback, heval, hcell⟩ := Manager.update_cell rules hboth.1 now i
      have hcondition := hinputs.condition_eq fun j hj => (ih j hj).active_eq
      have hstate : (m.update rules now).manager.state i = target := congrArg Prod.fst hcell
      rw [hstate, if_pos rfl]
      rw [hcondition] at heval
      refine (h i).evaluate (fun cycles hcycles => (rules.cycles i cycles hcycles).2) heval
        hboth.2 fun hinactive htrue => hfits i hmonitored ?_ htrue
      rw [← (h i).active_eq, hinactive]

/-- Every test of elapsed time that the specification needs stays in 64 bits. -/
def Fitting (calls : List (Call rules κ)) : Prop :=
  AtEach calls fun before call => ∀ now, call = .update now → ∀ i,
    monitored before i = true → specified before i = false →
      condition specified before now i = true →
        (rules.rule i).qualification.Fits rules.clock
          ((streak (history specified before i)).headD now) now

theorem linked_after (h : Fitting calls) (i : Fin n) : Linked rules
    (rules.rule i).qualification (history specified calls i) ((after calls).state i) := by
  induction calls using List.reverseRecOn generalizing i with
  | nil =>
    rw [history_nil]
    exact linked_nil rules _ |>.same (congrArg _ (state_new i)) (congrArg _ (state_new i))
      (congrArg _ (state_new i)) (congrArg _ (state_new i))
  | append_singleton calls call ih =>
    obtain ⟨hcalls, hcall⟩ := AtEach.snoc.mp h
    rw [after_snoc]
    by_cases hupdate : ∃ now, call = .update now
    · obtain ⟨now, rfl⟩ := hupdate
      exact Linked.update (inputs_after calls) (ih hcalls) (hcall now rfl) i
    · exact (ih hcalls i).call call fun now heq => hupdate ⟨now, heq⟩

end Castle.Diag

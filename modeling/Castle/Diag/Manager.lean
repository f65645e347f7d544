import Castle.Status
import Castle.Lib.Table
import Castle.Chrono.Duration
import Castle.Lib.Sweep

/-!
# The diagnostic manager (`diagnostic_manager.hpp`)

A tag is the position of its rule in the rule list, which makes tags unique. The other
static assertions are fields of `Rules`. A recovery callback does not call back into
the manager, so that running one is only recorded. `sizeMax` is the largest
`size_type`; the counters stop there.
-/

namespace Castle.Diag

open Chrono

variable {n : ℕ} {κ : Type}

inductive Qualification where
  | immediate
  | afterCycles (cycles : ℕ)
  | afterDuration (unit : Period) (count : ℤ)

inductive Rearm where
  | rearmOnClear | oneShot
  deriving DecidableEq

inductive Expression (n : ℕ) where
  | active (tag : Fin n)
  | allOf (expressions : List (Expression n))
  | anyOf (expressions : List (Expression n))
  | not_ (expression : Expression n)

mutual

/-- `expression_evaluator` -/
def Expression.evaluate (isActive : Fin n → Bool) : Expression n → Bool
  | .active tag => isActive tag
  | .allOf expressions => evaluateAll isActive expressions
  | .anyOf expressions => evaluateAny isActive expressions
  | .not_ expression => !expression.evaluate isActive

def evaluateAll (isActive : Fin n → Bool) : List (Expression n) → Bool
  | [] => true
  | expression :: rest => expression.evaluate isActive && evaluateAll isActive rest

def evaluateAny (isActive : Fin n → Bool) : List (Expression n) → Bool
  | [] => false
  | expression :: rest => expression.evaluate isActive || evaluateAny isActive rest

end

mutual

/-- `expression_is_ordered`, with the assertion on the number of children. -/
def Expression.isOrdered (index : ℕ) : Expression n → Bool
  | .active tag => tag < index
  | .allOf expressions => !expressions.isEmpty && allOrdered index expressions
  | .anyOf expressions => !expressions.isEmpty && allOrdered index expressions
  | .not_ expression => expression.isOrdered index

def allOrdered (index : ℕ) : List (Expression n) → Bool
  | [] => true
  | expression :: rest => expression.isOrdered index && allOrdered index rest

end

/-- A `diagnostic_event`, or with an expression a `diagnostic_group`. -/
structure Rule (n : ℕ) where
  expression : Option (Expression n) := none
  qualification : Qualification := .immediate
  rearm : Rearm := .rearmOnClear

/-- The rules of a manager, with the unit of the steady clock. -/
structure Rules (n : ℕ) where
  clock : Period := nano
  sizeMax : ℕ := 4294967295
  rule : Fin n → Rule n
  nonempty : 0 < n
  ordered : ∀ i expression, (rule i).expression = some expression → expression.isOrdered i = true
  cycles : ∀ i cycles, (rule i).qualification = .afterCycles cycles → 0 < cycles ∧ cycles ≤ sizeMax
  counts : ∀ i unit count, (rule i).qualification = .afterDuration unit count → 0 ≤ count

/-- `monitor_state`; `recovery` is the callback with its context. -/
structure MonitorState (κ : Type) where
  reported : Bool := false
  active : Bool := false
  pending : Bool := false
  enabled : Bool := true
  recoveryArmed : Bool := true
  consecutiveSamples : ℕ := 0
  activationCount : ℕ := 0
  clearCount : ℕ := 0
  qualificationStarted : ℤ := 0
  lastTransition : ℤ := 0
  recovery : Option κ := none

structure UpdateResult where
  activated : ℕ := 0
  cleared : ℕ := 0
  recoveriesExecuted : ℕ := 0

variable (rules : Rules n)

def incrementSaturated (value : ℕ) : ℕ := if value < rules.sizeMax then value + 1 else value

/-- `qualification_test`. Signed operations that overflow go on with the wrapped value. -/
def satisfied (qualification : Qualification) (samples : ℕ) (started now : ℤ) : Bool :=
  match qualification with
  | .immediate => true
  | .afterCycles cycles => cycles ≤ samples
  | .afterDuration unit count => (hasElapsed rules.clock unit count started now).value

/-- `target.pending = false; target.consecutive_samples = 0U;` -/
def MonitorState.resetPending (target : MonitorState κ) : MonitorState κ :=
  { target with pending := false, consecutiveSamples := 0 }

/-- A sample of a true condition of an inactive rule, up to the test. -/
def MonitorState.sample (target : MonitorState κ) (now : ℤ) : MonitorState κ :=
  let target :=
    if !target.pending then
      { target with pending := true, qualificationStarted := now, consecutiveSamples := 0 }
    else target
  { target with consecutiveSamples := incrementSaturated rules target.consecutiveSamples }

/-- What `evaluate_rule` makes of the state of a rule, what it adds to the result, and
the callback that it runs. -/
def evaluateRule (rule : Rule n) (target : MonitorState κ) (condition : Bool) (now : ℤ)
    (result : UpdateResult) : MonitorState κ × UpdateResult × Option κ :=
  if !target.enabled then (target, result, none)
  else if !condition then
    let target := target.resetPending
    if target.active then
      let target :=
        { target with
          active := false
          lastTransition := now
          clearCount := incrementSaturated rules target.clearCount }
      let result := { result with cleared := incrementSaturated rules result.cleared }
      if rule.rearm = .rearmOnClear then ({ target with recoveryArmed := true }, result, none)
      else (target, result, none)
    else (target, result, none)
  else if target.active then (target, result, none)
  else
    let target := target.sample rules now
    if satisfied rules rule.qualification target.consecutiveSamples target.qualificationStarted now then
      let target :=
        { target.resetPending with
          active := true
          lastTransition := now
          activationCount := incrementSaturated rules target.activationCount }
      let result := { result with activated := incrementSaturated rules result.activated }
      if target.recoveryArmed then
        let target := { target with recoveryArmed := false }
        match target.recovery with
        | some callback =>
          (target,
            { result with
              recoveriesExecuted := incrementSaturated rules result.recoveriesExecuted },
            some callback)
        | none => (target, result, none)
      else (target, result, none)
    else (target, result, none)

structure Manager (n : ℕ) (κ : Type) where
  states : Table n (MonitorState κ) := .replicate _ {}
  globallyEnabled : Bool := true

/-- An update on its way through the rules; `executed` records the callbacks that ran. -/
structure Pass (n : ℕ) (κ : Type) where
  manager : Manager n κ
  result : UpdateResult := {}
  executed : List (Fin n × κ) := []

namespace Manager

variable (m : Manager n κ)

def state (tag : Fin n) : MonitorState κ := m.states.get tag

def isActive (tag : Fin n) : Bool := (m.state tag).active

def modifyState (tag : Fin n) (f : MonitorState κ → MonitorState κ) : Manager n κ :=
  { m with states := m.states.modify tag f }

end Manager

def evaluateAt (now : ℤ) (p : Pass n κ) (index : Fin n) (condition : Bool) : Pass n κ :=
  let (target, result, callback) :=
    evaluateRule rules (rules.rule index) (p.manager.state index) condition now p.result
  { manager := p.manager.modifyState index fun _ => target
    result
    executed := p.executed ++ (callback.map fun callback => (index, callback)).toList }

def updateEvent (now : ℤ) (p : Pass n κ) (index : Fin n) : Pass n κ :=
  match (rules.rule index).expression with
  | none => evaluateAt rules now p index (p.manager.state index).reported
  | some _ => p

def updateGroup (now : ℤ) (p : Pass n κ) (index : Fin n) : Pass n κ :=
  match (rules.rule index).expression with
  | none => p
  | some expression => evaluateAt rules now p index (expression.evaluate p.manager.isActive)

/-- A call of the application. Reports are for events only. -/
inductive Call (rules : Rules n) (κ : Type) where
  | report (tag : Fin n) (event : (rules.rule tag).expression = none) (condition : Bool)
  | setRecovery (tag : Fin n) (callback : Option κ)
  | clearRecovery (tag : Fin n)
  | pause (tag : Fin n)
  | resume (tag : Fin n)
  | pauseAll
  | resumeAll
  | rearm (tag : Fin n)
  | update (now : ℤ)

namespace Manager

variable (m : Manager n κ)

def update (now : ℤ) : Pass n κ :=
  if !m.globallyEnabled then { manager := m }
  else
    let p := (List.finRange n).foldl (updateEvent rules now) { manager := m }
    (List.finRange n).foldl (updateGroup rules now) p

def rearm (tag : Fin n) : Status × Manager n κ :=
  if m.isActive tag then (.invalidArgument, m)
  else (.ok, m.modifyState tag fun target => { target with recoveryArmed := true })

def resetPendingAll : Manager n κ := { m with states := m.states.map MonitorState.resetPending }

variable {rules}

def call (m : Manager n κ) : Call rules κ → Manager n κ
  | .report tag _ condition => m.modifyState tag fun target => { target with reported := condition }
  | .setRecovery tag callback => m.modifyState tag fun target => { target with recovery := callback }
  | .clearRecovery tag => m.modifyState tag fun target => { target with recovery := none }
  | .pause tag => m.modifyState tag fun target => { target.resetPending with enabled := false }
  | .resume tag => m.modifyState tag fun target => { target.resetPending with enabled := true }
  | .pauseAll => { m with globallyEnabled := false }.resetPendingAll
  | .resumeAll => { m with globallyEnabled := true }.resetPendingAll
  | .rearm tag => (m.rearm tag).2
  | .update now => (m.update rules now).manager

/-- The callbacks that a call runs. -/
def executed (m : Manager n κ) : Call rules κ → List (Fin n × κ)
  | .update now => (m.update rules now).executed
  | _ => []

end Manager

/-- The manager behind a sequence of calls on a new one. -/
def after {rules : Rules n} (calls : List (Call rules κ)) : Manager n κ :=
  calls.foldl Manager.call {}

end Castle.Diag

/-!
## What one update does to each rule

`Evaluation` lists the outcomes of `evaluate_rule`. In an update of a manager that is
not paused every rule is evaluated once, events against their last report and groups
against the states that the other rules have when the update is over.
-/

namespace Castle.Diag

open Chrono

variable {n : ℕ} {κ : Type} {rules : Rules n}

/-- The fields that only calls of the application change. -/
structure SameInputs (target target' : MonitorState κ) : Prop where
  reported : target'.reported = target.reported
  enabled : target'.enabled = target.enabled
  recovery : target'.recovery = target.recovery

/-- The outcomes of `evaluate_rule`: the condition, the state behind it and the callback
that was run. -/
inductive Evaluation (rules : Rules n) (rule : Rule n) (target : MonitorState κ) (now : ℤ) :
    Bool → MonitorState κ → Option κ → Prop
  | paused {condition : Bool} (enabled : target.enabled = false) :
      Evaluation rules rule target now condition target none
  | normal {target' : MonitorState κ} (enabled : target.enabled = true)
      (active : target'.active = false) (pending : target'.pending = false)
      (samples : target'.consecutiveSamples = 0)
      (armed : target'.recoveryArmed =
        (target.recoveryArmed || (target.active && rule.rearm = .rearmOnClear)))
      (inputs : SameInputs target target') : Evaluation rules rule target now false target' none
  | held (enabled : target.enabled = true) (active : target.active = true) :
      Evaluation rules rule target now true target none
  | counting (enabled : target.enabled = true) (active : target.active = false)
      (unmet : satisfied rules rule.qualification (target.sample rules now).consecutiveSamples
        (target.sample rules now).qualificationStarted now = false) :
      Evaluation rules rule target now true (target.sample rules now) none
  | activated {target' : MonitorState κ} {callback : Option κ} (enabled : target.enabled = true)
      (active : target.active = false)
      (met : satisfied rules rule.qualification (target.sample rules now).consecutiveSamples
        (target.sample rules now).qualificationStarted now = true)
      (active' : target'.active = true) (armed : target'.recoveryArmed = false)
      (inputs : SameInputs target target')
      (run : callback = if target.recoveryArmed then target.recovery else none) :
      Evaluation rules rule target now true target' callback

theorem sample_inputs (rules : Rules n) (target : MonitorState κ) (now : ℤ) :
    SameInputs target (target.sample rules now) ∧ (target.sample rules now).active =
    target.active ∧ (target.sample rules now).recoveryArmed = target.recoveryArmed := by
  unfold MonitorState.sample
  dsimp only
  split
  · exact ⟨⟨rfl, rfl, rfl⟩, rfl, rfl⟩
  · exact ⟨⟨rfl, rfl, rfl⟩, rfl, rfl⟩

theorem evaluateRule_spec (rule : Rule n) (target : MonitorState κ) (condition : Bool)
    (now : ℤ) (result : UpdateResult) : Evaluation rules rule target now condition
    (evaluateRule rules rule target condition now result).1
    (evaluateRule rules rule target condition now result).2.2 := by
  unfold evaluateRule
  split
  next hpaused => exact .paused (by simpa using hpaused)
  next henabled =>
  have henabled : target.enabled = true := by simpa using henabled
  split
  next hnormal =>
    obtain rfl : condition = false := by simpa using hnormal
    dsimp only
    split
    next hactive =>
      have hactive : target.active = true := hactive
      split
      next hrearm =>
        refine .normal henabled rfl rfl rfl ?_ ⟨rfl, rfl, rfl⟩
        rw [hactive, decide_eq_true hrearm]
        simp
      next hrearm =>
        refine .normal henabled rfl rfl rfl ?_ ⟨rfl, rfl, rfl⟩
        rw [decide_eq_false hrearm]
        simp [MonitorState.resetPending]
    next hactive =>
      have hactive : target.active = false := by simpa [MonitorState.resetPending] using hactive
      refine .normal henabled hactive rfl rfl ?_ ⟨rfl, rfl, rfl⟩
      rw [hactive]
      simp [MonitorState.resetPending]
  next hcondition =>
  obtain rfl : condition = true := by simpa using hcondition
  split
  next hactive => exact .held henabled hactive
  next hactive =>
  have hactive : target.active = false := by simpa using hactive
  obtain ⟨hinputs, -, harmed⟩ := sample_inputs rules target now
  dsimp only
  split
  next hmet =>
    -- the rule becomes active, and the callback runs if the recovery is armed
    split
    next hready =>
      have hready : (target.sample rules now).recoveryArmed = true := hready
      split
      next callback hcallback =>
        have hrecovery : (target.sample rules now).recovery = some callback := hcallback
        refine .activated henabled hactive hmet rfl rfl
          ⟨hinputs.reported, hinputs.enabled, hinputs.recovery⟩ ?_
        rw [if_pos (harmed.symm.trans hready), ← hinputs.recovery, hrecovery]
      next hcallback =>
        have hrecovery : (target.sample rules now).recovery = none := hcallback
        refine .activated henabled hactive hmet rfl rfl
          ⟨hinputs.reported, hinputs.enabled, hinputs.recovery⟩ ?_
        rw [if_pos (harmed.symm.trans hready), ← hinputs.recovery, hrecovery]
    next hready =>
      have hunarmed : (target.sample rules now).recoveryArmed = false := by
        simpa [MonitorState.resetPending] using hready
      refine .activated henabled hactive hmet rfl hunarmed
        ⟨hinputs.reported, hinputs.enabled, hinputs.recovery⟩ ?_
      rw [← harmed, hunarmed]
      rfl
  next hmet => exact .counting henabled hactive (by simpa using hmet)

theorem Evaluation.eq_of_paused {rule : Rule n} {target target' : MonitorState κ} {now : ℤ}
    {condition : Bool} {callback : Option κ}
    (h : Evaluation rules rule target now condition target' callback)
    (hpaused : target.enabled = false) : target' = target := by
  cases h with
  | paused _ => rfl
  | normal enabled | held enabled | counting enabled | activated enabled =>
    exact absurd (hpaused.symm.trans enabled) (by decide)

mutual

theorem Expression.evaluate_congr {index : ℕ} {f g : Fin n → Bool}
    (h : ∀ i : Fin n, i < index → f i = g i) :
    ∀ expression : Expression n, expression.isOrdered index = true →
      expression.evaluate f = expression.evaluate g
  | .active tag, ho => h tag (of_decide_eq_true ho)
  | .allOf expressions, ho => evaluateAll_congr h expressions (Bool.and_eq_true_iff.mp ho).2
  | .anyOf expressions, ho => evaluateAny_congr h expressions (Bool.and_eq_true_iff.mp ho).2
  | .not_ expression, ho => congrArg (!·) (expression.evaluate_congr h ho)

theorem evaluateAll_congr {index : ℕ} {f g : Fin n → Bool}
    (h : ∀ i : Fin n, i < index → f i = g i) :
    ∀ expressions : List (Expression n), allOrdered index expressions = true →
      evaluateAll f expressions = evaluateAll g expressions
  | [], _ => rfl
  | expression :: rest, ho => by
    obtain ⟨he, hrest⟩ := Bool.and_eq_true_iff.mp ho
    unfold evaluateAll
    rw [expression.evaluate_congr h he, evaluateAll_congr h rest hrest]

theorem evaluateAny_congr {index : ℕ} {f g : Fin n → Bool}
    (h : ∀ i : Fin n, i < index → f i = g i) :
    ∀ expressions : List (Expression n), allOrdered index expressions = true →
      evaluateAny f expressions = evaluateAny g expressions
  | [], _ => rfl
  | expression :: rest, ho => by
    obtain ⟨he, hrest⟩ := Bool.and_eq_true_iff.mp ho
    unfold evaluateAny
    rw [expression.evaluate_congr h he, evaluateAny_congr h rest hrest]

end

theorem Manager.state_modify (m : Manager n κ) (i j : Fin n) (f : MonitorState κ → MonitorState κ) :
    (m.modifyState i f).state j = if i = j then f (m.state j) else m.state j := by
  unfold Manager.state Manager.modifyState
  rw [Table.get_modify]
  exact if_congr eq_comm rfl rfl

theorem state_new (i : Fin n) : ({} : Manager n κ).state i = {} := Table.get_replicate _ _

theorem state_resetPendingAll (m : Manager n κ) (globallyEnabled : Bool) (i : Fin n) :
    { m with globallyEnabled }.resetPendingAll.state i = (m.state i).resetPending :=
  Table.get_map _ _ _

theorem Manager.state_rearm (m : Manager n κ) (tag i : Fin n) :
    (m.rearm tag).2.state i =
      if tag = i ∧ m.isActive tag = false then { m.state i with recoveryArmed := true }
      else m.state i := by
  unfold rearm
  cases hactive : m.isActive tag with
  | true => simp
  | false => simp [state_modify]

/-- What an update has done to a rule so far: its state, and the callbacks run for it. -/
def Pass.cell (p : Pass n κ) (i : Fin n) : MonitorState κ × List κ :=
  (p.manager.state i, (p.executed.filter fun e => e.1 = i).map Prod.snd)

theorem evaluateAt_cell (rules : Rules n) (now : ℤ) (p : Pass n κ) (i : Fin n) (condition : Bool) :
    ∃ target callback,
    Evaluation rules (rules.rule i) (p.manager.state i) now condition target callback ∧
    (evaluateAt rules now p i condition).cell i = (target, (p.cell i).2 ++ callback.toList) := by
  refine ⟨_, _, evaluateRule_spec (rules.rule i) (p.manager.state i) condition now p.result, ?_⟩
  unfold evaluateAt Pass.cell
  dsimp only
  rw [Manager.state_modify, if_pos rfl, List.filter_append, List.map_append]
  congr 2
  cases (evaluateRule rules (rules.rule i) (p.manager.state i) condition now p.result).2.2 with
  | none => rfl
  | some callback => simp

theorem evaluateAt_cell_ne (now : ℤ) (p : Pass n κ) (i : Fin n) (condition : Bool) {j : Fin n}
    (h : j ≠ i) : (evaluateAt rules now p i condition).cell j = p.cell j := by
  unfold evaluateAt Pass.cell
  dsimp only
  rw [Manager.state_modify, if_neg (Ne.symm h), List.filter_append, List.map_append]
  congr 1
  cases (evaluateRule rules (rules.rule i) (p.manager.state i) condition now p.result).2.2 with
  | none => simp
  | some callback => simp [Ne.symm h]

theorem updateEvent_own (rules : Rules n) (now : ℤ) :
    OwnCell (Pass.cell (n := n) (κ := κ)) (updateEvent rules now) := by
  intro p i j h
  unfold updateEvent
  split
  · exact evaluateAt_cell_ne now p i _ h
  · rfl

theorem updateGroup_own (rules : Rules n) (now : ℤ) :
    OwnCell (Pass.cell (n := n) (κ := κ)) (updateGroup rules now) := by
  intro p i j h
  unfold updateGroup
  split
  · rfl
  · exact evaluateAt_cell_ne now p i _ h

/-- The condition of a rule in an update: the last report of an event, the expression of
a group over the states behind the update. -/
def Manager.condition (rules : Rules n) (m : Manager n κ) (now : ℤ) (i : Fin n) : Bool :=
  match (rules.rule i).expression with
  | none => (m.state i).reported
  | some expression => expression.evaluate (m.update rules now).manager.isActive

theorem Manager.update_cell (rules : Rules n) {m : Manager n κ} (hm : m.globallyEnabled = true) (now : ℤ)
    (i : Fin n) : ∃ target callback,
      Evaluation rules (rules.rule i) (m.state i) now (m.condition rules now i) target callback ∧
        (m.update rules now).cell i = (target, callback.toList) := by
  have hupdate : m.update rules now = (List.finRange n).foldl (updateGroup rules now)
      ((List.finRange n).foldl (updateEvent rules now) { manager := m }) := by
    unfold update
    rw [hm]
    rfl
  obtain ⟨q, hq, -, hold⟩ := (updateEvent_own rules now).sweep { manager := m } i
  obtain ⟨q', hq', hfinal, hold'⟩ := (updateGroup_own rules now).sweep
    ((List.finRange n).foldl (updateEvent rules now) { manager := m }) i
  rw [← hupdate] at hq' hfinal
  have hstart := hold i le_rfl
  have hmiddle := hold' i le_rfl
  have hstate : q.manager.state i = m.state i := congrArg Prod.fst hstart
  unfold condition
  cases hexpr : (rules.rule i).expression with
  | none =>
    -- an event: the second sweep passes it by
    obtain ⟨target, callback, heval, hcell⟩ :=
      evaluateAt_cell rules now q i (q.manager.state i).reported
    simp only [updateEvent, hexpr] at hq
    simp only [updateGroup, hexpr] at hq'
    rw [hstate] at heval hcell hq
    refine ⟨target, callback, heval, ?_⟩
    rw [hq', hmiddle, hq, hcell, hstart]
    rfl
  | some expression =>
    -- a group: what it reads stands in front of it and is final
    obtain ⟨target, callback, heval, hcell⟩ :=
      evaluateAt_cell rules now q' i (expression.evaluate q'.manager.isActive)
    simp only [updateEvent, hexpr] at hq
    simp only [updateGroup, hexpr] at hq'
    have hsame : q'.cell i = ({ manager := m } : Pass n κ).cell i := by rw [hmiddle, hq, hstart]
    have hstate' : q'.manager.state i = m.state i := congrArg Prod.fst hsame
    have hactive : expression.evaluate q'.manager.isActive =
        expression.evaluate (m.update rules now).manager.isActive :=
      expression.evaluate_congr (fun j hj =>
        congrArg (fun cell => cell.1.active) (hfinal j hj)) (rules.ordered i expression hexpr)
    rw [hstate', hactive] at heval
    refine ⟨target, callback, heval, ?_⟩
    rw [hq', hcell, hsame]
    rfl

theorem Manager.update_globallyEnabled (m : Manager n κ) (now : ℤ) :
    (m.update rules now).manager.globallyEnabled = m.globallyEnabled := by
  unfold update
  split
  · rfl
  refine List.foldlRecOn (motive := fun p : Pass n κ => p.manager.globallyEnabled = _) _ _
    (List.foldlRecOn (motive := fun p : Pass n κ => p.manager.globallyEnabled = _) _ _ rfl ?_) ?_
  · intro p hp i _
    unfold updateEvent
    split
    · exact hp
    · exact hp
  · intro p hp i _
    unfold updateGroup
    split
    · exact hp
    · exact hp

theorem Manager.update_paused {m : Manager n κ} (hm : m.globallyEnabled = false) (now : ℤ) :
    m.update rules now = { manager := m } := by
  unfold update
  rw [hm]
  rfl

theorem Evaluation.inputs {rule : Rule n} {target target' : MonitorState κ} {now : ℤ}
    {condition : Bool} {callback : Option κ}
    (h : Evaluation rules rule target now condition target' callback) :
    SameInputs target target' := by
  cases h with
  | paused _ | held _ _ => exact ⟨rfl, rfl, rfl⟩
  | counting _ _ _ => exact (sample_inputs rules target now).1
  | normal _ _ _ _ _ inputs | activated _ _ _ _ _ inputs _ => exact inputs

theorem Manager.update_inputs (rules : Rules n) (m : Manager n κ) (now : ℤ) (i : Fin n) :
    SameInputs (m.state i) ((m.update rules now).manager.state i) := by
  cases hm : m.globallyEnabled with
  | false =>
    rw [update_paused hm]
    exact ⟨rfl, rfl, rfl⟩
  | true =>
    obtain ⟨target, callback, heval, hcell⟩ := update_cell rules hm now i
    have hstate : (m.update rules now).manager.state i = target := congrArg Prod.fst hcell
    rw [hstate]
    exact heval.inputs

end Castle.Diag

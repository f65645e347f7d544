import Mathlib.Algebra.Ring.Nat
import Castle.Status
import Castle.Lib.Steps

/-!
# Tick timers (`events/tick_timer.hpp`)

Of the callbacks the timer sees the calls that they make on it.
-/

namespace Castle.Events

inductive TickTimerMode where
  | oneShot | periodic | nRepeat
  deriving DecidableEq

structure TickTimer where
  period : UInt32 := 0
  counter : UInt32 := 0
  repeatRemaining : UInt32 := 0
  mode : TickTimerMode := .periodic
  running : Bool := false
  deriving DecidableEq

/-- A call that a callback makes. -/
inductive Control where
  | start (runMode : TickTimerMode) (repeatCount : UInt32)
  | stop | pause | resume | reset
  | setPeriod (periodTicks : UInt32)
  deriving DecidableEq

namespace TickTimer

variable (t : TickTimer)

def setPeriod (periodTicks : UInt32) : Status × TickTimer :=
  if periodTicks = 0 then (.invalidConfig, t) else (.ok, { t with period := periodTicks })

def start (runMode : TickTimerMode) (repeatCount : UInt32) : Status × TickTimer :=
  if t.period = 0 then (.notConfigured, t)
  else if runMode = .nRepeat ∧ repeatCount = 0 then (.invalidConfig, t)
  else (.ok, { t with
    mode := runMode
    repeatRemaining := if runMode = .nRepeat then repeatCount else 0
    counter := 0
    running := true })

def stop : TickTimer := { t with running := false, counter := 0, repeatRemaining := 0 }

def pause : TickTimer := { t with running := false }

def resume : Status × TickTimer :=
  if t.period = 0 then (.notConfigured, t) else (.ok, { t with running := true })

def reset : TickTimer := { t with counter := 0 }

def control : Control → TickTimer
  | .start runMode repeatCount => (t.start runMode repeatCount).2
  | .stop => t.stop
  | .pause => t.pause
  | .resume => t.resume.2
  | .reset => t.reset
  | .setPeriod periodTicks => (t.setPeriod periodTicks).2

/-- `registry_.invoke()`, in which the callbacks make these calls. -/
def invoke (calls : List Control) : TickTimer := calls.foldl control t

/-- The `switch` behind the callbacks -/
def settle : TickTimer :=
  match t.mode with
  | .oneShot => { t with running := false, counter := 0 }
  | .nRepeat =>
    let left := if t.repeatRemaining > 0 then t.repeatRemaining - 1 else t.repeatRemaining
    if left = 0 then { t with repeatRemaining := left, running := false, counter := 0 }
    else { t with repeatRemaining := left }
  | .periodic => t

/-- The condition of the loop -/
def due : Bool := t.running && decide (t.counter ≥ t.period)

def consume : TickTimer := { t with counter := t.counter - t.period }

/-- A round of the loop -/
def expire (calls : List Control) : TickTimer := (t.consume.invoke calls).settle

/-- A round in which the calls take effect after the expiration -/
def expireDocumented (calls : List Control) : TickTimer := t.consume.settle.invoke calls

/-- The timer after each round of a loop, with the calls that are made in its rounds -/
def rounds (round : TickTimer → List Control → TickTimer) (script : ℕ → List Control) :
    ℕ → ℕ → TickTimer → List TickTimer
  | 0, _, _ => []
  | fuel + 1, n, t =>
    if t.due then round t (script n) :: rounds round script fuel (n + 1) (round t (script n)) else []

def accumulate (elapsedTicks : UInt32) : TickTimer := { t with counter := t.counter + elapsedTicks }

/-- `on_tick`: the timer after each expiration, none for a timer that takes no ticks -/
def tickRounds (round : TickTimer → List Control → TickTimer) (script : ℕ → List Control)
    (elapsedTicks : UInt32) : List TickTimer :=
  if !t.running || t.period = 0 then []
  else rounds round script ((t.accumulate elapsedTicks).counter.toNat + 1) 0 (t.accumulate elapsedTicks)

/-- `on_tick`: the timer at its end -/
def onTick (script : ℕ → List Control) (elapsedTicks : UInt32) : TickTimer :=
  (t.tickRounds expire script elapsedTicks).getLastD
    (if !t.running || t.period = 0 then t else t.accumulate elapsedTicks)

def elapsed : UInt32 := t.counter

/-- As many, up to a limit if there is one -/
def atMost (limit : Option ℕ) (n : ℕ) : ℕ := limit.elim n (min n)

def limitOf (mode : TickTimerMode) (repeats : UInt32) : Option ℕ :=
  match mode with
  | .oneShot => some 1
  | .nRepeat => some repeats.toNat
  | .periodic => none

/-- The expirations until the timer stops -/
def left : Option ℕ := limitOf t.mode t.repeatRemaining

/-- Callbacks that do not touch the timer -/
def untouched : ℕ → List Control := fun _ => []

variable {t}

theorem toNat_pos {period : UInt32} (h : period ≠ 0) : 0 < period.toNat :=
  Nat.pos_of_ne_zero fun hzero => h (UInt32.toNat_inj.mp hzero)

theorem toNat_sub_one {n : UInt32} (hpos : n > 0) : (n - 1).toNat = n.toNat - 1 :=
  UInt32.toNat_sub_of_le _ _ (UInt32.le_iff_toNat_le.mpr (UInt32.lt_iff_toNat_lt.mp hpos))

theorem sub_one_eq_zero {n : UInt32} (hpos : n > 0) : n - 1 = 0 ↔ n.toNat = 1 := by
  have hpos' : 0 < n.toNat := UInt32.lt_iff_toNat_lt.mp hpos
  rw [← UInt32.toNat_inj, toNat_sub_one hpos]
  change n.toNat - 1 = 0 ↔ _
  omega

theorem settle_nRepeat (hmode : t.mode = .nRepeat) (hpos : t.repeatRemaining > 0) : t.settle =
    if t.repeatRemaining - 1 = 0 then
      { t with repeatRemaining := t.repeatRemaining - 1, running := false, counter := 0 }
    else { t with repeatRemaining := t.repeatRemaining - 1 } := by
  rw [settle, hmode]
  dsimp only
  rw [if_pos hpos]

theorem settle_repeats (hmode : t.mode = .nRepeat) (hpos : t.repeatRemaining > 0) :
    t.settle.repeatRemaining = t.repeatRemaining - 1 := by
  rw [settle_nRepeat hmode hpos]
  split_ifs <;> rfl

theorem expire_untouched (hrunning : t.running = true) (hleft : t.left ≠ some 0) :
    (t.expire []).period = t.period ∧ (t.left = some 1 → (t.expire []).running = false) ∧
      (t.left ≠ some 1 → (t.expire []).running = true ∧ (t.expire []).counter = t.counter - t.period ∧
        (t.expire []).left = t.left.map (· - 1)) := by
  rw [expire, show t.consume.invoke [] = t.consume from rfl]
  cases hmode : t.mode with
  | oneShot =>
    rw [settle, show t.consume.mode = .oneShot from hmode, left, hmode]
    exact ⟨rfl, fun _ => rfl, fun h => absurd rfl h⟩
  | periodic =>
    rw [settle, show t.consume.mode = .periodic from hmode, left, hmode]
    exact ⟨rfl, fun h => absurd h.symm (Option.some_ne_none 1), fun _ => ⟨hrunning, rfl, by rw [left, consume, hmode]; rfl⟩⟩
  | nRepeat =>
    have hl : t.left = some t.repeatRemaining.toNat := by rw [left, hmode]; rfl
    rw [hl] at hleft ⊢
    have hpos : 0 < t.repeatRemaining.toNat := Nat.pos_of_ne_zero fun h => hleft (congrArg some h)
    have hsub := toNat_sub_one (UInt32.lt_iff_toNat_lt.mpr hpos)
    have hlast := sub_one_eq_zero (UInt32.lt_iff_toNat_lt.mpr hpos)
    rw [settle_nRepeat (show t.consume.mode = .nRepeat from hmode) (UInt32.lt_iff_toNat_lt.mpr hpos)]
    split_ifs with h
    · exact ⟨rfl, fun _ => rfl, fun hne => absurd (congrArg some (hlast.mp h)) hne⟩
    · refine ⟨rfl, fun hone => absurd (hlast.mpr (Option.some.inj hone)) h, fun _ => ⟨hrunning, rfl, ?_⟩⟩
      rw [left, show t.consume.mode = .nRepeat from hmode]
      exact congrArg some hsub

theorem rounds_succ (round : TickTimer → List Control → TickTimer) (script : ℕ → List Control) (fuel n : ℕ) :
    rounds round script (fuel + 1) n t =
      if t.due then round t (script n) :: rounds round script fuel (n + 1) (round t (script n)) else [] :=
  rfl

theorem rounds_of_not_due {round : TickTimer → List Control → TickTimer} (h : t.due = false)
    (script : ℕ → List Control) (fuel n : ℕ) : rounds round script fuel n t = [] := by
  cases fuel with
  | zero => rfl
  | succ fuel => rw [rounds_succ, h, if_neg Bool.false_ne_true]

/-- `states` and `last` are the rounds of a running timer with a count of `counter`, and its end. -/
structure Expires (t : TickTimer) (counter : ℕ) (states : List TickTimer) (last : TickTimer) : Prop where
  length : states.length = atMost t.left (counter / t.period.toNat)
  period : last.period = t.period
  running : last.running = true ↔ ∀ b ∈ t.left, counter / t.period.toNat < b
  rest : last.running = true → last.counter.toNat = counter % t.period.toNat ∧
    last.left = t.left.map (· - counter / t.period.toNat)

theorem rounds_untouched {fuel : ℕ} (hrunning : t.running = true) (hperiod : t.period ≠ 0) (hleft : t.left ≠ some 0)
    (hfuel : t.counter.toNat < fuel) (n : ℕ) :
    Expires t t.counter.toNat (rounds expire untouched fuel n t) ((rounds expire untouched fuel n t).getLastD t) := by
  induction fuel generalizing t n with
  | zero => exact absurd hfuel (Nat.not_lt_zero _)
  | succ fuel ih =>
    have hpos := toNat_pos hperiod
    rw [rounds_succ]
    by_cases hdue : t.period ≤ t.counter
    · have hle := UInt32.le_iff_toNat_le.mp hdue
      have hq : t.counter.toNat / t.period.toNat = (t.counter.toNat - t.period.toNat) / t.period.toNat + 1 := by
        rw [← Nat.add_div_right _ hpos, Nat.sub_add_cancel hle]
      rw [if_pos (by simp [due, hrunning, hdue])]
      obtain ⟨hperiod', hlast, hmore⟩ := expire_untouched hrunning hleft
      by_cases hone : t.left = some 1
      · have hstopped : (t.expire []).due = false := by rw [due, hlast hone]; rfl
        rw [show untouched n = [] from rfl, rounds_of_not_due hstopped]
        refine ⟨?_, hperiod', ?_, fun h => absurd (h.symm.trans (hlast hone)) (by decide)⟩
        · rw [hone, hq]
          exact (Nat.min_eq_right (Nat.le_add_left 1 _)).symm
        · rw [hone, hq]
          exact iff_of_false (fun h => absurd (h.symm.trans (hlast hone)) (by decide)) fun h =>
            absurd (h 1 rfl) (Nat.not_lt.mpr (Nat.le_add_left 1 _))
      · obtain ⟨hrunning', hcounter, hleft'⟩ := hmore hone
        have hcounter' : (t.expire []).counter.toNat = t.counter.toNat - t.period.toNat := by
          rw [hcounter, UInt32.toNat_sub_of_le _ _ hdue]
        obtain ⟨hlength, hsame, hstill, hrest⟩ := @ih (t.expire []) hrunning' (hperiod' ▸ hperiod)
          (by rw [hleft']; cases h : t.left <;> simp_all; omega) (by omega) (n + 1)
        rw [hperiod', hcounter', hleft'] at hlength hstill hrest
        rw [hperiod'] at hsame
        generalize (t.counter.toNat - t.period.toNat) / t.period.toNat = q at *
        rw [List.getLastD_cons]
        refine ⟨?_, hsame, hstill.trans ?_, fun h => ⟨?_, ?_⟩⟩
        · rw [hq, List.length_cons]
          refine (congrArg (· + 1) hlength).trans ?_
          cases hl : t.left with
          | none => rfl
          | some b =>
            rw [hl] at hleft
            have : b ≠ 0 := fun h => hleft (congrArg some h)
            simp only [atMost, Option.map_some, Option.elim_some]
            omega
        · rw [hq]
          cases hl : t.left with
          | none => simp
          | some b =>
            simp only [Option.map_some, Option.mem_def, Option.some.injEq, forall_eq']
            omega
        · exact (hrest h).1.trans (Nat.mod_eq_sub_mod hle).symm
        · rw [hq]
          refine (hrest h).2.trans ?_
          rw [Option.map_map]
          congr 1
          funext b
          exact Nat.sub_right_comm b 1 q
    · rw [if_neg (by simp [due, hdue])]
      have hlt := UInt32.lt_iff_toNat_lt.mp (UInt32.not_le.mp hdue)
      refine ⟨?_, rfl, ?_, fun _ => ⟨(Nat.mod_eq_of_lt hlt).symm, ?_⟩⟩
      · rw [Nat.div_eq_of_lt hlt, List.length_nil]
        cases t.left <;> simp [atMost]
      · rw [Nat.div_eq_of_lt hlt]
        exact iff_of_true hrunning fun b hb => Nat.pos_of_ne_zero fun hzero => hleft (hzero ▸ hb)
      · rw [Nat.div_eq_of_lt hlt]
        cases h : t.left <;> simp [h]

theorem onTick_stopped (h : t.running = false) (script : ℕ → List Control) (elapsedTicks : UInt32) :
    t.tickRounds expire script elapsedTicks = [] ∧ t.onTick script elapsedTicks = t := by
  rw [onTick, tickRounds, h]
  exact ⟨rfl, rfl⟩

theorem onTick_untouched (hrunning : t.running = true) (hperiod : t.period ≠ 0) (hleft : t.left ≠ some 0)
    (elapsedTicks : UInt32) : Expires t (t.counter + elapsedTicks).toNat
      (t.tickRounds expire untouched elapsedTicks) (t.onTick untouched elapsedTicks) := by
  have hticks : ¬(!t.running || decide (t.period = 0)) = true := by simp [hrunning, hperiod]
  rw [onTick, tickRounds, if_neg hticks, if_neg hticks]
  obtain ⟨hlength, hsame, hstill, hrest⟩ :=
    rounds_untouched (t := t.accumulate elapsedTicks) hrunning hperiod hleft (Nat.lt_succ_self _) 0
  exact ⟨hlength, hsame, hstill, hrest⟩

theorem atMost_add {limit : Option ℕ} {m : ℕ} (h : ∀ b ∈ limit, m < b) (n : ℕ) :
    atMost limit m + atMost (limit.map (· - m)) n = atMost limit (m + n) := by
  cases limit with
  | none => rfl
  | some b =>
    have hb := h b rfl
    simp only [atMost, Option.map_some, Option.elim_some]
    omega

/-- The timer after some ticks, and how often it has expired -/
def ticked (t : TickTimer) (ticks : List UInt32) : TickTimer × ℕ :=
  ticks.foldl (fun s elapsedTicks => (s.1.onTick untouched elapsedTicks,
    s.2 + (s.1.tickRounds expire untouched elapsedTicks).length)) (t, 0)

def total (ticks : List UInt32) : ℕ := (ticks.map (·.toNat)).sum

/-- The expirations and the ticks of the current cycle are those that all ticks together give. -/
structure Accounts (limit : Option ℕ) (period : UInt32) (ticks : List UInt32) (s : TickTimer × ℕ) : Prop where
  expirations : s.2 = atMost limit (total ticks / period.toNat)
  cycle : s.1.running = true → s.1.elapsed.toNat = total ticks % period.toNat

/-- The counter of a running timer takes the ticks, or it has enough of them for all expirations
even after it has wrapped. -/
def TakesTicks (t : TickTimer) (elapsedTicks : UInt32) : Prop :=
  t.running = true → t.counter.toNat + elapsedTicks.toNat < 2 ^ 32 ∨
    ∃ b ∈ t.left, b ≤ (t.counter + elapsedTicks).toNat / t.period.toNat

/-- The expirations so far are those of all ticks, and the rest is in the timer. -/
structure Tracks (limit : Option ℕ) (period : UInt32) (ticks : List UInt32) (s : TickTimer × ℕ) : Prop where
  count : s.2 = atMost limit (total ticks / period.toNat)
  same : s.1.period = period
  running : s.1.running = true ↔ ∀ b ∈ limit, total ticks / period.toNat < b
  rest : s.1.running = true → s.1.counter.toNat = total ticks % period.toNat ∧
    s.1.left = limit.map (· - total ticks / period.toNat)

theorem Tracks.next {limit : Option ℕ} {period : UInt32} {ticks : List UInt32} {s : TickTimer × ℕ}
    (h : Tracks limit period ticks s) (hperiod : period ≠ 0) (e : UInt32) :
    (Accounts limit period (ticks ++ [e]) (s.1.onTick untouched e, s.2 + (s.1.tickRounds expire untouched e).length) ↔
      s.1.TakesTicks e) ∧
    (s.1.TakesTicks e →
      Tracks limit period (ticks ++ [e]) (s.1.onTick untouched e, s.2 + (s.1.tickRounds expire untouched e).length)) := by
  obtain ⟨t, count⟩ := s
  obtain ⟨hcount, rfl, hrunning, hrest⟩ := h
  have hpos := toNat_pos hperiod
  have htotal : total (ticks ++ [e]) = total ticks + e.toNat := by simp [total]
  dsimp only at hcount hrunning hrest hpos ⊢
  cases hrun : t.running with
  | false =>
    obtain ⟨hnone, hsame⟩ := onTick_stopped hrun untouched e
    rw [hnone, hsame]
    have htracks : Tracks limit t.period (ticks ++ [e]) (t, count + 0) := by
      rw [hrun] at hrunning
      have hmore : total ticks / t.period.toNat ≤ total (ticks ++ [e]) / t.period.toNat :=
        Nat.div_le_div_right (htotal ▸ Nat.le_add_right _ _)
      obtain _ | b := limit
      · simp at hrunning
      · have hb : b ≤ total ticks / t.period.toNat := by simpa using hrunning
        refine ⟨?_, rfl, ?_, fun h => absurd (hrun.symm.trans h) Bool.false_ne_true⟩
        · exact hcount.trans ((Nat.min_eq_right hb).trans (Nat.min_eq_right (hb.trans hmore)).symm)
        · simpa [hrun] using hb.trans hmore
    exact ⟨iff_of_true ⟨htracks.count, fun h => (htracks.rest h).1⟩ fun h => absurd (hrun.symm.trans h) Bool.false_ne_true,
      fun _ => htracks⟩
  | true =>
    obtain ⟨hcycle, hl⟩ := hrest hrun
    have hbelow := hrunning.mp hrun
    obtain ⟨hlength, hsame, hstill, hleft⟩ := onTick_untouched hrun hperiod
      (by rw [hl]; cases limit <;> simp_all; omega) e
    have hdiv : total (ticks ++ [e]) / t.period.toNat =
        total ticks / t.period.toNat + (t.counter.toNat + e.toNat) / t.period.toNat := by
      rw [htotal, hcycle, Nat.add_div hpos, Nat.add_div hpos, Nat.mod_mod, Nat.div_eq_of_lt (Nat.mod_lt _ hpos)]
      omega
    have hmod : total (ticks ++ [e]) % t.period.toNat = (t.counter.toNat + e.toNat) % t.period.toNat := by
      rw [htotal, hcycle, Nat.mod_add_mod]
    have hword := UInt32.toNat_add t.counter e
    by_cases hwrap : t.counter.toNat + e.toNat < 2 ^ 32
    · rw [Nat.mod_eq_of_lt hwrap] at hword
      rw [hword] at hlength hstill hleft
      have htracks : Tracks limit t.period (ticks ++ [e])
          (t.onTick untouched e, count + (t.tickRounds expire untouched e).length) := by
        refine ⟨?_, hsame, hstill.trans ?_, fun h => ⟨(hleft h).1.trans hmod.symm, (hleft h).2.trans ?_⟩⟩
        · dsimp only
          rw [hcount, hlength, hdiv, hl]
          exact atMost_add hbelow _
        · rw [hdiv, hl]
          cases limit with
          | none => simp
          | some b => simp [Nat.lt_sub_iff_add_lt']
        · rw [hdiv, hl, Option.map_map]
          exact congrArg (limit.map ·) (funext fun b => Nat.sub_sub b _ _)
      exact ⟨iff_of_true ⟨htracks.count, fun h => (htracks.rest h).1⟩ fun _ => Or.inl hwrap, fun _ => htracks⟩
    · have hlost : (t.counter + e).toNat / t.period.toNat + 1 ≤ (t.counter.toNat + e.toNat) / t.period.toNat := by
        rw [← Nat.add_div_right _ hpos]
        have := t.period.toNat_lt
        have := t.counter.toNat_lt
        have := e.toNat_lt
        exact Nat.div_le_div_right (by omega)
      have hcount' : count + (t.tickRounds expire untouched e).length =
          atMost limit (total ticks / t.period.toNat + (t.counter + e).toNat / t.period.toNat) := by
        rw [hcount, hlength, hl]
        exact atMost_add hbelow _
      by_cases hdone : ∃ b ∈ t.left, b ≤ (t.counter + e).toNat / t.period.toNat
      · obtain ⟨b, hb, hle⟩ := hdone
        obtain ⟨limit, rfl, rfl⟩ := Option.map_eq_some_iff.mp (hl.symm.trans hb)
        have hstopped : ¬(t.onTick untouched e).running = true := fun h =>
          absurd (hstill.mp h _ hb) (Nat.not_lt.mpr hle)
        have htracks : Tracks (some limit) t.period (ticks ++ [e])
            (t.onTick untouched e, count + (t.tickRounds expire untouched e).length) := by
          refine ⟨hcount'.trans ?_, hsame, iff_of_false hstopped fun h => ?_, fun h => absurd h hstopped⟩
          · rw [hdiv]
            simp only [atMost, Option.elim_some]
            omega
          · have := h limit rfl
            omega
        exact ⟨iff_of_true ⟨htracks.count, fun h => absurd h hstopped⟩ fun _ => Or.inr ⟨_, hb, hle⟩, fun _ => htracks⟩
      · have htakes : ¬t.TakesTicks e := fun h => (h hrun).elim hwrap hdone
        refine ⟨iff_of_false (fun h => ?_) htakes, fun h => absurd h htakes⟩
        have hsum := hcount'.symm.trans h.expirations
        rw [hdiv] at hsum
        rw [hl] at hdone
        cases limit with
        | none =>
          simp only [atMost, Option.elim_none] at hsum
          omega
        | some b =>
          have := hbelow b rfl
          simp only [atMost, Option.elim_some, Option.map_some, Option.mem_def, Option.some.injEq, exists_eq_left'] at *
          omega

/-- After `start`, the timer accounts for all ticks exactly as long as its counter does not wrap. -/
theorem accounts_iff {started : TickTimer} {mode : TickTimerMode} {repeats : UInt32}
    (h : t.start mode repeats = (.ok, started)) (ticks : List UInt32) :
    AtEach ticks (fun before e =>
      Accounts (limitOf mode repeats) t.period (before ++ [e]) (started.ticked (before ++ [e]))) ↔
    AtEach ticks (fun before e => (started.ticked before).1.TakesTicks e) := by
  have hsnoc : ∀ before e, started.ticked (before ++ [e]) = ((started.ticked before).1.onTick untouched e,
      (started.ticked before).2 + ((started.ticked before).1.tickRounds expire untouched e).length) := fun before e => by
    rw [ticked, List.foldl_append]
    rfl
  obtain ⟨hperiod, hstart⟩ : t.period ≠ 0 ∧ Tracks (limitOf mode repeats) t.period [] (started.ticked []) := by
    rw [start] at h
    by_cases hzero : t.period = 0
    · rw [if_pos hzero] at h
      cases h
    · rw [if_neg hzero] at h
      by_cases hrepeat : mode = .nRepeat ∧ repeats = 0
      · rw [if_pos hrepeat] at h
        cases h
      · rw [if_neg hrepeat] at h
        cases h
        have hpositive : ∀ b ∈ limitOf mode repeats, 0 < b := by
          cases mode <;> simp_all [limitOf, Nat.pos_iff_ne_zero, ← UInt32.toNat_inj]
        have hnone : total [] / t.period.toNat = 0 := Nat.zero_div _
        refine ⟨hzero, ?_, rfl, ?_, fun _ => ⟨(Nat.zero_mod _).symm, ?_⟩⟩
        · rw [hnone]
          cases limitOf mode repeats <;> simp [ticked, atMost]
        · rw [hnone]
          exact iff_of_true rfl hpositive
        · rw [hnone]
          cases mode <;> rfl
  refine @AtEach.iff_of_invariant _ _ _ _ (fun before => Tracks _ _ before (started.ticked before)) hstart
    (fun before e _ hinv htakes => ?_) fun before e _ hinv => ?_
  · rw [hsnoc]
    exact (hinv.next hperiod e).2 htakes
  · rw [hsnoc]
    exact (hinv.next hperiod e).1

/-- A period of 5, and ticks that pass it twice -/
theorem accounts_iff_five : AtEach [3, 8] (fun before e => Accounts none 5 (before ++ [e])
    (ticked ⟨5, 0, 0, .periodic, true⟩ (before ++ [e]))) ↔
    AtEach [3, 8] (fun before e => (ticked ⟨5, 0, 0, .periodic, true⟩ before).1.TakesTicks e) :=
  @accounts_iff { period := 5 } _ .periodic 0 rfl [3, 8]

/-- Five thousand million ticks, and no expiration of a period of three thousand million -/
theorem expiration_lost : ¬Accounts none 3000000000 [2000000000, 3000000000]
    (ticked ⟨3000000000, 0, 0, .periodic, true⟩ [2000000000, 3000000000]) := by
  intro h
  exact absurd h.expirations (by decide)

/-! ## The calls of callbacks -/

/-- What calls leave behind: the last `start` that succeeds, whether `stop` came after it, and what
was said last about running, clearing the counter and the period. -/
structure Wish where
  started : Option (TickTimerMode × UInt32) := none
  stopped : Bool := false
  running : Option Bool := none
  cleared : Bool := false
  period : Option UInt32 := none

def Wish.add (w : Wish) : Control → Wish
  | .start runMode repeatCount =>
    if runMode = .nRepeat ∧ repeatCount = 0 then w
    else { w with started := some (runMode, repeatCount), stopped := false, running := some true, cleared := true }
  | .stop => { w with stopped := true, running := some false, cleared := true }
  | .pause => { w with running := some false }
  | .resume => { w with running := some true }
  | .reset => { w with cleared := true }
  | .setPeriod periodTicks => if periodTicks = 0 then w else { w with period := some periodTicks }

def wishOf (calls : List Control) : Wish := calls.foldl Wish.add {}

def Wish.fulfil (w : Wish) (t : TickTimer) : TickTimer where
  period := w.period.getD t.period
  counter := if w.cleared then 0 else t.counter
  repeatRemaining := if w.stopped then 0
    else (w.started.map fun start => if start.1 = .nRepeat then start.2 else 0).getD t.repeatRemaining
  mode := (w.started.map Prod.fst).getD t.mode
  running := w.running.getD t.running

/-- The `switch` behind the callbacks does not undo what they wish. -/
def Spares (t : TickTimer) (w : Wish) : Prop :=
  match (w.started.map Prod.fst).getD t.mode with
  | .periodic => True
  | .oneShot => w.running ≠ some true
  | .nRepeat =>
    if w.started.isSome || w.stopped then w.stopped = true ∧ w.running ≠ some true
    else t.repeatRemaining.toNat ≤ 1 → w.running ≠ some true

/-- The wishes of all rounds are spared. -/
def SparesAll (script : ℕ → List Control) : ℕ → ℕ → TickTimer → Prop
  | 0, _, _ => True
  | fuel + 1, n, t => t.due = true →
    t.Spares (wishOf (script n)) ∧ SparesAll script fuel (n + 1) (t.expire (script n))

theorem Wish.control_fulfil {w : Wish} (hperiod : (w.fulfil t).period ≠ 0) (call : Control) :
    (w.fulfil t).control call = (w.add call).fulfil t ∧ ((w.add call).fulfil t).period ≠ 0 := by
  cases call with
  | start runMode repeatCount =>
    rw [control, start, if_neg hperiod, Wish.add]
    by_cases hrepeat : runMode = .nRepeat ∧ repeatCount = 0
    · rw [if_pos hrepeat, if_pos hrepeat]
      exact ⟨rfl, hperiod⟩
    · rw [if_neg hrepeat, if_neg hrepeat]
      exact ⟨rfl, hperiod⟩
  | resume =>
    rw [control, resume, if_neg hperiod]
    exact ⟨rfl, hperiod⟩
  | setPeriod periodTicks =>
    rw [control, setPeriod, Wish.add]
    by_cases hzero : periodTicks = 0
    · rw [if_pos hzero, if_pos hzero]
      exact ⟨rfl, hperiod⟩
    · rw [if_neg hzero, if_neg hzero]
      exact ⟨rfl, hzero⟩
  | stop | pause | reset => exact ⟨rfl, hperiod⟩

theorem invoke_eq (hperiod : t.period ≠ 0) (calls : List Control) :
    t.invoke calls = (wishOf calls).fulfil t ∧ (t.invoke calls).period ≠ 0 := by
  suffices h : t.invoke calls = (wishOf calls).fulfil t ∧ ((wishOf calls).fulfil t).period ≠ 0 from
    ⟨h.1, h.1 ▸ h.2⟩
  induction calls using List.reverseRecOn with
  | nil => exact ⟨rfl, hperiod⟩
  | append_singleton calls call ih =>
    rw [invoke, List.foldl_append, wishOf, List.foldl_append, List.foldl_cons, List.foldl_nil, List.foldl_cons,
      List.foldl_nil, ← wishOf, ← invoke, ih.1]
    exact Wish.control_fulfil ih.2 call

/-- A timer that was started or stopped has been told all there is to tell. -/
structure Wish.Consistent (w : Wish) : Prop where
  told : (w.started.isSome || w.stopped) = true → w.cleared = true ∧ w.running.isSome = true
  repeats : ∀ repeatCount, w.started = some (.nRepeat, repeatCount) → repeatCount ≠ 0

theorem wishOf_consistent (calls : List Control) : (wishOf calls).Consistent := by
  induction calls using List.reverseRecOn with
  | nil => exact ⟨fun h => absurd h Bool.false_ne_true, fun _ h => absurd h.symm (Option.some_ne_none _)⟩
  | append_singleton calls call ih =>
    obtain ⟨htold, hrepeats⟩ := ih
    rw [wishOf, List.foldl_append, List.foldl_cons, List.foldl_nil, ← wishOf]
    cases call with
    | start runMode repeatCount =>
      rw [Wish.add]
      split_ifs with hrepeat
      · exact ⟨htold, hrepeats⟩
      · refine ⟨fun _ => ⟨rfl, rfl⟩, fun count h hzero => hrepeat ?_⟩
        cases h
        exact ⟨rfl, hzero⟩
    | stop => exact ⟨fun _ => ⟨rfl, rfl⟩, hrepeats⟩
    | pause | resume => exact ⟨fun h => ⟨(htold h).1, rfl⟩, hrepeats⟩
    | reset => exact ⟨fun h => ⟨rfl, (htold h).2⟩, hrepeats⟩
    | setPeriod periodTicks =>
      rw [Wish.add]
      split_ifs
      · exact ⟨htold, hrepeats⟩
      · exact ⟨htold, hrepeats⟩

theorem settle_same (t : TickTimer) : t.settle.period = t.period ∧ t.settle.mode = t.mode := by
  rw [settle]
  split
  · exact ⟨rfl, rfl⟩
  · dsimp only
    split_ifs <;> exact ⟨rfl, rfl⟩
  · exact ⟨rfl, rfl⟩

theorem settle_fulfil_iff {w : Wish} (hw : w.Consistent) : (w.fulfil t).settle = w.fulfil t.settle ↔ t.Spares w := by
  obtain ⟨htold, hrepeats⟩ := hw
  obtain ⟨hperiod, hmode'⟩ := settle_same t
  obtain ⟨started, stopped, running, cleared, period⟩ := w
  obtain _ | ⟨mode, repeats⟩ := started
  · cases stopped with
    | false =>
      cases hmode : t.mode with
      | oneShot => cases running <;> simp [Wish.fulfil, settle, Spares, hmode]
      | periodic => simp [Wish.fulfil, settle, Spares, hmode]
      | nRepeat =>
        have hleft : (if 0 < t.repeatRemaining then t.repeatRemaining - 1 else t.repeatRemaining) = 0 ↔
            t.repeatRemaining.toNat ≤ 1 := by
          split_ifs with hpos
          · rw [sub_one_eq_zero hpos]
            have : 0 < t.repeatRemaining.toNat := UInt32.lt_iff_toNat_lt.mp hpos
            omega
          · have : t.repeatRemaining.toNat = 0 := Nat.eq_zero_of_not_pos fun h => hpos (UInt32.lt_iff_toNat_lt.mpr h)
            rw [← UInt32.toNat_inj, this]
            exact iff_of_true rfl (Nat.zero_le 1)
        simp only [Wish.fulfil, settle, Spares, hmode, Option.map_none, Option.getD_none, Bool.false_eq_true,
          if_false, gt_iff_lt, Option.isSome_none, Bool.or_self, ← hleft]
        by_cases hlast : (if 0 < t.repeatRemaining then t.repeatRemaining - 1 else t.repeatRemaining) = 0
        · cases running <;> simp [hlast]
        · simp [hlast]
    | true =>
      obtain ⟨rfl, hrunning⟩ := htold rfl
      obtain ⟨running, rfl⟩ := Option.isSome_iff_exists.mp hrunning
      simp only [Wish.fulfil, hperiod, hmode', Spares]
      cases hmode : t.mode <;> simp [settle, hmode]
  · obtain ⟨rfl, hrunning⟩ := htold rfl
    obtain ⟨running, rfl⟩ := Option.isSome_iff_exists.mp hrunning
    simp only [Wish.fulfil, hperiod, hmode', Spares]
    cases stopped with
    | true => cases mode <;> simp [settle]
    | false =>
      cases mode with
      | oneShot | periodic => simp [settle]
      | nRepeat =>
        have hpos : repeats > 0 := UInt32.pos_iff_ne_zero.mpr (hrepeats repeats rfl)
        refine iff_of_false (fun h => ?_) fun h => absurd h.1 Bool.false_ne_true
        have hsub := toNat_sub_one hpos
        have hpos' : 0 < repeats.toNat := UInt32.lt_iff_toNat_lt.mp hpos
        have hcount := (settle_repeats rfl hpos).symm.trans (congrArg TickTimer.repeatRemaining h)
        rw [show repeats - 1 = repeats from hcount] at hsub
        omega

/-- The documented effects are those of the code exactly when the `switch` spares the wishes. -/
theorem expire_eq_iff (hperiod : t.period ≠ 0) (calls : List Control) :
    t.expire calls = t.expireDocumented calls ↔ t.Spares (wishOf calls) := by
  have hsettle : t.consume.settle.period ≠ 0 := (settle_same t.consume).1 ▸ hperiod
  rw [expire, expireDocumented, (invoke_eq (t := t.consume) hperiod calls).1, (invoke_eq hsettle calls).1]
  exact settle_fulfil_iff (wishOf_consistent calls)

theorem expire_period (hperiod : t.period ≠ 0) (calls : List Control) : (t.expire calls).period ≠ 0 := by
  rw [expire, (settle_same _).1]
  exact (invoke_eq (t := t.consume) hperiod calls).2

theorem expire_counter (hperiod : t.period ≠ 0) (calls : List Control) :
    (t.expire calls).counter = 0 ∨ (t.expire calls).counter = t.counter - t.period := by
  rw [expire, (invoke_eq (t := t.consume) hperiod calls).1]
  have hfulfil : ((wishOf calls).fulfil t.consume).counter = 0 ∨
      ((wishOf calls).fulfil t.consume).counter = t.counter - t.period := by
    rw [Wish.fulfil]
    cases (wishOf calls).cleared
    · exact Or.inr rfl
    · exact Or.inl rfl
  rw [settle]
  split
  · exact Or.inl rfl
  · dsimp only
    split_ifs <;> first | exact Or.inl rfl | exact hfulfil
  · exact hfulfil

/-- Nothing is due behind the loop: its rounds are all there are. -/
theorem rounds_end (script : ℕ → List Control) {fuel : ℕ} (n : ℕ) (hperiod : t.period ≠ 0)
    (hfuel : t.counter.toNat < fuel) : ((rounds expire script fuel n t).getLastD t).due = false := by
  induction fuel generalizing t n with
  | zero => exact absurd hfuel (Nat.not_lt_zero _)
  | succ fuel ih =>
    rw [rounds_succ]
    by_cases hdue : t.due = true
    · have hle : t.period ≤ t.counter := by simp_all [due]
      have hpos := toNat_pos hperiod
      have hle' := UInt32.le_iff_toNat_le.mp hle
      rw [if_pos hdue, List.getLastD_cons]
      refine ih (n + 1) (expire_period hperiod _) ?_
      obtain h | h := expire_counter hperiod (script n)
      · rw [h]
        exact Nat.lt_of_lt_of_le (Nat.lt_of_lt_of_le hpos hle') (Nat.le_of_lt_succ hfuel)
      · rw [h, UInt32.toNat_sub_of_le _ _ hle]
        omega
    · rw [if_neg hdue]
      exact Bool.eq_false_iff.mpr hdue

theorem onTick_not_due (script : ℕ → List Control) (elapsedTicks : UInt32) (hperiod : t.period ≠ 0) :
    (t.onTick script elapsedTicks).due = false := by
  rw [onTick, tickRounds]
  by_cases hrunning : t.running = true
  · have hticks : ¬(!t.running || decide (t.period = 0)) = true := by simp [hrunning, hperiod]
    rw [if_neg hticks, if_neg hticks]
    exact rounds_end (t := t.accumulate elapsedTicks) script 0 hperiod (Nat.lt_succ_self _)
  · have hticks : (!t.running || decide (t.period = 0)) = true := by simp [hrunning]
    rw [if_pos hticks, if_pos hticks, List.getLastD_nil, due, Bool.eq_false_iff.mpr hrunning, Bool.false_and]

/-- The callback starts the timer again. -/
theorem onTick_not_due_restarted :
    ((⟨5, 14, 0, .oneShot, true⟩ : TickTimer).onTick (fun _ => [.start .periodic 0]) 1).due = false :=
  onTick_not_due _ 1 (by decide)

theorem rounds_eq_iff (script : ℕ → List Control) (fuel n : ℕ) (hperiod : t.period ≠ 0) :
    rounds expire script fuel n t = rounds expireDocumented script fuel n t ↔ SparesAll script fuel n t := by
  induction fuel generalizing t n with
  | zero => exact iff_of_true rfl trivial
  | succ fuel ih =>
    rw [rounds_succ, rounds_succ, SparesAll]
    by_cases hdue : t.due = true
    · rw [if_pos hdue, if_pos hdue, List.cons.injEq, expire_eq_iff hperiod, forall_prop_of_true hdue]
      refine and_congr_right fun hspares => ?_
      rw [← (expire_eq_iff hperiod _).mpr hspares]
      exact ih (n + 1) (expire_period hperiod _)
    · rw [if_neg hdue, if_neg hdue]
      exact iff_of_true rfl fun h => absurd h hdue

/-- The calls of the callbacks of an `on_tick` take effect as documented after each expiration,
exactly when each time the `switch` spares what they wish. -/
theorem effects_documented_iff (t : TickTimer) (script : ℕ → List Control) (elapsedTicks : UInt32) :
    t.tickRounds expire script elapsedTicks = t.tickRounds expireDocumented script elapsedTicks ↔
      (t.period ≠ 0 → t.running = true →
        (t.accumulate elapsedTicks).SparesAll script ((t.accumulate elapsedTicks).counter.toNat + 1) 0) := by
  rw [tickRounds, tickRounds]
  by_cases hticks : t.period ≠ 0 ∧ t.running = true
  · rw [if_neg (by simp [hticks]), if_neg (by simp [hticks]), rounds_eq_iff (t := t.accumulate elapsedTicks) script _ 0 hticks.1]
    exact ⟨fun h _ _ => h, fun h => h hticks.1 hticks.2⟩
  · rw [if_pos (by by_contra h; simp_all), if_pos (by by_contra h; simp_all)]
    exact iff_of_true rfl fun hperiod hrunning => absurd ⟨hperiod, hrunning⟩ hticks

/-- A one-shot timer that its callback starts again, and one started for three more repeats -/
theorem restart_lost : tickRounds ⟨5, 4, 0, .oneShot, true⟩ expire (fun _ => [.start .oneShot 0]) 1 = [⟨5, 0, 0, .oneShot, false⟩] ∧
    tickRounds ⟨5, 4, 0, .oneShot, true⟩ expireDocumented (fun _ => [.start .oneShot 0]) 1 = [⟨5, 0, 0, .oneShot, true⟩] ∧
    tickRounds ⟨5, 4, 0, .periodic, true⟩ expire (fun _ => [.start .nRepeat 3]) 1 = [⟨5, 0, 2, .nRepeat, true⟩] ∧
    tickRounds ⟨5, 4, 0, .periodic, true⟩ expireDocumented (fun _ => [.start .nRepeat 3]) 1 = [⟨5, 0, 3, .nRepeat, true⟩] := by
  decide

end TickTimer
end Castle.Events

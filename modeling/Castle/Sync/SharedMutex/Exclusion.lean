import Castle.Sync.SharedMutex.State

/-!
# Exclusion and writer preference

`act_effect` says once what a step does to the two words and to the locks of its thread.
-/

namespace Castle.Sync.SharedMutex

variable {n : ℕ} {limit : ReaderLimit}

theorem toNat_lt_of_no_writer {state : UInt32} (h : state &&& writerBit = 0) :
    state.toNat < 2 ^ 31 := by
  by_contra hge
  have hset : state.toNat.testBit 31 = true :=
    Nat.testBit_of_two_pow_le_and_two_pow_add_one_gt (by omega) state.toNat_lt
  have hand : state.toNat &&& 2 ^ 31 = 0 := by
    simpa [writerBit] using congrArg UInt32.toNat h
  have hclear := congrArg (Nat.testBit · 31) hand
  simp only [Nat.testBit_and, hset, Nat.testBit_two_pow_self] at hclear
  exact absurd hclear (by decide)

theorem and_readerMask {state : UInt32} (h : state &&& writerBit = 0) :
    state &&& readerMask = state := by
  have hlt := toNat_lt_of_no_writer h
  apply UInt32.toNat.inj
  rw [UInt32.toNat_and, show readerMask.toNat = 2 ^ 31 - 1 from rfl, Nat.and_two_pow_sub_one_eq_mod,
    Nat.mod_eq_of_lt hlt]

/-- What a thread relies on in the middle of a function. -/
def Thread.Ok (limit : ReaderLimit) (t : Thread) : Prop :=
  match t.point with
  | .readSwap _ state => state.toNat < limit.maxReaders.toNat
  | .unlockRead => 0 < t.reads
  | .unlockWrite => 0 < t.writes
  | _ => True

/-- What one step does to the words and to what its thread holds. -/
inductive Effect (limit : ReaderLimit) (m : SharedMutex) (t : Thread) :
    SharedMutex → Thread → Prop
  | quiet {t' : Thread} (reads : t'.reads = t.reads) (writes : t'.writes = t.writes)
      (announces : t'.announces = t.announces) : Effect limit m t m t'
  | readLock {t' : Thread} (room : m.state.toNat < limit.maxReaders.toNat)
      (reads : t'.reads = t.reads + 1) (writes : t'.writes = t.writes)
      (announces : t'.announces = t.announces) :
      Effect limit m t { m with state := m.state + 1 } t'
  | readUnlock {t' : Thread} (reads : t'.reads + 1 = t.reads) (writes : t'.writes = t.writes)
      (announces : t'.announces = t.announces) :
      Effect limit m t { m with state := m.state - 1 } t'
  | announce {t' : Thread} (reads : t'.reads = t.reads) (writes : t'.writes = t.writes)
      (announces : t'.announces = t.announces + 1) :
      Effect limit m t { m with waitingWriters := m.waitingWriters + 1 } t'
  | withdraw {t' : Thread} (reads : t'.reads = t.reads) (writes : t'.writes = t.writes)
      (announces : t'.announces + 1 = t.announces) :
      Effect limit m t { m with waitingWriters := m.waitingWriters - 1 } t'
  | writeLock {t' : Thread} (free : m.state = 0) (reads : t'.reads = t.reads)
      (writes : t'.writes = t.writes + 1) (announces : t'.announces = t.announces) :
      Effect limit m t { m with state := writerBit } t'
  | writeUnlock {t' : Thread} (reads : t'.reads = t.reads) (writes : t'.writes + 1 = t.writes)
      (announces : t'.announces = t.announces) : Effect limit m t { m with state := 0 } t'

section Points

variable {m : SharedMutex} {t : Thread}

theorem Effect.goto {point : Point} (h : (t.goto point).announces = t.announces) :
    Effect limit m t m (t.goto point) :=
  .quiet rfl rfl h

theorem turnAway_effect (blocking : Bool) (h : t.announces = 0) :
    Effect limit m t m (t.turnAway blocking).1 ∧ (t.turnAway blocking).1.Ok limit := by
  unfold Thread.turnAway
  split
  · exact ⟨.goto h.symm, trivial⟩
  · exact ⟨.goto h.symm, trivial⟩

theorem goto_entry_ok {operation : Operation} (h : t.mayCall operation = true) :
    (t.goto operation.entry).Ok limit := by
  cases operation with
  | unlockRead | unlockWrite =>
    simp only [Thread.mayCall, decide_eq_true_eq] at h
    exact h
  | lockRead | tryLockRead | lockWrite | tryLockWrite => trivial

theorem act_effect (h : t.Ok limit) (operation : Operation) :
    Effect limit m t (t.act limit m operation).1 (t.act limit m operation).2.1 ∧
      (t.act limit m operation).2.1.Ok limit := by
  obtain ⟨point, reads, writes⟩ := t
  unfold Thread.act
  cases point with
  | idle =>
    dsimp only
    split
    next hcall =>
      refine ⟨.goto ?_, goto_entry_ok hcall⟩
      cases operation <;> rfl
    · exact ⟨.quiet rfl rfl rfl, trivial⟩
  | readWaiting blocking =>
    dsimp only
    split
    · exact turnAway_effect blocking rfl
    · exact ⟨.goto rfl, trivial⟩
  | readState blocking =>
    dsimp only
    split
    · exact turnAway_effect blocking rfl
    next hwriter =>
    split
    · exact turnAway_effect blocking rfl
    next hroom =>
      rw [and_readerMask (not_not.mp hwriter)] at hroom
      exact ⟨.goto rfl, UInt32.lt_iff_toNat_lt.mp (UInt32.not_le.mp hroom)⟩
  | readSwap blocking state =>
    dsimp only
    split
    next heq =>
      rw [← heq] at h ⊢
      exact ⟨.readLock h rfl rfl rfl, trivial⟩
    · exact turnAway_effect blocking rfl
  | unlockRead => exact ⟨.readUnlock (Nat.sub_add_cancel h) rfl rfl, trivial⟩
  | announce blocking =>
    refine ⟨.announce rfl rfl ?_, ?_⟩
    · cases blocking <;> rfl
    · cases blocking <;> trivial
  | writeState =>
    dsimp only
    split
    · exact ⟨.quiet rfl rfl rfl, trivial⟩
    · exact ⟨.goto rfl, trivial⟩
  | writeSwap blocking =>
    dsimp only
    split
    next hfree => exact ⟨.writeLock hfree rfl rfl rfl, trivial⟩
    split
    · exact ⟨.goto rfl, trivial⟩
    · exact ⟨.goto rfl, trivial⟩
  | withdraw acquired => exact ⟨.withdraw rfl rfl rfl, trivial⟩
  | unlockWrite => exact ⟨.writeUnlock rfl (Nat.sub_add_cancel h) rfl, trivial⟩

end Points

/-- The word `state_` encodes `readers` readers and `writers` writers. -/
def Encodes (limit : ReaderLimit) (m : SharedMutex) (readers writers : ℕ) : Prop :=
  (writers = 0 ∧ m.state.toNat = readers ∧ readers ≤ limit.maxReaders.toNat) ∨
    (writers = 1 ∧ readers = 0 ∧ m.state = writerBit)

theorem maxReaders_le (limit : ReaderLimit) : limit.maxReaders.toNat ≤ 31 :=
  UInt32.le_iff_toNat_le.mp limit.maxReaders_le

section Effects

variable {m m' : SharedMutex} {t t' : Thread}

theorem Effect.encodes (he : Effect limit m t m' t') {readers writers readers' writers' : ℕ}
    (hr : readers' + t.reads = readers + t'.reads) (hw : writers' + t.writes = writers + t'.writes)
    (hrle : t.reads ≤ readers) (hwle : t.writes ≤ writers) (h : Encodes limit m readers writers) :
    Encodes limit m' readers' writers' := by
  have hmax := maxReaders_le limit
  have hbit : writerBit.toNat = 2 ^ 31 := rfl
  have hone : (1 : UInt32).toNat = 1 := rfl
  unfold Encodes at h ⊢
  cases he with
  | quiet reads writes announces
  | announce reads writes announces
  | withdraw reads writes announces =>
    obtain rfl : readers' = readers := by omega
    obtain rfl : writers' = writers := by omega
    exact h
  | readLock room reads writes announces =>
    obtain ⟨hzero, hstate, hle⟩ | ⟨-, -, hstate⟩ := h
    · left
      refine ⟨by omega, ?_, by omega⟩
      rw [UInt32.toNat_add, hone, Nat.mod_eq_of_lt (by omega)]
      omega
    · -- the writer bit leaves no room
      rw [hstate] at room
      omega
  | readUnlock reads writes announces =>
    obtain ⟨hzero, hstate, hle⟩ | ⟨-, hnone, -⟩ := h
    · left
      have hpos : (1 : UInt32) ≤ m.state := by
        rw [UInt32.le_iff_toNat_le, hone]
        omega
      refine ⟨by omega, ?_, by omega⟩
      rw [UInt32.toNat_sub_of_le _ _ hpos, hone]
      omega
    · omega
  | writeLock free reads writes announces =>
    have hfree : m.state.toNat = 0 := congrArg UInt32.toNat free
    obtain ⟨hzero, hstate, hle⟩ | ⟨-, -, hstate⟩ := h
    · exact .inr ⟨by omega, by omega, rfl⟩
    · rw [hstate] at hfree
      omega
  | writeUnlock reads writes announces =>
    obtain ⟨hzero, -, -⟩ | ⟨hone, hnone, -⟩ := h
    · -- nobody else can unlock
      omega
    · refine .inl ⟨by omega, ?_, by omega⟩
      have hreaders : readers' = 0 := by omega
      rw [hreaders]
      rfl

theorem Effect.waiting (he : Effect limit m t m' t') {announced announced' : ℕ}
    (ha : announced' + t.announces = announced + t'.announces)
    (h : m.waitingWriters = UInt32.ofNat announced) :
    m'.waitingWriters = UInt32.ofNat announced' := by
  cases he with
  | quiet reads writes announces
  | readLock room reads writes announces
  | readUnlock reads writes announces
  | writeLock free reads writes announces
  | writeUnlock reads writes announces =>
    obtain rfl : announced' = announced := by omega
    exact h
  | announce reads writes announces =>
    obtain rfl : announced' = announced + 1 := by omega
    simp [h, UInt32.ofNat_add]
  | withdraw reads writes announces =>
    obtain rfl : announced = announced' + 1 := by omega
    simp [h, UInt32.ofNat_add]

end Effects

/-- The words encode the holders and the announced writers. -/
structure Good (limit : ReaderLimit) (s : System n) : Prop where
  threads : ∀ i, (s.thread i).Ok limit
  holders : Encodes limit s.memory s.readers s.writers
  waiting : s.memory.waitingWriters = UInt32.ofNat s.announced

theorem good_init : Good limit (System.init n) where
  threads _ := trivial
  holders := by simp [Encodes, System.writers, System.readers, System.init, Threads.total]
  waiting := by simp [System.announced, System.init, Threads.total, Thread.announces]

variable {s : System n}

theorem Good.next (h : Good limit s) (i : Fin n) (operation : Operation) :
    Good limit (s.next (Thread.act limit) i operation) := by
  obtain ⟨heffect, hok⟩ := act_effect (m := s.memory) (h.threads i) operation
  have hcount (f : Thread → ℕ) := s.total_next f (Thread.act limit) i operation
  simp only [Threads.next_thread_self] at hcount
  refine ⟨fun j => ?_, ?_, ?_⟩
  · by_cases hj : j = i
    · rw [hj, Threads.next_thread_self]
      exact hok
    · rw [Threads.next_thread_ne _ hj]
      exact h.threads j
  · exact heffect.encodes (hcount Thread.reads) (hcount Thread.writes) (s.le_total _ i)
      (s.le_total _ i) h.holders
  · exact heffect.waiting (hcount Thread.announces) h.waiting

theorem good_after (limit : ReaderLimit) (schedule : List (Fin n × Operation)) :
    Good limit ((System.init n).after (Thread.act limit) schedule) :=
  Threads.after_invariant _ good_init (fun _ i operation h => h.next i operation) schedule

/-- The reader has found no announced writer in its current turn. -/
def Point.admitted : Point → Bool
  | .readState _ | .readSwap .. => true
  | _ => false

section Points

variable {m : SharedMutex} {t : Thread}

theorem Thread.AwaitsWrite.act (h : t.AwaitsWrite) (operation : Operation)
    (he : (t.act limit m operation).2.2 ≠ .writeLocked) :
    (t.act limit m operation).2.1.AwaitsWrite := by
  obtain ⟨point, reads, writes⟩ := t
  unfold Thread.act at he ⊢
  obtain rfl | rfl := h
  · dsimp only
    split
    · exact .inl rfl
    · exact .inr rfl
  · -- at the compare-and-swap, which fails
    dsimp only at he ⊢
    split at he
    · exact absurd rfl he
    next hstate =>
      rw [if_neg hstate]
      exact .inl rfl

theorem turnAway_not_admitted (t : Thread) (blocking : Bool) :
    (t.turnAway blocking).1.point.admitted = false := by
  unfold Thread.turnAway
  split
  · rfl
  · rfl

theorem act_not_admitted (hm : m.waitingWriters ≠ 0) (h : t.point.admitted = false)
    (operation : Operation) : (t.act limit m operation).2.1.point.admitted = false := by
  obtain ⟨point, reads, writes⟩ := t
  unfold Thread.act
  cases point with
  | idle =>
    dsimp only
    split
    · cases operation <;> rfl
    · rfl
  | readWaiting blocking =>
    dsimp only
    rw [if_pos hm]
    exact turnAway_not_admitted _ blocking
  | readState blocking | readSwap blocking state => cases h
  | announce blocking => cases blocking <;> rfl
  | writeState =>
    dsimp only
    split
    · rfl
    · rfl
  | writeSwap blocking =>
    dsimp only
    split
    · rfl
    split
    · rfl
    · rfl
  | unlockRead | withdraw acquired | unlockWrite => rfl

theorem act_event (limit : ReaderLimit) (m : SharedMutex) (t : Thread) (operation : Operation) :
    match (t.act limit m operation).2.2 with
    | .readLocked => t.point.admitted = true
    | .announced true => (t.act limit m operation).2.1.AwaitsWrite
    | .called _ => (t.act limit m operation).2.1.point.admitted = false
    | _ => True := by
  obtain ⟨point, reads, writes⟩ := t
  unfold Thread.act
  cases point with
  | idle =>
    dsimp only
    split_ifs
    · cases operation <;> rfl
    · trivial
  | readWaiting blocking =>
    dsimp only
    split_ifs
    · cases blocking <;> trivial
    · trivial
  | readState blocking =>
    dsimp only
    split_ifs
    · cases blocking <;> trivial
    · cases blocking <;> trivial
    · trivial
  | readSwap blocking state =>
    dsimp only
    split_ifs
    · rfl
    · cases blocking <;> trivial
  | announce blocking =>
    cases blocking with
    | false => trivial
    | true => exact .inl rfl
  | writeState =>
    dsimp only
    split_ifs
    · trivial
    · trivial
  | writeSwap blocking =>
    dsimp only
    split_ifs
    · trivial
    · trivial
    · trivial
  | unlockRead | withdraw acquired | unlockWrite => trivial

end Points

theorem awaitsWrite_of_announced {i : Fin n} {operation : Operation}
    (h : s.eventOf (Thread.act limit) i operation = .announced true) :
    ((s.next (Thread.act limit) i operation).thread i).AwaitsWrite := by
  have he := act_event limit s.memory (s.thread i) operation
  unfold Threads.eventOf at h
  rw [h] at he
  rw [Threads.next_thread_self]
  exact he

theorem not_admitted_of_called {i : Fin n} {operation called : Operation}
    (h : s.eventOf (Thread.act limit) i operation = .called called) :
    ((s.next (Thread.act limit) i operation).thread i).point.admitted = false := by
  have he := act_event limit s.memory (s.thread i) operation
  unfold Threads.eventOf at h
  rw [h] at he
  rw [Threads.next_thread_self]
  exact he

theorem admitted_of_readLocked {i : Fin n} {operation : Operation}
    (h : s.eventOf (Thread.act limit) i operation = .readLocked) :
    (s.thread i).point.admitted = true := by
  have he := act_event limit s.memory (s.thread i) operation
  unfold Threads.eventOf at h
  rw [h] at he
  exact he

theorem Thread.AwaitsWrite.announces_eq {t : Thread} (h : t.AwaitsWrite) : t.announces = 1 := by
  unfold Thread.announces
  obtain h | h := h
  · rw [h]
  · rw [h]

theorem Good.waiting_ne_zero (h : Good limit s) (hb : s.announced < 2 ^ 32) {w : Fin n}
    (hw : (s.thread w).AwaitsWrite) : s.memory.waitingWriters ≠ 0 := by
  have hle := s.le_total Thread.announces w
  rw [hw.announces_eq] at hle
  intro hzero
  have hnat := congrArg UInt32.toNat (h.waiting.symm.trans hzero)
  rw [UInt32.toNat_ofNat_of_lt' hb, UInt32.toNat_zero] at hnat
  unfold System.announced at hnat
  omega

theorem awaitsWrite_next {w : Fin n} (h : (s.thread w).AwaitsWrite) (i : Fin n)
    (operation : Operation)
    (he : ¬(i = w ∧ s.eventOf (Thread.act limit) i operation = .writeLocked)) :
    ((s.next (Thread.act limit) i operation).thread w).AwaitsWrite := by
  by_cases hi : w = i
  · subst hi
    rw [Threads.next_thread_self]
    exact h.act operation fun hl => he ⟨rfl, hl⟩
  · rw [Threads.next_thread_ne _ hi]
    exact h

variable {schedule : List (Fin n × Operation)}

theorem awaitsWrite_after {w : Fin n} (h : (s.thread w).AwaitsWrite)
    (he : (w, .writeLocked) ∉ s.trace (Thread.act limit) schedule) :
    ((s.after (Thread.act limit) schedule).thread w).AwaitsWrite := by
  refine Threads.after_unless s (B := fun _ => True)
    (P := fun s => (s.thread w).AwaitsWrite) (Q := fun i (e : Event) => i = w ∧ e = .writeLocked)
    (fun _ i operation h _ he => awaitsWrite_next h i operation he) h (fun _ _ => trivial) ?_
  rintro ⟨i, e⟩ hp ⟨rfl, rfl⟩
  exact he hp

/-- The states in which `writer` waits for the lock and `reader` has not found the
count of writers 0. -/
structure Behind (limit : ReaderLimit) (writer reader : Fin n) (s : System n) : Prop where
  good : Good limit s
  awaits : (s.thread writer).AwaitsWrite
  outside : (s.thread reader).point.admitted = false

theorem Behind.next {writer reader : Fin n} (h : Behind limit writer reader s) (i : Fin n)
    (operation : Operation) (hb : s.announced < 2 ^ 32)
    (he : ¬(i = writer ∧ s.eventOf (Thread.act limit) i operation = .writeLocked)) :
    Behind limit writer reader (s.next (Thread.act limit) i operation) := by
  refine ⟨h.good.next i operation, awaitsWrite_next h.awaits i operation he, ?_⟩
  by_cases hi : reader = i
  · subst hi
    rw [Threads.next_thread_self]
    exact act_not_admitted (h.good.waiting_ne_zero hb h.awaits) h.outside operation
  · rw [Threads.next_thread_ne _ hi]
    exact h.outside

theorem Behind.after {writer reader : Fin n} (h : Behind limit writer reader s)
    (hb : ∀ first, first <+: schedule →
      System.announced (s.after (Thread.act limit) first) < 2 ^ 32)
    (he : (writer, .writeLocked) ∉ s.trace (Thread.act limit) schedule) :
    Behind limit writer reader (s.after (Thread.act limit) schedule) := by
  refine Threads.after_unless s (B := fun s => System.announced s < 2 ^ 32)
    (P := Behind limit writer reader) (Q := fun i (e : Event) => i = writer ∧ e = .writeLocked)
    (fun _ i operation h hb he => h.next i operation hb he) h hb ?_
  rintro ⟨i, e⟩ hp ⟨rfl, rfl⟩
  exact he hp

/-- A read lock that is acquired by a call which began behind the announcement of a
`lock_write` is acquired behind that writer. -/
def WritersFirst (trace : List (Fin n × Event)) : Prop :=
  ∀ before waits reads rest writer reader operation,
    trace = before ++ (writer, .announced true) ::
      (waits ++ (reader, .called operation) :: (reads ++ (reader, .readLocked) :: rest)) →
    (writer, .writeLocked) ∈ waits ++ reads

theorem writersFirst_trace
    (hb : ∀ first, first <+: schedule →
      System.announced ((System.init n).after (Thread.act limit) first) < 2 ^ 32) :
    WritersFirst ((System.init n).trace (Thread.act limit) schedule) := by
  intro before waits reads rest writer reader operation htrace
  obtain ⟨first, o₁, rest₁, rfl, -, hannounced, htrace⟩ := Threads.trace_eq_append _ htrace
  obtain ⟨second, o₂, rest₂, rfl, hwaits, hcalled, htrace⟩ := Threads.trace_eq_append _ htrace
  obtain ⟨third, o₃, rest₃, rfl, hreads, hlocked, -⟩ := Threads.trace_eq_append _ htrace
  by_contra hnone
  rw [List.mem_append, not_or, ← hwaits, ← hreads] at hnone
  -- the writer waits up to the call of the reader
  have hwait := awaitsWrite_after (awaitsWrite_of_announced hannounced) hnone.1
  have hcall := awaitsWrite_next hwait reader o₂
    fun hl => Event.noConfusion (hcalled.symm.trans hl.2)
  -- and from there on the reader is turned away
  have hgood := good_after limit (first ++ (writer, o₁) :: (second ++ [(reader, o₂)]))
  simp only [Threads.after_append, Threads.after_cons, Threads.after_nil] at hgood
  have hbehind := Behind.after ⟨hgood, hcall, not_admitted_of_called hcalled⟩ (fun f hf => ?_)
    hnone.2
  · exact absurd (admitted_of_readLocked hlocked) (by rw [hbehind.outside]; decide)
  · have hpre : first ++ (writer, o₁) :: (second ++ (reader, o₂) :: f) <+:
        first ++ (writer, o₁) :: (second ++ (reader, o₂) :: (third ++ (reader, o₃) :: rest₃)) := by
      simp only [List.prefix_append_right_inj, List.prefix_cons_inj]
      exact hf.trans (List.prefix_append _ _)
    have hlt := hb _ hpre
    simp only [Threads.after_append, Threads.after_cons] at hlt
    exact hlt

theorem announced_le (s : System n) : s.announced ≤ n := by
  have hle := Finset.sum_le_card_nsmul Finset.univ (fun i => (s.thread i).announces) 1
    fun i _ => by
      unfold Thread.announces
      split <;> omega
  simpa [System.announced, Threads.total] using hle

/-- In every state that some interleaving of the calls of `n` threads leads to: a
writer holds the lock alone, at most `MaxReaders` readers hold it, and `state_`
encodes them; and while fewer than `2 ^ 32` writers are announced at a time, no read
lock overtakes a `lock_write` that was announced when its call began. -/
theorem sharedMutex_excludes (limit : ReaderLimit) (n : ℕ) (schedule : List (Fin n × Operation)) :
    let s : System n := (System.init n).after (Thread.act limit) schedule
    (∀ i, 0 < (s.thread i).writes → (s.thread i).writes = 1 ∧
      (∀ j, j ≠ i → (s.thread j).writes = 0) ∧ ∀ j, (s.thread j).reads = 0) ∧
    s.readers ≤ limit.maxReaders.toNat ∧
    s.memory.state.toNat = 2 ^ 31 * s.writers + s.readers ∧
    ((∀ first, first <+: schedule →
      System.announced ((System.init n).after (Thread.act limit) first) < 2 ^ 32) →
        WritersFirst ((System.init n).trace (Thread.act limit) schedule)) := by
  intro s
  obtain ⟨-, hholders, -⟩ : Good limit s := good_after limit schedule
  refine ⟨fun i hi => ?_, ?_, ?_, writersFirst_trace⟩
  · have hw := s.le_total Thread.writes i
    obtain ⟨hzero, -, -⟩ | ⟨hone, hnone, -⟩ := hholders
    · unfold System.writers at hzero
      omega
    unfold System.writers at hone
    unfold System.readers at hnone
    refine ⟨by omega, fun j hj => ?_, fun j => ?_⟩
    · have hpair := s.add_le_total Thread.writes hj
      omega
    · have hr := s.le_total Thread.reads j
      omega
  · obtain ⟨-, -, hle⟩ | ⟨-, hnone, -⟩ := hholders
    · exact hle
    · omega
  · obtain ⟨hzero, hstate, -⟩ | ⟨hone, hnone, hstate⟩ := hholders
    · rw [hstate, hzero]
      omega
    · rw [hstate, hone, hnone]
      rfl

/-- A reader holds the lock while a writer waits, and a second reader is refused; with
the first reader gone the writer gets the lock. -/
def contended : List (Fin 3 × Operation) :=
  [(0, .lockRead), (0, .lockRead), (0, .lockRead), (0, .lockRead), (1, .lockWrite), (1, .lockWrite),
    (2, .tryLockRead), (2, .tryLockRead), (0, .unlockRead), (0, .unlockRead), (1, .lockWrite),
    (1, .lockWrite)]

theorem sharedMutex_excludes_contended :
    let limit : ReaderLimit := ⟨2, by decide⟩
    let s : System 3 := (System.init 3).after (Thread.act limit) contended
    s.writers = 1 ∧ s.memory.state.toNat = 2 ^ 31 * s.writers + s.readers ∧
      (2, .refused) ∈ (System.init 3).trace (Thread.act limit) contended ∧
        WritersFirst ((System.init 3).trace (Thread.act limit) contended) := by
  intro limit s
  obtain ⟨-, -, hstate, hfirst⟩ := sharedMutex_excludes limit 3 contended
  refine ⟨by decide, hstate, by decide, hfirst fun first _ => ?_⟩
  exact (announced_le _).trans_lt (by decide)

end Castle.Sync.SharedMutex

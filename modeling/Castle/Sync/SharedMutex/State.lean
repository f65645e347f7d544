import Castle.Lib.Interleaving

/-!
# The reader/writer mutex (`shared_mutex.hpp`)

Each `__sync` builtin is one atomic step; what a function does between two of them is
done with the step before. `WaitPolicy::wait()` changes nothing and only stands for a
turn of a retry loop.
-/

namespace Castle.Sync

/-- The template parameter `MaxReaders` with its static assertion. -/
structure ReaderLimit where
  maxReaders : UInt32
  maxReaders_le : maxReaders ≤ 31

structure SharedMutex where
  state : UInt32 := 0
  waitingWriters : UInt32 := 0
  deriving DecidableEq

namespace SharedMutex

def writerBit : UInt32 := 0x80000000

def readerMask : UInt32 := 0x7FFFFFFF

inductive Operation where
  | lockRead | tryLockRead | unlockRead | lockWrite | tryLockWrite | unlockWrite
  deriving DecidableEq

/-- The next builtin that a thread executes. `blocking` tells `lock_read` and
`lock_write` from their `try` siblings. -/
inductive Point where
  /-- outside of the mutex -/
  | idle
  /-- the load of `waiting_writers_` of a reader -/
  | readWaiting (blocking : Bool)
  /-- the load of `state_` of a reader -/
  | readState (blocking : Bool)
  /-- the compare-and-swap of a reader that has loaded `state` -/
  | readSwap (blocking : Bool) (state : UInt32)
  | unlockRead
  /-- the increment of `waiting_writers_` -/
  | announce (blocking : Bool)
  /-- the load of `state_` of `lock_write` -/
  | writeState
  | writeSwap (blocking : Bool)
  /-- the decrement of `waiting_writers_` -/
  | withdraw (acquired : Bool)
  | unlockWrite
  deriving DecidableEq

def Operation.entry : Operation → Point
  | .lockRead => .readWaiting true
  | .tryLockRead => .readWaiting false
  | .unlockRead => .unlockRead
  | .lockWrite => .announce true
  | .tryLockWrite => .announce false
  | .unlockWrite => .unlockWrite

/-- A thread, with the locks that it has acquired and not released. -/
structure Thread where
  point : Point := .idle
  reads : ℕ := 0
  writes : ℕ := 0
  deriving DecidableEq

inductive Event where
  /-- the thread stays outside of the mutex -/
  | rested
  | called (operation : Operation)
  /-- a blocking function tries again -/
  | waited
  /-- a `try` function returns `false`, or is going to -/
  | refused
  | proceeded
  | announced (blocking : Bool)
  | readLocked
  | writeLocked
  | withdrew
  | readUnlocked
  | writeUnlocked
  deriving DecidableEq

namespace Thread

variable (t : Thread)

def goto (point : Point) : Thread := { t with point }

/-- An unlock matches a lock that the thread holds. -/
def mayCall : Operation → Bool
  | .unlockRead => 0 < t.reads
  | .unlockWrite => 0 < t.writes
  | _ => true

/-- A reader that is not let in. -/
def turnAway (blocking : Bool) : Thread × Event :=
  if blocking then (t.goto (.readWaiting true), .waited) else (t.goto .idle, .refused)

/-- One step of a thread. An idle thread calls `operation`. -/
def act (limit : ReaderLimit) (m : SharedMutex) (t : Thread) (operation : Operation) :
    SharedMutex × Thread × Event :=
  match t.point with
  | .idle =>
    if t.mayCall operation then (m, t.goto operation.entry, .called operation) else (m, t, .rested)
  | .readWaiting blocking =>
    if m.waitingWriters ≠ 0 then (m, t.turnAway blocking)
    else (m, t.goto (.readState blocking), .proceeded)
  | .readState blocking =>
    if m.state &&& writerBit ≠ 0 then (m, t.turnAway blocking)
    else if m.state &&& readerMask ≥ limit.maxReaders then (m, t.turnAway blocking)
    else (m, t.goto (.readSwap blocking m.state), .proceeded)
  | .readSwap blocking state =>
    if m.state = state then
      ({ m with state := state + 1 }, { t with point := .idle, reads := t.reads + 1 }, .readLocked)
    else (m, t.turnAway blocking)
  | .unlockRead =>
    ({ m with state := m.state - 1 }, { t with point := .idle, reads := t.reads - 1 },
      .readUnlocked)
  | .announce blocking =>
    ({ m with waitingWriters := m.waitingWriters + 1 },
      t.goto (if blocking then .writeState else .writeSwap false), .announced blocking)
  | .writeState =>
    if m.state ≠ 0 then (m, t, .waited) else (m, t.goto (.writeSwap true), .proceeded)
  | .writeSwap blocking =>
    if m.state = 0 then
      ({ m with state := writerBit }, { t with point := .withdraw true, writes := t.writes + 1 },
        .writeLocked)
    else if blocking then (m, t.goto .writeState, .waited)
    else (m, t.goto (.withdraw false), .refused)
  | .withdraw _ =>
    ({ m with waitingWriters := m.waitingWriters - 1 }, t.goto .idle, .withdrew)
  | .unlockWrite =>
    ({ m with state := 0 }, { t with point := .idle, writes := t.writes - 1 }, .writeUnlocked)

/-- The thread is counted in `waiting_writers_`. -/
def announces : ℕ :=
  match t.point with
  | .writeState | .writeSwap _ | .withdraw _ => 1
  | _ => 0

/-- A `lock_write` that has announced itself and not acquired the lock. -/
def AwaitsWrite : Prop := t.point = .writeState ∨ t.point = .writeSwap true

end Thread

abbrev System (n : ℕ) := Threads n SharedMutex Thread

namespace System

variable {n : ℕ} (s : System n)

def init (n : ℕ) : System n := ⟨{}, fun _ => {}⟩

/-- The read locks held. -/
def readers : ℕ := s.total Thread.reads

/-- The write locks held. -/
def writers : ℕ := s.total Thread.writes

/-- The threads between the increment and the decrement of `waiting_writers_`. -/
def announced : ℕ := s.total Thread.announces

end System
end SharedMutex
end Castle.Sync

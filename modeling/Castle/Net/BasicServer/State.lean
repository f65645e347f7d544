import Mathlib.Data.Fintype.Card
import Mathlib.Logic.Relation
import Castle.Lib.Reentrant
import Castle.Lib.Table
import Castle.Net.Sockets

/-!
# The server with callbacks (`net/server.hpp`, `callbacks/callback_dispatcher.hpp`)

Sockets are the environment: what they answer is an input of the call. A callable is a value of
`γ`; the storage of a callback counts how often it is assigned. Some members are none of the
class: the connection that a socket holds, by the number of its activation, how often the
generation of a slot went on, and the activations of the server, the latest first.
-/

namespace Castle.Net

inductive SocketProtocol where
  | tcp | udp
  deriving DecidableEq

structure PeerSlot (γ : Type) where
  connection : Option ℕ := none
  peer : Endpoint := {}
  callback : CallbackCell γ := {}
  generation : UInt32 := 0
  used : Bool := false
  closing : Bool := false
  steps : ℕ := 0
  deriving DecidableEq

def PeerSlot.released {γ : Type} (slot : PeerSlot γ) : PeerSlot γ :=
  { callback := slot.callback.store none
    generation := nextGeneration slot.generation
    steps := slot.steps + 1 }

def PeerSlot.activated {γ : Type} (slot : PeerSlot γ) (connection : Option ℕ) (peer : Endpoint)
    (callable : Option γ) : PeerSlot γ :=
  { slot with
    connection := connection
    peer := peer
    callback := slot.callback.store callable
    used := true
    generation := nextGeneration slot.generation
    steps := slot.steps + 1 }

inductive Deferred where
  | none | replace | clear
  deriving DecidableEq

/-- `callback_dispatcher`; a callback is told by its slot. -/
structure CallbackDispatcher (n : ℕ) (γ : Type) where
  running : Option (Fin n) := none
  pending : Option γ := none
  action : Deferred := .none
  deriving DecidableEq

/-- What `activate_slot` did: the handle it returned, the peer, the steps of the slot by then, and
the number of the activation. -/
structure Activation (n : ℕ) where
  index : Fin n
  handle : ClientHandle
  peer : Endpoint
  number : ℕ
  serial : ℕ
  deriving DecidableEq

structure BasicServer (n : ℕ) (γ : Type) where
  protocol : SocketProtocol
  isOpen : Bool := false
  slots : Table n (PeerSlot γ) := .replicate n {}
  defaultCallback : Option γ := none
  dispatcher : CallbackDispatcher n γ := {}
  clientCount : ℕ := 0
  activations : List (Activation n) := []
  deriving DecidableEq

/-- A callback that runs, with the arguments it got and the storage as it was at the call. -/
structure Running (n : ℕ) (γ : Type) where
  index : Fin n
  handle : ClientHandle
  peer : Endpoint
  bytes : List UInt8
  cell : CallbackCell γ
  deriving DecidableEq

namespace BasicServer

variable {n : ℕ} {γ : Type} (s : BasicServer n γ)

def isRunning (i : Fin n) : Bool := s.dispatcher.running == some i

def isDispatching : Bool := s.dispatcher.running.isSome

def modifySlot (i : Fin n) (f : PeerSlot γ → PeerSlot γ) : BasicServer n γ :=
  { s with slots := s.slots.modify i f }

def findFreeSlot : Option (Fin n) := s.slots.firstIdx fun slot => !slot.used

def findPeer (peer : Endpoint) : Option (Fin n) :=
  s.slots.firstIdx fun slot => slot.used && slot.peer = peer

def findSlot (handle : ClientHandle) : Option (Fin n) :=
  if h : handle.isValid = true ∧ handle.index < n then
    let target := s.slots.get ⟨handle.index, h.2⟩
    if target.used && !target.closing && target.generation == handle.generation then
      some ⟨handle.index, h.2⟩
    else none
  else none

/-- `activate_slot`, for a peer whose socket, if it has one, is the slot's -/
def activateSlot (i : Fin n) (peer : Endpoint) : BasicServer n γ × ClientHandle :=
  let serial := s.activations.length
  let handle : ClientHandle := ⟨i, nextGeneration (s.slots.get i).generation⟩
  ({ s with
      slots := s.slots.modify i fun slot =>
        slot.activated (if s.protocol = .tcp then some serial else none) peer s.defaultCallback
      clientCount := s.clientCount + 1
      activations := ⟨i, handle, peer, (s.slots.get i).steps + 1, serial⟩ :: s.activations }, handle)

/-- `release_slot`; `closed` is what `close` of the slot's socket answers. -/
def releaseSlot (i : Fin n) (closed : Status) : BasicServer n γ × Status :=
  if s.isRunning i then (s.modifySlot i fun slot => { slot with closing := true }, .ok)
  else
    ({ s with
        slots := s.slots.modify i PeerSlot.released
        clientCount := if s.clientCount > 0 then s.clientCount - 1 else s.clientCount },
      if s.protocol = .tcp ∧ closed ≠ .notConfigured then closed else .ok)

/-- `dispatch`, up to the call of the callback if there is one -/
def dispatch (i : Fin n) (handle : ClientHandle) (bytes : List UInt8) :
    BasicServer n γ × List (Running n γ) :=
  let target := s.slots.get i
  if target.callback.callable.isSome then
    ({ s with dispatcher := { s.dispatcher with running := some i, action := .none } },
      [⟨i, handle, target.peer, bytes, target.callback⟩])
  else if target.closing then ((s.releaseSlot i .ok).1, [])
  else (s, [])

/-- `invoke` once the callback has returned -/
def afterCallback (i : Fin n) : BasicServer n γ :=
  let s' : BasicServer n γ :=
    { s with dispatcher := { s.dispatcher with running := none, action := .none } }
  match s.dispatcher.action with
  | .none => s'
  | .replace =>
    { s' with dispatcher := { s'.dispatcher with pending := none } }.modifySlot i fun slot =>
      { slot with callback := slot.callback.store s.dispatcher.pending }
  | .clear => s'.modifySlot i fun slot => { slot with callback := slot.callback.store none }

/-- `dispatch` once the callback has returned; the close of the socket is not looked at. -/
def callbackReturns (i : Fin n) : BasicServer n γ :=
  let s := s.afterCallback i
  if (s.slots.get i).closing then (s.releaseSlot i .ok).1 else s

/-- `open`, when the steps on the listening socket answer `opened` -/
def openServer (opened : Status) : BasicServer n γ × Status :=
  if s.isOpen then (s, .invalidConfig)
  else if opened ≠ .ok then (s, opened)
  else ({ s with isOpen := true }, .ok)

/-- One round of the loop of `close` -/
def closeSlot (socketClosed : Fin n → Status) (p : BasicServer n γ × Status) (i : Fin n) :
    BasicServer n γ × Status :=
  if (p.1.slots.get i).used then
    let (s, closed) := p.1.releaseSlot i (socketClosed i)
    (s, if p.2 = .ok then closed else p.2)
  else p

def close (listenerClosed : Status) (socketClosed : Fin n → Status) : BasicServer n γ × Status :=
  (List.finRange n).foldl (closeSlot socketClosed) ({ s with isOpen := false }, listenerClosed)

def setDefaultCallback (next : Option γ) : BasicServer n γ × Status :=
  if next.isNone then (s, .invalidCallback) else ({ s with defaultCallback := next }, .ok)

def clearDefaultCallback : BasicServer n γ := { s with defaultCallback := none }

/-- `accept_client`, when the listener answers `waited` and then `accepted` -/
def acceptClient (waited : Status) (accepted : Except Status Endpoint) :
    BasicServer n γ × Status × ClientHandle :=
  if s.protocol ≠ .tcp then (s, .invalidConfig, {})
  else if !s.isOpen then (s, .notConfigured, {})
  else
    match s.findFreeSlot with
    | none => (s, .full, {})
    | some i =>
      if waited = .timeOut then (s, .empty, {})
      else if waited ≠ .ok then (s, waited, {})
      else
        match accepted with
        | .error status => (s, status, {})
        | .ok remote =>
          let (s, handle) := s.activateSlot i remote
          (s, .ok, handle)

/-- `replace` of the dispatcher -/
def replaceCallback (i : Fin n) (next : γ) : BasicServer n γ :=
  if s.isRunning i then
    { s with dispatcher := { s.dispatcher with pending := some next, action := .replace } }
  else s.modifySlot i fun slot => { slot with callback := slot.callback.store (some next) }

/-- `clear` of the dispatcher -/
def clearCallback (i : Fin n) : BasicServer n γ :=
  if s.isRunning i then
    { s with dispatcher := { s.dispatcher with pending := none, action := .clear } }
  else s.modifySlot i fun slot => { slot with callback := slot.callback.store none }

def setClientCallback (handle : ClientHandle) (next : Option γ) : BasicServer n γ × Status :=
  match s.findSlot handle with
  | none => (s, .notFound)
  | some i =>
    match next with
    | none => (s, .invalidCallback)
    | some next => (s.replaceCallback i next, .ok)

def clearClientCallback (handle : ClientHandle) : BasicServer n γ × Status :=
  match s.findSlot handle with
  | none => (s, .notFound)
  | some i => (s.clearCallback i, .ok)

def processClient (handle : ClientHandle) (receive : Receive) :
    BasicServer n γ × Status × List (Running n γ) :=
  if s.protocol ≠ .tcp || s.isDispatching then (s, .invalidConfig, [])
  else
    match s.findSlot handle with
    | none => (s, .notFound, [])
    | some i =>
      match receive with
      | .idle => (s, .empty, [])
      | .waitFailed status => (s, status, [])
      | .closed => ((s.releaseSlot i .ok).1, .notConfigured, [])
      | .failed status =>
        (if status = .systemCallError then (s.releaseSlot i .ok).1 else s, status, [])
      | .data bytes =>
        let (s, running) := s.dispatch i handle bytes
        (s, .ok, running)

/-- `process_datagram` for a datagram from `remote`: the slot of the peer, which may be new -/
def peerSlot (remote : Endpoint) : Option (BasicServer n γ × Fin n) :=
  match s.findPeer remote with
  | some i => some (s, i)
  | none => s.findFreeSlot.map fun i => ((s.activateSlot i remote).1, i)

def processDatagram (arrival : Arrival) :
    BasicServer n γ × Status × ClientHandle × List (Running n γ) :=
  if s.protocol ≠ .udp || s.isDispatching then (s, .invalidConfig, {}, [])
  else if !s.isOpen then (s, .notConfigured, {}, [])
  else
    match arrival with
    | .notReadable status => (s, if status = .timeOut then .empty else status, {}, [])
    | .notReceived status => (s, status, {}, [])
    | .datagram source bytes =>
      match s.peerSlot source with
      | none => (s, .full, {}, [])
      | some (s, i) =>
        let handle : ClientHandle := ⟨i, (s.slots.get i).generation⟩
        let (s, running) := s.dispatch i handle bytes
        (s, .ok, handle, running)

/-- `close_client`; `closed` is what `close` of the slot's socket answers. -/
def closeClient (handle : ClientHandle) (closed : Status) : BasicServer n γ × Status :=
  match s.findSlot handle with
  | none => (s, .notFound)
  | some i => s.releaseSlot i closed

end BasicServer

/-!
## Runs of the server

The application calls the server, also from a callback that runs. Every call is a sequence of a
few changes, and each change leaves the slot of the callback that runs alone but for its
`closing` flag.
-/

/-- A call of the server, with what the sockets answer. -/
inductive ServerCall (n : ℕ) (γ : Type) where
  | openServer (opened : Status)
  | close (listenerClosed : Status) (socketClosed : Fin n → Status)
  | setDefaultCallback (next : Option γ)
  | clearDefaultCallback
  | acceptClient (waited : Status) (accepted : Except Status Endpoint)
  | setClientCallback (handle : ClientHandle) (next : Option γ)
  | clearClientCallback (handle : ClientHandle)
  | processClient (handle : ClientHandle) (receive : Receive)
  | processDatagram (arrival : Arrival)
  | closeClient (handle : ClientHandle) (closed : Status)

namespace BasicServer

variable {n : ℕ} {γ : Type}

/-- The server after a call, and the callback that the call starts. -/
def perform (s : BasicServer n γ) : ServerCall n γ → BasicServer n γ × List (Running n γ)
  | .openServer opened => ((s.openServer opened).1, [])
  | .close listenerClosed socketClosed => ((s.close listenerClosed socketClosed).1, [])
  | .setDefaultCallback next => ((s.setDefaultCallback next).1, [])
  | .clearDefaultCallback => (s.clearDefaultCallback, [])
  | .acceptClient waited accepted => ((s.acceptClient waited accepted).1, [])
  | .setClientCallback handle next => ((s.setClientCallback handle next).1, [])
  | .clearClientCallback handle => ((s.clearClientCallback handle).1, [])
  | .processClient handle receive =>
    ((s.processClient handle receive).1, (s.processClient handle receive).2.2)
  | .processDatagram arrival => ((s.processDatagram arrival).1, (s.processDatagram arrival).2.2.2)
  | .closeClient handle closed => ((s.closeClient handle closed).1, [])

/-- A call returns to the application, or it waits for the callback that it started. -/
def machine (n : ℕ) (γ : Type) : Reentrant (BasicServer n γ) (Running n γ) (ServerCall n γ) Empty where
  isCallback _ := true
  call a s := s.perform a
  resume _ _ s := (s, [])
  ret running s := (s.callbackReturns running.index, [])

/-- The server after some calls and returns of callbacks -/
def after (protocol : SocketProtocol) (labels : List (Reentrant.Label (ServerCall n γ) Empty)) :
    Reentrant.Machine (BasicServer n γ) (Running n γ) :=
  (machine n γ).run ⟨{ protocol := protocol }, []⟩ labels

def usedSlots (s : BasicServer n γ) : Finset (Fin n) :=
  Finset.univ.filter fun i => (s.slots.get i).used = true

/-- The `closing` flag of the slot -/
def mark (s : BasicServer n γ) (i : Fin n) : BasicServer n γ :=
  s.modifySlot i fun slot => { slot with closing := true }

def storeCallback (s : BasicServer n γ) (i : Fin n) (callable : Option γ) : BasicServer n γ :=
  s.modifySlot i fun slot => { slot with callback := slot.callback.store callable }

/-- The slot is released and counted. -/
def free (s : BasicServer n γ) (i : Fin n) : BasicServer n γ :=
  { s with
    slots := s.slots.modify i PeerSlot.released
    clientCount := if s.clientCount > 0 then s.clientCount - 1 else s.clientCount }

/-- What calls are made of; `marks` says whether the call closes peers. -/
inductive Change (marks : Bool) (s : BasicServer n γ) : BasicServer n γ → Prop
  /-- Nothing in the table, the list of activations or the callback that runs -/
  | settings (s' : BasicServer n γ) (hprotocol : s'.protocol = s.protocol) (hslots : s'.slots = s.slots)
      (hrunning : s'.dispatcher.running = s.dispatcher.running)
      (hcount : s'.clientCount = s.clientCount) (hactivations : s'.activations = s.activations) :
      Change marks s s'
  | activate (i : Fin n) (peer : Endpoint) (hfree : (s.slots.get i).used = false)
      (hnew : s.protocol = .udp → s.findPeer peer = none) : Change marks s (s.activateSlot i peer).1
  | free (i : Fin n) (hused : (s.slots.get i).used = true) (hrunning : s.dispatcher.running ≠ some i) :
      Change marks s (s.free i)
  | store (i : Fin n) (callable : Option γ) (hrunning : s.dispatcher.running ≠ some i) :
      Change marks s (s.storeCallback i callable)
  | mark (i : Fin n) (hmarks : marks = true) (hrunning : s.dispatcher.running = some i) :
      Change marks s (s.mark i)

abbrev Changes (marks : Bool) : BasicServer n γ → BasicServer n γ → Prop :=
  Relation.ReflTransGen (Change marks)

variable {s : BasicServer n γ}

theorem changes_one {marks : Bool} {s' : BasicServer n γ} (h : Change marks s s') :
    Changes marks s s' :=
  .single h

variable {i : Fin n}

theorem isRunning_eq_true : s.isRunning i = true ↔ s.dispatcher.running = some i := by
  rw [isRunning, beq_iff_eq]

theorem isRunning_eq_false (h : ¬s.isRunning i = true) :
    s.dispatcher.running ≠ some i := fun hr => h (isRunning_eq_true.mpr hr)

theorem releaseSlot_eq (s : BasicServer n γ) (i : Fin n) (closed : Status) :
    (s.releaseSlot i closed).1 = if s.isRunning i then s.mark i else s.free i := by
  rw [releaseSlot]
  by_cases h : s.isRunning i = true
  · rw [if_pos h, if_pos h]
    rfl
  · rw [if_neg h, if_neg h]
    rfl

theorem changes_releaseSlot (hused : (s.slots.get i).used = true) (closed : Status) :
    Changes true s (s.releaseSlot i closed).1 := by
  rw [releaseSlot_eq]
  split_ifs with h
  · exact changes_one (.mark i rfl (isRunning_eq_true.mp h))
  · exact changes_one (.free i hused (isRunning_eq_false h))

theorem changes_free (hused : (s.slots.get i).used = true) (hidle : s.dispatcher.running = none)
    (closed : Status) (marks : Bool) : Changes marks s (s.releaseSlot i closed).1 := by
  have hrunning : s.dispatcher.running ≠ some i := by
    rw [hidle]
    exact Option.some_ne_none i ∘ Eq.symm
  rw [releaseSlot_eq, if_neg fun h => hrunning (isRunning_eq_true.mp h)]
  exact changes_one (.free i hused hrunning)

theorem findSlot_some {handle : ClientHandle} :
    s.findSlot handle = some i ↔ handle.isValid = true ∧ handle.index = i ∧ (s.slots.get i).used =
    true ∧ (s.slots.get i).closing = false ∧ (s.slots.get i).generation = handle.generation := by
  rw [findSlot]
  constructor
  · intro h
    split_ifs at h with hvalid
    simp only at h
    split_ifs at h with htarget
    obtain rfl := Option.some.inj h
    simp only [Bool.and_eq_true, Bool.not_eq_true', beq_iff_eq] at htarget
    exact ⟨hvalid.1, rfl, htarget.1.1, htarget.1.2, htarget.2⟩
  · rintro ⟨hvalid, hindex, hused, hclosing, hgeneration⟩
    have hi : (⟨handle.index, hindex ▸ i.isLt⟩ : Fin n) = i := Fin.ext hindex
    rw [dif_pos ⟨hvalid, hindex ▸ i.isLt⟩]
    simp [hi, hused, hclosing, hgeneration, Bool.not_false]

theorem isDispatching_eq_false (h : s.isDispatching = false) :
    s.dispatcher.running = none := Option.not_isSome_iff_eq_none.mp (Bool.eq_false_iff.mp h)

theorem findFreeSlot_some (h : s.findFreeSlot = some i) : (s.slots.get i).used = false := by
  have hfree := Table.firstIdx_some h
  rwa [Bool.not_eq_true'] at hfree

end BasicServer
end Castle.Net

import Castle.Status
import Castle.Lib.Table

/-!
# UDP sockets (`net/endpoint.hpp` and the datagram calls of `net/socket.hpp`)

Sockets are the environment: what `send_to`, `wait_readable` and `receive_from` answer is an input.
-/

namespace Castle.Net

inductive AddressFamily where
  | ipv4 | ipv6
  deriving DecidableEq, Repr

/-- `endpoint`; the address is the bytes that its family uses. -/
structure Endpoint where
  address : List UInt8 := [0, 0, 0, 0]
  family : AddressFamily := .ipv4
  port : UInt16 := 0
  scopeId : UInt32 := 0
  deriving DecidableEq, Repr

/-- What `send_to` answers: a status, and whether it sent all bytes. -/
structure SendResult where
  status : Status := .ok
  complete : Bool := true
  deriving DecidableEq

def SendResult.succeeded (sent : SendResult) : Bool := sent.status = .ok && sent.complete

/-- What a wait for a datagram and its receive answer. -/
inductive Arrival where
  /-- `wait_readable` answers a status that is not `ok`. -/
  | notReadable (status : Status)
  /-- `receive_from` answers a status that is not `ok`. -/
  | notReceived (status : Status)
  | datagram (source : Endpoint) (bytes : List UInt8)
  deriving DecidableEq

/-!
## The TCP peer table (`net/server.hpp`)

Sockets are the environment: what `accept`, `receive_some` and `send_all` answer
is an input. What stays is the table of slots with their generations. A slot's
`closing` flag is set only when a peer is closed from inside its own receive
callback, which no user of this model does.
-/

/-- A generation-checked handle; the default one has the sentinel index. -/
structure ClientHandle where
  index : ℕ := 2 ^ 64 - 1
  generation : UInt32 := 0
  deriving DecidableEq, Repr, Inhabited

def ClientHandle.isValid (h : ClientHandle) : Bool := h.index ≠ 2 ^ 64 - 1 && h.generation ≠ 0

structure Peer where
  used : Bool := false
  generation : UInt32 := 0
  deriving DecidableEq, Inhabited

structure Server (n : ℕ) where
  isOpen : Bool := false
  slots : Table n Peer := .replicate n {}
  deriving DecidableEq

/-- What one receive on a readable peer answers. -/
inductive Receive where
  /-- nothing arrived in time -/
  | idle
  /-- waiting for readability failed -/
  | waitFailed (status : Status)
  /-- end of file from the peer -/
  | closed
  /-- the receive call failed -/
  | failed (status : Status)
  | data (bytes : List UInt8)
  deriving DecidableEq, Inhabited

def nextGeneration (value : UInt32) : UInt32 := if value + 1 = 0 then 1 else value + 1

namespace Server

variable {n : ℕ} (s : Server n)

def findFreeSlot : Option (Fin n) := s.slots.firstIdx fun p => !p.used

/-- The handle of the active peer in a slot, else the invalid handle. -/
def clientAt (i : Fin n) : ClientHandle :=
  if (s.slots.get i).used then ⟨i, (s.slots.get i).generation⟩ else {}

def findSlot (h : ClientHandle) : Option (Fin n) :=
  if hi : h.index < n then
    let i : Fin n := ⟨h.index, hi⟩
    if h.isValid && (s.slots.get i).used && (s.slots.get i).generation = h.generation then some i
    else none
  else none

/-- The slot after `activate_slot`, and the fresh handle. -/
def activateSlot (i : Fin n) : Server n × ClientHandle :=
  let generation := nextGeneration (s.slots.get i).generation
  ({ s with slots := s.slots.set i ⟨true, generation⟩ }, ⟨i, generation⟩)

def releaseSlot (i : Fin n) : Server n :=
  { s with slots := s.slots.set i ⟨false, nextGeneration (s.slots.get i).generation⟩ }

def closeClient (h : ClientHandle) : Server n :=
  match s.findSlot h with
  | some i => s.releaseSlot i
  | none => s

/-- `accept_client` when the listener answers `accepted`. -/
def acceptClient (accepted : Status) : Status × Server n × Option (Fin n × ClientHandle) :=
  if !s.isOpen then (.notConfigured, s, none)
  else
    match s.findFreeSlot with
    | none => (.full, s, none)
    | some i =>
      if accepted ≠ .ok then (accepted, s, none)
      else
        let (s, h) := s.activateSlot i
        (.ok, s, some (i, h))

/-- `open`, when the steps on the listening socket answer `opened`. -/
def openListener (opened : Status) : Status × Server n :=
  if s.isOpen then (.invalidConfig, s)
  else if opened ≠ .ok then (opened, s)
  else (.ok, { s with isOpen := true })

/-- `close` of the server: every used peer is released. -/
def close : Server n :=
  { isOpen := false
    slots := s.slots.map fun p => if p.used then ⟨false, nextGeneration p.generation⟩ else p }

end Server
end Castle.Net

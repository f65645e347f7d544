import Mathlib.Logic.Function.Basic
import Castle.Lib.Generations
import Castle.Lib.Reentrant
import Castle.Lib.Table
import Castle.Status

/-!
# RPMsg devices and endpoints (`io/rpmsg/device.hpp`, `io/rpmsg/endpoint.hpp`)

The backend is the environment: what it answers is an input of the call, and the pointer of a
backend endpoint is told by the number of its creation. A C string is the bytes before its end,
and a callable is a value of `γ`. The table of the name service is left out, with the names and
destinations that only it is searched for.

Some members are none of the classes: how often the generation of a slot went on, the backend
endpoint that an endpoint object was attached to, what was created and destroyed, and the
activations of the slots, the latest first.
-/

namespace Castle.Io.Rpmsg

abbrev Address := UInt32

def rpmsgAddrAny : Address := 0xffffffff
def reservedAddressCount : Address := 1024
def rpmsgHeaderSize : ℕ := 16

def isReservedAddress (value : Address) :
    Bool := value != rpmsgAddrAny && decide (value < reservedAddressCount)

def isValidLocalAddress (value : Address) : Bool :=
  value == rpmsgAddrAny || decide (reservedAddressCount ≤ value)

inductive Role where
  | host | remote
  deriving DecidableEq

/-- `device_config`; of the shared memory, whether there is any, and its size -/
structure DeviceConfig where
  nodeRole : Role := .host
  sharedMemory : Bool := false
  sharedMemorySize : ℕ := 0
  bufferCount : ℕ := 16
  bufferSize : ℕ := 512
  deriving DecidableEq

/-- The template parameters but for the number of endpoints -/
structure Options where
  maxNameLength : ℕ := 31
  maxPayloadSize : ℕ := 496
  bufferCount : ℕ := 16
  bufferSize : ℕ := 512
  deriving DecidableEq

def validateConfig (config : DeviceConfig) : Status :=
  if (!config.sharedMemory) ≠ decide (config.sharedMemorySize = 0) ∨ config.bufferCount = 0 ∨
      config.bufferSize < rpmsgHeaderSize then .invalidConfig
  else .ok

/-- `message_view`: the bytes, unless the pointer is null, and the size -/
structure MessageView where
  data : Option (List UInt8) := none
  size : ℕ := 0
  deriving DecidableEq

structure EndpointSlot (γ : Type) where
  active : Bool := false
  generation : UInt32 := 1
  source : Address := rpmsgAddrAny
  backendHandle : Option ℕ := none
  onReceive : CallbackCell γ := {}
  onUnbind : CallbackCell γ := {}
  owned : Bool := false
  dispatching : ℕ := 0
  zombie : Bool := false
  steps : ℕ := 0
  deriving DecidableEq

/-- `basic_endpoint`: `attached` when `device_` is not null -/
structure Endpoint where
  attached : Bool := false
  slot : ℕ := 0
  generation : UInt32 := 0
  holds : Option ℕ := none
  deriving DecidableEq

/-- What `attach_endpoint` did: the slot, its steps by then, and the backend endpoint. -/
structure Activation (n : ℕ) where
  index : Fin n
  number : ℕ
  serial : ℕ
  deriving DecidableEq

/-- The two callbacks of an endpoint -/
inductive CallbackKind where
  | receive | unbind
  deriving DecidableEq

/-- A callback on the call stack: its slot, its storage as it was at the call, and the backend
endpoint that the slot was attached to. -/
structure Running (n : ℕ) (γ : Type) where
  index : Fin n
  kind : CallbackKind
  cell : CallbackCell γ
  endpoint : Option ℕ
  deriving DecidableEq

structure Device (n : ℕ) (γ : Type) where
  initialized : Bool := false
  config : DeviceConfig := {}
  endpoints : Table n (EndpointSlot γ) := .replicate n {}
  created : ℕ := 0
  destroyed : List ℕ := []
  activations : List (Activation n) := []
  deriving DecidableEq

namespace EndpointSlot

variable {γ : Type} (slot : EndpointSlot γ)

def callback : CallbackKind → CallbackCell γ
  | .receive => slot.onReceive
  | .unbind => slot.onUnbind

def clear : EndpointSlot γ :=
  { slot with
    active := false
    source := rpmsgAddrAny
    backendHandle := none
    onReceive := slot.onReceive.store none
    onUnbind := slot.onUnbind.store none
    owned := false
    zombie := false
    generation := Generations.next slot.generation
    steps := slot.steps + 1 }

def release : EndpointSlot γ :=
  if slot.dispatching = 0 then { slot with active := false }.clear
  else { slot with active := false, zombie := true }

def endDispatch : EndpointSlot γ :=
  let slot := { slot with dispatching := slot.dispatching - 1 }
  if slot.dispatching = 0 ∧ slot.zombie then slot.clear else slot

/-- The slot as `attach_endpoint` fills it before the backend creates the endpoint -/
def prepare (localAddress : Address) (onReceive onUnbind : Option γ) : EndpointSlot γ :=
  { slot with
    active := true
    owned := true
    source := localAddress
    onReceive := slot.onReceive.store onReceive
    onUnbind := slot.onUnbind.store onUnbind }

end EndpointSlot

namespace Device

variable {n : ℕ} {γ : Type} (d : Device n γ)

/-- `is_initialized`, when the backend answers `backendReady` -/
def isInitialized (backendReady : Bool) : Bool := d.initialized && backendReady

/-- `destroy_endpoint` of the backend -/
def destroyEndpoint (handle : Option ℕ) : Device n γ :=
  match handle with
  | none => d
  | some handle => { d with destroyed := handle :: d.destroyed }

def modifySlot (i : Fin n) (f : EndpointSlot γ → EndpointSlot γ) : Device n γ :=
  { d with endpoints := d.endpoints.modify i f }

/-- `initialize`, of the default configuration if none is given -/
def initializeDevice (options : Options) (config : Option DeviceConfig) (backendReady : Bool)
    (answer : Status) : Device n γ × Status :=
  let config := config.getD d.config
  if d.initialized || backendReady then (d, .invalidConfig)
  else if validateConfig config ≠ .ok then (d, validateConfig config)
  else if config.bufferSize < options.maxPayloadSize + rpmsgHeaderSize ∨ config.bufferCount < 1 ∨
      config.bufferCount > options.bufferCount ∨ config.bufferSize > options.bufferSize then
    (d, .invalidConfig)
  else if answer = .ok then ({ d with initialized := true, config := config }, .ok)
  else (d, answer)

/-- The end of an active slot, in `shutdown` and in `detach_endpoint` -/
def endSlot (i : Fin n) : Device n γ :=
  ((d.modifySlot i fun slot => { slot with active := false }).destroyEndpoint
    (d.endpoints.get i).backendHandle).modifySlot i EndpointSlot.release

/-- `shutdown`, when the backend answers `answer` -/
def shutdown (answer : Status) : Device n γ × Status :=
  if !d.initialized then (d, .notConfigured)
  else
    let d := (List.finRange n).foldl
      (fun d i => if (d.endpoints.get i).active then d.endSlot i else d) d
    ({ d with initialized := false }, answer)

def isEndpointValid (endpoint : Endpoint) : Bool :=
  endpoint.attached &&
    if h : endpoint.slot < n then
      (d.endpoints.get ⟨endpoint.slot, h⟩).active &&
        (d.endpoints.get ⟨endpoint.slot, h⟩).generation == endpoint.generation
    else false

def validateServiceName (options : Options) (name : Option (List UInt8)) : Status :=
  match name with
  | none => .invalidArgument
  | some name =>
    if name = [] then .invalidArgument
    else if name.length > options.maxNameLength then .outOfRange
    else .ok

/-- The backend's answer to `create_endpoint`: a failure, or whether the handle is not null, and
the source address -/
abbrev Creation := Except Status (Bool × Address)

/-- The checks of `attach_endpoint`, and the slot that it takes -/
def findSlot (options : Options) (endpoint : Endpoint) (backendReady : Bool)
    (serviceName : Option (List UInt8)) (localAddress remoteAddress : Address) (onReceive : Option γ) :
    Except Status (Fin n) :=
  if !d.isInitialized backendReady then .error .notConfigured
  else if endpoint.attached then .error .alreadyExists
  else if !isValidLocalAddress localAddress ||
      (remoteAddress != rpmsgAddrAny && isReservedAddress remoteAddress) then .error .invalidArgument
  else if onReceive.isNone then .error .invalidCallback
  else if validateServiceName options serviceName ≠ .ok then .error (validateServiceName options serviceName)
  else if localAddress ≠ rpmsgAddrAny ∧
      (d.endpoints.firstIdx fun slot => slot.active && slot.source == localAddress).isSome then
    .error .alreadyExists
  else
    match d.endpoints.firstIdx fun slot => !slot.active && !slot.zombie with
    | none => .error .full
    | some i => .ok i

def attachEndpoint (options : Options) (endpoint : Endpoint) (backendReady : Bool)
    (serviceName : Option (List UInt8)) (localAddress remoteAddress : Address)
    (onReceive onUnbind : Option γ) (creation : Creation) : Device n γ × Endpoint × Status :=
  match d.findSlot options endpoint backendReady serviceName localAddress remoteAddress onReceive with
  | .error status => (d, endpoint, status)
  | .ok i =>
    let slot := d.endpoints.get i
    let d := d.modifySlot i fun slot => slot.prepare localAddress onReceive onUnbind
    match creation with
    | .error status => (d.modifySlot i EndpointSlot.clear, endpoint, status)
    | .ok (false, _) => (d.modifySlot i EndpointSlot.clear, endpoint, .invalidConfig)
    | .ok (true, actualSource) =>
      let handle := d.created
      let d := { d with created := handle + 1 }
      if actualSource == rpmsgAddrAny || isReservedAddress actualSource then
        ((d.destroyEndpoint (some handle)).modifySlot i EndpointSlot.clear, endpoint, .invalidConfig)
      else
        ({ d with
            endpoints := d.endpoints.modify i fun slot =>
              { slot with backendHandle := some handle, source := actualSource }
            activations := ⟨i, slot.steps, handle⟩ :: d.activations },
          ⟨true, i, slot.generation, some handle⟩, .ok)

def detachEndpoint (endpoint : Endpoint) : Device n γ × Endpoint × Status :=
  if h : d.isEndpointValid endpoint = true ∧ endpoint.slot < n then
    (d.endSlot ⟨endpoint.slot, h.2⟩, {}, .ok)
  else (d, {}, .notFound)

/-- `receive_trampoline`, up to the call of the callback -/
def receiveTrampoline (options : Options) (i : Fin n) (message : MessageView) :
    Device n γ × Status × List (Running n γ) :=
  let slot := d.endpoints.get i
  if !slot.active || !slot.owned then (d, .notConfigured, [])
  else if slot.onReceive.callable.isNone then (d, .invalidCallback, [])
  else if message.size > options.maxPayloadSize ∨ message.data = none ∧ message.size ≠ 0 then
    (d, .dataLoss, [])
  else
    (d.modifySlot i fun slot => { slot with dispatching := slot.dispatching + 1 }, .ok,
      [⟨i, .receive, slot.onReceive, slot.backendHandle⟩])

/-- `unbind_trampoline`, up to the call of the callback -/
def unbindTrampoline (i : Fin n) : Device n γ × List (Running n γ) :=
  let slot := d.endpoints.get i
  if !slot.active then (d, [])
  else if slot.onUnbind.callable.isSome then
    (d.modifySlot i fun slot => { slot with dispatching := slot.dispatching + 1 },
      [⟨i, .unbind, slot.onUnbind, slot.backendHandle⟩])
  else (d, [])

end Device

namespace Endpoint

variable {n : ℕ} {γ : Type}

def create (endpoint : Endpoint) (d : Device n γ) (options : Options) (backendReady : Bool)
    (serviceName : Option (List UInt8)) (localAddress remoteAddress : Address)
    (onReceive onUnbind : Option γ) (creation : Device.Creation) : Device n γ × Endpoint × Status :=
  if endpoint.attached then (d, endpoint, .alreadyExists)
  else
    d.attachEndpoint options endpoint backendReady serviceName localAddress remoteAddress onReceive
      onUnbind creation

def destroy (endpoint : Endpoint) (d : Device n γ) : Device n γ × Endpoint × Status :=
  if !endpoint.attached then (d, endpoint, .notConfigured) else d.detachEndpoint endpoint

/-- The move assignment from another object: the device, the target and the source after it. The
move constructor is the same on a new object. -/
def moveFrom (target source : Endpoint) (d : Device n γ) : Device n γ × Endpoint × Endpoint :=
  ((target.destroy d).1, source, {})

end Endpoint

/-!
## Runs of a device and its endpoint objects

The application calls the device and the endpoint objects, also from callbacks that run; the
backend calls the two trampolines, at any depth. `create_endpoint` and `destroy_endpoint` of the
backend call nothing back.
-/

/-- A device and the endpoint objects, by number; one that does not exist is like a new one. -/
structure System (n : ℕ) (γ : Type) where
  device : Device n γ := {}
  objects : ℕ → Endpoint := fun _ => {}

/-- A call of the application, or of the backend -/
inductive RpmsgCall (n : ℕ) (γ : Type) where
  | initializeDevice (config : Option DeviceConfig) (backendReady : Bool) (answer : Status)
  | shutdown (answer : Status)
  | create (object : ℕ) (backendReady : Bool) (serviceName : Option (List UInt8))
      (localAddress remoteAddress : Address) (onReceive onUnbind : Option γ) (creation : Device.Creation)
  /-- `destroy`, or the destructor -/
  | destroy (object : ℕ)
  | move (target source : ℕ)
  | receive (i : Fin n) (message : MessageView)
  | unbind (i : Fin n)

namespace System

variable {n : ℕ} {γ : Type} (s : System n γ)

def setObject (o : ℕ) (p : Device n γ × Endpoint × Status) : System n γ :=
  ⟨p.1, Function.update s.objects o p.2.1⟩

/-- The system after a call, and the callback that the call starts. -/
def perform (options : Options) : RpmsgCall n γ → System n γ × List (Running n γ)
  | .initializeDevice config backendReady answer =>
    ({ s with device := (s.device.initializeDevice options config backendReady answer).1 }, [])
  | .shutdown answer => ({ s with device := (s.device.shutdown answer).1 }, [])
  | .create o backendReady serviceName localAddress remoteAddress onReceive onUnbind creation =>
    (s.setObject o ((s.objects o).create s.device options backendReady serviceName localAddress
      remoteAddress onReceive onUnbind creation), [])
  | .destroy o => (s.setObject o ((s.objects o).destroy s.device), [])
  | .move target source =>
    if target = source then (s, [])
    else
      let (d, e, e') := (s.objects target).moveFrom (s.objects source) s.device
      (⟨d, Function.update (Function.update s.objects target e) source e'⟩, [])
  | .receive i message =>
    ({ s with device := (s.device.receiveTrampoline options i message).1 },
      (s.device.receiveTrampoline options i message).2.2)
  | .unbind i =>
    ({ s with device := (s.device.unbindTrampoline i).1 }, (s.device.unbindTrampoline i).2)

def callbackReturns (f : Running n γ) : System n γ :=
  { s with device := s.device.modifySlot f.index EndpointSlot.endDispatch }

/-- A call returns to its caller, or it waits for the callback that it started. -/
def machine (n : ℕ) (γ : Type) (options : Options) :
    Reentrant (System n γ) (Running n γ) (RpmsgCall n γ) Empty where
  isCallback _ := true
  call a s := s.perform options a
  resume _ _ s := (s, [])
  ret f s := (s.callbackReturns f, [])

/-- The system after some calls and returns of callbacks -/
def after (options : Options) (labels : List (Reentrant.Label (RpmsgCall n γ) Empty)) :
    Reentrant.Machine (System n γ) (Running n γ) :=
  (machine n γ options).run ⟨{}, []⟩ labels

end System
end Castle.Io.Rpmsg

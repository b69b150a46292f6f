import StepScript.Agent.Envelope
import StepScript.Agent.Provider
import StepScript.Config
import StepScript.Script.Body
import StepScript.Script.Source
import StepScript.Value.Operations

/-!
# StepScript.Engine.World

The state that scripts run in.

* `Frame`    — an instance as running code sees it: its place in the tree of forks, its handler,
  where its emissions go and the globals as they were when it was forked.
* `World`    — everything that changes: the root's tables, the locals of all live instances, the
  stores, the handlers that wait to be run, and the trace of what was done.
* `Engine`   — everything that does not: settings, policy, tools and what the host provides.
* `Exec`     — computations in a world. They end with a value, with a failure that scripts can
  handle, or with a crash that they cannot; the world is kept in every case.
-/

namespace StepScript

/-- An instance is the path of fork numbers that leads to it, the latest first. The root is the
empty path. -/
abbrev InstanceId := List Nat

/-- Where emitted values go: to the host, or into the output of a turn of a conversation. -/
inductive Outlet where
  | host
  | capture (serial : Nat)
  deriving DecidableEq, Repr

structure Frame where
  id : InstanceId
  depth : Nat
  callStack : List String
  handler : Option (List Step) := none
  outlet : Outlet := .host
  /-- The globals at the time of the fork. The root reads the live ones. -/
  snapshot : Option (Table Value) := none

namespace Frame

def root : Frame := { id := [], depth := 0, callStack := [] }

def isRoot (f : Frame) : Bool := f.id.isEmpty

/-- The instance from which this one was forked. -/
def parent? (f : Frame) : Option InstanceId :=
  match f.id with
  | [] => none
  | _ :: path => some path

/-- The latest entry of the call stack. -/
def label (f : Frame) : String := f.callStack.getLast?.getD ""

end Frame

/-- A live instance. `forks` counts the forks that were made from it. -/
structure Instance where
  frame : Frame
  locals : Table Value := {}
  forks : Nat := 0

/-- A procedure as it is stored. -/
structure Procedure where
  name : String
  requiredParams : List String
  optionalParams : List String
  body : Body
  position : Position

namespace Procedure

def params (p : Procedure) : List String := p.requiredParams ++ p.optionalParams

/-- The least and the greatest number of arguments. -/
def arity (p : Procedure) : Nat × Nat :=
  (p.requiredParams.length, p.requiredParams.length + p.optionalParams.length)

end Procedure

/-- A command block as it is stored. -/
structure Commands where
  body : Body
  position : Position

/-- An event handler as it is stored. -/
structure EventHandler where
  eventName : String
  handlerName : Option String
  payloadVariable : Option String
  body : Body
  position : Position

/-- What the root instance owns and all instances share. -/
structure Root where
  globals : Table Value := {}
  constants : Table Value := {}
  procedures : Table Procedure := {}
  commands : List Commands := []
  /-- In the order of registration. -/
  handlers : List EventHandler := []

def Root.handlersOf (r : Root) (event : String) : List EventHandler :=
  r.handlers.filter (·.eventName = event)

/-- A started event handler that has not run yet. -/
structure Pending where
  frame : Frame
  handler : EventHandler
  eventName : String
  source : String
  event : Value

/-- Something that was done while scripts ran. -/
inductive Effect where
  | emit (outlet : Outlet) (value : Value)
  | whisper (handle data : Value)
  | prompt (text : String)
  | report (event source : String) (error : RuntimeError)
  | consult (capability : Capability) (allowed : Bool)
  | enter (tool : String)
  | recover (frame : InstanceId) (error : RuntimeError)
  | clear (frame : InstanceId)

/-- A call of a provider, with the serial number of its registration. -/
structure ProviderCall where
  serial : Nat
  provider : String
  transcribed : Bool
  context : ChatContext
  request : ChatRequest

structure World where
  root : Root := {}
  /-- The latest first. -/
  instances : List Instance := [{ frame := .root }]
  models : Table AgentModel := {}
  accounts : Table Account := {}
  providers : ProviderRegistry := {}
  /-- The first to be run first. -/
  pending : List Pending := []
  trace : Array Effect := #[]
  calls : Array ProviderCall := #[]
  prompts : Nat := 0
  captures : Nat := 0
  conversations : Nat := 0

/-- Why a computation did not end with a value. A crash carries its text, if it has one. -/
inductive Interrupt where
  | failed (error : RuntimeError)
  | crashed (text : Option String)

abbrev Exec := ExceptT Interrupt (StateM World)

/-- What a tool of the host learns about its caller. -/
structure Caller where
  callStack : List String
  depth : Nat
  isRoot : Bool

def Frame.caller (f : Frame) : Caller := ⟨f.callStack, f.depth, f.isRoot⟩

inductive Builtin where
  | emitEvent
  | len
  | typeOf
  | notEmpty
  | listModels
  | isType (type : String)
  deriving DecidableEq, Repr

/-- A tool of the host is a function of its caller and its arguments. It keeps no state between calls
and cannot come back to the instance that calls it: it runs no steps there, reads no variables and
makes no forks. -/
inductive ToolAction where
  | builtin (b : Builtin)
  | host (run : Caller → List Value → Except Interrupt Value)

structure Tool where
  name : String
  requires : List Capability := []
  action : ToolAction

/-- Names that the host provides. Scripts read the constants and may not define the others. -/
structure Symbols where
  constants : Table Value := {}
  procedures : List String := []
  eventHandlers : List String := []

/-- What the host has installed. `prompter n` answers the prompt that follows `n` earlier ones. -/
structure Host where
  emit : Bool := true
  whisper : Bool := true
  eventError : Bool := true
  prompter : Option (Nat → String → Except RuntimeError Value) := none
  deadline : Bool := false

structure Engine where
  config : Config := {}
  gate : Policy := Gate.policy .open
  tools : Table Tool := {}
  symbols : Symbols := {}
  grammar : Grammar := Grammar.json
  host : Host := {}

namespace Exec

variable {α : Type}

def fail (e : RuntimeError) : Exec α := throw (.failed e)

def fault (f : Fault) : Exec α := fail f.error

def crash (text : Option String) : Exec α := throw (.crashed text)

def ofExcept : Except RuntimeError α → Exec α
  | .ok a => pure a
  | .error e => fail e

def ofFault : Except Fault α → Exec α
  | .ok a => pure a
  | .error f => fault f

def ofInterrupt : Except Interrupt α → Exec α
  | .ok a => pure a
  | .error i => throw i

/-- Runs a computation and returns its failure, if it fails. Crashes pass through. -/
def attempt (x : Exec α) : Exec (Except RuntimeError α) := fun w =>
  match x w with
  | (.ok a, w) => (.ok (.ok a), w)
  | (.error (.failed e), w) => (.ok (.error e), w)
  | (.error (.crashed text), w) => (.error (.crashed text), w)

/-- Changes the failure with which a computation ends. -/
def mapError (f : RuntimeError → RuntimeError) (x : Exec α) : Exec α := fun w =>
  match x w with
  | (.error (.failed e), w) => (.error (.failed (f e)), w)
  | other => other

/-- Does something to the world however a computation ends. -/
def ensuring (x : Exec α) (f : World → World) : Exec α := fun w =>
  match x w with
  | (r, w) => (r, f w)

def note (e : Effect) : Exec Unit := modify fun w => { w with trace := w.trace.push e }

end Exec
end StepScript

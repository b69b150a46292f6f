import StepScript.Engine.Event

/-!
# StepScript.Engine.Tool

Tools that scripts call. The policy gate is asked for every capability that a tool requires
before the tool is entered.
-/

namespace StepScript

namespace Builtin

def name : Builtin → String
  | emitEvent => "emit_event"
  | len => "len"
  | typeOf => "type_of"
  | notEmpty => "not_empty"
  | listModels => "agentmodel.list"
  | isType type => "is_" ++ type

def requires : Builtin → List Capability
  | emitEvent => [.eventEmit]
  | listModels => [.modelRead]
  | _ => []

/-- The least and the greatest number of arguments. -/
def arity : Builtin → Nat × Nat
  | emitEvent => (1, 3)
  | listModels => (0, 0)
  | _ => (1, 1)

def all : List Builtin :=
  [emitEvent, len, typeOf, notEmpty, listModels, isType "string", isType "number", isType "bool",
    isType "list", isType "map"]

def tool (b : Builtin) : Tool := { name := b.name, requires := b.requires, action := .builtin b }

end Builtin

def Engine.builtinTools : Table Tool := Table.ofList (Builtin.all.map fun b => (b.name, b.tool))

namespace Exec

/-- The source of an event raised by a script. -/
def eventSource : Option Value → String
  | none | some .nil => "script"
  | some (.string s) => s
  | some v => v.display

def runBuiltin (engine : Engine) (f : Frame) (b : Builtin) (args : List Value) : Exec Value := do
  let (least, most) := b.arity
  if args.length < least ∨ most < args.length then
    fault (.toolArity b.name least most args.length)
  else
    let first := args.headD .nil
    match b with
    | .emitEvent =>
      match first with
      | .string name =>
        return .nat (← raise engine f name (eventSource args[1]?) (args[2]?.getD .nil))
      | v => fault (.eventNameType v.typeName)
    | .len => return .nat (← ofFault first.length)
    | .typeOf => return .string first.typeName
    | .notEmpty => return .bool first.truthy
    | .listModels => return .list ((← get).models.values.map AgentModel.toValue)
    | .isType type => return .bool (first.typeName = type)

/-- Asks the gate for each capability in turn. -/
def consultAll (engine : Engine) (tool : String) : List Capability → Exec Unit
  | [] => pure ()
  | c :: rest => do
    match engine.gate.check c with
    | .ok () => do
      note (.consult c true)
      consultAll engine tool rest
    | .error denied => do
      note (.consult c false)
      fail ((Fault.toolDenied tool c.text).error.withCause denied.message)

def invoke (engine : Engine) (f : Frame) (name : String) (args : List Value) : Exec Value := do
  match engine.tools.get? name with
  | none => fault (.toolMissing name)
  | some tool => do
    consultAll engine name tool.requires
    note (.enter name)
    match tool.action with
    | .builtin b => runBuiltin engine f b args
    | .host run => ofInterrupt (run f.caller args)

end Exec
end StepScript

import StepScript.Engine.Tool

/-!
# StepScript.Engine.Activation

Bodies that run in a fork of their own.

* `Activation` — a body with all that its fork needs.
* `Enter`      — how bodies are run in forks; what follows is written for any such way.
* `callProcedure`, `call` — calls of procedures and tools by name.
-/

namespace StepScript

/-- How a block ended: with the value returned or of its last step. -/
structure Outcome where
  value : Value
  returned : Bool := false
  /-- Was the failure cleared that the block reacts to? -/
  cleared : Bool := false

structure Activation where
  label : String
  outlet : Outlet
  body : Body
  /-- Locals that are bound before the body runs. -/
  bindings : List (String × Value) := []
  /-- The place of a failure to make the fork. -/
  position : Position := .unknown

abbrev Enter := Frame → Activation → Exec Outcome

/-- The arguments for the parameters; nil for those that are missing. -/
def Procedure.bindings (p : Procedure) (args : List Value) : List (String × Value) :=
  p.params.zip (args ++ List.replicate (p.params.length - args.length) .nil)

def Procedure.expected (p : Procedure) : String :=
  if p.arity.1 = p.arity.2 then toString p.arity.1 else s!"{p.arity.1}..={p.arity.2}"

/-- The tool that a name with the prefix of tools stands for. -/
def toolName? (name : String) : Option String :=
  match name.toList with
  | 't' :: 'o' :: 'o' :: 'l' :: '.' :: rest => some (String.ofList rest)
  | _ => none

namespace Exec

variable (engine : Engine) (enter : Enter) (f : Frame)

def callProcedure (name : String) (args : List Value) : Exec Value := do
  match (← get).root.procedures.get? name with
  | none => fault (.procedureMissing name)
  | some p =>
    if args.length < p.arity.1 ∨ p.arity.2 < args.length then
      fault (.procedureArity name p.expected args.length)
    else do
      let o ← enter f
        { label := name, outlet := f.outlet, body := p.body, bindings := p.bindings args }
      return if o.returned then o.value else .nil

/-- A procedure goes before a tool of the same name. -/
def call (name : String) (args : List Value) : Exec Value := do
  match toolName? name with
  | some tool => invoke engine f tool args
  | none =>
    if (← get).root.procedures.contains name then callProcedure enter f name args
    else if engine.tools.contains name then invoke engine f name args
    else fault (.procedureMissing name)

end Exec
end StepScript

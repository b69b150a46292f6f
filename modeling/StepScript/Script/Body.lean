import StepScript.Error.Fault
import StepScript.Script.Basic

/-!
# StepScript.Script.Body

Bodies ready to run.

* `Body.ofSteps` — takes the handler out of a body. A body declares at most one handler, at its
  top level; handlers are never run in line.
-/

namespace StepScript

/-- Steps without handlers, and the handler of the whole, if there is one. -/
structure Body where
  steps : List Step
  handler : Option (List Step) := none

namespace Body

def misplaced (p : Position) : RuntimeError := Fault.nestedHandler.error.withPosition p

mutual

/-- Looks for a handler inside the blocks of an action. -/
def checkAction : Action → Except RuntimeError Unit
  | .branch _ thenBlock elseBlock => do
    checkBlock thenBlock
    match elseBlock with
    | none => pure ()
    | some block => checkBlock block
  | .loop _ body => checkBlock body
  | .forEach _ _ body => checkBlock body
  | .onError body => checkBlock body
  | _ => pure ()

/-- Looks for a handler anywhere in a block; a handler itself is found before what is in it. -/
def checkBlock : List Step → Except RuntimeError Unit
  | [] => pure ()
  | .mk p action :: rest => do
    match action with
    | .onError _ => throw (misplaced p)
    | _ => checkAction action
    checkBlock rest

end

/-- The handler found so far, with its place. -/
abbrev Found := Option (Position × List Step)

def split : Found → List Step → Except RuntimeError Body
  | found, [] => .ok ⟨[], found.map (·.2)⟩
  | found, .mk p (.onError block) :: rest => do
    checkBlock block
    match found with
    | some (first, _) => throw ((Fault.secondHandler first).error.withPosition p)
    | none => split (some (p, block)) rest
  | found, step :: rest => do
    checkAction step.action
    let body ← split found rest
    return { body with steps := step :: body.steps }

def ofSteps (steps : List Step) : Except RuntimeError Body := split none steps

end Body
end StepScript

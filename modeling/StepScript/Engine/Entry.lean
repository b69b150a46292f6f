import StepScript.Engine.Executor

/-!
# StepScript.Engine.Entry

Entry points of an engine. The levels that are left below an instance bound how deep its scripts
can go: every body that runs in a fork has one level less, and without levels there is no fork.
-/

namespace StepScript
namespace Exec

/-- Runs bodies in forks of an instance that has the given number of levels below it. A body's
failure is what its caller may see of it, and its fork does not outlive it. -/
def enter (engine : Engine) : Nat → Enter
  | 0, parent, a => fail ((engine.refusal parent a.label).atIfUnknown a.position)
  | levels + 1, parent, a => do
    let child ← branch parent a.label a.body.handler a.outlet
    modify fun w => w.bindAll child.id a.bindings
    ensuring
      (mapError RuntimeError.leavingFrame (run engine (enter engine levels) child {} a.body.steps))
      (·.release child.id)

end Exec

namespace Engine

variable (engine : Engine) (f : Frame)

/-- How many levels of forks there can be below an instance. -/
def levels : Nat := engine.config.maxCallDepth - f.depth

def enter : Enter := fun f => Exec.enter engine (engine.levels f) f

def evaluate (e : Expression) : Exec Value := Exec.evaluate engine engine.enter f e

/-- Runs a block in an instance itself. -/
def runBlock (mode : Mode) (steps : List Step) : Exec Outcome :=
  Exec.run engine engine.enter f mode steps

def callProcedure (name : String) (args : List Value) : Exec Value :=
  Exec.callProcedure engine.enter f name args

def call (name : String) (args : List Value) : Exec Value :=
  Exec.call engine engine.enter f name args

def raise (name source : String) (payload : Value) : Exec Nat :=
  Exec.raise engine f name source payload

def executeCommands (c : Commands) : Exec Value := do
  let o ← engine.enter f
    { label := "commands", outlet := f.outlet, body := c.body, position := c.position }
  return o.value

/-- Runs steps as a command block. -/
def execute (steps : List Step) : Exec Value := do
  executeCommands engine f ⟨← Exec.ofExcept (Body.ofSteps steps), .unknown⟩

def executeAll : List Commands → Value → Exec Value
  | [], last => pure last
  | c :: rest, _ => do executeAll rest (← executeCommands engine f c)

/-- Runs the command blocks of the program in order, up to the first that fails. -/
def executeLoaded : Exec Value := do executeAll engine f (← get).root.commands .nil

end Engine
end StepScript

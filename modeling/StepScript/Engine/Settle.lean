import StepScript.Engine.Program

/-!
# StepScript.Engine.Settle

Running the event handlers that an operation started. Handlers run in the order in which they were
started, and those that they start run after them. Each round of handlers is one level of forks
below the round before, so the rounds come to an end.
-/

namespace StepScript

/-- A crash of a handler as a failure. -/
def crashError (text : Option String) : RuntimeError :=
  (Fault.handlerCrashed (text.getD "unknown panic payload")).error

namespace Engine

variable (engine : Engine)

/-- The body of a started handler, with the event in its variable. -/
def handlerBody (p : Pending) : Exec Outcome := do
  match p.handler.payloadVariable with
  | some name => Exec.bindLocal p.frame name p.event
  | none => pure ()
  Exec.mapError RuntimeError.leavingFrame (engine.runBlock p.frame {} p.handler.body.steps)

/-- Why a handler did not come to its end, if it did not. -/
def failureOf : Except Interrupt Outcome → Option RuntimeError
  | .ok _ => none
  | .error (.failed e) => some e
  | .error (.crashed text) => some (crashError text)

/-- Runs a started handler in a world with an empty trace; the host hears of its failure. -/
def runPending (p : Pending) (w : World) : World :=
  let (result, w) := handlerBody engine p { w with trace := #[] }
  let w := w.release p.frame.id
  match failureOf result with
  | none => w
  | some e => (Exec.report engine p.eventName p.source e w).2

/-- Runs handlers in order and keeps the trace of each. -/
def runRound : List Pending → World → List (Array Effect) × World
  | [], w => ([], w)
  | p :: rest, w =>
    let w := runPending engine p w
    let trace := w.trace
    let (traces, w) := runRound rest w
    (trace :: traces, w)

/-- Runs round after round until no handler waits. -/
def settleRounds : Nat → World → List (Array Effect) × World
  | 0, w => ([], w)
  | rounds + 1, w =>
    match w.pending with
    | [] => ([], w)
    | round =>
      let (traces, w) := runRound engine round { w with pending := [] }
      let (later, w) := settleRounds rounds w
      (traces ++ later, w)

def settle (w : World) : List (Array Effect) × World :=
  settleRounds engine engine.config.maxCallDepth w

/-- An operation with all handlers that it started. -/
structure Settled (α : Type) where
  result : Except Interrupt α
  /-- What the operation itself did. -/
  trace : Array Effect
  /-- What each handler did, in the order of their start. -/
  handlers : List (Array Effect)
  world : World

def perform {α : Type} (x : Exec α) (w : World) : Settled α :=
  let (result, w) := x { w with trace := #[] }
  let trace := w.trace
  let (handlers, w) := engine.settle w
  { result := result, trace := trace, handlers := handlers, world := w }

end Engine
end StepScript

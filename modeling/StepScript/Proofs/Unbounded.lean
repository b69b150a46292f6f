import StepScript.Proofs.Closure
import StepScript.Proofs.Operation

/-!
# StepScript.Proofs.Unbounded

The engine as a plain recursion that nothing bounds in advance. A loop counts its passes and looks
at the limit before each one, a fork looks at its depth, a conversation goes on for as long as that
is the verdict on its last turn, handlers are run for as long as some wait, and a handler is a block
like any other, with a mode that keeps it from being handled. So this is no executor with some parts
exchanged (`Hooks`): it counts upwards where that one counts down.

* `block`, `step`, `loop`, `each`, `recover`, `enter`, `converse` — the recursion. An allowance is
  used up by every call in it; `Cut` is what comes out when there is none left.
* `Unbounded.perform` — an operation with all handlers that it starts.
-/

namespace StepScript

/-- What comes out of a recursion that is cut off: anything. -/
structure Cut where
  exec (α : Type) : Exec α
  settle : World → List (Array Effect) × World

namespace Unbounded

open Exec

variable (engine : Engine) (cut : Cut)

mutual

/-- The steps from here on, after a value and perhaps a clearing before them. -/
def block : Nat → Frame → Mode → List Step → Value → Bool → Exec Outcome
  | 0, _, _, _, _, _ => cut.exec _
  | _ + 1, _, _, [], last, cleared => return { value := last, cleared := cleared }
  | n + 1, f, mode, .mk p action :: rest, _, cleared => do
    match ← attempt (step n f mode p action) with
    | .ok ⟨v, .proceed⟩ => block n f mode rest v cleared
    | .ok ⟨v, .cleared⟩ => block n f mode rest v true
    | .ok ⟨v, .returned⟩ => return { value := v, returned := true, cleared := cleared }
    | .error e => do
      recover n f mode (e.atIfUnknown p)
      block n f mode rest .nil cleared

def step : Nat → Frame → Mode → Position → Action → Exec StepResult
  | 0, _, _, _, _ => cut.exec _
  | n + 1, f, mode, _, .branch condition thenBlock elseBlock => do
    if (← evaluate engine (enter n) f condition).truthy then
      return .ofOutcome (← block n f mode thenBlock .nil false)
    else match elseBlock with
      | some steps => return .ofOutcome (← block n f mode steps .nil false)
      | none => return ⟨.nil, .proceed⟩
  | n + 1, f, mode, _, .loop condition body => loop n f mode condition body 0 false
  | n + 1, f, mode, _, .forEach item collection body => do
    let items ← ofFault (← evaluate engine (enter n) f collection).items
    each n f mode item body items 0 false
  | n + 1, f, _, p, .ask agentModel prompt into => do
    let m ← evaluate engine (enter n) f agentModel
    let q ← evaluate engine (enter n) f prompt
    let v ← askWith (fun t => converse n f t 1 none) m q p
    match into with
    | some target => assign engine (enter n) f target v
    | none => pure ()
    return ⟨v, .proceed⟩
  | n + 1, f, mode, p, action => execSimple engine (enter n) f mode p action

def loop : Nat → Frame → Mode → Expression → List Step → Nat → Bool → Exec StepResult
  | 0, _, _, _, _, _, _ => cut.exec _
  | n + 1, f, mode, condition, body, passes, cleared => do
    if (← evaluate engine (enter n) f condition).truthy then
      if engine.config.maxLoopIterations < passes + 1 then
        fault (.loopExceeded engine.config.maxLoopIterations)
      else match ← pass (block n f mode body .nil false) with
        | .returned v => pure ⟨v, .returned⟩
        | .leave => pure (.ofLoop cleared)
        | .next c => loop n f mode condition body (passes + 1) (cleared || c)
    else pure (.ofLoop cleared)

/-- The items of a loop from here on, after some passes. -/
def each : Nat → Frame → Mode → String → List Step → List Value → Nat → Bool → Exec StepResult
  | 0, _, _, _, _, _, _, _ => cut.exec _
  | _ + 1, _, _, _, _, [], _, cleared => pure (.ofLoop cleared)
  | n + 1, f, mode, item, body, v :: rest, passes, cleared =>
    if engine.config.maxLoopIterations < passes + 1 then
      fault (.loopExceeded engine.config.maxLoopIterations)
    else do
      write engine f item v
      match ← pass (block n f mode body .nil false) with
      | .returned v => pure ⟨v, .returned⟩
      | .leave => pure (.ofLoop cleared)
      | .next c => each n f mode item body rest (passes + 1) (cleared || c)

def recover : Nat → Frame → Mode → RuntimeError → Exec Unit
  | 0, _, _, _ => cut.exec _
  | n + 1, f, mode, e =>
    if e.isControl || mode.inHandler || e.handled then fail e
    else match f.handler with
      | none => fail e
      | some handler => do
        note (.recover f.id e)
        bindLocal f engine.config.errorVariable e.toValue
        let mode := { inHandler := true, active := some e }
        match ← attempt (block n f mode handler .nil false) with
        | .ok o => if o.cleared then pure () else fail e.markHandled
        | .error inner => fail inner.markHandled

/-- Runs a body in a fork, if the fork is not too deep. -/
def enter : Nat → Frame → Activation → Exec Outcome
  | 0, _, _ => cut.exec _
  | n + 1, parent, a => do
    let child ← mapError (·.atIfUnknown a.position)
      (fork engine parent a.label a.body.handler a.outlet)
    modify fun w => w.bindAll child.id a.bindings
    ensuring (mapError RuntimeError.leavingFrame (block n child {} a.body.steps .nil false))
      (·.release child.id)

def converse : Nat → Frame → Talk → Nat → Option String → Exec String
  | 0, _, _, _, _ => cut.exec _
  | n + 1, f, t, turn, previous => do
    let (reply, output) ← takeTurn engine (enter n) f t turn previous
    match verdict t.model reply.control turn previous output with
    | .again => converse n f t (turn + 1) (some output)
    | v => conclude t turn output v

end

/-- Command blocks in order, however their bodies are run. -/
def commands (enter : Enter) (f : Frame) : List Commands → Value → Exec Value
  | [], last => pure last
  | c :: rest, _ => do
    let o ← enter f
      { label := "commands", outlet := f.outlet, body := c.body, position := c.position }
    commands enter f rest o.value

/-- An operation, however bodies are run. -/
def operation (enter : Enter) (f : Frame) : {α : Type} → Operation α → Exec α
  | _, .evaluate e => evaluate engine enter f e
  | _, .run procedure args => callProcedure enter f procedure args
  | _, .call name args => call engine enter f name args
  | _, .execute steps => do
    commands enter f [⟨← ofExcept (Body.ofSteps steps), .unknown⟩] .nil
  | _, .executeLoaded => do commands enter f (← get).root.commands .nil
  | _, .raise event source payload => raise engine f event source payload

section Waiting

variable (run : Frame → List Step → Exec Outcome)

/-- The body of a started handler, however bodies are run. -/
def handlerBody (p : Pending) : Exec Outcome := do
  match p.handler.payloadVariable with
  | some name => bindLocal p.frame name p.event
  | none => pure ()
  mapError RuntimeError.leavingFrame (run p.frame p.handler.body.steps)

/-- The fork of a handler goes when the handler has run, and the host hears of its failure. -/
def endPending (p : Pending) (r : Except Interrupt Outcome × World) : World :=
  match Engine.failureOf r.1 with
  | none => r.2.release p.frame.id
  | some e => (report engine p.eventName p.source e (r.2.release p.frame.id)).2

def runPending (p : Pending) (w : World) : World :=
  endPending engine p (handlerBody run p { w with trace := #[] })

def runRound : List Pending → World → List (Array Effect) × World
  | [], w => ([], w)
  | p :: rest, w =>
    let w := runPending engine run p w
    let trace := w.trace
    let (traces, w) := runRound rest w
    (trace :: traces, w)

end Waiting

def body (n : Nat) (f : Frame) (steps : List Step) : Exec Outcome :=
  block engine cut n f {} steps .nil false

def settle : Nat → World → List (Array Effect) × World
  | 0, w => cut.settle w
  | n + 1, w =>
    match w.pending with
    | [] => ([], w)
    | round =>
      let (traces, w) := runRound engine (body engine cut n) round { w with pending := [] }
      let (later, w) := settle n w
      (traces ++ later, w)

def perform {α : Type} (n : Nat) (f : Frame) (op : Operation α) (w : World) : Engine.Settled α :=
  let (result, w) := operation engine (enter engine cut n) f op { w with trace := #[] }
  let trace := w.trace
  let (handlers, w) := settle engine cut n w
  { result := result, trace := trace, handlers := handlers, world := w }

end Unbounded
end StepScript

import StepScript.Engine.Ask

/-!
# StepScript.Engine.Executor

Evaluation of expressions and execution of steps in one instance.

* `evaluate` — the value of an expression, operands from left to right.
* `runBlock` — the steps of a block in order. A step proceeds, returns from the body or, inside a
  handler, clears the failure that the handler reacts to.
* `recover`  — what happens to a failure of a step: the instance's handler sees it once, and only
  a cleared failure lets the block go on after the failed step.
* `run`      — a block as the body of an instance or as a handler.
-/

namespace StepScript

/-- How the steps of a block are meant: as the body of an instance or as a handler, and which
failure they react to. -/
structure Mode where
  inHandler : Bool := false
  active : Option RuntimeError := none

/-- Where to go after a step. -/
inductive Flow where
  | proceed
  | returned
  | cleared
  deriving DecidableEq, Repr

structure StepResult where
  value : Value
  flow : Flow := .proceed

namespace StepResult

/-- A block as a step of the block around it. -/
def ofOutcome (o : Outcome) : StepResult :=
  ⟨o.value, if o.returned then .returned else if o.cleared then .cleared else .proceed⟩

/-- A loop that came to its end has no value. -/
def ofLoop (cleared : Bool) : StepResult := ⟨.nil, if cleared then .cleared else .proceed⟩

end StepResult

/-- Where to go after one pass through the body of a loop. -/
inductive LoopFlow where
  | leave
  | next (cleared : Bool)
  | returned (value : Value)

namespace Exec

/-- One pass through the body of a loop, which catches the signals meant for it. -/
def pass (body : Exec Outcome) : Exec LoopFlow := do
  match ← attempt body with
  | .ok o => return if o.returned then .returned o.value else .next o.cleared
  | .error e =>
    match e.code with
    | .break => return .leave
    | .continue => return .next false
    | _ => fail e

/-- Runs a body as long as a condition holds, at most `left` times more. -/
def repeatWhile (limit : Nat) (condition : Exec Bool) (body : Exec Outcome) :
    Nat → Bool → Exec StepResult
  | 0, cleared => do
    if ← condition then fault (.loopExceeded limit) else pure (.ofLoop cleared)
  | left + 1, cleared => do
    if ← condition then
      match ← pass body with
      | .returned v => pure ⟨v, .returned⟩
      | .leave => pure (.ofLoop cleared)
      | .next c => repeatWhile limit condition body left (cleared || c)
    else pure (.ofLoop cleared)

/-- Runs a body for each item, at most `left` times more. -/
def repeatFor (limit : Nat) (visit : Value → Exec Unit) (body : Exec Outcome) :
    List Value → Nat → Bool → Exec StepResult
  | [], _, cleared => pure (.ofLoop cleared)
  | _ :: _, 0, _ => fault (.loopExceeded limit)
  | v :: rest, left + 1, cleared => do
    visit v
    match ← pass body with
    | .returned v => pure ⟨v, .returned⟩
    | .leave => pure (.ofLoop cleared)
    | .next c => repeatFor limit visit body rest left (cleared || c)

section

variable (engine : Engine) (enter : Enter) (f : Frame)

mutual

def evaluate : Expression → Exec Value
  | .literal l => pure (.ofLiteral l)
  | .variable name => read engine f name
  | .list items => do return .list (← evaluateAll items)
  | .map entries => do return .map (← evaluateEntries entries [])
  | .binary op left right => do
    let l ← evaluate left
    match Value.shortCircuit op l with
    | some v => pure v
    | none => do
      let r ← evaluate right
      ofFault (Value.binary op l r)
  | .unary op operand => do ofFault (Value.unary op (← evaluate operand))
  | .index target key => do
    let t ← evaluate target
    let k ← evaluate key
    ofFault (Value.index t k)
  | .call name args => do call engine enter f name (← evaluateAll args)

def evaluateAll : List Expression → Exec (List Value)
  | [] => pure []
  | e :: rest => do
    let v ← evaluate e
    return v :: (← evaluateAll rest)

/-- Of two entries of one name the later wins. -/
def evaluateEntries : List (String × Expression) → List (String × Value) →
    Exec (List (String × Value))
  | [], done => pure done
  | (k, e) :: rest, done => do
    let v ← evaluate e
    evaluateEntries rest (Entries.insert k v done)

end

def assign (target : Target) (v : Value) : Exec Unit := do
  match target with
  | .variable name => write engine f name v
  | .element name key => do
    let k ← evaluate engine enter f key
    let container ← read engine f name
    write engine f name (← ofFault (container.setElement k v))

def assignEach : List Target → List Value → Exec Unit
  | t :: ts, v :: vs => do
    assign engine enter f t v
    assignEach ts vs
  | _, _ => pure ()

/-- One target takes the value; several take the items of a list of their number. -/
def assignAll (targets : List Target) (v : Value) : Exec Unit :=
  match targets, v with
  | [t], v => assign engine enter f t v
  | ts, .list vs =>
    if vs.length = ts.length then assignEach engine enter f ts vs
    else fault (.assignCount v.describeCount ts.length)
  | ts, v => fault (.assignCount v.describeCount ts.length)

/-- An emission reaches a capture always and the host if it listens. -/
def emit (v : Value) : Exec Unit :=
  if f.outlet ≠ .host ∨ engine.host.emit then note (.emit f.outlet v) else pure ()

def whisper (handle data : Value) : Exec Unit :=
  if engine.host.whisper then note (.whisper handle data) else pure ()

def promptUser (text : String) : Exec Value := do
  match engine.host.prompter with
  | none => fault .noPrompter
  | some prompter => do
    note (.prompt text)
    let n := (← get).prompts
    modify fun w => { w with prompts := n + 1 }
    ofExcept (prompter n text)

/-- The value of a `return`: none is nil, several are a list. -/
def returnValue : List Value → Value
  | [] => .nil
  | [v] => v
  | vs => .list vs

/-- The actions without blocks. -/
def execSimple (mode : Mode) (p : Position) : Action → Exec StepResult
  | .set targets value => do
    let v ← evaluate engine enter f value
    assignAll engine enter f targets v
    return ⟨v, .proceed⟩
  | .call e | .expression e => do return ⟨← evaluate engine enter f e, .proceed⟩
  | .ret values =>
    if mode.inHandler then fault .returnInHandler
    else do return ⟨returnValue (← evaluateAll engine enter f values), .returned⟩
  | .emit e => do
    let v ← evaluate engine enter f e
    emit engine f v
    return ⟨v, .proceed⟩
  | .whisper handle data => do
    let h ← evaluate engine enter f handle
    let d ← evaluate engine enter f data
    whisper engine h d
    return ⟨d, .proceed⟩
  | .must e => do
    match ← attempt (evaluate engine enter f e) with
    | .ok v => if v.truthy then return ⟨v, .proceed⟩ else fault (.mustFalse v.display)
    | .error e =>
      if e.isControl then fail e
      else fail ((Fault.mustFailed e.message).error.withCause e.display)
  | .mustBe check args => do
    let vs ← evaluateAll engine enter f args
    match ← attempt (call engine enter f check vs) with
    | .ok v => if v.truthy then return ⟨v, .proceed⟩ else fault (.checkFalse check v.display)
    | .error e => fail ((Fault.checkFailed check e.message).error.withCause e.display)
  | .fail (some e) => do fault (.failStep (← evaluate engine enter f e).display)
  | .fail none =>
    match mode.active with
    | some e => fail e
    | none => fault (.failStep "fail")
  | .clearError =>
    if mode.inHandler then do
      note (.clear f.id)
      return ⟨.nil, .cleared⟩
    else fault .clearOutsideHandler
  | .ask agentModel prompt into => do
    let m ← evaluate engine enter f agentModel
    let q ← evaluate engine enter f prompt
    let v ← ask engine enter f m q p
    match into with
    | some target => assign engine enter f target v
    | none => pure ()
    return ⟨v, .proceed⟩
  | .promptUser prompt into => do
    let q ← evaluate engine enter f prompt
    let v ← promptUser engine q.display
    assign engine enter f into v
    return ⟨v, .proceed⟩
  | .breakLoop => fault .breakSignal
  | .continueLoop => fault .continueSignal
  | .branch .. | .loop .. | .forEach .. | .onError _ => return ⟨.nil, .proceed⟩

variable (mode : Mode) (recover : RuntimeError → Exec Unit)

mutual

def execAction (p : Position) : Action → Exec StepResult
  | .branch condition thenBlock elseBlock => do
    if (← evaluate engine enter f condition).truthy then
      return .ofOutcome (← runBlock thenBlock .nil false)
    else match elseBlock with
      | some block => return .ofOutcome (← runBlock block .nil false)
      | none => return ⟨.nil, .proceed⟩
  | .loop condition body =>
    repeatWhile engine.config.maxLoopIterations
      (do return (← evaluate engine enter f condition).truthy)
      (runBlock body .nil false) engine.config.maxLoopIterations false
  | .forEach item collection body => do
    let items ← ofFault (← evaluate engine enter f collection).items
    repeatFor engine.config.maxLoopIterations (write engine f item) (runBlock body .nil false)
      items engine.config.maxLoopIterations false
  | action => execSimple engine enter f mode p action

/-- The steps from here on, after a value and perhaps a clearing before them. -/
def runBlock : List Step → Value → Bool → Exec Outcome
  | [], last, cleared => return { value := last, cleared := cleared }
  | .mk p action :: rest, _, cleared => do
    match ← attempt (execAction p action) with
    | .ok ⟨v, .proceed⟩ => runBlock rest v cleared
    | .ok ⟨v, .cleared⟩ => runBlock rest v true
    | .ok ⟨v, .returned⟩ => return { value := v, returned := true, cleared := cleared }
    | .error e => do
      recover (e.atIfUnknown p)
      runBlock rest .nil cleared

end

end

section

variable (engine : Engine) (enter : Enter) (f : Frame)

/-- Runs a handler for a failure. Failures inside a handler end it. -/
def runHandler (active : Option RuntimeError) (block : List Step) : Exec Outcome :=
  runBlock engine enter f { inHandler := true, active := active } fail block .nil false

/-- Gives the instance's handler its one chance. Loop signals and failures that a handler has
seen pass by. -/
def recover (e : RuntimeError) : Exec Unit :=
  if e.isControl || e.handled then fail e
  else match f.handler with
    | none => fail e
    | some block => do
      note (.recover f.id e)
      bindLocal f engine.config.errorVariable e.toValue
      match ← attempt (runHandler engine enter f (some e) block) with
      | .ok o => if o.cleared then pure () else fail e.markHandled
      | .error inner => fail inner.markHandled

/-- Runs a block in an instance. -/
def run (mode : Mode) (steps : List Step) : Exec Outcome :=
  if mode.inHandler then runHandler engine enter f mode.active steps
  else runBlock engine enter f mode (recover engine enter f) steps .nil false

end

end Exec
end StepScript

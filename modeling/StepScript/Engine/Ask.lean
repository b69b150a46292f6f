import StepScript.Engine.Activation

/-!
# StepScript.Engine.Ask

Conversations with agents. In each turn the agent gets a request and answers with a script, which
runs in a fork whose emissions, one a line, are the output of the turn.
-/

namespace StepScript

/-- A conversation with one agent. -/
structure Talk where
  model : AgentModel
  provider : Registration
  apiKey : String
  prompt : Json
  conversation : Conversation
  position : Position

/-- The values that went into a capture. -/
def captured (serial : Nat) (effects : List Effect) : List Value :=
  effects.filterMap fun
    | .emit outlet v => if outlet = .capture serial then some v else none
    | _ => none

def capturedLines (serial : Nat) (trace : Array Effect) : List String :=
  (captured serial trace.toList).map Value.display

namespace Exec

variable (engine : Engine) (enter : Enter) (f : Frame)

/-- Puts a failure at a place, whatever place it had. -/
def placed {α : Type} (p : Position) (x : Except RuntimeError α) : Exec α :=
  match x with
  | .ok a => pure a
  | .error e => fail (e.withPosition p)

/-- Calls a provider and keeps a record of the call. -/
def chat (r : Registration) (context : ChatContext) (request : ChatRequest) :
    Exec (Except ProviderError ChatReply) := do
  let earlier := ((← get).calls.filter (·.serial = r.serial)).size
  let entry : ProviderCall :=
    { serial := r.serial, provider := r.provider.name, transcribed := r.provider.transcribed,
      context := context, request := request }
  modify fun w => { w with calls := w.calls.push entry }
  return r.provider.chat earlier context request

/-- One request and the reply to it. -/
def exchange (t : Talk) (turn : Nat) (previous : Option String) : Exec Envelope := do
  let context : ChatContext :=
    { conversation := t.conversation, turn := turn, deadline := engine.host.deadline }
  let request : ChatRequest :=
    { model := t.model.model
      prompt := (Envelope.request t.model.name t.prompt turn previous).toPrompt
      apiKey := t.apiKey
      temperature := t.model.temperature.getD engine.config.ask.temperature
      maxTokens := engine.config.ask.maxTokens }
  match ← chat t.provider context request with
  | .error e => fail (e.toRuntimeError.withPosition t.position)
  | .ok reply =>
    match Envelope.parse reply.text with
    | .ok e => pure e
    | .error e =>
      fail (((Fault.malformedReply t.model.name).error.withPosition t.position).withCause e.message)

/-- Runs the script of a reply and returns what it emitted. -/
def act (t : Talk) (turn : Nat) (reply : Envelope) : Exec String := do
  let steps ← placed t.position ((engine.grammar reply.script).mapError ParseError.toRuntimeError)
  let body ← ofExcept ((Body.ofSteps steps).mapError (·.atIfUnknown t.position))
  let serial := (← get).captures
  modify fun w => { w with captures := serial + 1 }
  let _ ← enter f
    { label := s!"ask:{t.model.name}#{turn}", outlet := .capture serial, body := body }
  return "\n".intercalate (capturedLines serial (← get).trace)

def takeTurn (t : Talk) (turn : Nat) (previous : Option String) : Exec (Envelope × String) := do
  let reply ← exchange engine t turn previous
  return (reply, ← act engine enter f t turn reply)

/-- The end of a conversation after some turn. -/
def conclude (t : Talk) (turn : Nat) (output : String) : Verdict → Exec String
  | .again | .finished => pure output
  | .aborted reason => fail ((Fault.agentAborted t.model.name reason).error.withPosition t.position)
  | .rejected => fail ((Fault.loopRejected t.model.name (turn + 1)).error.withPosition t.position)

/-- The conversation from a turn on, after which `left` turns may follow. -/
def converse (t : Talk) : Nat → Nat → Option String → Exec String
  | 0, turn, previous => do
    let (reply, output) ← takeTurn engine enter f t turn previous
    conclude t turn output (verdict t.model reply.control turn previous output)
  | left + 1, turn, previous => do
    let (reply, output) ← takeTurn engine enter f t turn previous
    match verdict t.model reply.control turn previous output with
    | .again => converse t left (turn + 1) (some output)
    | v => conclude t turn output v

/-- The key that goes with a model. -/
def apiKey (w : World) (m : AgentModel) : Except StoreError String :=
  match m.account with
  | none => .ok ""
  | some name => (Account.kind.get w.accounts name).map (·.apiKey)

def ask (agentModel prompt : Value) (p : Position) : Exec Value := do
  match agentModel with
  | .string name => do
    let w ← get
    let model ← placed p ((AgentModel.kind.get w.models name).mapError StoreError.toRuntimeError)
    let provider ← placed p ((w.providers.get model.provider).mapError fun e =>
      (Fault.providerMissing model.name).error.withCause e.message)
    let key ← placed p ((apiKey w model).mapError StoreError.toRuntimeError)
    set { w with conversations := w.conversations + 1 }
    let t : Talk :=
      { model := model, provider := provider, apiKey := key, prompt := prompt.toJson,
        conversation := .ask w.conversations, position := p }
    return .string (← converse engine enter f t (model.maxTurns - 1) 1 none)
  | v => fail ((Fault.modelNameType v.typeName).error.withPosition p)

end Exec
end StepScript

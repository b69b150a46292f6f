import StepScript.Error.Fault
import StepScript.Table

/-!
# StepScript.Agent.Provider

Providers answer requests on behalf of agents.

* `Provider` — a named source of replies, which may depend on how often it was called before.
* `Provider.expert`   — answers by the longest known pattern in the prompt.
* `Provider.scripted` — gives prepared replies in order, the last one again and again.
* `ProviderRegistry`  — providers by name, one of them primary.

As with the stores, a change gives the registry after it or an error, all in one step. So it is the
shape of `register`, `setPrimary` and `unregister` that leaves a registry as it is when one fails.
-/

namespace StepScript

inductive ProviderError where
  | authentication (message : String)
  | api (message : String)
  | rateLimit (message : String)
  | invalidRequest (message : String)
  | deadlineExceeded
  | notFound (name : String)
  | alreadyRegistered (name : String)
  deriving DecidableEq, Repr

namespace ProviderError

def message : ProviderError → String
  | authentication m => "Authentication error: " ++ m
  | api m => "API error: " ++ m
  | rateLimit m => "Rate limit exceeded: " ++ m
  | invalidRequest m => "Invalid request: " ++ m
  | deadlineExceeded => "Deadline exceeded"
  | notFound name => "Provider not found: " ++ name
  | alreadyRegistered name => "Provider already registered: " ++ name

def toRuntimeError (e : ProviderError) : RuntimeError :=
  Fault.providerFailed.error.withCause e.message

end ProviderError

/-- What a call belongs to: an `ask` of a script, counted from zero, or a direct call. -/
inductive Conversation where
  | direct
  | ask (serial : Nat)
  deriving DecidableEq, Repr

structure ChatContext where
  conversation : Conversation
  turn : Nat
  deadline : Bool
  deriving DecidableEq, Repr

structure ChatRequest where
  model : String
  prompt : String
  apiKey : String
  temperature : Float32
  maxTokens : Option Nat
  deriving DecidableEq

/-- Conversations read the text. The model and the reason why the reply ended are for those who call
a provider directly. -/
structure ChatReply where
  text : String
  model : String := ""
  finishReason : Option String := none
  deriving DecidableEq, Repr

/-- `chat n` answers the call that follows `n` earlier ones. The host sees the calls of a
transcribed provider. -/
structure Provider where
  name : String
  transcribed : Bool := false
  chat : Nat → ChatContext → ChatRequest → Except ProviderError ChatReply

namespace Provider

/-- Does the pattern stand anywhere in the text? -/
def occurs (pattern : List Char) : List Char → Bool
  | [] => pattern.isEmpty
  | c :: rest => pattern.isPrefixOf (c :: rest) || occurs pattern rest

/-- The longer of two patterns with their answers, in bytes; the later one if they are equal. -/
def longer (a b : String × String) : String × String :=
  if a.1.utf8ByteSize ≤ b.1.utf8ByteSize then b else a

/-- The answer to the longest pattern that occurs in the prompt. -/
def answer? (answers : Table String) (prompt : String) : Option String :=
  match answers.entries.filter fun p => occurs p.1.toList prompt.toList with
  | [] => none
  | p :: rest => some (rest.foldl longer p).2

def expert (name : String) (answers : Table String) : Provider where
  name := name
  chat _ _ request :=
    match answer? answers request.prompt with
    | some text => .ok { text := text, model := request.model, finishReason := some "stop" }
    | none => .error (.api "No response found")

def scripted (name : String) (replies : List (Except ProviderError String)) : Provider where
  name := name
  transcribed := true
  chat earlier _ _ :=
    match replies[earlier]?.or replies.getLast? with
    | none => .ok { text := "" }
    | some (.ok text) => .ok { text := text }
    | some (.error e) => .error e

end Provider

/-- A provider with the serial number under which its calls are counted. -/
structure Registration where
  serial : Nat
  provider : Provider

structure ProviderRegistry where
  providers : Table Registration := {}
  primary : Option String := none
  registered : Nat := 0

namespace ProviderRegistry

/-- The first provider becomes primary, and so does the first one after the primary left. -/
def register (r : ProviderRegistry) (name : String) (p : Provider) :
    Except ProviderError ProviderRegistry :=
  if r.providers.contains name then .error (.alreadyRegistered name)
  else .ok
    { providers := r.providers.insert name ⟨r.registered, p⟩
      primary := r.primary.or (some name)
      registered := r.registered + 1 }

def setPrimary (r : ProviderRegistry) (name : String) : Except ProviderError ProviderRegistry :=
  if r.providers.contains name then .ok { r with primary := some name }
  else .error (.notFound name)

def unregister (r : ProviderRegistry) (name : String) : Except ProviderError ProviderRegistry :=
  if r.providers.contains name then
    .ok { r with
      providers := r.providers.erase name
      primary := if r.primary = some name then none else r.primary }
  else .error (.notFound name)

/-- The provider of a name; the empty name stands for the primary one. -/
def get (r : ProviderRegistry) (name : String) : Except ProviderError Registration := do
  let name ← if name.isEmpty then
      match r.primary with
      | some primary => .ok primary
      | none => .error (.notFound "<primary>")
    else .ok name
  match r.providers.get? name with
  | some p => .ok p
  | none => .error (.notFound name)

end ProviderRegistry
end StepScript

import StepScript.Agent.Store
import StepScript.Text.Blank

/-!
# StepScript.Agent.Model

Agent models, which scripts ask by name, and the accounts that pay for them.
-/

namespace StepScript

/-- A model of some provider under a name of its own. An empty provider stands for the primary
one; a model that may loop takes up to `maxTurns` turns in one conversation. -/
structure AgentModel where
  name : String
  provider : String := ""
  model : String
  account : Option String := none
  allowLoop : Bool := false
  maxTurns : Nat := 5
  temperature : Option Float32 := none
  deriving DecidableEq

namespace AgentModel

def looping (m : AgentModel) (maxTurns : Nat) : AgentModel :=
  { m with allowLoop := true, maxTurns := maxTurns }

def kind : RecordKind AgentModel where
  label := "agent model"
  name := AgentModel.name
  defect? m :=
    if (Text.trim m.name.toList).isEmpty then some "name must not be empty"
    else if m.maxTurns = 0 then some "max_turns must be positive"
    else none

/-- What scripts see of a model; the count of turns is read as a signed 64-bit word. -/
def toValue (m : AgentModel) : Value :=
  .map [("allow_loop", .bool m.allowLoop),
    ("max_turns", .number (Float.ofInt (Int.bmod m.maxTurns (powTwo 64)))),
    ("model", .string m.model), ("name", .string m.name), ("provider", .string m.provider)]

end AgentModel

/-- Credentials. The key goes to providers and never becomes a value of a script. -/
structure Account where
  name : String
  provider : String
  apiKey : String
  deriving DecidableEq

def Account.kind : RecordKind Account where
  label := "account"
  name := Account.name
  defect? _ := none

def Json.Decoder.agentModel : Json.Decoder AgentModel := fun n doc => do
  let fs ← doc.record?
    ["name", "provider", "model", "account", "allow_loop", "max_turns", "temperature"] n
  let m := n - 1
  return { name := ← fs.required "name" (string m)
           provider := ← fs.withDefault "provider" "" (string m)
           model := ← fs.required "model" (string m)
           account := ← fs.withDefault "account" none (optional string m)
           allowLoop := ← fs.withDefault "allow_loop" false (bool m)
           maxTurns := ← fs.withDefault "max_turns" 5 (nat m)
           temperature := ← fs.withDefault "temperature" none (optional float32 m) }

end StepScript

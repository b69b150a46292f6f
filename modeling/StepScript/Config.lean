import StepScript.Json.Decode
import StepScript.Text.Blank

/-!
# StepScript.Config

Settings of an engine.
-/

namespace StepScript

/-- Settings of requests to agents, where the agent model does not say otherwise. -/
structure AskConfig where
  temperature : Float32 := 0.2
  maxTokens : Option Nat := none
  deriving DecidableEq

structure Config where
  maxLoopIterations : Nat := 1000
  maxCallDepth : Nat := 64
  allowRedefinition : Bool := false
  errorVariable : String := "system_error"
  ask : AskConfig := {}
  deriving DecidableEq

inductive ConfigError where
  | unreadable
  | malformed
  | noIterations
  | noDepth
  | noErrorVariable
  deriving DecidableEq, Repr

namespace ConfigError

def message : ConfigError → String
  | unreadable => "Failed to open config file"
  | malformed => "Failed to parse config"
  | noIterations => "Invalid config: max_loop_iterations must be positive"
  | noDepth => "Invalid config: max_call_depth must be positive"
  | noErrorVariable => "Invalid config: error_variable must not be empty"

end ConfigError

namespace Config

/-- Ceilings are positive and the error variable has a name. -/
def validate (c : Config) : Except ConfigError Unit :=
  if c.maxLoopIterations = 0 then .error .noIterations
  else if c.maxCallDepth = 0 then .error .noDepth
  else if (Text.trim c.errorVariable.toList).isEmpty then .error .noErrorVariable
  else .ok ()

end Config

namespace Json.Decoder

def askConfig : Decoder AskConfig := fun n doc => do
  let fs ← doc.record? ["temperature", "max_tokens"] n
  let standard : AskConfig := {}
  return { temperature := ← fs.withDefault "temperature" standard.temperature (float32 (n - 1))
           maxTokens := ← fs.withDefault "max_tokens" none (optional nat (n - 1)) }

def config : Decoder Config := fun n doc => do
  let fs ← doc.record?
    ["max_loop_iterations", "max_call_depth", "allow_redefinition", "error_variable", "ask"] n
  let m := n - 1
  let standard : Config := {}
  return { maxLoopIterations :=
             ← fs.withDefault "max_loop_iterations" standard.maxLoopIterations (nat m)
           maxCallDepth := ← fs.withDefault "max_call_depth" standard.maxCallDepth (nat m)
           allowRedefinition := ← fs.withDefault "allow_redefinition" false (bool m)
           errorVariable := ← fs.withDefault "error_variable" standard.errorVariable (string m)
           ask := ← fs.withDefault "ask" {} (askConfig m) }

end Json.Decoder

def Config.ofText (text : String) : Except ConfigError Config :=
  match Json.decodeText? Json.Decoder.config text with
  | some c => .ok c
  | none => .error .malformed

end StepScript

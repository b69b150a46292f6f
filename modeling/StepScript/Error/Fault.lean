import StepScript.Error.Basic

/-!
# StepScript.Error.Fault

The reasons for which the engine itself lets a script fail, each with its code and its wording.
-/

namespace StepScript

inductive Fault where
  | undefined (name : String)
  | constantWrite (name : String)
  | globalWrite (name : String)
  | constantDefined (name : String)
  | rootOnly (operation : String)
  | depthExceeded (depth limit : Nat) (label : String)
  | loopExceeded (limit : Nat)
  | operands (operator left right : String)
  | divisionByZero
  | cannotNegate (type : String)
  | indexType (type : String)
  | indexRange (index : String) (length : Nat)
  | mapKeyType (type : String)
  | keyMissing (key : String)
  | cannotIndex (type : String)
  | cannotAssignElement (type : String)
  | cannotIterate (type : String)
  | assignCount (what : String) (targets : Nat)
  | returnInHandler
  | clearOutsideHandler
  | mustFalse (value : String)
  | mustFailed (message : String)
  | checkFalse (check value : String)
  | checkFailed (check message : String)
  | failStep (message : String)
  | breakSignal
  | continueSignal
  | outsideLoop (keyword : String)
  | noPrompter
  | nestedHandler
  | secondHandler (first : Position)
  | procedureMissing (name : String)
  | procedureArity (name expected : String) (got : Nat)
  | procedureOfHost (name : String)
  | procedureTwice (name : String)
  | procedureTaken (name : String)
  | eventNameValue (type : String)
  | handlerOfHost (name : String)
  | handlerTwice (name : String)
  | handlerTaken (name : String)
  | handlerCrashed (text : String)
  | toolMissing (name : String)
  | toolDenied (name capability : String)
  | toolArity (name : String) (least most got : Nat)
  | eventNameType (type : String)
  | noLength (type : String)
  | scriptUnreadable
  | modelNameType (type : String)
  | providerMissing (model : String)
  | providerFailed
  | malformedReply (model : String)
  | agentAborted (model reason : String)
  | loopRejected (model : String) (turn : Nat)

namespace Fault

def code : Fault → Code
  | undefined _ | indexRange .. | keyMissing _ | providerMissing _ => .keyNotFound
  | constantWrite _ | globalWrite _ | constantDefined _ | rootOnly _ => .writeViolation
  | depthExceeded .. | loopExceeded _ => .resourceExhaustion
  | operands .. | cannotNegate _ | indexType _ | mapKeyType _ | cannotIndex _
  | cannotAssignElement _ | cannotIterate _ | eventNameValue _ | eventNameType _ | noLength _
  | modelNameType _ => .type
  | divisionByZero => .divisionByZero
  | assignCount .. | procedureArity .. | toolArity .. => .argMismatch
  | returnInHandler => .returnViolation
  | clearOutsideHandler => .clearViolation
  | mustFalse _ | mustFailed _ | checkFalse .. | checkFailed .. => .mustFailed
  | failStep _ => .failStatement
  | breakSignal => .break
  | continueSignal => .continue
  | outsideLoop _ | noPrompter | handlerCrashed _ => .internal
  | nestedHandler => .unknownKeyword
  | secondHandler _ | procedureOfHost _ | procedureTwice _ | procedureTaken _ | handlerOfHost _
  | handlerTwice _ | handlerTaken _ => .duplicate
  | procedureMissing _ => .procNotFound
  | toolMissing _ => .toolNotFound
  | toolDenied .. | loopRejected .. => .policy
  | scriptUnreadable | malformedReply _ => .parse
  | providerFailed | agentAborted .. => .external

def message : Fault → String
  | undefined name => s!"variable '{name}' is not defined"
  | constantWrite name => s!"'{name}' is a constant"
  | globalWrite name => s!"global '{name}' can only be modified by the root instance"
  | constantDefined name => s!"constant '{name}' is already defined"
  | rootOnly operation => s!"{operation} is only allowed on the root instance"
  | depthExceeded depth limit label =>
    s!"call depth {depth} exceeds limit of {limit} (in '{label}')"
  | loopExceeded limit => s!"loop exceeded {limit} iterations"
  | operands operator left right => s!"unsupported operands for {operator}: {left} and {right}"
  | divisionByZero => "division by zero"
  | cannotNegate type => s!"cannot negate {type}"
  | indexType type => s!"list index must be a number, got {type}"
  | indexRange index length => s!"index {index} out of range for length {length}"
  | mapKeyType type => s!"map key must be a string, got {type}"
  | keyMissing key => s!"key '{key}' not found"
  | cannotIndex type => s!"cannot index into {type}"
  | cannotAssignElement type => s!"cannot assign an element of {type}"
  | cannotIterate type => s!"cannot iterate over {type}"
  | assignCount what targets => s!"cannot assign {what} to {targets} targets"
  | returnInHandler => "return is not allowed inside on_error"
  | clearOutsideHandler => "clear_error is only allowed inside on_error"
  | mustFalse value => s!"must condition evaluated to {value}"
  | mustFailed message => s!"must condition failed: {message}"
  | checkFalse check value => s!"mustbe {check} returned {value}"
  | checkFailed check message => s!"mustbe {check} failed: {message}"
  | failStep message => message
  | breakSignal => "break"
  | continueSignal => "continue"
  | outsideLoop keyword => s!"'{keyword}' used outside of a loop"
  | noPrompter => "promptuser requires a host prompter"
  | nestedHandler => "on_error is only allowed at the top level of a body"
  | secondHandler first => "on_error already declared at " ++ first.text
  | procedureMissing name => s!"procedure '{name}' not found"
  | procedureArity name expected got =>
    s!"procedure '{name}' expects {expected} arguments, got {got}"
  | procedureOfHost name => s!"procedure '{name}' is provided by the host"
  | procedureTwice name => s!"procedure '{name}' is defined twice"
  | procedureTaken name => s!"procedure '{name}' is already defined"
  | eventNameValue type => s!"event name must evaluate to a string, got {type}"
  | handlerOfHost name => s!"event handler '{name}' is already provided by the host"
  | handlerTwice name => s!"event handler '{name}' is defined twice"
  | handlerTaken name => s!"event handler '{name}' is already registered"
  | handlerCrashed text => s!"event handler panicked: {text}"
  | toolMissing name => s!"tool '{name}' not found"
  | toolDenied name capability => s!"tool '{name}' requires {capability}"
  | toolArity name least most got => s!"{name} takes {least}..={most} arguments, got {got}"
  | eventNameType type => s!"event name must be a string, got {type}"
  | noLength type => s!"len is not defined for {type}"
  | scriptUnreadable => "script could not be parsed"
  | modelNameType type => s!"agent model name must be a string, got {type}"
  | providerMissing model => s!"provider for agent model '{model}' is not registered"
  | providerFailed => "provider call failed"
  | malformedReply model => s!"malformed reply from agent '{model}'"
  | agentAborted model reason => s!"agent '{model}' aborted: {reason}"
  | loopRejected model turn =>
    s!"agent model '{model}' does not allow looping (turn {turn} requested)"

/-- The failure for this reason, at no place yet. -/
def error (f : Fault) : RuntimeError := { code := f.code, message := f.message }

end Fault

/-- What the caller of a frame sees of a failure that leaves it: loop signals do not cross frames,
and the caller's handler may look at the failure anew. -/
def RuntimeError.leavingFrame (e : RuntimeError) : RuntimeError :=
  match e.code with
  | .break => { (Fault.outsideLoop "break").error with position := e.position }
  | .continue => { (Fault.outsideLoop "continue").error with position := e.position }
  | _ => { e with handled := false }

end StepScript

import StepScript.Value.Basic

/-!
# StepScript.Error.Basic

What a script fails with.

* `Position` — a place in a source; `0:0` stands for an unknown place.
* `Code`     — the kinds of failure, each with a status number; `break` and `continue` travel the
  same way but are caught by loops.
* `RuntimeError` — a failure with its message, its place and the text of its cause.
-/

namespace StepScript

structure Position where
  line : Nat
  column : Nat
  deriving DecidableEq, Repr

namespace Position

def unknown : Position := ⟨0, 0⟩

instance : Inhabited Position := ⟨unknown⟩

def isUnknown (p : Position) : Bool := p.line == 0 && p.column == 0

def text (p : Position) : String := toString p.line ++ ":" ++ toString p.column

end Position

inductive Code where
  | internal
  | duplicate
  | keyNotFound
  | procNotFound
  | policy
  | toolNotFound
  | resourceExhaustion
  | type
  | writeViolation
  | returnViolation
  | failStatement
  | external
  | unknownKeyword
  | mustFailed
  | clearViolation
  | argMismatch
  | parse
  | divisionByZero
  | break
  | continue
  deriving DecidableEq, Repr

namespace Code

def all : List Code :=
  [internal, duplicate, keyNotFound, procNotFound, policy, toolNotFound, resourceExhaustion, type,
    writeViolation, returnViolation, failStatement, external, unknownKeyword, mustFailed,
    clearViolation, argMismatch, parse, divisionByZero, .break, .continue]

def name : Code → String
  | internal => "Internal"
  | duplicate => "Duplicate"
  | keyNotFound => "KeyNotFound"
  | procNotFound => "ProcNotFound"
  | policy => "Policy"
  | toolNotFound => "ToolNotFound"
  | resourceExhaustion => "ResourceExhaustion"
  | type => "Type"
  | writeViolation => "WriteViolation"
  | returnViolation => "ReturnViolation"
  | failStatement => "FailStatement"
  | external => "External"
  | unknownKeyword => "UnknownKeyword"
  | mustFailed => "MustFailed"
  | clearViolation => "ClearViolation"
  | argMismatch => "ArgMismatch"
  | parse => "Parse"
  | divisionByZero => "DivisionByZero"
  | .break => "Break"
  | .continue => "Continue"

/-- The status that the execution of commands reports; success is zero. -/
def status : Code → Nat
  | internal => 1
  | duplicate => 2
  | keyNotFound => 3
  | procNotFound => 4
  | policy => 5
  | toolNotFound => 6
  | resourceExhaustion => 7
  | type => 8
  | writeViolation => 9
  | returnViolation => 10
  | failStatement => 11
  | external => 12
  | unknownKeyword => 13
  | mustFailed => 14
  | clearViolation => 15
  | argMismatch => 16
  | parse => 17
  | divisionByZero => 18
  | .break => 100
  | .continue => 101

/-- Codes that only steer loops. -/
def isControl : Code → Bool
  | .break | .continue => true
  | _ => false

end Code

/-- A failure. `handled` is set once the handler of a frame has seen it. -/
structure RuntimeError where
  code : Code
  message : String
  position : Option Position := none
  cause : Option String := none
  handled : Bool := false
  deriving DecidableEq

namespace RuntimeError

def isControl (e : RuntimeError) : Bool := e.code.isControl

def withPosition (e : RuntimeError) (p : Position) : RuntimeError := { e with position := some p }

def withCause (e : RuntimeError) (cause : String) : RuntimeError := { e with cause := some cause }

def markHandled (e : RuntimeError) : RuntimeError := { e with handled := true }

/-- Is there no place yet, or only an unknown one? -/
def unplaced (e : RuntimeError) : Bool :=
  match e.position with
  | none => true
  | some p => p.isUnknown

/-- Places the failure at a known position unless it has one. -/
def atIfUnknown (e : RuntimeError) (p : Position) : RuntimeError :=
  if e.unplaced && !p.isUnknown then e.withPosition p else e

/-- The one-line text of a failure, with its place if known and its cause. -/
def display (e : RuntimeError) : String :=
  let place := match e.position with
    | some p => if p.isUnknown then "" else " (at " ++ p.text ++ ")"
    | none => ""
  let cause := match e.cause with
    | some c => ": " ++ c
    | none => ""
  "[" ++ e.code.name ++ "] " ++ e.message ++ place ++ cause

/-- What a handler finds in the error variable. -/
def toValue (e : RuntimeError) : Value :=
  let p := e.position.getD .unknown
  .map [("code", .nat e.code.status), ("column", .nat p.column), ("kind", .string e.code.name),
    ("line", .nat p.line), ("message", .string e.message)]

end RuntimeError
end StepScript

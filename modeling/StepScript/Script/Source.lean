import StepScript.Error.Fault
import StepScript.Script.Decode
import StepScript.Text.Blank

/-!
# StepScript.Script.Source

Scripts as texts.

* `Grammar` — how a text becomes steps.
* `Grammar.json`  — the JSON form of a list of steps.
* `Grammar.lines` — every line is emitted as it stands.
-/

namespace StepScript

inductive ParseError where
  | notAnArray
  | rejected (line : String)
  | json
  deriving DecidableEq, Repr

namespace ParseError

/-- The text of a JSON reader's complaint is left open. -/
def message : ParseError → String
  | notAnArray => "invalid script: expected a JSON array of steps"
  | rejected line => "invalid script: " ++ line
  | json => "invalid script json: <json>"

def toRuntimeError (e : ParseError) : RuntimeError :=
  Fault.scriptUnreadable.error.withCause e.message

end ParseError

abbrev Grammar := String → Except ParseError (List Step)

namespace Grammar

def json : Grammar := fun source =>
  match Text.trim source.toList with
  | [] => .ok []
  | c :: rest =>
    if c = '[' then
      match (Json.Document.read? (c :: rest)).bind (Json.Decoder.steps Json.nestingLimit) with
      | some steps => .ok steps
      | none => .error .json
    else .error .notAnArray

def lineStep (line : List Char) : Except ParseError Step :=
  match line with
  | '!' :: rest => .error (.rejected (String.ofList rest))
  | _ => .ok (.emit (.string (String.ofList line)))

/-- The lines of a text: what stands between line feeds. -/
def linesOf : List Char → List (List Char)
  | [] => [[]]
  | c :: rest =>
    if c = '\n' then [] :: linesOf rest
    else match linesOf rest with
      | [] => [[c]]
      | line :: lines => (c :: line) :: lines

def lines : Grammar := fun source => (linesOf source.toList).mapM lineStep

end Grammar
end StepScript

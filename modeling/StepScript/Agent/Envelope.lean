import StepScript.Agent.Model
import StepScript.Json.Printer

/-!
# StepScript.Agent.Envelope

What passes between the engine and an agent in one turn.

* `Envelope.request`   — the engine's side: subject, prompt, turn and the output before.
* `Envelope.toPrompt`, `Envelope.parse` — the written form, which may stand in a code fence.
* `verdict` — what follows a turn.
-/

namespace StepScript

/-- What an agent says about the course of the conversation. -/
inductive Signal where
  | continue
  | done
  | abort
  | unknown (text : String)
  deriving DecidableEq, Repr

structure LoopControl where
  signal : Option String := none
  notes : Option String := none
  reason : Option String := none
  deriving DecidableEq, Repr

namespace LoopControl

def lowered (s : String) : List Char := s.toList.map Char.toLower

/-- The signal without blanks around it; letters count without regard to their case, and a blank
signal is none. -/
def heard (c : LoopControl) : Option Signal := do
  let text := Text.trimmed (← c.signal)
  if text.isEmpty then none
  else if lowered text = "continue".toList then some .continue
  else if lowered text = "done".toList then some .done
  else if lowered text = "abort".toList then some .abort
  else some (.unknown text)

def toJson (c : LoopControl) : Json :=
  .object [("signal", .ofOption .string c.signal), ("notes", .ofOption .string c.notes),
    ("reason", .ofOption .string c.reason)]

end LoopControl

structure Envelope where
  userData : Json := .null
  /-- The text of a script, or a script as a JSON value. -/
  actions : Json := .null
  control : LoopControl := {}

inductive EnvelopeError where
  | empty
  | json
  deriving DecidableEq, Repr

/-- The text of a JSON reader's complaint is left open. -/
def EnvelopeError.message : EnvelopeError → String
  | empty => "reply is empty"
  | json => "reply is not valid envelope json: <json>"

namespace Json.Decoder

def loopControl : Decoder LoopControl := fun n doc => do
  let fs ← doc.record? ["signal", "notes", "reason"] n
  let text (name : String) := fs.withDefault name none (optional string (n - 1))
  return { signal := ← text "signal", notes := ← text "notes", reason := ← text "reason" }

def envelope : Decoder Envelope := fun n doc => do
  let fs ← doc.record? ["user_data", "actions", "loop"] n
  return { userData := ← fs.withDefault "user_data" .null (Document.value? (n - 1))
           actions := ← fs.withDefault "actions" .null (Document.value? (n - 1))
           control := ← fs.withDefault "loop" {} (loopControl (n - 1)) }

end Json.Decoder

namespace Envelope

def request (subject : String) (prompt : Json) (turn : Nat) (previous : Option String) :
    Envelope :=
  let before : List (String × Json) := match previous with
    | some output => [("previous_output", .string output)]
    | none => []
  { userData := .object
      [("fields", .object (before ++ [("prompt", prompt), ("turn", .nat turn)])),
        ("subject", .string subject)] }

def toJson (e : Envelope) : Json :=
  .object [("user_data", e.userData), ("actions", e.actions), ("loop", e.control.toJson)]

def toPrompt (e : Envelope) : String := e.toJson.pretty

def fence : List Char := ['\x60', '\x60', '\x60']

/-- What follows the first line. -/
def afterLine : List Char → Option (List Char)
  | [] => none
  | c :: rest => if c = '\n' then some rest else afterLine rest

/-- The text without a code fence around it; the rest of the fence's line names a language. -/
def unfenced (text : List Char) : List Char :=
  if fence.isPrefixOf text then
    let rest := text.drop fence.length
    let rest := (afterLine rest).getD rest
    let body := Text.trimEnd rest
    Text.trim (if fence.isSuffixOf body then body.take (body.length - fence.length) else rest)
  else text

def parse (reply : String) : Except EnvelopeError Envelope :=
  match unfenced (Text.trim reply.toList) with
  | [] => .error .empty
  | text =>
    match (Json.Document.read? text).bind (Json.Decoder.envelope Json.nestingLimit) with
    | some e => .ok e
    | none => .error .json

/-- The script that the agent wants to be run. -/
def script (e : Envelope) : String :=
  match e.actions with
  | .null => ""
  | .string source => source
  | other => other.compact

end Envelope

/-- What follows a turn. -/
inductive Verdict where
  | again
  | finished
  | aborted (reason : String)
  | rejected
  deriving DecidableEq, Repr

/-- Only a signal to continue asks for another turn. It is granted to a model that may loop, has
turns left and did not repeat its output. -/
def verdict (m : AgentModel) (control : LoopControl) (turn : Nat) (previous : Option String)
    (output : String) : Verdict :=
  match control.heard with
  | some .abort => .aborted (control.reason.getD "no reason given")
  | some .continue =>
    if !m.allowLoop then .rejected
    else if m.maxTurns ≤ turn then .finished
    else if previous = some output then .finished
    else .again
  | _ => .finished

end StepScript

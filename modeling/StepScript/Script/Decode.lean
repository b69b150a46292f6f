import StepScript.Json.Decode
import StepScript.Script.Basic

/-!
# StepScript.Script.Decode

Scripts read from JSON trees. Each decoder opens at least one level for a nested part, so the
number of levels it may still open bounds its recursion.
-/

namespace StepScript

open Json (Decoder Document)

namespace Json.Decoder

def position : Decoder Position := fun n doc => do
  let fs ← doc.record? ["line", "column"] n
  return ⟨← fs.required "line" (nat (n - 1)), ← fs.required "column" (nat (n - 1))⟩

def binaryOperator : Decoder BinaryOperator :=
  tag (BinaryOperator.all.map fun op => (op.keyword, op))

def unaryOperator : Decoder UnaryOperator :=
  tag (UnaryOperator.all.map fun op => (op.keyword, op))

def literal : Decoder Literal := fun n doc =>
  match doc.variant? n with
  | some ("nil", none) | some ("nil", some .null) => some .nil
  | some ("number", some c) => (float (n - 1) c).map .number
  | some ("string", some c) => (string (n - 1) c).map .string
  | some ("bool", some c) => (bool (n - 1) c).map .bool
  | _ => none

/-- A pair is an array of two. -/
def pair? {α : Type} (second : Document → Option α) : Nat → Document → Option (String × α)
  | n + 1, .array [k, d] => do return (← string n k, ← second d)
  | _, _ => none

/-- An expression, given how to read one inside a tag and inside a record or list within the tag. -/
def expressionWith (n : Nat) (within withinTwo : Document → Option Expression) (doc : Document) :
    Option Expression := do
  let (tag, some c) ← doc.variant? (n + 1) | none
  match tag with
  | "literal" => (literal n c).map .literal
  | "variable" => (string n c).map .variable
  | "list" => do return .list (← (← c.items? n).mapM within)
  | "map" => do return .map (← (← c.items? n).mapM (pair? withinTwo (n - 1)))
  | "binary" => do
    let fs ← c.record? ["op", "left", "right"] n
    return .binary (← fs.required "op" (binaryOperator (n - 1))) (← fs.required "left" within)
      (← fs.required "right" within)
  | "unary" => do
    let fs ← c.record? ["op", "operand"] n
    return .unary (← fs.required "op" (unaryOperator (n - 1))) (← fs.required "operand" within)
  | "index" => do
    let fs ← c.record? ["target", "index"] n
    return .index (← fs.required "target" within) (← fs.required "index" within)
  | "call" => do
    let fs ← c.record? ["name", "args"] n
    let args ← fs.required "args" fun d => do (← d.items? (n - 1)).mapM withinTwo
    return .call (← fs.required "name" (string (n - 1))) args
  | _ => none

def expression : Decoder Expression
  | 0 => fun _ => none
  | 1 => expressionWith 0 (fun _ => none) (fun _ => none)
  | 2 => expressionWith 1 (expression 0) (fun _ => none)
  | n + 3 => expressionWith (n + 2) (expression (n + 1)) (expression n)

def target : Decoder Target := fun n doc =>
  match doc.variant? n with
  | some ("variable", some c) => (string (n - 1) c).map .variable
  | some ("element", some c) => do
    let fs ← c.record? ["variable", "key"] (n - 1)
    return .element (← fs.required "variable" (string (n - 2)))
      (← fs.required "key" (expression (n - 2)))
  | _ => none

/-- The actions with content, given how to read a block inside a record and inside a tag alone. -/
def actionContent (n : Nat) (blockInTag blockInRecord : Document → Option (List Step))
    (tag : String) (c : Document) : Option Action :=
  let m := n - 1
  match tag with
  | "set" => do
    let fs ← c.record? ["targets", "value"] n
    return .set (← fs.required "targets" (list target m)) (← fs.required "value" (expression m))
  | "call" => (expression n c).map .call
  | "return" => (list expression n c).map .ret
  | "emit" => (expression n c).map .emit
  | "whisper" => do
    let fs ← c.record? ["handle", "data"] n
    return .whisper (← fs.required "handle" (expression m)) (← fs.required "data" (expression m))
  | "if" => do
    let fs ← c.record? ["condition", "then_block", "else_block"] n
    let elseBlock ← fs.withDefault "else_block" none fun d =>
      match d with
      | .null => some none
      | d => (blockInRecord d).map some
    return .branch (← fs.required "condition" (expression m))
      (← fs.required "then_block" blockInRecord) elseBlock
  | "while" => do
    let fs ← c.record? ["condition", "body"] n
    return .loop (← fs.required "condition" (expression m)) (← fs.required "body" blockInRecord)
  | "for_each" => do
    let fs ← c.record? ["variable", "collection", "body"] n
    return .forEach (← fs.required "variable" (string m))
      (← fs.required "collection" (expression m)) (← fs.required "body" blockInRecord)
  | "must" => (expression n c).map .must
  | "must_be" => do
    let fs ← c.record? ["check", "args"] n
    return .mustBe (← fs.required "check" (string m)) (← fs.required "args" (list expression m))
  | "fail" => (optional expression n c).map .fail
  | "on_error" => (blockInTag c).map .onError
  | "ask" => do
    let fs ← c.record? ["agent_model", "prompt", "into"] n
    return .ask (← fs.required "agent_model" (expression m))
      (← fs.required "prompt" (expression m))
      (← fs.withDefault "into" none (optional target m))
  | "prompt_user" => do
    let fs ← c.record? ["prompt", "into"] n
    return .promptUser (← fs.required "prompt" (expression m)) (← fs.required "into" (target m))
  | "expression" => (expression n c).map .expression
  | _ => none

/-- The actions without content. -/
def bareActions : List (String × Action) :=
  [("clear_error", .clearError), ("break", .breakLoop), ("continue", .continueLoop)]

def action (n : Nat) (blockInTag blockInRecord : Document → Option (List Step))
    (doc : Document) : Option Action :=
  match doc.variant? n with
  | some (tag, none) => bareActions.lookup tag
  | some (tag, some .null) =>
    bareActions.lookup tag <|> actionContent (n - 1) blockInTag blockInRecord tag .null
  | some (tag, some c) => actionContent (n - 1) blockInTag blockInRecord tag c
  | none => none

def stepWith (n : Nat) (blockInTag blockInRecord : Document → Option (List Step))
    (doc : Document) : Option Step := do
  let fs ← doc.record? ["position", "kind"] (n + 1)
  let action ← fs.required "kind" (action n blockInTag blockInRecord)
  return .mk (← fs.withDefault "position" .unknown (position n)) action

/-- A block is an array of steps. -/
def block (n : Nat) (step : Document → Option Step) (doc : Document) : Option (List Step) := do
  (← doc.items? (n + 1)).mapM step

def step : Decoder Step
  | 0 => fun _ => none
  | 1 => stepWith 0 (fun _ => none) (fun _ => none)
  | 2 => stepWith 1 (fun _ => none) (fun _ => none)
  | 3 => stepWith 2 (block 0 (step 0)) (fun _ => none)
  | n + 4 => stepWith (n + 3) (block (n + 1) (step (n + 1))) (block n (step n))

def steps : Decoder (List Step) := list step

def procedureDecl : Decoder ProcedureDecl := fun n doc => do
  let fs ← doc.record? ["name", "required_params", "optional_params", "body", "position"] n
  let m := n - 1
  return { name := ← fs.required "name" (string m)
           requiredParams := ← fs.withDefault "required_params" [] (list string m)
           optionalParams := ← fs.withDefault "optional_params" [] (list string m)
           body := ← fs.required "body" (steps m)
           position := ← fs.withDefault "position" .unknown (position m) }

def eventDecl : Decoder EventDecl := fun n doc => do
  let fs ← doc.record? ["name", "handler_name", "payload_variable", "body", "position"] n
  let m := n - 1
  return { name := ← fs.required "name" (expression m)
           handlerName := ← fs.withDefault "handler_name" none (optional string m)
           payloadVariable := ← fs.withDefault "payload_variable" none (optional string m)
           body := ← fs.required "body" (steps m)
           position := ← fs.withDefault "position" .unknown (position m) }

def commandBlock : Decoder CommandBlock := fun n doc => do
  let fs ← doc.record? ["body", "position"] n
  return { body := ← fs.required "body" (steps (n - 1))
           position := ← fs.withDefault "position" .unknown (position (n - 1)) }

def program : Decoder Program := fun n doc => do
  let fs ← doc.record? ["procedures", "events", "commands"] n
  let m := n - 1
  return { procedures := ← fs.withDefault "procedures" [] (list procedureDecl m)
           events := ← fs.withDefault "events" [] (list eventDecl m)
           commands := ← fs.withDefault "commands" [] (list commandBlock m) }

end Json.Decoder

end StepScript

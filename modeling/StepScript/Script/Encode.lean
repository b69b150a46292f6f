import StepScript.Json.Printer
import StepScript.Script.Basic

/-!
# StepScript.Script.Encode

Scripts as JSON values: a choice is an object with its tag as the only key, or the bare tag; a
record is an object with every field, in order.
-/

namespace StepScript

open Json (ofOption strings)

def Json.tagged (tag : String) (content : Json) : Json := .object [(tag, content)]

def Position.toJson (p : Position) : Json :=
  .object [("line", .nat p.line), ("column", .nat p.column)]

def Literal.toJson : Literal → Json
  | .nil => .string "nil"
  | .number x => .tagged "number" (.float x)
  | .string s => .tagged "string" (.string s)
  | .bool b => .tagged "bool" (.bool b)

namespace Expression

mutual

def toJson : Expression → Json
  | .literal l => .tagged "literal" l.toJson
  | .variable name => .tagged "variable" (.string name)
  | .list items => .tagged "list" (.array (itemsToJson items))
  | .map entries => .tagged "map" (.array (entriesToJson entries))
  | .binary op left right =>
    .tagged "binary" (.object
      [("op", .string op.keyword), ("left", toJson left), ("right", toJson right)])
  | .unary op operand =>
    .tagged "unary" (.object [("op", .string op.keyword), ("operand", toJson operand)])
  | .index target key =>
    .tagged "index" (.object [("target", toJson target), ("index", toJson key)])
  | .call name args =>
    .tagged "call" (.object [("name", .string name), ("args", .array (itemsToJson args))])

def itemsToJson : List Expression → List Json
  | [] => []
  | e :: rest => toJson e :: itemsToJson rest

def entriesToJson : List (String × Expression) → List Json
  | [] => []
  | (k, e) :: rest => .array [.string k, toJson e] :: entriesToJson rest

end

end Expression

def Target.toJson : Target → Json
  | .variable name => .tagged "variable" (.string name)
  | .element name key =>
    .tagged "element" (.object [("variable", .string name), ("key", key.toJson)])

mutual

def Step.toJson : Step → Json
  | .mk position action => .object [("position", position.toJson), ("kind", action.toJson)]

def Action.toJson : Action → Json
  | .set targets value =>
    .tagged "set" (.object
      [("targets", .array (targets.map Target.toJson)), ("value", value.toJson)])
  | .call e => .tagged "call" e.toJson
  | .ret values => .tagged "return" (.array (values.map Expression.toJson))
  | .emit e => .tagged "emit" e.toJson
  | .whisper handle data =>
    .tagged "whisper" (.object [("handle", handle.toJson), ("data", data.toJson)])
  | .branch condition thenBlock elseBlock =>
    .tagged "if" (.object
      [("condition", condition.toJson), ("then_block", .array (blockToJson thenBlock)),
        ("else_block", match elseBlock with
          | none => .null
          | some block => .array (blockToJson block))])
  | .loop condition body =>
    .tagged "while" (.object
      [("condition", condition.toJson), ("body", .array (blockToJson body))])
  | .forEach item collection body =>
    .tagged "for_each" (.object
      [("variable", .string item), ("collection", collection.toJson),
        ("body", .array (blockToJson body))])
  | .must e => .tagged "must" e.toJson
  | .mustBe check args =>
    .tagged "must_be" (.object
      [("check", .string check), ("args", .array (args.map Expression.toJson))])
  | .fail message => .tagged "fail" (ofOption Expression.toJson message)
  | .onError body => .tagged "on_error" (.array (blockToJson body))
  | .clearError => .string "clear_error"
  | .ask agentModel prompt into =>
    .tagged "ask" (.object
      [("agent_model", agentModel.toJson), ("prompt", prompt.toJson),
        ("into", ofOption Target.toJson into)])
  | .promptUser prompt into =>
    .tagged "prompt_user" (.object [("prompt", prompt.toJson), ("into", into.toJson)])
  | .breakLoop => .string "break"
  | .continueLoop => .string "continue"
  | .expression e => .tagged "expression" e.toJson

def blockToJson : List Step → List Json
  | [] => []
  | s :: rest => s.toJson :: blockToJson rest

end

def ProcedureDecl.toJson (p : ProcedureDecl) : Json :=
  .object [("name", .string p.name), ("required_params", strings p.requiredParams),
    ("optional_params", strings p.optionalParams), ("body", .array (blockToJson p.body)),
    ("position", p.position.toJson)]

def EventDecl.toJson (d : EventDecl) : Json :=
  .object [("name", d.name.toJson), ("handler_name", ofOption .string d.handlerName),
    ("payload_variable", ofOption .string d.payloadVariable),
    ("body", .array (blockToJson d.body)), ("position", d.position.toJson)]

def CommandBlock.toJson (c : CommandBlock) : Json :=
  .object [("body", .array (blockToJson c.body)), ("position", c.position.toJson)]

def Program.toJson (p : Program) : Json :=
  .object [("procedures", .array (p.procedures.map ProcedureDecl.toJson)),
    ("events", .array (p.events.map EventDecl.toJson)),
    ("commands", .array (p.commands.map CommandBlock.toJson))]

end StepScript

import StepScript.Error.Basic

/-!
# StepScript.Script.Basic

Scripts as trees.

* `Expression` — what computes a value.
* `Target`     — what a value is assigned to: a variable or an element of one.
* `Step`       — an action at a place of the source; some actions hold blocks of steps.
* `Program`    — procedures, event handlers and command blocks.
-/

namespace StepScript

inductive Literal where
  | nil
  | number (x : Float)
  | string (s : String)
  | bool (b : Bool)
  deriving DecidableEq

inductive BinaryOperator where
  | add
  | subtract
  | multiply
  | divide
  | modulo
  | equal
  | notEqual
  | less
  | lessEqual
  | greater
  | greaterEqual
  | and
  | or
  deriving DecidableEq, Repr

namespace BinaryOperator

def all : List BinaryOperator :=
  [add, subtract, multiply, divide, modulo, equal, notEqual, less, lessEqual, greater,
    greaterEqual, .and, .or]

/-- The operator as messages name it. -/
def name : BinaryOperator → String
  | add => "Add"
  | subtract => "Subtract"
  | multiply => "Multiply"
  | divide => "Divide"
  | modulo => "Modulo"
  | equal => "Equal"
  | notEqual => "NotEqual"
  | less => "Less"
  | lessEqual => "LessEqual"
  | greater => "Greater"
  | greaterEqual => "GreaterEqual"
  | .and => "And"
  | .or => "Or"

/-- The operator as scripts write it. -/
def keyword : BinaryOperator → String
  | add => "add"
  | subtract => "subtract"
  | multiply => "multiply"
  | divide => "divide"
  | modulo => "modulo"
  | equal => "equal"
  | notEqual => "not_equal"
  | less => "less"
  | lessEqual => "less_equal"
  | greater => "greater"
  | greaterEqual => "greater_equal"
  | .and => "and"
  | .or => "or"

end BinaryOperator

inductive UnaryOperator where
  | not
  | negate
  deriving DecidableEq, Repr

namespace UnaryOperator

def all : List UnaryOperator := [.not, negate]

def keyword : UnaryOperator → String
  | .not => "not"
  | negate => "negate"

end UnaryOperator

inductive Expression where
  | literal (value : Literal)
  | variable (name : String)
  | list (items : List Expression)
  | map (entries : List (String × Expression))
  | binary (op : BinaryOperator) (left right : Expression)
  | unary (op : UnaryOperator) (operand : Expression)
  | index (target key : Expression)
  | call (name : String) (args : List Expression)

namespace Expression

instance : Inhabited Expression := ⟨.literal .nil⟩

def nil : Expression := .literal .nil

def number (x : Float) : Expression := .literal (.number x)

def string (s : String) : Expression := .literal (.string s)

def bool (b : Bool) : Expression := .literal (.bool b)

end Expression

inductive Target where
  | variable (name : String)
  | element (name : String) (key : Expression)

mutual

inductive Step where
  | mk (position : Position) (action : Action)

inductive Action where
  | set (targets : List Target) (value : Expression)
  | call (e : Expression)
  | ret (values : List Expression)
  | emit (e : Expression)
  | whisper (handle data : Expression)
  | branch (condition : Expression) (thenBlock : List Step) (elseBlock : Option (List Step))
  | loop (condition : Expression) (body : List Step)
  | forEach (item : String) (collection : Expression) (body : List Step)
  | must (e : Expression)
  | mustBe (check : String) (args : List Expression)
  | fail (message : Option Expression)
  | onError (body : List Step)
  | clearError
  | ask (agentModel prompt : Expression) (into : Option Target)
  | promptUser (prompt : Expression) (into : Target)
  | breakLoop
  | continueLoop
  | expression (e : Expression)

end

namespace Action

/-- The action's keyword. -/
def name : Action → String
  | set .. => "set"
  | call _ => "call"
  | ret _ => "return"
  | emit _ => "emit"
  | whisper .. => "whisper"
  | branch .. => "if"
  | loop .. => "while"
  | forEach .. => "for_each"
  | must _ => "must"
  | mustBe .. => "must_be"
  | fail _ => "fail"
  | onError _ => "on_error"
  | clearError => "clear_error"
  | ask .. => "ask"
  | promptUser .. => "prompt_user"
  | breakLoop => "break"
  | continueLoop => "continue"
  | expression _ => "expression"

end Action

namespace Step

instance : Inhabited Step := ⟨.mk .unknown .clearError⟩

def position : Step → Position
  | .mk p _ => p

def action : Step → Action
  | .mk _ a => a

def name (s : Step) : String := s.action.name

/-- A step at an unknown place. -/
def of (a : Action) : Step := .mk .unknown a

def set (name : String) (value : Expression) : Step := of (.set [.variable name] value)

def emit (value : Expression) : Step := of (.emit value)

def ret (value : Expression) : Step := of (.ret [value])

def call (name : String) (args : List Expression) : Step := of (.call (.call name args))

def fail (message : String) : Step := of (.fail (some (.string message)))

def onError (body : List Step) : Step := of (.onError body)

def clearError : Step := of .clearError

def ask (agentModel : String) (prompt : Expression) (into : String) : Step :=
  of (.ask (.string agentModel) prompt (some (.variable into)))

end Step

/-- A procedure as it is declared. -/
structure ProcedureDecl where
  name : String
  requiredParams : List String := []
  optionalParams : List String := []
  body : List Step
  position : Position := .unknown

/-- An event handler as it is declared; the event's name is computed when it is registered. -/
structure EventDecl where
  name : Expression
  handlerName : Option String := none
  payloadVariable : Option String := none
  body : List Step
  position : Position := .unknown

structure CommandBlock where
  body : List Step
  position : Position := .unknown

structure Program where
  procedures : List ProcedureDecl := []
  events : List EventDecl := []
  commands : List CommandBlock := []

end StepScript

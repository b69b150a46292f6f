import StepScript.Error.Fault
import StepScript.Script.Basic

/-!
# StepScript.Value.Operations

What operators, indexing and iteration do with values.
-/

namespace StepScript
namespace Value

def ofLiteral : Literal → Value
  | .nil => .nil
  | .number x => .number x
  | .string s => .string s
  | .bool b => .bool b

/-- The order of two numbers or two texts; texts compare by code points, and a number that is not
a number compares with nothing. -/
def order? : Value → Value → Option Ordering
  | .number x, .number y =>
    if x < y then some .lt else if y < x then some .gt else if x == y then some .eq else none
  | .string s, .string t => some (compare s t)
  | _, _ => none

def mismatch (op : BinaryOperator) (left right : Value) : Fault :=
  .operands op.name left.typeName right.typeName

/-- Sums of numbers and lists; a text takes the other operand's text. -/
def add (left right : Value) : Except Fault Value :=
  match left, right with
  | .number x, .number y => .ok (.number (x + y))
  | .string s, v => .ok (.string (s ++ v.display))
  | v, .string s => .ok (.string (v.display ++ s))
  | .list xs, .list ys => .ok (.list (xs ++ ys))
  | _, _ => .error (mismatch .add left right)

def arithmetic (op : BinaryOperator) (f : Float → Float → Except Fault Float)
    (left right : Value) : Except Fault Value :=
  match left, right with
  | .number x, .number y => (f x y).map .number
  | _, _ => .error (mismatch op left right)

/-- A quotient or remainder by a divisor other than zero. -/
def quotient (f : Float → Float → Float) (x y : Float) : Except Fault Float :=
  if y == 0.0 then .error .divisionByZero else .ok (f x y)

def comparison (op : BinaryOperator) (test : Ordering → Bool) (left right : Value) :
    Except Fault Value :=
  match order? left right with
  | some o => .ok (.bool (test o))
  | none => .error (mismatch op left right)

/-- The value of an operator whose operands are both known. -/
def binary (op : BinaryOperator) (left right : Value) : Except Fault Value :=
  match op with
  | .add => add left right
  | .subtract => arithmetic op (fun x y => .ok (x - y)) left right
  | .multiply => arithmetic op (fun x y => .ok (x * y)) left right
  | .divide => arithmetic op (quotient (· / ·)) left right
  | .modulo => arithmetic op (quotient remainder) left right
  | .equal => .ok (.bool (equals left right))
  | .notEqual => .ok (.bool (!equals left right))
  | .less => comparison op (· == .lt) left right
  | .lessEqual => comparison op (· != .gt) left right
  | .greater => comparison op (· == .gt) left right
  | .greaterEqual => comparison op (· != .lt) left right
  | .and => .ok (.bool (left.truthy && right.truthy))
  | .or => .ok (.bool (left.truthy || right.truthy))

def unary : UnaryOperator → Value → Except Fault Value
  | .not, v => .ok (.bool (!v.truthy))
  | .negate, .number x => .ok (.number (-x))
  | .negate, v => .error (.cannotNegate v.typeName)

/-- The value of `and` and `or` when the left operand settles it. -/
def shortCircuit (op : BinaryOperator) (left : Value) : Option Value :=
  match op with
  | .and => if left.truthy then none else some (.bool false)
  | .or => if left.truthy then some (.bool true) else none
  | _ => none

/-- The place that a value addresses in a sequence of the given length. -/
def place (length : Nat) (index : Value) : Except Fault Nat :=
  match index with
  | .number x =>
    match (Binary.ofFloat x).toInt? with
    | some (.ofNat n) =>
      if n < length then .ok n else .error (.indexRange index.display length)
    | _ => .error (.indexRange index.display length)
  | v => .error (.indexType v.typeName)

/-- The name that a value addresses in a map. -/
def key : Value → Except Fault String
  | .string s => .ok s
  | v => .error (.mapKeyType v.typeName)

def char (c : Char) : Value := .string (String.singleton c)

/-- The element of a list, map or text. -/
def index (target i : Value) : Except Fault Value :=
  match target with
  | .list items => do return items.getD (← place items.length i) .nil
  | .map entries => do
    let k ← key i
    match Entries.get? k entries with
    | some v => .ok v
    | none => .error (.keyMissing k)
  | .string s => do
    let cs := s.toList
    return char (cs.getD (← place cs.length i) ' ')
  | v => .error (.cannotIndex v.typeName)

/-- The container with another element; a map takes new names, a list keeps its length. -/
def setElement (container i v : Value) : Except Fault Value :=
  match container with
  | .list items => do return .list (items.set (← place items.length i) v)
  | .map entries => do return .map (Entries.insert (← key i) v entries)
  | other => .error (.cannotAssignElement other.typeName)

/-- What a loop over a value visits. The language leaves the order of a map open; here it is that of
the names, and what is proved of loops over maps is proved of this order only. -/
def items : Value → Except Fault (List Value)
  | .nil => .ok []
  | .list xs => .ok xs
  | .map entries => .ok (Entries.values entries)
  | .string s => .ok (s.toList.map char)
  | v => .error (.cannotIterate v.typeName)

def length : Value → Except Fault Nat
  | .nil => .ok 0
  | .list xs => .ok xs.length
  | .map entries => .ok entries.length
  | .string s => .ok s.toList.length
  | v => .error (.noLength v.typeName)

/-- The value as the right-hand side of an assignment to several targets. -/
def describeCount : Value → String
  | .list xs => s!"{xs.length} values"
  | v => s!"a single {v.typeName}"

end Value
end StepScript

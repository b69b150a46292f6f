import StepScript.Decimal.Layout
import StepScript.Json.Basic

/-!
# StepScript.Value.Basic

The values that scripts compute with.

* `Value`   — nil, numbers, texts, truth values, lists, maps with named entries, host handles.
* `display` — the text of a value, as it is shown and concatenated.
* `equals`  — equality of values; a number that is not a number equals nothing.
* `toJson`  — the JSON view handed to agents.
-/

namespace StepScript

/-- A value. The entries of a map are listed in ascending order of their names. -/
inductive Value where
  | nil
  | number (x : Float)
  | string (s : String)
  | bool (b : Bool)
  | list (items : List Value)
  | map (entries : List (String × Value))
  | handle (kind id : String)

namespace Value

instance : Inhabited Value := ⟨.nil⟩

def nat (n : Nat) : Value := .number (Float.ofNat n)

def typeName : Value → String
  | .nil => "nil"
  | .number _ => "number"
  | .string _ => "string"
  | .bool _ => "bool"
  | .list _ => "list"
  | .map _ => "map"
  | .handle .. => "handle"

/-- Nil, false, zero and everything empty count as false. -/
def truthy : Value → Bool
  | .nil => false
  | .bool b => b
  | .number x => x != 0.0
  | .string s => !s.isEmpty
  | .list items => !items.isEmpty
  | .map entries => !entries.isEmpty
  | .handle .. => true

def string? : Value → Option String
  | .string s => some s
  | _ => none

def number? : Value → Option Float
  | .number x => some x
  | _ => none

/-- Whole numbers below `10 ^ 15` are shown as integers, without a sign on zero. -/
def displayNumber (x : Float) : String :=
  match (Binary.ofFloat x).toInt? with
  | some n => if n.natAbs < powTen 15 then toString n else plainText x
  | none => plainText x

mutual

def display : Value → String
  | .nil => "nil"
  | .number x => displayNumber x
  | .string s => s
  | .bool b => if b then "true" else "false"
  | .list items => "[" ++ displayItems "" items ++ "]"
  | .map entries => "\x7b" ++ displayEntries "" entries ++ "\x7d"
  | .handle kind id => "<" ++ kind ++ ":" ++ id ++ ">"

/-- The items, each after a separator; the first one stands after `separator`. -/
def displayItems (separator : String) : List Value → String
  | [] => ""
  | v :: rest => separator ++ display v ++ displayItems ", " rest

def displayEntries (separator : String) : List (String × Value) → String
  | [] => ""
  | (k, v) :: rest => separator ++ k ++ ": " ++ display v ++ displayEntries ", " rest

end

mutual

def equals : Value → Value → Bool
  | .nil, .nil => true
  | .number x, .number y => x == y
  | .string s, .string t => s == t
  | .bool a, .bool b => a == b
  | .list xs, .list ys => equalItems xs ys
  | .map xs, .map ys => equalEntries xs ys
  | .handle k i, .handle l j => k == l && i == j
  | _, _ => false

def equalItems : List Value → List Value → Bool
  | [], [] => true
  | x :: xs, y :: ys => equals x y && equalItems xs ys
  | _, _ => false

def equalEntries : List (String × Value) → List (String × Value) → Bool
  | [], [] => true
  | (k, x) :: xs, (l, y) :: ys => k == l && equals x y && equalEntries xs ys
  | _, _ => false

end

mutual

/-- A number without a finite value becomes `null`. -/
def toJson : Value → Json
  | .nil => .null
  | .number x => if x.isFinite then .float x else .null
  | .string s => .string s
  | .bool b => .bool b
  | .list items => .array (itemsToJson items)
  | .map entries => .object (entriesToJson entries)
  | .handle kind id => .object [("handle", .string kind), ("id", .string id)]

def itemsToJson : List Value → List Json
  | [] => []
  | v :: rest => toJson v :: itemsToJson rest

def entriesToJson : List (String × Value) → List (String × Json)
  | [] => []
  | (k, v) :: rest => (k, toJson v) :: entriesToJson rest

end

end Value
end StepScript

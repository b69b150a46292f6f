import StepScript.Decimal.Layout
import StepScript.Json.Basic

/-!
# StepScript.Json.Printer

Texts of JSON values.

* `compact` — no blanks at all.
* `pretty`  — one item or member a line, indented by two blanks a level.
-/

namespace StepScript
namespace Json

def hexDigit (n : Nat) : Char := Nat.digitChar (n % 16)

/-- Quotes, backslashes and control characters are escaped, all else stands for itself. -/
def escape (c : Char) : List Char :=
  if c = '"' then ['\\', '"']
  else if c = '\\' then ['\\', '\\']
  else if c = '\n' then ['\\', 'n']
  else if c = '\r' then ['\\', 'r']
  else if c = '\t' then ['\\', 't']
  else if c.toNat = 8 then ['\\', 'b']
  else if c.toNat = 12 then ['\\', 'f']
  else if c.toNat < 32 then
    ['\\', 'u', '0', '0', hexDigit (c.toNat / 16), hexDigit c.toNat]
  else [c]

def quoted (s : String) : String := "\"" ++ String.ofList (s.toList.flatMap escape) ++ "\""

/-- A number without a finite value is written as `null`. -/
def Number.text : Number → String
  | .int n => toString n
  | .float x => (mixedText? x).getD "null"

mutual

def compact : Json → String
  | .null => "null"
  | .bool b => if b then "true" else "false"
  | .number n => n.text
  | .string s => quoted s
  | .array [] => "[]"
  | .array (j :: rest) => "[" ++ compact j ++ compactItems rest ++ "]"
  | .object [] => "\x7b\x7d"
  | .object ((k, j) :: rest) =>
    "\x7b" ++ quoted k ++ ":" ++ compact j ++ compactMembers rest ++ "\x7d"

/-- The items after the first, each after a comma. -/
def compactItems : List Json → String
  | [] => ""
  | j :: rest => "," ++ compact j ++ compactItems rest

def compactMembers : List (String × Json) → String
  | [] => ""
  | (k, j) :: rest => "," ++ quoted k ++ ":" ++ compact j ++ compactMembers rest

end

/-- A new line at nesting level `n`. -/
def newline (n : Nat) : String := "\n" ++ String.ofList (List.replicate (2 * n) ' ')

mutual

/-- The indented text of a value whose first line stands at nesting level `n`. -/
def prettyAt (n : Nat) : Json → String
  | .array [] => "[]"
  | .array (j :: rest) =>
    "[" ++ newline (n + 1) ++ prettyAt (n + 1) j ++ prettyItems (n + 1) rest ++ newline n ++ "]"
  | .object [] => "\x7b\x7d"
  | .object ((k, j) :: rest) =>
    "\x7b" ++ newline (n + 1) ++ quoted k ++ ": " ++ prettyAt (n + 1) j ++
      prettyMembers (n + 1) rest ++ newline n ++ "\x7d"
  | .null => "null"
  | .bool b => if b then "true" else "false"
  | .number x => x.text
  | .string s => quoted s

def prettyItems (n : Nat) : List Json → String
  | [] => ""
  | j :: rest => "," ++ newline n ++ prettyAt n j ++ prettyItems n rest

def prettyMembers (n : Nat) : List (String × Json) → String
  | [] => ""
  | (k, j) :: rest =>
    "," ++ newline n ++ quoted k ++ ": " ++ prettyAt n j ++ prettyMembers n rest

end

def pretty (j : Json) : String := prettyAt 0 j

end Json
end StepScript

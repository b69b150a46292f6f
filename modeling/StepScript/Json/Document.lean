import StepScript.Decimal.Shortest
import StepScript.Json.Basic

/-!
# StepScript.Json.Document

JSON texts as trees, before anything is asked of their content.

* `Document` — the tree of a text. Repeated keys are kept, a string that is no text (an unpaired
  surrogate escape) and a number beyond every double are kept as `none`: whether they matter is
  for the reader of the tree to decide.
* `read?` — the tree of a text, by one pass over its characters with a stack of what is open.
  It accepts exactly the texts of the JSON grammar and nests without limit.
-/

namespace StepScript
namespace Json

inductive Document where
  | null
  | bool (b : Bool)
  | number (n : Option Number)
  | string (s : Option String)
  | array (items : List Document)
  | object (members : List (Option String × Document))

instance : Inhabited Document := ⟨.null⟩

/-- A numeral: `± digits · 10 ^ (± exponent - places)`, with `whole` when neither a fraction nor
an exponent was written. -/
structure Numeral where
  negative : Bool := false
  digits : Nat := 0
  places : Nat := 0
  exponentNegative : Bool := false
  exponent : Nat := 0
  whole : Bool := true

namespace Numeral

/-- The nearest double, unless it would be infinite. -/
def toFloat? (n : Numeral) : Option Float :=
  let e : Int := (if n.exponentNegative then -(n.exponent : Int) else n.exponent) - n.places
  let size : Int := (Decimal.digitChars n.digits).length + e
  let magnitude : Option Float :=
    if n.digits = 0 ∨ size < -400 then some 0.0
    else if 400 < size then none
    else
      let x := if 0 ≤ e then Float.ofScientific n.digits false e.toNat
        else Float.ofScientific n.digits true (-e).toNat
      if x.isFinite then some x else none
  magnitude.map fun x => if n.negative then -x else x

/-- Whole numerals within 64 bits are integers; a negative zero is a double. -/
def value? (n : Numeral) : Option Number :=
  if n.whole ∧ ¬ n.negative ∧ n.digits < powTwo 64 then some (.int n.digits)
  else if n.whole ∧ n.negative ∧ 0 < n.digits ∧ n.digits ≤ powTwo 63 then some (.int (-n.digits))
  else n.toFloat?.map .float

end Numeral

/-- Which part of a numeral has been read. -/
inductive NumeralPart where
  | sign
  | zero
  | whole
  | point
  | fraction
  | mark
  | markSign
  | exponent

/-- May the numeral end here? -/
def NumeralPart.complete : NumeralPart → Bool
  | .zero | .whole | .fraction | .exponent => true
  | _ => false

def digitValue? (c : Char) : Option Nat :=
  if '0' ≤ c ∧ c ≤ '9' then some (c.toNat - '0'.toNat) else none

def hexValue? (c : Char) : Option Nat :=
  if '0' ≤ c ∧ c ≤ '9' then some (c.toNat - '0'.toNat)
  else if 'a' ≤ c ∧ c ≤ 'f' then some (c.toNat - 'a'.toNat + 10)
  else if 'A' ≤ c ∧ c ≤ 'F' then some (c.toNat - 'A'.toNat + 10)
  else none

/-- Extends a numeral by one character, if it can be. -/
def Numeral.extend? (n : Numeral) (part : NumeralPart) (c : Char) :
    Option (Numeral × NumeralPart) :=
  let push (part : NumeralPart) (d : Nat) : Numeral × NumeralPart :=
    match part with
    | .fraction => ({ n with digits := 10 * n.digits + d, places := n.places + 1 }, part)
    | .exponent => ({ n with exponent := 10 * n.exponent + d }, part)
    | _ => ({ n with digits := 10 * n.digits + d }, part)
  let point? : Option (Numeral × NumeralPart) :=
    if c = '.' then some ({ n with whole := false }, .point) else none
  let mark? : Option (Numeral × NumeralPart) :=
    if c = 'e' ∨ c = 'E' then some ({ n with whole := false }, .mark) else none
  let sign? : Option (Numeral × NumeralPart) :=
    if c = '+' then some (n, .markSign)
    else if c = '-' then some ({ n with exponentNegative := true }, .markSign)
    else none
  match part with
  | .sign =>
    (digitValue? c).map fun d => if d = 0 then push .zero 0 else push .whole d
  | .zero => point? <|> mark?
  | .whole => (digitValue? c).map (push .whole) <|> point? <|> mark?
  | .point => (digitValue? c).map (push .fraction)
  | .fraction => (digitValue? c).map (push .fraction) <|> mark?
  | .mark => (digitValue? c).map (push .exponent) <|> sign?
  | .markSign | .exponent => (digitValue? c).map (push .exponent)

/-- Where in an escape sequence the reader of a string is. -/
inductive Escape where
  | none
  | start
  | hex (left : Nat) (unit : Nat)

/-- A string being read: its characters so far, last first, and a high surrogate that awaits its
partner. -/
structure OpenString where
  chars : List Char := []
  wellFormed : Bool := true
  pending : Option Nat := none
  escape : Escape := .none

namespace OpenString

def text (l : OpenString) : Option String :=
  if l.wellFormed ∧ l.pending.isNone then some (String.ofList l.chars.reverse) else none

/-- A character that is no part of a surrogate pair. -/
def push (l : OpenString) (c : Char) : OpenString :=
  { chars := c :: l.chars, wellFormed := l.wellFormed && l.pending.isNone }

/-- A code unit written as four hexadecimal digits. -/
def pushUnit (l : OpenString) (u : Nat) : OpenString :=
  let high := 0xD800 ≤ u && u < 0xDC00
  let low := 0xDC00 ≤ u && u < 0xE000
  match l.pending with
  | some h =>
    if low then
      { l with
        chars := Char.ofNat (0x10000 + (h - 0xD800) * 0x400 + (u - 0xDC00)) :: l.chars
        pending := none
        escape := .none }
    else { l with wellFormed := false, pending := none, escape := .none }
  | none =>
    if high then { l with pending := some u, escape := .none }
    else if low then { l with wellFormed := false, escape := .none }
    else { l with chars := Char.ofNat u :: l.chars, escape := .none }

/-- The character that a one-letter escape stands for. -/
def escaped? (c : Char) : Option Char :=
  if c = '"' ∨ c = '\\' ∨ c = '/' then some c
  else if c = 'b' then some (Char.ofNat 8)
  else if c = 'f' then some (Char.ofNat 12)
  else if c = 'n' then some '\n'
  else if c = 'r' then some '\r'
  else if c = 't' then some '\t'
  else none

/-- Reads a character other than the closing quote. -/
def extend? (l : OpenString) (c : Char) : Option OpenString :=
  match l.escape with
  | .none =>
    if c = '\\' then some { l with escape := .start }
    else if c.toNat < 32 then none
    else some (l.push c)
  | .start =>
    if c = 'u' then some { l with escape := .hex 3 0 }
    else (escaped? c).map l.push
  | .hex left unit =>
    (hexValue? c).map fun d =>
      let unit := 16 * unit + d
      match left with
      | 0 => l.pushUnit unit
      | left + 1 => { l with escape := .hex left unit }

end OpenString

/-- An array or object that has not been closed; what it holds so far stands last first. `entry`
is an object whose last key still waits for its value. -/
inductive Level where
  | array (items : List Document)
  | object (members : List (Option String × Document))
  | entry (members : List (Option String × Document)) (key : Option String)

/-- What may come next. -/
inductive Phase where
  | value
  | firstItem
  | firstKey
  | key
  | colon
  | after
  | done (document : Document)
  | word (rest : List Char) (document : Document)
  | numeral (n : Numeral) (part : NumeralPart)
  | string (isKey : Bool) (l : OpenString)

structure Reader where
  stack : List Level
  phase : Phase

namespace Reader

def start : Reader := ⟨[], .value⟩

/-- Hands a finished value to what is open. -/
def deliver (d : Document) : List Level → Option Reader
  | [] => some ⟨[], .done d⟩
  | .array items :: up => some ⟨.array (d :: items) :: up, .after⟩
  | .entry members key :: up => some ⟨.object ((key, d) :: members) :: up, .after⟩
  | .object _ :: _ => none

def isSpace (c : Char) : Bool := c = ' ' || c = '\t' || c = '\n' || c = '\r'

/-- A character after a value inside an array or object. -/
def afterValue (stack : List Level) (c : Char) : Option Reader :=
  if isSpace c then some ⟨stack, .after⟩
  else match stack with
    | .array items :: up =>
      if c = ',' then some ⟨stack, .value⟩
      else if c = ']' then deliver (.array items.reverse) up
      else none
    | .object members :: up =>
      if c = ',' then some ⟨stack, .key⟩
      else if c = '\x7d' then deliver (.object members.reverse) up
      else none
    | _ => none

/-- The first character of a value. -/
def beginValue (stack : List Level) (c : Char) : Option Reader :=
  if c = '"' then some ⟨stack, .string false {}⟩
  else if c = '[' then some ⟨.array [] :: stack, .firstItem⟩
  else if c = '\x7b' then some ⟨.object [] :: stack, .firstKey⟩
  else if c = '-' then some ⟨stack, .numeral { negative := true } .sign⟩
  else if c = 'n' then some ⟨stack, .word ['u', 'l', 'l'] .null⟩
  else if c = 't' then some ⟨stack, .word ['r', 'u', 'e'] (.bool true)⟩
  else if c = 'f' then some ⟨stack, .word ['a', 'l', 's', 'e'] (.bool false)⟩
  else (Numeral.extend? {} .sign c).map fun (n, part) => ⟨stack, .numeral n part⟩

/-- A character where nothing but a value has just ended. -/
def afterAny (r : Reader) (c : Char) : Option Reader :=
  match r.phase with
  | .after => afterValue r.stack c
  | .done _ => if isSpace c then some r else none
  | _ => none

def step (r : Reader) (c : Char) : Option Reader :=
  match r.phase with
  | .value => if isSpace c then some r else beginValue r.stack c
  | .firstItem =>
    if isSpace c then some r
    else if c = ']' then deliver (.array []) r.stack.tail
    else beginValue r.stack c
  | .firstKey =>
    if isSpace c then some r
    else if c = '\x7d' then deliver (.object []) r.stack.tail
    else if c = '"' then some { r with phase := .string true {} }
    else none
  | .key =>
    if isSpace c then some r
    else if c = '"' then some { r with phase := .string true {} }
    else none
  | .colon =>
    if isSpace c then some r else if c = ':' then some { r with phase := .value } else none
  | .after | .done _ => r.afterAny c
  | .word [] _ => none
  | .word [last] d => if c = last then deliver d r.stack else none
  | .word (next :: rest) d => if c = next then some { r with phase := .word rest d } else none
  | .numeral n part =>
    match n.extend? part c with
    | some (n, part) => some { r with phase := .numeral n part }
    | none =>
      if part.complete then (deliver (.number n.value?) r.stack).bind (·.afterAny c) else none
  | .string isKey l =>
    match l.escape with
    | .none =>
      if c = '"' then
        if isKey then
          match r.stack with
          | .object members :: up => some ⟨.entry members l.text :: up, .colon⟩
          | _ => none
        else deliver (.string l.text) r.stack
      else (l.extend? c).map fun l => { r with phase := .string isKey l }
    | _ => (l.extend? c).map fun l => { r with phase := .string isKey l }

/-- The tree, if the text may end here. -/
def finish (r : Reader) : Option Document :=
  match r.phase with
  | .done d => some d
  | .numeral n part =>
    if part.complete ∧ r.stack.isEmpty then some (.number n.value?) else none
  | _ => none

end Reader

namespace Document

def read? (text : List Char) : Option Document :=
  (text.foldlM Reader.step Reader.start).bind Reader.finish

mutual

/-- The tree of a value. -/
def ofJson : Json → Document
  | .null => .null
  | .bool b => .bool b
  | .number n => .number (some n)
  | .string s => .string (some s)
  | .array items => .array (ofItems items)
  | .object members => .object (ofMembers members)

def ofItems : List Json → List Document
  | [] => []
  | j :: rest => ofJson j :: ofItems rest

def ofMembers : List (String × Json) → List (Option String × Document)
  | [] => []
  | (k, j) :: rest => (some k, ofJson j) :: ofMembers rest

end

end Document
end Json
end StepScript

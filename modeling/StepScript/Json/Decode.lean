import StepScript.Json.Document

/-!
# StepScript.Json.Decode

Typed reading of JSON trees. A decoder is told how many levels of arrays and objects it may still
open, so the nesting of what it reads is bounded, and what it passes over is not.

* `record?`  — the fields of a record, written as an object or as the array of its fields.
* `variant?` — the tag and content of a choice, written as an object with one member, or as the
  bare tag when there is no content.
* `value?`   — a tree as a JSON value; of a repeated key the last member counts.
-/

namespace StepScript
namespace Json

abbrev Decoder (α : Type) := Nat → Document → Option α

/-- How many levels a text may nest. -/
def nestingLimit : Nat := 127

/-- The fields of a record that has been opened. -/
structure Fields where
  members : List (String × Document)

namespace Fields

variable {α : Type}

def required (fs : Fields) (name : String) (d : Document → Option α) : Option α :=
  (fs.members.lookup name).bind d

/-- A missing field stands for `default`. -/
def withDefault (fs : Fields) (name : String) (default : α) (d : Document → Option α) :
    Option α :=
  match fs.members.lookup name with
  | none => some default
  | some doc => d doc

end Fields

namespace Document

/-- The items of an array, which opens a level. -/
def items? : Nat → Document → Option (List Document)
  | _ + 1, .array items => some items
  | _, _ => none

/-- The members among `known`, unless a key is no text or a known one is repeated. -/
def knownMembers? (known : List String) :
    List (Option String × Document) → Option (List (String × Document))
  | [] => some []
  | (none, _) :: _ => none
  | (some k, d) :: rest => do
    let others ← knownMembers? known rest
    if k ∈ known then
      if others.any (·.1 = k) then none else some ((k, d) :: others)
    else some others

/-- The fields of a record whose fields are `known`, in order. Fields may be missing, at the end
of an array or anywhere in an object; members of other names are passed over. -/
def record? (known : List String) : Nat → Document → Option Fields
  | _ + 1, .array items => if items.length ≤ known.length then some ⟨known.zip items⟩ else none
  | _ + 1, .object members => (knownMembers? known members).map Fields.mk
  | _, _ => none

/-- The tag of a choice and its content. -/
def variant? : Nat → Document → Option (String × Option Document)
  | _, .string (some tag) => some (tag, none)
  | _ + 1, .object [(some tag, content)] => some (tag, some content)
  | _, _ => none

mutual

/-- How many levels a tree opens. -/
def depth : Document → Nat
  | .array items => depthItems items + 1
  | .object members => depthMembers members + 1
  | _ => 0

def depthItems : List Document → Nat
  | [] => 0
  | d :: rest => max (depth d) (depthItems rest)

def depthMembers : List (Option String × Document) → Nat
  | [] => 0
  | (_, d) :: rest => max (depth d) (depthMembers rest)

end

/-- A tree as a value, members sorted by key. -/
def value? : Nat → Document → Option Json
  | _, .null => some .null
  | _, .bool b => some (.bool b)
  | _, .number n => n.map .number
  | _, .string s => s.map .string
  | 0, _ => none
  | n + 1, .array items => (items.mapM (value? n)).map .array
  | n + 1, .object members => do
    let pairs ← members.mapM fun (k, d) => do return (← k, ← value? n d)
    return .object (Entries.ofList pairs)

end Document

namespace Decoder

variable {α : Type}

def string : Decoder String
  | _, .string s => s
  | _, _ => none

def bool : Decoder Bool
  | _, .bool b => some b
  | _, _ => none

/-- A whole number written without fraction and exponent. -/
def nat : Decoder Nat
  | _, .number (some (.int n)) => if 0 ≤ n then some n.toNat else none
  | _, _ => none

def float : Decoder Float
  | _, .number (some n) => some n.toFloat
  | _, _ => none

/-- The nearest single-precision number; of a fraction, by way of the nearest double. -/
def float32 : Decoder Float32
  | _, .number (some (.int n)) =>
    let magnitude := n.natAbs.toUInt64.toFloat32
    some (if n < 0 then -magnitude else magnitude)
  | _, .number (some (.float x)) => some x.toFloat32
  | _, _ => none

/-- `null` stands for nothing. -/
def optional (d : Decoder α) : Decoder (Option α)
  | _, .null => some none
  | n, doc => (d n doc).map some

def list (d : Decoder α) : Decoder (List α)
  | n + 1, .array items => items.mapM (d n)
  | _, _ => none

/-- One of the listed tags, without content or with the content `null`. -/
def tag (tags : List (String × α)) : Decoder α := fun n doc =>
  match doc.variant? n with
  | some (t, none) | some (t, some .null) => tags.lookup t
  | _ => none

end Decoder

/-- Reads a text with a decoder that may open `nestingLimit` levels. -/
def decodeText? {α : Type} (d : Decoder α) (text : String) : Option α :=
  (Document.read? text.toList).bind (d nestingLimit)

/-- Decodes a value; its nesting is not limited. -/
def decode? {α : Type} (d : Decoder α) (j : Json) : Option α :=
  d (j.depth + 1) (Document.ofJson j)

end Json
end StepScript

import StepScript.Decimal.Shortest

/-!
# StepScript.Decimal.Layout

Written forms of numbers.

* `Decimal.plain`  — positional notation, never an exponent.
* `Decimal.mixed`  — positional near one, with an exponent elsewhere.
* `plainText`, `plainText32` — numbers as scripts and reports show them.
* `mixedText?` — numbers as JSON texts show them; only finite numbers have such a form.
-/

namespace StepScript
namespace Decimal

def zeros (n : Nat) : String := String.ofList (List.replicate n '0')

/-- The digits as text. -/
def text (d : Decimal) : String := String.ofList (digitChars d.digits)

/-- Where the point stands: the value is `0.d₁d₂… · 10 ^ point`. -/
def point (d : Decimal) : Int := (digitChars d.digits).length + d.exponent

/-- Positional notation with a fraction only where one is needed; `whole` ends whole numbers. -/
def positional (whole : String) (d : Decimal) : String :=
  let cs := digitChars d.digits
  let p := d.point
  if 0 ≤ d.exponent then String.ofList cs ++ zeros d.exponent.toNat ++ whole
  else if 0 < p then
    String.ofList (cs.take p.toNat) ++ "." ++ String.ofList (cs.drop p.toNat)
  else "0." ++ zeros (-p).toNat ++ String.ofList cs

def plain (d : Decimal) : String := d.positional ""

/-- One digit, a point if more follow, and a signed exponent. -/
def scientific (d : Decimal) : String :=
  let e := d.point - 1
  let sign := if 0 ≤ e then "+" else "-"
  let mantissa := match digitChars d.digits with
    | [] => ""
    | [c] => String.ofList [c]
    | c :: cs => String.ofList (c :: '.' :: cs)
  mantissa ++ "e" ++ sign ++ toString e.natAbs

/-- Positional with the point at most four zeros before or sixteen digits after the first digit,
scientific elsewhere; a whole number ends in `.0`. -/
def mixed (d : Decimal) : String :=
  if d.digits = 0 ∨ (-5 < d.point ∧ d.point ≤ 16) then d.positional ".0" else d.scientific

end Decimal

def signed (negative : Bool) (s : String) : String := if negative then "-" ++ s else s

/-- A half goes up, away from zero. -/
def Binary.plainText : Binary → String
  | .nan => "NaN"
  | .infinite negative => signed negative "inf"
  | .finite negative m q narrow => signed negative (Decimal.shortest .up m q narrow).plain

def plainText (x : Float) : String := (Binary.ofFloat x).plainText

def plainText32 (x : Float32) : String := (Binary.ofFloat32 x).plainText

/-- A half goes to the even digit. -/
def mixedText? (x : Float) : Option String :=
  match Binary.ofFloat x with
  | .finite negative m q narrow => some (signed negative (Decimal.shortest .even m q narrow).mixed)
  | _ => none

end StepScript

/-!
# StepScript.Decimal.Binary

Binary floating-point numbers as exact dyadic rationals.

* `Binary` — not a number, an infinity, or `± m · 2 ^ q`.
* `Binary.ofFloat`, `Binary.ofFloat32` — the exact content of a number.
* `remainder` — what is left of a division truncated toward zero, computed exactly.
-/

namespace StepScript

def powTwo (n : Nat) : Nat := Nat.pow 2 n

def powTen (n : Nat) : Nat := Nat.pow 10 n

/-- The content of a binary floating-point number. `narrow` holds when the next smaller number
is only half as far away as the next larger one. -/
inductive Binary where
  | nan
  | infinite (negative : Bool)
  | finite (negative : Bool) (mantissa : Nat) (exponent : Int) (narrow : Bool)

namespace Binary

/-- Reads an interchange encoding with `f` fraction bits and `e` exponent bits. -/
def ofBits (f e : Nat) (bits : Nat) : Binary :=
  let negative := (bits >>> (f + e)) % 2 == 1
  let biased := (bits >>> f) % powTwo e
  let fraction := bits % powTwo f
  let least : Int := 2 - powTwo (e - 1) - f
  if biased = powTwo e - 1 then
    if fraction = 0 then .infinite negative else .nan
  else if biased = 0 then .finite negative fraction least false
  else .finite negative (powTwo f + fraction) (least + (biased - 1)) (fraction == 0 && 1 < biased)

def ofFloat (x : Float) : Binary := ofBits 52 11 x.toBits.toNat

def ofFloat32 (x : Float32) : Binary := ofBits 23 8 x.toBits.toNat

/-- The integer that a number is, if it is one. -/
def toInt? : Binary → Option Int
  | .finite negative m q _ =>
    let magnitude : Option Nat :=
      if 0 ≤ q then some (m * powTwo q.toNat)
      else if m % powTwo (-q).toNat = 0 then some (m / powTwo (-q).toNat)
      else none
    magnitude.map fun n => if negative then -(n : Int) else n
  | _ => none

end Binary

/-- The double `2 ^ q`, for exponents of doubles. -/
def powerOfTwo (q : Int) : Float :=
  if -1022 ≤ q then Float.ofBits (((q + 1023).toNat <<< 52).toUInt64)
  else Float.ofBits ((1 <<< (q + 1074).toNat).toUInt64)

/-- The remainder of `x` by `y` with the sign of `x`; exact for finite operands. -/
def remainder (x y : Float) : Float :=
  match Binary.ofFloat x, Binary.ofFloat y with
  | .finite negative m p _, .finite _ n q _ =>
    if n = 0 then 0.0 / 0.0
    else
      let low := min p q
      let rest := (m * powTwo (p - low).toNat) % (n * powTwo (q - low).toNat)
      let magnitude := Float.ofNat rest * powerOfTwo low
      if negative then -magnitude else magnitude
  | .finite .., .infinite _ => x
  | _, _ => 0.0 / 0.0

end StepScript

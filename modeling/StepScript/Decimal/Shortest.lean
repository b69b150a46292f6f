import StepScript.Decimal.Binary

/-!
# StepScript.Decimal.Shortest

The shortest decimal that reads back as a given binary number.

* `Decimal`  — `digits · 10 ^ exponent`.
* `shortest` — of the decimals that round to `m · 2 ^ q`, one with the fewest digits; of several
  of that length the nearest; an exact tie goes as `Tie` says.
-/

namespace StepScript

/-- The value `digits · 10 ^ exponent`. -/
structure Decimal where
  digits : Nat
  exponent : Int
  deriving DecidableEq, Repr

namespace Decimal

/-- Which of two equally near decimals is taken. -/
inductive Tie where
  | up
  | even

/-- Drops up to `n` zeros at the end of the digits. -/
def stripZeros : Nat → Decimal → Decimal
  | 0, d => d
  | n + 1, d =>
    if d.digits ≠ 0 ∧ d.digits % 10 = 0 then stripZeros n ⟨d.digits / 10, d.exponent + 1⟩ else d

/-- The decimal digits of a natural number, most significant first. -/
def digitChars (n : Nat) : List Char := Nat.toDigits 10 n

/-- The least `k` from `start` on with `num < den · 10 ^ k`, looked for `fuel` times. -/
def magnitudeFrom (num den : Nat) : Nat → Int → Int
  | 0, k => k
  | fuel + 1, k =>
    let below : Bool :=
      if 0 ≤ k then num < den * powTen k.toNat else num * powTen (-k).toNat < den
    if below then k else magnitudeFrom num den fuel (k + 1)

/-- The numbers that round to `m · 2 ^ q`, over the common denominator `4 · 2 ^ (-q)`. -/
structure Interval where
  low : Nat
  value : Nat
  high : Nat
  denominator : Nat
  closed : Bool

def Interval.around (m : Nat) (q : Int) (narrow : Bool) : Interval :=
  let scale := if 0 ≤ q then powTwo q.toNat else 1
  let den := if 0 ≤ q then 4 else 4 * powTwo (-q).toNat
  { low := (if narrow then 4 * m - 1 else 4 * m - 2) * scale
    value := 4 * m * scale
    high := (4 * m + 2) * scale
    denominator := den
    closed := m % 2 == 0 }

/-- Does `digits · 10 ^ e` round to the value of the interval? -/
def Interval.holds (i : Interval) (digits : Nat) (e : Int) : Bool :=
  let n := if 0 ≤ e then digits * powTen e.toNat * i.denominator else digits * i.denominator
  let s := if 0 ≤ e then 1 else powTen (-e).toNat
  if i.closed then i.low * s ≤ n && n ≤ i.high * s else i.low * s < n && n < i.high * s

/-- The candidate with unit `10 ^ e`: the nearer of the two neighbours that the interval holds. -/
def Interval.pick? (i : Interval) (tie : Tie) (e : Int) : Option Decimal :=
  let num := if 0 ≤ e then i.value else i.value * powTen (-e).toNat
  let den := if 0 ≤ e then i.denominator * powTen e.toNat else i.denominator
  let down := num / den
  let rest := num % den
  match i.holds down e && down ≠ 0, i.holds (down + 1) e with
  | false, false => none
  | true, false => some ⟨down, e⟩
  | false, true => some ⟨down + 1, e⟩
  | true, true =>
    if 2 * rest < den then some ⟨down, e⟩
    else if den < 2 * rest then some ⟨down + 1, e⟩
    else match tie with
      | .up => some ⟨down + 1, e⟩
      | .even => some (if down % 2 = 0 then ⟨down, e⟩ else ⟨down + 1, e⟩)

/-- Tries ever finer units below `10 ^ k`. -/
def Interval.search (i : Interval) (tie : Tie) : Nat → Int → Decimal
  | 0, e => ⟨i.value * powTen (-e).toNat / i.denominator, e⟩
  | fuel + 1, e =>
    match i.pick? tie e with
    | some d => d
    | none => i.search tie fuel (e - 1)

/-- A power of ten just below `m · 2 ^ q`, from the number of its bits: ten times that power and
a bit more is above it. -/
def magnitudeGuess (m : Nat) (q : Int) : Int := ((m.log2 + q) * 30102).fdiv 100000 - 1

/-- The shortest decimal for `m · 2 ^ q`. Seventeen digits always suffice for doubles. -/
def shortest (tie : Tie) (m : Nat) (q : Int) (narrow : Bool) : Decimal :=
  if m = 0 then ⟨0, 0⟩
  else
    let i := Interval.around m q narrow
    let k := magnitudeFrom i.value i.denominator 8 (magnitudeGuess m q)
    stripZeros 400 (i.search tie 17 (k - 1))

end Decimal
end StepScript

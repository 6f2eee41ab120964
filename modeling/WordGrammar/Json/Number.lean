import WordGrammar.Decimal.Positional
import WordGrammar.Json.Basic

namespace WordGrammar.Json

/-- Appends digits to a number for as long as it stays below `Numeral.limit`; answers with the
    number and the digits left over. -/
def appendDigits (n : Nat) : List Char → Nat × List Char
  | [] => (n, [])
  | d :: ds =>
    let next := 10 * n + (d.toNat - '0'.toNat)
    if next < Numeral.limit then appendDigits next ds else (n, d :: ds)

/-- The power of ten that is nearest among doubles. -/
def powerOfTen (exponent : Nat) : Float := Float.ofScientific 1 false exponent

/-- The greatest exponent of ten that a double can have. -/
def greatestExponent : Nat := 308

/-- A nonnegative number scaled by a power of ten, one division or multiplication at a time; none
    if the result is too large. A zero stays zero whatever the exponent. -/
def scale? : Nat → Float → Int → Option Float
  | 0, x, _ => some x
  | budget + 1, x, exponent =>
    if exponent.natAbs ≤ greatestExponent then
      if 0 ≤ exponent then
        let y := x * powerOfTen exponent.natAbs
        if y.isInf then none else some y
      else some (x / powerOfTen exponent.natAbs)
    else if x == 0 then some x
    else if 0 ≤ exponent then none
    else scale? budget (x / powerOfTen greatestExponent) (exponent + greatestExponent)

/-- Exponents are read as 32-bit numbers; larger ones count as boundless. -/
def exponentLimit : Nat := 0x80000000

/-- The magnitude of a number as a double. Twice divided by the greatest power of ten, what fits
    into 64 bits is zero, so scaling takes three steps at most. -/
def Number.magnitude? (n : Number) : Option Float :=
  let (wholePart, dropped) := appendDigits 0 n.whole
  let (significand, rest) := appendDigits wholePart n.fraction
  let written : Int := dropped.length - (n.fraction.length - rest.length : Nat)
  match n.exponent with
  | none => scale? 4 (Float.ofNat significand) written
  | some e =>
    let shift := Numeral.value e.digits
    if shift < exponentLimit then
      scale? 4 (Float.ofNat significand) (if e.negative then written - shift else written + shift)
    else if significand = 0 ∨ e.negative then some 0
    else none

/-- The number as a double, if it is not too large for one. Scaling in double arithmetic may leave a
    number with many digits one unit in the last place away from the nearest double. -/
def Number.toFloat? (n : Number) : Option Float :=
  n.magnitude?.map fun x => if n.negative then -x else x

/-- Decimals whose first digit stands between these places, counted from the units, are written
    without an exponent. -/
def leastPositional : Int := -5

/-- The other end of `leastPositional`. -/
def greatestPositional : Int := 15

/-- A finite double as a number, with at least one digit behind the point unless it has an
    exponent. -/
def Number.ofFloat (x : Float) : Number :=
  let magnitude := x.abs
  let negative := Decimal.isNegative x
  if magnitude == 0 then ⟨negative, ['0'], ['0'], none⟩
  else
    let d := Decimal.shortest .toEven magnitude
    let ds := Numeral.digits d.coefficient
    let place : Int := d.exponent + ds.length - 1
    if leastPositional ≤ place ∧ place ≤ greatestPositional then
      let fraction := d.fractionDigits
      ⟨negative, d.wholeDigits, if fraction.isEmpty then ['0'] else fraction, none⟩
    else
      ⟨negative, ds.take 1, ds.drop 1,
        some ⟨decide (place < 0), Numeral.digits place.natAbs⟩⟩

end WordGrammar.Json

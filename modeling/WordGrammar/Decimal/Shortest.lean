namespace WordGrammar

/-- The number `coefficient * 10 ^ exponent`. -/
structure Decimal where
  coefficient : Nat
  exponent : Int
deriving DecidableEq, Repr

namespace Decimal

/-- The double nearest to a decimal; of two equally near ones, the one with an even significand. -/
def toFloat (d : Decimal) : Float :=
  Float.ofScientific d.coefficient (decide (d.exponent < 0)) d.exponent.natAbs

/-- Whether the sign bit of a double is set, zeros included. -/
def isNegative (x : Float) : Bool := x.toBits >>> 63 == 1

/-- The exponent field of a double. -/
def exponentField (x : Float) : Nat := ((x.toBits >>> 52) &&& 0x7FF).toNat

/-- The fraction field of a double. -/
def fractionField (x : Float) : Nat := (x.toBits &&& 0xFFFFFFFFFFFFF).toNat

/-- The significand of a finite double as a whole number. -/
def significand (x : Float) : Nat :=
  if exponentField x = 0 then fractionField x else 0x10000000000000 + fractionField x

/-- The magnitude of a finite double as a numerator and a denominator. -/
def ratio (x : Float) : Nat × Nat :=
  let scale := max (exponentField x) 1
  if 1075 ≤ scale then (significand x <<< (scale - 1075), 1)
  else (significand x, 1 <<< (1075 - scale))

/-- A fraction multiplied by `10 ^ places`, as a numerator and a denominator. -/
def shifted (num den : Nat) (places : Int) : Nat × Nat :=
  let factor := Nat.pow 10 places.natAbs
  if places < 0 then (num, den * factor) else (num * factor, den)

/-- The number of digits that the positive fraction `num / den` has before the point, or, when it is
    below one tenth, minus the number of zeros that follow the point. -/
def magnitude (num den : Nat) : Int :=
  let estimate : Int := (Nat.toDigits 10 num).length - (Nat.toDigits 10 den).length
  let (n, d) := shifted num den (-estimate)
  if d ≤ n then estimate + 1 else estimate

/-- How to choose between two decimals that are equally near. -/
inductive Tie where
  | up
  | toEven
deriving DecidableEq, Repr

/-- Of the multiples of `10 ^ exponent` on either side of `num / den`, the nearer one that reads
    back as `x`. -/
def onGrid? (tie : Tie) (x : Float) (num den : Nat) (exponent : Int) : Option Decimal :=
  let (n, d) := shifted num den (-exponent)
  let below : Decimal := ⟨n / d, exponent⟩
  let above : Decimal := ⟨n / d + 1, exponent⟩
  let readsBack (c : Decimal) : Bool := c.toFloat.toBits == x.toBits
  match readsBack below, readsBack above with
  | false, false => none
  | true, false => some below
  | false, true => some above
  | true, true =>
    let rest := n % d
    if 2 * rest < d then some below
    else if d < 2 * rest then some above
    else match tie with
      | .up => some above
      | .toEven => some (if below.coefficient % 2 = 0 then below else above)

/-- Tries ever finer grids, `tries` of them, beginning with the multiples of `10 ^ exponent`. -/
def search? (tie : Tie) (x : Float) (num den : Nat) : Nat → Int → Option Decimal
  | 0, _ => none
  | tries + 1, exponent =>
    match onGrid? tie x num den exponent with
    | some d => some d
    | none => search? tie x num den tries (exponent - 1)

/-- All digits of `num / den` for a denominator that is a power of two. -/
def exact (num den : Nat) : Decimal :=
  ⟨num * Nat.pow 5 den.log2, -den.log2⟩

/-- Drops up to `budget` zeros from the end of the coefficient. -/
def strip : Nat → Decimal → Decimal
  | 0, d => d
  | budget + 1, d =>
    if d.coefficient ≠ 0 ∧ d.coefficient % 10 = 0 then
      strip budget ⟨d.coefficient / 10, d.exponent + 1⟩
    else d

/-- The shortest decimal that reads back as the positive finite double `x`, without zeros at the end
    of its coefficient; of several, the nearest to `x`. Seventeen digits always suffice, so the
    expansion in full is only there for a search that finds nothing. -/
def shortest (tie : Tie) (x : Float) : Decimal :=
  let (num, den) := ratio x
  let found := (search? tie x num den 17 (magnitude num den - 1)).getD (exact num den)
  strip 20 found

end Decimal

end WordGrammar

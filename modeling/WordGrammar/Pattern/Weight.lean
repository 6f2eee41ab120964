import WordGrammar.Decimal.Positional

namespace WordGrammar.Pattern

/-- Reads digits with an optional point among or behind them, or a point and digits, as the nearest
    double (`parse_weight`). There are neither signs nor exponents. -/
def readWeight? (text : List Char) : Option Float :=
  let whole := text.takeWhile Char.isDigit
  let decimal (fraction : List Char) : Float :=
    Decimal.toFloat ⟨Numeral.value (whole ++ fraction), -fraction.length⟩
  match text.dropWhile Char.isDigit with
  | [] => if whole.isEmpty then none else some (decimal [])
  | '.' :: fraction =>
    if fraction.all Char.isDigit && !(whole.isEmpty && fraction.isEmpty) then
      some (decimal fraction)
    else none
  | _ => none

/-- The magnitude of a finite weight, with the fewest digits that read back; of two equally short
    and equally near decimals, the larger. -/
def weightDigits (weight : Float) : List Char :=
  let magnitude := weight.abs
  if magnitude == 0 then ['0']
  else
    let shortest := Decimal.shortest .up magnitude
    match shortest.fractionDigits with
    | [] => shortest.wholeDigits
    | fraction => shortest.wholeDigits ++ '.' :: fraction

/-- A weight as text. What a pattern cannot hold, a sign or a value that is not finite, is written
    out for the reader of a message. -/
def weightText (weight : Float) : List Char :=
  if weight.isNaN then "NaN".toList
  else
    (if Decimal.isNegative weight then ['-'] else []) ++
      if weight.isInf then "inf".toList else weightDigits weight

end WordGrammar.Pattern

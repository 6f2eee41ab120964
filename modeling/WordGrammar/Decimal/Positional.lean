import WordGrammar.Decimal.Shortest
import WordGrammar.Text.Numeral

namespace WordGrammar.Decimal

/-- The digits before the point of a decimal that is written out without an exponent. -/
def wholeDigits (d : Decimal) : List Char :=
  let ds := Numeral.digits d.coefficient
  if 0 ≤ d.exponent then ds ++ List.replicate d.exponent.toNat '0'
  else if d.exponent.natAbs < ds.length then ds.take (ds.length - d.exponent.natAbs)
  else ['0']

/-- The digits after the point, none for a whole number. -/
def fractionDigits (d : Decimal) : List Char :=
  let ds := Numeral.digits d.coefficient
  if 0 ≤ d.exponent then []
  else if d.exponent.natAbs < ds.length then ds.drop (ds.length - d.exponent.natAbs)
  else List.replicate (d.exponent.natAbs - ds.length) '0' ++ ds

end WordGrammar.Decimal

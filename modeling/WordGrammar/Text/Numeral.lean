namespace WordGrammar.Numeral

/-- Numbers that are read from a source stay below this. -/
def limit : Nat := UInt64.size

/-- The number's digits, without leading zeros. -/
def digits (n : Nat) : List Char := Nat.toDigits 10 n

/-- The number spelt by the digits, any of which may be leading zeros. -/
def value (ds : List Char) : Nat := Nat.ofDigitChars 10 ds 0

/-- Reads a nonempty run of ASCII digits, if nothing else is there and the number is below
    `limit`. -/
def read? (ds : List Char) : Option Nat :=
  if !ds.isEmpty && ds.all Char.isDigit && value ds < limit then some (value ds) else none

theorem value_digits (n : Nat) : value (digits n) = n :=
  Nat.ofDigitChars_ten_toDigits

end WordGrammar.Numeral

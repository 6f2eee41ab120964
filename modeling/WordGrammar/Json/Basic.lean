namespace WordGrammar

namespace Json

/-- A decimal exponent. -/
structure Exponent where
  negative : Bool
  digits : List Char
deriving DecidableEq, Repr

/-- The parts that a number is written with. How it is rounded is up to whoever takes it for a
    double. -/
structure Number where
  negative : Bool
  whole : List Char
  /-- The digits behind the point, none if there is no point. -/
  fraction : List Char
  exponent : Option Exponent
deriving DecidableEq, Repr

end Json

/-- A JSON value as it is written. Text is kept apart from strings whose escapes stand for no text,
    which are no error as long as nobody asks for their content. -/
inductive Json where
  | null
  | bool (b : Bool)
  | number (n : Json.Number)
  /-- A string; `none` if it has escapes of lone surrogates. -/
  | string (text : Option String)
  | array (items : List Json)
  /-- The members in the order written, repeated keys included. -/
  | object (members : List (Option String × Json))

end WordGrammar

import WordGrammar.Json.Basic

namespace WordGrammar.Json

/-- How a character is written inside a string. -/
def escape (c : Char) : List Char :=
  match c with
  | '"' => ['\\', '"']
  | '\\' => ['\\', '\\']
  | '\x08' => ['\\', 'b']
  | '\x0c' => ['\\', 'f']
  | '\n' => ['\\', 'n']
  | '\r' => ['\\', 'r']
  | '\t' => ['\\', 't']
  | c =>
    if c.toNat < 0x20 then
      ['\\', 'u', '0', '0', Nat.digitChar (c.toNat / 16), Nat.digitChar (c.toNat % 16)]
    else [c]

/-- A string between quotes. One that stands for no text is written as a lone surrogate, and so
    again as a string that stands for no text. -/
def stringChars : Option String → List Char
  | some text => '"' :: text.toList.flatMap escape ++ ['"']
  | none => "\"\\ud800\"".toList

/-- A number, with a sign before its exponent. -/
def Number.chars (n : Number) : List Char :=
  (if n.negative then ['-'] else []) ++ n.whole ++
    (if n.fraction.isEmpty then [] else '.' :: n.fraction) ++
    match n.exponent with
    | none => []
    | some e => 'e' :: (if e.negative then '-' else '+') :: e.digits

mutual

/-- The characters of a value. -/
def chars : Json → List Char
  | .null => "null".toList
  | .bool true => "true".toList
  | .bool false => "false".toList
  | .number n => n.chars
  | .string text => stringChars text
  | .array items => '[' :: List.intercalate [','] (itemChars items) ++ [']']
  | .object members => '{' :: List.intercalate [','] (memberChars members) ++ ['}']

/-- The characters of each item. -/
def itemChars : List Json → List (List Char)
  | [] => []
  | item :: items => item.chars :: itemChars items

/-- The characters of each member. -/
def memberChars : List (Option String × Json) → List (List Char)
  | [] => []
  | (key, value) :: members => (stringChars key ++ ':' :: value.chars) :: memberChars members

end

/-- The text of a value. -/
def write (json : Json) : String := String.ofList json.chars

end WordGrammar.Json

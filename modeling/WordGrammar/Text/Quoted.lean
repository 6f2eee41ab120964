import WordGrammar.Text.Unprintable

namespace WordGrammar.Quoted

/-- How a character is spelt between the quotes: quotes and backslashes behind a backslash, the
    commonest controls by a letter, and whatever has no picture by its code point. -/
def spell (c : Char) : List Char :=
  match c with
  | '"' => ['\\', '"']
  | '\\' => ['\\', '\\']
  | '\x00' => ['\\', '0']
  | '\t' => ['\\', 't']
  | '\n' => ['\\', 'n']
  | '\r' => ['\\', 'r']
  | c =>
    if isUnprintable c then "\\u\x7b".toList ++ Nat.toDigits 16 c.toNat ++ ['\x7d'] else [c]

/-- The text between double quotes. -/
def encode (text : String) : String :=
  String.ofList ('"' :: text.toList.flatMap spell ++ ['"'])

end WordGrammar.Quoted

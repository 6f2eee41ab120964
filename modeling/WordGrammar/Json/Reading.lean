import WordGrammar.Json.Basic

namespace WordGrammar.Json

/-- Reads something from the start of a text and leaves the rest. -/
abbrev Reader (α : Type) := List Char → Option (α × List Char)

/-- Characters that may stand between words. -/
def isBlank (c : Char) : Bool := c == ' ' || c == '\n' || c == '\t' || c == '\r'

/-- The text from its first character that is no blank. -/
def skipBlanks (text : List Char) : List Char := text.dropWhile isBlank

/-- The value of a hexadecimal digit. -/
def hexDigit? (c : Char) : Option Nat :=
  if c.isDigit then some (c.toNat - '0'.toNat)
  else if 'a' ≤ c ∧ c ≤ 'f' then some (c.toNat - 'a'.toNat + 10)
  else if 'A' ≤ c ∧ c ≤ 'F' then some (c.toNat - 'A'.toNat + 10)
  else none

/-- The code unit that four hexadecimal digits spell. -/
def codeUnit? (a b c d : Char) : Option Nat := do
  let high := (← hexDigit? a) * 16 + (← hexDigit? b)
  let low := (← hexDigit? c) * 16 + (← hexDigit? d)
  some (high * 256 + low)

/-- The character that a letter behind a backslash stands for. -/
def escaped? : Char → Option Char
  | '"' => some '"'
  | '\\' => some '\\'
  | '/' => some '/'
  | 'b' => some '\x08'
  | 'f' => some '\x0c'
  | 'n' => some '\n'
  | 'r' => some '\r'
  | 't' => some '\t'
  | _ => none

/-- The code points and escaped code units of a string, from behind its opening quote. -/
def readUnits : Reader (List Nat)
  | [] => none
  | '"' :: rest => some ([], rest)
  | '\\' :: 'u' :: a :: b :: c :: d :: rest => do
    let unit ← codeUnit? a b c d
    let (units, rest) ← readUnits rest
    some (unit :: units, rest)
  | '\\' :: c :: rest => do
    let unit ← escaped? c
    let (units, rest) ← readUnits rest
    some (unit.toNat :: units, rest)
  | c :: rest =>
    if c = '\\' ∨ c.toNat < 0x20 then none
    else do
      let (units, rest) ← readUnits rest
      some (c.toNat :: units, rest)

/-- The code units that begin a surrogate pair. -/
def isHighSurrogate (unit : Nat) : Bool := 0xD800 ≤ unit && unit < 0xDC00

/-- The code units that end a surrogate pair. -/
def isLowSurrogate (unit : Nat) : Bool := 0xDC00 ≤ unit && unit < 0xE000

/-- The characters that units stand for, if every surrogate is part of a pair. -/
def assemble? : List Nat → Option (List Char)
  | [] => some []
  | [unit] =>
    if isHighSurrogate unit || isLowSurrogate unit then none else some [Char.ofNat unit]
  | unit :: next :: units =>
    if isHighSurrogate unit then
      if isLowSurrogate next then
        (assemble? units).map
          (Char.ofNat (0x10000 + (unit - 0xD800) * 0x400 + (next - 0xDC00)) :: ·)
      else none
    else if isLowSurrogate unit then none
    else (assemble? (next :: units)).map (Char.ofNat unit :: ·)

/-- A string from behind its opening quote. -/
def readString : Reader (Option String) := fun source => do
  let (units, rest) ← readUnits source
  some ((assemble? units).map String.ofList, rest)

/-- One or more digits. -/
def readDigits : Reader (List Char) := fun source =>
  match source.takeWhile Char.isDigit with
  | [] => none
  | digits => some (digits, source.dropWhile Char.isDigit)

/-- The digits before the point, of which the first is zero only if it is the only one. -/
def readWhole : Reader (List Char)
  | '0' :: rest => match rest with
    | c :: _ => if c.isDigit then none else some (['0'], rest)
    | [] => some (['0'], [])
  | source => readDigits source

/-- The digits behind a point, if there is one. -/
def readFraction : Reader (List Char)
  | '.' :: rest => readDigits rest
  | source => some ([], source)

/-- A decimal exponent, if there is one. -/
def readExponent : Reader (Option Exponent)
  | [] => some (none, [])
  | c :: rest =>
    if c = 'e' ∨ c = 'E' then do
      let (negative, rest) := match rest with
        | '-' :: rest => (true, rest)
        | '+' :: rest => (false, rest)
        | rest => (false, rest)
      let (digits, rest) ← readDigits rest
      some (some ⟨negative, digits⟩, rest)
    else some (none, c :: rest)

/-- A number, without leading zeros. -/
def readNumber : Reader Number := fun source => do
  let (negative, source) := match source with
    | '-' :: rest => (true, rest)
    | source => (false, source)
  let (whole, source) ← readWhole source
  let (fraction, source) ← readFraction source
  let (exponent, source) ← readExponent source
  some (⟨negative, whole, fraction, exponent⟩, source)

/-- Items from behind a comma or an opening bracket up to the closing one, within a budget that is
    spent one by one. -/
def readItems {α : Type} (closing : Char) (item : Reader α) : Nat → Reader (List α)
  | 0, _ => none
  | budget + 1, source => do
    let (a, source) ← item source
    match skipBlanks source with
    | c :: rest =>
      if c = ',' then do
        let (as, rest) ← readItems closing item budget rest
        some (a :: as, rest)
      else if c = closing then some ([a], rest)
      else none
    | [] => none

/-- No items and a closing bracket, or up to `budget` items. -/
def readList {α : Type} (closing : Char) (item : Reader α) (budget : Nat) : Reader (List α) :=
  fun source =>
    match skipBlanks source with
    | c :: rest =>
      if c = closing then some ([], rest) else readItems closing item budget (c :: rest)
    | [] => none

/-- A key, a colon and a value. -/
def readMember (value : Reader Json) : Reader (Option String × Json) := fun source => do
  match skipBlanks source with
  | '"' :: rest =>
    let (key, rest) ← readString rest
    match skipBlanks rest with
    | ':' :: rest =>
      let (v, rest) ← value rest
      some ((key, v), rest)
    | _ => none
  | _ => none

/-- A value that directly holds up to `budget` others; `inner` reads these. -/
def readValueOf (budget : Nat) (inner : Reader Json) : Reader Json := fun source =>
  match skipBlanks source with
  | 'n' :: 'u' :: 'l' :: 'l' :: rest => some (.null, rest)
  | 't' :: 'r' :: 'u' :: 'e' :: rest => some (.bool true, rest)
  | 'f' :: 'a' :: 'l' :: 's' :: 'e' :: rest => some (.bool false, rest)
  | '"' :: rest => (readString rest).map fun (text, rest) => (.string text, rest)
  | '[' :: rest => (readList ']' inner budget rest).map fun (items, rest) => (.array items, rest)
  | '{' :: rest =>
    (readList '}' (readMember inner) budget rest).map fun (members, rest) =>
      (.object members, rest)
  | source => (readNumber source).map fun (n, rest) => (.number n, rest)

/-- A value that nests less deep than `size` and directly holds fewer values than that. A text of
    fewer than `size` characters has no other values. -/
def readValue : Nat → Reader Json
  | 0 => fun _ => none
  | size + 1 => readValueOf size (readValue size)

/-- Reads a text that holds one value and nothing else. -/
def read? (text : String) : Option Json :=
  let chars := text.toList
  match readValue (chars.length + 1) chars with
  | some (json, rest) => if (skipBlanks rest).isEmpty then some json else none
  | none => none

end WordGrammar.Json

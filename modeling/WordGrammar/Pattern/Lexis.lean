import WordGrammar.Name
import WordGrammar.Pattern.Malformed
import WordGrammar.Pattern.Weight

namespace WordGrammar.Pattern

/-- An objection and the rest of the source from where it is raised. -/
structure Refusal where
  objection : Objection
  rest : List Char
deriving DecidableEq, Repr

/-- Reads something from the start of a source and leaves the rest, which begins behind the blanks
    that follow. -/
abbrev Reader (α : Type) := List Char → Except Refusal (α × List Char)

/-- Spaces, tabs and line feeds may stand between words. -/
def isBlank (c : Char) : Bool := c == ' ' || c == '\n' || c == '\t'

/-- The source from its first character that is no blank (`skip_whitespace`). -/
def skipBlanks (source : List Char) : List Char := source.dropWhile isBlank

/-- Behind the given symbol, if the source begins with it (`consume`). -/
def symbol? (symbol : Char) : List Char → Option (List Char)
  | [] => none
  | c :: rest => if c = symbol then some (skipBlanks rest) else none

/-- The text of an atom from behind its opening quote, and what follows its closing one. A backslash
    makes the character behind it literal. -/
def atomText? : List Char → Option (List Char × List Char)
  | [] => none
  | '\'' :: rest => some ([], rest)
  | ['\\'] => none
  | '\\' :: c :: rest => (atomText? rest).map fun (text, rest) => (c :: text, rest)
  | c :: rest => (atomText? rest).map fun (text, rest) => (c :: text, rest)

/-- A quoted atom; `source` begins with its opening quote, `rest` behind it (`parse_atom`). -/
def readAtom (source rest : List Char) : Except Refusal (String × List Char) :=
  match atomText? rest with
  | some (text, rest) => .ok (String.ofList text, skipBlanks rest)
  | none => .error ⟨.unclosedAtom, source⟩

/-- The longest name that the source begins with (`parse_ref`). -/
def readName (source : List Char) : String × List Char :=
  (String.ofList (source.takeWhile Name.isPart), skipBlanks (source.dropWhile Name.isPart))

/-- The index of a capture; `source` begins with its first mark, `rest` behind it
    (`parse_placeholder`). -/
def readCapture (source rest : List Char) : Except Refusal (Nat × List Char) :=
  match rest.dropWhile Char.isDigit with
  | '#' :: behind =>
    match Numeral.read? (rest.takeWhile Char.isDigit) with
    | some index => .ok (index, skipBlanks behind)
    | none => .error ⟨.invalidCapture, source⟩
  | _ => .error ⟨.unclosedCapture, source⟩

/-- The least and the greatest count that bounds stand for once all blanks are left out of them
    (`parse_quantifier`). -/
def boundsOf (text : List Char) : Except Objection (Nat × Nat) :=
  if 1 < text.count ':' then .error .invalidRange
  else
    let least := text.takeWhile (· != ':')
    match text.dropWhile (· != ':') with
    | [] =>
      match Numeral.read? least with
      | some n => .ok (n, n)
      | none => .error .invalidBounds
    | _ :: most =>
      match if least.isEmpty then some 0 else Numeral.read? least, Numeral.read? most with
      | some l, some m => if l ≤ m then .ok (l, m) else .error .invalidBounds
      | _, _ => .error .invalidBounds

/-- The bounds of a repetition; `source` begins with their opening brace, `rest` behind it (the
    parser's own `parse_quantifier`). -/
def readBounds (source rest : List Char) : Except Refusal ((Nat × Nat) × List Char) :=
  match rest.dropWhile (· != '}') with
  | [] => .error ⟨.unclosedBounds, []⟩
  | _ :: behind =>
    match boundsOf ((rest.takeWhile (· != '}')).filter (!isBlank ·)) with
    | .ok bounds => .ok (bounds, skipBlanks behind)
    | .error objection => .error ⟨objection, source⟩

/-- Characters that a weight is made of. -/
def isWeightChar (c : Char) : Bool := c.isDigit || c == '.'

/-- A weight with its mark, if the source begins with one (`parse_optional_weight`). -/
def readOptionalWeight (source : List Char) : Except Refusal (Option Float × List Char) :=
  match symbol? '*' source with
  | none => .ok (none, source)
  | some rest =>
    match readWeight? (rest.takeWhile isWeightChar) with
    | some weight => .ok (some weight, skipBlanks (rest.dropWhile isWeightChar))
    | none => .error ⟨.invalidWeight, rest⟩

end WordGrammar.Pattern

namespace WordGrammar.Pattern

/-- What a reader of pattern text can object to. -/
inductive Objection where
  /-- No construct can go on with this character. -/
  | unexpected (c : Char)
  | unclosedAtom
  | unclosedOption
  | unclosedGroup
  | unclosedBounds
  /-- Bounds other than `n`, `least:most` and `:most` with numbers below `2 ^ 64` in order. -/
  | invalidBounds
  /-- Bounds with more than one colon. -/
  | invalidRange
  | invalidWeight
  | unclosedCapture
  | invalidCapture
deriving DecidableEq, Repr

/-- The wording of an objection. -/
def Objection.message : Objection → String
  | .unexpected c => "unexpected character \x60" ++ c.toString ++ "\x60"
  | .unclosedAtom => "expected single quote to end atom"
  | .unclosedOption => "expected ')' at the end of an optional expression"
  | .unclosedGroup => "expected ']' at the end of a group"
  | .unclosedBounds => "expected '\x7d' at the end of quantifier expression"
  | .invalidBounds => "invalid quantifier bounds"
  | .invalidRange => "invalid quantifier range"
  | .invalidWeight => "invalid weight value"
  | .unclosedCapture => "unterminated match placeholder"
  | .invalidCapture => "invalid match placeholder"

/-- An objection and the position it is raised at, in characters from the start of the source
    (`SyntaxError`). -/
structure Malformed where
  objection : Objection
  position : Nat
deriving DecidableEq, Repr

/-- The wording of an objection with its position. -/
def Malformed.message (m : Malformed) : String :=
  m.objection.message ++ " at position " ++ toString m.position

end WordGrammar.Pattern

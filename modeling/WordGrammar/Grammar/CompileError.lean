import WordGrammar.Pattern.Malformed
import WordGrammar.Pattern.Weight
import WordGrammar.Text.Quoted

namespace WordGrammar

/-- The place of a pattern in the definition of a rule. -/
inductive Field where
  | pattern
  | target
  | replacement
  | exclusion
deriving DecidableEq, Repr

/-- How a message calls the field. -/
def Field.label : Field → String
  | .pattern => "pattern"
  | .target => "rewrite match"
  | .replacement => "rewrite replacement"
  | .exclusion => "exclusion"

/-- What a definition can be rejected for. -/
inductive CompileError where
  /-- A field of the rule is no pattern text. -/
  | malformed (rule : String) (field : Field) (cause : Pattern.Malformed)
  /-- A reference names no rule. -/
  | unknownRule (name : String)
  | duplicateRule (name : String)
  /-- No pattern could refer to a rule of this name. -/
  | invalidRuleName (name : String)
  /-- A weight that is negative or undefined. -/
  | invalidWeight (rule : String) (weight : Float)
deriving DecidableEq

/-- The wording of a rejection. -/
def CompileError.message : CompileError → String
  | .malformed rule field cause =>
    "rule " ++ rule ++ ": invalid " ++ field.label ++ ": " ++ cause.message
  | .unknownRule name => "Unknown rule " ++ name
  | .duplicateRule name => "rule " ++ name ++ " is defined more than once"
  | .invalidRuleName name => Quoted.encode name ++ " is not a valid rule name"
  | .invalidWeight rule weight =>
    "rule " ++ rule ++ ": invalid weight " ++ String.ofList (Pattern.weightText weight)

end WordGrammar

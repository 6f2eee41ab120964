import WordGrammar.Fault

namespace WordGrammar

/-- What a generation can run into (`GenerateError`). -/
inductive GenerationError where
  | rootNotFound (name : String)
  /-- Every word that the rule was allowed to try was excluded. -/
  | exclusionsTooRestrictive (rule : String)
  /-- A replacement asks for a segment beyond those that its match captured
      (`MatchIndexOutOfRange`). -/
  | captureOutOfRange (index available : Nat)
deriving DecidableEq, Repr

/-- The wording of an error. -/
def GenerationError.message : GenerationError → String
  | .rootNotFound name => "Root rule " ++ name ++ " not found"
  | .exclusionsTooRestrictive rule => "Exclusion rules of " ++ rule ++ " are too restrictive"
  | .captureOutOfRange index available =>
    "match placeholder #" ++ toString index ++
      "# refers to a segment that does not exist; only " ++ toString available ++ " were captured"

/-- What ends an evaluation without a result. -/
inductive Stop where
  | failed (error : GenerationError)
  | faulted (fault : Fault)
deriving DecidableEq, Repr

/-- The wording of what ended an evaluation. -/
def Stop.message : Stop → String
  | .failed error => error.message
  | .faulted fault => fault.message

end WordGrammar

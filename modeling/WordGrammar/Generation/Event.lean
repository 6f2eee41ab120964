import WordGrammar.Text.Quoted

namespace WordGrammar

/-- Something worth telling. -/
inductive Event where
  /-- A grammar was made of so many rules. -/
  | compiled (rules : Nat) (root : String)
  /-- A rule tried a word, for the given time counted from one, that an exclusion rejects. -/
  | excluded (rule : String) (attempt : Nat) (word : String)
  /-- A rule has used up its attempts. -/
  | exhausted (rule : String) (attempts : Nat)
  /-- A rule's substitution replaced a stretch that began at this position of the text so far. -/
  | substituted (rule : String) (stretch : String) (position : Nat) (replacement : String)
deriving DecidableEq, Repr

/-- The line that tells of an event, with its level in front. -/
def Event.line : Event → String
  | .compiled rules root =>
    "DEBUG compiled " ++ toString rules ++ " rules rooted at " ++ root
  | .excluded rule attempt word =>
    "DEBUG " ++ rule ++ ": attempt " ++ toString attempt ++ " produced excluded " ++
      Quoted.encode word
  | .exhausted rule attempts =>
    "WARN " ++ rule ++ ": every one of " ++ toString attempts ++ " attempts was excluded"
  | .substituted rule stretch position replacement =>
    "TRACE " ++ rule ++ ": rewriting " ++ Quoted.encode stretch ++ " at " ++ toString position ++
      " as " ++ Quoted.encode replacement

end WordGrammar

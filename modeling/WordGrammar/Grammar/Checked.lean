import WordGrammar.Grammar.Basic
import WordGrammar.Grammar.CompileError
import WordGrammar.Name

namespace WordGrammar.Grammar

variable {W : Type}

/-- Checks the names of the rules; `seen` are those of the rules before. -/
def checkNames (seen : List String) : List (Rule W) → Except CompileError Unit
  | [] => .ok ()
  | r :: rules =>
    if !Name.isIdentifier r.name then .error (.invalidRuleName r.name)
    else if seen.contains r.name then .error (.duplicateRule r.name)
    else checkNames (r.name :: seen) rules

/-- The first reference of the rules that names none of them. -/
def danglingReference? (rules : List (Rule W)) : Option String :=
  let names := rules.map (·.name)
  (rules.flatMap Rule.references).find? (!names.contains ·)

/-- The grammar of these rules, or the first thing wrong with them (`Grammar::new`). Every rule must
    have a name that a pattern can refer to and that no rule before it has, and then every reference
    must name a rule. The root need not exist. -/
def ofRules (root : String) (rules : List (Rule W)) (useWeights : Bool) :
    Except CompileError (Grammar W) := do
  checkNames [] rules
  match danglingReference? rules with
  | some name => .error (.unknownRule name)
  | none => .ok { rules, root, useWeights }

end WordGrammar.Grammar

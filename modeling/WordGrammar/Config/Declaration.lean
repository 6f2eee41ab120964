import WordGrammar.Config.Basic

namespace WordGrammar

/-- A step in building a configuration (as in `rules!`). It sets something of the configuration,
    adds a rule, or amends the rule added last. -/
inductive Declaration where
  /-- Begins anew, with a root. -/
  | root (name : String)
  /-- Names the root, and leaves all else as it is. -/
  | chooseRoot (name : String)
  | weights (on : Bool)
  | rule (r : RuleDef)
  | substitute (target replacement : String)
  | exclude (pattern : String)
  | pattern (p : PatternDef)
  /-- A substitution and an exclusion at once. -/
  | chain (target replacement excluded : String)
  /-- Whether substitutions and whether exclusions count. -/
  | flags (substitutions exclusions : Bool)

/-- A declaration that amends a rule where there is none. -/
structure Misplaced where
  /-- What was declared. -/
  what : String
deriving DecidableEq, Repr

/-- The wording of the complaint. -/
def Misplaced.message (m : Misplaced) : String := m.what ++ " declared before any rule"

namespace Config

/-- Amends the rule added last (`last_rule`); `what` names the amendment for the complaint if there
    is none. -/
def amendLast (c : Config) (what : String) (amend : RuleDef → RuleDef) :
    Except Misplaced Config :=
  match c.rules.getLast? with
  | none => .error ⟨what⟩
  | some r => .ok { c with rules := c.rules.dropLast ++ [amend r] }

end Config

namespace Declaration

/-- The configuration after the declaration. -/
def apply (c : Config) : Declaration → Except Misplaced Config
  | .root name => .ok (.ofRoot name)
  | .chooseRoot name => .ok { c with root := some name }
  | .weights on => .ok (c.withWeights on)
  | .rule r => .ok (c.rule r)
  | .substitute target replacement => c.amendLast "rewrite" (·.substitute target replacement)
  | .exclude excluded => c.amendLast "exclusion" (·.exclude excluded)
  | .pattern p => c.amendLast "pattern" (·.pattern p)
  | .chain target replacement excluded =>
    c.amendLast "chain" fun r => (r.substitute target replacement).exclude excluded
  | .flags substitutions exclusions =>
    c.amendLast "flag" fun r =>
      { r with showSubstitutions := substitutions, showExclusions := exclusions }

end Declaration

namespace Config

/-- Applies declarations in order, each misplaced one left out. -/
def declare (c : Config) : List Declaration → Config
  | [] => c
  | d :: ds =>
    match d.apply c with
    | .ok c => c.declare ds
    | .error _ => c.declare ds

end Config

end WordGrammar

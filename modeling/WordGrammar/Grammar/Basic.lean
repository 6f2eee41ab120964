import WordGrammar.Expr.Basic

namespace WordGrammar

/-- Replaces what `target` matches by what `replacement` expands to (a rewrite). -/
structure Substitution (W : Type) where
  target : Expr W
  replacement : Expr W

/-- A rule derives words from its body, applies its substitutions to them in order, and rejects
    words in which one of its exclusions matches. -/
structure Rule (W : Type) where
  name : String
  body : Expr W
  exclusions : List (Expr W)
  substitutions : List (Substitution W)

/-- Rules in the order of their definition, the name of the rule that words are generated from, and
    whether the weights of choices bias the selection. -/
structure Grammar (W : Type) where
  rules : List (Rule W)
  root : String
  useWeights : Bool

variable {W : Type}

/-- The references of a rule's body, which is where it leads when words are derived. -/
def Rule.edges (r : Rule W) : List String := r.body.references

/-- All references of a rule: those of its body, its exclusions, and each substitution in turn
    (`all_references`). -/
def Rule.references (r : Rule W) : List String :=
  r.body.references ++ r.exclusions.flatMap Expr.references ++
    r.substitutions.flatMap fun s => s.target.references ++ s.replacement.references

namespace Grammar

/-- The rule of that name. -/
def rule? (g : Grammar W) (name : String) : Option (Rule W) :=
  g.rules.find? (·.name == name)

/-- Whether some rule has that name. -/
def hasRule (g : Grammar W) (name : String) : Bool := (g.rule? name).isSome

theorem hasRule_iff {g : Grammar W} {name : String} :
    g.hasRule name = true ↔ ∃ r, g.rule? name = some r :=
  Option.isSome_iff_exists

theorem mem_rules_of_rule? {g : Grammar W} {name : String} {r : Rule W}
    (hrule : g.rule? name = some r) : r ∈ g.rules :=
  List.mem_of_find?_eq_some hrule

theorem name_of_rule? {g : Grammar W} {name : String} {r : Rule W}
    (hrule : g.rule? name = some r) : r.name = name := by
  simpa using List.find?_some hrule

theorem hasRule_iff_mem_names {g : Grammar W} {name : String} :
    g.hasRule name = true ↔ name ∈ g.rules.map (·.name) := by
  simp [hasRule, rule?, List.find?_isSome]

end Grammar

end WordGrammar

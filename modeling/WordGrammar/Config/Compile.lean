import WordGrammar.Config.Basic
import WordGrammar.Generation.Event
import WordGrammar.Grammar.Checked
import WordGrammar.Pattern.Reading

namespace WordGrammar

namespace RuleDef

/-- Reads a field of the rule. -/
def readField (r : RuleDef) (field : Field) (kind : Pattern.Kind) (source : String) :
    Except CompileError (Expr Float) :=
  match Pattern.read kind source with
  | .ok e => .ok e
  | .error cause => .error (.malformed r.name field cause)

/-- The alternative that a pattern adds to the rule. Its weight must be zero or more. -/
def compilePattern (r : RuleDef) (p : PatternDef) :
    Except CompileError (Weighted Float (Expr Float)) := do
  if !decide (0 ≤ p.weight) then .error (.invalidWeight r.name p.weight)
  else if r.terminalOnly then .ok ⟨.atom p.pattern, p.weight⟩
  else do
    let e ← r.readField .pattern .pattern p.pattern
    .ok ⟨e, p.weight⟩

/-- A substitution of the rule. -/
def compileSubstitution (r : RuleDef) (s : SubstitutionDef) :
    Except CompileError (Substitution Float) := do
  let target ← r.readField .target .pattern s.target
  let replacement ← r.readField .replacement .replacement s.replacement
  .ok ⟨target, replacement⟩

/-- Whether the exclusions of the rule count. -/
def usesExclusions (r : RuleDef) : Bool := !r.terminalOnly && r.showExclusions

/-- Whether the substitutions of the rule count. -/
def usesSubstitutions (r : RuleDef) : Bool := !r.terminalOnly && r.showSubstitutions

/-- The rule with its texts read (`compile_rule`), in order: the weight and then the text of each
    pattern, the exclusions, and the target and then the replacement of each substitution. The first
    thing wrong is what is reported. -/
def compile (r : RuleDef) : Except CompileError (Rule Float) := do
  let alternatives ← r.patterns.mapM r.compilePattern
  let exclusions ←
    (if r.usesExclusions then r.exclusions else []).mapM (r.readField .exclusion .pattern)
  let substitutions ←
    (if r.usesSubstitutions then r.substitutions else []).mapM r.compileSubstitution
  .ok { name := r.name, body := .choice alternatives, exclusions, substitutions }

end RuleDef

namespace Config

/-- The grammar of a configuration; none if no root is named. Names and references are checked when
    all rules have been compiled. -/
def compile (c : Config) : Except CompileError (Option (Grammar Float)) :=
  match c.root with
  | none => .ok none
  | some root =>
    if root = "" then .ok none
    else do
      let rules ← c.rules.mapM RuleDef.compile
      let g ← Grammar.ofRules root rules c.enableWeights
      .ok (some g)

end Config

/-- The event of having made a grammar. -/
def Grammar.compiled {W : Type} (g : Grammar W) : Event := .compiled g.rules.length g.root

end WordGrammar

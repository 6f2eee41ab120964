namespace WordGrammar

/-- One of the patterns of a rule (`Pattern`). -/
structure PatternDef where
  pattern : String
  weight : Float

/-- A substitution of a rule: a pattern, and the replacement for what it matches (`RewriteDef`). -/
structure SubstitutionDef where
  target : String
  replacement : String
deriving DecidableEq, Repr

/-- The definition of a rule. -/
structure RuleDef where
  name : String
  patterns : List PatternDef
  /-- Patterns are taken literally, and there are neither substitutions nor exclusions. -/
  terminalOnly : Bool
  substitutions : List SubstitutionDef
  exclusions : List String
  /-- Whether substitutions have an effect. -/
  showSubstitutions : Bool
  /-- Whether exclusions have an effect. -/
  showExclusions : Bool

/-- The definition of a grammar as its author writes it, with patterns as text. -/
structure Config where
  rules : List RuleDef
  root : Option String
  enableWeights : Bool

namespace PatternDef

/-- A pattern of weight one. -/
def plain (pattern : String) : PatternDef := ⟨pattern, 1⟩

/-- Equality of definitions, with weights compared as doubles. -/
instance : BEq PatternDef where
  beq p q := p.pattern == q.pattern && p.weight == q.weight

end PatternDef

namespace RuleDef

/-- A rule with these patterns and nothing else (`RuleDef::new`). -/
def ofPatterns (name : String) (terminalOnly : Bool) (patterns : List PatternDef) : RuleDef :=
  { name, patterns, terminalOnly, substitutions := [], exclusions := [],
    showSubstitutions := true, showExclusions := true }

/-- A rule that lists texts. -/
def terminal (name : String) (texts : List String) : RuleDef :=
  ofPatterns name true (texts.map .plain)

/-- A rule with patterns of weight one (`RuleDef::patterns`). -/
def plain (name : String) (patterns : List String) : RuleDef :=
  ofPatterns name false (patterns.map .plain)

/-- The rule with a further pattern. -/
def pattern (r : RuleDef) (p : PatternDef) : RuleDef := { r with patterns := r.patterns ++ [p] }

/-- The rule with a further substitution (`RuleDef::rewrite`). -/
def substitute (r : RuleDef) (target replacement : String) : RuleDef :=
  { r with substitutions := r.substitutions ++ [⟨target, replacement⟩] }

/-- The rule with a further exclusion. -/
def exclude (r : RuleDef) (pattern : String) : RuleDef :=
  { r with exclusions := r.exclusions ++ [pattern] }

/-- Equality of definitions, with weights compared as doubles. -/
instance : BEq RuleDef where
  beq r s :=
    r.name == s.name && r.patterns == s.patterns && r.terminalOnly == s.terminalOnly &&
      r.substitutions == s.substitutions && r.exclusions == s.exclusions &&
      r.showSubstitutions == s.showSubstitutions && r.showExclusions == s.showExclusions

end RuleDef

namespace Config

/-- No rules and no root. -/
def empty : Config := ⟨[], none, false⟩

/-- No rules yet, and the name of the rule to generate words from (`Config::new`). -/
def ofRoot (root : String) : Config := ⟨[], some root, false⟩

/-- The configuration with the use of weights switched on or off. -/
def withWeights (c : Config) (on : Bool) : Config := { c with enableWeights := on }

/-- The configuration with a further rule. -/
def rule (c : Config) (r : RuleDef) : Config := { c with rules := c.rules ++ [r] }

/-- Equality of definitions, with weights compared as doubles. -/
instance : BEq Config where
  beq c d := c.rules == d.rules && c.root == d.root && c.enableWeights == d.enableWeights

/-- A small language that every program can fall back on: words in the manner of Toki Pona. -/
def tokiPona : Config :=
  (ofRoot "Word")
    |>.rule (.terminal "Vowel" ["a", "e", "i", "o", "u"])
    |>.rule (.terminal "Consonant" ["p", "t", "k", "s", "m", "n", "l", "w", "j"])
    |>.rule (.plain "Syllable" ["Consonant.Vowel.('n')"])
    |>.rule ((RuleDef.plain "Word" ["(Consonant).Vowel.('n').Syllable\x7b:2\x7d"])
      |>.substitute "'nn'" "'n'"
      |>.substitute "'nm'" "'m'"
      |>.exclude "'wu'"
      |>.exclude "'wo'"
      |>.exclude "'ji'"
      |>.exclude "'ti'")

end Config

end WordGrammar

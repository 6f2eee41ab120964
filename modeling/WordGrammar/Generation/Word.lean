import WordGrammar.Generation.Expansion
import WordGrammar.Matcher.Grammar

namespace WordGrammar

variable {W : Type} [Weight W]

/-- How often a rule tries to make a word that is not excluded. -/
def maxAttempts : Nat := 100

namespace Grammar

/-- Applies a substitution to a text from a position on. Where the target matches, its shortest
    match is replaced and the text is taken up again behind the replacement. -/
def substituteFrom (g : Grammar W) (rule : String → Sampler (List Char)) (name : String)
    (s : Substitution W) (text : List Char) (position : Nat) : Sampler (List Char) :=
  if position < text.length then
    match (g.matcher s.target).hit? (text.drop position) with
    | .error fault => .stop (.faulted fault)
    | .ok none => substituteFrom g rule name s text (position + 1)
    | .ok (some hit) => do
      let stretch := (text.drop position).take hit.length
      let replacement ←
        s.replacement.expand rule g.useWeights (some (cut hit.segments stretch))
      Sampler.tell
        (.substituted name (String.ofList stretch) position (String.ofList replacement))
      substituteFrom g rule name s
        (text.take position ++ replacement ++ text.drop (position + hit.length))
        (position + replacement.length)
  else pure text
termination_by text.length - position
decreasing_by
  · omega
  · simp only [List.length_append, List.length_take, List.length_drop, Hit.length]
    omega

/-- Applies substitutions one after the other, each to the whole of what the one before has left
    (`rewrite`). -/
def substituteAll (g : Grammar W) (rule : String → Sampler (List Char)) (name : String) :
    List (Substitution W) → List Char → Sampler (List Char)
  | [], text => pure text
  | s :: substitutions, text => do
    let text ← g.substituteFrom rule name s text 0
    g.substituteAll rule name substitutions text

/-- One attempt at a word of a rule, which may yet be excluded. -/
def attempt (g : Grammar W) (rule : String → Sampler (List Char)) (r : Rule W) :
    Sampler (List Char) := do
  let text ← r.body.expand rule g.useWeights none
  g.substituteAll rule r.name r.substitutions text

/-- Tries to make a word of a rule that is not excluded, up to so many times more (the loop of
    `generate_rule`). -/
def tryWord (g : Grammar W) (rule : String → Sampler (List Char)) (r : Rule W) :
    Nat → Sampler (List Char)
  | 0 => do
    Sampler.tell (.exhausted r.name maxAttempts)
    .stop (.failed (.exclusionsTooRestrictive r.name))
  | left + 1 => do
    let text ← g.attempt rule r
    if ← Sampler.ofExcept (g.occursAny r.exclusions text) then do
      Sampler.tell (.excluded r.name (maxAttempts - left) (String.ofList text))
      g.tryWord rule r left
    else pure text

/-- Makes a word of the named rule, with at most `depth` rules under way at a time
    (`generate_rule`). -/
def ruleWord (g : Grammar W) : Nat → String → Sampler (List Char)
  | 0, name =>
    .stop (.faulted (if g.hasRule name then .endlessNesting else .unknownRule name))
  | depth + 1, name =>
    match g.rule? name with
    | none => .stop (.faulted (.unknownRule name))
    | some r => g.tryWord (g.ruleWord depth) r maxAttempts

/-- How many rules may be under way at a time. All of them may, which is as deep as rules can nest
    that do not refer to each other in a circle; where they do, a word may take many times that. -/
def depthLimit (g : Grammar W) : Nat := g.rules.length + UInt32.size

/-- Makes a word of the root (`generate`). -/
def word (g : Grammar W) : Sampler String :=
  if g.hasRule g.root then String.ofList <$> g.ruleWord g.depthLimit g.root
  else .stop (.failed (.rootNotFound g.root))

end Grammar

end WordGrammar

import WordGrammar.Grammar.Basic
import WordGrammar.Pattern.Printing

namespace WordGrammar

/-- A rule's body as it is written: a lone alternative of weight one without its weight. -/
def Rule.bodyText (r : Rule Float) : String :=
  match r.body with
  | .choice [⟨item, weight⟩] => if weight == 1 then item.text else r.body.text
  | body => body.text

/-- The lines of a rule, with its name set flush right in a column of the given width: its body, and
    below it each of its substitutions and exclusions. -/
def Rule.lines (r : Rule Float) (width : Nat) : List String :=
  let margin := String.ofList (List.replicate width ' ')
  let indent := String.ofList (List.replicate (width - r.name.length) ' ')
  [indent ++ r.name ++ " := " ++ r.bodyText] ++
    r.substitutions.map
      (fun s => margin ++ " ~ " ++ s.target.text ++ " -> " ++ s.replacement.text) ++
    r.exclusions.map (fun e => margin ++ " ! " ++ e.text)

/-- The rules with the root first, and otherwise in the order of definition. -/
def Grammar.rootFirst {W : Type} (g : Grammar W) : List (Rule W) :=
  match g.rule? g.root with
  | none => g.rules
  | some root => root :: g.rules.filter (·.name != g.root)

/-- The lines of a grammar. -/
def Grammar.lines (g : Grammar Float) : List String :=
  let width := (g.rules.map (·.name.length)).foldl max 0
  g.rootFirst.flatMap (·.lines width)

/-- The written form, every line of which is ended. -/
def Grammar.text (g : Grammar Float) : String :=
  String.join (g.lines.map (· ++ "\n"))

end WordGrammar

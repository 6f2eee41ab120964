import WordGrammar.Config.Basic
import WordGrammar.Json.Number
import WordGrammar.Json.Printing
import WordGrammar.Json.Reading

namespace WordGrammar

namespace Json

/-- The first value under a key. -/
def member? (members : List (Option String × Json)) (field : String) : Option Json :=
  (members.find? (·.1 == some field)).map (·.2)

/-- The values of a record's fields, with `none` for a field that is missing. A record is an object
    with its fields in any order, or an array of its fields in their own order, which may end before
    the last. No field is given twice; unknown members are ignored, whatever they hold. -/
def fields? (names : List String) : Json → Option (List (Option Json))
  | .array items =>
    if items.length ≤ names.length then
      some (items.map some ++ List.replicate (names.length - items.length) none)
    else none
  | .object members =>
    let keys := members.map (·.1)
    if keys.all Option.isSome && names.all (fun name => keys.count (some name) ≤ 1) then
      some (names.map (member? members))
    else none
  | _ => none

/-- A text. -/
def text? : Json → Option String
  | .string text => text
  | _ => none

/-- A truth value. -/
def bool? : Json → Option Bool
  | .bool b => some b
  | _ => none

/-- A number as a double. -/
def float? : Json → Option Float
  | .number n => n.toFloat?
  | _ => none

/-- A list of items that are all of one kind. -/
def list? {α : Type} (item? : Json → Option α) : Json → Option (List α)
  | .array items => items.mapM item?
  | _ => none

/-- A field that must not be missing. -/
def required {α : Type} (value? : Json → Option α) : Option Json → Option α
  | some json => value? json
  | none => none

/-- A field with a default. -/
def orDefault {α : Type} (default : α) (value? : Json → Option α) : Option Json → Option α
  | some json => value? json
  | none => some default

/-- A double; null if it is not finite. -/
def ofFloat (x : Float) : Json :=
  if x.isFinite then .number (Number.ofFloat x) else .null

/-- A text. -/
def ofText (text : String) : Json := .string (some text)

/-- An object with these members. -/
def ofFields (fields : List (String × Json)) : Json :=
  .object (fields.map fun (name, value) => (some name, value))

end Json

namespace PatternDef

/-- The fields of a pattern. -/
def fieldNames : List String := ["pattern", "weight"]

/-- Reads a pattern, of weight one if there is no weight. -/
def ofJson? (json : Json) : Option PatternDef := do
  match ← json.fields? fieldNames with
  | [pattern, weight] =>
    let pattern ← Json.required Json.text? pattern
    let weight ← Json.orDefault 1 Json.float? weight
    some { pattern, weight }
  | _ => none

/-- Writes a pattern. -/
def toJson (p : PatternDef) : Json :=
  .ofFields [("pattern", .ofText p.pattern), ("weight", .ofFloat p.weight)]

end PatternDef

namespace SubstitutionDef

/-- The fields of a substitution. -/
def fieldNames : List String := ["match", "replace"]

/-- Reads a substitution. -/
def ofJson? (json : Json) : Option SubstitutionDef := do
  match ← json.fields? fieldNames with
  | [target, replacement] =>
    let target ← Json.required Json.text? target
    let replacement ← Json.required Json.text? replacement
    some { target, replacement }
  | _ => none

/-- Writes a substitution. -/
def toJson (s : SubstitutionDef) : Json :=
  .ofFields [("match", .ofText s.target), ("replace", .ofText s.replacement)]

end SubstitutionDef

namespace RuleDef

/-- The fields of a rule. -/
def fieldNames : List String :=
  ["name", "patterns", "terminalOnly", "rewrites", "exclusions", "showRewrites", "showExclusions"]

/-- Reads a rule. Without further fields its patterns are no literals, it has neither
    substitutions nor exclusions, and both would count. -/
def ofJson? (json : Json) : Option RuleDef := do
  match ← json.fields? fieldNames with
  | [name, patterns, terminalOnly, substitutions, exclusions, showSubstitutions, showExclusions] =>
    let name ← Json.required Json.text? name
    let patterns ← Json.required (Json.list? PatternDef.ofJson?) patterns
    let terminalOnly ← Json.orDefault false Json.bool? terminalOnly
    let substitutions ← Json.orDefault [] (Json.list? SubstitutionDef.ofJson?) substitutions
    let exclusions ← Json.orDefault [] (Json.list? Json.text?) exclusions
    let showSubstitutions ← Json.orDefault true Json.bool? showSubstitutions
    let showExclusions ← Json.orDefault true Json.bool? showExclusions
    some { name, patterns, terminalOnly, substitutions, exclusions, showSubstitutions,
           showExclusions }
  | _ => none

/-- Writes a rule. -/
def toJson (r : RuleDef) : Json :=
  .ofFields [
    ("name", .ofText r.name),
    ("patterns", .array (r.patterns.map PatternDef.toJson)),
    ("terminalOnly", .bool r.terminalOnly),
    ("rewrites", .array (r.substitutions.map SubstitutionDef.toJson)),
    ("exclusions", .array (r.exclusions.map .ofText)),
    ("showRewrites", .bool r.showSubstitutions),
    ("showExclusions", .bool r.showExclusions)]

end RuleDef

namespace Config

/-- The fields of a configuration. -/
def fieldNames : List String := ["rules", "root", "enableWeights"]

/-- The name of a root, or null for none. -/
def rootOfJson? : Json → Option (Option String)
  | .null => some none
  | json => json.text?.map some

/-- Reads a configuration, by default without a root and without the use of weights. -/
def ofJson? (json : Json) : Option Config := do
  match ← json.fields? fieldNames with
  | [rules, root, enableWeights] =>
    let rules ← Json.required (Json.list? RuleDef.ofJson?) rules
    let root ← Json.orDefault none rootOfJson? root
    let enableWeights ← Json.orDefault false Json.bool? enableWeights
    some { rules, root, enableWeights }
  | _ => none

/-- Writes a configuration. -/
def toJson (c : Config) : Json :=
  .ofFields [
    ("rules", .array (c.rules.map RuleDef.toJson)),
    ("root", match c.root with
      | some root => .ofText root
      | none => .null),
    ("enableWeights", .bool c.enableWeights)]

/-- Reads a configuration from JSON text. -/
def read? (text : String) : Option Config := do ofJson? (← Json.read? text)

/-- The JSON text of a configuration. -/
def write (c : Config) : String := c.toJson.write

end Config

end WordGrammar

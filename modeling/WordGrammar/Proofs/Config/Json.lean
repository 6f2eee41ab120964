import WordGrammar.Config.Json
import WordGrammar.Proofs.Json.Number

namespace WordGrammar

namespace Json

/-- The double is finite, and from the number that is written for it an equal one is read. This has
    to be asked, since reading scales the digits of a number in double arithmetic. -/
def Survives (x : Float) : Prop :=
  x.isFinite = true ∧
    ∃ y, (read? (ofFloat x).write).bind float? = some y ∧ (y == x) = true

section Legible

theorem legible_ofFloat (x : Float) : (ofFloat x).Legible := by
  unfold ofFloat
  split
  · exact .number (wellFormed_ofFloat ‹_›)
  · exact .null

theorem legible_ofText (text : String) : (ofText text).Legible := .string (some text)

theorem legible_ofFields {fields : List (String × Json)}
    (hfields : ∀ field ∈ fields, field.2.Legible) : (ofFields fields).Legible := by
  refine .object fun member hmem => ?_
  obtain ⟨field, hfield, rfl⟩ := List.mem_map.mp hmem
  exact hfields field hfield

theorem legible_array_map {α : Type} {write : α → Json} {as : List α}
    (has : ∀ a ∈ as, (write a).Legible) : (Json.array (as.map write)).Legible := by
  refine .array fun item hmem => ?_
  obtain ⟨a, ha, rfl⟩ := List.mem_map.mp hmem
  exact has a ha

end Legible

section Reading

/-- A double that survives is read as what it was. -/
theorem Survives.float? {x : Float} (hsurvives : Survives x) : (ofFloat x).float? = some x := by
  obtain ⟨hfinite, y, hread, hbeq⟩ := hsurvives
  rw [read?_write (legible_ofFloat x), Option.bind_some] at hread
  have hnumber : ofFloat x = .number (Number.ofFloat x) := if_pos hfinite
  rw [hnumber] at hread ⊢
  rw [eq_of_toFloat?_ofFloat hfinite hread hbeq] at hread
  exact hread

/-- Where no two fields have the same name, a value is found under its name. -/
theorem member?_ofFields {fields : List (String × Json)} (hnodup : (fields.map (·.1)).Nodup)
    {field : String × Json} (hmem : field ∈ fields) :
    member? (fields.map fun (name, value) => (some name, value)) field.1 = some field.2 := by
  induction fields with
  | nil => cases hmem
  | cons first fields ih =>
    rw [List.map_cons, List.nodup_cons] at hnodup
    rcases List.mem_cons.mp hmem with rfl | hlater
    · simp [member?]
    · have hne : first.1 ≠ field.1 := by
        intro heq
        exact hnodup.1 (heq ▸ List.mem_map_of_mem hlater)
      have hfound := ih hnodup.2 hlater
      simp only [member?] at hfound ⊢
      rw [List.map_cons, List.find?_cons_of_neg (by simpa using hne)]
      exact hfound

/-- An object of all fields of a record has the values of all of them. -/
theorem fields?_ofFields (fields : List (String × Json)) (hnodup : (fields.map (·.1)).Nodup) :
    (ofFields fields).fields? (fields.map (·.1)) = some (fields.map fun field => some field.2) := by
  have hkeys : (fields.map fun (name, value) => (some name, value)).map (·.1) =
      (fields.map (·.1)).map some := by
    rw [List.map_map, List.map_map]
    rfl
  have hsome : ((fields.map (·.1)).map some).all Option.isSome = true := by simp
  have hcount : (fields.map (·.1)).all
      (fun name => ((fields.map (·.1)).map some).count (some name) ≤ 1) = true := by
    rw [List.all_eq_true]
    exact fun name _ => decide_eq_true
      (List.nodup_iff_count_le_one.mp (hnodup.map (Option.some_injective _)) (some name))
  have hvalues : (fields.map (·.1)).map
      (member? (fields.map fun (name, value) => (some name, value))) =
        fields.map fun field => some field.2 := by
    rw [List.map_map]
    exact List.map_congr_left fun field hmem => member?_ofFields hnodup hmem
  rw [ofFields, fields?, hvalues, hkeys, hsome, hcount]
  rfl

@[simp] theorem text?_ofText (text : String) : (ofText text).text? = some text := rfl

@[simp] theorem bool?_bool (b : Bool) : (bool b).bool? = some b := rfl

theorem list?_map {α : Type} {item? : Json → Option α} {write : α → Json} {as : List α}
    (has : ∀ a ∈ as, item? (write a) = some a) :
    list? item? (.array (as.map write)) = some as := by
  rw [list?, List.mapM_map]
  induction as with
  | nil => rfl
  | cons a as ih =>
    obtain ⟨ha, hrest⟩ := List.forall_mem_cons.mp has
    simp [List.mapM_cons, ha, ih hrest]

end Reading

end Json

open Json (required orDefault)

namespace PatternDef

theorem ofJson?_toJson {p : PatternDef} (hweight : Json.Survives p.weight) :
    ofJson? p.toJson = some p := by
  have hfields : p.toJson.fields? fieldNames =
      some [some (.ofText p.pattern), some (.ofFloat p.weight)] :=
    Json.fields?_ofFields [("pattern", _), ("weight", _)] (show fieldNames.Nodup by decide)
  rw [ofJson?, hfields]
  simp [required, orDefault, hweight.float?]

theorem legible_toJson (p : PatternDef) : p.toJson.Legible :=
  Json.legible_ofFields (by simp [Json.legible_ofText, Json.legible_ofFloat])

end PatternDef

namespace SubstitutionDef

theorem ofJson?_toJson (s : SubstitutionDef) : ofJson? s.toJson = some s := by
  have hfields : s.toJson.fields? fieldNames =
      some [some (.ofText s.target), some (.ofText s.replacement)] :=
    Json.fields?_ofFields [("match", _), ("replace", _)] (show fieldNames.Nodup by decide)
  rw [ofJson?, hfields]
  simp [required]

theorem legible_toJson (s : SubstitutionDef) : s.toJson.Legible :=
  Json.legible_ofFields (by simp [Json.legible_ofText])

end SubstitutionDef

namespace RuleDef

/-- The weights of the rule's patterns survive. -/
def Survives (r : RuleDef) : Prop := ∀ p ∈ r.patterns, Json.Survives p.weight

theorem ofJson?_toJson {r : RuleDef} (hweights : r.Survives) : ofJson? r.toJson = some r := by
  have hpatterns : Json.list? PatternDef.ofJson? (.array (r.patterns.map PatternDef.toJson)) =
      some r.patterns :=
    Json.list?_map fun p hmem => PatternDef.ofJson?_toJson (hweights p hmem)
  have hsubstitutions : Json.list? SubstitutionDef.ofJson?
      (.array (r.substitutions.map SubstitutionDef.toJson)) = some r.substitutions :=
    Json.list?_map fun s _ => s.ofJson?_toJson
  have hexclusions : Json.list? Json.text? (.array (r.exclusions.map .ofText)) =
      some r.exclusions :=
    Json.list?_map fun pattern _ => Json.text?_ofText pattern
  have hfields : r.toJson.fields? fieldNames =
      some [some (.ofText r.name), some (.array (r.patterns.map PatternDef.toJson)),
        some (.bool r.terminalOnly), some (.array (r.substitutions.map SubstitutionDef.toJson)),
        some (.array (r.exclusions.map .ofText)), some (.bool r.showSubstitutions),
        some (.bool r.showExclusions)] :=
    Json.fields?_ofFields [("name", _), ("patterns", _), ("terminalOnly", _), ("rewrites", _),
      ("exclusions", _), ("showRewrites", _), ("showExclusions", _)]
      (show fieldNames.Nodup by decide)
  rw [ofJson?, hfields]
  simp [required, orDefault, hpatterns, hsubstitutions, hexclusions]

theorem legible_toJson (r : RuleDef) : r.toJson.Legible := by
  have hpatterns := Json.legible_array_map fun p (_ : p ∈ r.patterns) => p.legible_toJson
  have hsubstitutions :=
    Json.legible_array_map fun s (_ : s ∈ r.substitutions) => s.legible_toJson
  have hexclusions :=
    Json.legible_array_map fun pattern (_ : pattern ∈ r.exclusions) => Json.legible_ofText pattern
  refine Json.legible_ofFields ?_
  simp [Json.legible_ofText, hpatterns, hsubstitutions, hexclusions, Json.Legible.bool]

end RuleDef

namespace Config

/-- All weights of the configuration survive. -/
def Survives (c : Config) : Prop := ∀ r ∈ c.rules, r.Survives

variable {c : Config}

/-- A root is written as text, and none as null; either reads back. -/
theorem exists_fields?_toJson (c : Config) :
    ∃ root : Json, rootOfJson? root = some c.root ∧ c.toJson.fields? fieldNames =
      some [some (.array (c.rules.map RuleDef.toJson)), some root,
        some (.bool c.enableWeights)] := by
  have hnodup : fieldNames.Nodup := by decide
  obtain ⟨rules, root, enableWeights⟩ := c
  cases root with
  | none =>
    refine ⟨.null, rfl, ?_⟩
    exact Json.fields?_ofFields [("rules", _), ("root", _), ("enableWeights", _)] hnodup
  | some root =>
    refine ⟨.ofText root, rfl, ?_⟩
    exact Json.fields?_ofFields [("rules", _), ("root", _), ("enableWeights", _)] hnodup

theorem ofJson?_toJson (hweights : c.Survives) : ofJson? c.toJson = some c := by
  have hrules : Json.list? RuleDef.ofJson? (.array (c.rules.map RuleDef.toJson)) =
      some c.rules :=
    Json.list?_map fun r hmem => RuleDef.ofJson?_toJson (hweights r hmem)
  obtain ⟨root, hroot, hfields⟩ := c.exists_fields?_toJson
  rw [ofJson?, hfields]
  simp [required, orDefault, hrules, hroot]

theorem legible_toJson (c : Config) : c.toJson.Legible := by
  have hrules := Json.legible_array_map fun r (_ : r ∈ c.rules) => r.legible_toJson
  refine Json.legible_ofFields ?_
  cases c.root <;>
    simp [hrules, Json.legible_ofText, Json.Legible.bool, Json.Legible.null]

/-- A configuration survives its JSON form. Whatever names, patterns and flags it has, with or
    without a root, what is read from the text that is written for it is the same configuration, if
    its weights are finite and each reads back as an equal one from its own number. So of every text
    that is read as such a configuration, however it is written, there is a normal form: reading it
    comes to the same, and writing what is read from it to the same text again. -/
theorem survives_json_form (hweights : c.Survives) :
    read? c.write = some c ∧
    ∀ text, read? text = some c → ∃ normal, (read? text).map write = some normal ∧
      read? normal = read? text ∧ (read? normal).map write = some normal := by
  have hread : read? c.write = some c := by
    rw [read?, write, Json.read?_write c.legible_toJson]
    exact ofJson?_toJson hweights
  refine ⟨hread, fun text htext => ⟨c.write, ?_, ?_, ?_⟩⟩
  · rw [htext, Option.map_some]
  · rw [hread, htext]
  · rw [hread, Option.map_some]

/-- A rule whose texts hold quotes, backslashes and controls, with a fraction and a zero that is
    marked as negative for weights. -/
def quoting : Config where
  rules := [
    { name := "W", patterns := [⟨"'\\'\"'", 0.25⟩, ⟨"\n\x01", -0⟩], terminalOnly := false
      substitutions := [], exclusions := ["\\"]
      showSubstitutions := true, showExclusions := true }]
  root := none
  enableWeights := false

/-- The rule again, as arrays that end before the fields that have their defaults. -/
def quotingArrays : String :=
  "[[[\"W\", [[\"'\\\\'\\\"'\", 25e-2], [\"\\u000a\\u0001\", -0]], false, [], [\"\\\\\"]]]]"

theorem survives_json_form_quoting :
    quoting.Survives ∧ read? quoting.write = some quoting ∧ ∃ normal,
      (read? quotingArrays).map write = some normal ∧ read? normal = some quoting ∧
      (read? normal).map write = some normal := by
  have hquarter : Json.Survives 0.25 := ⟨rfl, 0.25, rfl, rfl⟩
  have hzero : Json.Survives (-0) := ⟨rfl, -0, rfl, rfl⟩
  have hweights : quoting.Survives := by
    simp [Survives, quoting, RuleDef.Survives, hquarter, hzero]
  have hjson : Json.read? quotingArrays = some (.array [.array [.array [.ofText "W",
      .array [.array [.ofText "'\\'\"'", .number ⟨false, ['2', '5'], [], some ⟨true, ['2']⟩⟩],
        .array [.ofText "\n\x01", .number ⟨true, ['0'], [], none⟩]],
      .bool false, .array [], .array [.ofText "\\"]]]]) := by cbv
  have hread : read? quotingArrays = some quoting := by
    rw [read?, hjson]
    rfl
  obtain ⟨hwritten, hnormal⟩ := survives_json_form hweights
  obtain ⟨normal, hwrite, hsame, hagain⟩ := hnormal quotingArrays hread
  exact ⟨hweights, hwritten, normal, hwrite, hsame.trans hread, hagain⟩

end Config

end WordGrammar

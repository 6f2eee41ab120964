import WordGrammar.Proofs.Config.Compile

namespace WordGrammar

/-- The rules that a text refers to, if it can be read. -/
def Pattern.references (kind : Pattern.Kind) (source : String) : List String :=
  match Pattern.read kind source with
  | .ok e => e.references
  | .error _ => []

namespace RuleDef

/-- The exclusions, if they count. -/
def countedExclusions (d : RuleDef) : List String :=
  if d.usesExclusions then d.exclusions else []

/-- The substitutions, if they count. -/
def countedSubstitutions (d : RuleDef) : List SubstitutionDef :=
  if d.usesSubstitutions then d.substitutions else []

/-- What is wrong with a text of the rule. -/
def textProblems (d : RuleDef) (field : Field) (kind : Pattern.Kind) (source : String) :
    List CompileError :=
  match Pattern.read kind source with
  | .ok _ => []
  | .error cause => [.malformed d.name field cause]

/-- What is wrong with the weight and then with the text of a pattern. -/
def patternProblems (d : RuleDef) (p : PatternDef) : List CompileError :=
  (if 0 ≤ p.weight then [] else [.invalidWeight d.name p.weight]) ++
    if d.terminalOnly then [] else d.textProblems .pattern .pattern p.pattern

/-- What is wrong with the target and then with the replacement of a substitution. -/
def substitutionProblems (d : RuleDef) (s : SubstitutionDef) : List CompileError :=
  d.textProblems .target .pattern s.target ++
    d.textProblems .replacement .replacement s.replacement

/-- What is wrong with the patterns, the exclusions and the substitutions of a rule. -/
def problems (d : RuleDef) : List CompileError :=
  d.patterns.flatMap d.patternProblems ++
    (d.countedExclusions.flatMap (d.textProblems .exclusion .pattern) ++
      d.countedSubstitutions.flatMap d.substitutionProblems)

/-- The references of a rule's texts, in the order in which they are read. -/
def references (d : RuleDef) : List String :=
  (d.patterns.flatMap fun p =>
      if d.terminalOnly then [] else Pattern.references .pattern p.pattern) ++
    d.countedExclusions.flatMap (Pattern.references .pattern) ++
    d.countedSubstitutions.flatMap fun s =>
      Pattern.references .pattern s.target ++ Pattern.references .replacement s.replacement

/-- What the weights and texts of a rule have to be like. -/
structure Sound (d : RuleDef) : Prop where
  weights : ∀ p ∈ d.patterns, Usable p.weight
  patterns : d.terminalOnly = false → ∀ p ∈ d.patterns,
    ∃ e, Pattern.read .pattern p.pattern = .ok e
  exclusions : d.terminalOnly = false → d.showExclusions = true → ∀ source ∈ d.exclusions,
    ∃ e, Pattern.read .pattern source = .ok e
  substitutions : d.terminalOnly = false → d.showSubstitutions = true → ∀ s ∈ d.substitutions,
    (∃ e, Pattern.read .pattern s.target = .ok e) ∧
      ∃ e, Pattern.read .replacement s.replacement = .ok e

/-- Two definitions that differ at most in what does not count. -/
structure SameEffect (d d' : RuleDef) : Prop where
  name : d.name = d'.name
  patterns : d.patterns = d'.patterns
  terminalOnly : d.terminalOnly = d'.terminalOnly
  exclusions : d.countedExclusions = d'.countedExclusions
  substitutions : d.countedSubstitutions = d'.countedSubstitutions

end RuleDef

namespace Config

/-- All that is wrong with a configuration that names a root. -/
def problems (c : Config) : List CompileError :=
  c.rules.flatMap RuleDef.problems ++
    (Grammar.nameProblems [] (c.rules.map (·.name)) ++
      Grammar.referenceProblems (c.rules.map (·.name)) (c.rules.flatMap RuleDef.references))

/-- The configuration says which rule words are generated from. -/
def NamesRoot (c : Config) : Prop := ∃ root, c.root = some root ∧ root ≠ ""

/-- What rules have to be like for a grammar to be made of them. -/
structure Sound (c : Config) : Prop where
  rules : ∀ d ∈ c.rules, d.Sound
  identifiers : ∀ d ∈ c.rules, Name.isIdentifier d.name = true
  distinct : (c.rules.map (·.name)).Nodup
  references : ∀ d ∈ c.rules, ∀ name ∈ d.references, name ∈ c.rules.map (·.name)

/-- Two configurations that differ at most in what does not count. -/
structure SameEffect (c c' : Config) : Prop where
  rules : List.Forall₂ RuleDef.SameEffect c.rules c'.rules
  root : c.root = c'.root
  enableWeights : c.enableWeights = c'.enableWeights

end Config

namespace RuleDef

variable {d : RuleDef}

theorem textProblems_eq_nil_iff {field : Field} {kind : Pattern.Kind} {source : String} :
    d.textProblems field kind source = [] ↔ ∃ e, Pattern.read kind source = .ok e := by
  rw [textProblems]
  cases Pattern.read kind source with
  | ok e => simp
  | error cause => simp

theorem patternProblems_eq_nil_iff {p : PatternDef} :
    d.patternProblems p = [] ↔ Usable p.weight ∧
      (d.terminalOnly = false → ∃ e, Pattern.read .pattern p.pattern = .ok e) := by
  have hweight : (if 0 ≤ p.weight then [] else [CompileError.invalidWeight d.name p.weight]) = [] ↔
      Usable p.weight := by
    by_cases hle : 0 ≤ p.weight
    · simp [hle, usable_of_zero_le hle]
    · simp [hle, Usable]
  rw [patternProblems, List.append_eq_nil_iff, hweight]
  cases d.terminalOnly with
  | true => simp
  | false => simp [textProblems_eq_nil_iff]

/-- Something holds of all that counts if it holds of everything, unless none of it counts. -/
theorem forall_mem_counted {α : Type} {terminalOnly shown : Bool} {all : List α} {P : α → Prop} :
    (∀ a ∈ if !terminalOnly && shown then all else [], P a) ↔
      (terminalOnly = false → shown = true → ∀ a ∈ all, P a) := by
  cases terminalOnly with
  | true => simp
  | false =>
    cases shown with
    | true => simp
    | false => simp

/-- Nothing is wrong with the weights and texts of a rule exactly if it is sound. -/
theorem problems_eq_nil_iff : d.problems = [] ↔ d.Sound := by
  rw [problems, List.append_eq_nil_iff, List.append_eq_nil_iff]
  simp only [List.flatMap_eq_nil_iff, patternProblems_eq_nil_iff, substitutionProblems,
    List.append_eq_nil_iff, textProblems_eq_nil_iff]
  constructor
  · intro h
    obtain ⟨hpatterns, hexclusions, hsubstitutions⟩ := h
    exact ⟨fun p hmem => (hpatterns p hmem).1, fun hreads p hmem => (hpatterns p hmem).2 hreads,
      forall_mem_counted.mp hexclusions, forall_mem_counted.mp hsubstitutions⟩
  · intro h
    exact ⟨fun p hmem => ⟨h.weights p hmem, fun hreads => h.patterns hreads p hmem⟩,
      forall_mem_counted.mpr h.exclusions, forall_mem_counted.mpr h.substitutions⟩

theorem error?_readField (field : Field) (kind : Pattern.Kind) (source : String) :
    Outcome.error? (d.readField field kind source) =
      (d.textProblems field kind source).head? := by
  rw [readField, textProblems]
  cases Pattern.read kind source with
  | ok e => rfl
  | error cause => rfl

theorem error?_compilePattern (p : PatternDef) :
    Outcome.error? (d.compilePattern p) = (d.patternProblems p).head? := by
  rw [compilePattern, patternProblems]
  by_cases hweight : 0 ≤ p.weight
  · rw [if_neg (by simp [hweight]), if_pos hweight, List.nil_append]
    cases d.terminalOnly with
    | true => rfl
    | false =>
      rw [if_neg nofun, if_neg nofun]
      exact Outcome.error?_bind_ok.trans (error?_readField ..)
  · rw [if_pos (by simp [hweight]), if_neg hweight]
    rfl

theorem error?_compileSubstitution (s : SubstitutionDef) :
    Outcome.error? (d.compileSubstitution s) = (d.substitutionProblems s).head? := by
  refine Outcome.error?_bind (error?_readField ..) fun target _ => ?_
  exact Outcome.error?_bind_ok.trans (error?_readField ..)

theorem error?_compile (d : RuleDef) : Outcome.error? d.compile = d.problems.head? := by
  refine Outcome.error?_bind (Outcome.error?_mapM error?_compilePattern _) fun alternatives _ => ?_
  refine Outcome.error?_bind (Outcome.error?_mapM (error?_readField _ _) _) fun exclusions _ => ?_
  exact Outcome.error?_bind_ok.trans (Outcome.error?_mapM error?_compileSubstitution _)

theorem references_of_readField {field : Field} {kind : Pattern.Kind} {source : String}
    {e : Expr Float} (hread : d.readField field kind source = .ok e) :
    e.references = Pattern.references kind source := by
  rw [readField] at hread
  rw [Pattern.references]
  cases hsource : Pattern.read kind source with
  | ok e' =>
    rw [hsource] at hread
    cases hread
    rfl
  | error cause =>
    rw [hsource] at hread
    cases hread

theorem references_of_compilePattern {p : PatternDef} {a : Weighted Float (Expr Float)}
    (hcompile : d.compilePattern p = .ok a) :
    a.item.references =
      if d.terminalOnly then [] else Pattern.references .pattern p.pattern := by
  rw [compilePattern] at hcompile
  split at hcompile
  · cases hcompile
  split at hcompile
  · rename_i hterminal
    cases hcompile
    rw [if_pos hterminal, Expr.references_atom]
  · rename_i hterminal
    obtain ⟨e, hread, hok⟩ := Outcome.bind_eq_ok_iff.mp hcompile
    cases hok
    rw [if_neg hterminal, references_of_readField hread]

theorem references_of_compileSubstitution {s : SubstitutionDef} {s' : Substitution Float}
    (hcompile : d.compileSubstitution s = .ok s') :
    s'.target.references ++ s'.replacement.references =
      Pattern.references .pattern s.target ++ Pattern.references .replacement s.replacement := by
  obtain ⟨target, htarget, hrest⟩ := Outcome.bind_eq_ok_iff.mp hcompile
  obtain ⟨replacement, hreplacement, hok⟩ := Outcome.bind_eq_ok_iff.mp hrest
  cases hok
  rw [references_of_readField htarget, references_of_readField hreplacement]

/-- A rule refers to what its texts refer to. -/
theorem references_of_compile {r : Rule Float} (hcompile : d.compile = .ok r) :
    r.references = d.references := by
  obtain ⟨alternatives, hpatterns, hrest⟩ := Outcome.bind_eq_ok_iff.mp hcompile
  obtain ⟨exclusions, hexclusions, hrest⟩ := Outcome.bind_eq_ok_iff.mp hrest
  obtain ⟨substitutions, hsubstitutions, hok⟩ := Outcome.bind_eq_ok_iff.mp hrest
  cases hok
  rw [Rule.references, RuleDef.references, Expr.references_choice]
  simp only [List.flatMap_def]
  rw [Outcome.map_eq_of_mapM (fun _ _ => references_of_compilePattern) hpatterns,
    Outcome.map_eq_of_mapM (fun _ _ => references_of_readField) hexclusions,
    Outcome.map_eq_of_mapM (fun _ _ => references_of_compileSubstitution) hsubstitutions]
  rfl

end RuleDef

namespace Config

variable {c : Config}

/-- Compiling stops at the first of all problems. -/
theorem error?_compile (hroot : c.NamesRoot) :
    Outcome.error? c.compile = c.problems.head? := by
  obtain ⟨root, hsome, hne⟩ := hroot
  rw [compile, hsome]
  simp only [if_neg hne]
  refine Outcome.error?_bind (Outcome.error?_mapM RuleDef.error?_compile _) fun rules hrules => ?_
  rw [← Outcome.map_eq_of_mapM (fun _ _ => RuleDef.name_of_compile) hrules, List.flatMap_def,
    ← Outcome.map_eq_of_mapM (fun _ _ => RuleDef.references_of_compile) hrules,
    ← List.flatMap_def]
  exact Outcome.error?_bind_ok.trans (Grammar.error?_ofRules ..)

theorem problems_eq_nil_iff : c.problems = [] ↔ c.Sound := by
  rw [problems, List.append_eq_nil_iff, List.append_eq_nil_iff, List.flatMap_eq_nil_iff,
    Grammar.nameProblems_eq_nil_iff, Grammar.referenceProblems_eq_nil_iff]
  simp only [RuleDef.problems_eq_nil_iff, List.forall_mem_map, List.mem_flatMap]
  constructor
  · intro h
    obtain ⟨hrules, ⟨hidentifiers, hdistinct, -⟩, hreferences⟩ := h
    exact ⟨hrules, hidentifiers, hdistinct, fun d hmem name hname =>
      hreferences name ⟨d, hmem, hname⟩⟩
  · intro h
    refine ⟨h.rules, ⟨h.identifiers, h.distinct, fun d _ => List.not_mem_nil⟩, ?_⟩
    rintro name ⟨d, hmem, hname⟩
    exact h.references d hmem name hname

end Config

namespace RuleDef

variable {d d' : RuleDef}

theorem SameEffect.readField_eq (hsame : d.SameEffect d') : d.readField = d'.readField := by
  funext field kind source
  rw [readField, readField, hsame.name]

theorem SameEffect.compilePattern_eq (hsame : d.SameEffect d') :
    d.compilePattern = d'.compilePattern := by
  funext p
  rw [compilePattern, compilePattern, hsame.readField_eq, hsame.name, hsame.terminalOnly]

theorem SameEffect.compileSubstitution_eq (hsame : d.SameEffect d') :
    d.compileSubstitution = d'.compileSubstitution := by
  funext s
  rw [compileSubstitution, compileSubstitution, hsame.readField_eq]

/-- Of exclusions and substitutions a rule is made only if they count. -/
theorem compile_eq (d : RuleDef) :
    d.compile = (do
      let alternatives ← d.patterns.mapM d.compilePattern
      let exclusions ← d.countedExclusions.mapM (d.readField .exclusion .pattern)
      let substitutions ← d.countedSubstitutions.mapM d.compileSubstitution
      .ok ⟨d.name, .choice alternatives, exclusions, substitutions⟩) := rfl

theorem SameEffect.compile_eq (hsame : d.SameEffect d') : d.compile = d'.compile := by
  rw [RuleDef.compile_eq, RuleDef.compile_eq, hsame.compilePattern_eq, hsame.readField_eq,
    hsame.compileSubstitution_eq, hsame.name, hsame.patterns, hsame.exclusions, hsame.substitutions]

theorem mapM_compile_eq {rules rules' : List RuleDef}
    (hsame : List.Forall₂ SameEffect rules rules') :
    rules.mapM compile = rules'.mapM compile := by
  induction hsame with
  | nil => rfl
  | cons hrule _ ih => rw [List.mapM_cons, List.mapM_cons, hrule.compile_eq, ih]

end RuleDef

namespace Config

variable {c : Config}

theorem SameEffect.compile_eq {c' : Config} (hsame : c.SameEffect c') :
    c.compile = c'.compile := by
  rw [compile, compile, hsame.root, hsame.enableWeights,
    RuleDef.mapM_compile_eq hsame.rules]

theorem not_namesRoot_iff : ¬ c.NamesRoot ↔ c.root = none ∨ c.root = some "" := by
  rw [NamesRoot]
  cases c.root with
  | none => simp
  | some root => simp

theorem compile_eq_none_iff : c.compile = .ok none ↔ ¬ c.NamesRoot := by
  constructor
  · rintro hnone ⟨root, hsome, hne⟩
    rw [compile, hsome] at hnone
    simp only [if_neg hne] at hnone
    obtain ⟨rules, -, hrest⟩ := Outcome.bind_eq_ok_iff.mp hnone
    obtain ⟨g, -, hok⟩ := Outcome.bind_eq_ok_iff.mp hrest
    cases hok
  · intro hroot
    rw [compile]
    obtain hnone | hempty := not_namesRoot_iff.mp hroot
    · rw [hnone]
    · rw [hempty]
      rfl

theorem compile_eq_error_iff {why : CompileError} :
    c.compile = .error why ↔ c.NamesRoot ∧ c.problems.head? = some why := by
  by_cases hroot : c.NamesRoot
  · rw [← error?_compile hroot, Outcome.error?_eq_some_iff, and_iff_right hroot]
  · rw [compile_eq_none_iff.mpr hroot]
    exact ⟨nofun, fun h => (hroot h.1).elim⟩

theorem exists_grammar_iff :
    (∃ g, c.compile = .ok (some g)) ↔ c.NamesRoot ∧ c.problems = [] := by
  by_cases hroot : c.NamesRoot
  · rw [← List.head?_eq_none_iff, ← error?_compile hroot, Outcome.error?_eq_none_iff,
      and_iff_right hroot]
    constructor
    · rintro ⟨g, hcompile⟩
      exact ⟨some g, hcompile⟩
    · rintro ⟨_ | g, hcompile⟩
      · exact (compile_eq_none_iff.mp hcompile hroot).elim
      · exact ⟨g, hcompile⟩
  · rw [compile_eq_none_iff.mpr hroot]
    exact ⟨nofun, fun h => (hroot h.1).elim⟩

/-- Words of two vowels, with substitutions that count or do not. -/
def diphthongs (substitutions : List SubstitutionDef) (shown : Bool) : Config :=
  ⟨[⟨"W", [.plain "V.V"], false, substitutions, [], shown, true⟩, .terminal "V" ["a", "i"]],
    some "W", false⟩

end Config

end WordGrammar

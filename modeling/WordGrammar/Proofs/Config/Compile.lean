import WordGrammar.Config.Compile
import WordGrammar.Proofs.Grammar.WellFormed
import WordGrammar.Proofs.Pattern.Image

namespace WordGrammar

/-- The weights that a draw can use. -/
def Usable (weight : Float) : Prop := weight.isNaN = false ∧ 0 ≤ weight

theorem usable_of_zero_le {weight : Float} (hweight : 0 ≤ weight) : Usable weight :=
  ⟨Double.isNaN_of_zero_le hweight, hweight⟩

/-- What a rule is like whose texts have been read. -/
structure Rule.Legible (r : Rule Float) : Prop where
  body : ∃ alternatives, r.body = .choice alternatives ∧
    ∀ a ∈ alternatives, 0 ≤ a.weight ∧ Pattern.Legible .pattern a.item
  exclusions : ∀ e ∈ r.exclusions, Pattern.Legible .pattern e
  substitutions : ∀ s ∈ r.substitutions,
    Pattern.Legible .pattern s.target ∧ Pattern.Legible .replacement s.replacement

namespace Rule.Legible

variable {r : Rule Float}

/-- Whatever an expression of the rule contains can be written, but for the body as a whole. -/
theorem canonical_of_contains (hlegible : r.Legible) {e : Expr Float} (hmem : e ∈ r.expressions)
    {x : Expr Float} (hcontains : e.Contains x) : x = r.body ∨ x.Canonical (0 ≤ ·) := by
  simp only [Rule.expressions, Rule.patterns, List.mem_append, List.mem_cons, List.mem_map] at hmem
  rcases hmem with (rfl | hmem | ⟨s, hmem, rfl⟩) | ⟨s, hmem, rfl⟩
  · obtain ⟨alternatives, hbody, halternatives⟩ := hlegible.body
    rw [hbody] at hcontains ⊢
    rcases Expr.contains_choice.mp hcontains with hself | ⟨a, ha, hitem⟩
    · exact .inl hself
    · exact .inr ((halternatives a ha).2.canonical.of_contains hitem)
  · exact .inr ((hlegible.exclusions e hmem).canonical.of_contains hcontains)
  · exact .inr ((hlegible.substitutions s hmem).1.canonical.of_contains hcontains)
  · exact .inr ((hlegible.substitutions s hmem).2.canonical.of_contains hcontains)

/-- A body holds no empty choice, unless it is one. -/
theorem not_contains_empty (hlegible : r.Legible) (hbody : r.body ≠ .choice []) :
    ¬ r.body.Contains (.choice []) := by
  intro hempty
  have hmem : r.body ∈ r.expressions := List.mem_append_left _ (List.mem_cons_self ..)
  rcases hlegible.canonical_of_contains hmem hempty with hself | hcanonical
  · exact hbody hself.symm
  · exact (Expr.canonical_choice.mp hcanonical).1 rfl

theorem not_contains_capture (hlegible : r.Legible) {e : Expr Float} (hmem : e ∈ r.patterns)
    (index : Nat) : ¬ e.Contains (.capture index) := by
  simp only [Rule.patterns, List.mem_append, List.mem_cons, List.mem_map] at hmem
  rcases hmem with rfl | hmem | ⟨s, hmem, rfl⟩
  · obtain ⟨alternatives, hbody, halternatives⟩ := hlegible.body
    rw [hbody]
    intro hcontains
    rcases Expr.contains_choice.mp hcontains with hself | ⟨a, ha, hitem⟩
    · cases hself
    · exact Expr.not_contains_capture ((halternatives a ha).2.captures rfl) index hitem
  · exact Expr.not_contains_capture ((hlegible.exclusions e hmem).captures rfl) index
  · exact Expr.not_contains_capture ((hlegible.substitutions s hmem).1.captures rfl) index

theorem bounds_of_contains (hlegible : r.Legible) {e : Expr Float} (hmem : e ∈ r.expressions)
    {body : Expr Float} {least most : Nat} (hcontains : e.Contains (.repeated body least most)) :
    least ≤ most ∧ most < UInt64.size := by
  rcases hlegible.canonical_of_contains hmem hcontains with hself | hcanonical
  · obtain ⟨alternatives, hbody, -⟩ := hlegible.body
    rw [hbody] at hself
    cases hself
  · obtain ⟨hle, hmost, -⟩ := Expr.canonical_repeated.mp hcanonical
    exact ⟨hle, hmost⟩

theorem usable_of_contains (hlegible : r.Legible) {e : Expr Float} (hmem : e ∈ r.expressions)
    {alternatives : List (Weighted Float (Expr Float))}
    (hcontains : e.Contains (.choice alternatives)) : ∀ a ∈ alternatives, Usable a.weight := by
  intro a ha
  apply usable_of_zero_le
  rcases hlegible.canonical_of_contains hmem hcontains with hself | hcanonical
  · obtain ⟨alternatives', hbody, hweights⟩ := hlegible.body
    rw [hbody] at hself
    cases hself
    exact (hweights a ha).1
  · exact (Expr.canonical_choice.mp hcanonical).2.1 a ha

end Rule.Legible

namespace RuleDef

variable {d : RuleDef}

theorem legible_of_readField {field : Field} {kind : Pattern.Kind} {source : String}
    {e : Expr Float} (hread : d.readField field kind source = .ok e) : Pattern.Legible kind e := by
  unfold readField at hread
  split at hread
  · rename_i hsource
    cases hread
    exact Pattern.legible_of_read hsource
  · cases hread

theorem legible_of_compilePattern {p : PatternDef} {a : Weighted Float (Expr Float)}
    (hcompile : d.compilePattern p = .ok a) :
    0 ≤ a.weight ∧ Pattern.Legible .pattern a.item := by
  unfold compilePattern at hcompile
  split at hcompile
  · cases hcompile
  rename_i hchecked
  have hweight : 0 ≤ p.weight := by simpa using hchecked
  split at hcompile
  · cases hcompile
    exact ⟨hweight, Pattern.legible_atom p.pattern⟩
  · obtain ⟨e, hread, hok⟩ := Outcome.bind_eq_ok_iff.mp hcompile
    cases hok
    exact ⟨hweight, legible_of_readField hread⟩

theorem legible_of_compileSubstitution {texts : SubstitutionDef} {s : Substitution Float}
    (hcompile : d.compileSubstitution texts = .ok s) :
    Pattern.Legible .pattern s.target ∧ Pattern.Legible .replacement s.replacement := by
  obtain ⟨target, htarget, hrest⟩ := Outcome.bind_eq_ok_iff.mp hcompile
  obtain ⟨replacement, hreplacement, hok⟩ := Outcome.bind_eq_ok_iff.mp hrest
  cases hok
  exact ⟨legible_of_readField htarget, legible_of_readField hreplacement⟩

theorem legible_of_compile {r : Rule Float} (hcompile : d.compile = .ok r) : r.Legible := by
  obtain ⟨alternatives, hpatterns, hrest⟩ := Outcome.bind_eq_ok_iff.mp hcompile
  obtain ⟨exclusions, hexclusions, hrest⟩ := Outcome.bind_eq_ok_iff.mp hrest
  obtain ⟨substitutions, hsubstitutions, hok⟩ := Outcome.bind_eq_ok_iff.mp hrest
  cases hok
  refine ⟨⟨alternatives, rfl, fun a hmem => ?_⟩, fun e hmem => ?_, fun s hmem => ?_⟩
  · obtain ⟨p, -, hp⟩ := Outcome.exists_of_mapM hpatterns a hmem
    exact legible_of_compilePattern hp
  · obtain ⟨source, -, hread⟩ := Outcome.exists_of_mapM hexclusions e hmem
    exact legible_of_readField hread
  · obtain ⟨texts, -, hs⟩ := Outcome.exists_of_mapM hsubstitutions s hmem
    exact legible_of_compileSubstitution hs

theorem name_of_compile {r : Rule Float} (hcompile : d.compile = .ok r) : r.name = d.name := by
  obtain ⟨_, -, hrest⟩ := Outcome.bind_eq_ok_iff.mp hcompile
  obtain ⟨_, -, hrest⟩ := Outcome.bind_eq_ok_iff.mp hrest
  obtain ⟨_, -, hok⟩ := Outcome.bind_eq_ok_iff.mp hrest
  cases hok
  rfl

end RuleDef

namespace Config

variable {c : Config} {g : Grammar Float}

theorem compile_eq_ok_iff :
    c.compile = .ok (some g) ↔ ∃ root rules, c.root = some root ∧ root ≠ "" ∧
      c.rules.mapM RuleDef.compile = .ok rules ∧
      Grammar.ofRules root rules c.enableWeights = .ok g := by
  unfold compile
  cases hroot : c.root with
  | none => simp
  | some root =>
    by_cases hempty : root = ""
    · simp [hempty]
    · simp only [hempty, if_false, Outcome.bind_eq_ok_iff]
      constructor
      · intro h
        obtain ⟨rules, hrules, g', hgrammar, hok⟩ := h
        cases hok
        exact ⟨root, rules, rfl, hempty, hrules, hgrammar⟩
      · intro h
        obtain ⟨_, rules, heq, -, hrules, hgrammar⟩ := h
        cases heq
        exact ⟨rules, hrules, g, hgrammar, rfl⟩

theorem compile_eq_of_toOption (hg : c.compile.toOption.join = some g) :
    c.compile = .ok (some g) := by
  cases hresult : c.compile with
  | error why =>
    rw [hresult] at hg
    cases hg
  | ok result =>
    rw [hresult] at hg
    exact congrArg Except.ok hg

/-- A grammar is made only of rules that have been read, and only if all checks pass. -/
theorem checks_of_compile (hcompile : c.compile = .ok (some g)) :
    (∀ r ∈ g.rules, r.Legible) ∧ (∀ r ∈ g.rules, Name.isIdentifier r.name = true) ∧
      (g.rules.map (·.name)).Nodup ∧ g.Resolved := by
  obtain ⟨root, rules, -, -, hrules, hgrammar⟩ := compile_eq_ok_iff.mp hcompile
  obtain ⟨hg, hchecks⟩ := Grammar.checks_of_ofRules hgrammar
  refine ⟨fun r hmem => ?_, hchecks⟩
  rw [hg] at hmem
  obtain ⟨d, -, hd⟩ := Outcome.exists_of_mapM hrules r hmem
  exact RuleDef.legible_of_compile hd

/-- Whatever is compiled is well formed, and its weights are usable. -/
theorem wellFormed_of_compile (hcompile : c.compile = .ok (some g)) : g.WellFormed Usable := by
  obtain ⟨hlegible, hidentifiers, hdistinct, hresolved⟩ := checks_of_compile hcompile
  constructor
  · exact hidentifiers
  · exact hdistinct
  · intro r hmem e he name hname
    apply hresolved r hmem
    exact Rule.mem_references_iff.mpr ⟨e, he, Expr.mem_references_iff.mpr hname⟩
  · exact fun r hmem e he index => (hlegible r hmem).not_contains_capture he index
  · exact fun r hmem e he body least most hbody => ((hlegible r hmem).bounds_of_contains he hbody).1
  · exact fun r hmem e he alternatives => (hlegible r hmem).usable_of_contains he

end Config

end WordGrammar

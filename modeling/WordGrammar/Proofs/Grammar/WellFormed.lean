import WordGrammar.Grammar.Checked
import WordGrammar.Proofs.Expr.Contains
import WordGrammar.Proofs.Grammar.Nesting
import WordGrammar.Proofs.Outcome

namespace WordGrammar

variable {W : Type}

/-- The expressions of a rule that hold no captures. -/
def Rule.patterns (r : Rule W) : List (Expr W) :=
  r.body :: (r.exclusions ++ r.substitutions.map (·.target))

/-- All expressions of a rule. -/
def Rule.expressions (r : Rule W) : List (Expr W) :=
  r.patterns ++ r.substitutions.map (·.replacement)

/-- The expressions of a rule that are expanded. -/
def Rule.expanded (r : Rule W) : List (Expr W) :=
  r.body :: r.substitutions.map (·.replacement)

theorem Rule.patterns_subset (r : Rule W) : r.patterns ⊆ r.expressions :=
  fun _ he => List.mem_append_left _ he

theorem Rule.expanded_subset (r : Rule W) : r.expanded ⊆ r.expressions := by
  intro e he
  rcases List.mem_cons.mp he with rfl | hmem
  · exact r.patterns_subset (List.mem_cons_self ..)
  · exact List.mem_append_right _ hmem

theorem Rule.mem_references_iff {r : Rule W} {name : String} :
    name ∈ r.references ↔ ∃ e ∈ r.expressions, name ∈ e.references := by
  simp only [Rule.references, Rule.expressions, Rule.patterns, List.mem_append, List.mem_flatMap,
    List.mem_cons, List.mem_map]
  constructor
  · intro h
    rcases h with (hbody | ⟨e, hmem, hname⟩) | ⟨s, hmem, htarget | hreplacement⟩
    · exact ⟨r.body, .inl (.inl rfl), hbody⟩
    · exact ⟨e, .inl (.inr (.inl hmem)), hname⟩
    · exact ⟨s.target, .inl (.inr (.inr ⟨s, hmem, rfl⟩)), htarget⟩
    · exact ⟨s.replacement, .inr ⟨s, hmem, rfl⟩, hreplacement⟩
  · intro h
    obtain ⟨e, he, hname⟩ := h
    rcases he with (rfl | hmem | ⟨s, hmem, rfl⟩) | ⟨s, hmem, rfl⟩
    · exact .inl (.inl hname)
    · exact .inl (.inr ⟨e, hmem, hname⟩)
    · exact .inr ⟨s, hmem, .inl hname⟩
    · exact .inr ⟨s, hmem, .inr hname⟩

namespace Grammar

variable {g : Grammar W} {usable : W → Prop}

/-- What is checked of a grammar before anything is made with it. -/
structure WellFormed (usable : W → Prop) (g : Grammar W) : Prop where
  /-- Patterns can refer to every rule. -/
  identifiers : ∀ r ∈ g.rules, Name.isIdentifier r.name = true
  distinct : (g.rules.map (·.name)).Nodup
  /-- Every reference names a rule. -/
  references : ∀ r ∈ g.rules, ∀ e ∈ r.expressions, ∀ name,
    e.Contains (.ref name) → g.hasRule name = true
  /-- Captures stand in replacements only. -/
  captures : ∀ r ∈ g.rules, ∀ e ∈ r.patterns, ∀ index, ¬ e.Contains (.capture index)
  /-- Bounds are in order. -/
  bounds : ∀ r ∈ g.rules, ∀ e ∈ r.expressions, ∀ body least most,
    e.Contains (.repeated body least most) → least ≤ most
  weights : ∀ r ∈ g.rules, ∀ e ∈ r.expressions, ∀ alternatives,
    e.Contains (.choice alternatives) → ∀ a ∈ alternatives, usable a.weight

namespace WellFormed

theorem resolved (hwf : g.WellFormed usable) : g.Resolved := by
  intro r hmem name hname
  obtain ⟨e, he, hreference⟩ := Rule.mem_references_iff.mp hname
  exact hwf.references r hmem e he name (Expr.mem_references_iff.mp hreference)

theorem captureFree (hwf : g.WellFormed usable) : g.CaptureFree := by
  intro r hmem
  rw [← Bool.not_eq_true, Expr.hasCaptures_iff]
  intro h
  obtain ⟨index, hindex⟩ := h
  exact hwf.captures r hmem r.body (List.mem_cons_self ..) index hindex

theorem rule?_iff (hwf : g.WellFormed usable) {name : String} {r : Rule W} :
    g.rule? name = some r ↔ r ∈ g.rules ∧ r.name = name :=
  rule?_eq_some_iff hwf.distinct

end WellFormed

/-- What is wrong with names: the form of each, and then that it is among those seen before. -/
def nameProblems (seen : List String) : List String → List CompileError
  | [] => []
  | name :: names =>
    (if Name.isIdentifier name then [] else [.invalidRuleName name]) ++
      ((if name ∈ seen then [.duplicateRule name] else []) ++ nameProblems (name :: seen) names)

/-- All references that are none of these names. -/
def referenceProblems (names references : List String) : List CompileError :=
  (references.filter (!names.contains ·)).map .unknownRule

theorem nameProblems_eq_nil_iff {seen names : List String} :
    nameProblems seen names = [] ↔ (∀ name ∈ names, Name.isIdentifier name = true) ∧
      names.Nodup ∧ ∀ name ∈ names, name ∉ seen := by
  induction names generalizing seen with
  | nil => simp [nameProblems]
  | cons name names ih =>
    have hlater : (∀ later ∈ names, later ∉ name :: seen) ↔
        name ∉ names ∧ ∀ later ∈ names, later ∉ seen := by
      simp only [List.mem_cons, not_or, forall_and, List.forall_mem_ne']
    have hform : (if Name.isIdentifier name then [] else [CompileError.invalidRuleName name]) = [] ↔
        Name.isIdentifier name = true := by simp
    have hfresh : (if name ∈ seen then [CompileError.duplicateRule name] else []) = [] ↔
        name ∉ seen := by simp
    rw [nameProblems, List.append_eq_nil_iff, List.append_eq_nil_iff, hform, hfresh, ih, hlater,
      List.forall_mem_cons, List.forall_mem_cons, List.nodup_cons]
    tauto

theorem error?_checkNames (seen : List String) (rules : List (Rule W)) :
    Outcome.error? (checkNames seen rules) =
      (nameProblems seen (rules.map (·.name))).head? := by
  induction rules generalizing seen with
  | nil => rfl
  | cons r rules ih =>
    rw [checkNames, List.map_cons, nameProblems]
    by_cases hidentifier : Name.isIdentifier r.name = true
    · by_cases hseen : r.name ∈ seen
      · rw [if_neg (by simp [hidentifier]), if_pos (by simp [hseen]), if_pos hidentifier,
          if_pos hseen]
        rfl
      · rw [if_neg (by simp [hidentifier]), if_neg (by simp [hseen]), if_pos hidentifier,
          if_neg hseen, ih]
        rfl
    · rw [if_pos (by simp [hidentifier]), if_neg hidentifier]
      rfl

/-- Names are in order if they are identifiers, all different, and none of those before. -/
theorem checkNames_eq_ok_iff {seen : List String} {rules : List (Rule W)} :
    checkNames seen rules = .ok () ↔ (∀ r ∈ rules, Name.isIdentifier r.name = true) ∧
      (rules.map (·.name)).Nodup ∧ ∀ r ∈ rules, r.name ∉ seen := by
  have hok : checkNames seen rules = .ok () ↔ Outcome.error? (checkNames seen rules) = none := by
    rw [Outcome.error?_eq_none_iff]
    exact ⟨fun h => ⟨(), h⟩, fun ⟨_, h⟩ => h⟩
  rw [hok, error?_checkNames, List.head?_eq_none_iff, nameProblems_eq_nil_iff]
  simp only [List.forall_mem_map]

theorem referenceProblems_eq_nil_iff {names references : List String} :
    referenceProblems names references = [] ↔ ∀ name ∈ references, name ∈ names := by
  simp [referenceProblems]

/-- The checks of a grammar find what is wrong with the names and then with the references of its
    rules. -/
theorem error?_ofRules (root : String) (rules : List (Rule W)) (useWeights : Bool) :
    Outcome.error? (ofRules root rules useWeights) =
      (nameProblems [] (rules.map (·.name)) ++
        referenceProblems (rules.map (·.name)) (rules.flatMap Rule.references)).head? := by
  refine Outcome.error?_bind (error?_checkNames [] rules) fun _ _ => ?_
  rw [referenceProblems, List.head?_map, List.head?_filter]
  show _ = (danglingReference? rules).map _
  cases danglingReference? rules with
  | none => rfl
  | some name => rfl

theorem danglingReference?_eq_none_iff {rules : List (Rule W)} :
    danglingReference? rules = none ↔
      ∀ r ∈ rules, ∀ name ∈ r.references, name ∈ rules.map (·.name) := by
  simp only [danglingReference?, List.find?_eq_none, List.mem_flatMap]
  constructor
  · intro h r hmem name hname
    simpa using h name ⟨r, hmem, hname⟩
  · intro h name hname
    obtain ⟨r, hmem, hname⟩ := hname
    simpa using h r hmem name hname

/-- What is checked of rules: they are left as they are, whether or not there is a root. -/
theorem ofRules_eq_ok_iff {root : String} {rules : List (Rule W)} {useWeights : Bool} :
    ofRules root rules useWeights = .ok g ↔
      g = ⟨rules, root, useWeights⟩ ∧ (∀ r ∈ rules, Name.isIdentifier r.name = true) ∧
        (rules.map (·.name)).Nodup ∧
        ∀ r ∈ rules, ∀ name ∈ r.references, name ∈ rules.map (·.name) := by
  rw [← danglingReference?_eq_none_iff, ofRules, Outcome.bind_eq_ok_iff]
  constructor
  · intro h
    obtain ⟨⟨⟩, hnames, hrest⟩ := h
    obtain ⟨hidentifiers, hdistinct, -⟩ := checkNames_eq_ok_iff.mp hnames
    cases hdangling : danglingReference? rules with
    | some name =>
      rw [hdangling] at hrest
      cases hrest
    | none =>
      rw [hdangling] at hrest
      cases hrest
      exact ⟨rfl, hidentifiers, hdistinct, rfl⟩
  · intro h
    obtain ⟨rfl, hidentifiers, hdistinct, hdangling⟩ := h
    refine ⟨(), checkNames_eq_ok_iff.mpr ⟨hidentifiers, hdistinct, by simp⟩, ?_⟩
    rw [hdangling]

/-- What the checks of a grammar establish. -/
theorem checks_of_ofRules {root : String} {rules : List (Rule W)} {useWeights : Bool}
    (hgrammar : ofRules root rules useWeights = .ok g) :
    g = ⟨rules, root, useWeights⟩ ∧ (∀ r ∈ g.rules, Name.isIdentifier r.name = true) ∧
      (g.rules.map (·.name)).Nodup ∧ g.Resolved := by
  obtain ⟨rfl, hidentifiers, hdistinct, hreferences⟩ := ofRules_eq_ok_iff.mp hgrammar
  refine ⟨rfl, hidentifiers, hdistinct, fun r hmem name hname => ?_⟩
  exact hasRule_iff_mem_names.mpr (hreferences r hmem name hname)

/-- Rules in another order pass the checks as well. -/
theorem ofRules_of_perm {root : String} {rules rules' : List (Rule W)} {useWeights : Bool}
    (hgrammar : ofRules root rules useWeights = .ok g) (hperm : rules'.Perm rules) :
    ofRules root rules' useWeights = .ok ⟨rules', root, useWeights⟩ := by
  obtain ⟨-, hidentifiers, hdistinct, hreferences⟩ := ofRules_eq_ok_iff.mp hgrammar
  have hnames : (rules'.map (·.name)).Perm (rules.map (·.name)) := hperm.map _
  refine ofRules_eq_ok_iff.mpr ⟨rfl, fun r hmem => ?_, hnames.nodup_iff.mpr hdistinct, ?_⟩
  · exact hidentifiers r (hperm.mem_iff.mp hmem)
  · intro r hmem name hname
    exact hnames.mem_iff.mpr (hreferences r (hperm.mem_iff.mp hmem) name hname)

end Grammar

end WordGrammar

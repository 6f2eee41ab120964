import WordGrammar.Config.Declaration

namespace WordGrammar

namespace Declaration

/-- The rule that is added. -/
def added? : Declaration → Option RuleDef
  | .rule r => some r
  | _ => none

/-- What an amendment of the rule added last is called. -/
def amendment? : Declaration → Option String
  | .substitute .. => some "rewrite"
  | .exclude _ => some "exclusion"
  | .pattern _ => some "pattern"
  | .chain .. => some "chain"
  | .flags .. => some "flag"
  | .root _ | .chooseRoot _ | .weights _ | .rule _ => none

/-- The root that is named. -/
def root? : Declaration → Option String
  | .chooseRoot name => some name
  | _ => none

/-- Whether the weights are to be used. -/
def weights? : Declaration → Option Bool
  | .weights on => some on
  | _ => none

/-- The patterns for the rule added last. -/
def patterns : Declaration → List PatternDef
  | .pattern p => [p]
  | _ => []

/-- The substitutions for the rule added last. -/
def substitutions : Declaration → List SubstitutionDef
  | .substitute target replacement => [⟨target, replacement⟩]
  | .chain target replacement _ => [⟨target, replacement⟩]
  | _ => []

/-- The exclusions for the rule added last. -/
def exclusions : Declaration → List String
  | .exclude excluded => [excluded]
  | .chain _ _ excluded => [excluded]
  | _ => []

/-- Whether substitutions and exclusions of the rule added last are to count. -/
def flags? : Declaration → Option (Bool × Bool)
  | .flags substitutions exclusions => some (substitutions, exclusions)
  | _ => none

/-- Two declarations that do not both add to one list of a rule, nor both set its flags. -/
structure Apart (d d' : Declaration) : Prop where
  patterns : d.patterns = [] ∨ d'.patterns = []
  substitutions : d.substitutions = [] ∨ d'.substitutions = []
  exclusions : d.exclusions = [] ∨ d'.exclusions = []
  flags : d.flags? = none ∨ d'.flags? = none

/-- Each rule that is added, with the declarations from there to the next. -/
def spans : List Declaration → List (RuleDef × List Declaration)
  | [] => []
  | .rule r :: ds => (r, ds.takeWhile fun d => d.added?.isNone) :: spans ds
  | _ :: ds => spans ds

/-- Every rule that is added has a span, in the order in which they are added. -/
theorem map_fst_spans (ds : List Declaration) : (spans ds).map Prod.fst = ds.filterMap added? := by
  induction ds with
  | nil => rfl
  | cons d ds ih =>
    cases d with
    | rule r => exact congrArg (r :: ·) ih
    | _ => exact ih

theorem spans_of_quiet {d : Declaration} (hquiet : d.added? = none) (ds : List Declaration) :
    spans (d :: ds) = spans ds := by
  cases d with
  | rule => cases hquiet
  | _ => rfl

end Declaration

open Declaration

/-- The rule with what is declared of it. -/
def RuleDef.amend (r : RuleDef) : Declaration → RuleDef
  | .substitute target replacement => r.substitute target replacement
  | .exclude excluded => r.exclude excluded
  | .pattern p => r.pattern p
  | .chain target replacement excluded => (r.substitute target replacement).exclude excluded
  | .flags substitutions exclusions =>
    { r with showSubstitutions := substitutions, showExclusions := exclusions }
  | .root _ | .chooseRoot _ | .weights _ | .rule _ => r

/-- The rule with all that is declared of it: its own patterns, substitutions and exclusions and
    then those declared, each in order, and the flags declared last. -/
def RuleDef.declared (r : RuleDef) (ds : List Declaration) : RuleDef :=
  let flags := (ds.filterMap flags?).getLast?.getD (r.showSubstitutions, r.showExclusions)
  { r with
    patterns := r.patterns ++ ds.flatMap Declaration.patterns
    substitutions := r.substitutions ++ ds.flatMap Declaration.substitutions
    exclusions := r.exclusions ++ ds.flatMap Declaration.exclusions
    showSubstitutions := flags.1
    showExclusions := flags.2 }

/-- What is declared last is what is declared last behind the first, if anything is. -/
theorem getLast?_filterMap_cons {α : Type} (declares? : Declaration → Option α) (d : Declaration)
    (ds : List Declaration) :
    ((d :: ds).filterMap declares?).getLast? =
      (ds.filterMap declares?).getLast?.or (declares? d) := by
  cases hfirst : declares? d with
  | none => rw [List.filterMap_cons_none hfirst, Option.or_none]
  | some a =>
    rw [List.filterMap_cons_some hfirst, List.getLast?_cons]
    cases (ds.filterMap declares?).getLast? with
    | none => rfl
    | some b => rfl

namespace RuleDef

theorem patterns_amend (r : RuleDef) (d : Declaration) :
    (r.amend d).patterns = r.patterns ++ d.patterns := by
  cases d with
  | pattern => rfl
  | _ => exact (List.append_nil _).symm

theorem substitutions_amend (r : RuleDef) (d : Declaration) :
    (r.amend d).substitutions = r.substitutions ++ d.substitutions := by
  cases d with
  | substitute | chain => rfl
  | _ => exact (List.append_nil _).symm

theorem exclusions_amend (r : RuleDef) (d : Declaration) :
    (r.amend d).exclusions = r.exclusions ++ d.exclusions := by
  cases d with
  | exclude | chain => rfl
  | _ => exact (List.append_nil _).symm

theorem flags_amend (r : RuleDef) (d : Declaration) :
    ((r.amend d).showSubstitutions, (r.amend d).showExclusions) =
      d.flags?.getD (r.showSubstitutions, r.showExclusions) := by
  cases d with
  | _ => rfl

theorem declared_cons (r : RuleDef) (d : Declaration) (ds : List Declaration) :
    r.declared (d :: ds) = (r.amend d).declared ds := by
  have hkept : (r.amend d).name = r.name ∧ (r.amend d).terminalOnly = r.terminalOnly := by
    cases d with
    | _ => exact ⟨rfl, rfl⟩
  have hflags := flags_amend r d
  simp only [declared, getLast?_filterMap_cons, Option.getD_or, List.flatMap_cons, patterns_amend,
    substitutions_amend, exclusions_amend, List.append_assoc, hkept, hflags]

/-- A rule that is amended step by step is the rule with all that is declared of it. -/
theorem foldl_amend_eq (r : RuleDef) (ds : List Declaration) :
    ds.foldl amend r = r.declared ds := by
  induction ds generalizing r with
  | nil => simp [declared]
  | cons d ds ih => rw [List.foldl_cons, ih, declared_cons]

/-- Amendments of different kinds may come in any order. -/
theorem amend_comm {d d' : Declaration} (hapart : d.Apart d') (r : RuleDef) :
    (r.amend d).amend d' = (r.amend d').amend d := by
  have happend {α : Type} {as as' : List α} (hempty : as = [] ∨ as' = []) :
      as ++ as' = as' ++ as := by
    rcases hempty with rfl | rfl
    · exact (List.append_nil _).symm
    · exact List.append_nil _
  have hor : d'.flags?.or d.flags? = d.flags?.or d'.flags? := by
    rcases hapart.flags with hnone | hnone
    · rw [hnone, Option.or_none, Option.none_or]
    · rw [hnone, Option.or_none, Option.none_or]
  have hdeclared : r.declared [d, d'] = r.declared [d', d] := by
    simp only [declared, getLast?_filterMap_cons, List.flatMap_cons, List.flatMap_nil,
      List.append_nil, List.filterMap_nil, List.getLast?_nil, Option.none_or, hor,
      happend hapart.patterns, happend hapart.substitutions, happend hapart.exclusions]
  rwa [← foldl_amend_eq, ← foldl_amend_eq] at hdeclared

end RuleDef

namespace Config

/-- The configuration behind a declaration, which is the same as before if it is misplaced. -/
def after (c : Config) (d : Declaration) : Config :=
  match d.apply c with
  | .ok c' => c'
  | .error _ => c

/-- The configuration with the root and the use of weights that are declared, and its rules as they
    are. -/
def frame (c : Config) (d : Declaration) : Config :=
  { c with root := d.root?.or c.root, enableWeights := d.weights?.getD c.enableWeights }

/-- The configuration with a further rule, which is built first. -/
def build (c : Config) (span : RuleDef × List Declaration) : Config :=
  c.rule (span.2.foldl RuleDef.amend span.1)

variable {c : Config} {r : RuleDef} {d : Declaration} {ds : List Declaration}

section Steps

theorem declare_eq_foldl (c : Config) (ds : List Declaration) :
    c.declare ds = ds.foldl after c := by
  induction ds generalizing c with
  | nil => rfl
  | cons d ds ih =>
    rw [List.foldl_cons, declare, after]
    cases d.apply c with
    | ok c' => exact ih c'
    | error m => exact ih c

theorem declare_cons (c : Config) (d : Declaration) (ds : List Declaration) :
    c.declare (d :: ds) = (c.after d).declare ds := by
  rw [declare_eq_foldl, declare_eq_foldl, List.foldl_cons]

theorem declare_append (c : Config) (ds ds' : List Declaration) :
    c.declare (ds ++ ds') = (c.declare ds).declare ds' := by
  simp only [declare_eq_foldl, List.foldl_append]

/-- Whatever is declared before a new beginning is forgotten. -/
theorem declare_root (c : Config) (name : String) (ds : List Declaration) :
    c.declare (.root name :: ds) = Config.empty.declare (.chooseRoot name :: ds) := by
  rw [declare_cons, declare_cons]
  rfl

/-- There is a rule added last, or none at all. -/
theorem eq_nil_or_rule (c : Config) :
    c.rules = [] ∨ ∃ (c' : Config) (r : RuleDef), c = c'.rule r := by
  obtain hnil | ⟨rules, r, hrules⟩ := List.eq_nil_or_concat c.rules
  · exact .inl hnil
  · refine .inr ⟨{ c with rules }, r, ?_⟩
    rw [Config.rule, ← List.concat_eq_append, ← hrules]

theorem amendLast_rule (what : String) (amend : RuleDef → RuleDef) :
    (c.rule r).amendLast what amend = .ok (c.rule (amend r)) := by
  simp [amendLast, Config.rule]

theorem amendLast_of_nil (hnone : c.rules = []) (what : String) (amend : RuleDef → RuleDef) :
    c.amendLast what amend = .error ⟨what⟩ := by
  simp [amendLast, hnone]

theorem apply_of_amendment {what : String} (hamends : d.amendment? = some what) :
    d.apply c = c.amendLast what (·.amend d) := by
  cases d with
  | substitute | exclude | pattern | chain | flags =>
    cases hamends
    rfl
  | root | chooseRoot | weights | rule => cases hamends

/-- An amendment goes to the rule added last. -/
theorem after_rule_of_amendment {what : String} (hamends : d.amendment? = some what) :
    (c.rule r).after d = c.rule (r.amend d) := by
  rw [after, apply_of_amendment hamends, amendLast_rule]

/-- An amendment of no rule changes nothing. -/
theorem after_of_misplaced {what : String} (hamends : d.amendment? = some what)
    (hnone : c.rules = []) : c.after d = c := by
  rw [after, apply_of_amendment hamends, amendLast_of_nil hnone]

/-- What adds no rule goes to the rule added last and to what stands around the rules. -/
theorem after_rule (hquiet : d.added? = none) (hgoing : ∀ name, d ≠ .root name) :
    (c.rule r).after d = (c.frame d).rule (r.amend d) := by
  cases d with
  | substitute | exclude | pattern | chain | flags => exact after_rule_of_amendment rfl
  | chooseRoot | weights => rfl
  | root name => exact absurd rfl (hgoing name)
  | rule => cases hquiet

/-- Without any rule there is only what stands around the rules. -/
theorem after_of_nil (hnone : c.rules = []) (hquiet : d.added? = none)
    (hgoing : ∀ name, d ≠ .root name) : c.after d = c.frame d := by
  cases d with
  | substitute | exclude | pattern | chain | flags => exact after_of_misplaced rfl hnone
  | chooseRoot | weights => rfl
  | root name => exact absurd rfl (hgoing name)
  | rule => cases hquiet

/-- Neighbouring amendments of different kinds may be swapped, misplaced or not. -/
theorem after_comm {d' : Declaration} {what what' : String} (hamends : d.amendment? = some what)
    (hamends' : d'.amendment? = some what') (hapart : d.Apart d') (c : Config) :
    (c.after d).after d' = (c.after d').after d := by
  obtain hnone | ⟨c', r, rfl⟩ := c.eq_nil_or_rule
  · simp only [after_of_misplaced hamends hnone, after_of_misplaced hamends' hnone]
  · simp only [after_rule_of_amendment hamends, after_rule_of_amendment hamends',
      RuleDef.amend_comm hapart]

/-- A declaration is misplaced exactly if it amends a rule and there is none. -/
theorem apply_eq_error_iff {m : Misplaced} :
    d.apply c = .error m ↔ d.amendment? = some m.what ∧ c.rules = [] := by
  obtain ⟨complaint⟩ := m
  cases hamends : d.amendment? with
  | some what =>
    rw [apply_of_amendment hamends]
    obtain hnone | ⟨c', r, rfl⟩ := c.eq_nil_or_rule
    · rw [amendLast_of_nil hnone]
      simp [hnone]
    · rw [amendLast_rule]
      simp [Config.rule]
  | none =>
    cases d with
    | root | chooseRoot | weights | rule => exact ⟨nofun, nofun⟩
    | substitute | exclude | pattern | chain | flags => cases hamends

end Steps

section Runs

/-- What stands around the rules does not depend on them. -/
theorem foldl_frame_rule (c : Config) (r : RuleDef) (ds : List Declaration) :
    ds.foldl frame (c.rule r) = (ds.foldl frame c).rule r := by
  induction ds generalizing c with
  | nil => rfl
  | cons d ds ih => exact ih (c.frame d)

/-- Behind a rule, the declarations of its span go to it, and all others to what is added later or
    to what stands around the rules. -/
theorem declare_rule (hgoing : ∀ d ∈ ds, ∀ name, d ≠ .root name) (c : Config) (r : RuleDef) :
    (c.rule r).declare ds = (spans ds).foldl build
      ((ds.foldl frame c).build (r, ds.takeWhile fun d => d.added?.isNone)) := by
  -- For any rule added last: what goes to it amends it, and the next rule takes its place.
  induction ds generalizing c r with
  | nil => rfl
  | cons d ds ih =>
    obtain ⟨hhere, hlater⟩ := List.forall_mem_cons.mp hgoing
    cases hadded : d.added? with
    | none =>
      have htake : (d :: ds).takeWhile (fun d => d.added?.isNone) =
          d :: ds.takeWhile fun d => d.added?.isNone := by
        rw [List.takeWhile_cons_of_pos (by simp [hadded])]
      rw [declare_cons, after_rule hadded hhere, ih hlater, spans_of_quiet hadded, htake]
      rfl
    | some r' =>
      cases d with
      | rule r'' =>
        rw [declare_cons]
        refine (ih hlater (c.rule r) r'').trans ?_
        rw [foldl_frame_rule]
        rfl
      | _ => cases hadded

/-- Where there are no rules, what comes before the first is misplaced. -/
theorem declare_of_nil (hgoing : ∀ d ∈ ds, ∀ name, d ≠ .root name) (hnone : c.rules = []) :
    c.declare ds = (spans ds).foldl build (ds.foldl frame c) := by
  induction ds generalizing c with
  | nil => rfl
  | cons d ds ih =>
    obtain ⟨hhere, hlater⟩ := List.forall_mem_cons.mp hgoing
    cases hadded : d.added? with
    | none =>
      rw [declare_cons, after_of_nil hnone hadded hhere, spans_of_quiet hadded]
      exact ih hlater hnone
    | some r' =>
      cases d with
      | rule r => exact declare_rule hlater c r
      | _ => cases hadded

theorem rules_foldl_build (c : Config) (spans : List (RuleDef × List Declaration)) :
    (spans.foldl build c).rules = c.rules ++ spans.map fun span => span.1.declared span.2 := by
  induction spans generalizing c with
  | nil => simp
  | cons span spans ih =>
    rw [List.foldl_cons, ih, build, Config.rule, RuleDef.foldl_amend_eq, List.map_cons,
      List.append_assoc, List.singleton_append]

/-- What stands around the rules is not touched when rules are added. -/
theorem foldl_build_eq (c : Config) (spans : List (RuleDef × List Declaration)) :
    spans.foldl build c = { c with rules := (spans.foldl build c).rules } := by
  induction spans generalizing c with
  | nil => rfl
  | cons span spans ih => exact ih (c.build span)

/-- The root and the use of weights are as declared last. -/
theorem foldl_frame_eq (c : Config) (ds : List Declaration) :
    ds.foldl frame c =
      { c with
        root := (ds.filterMap root?).getLast?.or c.root
        enableWeights := (ds.filterMap weights?).getLast?.getD c.enableWeights } := by
  induction ds generalizing c with
  | nil => rfl
  | cons d ds ih =>
    rw [List.foldl_cons, ih]
    simp only [frame, getLast?_filterMap_cons, Option.or_assoc, Option.getD_or]

/-- There is no rule exactly if none has been added. -/
theorem rules_declare_eq_nil_iff (hgoing : ∀ d ∈ ds, ∀ name, d ≠ .root name) :
    (Config.empty.declare ds).rules = [] ↔ ∀ r, .rule r ∉ ds := by
  rw [declare_of_nil hgoing rfl, foldl_frame_eq, rules_foldl_build, List.append_eq_nil_iff,
    List.map_eq_nil_iff, ← List.map_eq_nil_iff (f := Prod.fst), map_fst_spans,
    List.filterMap_eq_nil_iff]
  constructor
  · intro h r hmem
    cases h.2 _ hmem
  · intro hnone
    refine ⟨rfl, fun d hmem => ?_⟩
    cases d with
    | rule r => exact (hnone r hmem).elim
    | _ => rfl

end Runs

/-- No rules yet, and the root and the use of weights as declared last. -/
def outline (ds : List Declaration) : Config :=
  let start := match (ds.filterMap root?).getLast? with
    | none => Config.empty
    | some name => Config.ofRoot name
  start.withWeights ((ds.filterMap weights?).getLast?.getD false)

theorem foldl_frame_empty (ds : List Declaration) :
    ds.foldl frame Config.empty = outline ds := by
  rw [foldl_frame_eq, outline]
  cases (ds.filterMap root?).getLast? with
  | none => rfl
  | some name => rfl

/-- Declarations from nothing, none of which begins anew. Every rule that is added has, besides its
    own, what is declared from there to the next rule, and its flags and all that stands around the
    rules are as declared last. An amendment is misplaced exactly as long as no rule is added, and
    changes nothing then. Neighbouring amendments of different kinds may be swapped, and each rule
    may as well be amended before it is added. A new beginning in front of the declarations forgets
    what came before it and is otherwise a choice of the root. -/
theorem declarations_attach {ds : List Declaration} (hgoing : ∀ d ∈ ds, ∀ name, d ≠ .root name) :
    (spans ds).map Prod.fst = ds.filterMap added? ∧
    (Config.empty.declare ds).rules = (spans ds).map (fun span => span.1.declared span.2) ∧
    (Config.empty.declare ds).root = (ds.filterMap root?).getLast? ∧
    (Config.empty.declare ds).enableWeights = (ds.filterMap weights?).getLast?.getD false ∧
    (∀ before d after, ds = before ++ d :: after →
      (∀ m, d.apply (Config.empty.declare before) = .error m ↔
        d.amendment? = some m.what ∧ ∀ r, .rule r ∉ before) ∧
      ∀ m, d.apply (Config.empty.declare before) = .error m →
        Config.empty.declare ds = Config.empty.declare (before ++ after)) ∧
    (∀ before d d' after, ds = before ++ d :: d' :: after → d.amendment? ≠ none →
      d'.amendment? ≠ none → d.Apart d' →
        Config.empty.declare ds = Config.empty.declare (before ++ d' :: d :: after)) ∧
    Config.empty.declare ds =
      (spans ds).foldl (fun c span => c.rule (span.2.foldl RuleDef.amend span.1)) (outline ds) ∧
    ∀ before name, Config.empty.declare (before ++ .root name :: ds) =
      Config.empty.declare (.chooseRoot name :: ds) := by
  have hbuilt : Config.empty.declare ds = (spans ds).foldl build (outline ds) := by
    rw [declare_of_nil hgoing rfl, foldl_frame_empty]
  have hframed : outline ds = _ := (foldl_frame_empty ds).symm.trans (foldl_frame_eq _ ds)
  refine ⟨map_fst_spans ds, ?_, ?_, ?_, fun before d after hds => ⟨fun m => ?_, fun m herror => ?_⟩,
    fun before d d' after hds hamends hamends' hapart => ?_, hbuilt,
    fun before name => ?_⟩
  · rw [hbuilt, rules_foldl_build, hframed]
    rfl
  · rw [hbuilt, foldl_build_eq, hframed]
    exact Option.or_none
  · rw [hbuilt, foldl_build_eq, hframed]
    rfl
  · have hbefore : ∀ d ∈ before, ∀ name, d ≠ .root name :=
      fun d hmem => hgoing d (hds ▸ List.mem_append_left _ hmem)
    rw [apply_eq_error_iff, rules_declare_eq_nil_iff hbefore]
  · obtain ⟨hmisplaced, hnone⟩ := apply_eq_error_iff.mp herror
    rw [hds, declare_append, declare_append, declare_cons, after_of_misplaced hmisplaced hnone]
  · obtain ⟨what, hwhat⟩ := Option.ne_none_iff_exists'.mp hamends
    obtain ⟨what', hwhat'⟩ := Option.ne_none_iff_exists'.mp hamends'
    simp only [hds, declare_append, declare_cons, after_comm hwhat hwhat' hapart]
  · rw [declare_append, declare_root]

/-- Words of two vowels, with an exclusion that is misplaced and a second root. -/
def vowelPairs : List Declaration := [
  .exclude "'x'",
  .chooseRoot "V",
  .rule (.terminal "V" ["a", "i"]),
  .rule (.plain "W" ["V.V"]),
  .substitute "'aa'" "'a'",
  .flags true true,
  .chooseRoot "W",
  .exclude "'ii'",
  .flags false true,
  .weights true,
  .pattern ⟨"V", 2⟩,
  .chain "'ai'" "'e'" "'ia'"]

theorem declarations_attach_vowelPairs :
    (∀ d ∈ vowelPairs, ∀ name, d ≠ .root name) ∧
    (Config.empty.declare vowelPairs).rules = [
      .terminal "V" ["a", "i"],
      { name := "W", patterns := [.plain "V.V", ⟨"V", 2⟩], terminalOnly := false,
        substitutions := [⟨"'aa'", "'a'"⟩, ⟨"'ai'", "'e'"⟩], exclusions := ["'ii'", "'ia'"],
        showSubstitutions := false, showExclusions := true }] ∧
    (Config.empty.declare vowelPairs).root = some "W" ∧
    (Config.empty.declare vowelPairs).enableWeights = true ∧
    (Declaration.exclude "'x'").apply Config.empty = .error ⟨"exclusion"⟩ ∧
    Config.empty.declare vowelPairs = Config.empty.declare vowelPairs.tail ∧
    Config.empty.declare vowelPairs =
      Config.empty.declare (vowelPairs.take 7 ++
        .flags false true :: .exclude "'ii'" :: vowelPairs.drop 9) := by
  have hgoing : ∀ d ∈ vowelPairs, ∀ name, d ≠ .root name := by simp [vowelPairs]
  obtain ⟨-, hrules, hroot, hweights, hmisplaced, hswap, -⟩ := declarations_attach hgoing
  obtain ⟨herror, hskip⟩ := hmisplaced [] (.exclude "'x'") vowelPairs.tail rfl
  have hfirst := (herror ⟨"exclusion"⟩).mpr ⟨rfl, by simp⟩
  refine ⟨hgoing, hrules, hroot, hweights, hfirst, hskip _ hfirst, ?_⟩
  exact hswap (vowelPairs.take 7) _ _ (vowelPairs.drop 9) rfl (by simp [amendment?])
    (by simp [amendment?]) ⟨.inl rfl, .inl rfl, .inr rfl, .inl rfl⟩

end Config

end WordGrammar

import WordGrammar.Proofs.Config.Compile
import WordGrammar.Proofs.Generation.Reach

namespace WordGrammar

namespace Config

variable {c c' : Config} {g g' : Grammar Float}

/-- Compiled grammars are alike if the one has the rules of the other, in whatever order, and rules
    besides, none of which is the root. -/
theorem alike_of_added (hcompile : c.compile = .ok (some g))
    (hcompile' : c'.compile = .ok (some g')) (hroot : c'.root = c.root)
    (hweights : c'.enableWeights = c.enableWeights)
    {added : List RuleDef} (hperm : c'.rules.Perm (added ++ c.rules))
    (hadded : ∀ d ∈ added, c.root ≠ some d.name) : g.Alike g' := by
  obtain ⟨root, rules, hc, -, hrules, hgrammar⟩ := compile_eq_ok_iff.mp hcompile
  obtain ⟨root', rules', hc', -, hrules', hgrammar'⟩ := compile_eq_ok_iff.mp hcompile'
  obtain ⟨rfl, -, -, hresolved⟩ := Grammar.checks_of_ofRules hgrammar
  obtain ⟨rfl, -, hdistinct', hresolved'⟩ := Grammar.checks_of_ofRules hgrammar'
  obtain rfl : root' = root := Option.some.inj (hc'.symm.trans (hroot.trans hc))
  obtain ⟨others, hothers, hothersperm⟩ := Outcome.exists_perm_of_mapM hrules hrules' hperm
  refine Grammar.alike_of_perm hresolved hresolved' rfl hweights.symm hdistinct' hothersperm ?_
  intro hmem
  obtain ⟨r, hr, hname⟩ := List.mem_map.mp hmem
  obtain ⟨d, hd, hdr⟩ := Outcome.exists_of_mapM hothers r hr
  apply hadded d hd
  rw [hc, ← RuleDef.name_of_compile hdr, hname]

/-- A configuration with its rules in another order is compiled, too, to a grammar alike. -/
theorem exists_alike_of_perm (hcompile : c.compile = .ok (some g)) (hroot : c'.root = c.root)
    (hweights : c'.enableWeights = c.enableWeights) (hperm : c'.rules.Perm c.rules) :
    ∃ g', c'.compile = .ok (some g') ∧ g.Alike g' := by
  obtain ⟨root, rules, hc, hnonempty, hrules, hgrammar⟩ := compile_eq_ok_iff.mp hcompile
  obtain ⟨rules', hrules', hrulesperm⟩ :=
    List.perm_comp_forall₂ hperm (Outcome.mapM_eq_ok_iff.mp hrules)
  have hgrammar' := Grammar.ofRules_of_perm hgrammar hrulesperm
  have hcompile' : c'.compile = .ok (some ⟨rules', root, c.enableWeights⟩) := by
    rw [← hroot] at hc
    rw [← hweights] at hgrammar' ⊢
    exact compile_eq_ok_iff.mpr
      ⟨root, rules', hc, hnonempty, Outcome.mapM_eq_ok_iff.mpr hrules', hgrammar'⟩
  have hnone : c'.rules.Perm ([] ++ c.rules) := hperm
  exact ⟨_, hcompile', alike_of_added hcompile hcompile' hroot hweights hnone nofun⟩

/-- Only the rules matter that can be reached from the root, through whatever expressions. Grammars
    of the same root and the same use of weights are alike if the names reached stand for the same
    rules in both. So are the grammars of configurations that list the same rules in different
    orders, and those of configurations one of which adds rules that the other does without. -/
theorem alike_of_reaches :
    (∀ (root : String) (rules rules' : List (Rule Float)) (useWeights : Bool)
        (g g' : Grammar Float),
      Grammar.ofRules root rules useWeights = .ok g →
      Grammar.ofRules root rules' useWeights = .ok g' →
      (∀ name, g.Reaches name → g.rule? name = g'.rule? name) → g.Alike g') ∧
    (∀ (c c' : Config) (g : Grammar Float), c.compile = .ok (some g) →
      c'.root = c.root → c'.enableWeights = c.enableWeights → c'.rules.Perm c.rules →
      ∃ g', c'.compile = .ok (some g') ∧ g.Alike g') ∧
    (∀ (c c' : Config) (g g' : Grammar Float) (added : List RuleDef),
      c.compile = .ok (some g) → c'.compile = .ok (some g') →
      c'.root = c.root → c'.enableWeights = c.enableWeights →
      c'.rules.Perm (added ++ c.rules) → (∀ d ∈ added, c.root ≠ some d.name) → g.Alike g') := by
  refine ⟨?_, ?_, ?_⟩
  · intro root rules rules' useWeights g g' hgrammar hgrammar' hrules
    obtain ⟨rfl, -, -, hresolved⟩ := Grammar.checks_of_ofRules hgrammar
    obtain ⟨rfl, -, -, hresolved'⟩ := Grammar.checks_of_ofRules hgrammar'
    exact Grammar.alike_of_rule? hresolved hresolved' rfl rfl hrules
  · intro c c' g hcompile hroot hweights hperm
    exact exists_alike_of_perm hcompile hroot hweights hperm
  · intro c c' g g' added hcompile hcompile' hroot hweights hperm hadded
    exact alike_of_added hcompile hcompile' hroot hweights hperm hadded

/-- Words of a consonant and a vowel, but for one of them. -/
def tabooed : Config where
  rules := [.terminal "C" ["p", "t"], .terminal "V" ["a", "i"],
    (RuleDef.plain "W" ["C.V"]).exclude "'t'.'i'"]
  root := some "W"
  enableWeights := false

/-- A rule that pairs these words. -/
def pairs : RuleDef := .plain "P" ["W.W"]

/-- What these words are compiled to. -/
def tabooedGrammar : Grammar Float where
  rules := [
    ⟨"C", .choice [⟨.atom "p", 1⟩, ⟨.atom "t", 1⟩], [], []⟩,
    ⟨"V", .choice [⟨.atom "a", 1⟩, ⟨.atom "i", 1⟩], [], []⟩,
    ⟨"W", .choice [⟨.seq [.ref "C", .ref "V"], 1⟩], [.seq [.atom "t", .atom "i"]], []⟩]
  root := "W"
  useWeights := false

/-- What they are compiled to behind that rule. -/
def pairsGrammar : Grammar Float :=
  { tabooedGrammar with
    rules := ⟨"P", .choice [⟨.seq [.ref "W", .ref "W"], 1⟩], [], []⟩ :: tabooedGrammar.rules }

/-- The rules in reverse order, with another rule of that name in front. -/
def optionalGrammar : Grammar Float :=
  { tabooedGrammar with
    rules := ⟨"P", .repeated (.ref "W") 0 1, [], []⟩ :: tabooedGrammar.rules.reverse }

theorem alike_of_reaches_tabooed :
    Grammar.ofRules "W" pairsGrammar.rules false = .ok pairsGrammar ∧
      Grammar.ofRules "W" optionalGrammar.rules false = .ok optionalGrammar ∧
      pairsGrammar.Alike optionalGrammar ∧
      tabooed.compile = .ok (some tabooedGrammar) ∧
      (∃ g, ({ tabooed with rules := tabooed.rules.reverse } : Config).compile = .ok (some g) ∧
        tabooedGrammar.Alike g) ∧
      ({ tabooed with rules := pairs :: tabooed.rules } : Config).compile =
        .ok (some pairsGrammar) ∧
      tabooedGrammar.Alike pairsGrammar := by
  obtain ⟨hrules, hperm, hadded⟩ := alike_of_reaches
  have hpairs : Grammar.ofRules "W" pairsGrammar.rules false = .ok pairsGrammar := by rfl
  have hoptional : Grammar.ofRules "W" optionalGrammar.rules false = .ok optionalGrammar := by rfl
  have hcompile : tabooed.compile = .ok (some tabooedGrammar) := by rfl
  have hcompile' : ({ tabooed with rules := pairs :: tabooed.rules } : Config).compile =
      .ok (some pairsGrammar) := by rfl
  have hclosed : ∀ name ∈ ["W", "C", "V"], ∀ r, pairsGrammar.rule? name = some r →
      r.references ⊆ ["W", "C", "V"] := by
    simp only [List.forall_mem_cons]
    refine ⟨fun r hrule => ?_, fun r hrule => ?_, fun r hrule => ?_, nofun⟩
    · cases hrule
      exact List.subset_cons_self "W" ["C", "V"]
    · cases hrule
      exact List.nil_subset _
    · cases hrule
      exact List.nil_subset _
  refine ⟨hpairs, hoptional, ?_, hcompile, ?_, hcompile', ?_⟩
  · refine hrules _ _ _ _ _ _ hpairs hoptional fun name hreaches => ?_
    have hname : name ∈ ["W", "C", "V"] := hreaches.mem_of_closed (List.mem_cons_self ..) hclosed
    simp only [List.mem_cons, List.not_mem_nil, or_false] at hname
    obtain rfl | rfl | rfl := hname
    · rfl
    · rfl
    · rfl
  · exact hperm tabooed _ _ hcompile rfl rfl (List.reverse_perm _)
  · refine hadded tabooed _ _ _ [pairs] hcompile hcompile' rfl rfl (.refl _) ?_
    simp [tabooed, pairs, RuleDef.plain, RuleDef.ofPatterns]

end Config

end WordGrammar

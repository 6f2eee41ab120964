import WordGrammar.Proofs.Config.Compile
import WordGrammar.Proofs.Grammar.Circle
import WordGrammar.Proofs.Grammar.Safety

namespace WordGrammar

namespace Grammar

/-- Nothing that can be asked of the grammar is at fault, but for lack of memory: references may
    nest without end, and a batch may have too many words. -/
structure Safe (g : Grammar Float) : Prop where
  /-- Making a word of a rule, with any number of rules under way and with any answers drawn. -/
  rules : ∀ depth name, g.hasRule name = true → (g.ruleWord depth name).Raises (· = .endlessNesting)
  words : g.word.Raises (· = .endlessNesting)
  /-- Making several, from any source. -/
  batches : ∀ count source batch fault, g.batch? count source = some batch →
    batch.stopped = some (.faulted fault) →
    fault = .endlessNesting ∨ fault = .batchTooLarge ∧ Batch.largest < count
  /-- The search for a circle meets rules only. -/
  circles : ∀ circle, g.cycle? = some circle → ∀ name ∈ circle, g.hasRule name = true
  /-- Counting, where no circle has been found, is not at fault at all. -/
  counts : g.cycle? = none → ∀ fault, g.combinations ≠ .error (.faulted fault)
  exclusions : ∀ r ∈ g.rules, ∀ text fault, g.isExcluded r text = .error fault →
    fault = .endlessNesting
  /-- What a substitution replaces lies inside the text, and is what the segments make up. -/
  substitutions : ∀ r ∈ g.rules, ∀ s ∈ r.substitutions, ∀ text hit,
    (g.matcher s.target).hit? text = .ok (some hit) → hit.Within text
  /-- Matching a text against a pattern whose references are rules. -/
  matching : ∀ source e, Pattern.parse source = .ok e →
    (∀ name ∈ e.references, g.hasRule name = true) → ∀ text fault,
    g.match? e text = .error fault → fault = .endlessNesting
  /-- Finding such a pattern inside a text, at a place that is in the text. -/
  finding : ∀ source e, Pattern.parse source = .ok e →
    (∀ name ∈ e.references, g.hasRule name = true) → ∀ text,
    (∀ fault, g.find? e text = .error fault → fault = .endlessNesting) ∧
    ∀ o, g.find? e text = .ok (some o) → o.Within text.toList

theorem WellFormed.safe {g : Grammar Float} {usable : Float → Prop} (hwf : g.WellFormed usable) :
    g.Safe := by
  have hpattern : ∀ source e, Pattern.parse source = .ok e →
      (∀ name ∈ e.references, g.hasRule name = true) →
      (g.matcher e).Raises (· = .endlessNesting) := by
    intro source e hparse hrefs
    apply hwf.matcher_raises
    · exact Expr.not_contains_capture ((Pattern.legible_of_read hparse).captures rfl)
    · exact fun name hname => hrefs name (Expr.mem_references_iff.mpr hname)
  constructor
  · exact fun depth name => hwf.ruleWord_raises depth
  · exact hwf.word_raises
  · exact fun count source batch fault hbatch => hwf.batch?_stopped hbatch
  · exact fun circle => hasRule_of_cycle?
  · exact hwf.combinations_ne_fault
  · exact fun r hmem text fault => occursAny_raises fun e => hwf.exclusion_raises hmem
  · exact fun r hmem s hs text hit => within_of_hit?
  · exact fun source e hparse hrefs text fault => hpattern source e hparse hrefs _ fault
  · intro source e hparse hrefs text
    exact ⟨fun fault => (hpattern source e hparse hrefs).find?, fun o => within_of_find?⟩

end Grammar

namespace Config

/-- Every compiled grammar is well formed, finds its rules by their names, and is safe to use. -/
theorem safe_of_compile {c : Config} {g : Grammar Float} (hcompile : c.compile = .ok (some g)) :
    g.WellFormed Usable ∧ (∀ name r, g.rule? name = some r ↔ r ∈ g.rules ∧ r.name = name) ∧
      g.Safe := by
  have hwf := wellFormed_of_compile hcompile
  exact ⟨hwf, fun name r => hwf.rule?_iff, hwf.safe⟩

/-- Syllables that may close, whose consonant and vowel change places before they are checked. -/
def syllables : Config where
  rules := [
    .terminal "C" ["p", "t"],
    .terminal "V" ["a", "i"],
    ((RuleDef.plain "W" ["C.V.('n')", "V{2}*0.5"]).substitute "C.V" "#1#.#0#").exclude "'it'"]
  root := some "W"
  enableWeights := true

theorem safe_syllables :
    ∃ g, syllables.compile = .ok (some g) ∧ g.rules.map (·.name) = ["C", "V", "W"] ∧
      g.WellFormed Usable ∧ (∀ name r, g.rule? name = some r ↔ r ∈ g.rules ∧ r.name = name) ∧
      g.Safe := by
  have hnames : syllables.compile.toOption.join.map (·.rules.map (·.name)) =
      some ["C", "V", "W"] := by decide +kernel
  obtain ⟨g, hg, hrules⟩ := Option.map_eq_some_iff.mp hnames
  have hcompile := compile_eq_of_toOption hg
  exact ⟨g, hcompile, hrules, safe_of_compile hcompile⟩

end Config

end WordGrammar

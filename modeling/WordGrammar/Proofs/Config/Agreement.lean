import WordGrammar.Proofs.Config.Compile
import WordGrammar.Proofs.Generation.Language
import WordGrammar.Proofs.Generation.Source
import WordGrammar.Proofs.Grammar.Cycle
import WordGrammar.Proofs.Matcher.Language

namespace WordGrammar

open Relation

/-- A rule that has been read is plain if it neither changes nor drops words, and has a pattern. -/
theorem Rule.Legible.plain {r : Rule Float} (hlegible : r.Legible)
    (hsubstitutions : r.substitutions = []) (hexclusions : r.exclusions = [])
    (hbody : r.body ≠ .choice []) : r.Plain :=
  ⟨hsubstitutions, hexclusions, hlegible.not_contains_empty hbody⟩

namespace Config

/-- A compiled grammar makes exactly the words that the body of its root matches, where weights are
    not used, no circle can be reached, and the rules that can be reached have no substitutions, no
    exclusions, and at least one pattern. Every answer may come to a draw; and there are sources it
    comes from, as long as no choice has more alternatives than a source has values. -/
theorem ends_word_iff_match? {c : Config} {g : Grammar Float} (hcompile : c.compile = .ok (some g))
    {root : Rule Float} (hroot : g.rule? g.root = some root) (hcycle : g.cycle? = none)
    (hweights : g.useWeights = false)
    (hplain : ∀ name, ReflTransGen g.Refers g.root name → ∀ r, g.rule? name = some r →
      r.substitutions = [] ∧ r.exclusions = [] ∧ r.body ≠ .choice [])
    (w : String) :
    (g.word.Ends (.ok w) ↔ ∃ lengths, g.match? root.body w = .ok (some lengths)) ∧
    ((∀ r ∈ g.rules, ∀ e ∈ r.expressions, ∀ alternatives, e.Contains (.choice alternatives) →
        alternatives.length ≤ UInt64.size) →
      ((∃ source run, g.word.run? source = some run ∧ run.outcome = .ok w) ↔
        ∃ lengths, g.match? root.body w = .ok (some lengths))) := by
  obtain ⟨hlegible, -⟩ := checks_of_compile hcompile
  have hwf := wellFormed_of_compile hcompile
  have hacyclic := Grammar.not_cycleBelow_of_cycle? hcycle
  have hrules : ∀ name, ReflTransGen g.Refers g.root name →
      ∀ r, g.rule? name = some r → r.Plain := by
    intro name hreach r hrule
    obtain ⟨hsubstitutions, hexclusions, hbody⟩ := hplain name hreach r hrule
    have hr := hlegible r (Grammar.mem_rules_of_rule? hrule)
    exact hr.plain hsubstitutions hexclusions hbody
  have hwords : g.word.Ends (.ok w) ↔ ∃ lengths, g.match? root.body w = .ok (some lengths) := by
    rw [Grammar.ends_word_iff hweights hwf.resolved (Grammar.hasRule_iff.mpr ⟨root, hroot⟩) hrules
      hacyclic, Grammar.exists_match?_iff hwf.resolved hwf.captureFree hroot hacyclic]
  refine ⟨hwords, fun hchoices => ?_⟩
  have hdrawable : g.Drawable := by
    refine ⟨hchoices, fun r hmem e he body least most hbody => ?_⟩
    exact ((hlegible r hmem).bounds_of_contains he hbody).2
  rw [← hdrawable.ends_word_iff_exists_run?, hwords]

/-- Words of a consonant and a vowel. -/
def consonantVowel : Config where
  rules := [.terminal "C" ["p", "t"], .terminal "V" ["a", "i"], .plain "Word" ["C.V"]]
  root := some "Word"
  enableWeights := false

/-- What these words are compiled to. -/
def consonantVowelGrammar : Grammar Float where
  rules := [
    ⟨"C", .choice [⟨.atom "p", 1⟩, ⟨.atom "t", 1⟩], [], []⟩,
    ⟨"V", .choice [⟨.atom "a", 1⟩, ⟨.atom "i", 1⟩], [], []⟩,
    ⟨"Word", .choice [⟨.seq [.ref "C", .ref "V"], 1⟩], [], []⟩]
  root := "Word"
  useWeights := false

theorem ends_word_ti :
    consonantVowel.compile = .ok (some consonantVowelGrammar) ∧
      consonantVowelGrammar.cycle? = none ∧ consonantVowelGrammar.word.Ends (.ok "ti") := by
  have hcompile : consonantVowel.compile = .ok (some consonantVowelGrammar) := by rfl
  have hcycle : consonantVowelGrammar.cycle? = none := by rfl
  have hplain : ∀ r ∈ consonantVowelGrammar.rules,
      r.substitutions = [] ∧ r.exclusions = [] ∧ r.body ≠ .choice [] := by
    simp [consonantVowelGrammar]
  have hmatch : consonantVowelGrammar.match? (.choice [⟨.seq [.ref "C", .ref "V"], 1⟩]) "ti" =
      .ok (some [1, 1]) := by rfl
  refine ⟨hcompile, hcycle, ?_⟩
  rw [(ends_word_iff_match? hcompile rfl hcycle rfl ?_ "ti").1]
  · exact ⟨_, hmatch⟩
  · exact fun name _ r hrule => hplain r (Grammar.mem_rules_of_rule? hrule)

end Config

end WordGrammar

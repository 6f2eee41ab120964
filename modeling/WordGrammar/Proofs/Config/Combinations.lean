import WordGrammar.Proofs.Config.Compile
import WordGrammar.Proofs.Generation.Count
import WordGrammar.Proofs.Grammar.Cycle
import WordGrammar.Proofs.Grammar.Saturation
import WordGrammar.Proofs.Matcher.Language

namespace WordGrammar

open Relation

/-- A rule that has been read can be counted. -/
theorem Rule.Legible.countable {r : Rule Float} (hlegible : r.Legible) : r.Countable where
  captures := hlegible.not_contains_capture (List.mem_append_left _ (List.mem_cons_self ..))
  bounds _ _ _ :=
    hlegible.bounds_of_contains (List.mem_append_left _ (List.mem_cons_self ..))

/-- Different texts that the body of the root matches are no more than the derivations of the root,
    where no circle can be reached. -/
theorem Grammar.length_le_of_match? {W : Type} {g : Grammar W} (hresolved : g.Resolved)
    (hbodies : g.CaptureFree) {root : Rule W} (hroot : g.rule? g.root = some root)
    (hacyclic : ¬ g.CycleBelow g.root) {n : Nat} (hcount : g.Counts (.ref g.root) n)
    {texts : List String} (hnodup : texts.Nodup)
    (htexts : ∀ w ∈ texts, ∃ lengths, g.match? root.body w = .ok (some lengths)) :
    texts.length ≤ n := by
  have hnodup' : (texts.map String.toList).Nodup :=
    hnodup.map fun v w heq => String.toList_inj.mp heq
  have hmem : ∀ s ∈ texts.map String.toList, s ∈ g.language (.ref g.root) := by
    intro s hs
    obtain ⟨w, hw, rfl⟩ := List.mem_map.mp hs
    exact (exists_match?_iff hresolved hbodies hroot hacyclic w).mp (htexts w hw)
  simpa using hcount.language_atMost.length_le hnodup' hmem

namespace Config

/-- Different texts that the body of the root of a compiled grammar matches are no more than its
    count, unless this is saturated, where no circle can be reached. So these texts are finitely
    many, and none is matched where the count is zero. -/
theorem matched_le_combinations {c : Config} {g : Grammar Float}
    (hcompile : c.compile = .ok (some g)) {root : Rule Float} (hroot : g.rule? g.root = some root)
    (hcycle : g.cycle? = none) :
    ∃ count, g.combinations = .ok count ∧
      (∀ texts : List String, texts.Nodup →
        (∀ w ∈ texts, ∃ lengths, g.match? root.body w = .ok (some lengths)) →
        texts.length ≤ count ∨ count = 2 ^ 128 - 1) ∧
      Set.Finite {w : String | ∃ lengths, g.match? root.body w = .ok (some lengths)} ∧
      (count = 0 → ∀ w, g.match? root.body w = .ok none) := by
  obtain ⟨hlegible, -⟩ := checks_of_compile hcompile
  have hwf := wellFormed_of_compile hcompile
  have hacyclic := Grammar.not_cycleBelow_of_cycle? hcycle
  have hcountable : ∀ name, ReflTransGen g.Refers g.root name → ∀ r, g.rule? name = some r →
      r.Countable :=
    fun _ _ r hrule => (hlegible r (Grammar.mem_rules_of_rule? hrule)).countable
  obtain ⟨n, hcount, hcombinations⟩ :=
    Grammar.exists_counts_combinations hwf.resolved (Grammar.hasRule_iff.mpr ⟨root, hroot⟩) hcycle
      hcountable
  have hmatched : ∀ w, (∃ lengths, g.match? root.body w = .ok (some lengths)) ↔
      w.toList ∈ g.language (.ref g.root) :=
    Grammar.exists_match?_iff hwf.resolved hwf.captureFree hroot hacyclic
  refine ⟨_, hcombinations, fun texts hnodup htexts => ?_, ?_, fun hzero w => ?_⟩
  · have hlength := Grammar.length_le_of_match? hwf.resolved hwf.captureFree hroot hacyclic hcount
      hnodup htexts
    unfold Combinations.capped Combinations.ceiling
    omega
  · simp only [hmatched]
    exact hcount.language_atMost.finite.preimage fun v _ w _ heq => String.toList_inj.mp heq
  · have hnone : n = 0 := by
      unfold Combinations.capped Combinations.ceiling at hzero
      omega
    rw [hnone] at hcount
    obtain ⟨answer, hanswer⟩ :=
      Grammar.exists_answer_of_rule hwf.resolved hwf.captureFree hroot hacyclic w
    cases answer with
    | none => exact hanswer
    | some lengths =>
      exact (hcount.language_atMost.not_mem_of_zero _ ((hmatched w).mp ⟨lengths, hanswer⟩)).elim

/-- Words of up to two vowels, or of one and an `a`, so that some can be made in two ways. -/
def vocalic : Config where
  rules := [.terminal "V" ["a", "i"], .plain "W" ["V\x7b:2\x7d", "V.'a'"]]
  root := some "W"
  enableWeights := false

/-- What these words are compiled to. -/
def vocalicGrammar : Grammar Float where
  rules := [
    ⟨"V", .choice [⟨.atom "a", 1⟩, ⟨.atom "i", 1⟩], [], []⟩,
    ⟨"W", .choice [⟨.repeated (.ref "V") 0 2, 1⟩, ⟨.seq [.ref "V", .atom "a"], 1⟩], [], []⟩]
  root := "W"
  useWeights := false

theorem matched_le_combinations_vocalic :
    vocalic.compile = .ok (some vocalicGrammar) ∧ vocalicGrammar.cycle? = none ∧
      vocalicGrammar.combinations = .ok 9 ∧ ["", "a", "ia"].length ≤ 9 ∧
      Set.Finite {w | ∃ lengths, vocalicGrammar.match?
        (.choice [⟨.repeated (.ref "V") 0 2, 1⟩, ⟨.seq [.ref "V", .atom "a"], 1⟩]) w =
          .ok (some lengths)} := by
  have hcompile : vocalic.compile = .ok (some vocalicGrammar) := by rfl
  have hcycle : vocalicGrammar.cycle? = none := by rfl
  have hcombinations : vocalicGrammar.combinations = .ok 9 := by rfl
  obtain ⟨count, hcount, hlength, hfinite, -⟩ := matched_le_combinations hcompile rfl hcycle
  rw [hcombinations] at hcount
  cases hcount
  have hbound := hlength ["", "a", "ia"] (by decide)
  simp only [List.forall_mem_cons] at hbound
  have hlist := hbound ⟨⟨[], rfl⟩, ⟨[1], rfl⟩, ⟨[1, 1], rfl⟩, nofun⟩
  exact ⟨hcompile, hcycle, hcombinations, by omega, hfinite⟩

/-- Different words of a compiled grammar are no more than its count, unless this is saturated,
    where no circle can be reached, and the rules that can be reached have at least one pattern and
    only replacements that are settled by what is captured. Another replacement may split a word
    into several, and a rule without patterns makes the empty word, neither of which is counted. -/
theorem length_le_combinations {c : Config} {g : Grammar Float}
    (hcompile : c.compile = .ok (some g)) (hroot : g.hasRule g.root = true)
    (hcycle : g.cycle? = none)
    (hrules : ∀ name, ReflTransGen g.Refers g.root name → ∀ r, g.rule? name = some r →
      r.body ≠ .choice [] ∧ ∀ s ∈ r.substitutions, s.replacement.Settled)
    {words : List String} (hnodup : words.Nodup)
    (hwords : ∀ w ∈ words, ∃ source run,
      g.word.run? source = some run ∧ run.outcome = .ok w) :
    ∃ count, g.combinations = .ok count ∧ (words.length ≤ count ∨ count = 2 ^ 128 - 1) := by
  obtain ⟨hlegible, -⟩ := checks_of_compile hcompile
  have hresolved := (wellFormed_of_compile hcompile).resolved
  have hcountable : ∀ name, ReflTransGen g.Refers g.root name → ∀ r, g.rule? name = some r →
      r.Countable :=
    fun _ _ r hrule => (hlegible r (Grammar.mem_rules_of_rule? hrule)).countable
  have hmerging : ∀ name, ReflTransGen g.Refers g.root name → ∀ r, g.rule? name = some r →
      r.Merging := by
    intro name hreach r hrule
    obtain ⟨hbody, hsettled⟩ := hrules name hreach r hrule
    have hr := hlegible r (Grammar.mem_rules_of_rule? hrule)
    exact ⟨hsettled, hr.not_contains_empty hbody⟩
  obtain ⟨n, hcount, hcombinations⟩ :=
    Grammar.exists_counts_combinations hresolved hroot hcycle hcountable
  have hlength : words.length ≤ n := by
    refine Grammar.length_le_of_ends_word hcount hmerging hnodup fun w hmem => ?_
    obtain ⟨source, run, hrun, houtcome⟩ := hwords w hmem
    rw [← houtcome]
    exact Sampler.ends_of_run? hrun
  refine ⟨_, hcombinations, ?_⟩
  unfold Combinations.capped Combinations.ceiling
  omega

/-- Syllables in which `t` becomes `s` before `i`, where no word begins with `i`. -/
def assibilation : Config where
  rules := [
    .terminal "V" ["a", "i"],
    ((RuleDef.plain "W" ["'t'.V", "'s'.V", "V"]).substitute "'t'.'i'" "'s'.#1#").exclude "'i'{2}"]
  root := some "W"
  enableWeights := false

/-- What these syllables are compiled to. -/
def assibilationGrammar : Grammar Float where
  rules := [
    ⟨"V", .choice [⟨.atom "a", 1⟩, ⟨.atom "i", 1⟩], [], []⟩,
    ⟨"W", .choice [⟨.seq [.atom "t", .ref "V"], 1⟩, ⟨.seq [.atom "s", .ref "V"], 1⟩, ⟨.ref "V", 1⟩],
      [.repeated (.atom "i") 2 2],
      [⟨.seq [.atom "t", .atom "i"], .seq [.atom "s", .capture 1]⟩]⟩]
  root := "W"
  useWeights := false

theorem length_le_combinations_assibilation :
    assibilation.compile = .ok (some assibilationGrammar) ∧
      assibilationGrammar.hasRule assibilationGrammar.root = true ∧
      assibilationGrammar.cycle? = none ∧
      (∀ r ∈ assibilationGrammar.rules,
        r.body ≠ .choice [] ∧ ∀ s ∈ r.substitutions, s.replacement.Settled) ∧
      assibilationGrammar.combinations = .ok 6 ∧ ["ta", "si"].length ≤ 6 := by
  have hcompile : assibilation.compile = .ok (some assibilationGrammar) := by rfl
  have hroot : assibilationGrammar.hasRule assibilationGrammar.root = true := by rfl
  have hcycle : assibilationGrammar.cycle? = none := by rfl
  have hsettled : (Expr.seq [.atom "s", .capture 1] : Expr Float).Settled :=
    ⟨by simp, by simp, by simp⟩
  have hrules : ∀ r ∈ assibilationGrammar.rules,
      r.body ≠ .choice [] ∧ ∀ s ∈ r.substitutions, s.replacement.Settled := by
    simp [assibilationGrammar, hsettled]
  have hwords : ∀ w ∈ ["ta", "si"], ∃ source run,
      assibilationGrammar.word.run? source = some run ∧ run.outcome = .ok w := by
    simp only [List.forall_mem_cons]
    refine ⟨⟨⟨[0, 0], 0, 0⟩, ?_⟩, ⟨⟨[0, 0x8000000000000000], 0, 0⟩, ?_⟩, nofun⟩
    · exact Option.map_eq_some_iff.mp (by cbv)
    · exact Option.map_eq_some_iff.mp (by cbv)
  have hcombinations : assibilationGrammar.combinations = .ok 6 := by rfl
  obtain ⟨count, hcount, hlength⟩ := length_le_combinations hcompile hroot hcycle
    (fun _ _ r hrule => hrules r (Grammar.mem_rules_of_rule? hrule)) (by decide) hwords
  rw [hcombinations] at hcount
  cases hcount
  exact ⟨hcompile, hroot, hcycle, hrules, hcombinations, by omega⟩

/-- The one word `a`, which is made into either `b` or `c`. -/
def recast : Config where
  rules := [(RuleDef.plain "W" ["'a'"]).substitute "'a'" "'b' / 'c'"]
  root := some "W"
  enableWeights := false

/-- What this is compiled to. -/
def recastGrammar : Grammar Float where
  rules := [
    ⟨"W", .choice [⟨.atom "a", 1⟩], [],
      [⟨.atom "a", .choice [⟨.atom "b", 1⟩, ⟨.atom "c", 1⟩]⟩]⟩]
  root := "W"
  useWeights := false

/-- Replacements that are not settled make more words than are counted. -/
theorem recast_outnumbers_combinations :
    recast.compile = .ok (some recastGrammar) ∧
      recastGrammar.hasRule recastGrammar.root = true ∧ recastGrammar.cycle? = none ∧
      recastGrammar.combinations = .ok 1 ∧ ["b", "c"].Nodup ∧
      ∀ w ∈ ["b", "c"], ∃ source run,
        recastGrammar.word.run? source = some run ∧ run.outcome = .ok w := by
  refine ⟨rfl, rfl, rfl, rfl, by decide, ?_⟩
  simp only [List.forall_mem_cons]
  refine ⟨⟨⟨[0, 0], 0, 0⟩, ?_⟩, ⟨⟨[0, 0x8000000000000000], 0, 0⟩, ?_⟩, nofun⟩
  · exact Option.map_eq_some_iff.mp (by cbv)
  · exact Option.map_eq_some_iff.mp (by cbv)

end Config

end WordGrammar

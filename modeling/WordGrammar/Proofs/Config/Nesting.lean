import WordGrammar.Proofs.Config.Compile
import WordGrammar.Proofs.Generation.Nesting

namespace WordGrammar.Config

/-- A word of a compiled grammar, where no circle can be reached through what is expanded, never
    enters a rule that is under way, whatever would be done if it did, and has no use for more rules
    under way than there are. Where no circle can be reached through what is matched either, every
    run ends with a word or with an error, and none is at fault. -/
theorem never_reenters {c : Config} {g : Grammar Float} (hcompile : c.compile = .ok (some g))
    (hcycle : (g.through Rule.expanded).cycle? = none) :
    (∀ refuse depth, g.guardedWord refuse depth [] g.root = g.ruleWord depth g.root) ∧
    (∀ depth, g.rules.length ≤ depth →
      g.ruleWord depth g.root = g.ruleWord g.rules.length g.root) ∧
    ((g.through Rule.expressions).cycle? = none →
      ∀ source run, g.word.run? source = some run →
        (∃ w, run.outcome = .ok w) ∨ ∃ error, run.outcome = .error (.failed error)) := by
  have hwf := wellFormed_of_compile hcompile
  have hacyclic := Grammar.not_cycleBelow_of_cycle? hcycle
  refine ⟨fun refuse depth => ?_, fun depth hle => ?_, fun hall source run hrun => ?_⟩
  · exact Grammar.guardedWord_eq refuse depth nofun hacyclic
  · cases hroot : g.hasRule g.root with
    | true =>
      have hshallow := Grammar.shallow_through hwf.resolved Rule.expanded_subset hroot hacyclic
      exact hshallow.ruleWord_eq hle
    | false =>
      have hrule : g.rule? g.root = none :=
        Option.not_isSome_iff_eq_none.mp (Bool.eq_false_iff.mp hroot)
      have hstop : ∀ depth, g.ruleWord depth g.root = .stop (.faulted (.unknownRule g.root)) := by
        intro depth
        cases depth with
        | zero => simp [Grammar.ruleWord, hroot]
        | succ depth => simp only [Grammar.ruleWord, hrule]
      rw [hstop, hstop]
  · have hraises := hwf.word_raises_of_acyclic (Grammar.not_cycleBelow_of_cycle? hall)
    have hends := Sampler.ends_of_run? hrun
    cases houtcome : run.outcome with
    | ok w => exact .inl ⟨w, rfl⟩
    | error why =>
      rw [houtcome] at hends
      cases why with
      | failed error => exact .inr ⟨error, rfl⟩
      | faulted fault => exact (hraises fault hends).elim

/-- Words whose placeholder is filled by another rule. -/
def filled : Config where
  rules := [
    .terminal "C" ["p", "t"],
    ((RuleDef.plain "W" ["'x'.'a'", "C.'i'"]).substitute "'x'" "C").exclude "C.'u'"]
  root := some "W"
  enableWeights := false

/-- What these words are compiled to. -/
def filledGrammar : Grammar Float where
  rules := [
    ⟨"C", .choice [⟨.atom "p", 1⟩, ⟨.atom "t", 1⟩], [], []⟩,
    ⟨"W", .choice [⟨.seq [.atom "x", .atom "a"], 1⟩, ⟨.seq [.ref "C", .atom "i"], 1⟩],
      [.seq [.ref "C", .atom "u"]], [⟨.atom "x", .ref "C"⟩]⟩]
  root := "W"
  useWeights := false

theorem never_reenters_filled :
    filled.compile = .ok (some filledGrammar) ∧
      (filledGrammar.through Rule.expanded).cycle? = none ∧
      (filledGrammar.through Rule.expressions).cycle? = none ∧
      (∀ refuse depth, filledGrammar.guardedWord refuse depth [] "W" =
        filledGrammar.ruleWord depth "W") ∧
      ∀ source run, filledGrammar.word.run? source = some run →
        (∃ w, run.outcome = .ok w) ∨ ∃ error, run.outcome = .error (.failed error) := by
  have hcompile : filled.compile = .ok (some filledGrammar) := by rfl
  have hcycle : (filledGrammar.through Rule.expanded).cycle? = none := by rfl
  have hall : (filledGrammar.through Rule.expressions).cycle? = none := by rfl
  obtain ⟨hguarded, -, hruns⟩ := never_reenters hcompile hcycle
  exact ⟨hcompile, hcycle, hall, hguarded, hruns hall⟩

/-- Words that are made anew as long as they are `a`. -/
def renewed : Config where
  rules := [(RuleDef.plain "W" ["'a'", "'b'"]).substitute "'a'" "W"]
  root := some "W"
  enableWeights := false

/-- What this is compiled to. -/
def renewedGrammar : Grammar Float where
  rules := [
    ⟨"W", .choice [⟨.atom "a", 1⟩, ⟨.atom "b", 1⟩], [], [⟨.atom "a", .ref "W"⟩]⟩]
  root := "W"
  useWeights := false

/-- Through a replacement, a rule may be entered while it is under way, however often, and the
    search that keeps to bodies does not find that out. -/
theorem renewed_reenters :
    renewed.compile = .ok (some renewedGrammar) ∧ renewedGrammar.cycle? = none ∧
      (renewedGrammar.through Rule.expanded).cycle? = some ["W"] ∧
      (∃ refuse depth, renewedGrammar.guardedWord refuse depth [] renewedGrammar.root ≠
        renewedGrammar.ruleWord depth renewedGrammar.root) ∧
      ∀ depth, (renewedGrammar.ruleWord depth renewedGrammar.root).Ends
        (.error (.faulted .endlessNesting)) := by
  refine ⟨rfl, rfl, rfl, ⟨fun _ => .done ['c'], 1, fun heq => ?_⟩, fun depth => ?_⟩
  · have hguarded : ((renewedGrammar.guardedWord (fun _ => .done ['c']) 1 []
        renewedGrammar.root).run? ⟨[0], 0, 0⟩).map (·.outcome) = some (.ok ['c']) := by cbv
    have hplain : ((renewedGrammar.ruleWord 1 renewedGrammar.root).run? ⟨[0], 0, 0⟩).map
        (·.outcome) = some (.error (.faulted .endlessNesting)) := by cbv
    rw [heq, hplain] at hguarded
    cases hguarded
  · induction depth with
    | zero => exact .stop _
    | succ depth ih =>
      have hbody : Sampler.Ends ((Expr.choice [⟨.atom "a", 1⟩, ⟨.atom "b", 1⟩] : Expr Float).expand
          (renewedGrammar.ruleWord depth) false none) (.ok ['a']) :=
        .draw (0 : Fin 2) (.done _)
      have hhit : (renewedGrammar.matcher (.atom "a")).hit? ['a'] = .ok (some ⟨0, [1]⟩) := by rfl
      have hsubstitute : (renewedGrammar.substituteFrom (renewedGrammar.ruleWord depth) "W"
          ⟨.atom "a", .ref "W"⟩ ['a'] 0).Ends (.error (.faulted .endlessNesting)) := by
        rw [Grammar.substituteFrom, if_pos (by decide), List.drop_zero, hhit]
        exact Sampler.ends_bind_error.mpr (.inl ih)
      refine Sampler.ends_bind_error.mpr (.inl ?_)
      refine Sampler.ends_bind_error.mpr (.inr ⟨_, hbody, ?_⟩)
      exact Sampler.ends_bind_error.mpr (.inl hsubstitute)

end WordGrammar.Config

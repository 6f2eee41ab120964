import WordGrammar.Proofs.Generation.Fault
import WordGrammar.Proofs.Grammar.Combinations
import WordGrammar.Proofs.Grammar.Cycle
import WordGrammar.Proofs.Grammar.WellFormed
import WordGrammar.Proofs.Matcher.Occurrence

namespace WordGrammar.Grammar.WellFormed

variable {W : Type} {g : Grammar W} {usable : W → Prop} {e : Expr W}

section Matching

theorem matcher_raises (hwf : g.WellFormed usable)
    (hcaptures : ∀ index, ¬ e.Contains (.capture index))
    (hrefs : ∀ name, e.Contains (.ref name) → g.hasRule name = true) :
    (g.matcher e).Raises (· = .endlessNesting) := by
  intro s fault herror
  have hraises : (e.matcher (g.ruleMatcher (g.nestingBound s.length))).Raises
      (· = .endlessNesting) := by
    refine e.matcher_raises (fun name hname => ?_) fun index hindex => ?_
    · exact ruleMatcher_raises hwf.resolved hwf.captureFree _
        (hrefs name (Expr.mem_references_iff.mp hname))
    · exact (hcaptures index hindex).elim
  exact hraises s fault herror

theorem pattern_raises (hwf : g.WellFormed usable) {r : Rule W} (hmem : r ∈ g.rules)
    (he : e ∈ r.patterns) : (g.matcher e).Raises (· = .endlessNesting) := by
  apply hwf.matcher_raises (hwf.captures r hmem e he)
  exact hwf.references r hmem e (List.mem_append_left _ he)

theorem exclusion_raises (hwf : g.WellFormed usable) {r : Rule W} (hmem : r ∈ g.rules)
    (he : e ∈ r.exclusions) : (g.matcher e).Raises (· = .endlessNesting) := by
  apply hwf.pattern_raises hmem
  exact List.mem_cons_of_mem _ (List.mem_append_left _ he)

end Matching

section Counting

/-- Where the search for a circle has found none, counting is not at fault. -/
theorem combinations_ne_fault (hwf : g.WellFormed usable) (hcycle : g.cycle? = none)
    (fault : Fault) : g.combinations ≠ .error (.faulted fault) := by
  intro herror
  unfold combinations at herror
  split at herror
  · rename_i hroot
    have hshallow := shallow_of_acyclic hwf.resolved hroot (not_cycleBelow_of_cycle? hcycle)
    have hbounds : ∀ r ∈ g.rules, ∀ body least most,
        r.body.Contains (.repeated body least most) → least ≤ most := by
      intro r hmem
      exact hwf.bounds r hmem r.body (List.mem_append_left _ (List.mem_cons_self ..))
    have hraises :=
      Shallow.tally_raises hwf.resolved hwf.captureFree hbounds hroot hshallow.succ
    split at herror
    · cases herror
    · rename_i why htally
      exact hraises [] why htally
  · cases herror

end Counting

section Generating

variable [Weight W]

/-- Expanding an expression of a rule, with captures if it is a replacement. These do not leak: the
    rules that it refers to are expanded without any. -/
theorem expand_raises (hwf : g.WellFormed usable) {r : Rule W} (hmem : r ∈ g.rules)
    (he : e ∈ r.expressions) {captures : Option (List (List Char))}
    (hcaptures : captures = none → e ∈ r.patterns) {rule : String → Sampler (List Char)}
    {F : Fault → Prop} (hrule : ∀ name, e.Contains (.ref name) → (rule name).Raises F) :
    (e.expand rule g.useWeights captures).Raises F := by
  refine e.expand_raises hrule ?_ (hwf.bounds r hmem e he)
  intro index hindex hnone
  exact hwf.captures r hmem e (hcaptures hnone) index hindex

/-- A rule tries for words with no other faults than those of matching its patterns, and those of
    the rules that its expansion enters. -/
theorem tryWord_raises (hwf : g.WellFormed usable) {r : Rule W} (hmem : r ∈ g.rules)
    {rule : String → Sampler (List Char)} {F : Fault → Prop}
    (hrule : ∀ e ∈ r.expanded, ∀ name, e.Contains (.ref name) → (rule name).Raises F)
    (hpatterns : ∀ e ∈ r.patterns, (g.matcher e).Raises F) (left : Nat) :
    (g.tryWord rule r left).Raises F := by
  have hbody : (r.body.expand rule g.useWeights none).Raises F := by
    have hpattern : r.body ∈ r.patterns := List.mem_cons_self ..
    exact hwf.expand_raises hmem (r.patterns_subset hpattern) (fun _ => hpattern)
      (hrule _ (List.mem_cons_self ..))
  have hreplacements : ∀ s ∈ r.substitutions, ∀ texts,
      (s.replacement.expand rule g.useWeights (some texts)).Raises F := by
    intro s hs texts
    -- Captures may stand here, and here alone, because a match has just been made.
    have hreplacement : s.replacement ∈ r.expanded :=
      List.mem_cons_of_mem _ (List.mem_map_of_mem hs)
    have hcaptured : some texts = none → s.replacement ∈ r.patterns := nofun
    exact hwf.expand_raises hmem (r.expanded_subset hreplacement) hcaptured (hrule _ hreplacement)
  have htargets : ∀ s ∈ r.substitutions, (g.matcher s.target).Raises F := by
    intro s hs
    apply hpatterns
    exact List.mem_cons_of_mem _ (List.mem_append_right _ (List.mem_map_of_mem hs))
  have hattempt : (g.attempt rule r).Raises F :=
    hbody.bind fun text _ => substituteAll_raises htargets hreplacements text
  refine Grammar.tryWord_raises hattempt (fun e he => hpatterns e ?_) left
  exact List.mem_cons_of_mem _ (List.mem_append_left _ he)

/-- Nothing but endless nesting keeps a rule from trying for words, however many rules may be under
    way. -/
theorem ruleWord_raises (hwf : g.WellFormed usable) (depth : Nat) {name : String}
    (hname : g.hasRule name = true) : (g.ruleWord depth name).Raises (· = .endlessNesting) := by
  induction depth generalizing name with
  | zero =>
    rw [ruleWord, if_pos hname]
    exact .faulted rfl
  | succ depth ih =>
    obtain ⟨r, hrule⟩ := hasRule_iff.mp hname
    have hmem := mem_rules_of_rule? hrule
    simp only [ruleWord, hrule]
    refine hwf.tryWord_raises hmem ?_ (fun e => hwf.pattern_raises hmem) maxAttempts
    exact fun e he next hnext => ih (hwf.references r hmem e (r.expanded_subset he) next hnext)

theorem word_raises (hwf : g.WellFormed usable) : g.word.Raises (· = .endlessNesting) := by
  unfold word
  split
  · rename_i hroot
    exact (hwf.ruleWord_raises _ hroot).bind fun text _ => .done _
  · exact .failed _

theorem words?_stopped (hwf : g.WellFormed usable) {count : Nat} {source : Source} {batch : Batch}
    (hbatch : g.words? count source = some batch) {fault : Fault}
    (hstopped : batch.stopped = some (.faulted fault)) : fault = .endlessNesting := by
  induction count generalizing source batch with
  | zero =>
    cases hbatch
    cases hstopped
  | succ count ih =>
    rw [words?] at hbatch
    split at hbatch
    · cases hbatch
    · rename_i why source' events hrun
      cases hbatch
      cases hstopped
      exact hwf.word_raises fault (Sampler.ends_of_run? hrun)
    · obtain ⟨rest, hrest, hword⟩ := Option.map_eq_some_iff.mp hbatch
      rw [← hword] at hstopped
      exact ih hrest hstopped

/-- A batch is stopped by a fault only where references nest without end, or before it begins. -/
theorem batch?_stopped (hwf : g.WellFormed usable) {count : Nat} {source : Source} {batch : Batch}
    (hbatch : g.batch? count source = some batch) {fault : Fault}
    (hstopped : batch.stopped = some (.faulted fault)) :
    fault = .endlessNesting ∨ fault = .batchTooLarge ∧ Batch.largest < count := by
  unfold batch? at hbatch
  split at hbatch
  · exact .inl (hwf.words?_stopped hbatch hstopped)
  · rename_i hlarge
    cases hbatch
    cases hstopped
    exact .inr ⟨rfl, Nat.not_le.mp hlarge⟩

end Generating

end WordGrammar.Grammar.WellFormed

import WordGrammar.Generation.Batch
import WordGrammar.Proofs.Grammar.Unweighted
import WordGrammar.Proofs.Generation.Calls

namespace WordGrammar

variable {W W' : Type} [Weight W] [Weight W']

/-- No weights: they are all alike. -/
instance : Weight Unit where
  zero := ()
  add _ _ := ()
  sub _ _ := ()
  mul _ _ := ()
  lt _ _ := false
  fraction _ := ()

/-- Where weights are not used, a position depends on nothing but how many there are. -/
theorem Sampler.position_unused {weights : List W} {weights' : List W'}
    (hlength : weights.length = weights'.length) :
    position false weights = position false weights' := by
  simp only [position, Bool.false_eq_true, if_false]
  rw [hlength]

namespace Expr

variable {rule : String → Sampler (List Char)} {captures : Option (List (List Char))}

/-- Items that expand alike one by one expand alike in turn. -/
theorem expandItems_map {useWeights : Bool} {f : Expr W → Expr W'} {items : List (Expr W)}
    (hitems : ∀ item ∈ items,
      (f item).expand rule useWeights captures = item.expand rule useWeights captures)
    (text : List Char) :
    expandItems rule useWeights captures text (items.map f) =
      expandItems rule useWeights captures text items := by
  induction items generalizing text with
  | nil => rfl
  | cons item items ih =>
    obtain ⟨hitem, hrest⟩ := List.forall_mem_cons.mp hitems
    simp only [List.map_cons, expandItems, hitem, ih hrest]

theorem expandAlternative_unweighted {alternatives : List (Weighted W (Expr W))}
    (halternatives : ∀ a ∈ alternatives,
      a.item.unweighted.expand rule false captures = a.item.expand rule false captures)
    (k : Nat) :
    expandAlternative rule false captures k
        (alternatives.map fun a => ⟨a.item.unweighted, ()⟩) =
      expandAlternative rule false captures k alternatives := by
  induction alternatives generalizing k with
  | nil => rfl
  | cons a alternatives ih =>
    obtain ⟨ha, hrest⟩ := List.forall_mem_cons.mp halternatives
    cases k with
    | zero => exact ha
    | succ k => exact ih hrest k

/-- Expanding without the use of weights does not look at them. -/
theorem expand_unweighted (e : Expr W) :
    e.unweighted.expand rule false captures = e.expand rule false captures := by
  induction e with
  | atom text => rfl
  | ref name => rfl
  | capture index => rfl
  | seq items ih => rw [unweighted_seq, expand, expand, expandItems_map ih]
  | choice alternatives ih =>
    have hposition : Sampler.position false
          ((alternatives.map fun a => (⟨a.item.unweighted, ()⟩ : Weighted Unit _)).map
            (·.weight)) =
        Sampler.position false (alternatives.map (·.weight)) :=
      Sampler.position_unused (by simp only [List.length_map])
    rw [unweighted_choice, expand, expand, List.isEmpty_map, hposition]
    simp only [expandAlternative_unweighted ih]
  | repeated body least most ih => rw [unweighted, expand, expand, ih]

end Expr

namespace Grammar

variable {g : Grammar W}

/-- Without the use of weights, tries of a rule are what they are without weights. -/
theorem tryWord_unweighted (hunused : g.useWeights = false)
    (rule : String → Sampler (List Char)) (r : Rule W) (left : Nat) :
    g.unweighted.tryWord rule r.unweighted left = g.tryWord rule r left := by
  have hexpand (e : Expr W) (captures : Option (List (List Char))) :
      e.unweighted.expand rule g.unweighted.useWeights captures =
        e.expand rule g.useWeights captures := by
    rw [hunused]
    exact e.expand_unweighted
  have hsubstitutions : List.Forall₂ (ReplacesAlike g.unweighted g rule)
      r.unweighted.substitutions r.substitutions := by
    rw [Rule.unweighted, List.forall₂_map_left_iff, List.forall₂_same]
    intro s _
    exact ⟨g.matcher_unweighted s.target, fun texts => hexpand s.replacement (some texts)⟩
  have hattempt : g.unweighted.attempt rule r.unweighted = g.attempt rule r :=
    attempt_eq rfl (hexpand r.body none) hsubstitutions
  have hchecked (text : List Char) :
      g.unweighted.occursAny r.unweighted.exclusions text = g.occursAny r.exclusions text :=
    g.occursAny_unweighted r.exclusions text
  refine tryWord_eq ?_ hattempt hchecked left
  rfl

theorem ruleWord_unweighted (hunused : g.useWeights = false) (depth : Nat) :
    g.unweighted.ruleWord depth = g.ruleWord depth := by
  induction depth with
  | zero =>
    funext name
    rw [ruleWord, ruleWord, hasRule_unweighted]
  | succ depth ih =>
    funext name
    rw [ruleWord, ruleWord, rule?_unweighted, ih]
    cases g.rule? name with
    | none => rfl
    | some r => exact tryWord_unweighted hunused _ r _

theorem word_unweighted (hunused : g.useWeights = false) : g.unweighted.word = g.word := by
  have hlimit : g.unweighted.depthLimit = g.depthLimit := by
    rw [depthLimit, depthLimit, unweighted, List.length_map]
  have hroot : g.unweighted.root = g.root := rfl
  rw [word, word, hlimit, hroot, hasRule_unweighted, ruleWord_unweighted hunused]

/-- Words are made one after the other alike if one word is. -/
theorem batch?_eq_of_word {g' : Grammar W'} (hword : g.word = g'.word) (count : Nat)
    (source : Source) : g.batch? count source = g'.batch? count source := by
  have hwords : g.words? count source = g'.words? count source := by
    induction count generalizing source with
    | zero => rfl
    | succ count ih => simp only [words?, hword, ih]
  rw [batch?, batch?, hwords]

/-- Grammars that differ in weights only match the same with the same segments, exclude the same,
    have the same number of derivations, and the same circle is found in them. If the weights are
    not used, every run of the one is a run of the other: from the same source it takes the same
    values to come to the same end. -/
theorem eq_of_unweighted {g' : Grammar W'} (hsame : g.unweighted = g'.unweighted) :
    (∀ (e : Expr W) (e' : Expr W'), e.unweighted = e'.unweighted → ∀ text,
      g.match? e text = g'.match? e' text ∧ g.find? e text = g'.find? e' text) ∧
    (∀ (r : Rule W) (r' : Rule W'), r.unweighted = r'.unweighted → ∀ text,
      g.isExcluded r text = g'.isExcluded r' text) ∧
    g.combinations = g'.combinations ∧ g.cycle? = g'.cycle? ∧
    (g.useWeights = false → g'.useWeights = false → ∀ source,
      g.word.run? source = g'.word.run? source ∧
      ∀ count, g.batch? count source = g'.batch? count source) := by
  have hmatcher {e : Expr W} {e' : Expr W'} (he : e.unweighted = e'.unweighted) :
      g.matcher e = g'.matcher e' := by
    rw [← g.matcher_unweighted, ← g'.matcher_unweighted, hsame, he]
  refine ⟨fun e e' he text => ?_, fun r r' hr text => ?_, ?_, ?_, fun hunused hunused' source => ?_⟩
  · rw [match?, match?, find?, find?, hmatcher he]
    exact ⟨rfl, rfl⟩
  · have hexclusions : r.exclusions.map Expr.unweighted = r'.exclusions.map Expr.unweighted :=
      congrArg Rule.exclusions hr
    rw [isExcluded, isExcluded, ← g.occursAny_unweighted, ← g'.occursAny_unweighted, hsame,
      hexclusions]
  · rw [← g.combinations_unweighted, ← g'.combinations_unweighted, hsame]
  · rw [← g.cycle?_unweighted, ← g'.cycle?_unweighted, hsame]
  · have hword : g.word = g'.word := by
      rw [← word_unweighted hunused, ← word_unweighted hunused', hsame]
    exact ⟨by rw [hword], fun count => batch?_eq_of_word hword count source⟩

/-- Words of a consonant and a vowel, where the weights are those of every choice there is: in a
    body, an exclusion, a target and a replacement. -/
def weighed (v w : Float) : Grammar Float where
  rules := [
    ⟨"C", .choice [⟨.atom "t", v⟩, ⟨.atom "s", w⟩], [], []⟩,
    ⟨"W", .seq [.ref "C", .choice [⟨.atom "a", w⟩, ⟨.atom "i", v⟩]],
      [.choice [⟨.atom "sa", v⟩, ⟨.atom "as", w⟩]],
      [⟨.seq [.choice [⟨.atom "t", w⟩, ⟨.atom "d", v⟩], .atom "i"],
        .seq [.choice [⟨.capture 0, v⟩, ⟨.atom "ch", w⟩], .capture 1]⟩]⟩]
  root := "W"
  useWeights := false

theorem unweighted_weighed (v w v' w' : Float) :
    (weighed v w).unweighted = (weighed v' w').unweighted := rfl

theorem eq_of_unweighted_weighed :
    (weighed 1 3).unweighted = (weighed 0.5 1000).unweighted ∧
    (weighed 1 3).useWeights = false ∧
    (∀ text, (weighed 1 3).find? (.choice [⟨.ref "C", 2⟩, ⟨.atom "a", 5⟩]) text =
      (weighed 0.5 1000).find? (.choice [⟨.ref "C", 1⟩, ⟨.atom "a", 0⟩]) text) ∧
    (weighed 1 3).combinations = (weighed 0.5 1000).combinations ∧
    ∀ source, (weighed 1 3).word.run? source = (weighed 0.5 1000).word.run? source := by
  have hsame := unweighted_weighed 1 3 0.5 1000
  obtain ⟨hmatch, -, hcombinations, -, hruns⟩ := eq_of_unweighted hsame
  refine ⟨hsame, rfl, fun text => (hmatch _ _ ?_ text).2, hcombinations,
    fun source => (hruns rfl rfl source).1⟩
  simp only [Expr.unweighted_choice, List.map_cons, List.map_nil]

end Grammar

end WordGrammar

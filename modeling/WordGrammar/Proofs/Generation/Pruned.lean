import WordGrammar.Proofs.Double.Fair
import WordGrammar.Proofs.Generation.Unweighted
import WordGrammar.Proofs.Weight.Live

namespace WordGrammar

variable {W : Type} [Weight W]

namespace Expr

mutual

/-- The expression with only the live alternatives of each of its choices. -/
def pruned : Expr W → Expr W
  | .atom text => .atom text
  | .ref name => .ref name
  | .capture index => .capture index
  | .seq items => .seq (prunedItems items)
  | .choice alternatives => .choice (Weight.live (prunedAlternatives alternatives))
  | .repeated body least most => .repeated body.pruned least most

/-- Each item pruned. -/
def prunedItems : List (Expr W) → List (Expr W)
  | [] => []
  | item :: items => item.pruned :: prunedItems items

/-- Each alternative pruned, with its weight, none of them taken out. -/
def prunedAlternatives : List (Weighted W (Expr W)) → List (Weighted W (Expr W))
  | [] => []
  | ⟨item, weight⟩ :: alternatives => ⟨item.pruned, weight⟩ :: prunedAlternatives alternatives

end

@[simp] theorem pruned_seq (items : List (Expr W)) :
    (seq items).pruned = .seq (items.map pruned) := by
  have hitems : prunedItems items = items.map pruned := by
    induction items with
    | nil => rfl
    | cons item items ih => rw [prunedItems, ih, List.map_cons]
  rw [pruned, hitems]

/-- An alternative pruned, with its weight. -/
def prunedAlternative (a : Weighted W (Expr W)) : Weighted W (Expr W) :=
  ⟨a.item.pruned, a.weight⟩

@[simp] theorem pruned_choice (alternatives : List (Weighted W (Expr W))) :
    (choice alternatives).pruned = .choice ((Weight.live alternatives).map prunedAlternative) := by
  have halternatives : prunedAlternatives alternatives = alternatives.map prunedAlternative := by
    induction alternatives with
    | nil => rfl
    | cons a alternatives ih =>
      rw [prunedAlternatives, ih, List.map_cons]
      rfl
  have hlive : Weight.live (alternatives.map prunedAlternative) =
      (Weight.live alternatives).map prunedAlternative :=
    Weight.live_map (f := prunedAlternative) (fun _ => rfl) alternatives
  rw [pruned, halternatives, hlive]

section Expansion

variable {usable fair : W → Prop} {rule : String → Sampler (List Char)}
  {captures : Option (List (List Char))}

/-- Choices expand alike that select alternatives which do. -/
theorem expand_choice_congr {these those : List (Weighted W (Expr W))} (hthese : these ≠ [])
    (hthose : those ≠ [])
    (halike : ∀ share : Share,
      (these[Weight.select (Weight.fraction share) (these.map (·.weight))]?).map
          (·.item.expand rule true captures) =
        (those[Weight.select (Weight.fraction share) (those.map (·.weight))]?).map
          (·.item.expand rule true captures)) :
    (choice these).expand rule true captures = (choice those).expand rule true captures := by
  rw [expand_choice_weighted hthese, expand_choice_weighted hthose]
  congr 1
  funext share
  have hselected := halike share
  rw [List.getElem?_eq_getElem (Weight.select_lt_length _ hthese),
    List.getElem?_eq_getElem (Weight.select_lt_length _ hthose)] at hselected
  exact Option.some.inj hselected

/-- Expanding with weights in use makes the same draws of a pruned expression, and the same text. -/
theorem expand_pruned (hlawful : Weight.Lawful usable fair) (e : Expr W)
    (husable : ∀ alternatives, e.Contains (.choice alternatives) →
      ∀ a ∈ alternatives, usable a.weight) :
    e.pruned.expand rule true captures = e.expand rule true captures := by
  induction e with
  | atom text => rfl
  | ref name => rfl
  | capture index => rfl
  | seq items ih =>
    have hitems : ∀ item ∈ items,
        item.pruned.expand rule true captures = item.expand rule true captures := by
      intro item hmem
      exact ih item hmem fun others hothers => husable others (.item hmem hothers)
    rw [pruned_seq, expand, expand, expandItems_map hitems]
  | choice alternatives ih =>
    rw [pruned_choice]
    by_cases hne : alternatives = []
    · rw [hne]
      rfl
    · have hlive : (Weight.live alternatives).map prunedAlternative ≠ [] :=
        mt (List.map_eq_nil_iff.trans Weight.live_eq_nil_iff).mp hne
      have hweights : ((Weight.live alternatives).map prunedAlternative).map (·.weight) =
          (Weight.live alternatives).map (·.weight) := List.map_map ..
      refine expand_choice_congr hlive hne fun share => ?_
      rw [hweights, List.getElem?_map, Option.map_map,
        Weight.getElem?_select_live hlawful (husable alternatives (.self _))]
      refine Option.map_congr fun a ha => ?_
      have hmem := List.mem_of_getElem? ha
      exact ih a hmem fun others hothers => husable others (.alternative hmem hothers)
  | repeated body least most ih =>
    rw [pruned, expand, expand, ih fun others hothers => husable others (.body hothers)]

end Expansion

end Expr

/-- The rule with its body pruned. -/
def Rule.pruned (r : Rule W) : Rule W := { r with body := r.body.pruned }

namespace Grammar

/-- The grammar with the bodies of its rules pruned. -/
def pruned (g : Grammar W) : Grammar W := { g with rules := g.rules.map Rule.pruned }

/-- The weights that the bodies of the rules give to alternatives are among the usable ones. -/
def HasWeights (g : Grammar W) (usable : W → Prop) : Prop :=
  ∀ r ∈ g.rules, ∀ alternatives, r.body.Contains (.choice alternatives) →
    ∀ a ∈ alternatives, usable a.weight

/-- No rule substitutes or excludes anything. -/
def Plain (g : Grammar W) : Prop :=
  ∀ r ∈ g.rules, r.substitutions = [] ∧ r.exclusions = []

variable {g : Grammar W} {usable fair : W → Prop}

theorem rule?_pruned (name : String) : g.pruned.rule? name = (g.rule? name).map Rule.pruned := by
  unfold rule? pruned
  rw [List.find?_map]
  rfl

theorem hasRule_pruned (name : String) : g.pruned.hasRule name = g.hasRule name := by
  rw [hasRule, hasRule, rule?_pruned, Option.isSome_map]

theorem ruleWord_pruned (hlawful : Weight.Lawful usable fair) (hused : g.useWeights = true)
    (hplain : g.Plain) (husable : g.HasWeights usable) (depth : Nat) :
    g.pruned.ruleWord depth = g.ruleWord depth := by
  induction depth with
  | zero =>
    funext name
    rw [ruleWord, ruleWord, hasRule_pruned]
  | succ depth ih =>
    funext name
    rw [ruleWord, ruleWord, rule?_pruned, ih]
    cases hrule : g.rule? name with
    | none => rfl
    | some r =>
      have hmem := mem_rules_of_rule? hrule
      obtain ⟨hsubstitutions, hexclusions⟩ := hplain r hmem
      have hbody : r.pruned.body.expand (g.ruleWord depth) g.pruned.useWeights none =
          r.body.expand (g.ruleWord depth) g.useWeights none := by
        have hused' : g.pruned.useWeights = true := hused
        rw [hused', hused]
        exact r.body.expand_pruned hlawful (husable r hmem)
      have hattempt : g.pruned.attempt (g.ruleWord depth) r.pruned =
          g.attempt (g.ruleWord depth) r := by
        refine attempt_eq rfl hbody ?_
        rw [Rule.pruned, hsubstitutions]
        exact .nil
      have hchecked (text : List Char) :
          g.pruned.occursAny r.pruned.exclusions text = g.occursAny r.exclusions text := by
        rw [Rule.pruned, hexclusions]
        rfl
      refine tryWord_eq ?_ hattempt hchecked maxAttempts
      rfl

/-- With weights in use that are zero or more, and without substitutions and exclusions,
    alternatives of weight zero make no difference beside others: taking them out of a choice, but
    for the last where all are zero, leaves every run as it is. It comes to the same end, and takes
    the same values. -/
theorem run?_pruned (hlawful : Weight.Lawful usable fair) (hused : g.useWeights = true)
    (hplain : g.Plain) (husable : g.HasWeights usable) (source : Source) :
    g.pruned.word.run? source = g.word.run? source ∧
    ∀ count, g.pruned.batch? count source = g.batch? count source := by
  have hlimit : g.pruned.depthLimit = g.depthLimit := by
    rw [depthLimit, depthLimit, pruned, List.length_map]
  have hroot : g.pruned.root = g.root := rfl
  have hword : g.pruned.word = g.word := by
    rw [word, word, hlimit, hroot, hasRule_pruned,
      ruleWord_pruned hlawful hused hplain husable]
  exact ⟨by rw [hword], fun count => batch?_eq_of_word hword count source⟩

/-- Words of a consonant, a vowel and up to two nasals, where some weights are zeros of either sign:
    beside others in a body and inside an alternative, and all of those of the nasals. -/
def syllables : Grammar Float where
  rules := [
    ⟨"C", .choice [⟨.atom "t", 1⟩, ⟨.atom "s", 0⟩, ⟨.atom "k", 2⟩], [], []⟩,
    ⟨"W", .seq [.ref "C", .choice [⟨.ref "V", 3⟩, ⟨.atom "e", -0⟩],
      .repeated (.choice [⟨.atom "n", 0⟩, ⟨.atom "m", 0⟩]) 0 2], [], []⟩,
    ⟨"V", .choice [⟨.choice [⟨.atom "a", 0⟩, ⟨.atom "i", 0.5⟩], 1⟩], [], []⟩]
  root := "W"
  useWeights := true

theorem run?_pruned_syllables :
    syllables.HasWeights (fun w => 0 ≤ w) ∧
    syllables.pruned.rules = [
      ⟨"C", .choice [⟨.atom "t", 1⟩, ⟨.atom "k", 2⟩], [], []⟩,
      ⟨"W", .seq [.ref "C", .choice [⟨.ref "V", 3⟩],
        .repeated (.choice [⟨.atom "m", 0⟩]) 0 2], [], []⟩,
      ⟨"V", .choice [⟨.choice [⟨.atom "i", 0.5⟩], 1⟩], [], []⟩] ∧
    ∀ source, syllables.pruned.word.run? source = syllables.word.run? source := by
  have hplain : syllables.Plain := by simp [Plain, syllables]
  have hweights : ((0 : Float) ≤ 1 ∧ (0 : Float) ≤ 0 ∧ (0 : Float) ≤ 2) ∧
      (((0 : Float) ≤ 3 ∧ (0 : Float) ≤ -0) ∧ (0 : Float) ≤ 0) ∧
      (0 : Float) ≤ 1 ∧ (0 : Float) ≤ 0 ∧ (0 : Float) ≤ 0.5 := by decide
  have husable : syllables.HasWeights (fun w => 0 ≤ w) := by
    simpa [HasWeights, syllables] using hweights
  exact ⟨husable, rfl, fun source => (run?_pruned lawful_float rfl hplain husable source).1⟩

end Grammar

end WordGrammar

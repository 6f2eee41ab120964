import WordGrammar.Grammar.Combinations
import WordGrammar.Matcher.Grammar
import WordGrammar.Proofs.Expr.Contains

namespace WordGrammar

variable {W : Type}

namespace Expr

mutual

/-- The expression without its weights. -/
def unweighted : Expr W → Expr Unit
  | .atom text => .atom text
  | .ref name => .ref name
  | .capture index => .capture index
  | .seq items => .seq (unweightedItems items)
  | .choice alternatives => .choice (unweightedAlternatives alternatives)
  | .repeated body least most => .repeated body.unweighted least most

/-- Each item without its weights. -/
def unweightedItems : List (Expr W) → List (Expr Unit)
  | [] => []
  | item :: items => item.unweighted :: unweightedItems items

/-- Each alternative without its weight and without those inside it. -/
def unweightedAlternatives : List (Weighted W (Expr W)) → List (Weighted Unit (Expr Unit))
  | [] => []
  | ⟨item, _⟩ :: alternatives => ⟨item.unweighted, ()⟩ :: unweightedAlternatives alternatives

end

@[simp] theorem unweighted_seq (items : List (Expr W)) :
    (seq items).unweighted = .seq (items.map unweighted) := by
  have hitems : unweightedItems items = items.map unweighted := by
    induction items with
    | nil => rfl
    | cons item items ih => rw [unweightedItems, ih, List.map_cons]
  rw [unweighted, hitems]

@[simp] theorem unweighted_choice (alternatives : List (Weighted W (Expr W))) :
    (choice alternatives).unweighted =
      .choice (alternatives.map fun a => ⟨a.item.unweighted, ()⟩) := by
  have halternatives : unweightedAlternatives alternatives =
      alternatives.map fun a => ⟨a.item.unweighted, ()⟩ := by
    induction alternatives with
    | nil => rfl
    | cons a alternatives ih => rw [unweightedAlternatives, ih, List.map_cons]
  rw [unweighted, halternatives]

theorem references_unweighted (e : Expr W) : e.unweighted.references = e.references := by
  induction e with
  | atom text => rfl
  | ref name => rfl
  | capture index => rfl
  | seq items ih =>
    rw [unweighted_seq, references_seq, references_seq, List.flatMap_map]
    exact congrArg List.flatten (List.map_congr_left ih)
  | choice alternatives ih =>
    rw [unweighted_choice, references_choice, references_choice, List.flatMap_map]
    exact congrArg List.flatten (List.map_congr_left ih)
  | repeated body least most ih => exact ih

/-- Matching does not look at weights. -/
theorem matcher_unweighted (rule : String → Matcher) (e : Expr W) :
    e.unweighted.matcher rule = e.matcher rule := by
  induction e with
  | atom text => rfl
  | ref name => rfl
  | capture index => rfl
  | seq items ih =>
    rw [unweighted_seq, matcher_seq, matcher_seq, List.map_map]
    exact congrArg _ (List.map_congr_left ih)
  | choice alternatives ih =>
    rw [unweighted_choice, matcher_choice, matcher_choice, List.map_map]
    exact congrArg _ (List.map_congr_left ih)
  | repeated body least most ih => rw [unweighted, matcher_repeated, matcher_repeated, ih]

section Counting

open Combinations

variable {rule : String → Tally}

theorem tallyItems_unweighted {items : List (Expr W)}
    (hitems : ∀ item ∈ items, item.unweighted.tally rule = item.tally rule) (product : Nat) :
    tallyItems rule product (items.map unweighted) = tallyItems rule product items := by
  induction items generalizing product with
  | nil => rfl
  | cons item items ih =>
    obtain ⟨hitem, hrest⟩ := List.forall_mem_cons.mp hitems
    simp only [List.map_cons, tallyItems, hitem, ih hrest]

theorem tallyAlternatives_unweighted {alternatives : List (Weighted W (Expr W))}
    (halternatives : ∀ a ∈ alternatives, a.item.unweighted.tally rule = a.item.tally rule)
    (sum : Nat) :
    tallyAlternatives rule sum (alternatives.map fun a => ⟨a.item.unweighted, ()⟩) =
      tallyAlternatives rule sum alternatives := by
  induction alternatives generalizing sum with
  | nil => rfl
  | cons a alternatives ih =>
    obtain ⟨ha, hrest⟩ := List.forall_mem_cons.mp halternatives
    simp only [List.map_cons, tallyAlternatives, ha, ih hrest]

/-- Counting does not look at weights. -/
theorem tally_unweighted (e : Expr W) : e.unweighted.tally rule = e.tally rule := by
  induction e with
  | atom text => rfl
  | ref name => rfl
  | capture index => rfl
  | seq items ih =>
    rw [unweighted_seq, tally, tally, tallyItems_unweighted ih]
  | choice alternatives ih =>
    rw [unweighted_choice, tally, tally, tallyAlternatives_unweighted ih]
  | repeated body least most ih => rw [unweighted, tally, tally, ih]

end Counting

end Expr

/-- The substitution without the weights of either side. -/
def Substitution.unweighted (s : Substitution W) : Substitution Unit where
  target := s.target.unweighted
  replacement := s.replacement.unweighted

/-- The rule without the weights in any of its expressions. -/
def Rule.unweighted (r : Rule W) : Rule Unit where
  name := r.name
  body := r.body.unweighted
  exclusions := r.exclusions.map Expr.unweighted
  substitutions := r.substitutions.map Substitution.unweighted

namespace Grammar

/-- The grammar without weights, none of which are used then. -/
def unweighted (g : Grammar W) : Grammar Unit where
  rules := g.rules.map Rule.unweighted
  root := g.root
  useWeights := false

variable (g : Grammar W)

theorem rule?_unweighted (name : String) :
    g.unweighted.rule? name = (g.rule? name).map Rule.unweighted := by
  unfold rule? unweighted
  rw [List.find?_map]
  rfl

theorem hasRule_unweighted (name : String) : g.unweighted.hasRule name = g.hasRule name := by
  rw [hasRule, hasRule, rule?_unweighted, Option.isSome_map]

section Matching

theorem ruleMatcher_unweighted (depth : Nat) :
    g.unweighted.ruleMatcher depth = g.ruleMatcher depth := by
  induction depth with
  | zero =>
    funext name s
    rw [ruleMatcher, ruleMatcher, hasRule_unweighted]
  | succ depth ih =>
    funext name s
    rw [ruleMatcher, ruleMatcher, rule?_unweighted, ih]
    cases g.rule? name with
    | none => rfl
    | some r => exact congrFun (r.body.matcher_unweighted _) s

theorem matcher_unweighted (e : Expr W) : g.unweighted.matcher e.unweighted = g.matcher e := by
  funext s
  have hbound : g.unweighted.nestingBound s.length = g.nestingBound s.length := by
    rw [nestingBound, nestingBound, unweighted, List.length_map]
  rw [matcher, matcher, hbound, ruleMatcher_unweighted, Expr.matcher_unweighted]

theorem occursAny_unweighted (es : List (Expr W)) (s : List Char) :
    g.unweighted.occursAny (es.map Expr.unweighted) s = g.occursAny es s := by
  induction es with
  | nil => rfl
  | cons e es ih => rw [List.map_cons, occursAny, occursAny, matcher_unweighted, ih]

end Matching

section Searching

theorem visit_unweighted (depth : Nat) (path : List String) :
    g.unweighted.visit depth path = g.visit depth path := by
  induction depth generalizing path with
  | zero => rfl
  | succ depth ih =>
    funext name done
    rw [visit, visit, rule?_unweighted]
    cases g.rule? name with
    | none => rfl
    | some r =>
      have hedges : r.unweighted.edges = r.edges := r.body.references_unweighted
      simp only [Option.map_some, hedges, ih]

theorem cycle?_unweighted : g.unweighted.cycle? = g.cycle? := by
  have hdepth : g.unweighted.rules.length = g.rules.length := List.length_map _
  rw [cycle?, cycle?, hdepth, visit_unweighted]
  rfl

end Searching

section Counting

theorem tally_unweighted (depth : Nat) : g.unweighted.tally depth = g.tally depth := by
  induction depth with
  | zero =>
    funext name
    rw [tally, tally, hasRule_unweighted]
  | succ depth ih =>
    funext name
    rw [tally, tally, rule?_unweighted, ih]
    cases g.rule? name with
    | none => rfl
    | some r =>
      have hbody : r.unweighted.body.tally (g.tally depth) = r.body.tally (g.tally depth) :=
        r.body.tally_unweighted
      simp only [Option.map_some, hbody]

theorem combinations_unweighted : g.unweighted.combinations = g.combinations := by
  have hdepth : g.unweighted.rules.length = g.rules.length := List.length_map _
  have hroot : g.unweighted.root = g.root := rfl
  rw [combinations, combinations, hdepth, hroot, hasRule_unweighted, tally_unweighted]

end Counting

end Grammar

end WordGrammar

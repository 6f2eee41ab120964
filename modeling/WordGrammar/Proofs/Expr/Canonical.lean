import WordGrammar.Name
import WordGrammar.Proofs.Expr.Contains
import WordGrammar.Text.Numeral

namespace WordGrammar.Expr

variable {W : Type} {usable : W → Prop}

/-- Expressions whose references are identifiers, whose sequences have two items or more, whose
    choices have an alternative and usable weights only, and whose numbers are in range. -/
inductive Canonical (usable : W → Prop) : Expr W → Prop
  | atom (text : String) : Canonical usable (.atom text)
  | ref {rule : String} (hname : Name.isIdentifier rule = true) : Canonical usable (.ref rule)
  | capture {index : Nat} (hindex : index < Numeral.limit) : Canonical usable (.capture index)
  | seq {items : List (Expr W)} (hlength : 2 ≤ items.length)
      (hitems : ∀ item ∈ items, Canonical usable item) : Canonical usable (.seq items)
  | choice {alternatives : List (Weighted W (Expr W))} (hne : alternatives ≠ [])
      (hweights : ∀ a ∈ alternatives, usable a.weight)
      (hitems : ∀ a ∈ alternatives, Canonical usable a.item) :
      Canonical usable (.choice alternatives)
  | repeated {body : Expr W} {least most : Nat} (hle : least ≤ most) (hmost : most < Numeral.limit)
      (hbody : Canonical usable body) : Canonical usable (.repeated body least most)

@[simp] theorem canonical_atom {text : String} : (atom text : Expr W).Canonical usable :=
  .atom text

@[simp] theorem canonical_ref {rule : String} :
    (ref rule : Expr W).Canonical usable ↔ Name.isIdentifier rule = true := by
  constructor
  · intro h
    cases h with
    | ref hname => exact hname
  · exact .ref

@[simp] theorem canonical_capture {index : Nat} :
    (capture index : Expr W).Canonical usable ↔ index < Numeral.limit := by
  constructor
  · intro h
    cases h with
    | capture hindex => exact hindex
  · exact .capture

@[simp] theorem canonical_seq {items : List (Expr W)} :
    (seq items).Canonical usable ↔
      2 ≤ items.length ∧ ∀ item ∈ items, item.Canonical usable := by
  constructor
  · intro h
    cases h with
    | seq hlength hitems => exact ⟨hlength, hitems⟩
  · intro h
    exact .seq h.1 h.2

@[simp] theorem canonical_choice {alternatives : List (Weighted W (Expr W))} :
    (choice alternatives).Canonical usable ↔
      alternatives ≠ [] ∧ (∀ a ∈ alternatives, usable a.weight) ∧
        ∀ a ∈ alternatives, a.item.Canonical usable := by
  constructor
  · intro h
    cases h with
    | choice hne hweights hitems => exact ⟨hne, hweights, hitems⟩
  · intro h
    exact .choice h.1 h.2.1 h.2.2

@[simp] theorem canonical_repeated {body : Expr W} {least most : Nat} :
    (repeated body least most).Canonical usable ↔
      least ≤ most ∧ most < Numeral.limit ∧ body.Canonical usable := by
  constructor
  · intro h
    cases h with
    | repeated hle hmost hbody => exact ⟨hle, hmost, hbody⟩
  · intro h
    exact .repeated h.1 h.2.1 h.2.2

namespace Canonical

theorem of_contains {e x : Expr W} (hcanonical : e.Canonical usable) (hcontains : e.Contains x) :
    x.Canonical usable := by
  induction hcontains with
  | self => exact hcanonical
  | item hmem _ ih => exact ih ((canonical_seq.mp hcanonical).2 _ hmem)
  | alternative hmem _ ih => exact ih ((canonical_choice.mp hcanonical).2.2 _ hmem)
  | body _ ih => exact ih (canonical_repeated.mp hcanonical).2.2

theorem mono {usable' : W → Prop} (himp : ∀ w, usable w → usable' w) {e : Expr W}
    (hcanonical : e.Canonical usable) : e.Canonical usable' := by
  induction hcanonical with
  | atom text => exact .atom text
  | ref hname => exact .ref hname
  | capture hindex => exact .capture hindex
  | seq hlength _ ih => exact .seq hlength ih
  | choice hne hweights _ ih => exact .choice hne (fun a hmem => himp _ (hweights a hmem)) ih
  | repeated hle hmost _ ih => exact .repeated hle hmost ih

end Canonical

section Weights

mutual

/-- The weights in an expression, those inside an alternative before its own. -/
def weights : Expr W → List W
  | .atom _ => []
  | .ref _ => []
  | .capture _ => []
  | .seq items => weightsOfItems items
  | .choice alternatives => weightsOfAlternatives alternatives
  | .repeated body _ _ => body.weights

/-- The weights in each item in turn. -/
def weightsOfItems : List (Expr W) → List W
  | [] => []
  | item :: items => item.weights ++ weightsOfItems items

/-- The weights of each alternative in turn. -/
def weightsOfAlternatives : List (Weighted W (Expr W)) → List W
  | [] => []
  | ⟨item, weight⟩ :: alternatives => item.weights ++ weight :: weightsOfAlternatives alternatives

end

@[simp] theorem weights_seq (items : List (Expr W)) :
    (seq items).weights = items.flatMap weights := by
  show weightsOfItems items = _
  induction items with
  | nil => rfl
  | cons item items ih => simp [weightsOfItems, ih]

@[simp] theorem weights_choice (alternatives : List (Weighted W (Expr W))) :
    (choice alternatives).weights = alternatives.flatMap fun a => a.item.weights ++ [a.weight] := by
  show weightsOfAlternatives alternatives = _
  induction alternatives with
  | nil => rfl
  | cons a alternatives ih => simp [weightsOfAlternatives, ih]

theorem forall_weights_seq {items : List (Expr W)} :
    (∀ w ∈ (seq items).weights, usable w) ↔ ∀ item ∈ items, ∀ w ∈ item.weights, usable w := by
  rw [weights_seq, List.forall_mem_flatMap]

theorem forall_weights_choice {alternatives : List (Weighted W (Expr W))} :
    (∀ w ∈ (choice alternatives).weights, usable w) ↔
      ∀ a ∈ alternatives, (∀ w ∈ a.item.weights, usable w) ∧ usable a.weight := by
  simp only [weights_choice, List.forall_mem_flatMap, List.forall_mem_append,
    List.forall_mem_singleton]

/-- What is asked of the weights can be exchanged for anything that holds of all of them. -/
theorem Canonical.of_weights {usable' : W → Prop} {e : Expr W} (hcanonical : e.Canonical usable)
    (hweights : ∀ w ∈ e.weights, usable' w) : e.Canonical usable' := by
  induction hcanonical with
  | atom text => exact .atom text
  | ref hname => exact .ref hname
  | capture hindex => exact .capture hindex
  | seq hlength _ ih =>
    exact .seq hlength fun item hmem => ih item hmem (forall_weights_seq.mp hweights item hmem)
  | choice hne _ _ ih =>
    have halternatives := forall_weights_choice.mp hweights
    refine .choice hne (fun a hmem => (halternatives a hmem).2) ?_
    exact fun a hmem => ih a hmem (halternatives a hmem).1
  | repeated hle hmost _ ih => exact .repeated hle hmost (ih hweights)

/-- An expression is the same as itself if all of its weights are equal to themselves. -/
theorem same_self [BEq W] {e : Expr W} (hweights : ∀ w ∈ e.weights, (w == w) = true) :
    same e e = true := by
  induction e with
  | atom text => simp [same]
  | ref name => simp [same]
  | capture index => simp [same]
  | seq items ih =>
    have hitems : ∀ item ∈ items, same item item = true := fun item hmem =>
      ih item hmem (forall_weights_seq.mp hweights item hmem)
    rw [same]
    clear ih hweights
    induction items with
    | nil => simp [sameItems]
    | cons item items ih =>
      obtain ⟨hitem, hrest⟩ := List.forall_mem_cons.mp hitems
      rw [sameItems, hitem, ih hrest]
      rfl
  | choice alternatives ih =>
    have hitems : ∀ a ∈ alternatives, same a.item a.item = true ∧ (a.weight == a.weight) = true :=
      fun a hmem => (forall_weights_choice.mp hweights a hmem).imp_left (ih a hmem)
    rw [same]
    clear ih hweights
    induction alternatives with
    | nil => simp [sameAlternatives]
    | cons a alternatives ih =>
      obtain ⟨⟨hitem, hweight⟩, hrest⟩ := List.forall_mem_cons.mp hitems
      rw [sameAlternatives, hitem, hweight, ih hrest]
      rfl
  | repeated body least most ih =>
    rw [same, ih hweights]
    simp

end Weights

end WordGrammar.Expr

namespace WordGrammar

/-- An alternative of a choice, with the weight that biases its selection (`WeightedExpr`). -/
structure Weighted (W α : Type) where
  item : α
  weight : W

/-- An expression whose choices carry weights in `W`. Nothing that reads it, other than its printed
    form and a weighted draw, depends on how weights are represented. -/
inductive Expr (W : Type) where
  /-- Literal text. -/
  | atom (text : String)
  /-- Whatever the named rule stands for. -/
  | ref (rule : String)
  /-- The text that a substitution's match captured under this index (a placeholder, `Match`); it is
      meaningful only inside a replacement. -/
  | capture (index : Nat)
  /-- All items, one after the other. -/
  | seq (items : List (Expr W))
  /-- One of the alternatives. -/
  | choice (alternatives : List (Weighted W (Expr W)))
  /-- The body, at least `least` and at most `most` times (`Quantifier`). -/
  | repeated (body : Expr W) (least most : Nat)

namespace Expr

variable {W : Type}

/-- The body or nothing. -/
def optional (body : Expr W) : Expr W :=
  .repeated body 0 1

mutual

/-- The rules an expression refers to, from left to right, each as often as it is named. -/
def references : Expr W → List String
  | .atom _ => []
  | .ref rule => [rule]
  | .capture _ => []
  | .seq items => referencesOfItems items
  | .choice alternatives => referencesOfAlternatives alternatives
  | .repeated body _ _ => body.references

/-- The references of each item in turn. -/
def referencesOfItems : List (Expr W) → List String
  | [] => []
  | item :: items => item.references ++ referencesOfItems items

/-- The references of each alternative in turn. -/
def referencesOfAlternatives : List (Weighted W (Expr W)) → List String
  | [] => []
  | ⟨item, _⟩ :: alternatives => item.references ++ referencesOfAlternatives alternatives

end

mutual

/-- Whether a capture occurs anywhere in the expression (`has_placeholders`). -/
def hasCaptures : Expr W → Bool
  | .atom _ => false
  | .ref _ => false
  | .capture _ => true
  | .seq items => itemsHaveCaptures items
  | .choice alternatives => alternativesHaveCaptures alternatives
  | .repeated body _ _ => body.hasCaptures

/-- Whether a capture occurs in one of the items. -/
def itemsHaveCaptures : List (Expr W) → Bool
  | [] => false
  | item :: items => item.hasCaptures || itemsHaveCaptures items

/-- Whether a capture occurs in one of the alternatives. -/
def alternativesHaveCaptures : List (Weighted W (Expr W)) → Bool
  | [] => false
  | ⟨item, _⟩ :: alternatives => item.hasCaptures || alternativesHaveCaptures alternatives

end

@[simp] theorem references_atom (text : String) : (atom text : Expr W).references = [] := rfl

@[simp] theorem references_ref (rule : String) : (ref rule : Expr W).references = [rule] := rfl

@[simp] theorem references_capture (index : Nat) :
    (capture index : Expr W).references = [] := rfl

@[simp] theorem references_seq (items : List (Expr W)) :
    (seq items).references = items.flatMap references := by
  show referencesOfItems items = _
  induction items with
  | nil => rfl
  | cons item items ih => simp [referencesOfItems, ih]

@[simp] theorem references_choice (alternatives : List (Weighted W (Expr W))) :
    (choice alternatives).references = alternatives.flatMap (·.item.references) := by
  show referencesOfAlternatives alternatives = _
  induction alternatives with
  | nil => rfl
  | cons alternative alternatives ih => simp [referencesOfAlternatives, ih]

@[simp] theorem references_repeated (body : Expr W) (least most : Nat) :
    (repeated body least most).references = body.references := rfl

@[simp] theorem hasCaptures_seq (items : List (Expr W)) :
    (seq items).hasCaptures = items.any hasCaptures := by
  show itemsHaveCaptures items = _
  induction items with
  | nil => rfl
  | cons item items ih => simp [itemsHaveCaptures, ih]

@[simp] theorem hasCaptures_choice (alternatives : List (Weighted W (Expr W))) :
    (choice alternatives).hasCaptures = alternatives.any (·.item.hasCaptures) := by
  show alternativesHaveCaptures alternatives = _
  induction alternatives with
  | nil => rfl
  | cons alternative alternatives ih => simp [alternativesHaveCaptures, ih]

mutual

/-- Whether two expressions are built alike, with weights compared by their own `==`. -/
def same {W : Type} [BEq W] : Expr W → Expr W → Bool
  | .atom a, .atom b => a == b
  | .ref a, .ref b => a == b
  | .capture i, .capture j => i == j
  | .seq as, .seq bs => sameItems as bs
  | .choice as, .choice bs => sameAlternatives as bs
  | .repeated a l m, .repeated b l' m' => same a b && l == l' && m == m'
  | _, _ => false

/-- Whether two lists of items agree in length and item by item. -/
def sameItems {W : Type} [BEq W] : List (Expr W) → List (Expr W) → Bool
  | [], [] => true
  | a :: as, b :: bs => same a b && sameItems as bs
  | _, _ => false

/-- Whether two lists of alternatives agree in length, item by item and weight by weight. -/
def sameAlternatives {W : Type} [BEq W] :
    List (Weighted W (Expr W)) → List (Weighted W (Expr W)) → Bool
  | [], [] => true
  | ⟨a, v⟩ :: as, ⟨b, w⟩ :: bs => same a b && v == w && sameAlternatives as bs
  | _, _ => false

end

instance {W : Type} [BEq W] : BEq (Expr W) := ⟨same⟩

end Expr

end WordGrammar

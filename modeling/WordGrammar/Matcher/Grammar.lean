import WordGrammar.Grammar.Basic
import WordGrammar.Matcher.Occurrence

namespace WordGrammar

variable {W : Type}

namespace Expr

mutual

/-- The matcher of an expression; `rule` matches the rules it refers to (`match_chars`). Weights do
    not matter. -/
def matcher (rule : String → Matcher) : Expr W → Matcher
  | .atom text, s => Matcher.literal text.toList s
  | .ref name, s => rule name s
  | .capture index, _ => .error (.captureMatched index)
  | .seq items, s => Matcher.inOrder (itemMatchers rule items) s
  | .choice alternatives, s => Matcher.firstOf (alternativeMatchers rule alternatives) s
  | .repeated body least most, s => Matcher.repeated (body.matcher rule) least most s

/-- The matcher of each item. -/
def itemMatchers (rule : String → Matcher) : List (Expr W) → List Matcher
  | [] => []
  | item :: items => item.matcher rule :: itemMatchers rule items

/-- The matcher of each alternative. -/
def alternativeMatchers (rule : String → Matcher) : List (Weighted W (Expr W)) → List Matcher
  | [] => []
  | ⟨item, _⟩ :: alternatives => item.matcher rule :: alternativeMatchers rule alternatives

end

variable {rule : String → Matcher}

@[simp] theorem matcher_atom (text : String) :
    (atom text : Expr W).matcher rule = Matcher.literal text.toList := rfl

@[simp] theorem matcher_ref (name : String) : (ref name : Expr W).matcher rule = rule name := rfl

@[simp] theorem matcher_capture (index : Nat) (s : List Char) :
    (capture index : Expr W).matcher rule s = .error (.captureMatched index) := rfl

@[simp] theorem matcher_seq (items : List (Expr W)) :
    (seq items).matcher rule = Matcher.inOrder (items.map (matcher rule)) := by
  have hitems : itemMatchers rule items = items.map (matcher rule) := by
    induction items with
    | nil => rfl
    | cons item items ih => simp [itemMatchers, ih]
  funext s
  rw [← hitems]
  rfl

@[simp] theorem matcher_choice (alternatives : List (Weighted W (Expr W))) :
    (choice alternatives).matcher rule =
      Matcher.firstOf (alternatives.map (·.item.matcher rule)) := by
  have halternatives :
      alternativeMatchers rule alternatives = alternatives.map (·.item.matcher rule) := by
    induction alternatives with
    | nil => rfl
    | cons alternative alternatives ih => simp [alternativeMatchers, ih]
  funext s
  rw [← halternatives]
  rfl

@[simp] theorem matcher_repeated (body : Expr W) (least most : Nat) :
    (repeated body least most).matcher rule =
      Matcher.repeated (body.matcher rule) least most := rfl

end Expr

namespace Grammar

/-- Matches what the body of the named rule does, with at most `depth` rules in use at a time. -/
def ruleMatcher (g : Grammar W) : Nat → String → Matcher
  | 0, name, _ => if g.hasRule name then .error .endlessNesting else .error (.unknownRule name)
  | depth + 1, name, s =>
    match g.rule? name with
    | none => .error (.unknownRule name)
    | some r => r.body.matcher (g.ruleMatcher depth) s

/-- More rules than this cannot be in use at a time, each on the behalf of the one before, without
    one of them recurring on the very same stretch of the text, and so without end. -/
def nestingBound (g : Grammar W) (length : Nat) : Nat := g.rules.length * (length + 1)

/-- The matcher of an expression over the rules of the grammar. -/
def matcher (g : Grammar W) (e : Expr W) : Matcher := fun s =>
  e.matcher (g.ruleMatcher (g.nestingBound s.length)) s

/-- How the text as a whole splits into segments that match the expression (`match_expr`). -/
def match? (g : Grammar W) (e : Expr W) (text : String) : Except Fault (Option (List Nat)) :=
  g.matcher e text.toList

/-- The leftmost match of the expression inside the text, and of those the shortest. -/
def find? (g : Grammar W) (e : Expr W) (text : String) : Except Fault (Option Occurrence) :=
  (g.matcher e).find? text.toList

/-- Whether one of the expressions matches somewhere inside the text (`excluded`). -/
def occursAny (g : Grammar W) : List (Expr W) → List Char → Except Fault Bool
  | [], _ => .ok false
  | e :: es, s => do
    match ← (g.matcher e).find? s with
    | some _ => .ok true
    | none => g.occursAny es s

/-- Whether an exclusion of the rule matches somewhere inside the text. -/
def isExcluded (g : Grammar W) (r : Rule W) (text : String) : Except Fault Bool :=
  g.occursAny r.exclusions text.toList

end Grammar

end WordGrammar

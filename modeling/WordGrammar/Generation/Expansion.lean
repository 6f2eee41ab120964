import WordGrammar.Expr.Basic
import WordGrammar.Sampler.Basic

namespace WordGrammar

variable {W : Type} [Weight W]

namespace Sampler

/-- Draws a position among alternatives with these weights: in proportion to the weights if they
    are used (`weighted_pick`), and else evenly (`random_pick`). -/
def position (useWeights : Bool) (weights : List W) : Sampler Nat :=
  if useWeights then do
    let share ← ask .fraction
    pure (Weight.select (Weight.fraction share) weights)
  else do
    let k ← ask (.upTo (weights.length - 1))
    pure k.val

/-- Appends the text of so many runs to a text. -/
def times (p : Sampler (List Char)) : Nat → List Char → Sampler (List Char)
  | 0, text => pure text
  | n + 1, text => do
    let more ← p
    times p n (text ++ more)

end Sampler

/-- The text that a capture stands for. Nothing is captured outside replacements. -/
def captured (captures : Option (List (List Char))) (index : Nat) : Sampler (List Char) :=
  match captures with
  | none => .stop (.faulted (.captureExpanded index))
  | some texts =>
    match texts[index]? with
    | some text => pure text
    | none => .stop (.failed (.captureOutOfRange index texts.length))

namespace Expr

mutual

/-- Expands an expression. `rule` makes words of the rules it refers to, and these know nothing of
    the captures. A choice without alternatives is empty and draws nothing; any other draws, and so
    does every repetition. -/
def expand (rule : String → Sampler (List Char)) (useWeights : Bool)
    (captures : Option (List (List Char))) : Expr W → Sampler (List Char)
  | .atom text => pure text.toList
  | .ref name => rule name
  | .capture index => captured captures index
  | .seq items => expandItems rule useWeights captures [] items
  | .choice alternatives =>
    if alternatives.isEmpty then pure []
    else do
      let k ← Sampler.position useWeights (alternatives.map (·.weight))
      expandAlternative rule useWeights captures k alternatives
  | .repeated body least most =>
    if most < least then .stop (.faulted .nothingToDraw)
    else do
      let more ← Sampler.ask (.upTo (most - least))
      if least + more.val = 0 then pure []
      else (body.expand rule useWeights captures).times (least + more.val) []

/-- Appends the expansion of each item in turn to a text. -/
def expandItems (rule : String → Sampler (List Char)) (useWeights : Bool)
    (captures : Option (List (List Char))) (text : List Char) :
    List (Expr W) → Sampler (List Char)
  | [] => pure text
  | item :: items => do
    let more ← item.expand rule useWeights captures
    expandItems rule useWeights captures (text ++ more) items

/-- Expands the alternative at a position. -/
def expandAlternative (rule : String → Sampler (List Char)) (useWeights : Bool)
    (captures : Option (List (List Char))) :
    Nat → List (Weighted W (Expr W)) → Sampler (List Char)
  | _, [] => .stop (.faulted .positionOutOfRange)
  | 0, ⟨item, _⟩ :: _ => item.expand rule useWeights captures
  | k + 1, _ :: alternatives => expandAlternative rule useWeights captures k alternatives

end

end Expr

end WordGrammar

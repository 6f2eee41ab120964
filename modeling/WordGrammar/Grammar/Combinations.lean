import WordGrammar.Generation.Failure
import WordGrammar.Grammar.Cycle

namespace WordGrammar

namespace Combinations

/-- No count is larger. -/
def ceiling : Nat := 0xFFFFFFFFFFFFFFFFFFFFFFFFFFFFFFFF

/-- A count cut off at the ceiling. -/
def capped (n : Nat) : Nat := min n ceiling

/-- Multiplies a product by the base so many times, and stops multiplying at the ceiling
    (`saturating_pow`). -/
def saturatingPower (base : Nat) : Nat → Nat → Nat
  | 0, product => product
  | exponent + 1, product =>
    let product := capped (product * base)
    if product = ceiling then ceiling else saturatingPower base exponent product

/-- A power to be added. An exponent beyond 32 bits is not raised to, and stands for the ceiling. -/
def power (base exponent : Nat) : Nat :=
  if 0xFFFFFFFF < exponent then ceiling else saturatingPower base exponent 1

/-- Adds `terms` consecutive powers to a sum, and stops adding at the ceiling. -/
def sumOfPowers (base : Nat) : Nat → Nat → Nat → Nat
  | 0, _, sum => sum
  | terms + 1, exponent, sum =>
    let sum := capped (sum + power base exponent)
    if sum = ceiling then ceiling else sumOfPowers base terms (exponent + 1) sum

/-- The count of a repetition from that of its body (`repetitions`). -/
def ofRepetition (body least most : Nat) : Except Fault Nat :=
  match body with
  | 0 => .ok (if least = 0 then 1 else 0)
  | 1 => if most < least then .error .boundsReversed else .ok (most - least + 1)
  | _ => .ok (sumOfPowers body (most + 1 - least) least 0)

/-- A count that may look up and record the counts of rules. -/
abbrev Tally := StateT (List (String × Nat)) (Except Fault) Nat

end Combinations

namespace Expr

open Combinations

variable {W : Type}

mutual

/-- The count of an expression; `rule` counts the rules it refers to (`count_expr`). -/
def tally (rule : String → Tally) : Expr W → Tally
  | .atom _ => pure 1
  | .ref name => rule name
  | .capture index => throw (.captureCounted index)
  | .seq items => tallyItems rule 1 items
  | .choice alternatives => tallyAlternatives rule 0 alternatives
  | .repeated body least most => do
    let n ← body.tally rule
    ofRepetition n least most

/-- A count multiplied by that of each item in turn. -/
def tallyItems (rule : String → Tally) (product : Nat) : List (Expr W) → Tally
  | [] => pure product
  | item :: items => do
    let n ← item.tally rule
    tallyItems rule (capped (product * n)) items

/-- The count of each alternative in turn added to a count. -/
def tallyAlternatives (rule : String → Tally) (sum : Nat) :
    List (Weighted W (Expr W)) → Tally
  | [] => pure sum
  | ⟨item, _⟩ :: alternatives => do
    let n ← item.tally rule
    tallyAlternatives rule (capped (sum + n)) alternatives

end

end Expr

namespace Grammar

open Combinations

variable {W : Type}

/-- The count of a rule, which is recorded (`count_rule`). Nesting beyond the number of rules is a
    circle. -/
def tally (g : Grammar W) : Nat → String → Tally
  | 0, name => if g.hasRule name then throw .endlessNesting else throw (.unknownRule name)
  | depth + 1, name => do
    match g.rule? name with
    | none => throw (.unknownRule name)
    | some r =>
      match (← get).lookup name with
      | some n => pure n
      | none =>
        let n ← r.body.tally (g.tally depth)
        modify ((name, n) :: ·)
        pure n

/-- The number of derivations from the root (`count_combinations`). Neither substitutions nor
    exclusions are taken into account. -/
def combinations (g : Grammar W) : Except Stop Nat :=
  if g.hasRule g.root then
    match (g.tally (g.rules.length + 1) g.root).run [] with
    | .ok (n, _) => .ok n
    | .error fault => .error (.faulted fault)
  else .error (.failed (.rootNotFound g.root))

/-- What can be said about a grammar without generating. -/
structure Diagnostics where
  cycle : Option (List String)
  /-- The number of derivations; zero if there is a cycle or no root. -/
  combinations : Nat

/-- The circle of references, or else the number of derivations. -/
def diagnostics (g : Grammar W) : Except Fault Diagnostics :=
  match g.cycle? with
  | some cycle => .ok ⟨some cycle, 0⟩
  | none =>
    match g.combinations with
    | .ok n => .ok ⟨none, n⟩
    | .error (.failed _) => .ok ⟨none, 0⟩
    | .error (.faulted fault) => .error fault

end Grammar

end WordGrammar

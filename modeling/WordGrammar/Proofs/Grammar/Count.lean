import Mathlib.Algebra.BigOperators.Group.Finset.Basic
import Mathlib.Algebra.GroupWithZero.Nat
import Mathlib.Order.Interval.Finset.Nat
import WordGrammar.Grammar.Basic
import WordGrammar.Proofs.Expr.Contains

namespace WordGrammar.Grammar

variable {W : Type}

/-- `g.Counts e n`: the expression has `n` derivations. It has a number of them only if references
    come to an end, and no capture is met on the way. -/
inductive Counts (g : Grammar W) : Expr W → Nat → Prop
  | atom (text : String) : Counts g (.atom text) 1
  | ref {name : String} {r : Rule W} {n : Nat} (hrule : g.rule? name = some r)
      (hbody : Counts g r.body n) : Counts g (.ref name) n
  | seq {items : List (Expr W)} (count : Expr W → Nat)
      (hitems : ∀ item ∈ items, Counts g item (count item)) :
      Counts g (.seq items) (items.map count).prod
  | choice {alternatives : List (Weighted W (Expr W))} (count : Weighted W (Expr W) → Nat)
      (halternatives : ∀ a ∈ alternatives, Counts g a.item (count a)) :
      Counts g (.choice alternatives) (alternatives.map count).sum
  | repeated {body : Expr W} {n : Nat} (least most : Nat) (hbody : Counts g body n) :
      Counts g (.repeated body least most) (∑ i ∈ Finset.Icc least most, n ^ i)

variable {g : Grammar W} {e : Expr W} {m n : Nat}

theorem counts_ref {name : String} {r : Rule W} (hrule : g.rule? name = some r) :
    g.Counts (.ref name) n ↔ g.Counts r.body n := by
  constructor
  · intro h
    cases h with
    | ref hfound hbody =>
      rw [hrule] at hfound
      cases hfound
      exact hbody
  · exact .ref hrule

/-- An expression has one number of derivations. -/
theorem Counts.unique (hm : g.Counts e m) (hn : g.Counts e n) : m = n := by
  induction hm generalizing n with
  | atom text =>
    cases hn
    rfl
  | ref hrule _ ih => exact ih ((counts_ref hrule).mp hn)
  | seq count _ ih =>
    cases hn with
    | seq count' hitems' =>
      congr 1
      exact List.map_congr_left fun item hmem => ih item hmem (hitems' item hmem)
  | choice count _ ih =>
    cases hn with
    | choice count' halternatives' =>
      congr 1
      exact List.map_congr_left fun a hmem => ih a hmem (halternatives' a hmem)
  | repeated least most _ ih =>
    cases hn with
    | repeated _ _ hbody' => rw [ih hbody']

end WordGrammar.Grammar

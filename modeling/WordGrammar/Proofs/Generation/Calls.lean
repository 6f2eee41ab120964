import Mathlib.Data.List.Forall2
import WordGrammar.Proofs.Generation.Law

namespace WordGrammar

/-- `Calls names make`: one after the other, it takes steps of its own and calls for words of rules
    with these names, and does nothing else. -/
inductive Calls (names : String → Prop) : {α : Type} → Maker α → Prop
  | own {α : Type} (p : Sampler α) : Calls names fun _ => p
  | call {name : String} (hname : names name) : Calls names fun rule => rule name
  | bind {α β : Type} {make : Maker α} {next : α → Maker β} (hmake : Calls names make)
      (hnext : ∀ a, Calls names (next a)) :
      Calls names fun rule => make rule >>= fun a => next a rule

namespace Calls

variable {names : String → Prop} {α : Type} {make : Maker α}

/-- Nothing but the words of the rules called for makes a difference. -/
theorem congr (hcalls : Calls names make) {rule rule' : String → Sampler (List Char)}
    (hrule : ∀ name, names name → rule name = rule' name) : make rule = make rule' := by
  induction hcalls with
  | own p => rfl
  | call hname => exact hrule _ hname
  | bind _ _ ihmake ihnext => simp only [ihmake, ihnext]

theorem law : Maker.Law fun _ => Calls names where
  done a := .own (.done a)
  tell event := .own (.tell event)
  bind := .bind

end Calls

variable {W : Type} [Weight W] {names : String → Prop}

namespace Expr

variable {useWeights : Bool} {captures : Option (List (List Char))}

/-- Expanding an expression calls for words of the rules that it refers to. -/
theorem expand_calls (e : Expr W) (hnames : ∀ name, e.Contains (.ref name) → names name) :
    Calls names fun rule => e.expand rule useWeights captures := by
  refine e.expand_keeps Calls.law ⟨fun name hname => .call (hnames name hname), ?_, ?_, ?_, ?_⟩
  · exact fun _ _ => .own _
  · exact fun _ _ _ => .own _
  · exact fun _ _ _ _ _ => .own _
  · exact fun _ _ _ _ _ => .own _

end Expr

namespace Grammar

variable {g : Grammar W}

/-- An attempt calls for words of the rules that the body and the replacements refer to. -/
theorem attempt_calls {r : Rule W}
    (hnames : ∀ e ∈ r.expanded, ∀ name, e.Contains (.ref name) → names name) :
    Calls names fun rule => g.attempt rule r :=
  attempt_keeps Calls.law (fun _ _ _ _ _ => .own _) fun e he _ => e.expand_calls (hnames e he)

theorem tryWord_calls {r : Rule W}
    (hnames : ∀ e ∈ r.expanded, ∀ name, e.Contains (.ref name) → names name) (left : Nat) :
    Calls names fun rule => g.tryWord rule r left :=
  tryWord_keeps Calls.law (attempt_calls hnames) (fun _ => .own _) (.own _) left

/-- A rule tries alike with the words of other rules if those agree that it calls for. -/
theorem tryWord_congr {r : Rule W} {rule rule' : String → Sampler (List Char)}
    (hrule : ∀ e ∈ r.expanded, ∀ name, e.Contains (.ref name) → rule name = rule' name)
    (left : Nat) : g.tryWord rule r left = g.tryWord rule' r left :=
  (tryWord_calls hrule left).congr fun _ heq => heq

/-- A rule that excludes nothing makes do with one attempt. -/
theorem tryWord_of_exclusions_nil {rule : String → Sampler (List Char)} {r : Rule W}
    (hexclusions : r.exclusions = []) (left : Nat) :
    g.tryWord rule r (left + 1) = g.attempt rule r := by
  rw [tryWord, hexclusions]
  exact Sampler.bind_done _

/-! Of the grammar, a try needs no more than what its expressions match and expand to, which two
grammars may agree on even if they are over different weights. -/

section Agreement

variable {W' : Type} [Weight W'] {g' : Grammar W'} {r : Rule W} {r' : Rule W'}
  {rule : String → Sampler (List Char)}

/-- The substitutions replace the same stretches by the same expansions. -/
def ReplacesAlike (g : Grammar W) (g' : Grammar W') (rule : String → Sampler (List Char))
    (s : Substitution W) (s' : Substitution W') : Prop :=
  g.matcher s.target = g'.matcher s'.target ∧
    ∀ texts, s.replacement.expand rule g.useWeights (some texts) =
      s'.replacement.expand rule g'.useWeights (some texts)

theorem substituteFrom_eq {s : Substitution W} {s' : Substitution W'}
    (halike : ReplacesAlike g g' rule s s') (name : String) (text : List Char) (position : Nat) :
    g.substituteFrom rule name s text position = g'.substituteFrom rule name s' text position := by
  obtain ⟨htarget, hreplacement⟩ := halike
  generalize hmeasure : text.length - position = left
  induction left using Nat.strongRecOn generalizing text position with
  | ind left ih =>
    rw [substituteFrom.eq_def g, substituteFrom.eq_def g', htarget]
    by_cases hposition : position < text.length
    · rw [if_pos hposition, if_pos hposition]
      cases (g'.matcher s'.target).hit? (text.drop position) with
      | error fault => rfl
      | ok found =>
        cases found with
        | none => exact ih _ (by omega) text (position + 1) rfl
        | some hit =>
          dsimp only
          rw [hreplacement]
          congr 1
          funext replacement
          congr 1
          funext told
          refine ih _ ?_ _ _ rfl
          simp only [List.length_append, List.length_take, List.length_drop, Hit.length]
          omega
    · rw [if_neg hposition, if_neg hposition]

theorem substituteAll_eq {substitutions : List (Substitution W)}
    {substitutions' : List (Substitution W')}
    (halike : List.Forall₂ (ReplacesAlike g g' rule) substitutions substitutions') (name : String)
    (text : List Char) :
    g.substituteAll rule name substitutions text =
      g'.substituteAll rule name substitutions' text := by
  induction halike generalizing text with
  | nil => rfl
  | cons hs _ ih => simp only [substituteAll, substituteFrom_eq hs, ih]

theorem attempt_eq (hname : r.name = r'.name)
    (hbody : r.body.expand rule g.useWeights none = r'.body.expand rule g'.useWeights none)
    (halike : List.Forall₂ (ReplacesAlike g g' rule) r.substitutions r'.substitutions) :
    g.attempt rule r = g'.attempt rule r' := by
  simp only [attempt, hname, hbody, substituteAll_eq halike]

theorem tryWord_eq (hname : r.name = r'.name) (hattempt : g.attempt rule r = g'.attempt rule r')
    (hchecked : ∀ text, g.occursAny r.exclusions text = g'.occursAny r'.exclusions text)
    (left : Nat) : g.tryWord rule r left = g'.tryWord rule r' left := by
  induction left with
  | zero => rw [tryWord, tryWord, hname]
  | succ left ih => simp only [tryWord, hname, hattempt, hchecked, ih]

end Agreement

section SameRule

variable {g' : Grammar W} {r : Rule W} {rule : String → Sampler (List Char)}

/-- A rule is attempted alike if weights are used alike and its targets match the same. -/
theorem attempt_eq_of_matcher (hweights : g.useWeights = g'.useWeights)
    (htargets : ∀ s ∈ r.substitutions, g.matcher s.target = g'.matcher s.target) :
    g.attempt rule r = g'.attempt rule r := by
  refine attempt_eq rfl (by rw [hweights]) (List.forall₂_same.mpr fun s hs => ?_)
  exact ⟨htargets s hs, fun texts => by rw [hweights]⟩

end SameRule

end Grammar

end WordGrammar

import WordGrammar.Generation.Batch
import WordGrammar.Proofs.Generation.Law
import WordGrammar.Proofs.Matcher.Fault

namespace WordGrammar

variable {W : Type} [Weight W] {F : Fault → Prop}

namespace Sampler

theorem Raises.position {useWeights : Bool} {weights : List W} :
    (position useWeights weights).Raises F := by
  unfold Sampler.position
  split
  · exact (Raises.ask _).bind fun share _ => .done _
  · exact (Raises.ask _).bind fun k _ => .done _

/-- Going on after a step keeps up which faults there are. -/
theorem raises_law (rule : String → Sampler (List Char)) :
    Maker.Law fun _ make => (make rule).Raises F where
  done := .done
  tell := .tell
  bind hmake hnext := hmake.bind fun a _ => hnext a

end Sampler

namespace Expr

variable {rule : String → Sampler (List Char)} {useWeights : Bool}
  {captures : Option (List (List Char))}

theorem captured_raises (index : Nat) (hcaptures : captures ≠ none) :
    (captured captures index).Raises F := by
  cases captures with
  | none => exact (hcaptures rfl).elim
  | some texts =>
    unfold captured
    dsimp only
    split
    · exact .done _
    · exact .failed _

/-- Expanding has no faults but those of the rules referred to, where bounds are in order and
    nothing is captured only if no capture is there. -/
theorem expand_raises (e : Expr W) (hrule : ∀ name, e.Contains (.ref name) → (rule name).Raises F)
    (hcaptures : ∀ index, e.Contains (.capture index) → captures ≠ none)
    (hbounds : ∀ body least most, e.Contains (.repeated body least most) → least ≤ most) :
    (e.expand rule useWeights captures).Raises F := by
  refine e.expand_keeps (Sampler.raises_law rule) ⟨hrule, fun index hindex => ?_, ?_, ?_, ?_⟩
  · exact captured_raises index (hcaptures index hindex)
  · exact fun _ _ _ => .position
  · exact fun _ _ _ _ _ => .ask _
  · exact fun body least most hbody hlt =>
      absurd (hbounds body least most hbody) (Nat.not_le.mpr hlt)

end Expr

namespace Grammar

variable {g : Grammar W} {rule : String → Sampler (List Char)}

/-- Substituting has the faults of the matcher and those of expanding replacements. -/
theorem substituteAll_raises {name : String} {substitutions : List (Substitution W)}
    (htarget : ∀ s ∈ substitutions, (g.matcher s.target).Raises F)
    (hreplacement : ∀ s ∈ substitutions, ∀ texts,
      (s.replacement.expand rule g.useWeights (some texts)).Raises F) (text : List Char) :
    (g.substituteAll rule name substitutions text).Raises F :=
  substituteAll_keeps (Sampler.raises_law rule)
    (fun s hs _ _ herror => .faulted ((htarget s hs).hit? herror)) hreplacement name text

theorem tryWord_raises {r : Rule W} (hattempt : (g.attempt rule r).Raises F)
    (hexclusions : ∀ e ∈ r.exclusions, (g.matcher e).Raises F) (left : Nat) :
    (g.tryWord rule r left).Raises F :=
  tryWord_keeps (Sampler.raises_law rule) hattempt
    (fun _ => .ofExcept fun _ => occursAny_raises hexclusions) (.failed _) left

end Grammar

end WordGrammar

import WordGrammar.Proofs.Generation.Law
import WordGrammar.Proofs.Sampler.Source

namespace WordGrammar

variable {W : Type} [Weight W]

namespace Sampler

theorem Fits.position {useWeights : Bool} {weights : List W}
    (hlength : weights.length ≤ UInt64.size) : (position useWeights weights).Fits := by
  have hsize : 0 < UInt64.size := by decide
  have hshare : Draw.fraction.Fits := trivial
  have hbound : (Draw.upTo (weights.length - 1)).Fits := by
    unfold Draw.Fits
    omega
  unfold Sampler.position
  split
  · exact (Fits.ask hshare).bind fun share => trivial
  · exact (Fits.ask hbound).bind fun k => trivial

/-- Going on after a step keeps up that there are values for every draw. -/
theorem fits_law (rule : String → Sampler (List Char)) :
    Maker.Law fun _ make => (make rule).Fits where
  done _ := trivial
  tell _ := trivial
  bind hmake hnext := hmake.bind hnext

end Sampler

namespace Expr

variable {rule : String → Sampler (List Char)} {useWeights : Bool}
  {captures : Option (List (List Char))}

theorem captured_fits (index : Nat) : (captured captures index).Fits := by
  unfold captured
  split
  · exact trivial
  · split
    · exact trivial
    · exact trivial

/-- Expanding draws among no more than there are values for, if the rules referred to do. -/
theorem expand_fits (e : Expr W) (hrule : ∀ name, e.Contains (.ref name) → (rule name).Fits)
    (hchoices : ∀ alternatives, e.Contains (.choice alternatives) →
      alternatives.length ≤ UInt64.size)
    (hbounds : ∀ body least most, e.Contains (.repeated body least most) → most < UInt64.size) :
    (e.expand rule useWeights captures).Fits := by
  refine e.expand_keeps (Sampler.fits_law rule)
    ⟨hrule, fun index _ => captured_fits index, ?_, ?_, ?_⟩
  · intro alternatives hchoice _
    apply Sampler.Fits.position
    rw [List.length_map]
    exact hchoices alternatives hchoice
  · intro body least most hbody _
    apply Sampler.Fits.ask
    exact Nat.lt_of_le_of_lt (Nat.sub_le ..) (hbounds body least most hbody)
  · exact fun _ _ _ _ _ => trivial

end Expr

namespace Grammar

variable {g : Grammar W}

/-- No choice has more alternatives, and no repetition more numbers, than there are values. -/
structure Drawable (g : Grammar W) : Prop where
  choices : ∀ r ∈ g.rules, ∀ e ∈ r.expressions, ∀ alternatives,
    e.Contains (.choice alternatives) → alternatives.length ≤ UInt64.size
  bounds : ∀ r ∈ g.rules, ∀ e ∈ r.expressions, ∀ body least most,
    e.Contains (.repeated body least most) → most < UInt64.size

theorem Drawable.ruleWord_fits (hdrawable : g.Drawable) (depth : Nat) (name : String) :
    (g.ruleWord depth name).Fits := by
  induction depth generalizing name with
  | zero => exact trivial
  | succ depth ih =>
    cases hrule : g.rule? name with
    | none =>
      simp only [ruleWord, hrule]
      exact trivial
    | some r =>
      have hmem := mem_rules_of_rule? hrule
      have hexpand : ∀ e ∈ r.expanded, ∀ captures,
          (e.expand (g.ruleWord depth) g.useWeights captures).Fits := by
        intro e he captures
        have he' := r.expanded_subset he
        exact e.expand_fits (fun next _ => ih next) (hdrawable.choices r hmem e he')
          (hdrawable.bounds r hmem e he')
      have hlaw := Sampler.fits_law (g.ruleWord depth)
      have hattempt : (g.attempt (g.ruleWord depth) r).Fits :=
        attempt_keeps hlaw (fun _ _ _ _ _ => trivial) hexpand
      have hcheck (text : List Char) : (Sampler.ofExcept (g.occursAny r.exclusions text)).Fits := by
        cases g.occursAny r.exclusions text <;> exact trivial
      simp only [ruleWord, hrule]
      exact tryWord_keeps hlaw hattempt hcheck trivial maxAttempts

/-- Every end of making a word is the outcome of a run on some source. -/
theorem Drawable.ends_word_iff_exists_run? (hdrawable : g.Drawable)
    {outcome : Except Stop String} :
    g.word.Ends outcome ↔ ∃ source run, g.word.run? source = some run ∧ run.outcome = outcome := by
  apply Sampler.ends_iff_exists_run?
  unfold word
  split
  · exact (hdrawable.ruleWord_fits _ _).bind fun text => trivial
  · exact trivial

end Grammar

end WordGrammar

import WordGrammar.Generation.Expansion
import WordGrammar.Proofs.Sampler.Ends

namespace WordGrammar

variable {W : Type} [Weight W]

namespace Weight

theorem locate?_lt {rest : W} {weights : List W} {k : Nat}
    (hfound : locate? rest weights = some k) : k < weights.length := by
  induction weights generalizing rest k with
  | nil => cases hfound
  | cons w weights ih =>
    rw [locate?] at hfound
    split at hfound
    · cases hfound
      exact Nat.succ_pos _
    · obtain ⟨later, hlater, hk⟩ := Option.map_eq_some_iff.mp hfound
      have hlt := ih hlater
      rw [← hk, List.length_cons]
      omega

theorem lastUsable_lt {weights : List W} (hne : weights ≠ []) :
    lastUsable weights < weights.length := by
  have hpositive := List.length_pos_iff.mpr hne
  unfold lastUsable
  split
  · omega
  · omega

/-- A number selects one of the alternatives, if there are any. -/
theorem select_lt (draw : W) {weights : List W} (hne : weights ≠ []) :
    select draw weights < weights.length := by
  unfold select
  cases hfound : locate? (mul draw (total weights)) weights with
  | none => exact lastUsable_lt hne
  | some k => exact locate?_lt hfound

theorem select_lt_length {α : Type} (draw : W) {alternatives : List (Weighted W α)}
    (hne : alternatives ≠ []) :
    select draw (alternatives.map (·.weight)) < alternatives.length := by
  simpa using select_lt draw (mt List.map_eq_nil_iff.mp hne)

end Weight

/-- The position drawn is one of those there are. -/
theorem Sampler.lt_of_position {useWeights : Bool} {weights : List W} (hne : weights ≠ []) {k : Nat}
    (hends : (position useWeights weights).Ends (.ok k)) : k < weights.length := by
  have hpositive := List.length_pos_iff.mpr hne
  unfold position at hends
  split at hends
  · obtain ⟨share, -, hdone⟩ := ends_bind_ok.mp hends
    cases hdone
    exact Weight.select_lt _ hne
  · obtain ⟨answer, -, hdone⟩ := ends_bind_ok.mp hends
    cases hdone
    have hanswer := answer.isLt
    omega

namespace Expr

variable {rule : String → Sampler (List Char)} {useWeights : Bool}
  {captures : Option (List (List Char))} {alternatives : List (Weighted W (Expr W))}

theorem expandAlternative_eq {k : Nat} (hk : k < alternatives.length) :
    expandAlternative rule useWeights captures k alternatives =
      alternatives[k].item.expand rule useWeights captures := by
  induction alternatives generalizing k with
  | nil => cases hk
  | cons a alternatives ih =>
    cases k with
    | zero => rfl
    | succ k => exact ih (Nat.lt_of_succ_lt_succ hk)

/-- With weights in use, a choice draws once and goes on with the alternative selected. -/
theorem expand_choice_weighted (hne : alternatives ≠ []) :
    (choice alternatives).expand rule true captures =
      Sampler.ask .fraction >>= fun share =>
        (alternatives.get ⟨Weight.select (Weight.fraction share) (alternatives.map (·.weight)),
          Weight.select_lt_length _ hne⟩).item.expand rule true captures := by
  have hsome : ¬ alternatives.isEmpty = true := by simpa using hne
  rw [expand, if_neg hsome, Sampler.position, if_pos rfl]
  simp only [bind_assoc, Sampler.pure_eq, Sampler.done_bind]
  congr 1
  funext share
  exact expandAlternative_eq _

end Expr

end WordGrammar

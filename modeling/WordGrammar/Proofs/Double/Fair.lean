import WordGrammar.Proofs.Double.Rounding
import WordGrammar.Proofs.Double.Sign
import WordGrammar.Proofs.Weight.Live

open Float.Model Float.Model.UnpackedFloat

namespace WordGrammar

namespace Double

/-- The number is not negative, though it may be undefined, as what infinite weights leave of a draw
    may be. -/
def IsFair (u : UnpackedFloat) : Prop := u = .notANumber ∨ IsPositive u

section Numbers

variable {u v : UnpackedFloat} {s : Sign}

theorem isPositive_roundWithAccuracy (m : Nat) (e : Int) (accuracy : Accuracy) :
    IsPositive (roundWithAccuracy .binary64 .positive m e accuracy) := by
  unfold roundWithAccuracy
  dsimp only
  split <;> rfl

theorem isPositive_normalize {m : Int} (hm : 0 ≤ m) (e : Int) :
    IsPositive (UnpackedFloat.normalize .binary64 m e .positive) := by
  unfold UnpackedFloat.normalize
  split
  · rename_i hnegative
    exact absurd (Int.compare_eq_lt.mp hnegative) (not_lt.mpr hm)
  · rfl
  · exact isPositive_roundWithAccuracy _ _ _

theorem isFair_number_ofNumber (hu : IsFair u) : IsFair (number (ofNumber u)) := by
  rcases hu with rfl | hpositive
  · exact .inl rfl
  · exact .inr (isPositive_unpack_pack hpositive)

/-- A zero of either sign makes no difference, whether it is added or taken off. -/
theorem add_sub_zero_eq (hu : IsFair u) :
    UnpackedFloat.add .binary64 u (.zero s) = u ∧ UnpackedFloat.sub .binary64 u (.zero s) = u := by
  rcases hu with rfl | hpositive
  · exact ⟨rfl, rfl⟩
  · cases u with
    | notANumber | infinity | finite => exact ⟨rfl, rfl⟩
    | zero =>
      obtain rfl := hpositive
      cases s with
      | positive | negative => exact ⟨rfl, rfl⟩

theorem not_lt_zero_of_isFair (hu : IsFair u) : u.lt (.zero s) = false := by
  rcases hu with rfl | hpositive
  · rfl
  · cases u with
    | notANumber => rfl
    | infinity =>
      obtain rfl := hpositive
      rfl
    | finite =>
      obtain rfl := hpositive
      rfl
    | zero => rfl

theorem IsPositive.add (hu : IsPositive u) (hv : IsPositive v) :
    IsPositive (UnpackedFloat.add .binary64 u v) := by
  match u, v, hu, hv with
  | .infinity _, .infinity _, rfl, rfl => rfl
  | .infinity _, .zero _, rfl, rfl => rfl
  | .infinity _, .finite _ _ _ _, rfl, rfl => rfl
  | .zero _, .infinity _, rfl, rfl => rfl
  | .zero _, .zero _, rfl, rfl => rfl
  | .zero _, .finite _ _ _ _, rfl, rfl => rfl
  | .finite _ _ _ _, .infinity _, rfl, rfl => rfl
  | .finite _ _ _ _, .zero _, rfl, rfl => rfl
  | .finite _ m e _, .finite _ n f _, rfl, rfl =>
    exact isPositive_normalize (Int.add_nonneg (Int.natCast_nonneg _) (Int.natCast_nonneg _)) _

/-- Only an infinite number times zero is undefined. -/
theorem IsPositive.mul (hu : IsPositive u) (hv : IsPositive v) :
    IsFair (UnpackedFloat.mul .binary64 u v) := by
  match u, v, hu, hv with
  | .infinity _, .infinity _, rfl, rfl => exact .inr rfl
  | .infinity _, .zero _, rfl, rfl => exact .inl rfl
  | .infinity _, .finite _ _ _ _, rfl, rfl => exact .inr rfl
  | .zero _, .infinity _, rfl, rfl => exact .inl rfl
  | .zero _, .zero _, rfl, rfl => exact .inr rfl
  | .zero _, .finite _ _ _ _, rfl, rfl => exact .inr rfl
  | .finite _ _ _ _, .infinity _, rfl, rfl => exact .inr rfl
  | .finite _ _ _ _, .zero _, rfl, rfl => exact .inr rfl
  | .finite _ m e _, .finite _ n f _, rfl, rfl =>
    exact .inr (isPositive_roundWithAccuracy _ _ _)

theorem IsPositive.mul_finite {m : Nat} {e : Int} {hm : 0 < m} (hu : IsPositive u) :
    IsPositive (UnpackedFloat.mul .binary64 u (.finite .positive m e hm)) := by
  match u, hu with
  | .infinity _, rfl => rfl
  | .zero _, rfl => rfl
  | .finite _ _ _ _, rfl => exact isPositive_roundWithAccuracy _ _ _

/-- Of two numbers in the form of doubles, the one that is not less has as many of the smaller units
    at least. -/
theorem IsCanonical.units_le {m n : Nat} {e f : Int} (hm : IsCanonical m e) (hn : IsCanonical n f)
    (hle : ((compare e f).then (compare m n)) ≠ .lt) :
    n <<< (f - min e f).toNat ≤ m <<< (e - min e f).toNat := by
  rw [Nat.shiftLeft_eq, Nat.shiftLeft_eq]
  rcases lt_trichotomy e f with hlt | rfl | hgt
  · rw [Int.compare_eq_lt.mpr hlt] at hle
    exact (hle rfl).elim
  · have hmantissa : n ≤ m := by
      rw [Int.compare_eq_eq.mpr rfl] at hle
      exact Nat.le_of_not_lt fun hlt => hle (Nat.compare_eq_lt.mpr hlt)
    simpa using hmantissa
  · have hfull : 2 ^ 52 ≤ m := hm.full.resolve_right (by have := hn.least; omega)
    have hbelow := hn.below
    obtain ⟨k, hk⟩ : ∃ k, (e - min e f).toNat = k + 1 := ⟨(e - f).toNat - 1, by omega⟩
    have hzero : (f - min e f).toNat = 0 := by omega
    have hpos := Nat.two_pow_pos k
    rw [hk, hzero, pow_zero, mul_one, pow_succ]
    nlinarith

/-- What is taken off a number that is not less leaves none that is negative. -/
theorem IsPositive.sub {x y : Float} (hx : IsPositive (number x)) (hy : IsPositive (number y))
    (hle : (number x).lt (number y) = false) :
    IsFair (UnpackedFloat.sub .binary64 (number x) (number y)) := by
  have hcanonical {z : Float} {s : Sign} {m : Nat} {e : Int} {hm : 0 < m}
      (hz : number z = .finite s m e hm) : IsCanonical m e := isCanonical_number hz
  obtain ⟨u, hu⟩ : ∃ u, number x = u := ⟨_, rfl⟩
  obtain ⟨v, hv⟩ : ∃ v, number y = v := ⟨_, rfl⟩
  rw [hu] at hx hle ⊢
  rw [hv] at hy hle ⊢
  match u, v, hx, hy with
  | .infinity _, .infinity _, rfl, rfl => exact .inl rfl
  | .infinity _, .zero _, rfl, rfl => exact .inr rfl
  | .infinity _, .finite _ _ _ _, rfl, rfl => exact .inr rfl
  | .zero _, .infinity _, rfl, rfl => cases hle
  | .zero _, .zero _, rfl, rfl => exact .inr rfl
  | .zero _, .finite _ _ _ _, rfl, rfl => cases hle
  | .finite _ _ _ _, .infinity _, rfl, rfl => cases hle
  | .finite _ _ _ _, .zero _, rfl, rfl => exact .inr rfl
  | .finite _ m e _, .finite _ n f _, rfl, rfl =>
    have hnot : (compare e f).then (compare m n) ≠ .lt := by
      intro hlt
      have hless : (some ((compare e f).then (compare m n)) == some Ordering.lt) = false := hle
      rw [hlt] at hless
      cases hless
    have hunits := (hcanonical hu).units_le (hcanonical hv) hnot
    refine .inr (isPositive_normalize ?_ _)
    exact Int.sub_nonneg_of_le (Int.ofNat_le.mpr hunits)

end Numbers

section Doubles

variable {x w : Float}

theorem add_eq_ofNumber (x y : Float) :
    x + y = ofNumber (UnpackedFloat.add .binary64 (number x) (number y)) := rfl

theorem sub_eq_ofNumber (x y : Float) :
    x - y = ofNumber (UnpackedFloat.sub .binary64 (number x) (number y)) := rfl

theorem lt_iff {x y : Float} : x < y ↔ (number x).lt (number y) = true := by
  have hlt : x < y ↔ decide ((number x).lt (number y) = true) = true := Iff.rfl
  rw [hlt, decide_eq_true_iff]

/-- A double that is zero or more is a zero of either sign, or positive. -/
theorem zero_or_isPositive (hle : 0 ≤ w) :
    (∃ s, number w = .zero s) ∨ IsPositive (number w) := by
  rw [le_iff, number_zero] at hle
  cases hnumber : number w with
  | notANumber =>
    rw [hnumber] at hle
    cases hle
  | infinity s =>
    rw [hnumber] at hle
    cases s with
    | positive => exact .inr rfl
    | negative => cases hle
  | zero s => exact .inl ⟨s, rfl⟩
  | finite s m e hm =>
    rw [hnumber] at hle
    cases s with
    | positive => exact .inr rfl
    | negative => cases hle

/-- One that is not more than zero is a zero. -/
theorem exists_zero_of_not_lt (hle : 0 ≤ w) (hzero : ¬ 0 < w) : ∃ s, number w = .zero s := by
  rcases zero_or_isPositive hle with hw | hw
  · exact hw
  · rw [lt_iff, number_zero] at hzero
    cases hnumber : number w with
    | notANumber =>
      rw [hnumber] at hw
      exact hw.elim
    | infinity s =>
      rw [hnumber] at hw hzero
      obtain rfl := hw
      exact (hzero rfl).elim
    | zero s => exact ⟨s, rfl⟩
    | finite s m e hm =>
      rw [hnumber] at hw hzero
      obtain rfl := hw
      exact (hzero rfl).elim

/-- Sums of doubles that are zero or more are never negative, nor is their sum ever a zero that is
    marked as negative. -/
theorem isPositive_total {weights : List Float} (hweights : ∀ w ∈ weights, 0 ≤ w) :
    IsPositive (number (Weight.total weights)) := by
  induction weights using List.reverseRecOn with
  | nil => rfl
  | append_singleton weights w ih =>
    obtain ⟨hbefore, hw⟩ := List.forall_mem_append.mp hweights
    rw [List.forall_mem_singleton] at hw
    have hsum : Weight.total (weights ++ [w]) = Weight.total weights + w :=
      Weight.total_append_singleton weights w
    rw [hsum, add_eq_ofNumber]
    rcases zero_or_isPositive hw with ⟨s, hs⟩ | hpositive
    · rw [hs, (add_sub_zero_eq (.inr (ih hbefore))).1, ofNumber_number]
      exact ih hbefore
    · exact isPositive_unpack_pack ((ih hbefore).add hpositive)

theorem isPositive_fraction (share : Share) :
    IsPositive (number (Weight.fraction share : Float)) := by
  have hwhole : IsPositive (number (Float.ofNat share.val)) :=
    (Decimal.mk share.val 0).isPositive_toFloat
  have hunit : number (Float.ofBits 0x3CA0000000000000) =
      .finite .positive 0x10000000000000 (-105) (by decide) := rfl
  have hproduct : (Weight.fraction share : Float) = ofNumber (UnpackedFloat.mul .binary64
      (number (Float.ofNat share.val)) (number (Float.ofBits 0x3CA0000000000000))) := rfl
  rw [hproduct, hunit]
  exact isPositive_unpack_pack hwhole.mul_finite

end Doubles

end Double

open Double in
/-- To doubles that are not negative, zeros make no difference. -/
theorem lawful_float : Weight.Lawful (fun w : Float => 0 ≤ w) (fun x => IsFair (number x)) where
  add_zero hweights hw hzero := by
    obtain ⟨s, hs⟩ := exists_zero_of_not_lt hw (of_decide_eq_false hzero)
    refine (add_eq_ofNumber _ _).trans ?_
    rw [hs, (add_sub_zero_eq (.inr (isPositive_total hweights))).1, ofNumber_number]
  fair_mul hweights share :=
    isFair_number_ofNumber ((isPositive_fraction share).mul (isPositive_total hweights))
  fair_sub {rest w} hrest hw hle := by
    have hnot : (number rest).lt (number w) = false := by
      rw [← Bool.not_eq_true, ← lt_iff]
      exact of_decide_eq_false hle
    apply isFair_number_ofNumber (u := UnpackedFloat.sub .binary64 (number rest) (number w))
    rcases zero_or_isPositive hw with ⟨s, hs⟩ | hpositive
    · rw [hs, (add_sub_zero_eq hrest).2]
      exact hrest
    · rcases hrest with hnan | hrest
      · rw [hnan]
        exact .inl rfl
      · exact hrest.sub hpositive hnot
  sub_zero hrest hw hzero := by
    obtain ⟨s, hs⟩ := exists_zero_of_not_lt hw (of_decide_eq_false hzero)
    refine (sub_eq_ofNumber _ _).trans ?_
    rw [hs, (add_sub_zero_eq hrest).2, ofNumber_number]
  not_lt_zero hrest hw hzero := by
    obtain ⟨s, hs⟩ := exists_zero_of_not_lt hw (of_decide_eq_false hzero)
    refine decide_eq_false (mt lt_iff.mp ?_)
    rw [hs, not_lt_zero_of_isFair hrest]
    exact Bool.false_ne_true

end WordGrammar

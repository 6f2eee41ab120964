import WordGrammar.Json.Number
import WordGrammar.Proofs.Double.Rounding
import WordGrammar.Proofs.Json.RoundTrip
import WordGrammar.Proofs.Pattern.Weight

open Float.Model Float.Model.UnpackedFloat

namespace WordGrammar

namespace Double

variable {x : Float}

/-- The magnitude of a finite double stands for that of its number. -/
theorem number_abs (hfinite : x.isFinite = true) : number x.abs = (number x).abs := by
  have habs : x.abs = ofNumber (number x).abs := rfl
  rw [habs]
  obtain ⟨hzero, -⟩ | ⟨hm, hnumber, hfield⟩ := number_eq_of_isFinite hfinite
  · rw [hzero]
    show number (ofNumber (.zero .positive)) = .zero .positive
    rfl
  · rw [hnumber]
    exact ((isCanonical_number hnumber).number_ofNumber hm).trans (if_pos (by omega))

theorem isFinite_abs (hfinite : x.isFinite = true) : x.abs.isFinite = true := by
  have hmagnitude : (number x.abs).isFinite = (number x).abs.isFinite :=
    congrArg UnpackedFloat.isFinite (number_abs hfinite)
  have hnumber : (number x).isFinite = true := hfinite
  refine hmagnitude.trans ?_
  cases hx : number x <;> rw [hx] at hnumber <;> first | rfl | cases hnumber

theorem isNegative_abs (hfinite : x.isFinite = true) : Decimal.isNegative x.abs = false := by
  by_contra hnot
  have hnegative : sign x.abs = .negative := by
    rw [sign, if_pos (Bool.of_not_eq_false hnot)]
  have hmagnitude := number_abs hfinite
  obtain ⟨hzero, -⟩ | ⟨hm, hnumber, -⟩ := number_eq_of_isFinite (isFinite_abs hfinite)
  · rw [hzero, hnegative] at hmagnitude
    cases hx : number x <;> rw [hx] at hmagnitude <;> cases hmagnitude
  · rw [hnumber, hnegative] at hmagnitude
    cases hx : number x <;> rw [hx] at hmagnitude <;> cases hmagnitude

/-- Only zeros have a magnitude that is equal to zero. -/
theorem abs_beq_zero_iff (hfinite : x.isFinite = true) :
    (x.abs == 0) = true ↔ number x = .zero (sign x) := by
  have hbeq : (x.abs == 0) = (number x.abs).beq (.zero .positive) := rfl
  rw [hbeq, number_abs hfinite]
  obtain ⟨hzero, -⟩ | ⟨hm, hnumber, -⟩ := number_eq_of_isFinite hfinite
  · rw [hzero]
    exact ⟨fun _ => rfl, fun _ => rfl⟩
  · rw [hnumber]
    exact ⟨nofun, nofun⟩

end Double

namespace Json

open Double

variable {x y : Float}

section Digits

/-- No digit zero stands in front of a positive number. -/
theorem head?_digits_ne_zero {n : Nat} (hn : 0 < n) : (Numeral.digits n).head? ≠ some '0' := by
  induction n using Nat.strongRecOn with
  | ind n ih =>
    rw [Numeral.digits, Nat.toDigits_eq_if (by decide)]
    split
    · intro hhead
      have hzero : n.digitChar = '0' := Option.some.inj hhead
      rw [Nat.digitChar_eq_zero] at hzero
      omega
    · rw [List.head?_append_of_ne_nil _ Nat.toDigits_ne_nil]
      exact ih (n / 10) (by omega) (by omega)

/-- The digits before the point begin with zero only if that is all there is. -/
theorem head?_wholeDigits {d : Decimal} (hpositive : 0 < d.coefficient)
    (hhead : d.wholeDigits.head? = some '0') : d.wholeDigits = ['0'] := by
  have hdigits := head?_digits_ne_zero hpositive
  have hne := Pattern.digits_ne_nil d.coefficient
  unfold Decimal.wholeDigits at hhead ⊢
  dsimp only at hhead ⊢
  split at hhead
  · rw [List.head?_append_of_ne_nil _ hne] at hhead
    exact (hdigits hhead).elim
  · split at hhead
    · rw [List.head?_take, if_neg (by omega)] at hhead
      exact (hdigits hhead).elim
    · rename_i hnegative hsmall
      rw [if_neg hnegative, if_neg hsmall]

end Digits

/-- The shortest decimal of a magnitude that is not zero is not zero. -/
theorem coefficient_shortest_abs (hfinite : x.isFinite = true) (hne : (x.abs == 0) = false)
    (tie : Decimal.Tie) : 0 < (Decimal.shortest tie x.abs).coefficient := by
  have hfinite' := isFinite_abs hfinite
  have hsign := isNegative_abs hfinite
  obtain ⟨hzero, -⟩ | ⟨hm, hnumber, -⟩ := number_of_isFinite hfinite' hsign
  · obtain hmagnitude : x.abs = 0 := eq_of_number_eq hzero
    rw [hmagnitude] at hne
    cases hne
  · have hread : (Decimal.shortest tie x.abs).toFloat = x.abs :=
      Decimal.toFloat_shortest hfinite' hsign hm
    refine Nat.pos_of_ne_zero fun hzero => ?_
    rw [Decimal.toFloat_of_zero hzero] at hread
    rw [← hread] at hne
    cases hne

/-- A finite double is written as a number. -/
theorem wellFormed_ofFloat (hfinite : x.isFinite = true) : (Number.ofFloat x).WellFormed := by
  unfold Number.ofFloat
  dsimp only
  split
  · exact ⟨by simp, by simp, fun _ => rfl, by simp⟩
  · rename_i hne
    have hpositive := coefficient_shortest_abs hfinite (Bool.of_not_eq_true hne) .toEven
    generalize Decimal.shortest .toEven x.abs = d at hpositive
    have hdigits : ∀ c ∈ Numeral.digits d.coefficient, c.isDigit = true :=
      fun _ => Pattern.isDigit_of_mem_digits
    split
    · refine ⟨d.wholeDigits_ne_nil, ?_, head?_wholeDigits hpositive, by simp⟩
      refine List.forall_mem_append.mpr ⟨fun _ => Decimal.isDigit_of_mem_wholeDigits, ?_⟩
      split
      · simp
      · exact fun _ => Decimal.isDigit_of_mem_fractionDigits
    · refine ⟨?_, ?_, fun hhead => ?_, ?_⟩
      · rw [ne_eq, List.take_eq_nil_iff]
        exact not_or.mpr ⟨by decide, Pattern.digits_ne_nil _⟩
      · rw [List.take_append_drop]
        exact hdigits
      · rw [List.head?_take, if_neg (by decide)] at hhead
        exact (head?_digits_ne_zero hpositive hhead).elim
      · rintro e ⟨⟩
        exact ⟨Pattern.digits_ne_nil _, fun _ => Pattern.isDigit_of_mem_digits⟩

/-- A zero is written with its sign, and reads back with it. -/
theorem toFloat?_ofFloat_of_zero (hfinite : x.isFinite = true) (hzero : (x.abs == 0) = true) :
    (Number.ofFloat x).toFloat? = some x := by
  have hnumber := (abs_beq_zero_iff hfinite).mp hzero
  have hwritten : Number.ofFloat x = ⟨Decimal.isNegative x, ['0'], ['0'], none⟩ := by
    rw [Number.ofFloat]
    exact if_pos hzero
  rw [hwritten]
  cases hsign : Decimal.isNegative x with
  | true =>
    rw [sign, hsign] at hnumber
    exact congrArg some (eq_of_number_eq hnumber).symm
  | false =>
    rw [sign, hsign] at hnumber
    exact congrArg some (eq_of_number_eq hnumber).symm

/-- What reads back as an equal double reads back as the same. -/
theorem eq_of_toFloat?_ofFloat (hfinite : x.isFinite = true)
    (hread : (Number.ofFloat x).toFloat? = some y) (hbeq : (y == x) = true) : y = x := by
  by_cases hzero : (x.abs == 0) = true
  · rw [toFloat?_ofFloat_of_zero hfinite hzero] at hread
    exact (Option.some.inj hread).symm
  · refine eq_of_beq hbeq fun s hnumber => hzero ((abs_beq_zero_iff hfinite).mpr ?_)
    obtain ⟨hsigned, -⟩ | ⟨_, hfinite, -⟩ := number_eq_of_isFinite hfinite
    · exact hsigned
    · rw [hnumber] at hfinite
      cases hfinite

end Json

end WordGrammar

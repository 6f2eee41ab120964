import WordGrammar.Proofs.Decimal.Shortest
import WordGrammar.Proofs.Pattern.Soundness

namespace WordGrammar

namespace Decimal

theorem isDigit_of_mem_wholeDigits {d : Decimal} {c : Char} (hmem : c ∈ d.wholeDigits) :
    c.isDigit = true := by
  unfold wholeDigits at hmem
  dsimp only at hmem
  split at hmem
  · rw [List.mem_append, List.mem_replicate] at hmem
    obtain hmem | ⟨-, rfl⟩ := hmem
    · exact Pattern.isDigit_of_mem_digits hmem
    · rfl
  · split at hmem
    · exact Pattern.isDigit_of_mem_digits (List.mem_of_mem_take hmem)
    · obtain rfl : c = '0' := by simpa using hmem
      rfl

theorem isDigit_of_mem_fractionDigits {d : Decimal} {c : Char} (hmem : c ∈ d.fractionDigits) :
    c.isDigit = true := by
  unfold fractionDigits at hmem
  dsimp only at hmem
  split at hmem
  · cases hmem
  · split at hmem
    · exact Pattern.isDigit_of_mem_digits (List.mem_of_mem_drop hmem)
    · rw [List.mem_append, List.mem_replicate] at hmem
      obtain ⟨-, rfl⟩ | hmem := hmem
      · rfl
      · exact Pattern.isDigit_of_mem_digits hmem

theorem wholeDigits_ne_nil (d : Decimal) : d.wholeDigits ≠ [] := by
  have hdigits := List.length_pos_of_ne_nil (Pattern.digits_ne_nil d.coefficient)
  unfold wholeDigits
  dsimp only
  split
  · simp [Pattern.digits_ne_nil]
  · split
    · rename_i hlt
      apply List.ne_nil_of_length_pos
      rw [List.length_take]
      omega
    · simp

/-- Writing a decimal out around a point keeps its value. -/
theorem value_positional (d : Decimal) :
    value ⟨Numeral.value (d.wholeDigits ++ d.fractionDigits), -d.fractionDigits.length⟩ =
      d.value := by
  have hdigits := Numeral.value_digits d.coefficient
  unfold wholeDigits fractionDigits
  dsimp only
  split
  · rename_i hnonneg
    have hzeros : Numeral.value (Numeral.digits d.coefficient ++
        List.replicate d.exponent.toNat '0' ++ []) = 10 ^ d.exponent.toNat * d.coefficient := by
      rw [List.append_nil, Numeral.value, Nat.ofDigitChars_append, Nat.ofDigitChars_replicate_zero]
      exact congrArg _ hdigits
    have hexponent : (10 : ℚ) ^ d.exponent = 10 ^ d.exponent.toNat := by
      rw [← zpow_natCast]
      congr 1
      omega
    rw [value, value, hzeros, hexponent]
    push_cast
    simp [mul_comm]
  · split
    · rename_i hneg hlt
      have hlength : ((Numeral.digits d.coefficient).drop
          ((Numeral.digits d.coefficient).length - d.exponent.natAbs)).length =
            d.exponent.natAbs := by
        rw [List.length_drop]
        omega
      have hexponent : -((d.exponent.natAbs : Nat) : Int) = d.exponent := by omega
      rw [List.take_append_drop, hlength, hdigits, hexponent]
    · rename_i hneg hle
      have hlength : (List.replicate (d.exponent.natAbs - (Numeral.digits d.coefficient).length)
          '0' ++ Numeral.digits d.coefficient).length = d.exponent.natAbs := by
        rw [List.length_append, List.length_replicate]
        omega
      have hexponent : -((d.exponent.natAbs : Nat) : Int) = d.exponent := by omega
      have hzeros : Numeral.value (['0'] ++
          (List.replicate (d.exponent.natAbs - (Numeral.digits d.coefficient).length) '0' ++
            Numeral.digits d.coefficient)) = d.coefficient := by
        rw [Numeral.value, Nat.ofDigitChars_append, Nat.ofDigitChars_append,
          Nat.ofDigitChars_replicate_zero]
        simpa [Nat.ofDigitChars_cons, Numeral.value] using hdigits
      rw [hlength, hzeros, hexponent]

end Decimal

namespace Pattern

open Double Float.Model.UnpackedFloat

theorem weightDigits_eq (weight : Float) (hne : (weight.abs == 0) = false) :
    weightDigits weight =
      (Decimal.shortest .up weight.abs).wholeDigits ++
        if (Decimal.shortest .up weight.abs).fractionDigits.isEmpty then []
        else '.' :: (Decimal.shortest .up weight.abs).fractionDigits := by
  simp only [weightDigits, hne, Bool.false_eq_true, if_false]
  cases (Decimal.shortest .up weight.abs).fractionDigits with
  | nil => simp
  | cons c fraction => simp

/-- What a pattern needs of a weight: it is written as a weight that stands for it, and left out
    only if it is one. -/
structure Printable (weight : Float) : Prop where
  isWeight : IsWeight (weightText weight) weight
  one : (weight == 1) = true → weight = 1

section Printable

variable {weight : Float}

/-- Only one is compared equal to one. -/
theorem eq_one_of_beq (hbeq : (weight == 1) = true) : weight = 1 :=
  eq_of_beq hbeq nofun

theorem weightText_of_isFinite (hfinite : weight.isFinite = true)
    (hsign : Decimal.isNegative weight = false) : weightText weight = weightDigits weight := by
  have hfinite' : (number weight).isFinite = true := hfinite
  have hnan : weight.isNaN = false := by
    show (number weight).isNaN = false
    cases hnumber : number weight <;> rw [hnumber] at hfinite' <;> first | rfl | cases hfinite'
  have hinf : weight.isInf = false := by
    show (number weight).isInf = false
    cases hnumber : number weight <;> rw [hnumber] at hfinite' <;> first | rfl | cases hfinite'
  rw [weightText, hnan, hsign, hinf]
  rfl

theorem abs_eq_self (hfinite : weight.isFinite = true)
    (hsign : Decimal.isNegative weight = false) : weight.abs = weight := by
  have habs : (number weight).abs = number weight := by
    obtain ⟨hzero, -⟩ | ⟨hm, hnumber, -⟩ := number_of_isFinite hfinite hsign
    · rw [hzero]
      rfl
    · rw [hnumber]
      rfl
  have hweight : weight.abs = ofNumber (number weight).abs := rfl
  rw [hweight, habs, ofNumber_number]

theorem printable_zero : Printable 0 where
  isWeight := isWeight_of_readWeight? rfl
  one := by decide

/-- Every finite weight with a clear sign bit can be written in a pattern. -/
theorem printable_of_isFinite (hfinite : weight.isFinite = true)
    (hsign : Decimal.isNegative weight = false) : Printable weight := by
  obtain ⟨hzero, -⟩ | ⟨hm, hnumber, -⟩ := number_of_isFinite hfinite hsign
  · obtain rfl : weight = 0 := eq_of_number_eq hzero
    exact printable_zero
  · have habs := abs_eq_self hfinite hsign
    have hne : (weight.abs == 0) = false := by
      have hbeq : (weight == 0) = (number weight).beq (.zero .positive) := rfl
      rw [habs, hbeq, hnumber]
      rfl
    have htext := (weightText_of_isFinite hfinite hsign).trans (weightDigits_eq weight hne)
    rw [habs] at htext
    obtain ⟨d, hd⟩ : ∃ d, Decimal.shortest .up weight = d := ⟨_, rfl⟩
    rw [hd] at htext
    refine ⟨⟨d.wholeDigits, d.fractionDigits, ?_, ?_, ?_, ?_⟩, eq_one_of_beq⟩
    · intro c hmem
      rcases List.mem_append.mp hmem with hmem | hmem
      · exact Decimal.isDigit_of_mem_wholeDigits hmem
      · exact Decimal.isDigit_of_mem_fractionDigits hmem
    · exact List.append_ne_nil_of_left_ne_nil d.wholeDigits_ne_nil _
    · rw [htext]
      cases d.fractionDigits with
      | nil => simp
      | cons c fraction => simp
    · rw [← value_div_eq, d.value_positional, ← Decimal.toFloat_eq_iff]
      exact hd ▸ Decimal.toFloat_shortest hfinite hsign hm

end Printable

end Pattern

end WordGrammar

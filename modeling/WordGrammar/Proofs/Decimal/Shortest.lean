import WordGrammar.Proofs.Double.Scientific

open Float.Model Float.Model.UnpackedFloat

namespace WordGrammar.Decimal

open Double

/-- The number that a decimal stands for. -/
def value (d : Decimal) : ℚ := d.coefficient * 10 ^ d.exponent

theorem value_eq_zero_iff {d : Decimal} : d.value = 0 ↔ d.coefficient = 0 := by
  have hpow : (10 : ℚ) ^ d.exponent ≠ 0 := by positivity
  simp [value, hpow]

/-- The exponent as its sign and its magnitude. -/
theorem exponent_eq (d : Decimal) :
    (if decide (d.exponent < 0) then Int.negOfNat d.exponent.natAbs
      else Int.ofNat d.exponent.natAbs) = d.exponent := by
  by_cases hneg : d.exponent < 0
  · simp only [hneg, decide_true, if_true]
    rw [Int.negOfNat_eq]
    simp only [Int.ofNat_eq_natCast]
    omega
  · simp only [hneg, decide_false, Bool.false_eq_true, if_false, Int.ofNat_eq_natCast]
    omega

theorem ten_pow_of_nonneg {e : Int} (he : ¬ e < 0) : (10 : ℚ) ^ e = 10 ^ e.natAbs := by
  rw [← zpow_natCast]
  congr 1
  omega

theorem ten_pow_of_neg {e : Int} (he : e < 0) : (10 : ℚ) ^ e = (10 ^ e.natAbs)⁻¹ := by
  rw [← zpow_natCast, ← zpow_neg]
  congr 1
  omega

theorem toFloat_of_zero {d : Decimal} (hzero : d.coefficient = 0) :
    d.toFloat = ofNumber (.zero .positive) := by
  rw [toFloat, Float.ofScientific, hzero]
  split
  · rename_i hsmall
    obtain ⟨m, e, hm, hten, -⟩ := holds_power ⟨d.exponent.natAbs, by omega⟩
    have hnone : number (Nat.toUInt64 0).toFloat = .zero .positive := rfl
    by_cases hneg : d.exponent < 0
    · simp only [hneg, decide_true, if_true]
      refine (div_eq_ofNumber _ _).trans ?_
      rw [hnone]
      exact congrArg (fun u => ofNumber (UnpackedFloat.div .binary64 (.zero .positive) u)) hten
    · simp only [hneg, decide_false]
      refine (mul_eq_ofNumber _ _).trans ?_
      rw [hnone]
      exact congrArg (fun u => ofNumber (UnpackedFloat.mul .binary64 (.zero .positive) u)) hten
  · rfl

/-- Reading a decimal comes to the double nearest to its value. -/
theorem toFloat_of_pos {d : Decimal} (hpos : 0 < d.coefficient) :
    d.toFloat = ofNumber (nearest d.value) := by
  rw [toFloat, Float.ofScientific]
  split
  · rename_i hsmall
    obtain ⟨hcoefficient, hexponent⟩ := hsmall
    have hten := holds_power ⟨d.exponent.natAbs, by omega⟩
    have hwhole := holds_toFloat hpos hcoefficient
    by_cases hneg : d.exponent < 0
    · simp only [hneg, decide_true, if_true]
      rw [value, ten_pow_of_neg hneg, ← div_eq_mul_inv]
      exact hwhole.div hten
    · simp only [hneg, decide_false]
      rw [value, ten_pow_of_nonneg hneg]
      exact hwhole.mul hten
  · rw [exponent_eq]
    exact ofNumber_congr (pack_ofScientific hpos d.exponent)

/-- A decimal is read by its value alone. -/
theorem toFloat_congr {c d : Decimal} (hvalue : c.value = d.value) : c.toFloat = d.toFloat := by
  by_cases hzero : c.coefficient = 0
  · have hzero' : d.coefficient = 0 := by
      rw [← value_eq_zero_iff, ← hvalue, value_eq_zero_iff, hzero]
    rw [toFloat_of_zero hzero, toFloat_of_zero hzero']
  · have hne : d.coefficient ≠ 0 := by
      rw [ne_eq, ← value_eq_zero_iff, ← hvalue, value_eq_zero_iff]
      exact hzero
    rw [toFloat_of_pos (Nat.pos_of_ne_zero hzero), toFloat_of_pos (Nat.pos_of_ne_zero hne), hvalue]

section Search

variable {x : Float} {tie : Tie}

theorem eq_of_toBits_beq {d : Decimal} (h : (d.toFloat.toBits == x.toBits) = true) :
    d.toFloat = x :=
  eq_of_toBits_eq (beq_iff_eq.mp h)

theorem toFloat_of_onGrid? {num den : Nat} {e : Int} {d : Decimal}
    (hfound : onGrid? tie x num den e = some d) : d.toFloat = x := by
  unfold onGrid? at hfound
  dsimp only at hfound
  split at hfound
  · cases hfound
  · rename_i hbelow habove
    cases hfound
    exact eq_of_toBits_beq hbelow
  · rename_i hbelow habove
    cases hfound
    exact eq_of_toBits_beq habove
  · rename_i hbelow habove
    split at hfound
    · cases hfound
      exact eq_of_toBits_beq hbelow
    · split at hfound
      · cases hfound
        exact eq_of_toBits_beq habove
      · cases tie with
        | up =>
          cases hfound
          exact eq_of_toBits_beq habove
        | toEven =>
          cases hfound
          split
          · exact eq_of_toBits_beq hbelow
          · exact eq_of_toBits_beq habove

/-- What the search finds reads back. -/
theorem toFloat_of_search? {num den tries : Nat} {e : Int} {d : Decimal}
    (hfound : search? tie x num den tries e = some d) : d.toFloat = x := by
  induction tries generalizing e with
  | zero => cases hfound
  | succ tries ih =>
    unfold search? at hfound
    split at hfound
    · rename_i d' hgrid
      cases hfound
      exact toFloat_of_onGrid? hgrid
    · exact ih hfound

theorem value_strip (budget : Nat) (d : Decimal) : (strip budget d).value = d.value := by
  induction budget generalizing d with
  | zero => rfl
  | succ budget ih =>
    unfold strip
    split
    · rename_i hzeros
      rw [ih, value, value]
      have htens : ((d.coefficient / 10 : Nat) : ℚ) * 10 = d.coefficient := by
        exact_mod_cast Nat.div_mul_cancel (Nat.dvd_of_mod_eq_zero hzeros.2)
      rw [zpow_add₀ (by norm_num), zpow_one, ← htens]
      ring
    · rfl

theorem value_exact (num k : Nat) : (exact num (2 ^ k)).value = num * 2 ^ (-k : Int) := by
  have hten : (10 : ℚ) ^ k = 2 ^ k * 5 ^ k := by
    rw [← mul_pow]
    norm_num
  have hfive : (5 : ℚ) ^ k ≠ 0 := by positivity
  have htwo : (2 : ℚ) ^ k ≠ 0 := by positivity
  rw [value, exact, Nat.log2_two_pow, Nat.pow_eq, zpow_neg, zpow_neg, zpow_natCast, zpow_natCast,
    hten]
  push_cast
  field_simp

theorem significand_lt (x : Float) : significand x < 2 ^ 53 := by
  have hlt := (fractionBits x.toBits.toBitVec).isLt
  have hfield := fractionField_eq x
  unfold significand
  split <;> omega

/-- The expansion in full of a positive finite double is its number. -/
theorem value_exact_ratio (x : Float) :
    (exact (ratio x).1 (ratio x).2).value =
      significand x * 2 ^ (((max (exponentField x) 1 : Nat) : Int) - 1075) := by
  unfold ratio
  dsimp only
  split
  · rename_i hle
    obtain ⟨n, hn⟩ := Nat.exists_eq_add_of_le hle
    have hamount : max (exponentField x) 1 - 1075 = n := by omega
    have hexponent : ((max (exponentField x) 1 : Nat) : Int) - 1075 = n := by omega
    have hvalue := value_exact (significand x <<< n) 0
    rw [pow_zero] at hvalue
    rw [hamount, hexponent, hvalue, Nat.shiftLeft_eq, zpow_natCast]
    push_cast
    simp
  · rename_i hlt
    obtain ⟨n, hn⟩ : ∃ n, max (exponentField x) 1 + n = 1075 :=
      ⟨1075 - max (exponentField x) 1, by omega⟩
    have hamount : 1075 - max (exponentField x) 1 = n := by omega
    have hexponent : ((max (exponentField x) 1 : Nat) : Int) - 1075 = -n := by omega
    rw [hamount, hexponent, Nat.shiftLeft_eq, one_mul, value_exact]

theorem toFloat_exact (hfinite : x.isFinite = true) (hsign : isNegative x = false)
    (hpos : 0 < significand x) : (exact (ratio x).1 (ratio x).2).toFloat = x := by
  have hvalue := value_exact_ratio x
  have hcoefficient : 0 < (exact (ratio x).1 (ratio x).2).coefficient := by
    apply Nat.pos_of_ne_zero
    rw [ne_eq, ← value_eq_zero_iff, hvalue]
    have hsignificand : (significand x : ℚ) ≠ 0 := by exact_mod_cast hpos.ne'
    have hunit : (2 : ℚ) ^ (((max (exponentField x) 1 : Nat) : Int) - 1075) ≠ 0 := by positivity
    exact mul_ne_zero hsignificand hunit
  obtain ⟨-, hzero⟩ | ⟨hm, hnumber, -⟩ := number_of_isFinite hfinite hsign
  · omega
  · have hcanonical : 2 ^ 52 ≤ significand x ∨
        ((max (exponentField x) 1 : Nat) : Int) - 1075 = -1074 := by
      unfold significand
      split
      · rename_i hfield
        exact .inr (by omega)
      · exact .inl (by omega)
    rw [toFloat_of_pos hcoefficient, hvalue,
      nearest_natCast_mul_pow hm (significand_lt x) (by omega) hcanonical, ← hnumber,
      ofNumber_number]

/-- The shortest decimal of a positive finite double reads back as that double: neither the search
    for a shorter one nor the zeros dropped from its end change the value that it is read by. -/
theorem toFloat_shortest (hfinite : x.isFinite = true) (hsign : isNegative x = false)
    (hpos : 0 < significand x) : (shortest tie x).toFloat = x := by
  unfold shortest
  rw [toFloat_congr (value_strip _ _)]
  cases hfound : search? tie x (ratio x).1 (ratio x).2 17
      (magnitude (ratio x).1 (ratio x).2 - 1) with
  | none => exact toFloat_exact hfinite hsign hpos
  | some d => exact toFloat_of_search? hfound

end Search

end WordGrammar.Decimal

import WordGrammar.Proofs.Double.Packing

open Float.Model Float.Model.UnpackedFloat

namespace WordGrammar.Double

/-- The whole part of a number, whether a half is left, and whether anything is left beyond. -/
def extended (q : ℚ) : ExtendedMantissa where
  mantissa := ⌊q⌋₊
  roundBit := ⌊2 * q⌋₊ % 2 != 0
  stickyBit := decide ((⌊2 * q⌋₊ : ℚ) ≠ 2 * q)

/-- The place of the last binary digit that a double keeps of a number. -/
def lastPlace (q : ℚ) : Int :=
  Format.binary64.targetExponent (Int.log 2 q + 1)

/-- A number rounded to its last place, with one more digit where rounding carried that far. -/
def nearest (q : ℚ) : UnpackedFloat :=
  let rounded := (extended (q / 2 ^ lastPlace q)).roundedMantissa
  let (em, e) := shiftToTargetExponent .binary64 rounded (lastPlace q) .exact
  if h : em.mantissa = 0 then .zero .positive
  else .finite .positive em.mantissa e (Nat.pos_of_ne_zero h)

section Extended

variable {q : ℚ}

theorem extended_natCast (n : Nat) : extended n = ⟨n, false, false⟩ := by
  have htwice : ⌊2 * (n : ℚ)⌋₊ = 2 * n := by
    exact_mod_cast Nat.floor_natCast (R := ℚ) (2 * n)
  simp [extended, htwice]

theorem floor_half (q : ℚ) : ⌊q / 2⌋₊ = ⌊q⌋₊ / 2 := by
  exact_mod_cast Nat.floor_div_natCast q 2

/-- Nothing is left of a number if its double is even and nothing is left of that. -/
theorem floor_eq_self_iff (q : ℚ) :
    (⌊q⌋₊ : ℚ) = q ↔ ⌊2 * q⌋₊ % 2 = 0 ∧ (⌊2 * q⌋₊ : ℚ) = 2 * q := by
  constructor
  · intro h
    have htwice : ⌊2 * q⌋₊ = 2 * ⌊q⌋₊ := by
      rw [← h]
      exact_mod_cast Nat.floor_natCast (R := ℚ) (2 * ⌊q⌋₊)
    rw [htwice]
    refine ⟨by omega, ?_⟩
    push_cast
    rw [h]
  · rintro ⟨heven, htwice⟩
    obtain ⟨n, hn⟩ := Nat.dvd_of_mod_eq_zero heven
    rw [hn] at htwice
    push_cast at htwice
    have hqn : q = n := by linarith
    rw [hqn, Nat.floor_natCast]

theorem shiftRightOne_extended (q : ℚ) :
    (extended q).shiftRightOne = extended (q / 2) := by
  have htwice : 2 * (q / 2) = q := by ring
  have hfloor := floor_eq_self_iff q
  simp only [ExtendedMantissa.shiftRightOne, extended, floor_half, htwice]
  congr 1
  rw [Bool.eq_iff_iff]
  simp only [Bool.or_eq_true, bne_iff_ne, decide_eq_true_eq, ne_eq, hfloor]
  tauto

theorem shiftRight_extended (q : ℚ) (n : Nat) : extended q >>> n = extended (q / 2 ^ n) := by
  induction n with
  | zero =>
    show extended q = _
    simp
  | succ n ih =>
    have hstep : extended q >>> (n + 1) = (extended q >>> n).shiftRightOne := rfl
    rw [hstep, ih, shiftRightOne_extended, div_div, pow_succ]

end Extended

section Places

variable {q : ℚ} {m : Nat} {e : Int}

theorem targetExponent_eq (t : Int) :
    Format.binary64.targetExponent t = max (t - 53) (-1074) := by
  simp [Format.targetExponent, Format.mantissaBits, Format.minExponent]

theorem log_eq_of_le_of_lt {k : Int} (hlo : (2 : ℚ) ^ k ≤ q) (hhi : q < 2 ^ (k + 1)) :
    Int.log 2 q = k := by
  have hpos : 0 < q := lt_of_lt_of_le (by positivity) hlo
  have hle : k ≤ Int.log 2 q := (Int.zpow_le_iff_le_log Nat.one_lt_two hpos).mp hlo
  have hlt : Int.log 2 q < k + 1 := (Int.lt_zpow_iff_log_lt Nat.one_lt_two hpos).mp hhi
  omega

/-- The first binary place of a number is that of its whole part in whatever units it has one. -/
theorem log_eq_log2_add (hm : m ≠ 0) (hlo : m * 2 ^ e ≤ q) (hhi : q < (m + 1) * 2 ^ e) :
    Int.log 2 q = m.log2 + e := by
  have hunit : (0 : ℚ) < 2 ^ e := by positivity
  have hpow : ((2 ^ m.log2 : Nat) : ℚ) ≤ m := by exact_mod_cast Nat.log2_self_le hm
  have hpow' : (m : ℚ) + 1 ≤ ((2 ^ (m.log2 + 1) : Nat) : ℚ) := by
    exact_mod_cast Nat.lt_log2_self (n := m)
  push_cast at hpow hpow'
  apply log_eq_of_le_of_lt
  · rw [zpow_add₀ (by norm_num), zpow_natCast]
    nlinarith
  · have hsplit : (m.log2 : Int) + e + 1 = ((m.log2 + 1 : Nat) : Int) + e := by
      push_cast
      ring
    rw [hsplit, zpow_add₀ (by norm_num), zpow_natCast]
    nlinarith

/-- The place at which whole units are rounded is that of the number they are the whole part of. -/
theorem targetExponent_totalExponent (hq : 0 < q) (hm : ⌊q / 2 ^ e⌋₊ = m)
    (he : e ≤ lastPlace q) :
    Format.binary64.targetExponent (totalExponent m e) = lastPlace q := by
  have hunit : (0 : ℚ) < 2 ^ e := by positivity
  have hnonneg : 0 ≤ q / 2 ^ e := by positivity
  have hlo : m * 2 ^ e ≤ q := by
    rw [← le_div_iff₀ hunit, ← hm]
    exact Nat.floor_le hnonneg
  have hhi : q < (m + 1) * 2 ^ e := by
    rw [← div_lt_iff₀ hunit, ← hm]
    exact Nat.lt_floor_add_one _
  rw [lastPlace, targetExponent_eq] at *
  rw [targetExponent_eq, totalExponent]
  by_cases hzero : m = 0
  · have hlog : Int.log 2 q < e := by
      rw [← Int.lt_zpow_iff_log_lt Nat.one_lt_two hq]
      simpa [hzero] using hhi
    rw [hzero, Nat.log2_zero]
    omega
  · have hlog := log_eq_log2_add hzero hlo hhi
    rw [hlog]
    congr 1
    ring

end Places

/-- Rounding comes to the nearest double of the exact number, whatever units it starts from. -/
theorem roundWithAccuracy_eq_nearest {q : ℚ} {m : Nat} {e : Int} {accuracy : Accuracy} (hq : 0 < q)
    (hexact : ExtendedMantissa.ofMantissaAndAccuracy m accuracy = extended (q / 2 ^ e))
    (he : e ≤ lastPlace q) :
    roundWithAccuracy .binary64 .positive m e accuracy = nearest q := by
  have hm : ⌊q / 2 ^ e⌋₊ = m := by
    have hmantissa := congrArg ExtendedMantissa.mantissa hexact
    cases accuracy with
    | exact => exact hmantissa.symm
    | inexact o => cases o <;> exact hmantissa.symm
  have hshift : shiftToTargetExponent .binary64 m e accuracy =
      (extended (q / 2 ^ lastPlace q), lastPlace q) := by
    obtain ⟨n, hn⟩ := Int.le.dest he
    have hamount : (lastPlace q - e).toNat = n := by omega
    have hsplit : (2 : ℚ) ^ lastPlace q = 2 ^ e * 2 ^ n := by
      rw [← hn, zpow_add₀ (by norm_num), zpow_natCast]
    simp only [shiftToTargetExponent, shiftToExponent, targetExponent_totalExponent hq hm he,
      hamount, hexact, shiftRight_extended, hn, hsplit, div_div]
  unfold roundWithAccuracy nearest
  simp only [hshift]

section Exact

variable {m : Nat} {e : Int}

theorem natCast_div_pow (m : Nat) (e : Int) : (m : ℚ) * 2 ^ e / 2 ^ e = m := by
  have hunit : (0 : ℚ) < 2 ^ e := by positivity
  field_simp

theorem log_natCast_mul_pow (hm : m ≠ 0) (e : Int) :
    Int.log 2 ((m : ℚ) * 2 ^ e) = m.log2 + e := by
  have hunit : (0 : ℚ) < 2 ^ e := by positivity
  exact log_eq_log2_add hm le_rfl (by nlinarith)

theorem targetExponent_units (hm : m ≠ 0) (e : Int) :
    Format.binary64.targetExponent (totalExponent m e) = lastPlace (m * 2 ^ e) := by
  rw [lastPlace, log_natCast_mul_pow hm, totalExponent]
  congr 1
  ring

/-- A number that a double can hold is its own nearest double. -/
theorem nearest_natCast_mul_pow (hm : 0 < m) (hhi : m < 2 ^ 53) (hmin : -1074 ≤ e)
    (hcanonical : 2 ^ 52 ≤ m ∨ e = -1074) :
    nearest (m * 2 ^ e) = .finite .positive m e hm := by
  have hlog := log_natCast_mul_pow hm.ne' e
  have hlt := (Nat.log2_lt hm.ne').mpr hhi
  have hplace : lastPlace (m * 2 ^ e) = e := by
    rw [lastPlace, targetExponent_eq, hlog]
    obtain hlo | rfl := hcanonical
    · have hlog2 := log2_eq_52 hlo hhi
      omega
    · omega
  have htarget := targetExponent_units hm.ne' e
  rw [hplace] at htarget
  have hrounded : (extended (m : ℚ)).roundedMantissa = m := by
    rw [extended_natCast]
    rfl
  have hshift : shiftToTargetExponent .binary64 m e .exact = (⟨m, false, false⟩, e) := by
    simp only [shiftToTargetExponent, shiftToExponent, htarget, sub_self, Int.toNat_zero]
    simp [ExtendedMantissa.ofMantissaAndAccuracy]
    rfl
  simp only [nearest, hplace, natCast_div_pow, hrounded, hshift, dif_neg hm.ne']

/-- Rounding a whole number of units comes to its nearest double. -/
theorem round_eq_nearest (hm : 0 < m) :
    UnpackedFloat.round .binary64 .positive m e = nearest (m * 2 ^ e) := by
  have hq : (0 : ℚ) < m * 2 ^ e := by positivity
  have htarget := targetExponent_units hm.ne' e
  obtain ⟨n, hn⟩ : ∃ n, (e - lastPlace (m * 2 ^ e)).toNat = n := ⟨_, rfl⟩
  have hunits : (m : ℚ) * 2 ^ e / 2 ^ (e - n) = (m * 2 ^ n : Nat) := by
    have hsplit : (2 : ℚ) ^ e = 2 ^ (e - n) * 2 ^ n := by
      rw [← zpow_natCast, ← zpow_add₀ (by norm_num)]
      congr 1
      ring
    have hunit : (0 : ℚ) < 2 ^ (e - n) := by positivity
    rw [hsplit]
    push_cast
    field_simp
  simp only [UnpackedFloat.round, decreaseExponent, htarget, hn, Nat.shiftLeft_eq]
  apply roundWithAccuracy_eq_nearest hq
  · rw [hunits, extended_natCast]
    rfl
  · omega

end Exact

end WordGrammar.Double

import WordGrammar.Proofs.Double.Nearest

open Float.Model Float.Model.UnpackedFloat

namespace WordGrammar.Double

section Operations

variable {m₁ m₂ : Nat} {e₁ e₂ : Int}

/-- A product is rounded from its exact value, if that has more units than a double keeps. -/
theorem mul_eq_nearest (h₁ : 0 < m₁) (h₂ : 0 < m₂)
    (he : e₁ + e₂ ≤ lastPlace (m₁ * 2 ^ e₁ * (m₂ * 2 ^ e₂))) :
    UnpackedFloat.mul .binary64 (.finite .positive m₁ e₁ h₁) (.finite .positive m₂ e₂ h₂) =
      nearest (m₁ * 2 ^ e₁ * (m₂ * 2 ^ e₂)) := by
  have hvalue : (m₁ : ℚ) * 2 ^ e₁ * (m₂ * 2 ^ e₂) = (m₁ * m₂ : Nat) * 2 ^ (e₁ + e₂) := by
    rw [zpow_add₀ (by norm_num)]
    push_cast
    ring
  rw [hvalue] at he ⊢
  have hq : (0 : ℚ) < (m₁ * m₂ : Nat) * 2 ^ (e₁ + e₂) := by positivity
  refine roundWithAccuracy_eq_nearest hq ?_ he
  rw [natCast_div_pow, extended_natCast]
  rfl

theorem extended_ratio (a : Nat) {b : Nat} (hb : 0 < b) :
    extended ((a : ℚ) / b) = ⟨a / b, 2 * a / b % 2 != 0, decide (2 * a / b * b ≠ 2 * a)⟩ := by
  have htwice : 2 * ((a : ℚ) / b) = (2 * a : Nat) / b := by
    push_cast
    ring
  have hb' : (b : ℚ) ≠ 0 := by positivity
  have hsticky : ((2 * a / b : Nat) : ℚ) ≠ (2 * a : Nat) / b ↔ 2 * a / b * b ≠ 2 * a := by
    rw [ne_eq, eq_div_iff hb']
    exact_mod_cast Iff.rfl
  simp only [extended, htwice, Nat.floor_div_eq_div, hsticky]

/-- The remainder of a division says what is left of the quotient. -/
theorem extended_div (a : Nat) {b : Nat} (hb : 0 < b) :
    extended ((a : ℚ) / b) =
      ExtendedMantissa.ofMantissaAndAccuracy (a / b) (accuracyOfFraction (a % b) b) := by
  rw [extended_ratio a hb]
  obtain ⟨q, hq⟩ : ∃ q, a / b = q := ⟨_, rfl⟩
  obtain ⟨r, hr⟩ : ∃ r, a % b = r := ⟨_, rfl⟩
  have hlt : r < b := hr ▸ Nat.mod_lt a hb
  have ha : a = b * q + r := by rw [← hq, ← hr, Nat.div_add_mod]
  have heven : 2 * q * b = 2 * (b * q) := by ring
  have hodd : (2 * q + 1) * b = 2 * (b * q) + b := by ring
  have hnext : (2 * q + 1 + 1) * b = 2 * (b * q) + 2 * b := by ring
  rw [hq, hr, accuracyOfFraction]
  by_cases hzero : r = 0
  · have htwice : 2 * a / b = 2 * q := Nat.div_eq_of_lt_le (by omega) (by omega)
    rw [if_pos hzero, htwice]
    simp [ExtendedMantissa.ofMantissaAndAccuracy, heven, ha, hzero]
  · rw [if_neg hzero]
    obtain hless | hhalf | hmore := Nat.lt_trichotomy (2 * r) b
    · have htwice : 2 * a / b = 2 * q := Nat.div_eq_of_lt_le (by omega) (by omega)
      have hleft : 2 * q * b ≠ 2 * a := by omega
      rw [Nat.compare_eq_lt.mpr hless, htwice]
      simp [ExtendedMantissa.ofMantissaAndAccuracy, hleft]
    · have htwice : 2 * a / b = 2 * q + 1 := Nat.div_eq_of_lt_le (by omega) (by omega)
      have hleft : (2 * q + 1) * b = 2 * a := by omega
      rw [Nat.compare_eq_eq.mpr hhalf, htwice]
      simp [ExtendedMantissa.ofMantissaAndAccuracy, hleft]
    · have htwice : 2 * a / b = 2 * q + 1 := Nat.div_eq_of_lt_le (by omega) (by omega)
      have hleft : (2 * q + 1) * b ≠ 2 * a := by omega
      rw [Nat.compare_eq_gt.mpr hmore, htwice]
      simp [ExtendedMantissa.ofMantissaAndAccuracy, hleft]

theorem targetExponent_mono {s t : Int} (h : s ≤ t) :
    Format.binary64.targetExponent s ≤ Format.binary64.targetExponent t := by
  rw [targetExponent_eq, targetExponent_eq]
  omega

/-- A quotient begins at most one place below the difference of its parts' first places. -/
theorem le_log_div (h₁ : 0 < m₁) (h₂ : 0 < m₂) :
    (m₁.log2 : Int) + e₁ - (m₂.log2 + e₂) - 1 ≤ Int.log 2 ((m₁ : ℚ) * 2 ^ e₁ / (m₂ * 2 ^ e₂)) := by
  have hnum : (0 : ℚ) < m₁ * 2 ^ e₁ := by positivity
  have hden : (0 : ℚ) < m₂ * 2 ^ e₂ := by positivity
  have hlo : (2 : ℚ) ^ (m₁.log2 + e₁) ≤ m₁ * 2 ^ e₁ := by
    rw [← log_natCast_mul_pow h₁.ne']
    exact Int.zpow_log_le_self Nat.one_lt_two hnum
  have hhi : (m₂ : ℚ) * 2 ^ e₂ ≤ 2 ^ (m₂.log2 + e₂ + 1) := by
    rw [← log_natCast_mul_pow h₂.ne']
    exact (Int.lt_zpow_succ_log_self Nat.one_lt_two _).le
  refine (Int.zpow_le_iff_le_log Nat.one_lt_two (div_pos hnum hden)).mp ?_
  rw [le_div_iff₀ hden]
  calc (2 : ℚ) ^ ((m₁.log2 : Int) + e₁ - (m₂.log2 + e₂) - 1) * (m₂ * 2 ^ e₂)
      ≤ 2 ^ ((m₁.log2 : Int) + e₁ - (m₂.log2 + e₂) - 1) * 2 ^ ((m₂.log2 : Int) + e₂ + 1) := by
        gcongr
    _ = 2 ^ ((m₁.log2 : Int) + e₁) := by
        rw [← zpow_add₀ (by norm_num)]
        congr 1
        ring
    _ ≤ m₁ * 2 ^ e₁ := hlo

/-- A quotient is rounded from its exact value. -/
theorem div_eq_nearest (h₁ : 0 < m₁) (h₂ : 0 < m₂) :
    UnpackedFloat.div .binary64 (.finite .positive m₁ e₁ h₁) (.finite .positive m₂ e₂ h₂) =
      nearest (m₁ * 2 ^ e₁ / (m₂ * 2 ^ e₂)) := by
  have hq : (0 : ℚ) < m₁ * 2 ^ e₁ / (m₂ * 2 ^ e₂) := by positivity
  obtain ⟨t, ht⟩ : ∃ t, min (e₁ - e₂) (Format.binary64.targetExponent
    (totalExponent m₁ e₁ - totalExponent m₂ e₂)) = t := ⟨_, rfl⟩
  obtain ⟨n, hn⟩ : ∃ n : Nat, e₁ - e₂ - t = n := ⟨(e₁ - e₂ - t).toNat, by omega⟩
  have hamount : (e₁ - e₂ - t).toNat = n := by omega
  have hunits : (m₁ : ℚ) * 2 ^ e₁ / (m₂ * 2 ^ e₂) / 2 ^ t = (m₁ * 2 ^ n : Nat) / m₂ := by
    have hsplit : (2 : ℚ) ^ e₁ = 2 ^ e₂ * 2 ^ t * 2 ^ n := by
      rw [← zpow_natCast, ← hn, ← zpow_add₀ (by norm_num), ← zpow_add₀ (by norm_num)]
      congr 1
      ring
    have hunit₁ : (0 : ℚ) < 2 ^ e₂ := by positivity
    have hunit₂ : (0 : ℚ) < 2 ^ t := by positivity
    rw [hsplit]
    push_cast
    field_simp
  have hplace : t ≤ lastPlace ((m₁ : ℚ) * 2 ^ e₁ / (m₂ * 2 ^ e₂)) := by
    have hlog : (m₁.log2 : Int) + e₁ - (m₂.log2 + e₂) - 1 ≤
        Int.log 2 ((m₁ : ℚ) * 2 ^ e₁ / (m₂ * 2 ^ e₂)) := le_log_div h₁ h₂
    have htotal : totalExponent m₁ e₁ - totalExponent m₂ e₂ ≤
        Int.log 2 ((m₁ : ℚ) * 2 ^ e₁ / (m₂ * 2 ^ e₂)) + 1 := by
      rw [totalExponent, totalExponent]
      omega
    have hmono := targetExponent_mono htotal
    rw [lastPlace]
    omega
  simp only [UnpackedFloat.div, divCore, ht, hamount, Nat.shiftLeft_eq]
  refine roundWithAccuracy_eq_nearest hq ?_ hplace
  rw [hunits, extended_div _ h₂]

end Operations

section Range

variable {q : ℚ}

theorem mantissa_shiftRight (em : ExtendedMantissa) (n : Nat) :
    (em >>> n).mantissa = em.mantissa / 2 ^ n := by
  induction n with
  | zero =>
    show em.mantissa = _
    simp
  | succ n ih =>
    have hstep : em >>> (n + 1) = (em >>> n).shiftRightOne := rfl
    rw [hstep, ExtendedMantissa.shiftRightOne, ih, Nat.div_div_eq_div_mul, pow_succ]

/-- Nothing is left of a number that rounds to no unit of its last place. -/
theorem nearest_of_rounded_eq_zero
    (hzero : (extended (q / 2 ^ lastPlace q)).roundedMantissa = 0) :
    nearest q = .zero .positive := by
  have hmantissa : (shiftToTargetExponent .binary64 0 (lastPlace q) .exact).1.mantissa = 0 := by
    simp [shiftToTargetExponent, shiftToExponent, mantissa_shiftRight,
      ExtendedMantissa.ofMantissaAndAccuracy]
  simp only [nearest, hzero, dif_pos hmantissa]

/-- Any other number is at least one unit of its last place. -/
theorem nearest_of_rounded_pos
    (hpos : 0 < (extended (q / 2 ^ lastPlace q)).roundedMantissa) :
    ∃ m e hm, nearest q = .finite .positive m e hm ∧ lastPlace q ≤ e := by
  obtain ⟨r, hr⟩ : ∃ r, (extended (q / 2 ^ lastPlace q)).roundedMantissa = r := ⟨_, rfl⟩
  rw [hr] at hpos
  obtain ⟨n, hn⟩ : ∃ n, (Format.binary64.targetExponent (totalExponent r (lastPlace q)) -
    lastPlace q).toNat = n := ⟨_, rfl⟩
  have hmin : -1074 ≤ lastPlace q := by
    rw [lastPlace, targetExponent_eq]
    omega
  have hle : n ≤ r.log2 := by
    rw [targetExponent_eq, totalExponent] at hn
    omega
  have hshift : 0 < r / 2 ^ n :=
    Nat.div_pos (Nat.le_trans (Nat.pow_le_pow_right Nat.two_pos hle) (Nat.log2_self_le hpos.ne'))
      (by positivity)
  refine ⟨r / 2 ^ n, lastPlace q + n, hshift, ?_, by omega⟩
  simp only [nearest, hr, shiftToTargetExponent, shiftToExponent, hn, mantissa_shiftRight]
  exact dif_neg hshift.ne'

theorem rounded_le (q : ℚ) : ⌊q⌋₊ ≤ (extended q).roundedMantissa := by
  unfold ExtendedMantissa.roundedMantissa extended
  cases ⌊2 * q⌋₊ % 2 != 0 <;> cases decide ((⌊2 * q⌋₊ : ℚ) ≠ 2 * q) <;>
    simp [ExtendedMantissa.accuracy, Accuracy.roundToNearestEven]

/-- Numbers beyond the greatest exponent become infinite. -/
theorem pack_nearest_of_large (hlarge : (2 : ℚ) ^ (1100 : Int) ≤ q) :
    UnpackedFloat.pack .binary64 (nearest q) = packedInfinity .binary64 .positive := by
  have hq : 0 < q := lt_of_lt_of_le (by positivity) hlarge
  have hlog : 1100 ≤ Int.log 2 q := (Int.zpow_le_iff_le_log Nat.one_lt_two hq).mp hlarge
  have hplace : lastPlace q = Int.log 2 q - 52 := by
    rw [lastPlace, targetExponent_eq]
    omega
  have hunits : 0 < ⌊q / 2 ^ lastPlace q⌋₊ := by
    rw [Nat.floor_pos, hplace, one_le_div (by positivity)]
    refine le_trans ?_ (Int.zpow_log_le_self Nat.one_lt_two hq)
    exact zpow_le_zpow_right₀ (by norm_num) (by omega)
  obtain ⟨m, e, hm, hnearest, he⟩ :=
    nearest_of_rounded_pos (Nat.lt_of_lt_of_le hunits (rounded_le _))
  rw [hnearest]
  have hbiased : 2048 ≤ (e + 1023 + 52).toNat + 1 := by omega
  simp only [UnpackedFloat.pack, Format.exponentBias]
  norm_num [hbiased]

/-- Numbers below half of the least double become zero. -/
theorem nearest_of_small (hq : 0 < q) (hsmall : q < (2 : ℚ) ^ (-1075 : Int)) :
    nearest q = .zero .positive := by
  have hlog : Int.log 2 q < -1075 := (Int.lt_zpow_iff_log_lt Nat.one_lt_two hq).mp hsmall
  have hplace : lastPlace q = -1074 := by
    rw [lastPlace, targetExponent_eq]
    omega
  have hhalf : 2 * (q / 2 ^ lastPlace q) < 1 := by
    have hsplit : (2 : ℚ) ^ (-1074 : Int) = 2 * 2 ^ (-1075 : Int) := by
      rw [show (-1074 : Int) = 1 + -1075 by decide, zpow_add₀ (by norm_num), zpow_one]
    rw [hplace, ← mul_div_assoc, div_lt_one (by positivity), hsplit]
    linarith
  apply nearest_of_rounded_eq_zero
  have hfloor : ⌊2 * (q / 2 ^ lastPlace q)⌋₊ = 0 := Nat.floor_eq_zero.mpr hhalf
  have hfloor' : ⌊q / 2 ^ lastPlace q⌋₊ = 0 := by
    refine Nat.floor_eq_zero.mpr ?_
    have hnonneg : 0 ≤ q / 2 ^ lastPlace q := by positivity
    linarith
  simp only [extended, hfloor, hfloor']
  cases decide (((0 : Nat) : ℚ) ≠ 2 * (q / 2 ^ lastPlace q)) <;> rfl

end Range

section Scientific

variable {m : Nat}

theorem ten_pow_eq (n : Nat) : ((10 ^ n : Nat) : ℚ) * 2 ^ (0 : Int) = 10 ^ (n : Int) := by
  push_cast
  rw [mul_one, zpow_natCast]

theorem large_of_exponent (hm : 0 < m) {e : Int} (he : 2048 < e) :
    (2 : ℚ) ^ (1100 : Int) ≤ m * 10 ^ e := by
  have hone : (1 : ℚ) ≤ m := by exact_mod_cast hm
  calc (2 : ℚ) ^ (1100 : Int) ≤ 2 ^ e := zpow_le_zpow_right₀ (by norm_num) (by omega)
    _ ≤ 10 ^ e := zpow_le_zpow_left₀ (by omega) (by norm_num) (by norm_num)
    _ ≤ m * 10 ^ e := le_mul_of_one_le_left (by positivity) hone

theorem small_of_exponent {n : Nat} (hn : 2048 + m.log2 < n) :
    (m : ℚ) * 10 ^ (-n : Int) < 2 ^ (-1075 : Int) := by
  have hbits : (m : ℚ) < 2 ^ ((m.log2 : Int) + 1) := by
    exact_mod_cast Nat.lt_log2_self (n := m)
  have htens : (10 : ℚ) ^ (-n : Int) ≤ 2 ^ (-n : Int) := by
    rw [zpow_neg, zpow_neg]
    exact inv_anti₀ (by positivity) (zpow_le_zpow_left₀ (by omega) (by norm_num) (by norm_num))
  calc (m : ℚ) * 10 ^ (-n : Int) < 2 ^ ((m.log2 : Int) + 1) * 2 ^ (-n : Int) :=
        mul_lt_mul hbits htens (by positivity) (by positivity)
    _ = 2 ^ ((m.log2 : Int) + 1 + -n) := (zpow_add₀ (by norm_num) _ _).symm
    _ ≤ 2 ^ (-1075 : Int) := zpow_le_zpow_right₀ (by norm_num) (by omega)

/-- Reading a decimal comes to the double nearest to its value. It is a product or a quotient of two
    numbers that are held exactly; beyond the range of the exponent, where no product is formed,
    every double is too small or too large to be anything but infinite or zero. -/
theorem pack_ofScientific (hm : 0 < m) (e : Int) :
    UnpackedFloat.pack .binary64 (UnpackedFloat.ofScientific .binary64 m e) =
      UnpackedFloat.pack .binary64 (nearest (m * 10 ^ e)) := by
  have hq : (0 : ℚ) < m * 10 ^ e := by positivity
  fun_cases UnpackedFloat.ofScientific Format.binary64 m e with
  | case1 hzero => exact absurd hzero hm.ne'
  | case2 _ hlarge =>
    have he : (2048 : Int) < e := hlarge
    rw [pack_nearest_of_large (large_of_exponent hm he)]
    rfl
  | case3 _ _ hsmall =>
    have he : e < -(2048 + (m.log2 : Int)) := hsmall
    clear hsmall
    obtain ⟨n, rfl⟩ : ∃ n : Nat, e = -n := ⟨(-e).toNat, by omega⟩
    rw [nearest_of_small hq (small_of_exponent (by omega))]
  | case4 _ _ _ hnonneg =>
    obtain ⟨n, rfl⟩ := Int.eq_ofNat_of_zero_le hnonneg
    have hvalue : (((m <<< 53 : Nat) : ℚ) * 2 ^ (-53 : Int)) * ((10 ^ n : Nat) * 2 ^ (0 : Int)) =
        m * 10 ^ (n : Int) := by
      have hunits : ((m <<< 53 : Nat) : ℚ) * 2 ^ (-53 : Int) = m := by
        rw [Nat.shiftLeft_eq]
        push_cast
        norm_num
        ring
      rw [ten_pow_eq, hunits]
    have hplace : (-53 : Int) + (0 : Int) ≤ lastPlace
        ((((m <<< 53 : Nat) : ℚ) * 2 ^ (-53 : Int)) * ((10 ^ n : Nat) * 2 ^ (0 : Int))) := by
      have hone : (2 : ℚ) ^ (0 : Int) ≤ m * 10 ^ (n : Int) := by
        rw [zpow_zero, zpow_natCast]
        exact_mod_cast Nat.mul_pos hm (Nat.pow_pos (by decide))
      have hlog : 0 ≤ Int.log 2 ((m : ℚ) * 10 ^ (n : Int)) :=
        (Int.zpow_le_iff_le_log Nat.one_lt_two hq).mp hone
      rw [hvalue, lastPlace, targetExponent_eq]
      omega
    have hshift : 0 < m <<< 53 := by
      rw [Nat.shiftLeft_eq]
      positivity
    have hmul := mul_eq_nearest hshift (Nat.pow_pos (by decide : 0 < 10)) hplace
    rw [hvalue] at hmul
    exact congrArg (UnpackedFloat.pack .binary64) hmul
  | case5 _ _ _ hneg =>
    obtain ⟨n, rfl⟩ : ∃ n : Nat, e = -n := ⟨(-e).toNat, by omega⟩
    have hvalue : (m : ℚ) * 2 ^ (0 : Int) / ((10 ^ n : Nat) * 2 ^ (0 : Int)) =
        m * 10 ^ (-n : Int) := by
      rw [ten_pow_eq, zpow_zero, mul_one, zpow_neg, div_eq_mul_inv]
    congr 1
    simp only [neg_neg, Int.toNat_natCast]
    rw [div_eq_nearest, hvalue]

/-- Each power of ten in the table of exact ones is held with all bits of its significand. -/
theorem exact_power (k : Fin 23) :
    let x := Float.exactlyRepresentablePowersOfTen[k]
    (x.isFinite = true ∧ Decimal.isNegative x = false) ∧
      (2 ^ 52 ≤ Decimal.significand x ∧ Decimal.significand x < 2 ^ 53) ∧
      1023 ≤ Decimal.exponentField x ∧
      Decimal.significand x * 2 ^ (Decimal.exponentField x - 1023) = 10 ^ k.val * 2 ^ 52 := by
  revert k
  decide +kernel

/-- The double stands for just this number, with all bits of its significand. -/
def Holds (x : Float) (q : ℚ) : Prop :=
  ∃ m e hm, number x = .finite .positive m e hm ∧ 2 ^ 52 ≤ m ∧ m < 2 ^ 53 ∧ (m : ℚ) * 2 ^ e = q

theorem holds_power (k : Fin 23) :
    Holds Float.exactlyRepresentablePowersOfTen[k] (10 ^ k.val) := by
  obtain ⟨⟨hfinite, hsign⟩, ⟨hlo, hhi⟩, hfield, hvalue⟩ := exact_power k
  obtain ⟨x, hx⟩ : ∃ x, Float.exactlyRepresentablePowersOfTen[k] = x := ⟨_, rfl⟩
  rw [hx] at hfinite hsign hlo hhi hfield hvalue ⊢
  obtain ⟨-, hzero⟩ | ⟨hm, hnumber, -⟩ := number_of_isFinite hfinite hsign
  · omega
  · refine ⟨_, _, hm, hnumber, hlo, hhi, ?_⟩
    have hexponent : ((max (Decimal.exponentField x) 1 : Nat) : Int) - 1075 =
        (Decimal.exponentField x - 1023 : Nat) - (52 : Nat) := by omega
    rw [hexponent, zpow_sub₀ (by norm_num), mul_div_assoc', div_eq_iff (by positivity),
      zpow_natCast, zpow_natCast]
    exact_mod_cast hvalue

theorem holds_toFloat (hm : 0 < m) (hhi : m < 2 ^ 53) : Holds m.toUInt64.toFloat m := by
  have hlog := (Nat.log2_lt hm.ne').mpr hhi
  have hlo := Nat.log2_self_le hm.ne'
  have hlt := Nat.lt_log2_self (n := m)
  obtain ⟨n, hn⟩ : ∃ n, m.log2 + n = 52 := ⟨52 - m.log2, by omega⟩
  have hunits : ((m * 2 ^ n : Nat) : ℚ) * 2 ^ (-n : Int) = m := by
    rw [zpow_neg, zpow_natCast]
    push_cast
    field_simp
  have hlo' : 2 ^ 52 ≤ m * 2 ^ n := by
    rw [← hn, pow_add]
    exact Nat.mul_le_mul_right _ hlo
  have hhi' : m * 2 ^ n < 2 ^ 53 := by
    have hsplit : 2 ^ 53 = 2 ^ (m.log2 + 1) * 2 ^ n := by
      rw [← pow_add]
      congr 1
      omega
    rw [hsplit]
    exact Nat.mul_lt_mul_of_pos_right hlt (by positivity)
  have hpos : 0 < m * 2 ^ n := by positivity
  have hnearest : nearest m = .finite .positive (m * 2 ^ n) (-n) hpos := by
    rw [← hunits]
    exact nearest_natCast_mul_pow hpos hhi' (by omega) (.inl hlo')
  refine ⟨m * 2 ^ n, -n, hpos, ?_, hlo', hhi', hunits⟩
  have htoNat : m.toUInt64.toNat = m := UInt64.toNat_ofNat_of_lt (by norm_num; omega)
  have hround : UnpackedFloat.normalize .binary64 (m : Int) 0 .positive = nearest m := by
    have hcompare : compare (m : Int) 0 = .gt := Int.compare_eq_gt.mpr (by omega)
    have hexact := round_eq_nearest (e := 0) hm
    rw [zpow_zero, mul_one] at hexact
    simp only [UnpackedFloat.normalize, hcompare, Int.toNat_natCast, hexact]
  have hnumber : number m.toUInt64.toFloat = UnpackedFloat.unpack .binary64
      (UnpackedFloat.pack .binary64 (UnpackedFloat.normalize .binary64 (m.toUInt64.toNat : Int) 0
        .positive)) := rfl
  rw [hnumber, htoNat, hround, hnearest]
  exact unpack_pack_normal _ hlo' hhi' (by omega) (by omega) _

theorem mul_eq_ofNumber (x y : Float) :
    x * y = ofNumber (UnpackedFloat.mul .binary64 (number x) (number y)) := rfl

theorem div_eq_ofNumber (x y : Float) :
    x / y = ofNumber (UnpackedFloat.div .binary64 (number x) (number y)) := rfl

theorem Holds.mul {x y : Float} {p q : ℚ} (hx : Holds x p) (hy : Holds y q) :
    x * y = ofNumber (nearest (p * q)) := by
  obtain ⟨m₁, e₁, h₁, hx, hlo₁, -, rfl⟩ := hx
  obtain ⟨m₂, e₂, h₂, hy, hlo₂, -, rfl⟩ := hy
  have hplace : e₁ + e₂ ≤ lastPlace (m₁ * 2 ^ e₁ * (m₂ * 2 ^ e₂)) := by
    have hvalue : (m₁ : ℚ) * 2 ^ e₁ * (m₂ * 2 ^ e₂) = (m₁ * m₂ : Nat) * 2 ^ (e₁ + e₂) := by
      rw [zpow_add₀ (by norm_num)]
      push_cast
      ring
    have hpos : m₁ * m₂ ≠ 0 := (Nat.mul_pos h₁ h₂).ne'
    have hlog : 52 ≤ (m₁ * m₂).log2 := by
      rw [Nat.le_log2 hpos]
      exact Nat.le_trans hlo₁ (Nat.le_mul_of_pos_right _ h₂)
    rw [hvalue, lastPlace, targetExponent_eq, log_natCast_mul_pow hpos]
    omega
  rw [mul_eq_ofNumber, hx, hy, mul_eq_nearest h₁ h₂ hplace]

theorem Holds.div {x y : Float} {p q : ℚ} (hx : Holds x p) (hy : Holds y q) :
    x / y = ofNumber (nearest (p / q)) := by
  obtain ⟨m₁, e₁, h₁, hx, -, -, rfl⟩ := hx
  obtain ⟨m₂, e₂, h₂, hy, -, -, rfl⟩ := hy
  rw [div_eq_ofNumber, hx, hy, div_eq_nearest]

end Scientific

end WordGrammar.Double

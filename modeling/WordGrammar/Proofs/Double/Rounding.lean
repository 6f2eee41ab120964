import WordGrammar.Proofs.Decimal.Shortest

open Float.Model Float.Model.UnpackedFloat

namespace WordGrammar

namespace Double

/-- The whole number is the nearest to `q`, and even if the next one is as near. -/
structure IsNearest (m : Nat) (q : ℚ) : Prop where
  near : |q - m| ≤ 1 / 2
  even : |q - m| = 1 / 2 → m % 2 = 0

/-- The double stands for just this number, and its sign is positive. -/
def Stands (x : Float) (v : ℚ) : Prop :=
  (v = 0 ∧ number x = .zero .positive) ∨
    ∃ m e hm, number x = .finite .positive m e hm ∧ (m : ℚ) * 2 ^ e = v

/-- The unit in which a double holds a number that is not negative. -/
def unit (q : ℚ) : ℚ := 2 ^ max (Int.log 2 q - 52) (-1074)

/-- `Rounds q x`: the double is what `q` is rounded to, or infinite if that is too large. -/
def Rounds (q : ℚ) (x : Float) : Prop :=
  ∃ m : Nat, IsNearest m (q / unit q) ∧
    if m * unit q < 2 ^ (1024 : Int) then Stands x (m * unit q) else number x = .infinity .positive

section Nearest

variable {m n : Nat} {q : ℚ}

theorem IsNearest.unique (hm : IsNearest m q) (hn : IsNearest n q) : m = n := by
  obtain ⟨hm, hmeven⟩ := hm
  obtain ⟨hn, hneven⟩ := hn
  rw [abs_le] at hm hn
  have hle : (m : ℚ) ≤ n + 1 := by linarith
  have hle' : (n : ℚ) ≤ m + 1 := by linarith
  have hmn : m ≤ n + 1 := by exact_mod_cast hle
  have hnm : n ≤ m + 1 := by exact_mod_cast hle'
  by_contra hne
  -- Two that are both nearest are next to each other, with the number halfway between them.
  rcases Nat.lt_or_gt_of_ne hne with hlt | hlt
  · have hnext : (n : ℚ) = m + 1 := by exact_mod_cast (by omega : n = m + 1)
    have htie : q - m = 1 / 2 := by linarith
    have htie' : q - n = -(1 / 2) := by linarith
    have heven := hmeven (by rw [htie]; norm_num)
    have heven' := hneven (by rw [htie']; norm_num)
    omega
  · have hnext : (m : ℚ) = n + 1 := by exact_mod_cast (by omega : m = n + 1)
    have htie : q - n = 1 / 2 := by linarith
    have htie' : q - m = -(1 / 2) := by linarith
    have heven := hneven (by rw [htie]; norm_num)
    have heven' := hmeven (by rw [htie']; norm_num)
    omega

theorem IsNearest.of_lt (hlt : |q - m| < 1 / 2) : IsNearest m q :=
  ⟨hlt.le, fun htie => absurd htie hlt.ne⟩

/-- Rounding by what is left of a number comes to the nearest whole number. -/
theorem isNearest_roundedMantissa (hq : 0 ≤ q) : IsNearest (extended q).roundedMantissa q := by
  obtain ⟨t, ht⟩ : ∃ t, ⌊2 * q⌋₊ = t := ⟨_, rfl⟩
  have hfloor : ⌊q⌋₊ = t / 2 := by
    rw [← ht, ← floor_half, mul_div_cancel_left₀ q two_ne_zero]
  have hlo : (t : ℚ) ≤ 2 * q := ht ▸ Nat.floor_le (by positivity)
  have hhi : 2 * q < t + 1 := ht ▸ Nat.lt_floor_add_one _
  obtain ⟨f, hf⟩ : ∃ f, t / 2 = f := ⟨_, rfl⟩
  simp only [extended, ht, hfloor, hf]
  rcases Nat.mod_two_eq_zero_or_one t with heven | hodd
  · -- Less than a half is left.
    have ht' : (t : ℚ) = 2 * f := by exact_mod_cast (by omega : t = 2 * f)
    have hrounded : ∀ sticky, ExtendedMantissa.roundedMantissa ⟨f, t % 2 != 0, sticky⟩ = f := by
      rw [heven]
      exact fun sticky => by cases sticky <;> rfl
    rw [hrounded]
    apply IsNearest.of_lt
    rw [abs_lt]
    constructor <;> linarith
  · have ht' : (t : ℚ) = 2 * f + 1 := by exact_mod_cast (by omega : t = 2 * f + 1)
    by_cases htie : (t : ℚ) = 2 * q
    · have hrounded : ExtendedMantissa.roundedMantissa ⟨f, t % 2 != 0, decide ((t : ℚ) ≠ 2 * q)⟩ =
          f + f % 2 := by
        simp only [hodd, htie, ne_eq, not_true_eq_false, decide_false]
        rfl
      have hmiddle : q = f + 1 / 2 := by linarith
      rw [hrounded, hmiddle]
      rcases Nat.mod_two_eq_zero_or_one f with hfeven | hfodd
      · rw [hfeven, Nat.add_zero]
        exact ⟨by norm_num, fun _ => hfeven⟩
      · have hbelow : (f : ℚ) + 1 / 2 - (f + 1 : Nat) = -(1 / 2) := by
          push_cast
          ring
        rw [hfodd]
        exact ⟨by rw [hbelow]; norm_num, fun _ => by omega⟩
    · have hrounded : ExtendedMantissa.roundedMantissa ⟨f, t % 2 != 0, decide ((t : ℚ) ≠ 2 * q)⟩ =
          f + 1 := by
        simp only [hodd, htie, ne_eq, not_false_eq_true, decide_true]
        rfl
      have hlt : (t : ℚ) < 2 * q := lt_of_le_of_ne hlo htie
      rw [hrounded]
      apply IsNearest.of_lt
      push_cast
      rw [abs_lt]
      constructor <;> linarith

end Nearest

section Canonical

variable {m : Nat} {e : Int}

/-- The way in which a double holds a number: all bits of the significand are used, or the unit is
    the least. -/
structure IsCanonical (m : Nat) (e : Int) : Prop where
  below : m < 2 ^ 53
  least : -1074 ≤ e
  full : 2 ^ 52 ≤ m ∨ e = -1074

/-- Doubles hold their numbers in this way. -/
theorem isCanonical_number {x : Float} {s : Sign} {hm : 0 < m}
    (hnumber : number x = .finite s m e hm) : IsCanonical m e := by
  obtain ⟨b, hb⟩ : ∃ b : BitVec 64, x.toBits.toBitVec = b := ⟨_, rfl⟩
  have hunpack : number x = UnpackedFloat.unpack .binary64 b := by
    rw [← hb]
    rfl
  rw [hunpack] at hnumber
  have hlt := (fractionBits b).isLt
  revert hnumber
  -- the cases are infinity, undefined, zero, a subnormal number and a normal one
  fun_cases UnpackedFloat.unpack Format.binary64 b with
  | case1 => exact nofun
  | case2 => exact nofun
  | case3 => exact nofun
  | case4 _ exponentVec exponent _ _ _ hmin hne =>
    intro hnumber
    have he : exponent + 1 = -1074 := by
      simp only [exponent, hmin, exponentVec]
      rfl
    injection hnumber with _ hm' he'
    have hm'' : (fractionBits b).toNat = m := hm'
    exact ⟨by omega, by omega, .inr (by omega)⟩
  | case5 _ exponentVec exponent _ _ hmax hmin =>
    intro hnumber
    have hpos : (exponentBits b).toNat ≠ 0 := fun h => hmin (BitVec.eq_of_toNat_eq h)
    have he : exponent + 1075 = (exponentBits b).toNat := by
      simp only [exponent, exponentVec, Format.exponentBias]
      norm_num
    have himplicit := toNat_implicit (fractionBits b)
    injection hnumber with _ hm' he'
    have hm'' : (1#1 ++ fractionBits b).toNat = m := hm'
    exact ⟨by omega, by omega, .inl (by omega)⟩

theorem IsCanonical.nearest (hcanonical : IsCanonical m e) (hm : 0 < m) :
    nearest (m * 2 ^ e) = .finite .positive m e hm :=
  nearest_natCast_mul_pow hm hcanonical.below hcanonical.least hcanonical.full

/-- A number is held by one double only. -/
theorem Stands.unique {x y : Float} {v : ℚ} (hx : Stands x v) (hy : Stands y v) : x = y := by
  rw [← ofNumber_number x, ← ofNumber_number y]
  congr 1
  rcases hx with ⟨hzero, hx⟩ | ⟨m, e, hm, hx, rfl⟩
  · rcases hy with ⟨-, hy⟩ | ⟨n, f, hn, -, hvalue⟩
    · rw [hx, hy]
    · have hpos : (0 : ℚ) < n * 2 ^ f := by positivity
      rw [hvalue, hzero] at hpos
      exact absurd hpos (lt_irrefl 0)
  · rcases hy with ⟨hzero, -⟩ | ⟨n, f, hn, hy, hvalue⟩
    · have hpos : (0 : ℚ) < m * 2 ^ e := by positivity
      rw [hzero] at hpos
      exact absurd hpos (lt_irrefl 0)
    · rw [hx, hy, ← (isCanonical_number hx).nearest hm, ← (isCanonical_number hy).nearest hn,
        hvalue]

end Canonical

section Rounded

variable {q : ℚ}

theorem unit_eq (q : ℚ) : unit q = 2 ^ lastPlace q := by
  rw [unit, lastPlace, targetExponent_eq]
  congr 2
  ring

/-- Rounded to its last place, a number has at most one digit more than a double keeps, and no fewer
    unless the place is the least. -/
theorem roundedMantissa_bounds (hq : 0 < q) :
    (extended (q / 2 ^ lastPlace q)).roundedMantissa ≤ 2 ^ 53 ∧
      (2 ^ 52 ≤ (extended (q / 2 ^ lastPlace q)).roundedMantissa ∨ lastPlace q = -1074) := by
  obtain ⟨k, hk⟩ : ∃ k, lastPlace q = k := ⟨_, rfl⟩
  have hplace : k = max (Int.log 2 q - 52) (-1074) := by
    rw [← hk, lastPlace, targetExponent_eq]
    congr 1
    ring
  have hunit : (0 : ℚ) < 2 ^ k := by positivity
  have hnear := (isNearest_roundedMantissa (q := q / 2 ^ k) (by positivity)).near
  rw [abs_le] at hnear
  rw [hk]
  constructor
  · have hhi : q / 2 ^ k < 2 ^ 53 := by
      rw [div_lt_iff₀ hunit, ← zpow_natCast, ← zpow_add₀ (by norm_num)]
      refine lt_of_lt_of_le (Int.lt_zpow_succ_log_self Nat.one_lt_two q) ?_
      exact zpow_le_zpow_right₀ (by norm_num) (by push_cast; omega)
    have hlt : ((extended (q / 2 ^ k)).roundedMantissa : ℚ) < (2 ^ 53 + 1 : Nat) := by
      push_cast
      linarith
    exact Nat.le_of_lt_succ (by exact_mod_cast hlt)
  · by_cases hleast : k = -1074
    · exact .inr hleast
    · have hlo : (2 : ℚ) ^ 52 ≤ q / 2 ^ k := by
        rw [le_div_iff₀ hunit, ← zpow_natCast, ← zpow_add₀ (by norm_num)]
        refine le_trans ?_ (Int.zpow_log_le_self Nat.one_lt_two hq)
        exact zpow_le_zpow_right₀ (by norm_num) (by push_cast; omega)
      have hlt : ((2 ^ 52 : Nat) : ℚ) < ((extended (q / 2 ^ k)).roundedMantissa + 1 : Nat) := by
        push_cast
        linarith
      exact .inl (Nat.le_of_lt_succ (by exact_mod_cast hlt))

/-- Where a number rounds to something, that is what its nearest double holds, whether or not
    rounding has carried. -/
theorem nearest_eq_finite (hq : 0 < q)
    (hpos : 0 < (extended (q / 2 ^ lastPlace q)).roundedMantissa) :
    ∃ m e hm, nearest q = .finite .positive m e hm ∧ IsCanonical m e ∧
      (m : ℚ) * 2 ^ e = (extended (q / 2 ^ lastPlace q)).roundedMantissa * 2 ^ lastPlace q := by
  obtain ⟨hle, hfull⟩ := roundedMantissa_bounds hq
  have hleast : -1074 ≤ lastPlace q := by
    rw [lastPlace, targetExponent_eq]
    omega
  obtain ⟨k, hk⟩ : ∃ k, lastPlace q = k := ⟨_, rfl⟩
  obtain ⟨r, hr⟩ : ∃ r, (extended (q / 2 ^ k)).roundedMantissa = r := ⟨_, rfl⟩
  rw [hk] at hpos hle hfull hleast ⊢
  rw [hr] at hpos hle hfull ⊢
  have hshift : ∀ {m e}, shiftToTargetExponent .binary64 r k .exact = (⟨m, false, false⟩, e) →
      nearest q = if h : m = 0 then .zero .positive
        else .finite .positive m e (Nat.pos_of_ne_zero h) := by
    intro m e hresult
    unfold nearest
    rw [hk, hr]
    dsimp only
    rw [hresult]
  rcases Nat.lt_or_eq_of_le hle with hlt | rfl
  · have hlog : r.log2 < 53 := (Nat.log2_lt hpos.ne').mpr hlt
    have hamount : (Format.binary64.targetExponent (totalExponent r k) - k).toNat = 0 := by
      rw [targetExponent_eq, totalExponent]
      omega
    have hmantissa : shiftToTargetExponent .binary64 r k .exact = (⟨r, false, false⟩, k) := by
      simp only [shiftToTargetExponent, shiftToExponent, hamount]
      simp [ExtendedMantissa.ofMantissaAndAccuracy]
      rfl
    refine ⟨r, k, hpos, ?_, ⟨hlt, hleast, hfull⟩, rfl⟩
    rw [hshift hmantissa]
    exact dif_neg hpos.ne'
  · have hlog : (2 ^ 53 : Nat).log2 = 53 := Nat.log2_two_pow
    have hamount : (Format.binary64.targetExponent (totalExponent (2 ^ 53) k) - k).toNat = 1 := by
      rw [targetExponent_eq, totalExponent, hlog]
      omega
    have hmantissa : shiftToTargetExponent .binary64 (2 ^ 53) k .exact =
        (⟨2 ^ 52, false, false⟩, k + 1) := by
      simp only [shiftToTargetExponent, shiftToExponent, hamount]
      rfl
    refine ⟨2 ^ 52, k + 1, by positivity, ?_, ⟨by norm_num, by omega, .inl le_rfl⟩, ?_⟩
    · rw [hshift hmantissa]
      rfl
    · rw [zpow_add₀ (by norm_num)]
      push_cast
      ring

/-- What a double would hold is too large just where its exponent is. -/
theorem IsCanonical.lt_iff {m : Nat} {e : Int} (hcanonical : IsCanonical m e) :
    (m : ℚ) * 2 ^ e < 2 ^ (1024 : Int) ↔ e ≤ 971 := by
  have htwo : (2 : ℚ) ≠ 0 := by norm_num
  have hunit : (0 : ℚ) < 2 ^ e := by positivity
  constructor
  · intro hlt
    by_contra hlarge
    have hfull : (2 : ℚ) ^ (52 : Int) ≤ m := by
      exact_mod_cast hcanonical.full.resolve_right (by omega)
    have hle : (2 : ℚ) ^ (972 : Int) ≤ 2 ^ e := zpow_le_zpow_right₀ (by norm_num) (by omega)
    have hprod : (2 : ℚ) ^ (1024 : Int) ≤ m * 2 ^ e := by
      calc (2 : ℚ) ^ (1024 : Int) = 2 ^ (52 : Int) * 2 ^ (972 : Int) := by
            rw [← zpow_add₀ htwo]
            rfl
        _ ≤ m * 2 ^ e :=
            mul_le_mul hfull hle (zpow_nonneg (by norm_num) _) (Nat.cast_nonneg m)
    exact absurd hlt (not_lt.mpr hprod)
  · intro hle
    have hbelow : (m : ℚ) < 2 ^ (53 : Int) := by exact_mod_cast hcanonical.below
    have hpow : (2 : ℚ) ^ e ≤ 2 ^ (971 : Int) := zpow_le_zpow_right₀ (by norm_num) hle
    calc (m : ℚ) * 2 ^ e < 2 ^ (53 : Int) * 2 ^ e := by gcongr
      _ ≤ 2 ^ (53 : Int) * 2 ^ (971 : Int) := by gcongr
      _ = 2 ^ (1024 : Int) := by
        rw [← zpow_add₀ htwo]
        rfl

theorem IsCanonical.number_ofNumber {m : Nat} {e : Int} (hcanonical : IsCanonical m e)
    (hm : 0 < m) :
    number (ofNumber (.finite .positive m e hm)) =
      if e ≤ 971 then .finite .positive m e hm else .infinity .positive := by
  have hnumber : number (ofNumber (.finite .positive m e hm)) = UnpackedFloat.unpack .binary64
      (UnpackedFloat.pack .binary64 (.finite .positive m e hm)) := rfl
  rw [hnumber]
  split
  · rename_i hle
    by_cases hnormal : 2 ^ 52 ≤ m
    · exact unpack_pack_normal _ hnormal hcanonical.below hcanonical.least hle hm
    · exact unpack_pack_subnormal _ (hcanonical.full.resolve_left hnormal) (by omega) hm
  · rename_i hlarge
    have hbiased : 2048 ≤ (e + 1023 + 52).toNat + 1 := by omega
    have hpack : UnpackedFloat.pack .binary64 (.finite .positive m e hm) =
        packedInfinity .binary64 .positive := by
      simp only [UnpackedFloat.pack, Format.exponentBias]
      norm_num [hbiased]
    rw [hpack]
    rfl

/-- The nearest double is what a number is rounded to. -/
theorem rounds_nearest (hq : 0 < q) : Rounds q (ofNumber (nearest q)) := by
  have hnearest := isNearest_roundedMantissa (q := q / 2 ^ lastPlace q) (by positivity)
  refine ⟨(extended (q / 2 ^ lastPlace q)).roundedMantissa, ?_, ?_⟩
  · rw [unit_eq]
    exact hnearest
  rw [unit_eq]
  rcases Nat.eq_zero_or_pos (extended (q / 2 ^ lastPlace q)).roundedMantissa with hzero | hpos
  · rw [nearest_of_rounded_eq_zero hzero, hzero, Nat.cast_zero, zero_mul, if_pos (by positivity)]
    exact .inl ⟨rfl, rfl⟩
  · obtain ⟨m, e, hm, hfinite, hcanonical, hvalue⟩ := nearest_eq_finite hq hpos
    have hnumber := hcanonical.number_ofNumber hm
    rw [hfinite, ← hvalue]
    split
    · rename_i hfits
      rw [if_pos (hcanonical.lt_iff.mp hfits)] at hnumber
      exact .inr ⟨m, e, hm, hnumber, rfl⟩
    · rename_i hlarge
      rwa [if_neg fun hle => hlarge (hcanonical.lt_iff.mpr hle)] at hnumber

theorem rounds_zero : Rounds 0 (ofNumber (.zero .positive)) := by
  refine ⟨0, ⟨by norm_num, fun _ => rfl⟩, ?_⟩
  rw [Nat.cast_zero, zero_mul, if_pos (by positivity)]
  exact .inl ⟨rfl, rfl⟩

end Rounded

/-- A number is rounded to one double only. -/
theorem Rounds.unique {q : ℚ} {x y : Float} (hx : Rounds q x) (hy : Rounds q y) : x = y := by
  obtain ⟨m, hm, hx⟩ := hx
  obtain ⟨n, hn, hy⟩ := hy
  obtain rfl := hm.unique hn
  split at hx
  · rename_i hfits
    rw [if_pos hfits] at hy
    exact hx.unique hy
  · rename_i hlarge
    rw [if_neg hlarge] at hy
    exact eq_of_number_eq (hx.trans hy.symm)

end Double

/-- Every decimal is read as what its value is rounded to, and as no other double. -/
theorem Decimal.toFloat_eq_iff {d : Decimal} {x : Float} :
    d.toFloat = x ↔ Double.Rounds d.value x := by
  have hrounds : Double.Rounds d.value d.toFloat := by
    by_cases hzero : d.coefficient = 0
    · rw [toFloat_of_zero hzero, value_eq_zero_iff.mpr hzero]
      exact Double.rounds_zero
    · have hpos := Nat.pos_of_ne_zero hzero
      have hvalue : 0 < d.value := by
        have hcoefficient : (0 : ℚ) < d.coefficient := by exact_mod_cast hpos
        exact mul_pos hcoefficient (by positivity)
      rw [toFloat_of_pos hpos]
      exact Double.rounds_nearest hvalue
  constructor
  · intro h
    rw [← h]
    exact hrounds
  · exact hrounds.unique

end WordGrammar

import Mathlib
import WordGrammar.Decimal.Shortest

open Float.Model Float.Model.UnpackedFloat

namespace WordGrammar.Double

/-- The fraction, exponent and sign fields of a double's bits. -/
abbrev fractionBits (b : BitVec 64) : BitVec 52 := @unpackMantissa .binary64 b

abbrev exponentBits (b : BitVec 64) : BitVec 11 := @unpackExponent .binary64 b

abbrev signBit (b : BitVec 64) : BitVec 1 := @unpackSign .binary64 b

section Fields

theorem toNat_append {m n : Nat} (x : BitVec m) (y : BitVec n) :
    (x ++ y).toNat = x.toNat * 2 ^ n + y.toNat := by
  rw [BitVec.toNat_append, ← Nat.shiftLeft_add_eq_or_of_lt y.isLt, Nat.shiftLeft_eq]

theorem toNat_packComponents (s : Sign) (e : BitVec 11) (m : BitVec 52) :
    (packComponents .binary64 s e m).toNat =
      s.toBitVec.toNat * 2 ^ 63 + e.toNat * 2 ^ 52 + m.toNat := by
  rw [packComponents, toNat_append, toNat_append]
  omega

theorem toNat_fractionBits (b : BitVec 64) : (fractionBits b).toNat = b.toNat % 2 ^ 52 := by
  simp [unpackMantissa]

theorem toNat_exponentBits (b : BitVec 64) :
    (exponentBits b).toNat = b.toNat / 2 ^ 52 % 2 ^ 11 := by
  simp [unpackExponent, BitVec.extractLsb_toNat, Nat.shiftRight_eq_div_pow]

theorem toNat_signBit (b : BitVec 64) : (signBit b).toNat = b.toNat / 2 ^ 63 := by
  have hlt := b.isLt
  simp [unpackSign, BitVec.extractLsb_toNat, Nat.shiftRight_eq_div_pow]
  omega

theorem toBitVec_ofBitVec (v : BitVec 1) : (Sign.ofBitVec v).toBitVec = v := by
  obtain rfl | rfl := BitVec.eq_zero_or_eq_one v
  · rfl
  · rfl

theorem ofBitVec_toBitVec (s : Sign) : Sign.ofBitVec s.toBitVec = s := by
  cases s <;> rfl

/-- The three fields are the whole double. -/
theorem packComponents_fields (b : BitVec 64) :
    packComponents .binary64 (Sign.ofBitVec (signBit b)) (exponentBits b) (fractionBits b) = b := by
  have hlt := b.isLt
  apply BitVec.eq_of_toNat_eq
  rw [toNat_packComponents, toBitVec_ofBitVec, toNat_signBit, toNat_exponentBits,
    toNat_fractionBits]
  omega

theorem signBit_packComponents (s : Sign) (e : BitVec 11) (m : BitVec 52) :
    signBit (packComponents .binary64 s e m) = s.toBitVec := by
  have hsign := s.toBitVec.isLt
  have hexponent := e.isLt
  have hfraction := m.isLt
  apply BitVec.eq_of_toNat_eq
  rw [toNat_signBit, toNat_packComponents]
  omega

end Fields

section RoundTrips

theorem toNat_implicit (f : BitVec 52) : (1#1 ++ f).toNat = 2 ^ 52 + f.toNat := by
  rw [toNat_append]
  simp

theorem ofNat_implicit (f : BitVec 52) : BitVec.ofNat 52 (1#1 ++ f).toNat = f := by
  have hlt := f.isLt
  apply BitVec.eq_of_toNat_eq
  rw [toNat_implicit, BitVec.toNat_ofNat]
  omega

/-- Significands with the implicit bit are those of 53 bits. -/
theorem log2_eq_52 {m : Nat} (hlo : 2 ^ 52 ≤ m) (hhi : m < 2 ^ 53) : m.log2 = 52 := by
  have hne : m ≠ 0 := by omega
  have hle := (Nat.le_log2 hne).mpr hlo
  have hlt := (Nat.log2_lt hne).mpr hhi
  omega

/-- The exponent field of all ones is kept for infinities and undefined results. -/
theorem toNat_lt_of_ne_max {e : BitVec 11} (hne : e ≠ -1#11) : e.toNat < 2047 := by
  have hlt := e.isLt
  have hmax : e.toNat ≠ 2047 := by
    intro h
    exact hne (BitVec.eq_of_toNat_eq h)
  omega

/-- A significand of 53 bits is packed without its first bit. -/
theorem pack_normal (s : Sign) {m : Nat} {e : Int} (hlo : 2 ^ 52 ≤ m) (hhi : m < 2 ^ 53)
    {biased : Nat} (hbiased : e + 1075 = biased) (hmax : biased < 2047) (hm : 0 < m) :
    UnpackedFloat.pack .binary64 (.finite s m e hm) =
      packComponents .binary64 s (BitVec.ofNat 11 biased) (BitVec.ofNat 52 m) := by
  have hlog := log2_eq_52 hlo hhi
  have hexponent : (e + 1023 + 52).toNat = biased := by omega
  have hfits : ¬ 2048 ≤ biased + 1 := by omega
  simp only [UnpackedFloat.pack, Format.exponentBias, Format.mantissaBits, hlog]
  norm_num [hexponent, hfits]

theorem pack_subnormal (s : Sign) {m : Nat} {e : Int} (he : e = -1074) (hhi : m < 2 ^ 52)
    (hm : 0 < m) :
    UnpackedFloat.pack .binary64 (.finite s m e hm) =
      packComponents .binary64 s 0#11 (BitVec.ofNat 52 m) := by
  have hlog := (Nat.log2_lt (by omega)).mpr hhi
  have hsubnormal : ¬ m.log2 + 1 = 53 := by omega
  simp only [UnpackedFloat.pack, Format.exponentBias, Format.mantissaBits, he]
  norm_num [hsubnormal]

/-- The bits of a double are those of the number they stand for. -/
theorem pack_unpack {b : BitVec 64} (hvalid : Format.binary64.Valid b) :
    UnpackedFloat.pack .binary64 (UnpackedFloat.unpack .binary64 b) = b := by
  have hfields := packComponents_fields b
  have hlt := (fractionBits b).isLt
  fun_cases UnpackedFloat.unpack Format.binary64 b with
  | case1 _ _ _ _ hmax hzero =>
    have hexponent : exponentBits b = -1#11 := hmax
    have hfraction : fractionBits b = 0#52 := hzero
    rw [hexponent, hfraction] at hfields
    exact hfields
  | case2 _ _ hmax hne => exact (hvalid.eq_packedNaN hmax hne).symm
  | case3 _ _ _ _ _ hmin hzero =>
    have hexponent : exponentBits b = 0#11 := hmin
    have hfraction : fractionBits b = 0#52 := hzero
    rw [hexponent, hfraction] at hfields
    exact hfields
  | case4 _ exponentVec exponent _ _ _ hmin hne =>
    have hexponent : exponentBits b = 0#11 := hmin
    have hpos : (fractionBits b).toNat ≠ 0 := fun h => hne (BitVec.eq_of_toNat_eq h)
    have he : exponent + 1 = -1074 := by
      simp only [exponent, hmin, exponentVec]
      rfl
    rw [pack_subnormal _ he hlt]
    rw [hexponent] at hfields
    simpa using hfields
  | case5 _ exponentVec exponent _ _ hmax hmin =>
    have himplicit := toNat_implicit (fractionBits b)
    have hlo : 2 ^ 52 ≤ (1#1 ++ fractionBits b).toNat := by omega
    have hhi : (1#1 ++ fractionBits b).toNat < 2 ^ 53 := by omega
    have hexponent : (exponentBits b).toNat < 2047 := toNat_lt_of_ne_max hmax
    have he : exponent + 1075 = (exponentBits b).toNat := by
      simp only [exponent, exponentVec, Format.exponentBias]
      norm_num
    refine (pack_normal _ hlo hhi he hexponent _).trans ?_
    rw [ofNat_implicit]
    simpa using hfields

/-- A normal number in range is the one its bits stand for. -/
theorem unpack_pack_normal (s : Sign) {m : Nat} {e : Int} (hlo : 2 ^ 52 ≤ m) (hhi : m < 2 ^ 53)
    (hmin : -1074 ≤ e) (hmax : e ≤ 971) (hm : 0 < m) :
    UnpackedFloat.unpack .binary64 (UnpackedFloat.pack .binary64 (.finite s m e hm)) =
      .finite s m e hm := by
  obtain ⟨biased, hbiased⟩ : ∃ biased : Nat, e + 1075 = biased :=
    ⟨(e + 1075).toNat, by omega⟩
  have hexponent : (BitVec.ofNat 11 biased).toNat = biased := by
    rw [BitVec.toNat_ofNat]
    omega
  have hne_max : BitVec.ofNat 11 biased ≠ -1#11 := by
    intro h
    have hnat : biased = 2047 := hexponent.symm.trans (congrArg BitVec.toNat h)
    omega
  have hne_min : BitVec.ofNat 11 biased ≠ 0#11 := by
    intro h
    have hnat : biased = 0 := hexponent.symm.trans (congrArg BitVec.toNat h)
    omega
  have hm' : (1#1 ++ BitVec.ofNat 52 m).toNat = m := by
    rw [toNat_implicit, BitVec.toNat_ofNat]
    omega
  have he : ((BitVec.ofNat 11 biased).toNat : Int) -
      (((Format.exponentBias .binary64 : Nat) : Int) + ((52 : Nat) : Int)) = e := by
    rw [hexponent]
    simp only [Format.exponentBias]
    norm_num
    omega
  rw [pack_normal s hlo hhi hbiased (by omega) hm]
  simp only [UnpackedFloat.unpack, unpackExponent_packComponents, unpackMantissa_packComponents,
    signBit_packComponents, hne_max, hne_min, if_false, hm', ofBitVec_toBitVec]
  simp only [he]

/-- A number with fewer bits in the least unit is the one its bits stand for. -/
theorem unpack_pack_subnormal (s : Sign) {m : Nat} {e : Int} (he : e = -1074) (hhi : m < 2 ^ 52)
    (hm : 0 < m) :
    UnpackedFloat.unpack .binary64 (UnpackedFloat.pack .binary64 (.finite s m e hm)) =
      .finite s m e hm := by
  have hm' : (BitVec.ofNat 52 m).toNat = m := by
    rw [BitVec.toNat_ofNat]
    omega
  have hne : BitVec.ofNat 52 m ≠ 0#52 := by
    intro h
    have hnat : m = 0 := hm'.symm.trans (congrArg BitVec.toNat h)
    omega
  have hmax : (0#11 : BitVec 11) ≠ -1#11 := by decide
  rw [pack_subnormal s he hhi hm]
  simp only [UnpackedFloat.unpack, unpackExponent_packComponents, unpackMantissa_packComponents,
    signBit_packComponents, hmax, hne, if_false, if_true, dif_neg, not_false_eq_true, hm',
    ofBitVec_toBitVec]
  simp [he, Format.exponentBias]

end RoundTrips

section Doubles

variable {x y : Float}

/-- The number a double stands for. -/
def number (x : Float) : UnpackedFloat := x.toModel.unpack

/-- The double that stands for a number. -/
def ofNumber (u : UnpackedFloat) : Float := .ofModel (Float.Model.pack u)

theorem eq_of_toBits_eq (h : x.toBits = y.toBits) : x = y := by
  cases x with
  | ofModel a =>
    cases y with
    | ofModel b =>
      cases a
      cases b
      simpa [Float.toBits] using h

theorem ofNumber_congr {u v : UnpackedFloat}
    (h : UnpackedFloat.pack .binary64 u = UnpackedFloat.pack .binary64 v) :
    ofNumber u = ofNumber v :=
  eq_of_toBits_eq (UInt64.eq_of_toBitVec_eq h)

theorem ofNumber_number (x : Float) : ofNumber (number x) = x := by
  have hpack := pack_unpack x.toModel.valid
  apply eq_of_toBits_eq
  apply UInt64.eq_of_toBitVec_eq
  exact hpack

/-- Different doubles stand for different numbers. -/
theorem eq_of_number_eq (h : number x = number y) : x = y := by
  rw [← ofNumber_number x, h, ofNumber_number]

/-- Numbers that compare equal are the same, unless they are zeros. -/
theorem eq_of_compare {u v : UnpackedFloat} (hcompare : u.compare v = some .eq)
    (hne : ∀ s, v ≠ .zero s) : u = v := by
  match u, v with
  | .infinity s, .infinity t => cases s <;> cases t <;> first | rfl | cases hcompare
  | .infinity s, .zero _ => cases s <;> cases hcompare
  | .infinity s, .finite .. => cases s <;> cases hcompare
  | .zero _, .infinity t => cases t <;> cases hcompare
  | _, .zero s => exact (hne s rfl).elim
  | .zero _, .finite t .. => cases t <;> cases hcompare
  | .finite .., .infinity t => cases t <;> cases hcompare
  | .finite s m e hm, .finite t n f hn =>
    have hparts : s = t → (compare e f).then (compare m n) = .eq →
        UnpackedFloat.finite s m e hm = .finite t n f hn := by
      rintro rfl hthen
      obtain ⟨he, hm'⟩ := Ordering.then_eq_eq.mp hthen
      obtain rfl := Int.compare_eq_eq.mp he
      obtain rfl := Nat.compare_eq_eq.mp hm'
      rfl
    cases s with
    | positive =>
      cases t with
      | positive => exact hparts rfl (Option.some.inj hcompare)
      | negative => cases hcompare
    | negative =>
      cases t with
      | positive => cases hcompare
      | negative =>
        have hswap := Option.some.inj hcompare
        exact hparts rfl (Ordering.swap_eq_eq.mp hswap)

/-- Doubles that are equal as numbers are the same, unless they are zeros. -/
theorem eq_of_beq (hbeq : (x == y) = true) (hne : ∀ s, number y ≠ .zero s) : x = y := by
  have hcompare : (number x).compare (number y) = some .eq := beq_iff_eq.mp hbeq
  exact eq_of_number_eq (eq_of_compare hcompare hne)

theorem exponentField_eq (x : Float) :
    Decimal.exponentField x = (exponentBits x.toBits.toBitVec).toNat := by
  rw [toNat_exponentBits, Decimal.exponentField, UInt64.toNat_and, UInt64.toNat_shiftRight]
  exact (Nat.and_two_pow_sub_one_eq_mod _ 11).trans
    (congrArg (· % 2 ^ 11) (Nat.shiftRight_eq_div_pow _ 52))

theorem fractionField_eq (x : Float) :
    Decimal.fractionField x = (fractionBits x.toBits.toBitVec).toNat := by
  rw [toNat_fractionBits, Decimal.fractionField, UInt64.toNat_and]
  exact Nat.and_two_pow_sub_one_eq_mod _ 52

theorem isNegative_eq (x : Float) :
    Decimal.isNegative x = (signBit x.toBits.toBitVec == 1#1) := by
  have hshift : (x.toBits >>> 63).toNat = (signBit x.toBits.toBitVec).toNat := by
    rw [toNat_signBit, UInt64.toNat_shiftRight]
    exact Nat.shiftRight_eq_div_pow _ 63
  rw [Bool.eq_iff_iff, Decimal.isNegative, beq_iff_eq, beq_iff_eq, ← UInt64.toNat_inj,
    ← BitVec.toNat_inj, hshift]
  rfl

/-- The sign that the sign bit of a double says. -/
def sign (x : Float) : Sign := if Decimal.isNegative x then .negative else .positive

theorem sign_eq (x : Float) : Sign.ofBitVec (signBit x.toBits.toBitVec) = sign x := by
  rw [sign, isNegative_eq]
  obtain hzero | hone := BitVec.eq_zero_or_eq_one (signBit x.toBits.toBitVec)
  · rw [hzero]
    rfl
  · rw [hone]
    rfl

/-- What a finite double stands for: zero, or its significand times the power of two that its
    exponent field says. -/
theorem number_eq_of_isFinite (hfinite : x.isFinite = true) :
    (number x = .zero (sign x) ∧ Decimal.significand x = 0) ∨
      ∃ hm : 0 < Decimal.significand x,
        number x = .finite (sign x) (Decimal.significand x)
          ((max (Decimal.exponentField x) 1 : Nat) - 1075) hm ∧
        Decimal.exponentField x < 2047 := by
  have hsign := sign_eq x
  have hexponent := exponentField_eq x
  have hfraction := fractionField_eq x
  obtain ⟨b, hb⟩ : ∃ b : BitVec 64, x.toBits.toBitVec = b := ⟨_, rfl⟩
  have hnumber : number x = UnpackedFloat.unpack .binary64 b := by
    rw [← hb]
    rfl
  have hfinite' : (UnpackedFloat.unpack .binary64 b).isFinite = true := by
    rw [← hnumber]
    exact hfinite
  rw [hb] at hsign hexponent hfraction
  rw [hnumber]
  revert hfinite'
  -- the cases are infinity, undefined, zero, a subnormal number and a normal one
  fun_cases UnpackedFloat.unpack Format.binary64 b with
  | case1 => simp [UnpackedFloat.isFinite]
  | case2 => simp [UnpackedFloat.isFinite]
  | case3 _ _ _ _ _ hmin hzero =>
    intro _
    have hfield : Decimal.exponentField x = 0 :=
      hexponent.trans (congrArg BitVec.toNat (show exponentBits b = 0#11 from hmin))
    have hsignificand : Decimal.significand x = 0 := by
      rw [Decimal.significand, if_pos hfield, hfraction]
      exact congrArg BitVec.toNat (show fractionBits b = 0#52 from hzero)
    exact .inl ⟨congrArg UnpackedFloat.zero hsign, hsignificand⟩
  | case4 _ exponentVec exponent _ _ _ hmin hne =>
    intro _
    have hpos : (fractionBits b).toNat ≠ 0 := fun h => hne (BitVec.eq_of_toNat_eq h)
    have hfield : Decimal.exponentField x = 0 :=
      hexponent.trans (congrArg BitVec.toNat (show exponentBits b = 0#11 from hmin))
    have hsignificand : Decimal.significand x = (fractionBits b).toNat := by
      rw [Decimal.significand, if_pos hfield, hfraction]
    have he : exponent + 1 = (max (Decimal.exponentField x) 1 : Nat) - 1075 := by
      simp only [exponent, exponentVec, hmin, hfield]
      rfl
    refine .inr ⟨by omega, ?_, by omega⟩
    simp only [hsignificand, ← he]
    rw [← hsign]
  | case5 _ exponentVec exponent _ _ hmax hmin =>
    intro _
    have hne : Decimal.exponentField x ≠ 0 := fun h =>
      hmin (BitVec.eq_of_toNat_eq (hexponent.symm.trans h))
    have hsignificand : Decimal.significand x = (1#1 ++ fractionBits b).toNat := by
      rw [Decimal.significand, if_neg hne, hfraction, toNat_implicit]
      norm_num
    have he : exponent = (max (Decimal.exponentField x) 1 : Nat) - 1075 := by
      have hmax : max (Decimal.exponentField x) 1 = Decimal.exponentField x := by omega
      rw [hmax, hexponent]
      simp only [exponent, exponentVec, Format.exponentBias]
      norm_num
    have himplicit := toNat_implicit (fractionBits b)
    have hlt : (exponentBits b).toNat < 2047 := toNat_lt_of_ne_max hmax
    refine .inr ⟨by omega, ?_, by omega⟩
    simp only [hsignificand, ← he]
    rw [← hsign]

/-- A finite double with a clear sign stands for a number with a positive sign. -/
theorem number_of_isFinite (hfinite : x.isFinite = true) (hsign : Decimal.isNegative x = false) :
    (number x = .zero .positive ∧ Decimal.significand x = 0) ∨
      ∃ hm : 0 < Decimal.significand x,
        number x = .finite .positive (Decimal.significand x)
          ((max (Decimal.exponentField x) 1 : Nat) - 1075) hm ∧
        Decimal.exponentField x < 2047 := by
  have hpositive : sign x = .positive := by
    rw [sign, hsign]
    rfl
  have hnumber := number_eq_of_isFinite hfinite
  rwa [hpositive] at hnumber

end Doubles

end WordGrammar.Double

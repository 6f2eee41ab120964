import WordGrammar.Proofs.Decimal.Shortest

open Float.Model Float.Model.UnpackedFloat

namespace WordGrammar

namespace Double

/-- The number is zero or more, and not undefined. -/
def IsPositive : UnpackedFloat → Prop
  | .infinity s => s = .positive
  | .notANumber => False
  | .zero s => s = .positive
  | .finite s _ _ _ => s = .positive

theorem le_iff {x y : Float} : x ≤ y ↔ (number x).le (number y) = true := by
  have hle : x ≤ y ↔ decide ((number x).le (number y) = true) = true := Iff.rfl
  rw [hle, decide_eq_true_iff]

theorem number_zero : number 0 = .zero .positive := rfl

theorem zero_le_of_isPositive {x : Float} (hpositive : IsPositive (number x)) : 0 ≤ x := by
  rw [le_iff, number_zero]
  cases hnumber : number x with
  | notANumber =>
    rw [hnumber] at hpositive
    exact hpositive.elim
  | infinity s =>
    rw [hnumber] at hpositive
    obtain rfl : s = .positive := hpositive
    rfl
  | zero s => rfl
  | finite s m e hm =>
    rw [hnumber] at hpositive
    obtain rfl : s = .positive := hpositive
    rfl

theorem isNaN_of_zero_le {x : Float} (hle : 0 ≤ x) : x.isNaN = false := by
  rw [le_iff, number_zero] at hle
  have hnan : x.isNaN = (number x).isNaN := rfl
  rw [hnan]
  cases hnumber : number x with
  | notANumber =>
    rw [hnumber] at hle
    cases hle
  | infinity s => rfl
  | zero s => rfl
  | finite s m e hm => rfl

/-- Packing keeps the sign, and keeps clear of undefined results. -/
theorem pack_eq_packComponents {u : UnpackedFloat} (hpositive : IsPositive u) :
    ∃ e f, UnpackedFloat.pack .binary64 u = packComponents .binary64 .positive e f ∧
      (e = -1#11 → f = 0#52) := by
  fun_cases UnpackedFloat.pack Format.binary64 u with
  | case1 => exact hpositive.elim
  | case2 s =>
    obtain rfl : s = .positive := hpositive
    exact ⟨-1#11, 0#52, rfl, fun _ => rfl⟩
  | case3 s =>
    obtain rfl : s = .positive := hpositive
    exact ⟨0#11, 0#52, rfl, fun _ => rfl⟩
  | case4 s m e hm biased hlarge =>
    obtain rfl : s = .positive := hpositive
    exact ⟨-1#11, 0#52, rfl, fun _ => rfl⟩
  | case5 s m e hm bits biased hfits hnormal =>
    obtain rfl : s = .positive := hpositive
    refine ⟨_, _, rfl, fun hmax => ?_⟩
    have hlt : ¬ 2048 ≤ biased + 1 := hfits
    have hnat : (BitVec.ofNat 11 biased).toNat = 2047 := congrArg BitVec.toNat hmax
    rw [BitVec.toNat_ofNat, Nat.mod_eq_of_lt (by omega)] at hnat
    omega
  | case6 s m e hm bits biased hfits hsubnormal =>
    obtain rfl : s = .positive := hpositive
    refine ⟨0#11, _, rfl, fun hmax => ?_⟩
    cases hmax

theorem isPositive_unpack_pack {u : UnpackedFloat} (hpositive : IsPositive u) :
    IsPositive (UnpackedFloat.unpack .binary64 (UnpackedFloat.pack .binary64 u)) := by
  obtain ⟨e, f, hpack, hmax⟩ := pack_eq_packComponents hpositive
  obtain ⟨b, hb⟩ : ∃ b, packComponents .binary64 .positive e f = b := ⟨_, rfl⟩
  have hexponent : exponentBits b = e := hb ▸ unpackExponent_packComponents
  have hfraction : fractionBits b = f := hb ▸ unpackMantissa_packComponents
  have hsign : Sign.ofBitVec (signBit b) = .positive := by
    rw [← hb, signBit_packComponents, ofBitVec_toBitVec]
  rw [hpack, hb]
  fun_cases UnpackedFloat.unpack Format.binary64 b with
  | case1 => exact hsign
  | case2 _ _ hmax' hne => exact hne (hfraction.trans (hmax (hexponent.symm.trans hmax')))
  | case3 => exact hsign
  | case4 => exact hsign
  | case5 => exact hsign

theorem isPositive_nearest (q : ℚ) : IsPositive (nearest q) := by
  unfold nearest
  dsimp only
  split <;> rfl

end Double

namespace Decimal

/-- Every decimal is read as a positive number or as zero. -/
theorem isPositive_toFloat (d : Decimal) : Double.IsPositive (Double.number d.toFloat) := by
  by_cases hzero : d.coefficient = 0
  · have hpositive : Double.IsPositive (.zero .positive) := rfl
    rw [toFloat_of_zero hzero]
    exact Double.isPositive_unpack_pack hpositive
  · rw [toFloat_of_pos (Nat.pos_of_ne_zero hzero)]
    exact Double.isPositive_unpack_pack (Double.isPositive_nearest _)

theorem zero_le_toFloat (d : Decimal) : 0 ≤ d.toFloat :=
  Double.zero_le_of_isPositive d.isPositive_toFloat

end Decimal

end WordGrammar

import Mathlib.Algebra.BigOperators.Group.List.Basic
import Mathlib.Algebra.Order.BigOperators.Group.List
import Mathlib.Algebra.Order.Field.Basic
import Mathlib.Data.Rat.Cast.Order
import Mathlib.Order.Interval.Set.Defs
import Mathlib.Tactic.Linarith
import Mathlib.Tactic.NormNum
import WordGrammar.Proofs.Weight.Live

namespace WordGrammar

/-- Exact numbers as weights. -/
instance : Weight ℚ where
  zero := 0
  add := (· + ·)
  sub := (· - ·)
  mul := (· * ·)
  lt v w := decide (v < w)
  fraction k := k.val / 0x20000000000000

namespace Weight

variable {weights : List ℚ} {rest : ℚ} {k : Nat}

/-- The sum of the weights in front of a position. -/
def sumBefore (weights : List ℚ) (k : Nat) : ℚ := (weights.take k).sum

@[simp] theorem sumBefore_zero (weights : List ℚ) : sumBefore weights 0 = 0 := rfl

@[simp] theorem sumBefore_cons_succ (w : ℚ) (weights : List ℚ) (k : Nat) :
    sumBefore (w :: weights) (k + 1) = w + sumBefore weights k := by
  rw [sumBefore, List.take_succ_cons, List.sum_cons, sumBefore]

theorem sumBefore_succ (hk : k < weights.length) :
    sumBefore weights (k + 1) = sumBefore weights k + weights[k] :=
  List.sum_take_succ weights k hk

theorem sumBefore_nonneg (hweights : ∀ w ∈ weights, 0 ≤ w) (k : Nat) :
    0 ≤ sumBefore weights k :=
  List.sum_nonneg fun w hw => hweights w (List.mem_of_mem_take hw)

theorem sumBefore_le_sum (hweights : ∀ w ∈ weights, 0 ≤ w) (k : Nat) :
    sumBefore weights k ≤ weights.sum := by
  have hsplit := congrArg List.sum (List.take_append_drop k weights)
  have hlater : 0 ≤ (weights.drop k).sum :=
    List.sum_nonneg fun w hw => hweights w (List.mem_of_mem_drop hw)
  rw [List.sum_append] at hsplit
  rw [sumBefore]
  linarith

theorem total_eq_sum (weights : List ℚ) : total weights = weights.sum :=
  List.sum_eq_foldl.symm

theorem fraction_mem (share : Share) : (fraction share : ℚ) ∈ Set.Ico 0 1 := by
  have hlt : (share.val : ℚ) < (0x20000000000000 : Nat) := Nat.cast_lt.mpr share.isLt
  push_cast at hlt
  constructor
  · exact div_nonneg (Nat.cast_nonneg _) (by norm_num)
  · exact (div_lt_one (by norm_num)).mpr hlt

/-- What is located is the position whose weight covers the number. -/
theorem locate?_eq_some_iff (hweights : ∀ w ∈ weights, 0 ≤ w) (hrest : 0 ≤ rest) :
    locate? rest weights = some k ↔
      k < weights.length ∧ sumBefore weights k ≤ rest ∧ rest < sumBefore weights (k + 1) := by
  induction weights generalizing rest k with
  | nil => simp [locate?]
  | cons w weights ih =>
    obtain ⟨hw, hlater⟩ := List.forall_mem_cons.mp hweights
    have hlt : (lt rest w = true) ↔ rest < w := decide_eq_true_iff
    have hsub : sub rest w = rest - w := rfl
    rw [locate?]
    by_cases hcovered : rest < w
    · rw [if_pos (hlt.mpr hcovered)]
      cases k with
      | zero => simp [hrest, hcovered]
      | succ k =>
        have hbefore := sumBefore_nonneg hlater k
        simp only [sumBefore_cons_succ]
        constructor
        · intro h
          cases h
        · intro h
          linarith [h.2.1]
    · rw [if_neg (mt hlt.mp hcovered), hsub]
      cases k with
      | zero => simp [hcovered]
      | succ k =>
        have hleft : 0 ≤ rest - w := by linarith
        rw [Option.map_eq_some_iff]
        simp only [Nat.add_right_cancel_iff, exists_eq_right, ih hlater hleft, sumBefore_cons_succ,
          List.length_cons, Nat.add_lt_add_iff_right, le_sub_iff_add_le', sub_lt_iff_lt_add']

/-- Every number below the total is covered. -/
theorem exists_locate? (hweights : ∀ w ∈ weights, 0 ≤ w) (hrest : 0 ≤ rest)
    (htotal : rest < weights.sum) : ∃ k, locate? rest weights = some k := by
  induction weights generalizing rest with
  | nil => exact absurd htotal (not_lt.mpr hrest)
  | cons w weights ih =>
    obtain ⟨-, hlater⟩ := List.forall_mem_cons.mp hweights
    rw [List.sum_cons] at htotal
    rw [locate?]
    by_cases hcovered : lt rest w = true
    · exact ⟨0, if_pos hcovered⟩
    · have hle : w ≤ rest := not_lt.mp (mt decide_eq_true_iff.mpr hcovered)
      obtain ⟨k, hk⟩ := ih hlater (sub_nonneg.mpr hle) (by linarith)
      have hsub : sub rest w = rest - w := rfl
      exact ⟨k + 1, by rw [if_neg hcovered, hsub, hk]; rfl⟩

theorem select_of_locate? {draw : ℚ} (hfound : locate? (draw * weights.sum) weights = some k) :
    select draw weights = k := by
  have hmul : mul draw (total weights) = draw * weights.sum := by
    rw [total_eq_sum]
    rfl
  rw [select, hmul, hfound, Option.getD_some]

/-- If all weights are zero, no number is covered, and the last position is selected. -/
theorem select_of_sum_eq_zero (hweights : ∀ w ∈ weights, 0 ≤ w) (hzero : weights.sum = 0)
    (draw : ℚ) : select draw weights = weights.length - 1 := by
  have hmul : mul draw (total weights) = 0 := by
    rw [total_eq_sum, hzero]
    exact mul_zero draw
  have hnone : locate? 0 weights = none := by
    rw [Option.eq_none_iff_forall_ne_some]
    intro k hk
    obtain ⟨-, -, hlt⟩ := (locate?_eq_some_iff hweights le_rfl).mp hk
    have hle := sumBefore_le_sum hweights (k + 1)
    linarith
  have hpositive : weights.reverse.findIdx? (fun w => lt zero w) = none := by
    rw [List.findIdx?_eq_none_iff]
    intro w hw
    have hmem := List.mem_reverse.mp hw
    have hle : w ≤ weights.sum := List.single_le_sum hweights w hmem
    exact decide_eq_false (not_lt.mpr (hle.trans hzero.le))
  rw [select, hmul, hnone, Option.getD_none, lastUsable, hpositive]

/-- To exact numbers that are not negative, zeros make no difference. -/
theorem lawful_rat : Lawful (fun w : ℚ => 0 ≤ w) (fun rest => 0 ≤ rest) where
  add_zero hweights hw hzero := by
    obtain rfl := le_antisymm (not_lt.mp (of_decide_eq_false hzero)) hw
    exact add_zero _
  fair_mul {weights} hweights share := by
    have htotal : 0 ≤ total weights := by
      rw [total_eq_sum]
      exact List.sum_nonneg hweights
    exact mul_nonneg (fraction_mem share).1 htotal
  fair_sub hrest hw hle := sub_nonneg.mpr (not_lt.mp (of_decide_eq_false hle))
  sub_zero hrest hw hzero := by
    obtain rfl := le_antisymm (not_lt.mp (of_decide_eq_false hzero)) hw
    exact sub_zero _
  not_lt_zero hrest hw hzero := by
    obtain rfl := le_antisymm (not_lt.mp (of_decide_eq_false hzero)) hw
    exact decide_eq_false (not_lt.mpr hrest)

/-- The draws that select a position begin where its weight does, and end where it ends. -/
theorem select_eq_iff_mem (hweights : ∀ w ∈ weights, 0 ≤ w) (htotal : 0 < weights.sum)
    (hk : k < weights.length) {draw : ℚ} :
    draw ∈ Set.Ico 0 1 ∧ select draw weights = k ↔
      draw ∈ Set.Ico (sumBefore weights k / weights.sum)
        (sumBefore weights (k + 1) / weights.sum) := by
  rw [Set.mem_Ico, Set.mem_Ico, div_le_iff₀ htotal, lt_div_iff₀ htotal]
  constructor
  · intro h
    obtain ⟨⟨hlow, hhigh⟩, hselect⟩ := h
    have hrest : 0 ≤ draw * weights.sum := mul_nonneg hlow htotal.le
    obtain ⟨j, hj⟩ := exists_locate? hweights hrest (mul_lt_of_lt_one_left htotal hhigh)
    obtain rfl : j = k := (select_of_locate? hj).symm.trans hselect
    exact ((locate?_eq_some_iff hweights hrest).mp hj).2
  · intro h
    have hrest : 0 ≤ draw * weights.sum := (sumBefore_nonneg hweights k).trans h.1
    have hbelow : draw * weights.sum < 1 * weights.sum := by
      rw [one_mul]
      exact h.2.trans_le (sumBefore_le_sum hweights (k + 1))
    have hfound := (locate?_eq_some_iff hweights hrest).mpr ⟨hk, h⟩
    refine ⟨⟨?_, lt_of_mul_lt_mul_right hbelow htotal.le⟩, select_of_locate? hfound⟩
    exact nonneg_of_mul_nonneg_left hrest htotal

/-- With weights that are zero or more, a draw selects the one position whose weight covers it,
    which is not zero, and so a position is selected by an interval of the draws whose length is its
    part of the total. If all weights are zero, the last position is selected. A choice draws once
    and goes on with the alternative whose position is selected. -/
theorem selects_by_portion (hne : weights ≠ []) (hweights : ∀ w ∈ weights, 0 ≤ w) :
    (0 < weights.sum →
      (∀ draw ∈ Set.Ico (0 : ℚ) 1, ∃ k, ∃ hk : k < weights.length,
        locate? (draw * weights.sum) weights = some k ∧ select draw weights = k ∧
        0 < weights[k] ∧
        ∀ j, (j < weights.length ∧ sumBefore weights j ≤ draw * weights.sum ∧
          draw * weights.sum < sumBefore weights (j + 1)) ↔ j = k) ∧
      ∀ k, ∀ hk : k < weights.length,
        {draw | draw ∈ Set.Ico 0 1 ∧ select draw weights = k} =
          Set.Ico (sumBefore weights k / weights.sum) (sumBefore weights (k + 1) / weights.sum) ∧
        sumBefore weights (k + 1) / weights.sum - sumBefore weights k / weights.sum =
          weights[k] / weights.sum) ∧
    (weights.sum = 0 → ∀ draw, select draw weights = weights.length - 1) ∧
    (∀ share : Share, fraction share ∈ Set.Ico (0 : ℚ) 1) ∧
    ∀ alternatives : List (Weighted ℚ (Expr ℚ)), alternatives.map (·.weight) = weights →
      ∃ hlt : ∀ draw, select draw weights < alternatives.length, ∀ rule captures,
        (Expr.choice alternatives).expand rule true captures =
          Sampler.ask .fraction >>= fun share =>
            (alternatives.get ⟨select (fraction share) weights, hlt _⟩).item.expand rule true
              captures := by
  refine ⟨fun htotal => ⟨fun draw hdraw => ?_, fun k hk => ⟨?_, ?_⟩⟩,
    select_of_sum_eq_zero hweights, fraction_mem, ?_⟩
  · have hrest : 0 ≤ draw * weights.sum := mul_nonneg hdraw.1 htotal.le
    obtain ⟨k, hfound⟩ := exists_locate? hweights hrest (mul_lt_of_lt_one_left htotal hdraw.2)
    have hcovers := fun j => locate?_eq_some_iff (k := j) hweights hrest
    obtain ⟨hk, hlow, hhigh⟩ := (hcovers k).mp hfound
    refine ⟨k, hk, hfound, select_of_locate? hfound, ?_, fun j => ?_⟩
    · rw [sumBefore_succ hk] at hhigh
      linarith
    · rw [← hcovers j, hfound, Option.some_inj, eq_comm]
  · ext draw
    exact select_eq_iff_mem hweights htotal hk
  · rw [sumBefore_succ hk, add_div, add_sub_cancel_left]
  · rintro alternatives rfl
    have hne' : alternatives ≠ [] := by simpa using hne
    exact ⟨fun draw => by simpa using select_lt draw hne,
      fun rule captures => Expr.expand_choice_weighted hne'⟩

/-- Three fifths of the draws for a weight of three out of five, and none for the zero behind it. -/
theorem selects_by_portion_of_five :
    {draw | draw ∈ Set.Ico (0 : ℚ) 1 ∧ select draw [2, 0, 3, 0] = 2} = Set.Ico (2 / 5) 1 ∧
    {draw | draw ∈ Set.Ico (0 : ℚ) 1 ∧ select draw [2, 0, 3, 0] = 3} = ∅ ∧
    select (1 / 2) [(0 : ℚ), 0] = 1 := by
  have hweights : ∀ w ∈ [(2 : ℚ), 0, 3, 0], 0 ≤ w := by simp
  obtain ⟨hportions, -⟩ := selects_by_portion (List.cons_ne_nil _ _) hweights
  obtain ⟨-, hintervals⟩ := hportions (by norm_num)
  obtain ⟨hthird, -⟩ := hintervals 2 (by decide)
  obtain ⟨hlast, -⟩ := hintervals 3 (by decide)
  have hzero : ∀ w ∈ [(0 : ℚ), 0], 0 ≤ w := by simp
  obtain ⟨-, hlastIfZero, -⟩ := selects_by_portion (List.cons_ne_nil _ _) hzero
  refine ⟨hthird.trans ?_, hlast.trans ?_, hlastIfZero (by simp) _⟩
  · congr 1 <;> norm_num [sumBefore]
  · simp [sumBefore]

end Weight

end WordGrammar

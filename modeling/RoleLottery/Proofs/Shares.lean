import Mathlib.Algebra.BigOperators.Ring.List
import Mathlib.Algebra.Order.BigOperators.Group.List
import Mathlib.Algebra.Order.Field.Rat
import Mathlib.Tactic.FieldSimp
import Mathlib.Tactic.Linarith
import RoleLottery.Shares

/-!
# Exact proportions

In exact weights, comparing with the largest weight first makes no difference: a share is divided
in proportion to the weights.
-/

namespace RoleLottery

variable {weights : List Rat}

/-- The part of a weight in a total, nothing when there is no total. -/
def proportion (total weight : Rat) : Rat := if total = 0 then 0 else weight / total

theorem proportion_mem {total weight : Rat} (hweight : 0 ≤ weight) (hle : weight ≤ total) :
    0 ≤ proportion total weight ∧ proportion total weight ≤ 1 := by
  unfold proportion
  split
  · exact ⟨le_rfl, zero_le_one⟩
  · have htotal := hweight.trans hle
    exact ⟨div_nonneg hweight htotal, div_le_one_of_le₀ hle htotal⟩

theorem proportion_le_raised {rest weight raised : Rat} (hrest : 0 ≤ rest) (hweight : 0 ≤ weight)
    (hle : weight ≤ raised) :
    proportion (weight + rest) weight ≤ proportion (raised + rest) raised := by
  have hraised := hweight.trans hle
  obtain ⟨hnonneg, -⟩ := proportion_mem hraised (le_add_of_nonneg_right hrest)
  by_cases htotal : weight + rest = 0
  · rw [proportion, if_pos htotal]
    exact hnonneg
  · have hpositive : 0 < weight + rest := lt_of_le_of_ne (add_nonneg hweight hrest) (Ne.symm htotal)
    have hlarger : 0 < raised + rest := by linarith
    rw [proportion, if_neg htotal, proportion, if_neg hlarger.ne',
      div_le_div_iff₀ hpositive hlarger]
    nlinarith

theorem proportion_anti {total total' weight : Rat} (hweight : 0 ≤ weight) (hle : weight ≤ total)
    (htotal : total ≤ total') : proportion total' weight ≤ proportion total weight := by
  by_cases hzero : total = 0
  · have hnone : weight = 0 := le_antisymm (hle.trans hzero.le) hweight
    simp [proportion, hnone]
  · have hpositive : 0 < total := lt_of_le_of_ne (hweight.trans hle) (Ne.symm hzero)
    rw [proportion, if_neg (hpositive.trans_le htotal).ne', proportion, if_neg hzero]
    exact div_le_div_of_nonneg_left hweight hpositive htotal

theorem sum_proportion (h : weights.sum ≠ 0) :
    (weights.map (proportion weights.sum)).sum = 1 := by
  have hparts : weights.map (proportion weights.sum) =
      weights.map fun w => w * weights.sum⁻¹ := by
    apply List.map_congr_left
    intro w _
    rw [proportion, if_neg h, div_eq_mul_inv]
  rw [hparts, List.sum_map_mul_right, List.map_id', mul_inv_cancel₀ h]

theorem le_foldl_larger (weights : List Rat) (first : Rat) :
    first ≤ weights.foldl Weight.larger first ∧
      ∀ w ∈ weights, w ≤ weights.foldl Weight.larger first := by
  induction weights generalizing first with
  | nil => simp
  | cons w weights ih =>
    obtain ⟨hfirst, hrest⟩ := ih (Weight.larger first w)
    have hlarger : first ≤ Weight.larger first w ∧ w ≤ Weight.larger first w := by
      simp only [Weight.larger, Weight.lt_rat, decide_eq_true_eq]
      split
      · rename_i hlt
        exact ⟨hlt.le, le_rfl⟩
      · rename_i hlt
        exact ⟨le_rfl, not_lt.mp hlt⟩
    refine ⟨hlarger.1.trans hfirst, List.forall_mem_cons.mpr ⟨hlarger.2.trans hfirst, hrest⟩⟩

theorem foldl_larger_mem (weights : List Rat) (first : Rat) :
    weights.foldl Weight.larger first = first ∨ weights.foldl Weight.larger first ∈ weights := by
  induction weights generalizing first with
  | nil => exact .inl rfl
  | cons w weights ih =>
    rw [List.foldl_cons]
    rcases ih (Weight.larger first w) with hfold | hfold
    · rw [hfold]
      unfold Weight.larger
      split
      · exact .inr List.mem_cons_self
      · exact .inl rfl
    · exact .inr (List.mem_cons_of_mem w hfold)

theorem foldl_add_eq (weights : List Rat) (first : Rat) :
    weights.foldl Weight.add first = first + weights.sum := by
  induction weights generalizing first with
  | nil => simp
  | cons w weights ih =>
    rw [List.foldl_cons, ih, List.sum_cons, Weight.add_rat, add_assoc]

theorem divide_eq (h : ∀ w ∈ weights, 0 ≤ w) (share : Rat) :
    divide share weights = weights.map fun w => share * proportion weights.sum w := by
  obtain ⟨hnonneg, hle⟩ := le_foldl_larger weights 0
  have hmem := foldl_larger_mem weights 0
  unfold divide
  simp only [Weight.zero_rat, Weight.isPositive_rat, Weight.div_rat, Weight.mul_rat]
  generalize weights.foldl Weight.larger 0 = largest at hnonneg hle hmem ⊢
  apply List.map_congr_left
  intro w hw
  by_cases hlargest : 0 < largest
  · have htotal : 0 < weights.sum := by
      have hin := hmem.resolve_left hlargest.ne'
      exact hlargest.trans_le (List.single_le_sum h largest hin)
    have hparts : (weights.map (· / largest)).foldl Weight.add 0 = weights.sum / largest := by
      rw [foldl_add_eq, zero_add]
      simp only [div_eq_mul_inv, List.sum_map_mul_right, List.map_id']
    have hpositive : 0 < weights.sum / largest := div_pos htotal hlargest
    simp only [hlargest, decide_true, if_true, hparts, hpositive, proportion, htotal.ne', if_false]
    field_simp
  · -- No weight is positive, so nothing is handed on.
    have hzero : ∀ w ∈ weights, w = 0 := fun w hw =>
      le_antisymm ((hle w hw).trans (not_lt.mp hlargest)) (h w hw)
    have hsum : weights.sum = 0 := List.sum_eq_zero hzero
    simp [hlargest, proportion, hsum]

end RoleLottery

import Mathlib.Algebra.BigOperators.Field
import Mathlib.Analysis.SpecialFunctions.Log.Basic
import Mathlib.Algebra.Order.BigOperators.Group.Finset

/-! # Cross entropy

Of all distributions that give every outcome a chance, the one that is expected has the least
cross entropy, and no other has it. The softmax of scores is such a distribution.
-/

namespace K8sLearn.Entropy

open Finset

variable {ι : Type*} [Fintype ι]

/-- The cross entropy of `p` against the expected `q`. -/
noncomputable def crossEntropy (q p : ι → ℝ) : ℝ := ∑ i, q i * -Real.log (p i)

noncomputable def softmax (x : ι → ℝ) (i : ι) : ℝ := Real.exp (x i) / ∑ j, Real.exp (x j)

theorem sum_exp_pos [Nonempty ι] (x : ι → ℝ) : 0 < ∑ j, Real.exp (x j) :=
  sum_pos (fun j _ => Real.exp_pos (x j)) univ_nonempty

theorem softmax_pos [Nonempty ι] (x : ι → ℝ) (i : ι) : 0 < softmax x i :=
  div_pos (Real.exp_pos _) (sum_exp_pos x)

theorem sum_softmax [Nonempty ι] (x : ι → ℝ) : ∑ i, softmax x i = 1 := by
  simp only [softmax]
  rw [← sum_div, div_self (sum_exp_pos x).ne']

theorem log_softmax [Nonempty ι] (x : ι → ℝ) (i : ι) :
    Real.log (softmax x i) = x i - Real.log (∑ j, Real.exp (x j)) := by
  rw [softmax, Real.log_div (Real.exp_pos _).ne' (sum_exp_pos x).ne', Real.log_exp]

variable {p q : ι → ℝ}

theorem sub_le_mul_log {a b : ℝ} (ha : 0 < a) (hb : 0 < b) :
    a - b ≤ a * -Real.log b - a * -Real.log a := by
  have hlog := Real.log_le_sub_one_of_pos (div_pos hb ha)
  rw [Real.log_div hb.ne' ha.ne'] at hlog
  have hmul := mul_le_mul_of_nonneg_left hlog ha.le
  rw [mul_sub, mul_sub, mul_div_cancel₀ b ha.ne', mul_one] at hmul
  linarith

theorem sub_lt_mul_log {a b : ℝ} (ha : 0 < a) (hb : 0 < b) (hne : b ≠ a) :
    a - b < a * -Real.log b - a * -Real.log a := by
  have hquot : b / a ≠ 1 := fun h => hne ((div_eq_one_iff_eq ha.ne').mp h)
  have hlog := Real.log_lt_sub_one_of_pos (div_pos hb ha) hquot
  rw [Real.log_div hb.ne' ha.ne'] at hlog
  have hmul := mul_lt_mul_of_pos_left hlog ha
  rw [mul_sub, mul_sub, mul_div_cancel₀ b ha.ne', mul_one] at hmul
  linarith

theorem crossEntropy_self_le (hq : ∀ i, 0 < q i) (hp : ∀ i, 0 < p i) (hsum : ∑ i, p i = ∑ i, q i) :
    crossEntropy q q ≤ crossEntropy q p := by
  have hterms := sum_le_sum fun i (_ : i ∈ univ) => sub_le_mul_log (hq i) (hp i)
  rw [sum_sub_distrib, sum_sub_distrib, hsum, sub_self] at hterms
  exact sub_nonneg.mp hterms

theorem crossEntropy_eq_self_iff (hq : ∀ i, 0 < q i) (hp : ∀ i, 0 < p i)
    (hsum : ∑ i, p i = ∑ i, q i) : crossEntropy q p = crossEntropy q q ↔ p = q := by
  constructor
  · intro heq
    by_contra hne
    obtain ⟨i, hi⟩ := Function.ne_iff.mp hne
    have hterms := sum_lt_sum (fun j _ => sub_le_mul_log (hq j) (hp j))
      ⟨i, mem_univ i, sub_lt_mul_log (hq i) (hp i) hi⟩
    rw [sum_sub_distrib, sum_sub_distrib, hsum, sub_self] at hterms
    exact (sub_pos.mp hterms).ne' heq
  · rintro rfl
    rfl

end K8sLearn.Entropy

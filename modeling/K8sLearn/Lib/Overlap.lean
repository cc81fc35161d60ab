import Mathlib.Algebra.Order.Field.Rat
import Mathlib.Data.Multiset.UnionInter
import Mathlib.Tactic.FieldSimp
import Mathlib.Tactic.Linarith
import Mathlib.Tactic.Positivity

/-! # Overlap of multisets

Twice the common elements, over all elements of two multisets. It is the harmonic mean of the
parts of both that are common.
-/

namespace K8sLearn

variable {α : Type*} [DecidableEq α] {s t : Multiset α}

/-- The part of two multisets that they have in common; none of two empty ones. -/
def overlap (s t : Multiset α) : ℚ := 2 * (s ∩ t).card / (s.card + t.card)

theorem overlap_comm (s t : Multiset α) : overlap s t = overlap t s := by
  rw [overlap, overlap, Multiset.inter_comm, add_comm]

theorem overlap_nonneg (s t : Multiset α) : 0 ≤ overlap s t := by
  unfold overlap
  positivity

theorem two_mul_card_inter_le (s t : Multiset α) : 2 * (s ∩ t).card ≤ s.card + t.card := by
  have hs := Multiset.card_le_card (Multiset.inter_le_left (s := s) (t := t))
  have ht := Multiset.card_le_card (Multiset.inter_le_right (s := s) (t := t))
  omega

theorem overlap_le_one (s t : Multiset α) : overlap s t ≤ 1 := by
  have h := two_mul_card_inter_le s t
  refine div_le_one_of_le₀ ?_ (by positivity)
  exact_mod_cast h

theorem two_mul_card_inter_eq_iff : 2 * (s ∩ t).card = s.card + t.card ↔ s = t := by
  constructor
  · intro h
    have hs := Multiset.card_le_card (Multiset.inter_le_left (s := s) (t := t))
    have ht := Multiset.card_le_card (Multiset.inter_le_right (s := s) (t := t))
    have hls : s ∩ t = s := Multiset.eq_of_le_of_card_le Multiset.inter_le_left (by omega)
    have hlt : s ∩ t = t := Multiset.eq_of_le_of_card_le Multiset.inter_le_right (by omega)
    exact hls.symm.trans hlt
  · rintro rfl
    have hself : s ∩ s = s := inf_idem s
    rw [hself, Nat.two_mul]

theorem overlap_eq_one_iff (h : s ≠ 0) : overlap s t = 1 ↔ s = t := by
  have hpos : 0 < s.card := Multiset.card_pos.mpr h
  rw [← two_mul_card_inter_eq_iff, overlap, div_eq_one_iff_eq (by positivity)]
  exact_mod_cast Iff.rfl

theorem overlap_eq_harmonic (h : (s ∩ t).card ≠ 0) :
    2 * ((s ∩ t).card / s.card : ℚ) * ((s ∩ t).card / t.card) /
      ((s ∩ t).card / s.card + (s ∩ t).card / t.card) = overlap s t := by
  have hs : (s ∩ t).card ≤ s.card := Multiset.card_le_card Multiset.inter_le_left
  have ht : (s ∩ t).card ≤ t.card := Multiset.card_le_card Multiset.inter_le_right
  have hm : ((s ∩ t).card : ℚ) ≠ 0 := by exact_mod_cast h
  have hs' : (s.card : ℚ) ≠ 0 := by
    have : s.card ≠ 0 := by omega
    exact_mod_cast this
  have ht' : (t.card : ℚ) ≠ 0 := by
    have : t.card ≠ 0 := by omega
    exact_mod_cast this
  rw [overlap]
  field_simp
  rw [add_comm]

end K8sLearn

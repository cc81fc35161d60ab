import Mathlib.Algebra.Order.Field.Basic
import Mathlib.Tactic.Linarith

/-! # The nearest value of a set

The value of a set at minimum distance, the smaller one of two. It is monotone in the point and
fixes the set, and between two neighbours of the set it is one of these.
-/

namespace K8sLearn

variable {K : Type*} [Field K] [LinearOrder K] [IsStrictOrderedRing K]

/-- The nearest value of a set to a point, the smaller one on a tie. -/
structure IsNearest (s : Set K) (x r : K) : Prop where
  mem : r ∈ s
  dist_le : ∀ v ∈ s, |x - r| ≤ |x - v|
  le_of_tie : ∀ v ∈ s, |x - v| = |x - r| → r ≤ v

variable {s : Set K} {x y r r' lo hi : K}

/-- A point is nearer to the larger of two values above their midpoint. -/
theorem abs_sub_lt_abs_sub_iff (h : lo < hi) : |x - hi| < |x - lo| ↔ lo + hi < 2 * x := by
  rcases abs_cases (x - hi) with ⟨hh, _⟩ | ⟨hh, _⟩ <;>
    rcases abs_cases (x - lo) with ⟨hl, _⟩ | ⟨hl, _⟩ <;>
      rw [hh, hl] <;> constructor <;> intro <;> linarith

namespace IsNearest

theorem eq_self (h : IsNearest s x r) (hx : x ∈ s) : r = x := by
  have hle := h.dist_le x hx
  rw [sub_self, abs_zero] at hle
  exact (sub_eq_zero.mp (abs_nonpos_iff.mp hle)).symm

theorem mono (h : IsNearest s x r) (h' : IsNearest s y r') (hxy : x ≤ y) : r ≤ r' := by
  by_contra hlt
  have hlt := not_le.mp hlt
  have hx : |x - r| < |x - r'| :=
    lt_of_le_of_ne (h.dist_le r' h'.mem) fun heq =>
      absurd (h.le_of_tie r' h'.mem heq.symm) (not_le.mpr hlt)
  have hy : ¬ |y - r| < |y - r'| := not_lt.mpr (h'.dist_le r h.mem)
  rw [abs_sub_lt_abs_sub_iff hlt] at hx hy
  linarith

theorem of_neighbours (hlo : lo ∈ s) (hhi : hi ∈ s) (hs : ∀ v ∈ s, v ≤ lo ∨ hi ≤ v)
    (hl : lo ≤ x) (hh : x ≤ hi) : IsNearest s x (if |x - hi| < |x - lo| then hi else lo) := by
  have hdlo : |x - lo| = x - lo := abs_of_nonneg (sub_nonneg.mpr hl)
  have hdhi : |x - hi| = hi - x := by rw [abs_sub_comm, abs_of_nonneg (sub_nonneg.mpr hh)]
  have hbelow : ∀ v ≤ lo, |x - v| = x - v := fun v hv =>
    abs_of_nonneg (sub_nonneg.mpr (hv.trans hl))
  have habove : ∀ v, hi ≤ v → |x - v| = v - x := fun v hv => by
    rw [abs_sub_comm, abs_of_nonneg (sub_nonneg.mpr (hh.trans hv))]
  rw [hdlo, hdhi]
  split_ifs with hlt
  · refine ⟨hhi, fun v hv => ?_, fun v hv htie => ?_⟩
    · rw [hdhi]
      rcases hs v hv with hle | hle
      · rw [hbelow v hle]
        linarith
      · rw [habove v hle]
        linarith
    · rw [hdhi] at htie
      rcases hs v hv with hle | hle
      · rw [hbelow v hle] at htie
        linarith
      · exact hle
  · refine ⟨hlo, fun v hv => ?_, fun v hv htie => ?_⟩
    · rw [hdlo]
      rcases hs v hv with hle | hle
      · rw [hbelow v hle]
        linarith
      · rw [habove v hle]
        linarith
    · rw [hdlo] at htie
      rcases hs v hv with hle | hle
      · rw [hbelow v hle] at htie
        linarith
      · exact (hl.trans hh).trans hle

end IsNearest

end K8sLearn

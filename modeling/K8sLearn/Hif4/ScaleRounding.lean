import K8sLearn.Hif4.Baseline
import K8sLearn.Lib.Nearest

/-! # Rounding to a scale

The looked-up entry of the scale table and the one before it are the neighbours of the clamped
value, at both ends of the table as well, so that `quantize_to_e6m2` returns the nearest scale.
-/

namespace K8sLearn.Hif4

open Rounding

def scales : Set ℚ := {s | s ∈ generateE6m2Table}

theorem mem_scales_iff {s : ℚ} : s ∈ scales ↔ ∃ i < 255, e6m2 i = s := mem_generateE6m2Table

theorem isNearest_quantizeToE6m2 {x : ℚ} (hx : 0 < x) :
    IsNearest scales (clamp (2 ^ (-48 : ℤ)) 49152 x) (quantizeToE6m2 x) := by
  obtain ⟨hlo, hhi⟩ := clamp_mem (show (2 ^ (-48 : ℤ) : ℚ) ≤ 49152 by norm_num) x
  unfold quantizeToE6m2
  rw [if_pos hx]
  dsimp only
  generalize clamp (2 ^ (-48 : ℤ)) 49152 x = y at hlo hhi
  rw [← e6m2_zero] at hlo
  rw [← e6m2_last] at hhi
  have hidx : searchsorted generateE6m2Table y ≤ 254 := searchsorted_le_of_le (by norm_num) hhi
  have hbelow : ∀ i < 255, e6m2 i < y ↔ i < searchsorted generateE6m2Table y :=
    fun i hi => e6m2_lt_iff_lt_searchsorted y hi
  generalize searchsorted generateE6m2Table y = idx at hidx hbelow
  have hvalHi : generateE6m2Table.getD (clamp 0 254 (idx : ℤ)).toNat 0 = e6m2 idx :=
    generateE6m2Table_getD (by rw [clamp]; omega) (by omega)
  have hvalLo : generateE6m2Table.getD (clamp 0 254 ((idx : ℤ) - 1)).toNat 0 = e6m2 (idx - 1) :=
    generateE6m2Table_getD (by rw [clamp]; omega) (by omega)
  rw [hvalHi, hvalLo]
  have hupper : y ≤ e6m2 idx := not_lt.mp fun hlt => lt_irrefl idx ((hbelow idx (by omega)).mp hlt)
  have hlower : e6m2 (idx - 1) ≤ y := by
    -- at the lower end both neighbours are the first entry
    rcases Nat.eq_zero_or_pos idx with rfl | hpos
    · exact hlo
    · exact ((hbelow (idx - 1) (by omega)).mpr (by omega)).le
  refine IsNearest.of_neighbours (mem_scales_iff.mpr ⟨idx - 1, by omega, rfl⟩)
    (mem_scales_iff.mpr ⟨idx, by omega, rfl⟩) ?_ hlower hupper
  intro v hv
  obtain ⟨i, -, rfl⟩ := mem_scales_iff.mp hv
  rcases Nat.lt_or_ge i idx with hi | hi
  · exact Or.inl (e6m2_strictMono.monotone (by omega))
  · exact Or.inr (e6m2_strictMono.monotone hi)

theorem clamp_scale {s : ℚ} (hs : s ∈ scales) : clamp (2 ^ (-48 : ℤ)) 49152 s = s := by
  obtain ⟨i, hi, rfl⟩ := mem_scales_iff.mp hs
  refine clamp_eq_self ?_ ?_
  · rw [← e6m2_zero]
    exact e6m2_strictMono.monotone (Nat.zero_le i)
  · rw [← e6m2_last]
    exact e6m2_strictMono.monotone (by omega)

theorem clamp_mono {lo hi x y : ℚ} (h : x ≤ y) : clamp lo hi x ≤ clamp lo hi y :=
  min_le_min_right hi (max_le_max_right lo h)

/-- `quantize_to_e6m2` rounds to the nearest scale, is monotone, and keeps the scales. -/
theorem quantizeToE6m2_spec :
    (∀ x : ℚ, 0 < x →
      quantizeToE6m2 x ∈ generateE6m2Table ∧
      ∀ v ∈ generateE6m2Table,
        |clamp (2 ^ (-48 : ℤ)) 49152 x - quantizeToE6m2 x| ≤ |clamp (2 ^ (-48 : ℤ)) 49152 x - v| ∧
        (|clamp (2 ^ (-48 : ℤ)) 49152 x - v| = |clamp (2 ^ (-48 : ℤ)) 49152 x - quantizeToE6m2 x| →
          quantizeToE6m2 x ≤ v)) ∧
    (∀ x y : ℚ, 0 < x → x ≤ y → quantizeToE6m2 x ≤ quantizeToE6m2 y) ∧
    ∀ v ∈ generateE6m2Table, quantizeToE6m2 v = v := by
  refine ⟨fun x hx => ?_, fun x y hx hxy => ?_, fun v hv => ?_⟩
  · have h := isNearest_quantizeToE6m2 hx
    exact ⟨h.mem, fun v hv => ⟨h.dist_le v hv, h.le_of_tie v hv⟩⟩
  · exact (isNearest_quantizeToE6m2 hx).mono (isNearest_quantizeToE6m2 (hx.trans_le hxy))
      (clamp_mono hxy)
  · have hpos : 0 < v := by
      obtain ⟨i, -, rfl⟩ := mem_scales_iff.mp hv
      exact e6m2_pos i
    have h := isNearest_quantizeToE6m2 hpos
    rw [clamp_scale hv] at h
    exact h.eq_self hv

theorem quantizeToE6m2_spec_one :
    quantizeToE6m2 (9 / 8) ∈ generateE6m2Table ∧ quantizeToE6m2 1 = 1 :=
  ⟨(quantizeToE6m2_spec.1 (9 / 8) (by norm_num)).1,
    quantizeToE6m2_spec.2.2 1 (mem_generateE6m2Table.mpr ⟨192, by norm_num, by norm_num [e6m2]⟩)⟩

-- halfway between two scales, and beyond both ends of the table
example : quantizeToE6m2 (9 / 8) = 1 ∧ quantizeToE6m2 50000 = 49152 ∧
    quantizeToE6m2 (1 / 2 ^ 50) = 1 / 2 ^ 48 := by
  decide +kernel

end K8sLearn.Hif4

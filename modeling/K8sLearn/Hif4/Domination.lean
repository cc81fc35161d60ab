import K8sLearn.Hif4.Search

/-! # Scales outside the window

The scale table doubles every four entries, so an encoding at a scale far from the
looked-up position can be compared with one at half or at twice its scale. Halving
never hurts while seven times the halved scale reaches the largest element, whatever
the weights are; doubling pays, without weights, while the largest element is out of
reach of the doubled scale.
-/

namespace K8sLearn.Hif4

open Rounding

variable {w : Block ℚ} {imp : Option (Block ℚ)}

section Halving

/-- A grid point of total scale `8u` is no closer to a small number than one of `4u`. -/
theorem quantStep_halve {u x : ℚ} (hu : 0 < u) (hx : |x| ≤ 7 * u) {m : ℤ} (hl : -7 ≤ m)
    (hm : m ≤ 7) : |quantStep (u * 4) x * (u * 4) - x| ≤ |(m : ℚ) / 4 * (2 * u * 4) - x| := by
  have h4 : 0 < u * 4 := by linarith
  obtain ⟨hx₁, hx₂⟩ := abs_le.mp hx
  rcases lt_or_ge (2 * m) (-7) with hlow | hlow
  · apply (quantStep_nearest h4 x (m := -7) le_rfl (by norm_num)).trans
    have hm' : (m : ℚ) ≤ -4 := by exact_mod_cast (by omega : m ≤ -4)
    have hmu : (m : ℚ) * u ≤ -4 * u := mul_le_mul_of_nonneg_right hm' hu.le
    rw [abs_sub_comm, abs_of_nonneg (by push_cast; linarith), abs_sub_comm]
    apply le_trans ?_ (le_abs_self _)
    push_cast
    linarith
  rcases lt_or_ge 7 (2 * m) with hhigh | hhigh
  · apply (quantStep_nearest h4 x (m := 7) (by norm_num) le_rfl).trans
    have hm' : (4 : ℚ) ≤ m := by exact_mod_cast (by omega : 4 ≤ m)
    have hmu : 4 * u ≤ (m : ℚ) * u := mul_le_mul_of_nonneg_right hm' hu.le
    rw [abs_of_nonneg (by push_cast; linarith)]
    apply le_trans ?_ (le_abs_self _)
    push_cast
    linarith
  · refine (quantStep_nearest h4 x hlow hhigh).trans (le_of_eq ?_)
    congr 1
    push_cast
    ring

/-- While seven times the scale reaches the largest element, twice the scale is no better. -/
theorem encodeAt_le_of_double {u : ℚ} (hu : 0 < u) (hp : ∀ i j k, 0 ≤ weights imp i j k)
    (hmax : amax w ≤ 7 * u) {e : Encoding} (he : e.Legal) (hes : e.scaleFactor = 2 * u) :
    sqDist (weights imp) (encodeAt w u imp).value w ≤ sqDist (weights imp) e.value w := by
  refine (encodeAt_le_dqAt (fun _ => true)
    (fun i j => decide (e.scaleLv2 i = 2) || decide (e.scaleLv3 i j = 2))).trans
    (sqDist_le hp fun i j k => ?_)
  obtain ⟨m, hl, hm, hv⟩ := he.value_eq i j k
  have hx : |w i j k| ≤ 7 * u := (abs_le_amax w i j k).trans hmax
  rw [hv, hes]
  -- the three smaller total scales are the same on both sides
  have hsame : ∀ f : ℚ, 0 < f → |quantStep (u * f) (w i j k) * (u * f) - w i j k| ≤
      |(m : ℚ) / 4 * (u * f) - w i j k| := by
    intro f hf
    exact quantStep_nearest (mul_pos hu hf) _ hl hm
  cases decide (e.scaleLv2 i = 2) <;> cases decide (e.scaleLv3 i j = 2)
  · have h := hsame 2 (by norm_num)
    simpa [dqAt, factor, mul_comm u] using h
  · have h := hsame 4 (by norm_num)
    norm_num [dqAt, factor] at h ⊢
    convert h using 3
    ring
  · have h := hsame 4 (by norm_num)
    norm_num [dqAt, factor] at h ⊢
    convert h using 3
    ring
  · have h := quantStep_halve hu hx hl hm
    norm_num [dqAt, factor] at h ⊢
    exact h

end Halving

section Doubling

/-- Rounding at total scale `d` loses at most the half step against any point it can reach. -/
theorem sq_quantStep_le {d v : ℚ} (x : ℚ) (hd : 0 < d) (hv : |v| ≤ 7 / 4 * d) :
    (quantStep d x * d - x) ^ 2 ≤ (v - x) ^ 2 + (d / 8) ^ 2 := by
  obtain ⟨hv₁, hv₂⟩ := abs_le.mp hv
  rcases lt_or_ge (7 / 4 * d) x with hx | hx
  · have h := quantStep_nearest hd x (m := 7) (by norm_num) le_rfl
    have h' : |((7 : ℤ) : ℚ) / 4 * d - x| ≤ |v - x| := by
      rw [abs_sub_comm, abs_sub_comm v, abs_of_nonneg (by push_cast; linarith)]
      apply le_trans ?_ (le_abs_self _)
      push_cast
      linarith
    linarith [sq_le_sq.mpr (h.trans h'), sq_nonneg (d / 8)]
  rcases lt_or_ge x (-(7 / 4 * d)) with hx' | hx'
  · have h := quantStep_nearest hd x (m := -7) le_rfl (by norm_num)
    have h' : |((-7 : ℤ) : ℚ) / 4 * d - x| ≤ |v - x| := by
      rw [abs_of_nonneg (by push_cast; linarith)]
      apply le_trans ?_ (le_abs_self _)
      push_cast
      linarith
    linarith [sq_le_sq.mpr (h.trans h'), sq_nonneg (d / 8)]
  · -- the rounding of a number in range needs no clamping
    have hr := abs_le.mp (abs_sub_roundHalfEven_le (x / d * 4))
    have hxd₁ : x / d ≤ 7 / 4 := (div_le_iff₀ hd).mpr hx
    have hxd₂ : -(7 / 4) ≤ x / d := (le_div_iff₀ hd).mpr (by linarith)
    generalize hm : roundHalfEven (x / d * 4) = m at hr
    have hm₁ : m < 8 := by exact_mod_cast (by linarith : (m : ℚ) < 8)
    have hm₂ : -8 < m := by exact_mod_cast (by linarith : (-8 : ℚ) < m)
    have h := quantStep_nearest hd x (m := m) (by omega) (by omega)
    have hx4 : x = x / d * 4 * (d / 4) := by field_simp
    have h' : |(m : ℚ) / 4 * d - x| ≤ |d / 8| := by
      rw [abs_of_pos (by linarith : 0 < d / 8), abs_le]
      constructor
      · nlinarith
      · nlinarith
    linarith [sq_le_sq.mpr (h.trans h'), sq_nonneg (v - x)]

theorem Encoding.Legal.abs_value_le {e : Encoding} (h : e.Legal) (hs : 0 < e.scaleFactor)
    (i : Fin 8) (j : Fin 2) (k : Fin 4) : |e.value i j k| ≤ 7 * e.scaleFactor := by
  obtain ⟨m, hl, hu, hv⟩ := h.value_eq i j k
  have hf : factor (decide (e.scaleLv2 i = 2)) (decide (e.scaleLv3 i j = 2)) ≤ 4 := by
    cases decide (e.scaleLv2 i = 2) <;> cases decide (e.scaleLv3 i j = 2) <;> norm_num [factor]
  have hf0 := factor_pos (decide (e.scaleLv2 i = 2)) (decide (e.scaleLv3 i j = 2))
  have hm : |(m : ℚ)| ≤ 7 := by
    have hl' : (-7 : ℚ) ≤ m := by exact_mod_cast hl
    have hu' : (m : ℚ) ≤ 7 := by exact_mod_cast hu
    exact abs_le.mpr ⟨hl', hu'⟩
  rw [hv, abs_mul, abs_div, abs_of_pos (mul_pos hs hf0), abs_of_pos (by norm_num : (0 : ℚ) < 4)]
  calc |(m : ℚ)| / 4 * (e.scaleFactor * _)
      ≤ 7 / 4 * (e.scaleFactor * 4) := by gcongr
    _ = 7 * e.scaleFactor := by ring

/-- The error that the doubled scale saves on an element it cannot reach either. -/
theorem sq_quantStep_save {s v x : ℚ} (hs : 0 < s) (hv : |v| ≤ 7 * s) (hx : 14 * s ≤ |x|) :
    (quantStep (s * 8) x * (s * 8) - x) ^ 2 ≤ (v - x) ^ 2 - 49 * s ^ 2 := by
  have h8 : 0 < s * 8 := by linarith
  obtain ⟨hv₁, hv₂⟩ := abs_le.mp hv
  rcases le_total 0 x with h0 | h0
  · rw [abs_of_nonneg h0] at hx
    have h := sq_le_sq.mpr (quantStep_nearest h8 x (m := 7) (by norm_num) le_rfl)
    push_cast at h
    nlinarith
  · rw [abs_of_nonpos h0] at hx
    have h := sq_le_sq.mpr (quantStep_nearest h8 x (m := -7) le_rfl (by norm_num))
    push_cast at h
    nlinarith

theorem sum_loss (s : ℚ) (i₀ : Fin 8) (j₀ : Fin 2) (k₀ : Fin 4) :
    (∑ i : Fin 8, ∑ j : Fin 2, ∑ k : Fin 4, ((if i = i₀ then s ^ 2 else s ^ 2 / 4) -
      if i = i₀ ∧ j = j₀ ∧ k = k₀ then 50 * s ^ 2 else 0)) = -28 * s ^ 2 := by
  have hgain : (∑ i : Fin 8, ∑ j : Fin 2, ∑ k : Fin 4,
      if i = i₀ ∧ j = j₀ ∧ k = k₀ then 50 * s ^ 2 else 0) = 50 * s ^ 2 := by
    simp [ite_and]
  have hsplit : (∑ i : Fin 8, if i = i₀ then s ^ 2 else s ^ 2 / 4) = 11 / 4 * s ^ 2 := by
    have h : ∀ i : Fin 8, (if i = i₀ then s ^ 2 else s ^ 2 / 4) =
        s ^ 2 / 4 + if i = i₀ then 3 / 4 * s ^ 2 else 0 := by
      intro i
      split_ifs <;> ring
    simp only [h, Finset.sum_add_distrib, Finset.sum_ite_eq', Finset.mem_univ, if_true,
      Finset.sum_const, Finset.card_univ, Fintype.card_fin, nsmul_eq_mul]
    push_cast
    ring
  simp only [Finset.sum_sub_distrib, hgain, Finset.sum_const, Finset.card_univ, Fintype.card_fin,
    nsmul_eq_mul, ← Finset.mul_sum, hsplit]
  push_cast
  ring

/-- Without weights, doubling the scale pays while the largest element stays out of reach: its
own error falls by more than rounding at the coarser grids can cost all the others. -/
theorem encodeAt_double_le {s : ℚ} (hs : 0 < s) (hmax : 14 * s ≤ amax w) {e : Encoding}
    (he : e.Legal) (hes : e.scaleFactor = s) :
    sqDist (weights none) (encodeAt w (2 * s) none).value w ≤ sqDist (weights none) e.value w := by
  obtain ⟨i₀, j₀, k₀, h₀⟩ := exists_abs_eq_amax w
  have hval : ∀ i j k, |e.value i j k| ≤ 7 * s := fun i j k =>
    hes ▸ he.abs_value_le (hes ▸ hs) i j k
  -- the largest element's group goes to total scale `8s`, the others to `4s`
  apply (encodeAt_le_dqAt (fun i => decide (i = i₀)) fun _ _ => true).trans
  have hpoint : ∀ i j k,
      (dqAt w (2 * s * factor (decide (i = i₀)) true) i j k - w i j k) ^ 2 ≤
        (e.value i j k - w i j k) ^ 2 + ((if i = i₀ then s ^ 2 else s ^ 2 / 4) -
          if i = i₀ ∧ j = j₀ ∧ k = k₀ then 50 * s ^ 2 else 0) := by
    intro i j k
    by_cases hi : i = i₀
    · have hd : 2 * s * factor (decide (i = i₀)) true = s * 8 := by simp [hi, factor]; ring
      rw [hd, if_pos hi]
      split_ifs with ht
      · obtain ⟨rfl, rfl, rfl⟩ := ht
        have h := sq_quantStep_save hs (hval i j k) (h₀ ▸ hmax)
        rw [dqAt]
        linarith
      · have h := sq_quantStep_le (w i j k) (by linarith : 0 < s * 8)
          ((hval i j k).trans (by linarith))
        rw [dqAt]
        linarith
    · have hd : 2 * s * factor (decide (i = i₀)) true = s * 4 := by simp [hi, factor]; ring
      have h := sq_quantStep_le (w i j k) (by linarith : 0 < s * 4)
        ((hval i j k).trans (by linarith))
      rw [hd, if_neg hi, if_neg (fun ht => hi ht.1), dqAt]
      linarith
  calc sqDist (weights none)
        (fun i j k => dqAt w (2 * s * factor (decide (i = i₀)) true) i j k) w
      ≤ ∑ i, ∑ j, ∑ k, ((e.value i j k - w i j k) ^ 2 +
          ((if i = i₀ then s ^ 2 else s ^ 2 / 4) -
            if i = i₀ ∧ j = j₀ ∧ k = k₀ then 50 * s ^ 2 else 0)) := by
        refine Finset.sum_le_sum fun i _ => Finset.sum_le_sum fun j _ =>
          Finset.sum_le_sum fun k _ => ?_
        rw [weights_none, one_mul]
        exact hpoint i j k
    _ = sqDist (weights none) e.value w + -28 * s ^ 2 := by
        simp only [Finset.sum_add_distrib, sum_loss, sqDist, weights_none, one_mul]
    _ ≤ sqDist (weights none) e.value w := by linarith [sq_nonneg s]

end Doubling

section Window

theorem exists_legal_above (hp : ∀ i j k, 0 ≤ weights imp i j k) {i : ℕ} (hi : i < 255)
    (hpos : position w ≤ i) {e : Encoding} (he : e.Legal) (hes : e.scaleFactor = e6m2 i) :
    ∃ i' e', i' < 255 ∧ position w ≤ i' ∧ i' ≤ position w + 3 ∧ Encoding.Legal e' ∧
      e'.scaleFactor = e6m2 i' ∧
      sqDist (weights imp) e'.value w ≤ sqDist (weights imp) e.value w := by
  induction i using Nat.strong_induction_on generalizing e with
  | _ i ih =>
    by_cases hnear : i ≤ position w + 3
    · exact ⟨i, e, hi, hpos, hnear, he, hes, le_rfl⟩
    · obtain ⟨t, rfl⟩ : ∃ t, i = t + 4 := ⟨i - 4, by omega⟩
      have ht : t < 255 := by omega
      have hmax := amax_le_of_position_le (w := w) ht (by omega)
      have hle := encodeAt_le_of_double (e6m2_pos t) hp hmax he (by rw [hes, e6m2_add_four])
      obtain ⟨i', e', h₁, h₂, h₃, h₄, h₅, h₆⟩ :=
        ih t (by omega) ht (by omega) (@encodeAt_legal w _ imp (e6m2_mem ht)) rfl
      exact ⟨i', e', h₁, h₂, h₃, h₄, h₅, h₆.trans hle⟩

/-- Without weights, from a scale below the position doubling reaches the four entries before
it. -/
theorem exists_legal_below {i : ℕ} (hi : i < 255) (hpos : i < position w) {e : Encoding}
    (he : e.Legal) (hes : e.scaleFactor = e6m2 i) :
    ∃ i' e', i' < 255 ∧ i' < position w ∧ position w ≤ i' + 4 ∧ Encoding.Legal e' ∧
      e'.scaleFactor = e6m2 i' ∧
      sqDist (weights none) e'.value w ≤ sqDist (weights none) e.value w := by
  induction hd : position w - i using Nat.strong_induction_on generalizing i e with
  | _ d ih =>
    by_cases hnear : position w ≤ i + 4
    · exact ⟨i, e, hi, hpos, hnear, he, hes, le_rfl⟩
    · have hle255 : position w ≤ 255 := searchsorted_le _
      have hmax := lt_amax_of_lt_position (w := w) (i := i + 4) (by omega) (by omega)
      rw [e6m2_add_four] at hmax
      have hle := encodeAt_double_le (e6m2_pos i) (by linarith) he hes
      rw [← e6m2_add_four] at hle
      obtain ⟨i', e', h₁, h₂, h₃, h₄, h₅, h₆⟩ :=
        ih (position w - (i + 4)) (by omega) (by omega) (by omega)
          (@encodeAt_legal w (e6m2 (i + 4)) none (e6m2_mem (by omega))) rfl rfl
      exact ⟨i', e', h₁, h₂, h₃, h₄, h₅, h₆.trans hle⟩

end Window

end K8sLearn.Hif4

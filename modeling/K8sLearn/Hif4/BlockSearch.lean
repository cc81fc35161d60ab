import Mathlib.Data.Sign.Basic
import Mathlib.Tactic.FieldSimp
import K8sLearn.Hif4.Format

/-! # Micro-exponents at a given scale

`_quantize_block_given_scale` quantizes the block at one, two and four times the
scale and picks the level-2 and level-3 factors by comparing the group errors.
Rounding is nearest on each grid, and the two nested comparisons take the joint
minimum, so no legal encoding at the same scale reconstructs the block better.
-/

namespace K8sLearn.Hif4

open Rounding

/-- `(x / d * 4).round().clamp(-7, 7) / 4`. -/
def quantStep (d x : ℚ) : ℚ := (clamp (-7) 7 (roundHalfEven (x / d * 4)) : ℤ) / 4

theorem quantStep_eq_div_four (d x : ℚ) :
    ∃ m : ℤ, -7 ≤ m ∧ m ≤ 7 ∧ quantStep d x = m / 4 :=
  ⟨_, (clamp_mem (by norm_num) _).1, (clamp_mem (by norm_num) _).2, rfl⟩

theorem quantStep_nearest {d : ℚ} (hd : 0 < d) (x : ℚ) {m : ℤ} (hl : -7 ≤ m) (hu : m ≤ 7) :
    |quantStep d x * d - x| ≤ |(m : ℚ) / 4 * d - x| := by
  have hscale : ∀ c : ℚ, c / 4 * d - x = (d / 4) * (c - x / d * 4) := by
    intro c; field_simp
  have hn := clamp_roundHalfEven_nearest (x / d * 4) hl hu
  rw [quantStep, hscale, hscale, abs_mul, abs_mul]
  refine mul_le_mul_of_nonneg_left ?_ (abs_nonneg _)
  rwa [abs_sub_comm, abs_sub_comm (m : ℚ)]

section GivenScale

variable (w : Block ℚ) (sf : ℚ) (imp : Option (Block ℚ))

/-- `_mse` over the last axis. -/
def mseGroup (dq : Block ℚ) (i : Fin 8) (j : Fin 2) : ℚ :=
  match imp with
  | some p => ∑ k, p i j k * (dq i j k - w i j k) ^ 2
  | none => (∑ k, (dq i j k - w i j k) ^ 2) / 4

/-- `_mse` over the last three axes. -/
def mseBlock (dq : Block ℚ) : ℚ :=
  match imp with
  | some p => ∑ i, ∑ j, ∑ k, p i j k * (dq i j k - w i j k) ^ 2
  | none => (∑ i, ∑ j, ∑ k, (dq i j k - w i j k) ^ 2) / 64

/-- The reconstruction at total scale `d`. -/
def dqAt (d : ℚ) : Block ℚ := fun i j k => quantStep d (w i j k) * d

/-- The level-2 choice: compare `F(a=1)` with `F(a=0)`. -/
def use2Lv2 (i : Fin 8) : Bool :=
  let mse00 := mseGroup w imp (dqAt w sf) i
  let mseMid := mseGroup w imp (dqAt w (sf * 2)) i
  let mse11 := mseGroup w imp (dqAt w (sf * 4)) i
  let f0 := ∑ j, min (mse00 j) (mseMid j)
  let f1 := ∑ j, min (mseMid j) (mse11 j)
  decide (f1 < f0)

/-- The level-3 choice under the chosen level-2 factor. -/
def use2Lv3 (i : Fin 8) (j : Fin 2) : Bool :=
  let mse00 := mseGroup w imp (dqAt w sf) i j
  let mseMid := mseGroup w imp (dqAt w (sf * 2)) i j
  let mse11 := mseGroup w imp (dqAt w (sf * 4)) i j
  if use2Lv2 w sf imp i then decide (mse11 < mseMid) else decide (mseMid < mse00)

/-- Select among `q00`, `q_mid` and `q11` by the two choices. -/
def qFinal : Block ℚ := fun i j k =>
  let q00 := quantStep sf (w i j k)
  let qMid := quantStep (sf * 2) (w i j k)
  let q11 := quantStep (sf * 4) (w i j k)
  if use2Lv2 w sf imp i then (if use2Lv3 w sf imp i j then q11 else qMid)
  else (if use2Lv3 w sf imp i j then qMid else q00)

/-- Select among `dq00`, `dq_mid` and `dq11` by the two choices. -/
def dqFinal : Block ℚ := fun i j k =>
  let dq00 := dqAt w sf i j k
  let dqMid := dqAt w (sf * 2) i j k
  let dq11 := dqAt w (sf * 4) i j k
  if use2Lv2 w sf imp i then (if use2Lv3 w sf imp i j then dq11 else dqMid)
  else (if use2Lv3 w sf imp i j then dqMid else dq00)

/-- `_quantize_block_given_scale`: the micro-exponents, signs and mantissas, and the error. -/
def quantizeBlockGivenScale : Micro × ℚ :=
  let blockMse := match imp with
    | some p => mseBlock w imp (dqFinal w sf imp) / max (∑ i, ∑ j, ∑ k, p i j k) (1 / 10 ^ 12)
    | none => mseBlock w imp (dqFinal w sf imp)
  ({ scaleLv2 := fun i => if use2Lv2 w sf imp i then 2 else 1
     scaleLv3 := fun i j => if use2Lv3 w sf imp i j then 2 else 1
     sign := fun i j k => SignType.sign (qFinal w sf imp i j k)
     mant := fun i j k => |qFinal w sf imp i j k| },
   blockMse)

/-- The encoding of the block at the scale, as the five tensors hold it. -/
def encodeAt : Encoding :=
  { toMicro := (quantizeBlockGivenScale w sf imp).1, scaleFactor := sf }

def mseAt : ℚ := (quantizeBlockGivenScale w sf imp).2

end GivenScale

variable {w : Block ℚ} {sf : ℚ} {imp : Option (Block ℚ)}

/-- The factor on the scale of one group under the chosen micro-exponents. -/
def factor (a b : Bool) : ℚ := (if b then 2 else 1) * (if a then 2 else 1)

theorem factor_pos (a b : Bool) : 0 < factor a b := by cases a <;> cases b <;> norm_num [factor]

/-- The encoded value is the grid value nearest to the element, at the group's total scale. -/
theorem encodeAt_value (i : Fin 8) (j : Fin 2) (k : Fin 4) :
    (encodeAt w sf imp).value i j k =
      dqAt w (sf * factor (use2Lv2 w sf imp i) (use2Lv3 w sf imp i j)) i j k := by
  simp only [Encoding.value, encodeAt, quantizeBlockGivenScale, sign_mul_abs, qFinal, dqAt, factor]
  cases use2Lv2 w sf imp i <;> cases use2Lv3 w sf imp i j <;> norm_num <;> ring

theorem dqFinal_eq : dqFinal w sf imp = (encodeAt w sf imp).value := by
  funext i j k
  rw [encodeAt_value, dqFinal]
  cases use2Lv2 w sf imp i <;> cases use2Lv3 w sf imp i j <;> norm_num [factor]

/-- The weighted squared error of one group at total scale `d`. -/
def groupLoss (w : Block ℚ) (imp : Option (Block ℚ)) (d : ℚ) (i : Fin 8) (j : Fin 2) : ℚ :=
  ∑ k, weights imp i j k * (dqAt w d i j k - w i j k) ^ 2

theorem mseGroup_dqAt (d : ℚ) (i : Fin 8) (j : Fin 2) :
    mseGroup w imp (dqAt w d) i j =
      (match imp with | some _ => 1 | none => 1 / 4) * groupLoss w imp d i j := by
  cases imp with
  | none => simp [mseGroup, groupLoss]; ring
  | some p => simp [mseGroup, groupLoss]

theorem sum_groupLoss_le (i : Fin 8) (a : Bool) (b : Fin 2 → Bool) :
    ∑ j, groupLoss w imp (sf * factor (use2Lv2 w sf imp i) (use2Lv3 w sf imp i j)) i j ≤
      ∑ j, groupLoss w imp (sf * factor a (b j)) i j := by
  obtain ⟨c, hc, hm⟩ : ∃ c : ℚ, 0 < c ∧ ∀ d j,
      mseGroup w imp (dqAt w d) i j = c * groupLoss w imp d i j := by
    cases imp with
    | none => exact ⟨1 / 4, by norm_num, fun d j => mseGroup_dqAt d i j⟩
    | some p => exact ⟨1, by norm_num, fun d j => mseGroup_dqAt d i j⟩
  -- the three losses of each subgroup, whatever the block and the weights are
  generalize hl₁ : (fun j => groupLoss w imp sf i j) = l₁
  generalize hl₂ : (fun j => groupLoss w imp (sf * 2) i j) = l₂
  generalize hl₄ : (fun j => groupLoss w imp (sf * 4) i j) = l₄
  have h₁ : ∀ j, groupLoss w imp sf i j = l₁ j := fun j => congrFun hl₁ j
  have h₂ : ∀ j, groupLoss w imp (sf * 2) i j = l₂ j := fun j => congrFun hl₂ j
  have h₄ : ∀ j, groupLoss w imp (sf * 4) i j = l₄ j := fun j => congrFun hl₄ j
  have hmin : ∀ x y : ℚ, min (c * x) (c * y) = c * min x y :=
    fun x y => (mul_min_of_nonneg x y hc.le).symm
  have hA : use2Lv2 w sf imp i =
      decide (∑ j, min (l₂ j) (l₄ j) < ∑ j, min (l₁ j) (l₂ j)) := by
    simp only [use2Lv2, hm, h₁, h₂, h₄, hmin, ← Finset.mul_sum, mul_lt_mul_iff_right₀ hc]
  have hB : ∀ j, use2Lv3 w sf imp i j =
      if use2Lv2 w sf imp i then decide (l₄ j < l₂ j) else decide (l₂ j < l₁ j) := by
    intro j
    simp only [use2Lv3, hm, h₁, h₂, h₄, mul_lt_mul_iff_right₀ hc]
  have hsel : ∀ (a b : Bool) (j : Fin 2), groupLoss w imp (sf * factor a b) i j =
      if a then (if b then l₄ j else l₂ j) else (if b then l₂ j else l₁ j) := by
    intro a b j
    cases a <;> cases b <;> norm_num [factor, ← h₁, ← h₂, ← h₄]
  have hlow : ∀ j, min (l₁ j) (l₂ j) ≤ if b j then l₂ j else l₁ j := by
    intro j; split_ifs <;> simp
  have hhigh : ∀ j, min (l₂ j) (l₄ j) ≤ if b j then l₄ j else l₂ j := by
    intro j; split_ifs <;> simp
  have hpick : ∀ x y : ℚ, (if x < y then x else y) = min x y := by
    intro x y
    split_ifs with h
    · exact (min_eq_left h.le).symm
    · exact (min_eq_right (not_lt.mp h)).symm
  simp only [hsel, hB]
  by_cases h : ∑ j, min (l₂ j) (l₄ j) < ∑ j, min (l₁ j) (l₂ j)
  · have ha : use2Lv2 w sf imp i = true := by rw [hA]; exact decide_eq_true h
    simp only [ha, if_true, decide_eq_true_eq, hpick, min_comm (l₄ _)]
    cases a with
    | true => exact Finset.sum_le_sum fun j _ => hhigh j
    | false => exact h.le.trans (Finset.sum_le_sum fun j _ => hlow j)
  · have ha : use2Lv2 w sf imp i = false := by rw [hA]; exact decide_eq_false h
    simp only [ha, Bool.false_eq_true, if_false, decide_eq_true_eq, hpick, min_comm (l₂ _) (l₁ _)]
    cases a with
    | true => exact (not_lt.mp h).trans (Finset.sum_le_sum fun j _ => hhigh j)
    | false => exact Finset.sum_le_sum fun j _ => hlow j

theorem Micro.Legal.value_eq {m : Micro} (h : m.Legal) (sf : ℚ) (i : Fin 8) (j : Fin 2)
    (k : Fin 4) :
    ∃ q : ℤ, -7 ≤ q ∧ q ≤ 7 ∧ Encoding.value ⟨m, sf⟩ i j k =
      (q : ℚ) / 4 * (sf * factor (decide (m.scaleLv2 i = 2)) (decide (m.scaleLv3 i j = 2))) := by
  obtain ⟨q, hq, hmant⟩ := h.mant_mem i j k
  have hf : m.scaleLv3 i j * m.scaleLv2 i =
      factor (decide (m.scaleLv2 i = 2)) (decide (m.scaleLv3 i j = 2)) := by
    rcases h.scaleLv2_mem i with h₂ | h₂ <;> rcases h.scaleLv3_mem i j with h₃ | h₃ <;>
      norm_num [factor, h₂, h₃]
  have hv : Encoding.value ⟨m, sf⟩ i j k = m.sign i j k * m.mant i j k *
      (sf * (m.scaleLv3 i j * m.scaleLv2 i)) := by
    rw [Encoding.value]; ring
  rw [hv, hf, hmant]
  rcases h.sign_mem i j k with hs | hs | hs
  · exact ⟨-q, by omega, by omega, by rw [hs]; push_cast; ring⟩
  · exact ⟨0, by omega, by omega, by rw [hs]; push_cast; ring⟩
  · exact ⟨q, by omega, by omega, by rw [hs]; push_cast; ring⟩

theorem Encoding.Legal.value_eq {e : Encoding} (h : e.Legal) (i : Fin 8) (j : Fin 2) (k : Fin 4) :
    ∃ m : ℤ, -7 ≤ m ∧ m ≤ 7 ∧ e.value i j k =
      (m : ℚ) / 4 * (e.scaleFactor *
        factor (decide (e.scaleLv2 i = 2)) (decide (e.scaleLv3 i j = 2))) :=
  (Encoding.legal_iff.mp h).2.value_eq e.scaleFactor i j k

/-- Whatever factors are chosen, rounding every element at its total scale does no better. -/
theorem encodeAt_le_dqAt (a : Fin 8 → Bool) (b : Fin 8 → Fin 2 → Bool) :
    sqDist (weights imp) (encodeAt w sf imp).value w ≤
      sqDist (weights imp) (fun i j k => dqAt w (sf * factor (a i) (b i j)) i j k) w := by
  apply Finset.sum_le_sum
  intro i _
  simp only [encodeAt_value]
  exact sum_groupLoss_le i (a i) (b i)

/-- No legal choice of factors, signs and mantissas at the scale is closer to the block. -/
theorem encodeAt_optimal (hsf : 0 < sf) (hp : ∀ i j k, 0 ≤ weights imp i j k) {m : Micro}
    (hm : m.Legal) :
    sqDist (weights imp) (encodeAt w sf imp).value w ≤
      sqDist (weights imp) (Encoding.value ⟨m, sf⟩) w := by
  refine (encodeAt_le_dqAt (fun i => decide (m.scaleLv2 i = 2))
    (fun i j => decide (m.scaleLv3 i j = 2))).trans (sqDist_le hp fun i j k => ?_)
  obtain ⟨q, hl, hu, hv⟩ := hm.value_eq sf i j k
  rw [hv]
  exact quantStep_nearest (mul_pos hsf (factor_pos _ _)) _ hl hu

theorem quantizeBlockGivenScale_legal (w : Block ℚ) (sf : ℚ) (imp : Option (Block ℚ)) :
    (quantizeBlockGivenScale w sf imp).1.Legal where
  scaleLv2_mem i := by
    change (if _ then (2 : ℚ) else 1) = 1 ∨ (if _ then (2 : ℚ) else 1) = 2
    split_ifs <;> simp
  scaleLv3_mem i j := by
    change (if _ then (2 : ℚ) else 1) = 1 ∨ (if _ then (2 : ℚ) else 1) = 2
    split_ifs <;> simp
  sign_mem i j k := by
    change ((SignType.sign (qFinal w sf imp i j k) : SignType) : ℚ) = -1 ∨
      ((SignType.sign (qFinal w sf imp i j k) : SignType) : ℚ) = 0 ∨
      ((SignType.sign (qFinal w sf imp i j k) : SignType) : ℚ) = 1
    cases SignType.sign (qFinal w sf imp i j k) <;> simp
  mant_mem i j k := by
    have habs : ∀ d, ∃ m : ℕ, m ≤ 7 ∧ |quantStep d (w i j k)| = m / 4 := by
      intro d
      obtain ⟨m, hl, hu, hq⟩ := quantStep_eq_div_four d (w i j k)
      refine ⟨m.natAbs, by omega, ?_⟩
      rw [hq, abs_div, Nat.cast_natAbs, Int.cast_abs]
      norm_num
    simp only [quantizeBlockGivenScale, qFinal]
    split_ifs <;> exact habs _

theorem encodeAt_legal (hsf : sf ∈ generateE6m2Table) : (encodeAt w sf imp).Legal :=
  Encoding.legal_iff.mpr ⟨hsf, quantizeBlockGivenScale_legal w sf imp⟩

/-- The reported error is the weighted squared error over the total weight, clamped from below;
without an importance the total weight is 64. -/
theorem mseAt_eq (w : Block ℚ) (sf : ℚ) (imp : Option (Block ℚ)) :
    mseAt w sf imp = sqDist (weights imp) (encodeAt w sf imp).value w /
      max (∑ i, ∑ j, ∑ k, weights imp i j k) (1 / 10 ^ 12) := by
  cases imp with
  | none =>
    simp only [mseAt, quantizeBlockGivenScale, dqFinal_eq, mseBlock, sqDist, weights_none, one_mul]
    congr 1
    norm_num [Fin.sum_univ_succ]
  | some p => simp only [mseAt, quantizeBlockGivenScale, dqFinal_eq, mseBlock, sqDist, weights_some]

theorem exists_mseAt_eq (w : Block ℚ) (imp : Option (Block ℚ)) :
    ∃ c : ℚ, 0 < c ∧ ∀ sf,
      mseAt w sf imp = c * sqDist (weights imp) (encodeAt w sf imp).value w := by
  refine ⟨1 / max (∑ i, ∑ j, ∑ k, weights imp i j k) (1 / 10 ^ 12), ?_, fun sf => ?_⟩
  · exact one_div_pos.mpr (lt_of_lt_of_le (by norm_num) (le_max_right _ _))
  · rw [mseAt_eq]
    ring

/-- The returned factors, signs and mantissas are a joint minimum of the weighted squared error
over all that the format allows at the scale, and the returned error is that minimum over the
total weight. -/
theorem quantizeBlockGivenScale_optimal (w : Block ℚ) (sf : ℚ) (hsf : 0 < sf)
    (imp : Option (Block ℚ)) (himp : ∀ i j k, 0 ≤ weights imp i j k) :
    (quantizeBlockGivenScale w sf imp).1.Legal ∧
      (∀ m : Micro, m.Legal →
        sqDist (weights imp) (Encoding.value ⟨(quantizeBlockGivenScale w sf imp).1, sf⟩) w ≤
          sqDist (weights imp) (Encoding.value ⟨m, sf⟩) w) ∧
      (quantizeBlockGivenScale w sf imp).2 =
        sqDist (weights imp) (Encoding.value ⟨(quantizeBlockGivenScale w sf imp).1, sf⟩) w /
          max (∑ i, ∑ j, ∑ k, weights imp i j k) (1 / 10 ^ 12) :=
  ⟨quantizeBlockGivenScale_legal w sf imp, fun _ hm => encodeAt_optimal hsf himp hm,
    mseAt_eq w sf imp⟩

/-- Thirds at the scale one, the first element weighing most. -/
theorem quantizeBlockGivenScale_optimal_thirds :
    (quantizeBlockGivenScale (fun _ _ _ => 1 / 3) 1
      (some fun i j k => 64 - (8 * i + 4 * j + k : ℕ))).1.Legal ∧
    ∀ m : Micro, m.Legal →
      sqDist (fun i j k => 64 - (8 * i + 4 * j + k : ℕ))
          (Encoding.value ⟨(quantizeBlockGivenScale (fun _ _ _ => 1 / 3) 1
            (some fun i j k => 64 - (8 * i + 4 * j + k : ℕ))).1, 1⟩) (fun _ _ _ => 1 / 3) ≤
        sqDist (fun i j k => 64 - (8 * i + 4 * j + k : ℕ)) (Encoding.value ⟨m, 1⟩)
          (fun _ _ _ => 1 / 3) := by
  obtain ⟨hlegal, hleast, -⟩ := quantizeBlockGivenScale_optimal (fun _ _ _ => 1 / 3) 1 one_pos
    (some fun i j k => 64 - (8 * i + 4 * j + k : ℕ)) (by decide +kernel)
  exact ⟨hlegal, hleast⟩

end K8sLearn.Hif4

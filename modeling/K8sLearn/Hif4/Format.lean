import Mathlib.Algebra.BigOperators.Fin
import Mathlib.Algebra.Order.BigOperators.Group.Finset
import Mathlib.Algebra.Order.Field.Power
import Mathlib.Data.Rat.Floor
import Mathlib.Data.List.Flatten
import Mathlib.Tactic.NormNum
import Mathlib.Tactic.Positivity
import K8sLearn.Lib.Lists
import K8sLearn.Lib.Rounding
import K8sLearn.Lib.Tensor

/-! # The HiF4 block format

A block of 64 numbers is stored as one E6M2 scale, eight level-2 factors, sixteen
level-3 factors, and a sign and a 3-bit mantissa for each number. The scale table
is the geometric grid that `_generate_e6m2_table` lists; it doubles every four
entries. Arithmetic is exact.
-/

namespace K8sLearn.Hif4

/-- The trailing `(8, 2, 4)` axes of a block of 64 elements. -/
abbrev Block (α : Type*) := Fin 8 → Fin 2 → Fin 4 → α

/-- `_dequant_nvfp4`: one scale for each 16 channels of the input format. -/
def dequantNvfp4 {α : Type*} [Mul α] (quantFloat scaleFloat : Tensor α) : Option (Tensor α) :=
  let channels := quantFloat.shape.getLastD 0
  if quantFloat.shape = [] ∨ channels % 16 ≠ 0 then none
  else
    (quantFloat.reshape (quantFloat.shape.dropLast ++ [channels / 16, 16])).bind fun x =>
    (scaleFloat.reshape (scaleFloat.shape ++ [1])).bind fun scale =>
    (Tensor.zipBroadcast (· * ·) x scale).bind fun x =>
    x.reshape (x.shape.dropLast.dropLast ++ [x.shape.dropLast.getLastD 1 * x.shape.getLastD 1])

theorem dequantNvfp4_spec {α : Type*} [Mul α] (quantFloat scaleFloat : Tensor α)
    (init : List ℕ) {c : ℕ} (hq : quantFloat.shape = init ++ [16 * c])
    (hs : scaleFloat.shape = init ++ [c]) :
    ∃ v, dequantNvfp4 quantFloat scaleFloat = some v ∧ v.shape = quantFloat.shape ∧
      ∀ (i : ℕ) (d : α), i < quantFloat.data.length →
        v.data.getD i d = quantFloat.data.getD i d * scaleFloat.data.getD (i / 16) d := by
  have hguard : ¬ (quantFloat.shape = [] ∨ quantFloat.shape.getLastD 0 % 16 ≠ 0) := by simp [hq]
  have hcut : quantFloat.shape.dropLast ++ [quantFloat.shape.getLastD 0 / 16, 16] =
      init ++ [c] ++ [16] := by simp [hq]
  obtain ⟨x, hx, hxs, hxd⟩ := Tensor.exists_reshape (t := quantFloat) (s := init ++ [c] ++ [16]) (by
    rw [quantFloat.length_data, hq]
    simp [mul_comm 16 c])
  obtain ⟨y, hy, hys, hyd⟩ := Tensor.exists_reshape (t := scaleFloat) (s := init ++ [c] ++ [1]) (by
    rw [scaleFloat.length_data, hs]
    simp)
  obtain ⟨z, hz, hzs, hzd⟩ := Tensor.zipBroadcast_last (f := (· * ·)) hxs hys
  rw [hxs] at hzs
  obtain ⟨v, hv, hvs, hvd⟩ := Tensor.exists_reshape (t := z) (s := init ++ [c * 16]) (by
    rw [z.length_data, hzs]
    simp)
  refine ⟨v, ?_, by rw [hvs, hq, mul_comm], fun i d hi => ?_⟩
  · simp only [dequantNvfp4, if_neg hguard, hcut, hx, hs, hy, hz, hzs, Option.bind_some]
    simpa using hv
  · rw [hvd, hzd i d d d (hxd ▸ hi), hxd, hyd]

theorem exists_dequantNvfp4 {α : Type*} [Mul α] (quantFloat scaleFloat : Tensor α)
    (init : List ℕ) {c : ℕ} (hq : quantFloat.shape = init ++ [16 * c])
    (hs : scaleFloat.shape = init ++ [c]) :
    ∃ v, dequantNvfp4 quantFloat scaleFloat = some v ∧ v.shape = quantFloat.shape := by
  obtain ⟨v, hv, hvs, -⟩ := dequantNvfp4_spec quantFloat scaleFloat init hq hs
  exact ⟨v, hv, hvs⟩

def generateE6m2Table : List ℚ :=
  ((List.range 63).flatMap fun e : ℕ =>
    (List.range 4).map fun k : ℕ => (1 + (k : ℚ) * (1 / 4)) * 2 ^ ((e : ℤ) - 48)) ++
  (List.range 3).map fun k : ℕ => (1 + (k : ℚ) * (1 / 4)) * 2 ^ (15 : ℤ)

/-- The table entry at an index, in closed form. -/
def e6m2 (i : ℕ) : ℚ := (1 + (i % 4 : ℕ) * (1 / 4)) * 2 ^ (((i / 4 : ℕ) : ℤ) - 48)

theorem generateE6m2Table_eq : generateE6m2Table = (List.range 255).map e6m2 := by
  rw [generateE6m2Table,
    Lists.flatMap_range_range (fun e k : ℕ => (1 + (k : ℚ) * (1 / 4)) * 2 ^ ((e : ℤ) - 48)) 63 4,
    show 255 = 63 * 4 + 3 from rfl, List.range_add, List.map_append]
  congr 1

@[simp] theorem length_generateE6m2Table : generateE6m2Table.length = 255 := by
  simp [generateE6m2Table_eq]

theorem mem_generateE6m2Table {s : ℚ} : s ∈ generateE6m2Table ↔ ∃ i < 255, e6m2 i = s := by
  simp [generateE6m2Table_eq]

theorem e6m2_pos (i : ℕ) : 0 < e6m2 i := by unfold e6m2; positivity

theorem e6m2_zero : e6m2 0 = 2 ^ (-48 : ℤ) := by norm_num [e6m2]

/-- The grid is self-similar: four entries further the scale has doubled. -/
theorem e6m2_add_four (i : ℕ) : e6m2 (i + 4) = 2 * e6m2 i := by
  have hd : ((i + 4) / 4 : ℕ) = i / 4 + 1 := by omega
  have hm : (i + 4) % 4 = i % 4 := by omega
  have he : (((i / 4 + 1 : ℕ) : ℤ) - 48) = (((i / 4 : ℕ) : ℤ) - 48) + 1 := by push_cast; ring
  rw [e6m2, e6m2, hd, hm, he, zpow_add_one₀ two_ne_zero]
  ring

theorem e6m2_lt_succ (i : ℕ) : e6m2 i < e6m2 (i + 1) := by
  have hp : (0 : ℚ) < 2 ^ (((i / 4 : ℕ) : ℤ) - 48) := by positivity
  by_cases h : i % 4 = 3
  · -- the mantissa wraps around and the exponent grows by one
    have hd : (i + 1) / 4 = i / 4 + 1 := by omega
    have hm : (i + 1) % 4 = 0 := by omega
    have he : (((i / 4 + 1 : ℕ) : ℤ) - 48) = (((i / 4 : ℕ) : ℤ) - 48) + 1 := by push_cast; ring
    rw [e6m2, e6m2, hd, hm, h, he, zpow_add_one₀ two_ne_zero]
    generalize (2 : ℚ) ^ (((i / 4 : ℕ) : ℤ) - 48) = c at hp ⊢
    push_cast
    linarith
  · have hd : (i + 1) / 4 = i / 4 := by omega
    have hm : (i + 1) % 4 = i % 4 + 1 := by omega
    rw [e6m2, e6m2, hd, hm]
    generalize (2 : ℚ) ^ (((i / 4 : ℕ) : ℤ) - 48) = c at hp ⊢
    push_cast
    linarith

theorem e6m2_strictMono : StrictMono e6m2 := strictMono_nat_of_lt_succ e6m2_lt_succ

/-- The per-block tensors besides the scale. -/
structure Micro where
  scaleLv2 : Fin 8 → ℚ
  scaleLv3 : Fin 8 → Fin 2 → ℚ
  sign : Block ℚ
  mant : Block ℚ

/-- One block of the five parameter tensors. -/
structure Encoding extends Micro where
  scaleFactor : ℚ

namespace Encoding

/-- The element-wise product taken by `_hif4_dequant`. -/
def value (e : Encoding) : Block ℚ := fun i j k =>
  e.sign i j k * e.mant i j k * e.scaleLv3 i j * e.scaleLv2 i * e.scaleFactor

structure Legal (e : Encoding) : Prop where
  scaleFactor_mem : e.scaleFactor ∈ generateE6m2Table
  scaleLv2_mem : ∀ i, e.scaleLv2 i = 1 ∨ e.scaleLv2 i = 2
  scaleLv3_mem : ∀ i j, e.scaleLv3 i j = 1 ∨ e.scaleLv3 i j = 2
  sign_mem : ∀ i j k, e.sign i j k = -1 ∨ e.sign i j k = 0 ∨ e.sign i j k = 1
  mant_mem : ∀ i j k, ∃ m : ℕ, m ≤ 7 ∧ e.mant i j k = m / 4

end Encoding

/-- The factors, signs and mantissas the format allows, whatever the scale is. -/
structure Micro.Legal (m : Micro) : Prop where
  scaleLv2_mem : ∀ i, m.scaleLv2 i = 1 ∨ m.scaleLv2 i = 2
  scaleLv3_mem : ∀ i j, m.scaleLv3 i j = 1 ∨ m.scaleLv3 i j = 2
  sign_mem : ∀ i j k, m.sign i j k = -1 ∨ m.sign i j k = 0 ∨ m.sign i j k = 1
  mant_mem : ∀ i j k, ∃ n : ℕ, n ≤ 7 ∧ m.mant i j k = n / 4

theorem Encoding.legal_iff {e : Encoding} :
    e.Legal ↔ e.scaleFactor ∈ generateE6m2Table ∧ e.toMicro.Legal := by
  constructor
  · intro h
    exact ⟨h.scaleFactor_mem, h.scaleLv2_mem, h.scaleLv3_mem, h.sign_mem, h.mant_mem⟩
  · rintro ⟨hs, hm⟩
    exact ⟨hs, hm.scaleLv2_mem, hm.scaleLv3_mem, hm.sign_mem, hm.mant_mem⟩

def weights : Option (Block ℚ) → Block ℚ
  | some p => p
  | none => fun _ _ _ => 1

@[simp] theorem weights_none (i : Fin 8) (j : Fin 2) (k : Fin 4) : weights none i j k = 1 := rfl
@[simp] theorem weights_some (p : Block ℚ) : weights (some p) = p := rfl

def sqDist (p v w : Block ℚ) : ℚ := ∑ i, ∑ j, ∑ k, p i j k * (v i j k - w i j k) ^ 2

theorem sqDist_nonneg {p : Block ℚ} (hp : ∀ i j k, 0 ≤ p i j k) (v w : Block ℚ) :
    0 ≤ sqDist p v w :=
  Finset.sum_nonneg fun i _ => Finset.sum_nonneg fun j _ => Finset.sum_nonneg fun k _ =>
    mul_nonneg (hp i j k) (sq_nonneg _)

theorem sqDist_le {p v v' w : Block ℚ} (hp : ∀ i j k, 0 ≤ p i j k)
    (h : ∀ i j k, |v i j k - w i j k| ≤ |v' i j k - w i j k|) :
    sqDist p v w ≤ sqDist p v' w :=
  Finset.sum_le_sum fun i _ => Finset.sum_le_sum fun j _ => Finset.sum_le_sum fun k _ =>
    mul_le_mul_of_nonneg_left (sq_le_sq.mpr (h i j k)) (hp i j k)

theorem eq_of_sqDist_nonpos {p v w : Block ℚ} (hp : ∀ i j k, 0 < p i j k)
    (h : sqDist p v w ≤ 0) : v = w := by
  have hk : ∀ i j k, 0 ≤ p i j k * (v i j k - w i j k) ^ 2 :=
    fun i j k => mul_nonneg (hp i j k).le (sq_nonneg _)
  have hj : ∀ i j, 0 ≤ ∑ k, p i j k * (v i j k - w i j k) ^ 2 :=
    fun i j => Finset.sum_nonneg fun k _ => hk i j k
  have hi : ∀ i, 0 ≤ ∑ j, ∑ k, p i j k * (v i j k - w i j k) ^ 2 :=
    fun i => Finset.sum_nonneg fun j _ => hj i j
  have h0 : sqDist p v w = 0 := le_antisymm h (sqDist_nonneg (fun i j k => (hp i j k).le) v w)
  funext i j k
  have h₁ := (Finset.sum_eq_zero_iff_of_nonneg fun i _ => hi i).mp h0 i (Finset.mem_univ i)
  have h₂ := (Finset.sum_eq_zero_iff_of_nonneg fun j _ => hj i j).mp h₁ j (Finset.mem_univ j)
  have h₃ := (Finset.sum_eq_zero_iff_of_nonneg fun k _ => hk i j k).mp h₂ k (Finset.mem_univ k)
  rcases mul_eq_zero.mp h₃ with h | h
  · exact absurd h (hp i j k).ne'
  · exact sub_eq_zero.mp (pow_eq_zero_iff two_ne_zero |>.mp h)

end K8sLearn.Hif4

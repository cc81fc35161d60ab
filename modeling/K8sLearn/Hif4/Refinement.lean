import Mathlib.LinearAlgebra.Matrix.Trace
import K8sLearn.Hif4.Gptq
import K8sLearn.Hif4.RoundTrip

/-! # Compensation never loses

The loss that decides whether a block takes the compensated values is computed from the
values of the loop, while the returned signs and mantissas are derived from them by
dividing, rounding and clamping again. Every value of the loop lies on the grid of its
scale, so the second rounding reproduces it and the compared losses are those of the
parameters: no block loses more than before, and the scales stay.
-/

namespace K8sLearn.Hif4

open Rounding Matrix

/-- `tr(E G Eᵀ)` for the errors `E` of the rows of a block. -/
def traceLoss {rows : ℕ} (gram : ℕ → ℕ → ℚ) (E : Matrix (Fin rows) (Fin 64) ℚ) : ℚ :=
  (E * Matrix.of (fun u v : Fin 64 => gram u v) * Eᵀ).trace

/-- The quadratic form of a block Gram matrix is nowhere negative. -/
def PosSemidef (gram : ℕ → ℕ → ℚ) : Prop :=
  ∀ e : Fin 64 → ℚ, 0 ≤ ∑ u : Fin 64, ∑ v : Fin 64, gram u v * (e u * e v)

/-- Dequantized minus original in block `b`. -/
def blockError (deq w : Tensor ℚ) (rows numBlocks b : ℕ) : Matrix (Fin rows) (Fin 64) ℚ :=
  Matrix.of fun r c => deq.data.getD ((r * numBlocks + b) * 64 + c) 0 -
    w.data.getD ((r * numBlocks + b) * 64 + c) 0

section Loss

variable {rows : ℕ} {gram : ℕ → ℕ → ℚ}

theorem traceLoss_eq_sum (E : Matrix (Fin rows) (Fin 64) ℚ) :
    traceLoss gram E = ∑ r, ∑ u : Fin 64, ∑ v : Fin 64, gram u v * (E r u * E r v) := by
  unfold traceLoss Matrix.trace
  apply Finset.sum_congr rfl
  intro r _
  simp only [Matrix.diag_apply, Matrix.mul_apply, Matrix.of_apply, Matrix.transpose_apply,
    Finset.sum_mul]
  rw [Finset.sum_comm]
  apply Finset.sum_congr rfl
  intro u _
  apply Finset.sum_congr rfl
  intro v _
  ring

theorem traceLoss_nonneg (h : PosSemidef gram) (E : Matrix (Fin rows) (Fin 64) ℚ) :
    0 ≤ traceLoss gram E := by
  rw [traceLoss_eq_sum]
  exact Finset.sum_nonneg fun r _ => h (E r)

theorem gramLoss_eq_traceLoss (errors : Fin rows → List ℚ) :
    gramLoss gram ((List.finRange rows).map errors) =
      traceLoss gram (Matrix.of fun r c => (errors r).getD c 0) := by
  have hrows : ∀ u v : ℕ,
      (((List.finRange rows).map errors).map fun e => e.getD u 0 * e.getD v 0).sum =
        ∑ r, (errors r).getD u 0 * (errors r).getD v 0 := by
    intro u v
    rw [List.map_map, Fin.sum_univ_def]
    rfl
  rw [traceLoss_eq_sum, Finset.sum_comm]
  simp only [gramLoss, hrows, Finset.sum_range]
  apply Finset.sum_congr rfl
  intro u _
  rw [Finset.sum_comm]
  apply Finset.sum_congr rfl
  intro v _
  rw [Finset.mul_sum]
  rfl

end Loss

section Grid

theorem totalScale_pos {e : Encoding} (h : e.Legal) (i : Fin 8) (j : Fin 2) (k : Fin 4) :
    0 < totalScale e i j k := by
  obtain ⟨t, -, ht⟩ := mem_generateE6m2Table.mp h.scaleFactor_mem
  have hsf : 0 < e.scaleFactor := ht ▸ e6m2_pos t
  have h₂ : 0 < e.scaleLv2 i := by rcases h.scaleLv2_mem i with h | h <;> norm_num [h]
  have h₃ : 0 < e.scaleLv3 i j := by rcases h.scaleLv3_mem i j with h | h <;> norm_num [h]
  exact mul_pos (mul_pos hsf h₂) h₃

/-- `q` is a legal value at the total scale `ts`. -/
def OnGrid (ts q : ℚ) : Prop := ∃ m : ℤ, -7 ≤ m ∧ m ≤ 7 ∧ q = m / 4 * ts

theorem OnGrid.quantStep_mul {ts q : ℚ} (h : OnGrid ts q) (hts : 0 < ts) :
    quantStep ts q * ts = q := by
  obtain ⟨m, hl, hu, rfl⟩ := h
  have hdiv : (m : ℚ) / 4 * ts / ts * 4 = m := by
    field_simp
  rw [quantStep, hdiv, roundHalfEven_intCast, clamp_eq_self hl hu]

theorem gptqColumns_onGrid (damped : ℕ → ℕ → ℚ) (j : ℕ) {total cols : List ℚ}
    (h : total.length = cols.length) :
    List.Forall₂ OnGrid total (gptqColumns damped j total cols) := by
  induction total generalizing j cols with
  | nil =>
    obtain rfl := List.length_eq_zero_iff.mp h.symm
    exact .nil
  | cons ts total ih =>
    cases cols with
    | nil => simp at h
    | cons col cols =>
      obtain ⟨m, hl, hu, hm⟩ := quantStep_eq_div_four ts col
      refine .cons ⟨m, hl, hu, by rw [hm]⟩ (ih (j + 1) ?_)
      simpa using h

theorem channels_eq_flattenBlock (f : Block ℚ) : channels f = flattenBlock f := rfl

theorem flattenBlock_requantize {e : Encoding} (he : e.Legal) {q : List ℚ}
    (hq : List.Forall₂ OnGrid (channels (totalScale e)) q) :
    flattenBlock (requantize e q).value = q := by
  rw [channels_eq_flattenBlock, List.forall₂_iff_get] at hq
  have hlen : q.length = 64 := by rw [← hq.1, length_flattenBlock]
  apply List.ext_getElem (by rw [length_flattenBlock, hlen])
  intro t ht ht'
  rw [length_flattenBlock] at ht
  have hidx : 8 * (t / 8) + 4 * (t / 4 % 2) + t % 4 = t := by omega
  have hgrid := hq.2 t (by rw [length_flattenBlock]; exact ht) ht'
  simp only [List.get_eq_getElem, flattenBlock, List.getElem_ofFn] at hgrid
  have hstep := hgrid.quantStep_mul (totalScale_pos he _ _ _)
  simp only [flattenBlock, List.getElem_ofFn, Encoding.value, requantize, sign_mul_abs, hidx,
    List.getD_eq_getElem _ _ ht']
  refine Eq.trans ?_ hstep
  simp only [totalScale]
  ring

end Grid

section Blocks

variable {params : Tensor Encoding} {w : Tensor ℚ} {rows numBlocks b : ℕ}
  {gram : ℕ → ℕ → ℕ → ℚ}

theorem row_lt {r : ℕ} (hr : r < rows) (hb : b < numBlocks) :
    r * numBlocks + b < rows * numBlocks :=
  calc r * numBlocks + b < (r + 1) * numBlocks := by rw [Nat.succ_mul]; omega
    _ ≤ rows * numBlocks := Nat.mul_le_mul_right _ hr

def rowErrors (w : Tensor ℚ) (rows numBlocks b : ℕ) (q : Fin rows → List ℚ) :
    Matrix (Fin rows) (Fin 64) ℚ :=
  Matrix.of fun r c => (q r).getD c 0 - w.data.getD ((r * numBlocks + b) * 64 + c) 0

theorem gramLoss_rowErrors {q : Fin rows → List ℚ} (hq : ∀ r, (q r).length = 64)
    (g : ℕ → ℕ → ℚ) :
    gramLoss g ((List.finRange rows).map fun r =>
      (q r).zipWith (· - ·) (blockRow w numBlocks r b)) =
        traceLoss g (rowErrors w rows numBlocks b q) := by
  rw [gramLoss_eq_traceLoss]
  congr 1
  ext r c
  have hlen : ((q r).zipWith (· - ·) (blockRow w numBlocks r b)).length = 64 := by
    simp [blockRow, hq r]
  simp only [Matrix.of_apply, rowErrors]
  rw [List.getD_eq_getElem _ _ (by rw [hlen]; exact c.isLt),
    List.getD_eq_getElem (q r) _ (by rw [hq r]; exact c.isLt), List.getElem_zipWith]
  simp [blockRow]

variable (hlen : params.data.length = rows * numBlocks) (hb : b < numBlocks)

include hlen hb in
theorem filterMap_encodingAt :
    ((List.range rows).filterMap fun r => (encodingAt params numBlocks r b).map (r, ·)) =
      (List.finRange rows).map fun r : Fin rows => (r.val, params.data.get
        ⟨r * numBlocks + b, by rw [hlen]; exact row_lt r.isLt hb⟩) := by
  rw [← List.map_coe_finRange_eq_range, List.filterMap_map, ← List.filterMap_eq_map]
  apply List.filterMap_congr
  intro r _
  have hlt : r.val * numBlocks + b < params.data.length := by rw [hlen]; exact row_lt r.isLt hb
  simp [encodingAt, hlt]

/-- The values of block `b` before the compensation. -/
def givenRows (hlen : params.data.length = rows * numBlocks) (hb : b < numBlocks) (r : Fin rows) :
    List ℚ :=
  flattenBlock (params.data.get ⟨r * numBlocks + b, by rw [hlen]; exact row_lt r.isLt hb⟩).value

def compensatedRows (w : Tensor ℚ) (gram : ℕ → ℕ → ℕ → ℚ)
    (hlen : params.data.length = rows * numBlocks) (hb : b < numBlocks) (r : Fin rows) : List ℚ :=
  gptqRow w numBlocks gram
    (params.data.get ⟨r * numBlocks + b, by rw [hlen]; exact row_lt r.isLt hb⟩) r b

theorem gptqRow_onGrid (e : Encoding) (r b : ℕ) :
    List.Forall₂ OnGrid (channels (totalScale e)) (gptqRow w numBlocks gram e r b) :=
  gptqColumns_onGrid _ 0 (by rw [channels_eq_flattenBlock, length_flattenBlock]; simp [blockRow])

theorem length_gptqRow (e : Encoding) (r b : ℕ) : (gptqRow w numBlocks gram e r b).length = 64 := by
  rw [← (gptqRow_onGrid e r b).length_eq, channels_eq_flattenBlock, length_flattenBlock]

theorem useGptq_iff : useGptq params w rows numBlocks gram b = true ↔
    traceLoss (gram b) (rowErrors w rows numBlocks b (compensatedRows w gram hlen hb)) <
      traceLoss (gram b) (rowErrors w rows numBlocks b (givenRows hlen hb)) * (90 / 100) := by
  rw [← gramLoss_rowErrors (q := compensatedRows w gram hlen hb) (fun r => length_gptqRow _ _ _),
    ← gramLoss_rowErrors (q := givenRows hlen hb) (fun r => length_flattenBlock _)]
  simp only [useGptq, filterMap_encodingAt hlen hb, List.map_map, decide_eq_true_eq]
  rfl

theorem blockError_eq {p : Tensor Encoding} (hp : p.data.length = rows * numBlocks)
    {x : Tensor ℚ} (hx : hif4Dequant p w.shape = some x) (hb : b < numBlocks) :
    blockError x w rows numBlocks b = rowErrors w rows numBlocks b (givenRows hp hb) := by
  obtain ⟨-, -, hblocks⟩ := hif4Dequant_eq_some hx
  ext r c
  have hlt : r.val * numBlocks + b < p.data.length := by rw [hp]; exact row_lt r.isLt hb
  have hidx : (r.val * numBlocks + b) * 64 + c.val =
      64 * (r.val * numBlocks + b) + (8 * (c.val / 8) + 4 * (c.val / 4 % 2) + c.val % 4) := by omega
  have hv := congrFun (congrFun (congrFun (hblocks _ hlt) ⟨c / 8, by omega⟩) ⟨c / 4 % 2, by omega⟩)
    ⟨c % 4, by omega⟩
  simp only [blockError, rowErrors, givenRows, Matrix.of_apply]
  congr 1
  rw [hidx, List.getD_eq_getElem (flattenBlock _) _ (by simp)]
  simp only [flattenBlock, List.getElem_ofFn]
  exact hv

theorem length_gptq_data : (gptq params w rows numBlocks gram).data.length = params.data.length := by
  simp [gptq]

theorem givenRows_gptq (hlegal : ∀ e ∈ params.data, e.Legal)
    (hlen' : (gptq params w rows numBlocks gram).data.length = rows * numBlocks) :
    givenRows hlen' hb = if useGptq params w rows numBlocks gram b then
      compensatedRows w gram hlen hb else givenRows hlen hb := by
  funext r
  have hdiv : (r.val * numBlocks + b) / numBlocks = r := by
    rw [Nat.mul_comm, Nat.mul_add_div (Nat.zero_lt_of_lt hb), Nat.div_eq_of_lt hb, add_zero]
  have hmod : (r.val * numBlocks + b) % numBlocks = b := by
    rw [Nat.mul_comm, Nat.mul_add_mod, Nat.mod_eq_of_lt hb]
  simp only [givenRows, gptq, List.get_eq_getElem, List.getElem_mapIdx, hdiv, hmod]
  split_ifs with huse
  · exact flattenBlock_requantize (hlegal _ (List.getElem_mem _)) (gptqRow_onGrid _ _ _)
  · rfl

include hlen hb in
theorem gptq_traceLoss_le (hlegal : ∀ e ∈ params.data, e.Legal) (hpsd : PosSemidef (gram b))
    {x₀ x₁ : Tensor ℚ} (h₀ : hif4Dequant params w.shape = some x₀)
    (h₁ : hif4Dequant (gptq params w rows numBlocks gram) w.shape = some x₁) :
    traceLoss (gram b) (blockError x₁ w rows numBlocks b) ≤
      traceLoss (gram b) (blockError x₀ w rows numBlocks b) := by
  have hlen' : (gptq params w rows numBlocks gram).data.length = rows * numBlocks :=
    length_gptq_data.trans hlen
  rw [blockError_eq hlen h₀ hb, blockError_eq hlen' h₁ hb,
    givenRows_gptq hlen hb hlegal hlen']
  split_ifs with huse
  · have hlt := (useGptq_iff hlen hb).mp huse
    have hnn := traceLoss_nonneg hpsd (rowErrors w rows numBlocks b (givenRows hlen hb))
    linarith
  · exact le_rfl

theorem gptq_scales (params : Tensor Encoding) (w : Tensor ℚ) (rows numBlocks : ℕ)
    (gram : ℕ → ℕ → ℕ → ℚ) :
    (gptq params w rows numBlocks gram).data.map
        (fun e => (e.scaleFactor, e.scaleLv2, e.scaleLv3)) =
      params.data.map fun e => (e.scaleFactor, e.scaleLv2, e.scaleLv3) := by
  apply List.ext_getElem (by simp [gptq])
  intro t _ _
  simp only [gptq, List.getElem_map, List.getElem_mapIdx]
  split_ifs <;> rfl

variable (w rows numBlocks gram) in
theorem exists_hif4Dequant_gptq {x₀ : Tensor ℚ} {shape : List ℕ}
    (h : hif4Dequant params shape = some x₀) :
    ∃ x₁, hif4Dequant (gptq params w rows numBlocks gram) shape = some x₁ := by
  have hiff : ∀ p : Tensor Encoding,
      (p.data.flatMap fun e => flattenBlock e.value).length = 64 * p.data.length := by
    intro p
    rw [← List.flatMap_map Encoding.value flattenBlock, length_flatMap_flattenBlock, List.length_map]
  unfold hif4Dequant at h ⊢
  dsimp only at h ⊢
  split_ifs at h with hl
  rw [hiff] at hl
  exact ⟨_, dif_pos (by rw [hiff, length_gptq_data, hl])⟩

end Blocks

section Gram

theorem posSemidef_mul_self (f : ℕ → ℚ) : PosSemidef fun u v => f u * f v := by
  intro e
  have hsq : ∑ u : Fin 64, ∑ v : Fin 64, f u * f v * (e u * e v) =
      (∑ u : Fin 64, f u * e u) ^ 2 := by
    rw [sq, Finset.sum_mul_sum]
    apply Finset.sum_congr rfl
    intro u _
    apply Finset.sum_congr rfl
    intro v _
    ring
  rw [hsq]
  exact sq_nonneg _

theorem PosSemidef.add {g h : ℕ → ℕ → ℚ} (hg : PosSemidef g) (hh : PosSemidef h) :
    PosSemidef fun u v => g u v + h u v := by
  intro e
  simp only [add_mul, Finset.sum_add_distrib]
  exact add_nonneg (hg e) (hh e)

theorem PosSemidef.div {g : ℕ → ℕ → ℚ} (hg : PosSemidef g) {c : ℚ} (hc : 0 ≤ c) :
    PosSemidef fun u v => g u v / c := by
  intro e
  have hmul : ∑ u : Fin 64, ∑ v : Fin 64, g u v / c * (e u * e v) =
      c⁻¹ * ∑ u : Fin 64, ∑ v : Fin 64, g u v * (e u * e v) := by
    simp only [Finset.mul_sum]
    apply Finset.sum_congr rfl
    intro u _
    apply Finset.sum_congr rfl
    intro v _
    ring
  rw [hmul]
  exact mul_nonneg (inv_nonneg.mpr hc) (hg e)

theorem posSemidef_sum_range {g : ℕ → ℕ → ℕ → ℚ} (n : ℕ) (h : ∀ t, PosSemidef (g t)) :
    PosSemidef fun u v => ∑ t ∈ Finset.range n, g t u v := by
  induction n with
  | zero => intro e; simp
  | succ n ih =>
    simp only [Finset.sum_range_succ]
    exact ih.add (h n)

theorem posSemidef_sum_map {α : Type*} {g : α → ℕ → ℕ → ℚ} (l : List α)
    (h : ∀ a, PosSemidef (g a)) : PosSemidef fun u v => (l.map fun a => g a u v).sum := by
  induction l with
  | nil => intro e; simp
  | cons a l ih =>
    simp only [List.map_cons, List.sum_cons]
    exact (h a).add ih

theorem calibGram_posSemidef (acts : List (Tensor ℚ)) (tokens b : ℕ) :
    PosSemidef (calibGram acts tokens b) := by
  refine PosSemidef.div (posSemidef_sum_map acts fun act => ?_) (Nat.cast_nonneg _)
  refine posSemidef_sum_range act.rows fun t => ?_
  exact posSemidef_mul_self fun u =>
    act.data.getD (t * act.shape.getLastD 0 + 64 * b + u % blockWidth act b) 0

end Gram

/-- Parameters returned for `params`: the scales stay, and no block loses more under `gram`. -/
structure Refines (w : Tensor ℚ) (rows numBlocks : ℕ) (gram : ℕ → ℕ → ℕ → ℚ)
    (params p : Tensor Encoding) : Prop where
  shape_eq : p.shape = params.shape
  scales_eq : p.data.map (fun e => (e.scaleFactor, e.scaleLv2, e.scaleLv3)) =
    params.data.map fun e => (e.scaleFactor, e.scaleLv2, e.scaleLv3)
  loss_le : ∀ x₀, hif4Dequant params w.shape = some x₀ →
    ∃ x₁, hif4Dequant p w.shape = some x₁ ∧ ∀ b < numBlocks,
      traceLoss (gram b) (blockError x₁ w rows numBlocks b) ≤
        traceLoss (gram b) (blockError x₀ w rows numBlocks b)

theorem Refines.refl (w : Tensor ℚ) (rows numBlocks : ℕ) (gram : ℕ → ℕ → ℕ → ℚ)
    (params : Tensor Encoding) : Refines w rows numBlocks gram params params :=
  ⟨rfl, rfl, fun x₀ h₀ => ⟨x₀, h₀, fun _ _ => le_rfl⟩⟩

theorem refines_gptq {w : Tensor ℚ} {rows numBlocks : ℕ} {gram : ℕ → ℕ → ℕ → ℚ}
    {params : Tensor Encoding} (hlegal : ∀ e ∈ params.data, e.Legal)
    (hshape : params.shape = [rows, numBlocks]) (hpsd : ∀ b < numBlocks, PosSemidef (gram b)) :
    Refines w rows numBlocks gram params (gptq params w rows numBlocks gram) := by
  have hlen : params.data.length = rows * numBlocks := by simp [params.length_data, hshape]
  refine ⟨rfl, gptq_scales params w rows numBlocks gram, fun x₀ h₀ => ?_⟩
  obtain ⟨x₁, h₁⟩ := exists_hif4Dequant_gptq w rows numBlocks gram h₀
  exact ⟨x₁, h₁, fun b hb => gptq_traceLoss_le hlen hb hlegal (hpsd b hb) h₀ h₁⟩

/-- Compensating weights under the calibration activations, and activations under positive
semidefinite Gram matrices, keeps the scales of legal parameters and never raises the loss of
a block; without Gram matrices the parameters are returned as they are. -/
theorem gptq_noninferior :
    (∀ (weightParams : Tensor Encoding) (wRot : Tensor ℚ) (calibActs acts : List (Tensor ℚ))
      (D : Option (Tensor ℚ)) (H : Option (List (List ℚ))) (outFeatures K : ℕ)
      (p : Tensor Encoding), (∀ e ∈ weightParams.data, e.Legal) →
      wRot.shape = [outFeatures, K] → calibActs.mapM (rotateActivation D H) = some acts →
      applyBlockGptq weightParams wRot calibActs D H = some p →
      Refines wRot outFeatures (K / 64) (calibGram acts (calibActs.map Tensor.rows).sum)
        weightParams p) ∧
    (∀ (stdParams : Tensor Encoding) (actFp gramW : Tensor ℚ) (seq K : ℕ) (p : Tensor Encoding),
      (∀ e ∈ stdParams.data, e.Legal) → actFp.shape = [seq, K] →
      (∀ b < K / 64, PosSemidef (gramOf gramW (K / 64) b)) →
      applyActivationGptq stdParams actFp (some gramW) = some p →
      Refines actFp seq (K / 64) (gramOf gramW (K / 64)) stdParams p) ∧
    ∀ (stdParams : Tensor Encoding) (actFp : Tensor ℚ) (p : Tensor Encoding),
      applyActivationGptq stdParams actFp none = some p → p = stdParams := by
  refine ⟨?_, ?_, ?_⟩
  · rintro weightParams wRot calibActs acts D H out K p hlegal hw hacts h
    simp only [applyBlockGptq, hw] at h
    split_ifs at h with h0
    · obtain rfl := Option.some.inj h
      exact Refines.refl _ _ _ _ _
    · rw [hacts, Option.bind_some] at h
      split_ifs at h with hc
      obtain rfl := Option.some.inj h
      exact refines_gptq hlegal hc.2.2 fun b _ => calibGram_posSemidef _ _ _
  · rintro stdParams actFp gramW seq K p hlegal ha hpsd h
    simp only [applyActivationGptq, ha] at h
    split_ifs at h with h0 hc
    · obtain rfl := Option.some.inj h
      exact Refines.refl _ _ _ _ _
    · obtain rfl := Option.some.inj h
      exact refines_gptq hlegal hc.2.2 hpsd
  · rintro stdParams actFp p h
    unfold applyActivationGptq at h
    split at h
    · exact (Option.some.inj h).symm
    · cases h

def flatRow : Tensor ℚ := ⟨[1, 64], List.replicate 64 5000, rfl⟩

def onesGram : Tensor ℚ := ⟨[64, 64], List.replicate (64 * 64) 1, List.length_replicate⟩

theorem onesGram_posSemidef : PosSemidef (gramOf onesGram 1 0) := by
  have hone : ∀ u v : Fin 64, gramOf onesGram 1 0 u v = 1 * 1 := by
    intro u v
    have hlt : (0 * 64 + u.val) * 64 + v < onesGram.data.length := by
      rw [onesGram, List.length_replicate]
      omega
    rw [gramOf, ite_self, List.getD_eq_getElem _ _ hlt, one_mul]
    exact List.getElem_replicate _
  intro e
  simp only [hone]
  exact posSemidef_mul_self (fun _ => 1) e

theorem gptq_noninferior_coarse :
    (∃ p, applyBlockGptq coarse flatRow [flatRow] none none = some p ∧
      Refines flatRow 1 1 (calibGram [flatRow] 1) coarse p) ∧
    ∃ p, applyActivationGptq coarse flatRow (some onesGram) = some p ∧
      Refines flatRow 1 1 (gramOf onesGram 1) coarse p := by
  constructor
  · have hfits : RotationFits none none 64 := ⟨by simp, by simp⟩
    obtain ⟨p, hp⟩ : ∃ p, applyBlockGptq coarse flatRow [flatRow] none none = some p :=
      exists_applyBlockGptq hfits rfl rfl rfl (by simp [flatRow])
    exact ⟨p, hp, gptq_noninferior.1 coarse flatRow [flatRow] [flatRow] none none 1 64 p
      coarse_legal rfl rfl hp⟩
  · have hp : applyActivationGptq coarse flatRow (some onesGram) =
        some (gptq coarse flatRow 1 1 (gramOf onesGram 1)) := rfl
    refine ⟨_, hp, gptq_noninferior.2.1 coarse flatRow onesGram 1 64 _ coarse_legal rfl ?_ hp⟩
    intro b hb
    obtain rfl : b = 0 := by omega
    exact onesGram_posSemidef

end K8sLearn.Hif4

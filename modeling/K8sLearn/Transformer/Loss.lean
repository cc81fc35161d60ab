import K8sLearn.Lib.Entropy
import K8sLearn.Lib.Lists
import K8sLearn.Transformer.Noninterference

/-! # The label smoothing loss

`LabelSmoothingLoss` mixes the mean negative log-likelihood of the labels that are no pads with
the mean over the vocabulary. A row without a value holds a NaN: at a label it reaches the first
mean, at a pad only the second, since a weight of zero does not cancel it. When all rows are
numbers the loss is the mean cross entropy against the smoothed labels that the documentation
describes.
-/

namespace K8sLearn.Transformer

/-- A row of logits with its label; a row without a value holds a NaN. -/
abbrev LabelledRow (K : Type*) (vocab : ℕ) := Option (Fin vocab → K) × Fin vocab

section Loss

variable {K : Type*} [Field K] [LinearOrder K] (fn : Numerics K) {vocab : ℕ}

def logSoftmax (row : Fin vocab → K) (token : Fin vocab) : K :=
  row token - fn.log (∑ t, fn.exp (row t))

/-- `F.cross_entropy` with the pads ignored; the mean of nothing is a NaN. -/
def crossEntropyMean (padId : ℕ) (rows : List (LabelledRow K vocab)) : Option K :=
  let kept := rows.filter fun r => r.2.val ≠ padId
  if kept.isEmpty then none
  else
    (kept.mapM fun (r : LabelledRow K vocab) => r.1.map fun row =>
      -logSoftmax fn row r.2).map fun l => l.sum / kept.length

/-- The mean over the vocabulary, masked and divided by the number of labels, at least one. -/
def smoothLoss (padId : ℕ) (rows : List (LabelledRow K vocab)) : Option K :=
  let mask (r : LabelledRow K vocab) : K := if r.2.val ≠ padId then 1 else 0
  (rows.mapM fun (r : LabelledRow K vocab) => r.1.map fun row =>
    -((∑ t, logSoftmax fn row t) / vocab) * mask r).map fun l => l.sum / max (rows.map mask).sum 1

/-- `LabelSmoothingLoss.forward` on the rows of logits with their labels. -/
def labelSmoothingLoss (smoothing : K) (padId : ℕ)
    (rows : List (LabelledRow K vocab)) : Option K :=
  (crossEntropyMean fn padId rows).bind fun nll =>
  (smoothLoss fn padId rows).map fun smooth => (1 - smoothing) * nll + smoothing * smooth

end Loss

section Kept

theorem mapM_some_row {α β γ : Type*} (f : α → β → γ) (rows : List (α × β)) :
    (rows.map fun r => (some r.1, r.2)).mapM (fun r => r.1.map fun row => f row r.2) =
      some (rows.map fun r => f r.1 r.2) := by
  apply Lists.mapM_of_forall₂
  rw [List.forall₂_map_left_iff, List.forall₂_map_right_iff]
  exact List.forall₂_same.mpr fun r _ => rfl

theorem exists_rows {K : Type*} {vocab : ℕ} {rows : List (LabelledRow K vocab)}
    (h : ∀ r ∈ rows, r.1.isSome) :
    ∃ rows' : List ((Fin vocab → K) × Fin vocab), rows = rows'.map fun r => (some r.1, r.2) := by
  induction rows with
  | nil => exact ⟨[], rfl⟩
  | cons r rows ih =>
    obtain ⟨hr, hrows⟩ := List.forall_mem_cons.mp h
    obtain ⟨row, hrow⟩ := Option.isSome_iff_exists.mp hr
    obtain ⟨rows', rfl⟩ := ih hrows
    exact ⟨(row, r.2) :: rows', by simp [← hrow]⟩

variable {K : Type*} [Field K] [LinearOrder K] {fn : Numerics K} {vocab padId : ℕ}

theorem forall_isSome_of_labelSmoothingLoss {smoothing loss : K} {rows : List (LabelledRow K vocab)}
    (h : labelSmoothingLoss fn smoothing padId rows = some loss) :
    (∀ r ∈ rows, r.1.isSome) ∧ ∃ r ∈ rows, r.2.val ≠ padId := by
  obtain ⟨nll, hnll, h⟩ := Option.bind_eq_some_iff.mp h
  obtain ⟨smooth, hsmooth, -⟩ := Option.map_eq_some_iff.mp h
  obtain ⟨l, hl, -⟩ := Option.map_eq_some_iff.mp hsmooth
  constructor
  · intro r hr
    obtain ⟨b, hb⟩ := (Lists.of_mapM_eq_some hl).1 r hr
    obtain ⟨row, hrow, -⟩ := Option.map_eq_some_iff.mp hb
    exact Option.isSome_iff_exists.mpr ⟨row, hrow⟩
  · rw [crossEntropyMean] at hnll
    split_ifs at hnll with hempty
    obtain ⟨r, hr⟩ := List.exists_mem_of_ne_nil _ fun h => hempty (List.isEmpty_iff.mpr h)
    obtain ⟨hr, hne⟩ := List.mem_filter.mp hr
    exact ⟨r, hr, of_decide_eq_true hne⟩

variable [IsStrictOrderedRing K]

def keptRows (padId : ℕ) (rows : List ((Fin vocab → K) × Fin vocab)) :
    List ((Fin vocab → K) × Fin vocab) :=
  rows.filter fun r => r.2.val ≠ padId

theorem labelSmoothingLoss_eq (smoothing : K) {rows : List ((Fin vocab → K) × Fin vocab)}
    (hne : keptRows padId rows ≠ []) :
    labelSmoothingLoss fn smoothing padId (rows.map fun r => (some r.1, r.2)) =
      some (((keptRows padId rows).map fun r => (1 - smoothing) * -logSoftmax fn r.1 r.2 +
        smoothing * -((∑ t, logSoftmax fn r.1 t) / vocab)).sum / (keptRows padId rows).length) := by
  have hkept : (rows.map fun r => (some r.1, r.2)).filter (fun r => r.2.val ≠ padId) =
      (keptRows padId rows).map fun r => (some r.1, r.2) := by
    rw [List.filter_map]
    rfl
  have hmask : ∀ g : ((Fin vocab → K) × Fin vocab) → K,
      (rows.map fun r => g r * if r.2.val ≠ padId then 1 else 0).sum =
        ((keptRows padId rows).map g).sum := by
    intro g
    clear hne hkept
    induction rows with
    | nil => rfl
    | cons r rows ih =>
      rw [List.map_cons, List.sum_cons, ih, keptRows, keptRows, List.filter_cons]
      by_cases hr : r.2.val ≠ padId <;> simp [hr]
  have hcount : (rows.map fun r => if r.2.val ≠ padId then (1 : K) else 0).sum =
      (keptRows padId rows).length := by
    simpa using hmask fun _ => 1
  have hone : (1 : K) ≤ (keptRows padId rows).length := by
    exact_mod_cast List.length_pos_iff.mpr hne
  have hnll : crossEntropyMean fn padId (rows.map fun r => (some r.1, r.2)) =
      some (((keptRows padId rows).map fun r => -logSoftmax fn r.1 r.2).sum /
        (keptRows padId rows).length) := by
    rw [crossEntropyMean, hkept, if_neg (by simpa using hne),
      mapM_some_row fun row t => -logSoftmax fn row t,
      Option.map_some, List.length_map]
  have hsmooth : smoothLoss fn padId (rows.map fun r => (some r.1, r.2)) =
      some (((keptRows padId rows).map fun r => -((∑ t, logSoftmax fn r.1 t) / vocab)).sum /
        (keptRows padId rows).length) := by
    rw [smoothLoss, mapM_some_row fun row (t : Fin vocab) =>
      -((∑ s, logSoftmax fn row s) / vocab) * if t.val ≠ padId then 1 else 0, Option.map_some,
      hmask, List.map_map]
    have hmax : max (rows.map ((fun r => if r.2.val ≠ padId then (1 : K) else 0) ∘
        fun r => (some r.1, r.2))).sum 1 = (keptRows padId rows).length :=
      (congrArg (max · 1) hcount).trans (max_eq_left hone)
    rw [hmax]
  rw [labelSmoothingLoss, hnll, hsmooth, Option.bind_some, Option.map_some, List.sum_map_add,
    List.sum_map_mul_left, List.sum_map_mul_left]
  congr 1
  ring

end Kept

section Smoothed

variable {vocab : ℕ}

/-- The smoothed label of the documentation: `eps/V` everywhere and `1-eps` more at the token. -/
noncomputable def smoothedLabel (smoothing : ℝ) (token t : Fin vocab) : ℝ :=
  smoothing / vocab + if t = token then 1 - smoothing else 0

open Entropy

variable {smoothing : ℝ} (token : Fin vocab)

theorem cast_pos_of_fin (token : Fin vocab) : (0 : ℝ) < vocab := by
  exact_mod_cast Nat.zero_lt_of_lt token.isLt

theorem smoothedLabel_pos (h₀ : 0 < smoothing) (h₁ : smoothing ≤ 1) (t : Fin vocab) :
    0 < smoothedLabel smoothing token t := by
  have hshare : 0 < smoothing / vocab := div_pos h₀ (cast_pos_of_fin token)
  unfold smoothedLabel
  split_ifs <;> linarith

theorem sum_smoothedLabel : ∑ t, smoothedLabel smoothing token t = 1 := by
  have hpos := cast_pos_of_fin token
  simp only [smoothedLabel, Finset.sum_add_distrib, Finset.sum_const, Finset.card_univ,
    Fintype.card_fin, nsmul_eq_mul, Finset.sum_ite_eq', Finset.mem_univ, if_true]
  field_simp
  ring

theorem crossEntropy_smoothedLabel (row : Fin vocab → ℝ) :
    crossEntropy (smoothedLabel smoothing token) (softmax row) =
      (1 - smoothing) * -logSoftmax realNumerics row token +
        smoothing * -((∑ t, logSoftmax realNumerics row t) / vocab) := by
  have hnonempty : Nonempty (Fin vocab) := ⟨token⟩
  have hlog : ∀ t, Real.log (softmax row t) = logSoftmax realNumerics row t := log_softmax row
  simp only [crossEntropy, smoothedLabel, hlog, add_mul, Finset.sum_add_distrib, ite_mul, zero_mul,
    Finset.sum_ite_eq', Finset.mem_univ, if_true, mul_neg, Finset.sum_neg_distrib, ← Finset.mul_sum]
  ring

theorem sum_map_eq_iff {α : Type*} {f g : α → ℝ} {l : List α} (h : ∀ a ∈ l, f a ≤ g a) :
    (l.map g).sum = (l.map f).sum ↔ ∀ a ∈ l, g a = f a := by
  constructor
  · intro heq
    by_contra hne
    obtain ⟨a, ha⟩ := not_forall.mp hne
    obtain ⟨ha, hne⟩ := Classical.not_imp.mp ha
    have hlt := List.sum_lt_sum f g h ⟨a, ha, lt_of_le_of_ne (h a ha) (Ne.symm hne)⟩
    exact hlt.ne' heq
  · intro heq
    rw [List.map_congr_left heq]

end Smoothed

open Entropy

/-- For every vocabulary and smoothing: the loss is a number exactly if all rows are and a label is
no pad. It is then the mean, over the labels that are no pads, of the cross entropy of the softmax
against the smoothed label. It is at least the mean entropy of the smoothed labels, and equal to it
exactly if each softmax is the smoothed label. -/
theorem labelSmoothingLoss_smoothed {vocab : ℕ} (smoothing : ℝ) (h₀ : 0 < smoothing)
    (h₁ : smoothing ≤ 1) (padId : ℕ) (rows : List (LabelledRow ℝ vocab)) :
    ((∃ loss, labelSmoothingLoss realNumerics smoothing padId rows = some loss) ↔
      (∀ r ∈ rows, r.1.isSome) ∧ ∃ r ∈ rows, r.2.val ≠ padId) ∧
    ∀ (numbers : List ((Fin vocab → ℝ) × Fin vocab)) (loss : ℝ),
      rows = numbers.map (fun r => (some r.1, r.2)) →
      labelSmoothingLoss realNumerics smoothing padId rows = some loss →
      let kept := keptRows padId numbers
      let label (r : (Fin vocab → ℝ) × Fin vocab) := smoothedLabel smoothing r.2
      let entropy := (kept.map fun r => crossEntropy (label r) (label r)).sum / kept.length
      loss = (kept.map fun r => crossEntropy (label r) (softmax r.1)).sum / kept.length ∧
        entropy ≤ loss ∧ (loss = entropy ↔ ∀ r ∈ kept, softmax r.1 = label r) := by
  have hkept : ∀ numbers : List ((Fin vocab → ℝ) × Fin vocab),
      (∃ r ∈ numbers.map (fun r => ((some r.1, r.2) : LabelledRow ℝ vocab)), r.2.val ≠ padId) →
        keptRows padId numbers ≠ [] := by
    rintro numbers ⟨a, ha, hne⟩ hnil
    obtain ⟨r, hr, rfl⟩ := List.mem_map.mp ha
    have hmem : r ∈ keptRows padId numbers := List.mem_filter.mpr ⟨hr, decide_eq_true hne⟩
    rw [hnil] at hmem
    cases hmem
  constructor
  · constructor
    · rintro ⟨loss, hloss⟩
      exact forall_isSome_of_labelSmoothingLoss hloss
    · rintro ⟨hsome, hlabel⟩
      obtain ⟨numbers, rfl⟩ := exists_rows hsome
      exact ⟨_, labelSmoothingLoss_eq smoothing (hkept numbers hlabel)⟩
  · rintro numbers loss rfl hloss kept label entropy
    have hne := hkept numbers (forall_isSome_of_labelSmoothingLoss hloss).2
    have hlen : (0 : ℝ) < kept.length := by exact_mod_cast List.length_pos_iff.mpr hne
    have heq : loss =
        (kept.map fun r => crossEntropy (label r) (softmax r.1)).sum / kept.length := by
      rw [labelSmoothingLoss_eq smoothing hne] at hloss
      rw [← Option.some.inj hloss]
      simp only [label, crossEntropy_smoothedLabel]
      rfl
    have hrow : ∀ r : (Fin vocab → ℝ) × Fin vocab,
        crossEntropy (label r) (label r) ≤ crossEntropy (label r) (softmax r.1) ∧
        (crossEntropy (label r) (softmax r.1) = crossEntropy (label r) (label r) ↔
          softmax r.1 = label r) := by
      intro r
      have hnonempty : Nonempty (Fin vocab) := ⟨r.2⟩
      have hlabel := smoothedLabel_pos r.2 h₀ h₁
      have hsum : ∑ t, softmax r.1 t = ∑ t, smoothedLabel smoothing r.2 t :=
        (sum_softmax r.1).trans (sum_smoothedLabel r.2).symm
      exact ⟨crossEntropy_self_le hlabel (softmax_pos r.1) hsum,
        crossEntropy_eq_self_iff hlabel (softmax_pos r.1) hsum⟩
    refine ⟨heq, ?_, ?_⟩
    · rw [heq]
      exact div_le_div_of_nonneg_right (List.sum_le_sum fun r _ => (hrow r).1) hlen.le
    · rw [heq, div_left_inj' hlen.ne', sum_map_eq_iff fun r _ => (hrow r).1]
      exact forall₂_congr fun r _ => (hrow r).2

theorem labelSmoothingLoss_smoothed_pads :
    (∃ loss, labelSmoothingLoss realNumerics (1 / 10) 0
      [((some fun _ => 0, 1) : LabelledRow ℝ 3), (some fun _ => 1, 0)] = some loss) ∧
    ¬ ∃ loss, labelSmoothingLoss realNumerics (1 / 10) 0
      [((some fun _ => 0, 1) : LabelledRow ℝ 3), (none, 0)] = some loss := by
  constructor
  · rw [(labelSmoothingLoss_smoothed (1 / 10) (by norm_num) (by norm_num) 0 _).1]
    simp
  · rw [(labelSmoothingLoss_smoothed (1 / 10) (by norm_num) (by norm_num) 0 _).1]
    simp

end K8sLearn.Transformer

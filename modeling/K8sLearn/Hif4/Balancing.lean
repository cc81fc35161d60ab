import Mathlib.Algebra.Order.Field.Basic
import K8sLearn.Hif4.Jacobian

/-! # Balancing the Gram matrices

When Q is divided and K multiplied by a scale for each channel, the errors scale with
them, and a Gram matrix keeps its quadratic form when it is transformed the other way:
multiplied by the scales of its row and column for Q, divided by them for K.
`hif4_calibration_attention` multiplies both. For Q the form is always kept; for K it is
kept exactly where the scales of every two channels that interact are inverse to each
other.
-/

namespace K8sLearn.Hif4

section Quadratic

variable {K : Type*} [Field K]

/-- The bilinear form of the first 64 rows and columns. -/
def bilinear (M : ℕ → ℕ → K) (e f : ℕ → K) : K :=
  ∑ u ∈ Finset.range 64, ∑ v ∈ Finset.range 64, e u * M u v * f v

/-- `e^T M e`. -/
def quadratic (M : ℕ → ℕ → K) (e : ℕ → K) : K := bilinear M e e

theorem bilinear_single (M : ℕ → ℕ → K) {u v : ℕ} (hu : u < 64) (hv : v < 64) (a b : K) :
    bilinear M (Pi.single u a) (Pi.single v b) = a * M u v * b := by
  unfold bilinear
  rw [Finset.sum_eq_single u, Finset.sum_eq_single v]
  · simp
  · intro w _ hw
    simp [Pi.single_eq_of_ne hw]
  · intro h
    exact absurd (Finset.mem_range.mpr hv) h
  · intro w _ hw
    simp [Pi.single_eq_of_ne hw]
  · intro h
    exact absurd (Finset.mem_range.mpr hu) h

theorem quadratic_add (M : ℕ → ℕ → K) (e f : ℕ → K) :
    quadratic M (e + f) = quadratic M e + bilinear M e f + bilinear M f e + quadratic M f := by
  simp only [quadratic, bilinear, Pi.add_apply, ← Finset.sum_add_distrib]
  apply Finset.sum_congr rfl
  intro u _
  apply Finset.sum_congr rfl
  intro v _
  ring

variable [CharZero K]

theorem quadratic_eq_zero_iff (M : ℕ → ℕ → K) :
    (∀ e, quadratic M e = 0) ↔ ∀ u < 64, ∀ v < 64, M u v + M v u = 0 := by
  constructor
  · intro h u hu v hv
    have hsum := h (Pi.single u 1 + Pi.single v 1)
    rw [quadratic_add, h, h, bilinear_single M hu hv, bilinear_single M hv hu] at hsum
    simpa using hsum
  · intro h e
    have hswap : quadratic M e = bilinear (fun u v => M v u) e e := by
      unfold quadratic bilinear
      rw [Finset.sum_comm]
      apply Finset.sum_congr rfl
      intro u _
      apply Finset.sum_congr rfl
      intro v _
      ring
    have htwice : quadratic M e + quadratic M e = 0 := by
      nth_rewrite 2 [hswap]
      simp only [quadratic, bilinear, ← Finset.sum_add_distrib]
      apply Finset.sum_eq_zero
      intro u hu
      apply Finset.sum_eq_zero
      intro v hv
      have huv := h u (Finset.mem_range.mp hu) v (Finset.mem_range.mp hv)
      linear_combination e u * e v * huv
    simpa using htwice

end Quadratic

section Grams

variable {K : Type*} [Field K]

/-- The 64-channel blocks along the diagonal of the matrices of the heads, each entry multiplied
by the scales of its column and row when there are scales. No blocks cannot be stacked, and the
scales have to fit the blocks. -/
def gramBlocks (head : ℕ → ℕ → ℕ → K) (heads headDim : ℕ) (D : Option (Tensor K)) :
    Option (List (ℕ → ℕ → K)) :=
  let nSub := headDim / 64
  let blk h s u v := head h (s * 64 + u) (s * 64 + v)
  if heads * nSub = 0 then none
  else match D with
  | none => some ((List.range heads).flatMap fun h => (List.range nSub).map fun s => blk h s)
  | some D =>
    let d h s u := D.data.getD ((h * nSub + s) * 64 + u) 0
    if D.data.length ≠ heads * nSub * 64 then none
    else some ((List.range heads).flatMap fun h => (List.range nSub).map fun s u v =>
      blk h s u v * d h s v * d h s u)

/-- The Gram matrices that `hif4_calibration_attention` stores for Q and K. -/
def calibrationGrams (hs : Heads) (hq hk : ℕ → ℕ → ℕ → K) (D : Option (Tensor K × Tensor K)) :
    Option (Option (List (ℕ → ℕ → K) × List (ℕ → ℕ → K))) :=
  if hs.headDim % 64 ≠ 0 then some none
  else
    (gramBlocks hq hs.qHeads hs.headDim (D.map Prod.fst)).bind fun gramQ =>
    (gramBlocks hk hs.kvHeads hs.headDim (D.map Prod.snd)).map fun gramK => some (gramQ, gramK)

def blockScale (D : Tensor K) (b u : ℕ) : K := D.data.getD (b * 64 + u) 0

theorem gramBlocks_scaled {head : ℕ → ℕ → ℕ → K} {heads headDim : ℕ} {D : Tensor K}
    {G G' : List (ℕ → ℕ → K)} (h₀ : gramBlocks head heads headDim none = some G)
    (h₁ : gramBlocks head heads headDim (some D) = some G') :
    D.data.length = heads * (headDim / 64) * 64 ∧ G.length = heads * (headDim / 64) ∧
      G'.length = heads * (headDim / 64) ∧
      ∀ b < heads * (headDim / 64), ∀ u v,
        G'.getD b 0 u v = G.getD b 0 u v * blockScale D b v * blockScale D b u := by
  simp only [gramBlocks] at h₀ h₁
  split_ifs at h₀ h₁ with h0 hlen
  obtain rfl := Option.some.inj h₀
  obtain rfl := Option.some.inj h₁
  refine ⟨not_not.mp hlen, by simp, by simp, ?_⟩
  intro b hb u v
  simp only [Lists.flatMap_range_range, blockScale]
  have hsplit : b / (headDim / 64) * (headDim / 64) + b % (headDim / 64) = b := by
    rw [Nat.mul_comm]
    exact Nat.div_add_mod b (headDim / 64)
  simp [List.getD, hb, hsplit]

variable [LinearOrder K]

theorem blockScale_pos {D : Tensor K} (hD : ∀ x ∈ D.data, 0 < x) {n b u : ℕ}
    (hlen : D.data.length = n * 64) (hb : b < n) (hu : u < 64) : 0 < blockScale D b u := by
  have hlt : b * 64 + u < D.data.length := by omega
  rw [blockScale, List.getD_eq_getElem _ _ hlt]
  exact hD _ (List.getElem_mem hlt)

/-- Multiplying by the scales of row and column undoes dividing the error by them. -/
theorem quadratic_div (G : ℕ → ℕ → K) {d : ℕ → K} (hd : ∀ u < 64, 0 < d u) (e : ℕ → K) :
    quadratic (fun u v => G u v * d v * d u) (fun u => e u / d u) = quadratic G e := by
  unfold quadratic bilinear
  apply Finset.sum_congr rfl
  intro u hu
  apply Finset.sum_congr rfl
  intro v hv
  have hu0 := (hd u (Finset.mem_range.mp hu)).ne'
  have hv0 := (hd v (Finset.mem_range.mp hv)).ne'
  field_simp

variable [IsStrictOrderedRing K]

/-- Multiplying where the error was multiplied too keeps the form, and inverts the scale on the
diagonal, exactly when the scales of any two channels that interact are inverse to each other. -/
theorem quadratic_mul_iff (G : ℕ → ℕ → K) {d : ℕ → K} (hd : ∀ u < 64, 0 < d u) :
    ((∀ e, quadratic (fun u v => G u v * d v * d u) (fun u => e u * d u) = quadratic G e) ∧
      ∀ u < 64, G u u * d u * d u = G u u / d u ^ 2) ↔
    ∀ u < 64, ∀ v < 64, G u v + G v u = 0 ∨ d u * d v = 1 := by
  have hdiff : ∀ e, quadratic (fun u v => G u v * d v * d u) (fun u => e u * d u) -
      quadratic G e = quadratic (fun u v => G u v * ((d u * d v) ^ 2 - 1)) e := by
    intro e
    simp only [quadratic, bilinear, ← Finset.sum_sub_distrib]
    apply Finset.sum_congr rfl
    intro u _
    apply Finset.sum_congr rfl
    intro v _
    ring
  have hform : (∀ e, quadratic (fun u v => G u v * d v * d u) (fun u => e u * d u) =
      quadratic G e) ↔ ∀ u < 64, ∀ v < 64, G u v + G v u = 0 ∨ d u * d v = 1 := by
    simp only [← sub_eq_zero (b := quadratic G _), hdiff, quadratic_eq_zero_iff]
    refine forall₂_congr fun u hu => forall₂_congr fun v hv => ?_
    have hpos : 0 < d u * d v := mul_pos (hd u hu) (hd v hv)
    have hfactor : G u v * ((d u * d v) ^ 2 - 1) + G v u * ((d v * d u) ^ 2 - 1) =
        (G u v + G v u) * ((d u * d v) ^ 2 - 1) := by ring
    rw [hfactor, mul_eq_zero, sub_eq_zero, pow_eq_one_iff_of_nonneg hpos.le two_ne_zero]
  rw [hform]
  refine and_iff_left_of_imp fun h u hu => ?_
  have hd0 := (hd u hu).ne'
  rcases h u hu u hu with h0 | h1
  · have hG : G u u = 0 := by linarith
    rw [hG]
    ring
  · have hsq : d u ^ 2 = 1 := by rw [sq, h1]
    rw [hsq, div_one, mul_assoc, h1, mul_one]

/-- The stored Gram matrices under every positive balance: those of Q always keep the quadratic
form, those of K exactly when the scales of interacting channels are inverse to each other. -/
theorem calibrationGrams_transport_iff (hs : Heads) (hq hk : ℕ → ℕ → ℕ → K) (dQ dK : Tensor K)
    (hdQ : ∀ x ∈ dQ.data, 0 < x) (hdK : ∀ x ∈ dK.data, 0 < x)
    {gramQ gramK gramQ' gramK' : List (ℕ → ℕ → K)}
    (h₀ : calibrationGrams hs hq hk none = some (some (gramQ, gramK)))
    (h₁ : calibrationGrams hs hq hk (some (dQ, dK)) = some (some (gramQ', gramK'))) :
    (∀ b < hs.qHeads * (hs.headDim / 64), ∀ e,
      quadratic (gramQ'.getD b 0) (fun u => e u / blockScale dQ b u) =
        quadratic (gramQ.getD b 0) e) ∧
    ∀ b < hs.kvHeads * (hs.headDim / 64),
      ((∀ e, quadratic (gramK'.getD b 0) (fun u => e u * blockScale dK b u) =
          quadratic (gramK.getD b 0) e) ∧
        ∀ u < 64, gramK'.getD b 0 u u = gramK.getD b 0 u u / blockScale dK b u ^ 2) ↔
      ∀ u < 64, ∀ v < 64, gramK.getD b 0 u v + gramK.getD b 0 v u = 0 ∨
        blockScale dK b u * blockScale dK b v = 1 := by
  simp only [calibrationGrams] at h₀ h₁
  split_ifs at h₀ h₁
  · simp at h₀
  · obtain ⟨q₀, hq₀, h₀⟩ := Option.bind_eq_some_iff.mp h₀
    obtain ⟨k₀, hk₀, h₀⟩ := Option.map_eq_some_iff.mp h₀
    obtain ⟨q₁, hq₁, h₁⟩ := Option.bind_eq_some_iff.mp h₁
    obtain ⟨k₁, hk₁, h₁⟩ := Option.map_eq_some_iff.mp h₁
    obtain ⟨rfl, rfl⟩ := Prod.mk.inj (Option.some.inj h₀)
    obtain ⟨rfl, rfl⟩ := Prod.mk.inj (Option.some.inj h₁)
    obtain ⟨hlenQ, -, -, hQ⟩ := gramBlocks_scaled hq₀ hq₁
    obtain ⟨hlenK, -, -, hK⟩ := gramBlocks_scaled hk₀ hk₁
    constructor
    · intro b hb e
      have hblk : q₁.getD b 0 = fun u v =>
          q₀.getD b 0 u v * blockScale dQ b v * blockScale dQ b u := by
        funext u v
        exact hQ b hb u v
      rw [hblk]
      exact quadratic_div _ (fun u hu => blockScale_pos hdQ hlenQ hb hu) e
    · intro b hb
      have hblk : k₁.getD b 0 = fun u v =>
          k₀.getD b 0 u v * blockScale dK b v * blockScale dK b u := by
        funext u v
        exact hK b hb u v
      rw [hblk]
      exact quadratic_mul_iff _ fun u hu => blockScale_pos hdK hlenK hb hu

end Grams

section Doubled

def firstChannel : ℕ → ℕ → ℕ → ℚ := fun _ u v => if u = 0 ∧ v = 0 then 1 else 0

def doubleFirst : Tensor ℚ := ⟨[64], 2 :: List.replicate 63 1, rfl⟩

theorem exists_calibrationGrams_doubled : ∃ gramQ gramK gramQ' gramK',
    calibrationGrams ⟨1, 1, 64⟩ firstChannel firstChannel none = some (some (gramQ, gramK)) ∧
      calibrationGrams ⟨1, 1, 64⟩ firstChannel firstChannel (some (doubleFirst, doubleFirst)) =
        some (some (gramQ', gramK')) ∧
      gramK.getD 0 0 0 0 = 1 ∧ gramK'.getD 0 0 0 0 = 4 ∧ blockScale doubleFirst 0 0 = 2 := by
  refine ⟨_, _, _, _, rfl, rfl, ?_, ?_, ?_⟩ <;> decide +kernel

/-- The error one in the first channel is weighed sixteen times as much after the balance. -/
theorem calibrationGrams_not_transported : ∃ gramQ gramK gramQ' gramK',
    calibrationGrams ⟨1, 1, 64⟩ firstChannel firstChannel none = some (some (gramQ, gramK)) ∧
      calibrationGrams ⟨1, 1, 64⟩ firstChannel firstChannel (some (doubleFirst, doubleFirst)) =
        some (some (gramQ', gramK')) ∧
      quadratic (gramK'.getD 0 0)
        (fun u => (Pi.single 0 1 : ℕ → ℚ) u * blockScale doubleFirst 0 u) ≠
        quadratic (gramK.getD 0 0) (Pi.single 0 1) := by
  obtain ⟨gQ, gK, gQ', gK', h₀, h₁, hG, hG', hd⟩ := exists_calibrationGrams_doubled
  have hsingle : (fun u => (Pi.single 0 1 : ℕ → ℚ) u * blockScale doubleFirst 0 u) =
      Pi.single 0 2 := by
    funext u
    by_cases hu : u = 0
    · simp [hu, hd]
    · simp [Pi.single_eq_of_ne hu]
  refine ⟨gQ, gK, gQ', gK', h₀, h₁, ?_⟩
  rw [hsingle, quadratic, quadratic, bilinear_single _ (by norm_num) (by norm_num),
    bilinear_single _ (by norm_num) (by norm_num), hG, hG']
  norm_num

theorem calibrationGrams_transport_doubled : ∃ gramQ gramK gramQ' gramK',
    calibrationGrams ⟨1, 1, 64⟩ firstChannel firstChannel none = some (some (gramQ, gramK)) ∧
      calibrationGrams ⟨1, 1, 64⟩ firstChannel firstChannel (some (doubleFirst, doubleFirst)) =
        some (some (gramQ', gramK')) ∧
      (∀ e, quadratic (gramQ'.getD 0 0) (fun u => e u / blockScale doubleFirst 0 u) =
        quadratic (gramQ.getD 0 0) e) ∧
      ¬ ((∀ e, quadratic (gramK'.getD 0 0) (fun u => e u * blockScale doubleFirst 0 u) =
          quadratic (gramK.getD 0 0) e) ∧
        ∀ u < 64, gramK'.getD 0 0 u u = gramK.getD 0 0 u u / blockScale doubleFirst 0 u ^ 2) := by
  obtain ⟨gQ, gK, gQ', gK', h₀, h₁, hG, -, hd⟩ := exists_calibrationGrams_doubled
  have hpos : ∀ x ∈ doubleFirst.data, 0 < x := by decide +kernel
  have htr := calibrationGrams_transport_iff ⟨1, 1, 64⟩ firstChannel firstChannel doubleFirst
    doubleFirst hpos hpos h₀ h₁
  refine ⟨gQ, gK, gQ', gK', h₀, h₁, htr.1 0 (by norm_num), fun hkeep => ?_⟩
  have hcond := (htr.2 0 (by norm_num)).mp hkeep 0 (by norm_num) 0 (by norm_num)
  rw [hG, hd] at hcond
  norm_num at hcond

end Doubled

end K8sLearn.Hif4

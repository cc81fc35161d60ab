import Mathlib.Algebra.Order.Ring.Archimedean
import Mathlib.Analysis.Real.Sqrt
import K8sLearn.Hif4.Rotation

/-! # The rotation of 64 channels

`_random_hadamard(64)` doubles six times, so the root of one half enters with its sixth
power, an eighth. In single precision the matrix is one of eighths with signs. It is the
matrix that the code describes over the reals, and so its rows are orthonormal.
-/

namespace K8sLearn.Hif4

/-- Every entry of a matrix times `c`. -/
def scaled {R : Type*} [Mul R] (c : R) (H : List (List R)) : List (List R) :=
  H.map fun r => r.map (· * c)

def drawnSigns {R : Type*} [One R] [Neg R] (draw : ℕ → ℕ → Bool) (seed : ℕ) : List R :=
  (List.range 64).map fun i => if draw seed i then 1 else -1

/-- `_random_hadamard(HAD_SIZE, seed).to(torch.float32)`. -/
def hadamard (draw : ℕ → ℕ → Bool) (seed : ℕ) : List (List ℚ) :=
  scaled (1 / 8) (randomHadamard 1 64 (drawnSigns draw seed))

section Scaling

variable {R : Type*} [CommRing R] {inv c : R} {H : List (List R)}

theorem length_sylvesterStep (inv : R) (H : List (List R)) :
    (sylvesterStep inv H).length = H.length + H.length := by
  simp [sylvesterStep]

theorem sylvesterStep_scaled (inv c : R) (H : List (List R)) :
    sylvesterStep inv (scaled c H) = scaled (c * inv) (sylvesterStep 1 H) := by
  simp only [sylvesterStep, scaled, List.map_append, List.map_map, mul_one]
  congr 1
  · refine List.map_congr_left fun r _ => ?_
    simp [mul_assoc, Function.comp_def]
  · refine List.map_congr_left fun r _ => ?_
    simp [mul_assoc, Function.comp_def]

theorem scaled_one (H : List (List R)) : scaled 1 H = H := by simp [scaled]

theorem iterate_sylvesterStep (inv : R) (H : List (List R)) (d : ℕ) :
    (sylvesterStep inv)^[d] H = scaled (inv ^ d) ((sylvesterStep 1)^[d] H) := by
  induction d with
  | zero => rw [pow_zero, scaled_one, Function.iterate_zero, Function.iterate_zero]
  | succ d ih =>
    rw [Function.iterate_succ_apply', ih, sylvesterStep_scaled, Function.iterate_succ_apply',
      pow_succ]

theorem sylvesterLoop_eq_iterate (inv : R) {k d fuel : ℕ} (hH : H.length = 2 ^ k) (hf : d ≤ fuel) :
    sylvesterLoop inv (2 ^ (k + d)) fuel H = (sylvesterStep inv)^[d] H := by
  induction d generalizing k fuel H with
  | zero =>
    cases fuel with
    | zero => rfl
    | succ fuel =>
      rw [sylvesterLoop, hH, Nat.add_zero, if_neg (lt_irrefl _), Function.iterate_zero, id]
  | succ d ih =>
    obtain ⟨fuel, rfl⟩ : ∃ f, fuel = f + 1 := ⟨fuel - 1, by omega⟩
    have hlt : H.length < 2 ^ (k + (d + 1)) := by
      rw [hH]
      exact Nat.pow_lt_pow_right (by norm_num) (by omega)
    have hstep : (sylvesterStep inv H).length = 2 ^ (k + 1) := by
      rw [length_sylvesterStep, hH, pow_succ, mul_two]
    rw [sylvesterLoop, if_pos hlt, show k + (d + 1) = (k + 1) + d by omega,
      ih hstep (by omega), Function.iterate_succ_apply]

theorem hadamardSylvester_eq (inv : R) (k : ℕ) :
    hadamardSylvester inv (2 ^ k) = scaled (inv ^ k) (hadamardSylvester 1 (2 ^ k)) := by
  have hloop : ∀ inv : R, hadamardSylvester inv (2 ^ k) = (sylvesterStep inv)^[k] [[1]] := by
    intro inv
    have hone : ([[1]] : List (List R)).length = 2 ^ 0 := by simp
    have h := sylvesterLoop_eq_iterate inv hone (Nat.lt_two_pow_self (n := k)).le
    rwa [Nat.zero_add] at h
  rw [hloop, iterate_sylvesterStep, ← hloop]

theorem zipWith_signs_scaled (signs : List R) :
    ((scaled c H).map fun r => r.zipWith (· * ·) signs) =
      scaled c (H.map fun r => r.zipWith (· * ·) signs) := by
  simp only [scaled, List.map_map]
  refine List.map_congr_left fun r _ => ?_
  simp only [Function.comp_apply, List.zipWith_map_left, List.map_zipWith]
  congr 1
  funext a s
  ring

end Scaling

section Cast

variable {R S : Type*} [CommRing R] [CommRing S] (f : R →+* S) {n : ℕ} {H : List (List R)}

def mapEntries (H : List (List R)) : List (List S) := H.map fun r => r.map f

theorem sylvesterStep_mapEntries (inv : R) (H : List (List R)) :
    sylvesterStep (f inv) (mapEntries f H) = mapEntries f (sylvesterStep inv H) := by
  simp [sylvesterStep, mapEntries, Function.comp_def]

theorem sylvesterLoop_mapEntries (inv : R) (n fuel : ℕ) (H : List (List R)) :
    sylvesterLoop (f inv) n fuel (mapEntries f H) = mapEntries f (sylvesterLoop inv n fuel H) := by
  induction fuel generalizing H with
  | zero => rfl
  | succ fuel ih =>
    rw [sylvesterLoop, sylvesterLoop, sylvesterStep_mapEntries, ih]
    have hlen : (mapEntries f H).length = H.length := List.length_map _
    rw [hlen]
    split_ifs <;> rfl

theorem mapEntries_scaled (c : R) (H : List (List R)) :
    mapEntries f (scaled c H) = scaled (f c) (mapEntries f H) := by
  simp [mapEntries, scaled, Function.comp_def]

theorem mapEntries_randomHadamard (inv : R) (n : ℕ) (signs : List R) :
    mapEntries f (randomHadamard inv n signs) = randomHadamard (f inv) n (signs.map f) := by
  have hone : mapEntries f [[1]] = [[1]] := by simp [mapEntries]
  rw [randomHadamard, randomHadamard, hadamardSylvester, hadamardSylvester, ← hone,
    sylvesterLoop_mapEntries]
  simp only [mapEntries, List.map_map]
  refine List.map_congr_left fun r _ => ?_
  simp [List.zipWith_map, List.map_zipWith]

theorem dot_map (a b : List R) : dot (a.map f) (b.map f) = f (dot a b) := by
  rw [dot, dot, List.zipWith_map, map_list_sum, List.map_zipWith]
  simp only [map_mul]

theorem Orthonormal.of_mapEntries (hf : Function.Injective f)
    (h : Orthonormal n (mapEntries f H)) : Orthonormal n H where
  length_eq := by
    rw [← h.length_eq]
    exact (List.length_map _).symm
  length_row := by
    intro r hr
    rw [← h.length_row _ (List.mem_map_of_mem hr), List.length_map]
  dot_eq i j hi hj := by
    have he := h.dot_eq i j (by simpa [mapEntries] using hi) (by simpa [mapEntries] using hj)
    simp only [mapEntries, List.getElem_map, dot_map] at he
    apply hf
    rw [he]
    split_ifs <;> simp

end Cast

section Real

variable (draw : ℕ → ℕ → Bool) (seed : ℕ)

theorem mul_self_of_mem_drawnSigns {s : ℝ} (h : s ∈ (drawnSigns draw seed : List ℝ)) :
    s * s = 1 := by
  obtain ⟨i, -, rfl⟩ := List.mem_map.mp h
  split_ifs <;> norm_num

theorem map_drawnSigns :
    (drawnSigns draw seed : List ℚ).map (Rat.castHom ℝ) = drawnSigns draw seed := by
  simp only [drawnSigns, List.map_map]
  refine List.map_congr_left fun i _ => ?_
  cases h : draw seed i <;> simp [h]

theorem mapEntries_hadamard : mapEntries (Rat.castHom ℝ) (hadamard draw seed) =
    randomHadamard (1 / √2) 64 (drawnSigns draw seed) := by
  have hroot : (1 / √2 : ℝ) ^ 6 = 1 / 8 := by
    have hsq : (1 / √2 : ℝ) ^ 2 = 1 / 2 := by
      rw [div_pow, one_pow, Real.sq_sqrt (by norm_num)]
    calc (1 / √2 : ℝ) ^ 6 = ((1 / √2) ^ 2) ^ 3 := by ring
      _ = 1 / 8 := by
        rw [hsq]
        norm_num
  have hcode : randomHadamard (1 / √2) 64 (drawnSigns draw seed : List ℝ) =
      scaled ((1 / √2) ^ 6) (randomHadamard 1 64 (drawnSigns draw seed)) := by
    rw [randomHadamard, show 64 = 2 ^ 6 by norm_num, hadamardSylvester_eq, zipWith_signs_scaled,
      randomHadamard]
  rw [hadamard, mapEntries_scaled, mapEntries_randomHadamard, map_drawnSigns, hcode, hroot, map_one]
  norm_num

theorem hadamard_orthonormal : Orthonormal 64 (hadamard draw seed) := by
  have hinv : 2 * (1 / √2 * (1 / √2)) = (1 : ℝ) := by
    rw [div_mul_div_comm, Real.mul_self_sqrt (by norm_num)]
    norm_num
  have hreal : Orthonormal 64 (randomHadamard (1 / √2) 64 (drawnSigns draw seed : List ℝ)) :=
    (Orthonormal.hadamardSylvester hinv 6).zipWith_signs (by simp [drawnSigns])
      fun s => mul_self_of_mem_drawnSigns draw seed
  rw [← mapEntries_hadamard] at hreal
  exact hreal.of_mapEntries _ Rat.cast_injective

end Real

end K8sLearn.Hif4

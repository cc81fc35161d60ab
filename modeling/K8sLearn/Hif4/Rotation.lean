import Mathlib.Algebra.BigOperators.Group.Finset.Basic
import Mathlib.Data.Matrix.Mul
import Mathlib.LinearAlgebra.Matrix.NonsingularInverse
import Mathlib.Tactic.LinearCombination
import K8sLearn.Lib.Tensor

/-! # Rotations

`_hadamard_sylvester` doubles an orthonormal matrix until it is large enough, and
`_random_hadamard` changes the signs of its columns. `_apply_hadamard` multiplies each run
of channels by the matrix, so products of rows stay what they are. The root of one half is
a parameter here, and only that two of its squares are one is used.
-/

namespace K8sLearn.Hif4

variable {R : Type*} [CommRing R]

section Definitions

/-- One pass of the loop of `_hadamard_sylvester`. -/
def sylvesterStep (inv : R) (H : List (List R)) : List (List R) :=
  ((H.map fun r => r ++ r) ++ H.map fun r => r ++ r.map (- ·)).map fun r => r.map (· * inv)

/-- The loop, which runs while there are fewer than `n` rows. -/
def sylvesterLoop (inv : R) (n : ℕ) : ℕ → List (List R) → List (List R)
  | 0, H => H
  | fuel + 1, H => if H.length < n then sylvesterLoop inv n fuel (sylvesterStep inv H) else H

/-- `_hadamard_sylvester`; each pass adds a row, so there are at most `n` of them. -/
def hadamardSylvester (inv : R) (n : ℕ) : List (List R) := sylvesterLoop inv n n [[1]]

def randomHadamard (inv : R) (n : ℕ) (signs : List R) : List (List R) :=
  (hadamardSylvester inv n).map fun r => r.zipWith (· * ·) signs

def entry (H : List (List R)) (i j : ℕ) : R := (H.getD i []).getD j 0

def applyHadamard (x : Tensor R) (H : List (List R)) : Option (Tensor R) :=
  let h := H.length
  if x.shape = [] ∨ h = 0 ∨ x.shape.getLastD 0 % h ≠ 0 then none
  else
    some {
      shape := x.shape
      data := (List.range x.data.length).map fun i =>
        ∑ l ∈ Finset.range h, x.data.getD (i / h * h + l) 0 * entry H l (i % h)
      length_data := by simp [x.length_data] }

/-- `x @ w.t()`, for a matrix `w`. -/
def matmulTranspose (x w : Tensor R) : Option (Tensor R) :=
  match w.shape with
  | [n, c] =>
    if x.shape = [] ∨ x.shape.getLastD 0 ≠ c then none
    else
      some {
        shape := x.shape.dropLast ++ [n]
        data := (List.range x.shape.dropLast.prod).flatMap fun r => (List.range n).map fun s =>
          ∑ l ∈ Finset.range c, x.data.getD (r * c + l) 0 * w.data.getD (s * c + l) 0
        length_data := by simp }
  | _ => none

end Definitions

section Dot

def dot (a b : List R) : R := (a.zipWith (· * ·) b).sum

theorem dot_append {a b c d : List R} (h : a.length = c.length) :
    dot (a ++ b) (c ++ d) = dot a c + dot b d := by
  rw [dot, List.zipWith_append h, List.sum_append, dot, dot]

theorem dot_map_neg_right (a b : List R) : dot a (b.map (- ·)) = -dot a b := by
  induction a generalizing b with
  | nil => simp [dot]
  | cons x a ih =>
    cases b with
    | nil => simp [dot]
    | cons y b =>
      have := ih b
      simp only [dot, List.map_cons, List.zipWith_cons_cons, List.sum_cons] at this ⊢
      rw [this]
      ring

theorem dot_comm (a b : List R) : dot a b = dot b a := by
  rw [dot, List.zipWith_comm_of_comm mul_comm, dot]

theorem dot_map_neg_left (a b : List R) : dot (a.map (- ·)) b = -dot a b := by
  rw [dot_comm, dot_map_neg_right, dot_comm]

theorem dot_map_mul (a b : List R) (c : R) :
    dot (a.map (· * c)) (b.map (· * c)) = c * c * dot a b := by
  induction a generalizing b with
  | nil => simp [dot]
  | cons x a ih =>
    cases b with
    | nil => simp [dot]
    | cons y b =>
      have := ih b
      simp only [dot, List.map_cons, List.zipWith_cons_cons, List.sum_cons] at this ⊢
      rw [this]
      ring

theorem dot_zipWith_signs {a b signs : List R} (ha : a.length ≤ signs.length)
    (hs : ∀ s ∈ signs, s * s = 1) :
    dot (a.zipWith (· * ·) signs) (b.zipWith (· * ·) signs) = dot a b := by
  induction a generalizing b signs with
  | nil => simp [dot]
  | cons x a ih =>
    cases signs with
    | nil => simp at ha
    | cons s signs =>
      cases b with
      | nil => simp [dot]
      | cons y b =>
        have := ih (b := b) (by simpa using ha) fun s hs' => hs s (List.mem_cons_of_mem _ hs')
        have hss := hs s List.mem_cons_self
        simp only [dot, List.zipWith_cons_cons, List.sum_cons] at this ⊢
        rw [this]
        linear_combination x * y * hss

theorem dot_eq_sum {a b : List R} {n : ℕ} (ha : a.length = n) (hb : b.length = n) :
    dot a b = ∑ j ∈ Finset.range n, a.getD j 0 * b.getD j 0 := by
  induction n generalizing a b with
  | zero =>
    obtain rfl := List.length_eq_zero_iff.mp ha
    simp [dot]
  | succ n ih =>
    obtain ⟨x, a, rfl⟩ := List.exists_cons_of_length_eq_add_one ha
    obtain ⟨y, b, rfl⟩ := List.exists_cons_of_length_eq_add_one hb
    have := ih (a := a) (b := b) (by simpa using ha) (by simpa using hb)
    rw [Finset.sum_range_succ']
    simp only [List.getD_cons_succ, List.getD_cons_zero, ← this]
    simp only [dot, List.zipWith_cons_cons, List.sum_cons]
    ring

end Dot

structure Orthonormal (n : ℕ) (H : List (List R)) : Prop where
  length_eq : H.length = n
  length_row : ∀ r ∈ H, r.length = n
  dot_eq : ∀ (i j : ℕ) (hi : i < H.length) (hj : j < H.length),
    dot H[i] H[j] = if i = j then 1 else 0

namespace Orthonormal

variable {inv : R} {n : ℕ} {H : List (List R)}

theorem one : Orthonormal 1 [[(1 : R)]] where
  length_eq := rfl
  length_row := by simp
  dot_eq i j hi hj := by
    obtain rfl : i = 0 := by simpa using hi
    obtain rfl : j = 0 := by simpa using hj
    simp [dot]

theorem sylvesterStep (hinv : 2 * (inv * inv) = 1) (h : Orthonormal n H) :
    Orthonormal (n + n) (Hif4.sylvesterStep inv H) where
  length_eq := by simp [Hif4.sylvesterStep, h.length_eq]
  length_row := by
    intro r hr
    simp only [Hif4.sylvesterStep, List.mem_map, List.mem_append] at hr
    obtain ⟨s, ⟨t, ht, rfl⟩ | ⟨t, ht, rfl⟩, rfl⟩ := hr
    · simp [h.length_row t ht]
    · simp [h.length_row t ht]
  dot_eq := by
    have hlen : ∀ (i j : ℕ) (hi : i < H.length) (hj : j < H.length),
        H[i].length = H[j].length := fun i j hi hj =>
      (h.length_row _ (List.getElem_mem hi)).trans (h.length_row _ (List.getElem_mem hj)).symm
    intro i j hi hj
    simp only [Hif4.sylvesterStep, List.length_map, List.length_append] at hi hj
    simp only [Hif4.sylvesterStep, List.getElem_map, dot_map_mul]
    -- the upper and the lower half of the rows
    rcases lt_or_ge i H.length with hi' | hi' <;> rcases lt_or_ge j H.length with hj' | hj'
    · have he := h.dot_eq i j hi' hj'
      rw [List.getElem_append_left (by simpa using hi'),
        List.getElem_append_left (by simpa using hj')]
      simp only [List.getElem_map]
      rw [dot_append (hlen _ _ _ _), he]
      linear_combination (if i = j then 1 else 0) * hinv
    · rw [List.getElem_append_left (by simpa using hi'),
        List.getElem_append_right (by simpa using hj')]
      simp only [List.getElem_map, List.length_map]
      rw [dot_append (hlen _ _ _ _), dot_map_neg_right, if_neg (by omega)]
      ring
    · rw [List.getElem_append_right (by simpa using hi'),
        List.getElem_append_left (by simpa using hj')]
      simp only [List.getElem_map, List.length_map]
      rw [dot_append (hlen _ _ _ _), dot_map_neg_left, if_neg (by omega)]
      ring
    · have he := h.dot_eq (i - H.length) (j - H.length) (by omega) (by omega)
      rw [List.getElem_append_right (by simpa using hi'),
        List.getElem_append_right (by simpa using hj')]
      simp only [List.getElem_map, List.length_map]
      rw [dot_append (hlen _ _ _ _), dot_map_neg_left, dot_map_neg_right, neg_neg, he]
      have hij : (i - H.length = j - H.length) = (i = j) := propext (by omega)
      simp only [hij]
      linear_combination (if i = j then 1 else 0) * hinv

theorem sylvesterLoop (hinv : 2 * (inv * inv) = 1) {k d fuel : ℕ} (h : Orthonormal (2 ^ k) H)
    (hf : d ≤ fuel) : Orthonormal (2 ^ (k + d)) (Hif4.sylvesterLoop inv (2 ^ (k + d)) fuel H) := by
  induction d generalizing k fuel H with
  | zero =>
    cases fuel with
    | zero => exact h
    | succ fuel =>
      rw [Hif4.sylvesterLoop, if_neg (by rw [h.length_eq]; simp)]
      exact h
  | succ d ih =>
    obtain ⟨fuel, rfl⟩ : ∃ f, fuel = f + 1 := ⟨fuel - 1, by omega⟩
    have hlt : H.length < 2 ^ (k + (d + 1)) := by
      rw [h.length_eq]
      exact Nat.pow_lt_pow_right (by norm_num) (by omega)
    have hstep := h.sylvesterStep hinv
    rw [← two_mul, ← pow_succ'] at hstep
    rw [Hif4.sylvesterLoop, if_pos hlt, show k + (d + 1) = (k + 1) + d by omega]
    exact ih hstep (by omega)

theorem hadamardSylvester (hinv : 2 * (inv * inv) = 1) (k : ℕ) :
    Orthonormal (2 ^ k) (Hif4.hadamardSylvester inv (2 ^ k)) := by
  have hone : Orthonormal (2 ^ 0) [[(1 : R)]] := one
  have h := hone.sylvesterLoop hinv (Nat.lt_two_pow_self (n := k)).le
  rwa [zero_add] at h

theorem zipWith_signs (h : Orthonormal n H) {signs : List R} (hl : signs.length = n)
    (hs : ∀ s ∈ signs, s * s = 1) :
    Orthonormal n (H.map fun r => r.zipWith (· * ·) signs) where
  length_eq := by simp [h.length_eq]
  length_row := by
    intro r hr
    obtain ⟨t, ht, rfl⟩ := List.mem_map.mp hr
    simp [h.length_row t ht, hl]
  dot_eq i j hi hj := by
    simp only [List.length_map] at hi hj
    have hle : H[i].length ≤ signs.length := by
      rw [h.length_row _ (List.getElem_mem hi), hl]
    simp only [List.getElem_map]
    rw [dot_zipWith_signs hle hs]
    exact h.dot_eq i j hi hj

theorem sum_entry (h : Orthonormal n H) {l m : ℕ} (hl : l < n) (hm : m < n) :
    ∑ j ∈ Finset.range n, entry H l j * entry H m j = if l = m then 1 else 0 := by
  rw [← h.dot_eq l m (by rwa [h.length_eq]) (by rwa [h.length_eq]),
    dot_eq_sum (h.length_row _ (List.getElem_mem _)) (h.length_row _ (List.getElem_mem _))]
  simp [entry, h.length_eq, hl, hm]

end Orthonormal

section Rotate

variable {n : ℕ} {H : List (List R)}

def toMatrix (n : ℕ) (H : List (List R)) : Matrix (Fin n) (Fin n) R := fun i j => entry H i j

theorem Orthonormal.toMatrix_mul_transpose (h : Orthonormal n H) :
    toMatrix n H * (toMatrix n H).transpose = 1 ∧
      (toMatrix n H).transpose * toMatrix n H = 1 := by
  have hrows : toMatrix n H * (toMatrix n H).transpose = 1 := by
    ext i j
    rw [Matrix.mul_apply, Matrix.one_apply]
    simp only [Matrix.transpose_apply, toMatrix]
    rw [Fin.sum_univ_eq_sum_range (fun l => entry H i l * entry H j l) n,
      h.sum_entry i.isLt j.isLt]
    simp only [Fin.ext_iff]
  exact ⟨hrows, mul_eq_one_comm.mp hrows⟩

theorem sum_range_runs {M : Type*} [AddCommMonoid M] (f : ℕ → M) (b n : ℕ) :
    ∑ c ∈ Finset.range (b * n), f c =
      ∑ i ∈ Finset.range b, ∑ j ∈ Finset.range n, f (i * n + j) := by
  induction b with
  | zero => simp
  | succ b ih => rw [Nat.succ_mul, Finset.sum_range_add, Finset.sum_range_succ, ih]

/-- The channel `c` of a row after the rotation. -/
def rotate (H : List (List R)) (a : ℕ → R) (c : ℕ) : R :=
  ∑ l ∈ Finset.range H.length, a (c / H.length * H.length + l) * entry H l (c % H.length)

theorem Orthonormal.sum_rotate (h : Orthonormal n H) (hn : 0 < n) (a b : ℕ → R) (runs : ℕ) :
    ∑ c ∈ Finset.range (runs * n), rotate H a c * rotate H b c =
      ∑ c ∈ Finset.range (runs * n), a c * b c := by
  rw [sum_range_runs, sum_range_runs]
  refine Finset.sum_congr rfl fun i _ => ?_
  have hrun : ∀ (a : ℕ → R), ∀ j ∈ Finset.range n, rotate H a (i * n + j) =
      ∑ l ∈ Finset.range n, a (i * n + l) * entry H l j := by
    intro a j hj
    have hj := Finset.mem_range.mp hj
    rw [rotate, h.length_eq, Nat.mul_add_mod_of_lt hj, mul_comm i n, Nat.mul_add_div hn,
      Nat.div_eq_of_lt hj, add_zero, mul_comm n i]
  calc ∑ j ∈ Finset.range n, rotate H a (i * n + j) * rotate H b (i * n + j)
      = ∑ j ∈ Finset.range n, ∑ l ∈ Finset.range n, ∑ m ∈ Finset.range n,
          a (i * n + l) * b (i * n + m) * (entry H l j * entry H m j) := by
        refine Finset.sum_congr rfl fun j hj => ?_
        rw [hrun a j hj, hrun b j hj, Finset.sum_mul_sum]
        refine Finset.sum_congr rfl fun l _ => Finset.sum_congr rfl fun m _ => ?_
        ring
    _ = ∑ l ∈ Finset.range n, ∑ m ∈ Finset.range n,
          a (i * n + l) * b (i * n + m) * if l = m then 1 else 0 := by
        rw [Finset.sum_comm]
        refine Finset.sum_congr rfl fun l hl => ?_
        rw [Finset.sum_comm]
        refine Finset.sum_congr rfl fun m hm => ?_
        rw [← Finset.mul_sum, h.sum_entry (Finset.mem_range.mp hl) (Finset.mem_range.mp hm)]
    _ = ∑ l ∈ Finset.range n, a (i * n + l) * b (i * n + l) := by
        refine Finset.sum_congr rfl fun l hl => ?_
        simp [Finset.mem_range.mp hl]

theorem rotate_add {a : ℕ → R} {base : ℕ} (hd : H.length ∣ base) (h0 : 0 < H.length) (c : ℕ) :
    rotate H a (base + c) = rotate H (fun l => a (base + l)) c := by
  obtain ⟨q, rfl⟩ := hd
  simp only [rotate, Nat.mul_add_mod, Nat.mul_add_div h0]
  refine Finset.sum_congr rfl fun l _ => ?_
  congr 2
  ring

theorem exists_applyHadamard {x : Tensor R} {init : List ℕ} {c : ℕ} (hx : x.shape = init ++ [c])
    (h0 : 0 < H.length) (hc : H.length ∣ c) :
    ∃ y, applyHadamard x H = some y ∧ y.shape = x.shape ∧
      ∀ i < x.data.length, y.data.getD i 0 = rotate H (fun l => x.data.getD l 0) i := by
  have hguard : ¬ (x.shape = [] ∨ H.length = 0 ∨ x.shape.getLastD 0 % H.length ≠ 0) := by
    simp [hx, h0.ne', Nat.mod_eq_zero_of_dvd hc]
  unfold applyHadamard
  dsimp only
  rw [if_neg hguard]
  refine ⟨_, rfl, rfl, fun i hi => ?_⟩
  rw [List.getD_eq_getElem _ _ (by simpa using hi)]
  simp [rotate]

end Rotate

section Turned

variable {n : ℕ} {H : List (List R)}

/-- The tensor `y` is `x`, scaled element by element and then rotated. -/
structure Turned (H : List (List R)) (s : ℕ → R) (x y : Tensor R) : Prop where
  shape_eq : y.shape = x.shape
  getD_eq : ∀ i < x.data.length, y.data.getD i 0 = rotate H (fun l => x.data.getD l 0 * s l) i

theorem exists_turned {f : R → R → R} {g : R → R} (hf : ∀ a d, f a d = a * g d) {x D : Tensor R}
    {init : List ℕ} {c : ℕ} (hx : x.shape = init ++ [c]) (hD : D.shape = [c])
    (h0 : 0 < H.length) (hc : H.length ∣ c) :
    ∃ y, ((Tensor.broadcastWith f x D).bind fun x => applyHadamard x H) = some y ∧
      Turned H (fun l => g (D.data.getD (l % c) 0)) x y := by
  obtain ⟨x₁, hx₁, hs₁, hd₁⟩ := Tensor.broadcastWith_channels (f := f) hx hD
  obtain ⟨y, hy, hs, hd⟩ := exists_applyHadamard (hs₁.trans hx) h0 hc
  have hlen : x₁.data.length = x.data.length := by rw [x₁.length_data, hs₁, x.length_data]
  refine ⟨y, by rw [hx₁, Option.bind_some, hy], hs.trans hs₁, fun i hi => ?_⟩
  rw [hd i (hlen ▸ hi)]
  congr 1
  funext l
  by_cases hl : l < x.data.length
  · rw [hd₁ l 0 0 0 hl, hf]
  · rw [List.getD_eq_default _ _ (by omega), List.getD_eq_default _ _ (by omega), zero_mul]

theorem Orthonormal.sum_turned (h : Orthonormal n H) (hn : 0 < n) {s t : ℕ → R}
    {x y w z : Tensor R} (hy : Turned H s x y) (hz : Turned H t w z) {p q m : ℕ} (hp : n ∣ p)
    (hq : n ∣ q) (hm : n ∣ m) (hpx : p + m ≤ x.data.length) (hqw : q + m ≤ w.data.length)
    (hst : ∀ l < m, s (p + l) * t (q + l) = 1) :
    ∑ l ∈ Finset.range m, y.data.getD (p + l) 0 * z.data.getD (q + l) 0 =
      ∑ l ∈ Finset.range m, x.data.getD (p + l) 0 * w.data.getD (q + l) 0 := by
  have h0 : 0 < H.length := h.length_eq.symm ▸ hn
  obtain ⟨runs, rfl⟩ := hm
  calc ∑ l ∈ Finset.range (n * runs), y.data.getD (p + l) 0 * z.data.getD (q + l) 0
      = ∑ l ∈ Finset.range (runs * n), rotate H (fun l => x.data.getD (p + l) 0 * s (p + l)) l *
          rotate H (fun l => w.data.getD (q + l) 0 * t (q + l)) l := by
        rw [mul_comm n runs]
        refine Finset.sum_congr rfl fun l hl => ?_
        have hl := Finset.mem_range.mp hl
        rw [mul_comm n runs] at hpx hqw
        rw [hy.getD_eq _ (by omega), hz.getD_eq _ (by omega),
          rotate_add (h.length_eq.symm ▸ hp) h0, rotate_add (h.length_eq.symm ▸ hq) h0]
    _ = ∑ l ∈ Finset.range (runs * n), x.data.getD (p + l) 0 * s (p + l) *
          (w.data.getD (q + l) 0 * t (q + l)) := h.sum_rotate hn _ _ runs
    _ = ∑ l ∈ Finset.range (n * runs), x.data.getD (p + l) 0 * w.data.getD (q + l) 0 := by
        rw [mul_comm n runs]
        refine Finset.sum_congr rfl fun l hl => ?_
        rw [mul_comm n runs] at hst
        have hone := hst l (Finset.mem_range.mp hl)
        linear_combination x.data.getD (p + l) 0 * w.data.getD (q + l) 0 * hone

end Turned

section Linear

theorem matmulTranspose_eq {x w : Tensor R} {init : List ℕ} {rows c : ℕ}
    (hx : x.shape = init ++ [c]) (hw : w.shape = [rows, c]) :
    ∃ y, matmulTranspose x w = some y ∧ y.shape = init ++ [rows] ∧
      y.data = (List.range init.prod).flatMap fun r => (List.range rows).map fun s =>
        ∑ l ∈ Finset.range c, x.data.getD (r * c + l) 0 * w.data.getD (s * c + l) 0 := by
  unfold matmulTranspose
  split
  case h_1 n' c' hn' =>
    obtain ⟨rfl, rfl⟩ : rows = n' ∧ c = c' := by simpa [hw] using hn'
    have hguard : ¬ (x.shape = [] ∨ x.shape.getLastD 0 ≠ c) := by simp [hx]
    refine ⟨_, if_neg hguard, ?_, ?_⟩
    · simp [hx]
    · simp [hx]
  case h_2 hne => exact absurd hw (hne _ _)

variable {K : Type*} [Field K]

/-- `x * (1.0 / D)`. -/
def smoothActivation (x D : Tensor K) : Option (Tensor K) :=
  Tensor.broadcastWith (fun a d => a * (1 / d)) x D

/-- `w * D`. -/
def smoothWeight (w D : Tensor K) : Option (Tensor K) := Tensor.broadcastWith (· * ·) w D

theorem Orthonormal.matmul_smooth {n : ℕ} {H : List (List K)} (h : Orthonormal n H) (hn : 0 < n)
    {x w D : Tensor K} {init : List ℕ} {rows c : ℕ} (hx : x.shape = init ++ [c])
    (hw : w.shape = [rows, c]) (hD : D.shape = [c]) (hD0 : ∀ d ∈ D.data, d ≠ 0) (hc : n ∣ c) :
    ∃ y, matmulTranspose x w = some y ∧
      (((smoothActivation x D).bind fun x => applyHadamard x H).bind fun x =>
        ((smoothWeight w D).bind fun w => applyHadamard w H).bind fun w =>
          matmulTranspose x w) = some y := by
  have h0 : 0 < H.length := h.length_eq.symm ▸ hn
  have hc' : H.length ∣ c := h.length_eq.symm ▸ hc
  obtain ⟨x', hx', hxt⟩ := exists_turned (f := fun a d : K => a * (1 / d)) (g := fun d => 1 / d)
    (fun _ _ => rfl) hx hD h0 hc'
  have hw' : w.shape = [rows] ++ [c] := hw
  obtain ⟨w', hw'', hwt⟩ := exists_turned (f := fun a d : K => a * d) (g := id)
    (fun _ _ => rfl) hw' hD h0 hc'
  obtain ⟨y, hy, hys, hyd⟩ := matmulTranspose_eq hx hw
  obtain ⟨z, hz, hzs, hzd⟩ :=
    matmulTranspose_eq (hxt.shape_eq.trans hx) (hwt.shape_eq.trans hw)
  have hyz : z = y := by
    refine Tensor.ext (hzs.trans hys.symm) ?_
    rw [hyd, hzd]
    refine List.flatMap_congr fun r hr => List.map_congr_left fun s hs => ?_
    apply h.sum_turned hn hxt hwt (Dvd.dvd.mul_left hc r) (Dvd.dvd.mul_left hc s) hc
      (Tensor.row_add_le hx (List.mem_range.mp hr)) (Tensor.row_add_le hw' (by simpa using hs))
    intro l hl
    have hdl : l < D.data.length := by simpa [D.length_data, hD] using hl
    rw [Nat.mul_add_mod_of_lt hl, Nat.mul_add_mod_of_lt hl, List.getD_eq_getElem _ _ hdl,
      id, one_div_mul_cancel (hD0 _ (List.getElem_mem hdl))]
  refine ⟨y, hy, ?_⟩
  rw [smoothActivation, hx', Option.bind_some, smoothWeight, hw'', Option.bind_some, hz, hyz]

end Linear

end K8sLearn.Hif4
